/-!
# Texts that explain the command
-/
namespace MeowScript.Help

def version : String := "0.1.0"

def versionLine : String := "meow " ++ version ++ "\n"

/-- Each on a line of its own. -/
def onLines (lines : List String) : String := String.join (lines.map (· ++ "\n"))

/-- How the command is used. -/
def command : String :=
  onLines [
    "meow - The MeowScript Compiler v" ++ version,
    "",
    "Compiles MeowScript programs down to three-address code. Nothing is run;",
    "the compiler stops after the intermediate code is produced.",
    "",
    "USAGE:",
    "    meow                    Start the REPL (interactive mode)",
    "    meow <file.meow>        Compile a MeowScript program",
    "    meow -e \"code\"          Compile statements directly",
    "    meow -                  Read a program from stdin",
    "    meow [OPTIONS]",
    "",
    "OPTIONS:",
    "    -h, --help          Print this help message",
    "    -V, --version       Print version information",
    "    -i, --repl          Start the REPL (interactive mode)",
    "    -e <code>           Compile statements directly (no Wake/Sleep needed)",
    "    -v, --verbose       Show tokens, tree and code; repeat for trace logging",
    "    --tokens            Print the token stream",
    "    --ast               Print the annotated syntax tree",
    "    --tac-only          Print only the three-address code",
    "    -o, --output <file> Write the three-address code to a file",
    "",
    "EXAMPLE:",
    "    meow -e \"Box x paws 5 Purr (x < 10) \x7b Meow(x) \x7d\"",
    "",
    "    x = 5",
    "    t0 = x < 10",
    "    if_false t0 goto L0",
    "    print x",
    "    L0:",
    "",
    "LANGUAGE:",
    "    Wake ... Sleep      Program start and end",
    "    Box x paws 1        Declare a variable",
    "    x paws x + 1        Assign",
    "    Hunt f(a, b) \x7b \x7d    Define a function",
    "    Bring a + b         Return a value",
    "    Purr (c) \x7b \x7d Hiss \x7b \x7d",
    "                        If / else",
    "    Chase (c) \x7b \x7d       While loop",
    "    Meow(x)             Print",
    ""]

/-- What a dialogue begins with. -/
def greeting : String :=
  onLines [
    "",
    "  /\\_/\\",
    " ( o.o )  MeowScript",
    "  > ^ <",
    "",
    "MeowScript REPL v" ++ version,
    "Statements are compiled as you type; each input shows the code it adds.",
    "Type .help for commands, .exit to quit.",
    "Use arrow keys for history.",
    ""]

/-- How a dialogue is led. -/
def dialogue : String :=
  onLines [
    "",
    "REPL Commands:",
    "    .help, .h          Show this help message",
    "    .exit, .quit, .q   Exit the REPL",
    "    .clear             Forget all statements entered so far",
    "    .tac               Show the code for the whole session",
    "    .ast               Show the annotated syntax tree of the session",
    "    .load <file>       Compile a .meow file and show its code",
    "",
    "Navigation:",
    "    Up/Down arrows     Navigate command history",
    "    Ctrl-C             Cancel current input",
    "    Ctrl-D             Exit REPL",
    "",
    "Examples:",
    "    Box x paws 5       Declare a variable",
    "    x paws x * 2       Assign",
    "    Meow(x)            Print",
    "",
    "    Hunt add(a, b) \x7b Bring a + b \x7d",
    "                       Define a function",
    "    Meow(add(3, 4))    Call it",
    "",
    "Tips:",
    "    - Multi-line input: open braces are auto-detected",
    "    - Declarations persist across inputs",
    "    - Inputs that fail to compile are discarded",
    "    - History is saved to ~/.meow_history",
    ""]

end MeowScript.Help
