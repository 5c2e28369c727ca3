import Mathlib.Data.List.Basic
import Mathlib.Data.List.Induction
import MeowScript.Command.Options

/-!
# Arguments in groups

The arguments of a command line belong together in groups: a flag, an option with its value, or an
input. What groups ask for does not depend on their order, but for the last output named; and
whether they are accepted depends on the number of inputs alone.

Results:
* `Request.read_append`: more arguments behind.
* `Group.arguments_append_inj`, `exists_groups`: accepted arguments are cut in one way.
* `read_groups`: what groups ask for.
* `options_in_any_order`: with these, groups may be put in any order.
-/
namespace MeowScript.Options

/-! ## Reading on -/

namespace Request

variable {r r' : Request} {argument : String} {args rest : List String} {fault : UsageFault}

theorem read_flag {change : Request → Request} (h : flag? argument = some change) :
    r.read (argument :: rest) = (change r).read rest := by
  rw [read.eq_def]
  simp only [h]

theorem read_output {option : String} (h : option = "-o" ∨ option = "--output") (path : String) :
    r.read (option :: path :: rest) = { r with output := some path }.read rest := by
  obtain rfl | rfl := h <;> rfl

theorem read_inline (code : String) :
    r.read ("-e" :: code :: rest) =
      (r.give "-e" (.inline code)).bind (·.read rest) := by
  rw [read.eq_def]
  cases h : r.give "-e" (.inline code) <;> simp [flag?, h, Except.bind]

/-- An argument that is no option is an input, or is not known. -/
theorem read_input (hflag : flag? argument = none)
    (ho : ¬ (argument = "-o" ∨ argument = "--output")) (he : argument ≠ "-e") :
    r.read (argument :: rest) =
      (sourceNamed argument).bind fun input => (r.give argument input).bind (·.read rest) := by
  rw [read.eq_def]
  cases hs : sourceNamed argument with
  | error e => simp [hflag, ho, he, hs, Except.bind]
  | ok input => cases hg : r.give argument input <;> simp [hflag, ho, he, hs, hg, Except.bind]

/-! ## More arguments behind -/

/-- Only an option without its value would take the argument behind it. -/
theorem read_append (hvalue : ∀ option, r.read args ≠ .error (.missingValue option))
    (more : List String) : r.read (args ++ more) = (r.read args).bind (·.read more) := by
  fun_induction read r args with
  | case1 r => rfl
  | case2 r argument rest change hflag ih => rw [List.cons_append, read_flag hflag, ih hvalue]
  | case3 => exact absurd rfl (hvalue _)
  | case4 r option hflag ho path rest ih =>
    rw [List.cons_append, List.cons_append, read_output ho, ih hvalue]
  | case5 => exact absurd rfl (hvalue _)
  | case6 r code rest e hflag ho hgive =>
    rw [List.cons_append, List.cons_append, read_inline, hgive]
    rfl
  | case7 r code rest r₁ hflag ho hgive ih =>
    rw [List.cons_append, List.cons_append, read_inline, hgive]
    exact ih hvalue
  | case8 r argument rest hflag ho he e hs =>
    rw [List.cons_append, read_input hflag ho he, hs]
    rfl
  | case9 r argument rest hflag ho he input hs e hgive =>
    rw [List.cons_append, read_input hflag ho he, hs]
    show (r.give argument input).bind _ = _
    rw [hgive]
    rfl
  | case10 r argument rest hflag ho he input hs r₁ hgive ih =>
    rw [List.cons_append, read_input hflag ho he, hs, Except.bind, hgive]
    exact ih hvalue

theorem read_append_ok (h : r.read args = .ok r') (more : List String) :
    r.read (args ++ more) = r'.read more := by
  rw [read_append (by rw [h]; nofun), h, Except.bind]

theorem read_append_fault (h : r.read args = .error fault)
    (hvalue : ∀ option, fault ≠ .missingValue option) (more : List String) :
    r.read (args ++ more) = .error fault := by
  rw [read_append (fun option he => ?_), h, Except.bind]
  rw [h] at he
  exact hvalue option (Except.error.inj he)

end Request

/-! ## Groups -/

/-- The arguments that are flags. -/
def flags : List String :=
  ["-h", "--help", "-V", "--version", "-i", "--repl", "-v", "--verbose", "-vv", "--tokens", "--ast",
    "--tac-only"]

/-- Arguments that belong together. -/
inductive Group where
  | flag (argument : String) (known : argument ∈ flags)
  | output (option path : String) (named : option ∈ ["-o", "--output"])
  | inline (code : String)
  | input (argument : String) (named : argument = "-" ∨ argument.toList.head? ≠ some '-')
  deriving DecidableEq

namespace Group

def arguments : Group → List String
  | flag argument _ => [argument]
  | output option path _ => [option, path]
  | inline code => ["-e", code]
  | input argument _ => [argument]

def flag? : Group → Option String
  | flag argument _ => some argument
  | _ => none

def output? : Group → Option String
  | output _ path _ => some path
  | _ => none

def isOutput (g : Group) : Bool := g.output?.isSome

def source? : Group → Option Source
  | inline code => some (.inline code)
  | input argument _ => some (if argument = "-" then .stdin else .file argument)
  | _ => none

end Group

/-! ## The cut -/

/-- What kind of group an argument opens. -/
inductive Opening where
  | flag | output | inline | input
  deriving DecidableEq

def opening (argument : String) : Opening :=
  if argument ∈ flags then .flag
  else if argument ∈ ["-o", "--output"] then .output
  else if argument = "-e" then .inline
  else .input

theorem input_no_option {argument : String}
    (h : argument = "-" ∨ argument.toList.head? ≠ some '-') :
    argument ∉ flags ∧ argument ∉ ["-o", "--output"] ∧ argument ≠ "-e" := by
  have hdash : ∀ option ∈ "-e" :: "-o" :: "--output" :: flags,
      option ≠ "-" ∧ option.toList.head? = some '-' := by decide
  have hnot : argument ∉ "-e" :: "-o" :: "--output" :: flags := fun hmem =>
    h.elim (hdash _ hmem).1 fun hhead => hhead (hdash _ hmem).2
  simp_all

theorem opening_of_input {argument : String}
    (h : argument = "-" ∨ argument.toList.head? ≠ some '-') : opening argument = .input := by
  obtain ⟨hflags, houtput, hinline⟩ := input_no_option h
  rw [opening, if_neg hflags, if_neg houtput, if_neg hinline]

theorem opening_of_output {option : String} (h : option ∈ ["-o", "--output"]) :
    opening option = .output := by
  revert option
  decide

namespace Group

variable {g g' : Group} {rest rest' : List String}

def opening : Group → Opening
  | flag .. => .flag
  | output .. => .output
  | inline .. => .inline
  | input .. => .input

theorem arguments_ne_nil (g : Group) : g.arguments ≠ [] := by
  cases g <;> simp [arguments]

theorem opening_head (g : Group) :
    g.arguments.head?.map Options.opening = some g.opening := by
  cases g with
  | flag argument known => simp [arguments, opening, Options.opening, known]
  | output option path named => simp [arguments, opening, opening_of_output named]
  | inline code => rfl
  | input argument named => simp [arguments, opening, opening_of_input named]

/-- The first argument tells what kind of group it is, so the group ends in one place. -/
theorem arguments_append_inj (h : g.arguments ++ rest = g'.arguments ++ rest') :
    g = g' ∧ rest = rest' := by
  have hkind : some g.opening = some g'.opening := by
    rw [← opening_head, ← opening_head, ← List.head?_append_of_ne_nil _ g.arguments_ne_nil, h,
      List.head?_append_of_ne_nil _ g'.arguments_ne_nil]
  cases g <;> cases g' <;> simp_all [arguments, opening]

end Group

theorem flatMap_arguments_injective :
    Function.Injective fun gs : List Group => gs.flatMap Group.arguments := by
  intro gs
  induction gs with
  | nil =>
    rintro (_ | ⟨g', gs'⟩) h
    · rfl
    · simp [g'.arguments_ne_nil] at h
  | cons g gs ih =>
    rintro (_ | ⟨g', gs'⟩) h
    · simp [g.arguments_ne_nil] at h
    · simp only [List.flatMap_cons] at h
      obtain ⟨rfl, hrest⟩ := Group.arguments_append_inj h
      rw [ih hrest]

/-! ## Every accepted command line is cut -/

theorem mem_flags {argument : String} {change : Request → Request}
    (h : Request.flag? argument = some change) : argument ∈ flags := by
  unfold Request.flag? at h
  split at h <;> first | decide | cases h

theorem input_of_sourceNamed {argument : String} {input : Source}
    (h : Request.sourceNamed argument = .ok input) :
    argument = "-" ∨ argument.toList.head? ≠ some '-' := by
  unfold Request.sourceNamed at h
  split_ifs at h with hstdin hoption
  · exact .inl hstdin
  · exact .inr hoption

theorem exists_groups {r r' : Request} {args : List String} (h : r.read args = .ok r') :
    ∃ gs : List Group, gs.flatMap Group.arguments = args := by
  fun_induction Request.read r args with
  | case1 r => exact ⟨[], rfl⟩
  | case2 r argument rest change hflag ih =>
    obtain ⟨gs, hgs⟩ := ih h
    exact ⟨.flag argument (mem_flags hflag) :: gs, by simp [Group.arguments, hgs]⟩
  | case3 => cases h
  | case4 r option hflag ho path rest ih =>
    obtain ⟨gs, hgs⟩ := ih h
    exact ⟨.output option path (by simpa using ho) :: gs, by simp [Group.arguments, hgs]⟩
  | case5 => cases h
  | case6 => cases h
  | case7 r code rest r₁ hflag ho hgive ih =>
    obtain ⟨gs, hgs⟩ := ih h
    exact ⟨.inline code :: gs, by simp [Group.arguments, hgs]⟩
  | case8 => cases h
  | case9 => cases h
  | case10 r argument rest hflag ho he input hs r₁ hgive ih =>
    obtain ⟨gs, hgs⟩ := ih h
    exact ⟨.input argument (input_of_sourceNamed hs) :: gs, by simp [Group.arguments, hgs]⟩

/-! ## What groups ask for -/

/-- What flags, outputs and inputs ask for. The last output counts. -/
def asked (given outputs : List String) (inputs : List Source) : Request where
  help := given.contains "-h" || given.contains "--help"
  version := given.contains "-V" || given.contains "--version"
  repl := given.contains "-i" || given.contains "--repl"
  verbosity := min 255 (given.count "-v" + given.count "--verbose" + 2 * given.count "-vv")
  tokens := given.contains "--tokens"
  outline := given.contains "--ast"
  codeOnly := given.contains "--tac-only"
  output := outputs.getLast?
  input := inputs.head?

def Request.of (gs : List Group) : Request :=
  asked (gs.filterMap Group.flag?) (gs.filterMap Group.output?) (gs.filterMap Group.source?)

theorem asked_flag {argument : String} (known : argument ∈ flags) (given outputs : List String)
    (inputs : List Source) : ∃ change, Request.flag? argument = some change ∧
      change (asked given outputs inputs) = asked (given ++ [argument]) outputs inputs := by
  simp only [flags, List.mem_cons, List.not_mem_nil, or_false] at known
  rcases known with rfl | rfl | rfl | rfl | rfl | rfl | rfl | rfl | rfl | rfl | rfl | rfl
  all_goals
    refine ⟨_, rfl, ?_⟩
    simp [asked, Request.louder, List.count_append]
    -- what is left are the counts, once cut at 255 and once not
    try omega

variable {g : Group} {gs : List Group}

theorem read_group_of_no_source (h : g.source? = none) :
    (Request.of gs).read g.arguments = .ok (Request.of (gs ++ [g])) := by
  cases g with
  | flag argument known =>
    obtain ⟨change, hflag, hchange⟩ := asked_flag known (gs.filterMap Group.flag?)
      (gs.filterMap Group.output?) (gs.filterMap Group.source?)
    rw [Group.arguments, Request.read_flag hflag, Request.read]
    simp [Request.of, hchange, List.filterMap_cons, Group.flag?, Group.output?, Group.source?]
  | output option path named =>
    rw [Group.arguments, Request.read_output (by simpa using named), Request.read]
    simp [Request.of, asked, List.filterMap_cons, Group.flag?, Group.output?, Group.source?]
  | inline code => cases h
  | input argument named => cases h

/-- An input is given once. -/
theorem read_group_of_source (gs : List Group) {input : Source} (h : g.source? = some input) :
    ∃ argument, (Request.of gs).read g.arguments = (Request.of gs).give argument input := by
  have hbind : ∀ e : Except UsageFault Request, (e.bind fun r => r.read []) = e := by
    rintro (_ | _) <;> rfl
  cases g with
  | flag argument known => cases h
  | output option path named => cases h
  | inline code =>
    cases h
    exact ⟨"-e", by rw [Group.arguments, Request.read_inline, hbind]⟩
  | input argument named =>
    cases h
    refine ⟨argument, ?_⟩
    obtain ⟨hflags, houtput, hinline⟩ := input_no_option named
    have hflag : Request.flag? argument = none :=
      Option.eq_none_iff_forall_ne_some.mpr fun _ h => hflags (mem_flags h)
    have hsource : Request.sourceNamed argument =
        .ok (if argument = "-" then .stdin else .file argument) := by
      unfold Request.sourceNamed
      split_ifs <;> simp_all
    rw [Group.arguments, Request.read_input hflag (by simpa using houtput) hinline, hsource]
    exact hbind _

theorem give_of {input : Source} (argument : String) (h : g.source? = some input) :
    (Request.of gs).give argument input =
      if gs.filterMap Group.source? = [] then .ok (Request.of (gs ++ [g]))
      else .error (.extraInput argument) := by
  have hflag : g.flag? = none := by cases g <;> first | rfl | cases h
  have houtput : g.output? = none := by cases g <;> first | rfl | cases h
  cases hs : gs.filterMap Group.source? with
  | nil => simp [Request.give, Request.of, asked, hs, h, hflag, houtput]
  | cons first inputs => simp [Request.give, Request.of, asked, hs]

/-- Groups are accepted where they have one input at most. -/
theorem read_groups (gs : List Group) :
    if (gs.filterMap Group.source?).length ≤ 1 then
      Request.nothing.read (gs.flatMap Group.arguments) = .ok (Request.of gs)
    else
      ∃ argument, Request.nothing.read (gs.flatMap Group.arguments) =
        .error (.extraInput argument) := by
  induction gs using List.reverseRecOn with
  | nil => rfl
  | append_singleton gs g ih =>
    rw [List.flatMap_append, List.flatMap_singleton, List.filterMap_append]
    by_cases hone : (gs.filterMap Group.source?).length ≤ 1
    · rw [if_pos hone] at ih
      rw [Request.read_append_ok ih]
      cases hsource : g.source? with
      | none => simpa [List.filterMap_cons, hsource, hone] using read_group_of_no_source hsource
      | some input =>
        obtain ⟨argument, hread⟩ := read_group_of_source gs hsource
        rw [hread, give_of argument hsource]
        cases hs : gs.filterMap Group.source? with
        | nil => simp [hsource]
        | cons first inputs => simp [hsource]
    · rw [if_neg hone] at ih
      obtain ⟨argument, hread⟩ := ih
      rw [if_neg (by simp at hone ⊢; omega)]
      exact ⟨argument, Request.read_append_fault hread nofun _⟩

/-! ## The order of groups -/

theorem filterMap_output_filter (gs : List Group) :
    (gs.filter Group.isOutput).filterMap Group.output? = gs.filterMap Group.output? := by
  rw [List.filterMap_filter]
  refine List.filterMap_congr fun g _ => ?_
  cases g <;> rfl

theorem asked_perm {given given' : List String} {inputs inputs' : List Source}
    (hgiven : given'.Perm given) (hinputs : inputs'.Perm inputs) (hone : inputs.length ≤ 1)
    (outputs : List String) : asked given' outputs inputs' = asked given outputs inputs := by
  have hsame : inputs' = inputs := by
    match inputs, hone with
    | [], _ => exact hinputs.eq_nil
    | [input], _ => exact List.perm_singleton.mp hinputs
  simp only [asked, hgiven.contains_eq, hgiven.count_eq, hsame]

theorem Request.of_perm {gs' : List Group} (hperm : gs'.Perm gs)
    (houtputs : gs'.filter Group.isOutput = gs.filter Group.isOutput)
    (hone : (gs.filterMap Group.source?).length ≤ 1) : Request.of gs' = Request.of gs := by
  rw [Request.of, Request.of, ← filterMap_output_filter gs', houtputs, filterMap_output_filter]
  exact asked_perm (hperm.filterMap _) (hperm.filterMap _) hone _

theorem ofArgs_groups (hone : (gs.filterMap Group.source?).length ≤ 1) :
    ofArgs (gs.flatMap Group.arguments) = .ok (Request.of gs).options := by
  have hread := read_groups gs
  rw [if_pos hone] at hread
  rw [ofArgs, hread, Except.map]

theorem one_input_of_ofArgs {o : Options} (h : ofArgs (gs.flatMap Group.arguments) = .ok o) :
    (gs.filterMap Group.source?).length ≤ 1 := by
  by_contra hmany
  have hread := read_groups gs
  rw [if_neg hmany] at hread
  obtain ⟨argument, hread⟩ := hread
  rw [ofArgs, hread] at h
  cases h

theorem exists_groups_of_ofArgs {args : List String} {o : Options} (h : ofArgs args = .ok o) :
    ∃ gs : List Group, gs.flatMap Group.arguments = args := by
  cases hread : Request.nothing.read args with
  | error fault => rw [ofArgs, hread] at h; cases h
  | ok r => exact exists_groups hread

theorem ofArgs_append_fault {args : List String} {fault : UsageFault}
    (h : ofArgs args = .error fault) (hvalue : ∀ option, fault ≠ .missingValue option)
    (more : List String) : ofArgs (args ++ more) = .error fault := by
  cases hread : Request.nothing.read args with
  | ok r => rw [ofArgs, hread] at h; cases h
  | error e =>
    rw [ofArgs, hread] at h
    cases h
    rw [ofArgs, Request.read_append_fault hread hvalue more, Except.map]

/-- Arguments that are accepted are cut into groups in one way. They say how loud the command is,
and in any order that keeps the outputs in theirs they give the same options. An option that is not
known, or a second input, is refused whatever comes behind it. -/
theorem options_in_any_order (args : List String) :
    (∀ o, ofArgs args = .ok o → ∃ gs : List Group,
      (∀ gs' : List Group, gs'.flatMap Group.arguments = args ↔ gs' = gs) ∧
      (let given := gs.filterMap Group.flag?
       o.verbosity =
         min 255 (given.count "-v" + given.count "--verbose" + 2 * given.count "-vv")) ∧
      ∀ gs' : List Group, gs'.Perm gs → gs'.filter Group.isOutput = gs.filter Group.isOutput →
        ofArgs (gs'.flatMap Group.arguments) = .ok o) ∧
    ∀ fault more, ofArgs args = .error fault → (∀ option, fault ≠ .missingValue option) →
      ofArgs (args ++ more) = .error fault := by
  refine ⟨fun o ho => ?_, fun fault more h hvalue => ofArgs_append_fault h hvalue more⟩
  obtain ⟨gs, rfl⟩ := exists_groups_of_ofArgs ho
  have hone := one_input_of_ofArgs ho
  have hoptions := (ofArgs_groups hone).symm.trans ho
  cases hoptions
  refine ⟨gs, fun gs' => flatMap_arguments_injective.eq_iff, rfl, fun gs' hperm houtputs => ?_⟩
  have hone' : (gs'.filterMap Group.source?).length ≤ 1 :=
    (hperm.filterMap Group.source?).length_eq ▸ hone
  rw [ofArgs_groups hone', Request.of_perm hperm houtputs hone]

/-- The first `-v` behind `-o` is a path, and the last output stays the last. -/
theorem options_in_any_order_outputs :
    let options : Options := ⟨.compile (.file "cat.meow"), 3, false, false, false, some "b"⟩
    ofArgs ["-v", "-o", "-v", "cat.meow", "-vv", "-o", "b"] = .ok options ∧
      ofArgs ["cat.meow", "-o", "-v", "-o", "b", "-vv", "-v"] = .ok options ∧
      ofArgs ["--purr"] = .error (.unknownOption "--purr") ∧
      ofArgs ["--purr", "-o"] = .error (.unknownOption "--purr") := by
  intro options
  have haccepted : ofArgs ["-v", "-o", "-v", "cat.meow", "-vv", "-o", "b"] = .ok options := by
    decide
  have hrefused : ofArgs ["--purr"] = .error (.unknownOption "--purr") := by decide
  let quiet : Group := .flag "-v" (by decide)
  let loud : Group := .flag "-vv" (by decide)
  let first : Group := .output "-o" "-v" (by decide)
  let last : Group := .output "-o" "b" (by decide)
  let cat : Group := .input "cat.meow" (by decide)
  obtain ⟨gs, hcut, -, horder⟩ := (options_in_any_order _).1 options haccepted
  obtain rfl : [quiet, first, cat, loud, last] = gs := (hcut _).mp rfl
  exact ⟨haccepted, horder [cat, first, last, loud, quiet] (by decide) (by decide), hrefused,
    (options_in_any_order _).2 _ ["-o"] hrefused nofun⟩

end MeowScript.Options
