import MeowScript.Proofs.Places.Rejection

/-!
# Counting lines from the second one

A dialogue shows the diagnostics of its first input with lines counted from the second line of what
is compiled. The positions are moved up by one line, and never too far. A message is left as it is,
also the one that names the line of an earlier declaration.

Results:
* `shift_lineUp`, `shift_zero`: what shifting does to diagnostics behind the first line.
* `lineUp_diagnostics_iff`: the diagnostics with all their line numbers one lower.
-/
namespace MeowScript

/-! ## One line up -/

def Position.lineUp (p : Position) : Position := { p with line := p.line - 1 }

/-- The same diagnostic one line up. -/
def Diagnostic.lineUp (d : Diagnostic) : Diagnostic := { d with position := d.position.lineUp }

/-- The same fault, where everything is declared one line up. -/
def SemanticFault.lineUp : SemanticFault → SemanticFault
  | .redeclaration name line => .redeclaration name (line - 1)
  | f => f

namespace Rejection

/-- The rejection with every line number one lower. -/
def lineUp : Rejection → Rejection
  | lexical fs => lexical (fs.map fun f => ⟨f.cause, f.position.lineUp⟩)
  | syntactic fs => syntactic (fs.map fun f => ⟨f.cause, f.position.lineUp⟩)
  | semantic fs => semantic (fs.map fun f => ⟨f.cause.lineUp, f.position.lineUp⟩)

/-- A name was declared a second time. -/
def Redeclares : Rejection → Prop
  | semantic fs => ∃ f ∈ fs, ∃ name line, f.cause = .redeclaration name line
  | _ => False

theorem Within.diagnostics {P : Position → Prop} {r : Rejection} (h : r.Within P) :
    ∀ d ∈ r.diagnostics, P d.position := by
  cases r with
  | lexical fs => exact List.forall_mem_map.mpr h
  | syntactic fs => exact List.forall_mem_map.mpr h
  | semantic fs => exact List.forall_mem_map.mpr fun f hf => (h f hf).1

end Rejection

/-! ## Shifting -/

section
variable {d : Diagnostic} (h : Later d.position)
include h

theorem shift_zero : d.shift 0 = d := by
  have hline : max 1 (d.position.line - 0) = d.position.line := by
    unfold Later at h
    omega
  rw [Diagnostic.shift, hline]

theorem shift_lineUp : d.shift 1 = d.lineUp := by
  have hline : max 1 (d.position.line - 1) = d.position.line - 1 := by
    unfold Later at h
    omega
  rw [Diagnostic.shift, hline]
  rfl

end

/-! ## Messages -/

/-- The message changes with the line that it names. -/
theorem message_lineUp_iff {f : Located SemanticFault} (h : Placed Later f) :
    f.cause.message = f.cause.lineUp.message ↔
      ¬ ∃ name line, f.cause = .redeclaration name line := by
  obtain ⟨cause, position⟩ := f
  cases cause with
  | redeclaration name line =>
    obtain ⟨p, hp, rfl⟩ := h.2 name line rfl
    refine ⟨fun hm => ?_, fun hnone => absurd ⟨name, p.line, rfl⟩ hnone⟩
    dsimp only [SemanticFault.lineUp, SemanticFault.message] at hm
    rw [String.append_left_inj, String.append_right_inj] at hm
    have hline : p.line = p.line - 1 := toString_injective hm
    unfold Later at hp
    omega
  | _ =>
    refine ⟨fun _ hsome => ?_, fun _ => rfl⟩
    obtain ⟨_, _, hcause⟩ := hsome
    cases hcause

/-- All line numbers are one lower if and only if no message names a line. -/
theorem lineUp_diagnostics_iff {r : Rejection} (h : r.Within Later) :
    r.diagnostics.map Diagnostic.lineUp = r.lineUp.diagnostics ↔ ¬ r.Redeclares := by
  cases r with
  | lexical fs | syntactic fs =>
    simp [Rejection.diagnostics, Rejection.lineUp, Rejection.Redeclares, Diagnostic.lineUp]
  | semantic fs =>
    have hcode : ∀ f : SemanticFault, f.lineUp.code = f.code := fun f => by cases f <;> rfl
    simp only [Rejection.diagnostics, Rejection.lineUp, Rejection.Redeclares, List.map_map,
      List.map_inj_left, Function.comp_apply, Diagnostic.lineUp, Diagnostic.mk.injEq, true_and,
      and_true, hcode, not_exists, not_and]
    refine forall₂_congr fun f hf => ?_
    rw [message_lineUp_iff (h f hf)]
    simp only [not_exists]

end MeowScript
