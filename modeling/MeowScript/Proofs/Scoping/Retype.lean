import Mathlib.Data.List.Forall2
import MeowScript.Scope.Stack

/-!
# What a change of type leaves alone

The type of a symbol changes in one scope of the stack. Whatever is known of each scope, apart from
the types in it, is known of the changed stack as well.

Results:
* `forall₂_retype`, `forall₂_retypeAt`: a relation scope by scope that types do not matter to.
-/
namespace MeowScript

namespace Scopes

variable {β : Type} {R : Scope → β → Prop} {name : String} {ty : Ty}
  (hR : ∀ {s : Scope} {b : β}, R s b → R (s.retype name ty) b)
  {ss : List Scope} {bs : List β}
include hR

theorem forall₂_retype (h : List.Forall₂ R ss bs) : List.Forall₂ R (retype.go name ty ss) bs := by
  induction h with
  | nil => exact .nil
  | cons hs ht ih =>
    rw [retype.go]
    split
    · exact .cons (hR hs) ht
    · exact .cons hs ih

theorem forall₂_retypeAt (depth : Nat) (h : List.Forall₂ R ss bs) :
    List.Forall₂ R (retypeAt.go depth name ty ss) bs := by
  induction h with
  | nil => exact .nil
  | cons hs ht ih =>
    rw [retypeAt.go]
    split
    · exact .cons (hR hs) ht
    · exact .cons hs ih

end Scopes
end MeowScript
