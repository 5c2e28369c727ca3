import Mathlib.Data.List.TakeWhile
import MeowScript.Compilation
import MeowScript.Proofs.Grammar.Exact
import MeowScript.Proofs.Lexing.Contents

/-!
# Declared names are words of the text

Every name that a program declares is an identifier among its tokens, and an identifier is made of
letters, digits and underscores. So no such name has a point in it.

Results:
* `tokensOf_identifier_cons`, `tokensOf_identifier`: identifiers are words.
* `StmtSpelled.declares`: a declared name is an identifier among the tokens.
* `Stmt.checkAll_declared`: checking notes declared names only.
* `declared_word`: with these, what checking a read text has noted are words.
-/
namespace MeowScript

/-- Nothing but letters, digits and underscores. -/
def IsWord (name : String) : Prop := ∀ c ∈ name.toList, Piece.isWordChar c = true

/-! ## From text to tokens -/

/-- An identifier begins like a word and goes on like one. -/
theorem tokensOf_identifier_cons {source : String} {toks : List Token}
    (h : tokensOf source = .ok toks) {t : Token} (ht : t ∈ toks) {name : String}
    (hk : t.kind = .identifier name) :
    ∃ c cs, name.toList = c :: cs ∧ Piece.isWordStart c = true ∧
      ∀ d ∈ cs, Piece.isWordChar d = true := by
  rcases tokensOf_kind h ht with hend | ⟨c, cs, hreads⟩
  · rw [hend] at hk
    cases hk
  · rw [hk] at hreads
    cases hreads with
    | identifier hc => exact ⟨c, _, String.toList_ofList, hc, fun d hd => List.mem_takeWhile_imp hd⟩

theorem tokensOf_identifier {source : String} {toks : List Token}
    (h : tokensOf source = .ok toks) {t : Token} (ht : t ∈ toks) {name : String}
    (hk : t.kind = .identifier name) : IsWord name := by
  obtain ⟨c, cs, hname, hc, hcs⟩ := tokensOf_identifier_cons h ht hk
  rw [IsWord, hname, List.forall_mem_cons]
  exact ⟨Piece.isWordChar_of_isWordStart hc, hcs⟩

/-! ## From tokens to trees -/

mutual

/-- The names of the variables that a statement and those in it declare, with parameters. -/
def Stmt.declares : Stmt → List String
  | .declare name _ _ _ => [name]
  | .define _ params body _ => params.map Param.name ++ Stmt.allDeclare body
  | .ifThen _ body _ | .loop _ body _ => Stmt.allDeclare body
  | .ifElse _ body otherwise _ => Stmt.allDeclare body ++ Stmt.allDeclare otherwise
  | .assign _ _ _ _ | .call _ _ _ | .bring _ _ | .print _ _ => []

def Stmt.allDeclare : List Stmt → List String
  | [] => []
  | s :: ss => Stmt.declares s ++ Stmt.allDeclare ss

end

theorem mem_allDeclare {ss : List Stmt} {name : String} :
    name ∈ Stmt.allDeclare ss ↔ ∃ s ∈ ss, name ∈ s.declares := by
  induction ss with
  | nil => simp [Stmt.allDeclare]
  | cons s ss ih => simp [Stmt.allDeclare, ih]

/-- One of the tokens is this identifier. -/
def Mentions (toks : List Token) (name : String) : Prop := ∃ t ∈ toks, t.kind = .identifier name

theorem Mentions.mono {toks more : List Token} {name : String} (h : Mentions toks name)
    (hm : toks ⊆ more) : Mentions more name := by
  obtain ⟨t, ht, hk⟩ := h
  exact ⟨t, hm ht, hk⟩

theorem mem_spelling {α : Type} {parts : List (List Token × α)} {x : List Token × α}
    (h : x ∈ parts) : x.1 ⊆ spelling parts := by
  intro t ht
  exact List.mem_flatten.mpr ⟨x.1, List.mem_map.mpr ⟨x, h, rfl⟩, ht⟩

/-- If what each part declares is mentioned there, so is what all declare. -/
theorem mentions_body {body : List (List Token × Stmt)} {name : String}
    (ih : ∀ x ∈ body, name ∈ x.2.declares → Mentions x.1 name)
    (h : name ∈ Stmt.allDeclare (meanings body)) : Mentions (spelling body) name := by
  obtain ⟨s, hs, hn⟩ := mem_allDeclare.mp h
  obtain ⟨x, hx, rfl⟩ := List.mem_map.mp hs
  exact (ih x hx hn).mono (mem_spelling hx)

theorem Braced.subset {inner toks : List Token} (h : Braced inner toks) : inner ⊆ toks := by
  cases h with
  | mk => intro t ht; simp [ht]

theorem CommaEach.subset {α : Type} {xs : List (List Token × α)} {toks : List Token}
    (h : CommaEach xs toks) {x : List Token × α} (hx : x ∈ xs) : x.1 ⊆ toks := by
  induction h with
  | nil => cases hx
  | cons _ _ ih =>
    intro t ht
    rcases List.mem_cons.mp hx with rfl | hx
    · simp [ht]
    · simp [ih hx ht]

theorem Listed.subset {α : Type} {xs : List (List Token × α)} {toks : List Token}
    (h : Listed xs toks) {x : List Token × α} (hx : x ∈ xs) : x.1 ⊆ toks := by
  cases h with
  | none => cases hx
  | some hmore =>
    intro t ht
    rcases List.mem_cons.mp hx with rfl | hx
    · simp [ht]
    · simp [hmore.subset hx ht]

theorem StmtSpelled.declares {toks : List Token} {s : Stmt} (h : StmtSpelled toks s)
    {name : String} (hn : name ∈ s.declares) : Mentions toks name := by
  induction h with
  | @declare t n w _ toks e _ hname =>
    rw [Stmt.declares, List.mem_singleton] at hn
    exact ⟨n, by simp, hn ▸ hname⟩
  | assign | call | bring | print => simp [Stmt.declares] at hn
  | @define t n o c _ params toks block body _ _ _ hp hl _ _ hb ih =>
    rw [Stmt.declares, List.mem_append] at hn
    rcases hn with hn | hn
    · obtain ⟨param, hparam, rfl⟩ := List.mem_map.mp hn
      obtain ⟨x, hx, rfl⟩ := List.mem_map.mp hparam
      have hmentions : Mentions x.1 x.2.name := by
        cases x with
        | mk used param =>
          cases hp _ hx with
          | mk ht => exact ⟨_, List.mem_singleton_self _, ht⟩
      exact hmentions.mono fun t ht => by simp [hl.subset hx ht]
    · exact (mentions_body ih hn).mono fun t ht => by simp [hb.subset ht]
  | ifThen _ _ _ hb ih | loop _ _ _ hb ih =>
    exact (mentions_body ih hn).mono fun t ht => by simp [hb.subset ht]
  | ifElse _ _ _ hb _ _ hb' ih ih' =>
    rw [Stmt.declares, List.mem_append] at hn
    rcases hn with hn | hn
    · exact (mentions_body ih hn).mono fun t ht => by simp [hb.subset ht]
    · exact (mentions_body ih' hn).mono fun t ht => by simp [hb'.subset ht]

/-- The statements of a read program are spelled among the tokens. -/
theorem ofTokens_spelled {toks : List Token} {p : Program} (h : Program.ofTokens toks = .ok p) :
    ∃ parts, (∀ x ∈ parts, StmtSpelled x.1 x.2) ∧ p.body = meanings parts ∧
      spelling parts ⊆ toks := by
  rw [Program.ofTokens, ← toOption_eq_some] at h
  obtain ⟨w, s, rest, hahead, -, -, hread, -⟩ := (TokenStream.program_iff _ _ p).mp h
  obtain ⟨parts, hrest, hspelled, hbody⟩ := statements_sound rest _ hread
  refine ⟨parts, hspelled, hbody, fun t ht => ?_⟩
  simp only at hrest
  have hmem : t ∈ toks.takeWhile fun t => !isFinish t := by
    rw [hahead, hrest]
    simp [ht]
  exact List.takeWhile_subset _ hmem

/-- What a read program declares is mentioned. -/
theorem ofTokens_declares {toks : List Token} {p : Program} (h : Program.ofTokens toks = .ok p)
    {name : String} (hn : name ∈ Stmt.allDeclare p.body) : Mentions toks name := by
  obtain ⟨parts, hspelled, hbody, hsubset⟩ := ofTokens_spelled h
  rw [hbody] at hn
  exact (mentions_body (fun x hx => (hspelled x hx).declares) hn).mono hsubset

/-! ## What checking notes -/

namespace Checker

@[simp] theorem store_declared (c : Checker) (name : String) (found : Ty) (p : Position)
    (target : Option Symbol) : (c.store name found p target).after.declared = c.declared := by
  unfold store
  split
  · rfl
  · split
    · rfl
    · split <;> rfl

@[simp] theorem bring_declared (c : Checker) (found : Ty) (p : Position) :
    (c.bring found p).after.declared = c.declared := by
  unfold bring
  split
  · rfl
  · split
    · rfl
    · split
      · rfl
      · split <;> rfl

@[simp] theorem enter_declared (c : Checker) : c.enter.declared = c.declared := rfl

@[simp] theorem exit_declared (c : Checker) : c.exit.declared = c.declared := rfl

theorem mem_declareVar {c : Checker} {name x : String} {ty : Ty} {p : Position}
    (h : x ∈ (c.declareVar name ty p).after.declared) : x = name ∨ x ∈ c.declared := by
  unfold declareVar at h
  dsimp only at h
  split at h
  · exact List.mem_cons.mp h
  · exact .inr h

theorem mem_declareParams {params : List Param} {c : Checker} {x : String}
    (h : x ∈ (c.declareParams params).after.declared) :
    x ∈ params.map Param.name ∨ x ∈ c.declared := by
  induction params generalizing c with
  | nil => exact .inr h
  | cons q params ih =>
    rcases ih h with h | h
    · exact .inl (List.mem_cons_of_mem _ h)
    · rcases mem_declareVar h with rfl | h
      · exact .inl List.mem_cons_self
      · exact .inr h

end Checker

mutual

theorem Stmt.check_declared (c : Checker) (x : String) : ∀ s : Stmt,
    x ∈ (Stmt.check c s).after.declared → x ∈ s.declares ∨ x ∈ c.declared
  | .declare name _ _ _, h => by
    rw [Stmt.declares, List.mem_singleton]
    exact Checker.mem_declareVar h
  | .assign _ _ _ _, h => by
    simp only [Stmt.check, Checker.store_declared] at h
    exact .inr h
  | .define _ params body _, h => by
    rw [Stmt.check] at h
    split at h
    · exact .inr h
    · rw [Stmt.declares, List.mem_append]
      rcases Stmt.checkAll_declared _ x body h with h | h
      · exact .inl (.inr h)
      · rcases Checker.mem_declareParams h with h | h
        · exact .inl (.inl h)
        · exact .inr h
  | .call _ _ _, h => .inr h
  | .ifThen _ body _, h | .loop _ body _, h => Stmt.checkAll_declared c.enter x body h
  | .ifElse _ body otherwise _, h => by
    rw [Stmt.declares, List.mem_append]
    rcases Stmt.checkAll_declared _ x otherwise h with h | h
    · exact .inl (.inr h)
    · exact (Stmt.checkAll_declared c.enter x body h).imp_left .inl
  | .bring _ _, h => by
    simp only [Stmt.check, Checker.bring_declared] at h
    exact .inr h
  | .print _ _, h => .inr h

theorem Stmt.checkAll_declared (c : Checker) (x : String) : ∀ ss : List Stmt,
    x ∈ (Stmt.checkAll c ss).after.declared → x ∈ Stmt.allDeclare ss ∨ x ∈ c.declared
  | [], h => .inr h
  | s :: ss, h => by
    rw [Stmt.allDeclare, List.mem_append]
    rcases Stmt.checkAll_declared _ x ss h with h | h
    · exact .inl (.inr h)
    · exact (Stmt.check_declared c x s h).imp_left .inl

end

/-! ## From text to trees -/

/-- What a text compiles to is what the check makes of a tree. -/
theorem Compilation.check_of_ofText {source : String} {c : Compilation}
    (h : ofText source = .ok c) :
    ∃ tree, tokensOf source = .ok c.tokens ∧ Program.ofTokens c.tokens = .ok tree ∧
      tree.check = .ok c.program := by
  unfold ofText at h
  split at h
  · cases h
  · next toks htoks =>
    split at h
    · cases h
    · next tree htree =>
      split at h
      · cases h
      · next program hprogram =>
        cases h
        exact ⟨tree, htoks, htree, hprogram⟩

/-- What a text compiles to, step by step. -/
theorem Compilation.of_ofText {source : String} {c : Compilation} (h : ofText source = .ok c) :
    ∃ tree, tokensOf source = .ok c.tokens ∧ Program.ofTokens c.tokens = .ok tree ∧
      (Stmt.checkAll .start tree.body).faults = [] ∧
      c.program.body = (Stmt.checkAll .start tree.body).value := by
  obtain ⟨tree, htoks, htree, hprogram⟩ := Compilation.check_of_ofText h
  refine ⟨tree, htoks, htree, ?_⟩
  unfold Program.check at hprogram
  dsimp only at hprogram
  split at hprogram
  · next hfaults => exact ⟨hfaults, (congrArg Program.body (Except.ok.inj hprogram)).symm⟩
  · cases hprogram

theorem Compilation.code_of_ofText {source : String} {c : Compilation} (h : ofText source = .ok c) :
    c.code = c.program.lower := by
  unfold ofText at h
  split at h
  · cases h
  · split at h
    · cases h
    · split at h
      · cases h
      · cases h
        rfl

/-- Every name noted while a read text is checked is a word. -/
theorem declared_word {source : String} {toks : List Token} {p : Program}
    (ht : tokensOf source = .ok toks) (hp : Program.ofTokens toks = .ok p) {x : String}
    (hx : x ∈ (Stmt.checkAll .start p.body).after.declared) : IsWord x := by
  have hdeclares : x ∈ Stmt.allDeclare p.body :=
    (Stmt.checkAll_declared .start x p.body hx).resolve_right List.not_mem_nil
  obtain ⟨t, hmem, hk⟩ := ofTokens_declares hp hdeclares
  exact tokensOf_identifier ht hmem hk

end MeowScript
