import MeowScript.Proofs.Meaning.Numbering

/-!
# Lowering keeps the meaning

The machine goes through the code of a statement as the tree semantics runs the statement. Code is
looked at where it stands: `before` it lies code whose labels have smaller numbers, so that a jump
to one of its own labels finds the right place, and `rest` follows it. Two invariants carry the
induction: an expression leaves alone the temporaries numbered before it, and a statement leaves
the parameters alone.

Results:
* `Expr.lower_steps`, `Expr.lowerArgs_steps`: the code of an expression leaves its value in its
  operand, that of arguments leaves them as parameters.
* `Stmt.lower_follows`, `Stmt.lowerAll_follows`: statements run to the same end, or both go on.
* `lower_meaning`: a program and its code end alike, or both run for ever.
-/
namespace MeowScript

universe u

variable {V : Type u} {I : Interpretation V} {code : List Instr}

/-! ## Expressions -/

/-- Temporaries numbered below `n` are the same. -/
def Agree (n : Nat) (t t' : Nat → Option V) : Prop := ∀ i < n, t' i = t i

namespace Agree

variable {n m : Nat} {t t' t'' : Nat → Option V}

theorem refl (n : Nat) (t : Nat → Option V) : Agree n t t := fun _ _ => rfl

theorem trans (h : Agree n t t') (h' : Agree m t' t'') (hnm : n ≤ m) : Agree n t t'' :=
  fun i hi => (h' i (Nat.lt_of_lt_of_le hi hnm)).trans (h i hi)

theorem update (h : Agree n t t') (hm : n ≤ m) (v : Option V) :
    Agree n t (Function.update t' m v) := by
  intro i hi
  rw [Function.update_of_ne (by omega)]
  exact h i hi

theorem read (h : Agree n t t') {o : Operand} (ho : o.Below n) (σ : Store V) :
    o.read I σ t' = o.read I σ t := by
  cases o with
  | constant => rfl
  | var => rfl
  | temp k => exact h k ho

end Agree

theorem Expr.evalAll_length (σ : Store V) (es : List Expr) :
    (Expr.evalAll I σ es).1.length = es.length := by
  induction es with
  | nil => rfl
  | cons e es ih => simp [Expr.evalAll, ih]

/-- A call takes exactly the parameters given for it. -/
theorem Config.step_call (dest : Nat) (name : String) (rest : List Instr) (σ : Store V)
    (t : Nat → Option V) (vs ps : List V) (ev : List (Event V)) :
    Config.step I code ⟨.call dest name vs.length :: rest, σ, t, vs.reverse ++ ps, ev⟩ =
      some ⟨rest, σ, Function.update t dest (some (I.call name vs)), ps,
        ev ++ [.call name vs]⟩ := by
  simp [Config.step]

mutual

/-- The code of an expression shows its events and leaves its value in its operand. -/
theorem Expr.lower_steps (σ : Store V) : ∀ (e : Expr) (next : Nat) (rest : List Instr)
    (t : Nat → Option V) (ps : List V) (ev : List (Event V)),
    ∃ n t', Steps I code n ⟨(e.lower next).code ++ rest, σ, t, ps, ev⟩
        ⟨rest, σ, t', ps, ev ++ (e.eval I σ).2⟩ ∧
      Agree next t t' ∧ (e.lower next).result.read I σ t' = some (e.eval I σ).1
  | .literal v _ _, next, rest, t, ps, ev =>
    ⟨0, t, by simpa [Expr.lower, Expr.eval] using .refl _, .refl _ _, rfl⟩
  | .var name storage _ _, next, rest, t, ps, ev =>
    ⟨0, t, by simpa [Expr.lower, Expr.eval] using .refl _, .refl _ _, rfl⟩
  | .binary op left right _ note, next, rest, t, ps, ev => by
    obtain ⟨n, t1, h1, a1, r1⟩ := Expr.lower_steps σ left next
      ((right.lower (left.lower next).next).code ++
        .binary (right.lower (left.lower next).next).next op (left.lower next).result
          (right.lower (left.lower next).next).result note.ty :: rest) t ps ev
    obtain ⟨m, t2, h2, a2, r2⟩ := Expr.lower_steps σ right (left.lower next).next
      (.binary (right.lower (left.lower next).next).next op (left.lower next).result
          (right.lower (left.lower next).next).result note.ty :: rest) t1 ps
      (ev ++ (left.eval I σ).2)
    have hn := Expr.lower_next_le left next
    have hm := Expr.lower_next_le right (left.lower next).next
    -- the right operand's code leaves the left operand's temporary alone
    have r1' := (a2.read (Expr.lower_below left next) σ).trans r1
    refine ⟨n + m + 1, Function.update t2 (right.lower (left.lower next).next).next
      (some (I.binary op (left.eval I σ).1 (right.eval I σ).1)), ?_, ?_, ?_⟩
    · simp only [Expr.lower, Expr.eval, List.append_assoc, List.singleton_append]
      rw [← List.append_assoc ev]
      refine (h1.trans h2).trans (.one ?_)
      simp [Config.step, r1', r2]
    · exact (a1.trans a2 hn).update (by omega) _
    · simp [Expr.lower, Operand.read, Expr.eval]
  | .unary op operand _ note, next, rest, t, ps, ev => by
    obtain ⟨n, t1, h1, a1, r1⟩ := Expr.lower_steps σ operand next
      (.unary (operand.lower next).next op (operand.lower next).result note.ty :: rest) t ps ev
    have hn := Expr.lower_next_le operand next
    refine ⟨n + 1, Function.update t1 (operand.lower next).next
      (some (I.unary op (operand.eval I σ).1)), ?_, a1.update hn _, ?_⟩
    · simp only [Expr.lower, Expr.eval, List.append_assoc, List.singleton_append]
      refine h1.trans (.one ?_)
      simp [Config.step, r1]
    · simp [Expr.lower, Operand.read, Expr.eval]
  | .call name args _ _, next, rest, t, ps, ev => by
    obtain ⟨n, t1, h1, a1⟩ := Expr.lowerArgs_steps σ args next
      (.call (Expr.lowerArgs next args).2 name args.length :: rest) t ps ev
    have hn := Expr.lowerArgs_next_le args next
    refine ⟨n + 1, Function.update t1 (Expr.lowerArgs next args).2
      (some (I.call name (Expr.evalAll I σ args).1)), ?_, a1.update hn _, ?_⟩
    · simp only [Expr.lower, Expr.eval, List.append_assoc, List.singleton_append]
      rw [← List.append_assoc ev]
      refine h1.trans (.one ?_)
      rw [← Expr.evalAll_length (I := I) σ args]
      exact Config.step_call ..
    · simp [Expr.lower, Operand.read, Expr.eval]

/-- The code of arguments gives them as parameters, the last one on top. -/
theorem Expr.lowerArgs_steps (σ : Store V) : ∀ (es : List Expr) (next : Nat) (rest : List Instr)
    (t : Nat → Option V) (ps : List V) (ev : List (Event V)),
    ∃ n t', Steps I code n ⟨(Expr.lowerArgs next es).1 ++ rest, σ, t, ps, ev⟩
        ⟨rest, σ, t', (Expr.evalAll I σ es).1.reverse ++ ps, ev ++ (Expr.evalAll I σ es).2⟩ ∧
      Agree next t t'
  | [], next, rest, t, ps, ev =>
    ⟨0, t, by simpa [Expr.lowerArgs, Expr.evalAll] using .refl _, .refl _ _⟩
  | e :: es, next, rest, t, ps, ev => by
    obtain ⟨n, t1, h1, a1, r1⟩ := Expr.lower_steps σ e next
      (.param (e.lower next).result :: ((Expr.lowerArgs (e.lower next).next es).1 ++ rest)) t ps ev
    obtain ⟨m, t2, h2, a2⟩ := Expr.lowerArgs_steps σ es (e.lower next).next rest t1
      ((e.eval I σ).1 :: ps) (ev ++ (e.eval I σ).2)
    refine ⟨n + 1 + m, t2, ?_, a1.trans a2 (Expr.lower_next_le e next)⟩
    simp only [Expr.lowerArgs, Expr.evalAll, List.append_assoc, List.singleton_append,
      List.reverse_cons]
    rw [← List.append_assoc ev]
    refine (h1.trans (.one ?_)).trans h2
    simp [Config.step, r1]

end

/-! ## Where code stands -/

/-- `here` is the end of the code, and the labels before it are numbered below `l`. -/
def Stands (code : List Instr) (l : Nat) (here : List Instr) : Prop :=
  ∃ before, code = before ++ here ∧ LabelsWithin 0 l before

namespace Stands

variable {l m : Nat} {a b : List Instr}

theorem start (code : List Instr) : Stands code 0 code := ⟨[], rfl, .nil⟩

theorem skip (h : Stands code l (a ++ b)) (ha : LabelsWithin 0 m a) (hl : l ≤ m) :
    Stands code m b := by
  obtain ⟨before, rfl, hb⟩ := h
  exact ⟨before ++ a, by simp, (hb.mono (Nat.le_refl _) hl).append ha⟩

/-- A label not yet given is looked for from here on. -/
theorem labelled {k : Nat} {here : List Instr} (h : Stands code l here) (hk : l ≤ k) :
    labelled k code = labelled k here := by
  obtain ⟨before, rfl, hb⟩ := h
  exact labelled_append (hb.notMem (Or.inr hk)) here

end Stands

/-! ## Statements -/

/-- From `c` the machine does what a run of the tree does: it comes to `rest` if the run finishes,
ends where it ends, and goes on for `n` steps if the bound was too small for it. -/
def Follows (I : Interpretation V) (code : List Instr) (n : Nat) (c : Config V)
    (rest : List Instr) : Option (Execution V) → Prop
  | none => ∃ d, Steps I code n c d
  | some e =>
    match e.ending with
    | .finished => ∃ m t, Steps I code m c ⟨rest, e.store, t, c.params, c.events ++ e.events⟩
    | .brought _ => ∃ m d, Steps I code m c d ∧ d.ended? I = some (e.after c.events) ∧
        d.params = c.params

/-- One step that changes nothing but the place. -/
def Silent (I : Interpretation V) (code here there : List Instr) : Prop :=
  ∀ (σ : Store V) t ps ev, Config.step I code ⟨here, σ, t, ps, ev⟩ = some ⟨there, σ, t, ps, ev⟩

theorem silent_label (l : Nat) (rest : List Instr) : Silent I code (.label l :: rest) rest :=
  fun _ _ _ _ => rfl

theorem silent_goto {l : Nat} {rest there : List Instr} (h : labelled l code = some there) :
    Silent I code (.goto l :: rest) there := by
  intro σ t ps ev
  simp [Config.step, h]

theorem silent_function (name : String) (c : Counters) (body : List Stmt) (rest : List Instr) :
    Silent I code
      (.beginFunction name :: ((Stmt.lowerAll c body).1 ++ .endFunction name :: rest)) rest := by
  intro σ t ps ev
  simp [Config.step, Stmt.behindFunction_lowerAll, behindFunction]

namespace Follows

variable {n k m : Nat} {c d : Config V} {rest mid : List Instr} {r : Option (Execution V)}

theorem shorter (h : Follows I code n c rest r) (hk : k ≤ n) : Follows I code k c rest r := by
  cases r with
  | none =>
    obtain ⟨d, hd⟩ := h
    exact hd.shorter hk
  | some e => exact h

/-- Steps to where the run begins. -/
theorem of_steps {ev : List (Event V)} (h : Steps I code m c d) (hp : d.params = c.params)
    (he : d.events = c.events ++ ev) (hf : Follows I code n d rest r) :
    Follows I code (m + n) c rest (r.map (Execution.after ev)) := by
  cases r with
  | none =>
    obtain ⟨d', hd⟩ := hf
    exact ⟨d', h.trans hd⟩
  | some e =>
    obtain ⟨events, store, ending⟩ := e
    cases ending with
    | finished =>
      obtain ⟨m', t, hs⟩ := hf
      refine ⟨m + m', t, ?_⟩
      rw [hp, he, List.append_assoc] at hs
      exact h.trans hs
    | brought v =>
      obtain ⟨m', d', hs, hd, hp'⟩ := hf
      refine ⟨m + m', d', h.trans hs, ?_, hp'.trans hp⟩
      rw [hd, he]
      simp [Execution.after]

/-- A silent step to where the run begins. -/
theorem of_silent {here there : List Instr} {σ : Store V} {t : Nat → Option V} {ps : List V}
    {ev : List (Event V)} (hs : Silent I code here there)
    (hf : Follows I code n ⟨there, σ, t, ps, ev⟩ rest r) :
    Follows I code (n + 1) ⟨here, σ, t, ps, ev⟩ rest r := by
  have hevents : ev = ev ++ [] := (List.append_nil ev).symm
  have h := of_steps (.one (hs σ t ps ev)) rfl hevents hf
  rwa [Execution.after_nil, Option.map_id', Nat.add_comm] at h

/-- A silent step at the end of the run. -/
theorem silent (h : Follows I code n c mid r) (hs : Silent I code mid rest) :
    Follows I code n c rest r := by
  cases r with
  | none => exact h
  | some e =>
    obtain ⟨events, store, ending⟩ := e
    cases ending with
    | finished =>
      obtain ⟨m, t, hm⟩ := h
      exact ⟨m + 1, t, hm.trans (.one (hs ..))⟩
    | brought v => exact h

/-- One run after the other. -/
theorem andThen {next : Store V → Option (Execution V)} (h : Follows I code n c mid r)
    (hn : ∀ σ t ev, Follows I code n ⟨mid, σ, t, c.params, ev⟩ rest (next σ)) :
    Follows I code n c rest (r.bind fun e => e.andThen next) := by
  cases r with
  | none => exact h
  | some e =>
    obtain ⟨events, store, ending⟩ := e
    cases ending with
    | finished =>
      obtain ⟨m, t, hm⟩ := h
      have := of_steps hm rfl rfl (hn store t (c.events ++ events))
      exact this.shorter (Nat.le_add_left _ _)
    | brought v => exact h

/-- A run of steps that finishes. -/
theorem of_finished {σ : Store V} {t : Nat → Option V} {ev : List (Event V)}
    (h : Steps I code m c ⟨rest, σ, t, c.params, c.events ++ ev⟩) :
    Follows I code n c rest (some ⟨ev, σ, .finished⟩) := ⟨m, t, h⟩

end Follows

/-- A test and its jump: on to `here` if the condition holds, to the label otherwise. -/
theorem test_steps {target : Nat} {there : List Instr} (h : labelled target code = some there)
    (condition : Expr) (next : Nat) (here : List Instr) (σ : Store V) (t : Nat → Option V)
    (ps : List V) (ev : List (Event V)) :
    ∃ m t', Steps I code m ⟨testCode condition next target here, σ, t, ps, ev⟩
      ⟨if I.truth (condition.eval I σ).1 then here else there, σ, t', ps,
        ev ++ (condition.eval I σ).2⟩ := by
  obtain ⟨m, t1, h1, -, r1⟩ := @Expr.lower_steps V I code σ condition next
    (.ifFalse (condition.lower next).result target :: here) t ps ev
  refine ⟨m + 1, t1, h1.trans (.one ?_)⟩
  by_cases ht : I.truth (condition.eval I σ).1 = true
  · simp [Config.step, r1, ht]
  · simp [Config.step, r1, ht, h]

/-- What a loop does once its body is known to be followed: the induction is on the rounds, each of
which takes a step at least. -/
theorem rounds_follow {condition : Expr} {next again finish : Nat} {body rest : List Instr}
    {run : Store V → Option (Execution V)} {n : Nat} {ps : List V}
    (hagain : labelled again code = some (.label again ::
      testCode condition next finish (body ++ .goto again :: .label finish :: rest)))
    (hfinish : labelled finish code = some (.label finish :: rest))
    (hbody : ∀ σ t ev, Follows I code n ⟨body ++ .goto again :: .label finish :: rest, σ, t, ps, ev⟩
      (.goto again :: .label finish :: rest) (run σ)) :
    ∀ k ≤ n, ∀ σ t ev, Follows I code k
      ⟨.label again :: testCode condition next finish
        (body ++ .goto again :: .label finish :: rest), σ, t, ps, ev⟩
      rest (rounds I condition run k σ) := by
  intro k
  induction k with
  | zero => exact fun _ σ t ev => ⟨_, .refl _⟩
  | succ k ih =>
    intro hk σ t ev
    obtain ⟨m, t1, h1⟩ := test_steps (I := I) hfinish condition next
      (body ++ .goto again :: .label finish :: rest) σ t ps ev
    have h1 := (Steps.one (silent_label again _ σ t ps ev)).trans h1
    rw [rounds]
    by_cases ht : I.truth (condition.eval I σ).1 = true
    · have hr : ((run σ).bind fun e => (e.after (condition.eval I σ).2).andThen
          (rounds I condition run k)) = ((run σ).map (Execution.after (condition.eval I σ).2)).bind
            fun e => e.andThen (rounds I condition run k) := by rw [Option.bind_map]; rfl
      rw [if_pos ht] at h1
      rw [if_pos ht, hr]
      refine Follows.andThen
        ((Follows.of_steps h1 rfl rfl (hbody σ t1 _)).shorter (by omega)) ?_
      intro σ' t' ev'
      exact .of_silent (silent_goto hagain) (ih (by omega) σ' t' ev')
    · rw [if_neg ht] at h1
      rw [if_neg ht]
      exact (Follows.of_finished h1).silent (silent_label finish rest)

mutual

/-- **One statement.** Where its code stands in a program, the machine does what the statement
does. -/
theorem Stmt.lower_follows (n : Nat) : ∀ (s : Stmt) (c : Counters) (rest : List Instr),
    Stands code c.label ((s.lower c).1 ++ rest) → ∀ (σ : Store V) t ps ev,
      Follows I code n ⟨(s.lower c).1 ++ rest, σ, t, ps, ev⟩ rest (s.exec I n σ)
  | .declare name value storage _, c, rest, _, σ, t, ps, ev
  | .assign name value storage _, c, rest, _, σ, t, ps, ev => by
    obtain ⟨m, t1, h1, -, r1⟩ := @Expr.lower_steps V I code σ value c.temp
      (.copy (storage.getD name) (value.lower c.temp).result :: rest) t ps ev
    simp only [Stmt.lower, Stmt.exec, List.append_assoc, List.singleton_append]
    exact .of_finished (t := t1) (h1.trans (.one (by simp [Config.step, r1])))
  | .define name params body _, c, rest, _, σ, t, ps, ev => by
    simp only [Stmt.lower, Stmt.exec, List.cons_append, List.append_assoc, List.nil_append]
    exact .of_finished (t := t) (.one (by simpa using silent_function name c body rest σ t ps ev))
  | .call name args _, c, rest, _, σ, t, ps, ev => by
    obtain ⟨m, t1, h1, -⟩ := @Expr.lowerArgs_steps V I code σ args c.temp
      (.call (Expr.lowerArgs c.temp args).2 name args.length :: rest) t ps ev
    simp only [Stmt.lower, Stmt.exec, List.append_assoc, List.singleton_append]
    have hs := @Config.step_call V I code (Expr.lowerArgs c.temp args).2 name rest σ t1
      (Expr.evalAll I σ args).1 ps (ev ++ (Expr.evalAll I σ args).2)
    rw [Expr.evalAll_length, List.append_assoc] at hs
    exact .of_finished (h1.trans (.one hs))
  | .ifThen condition body _, c, rest, hc, σ, t, ps, ev => by
    obtain ⟨hle, hl⟩ := Stmt.lowerAll_labels body ⟨(condition.lower c.temp).next, c.label + 1⟩
    simp only [Stmt.lower, List.append_assoc, List.cons_append, List.nil_append] at hc hle hl ⊢
    have he := Expr.lower_unmarked condition c.temp
    have hbody := (hc.skip (m := c.label + 1) (.of_unmarked he) (by omega)).skip (a := [_])
      (.cons (by simp) .nil) (Nat.le_refl _)
    have hfinish := hc.labelled (k := c.label) (Nat.le_refl _)
    rw [labelled_testCode, labelled_append (hl.notMem (by omega)), labelled_here] at hfinish
    obtain ⟨m, t1, h1⟩ := test_steps (I := I) hfinish condition c.temp _ σ t ps ev
    simp only [Stmt.exec]
    split
    · next ht =>
      rw [if_pos ht] at h1
      have := Stmt.lowerAll_follows n body _ _ hbody σ t1 ps (ev ++ (condition.eval I σ).2)
      exact ((this.of_steps h1 rfl rfl).shorter (Nat.le_add_left _ _)).silent (silent_label _ _)
    · next ht =>
      rw [if_neg ht] at h1
      exact (Follows.of_finished h1).silent (silent_label _ _)
  | .ifElse condition body otherwise _, c, rest, hc, σ, t, ps, ev => by
    obtain ⟨hle, hl⟩ := Stmt.lowerAll_labels body ⟨(condition.lower c.temp).next, c.label + 2⟩
    obtain ⟨hle', hl'⟩ := Stmt.lowerAll_labels otherwise
      (Stmt.lowerAll ⟨(condition.lower c.temp).next, c.label + 2⟩ body).2
    simp only [Stmt.lower, List.append_assoc, List.cons_append, List.nil_append]
      at hc hle hl hle' hl' ⊢
    have he := Expr.lower_unmarked condition c.temp
    have hbody := (hc.skip (m := c.label + 2) (.of_unmarked he) (by omega)).skip (a := [_])
      (.cons (by simp) .nil) (Nat.le_refl _)
    have hotherwise := (hbody.skip (hl.mono (Nat.zero_le _) (Nat.le_refl _)) hle).skip (a := [_, _])
      (.cons (by simp) (.cons_label (Nat.zero_le _) (by omega) .nil)) (Nat.le_refl _)
    have hother := hc.labelled (k := c.label) (Nat.le_refl _)
    rw [labelled_testCode, labelled_append (hl.notMem (by omega)), labelled_cons (by simp),
      labelled_here] at hother
    have hfinish := hc.labelled (k := c.label + 1) (by omega)
    rw [labelled_testCode, labelled_append (hl.notMem (by omega)), labelled_cons (by simp),
      labelled_cons (by simp), labelled_append (hl'.notMem (by omega)), labelled_here] at hfinish
    obtain ⟨m, t1, h1⟩ := test_steps (I := I) hother condition c.temp _ σ t ps ev
    simp only [Stmt.exec]
    split
    · next ht =>
      rw [if_pos ht] at h1
      have := Stmt.lowerAll_follows n body _ _ hbody σ t1 ps (ev ++ (condition.eval I σ).2)
      exact (((this.of_steps h1 rfl rfl).shorter (Nat.le_add_left _ _)).silent
        (silent_goto hfinish)).silent (silent_label _ _)
    · next ht =>
      rw [if_neg ht] at h1
      have := Stmt.lowerAll_follows n otherwise _ _ hotherwise σ t1 ps
        (ev ++ (condition.eval I σ).2)
      have := this.of_silent (silent_label c.label _)
      exact ((this.of_steps h1 rfl rfl).shorter (by omega)).silent (silent_label _ _)
  | .loop condition body _, c, rest, hc, σ, t, ps, ev => by
    obtain ⟨hle, hl⟩ := Stmt.lowerAll_labels body ⟨(condition.lower c.temp).next, c.label + 2⟩
    simp only [Stmt.lower, List.append_assoc, List.cons_append, List.nil_append] at hc hle hl ⊢
    have he := Expr.lower_unmarked condition c.temp
    have hagain := hc.labelled (k := c.label) (Nat.le_refl _)
    rw [labelled_here] at hagain
    have hfinish := hc.labelled (k := c.label + 1) (by omega)
    rw [labelled_cons (by simp), labelled_testCode, labelled_append (hl.notMem (by omega)),
      labelled_cons (by simp), labelled_here] at hfinish
    have hbody := ((hc.skip (a := [_]) (m := c.label + 2)
      (.cons_label (Nat.zero_le _) (by omega) .nil) (by omega)).skip
        (.of_unmarked he) (Nat.le_refl _)).skip (a := [_]) (.cons (by simp) .nil) (Nat.le_refl _)
    simp only [Stmt.exec]
    exact rounds_follow hagain hfinish
      (fun σ t ev => Stmt.lowerAll_follows n body _ _ hbody σ t ps ev) n (Nat.le_refl _) σ t ev
  | .bring value _, c, rest, _, σ, t, ps, ev => by
    obtain ⟨m, t1, h1, -, r1⟩ := @Expr.lower_steps V I code σ value c.temp
      (.bring (value.lower c.temp).result :: rest) t ps ev
    simp only [Stmt.lower, Stmt.exec, List.append_assoc, List.singleton_append]
    exact ⟨m, _, h1, by simp [Config.ended?, r1, Execution.after], rfl⟩
  | .print value _, c, rest, _, σ, t, ps, ev => by
    obtain ⟨m, t1, h1, -, r1⟩ := @Expr.lower_steps V I code σ value c.temp
      (.print (value.lower c.temp).result :: rest) t ps ev
    simp only [Stmt.lower, Stmt.exec, List.append_assoc, List.singleton_append]
    exact .of_finished (t := t1) (h1.trans (.one (by simp [Config.step, r1])))

theorem Stmt.lowerAll_follows (n : Nat) : ∀ (ss : List Stmt) (c : Counters) (rest : List Instr),
    Stands code c.label ((Stmt.lowerAll c ss).1 ++ rest) → ∀ (σ : Store V) t ps ev,
      Follows I code n ⟨(Stmt.lowerAll c ss).1 ++ rest, σ, t, ps, ev⟩ rest (Stmt.execAll I n ss σ)
  | [], c, rest, _, σ, t, ps, ev => by
    simp only [Stmt.lowerAll, Stmt.execAll, List.nil_append]
    exact .of_finished (t := t) (by simpa using .refl _)
  | s :: ss, c, rest, hc, σ, t, ps, ev => by
    simp only [Stmt.lowerAll, List.append_assoc] at hc
    simp only [Stmt.lowerAll, Stmt.execAll, List.append_assoc]
    obtain ⟨hle, hl⟩ := Stmt.lower_labels s c
    refine (Stmt.lower_follows n s c _ hc σ t ps ev).andThen fun σ' t' ev' => ?_
    exact Stmt.lowerAll_follows n ss _ rest (hc.skip (hl.mono (Nat.zero_le _) (Nat.le_refl _)) hle)
      σ' t' ps ev'

end

/-! ## Programs -/

theorem Program.lower_follows (p : Program) (n : Nat) (σ : Store V) :
    Follows I p.lower n (Config.start p.lower σ) [] (Stmt.execAll I n p.body σ) := by
  have hs : Stands p.lower 0 ((Stmt.lowerAll .start p.body).1 ++ []) := by
    rw [List.append_nil]
    exact .start _
  have h := Stmt.lowerAll_follows (I := I) n p.body .start [] hs σ (fun _ => none) [] []
  rwa [List.append_nil] at h

/-- A run of the tree that ends, ends on the machine too. -/
theorem Follows.halts {n : Nat} {σ : Store V} {e : Execution V}
    (h : Follows I code n (Config.start code σ) [] (some e)) : Halts I code σ e := by
  obtain ⟨events, store, ending⟩ := e
  cases ending with
  | finished =>
    obtain ⟨m, t, hm⟩ := h
    exact ⟨m, _, hm, rfl⟩
  | brought v =>
    obtain ⟨m, d, hm, hd, -⟩ := h
    exact ⟨m, d, hm, hd⟩

/-- Where the machine cannot go on it has ended, and so has the tree. -/
theorem Program.terminates_of_stopped (p : Program) {σ : Store V} {m : Nat} {c : Config V}
    (hm : Steps I p.lower m (Config.start p.lower σ) c) (hc : c.step I p.lower = none) :
    ∃ e, c.ended? I = some e ∧ p.Terminates I σ e := by
  -- a bound of more rounds than the machine takes steps is enough
  have h := p.lower_follows (I := I) (m + 1) σ
  cases he : Stmt.execAll I (m + 1) p.body σ with
  | none =>
    rw [he] at h
    obtain ⟨d, hd⟩ := h
    have := hm.le_of_stopped hc hd
    omega
  | some e =>
    rw [he] at h
    obtain ⟨m', c', hm', hc'⟩ := h.halts
    obtain rfl := hm.stopped_unique hc hm' (Config.step_of_ended hc')
    exact ⟨e, hc', m + 1, he⟩

/-- **Lowering preserves meaning.** The main program ends with some events, a store and a way of
ending exactly if its code does, and where neither ends the machine runs on: it never comes to an
instruction it cannot do. -/
theorem lower_meaning (I : Interpretation V) (p : Program) (σ : Store V) :
    (∀ e, p.Terminates I σ e ↔ Halts I p.lower σ e) ∧ ¬ GetsStuck I p.lower σ := by
  refine ⟨fun e => ⟨?_, ?_⟩, ?_⟩
  · rintro ⟨n, hn⟩
    have h := p.lower_follows (I := I) n σ
    rw [hn] at h
    exact h.halts
  · rintro ⟨m, c, hm, hc⟩
    obtain ⟨e', he, hterminates⟩ := p.terminates_of_stopped hm (Config.step_of_ended hc)
    rw [hc] at he
    cases he
    exact hterminates
  · rintro ⟨m, c, hm, hc, hs⟩
    obtain ⟨e, he, -⟩ := p.terminates_of_stopped hm hs
    rw [hc] at he
    cases he

end MeowScript
