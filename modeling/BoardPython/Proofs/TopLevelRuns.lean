import BoardPython.Proofs.Evaluation

/-! What statements outside of functions do, without any code: each one is executed as it is written,
and a variable that has not been assigned holds nothing. -/
namespace BoardPython.Ir

variable {F : Type} {w : World F} {initial : Memory F} {slot : Slot} {d : Datum F}

/-- The world in which variables that have not been assigned hold what they hold initially. -/
def World.over (w : World F) (initial : Memory F) : World F :=
  ⟨fun slot => (w.memory slot).or (initial slot), w.calls⟩

theorem World.over_of_some (h : w.memory slot = some d) :
    (w.over initial).memory slot = some d := by
  change (w.memory slot).or (initial slot) = _
  rw [h]
  rfl

theorem World.over_set (w : World F) (slot : Slot) (d : Datum F) :
    World.over { w with memory := w.memory.set slot d } initial =
      { w.over initial with memory := (w.over initial).memory.set slot d } := by
  have hmem : (fun s => (w.memory.set slot d s).or (initial s)) =
      Memory.set (fun s => (w.memory s).or (initial s)) slot d := by
    funext s
    by_cases hs : s = slot
    · subst hs
      simp [Memory.set]
    · simp [Memory.set, Function.update_of_ne hs]
  exact congrArg (World.mk · w.calls) hmem

theorem World.over_set_initial (hd : initial slot = some d)
    (h : w.memory slot = none ∨ w.memory slot = some d) :
    World.over { w with memory := w.memory.set slot d } initial = w.over initial := by
  have hmem : (fun s => (w.memory.set slot d s).or (initial s)) =
      fun s => (w.memory s).or (initial s) := by
    funext s
    by_cases hs : s = slot
    · subst hs
      rcases h with h | h <;> simp [Memory.set, h, hd]
    · simp [Memory.set, Function.update_of_ne hs]
  exact congrArg (World.mk · w.calls) hmem

end BoardPython.Ir

namespace BoardPython.Lowering

open Ir (Callee Datum Machine Memory Slot Trap World)

variable {F : Type}

/-- Whether a value holds as a condition. A number does if it is not zero. -/
def truth? (m : Machine F) : Scalar F → Option Bool
  | .bool b => some b
  | .i8 n => some (n != 0)
  | .i16 n => some (n != 0)
  | .f32 x => some (m.compare .ne x (m.constant (.finite false 0 Number.Format.single.least)))
  | .str _ | .void => none

/-- What a variable of a type holds after a value has been assigned. Integers are brought to its
width. -/
def stored? (x : Scalar F) (t : ValueType) : Option (Datum F) :=
  match x, t with
  | .i8 n, .i8 => some (.int 8 (BitVec.ofInt 8 n))
  | .i8 n, .i16 => some (.int 16 (BitVec.ofInt 16 n))
  | .i16 n, .i8 => some (.int 8 (BitVec.ofInt 8 n))
  | .i16 n, .i16 => some (.int 16 (BitVec.ofInt 16 n))
  | .f32 x, .f32 => some (.float x)
  | .str target, .str => some (.pointer target)
  | .bool b, .bool => some (.int 1 (BitVec.ofBool b))
  | _, _ => none

/-- An execution of an assignment: what the variable held before, and what it holds then. -/
structure Assigned (F : Type) where
  pos : Position
  slot : Slot
  before : Option (Datum F)
  value : Datum F

section Statements

variable (m : Machine F) (c : Context)

def test (e : Expr) (w : World F) : Except Trap (Bool × World F) := do
  let (x, w) ← eval m c e w
  return (← Machine.need (truth? m x), w)

/-- Evaluates an expression and assigns its value to a variable. -/
def assignTo (pos : Position) (name : String) (e : Expr) (w : World F) :
    Except Trap (List (Assigned F) × World F) := do
  let (x, w) ← eval m c e w
  let symbol ← Machine.need (c.resolve? name)
  let slot ← Machine.need symbol.slot?
  let d ← Machine.need (stored? x symbol.type)
  return ([⟨pos, slot, w.memory slot, d⟩], { w with memory := w.memory.set slot d })

def act : Stmt → World F → Except Trap (List (Assigned F) × World F)
  | .evaluate _ e, w => do
    let (_, w) ← eval m c e w
    return ([], w)
  | .pass _, w => return ([], w)
  | .globals _ _, w => return ([], w)
  | .assign pos name _ e, w => assignTo m c pos name e w
  | .augment pos name op e, w => assignTo m c pos name (.binary pos op (.name pos name) e) w
  | _, _ => throw .stuck

/-- A run of statements to their end, with the assignments that it executes. -/
inductive Runs : List Stmt → World F → World F → List (Assigned F) → Prop where
  | nil {w : World F} : Runs [] w w []
  | act {st : Stmt} {ss : List Stmt} {w w1 w2 : World F} {assigned trace : List (Assigned F)}
      (h : act m c st w = .ok (assigned, w1)) (hr : Runs ss w1 w2 trace) :
      Runs (st :: ss) w w2 (assigned ++ trace)
  | branch {pos : Position} {cond : Expr} {yes no ss : List Stmt} {b : Bool} {w w1 w2 : World F}
      {trace : List (Assigned F)} (h : test m c cond w = .ok (b, w1))
      (hr : Runs ((if b then yes else no) ++ ss) w1 w2 trace) :
      Runs (.branch pos cond yes no :: ss) w w2 trace
  | loop {pos : Position} {cond : Expr} {body ss : List Stmt} {b : Bool} {w w1 w2 : World F}
      {trace : List (Assigned F)} (h : test m c cond w = .ok (b, w1))
      (hr : Runs ((if b then body ++ [.loop pos cond body] else []) ++ ss) w1 w2 trace) :
      Runs (.loop pos cond body :: ss) w w2 trace

def runFor : Nat → List Stmt → World F → Option (World F × List (Assigned F))
  | _, [], w => some (w, [])
  | 0, _ :: _, _ => none
  | n + 1, .branch _ cond yes no :: ss, w =>
    match test m c cond w with
    | .ok (b, w) => runFor n ((if b then yes else no) ++ ss) w
    | .error _ => none
  | n + 1, .loop pos cond body :: ss, w =>
    match test m c cond w with
    | .ok (b, w) => runFor n ((if b then body ++ [.loop pos cond body] else []) ++ ss) w
    | .error _ => none
  | n + 1, st :: ss, w =>
    match act m c st w with
    | .ok (assigned, w) => (runFor n ss w).map fun (w, trace) => (w, assigned ++ trace)
    | .error _ => none

variable {m c} in
theorem runs_of_runFor {n : Nat} {ss : List Stmt} {w w' : World F} {trace : List (Assigned F)}
    (h : runFor m c n ss w = some (w', trace)) : Runs m c ss w w' trace := by
  fun_induction runFor m c n ss w generalizing w' trace with
  | case1 =>
    cases h
    exact .nil
  | case2 => cases h
  | case3 _ _ _ _ _ _ _ _ _ ht ih => exact .branch ht (ih h)
  | case4 => cases h
  | case5 _ _ _ _ _ _ _ _ ht ih => exact .loop ht (ih h)
  | case6 => cases h
  | case7 _ _ _ _ _ _ _ _ ha ih =>
    obtain ⟨r, hr, hh⟩ := Option.map_eq_some_iff.mp h
    cases hh
    exact .act ha (ih hr)
  | case8 => cases h

end Statements

section Inversion

variable {m : Machine F} {c : Context} {w w' : World F}

theorem except_bind_eq_ok {ε α β : Type} {x : Except ε α} {f : α → Except ε β} {b : β}
    (h : (x >>= f) = .ok b) : ∃ a, x = .ok a ∧ f a = .ok b := by
  cases x with
  | error e => cases h
  | ok a => exact ⟨a, rfl, h⟩

theorem need_eq_ok {α : Type} {o : Option α} {a : α} (h : Machine.need o = .ok a) : o = some a := by
  cases o with
  | none => cases h
  | some b =>
    cases h
    rfl

theorem test_eq_ok {e : Expr} {b : Bool} (h : test m c e w = .ok (b, w')) :
    ∃ x, eval m c e w = .ok (x, w') ∧ truth? m x = some b := by
  obtain ⟨x, hx, h⟩ := except_bind_eq_ok h
  obtain ⟨b, hb, h⟩ := except_bind_eq_ok h
  cases h
  exact ⟨x.1, hx, need_eq_ok hb⟩

theorem assignTo_eq_ok {pos : Position} {name : String} {e : Expr} {assigned : List (Assigned F)}
    (h : assignTo m c pos name e w = .ok (assigned, w')) :
    ∃ x w1 symbol slot d, eval m c e w = .ok (x, w1) ∧ c.resolve? name = some symbol ∧
      symbol.slot? = some slot ∧ stored? x symbol.type = some d ∧
      assigned = [⟨pos, slot, w1.memory slot, d⟩] ∧
      w' = { w1 with memory := w1.memory.set slot d } := by
  obtain ⟨x, hx, h⟩ := except_bind_eq_ok h
  obtain ⟨symbol, hsymbol, h⟩ := except_bind_eq_ok h
  obtain ⟨slot, hslot, h⟩ := except_bind_eq_ok h
  obtain ⟨d, hd, h⟩ := except_bind_eq_ok h
  cases h
  exact ⟨x.1, x.2, symbol, slot, d, hx, need_eq_ok hsymbol, need_eq_ok hslot, need_eq_ok hd, rfl,
    rfl⟩

end Inversion

/-- A call that can be made can also be made when variables that have not been assigned hold what
they hold initially, and it does the same. -/
def CallsCarryOver (m : Machine F) (initial : Memory F) : Prop :=
  ∀ f args w d memory, m.call f args w = some (d, memory) →
    m.call f args (w.over initial) = some (d, fun slot => (memory slot).or (initial slot))

/-- What can be done before variables hold their initial values can be done then, and is the same. -/
def Carries {α : Type} (initial : Memory F) (ref : World F → Except Trap (α × World F)) : Prop :=
  ∀ w a w', ref w = .ok (a, w') →
    ref (w.over initial) = .ok (a, w'.over initial)

section Carries

variable {m : Machine F} {c : Context} {initial : Memory F} {α β : Type}

theorem carries_pure (r : Except Trap α) : Carries initial fun w : World F => r.map (·, w) := by
  intro w a w' h
  cases r with
  | error e => cases h
  | ok b =>
    cases h
    rfl

variable {ref : World F → Except Trap (α × World F)}

theorem carries_stuck (h : ∀ w, ref w = .error .stuck) : Carries initial ref := by
  intro w a w' hw
  rw [h] at hw
  cases hw

theorem Carries.bind {next : α × World F → Except Trap (β × World F)} (h : Carries initial ref)
    (h' : ∀ a, Carries initial fun w => next (a, w)) : Carries initial fun w => ref w >>= next := by
  intro w b w' hb
  dsimp only at hb ⊢
  cases hr : ref w with
  | error e =>
    rw [hr] at hb
    cases hb
  | ok a =>
    rw [hr] at hb
    rw [h w a.1 a.2 hr]
    exact h' a.1 a.2 b w' hb

theorem Carries.need {γ : Type} {o : Option γ} {next : γ → World F → Except Trap (β × World F)}
    (h : ∀ x, Carries initial (next x)) :
    Carries initial fun w => Machine.need o >>= fun x => next x w := by
  cases o with
  | none =>
    intro w b w' hb
    cases hb
  | some x => exact h x

theorem Carries.map (f : α → β) (h : Carries initial ref) :
    Carries initial fun w => (ref w).map fun a => (f a.1, a.2) := by
  intro w b w' hb
  dsimp only at hb ⊢
  cases hr : ref w with
  | error e =>
    rw [hr] at hb
    cases hb
  | ok a =>
    rw [hr] at hb
    cases hb
    rw [h w a.1 a.2 hr]
    rfl

theorem Carries.congr {ref' : World F → Except Trap (α × World F)} (h : Carries initial ref)
    (heq : ∀ w, ref w = ref' w) : Carries initial ref' := by
  rwa [← funext heq]

theorem carries_read (name : String) :
    Carries initial fun w : World F => (read c name w.memory).map (·, w) := by
  intro w x w' h
  dsimp only at h ⊢
  cases hs : c.resolve? name with
  | none =>
    rw [read, hs] at h
    cases h
  | some s =>
    cases hslot : s.slot? with
    | none =>
      rw [read_of_nowhere hs hslot] at h ⊢
      cases h
      rfl
    | some slot =>
      rw [read_of_slot hs hslot] at h ⊢
      cases hd : w.memory slot with
      | none =>
        rw [hd] at h
        cases h
      | some d =>
        rw [Ir.World.over_of_some hd]
        rw [hd] at h
        cases hx : Scalar.ofDatum? s.type d with
        | none =>
          rw [Option.bind_some, hx] at h
          cases h
        | some y =>
          rw [Option.bind_some, hx] at h ⊢
          cases h
          rfl

theorem carries_apply (hm : CallsCarryOver m initial) (f : Callee) (args : List (Datum F)) :
    Carries initial (apply m f args) := by
  intro w x w' h
  unfold apply at h ⊢
  cases hcall : m.call f args w with
  | none =>
    rw [hcall] at h
    cases h
  | some r =>
    rw [hcall] at h
    rw [hm f args w r.1 r.2 hcall]
    -- A call without a result has none to be looked at.
    by_cases hvoid : f.result = .void
    · simp only [Machine.need, hvoid, if_true] at h ⊢
      cases h
      rfl
    · simp only [if_neg hvoid] at h ⊢
      change (Machine.need (result? f.result r.1) >>= fun x => pure (x, _)) = _ at h
      change (Machine.need (result? f.result r.1) >>= fun x => pure (x, _)) = _
      cases hx : result? f.result r.1 with
      | none =>
        rw [hx] at h
        cases h
      | some y =>
        rw [hx] at h
        cases h
        rfl

mutual

theorem carries_eval (hm : CallsCarryOver m initial) : ∀ e, Carries initial (eval m c e)
  | .number pos value raw => by
    rw [eval_number]
    exact carries_pure _
  | .string .. | .bool .. | .none .. => (carries_pure (.ok _)).congr fun w => by rw [eval]; rfl
  | .name pos id => by
    rw [eval_name]
    exact carries_read id
  | .unary pos op operand => by
    by_cases h : ∃ pos' value raw, op = .minus ∧ operand = .number pos' value raw
    · obtain ⟨pos', value, raw, rfl, rfl⟩ := h
      rw [eval_negative]
      exact carries_pure _
    · refine carries_stuck fun w => ?_
      rw [eval]
      · rfl
      all_goals grind
  | .binary pos op left right => by
    rw [eval_binary]
    refine (carries_eval hm left).bind fun x => ?_
    dsimp only
    exact (carries_eval hm right).bind fun y => carries_pure (binary m op x y)
  | .compare pos ops operands => by
    rw [eval_compare]
    exact (carries_evalAll hm operands).bind fun xs => carries_pure (compare m ops xs)
  | .call pos (.name pos' name) [] => by
    refine (Carries.need (o := callee? c name none) fun f => carries_apply hm f []).congr fun w => ?_
    rw [eval]
  | .call pos (.name pos' name) (arg :: args) => by
    rw [eval_call]
    refine (carries_eval hm arg).bind fun x => ?_
    dsimp only
    refine .need fun f => (carries_evalAll hm args).bind fun xs => ?_
    dsimp only
    exact .need fun ds => carries_apply hm f ds
  | .ellipsis .. | .logical .. | .member .. | .list .. | .lambda ..
  | .call pos (.number ..) _ | .call pos (.string ..) _ | .call pos (.bool ..) _
  | .call pos (.none ..) _ | .call pos (.ellipsis ..) _ | .call pos (.unary ..) _
  | .call pos (.binary ..) _ | .call pos (.compare ..) _ | .call pos (.call ..) _
  | .call pos (.logical ..) _ | .call pos (.member ..) _ | .call pos (.list ..) _
  | .call pos (.lambda ..) _ => carries_stuck fun w => by simp only [eval]; rfl

theorem carries_evalAll (hm : CallsCarryOver m initial) : ∀ es, Carries initial (evalAll m c es)
  | [] => (carries_pure (.ok [])).congr fun w => by rw [evalAll]; rfl
  | e :: es => by
    rw [evalAll_cons]
    exact (carries_eval hm e).bind fun x => (carries_evalAll hm es).map (x :: ·)

end

theorem carries_test (hm : CallsCarryOver m initial) (e : Expr) :
    Carries initial (test m c e) := by
  intro w b w' h
  obtain ⟨x, hx, hb⟩ := test_eq_ok h
  rw [test, carries_eval hm e w x w' hx]
  change (Machine.need (truth? m x) >>= fun b => pure (b, _)) = _
  rw [hb]
  rfl

end Carries

end BoardPython.Lowering
