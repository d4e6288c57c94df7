import BoardPython.Proofs.UnitStages
import BoardPython.Proofs.TreeShape

/-! Comparisons of parsed sources have one operand more than operators, so that it makes no difference
what is answered to other numbers of operands: `sources_are_shaped`. -/
namespace BoardPython.Lowering

open Token (Kind)

structure Operators.Agree (o o' : Operators) : Prop where
  binary : o.binary = o'.binary
  compare : ∀ ops values, ops ≠ [] → values.length = ops.length + 1 →
    o.compare ops values = o'.compare ops values

section Expressions

variable {α : Type} {c : Context} {o : Operators} {P : Position → Prop} {e : Expr} {es : List Expr}

theorem lowerAll_bind_congr {f g : List Value → Emit α}
    (h : ∀ vs : List Value, vs.length = es.length → f vs = g vs) :
    lowerAll c es >>= f = lowerAll c es >>= g := by
  induction es generalizing f g with
  | nil =>
    rw [lowerAll, pure_bind, pure_bind]
    exact h [] rfl
  | cons e es ih =>
    simp only [lowerAll, bind_assoc, pure_bind]
    congr 1
    funext v
    exact ih fun vs hvs => h (v :: vs) (congrArg Nat.succ hvs)

theorem lowerAll_congr {c' : Context} (h : ∀ e ∈ es, lower c e = lower c' e) :
    lowerAll c es = lowerAll c' es := by
  induction es with
  | nil => rw [lowerAll, lowerAll]
  | cons e es ih =>
    obtain ⟨he, hes⟩ := List.forall_mem_cons.mp h
    rw [lowerAll, lowerAll, he, ih hes]

theorem lowerArguments_congr {c' : Context} {name : String} {i : Nat} {params : List Ir.Ty}
    (h : ∀ e ∈ es, lower c e = lower c' e) :
    lowerArguments c name i params es = lowerArguments c' name i params es := by
  induction es generalizing i params with
  | nil => rw [lowerArguments, lowerArguments]
  | cons e es ih =>
    obtain ⟨he, hes⟩ := List.forall_mem_cons.mp h
    simp only [lowerArguments, he, ih hes]

theorem lower_congr (ho : c.operators.Agree o) (he : e.Shaped P) :
    lower c e = lower { c with operators := o } e := by
  induction he with
  | binary hpos hop hleft hright ihl ihr => rw [lower, lower, ihl, ihr, ho.binary]
  | compare hpos hne hops hlength hoperands ih =>
    rw [lower, lower, ← lowerAll_congr ih]
    refine lowerAll_bind_congr fun vs hvs => ?_
    rw [ho.compare _ vs hne (hvs.trans hlength)]
  | @call pos callee args hpos hcallee hargs ih ihargs =>
    cases callee with
    | name p name =>
      cases args with
      | nil =>
        rw [lower, lower]
        rfl
      | cons arg args =>
        obtain ⟨harg, hrest⟩ := List.forall_mem_cons.mp ihargs
        simp only [lower, harg, lowerAll_congr hrest, lowerArguments_congr hrest]
        rfl
    | _ => rw [lower, lower] <;> simp
  | string | name =>
    rw [lower, lower]
    rfl
  | _ => rw [lower, lower]

end Expressions

/-- The environment with other operators. -/
abbrev Environment.withOperators (env : Environment) (o : Operators) : Environment :=
  { env with operators := o }

namespace Lower

variable {env : Environment} {o : Operators} {P : Position → Prop} {e : Expr} {st : Stmt}
  {body : List Stmt}

theorem value_congr (ho : env.operators.Agree o) (he : e.Shaped P) :
    value env e = value (env.withOperators o) e := by
  funext s
  change emit (lower (s.context env) e) s = emit (lower (s.context (env.withOperators o)) e) s
  rw [lower_congr (c := s.context env) ho he]
  rfl

theorem condition_congr (ho : env.operators.Agree o) (he : e.Shaped P) :
    condition env e = condition (env.withOperators o) e := by
  rw [condition, condition, value_congr ho he]

theorem stmts_congr (h : ∀ st ∈ body, stmt env st = stmt (env.withOperators o) st) :
    stmts env body = stmts (env.withOperators o) body := by
  induction body with
  | nil => rw [stmts, stmts]
  | cons st body ih =>
    obtain ⟨hst, hbody⟩ := List.forall_mem_cons.mp h
    rw [stmts, stmts, hst, ih hbody]

theorem stmt_congr (ho : env.operators.Agree o) (hst : st.Shaped P) :
    stmt env st = stmt (env.withOperators o) st := by
  induction hst with
  | assign hpos hname hhint hvalue =>
    rw [stmt, stmt, assign, assign, value_congr ho hvalue]
    rfl
  | @augment pos name op value hpos hname hop hvalue =>
    -- The sum is a node of its own, with the position of the statement.
    have hops : augmentations.map (·.2) ⊆
        .doubleStar :: Level.arithmetic.flatMap Level.operators := by decide
    have hsum : (Expr.binary pos op (.name pos name) value).Shaped P :=
      .binary hpos (hops hop) (.name hpos hname) hvalue
    rw [stmt, stmt, augment, augment, value_congr ho hsum]
  | @ret pos value hpos hvalue =>
    cases value with
    | none => rw [stmt, stmt, ret, ret]
    | some e => simp only [stmt, ret, value_congr ho (hvalue e rfl)]
  | branch hpos hcond hne hbody horElse ih ih' =>
    rw [stmt, stmt, condition_congr ho hcond, stmts_congr ih, stmts_congr ih']
  | loop hpos hcond hne hbody ih => rw [stmt, stmt, condition_congr ho hcond, stmts_congr ih]
  | evaluate hpos hvalue => rw [stmt, stmt, value_congr ho hvalue]
  | define | pass | globals => rw [stmt, stmt]

end Lower

/-- Statements of an item are shaped. -/
def Item.Shaped (P : Position → Prop) : Item → Prop
  | .definition d => ∀ st ∈ d.body, st.Shaped P
  | .statement st => st.Shaped P

namespace Compilation

variable {c : Compilation} {o : Operators} {P : Position → Prop} {unit : List Stmt}

def withOperators (c : Compilation) (o : Operators) : Compilation := { c with operators := o }

theorem shaped_declareAll (c : Compilation) (hunit : ∀ st ∈ unit, st.Shaped P) :
    ∀ item ∈ (c.declareAll unit).2, item.Shaped P := by
  intro item hitem
  cases declared_of_mem hitem with
  | statement hst => exact hunit _ hst
  | definition hst h hbefore hafter =>
    obtain ⟨-, -, result, types, -, -, rfl, -⟩ := define_eq_ok h
    cases hunit _ hst with
    | define hpos hname hparams hreturns hne hbody => exact hbody

theorem lowerItem_withOperators (ho : c.operators.Agree o) {item : Item} (hitem : item.Shaped P) :
    (c.withOperators o).lowerItem item = (c.lowerItem item).withOperators o := by
  cases item with
  | definition d =>
    have hlower : d.lower (c.withOperators o).environment = d.lower c.environment := by
      have hbody : Lower.stmts c.environment d.body = _ :=
        Lower.stmts_congr fun st hst => Lower.stmt_congr ho (hitem st hst)
      rw [Definition.lower, Definition.lower, hbody]
      rfl
    rw [lowerItem, lowerItem, lowerDefinition, lowerDefinition, hlower]
    unfold run
    dsimp only [withOperators]
    cases d.lower c.environment ⟨c.progress, .ofSignature d.signature⟩ <;> rfl
  | statement st =>
    have hstmt : Lower.stmt c.environment st = Lower.stmt (c.withOperators o).environment st :=
      Lower.stmt_congr ho hitem
    rw [lowerItem, lowerItem, lowerTop, lowerTop, ← hstmt]
    unfold run
    dsimp only [withOperators]
    cases Lower.reported (Lower.stmt c.environment st) ⟨c.progress, c.top⟩ <;> rfl

theorem lowerItems_withOperators {items : List Item} (ho : c.operators.Agree o)
    (hitems : ∀ item ∈ items, item.Shaped P) :
    items.foldl lowerItem (c.withOperators o) = (items.foldl lowerItem c).withOperators o := by
  induction items generalizing c with
  | nil => rfl
  | cons item items ih =>
    obtain ⟨hitem, hrest⟩ := List.forall_mem_cons.mp hitems
    have hsame : (c.lowerItem item).operators = c.operators :=
      congrArg Environment.operators (c.environment_lowerItem item)
    rw [List.foldl_cons, List.foldl_cons, lowerItem_withOperators ho hitem, ih (hsame ▸ ho) hrest]

theorem lowerUnit_withOperators (ho : c.operators.Agree o) (hunit : ∀ st ∈ unit, st.Shaped P) :
    (c.withOperators o).lowerUnit unit = (c.lowerUnit unit).withOperators o := by
  have hsame : (c.declareAll unit).1.operators = c.operators := (declares_declareAll unit c).operators
  have hdeclare : (c.withOperators o).declareAll unit =
      ((c.declareAll unit).1.withOperators o, (c.declareAll unit).2) :=
    declareAll_mapSettings unit c id fun _ => o
  unfold lowerUnit
  rw [hdeclare]
  dsimp only
  rw [lowerItems_withOperators (hsame ▸ ho) (c.shaped_declareAll hunit)]
  rfl

end Compilation

/-- The operators of the processor, with any answer to a comparison that has not one operand more
than operators. -/
def Operators.numericOr (answer : List Kind → List Value → Emit Value) : Operators where
  binary := Numeric.binary
  compare ops values :=
    if ops ≠ [] ∧ values.length = ops.length + 1 then Numeric.compare ops values
    else answer ops values

theorem Operators.agree_numericOr (answer answer' : List Kind → List Value → Emit Value) :
    (numericOr answer).Agree (numericOr answer') where
  binary := rfl
  compare ops values hne hlength := by
    rw [numericOr, numericOr]
    dsimp only
    rw [if_pos ⟨hne, hlength⟩, if_pos ⟨hne, hlength⟩]

theorem Operators.numeric_eq : numeric = numericOr fun ops values =>
    Emit.failUnlocated (.operandCount values.length ops.length) := by
  unfold numeric numericOr
  congr 1
  funext ops values
  split
  · rfl
  · rename_i hno
    rcases ops with _ | ⟨op, ops⟩
    · rfl
    rcases values with _ | ⟨left, _ | ⟨right, values⟩⟩
    · rfl
    · rfl
    · rw [Numeric.compare, if_pos]
      · rfl
      · simpa using fun h => hno (by simp [h])

/-- What is parsed from a source has the shape of the language, with positions of its tokens. So a
comparison never has a wrong number of operands: compiling the source comes to the same whatever the
answer to that is, and on the processor it is an error. -/
theorem sources_are_shaped (source : Bytes) :
    (∀ st ∈ (parseSource source).stmts, st.Shaped (HasTokenAt source)) ∧
    (Operators.numeric = .numericOr fun ops values =>
      Emit.failUnlocated (.operandCount values.length ops.length)) ∧
    ∀ (c : Compilation) (answer answer' : List Kind → List Value → Emit Value),
      (c.withOperators (.numericOr answer')).addSource source =
        ((c.withOperators (.numericOr answer)).addSource source).map
          (·.withOperators (.numericOr answer')) := by
  refine ⟨shaped_parseSource source, Operators.numeric_eq, fun c answer answer' => ?_⟩
  have hunit := Compilation.lowerUnit_withOperators (c := c.withOperators (.numericOr answer))
    (Operators.agree_numericOr answer answer') (shaped_parseSource source)
  unfold Compilation.addSource
  dsimp only
  cases (parseSource source).stop with
  | some stop => rfl
  | none => exact congrArg Except.ok hunit

end BoardPython.Lowering
