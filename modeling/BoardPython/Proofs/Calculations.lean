import Mathlib
import BoardPython.Lowering.Stmt

/-! Code that only calculates. Operators, conversions and literals emit instructions that neither
touch memory nor call, whatever they are given; what such instructions keep, they all keep. -/
namespace BoardPython

def Ir.Operation.isCalculation : Operation → Bool
  | .binary .. | .icmp .. | .fcmp .. | .convert .. => true
  | _ => false

namespace Lowering

open Ir (Operand Operation)

section Bind

variable {ε σ α β : Type} {x : EStateM ε σ α} {f : α → EStateM ε σ β} {s s' : σ}

theorem bind_of_ok {a : α} (h : x s = .ok a s') : (x >>= f) s = f a s' := by
  change EStateM.bind x f s = _
  rw [EStateM.bind, h]

theorem bind_of_error {e : ε} (h : x s = .error e s') : (x >>= f) s = .error e s' := by
  change EStateM.bind x f s = _
  rw [EStateM.bind, h]

theorem bind_eq_ok {b : β} (h : (x >>= f) s = .ok b s') :
    ∃ a s1, x s = .ok a s1 ∧ f a s1 = .ok b s' := by
  cases hx : x s with
  | ok a s1 => exact ⟨a, s1, rfl, (bind_of_ok hx).symm.trans h⟩
  | error e s1 => cases (bind_of_error hx).symm.trans h

end Bind

/-- The function that a call selects. -/
def Context.select? (c : Context) (name : String) (first : Option ValueType) : Option Signature :=
  (c.functions.find? name).or
    (first.bind fun t => c.functions.find? (FunctionTable.overloadKey name t))

theorem function_eq (c : Context) (pos : Position) (name : String) (first : Option ValueType) :
    function c pos name first = (c.select? name first).elim
      (Emit.fail pos (first.elim (.undefinedFunction name) (.undefinedOverload name))) pure := by
  unfold function Context.select?
  cases c.functions.find? name with
  | some f => rfl
  | none =>
    cases first with
    | none => rfl
    | some t => cases h : c.functions.find? (FunctionTable.overloadKey name t) <;> simp [h]

structure Calculates (P : (α : Type) → Emit α → Prop) : Prop where
  pure : ∀ {α : Type} (a : α), P α (pure a)
  throw : ∀ {α : Type} (e : Error), P α (throw e)
  bind : ∀ {α β : Type} {x : Emit α} {f : α → Emit β}, P α x → (∀ a, P β (f a)) → P β (x >>= f)
  emit : ∀ op : Operation, op.isCalculation = true → P Operand (Emit.emit op)
  locate : ∀ {α : Type} (pos : Position) {x : Emit α}, P α x → P α (Emit.locate pos x)

namespace Calculates

variable {P : (α : Type) → Emit α → Prop}

theorem promote (h : Calculates P) (v w : Value) : P _ (promote v w) := by
  have hconvert (op : Ir.Conversion) (x : Operand) (t : Ir.Ty) (f : Operand → Promoted) :
      P _ (do return some (f (← Emit.emit (.convert op x t)))) :=
    h.bind (h.emit _ rfl) fun _ => h.pure _
  unfold Lowering.promote
  cases v with
  | i8 x =>
    cases w with
    | i16 y => exact hconvert .sext x .i16 fun x => ⟨.i16, x, y⟩
    | f32 y => exact hconvert .sitofp x .float fun x => ⟨.f32, x, y⟩
    | _ => exact h.pure _
  | i16 x =>
    cases w with
    | i8 y => exact hconvert .sext y .i16 fun y => ⟨.i16, x, y⟩
    | f32 y => exact hconvert .sitofp x .float fun x => ⟨.f32, x, y⟩
    | _ => exact h.pure _
  | f32 x =>
    cases w with
    | i8 y | i16 y => exact hconvert .sitofp y .float fun y => ⟨.f32, x, y⟩
    | _ => exact h.pure _
  | _ => exact h.pure _

theorem binary (h : Calculates P) (op : Token.Kind) (v w : Value) :
    P _ (Numeric.binary op v w) := by
  apply h.bind (h.promote v w)
  intro p
  cases p with
  | none => exact h.throw _
  | some p =>
    dsimp only
    cases p.type.operation? op with
    | none => exact h.throw _
    | some operation => exact h.bind (h.emit _ rfl) fun _ => h.pure _

theorem compareOne (h : Calculates P) (op : Token.Kind) (v w : Value) :
    P _ (Numeric.compareOne op v w) := by
  unfold Numeric.compareOne
  split
  · exact h.emit _ rfl
  · exact h.emit _ rfl
  apply h.bind (h.promote v w)
  intro p
  cases p with
  | none => exact h.throw _
  | some p =>
    dsimp only
    cases Numeric.order? op with
    | none => exact h.throw _
    | some order =>
      dsimp only
      split
      · exact h.emit _ rfl
      · exact h.emit _ rfl

theorem compareRest (h : Calculates P) (ops : List Token.Kind) (values : List Value)
    (sofar : Operand) (v : Value) : P _ (Numeric.compareRest sofar v ops values) := by
  induction ops generalizing values sofar v with
  | nil => exact h.pure _
  | cons op ops ih =>
    cases values with
    | nil => exact h.pure _
    | cons w values =>
      apply h.bind (h.compareOne op v w)
      intro c
      exact h.bind (h.emit _ rfl) fun both => ih values both w

theorem compare (h : Calculates P) (ops : List Token.Kind) (values : List Value) :
    P _ (Numeric.compare ops values) := by
  unfold Numeric.compare
  split
  · split
    · exact h.throw _
    · apply h.bind (h.compareOne _ _ _)
      intro first
      exact h.bind (h.compareRest _ _ first _) fun _ => h.pure _
  · exact h.throw _

theorem number (h : Calculates P) (pos : Position) (value : Number.Numeral) (raw : String)
    (negated : Bool) : P _ (number pos value raw negated) := by
  unfold Lowering.number
  split
  · exact h.pure _
  · exact h.pure _
  · exact h.throw _

theorem negation (h : Calculates P) (pos : Position) (op : Token.Kind) (e : Expr) :
    P _ (negation pos op e) := by
  unfold Lowering.negation
  split
  · exact h.number _ _ _ _
  · exact h.throw _

theorem resize (h : Calculates P) (x : Operand) (bits width : Nat) : P _ (resize x bits width) := by
  unfold Lowering.resize
  split
  · exact h.pure _
  · exact h.emit _ rfl

theorem passArgument (h : Calculates P) (pos : Position) (name : String) (i : Nat) (v : Value)
    (param : Ir.Ty) : P _ (passArgument pos name i v param) := by
  unfold Lowering.passArgument
  split
  · rename_i x hx
    unfold pass? at hx
    split at hx
    · cases hx
      exact h.resize _ _ _
    · split at hx <;> cases hx
      exact h.resize _ _ _
    · cases hx
      exact h.pure _
    · cases hx
      exact h.pure _
    · cases hx
  · exact h.throw _

theorem coerce? (h : Calculates P) {v : Value} {t : ValueType} {x : Emit Operand}
    (hx : Lower.coerce? v t = some x) : P _ x := by
  unfold Lower.coerce? at hx
  split at hx <;> cases hx
  · exact h.pure _
  · exact h.resize _ _ _
  · exact h.resize _ _ _
  · exact h.pure _
  · exact h.pure _
  · exact h.pure _
  · exact h.pure _

theorem callValue (h : Calculates P) (pos : Position) (result : Ir.Ty) (x : Operand) :
    P _ (callValue pos result x) := by
  unfold Lowering.callValue
  split
  · exact h.pure _
  · exact h.pure _
  · exact h.throw _
  · exact h.pure _
  · exact h.throw _

end Calculates

end Lowering

end BoardPython
