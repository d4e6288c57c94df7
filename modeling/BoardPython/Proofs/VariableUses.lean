import BoardPython.Proofs.Calculations
import BoardPython.Proofs.EmittedCode

/-! The occurrences of variables in a program and the loads and stores in its code. An expression
that is lowered loads the variables that it reads, one after the other, and touches no other
memory: `touches_lower`. -/
namespace BoardPython

inductive Use where
  | read (name : String)
  | write (name : String)
  deriving DecidableEq, Repr

def Use.name : Use → String
  | read name | write name => name

mutual

/-- The variables that an expression reads, in the order of its evaluation. -/
def Expr.reads : Expr → List String
  | .name _ id => [id]
  | .binary _ _ left right => left.reads ++ right.reads
  | .logical _ _ left right => left.reads ++ right.reads
  | .unary _ _ operand => operand.reads
  | .compare _ _ operands => readsAll operands
  | .call _ _ args => readsAll args
  | .member _ value _ => value.reads
  | .list _ elements => readsAll elements
  | _ => []

def readsAll : List Expr → List String
  | [] => []
  | e :: es => e.reads ++ readsAll es

end

def Expr.uses (e : Expr) : List Use := e.reads.map .read

mutual

/-- The occurrences of variables in a statement in the order in which it is lowered. The value of an
assignment comes before its variable. -/
def Stmt.uses : Stmt → List Use
  | .evaluate _ e => e.uses
  | .assign _ name _ e => e.uses ++ [.write name]
  | .augment _ name _ e => .read name :: e.uses ++ [.write name]
  | .ret _ (some e) => e.uses
  | .branch _ cond yes no => cond.uses ++ usesAll yes ++ usesAll no
  | .loop _ cond body => cond.uses ++ usesAll body
  | _ => []

def usesAll : List Stmt → List Use
  | [] => []
  | st :: ss => st.uses ++ usesAll ss

end

namespace Ir

inductive Access where
  | load (address : Operand)
  | store (address : Operand)
  deriving DecidableEq, Repr

def Operation.access? : Operation → Option Access
  | .load _ address => some (.load address)
  | .store _ address => some (.store address)
  | _ => none

theorem Operation.access?_of_isCalculation {op : Operation} (h : op.isCalculation = true) :
    op.access? = none := by
  cases op with
  | load | store => cases h
  | _ => rfl

def accesses (code : List Instr) : List Access := code.filterMap (·.operation.access?)

theorem accesses_append (code code' : List Instr) :
    accesses (code ++ code') = accesses code ++ accesses code' := List.filterMap_append

end Ir

/-- What an occurrence does to memory if its variable is at an address. -/
def Use.access (address : Ir.Operand) : Use → Ir.Access
  | .read _ => .load address
  | .write _ => .store address

namespace Lowering

open Ir (Access Operand Operation accesses)

def Context.loads (c : Context) (name : String) : List Access :=
  ((c.resolve? name).bind Symbol.address?).toList.map .load

/-- If a computation succeeds, then it has loaded certain variables, and all of them are known. -/
def Touches (c : Context) (names : List String) (α : Type) (x : Emit α) : Prop :=
  ∀ s a s', x s = .ok a s' →
    accesses s'.instrs = accesses s.instrs ++ names.flatMap c.loads ∧
      ∀ name ∈ names, (c.resolve? name).isSome

section Touches

variable {c : Context} {α β : Type} {names names' : List String} {x : Emit α} {f : α → Emit β}
  {op : Operation}

theorem Touches.bind (hx : Touches c names α x) (hf : ∀ a, Touches c names' β (f a)) :
    Touches c (names ++ names') β (x >>= f) := by
  intro s b s' h
  obtain ⟨a, s1, h1, h2⟩ := bind_eq_ok h
  obtain ⟨hfirst, hknown⟩ := hx s a s1 h1
  obtain ⟨hsecond, hknown'⟩ := hf a s1 b s' h2
  refine ⟨?_, List.forall_mem_append.mpr ⟨hknown, hknown'⟩⟩
  rw [hsecond, hfirst, List.flatMap_append, List.append_assoc]

theorem Touches.bind_quiet (hx : Touches c names α x) (hf : ∀ a, Touches c [] β (f a)) :
    Touches c names β (x >>= f) := by
  have h := hx.bind hf
  rwa [List.append_nil] at h

theorem touches_pure (a : α) : Touches c [] α (pure a) := by
  intro s b s' h
  obtain ⟨-, rfl⟩ := pure_eq_ok h
  exact ⟨(List.append_nil _).symm, List.forall_mem_nil _⟩

theorem touches_throw (e : Error) : Touches c names α (throw e) := by
  intro s b s' h
  cases h

theorem touches_instr
    (hx : ∀ s, ∃ a s' i, x s = .ok a s' ∧ s'.instrs = s.instrs ++ [i] ∧
      i.operation.access? = none) : Touches c [] α x := by
  intro s a s' h
  obtain ⟨a1, s1, i, h1, hinstrs, hop⟩ := hx s
  obtain ⟨-, rfl⟩ : a1 = a ∧ s1 = s' := by
    rw [h1] at h
    cases h
    exact ⟨rfl, rfl⟩
  refine ⟨?_, List.forall_mem_nil _⟩
  rw [hinstrs, Ir.accesses_append]
  simp [accesses, hop]

theorem touches_emit (hop : op.access? = none) : Touches c [] Operand (Emit.emit op) :=
  touches_instr fun _ => ⟨_, _, _, rfl, rfl, hop⟩

theorem touches_perform (hop : op.access? = none) : Touches c [] Unit (Emit.perform op) :=
  touches_instr fun _ => ⟨_, _, _, rfl, rfl, hop⟩

theorem Touches.locate (pos : Position) (hx : Touches c names α x) :
    Touches c names α (Emit.locate pos x) := fun s a s' h => hx s a s' (locate_eq_ok h)

theorem calculates_touches : Calculates (Touches c []) where
  pure := touches_pure
  throw := touches_throw
  bind hx hf := hx.bind_quiet hf
  emit _ hop := touches_emit (Ir.Operation.access?_of_isCalculation hop)
  locate pos _ hx := hx.locate pos

theorem touches_stringValue (pos : Position) (value : Bytes) :
    Touches c [] Value (stringValue c pos value) := by
  unfold stringValue
  split
  · refine Touches.bind_quiet ?_ fun _ => touches_pure _
    exact touches_instr fun _ => ⟨_, _, _, rfl, rfl, rfl⟩
  · exact touches_throw _

theorem touches_variableValue (pos : Position) (name : String) :
    Touches c [name] Value (variableValue c pos name) := by
  unfold variableValue
  cases hname : c.resolve? name with
  | none => exact touches_throw _
  | some symbol =>
    have hknown : ∀ other ∈ [name], (c.resolve? other).isSome := by
      rw [List.forall_mem_singleton, hname]
      rfl
    have hloads : [name].flatMap c.loads = symbol.address?.toList.map .load := by
      simp [Context.loads, hname]
    dsimp only
    cases haddress : symbol.address? with
    | none =>
      intro s v s' h
      obtain ⟨-, rfl⟩ := pure_eq_ok h
      refine ⟨?_, hknown⟩
      rw [hloads, haddress]
      exact (List.append_nil _).symm
    | some address =>
      intro s v s' h
      cases h
      refine ⟨?_, hknown⟩
      rw [hloads, haddress, Ir.accesses_append]
      rfl

theorem touches_function (pos : Position) (name : String) (first : Option ValueType) :
    Touches c [] Signature (function c pos name first) := by
  rw [function_eq]
  cases c.select? name first with
  | some f => exact touches_pure f
  | none => exact touches_throw _

theorem touches_checkArity (pos : Position) (name : String) (params args : Nat) :
    Touches c [] Unit (checkArity c pos name params args) := by
  unfold checkArity
  split
  · exact touches_pure _
  split
  · exact touches_throw _
  · intro s a s' h
    cases h
    exact ⟨(List.append_nil _).symm, List.forall_mem_nil _⟩

theorem touches_call (pos : Position) (f : Ir.Callee) (args : List Operand) :
    Touches c [] Value (call pos f args) := by
  unfold call
  split
  · exact (touches_perform rfl).bind_quiet fun _ => touches_pure _
  · exact (touches_emit rfl).bind_quiet fun x => calculates_touches.callValue pos _ x

end Touches

variable {c : Context}

mutual

theorem touches_lower (hc : c.operators = .numeric) : ∀ e : Expr,
    Touches c e.reads Value (lower c e)
  | .number pos value raw => by
    simp only [lower, Expr.reads]
    exact calculates_touches.number _ _ _ _
  | .string pos value => by
    simp only [lower, Expr.reads]
    exact touches_stringValue pos value
  | .bool .. | .none .. => by
    simp only [lower, Expr.reads]
    exact touches_pure _
  | .ellipsis .. | .logical .. | .member .. | .list .. | .lambda .. => by
    simp only [lower]
    exact touches_throw _
  | .unary pos op operand => by
    simp only [lower]
    -- Only a literal can be negated, and it reads nothing.
    unfold negation
    split
    · exact calculates_touches.number _ _ _ _
    · exact touches_throw _
  | .name pos id => by
    simp only [lower, Expr.reads]
    exact touches_variableValue pos id
  | .binary pos op left right => by
    simp only [lower, Expr.reads]
    refine (touches_lower hc left).bind fun v => (touches_lower hc right).bind_quiet fun w => ?_
    rw [hc]
    exact (calculates_touches.binary op v w).locate pos
  | .compare pos ops operands => by
    simp only [lower, Expr.reads]
    refine (touches_lowerAll hc operands).bind_quiet fun values => ?_
    rw [hc]
    exact (calculates_touches.compare ops values).locate pos
  | .call pos callee args => by
    cases callee with
    | name p name =>
      cases args with
      | nil =>
        simp only [lower, Expr.reads, readsAll]
        exact (touches_function p name none).bind_quiet fun f =>
          (touches_checkArity pos name _ 0).bind_quiet fun _ => touches_call pos f.callee []
      | cons arg args =>
        simp only [lower, Expr.reads, readsAll]
        refine (touches_lower hc arg).bind fun first => ?_
        refine (touches_function p name _).bind fun f => ?_
        refine (touches_checkArity pos name _ _).bind fun _ => ?_
        split
        · exact (touches_lowerAll hc args).bind_quiet fun _ => touches_call pos f.callee []
        · refine (calculates_touches.passArgument _ name 1 first _).bind fun x => ?_
          exact (touches_lowerArguments hc name 2 _ args).bind_quiet fun xs =>
            touches_call pos f.callee (x :: xs)
    | _ =>
      simp only [lower]
      exact touches_throw _

theorem touches_lowerAll (hc : c.operators = .numeric) : ∀ es : List Expr,
    Touches c (readsAll es) (List Value) (lowerAll c es)
  | [] => by
    simp only [lowerAll, readsAll]
    exact touches_pure _
  | e :: es => by
    simp only [lowerAll, readsAll]
    exact (touches_lower hc e).bind fun v => (touches_lowerAll hc es).bind_quiet fun vs =>
      touches_pure _

theorem touches_lowerArguments (hc : c.operators = .numeric) (name : String) :
    ∀ (i : Nat) (params : List Ir.Ty) (es : List Expr),
    Touches c (readsAll es) (List Operand) (lowerArguments c name i params es)
  | i, params, [] => by
    simp only [lowerArguments, readsAll]
    exact touches_pure _
  | i, [], e :: es => by
    simp only [lowerArguments, readsAll]
    exact (touches_lower hc e).bind fun v => touches_lowerArguments hc name (i + 1) [] es
  | i, param :: params, e :: es => by
    simp only [lowerArguments, readsAll]
    refine (touches_lower hc e).bind fun v => ?_
    refine (calculates_touches.passArgument _ name i v param).bind fun x => ?_
    exact (touches_lowerArguments hc name (i + 1) params es).bind_quiet fun xs => touches_pure _

end

end Lowering

end BoardPython
