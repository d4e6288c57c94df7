import BoardPython.Proofs.ControlFlow
import BoardPython.Proofs.TypedEmission

/-! Where the operands of emitted code come from. What an expression computes with was computed in
front of it in the same block, and the stack cells of variables are only read from or written to:
`flows_lower`. -/
namespace BoardPython

namespace Ir

/-- The operands that an operation computes with, stores or passes on. The address that it reads or
writes is not one of them. -/
def Operation.inputs : Operation → List Operand
  | .binary _ x y | .icmp _ x y | .fcmp _ x y => [x, y]
  | .convert _ x _ | .store x _ => [x]
  | .call _ _ args => args
  | .alloca _ | .load _ _ | .firstByte _ _ => []

def Operation.address? : Operation → Option Operand
  | .load _ a | .store _ a => some a
  | _ => none

def Terminator.inputs : Terminator → List Operand
  | .ret x => x.toList
  | .jump _ => []
  | .branch x _ _ => [x]

/-- If an operand is a register, then some code computes it. It is no stack cell. -/
def Operand.Computed (code : List Instr) : Operand → Prop
  | .register id _ => ∃ i ∈ code, i.result = some id ∧ i.isAlloca = false
  | _ => True

/-- An address of a variable: a global, or a stack cell that some code makes. -/
def Operand.IsAddress (code : List Instr) : Operand → Prop
  | .register id _ => ∃ i ∈ code, i.result = some id ∧ i.isAlloca = true
  | .global _ _ => True
  | _ => False

variable {code code' : List Instr}

theorem Operand.Computed.mono {x : Operand} (h : x.Computed code) (hsub : code ⊆ code') :
    x.Computed code' := by
  cases x with
  | register id type =>
    obtain ⟨i, hi, hdef⟩ := h
    exact ⟨i, hsub hi, hdef⟩
  | _ => trivial

theorem Operand.IsAddress.mono {a : Operand} (h : a.IsAddress code) (hsub : code ⊆ code') :
    a.IsAddress code' := by
  cases a with
  | register id type =>
    obtain ⟨i, hi, hdef⟩ := h
    exact ⟨i, hsub hi, hdef⟩
  | global name content => trivial
  | const value | param name type => exact h

/-- What an operation behind some code uses: values that the code computes, and addresses of
variables whose stack cells are in the entry. It makes no stack cell itself. -/
inductive Operation.Uses (code entry : List Instr) : Operation → Prop
  | binary {op : BinaryOp} {x y : Operand} (hx : x.Computed code) (hy : y.Computed code) :
      Uses code entry (.binary op x y)
  | icmp {order : Order} {x y : Operand} (hx : x.Computed code) (hy : y.Computed code) :
      Uses code entry (.icmp order x y)
  | fcmp {order : Order} {x y : Operand} (hx : x.Computed code) (hy : y.Computed code) :
      Uses code entry (.fcmp order x y)
  | convert {op : Conversion} {x : Operand} {target : Ty} (hx : x.Computed code) :
      Uses code entry (.convert op x target)
  | load {type : Ty} {a : Operand} (ha : a.IsAddress entry) : Uses code entry (.load type a)
  | store {x a : Operand} (hx : x.Computed code) (ha : a.IsAddress entry) :
      Uses code entry (.store x a)
  | firstByte {name : String} {length : Nat} : Uses code entry (.firstByte name length)
  | call {tail : Bool} {f : Callee} {args : List Operand} (hargs : ∀ x ∈ args, x.Computed code) :
      Uses code entry (.call tail f args)

namespace Operation.Uses

variable {code entry : List Instr} {op : Operation}

theorem inputs (h : op.Uses code entry) : ∀ x ∈ op.inputs, x.Computed code := by
  have htwo {x y : Operand} (hx : x.Computed code) (hy : y.Computed code) :
      ∀ z ∈ [x, y], z.Computed code := by
    intro z hz
    rcases List.mem_cons.mp hz with rfl | hz
    · exact hx
    · rwa [List.mem_singleton.mp hz]
  cases h with
  | binary hx hy | icmp hx hy | fcmp hx hy => exact htwo hx hy
  | convert hx | store hx ha => exact List.forall_mem_singleton.mpr hx
  | call hargs => exact hargs
  | load ha | firstByte => exact List.forall_mem_nil _

theorem address (h : op.Uses code entry) : ∀ a ∈ op.address?, a.IsAddress entry := by
  intro a ha
  cases h with
  | load h | store hx h => exact Option.some.inj ha ▸ h
  | _ => cases ha

theorem isAlloca (h : op.Uses code entry) (r : Option Nat) :
    (⟨r, op⟩ : Instr).isAlloca = false := by
  cases h <;> rfl

end Operation.Uses

def results (is : List Instr) : List Nat := is.filterMap (·.result)

theorem results_append (is js : List Instr) : results (is ++ js) = results is ++ results js :=
  List.filterMap_append

/-- Each instruction of some code is related to the instructions in front of it. -/
def Sequential (P : List Instr → Instr → Prop) (is : List Instr) : Prop :=
  ∀ n i, is[n]? = some i → P (is.take n) i

section Sequential

variable {P Q : List Instr → Instr → Prop} {is js : List Instr}

theorem sequential_nil : Sequential P [] := fun n i hi => by cases hi

theorem Sequential.imp (h : Sequential P is) (himp : ∀ before, ∀ i ∈ is, P before i → Q before i) :
    Sequential Q is :=
  fun n i hi => himp _ i (List.mem_of_getElem? hi) (h n i hi)

theorem Sequential.append (h : Sequential P is)
    (h' : Sequential (fun before => P (is ++ before)) js) : Sequential P (is ++ js) := by
  intro n i hi
  by_cases hn : n < is.length
  · rw [List.getElem?_append_left hn] at hi
    rw [List.take_append_of_le_length (Nat.le_of_lt hn)]
    exact h n i hi
  · have hle : is.length ≤ n := Nat.le_of_not_lt hn
    rw [List.getElem?_append_right hle] at hi
    rw [List.take_append, List.take_of_length_le hle]
    exact h' (n - is.length) i hi

theorem sequential_singleton {i : Instr} (h : P [] i) : Sequential P [i] := by
  intro n j hj
  cases n with
  | zero =>
    obtain rfl := Option.some.inj hj
    exact h
  | succ n => cases hj

end Sequential

end Ir

namespace Lowering

open Ir (Instr Operand Operation Sequential)
open Relation (ReflTransGen)

/-- Where code is emitted: the instructions in front of it in its block, and those of the entry. -/
structure Spot where
  before : List Instr
  entry : List Instr

namespace Emission

def code (k : Spot) (s : Emission) : List Instr := k.before ++ s.instrs

inductive Grows (k : Spot) : Emission → Emission → Prop
  | emit {s : Emission} {op : Operation} (hop : op.Uses (s.code k) k.entry) :
      Grows k s { s with
        instrs := s.instrs ++ [⟨some s.register, op⟩]
        register := s.register + 1 }
  | perform {s : Emission} {op : Operation} (hop : op.Uses (s.code k) k.entry) :
      Grows k s { s with instrs := s.instrs ++ [⟨none, op⟩] }
  | other {s s' : Emission} (hinstrs : s'.instrs = s.instrs)
      (hregister : s'.register = s.register) : Grows k s s'

variable {k : Spot} {s s' : Emission}

theorem Grows.code_subset (h : Grows k s s') : s.code k ⊆ s'.code k := by
  have hmore {is : List Instr} (i : Instr) : k.before ++ is ⊆ k.before ++ (is ++ [i]) := by
    rw [← List.append_assoc]
    exact List.subset_append_left _ _
  cases h with
  | emit hop | perform hop => exact hmore _
  | other hinstrs hregister =>
    unfold code
    rw [hinstrs]
    exact List.Subset.refl _

/-- All that has been emitted uses what was computed in front of it, and each result has got a
register of its own, from number `n` on. -/
structure Flows (k : Spot) (n : Nat) (s : Emission) : Prop where
  uses : Sequential (fun before i => i.operation.Uses (k.before ++ before) k.entry) s.instrs
  single : (Ir.results s.instrs).Nodup
  fresh : ∀ r ∈ Ir.results s.instrs, n ≤ r ∧ r < s.register
  le : n ≤ s.register

theorem flows_start (k : Spot) (n strings : Nat) : (Emission.start n strings).Flows k n where
  uses := Ir.sequential_nil
  single := List.nodup_nil
  fresh := List.forall_mem_nil _
  le := Nat.le_refl _

theorem Grows.flows {n : Nat} (h : Grows k s s') (hs : s.Flows k n) : s'.Flows k n := by
  cases h with
  | @emit op hop =>
    have hresults : Ir.results (s.instrs ++ [⟨some s.register, op⟩]) =
        Ir.results s.instrs ++ [s.register] := Ir.results_append _ _
    refine ⟨hs.uses.append (Ir.sequential_singleton ?_), ?_, ?_, Nat.le_succ_of_le hs.le⟩
    · rw [List.append_nil]
      exact hop
    · -- All registers before are smaller.
      rw [hresults]
      apply hs.single.append (List.nodup_singleton _)
      intro r hr hmem
      have hlt := (hs.fresh r hr).2
      rw [List.mem_singleton.mp hmem] at hlt
      exact Nat.lt_irrefl _ hlt
    · rw [hresults]
      intro r hr
      rcases List.mem_append.mp hr with hr | hr
      · exact ⟨(hs.fresh r hr).1, Nat.lt_succ_of_lt (hs.fresh r hr).2⟩
      · rw [List.mem_singleton.mp hr]
        exact ⟨hs.le, Nat.lt_succ_self _⟩
  | @perform op hop =>
    have hresults : Ir.results (s.instrs ++ [⟨none, op⟩]) = Ir.results s.instrs :=
      (Ir.results_append _ _).trans (List.append_nil _)
    refine ⟨hs.uses.append (Ir.sequential_singleton ?_), ?_, ?_, hs.le⟩
    · rw [List.append_nil]
      exact hop
    · rw [hresults]
      exact hs.single
    · rw [hresults]
      exact hs.fresh
  | other hinstrs hregister =>
    refine ⟨?_, ?_, ?_, hregister ▸ hs.le⟩
    · rw [hinstrs]
      exact hs.uses
    · rw [hinstrs]
      exact hs.single
    · rw [hinstrs, hregister]
      exact hs.fresh

theorem Flows.steps {n : Nat} (hs : s.Flows k n) (h : ReflTransGen (Grows k) s s') :
    s'.Flows k n := by
  induction h with
  | refl => exact hs
  | tail _ hstep ih => exact hstep.flows ih

end Emission

def Value.Computed (code : List Instr) (v : Value) : Prop :=
  ∀ x, v.operand? = some x → x.Computed code

theorem Value.Computed.mono {code code' : List Instr} {v : Value} (h : v.Computed code)
    (hsub : code ⊆ code') : v.Computed code' :=
  fun x hx => (h x hx).mono hsub

theorem Value.computed_void (code : List Instr) : Value.void.Computed code :=
  fun x hx => by cases hx

open Emission (Grows)

section Instructions

variable {k : Spot} {s : Emission} {op : Operation}

theorem Emission.computed_emitted (hop : op.Uses (s.code k) k.entry) :
    (Operand.register s.register op.type).Computed ((s.emitted op).code k) :=
  ⟨⟨some s.register, op⟩, List.mem_append_right _ (List.mem_append_right _
    (List.mem_singleton_self _)), rfl, hop.isAlloca _⟩

theorem Emit.flows_emit (hop : op.Uses (s.code k) k.entry) :
    Meets (Grows k) s (Emit.emit op) fun s' x => x.Computed (s'.code k) :=
  ⟨.single (.emit hop), Emission.computed_emitted hop⟩

theorem Emit.flows_perform (hop : op.Uses (s.code k) k.entry) :
    Meets (Grows k) s (Emit.perform op) fun _ _ => True :=
  ⟨.single (.perform hop), trivial⟩

end Instructions

def computedScene (code : List Instr) : Ir.Scene := ⟨(·.Computed code), fun _ => True⟩

theorem uses_of_typed {code entry : List Instr} {strict : Bool} {op : Operation}
    (h : op.Typed (computedScene code) strict) (hfree : op.isCellFree = true) :
    op.Uses code entry := by
  cases h with
  | int _ hx hy | float _ hx hy => exact .binary hx.1 hy.1
  | icmp hx hy => exact .icmp hx.1 hy.1
  | fcmp hx hy => exact .fcmp hx.1 hy.1
  | trunc _ hx | sext _ hx | sitofp hx => exact .convert hx.1
  | firstByte _ => exact .firstByte
  | @call _ f args _ hargs _ =>
    have hboth : List.Forall₂ (fun x t => x.Computed code ∧ x.type = t) args
        (f.params.take args.length) := hargs
    exact .call ((List.forall₂_and_left _ _).mp hboth).1
  | _ => cases hfree

def Rules.flowing (k : Spot) (strict : Bool) : Rules where
  step := Grows k
  scene s := computedScene (s.code k)
  isPlace a := a.IsAddress k.entry
  strict := strict
  scene_le h := ⟨fun _ hx => hx.mono h.code_subset, fun _ hf => hf⟩
  holds_const _ _ := trivial
  emit hop hfree :=
    have huses := uses_of_typed hop hfree
    ⟨.emit huses, Emission.computed_emitted huses⟩
  load ha _ := ⟨.emit (.load ha), Emission.computed_emitted (.load ha)⟩
  perform hop hfree := .perform (uses_of_typed hop hfree)
  literal _ _ := ⟨.other rfl rfl, trivial⟩
  warn _ _ := .other rfl rfl

/-- The variables of a context are globals, or have stack cells in the entry. -/
structure Context.Placed (entry : List Instr) (c : Context) : Prop where
  operators : c.operators = .numeric
  symbols : ∀ name symbol a, c.resolve? name = some symbol → symbol.address? = some a →
    a.IsAddress entry

variable {k : Spot} {c : Context}

theorem Context.Placed.admits (hc : c.Placed k.entry) : (Rules.flowing k c.strict).Admits c where
  strict := rfl
  binary op v w s hv hw := by
    rw [hc.operators]
    exact Rules.meets_binary op hv hw
  compare ops vs s hvs := by
    rw [hc.operators]
    exact Rules.meets_compare ops hvs
  symbols := hc.symbols
  functions _ _ _ _ := trivial

theorem flows_lower (hc : c.Placed k.entry) (e : Expr) (s : Emission) :
    Meets (Grows k) s (lower c e) fun s' v => v.Computed (s'.code k) :=
  (Rules.meets_lower hc.admits e s).weaken fun _ _ _ hv x hx => (hv x hx).1

end Lowering

end BoardPython
