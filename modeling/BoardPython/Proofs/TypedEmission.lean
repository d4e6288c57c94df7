import BoardPython.Proofs.EmissionRules

/-! Lowering an expression emits well-typed code, whether it succeeds or fails half way, and an
operand of a value has the type that represents the type of the value. -/
namespace BoardPython.Lowering

open Ir (Operand Operation Scene Ty)
open Relation (ReflTransGen)

namespace Emission

def scene (σ : Scene) (s : Emission) : Scene where
  holds x := σ.holds x ∨ x.Refers s.globals [] s.instrs
  calls := σ.calls

/-- What can be added at a time, where the code around it can refer to `σ`. -/
inductive Step (σ : Scene) (strict : Bool) : Emission → Emission → Prop
  | emit {s : Emission} {op : Operation} (hop : op.Typed (s.scene σ) strict) :
      Step σ strict s { s with
        instrs := s.instrs ++ [⟨some s.register, op⟩]
        register := s.register + 1 }
  | perform {s : Emission} {op : Operation} (hop : op.Typed (s.scene σ) strict) :
      Step σ strict s { s with instrs := s.instrs ++ [⟨none, op⟩] }
  | string {s : Emission} {value : Bytes} :
      Step σ strict s { s with
        globals := s.globals ++ [literal (s.strings + 1) value]
        strings := s.strings + 1 }
  | warn {s : Emission} {d : Diagnostic} (hstrict : strict = false) :
      Step σ strict s { s with warnings := s.warnings ++ [d] }

variable {σ : Scene} {strict : Bool} {s s' : Emission}

theorem scene_le_of_subset (hglobals : s.globals ⊆ s'.globals) (hinstrs : s.instrs ⊆ s'.instrs) :
    (s.scene σ).Le (s'.scene σ) where
  holds _ hx := hx.imp_right fun h => h.mono hglobals (List.Subset.refl _) hinstrs
  calls _ hf := hf

theorem Step.scene_le (h : Step σ strict s s') : (s.scene σ).Le (s'.scene σ) := by
  cases h with
  | emit hop | perform hop =>
    exact scene_le_of_subset (List.Subset.refl _) (List.subset_append_left _ _)
  | string => exact scene_le_of_subset (List.subset_append_left _ _) (List.Subset.refl _)
  | warn hstrict => exact Scene.Le.refl _

theorem scene_le_of_steps (h : ReflTransGen (Step σ strict) s s') :
    (s.scene σ).Le (s'.scene σ) := by
  induction h with
  | refl => exact Scene.Le.refl _
  | tail _ hstep ih => exact ih.trans hstep.scene_le

def Typed (σ : Scene) (strict : Bool) (s : Emission) : Prop :=
  ∀ i ∈ s.instrs, i.operation.Typed (s.scene σ) strict

theorem Step.typed (h : Step σ strict s s') (hs : s.Typed σ strict) : s'.Typed σ strict := by
  have hle := h.scene_le
  have hold : ∀ i ∈ s.instrs, i.operation.Typed (s'.scene σ) strict :=
    fun i hi => (hs i hi).mono hle
  cases h with
  | emit hop | perform hop =>
    intro i hi
    rcases List.mem_append.mp hi with hi | hi
    · exact hold i hi
    · rw [List.mem_singleton.mp hi]
      exact hop.mono hle
  | string | warn hstrict => exact hold

theorem typed_of_steps (h : ReflTransGen (Step σ strict) s s') (hs : s.Typed σ strict) :
    s'.Typed σ strict := by
  induction h with
  | refl => exact hs
  | tail _ hstep ih => exact hstep.typed ih

end Emission

open Emission (Step)

section Instructions

variable {σ : Scene} {strict : Bool} {s : Emission}

theorem Emission.holds_emitted (op : Operation) :
    ((s.emitted op).scene σ).holds (.register s.register op.type) :=
  .inr ⟨_, List.mem_append_right _ (List.mem_singleton_self _), rfl, rfl⟩

theorem Emission.holds_literal (value : Bytes) : ((s.withLiteral value).scene σ).holds
    (.global (literal (s.strings + 1) value).name (.array (value.length + 1) .i8)) := by
  refine .inr ⟨_, List.mem_append_right _ (List.mem_singleton_self _), rfl, ?_⟩
  change Ty.array (value ++ [0]).length _ = _
  rw [List.length_append]
  rfl

theorem Emit.meets_emit {op : Operation} (hop : op.Typed (s.scene σ) strict) :
    Meets (Step σ strict) s (Emit.emit op) fun s' x => (s'.scene σ).Has x op.type :=
  ⟨.single (.emit hop), Emission.holds_emitted op, rfl⟩

theorem Emit.meets_perform {op : Operation} (hop : op.Typed (s.scene σ) strict) :
    Meets (Step σ strict) s (Emit.perform op) fun _ _ => True :=
  ⟨.single (.perform hop), trivial⟩

end Instructions

def Rules.typed (σ : Scene) (strict : Bool) : Rules where
  step := Step σ strict
  scene := Emission.scene σ
  isPlace := σ.holds
  strict := strict
  scene_le := Step.scene_le
  holds_const _ _ := .inr trivial
  emit hop _ := ⟨.emit hop, Emission.holds_emitted _⟩
  load ha htype := ⟨.emit (.load ⟨.inl ha, htype⟩), Emission.holds_emitted _⟩
  perform hop _ := .perform hop
  literal _ value := ⟨.string, Emission.holds_literal value⟩
  warn hstrict _ := .warn hstrict

structure Context.Linked (σ : Scene) (c : Context) : Prop where
  operators : c.operators = .numeric
  symbols : ∀ name symbol a, c.resolve? name = some symbol → symbol.address? = some a → σ.holds a
  functions : ∀ key f, c.functions.find? key = some f → σ.calls f.callee

variable {σ : Scene} {c : Context}

theorem Context.Linked.admits (hc : c.Linked σ) : (Rules.typed σ c.strict).Admits c where
  strict := rfl
  binary op v w s hv hw := by
    rw [hc.operators]
    exact Rules.meets_binary op hv hw
  compare ops vs s hvs := by
    rw [hc.operators]
    exact Rules.meets_compare ops hvs
  symbols := hc.symbols
  functions key f _ := hc.functions key f

theorem meets_lower (hc : c.Linked σ) (e : Expr) (s : Emission) :
    Meets (Step σ c.strict) s (lower c e) fun s' v => v.Known (s'.scene σ) :=
  Rules.meets_lower hc.admits e s

end BoardPython.Lowering
