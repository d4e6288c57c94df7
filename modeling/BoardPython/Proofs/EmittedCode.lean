import BoardPython.Lowering.Stmt
import BoardPython.Proofs.Evaluation

/-! What emitted code computes. A triple says that code does what a reference does, from registers
that satisfy a precondition; the registers below a bound stay as they are. -/
namespace BoardPython

open Ir (Datum Instr Machine Operand Operation Registers Trap World)

namespace Ir

/-- An operand that later code cannot change: no register from `n` on. -/
def Operand.Below (n : Nat) : Operand → Prop
  | .register id _ => id < n
  | _ => True

theorem Operand.Below.mono {n k : Nat} {x : Operand} (h : x.Below n) (hk : n ≤ k) : x.Below k := by
  cases x with
  | register id type =>
    have hid : id < n := h
    exact Nat.lt_of_lt_of_le hid hk
  | _ => trivial

def Registers.AgreeBelow {F : Type} (n : Nat) (regs regs' : Registers F) : Prop :=
  ∀ r, r < n → regs' r = regs r

namespace Machine

variable {F : Type} {m : Machine F}

theorem operand?_of_below {n : Nat} {x : Operand} {regs regs' : Registers F} (hx : x.Below n)
    (h : regs.AgreeBelow n regs') : m.operand? regs' x = m.operand? regs x := by
  cases x with
  | register id type => exact h id hx
  | _ => rfl

def StableBelow (n : Nat) (p : Registers F → Prop) : Prop :=
  ∀ regs regs', regs.AgreeBelow n regs' → p regs → p regs'

theorem StableBelow.mono {n k : Nat} {p : Registers F → Prop} (h : StableBelow n p) (hk : n ≤ k) :
    StableBelow k p := by
  intro regs regs' ha hp
  exact h regs regs' (fun r hr => ha r (Nat.lt_of_lt_of_le hr hk)) hp

theorem StableBelow.and {n : Nat} {p q : Registers F → Prop} (hp : StableBelow n p)
    (hq : StableBelow n q) : StableBelow n fun regs => p regs ∧ q regs := by
  intro regs regs' ha h
  exact ⟨hp regs regs' ha h.1, hq regs regs' ha h.2⟩

/-- Code that does what the reference does, and gives registers that the result of the reference
goes with. -/
structure Computes {α : Type} (m : Machine F) (n : Nat) (pre : Registers F → Prop)
    (code : List Instr) (ref : World F → Except Trap (α × World F))
    (post : α → Registers F → Prop) : Prop where
  trap : ∀ regs w t, pre regs → ref w = .error t → m.exec code regs w = .error t
  value : ∀ regs w a w', pre regs → ref w = .ok (a, w') →
    ∃ regs', m.exec code regs w = .ok (regs', w') ∧ regs.AgreeBelow n regs' ∧ post a regs'

variable {α β : Type} {n k : Nat} {pre p : Registers F → Prop} {post : α → Registers F → Prop}
  {ref : World F → Except Trap (α × World F)} {code : List Instr}

theorem computes_nil {a : α} (h : ∀ regs, pre regs → post a regs) :
    m.Computes n pre [] (fun w => .ok (a, w)) post := by
  constructor
  · intro regs w t _ he
    cases he
  · intro regs w a' w' hp he
    obtain ⟨rfl, rfl⟩ := Prod.mk.inj (Except.ok.inj he)
    exact ⟨regs, rfl, fun _ _ => rfl, h regs hp⟩

variable {post' : β → Registers F → Prop} {op : Operation}

theorem Computes.append {code' : List Instr} {ref' : α → World F → Except Trap (β × World F)}
    (h : m.Computes n pre code ref post) (hk : n ≤ k)
    (h' : ∀ a, m.Computes k (post a) code' (ref' a) post') :
    m.Computes n pre (code ++ code') (fun w => ref w >>= fun c => ref' c.1 c.2) post' := by
  constructor
  · intro regs w t hp he
    rw [exec_append]
    cases hr : ref w with
    | error t' =>
      rw [hr] at he
      rw [h.trap regs w t' hp hr]
      cases he
      rfl
    | ok c =>
      obtain ⟨regs1, he1, -, hpost⟩ := h.value regs w c.1 c.2 hp hr
      rw [hr] at he
      rw [he1]
      exact (h' c.1).trap regs1 c.2 t hpost he
  · intro regs w b w' hp he
    rw [exec_append]
    cases hr : ref w with
    | error t =>
      rw [hr] at he
      cases he
    | ok c =>
      obtain ⟨regs1, he1, ha1, hpost⟩ := h.value regs w c.1 c.2 hp hr
      rw [hr] at he
      obtain ⟨regs2, he2, ha2, hpost2⟩ := (h' c.1).value regs1 c.2 b w' hpost he
      rw [he1]
      refine ⟨regs2, he2, ?_, hpost2⟩
      intro r hlt
      rw [ha2 r (Nat.lt_of_lt_of_le hlt hk), ha1 r hlt]

theorem Computes.frame (h : m.Computes n pre code ref post) (hp : StableBelow n p) :
    m.Computes n (fun regs => p regs ∧ pre regs) code ref (fun a regs => p regs ∧ post a regs) := by
  constructor
  · intro regs w t hpre he
    exact h.trap regs w t hpre.2 he
  · intro regs w a w' hpre he
    obtain ⟨regs1, he1, ha1, hpost⟩ := h.value regs w a w' hpre.2 he
    exact ⟨regs1, he1, ha1, hp regs regs1 ha1 hpre.1, hpost⟩

theorem Computes.weaken {post' : α → Registers F → Prop} {pre' : Registers F → Prop}
    (h : m.Computes n pre code ref post) (hpre : ∀ regs, pre' regs → pre regs)
    (hpost : ∀ a regs, post a regs → post' a regs) : m.Computes n pre' code ref post' := by
  constructor
  · intro regs w t hp he
    exact h.trap regs w t (hpre regs hp) he
  · intro regs w a w' hp he
    obtain ⟨regs1, he1, ha1, hq⟩ := h.value regs w a w' (hpre regs hp) he
    exact ⟨regs1, he1, ha1, hpost a regs1 hq⟩

theorem Computes.map (f : α → β) (h : m.Computes n pre code ref post)
    (hpost : ∀ a regs, post a regs → post' (f a) regs) :
    m.Computes n pre code (fun w => (ref w).map fun c => (f c.1, c.2)) post' := by
  constructor
  · intro regs w t hp he
    cases hr : ref w with
    | error t' =>
      rw [hr] at he
      cases he
      exact h.trap regs w t hp hr
    | ok c =>
      rw [hr] at he
      cases he
  · intro regs w b w' hp he
    cases hr : ref w with
    | error t' =>
      rw [hr] at he
      cases he
    | ok c =>
      rw [hr] at he
      cases he
      obtain ⟨regs1, he1, ha1, hq⟩ := h.value regs w c.1 c.2 hp hr
      exact ⟨regs1, he1, ha1, hpost c.1 regs1 hq⟩

theorem computes_one
    (htrap : ∀ regs w e, pre regs → ref w = .error e → m.operate regs w op = .error e)
    (hvalue : ∀ regs w a w', pre regs → ref w = .ok (a, w') →
      ∃ d, m.operate regs w op = .ok (some d, w') ∧ ∀ regs', regs' n = some d → post a regs') :
    m.Computes n pre [⟨some n, op⟩] ref post := by
  constructor
  · intro regs w e hp he
    simp only [exec, step, htrap regs w e hp he]
    rfl
  · intro regs w a w' hp he
    obtain ⟨d, hd, hpost⟩ := hvalue regs w a w' hp he
    refine ⟨Function.update regs n (some d), ?_, ?_, hpost _ (by simp)⟩
    · simp only [exec, step, hd]
      rfl
    · intro r hlt
      exact Function.update_of_ne (Nat.ne_of_lt hlt) _ _

theorem computes_perform
    (htrap : ∀ regs w e, pre regs → ref w = .error e → m.operate regs w op = .error e)
    (hvalue : ∀ regs w a w', pre regs → ref w = .ok (a, w') →
      ∃ r, m.operate regs w op = .ok (r, w') ∧ post a regs) :
    m.Computes n pre [⟨none, op⟩] ref post := by
  constructor
  · intro regs w e hp he
    simp only [exec, step, htrap regs w e hp he]
    rfl
  · intro regs w a w' hp he
    obtain ⟨r, hr, hpost⟩ := hvalue regs w a w' hp he
    refine ⟨regs, ?_, fun _ _ => rfl, hpost⟩
    simp only [exec, step, hr]
    rfl

end Machine

end Ir

namespace Lowering

variable {α : Type} {a : α} {ε σ : Type} {x : Emit α} {s s' : State}

theorem pure_eq_ok {s s' : σ} {b : α} (h : (pure a : EStateM ε σ α) s = .ok b s') :
    b = a ∧ s' = s := by
  cases h
  exact ⟨rfl, rfl⟩

theorem locate_eq_ok {p : Position} {s s' : Emission} (h : Emit.locate p x s = .ok a s') :
    x s = .ok a s' := by
  unfold Emit.locate at h
  cases hx : x s with
  | ok b s1 =>
    rw [hx] at h
    exact h
  | error e s1 =>
    rw [hx] at h
    cases h

theorem emit_eq_ok (h : Lower.emit x s = .ok a s') :
    ∃ t, x s.emission = .ok a t ∧ s' = s.absorb t := by
  unfold Lower.emit at h
  split at h
  · rename_i b t ht
    cases h
    exact ⟨t, ht, rfl⟩
  · cases h

theorem value_eq_ok {env : Environment} {e : Expr} {v : Value}
    (h : Lower.value env e s = .ok v s') :
    ∃ t, lower (s.context env) e s.emission = .ok v t ∧ s' = s.absorb t := by
  change Lower.emit (lower (s.context env) e) s = .ok v s' at h
  exact emit_eq_ok h

namespace Emission

structure Extends (s s' : Emission) : Prop where
  instrs : s.instrs <+: s'.instrs
  globals : s.globals <+: s'.globals
  register : s.register ≤ s'.register

def since (s s' : Emission) : List Instr := s'.instrs.drop s.instrs.length

theorem Extends.refl (s : Emission) : s.Extends s :=
  ⟨List.prefix_rfl, List.prefix_rfl, Nat.le_refl _⟩

variable {s : Emission} {t u : Emission}

theorem Extends.trans (h : s.Extends t) (h' : t.Extends u) : s.Extends u :=
  ⟨h.instrs.trans h'.instrs, h.globals.trans h'.globals, Nat.le_trans h.register h'.register⟩

theorem since_self (s : Emission) : s.since s = [] := by simp [since]

theorem Extends.append_since {s' : Emission} (h : s.Extends s') :
    s'.instrs = s.instrs ++ s.since s' :=
  (List.prefix_iff_eq_append.mp h.instrs).symm

theorem since_trans (h : s.Extends t) (h' : t.Extends u) : s.since u = s.since t ++ t.since u := by
  have hu : u.instrs = s.instrs ++ (s.since t ++ t.since u) := by
    rw [← List.append_assoc, ← h.append_since, ← h'.append_since]
  rw [since, hu, List.drop_append_of_le_length (Nat.le_refl _), List.drop_length, List.nil_append]

end Emission

def HoldsBytes {F : Type} (m : Machine F) (globals : List Ir.Global) : Prop :=
  ∀ g ∈ globals, ∀ bytes, g.initial = .bytes bytes → m.bytes g.name = some bytes

structure Realizes {F α : Type} (m : Machine F) (s s' : Emission) (pre : Registers F → Prop)
    (ref : World F → Except Trap (α × World F)) (post : α → Registers F → Prop) : Prop where
  mono : s.Extends s'
  computes : HoldsBytes m s'.globals → m.Computes s.register pre (s.since s') ref post

section Rules

variable {F α β : Type} {m : Machine F} {s t u : Emission} {pre : Registers F → Prop}

variable {post : α → Registers F → Prop} {ref : World F → Except Trap (α × World F)} 
  {op : Operation} {x : Operand} {post' : β → Registers F → Prop}

theorem realizes_pure {a : α}
    (h : ∀ regs, pre regs → post a regs) : Realizes m s s pre (fun w => .ok (a, w)) post := by
  refine ⟨.refl s, fun _ => ?_⟩
  rw [Emission.since_self]
  exact Machine.computes_nil h

theorem realizes_of_pre (hm : s.Extends t) (h : ∀ regs, pre regs → Realizes m s t pre ref post) :
    Realizes m s t pre ref post := by
  refine ⟨hm, fun hb => ⟨?_, ?_⟩⟩
  · intro regs w e hp he
    exact ((h regs hp).computes hb).trap regs w e hp he
  · intro regs w a w' hp he
    exact ((h regs hp).computes hb).value regs w a w' hp he

theorem Realizes.append {ref' : α → World F → Except Trap (β × World F)}
    (h : Realizes m s t pre ref post) (ht : t.Extends u)
    (h' : ∀ a, Realizes m t u (post a) (ref' a) post') :
    Realizes m s u pre (fun w => ref w >>= fun c => ref' c.1 c.2) post' := by
  refine ⟨h.mono.trans ht, fun hb => ?_⟩
  have hb' : HoldsBytes m t.globals := fun g hg => hb g (ht.globals.subset hg)
  rw [Emission.since_trans h.mono ht]
  exact (h.computes hb').append h.mono.register fun a => (h' a).computes hb

theorem Realizes.keep (h : Realizes m s t pre ref post) (hp : Machine.StableBelow s.register pre) :
    Realizes m s t pre ref (fun a regs => pre regs ∧ post a regs) :=
  ⟨h.mono, fun hb => ((h.computes hb).frame hp).weaken (fun _ h => ⟨h, h⟩) fun _ _ h => h⟩

theorem Realizes.weaken {post' : α → Registers F → Prop} {pre' : Registers F → Prop}
    (h : Realizes m s t pre ref post) (hpre : ∀ regs, pre' regs → pre regs)
    (hpost : ∀ a regs, post a regs → post' a regs) : Realizes m s t pre' ref post' :=
  ⟨h.mono, fun hb => (h.computes hb).weaken hpre hpost⟩

theorem Realizes.map (f : α → β) (h : Realizes m s t pre ref post)
    (hpost : ∀ a regs, post a regs → post' (f a) regs) :
    Realizes m s t pre (fun w => (ref w).map fun c => (f c.1, c.2)) post' :=
  ⟨h.mono, fun hb => (h.computes hb).map f hpost⟩

theorem Realizes.const {a : α} {b : β} (h : Realizes m s t pre (fun w => .ok (a, w)) post)
    (hpost : ∀ regs, post a regs → post' b regs) :
    Realizes m s t pre (fun w => .ok (b, w)) post' := by
  refine ⟨h.mono, fun hb => ⟨?_, ?_⟩⟩
  · intro regs w e _ he
    cases he
  · intro regs w b' w' hp he
    cases he
    obtain ⟨regs1, he1, ha1, hq⟩ := (h.computes hb).value regs w a w hp rfl
    exact ⟨regs1, he1, ha1, hpost regs1 hq⟩

theorem emit_extends (h : Emit.emit op s = .ok x t) :
    s.Extends t := by
  cases h
  exact ⟨List.prefix_append _ _, List.prefix_rfl, Nat.le_succ _⟩

theorem emit_below (h : Emit.emit op s = .ok x t) :
    x.Below t.register := by
  cases h
  exact Nat.lt_succ_self _

theorem since_emit (op : Operation) : s.since { s with
    instrs := s.instrs ++ [⟨some s.register, op⟩], register := s.register + 1 } =
    [⟨some s.register, op⟩] := by
  simp [Emission.since]

theorem realizes_emit (hx : Emit.emit op s = .ok x t)
    (htrap : ∀ regs w e, pre regs → ref w = .error e → m.operate regs w op = .error e)
    (hvalue : ∀ regs w a w', pre regs → ref w = .ok (a, w') → ∃ d,
      m.operate regs w op = .ok (some d, w') ∧ ∀ regs', m.operand? regs' x = some d → post a regs') :
    Realizes m s t pre ref post := by
  have hm := emit_extends hx
  cases hx
  refine ⟨hm, fun _ => ?_⟩
  rw [since_emit]
  exact Machine.computes_one htrap hvalue

theorem realizes_emit_ok {d : Datum F} (hx : Emit.emit op s = .ok x t)
    (h : ∀ regs w, pre regs → m.operate regs w op = .ok (some d, w)) :
    Realizes m s t pre (fun w => .ok (d, w)) (fun d regs => m.operand? regs x = some d) := by
  refine realizes_emit hx ?_ ?_
  · intro regs w e _ he
    cases he
  · intro regs w a w' hp he
    cases he
    exact ⟨d, h regs w hp, fun _ h => h⟩

theorem realizes_emit_error {e : Trap} (hx : Emit.emit op s = .ok x t)
    (h : ∀ regs w, pre regs → m.operate regs w op = .error e) :
    Realizes m s t pre (fun _ => .error e) post := by
  refine realizes_emit hx ?_ ?_
  · intro regs w e' hp he
    cases he
    exact h regs w hp
  · intro regs w a w' _ he
    cases he

theorem realizes_perform (hx : Emit.perform op s = .ok () t)
    (htrap : ∀ regs w e, pre regs → ref w = .error e → m.operate regs w op = .error e)
    (hvalue : ∀ regs w a w', pre regs → ref w = .ok (a, w') →
      ∃ r, m.operate regs w op = .ok (r, w') ∧ post a regs) :
    Realizes m s t pre ref post := by
  cases hx
  refine ⟨⟨List.prefix_append _ _, List.prefix_rfl, Nat.le_refl _⟩, fun _ => ?_⟩
  have hsince : s.since { s with instrs := s.instrs ++ [⟨none, op⟩] } = [⟨none, op⟩] := by
    simp [Emission.since]
  rw [hsince]
  exact Machine.computes_perform htrap hvalue

theorem Realizes.after (h : Realizes m t u pre ref post) (hm : s.Extends t) (hnil : s.since t = [])
    (hreg : t.register = s.register) : Realizes m s u pre ref post := by
  refine ⟨hm.trans h.mono, fun hb => ?_⟩
  rw [Emission.since_trans hm h.mono, hnil, List.nil_append, ← hreg]
  exact h.computes hb

theorem Realizes.congr {ref' : World F → Except Trap (α × World F)}
    (h : Realizes m s t pre ref post) (heq : ∀ w, ref w = ref' w) :
    Realizes m s t pre ref' post := by
  rwa [← funext heq]

end Rules

end Lowering

end BoardPython
