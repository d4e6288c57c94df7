import BoardPython.Proofs.ControlFlow
import BoardPython.Proofs.Machine

/-! Running the blocks of a function to its return. The events of a walk decide where a run goes, and
a machine decides which walk it is. -/
namespace BoardPython.Ir

variable {F : Type}

/-- A run from some place in a block to a return. -/
inductive Executes (m : Machine F) (blocks : List Block) :
    List Instr → Option Terminator → Registers F → World F → World F → Prop where
  | step {i : Instr} {is : List Instr} {t : Option Terminator} {regs regs' : Registers F}
      {w w' w'' : World F} (hi : m.step i regs w = .ok (regs', w'))
      (h : Executes m blocks is t regs' w' w'') : Executes m blocks (i :: is) t regs w w''
  | jump {label : Label} {b : Block} {regs : Registers F} {w w' : World F}
      (hb : block? blocks label = some b)
      (h : Executes m blocks b.instrs b.terminator regs w w') :
      Executes m blocks [] (some (.jump label)) regs w w'
  | branch {x : Operand} {yes no : Label} {answer : Bool} {b : Block} {regs : Registers F}
      {w w' : World F} (hx : m.operand? regs x = some (.int 1 (BitVec.ofBool answer)))
      (hb : block? blocks (if answer then yes else no) = some b)
      (h : Executes m blocks b.instrs b.terminator regs w w') :
      Executes m blocks [] (some (.branch x yes no)) regs w w'
  | ret {x : Option Operand} {regs : Registers F} {w : World F} :
      Executes m blocks [] (some (.ret x)) regs w w

/-- A run of a function from its entry, with nothing in its registers. -/
def Function.Runs (m : Machine F) (f : Function) (w w' : World F) : Prop :=
  ∃ b, block? f.blocks .entry = some b ∧
    Executes m f.blocks b.instrs b.terminator (fun _ => none) w w'

def executeFor (m : Machine F) (blocks : List Block) :
    Nat → Block → Registers F → World F → Option (World F)
  | 0, b, regs, w =>
    match m.exec b.instrs regs w, b.terminator with
    | .ok (_, w), some (.ret _) => some w
    | _, _ => none
  | n + 1, b, regs, w =>
    match m.exec b.instrs regs w, b.terminator with
    | .ok (_, w), some (.ret _) => some w
    | .ok (regs, w), some (.jump label) =>
      (block? blocks label).bind fun b => executeFor m blocks n b regs w
    | .ok (regs, w), some (.branch x yes no) =>
      match m.operand? regs x with
      | some (.int 1 answer) =>
        (block? blocks (if answer == 1#1 then yes else no)).bind fun b =>
          executeFor m blocks n b regs w
      | _ => none
    | _, _ => none

def Function.runFor (m : Machine F) (f : Function) (jumps : Nat) (w : World F) :
    Option (World F) :=
  (block? f.blocks .entry).bind fun b => executeFor m f.blocks jumps b (fun _ => none) w

inductive Follows (m : Machine F) : List Event → Registers F → World F → World F → Prop where
  | run {i : Instr} {es : List Event} {regs regs' : Registers F} {w w' w'' : World F}
      (hi : m.step i regs w = .ok (regs', w')) (h : Follows m es regs' w' w'') :
      Follows m (.run i :: es) regs w w''
  | decide {x : Operand} {answer : Bool} {es : List Event} {regs : Registers F} {w w' : World F}
      (hx : m.operand? regs x = some (.int 1 (BitVec.ofBool answer))) (h : Follows m es regs w w') :
      Follows m (.decide x answer :: es) regs w w'
  | ret {x : Option Operand} {regs : Registers F} {w : World F} : Follows m [.ret x] regs w w

section Runs

variable {m : Machine F} {blocks : List Block} {is : List Instr} {t : Option Terminator}
  {regs : Registers F} {w w1 w2 : World F}

theorem step_alloca {i : Instr} (hi : i.isAlloca = true) : m.step i regs w = .ok (regs, w) := by
  obtain ⟨result, operation⟩ := i
  cases operation with
  | alloca type => cases result <;> rfl
  | _ => cases hi

theorem ofBool_injective {a b : Bool}
    (h : (Datum.int 1 (BitVec.ofBool a) : Datum F) = .int 1 (BitVec.ofBool b)) : a = b := by
  cases a <;> cases b <;> first | rfl | simp at h

theorem Executes.unique (h : Executes m blocks is t regs w w1)
    (h' : Executes m blocks is t regs w w2) : w1 = w2 := by
  induction h with
  | step hi _ ih =>
    cases h' with
    | step hi' h' =>
      rw [hi] at hi'
      cases hi'
      exact ih h'
  | jump hb _ ih =>
    cases h' with
    | jump hb' h' =>
      rw [hb] at hb'
      cases hb'
      exact ih h'
  | branch hx hb _ ih =>
    cases h' with
    | branch hx' hb' h' =>
      rw [hx] at hx'
      obtain rfl := ofBool_injective (Option.some.inj hx')
      rw [hb] at hb'
      cases hb'
      exact ih h'
  | ret =>
    cases h'
    rfl

variable {f : Function} {regs' : Registers F} {es : List Event}

theorem Function.Runs.unique (h : f.Runs m w w1) (h' : f.Runs m w w2) : w1 = w2 := by
  obtain ⟨b, hb, h⟩ := h
  obtain ⟨b', hb', h'⟩ := h'
  rw [hb] at hb'
  cases hb'
  exact h.unique h'

theorem executes_of_exec (hexec : m.exec is regs w = .ok (regs', w1))
    (h : Executes m blocks [] t regs' w1 w2) : Executes m blocks is t regs w w2 := by
  induction is generalizing regs w with
  | nil =>
    cases hexec
    exact h
  | cons i is ih =>
    rw [Machine.exec] at hexec
    cases hi : m.step i regs w with
    | error e =>
      rw [hi] at hexec
      cases hexec
    | ok c =>
      rw [hi] at hexec
      exact .step hi (ih hexec)

theorem executes_of_executeFor {n : Nat} {b : Block} (h : executeFor m blocks n b regs w = some w1)
    :
    Executes m blocks b.instrs b.terminator regs w w1 := by
  fun_induction executeFor m blocks n b regs w with
  | case1 b regs w regs' w' x ht hexec =>
    cases h
    rw [ht]
    exact executes_of_exec hexec .ret
  | case3 n b regs w regs' w' x ht hexec =>
    cases h
    rw [ht]
    exact executes_of_exec hexec .ret
  | case4 n b regs w regs' w' label ht hexec ih =>
    obtain ⟨b', hb', h⟩ := Option.bind_eq_some_iff.mp h
    rw [ht]
    exact executes_of_exec hexec (.jump hb' (ih b' h))
  | case5 n b regs w regs' w' x yes no ht hexec answer hx ih =>
    obtain ⟨b', hb', h⟩ := Option.bind_eq_some_iff.mp h
    have hanswer : answer = BitVec.ofBool (answer == 1#1) := by
      rcases BitVec.eq_zero_or_eq_one answer with rfl | rfl <;> rfl
    rw [hanswer] at hx
    rw [ht]
    exact executes_of_exec hexec (.branch hx hb' (ih b' h))
  | _ => cases h

theorem Function.runs_of_runFor {jumps : Nat} (h : f.runFor m jumps w = some w1) :
    f.Runs m w w1 := by
  obtain ⟨b, hb, h⟩ := Option.bind_eq_some_iff.mp h
  exact ⟨b, hb, executes_of_executeFor h⟩

theorem executes_of_walk (h : Walk blocks is t es) (hf : Follows m es regs w w1) :
    Executes m blocks is t regs w w1 := by
  induction h generalizing regs w with
  | stop => cases hf
  | alloca hi _ ih => exact .step (step_alloca hi) (ih hf)
  | run _ _ ih =>
    cases hf with
    | run hi hf => exact .step hi (ih hf)
  | jump hb _ ih => exact .jump hb (ih hf)
  | branch hb _ ih =>
    cases hf with
    | decide hx hf => exact .branch hx hb (ih hf)
  | ret =>
    cases hf
    exact .ret

theorem exec_filter (is : List Instr) (regs : Registers F) (w : World F) :
    m.exec (is.filter (!·.isAlloca)) regs w = m.exec is regs w := by
  induction is generalizing regs w with
  | nil => rfl
  | cons i is ih =>
    cases hi : i.isAlloca with
    | true =>
      rw [List.filter_cons_of_neg (by simp [hi]), ih, Machine.exec, step_alloca hi]
      rfl
    | false =>
      rw [List.filter_cons_of_pos (by simp [hi]), Machine.exec, Machine.exec]
      cases m.step i regs w with
      | error e => rfl
      | ok c => exact ih c.1 c.2

theorem follows_group {k : List Outline} (hexec : m.exec is regs w = .ok (regs', w1))
    (hr : Run k es) (hf : Follows m es regs' w1 w2) :
    ∃ es', Run (.group is :: k) es' ∧ Follows m es' regs w w2 := by
  induction is generalizing regs w with
  | nil =>
    cases hexec
    exact ⟨es, .skip hr, hf⟩
  | cons i is ih =>
    rw [Machine.exec] at hexec
    cases hi : m.step i regs w with
    | error e =>
      rw [hi] at hexec
      cases hexec
    | ok c =>
      rw [hi] at hexec
      obtain ⟨es', hr', hf'⟩ := ih hexec
      exact ⟨.run i :: es', .run hr', .run hi hf'⟩

end Runs

end BoardPython.Ir
