import Mathlib
import BoardPython.Ir.Code

/-! Control flow. Blocks are walked from one to the next, structured code runs as it is written, and
both make events: instructions, answers to conditions, and the return. Stack cells and jumps make
none. Blocks lay out structured code if both can make the same events. -/
namespace BoardPython.Ir

def Instr.isAlloca (i : Instr) : Bool := i.operation matches .alloca _

/-- What can be seen of a run. -/
inductive Event where
  | run (i : Instr)
  | decide (x : Operand) (answer : Bool)
  | ret (x : Option Operand)
  deriving DecidableEq, Repr

def block? (blocks : List Block) (label : Label) : Option Block :=
  blocks.find? fun block => block.label == label

/-- The events that can come first on a walk, with the rest of a block still ahead. A condition can
have either answer. -/
inductive Walk (blocks : List Block) : List Instr → Option Terminator → List Event → Prop where
  | stop {is : List Instr} {t : Option Terminator} : Walk blocks is t []
  | alloca {i : Instr} {is : List Instr} {t : Option Terminator} {es : List Event}
      (hi : i.isAlloca = true) (h : Walk blocks is t es) : Walk blocks (i :: is) t es
  | run {i : Instr} {is : List Instr} {t : Option Terminator} {es : List Event}
      (hi : i.isAlloca = false) (h : Walk blocks is t es) : Walk blocks (i :: is) t (.run i :: es)
  | jump {label : Label} {b : Block} {es : List Event} (hb : block? blocks label = some b)
      (h : Walk blocks b.instrs b.terminator es) : Walk blocks [] (some (.jump label)) es
  | branch {x : Operand} {yes no : Label} {answer : Bool} {b : Block} {es : List Event}
      (hb : block? blocks (if answer then yes else no) = some b)
      (h : Walk blocks b.instrs b.terminator es) :
      Walk blocks [] (some (.branch x yes no)) (.decide x answer :: es)
  | ret {x : Option Operand} : Walk blocks [] (some (.ret x)) [.ret x]

/-- Structured code: groups of instructions, returns, branches, and loops with the code of their
condition. -/
inductive Outline where
  | group (code : List Instr)
  | ret (x : Option Operand)
  | branch (x : Operand) (yes no : List Outline)
  | loop (code : List Instr) (x : Operand) (body : List Outline)

/-- The events that can come first when structured code runs. -/
inductive Run : List Outline → List Event → Prop where
  | stop {os : List Outline} : Run os []
  | run {i : Instr} {is : List Instr} {os : List Outline} {es : List Event}
      (h : Run (.group is :: os) es) : Run (.group (i :: is) :: os) (.run i :: es)
  | skip {os : List Outline} {es : List Event} (h : Run os es) : Run (.group [] :: os) es
  | ret {x : Option Operand} {os : List Outline} : Run (.ret x :: os) [.ret x]
  | branch {x : Operand} {answer : Bool} {yes no os : List Outline} {es : List Event}
      (h : Run ((if answer then yes else no) ++ os) es) :
      Run (.branch x yes no :: os) (.decide x answer :: es)
  | loop {code : List Instr} {x : Operand} {body os : List Outline} {es : List Event}
      (h : Run (.group code :: .branch x (body ++ [.loop code x body]) [] :: os) es) :
      Run (.loop code x body :: os) es

section Walks

variable {blocks : List Block} {i : Instr} {is : List Instr} {t : Option Terminator}
  {es : List Event}

theorem walk_alloca_iff (hi : i.isAlloca = true) :
    Walk blocks (i :: is) t es ↔ Walk blocks is t es := by
  constructor
  · intro h
    cases h with
    | stop => exact .stop
    | alloca _ h => exact h
    | run hn _ => rw [hi] at hn; cases hn
  · exact .alloca hi

theorem walk_allocas_iff (h : ∀ j ∈ is, j.isAlloca = true) :
    Walk blocks is t es ↔ Walk blocks [] t es := by
  induction is with
  | nil => rfl
  | cons i is ih =>
    rw [walk_alloca_iff (h i (by simp))]
    exact ih fun j hj => h j (by simp [hj])

theorem walk_jump_iff {label : Label} {b : Block} (hb : block? blocks label = some b) :
    Walk blocks [] (some (.jump label)) es ↔ Walk blocks b.instrs b.terminator es := by
  constructor
  · intro h
    cases h with
    | stop => exact .stop
    | jump hb' h =>
      rw [hb] at hb'
      cases hb'
      exact h
  · exact .jump hb

end Walks

/-- Sets of events that agree on what is shorter than `n`. -/
def AgreeBelow (n : Nat) (p q : List Event → Prop) : Prop := ∀ es, es.length < n → (p es ↔ q es)

structure Point where
  label : Label
  offset : Nat
  deriving DecidableEq, Repr

def WalkFrom (blocks : List Block) (p : Point) (es : List Event) : Prop :=
  ∃ b, block? blocks p.label = some b ∧ Walk blocks (b.instrs.drop p.offset) b.terminator es

/-- From one place to another, blocks lay out structured code: whatever follows, a walk makes the
same events as a run. Lengths are bounded, since loops come back to where they begin. -/
def Lays (blocks : List Block) (p : Point) (os : List Outline) (q : Point) : Prop :=
  ∀ k n, AgreeBelow n (WalkFrom blocks q) (Run k) → AgreeBelow n (WalkFrom blocks p) (Run (os ++ k))

def Ends (blocks : List Block) (p : Point) (t : Terminator) : Prop :=
  ∃ b, block? blocks p.label = some b ∧ (∀ i ∈ b.instrs.drop p.offset, i.isAlloca = true) ∧
    b.terminator = some t

section Layout

variable {blocks : List Block} {p q r : Point} {os os' : List Outline} {es : List Event}
  {label yes no : Label} {b : Block} {x : Option Operand} {is : List Instr} {k ys ns : List Outline}
  {n : Nat}

theorem walkFrom_iff_of_ends {t : Terminator} (h : Ends blocks p t) :
    WalkFrom blocks p es ↔ Walk blocks [] (some t) es := by
  obtain ⟨b, hb, hi, ht⟩ := h
  constructor
  · rintro ⟨b', hb', hw⟩
    rw [hb] at hb'
    cases hb'
    rwa [walk_allocas_iff hi, ht] at hw
  · intro hw
    refine ⟨b, hb, ?_⟩
    rwa [walk_allocas_iff hi, ht]

theorem walkFrom_start_iff (hb : block? blocks label = some b) :
    WalkFrom blocks ⟨label, 0⟩ es ↔ Walk blocks b.instrs b.terminator es := by
  constructor
  · rintro ⟨b', hb', hw⟩
    rw [hb] at hb'
    cases hb'
    exact hw
  · intro hw
    exact ⟨b, hb, hw⟩

theorem Lays.refl (p : Point) : Lays blocks p [] p := by
  intro k n h
  exact h

theorem Lays.trans (h : Lays blocks p os q) (h' : Lays blocks q os' r) :
    Lays blocks p (os ++ os') r := by
  intro k n hk
  rw [List.append_assoc]
  exact h (os' ++ k) n (h' k n hk)

theorem lays_jump (h : Ends blocks p (.jump label)) (hl : (block? blocks label).isSome) :
    Lays blocks p [] ⟨label, 0⟩ := by
  obtain ⟨b, hb⟩ := Option.isSome_iff_exists.mp hl
  intro k n hk es hes
  rw [walkFrom_iff_of_ends h, walk_jump_iff hb, ← walkFrom_start_iff hb]
  exact hk es hes

theorem walkFrom_ret_iff (h : Ends blocks p (.ret x)) (os : List Outline) :
    WalkFrom blocks p es ↔ Run (.ret x :: os) es := by
  rw [walkFrom_iff_of_ends h]
  constructor
  · intro hw
    cases hw with
    | stop => exact .stop
    | ret => exact .ret
  · intro hr
    cases hr with
    | stop => exact .stop
    | ret => exact .ret

theorem lays_ret (h : Ends blocks p (.ret x)) : Lays blocks p [.ret x] q :=
  fun k _ _ _ _ => walkFrom_ret_iff h k

theorem agreeBelow_group {rest : List Instr} {t : Option Terminator}
    (h : AgreeBelow n (Walk blocks rest t) (Run k)) :
    AgreeBelow n (Walk blocks (is ++ rest) t) (Run (.group (is.filter (!·.isAlloca)) :: k)) := by
  induction is with
  | nil =>
    intro es hes
    have hk := h es hes
    constructor
    · intro hw
      exact .skip (hk.mp hw)
    · intro hr
      cases hr with
      | stop => exact .stop
      | skip hr => exact hk.mpr hr
  | cons i is ih =>
    intro es hes
    rw [List.cons_append]
    cases hi : i.isAlloca with
    | true =>
      rw [walk_alloca_iff hi, List.filter_cons_of_neg (by simp [hi])]
      exact ih es hes
    | false =>
      rw [List.filter_cons_of_pos (by simp [hi])]
      constructor
      · intro hw
        cases hw with
        | stop => exact .stop
        | alloca hn _ => rw [hi] at hn; cases hn
        | @run _ _ _ es' _ hw =>
          have hlt : es'.length < n := by simp at hes; omega
          exact .run ((ih es' hlt).mp hw)
      · intro hr
        cases hr with
        | stop => exact .stop
        | @run _ _ _ es' hr =>
          have hlt : es'.length < n := by simp at hes; omega
          exact .run hi ((ih es' hlt).mpr hr)

theorem lays_group (hb : block? blocks p.label = some b) (hq : q.label = p.label)
    (his : b.instrs.drop p.offset = is ++ b.instrs.drop q.offset) :
    Lays blocks p [.group (is.filter (!·.isAlloca))] q := by
  intro k n hk
  have hrest : AgreeBelow n (Walk blocks (b.instrs.drop q.offset) b.terminator) (Run k) := by
    intro es hes
    rw [← hk es hes]
    constructor
    · intro hw
      exact ⟨b, by rw [hq, hb], hw⟩
    · rintro ⟨b', hb', hw⟩
      rw [hq, hb] at hb'
      cases hb'
      exact hw
  intro es hes
  rw [List.singleton_append, ← agreeBelow_group hrest es hes, ← his]
  constructor
  · rintro ⟨b', hb', hw⟩
    rw [hb] at hb'
    cases hb'
    exact hw
  · intro hw
    exact ⟨b, hb, hw⟩

theorem agreeBelow_branch {x : Operand}
    (hy : AgreeBelow n (WalkFrom blocks ⟨yes, 0⟩) (Run (ys ++ k)))
    (hn : AgreeBelow n (WalkFrom blocks ⟨no, 0⟩) (Run (ns ++ k))) :
    AgreeBelow (n + 1) (Walk blocks [] (some (.branch x yes no))) (Run (.branch x ys ns :: k)) := by
  intro es hes
  constructor
  · intro hw
    cases hw with
    | stop => exact .stop
    | @branch _ _ _ answer b es' hb hw =>
      have hlt : es'.length < n := by simp at hes; omega
      cases answer with
      | true => exact .branch ((hy es' hlt).mp ⟨b, hb, hw⟩)
      | false => exact .branch ((hn es' hlt).mp ⟨b, hb, hw⟩)
  · intro hr
    cases hr with
    | stop => exact .stop
    | @branch _ answer _ _ _ es' hr =>
      have hlt : es'.length < n := by simp at hes; omega
      cases answer with
      | true =>
        obtain ⟨b, hb, hw⟩ := (hy es' hlt).mpr hr
        exact .branch hb hw
      | false =>
        obtain ⟨b, hb, hw⟩ := (hn es' hlt).mpr hr
        exact .branch hb hw

theorem AgreeBelow.mono {k : Nat} {u v : List Event → Prop} (h : AgreeBelow n u v) (hk : k ≤ n) :
    AgreeBelow k u v := by
  intro es hes
  exact h es (Nat.lt_of_lt_of_le hes hk)

theorem lays_branch {x : Operand} (h : Ends blocks p (.branch x yes no))
    (hy : Lays blocks ⟨yes, 0⟩ ys q) (hn : Lays blocks ⟨no, 0⟩ ns q) :
    Lays blocks p [.branch x ys ns] q := by
  intro k n hk es hes
  rw [walkFrom_iff_of_ends h]
  exact (agreeBelow_branch (hy k n hk) (hn k n hk)).mono (Nat.le_succ n) es hes

theorem lays_loop {x : Operand} {cond body exit : Label} {code : List Instr}
    (hc : Lays blocks ⟨cond, 0⟩ [.group code] p) (h : Ends blocks p (.branch x body exit))
    (hb : Lays blocks ⟨body, 0⟩ os ⟨cond, 0⟩) :
    Lays blocks ⟨cond, 0⟩ [.loop code x os] ⟨exit, 0⟩ := by
  intro k n hk
  induction n with
  | zero =>
    intro es hes
    cases hes
  | succ n ih =>
    have hback := ih (hk.mono (Nat.le_succ n))
    have hdecide : AgreeBelow (n + 1) (WalkFrom blocks p)
        (Run (.branch x (os ++ [Outline.loop code x os]) [] :: k)) := by
      intro es hes
      rw [walkFrom_iff_of_ends h]
      refine agreeBelow_branch ?_ (hk.mono (Nat.le_succ n)) es hes
      rw [List.append_assoc]
      exact hb _ n hback
    intro es hes
    rw [hc _ (n + 1) hdecide es hes]
    constructor
    · exact .loop
    · intro hr
      cases hr with
      | stop => exact .stop
      | loop hr => exact hr

end Layout

end BoardPython.Ir
