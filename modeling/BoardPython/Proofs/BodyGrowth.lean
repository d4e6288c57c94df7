import BoardPython.Lowering.Body
import BoardPython.Proofs.ControlFlow

/-! How bodies grow while they are lowered. Code goes to the end of the current block, which is open;
stack cells go to the entry; blocks that have been left stay as they are. -/
namespace BoardPython

namespace Ir

def Terminator.targets : Terminator → List Label
  | .ret _ => []
  | .jump target => [target]
  | .branch _ yes no => [yes, no]

/-- A label that can be branched to. -/
def Label.IsTarget (l : Label) : Prop := l ≠ .entry ∧ ∀ id, l ≠ .afterReturn id

end Ir

namespace Lowering.Body

open Ir (Block Instr Label Point Terminator block?)

def block? (b : Body) (label : Label) : Option Block := Ir.block? b.blocks label

def point (b : Body) : Point :=
  ⟨b.current, (b.block? b.current).elim 0 (·.instrs.length)⟩

section Lookup

variable {b : Body} {l l' : Label}

variable {labels : List Label} {block : Block}

theorem label_of_block? (h : b.block? l = some block) : block.label = l := by
  have hl := List.find?_some h
  exact beq_iff_eq.mp hl

theorem block?_update {f : Block → Block} (hf : ∀ block, (f block).label = block.label) :
    (b.update l f).block? l' = if l' = l then (b.block? l').map f else b.block? l' := by
  have hlabel : ((fun block => block.label == l') ∘ fun block =>
      if block.label = l then f block else block) = fun block : Block => block.label == l' := by
    funext block
    by_cases h : block.label = l <;> simp [h, hf]
  unfold block? Ir.block? update
  rw [List.find?_map, hlabel]
  cases hb : b.blocks.find? (fun block => block.label == l') with
  | none => simp
  | some block =>
    have hl : block.label = l' := label_of_block? (b := b) hb
    by_cases h : l' = l
    · simp [h, hl]
    · simp [h, hl]

theorem block?_append {is : List Instr} : (b.append l is).block? l' =
    if l' = l then (b.block? l').map fun block => { block with instrs := block.instrs ++ is }
    else b.block? l' :=
  block?_update fun _ => rfl

theorem block?_close {t : Terminator} : (b.close t).block? l' =
    if l' = b.current then (b.block? l').map fun block => { block with terminator := some t }
    else b.block? l' :=
  block?_update fun _ => rfl

theorem block?_close_current {t : Terminator} (h : b.block? b.current = some block) :
    (b.close t).block? b.current = some { block with terminator := some t } := by
  rw [block?_close, if_pos rfl, h]
  rfl

theorem block?_create : (b.create labels).block? l =
    (b.block? l).or (if l ∈ labels then some ⟨l, [], none⟩ else none) := by
  unfold block? Ir.block? create
  rw [List.find?_append]
  congr 1
  induction labels with
  | nil => rfl
  | cons l' labels ih =>
    by_cases h : l' = l
    · simp [h]
    · rw [List.map_cons, List.find?_cons_of_neg (by simpa using h), ih]
      simp [Ne.symm h]

theorem block?_create_of_some (h : b.block? l = some block) :
    (b.create labels).block? l = some block := by
  rw [block?_create, h, Option.some_or]

end Lookup

section Flow

def labels (b : Body) : List Label := b.blocks.map (·.label)

def flow (b : Body) : List (Label × Option Terminator) :=
  b.blocks.map fun block => (block.label, block.terminator)

theorem labels_eq_flow (b : Body) : b.labels = b.flow.map Prod.fst := by
  unfold labels flow
  rw [List.map_map]
  rfl

theorem labels_congr {b b' : Body} (h : b'.flow = b.flow) : b'.labels = b.labels := by
  rw [labels_eq_flow, labels_eq_flow, h]

theorem isSome_block?_iff {b : Body} {l : Label} : (b.block? l).isSome ↔ l ∈ b.labels := by
  simp [block?, Ir.block?, labels]

theorem exists_block? {b : Body} {l : Label} (hl : l ∈ b.labels) : ∃ block, b.block? l = some block :=
  Option.isSome_iff_exists.mp (isSome_block?_iff.mpr hl)

theorem mem_labels {b : Body} {l : Label} {block : Block} (h : b.block? l = some block) :
    l ∈ b.labels :=
  isSome_block?_iff.mp (h ▸ rfl)

theorem flow_append (b : Body) (l : Label) (is : List Instr) : (b.append l is).flow = b.flow := by
  unfold flow append update
  rw [List.map_map]
  refine List.map_congr_left fun block _ => ?_
  by_cases h : block.label = l <;> simp [h]

theorem flow_close (b : Body) (t : Terminator) :
    (b.close t).flow = b.flow.map fun x => if x.1 = b.current then (x.1, some t) else x := by
  unfold flow close update
  rw [List.map_map, List.map_map]
  refine List.map_congr_left fun block _ => ?_
  by_cases h : block.label = b.current <;> simp [h]

theorem flow_create (b : Body) (new : List Label) :
    (b.create new).flow = b.flow ++ new.map (·, none) := by
  unfold flow create
  rw [List.map_append, List.map_map]
  rfl

theorem labels_close (b : Body) (t : Terminator) : (b.close t).labels = b.labels := by
  rw [labels_eq_flow, labels_eq_flow, flow_close, List.map_map]
  refine List.map_congr_left fun x _ => ?_
  by_cases h : x.1 = b.current <;> simp [h]

theorem labels_create (b : Body) (new : List Label) : (b.create new).labels = b.labels ++ new := by
  rw [labels_eq_flow, labels_eq_flow, flow_create, List.map_append, List.map_map]
  exact congrArg (b.flow.map Prod.fst ++ ·) (List.map_id new)

theorem labels_finish (b : Body) (t : Terminator) : (b.finish t).labels = b.labels := by
  unfold finish
  split
  · exact labels_close b t
  · rfl

end Flow

/-- A body that is well-formed but for some blocks, which may have no end yet. -/
structure Tidy (b : Body) (open' : List Label) : Prop where
  entry : b.labels.head? = some .entry
  nodup : b.labels.Nodup
  there : open' ⊆ b.labels
  ended : ∀ l, (l, none) ∈ b.flow → l ∈ open'
  targets : ∀ l t, (l, some t) ∈ b.flow → ∀ l' ∈ t.targets, l' ∈ b.labels ∧ l'.IsTarget

section Tidy

variable {b b' : Body} {l : Label} {new rest rest' : List Label} {t : Terminator}

theorem tidy_start : Body.start.Tidy [.entry] where
  entry := rfl
  nodup := by simp [labels, start]
  there := by simp [labels, start]
  ended := by simp [flow, start]
  targets := by simp [flow, start]

theorem Tidy.of_flow (h : b.Tidy rest) (hflow : b'.flow = b.flow) : b'.Tidy rest := by
  have hlabels := labels_congr hflow
  refine ⟨?_, ?_, ?_, ?_, ?_⟩
  · rw [hlabels]
    exact h.entry
  · rw [hlabels]
    exact h.nodup
  · rw [hlabels]
    exact h.there
  · rw [hflow]
    exact h.ended
  · rw [hflow, hlabels]
    exact h.targets

theorem Tidy.mono (h : b.Tidy rest) (hsub : rest ⊆ rest') (hthere : rest' ⊆ b.labels) :
    b.Tidy rest' :=
  ⟨h.entry, h.nodup, hthere, fun l hl => hsub (h.ended l hl), h.targets⟩

theorem Tidy.close (h : b.Tidy (b.current :: rest))
    (ht : ∀ l ∈ t.targets, l ∈ b.labels ∧ l.IsTarget) : (b.close t).Tidy rest := by
  refine ⟨?_, ?_, ?_, ?_, ?_⟩
  · rw [labels_close]
    exact h.entry
  · rw [labels_close]
    exact h.nodup
  · rw [labels_close]
    exact fun l hl => h.there (List.mem_cons_of_mem _ hl)
  · -- Only the current block has another end than before.
    intro l hl
    rw [flow_close] at hl
    obtain ⟨x, hx, heq⟩ := List.mem_map.mp hl
    by_cases hcur : x.1 = b.current
    · rw [if_pos hcur] at heq
      cases heq
    · rw [if_neg hcur] at heq
      subst heq
      exact (List.mem_cons.mp (h.ended l hx)).resolve_left hcur
  · intro l t' hl
    rw [labels_close]
    rw [flow_close] at hl
    obtain ⟨x, hx, heq⟩ := List.mem_map.mp hl
    by_cases hcur : x.1 = b.current
    · rw [if_pos hcur] at heq
      cases heq
      exact ht
    · rw [if_neg hcur] at heq
      subst heq
      exact h.targets l t' hx

theorem Tidy.finish (h : b.Tidy (b.current :: rest))
    (ht : ∀ l ∈ t.targets, l ∈ b.labels ∧ l.IsTarget) : (b.finish t).Tidy rest := by
  unfold Body.finish
  split
  · exact h.close ht
  · -- A block that has its end already is not one of those without.
    rename_i hopen
    refine ⟨h.entry, h.nodup, fun l hl => h.there (List.mem_cons_of_mem _ hl), ?_, h.targets⟩
    intro l hl
    refine (List.mem_cons.mp (h.ended l hl)).resolve_left fun heq => hopen ?_
    obtain ⟨block, hblock, hb⟩ := List.mem_map.mp hl
    obtain ⟨hlabel, hnone⟩ := Prod.mk.inj hb
    unfold isOpen
    rw [List.any_eq_true]
    exact ⟨block, hblock, by simp [hlabel, heq, hnone]⟩

theorem Tidy.create (h : b.Tidy rest) (hfresh : ∀ l ∈ new, l ∉ b.labels) (hnew : new.Nodup) :
    (b.create new).Tidy (new ++ rest) := by
  refine ⟨?_, ?_, ?_, ?_, ?_⟩
  · rw [labels_create, List.head?_append, h.entry]
    rfl
  · rw [labels_create]
    exact h.nodup.append hnew fun l hl hmem => hfresh l hmem hl
  · rw [labels_create]
    intro l hl
    rcases List.mem_append.mp hl with hl | hl
    · exact List.mem_append_right _ hl
    · exact List.mem_append_left _ (h.there hl)
  · intro l hl
    rw [flow_create] at hl
    rcases List.mem_append.mp hl with hl | hl
    · exact List.mem_append_right _ (h.ended l hl)
    · obtain ⟨l', hl', heq⟩ := List.mem_map.mp hl
      cases heq
      exact List.mem_append_left _ hl'
  · intro l t' hl l' hl'
    rw [flow_create] at hl
    rcases List.mem_append.mp hl with hl | hl
    · have htarget := h.targets l t' hl l' hl'
      rw [labels_create]
      exact ⟨List.mem_append_left _ htarget.1, htarget.2⟩
    · obtain ⟨l'', -, heq⟩ := List.mem_map.mp hl
      cases heq

theorem Tidy.goto (h : b.Tidy rest) (l : Label) : (b.goto l).Tidy rest :=
  ⟨h.entry, h.nodup, h.there, h.ended, h.targets⟩

end Tidy

def Open (b : Body) : Prop := ∃ block, b.block? b.current = some block ∧ block.terminator = none

theorem finish_of_open {b : Body} {t : Terminator} (h : b.Open) : b.finish t = b.close t := by
  obtain ⟨block, hb, hopen⟩ := h
  have hmem := List.mem_of_find?_eq_some hb
  have hisOpen : b.isOpen = true := by
    unfold isOpen
    rw [List.any_eq_true]
    exact ⟨block, hmem, by simp [label_of_block? hb, hopen]⟩
  rw [finish, if_pos hisOpen]

/-- A block stays as it is, but the entry can get further stack cells. -/
def Keeps (l : Label) (b b' : Body) : Prop :=
  ∀ block, b.block? l = some block →
    ∃ cells, b'.block? l = some { block with instrs := block.instrs ++ cells } ∧
      (∀ i ∈ cells, i.isAlloca = true) ∧ (l ≠ .entry → cells = [])

structure Straight (b b' : Body) : Prop where
  current : b'.current = b.current
  kept : ∀ l, l ≠ b.current → Keeps l b b'
  code : ∀ block, b.block? b.current = some block →
    ∃ added, b'.block? b.current = some { block with instrs := block.instrs ++ added }
  flow : b'.flow = b.flow

/-- A body at a later time. Blocks that have an end keep it, and get nothing but stack cells. -/
def Later (b b' : Body) : Prop :=
  ∀ l block, b.block? l = some block → ∃ block' added, b'.block? l = some block' ∧
    block'.instrs = block.instrs ++ added ∧
    ∀ t, block.terminator = some t → block'.terminator = some t ∧ ∀ i ∈ added, i.isAlloca = true

section Relations

variable {b b' b'' : Body} {l : Label}

theorem keeps_of_eq (h : b'.block? l = b.block? l) : Keeps l b b' := by
  intro block hb
  refine ⟨[], ?_, by simp, fun _ => rfl⟩
  rw [h, hb, List.append_nil]

theorem Keeps.trans (h : Keeps l b b') (h' : Keeps l b' b'') : Keeps l b b'' := by
  intro block hb
  obtain ⟨cells, hb', hcells, hentry⟩ := h block hb
  obtain ⟨cells', hb'', hcells', hentry'⟩ := h' _ hb'
  refine ⟨cells ++ cells', ?_, ?_, ?_⟩
  · rw [hb'', List.append_assoc]
  · intro i hi
    exact (List.mem_append.mp hi).elim (hcells i) (hcells' i)
  · intro hne
    rw [hentry hne, hentry' hne, List.append_nil]

theorem Keeps.eq {block : Block} (h : Keeps l b b') (hne : l ≠ .entry)
    (hb : b.block? l = some block) : b'.block? l = some block := by
  obtain ⟨cells, hb', -, hentry⟩ := h block hb
  rw [hb', hentry hne, List.append_nil]

theorem Straight.refl (b : Body) : Straight b b where
  current := rfl
  kept := fun _ _ => keeps_of_eq rfl
  code := fun block hb => ⟨[], by rw [hb, List.append_nil]⟩
  flow := rfl

theorem Straight.trans (h : Straight b b') (h' : Straight b' b'') : Straight b b'' where
  current := h'.current.trans h.current
  kept := fun l hl => (h.kept l hl).trans (h'.kept l (by rwa [h.current]))
  code := by
    intro block hb
    obtain ⟨added, hb'⟩ := h.code block hb
    rw [← h.current] at hb'
    obtain ⟨added', hb''⟩ := h'.code _ hb'
    rw [h.current] at hb''
    exact ⟨added ++ added', by rw [hb'', List.append_assoc]⟩
  flow := h'.flow.trans h.flow

theorem straight_append (b : Body) (is : List Instr) (register : Nat) :
    Straight b { b.append b.current is with register := register } where
  current := rfl
  kept := fun l hl => keeps_of_eq (block?_append.trans (if_neg hl))
  code := by
    intro block hb
    refine ⟨is, block?_append.trans ?_⟩
    rw [if_pos rfl, hb]
    rfl
  flow := flow_append b _ _

theorem straight_alloca (b : Body) (type : Ir.Ty) : Straight b (b.alloca type).1 where
  current := rfl
  kept := by
    intro l hl block hb
    by_cases he : l = .entry
    · refine ⟨[⟨some b.register, .alloca type⟩], block?_append.trans ?_, ?_, fun hne => ?_⟩
      · rw [if_pos he, hb]
        rfl
      · intro i hi
        rw [List.mem_singleton.mp hi]
        rfl
      · exact absurd he hne
    · exact keeps_of_eq (block?_append.trans (if_neg he)) block hb
  code := by
    intro block hb
    by_cases he : b.current = .entry
    · refine ⟨[⟨some b.register, .alloca type⟩], block?_append.trans ?_⟩
      rw [if_pos he, hb]
      rfl
    · refine ⟨[], block?_append.trans ?_⟩
      rw [if_neg he, hb, List.append_nil]
  flow := flow_append b _ _

theorem Straight.isOpen (h : Straight b b') (hopen : b.Open) : b'.Open := by
  obtain ⟨block, hb, ht⟩ := hopen
  obtain ⟨added, hb'⟩ := h.code block hb
  rw [← h.current] at hb'
  exact ⟨_, hb', ht⟩

theorem Later.refl (b : Body) : Later b b := by
  intro l block hb
  exact ⟨block, [], hb, by simp, fun t ht => ⟨ht, by simp⟩⟩

theorem Later.trans (h : Later b b') (h' : Later b' b'') : Later b b'' := by
  intro l block hb
  obtain ⟨block1, added, hb1, hi1, ht1⟩ := h l block hb
  obtain ⟨block2, added', hb2, hi2, ht2⟩ := h' l block1 hb1
  refine ⟨block2, added ++ added', hb2, ?_, ?_⟩
  · rw [hi2, hi1, List.append_assoc]
  · intro t ht
    obtain ⟨hterm, hcells⟩ := ht1 t ht
    obtain ⟨hterm', hcells'⟩ := ht2 t hterm
    refine ⟨hterm', fun i hi => ?_⟩
    exact (List.mem_append.mp hi).elim (hcells i) (hcells' i)

theorem Later.isSome {block : Block} (h : Later b b') (hb : b.block? l = some block) :
    (b'.block? l).isSome := by
  obtain ⟨block', -, hb', -⟩ := h l block hb
  rw [hb']
  rfl

theorem later_of_kept (hopen : b.Open) (hkept : ∀ l, l ≠ b.current → Keeps l b b')
    (hcode : ∀ block, b.block? b.current = some block →
      ∃ block' added, b'.block? b.current = some block' ∧ block'.instrs = block.instrs ++ added) :
    Later b b' := by
  intro l block hb
  by_cases hl : l = b.current
  · subst hl
    obtain ⟨block', added, hb', hi⟩ := hcode block hb
    refine ⟨block', added, hb', hi, fun t ht => ?_⟩
    obtain ⟨block0, hb0, hnone⟩ := hopen
    rw [hb] at hb0
    cases hb0
    rw [hnone] at ht
    cases ht
  · obtain ⟨cells, hb', hcells, -⟩ := hkept l hl block hb
    exact ⟨_, cells, hb', rfl, fun t ht => ⟨ht, hcells⟩⟩

theorem Straight.later (h : Straight b b') (hopen : b.Open) : Later b b' := by
  refine later_of_kept hopen h.kept fun block hb => ?_
  obtain ⟨added, hb'⟩ := h.code block hb
  exact ⟨_, added, hb', rfl⟩

/-- A body that has been gone on with, maybe in one of some new blocks. No block gets lost, and all but
the current one and the new ones stay as they are. -/
structure Onward (new : List Label) (b b' : Body) : Prop where
  labels : b.labels ⊆ b'.labels
  outside : ∀ l ∈ b.labels, l ≠ b.current → l ∉ new → Keeps l b b' ∧ l ≠ b'.current
  isOpen : b.Open → b'.Open
  later : b.Open → Later b b'

section Onward

variable {new : List Label}

theorem Onward.refl (b : Body) : Onward new b b :=
  ⟨fun _ hl => hl, fun _ _ hne _ => ⟨keeps_of_eq rfl, hne⟩, id, fun _ => .refl b⟩

theorem Onward.trans (h : Onward new b b') (h' : Onward new b' b'') : Onward new b b'' where
  labels := fun _ hl => h'.labels (h.labels hl)
  outside := by
    intro l hl hne hnew
    obtain ⟨hkeeps, hne'⟩ := h.outside l hl hne hnew
    obtain ⟨hkeeps', hne''⟩ := h'.outside l (h.labels hl) hne' hnew
    exact ⟨hkeeps.trans hkeeps', hne''⟩
  isOpen := fun hopen => h'.isOpen (h.isOpen hopen)
  later := fun hopen => (h.later hopen).trans (h'.later (h.isOpen hopen))

theorem Onward.mono (h : Onward [] b b') : Onward new b b' :=
  ⟨h.labels, fun l hl hne _ => h.outside l hl hne List.not_mem_nil, h.isOpen, h.later⟩

theorem Onward.of_fresh (h : Onward new b b') (hfresh : ∀ l ∈ new, l ∉ b.labels) :
    Onward [] b b' :=
  ⟨h.labels, fun l hl hne _ => h.outside l hl hne fun hmem => hfresh l hmem hl, h.isOpen, h.later⟩

theorem Straight.onward (h : Straight b b') : Onward new b b' where
  labels := by
    rw [labels_congr h.flow]
    exact fun _ hl => hl
  outside := fun l _ hne _ => ⟨h.kept l hne, by rwa [h.current]⟩
  isOpen := h.isOpen
  later := h.later

end Onward

variable {t : Terminator}

theorem later_close (hopen : b.Open) : Later b (b.close t) := by
  refine later_of_kept hopen (fun l hl => keeps_of_eq ?_) fun block hb => ?_
  · rw [block?_close, if_neg hl]
  · refine ⟨{ block with terminator := some t }, [], ?_, by simp⟩
    rw [block?_close, if_pos rfl, hb]
    rfl

theorem ends_of_closed {fin : Body} (hopen : b.Open)
    (hclosed : ∀ block, b.block? b.current = some block →
      b'.block? b.current = some { block with terminator := some t })
    (hfin : Later b' fin) : Ir.Ends fin.blocks b.point t := by
  obtain ⟨block, hb, -⟩ := hopen
  obtain ⟨block', added, hb', hi, ht⟩ := hfin _ _ (hclosed block hb)
  obtain ⟨hterm, hcells⟩ := ht t rfl
  refine ⟨block', hb', ?_, hterm⟩
  have hdrop : block'.instrs.drop b.point.offset = added := by
    rw [Body.point, hb, hi]
    simp
  rw [hdrop]
  exact hcells

/-- The current block gets its end, and a block that is still empty comes next. -/
structure Moves (b b' : Body) (new : List Label) (target : Label) (t : Terminator) : Prop where
  current : b'.current = target
  empty : b'.block? target = some ⟨target, [], none⟩
  closed : ∀ block, b.block? b.current = some block →
    b'.block? b.current = some { block with terminator := some t }
  same : ∀ l ∈ b.labels, l ≠ b.current → b'.block? l = b.block? l
  made : ∀ l ∈ new, b'.block? l = some ⟨l, [], none⟩
  labels : b'.labels = b.labels ++ new
  tidy : ∀ rest, b.Tidy (b.current :: rest) →
    (∀ l ∈ t.targets, l ∈ b.labels ++ new ∧ l.IsTarget) → b'.Tidy (new ++ rest)

theorem moves_goto (hl : b.block? l = some ⟨l, [], none⟩) (hne : l ≠ b.current) :
    Moves b ((b.close t).goto l) [] l t where
  current := rfl
  empty := (block?_close.trans (if_neg hne)).trans hl
  closed := fun _ hb => block?_close_current hb
  same := fun l' _ hl' => block?_close.trans (if_neg hl')
  made := by simp
  labels := (labels_close b t).trans (List.append_nil _).symm
  tidy := by
    intro rest h ht
    rw [List.append_nil] at ht
    exact (h.close ht).goto l

theorem moves_create {new : List Label} (hcur : b.current ∈ b.labels) (hnodup : new.Nodup)
    (hfresh : ∀ l ∈ new, l ∉ b.labels) (hl : l ∈ new) :
    Moves b (((b.create new).close t).goto l) new l t := by
  -- None of the new blocks is the current one.
  have hne : ∀ l' ∈ new, l' ≠ (b.create new).current :=
    fun l' hl' heq => hfresh l' hl' (heq.symm ▸ hcur)
  have hnew : ∀ l' ∈ new, (((b.create new).close t).goto l).block? l' = some ⟨l', [], none⟩ := by
    intro l' hl'
    have hnone : b.block? l' = none := by
      rw [← Option.not_isSome_iff_eq_none, isSome_block?_iff]
      exact hfresh l' hl'
    exact (block?_close.trans (if_neg (hne l' hl'))).trans (by simp [block?_create, hnone, hl'])
  refine ⟨rfl, hnew l hl, ?_, ?_, hnew, (labels_close _ t).trans (labels_create b new), ?_⟩
  · intro block hb
    have hb' : (b.create new).block? (b.create new).current = some block :=
      block?_create_of_some hb
    exact block?_close_current hb'
  · intro l' hmem hl'
    obtain ⟨block', hb'⟩ := exists_block? hmem
    have hne' : l' ≠ (b.create new).current := hl'
    refine (block?_close.trans (if_neg hne')).trans ?_
    rw [block?_create_of_some hb', hb']
  · intro rest h ht
    have hcreated := h.create hfresh hnodup
    refine Tidy.goto (Tidy.close (hcreated.mono ?_ ?_) fun l' hl' => ?_) l
    · intro l' hl'
      simp only [List.mem_append, List.mem_cons] at hl' ⊢
      exact or_left_comm.mp hl'
    · intro l' hl'
      apply hcreated.there
      simp only [List.mem_append, List.mem_cons] at hl' ⊢
      exact or_left_comm.mpr hl'
    · rw [labels_create]
      exact ht l' hl'

theorem close_create {labels : List Label} (h : b.current ∉ labels) :
    (b.close t).create labels = (b.create labels).close t := by
  have hnew : (labels.map fun label => (⟨label, [], none⟩ : Block)).map (fun block =>
      if block.label = b.current then { block with terminator := some t } else block) =
      labels.map fun label => ⟨label, [], none⟩ := by
    rw [List.map_map]
    refine List.map_congr_left fun label hlabel => ?_
    have hne : label ≠ b.current := fun heq => h (heq ▸ hlabel)
    exact if_neg hne
  unfold close create update
  dsimp only
  rw [List.map_append, hnew]

namespace Moves

variable {t : Terminator} {target : Label} {new : List Label}

theorem isOpen (h : Moves b b' new target t) : b'.Open := by
  refine ⟨⟨target, [], none⟩, ?_, rfl⟩
  rw [h.current]
  exact h.empty

theorem point (h : Moves b b' new target t) : b'.point = ⟨target, 0⟩ := by
  rw [Body.point, h.current, h.empty]
  rfl

theorem mem_target (h : Moves b b' new target t) : target ∈ b'.labels := mem_labels h.empty

theorem ne_current (h : Moves b b' new target t) (hl : l ≠ target) : l ≠ b'.current := by
  rwa [h.current]

theorem later (h : Moves b b' new target t) (hopen : b.Open) : Later b b' := by
  intro l block hb
  by_cases hl : l = b.current
  · subst hl
    refine ⟨_, [], h.closed block hb, by simp, fun t' ht => ?_⟩
    obtain ⟨block0, hb0, hnone⟩ := hopen
    rw [hb] at hb0
    cases hb0
    rw [hnone] at ht
    cases ht
  · refine ⟨block, [], ?_, by simp, fun t' ht => ⟨ht, by simp⟩⟩
    rw [h.same l (mem_labels hb) hl, hb]

theorem onward {made : List Label} (h : Moves b b' made target t) (ht : target ∈ new) :
    Onward new b b' where
  labels := by
    rw [h.labels]
    exact List.subset_append_left _ _
  outside := fun l hl hne hnew =>
    ⟨keeps_of_eq (h.same l hl hne), h.ne_current fun heq => hnew (heq ▸ ht)⟩
  isOpen := fun _ => h.isOpen
  later := h.later

theorem ends {fin : Body} (h : Moves b b' new target t) (hopen : b.Open) (hfin : Later b' fin) :
    Ir.Ends fin.blocks b.point t :=
  ends_of_closed hopen h.closed hfin

end Moves

end Relations

section Code

def code (b : Body) : List Instr := b.blocks.flatMap (·.instrs)

variable {b : Body} {l : Label} {is : List Instr} {i : Instr}

theorem mem_code : i ∈ b.code ↔ ∃ block ∈ b.blocks, i ∈ block.instrs := List.mem_flatMap

theorem mem_code_append (h : i ∈ (b.append l is).code) : i ∈ b.code ∨ i ∈ is := by
  obtain ⟨block', hblock', hi⟩ := mem_code.mp h
  obtain ⟨block, hblock, rfl⟩ := List.mem_map.mp hblock'
  by_cases hl : block.label = l
  · rw [if_pos hl] at hi
    exact (List.mem_append.mp hi).imp_left fun hi => mem_code.mpr ⟨block, hblock, hi⟩
  · rw [if_neg hl] at hi
    exact .inl (mem_code.mpr ⟨block, hblock, hi⟩)

theorem code_subset_append (b : Body) (l : Label) (is : List Instr) :
    b.code ⊆ (b.append l is).code := by
  intro i hi
  obtain ⟨block, hblock, hi⟩ := mem_code.mp hi
  refine mem_code.mpr ⟨_, List.mem_map_of_mem hblock, ?_⟩
  split
  · exact List.mem_append_left _ hi
  · exact hi

theorem subset_code_append (hl : l ∈ b.labels) : is ⊆ (b.append l is).code := by
  intro i hi
  obtain ⟨block, hblock, hlabel⟩ := List.mem_map.mp hl
  refine mem_code.mpr ⟨_, List.mem_map_of_mem hblock, ?_⟩
  rw [if_pos hlabel]
  exact List.mem_append_right _ hi

theorem code_close (b : Body) (t : Terminator) : (b.close t).code = b.code := by
  unfold code close update
  rw [List.flatMap_map]
  refine List.flatMap_congr fun block _ => ?_
  split <;> rfl

theorem code_create (b : Body) (labels : List Label) : (b.create labels).code = b.code := by
  unfold code create
  rw [List.flatMap_append, List.flatMap_map]
  simp

end Code

end Lowering.Body

end BoardPython
