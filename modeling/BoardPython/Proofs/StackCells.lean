import BoardPython.Proofs.TypedLowering
import BoardPython.Proofs.ValueFlow
import BoardPython.Proofs.WellFormedBlocks

/-! Stack cells while a body is lowered. Code goes to the end of the current block, and stack cells
go to the end of the entry, also when it has been left. Each cell is that of one variable of the
function, and nothing but the address of a load or store. -/
namespace BoardPython

namespace Ir

/-- The discipline of a body whose first block is the entry. -/
structure Disciplined (entry : Block) (rest : List Block) : Prop where
  /-- Every register is set by one instruction. -/
  single : (results ((entry :: rest).flatMap (·.instrs))).Nodup
  /-- What an instruction computes with is computed in front of it in the same block. -/
  inputs : ∀ b ∈ entry :: rest,
    Sequential (fun before i => ∀ x ∈ i.operation.inputs, x.Computed before) b.instrs
  ends : ∀ b ∈ entry :: rest, ∀ t ∈ b.terminator, ∀ x ∈ t.inputs, x.Computed b.instrs
  /-- In the entry, the stack cells that an instruction reads or writes are made in front of it. -/
  entered : Sequential (fun before i => ∀ a ∈ i.operation.address?, a.IsAddress before) entry.instrs
  addresses : ∀ b ∈ rest, ∀ i ∈ b.instrs, ∀ a ∈ i.operation.address?, a.IsAddress entry.instrs
  /-- Stack cells are made in the entry only, which is not gone back to. -/
  cells : ∀ b ∈ rest, ∀ i ∈ b.instrs, i.isAlloca = false
  once : ∀ b ∈ entry :: rest, ∀ t ∈ b.terminator, entry.label ∉ t.targets
  /-- The address of a stack cell is not computed with, stored, passed on or returned. -/
  kept : ∀ cell ∈ (entry :: rest).flatMap (·.instrs), cell.isAlloca = true → ∀ r ∈ cell.result,
    ∀ type, (∀ b ∈ entry :: rest, ∀ i ∈ b.instrs, .register r type ∉ i.operation.inputs) ∧
      ∀ b ∈ entry :: rest, ∀ t ∈ b.terminator, .register r type ∉ t.inputs

/-- The discipline of a function, which may be a declaration without blocks. -/
def Function.Disciplined (f : Function) : Prop :=
  match f.blocks with
  | [] => True
  | entry :: rest => Ir.Disciplined entry rest

theorem Function.disciplined_of_blocks {f : Function} (h : f.blocks = []) : f.Disciplined := by
  unfold Function.Disciplined
  rw [h]
  trivial

theorem eq_of_result {is : List Instr} {i j : Instr} {r : Nat} (hnodup : (results is).Nodup)
    (hi : i ∈ is) (hj : j ∈ is) (hir : i.result = some r) (hjr : j.result = some r) : i = j := by
  have hresult {is : List Instr} {k : Instr} (hk : k ∈ is) (hkr : k.result = some r) :
      r ∈ results is := List.mem_filterMap.mpr ⟨k, hk, hkr⟩
  induction is with
  | nil => exact absurd hi List.not_mem_nil
  | cons k is ih =>
    have hcons : results (k :: is) = results [k] ++ results is := results_append [k] is
    rw [hcons, List.nodup_append'] at hnodup
    obtain ⟨-, hrest, hdisjoint⟩ := hnodup
    have hfirst (hkr : k.result = some r) : r ∈ results [k] :=
      hresult (List.mem_singleton_self _) hkr
    rcases List.mem_cons.mp hi with heq | hi'
    · rcases List.mem_cons.mp hj with heq' | hj'
      · exact heq.trans heq'.symm
      · exact (hdisjoint (hfirst (heq ▸ hir)) (hresult hj' hjr)).elim
    · rcases List.mem_cons.mp hj with heq' | hj'
      · exact (hdisjoint (hfirst (heq' ▸ hjr)) (hresult hi' hir)).elim
      · exact ih hrest hi' hj'

end Ir

namespace Lowering

open Ir (Block Instr Label Operand Sequential Terminator)
open Relation (ReflTransGen)

namespace Body

def codeAt (b : Body) (l : Label) : List Instr := (b.block? l).elim [] (·.instrs)

section CodeAt

variable {b : Body} {l l' : Label} {is : List Instr} {t : Terminator}

theorem block?_of_mem {block : Block} (hnodup : b.labels.Nodup) (hblock : block ∈ b.blocks) :
    b.block? block.label = some block := by
  obtain ⟨found, hfound⟩ := exists_block? (b := b) (List.mem_map_of_mem hblock)
  have hmem : found ∈ b.blocks := List.mem_of_find?_eq_some hfound
  rw [hfound, List.inj_on_of_nodup_map hnodup hmem hblock (label_of_block? hfound)]

theorem codeAt_of_mem {block : Block} (hnodup : b.labels.Nodup) (hblock : block ∈ b.blocks) :
    b.codeAt block.label = block.instrs := by
  rw [codeAt, block?_of_mem hnodup hblock]
  rfl

theorem codeAt_append (hl : l ∈ b.labels) : (b.append l is).codeAt l' =
    if l' = l then b.codeAt l' ++ is else b.codeAt l' := by
  unfold codeAt
  rw [block?_append]
  split
  · rename_i heq
    obtain ⟨block, hb⟩ := exists_block? hl
    rw [heq, hb]
    rfl
  · rfl

theorem codeAt_subset_append (b : Body) (l l' : Label) (is : List Instr) :
    b.codeAt l' ⊆ (b.append l is).codeAt l' := by
  unfold codeAt
  rw [block?_append]
  split
  · cases b.block? l' with
    | none => exact List.nil_subset _
    | some block => exact List.subset_append_left _ _
  · exact List.Subset.refl _

theorem codeAt_close : (b.close t).codeAt l = b.codeAt l := by
  unfold codeAt
  rw [block?_close]
  split
  · cases b.block? l <;> rfl
  · rfl

theorem codeAt_create {new : List Label} : (b.create new).codeAt l = b.codeAt l := by
  unfold codeAt
  rw [block?_create]
  cases b.block? l with
  | some block => rfl
  | none =>
    -- A new block is empty, and so is one that is not there.
    by_cases hl : l ∈ new <;> simp [hl]

theorem codeAt_start (l : Label) : Body.start.codeAt l = [] := by
  unfold codeAt block? Ir.block? Body.start
  rw [List.find?_cons]
  split <;> rfl

theorem mem_code_iff (hnodup : b.labels.Nodup) {i : Instr} :
    i ∈ b.code ↔ ∃ l, i ∈ b.codeAt l := by
  rw [mem_code]
  constructor
  · rintro ⟨block, hblock, hi⟩
    refine ⟨block.label, ?_⟩
    rwa [codeAt_of_mem hnodup hblock]
  · rintro ⟨l, hi⟩
    unfold codeAt at hi
    cases hb : b.block? l with
    | none =>
      rw [hb] at hi
      exact absurd hi List.not_mem_nil
    | some block =>
      rw [hb] at hi
      exact ⟨block, List.mem_of_find?_eq_some hb, hi⟩

theorem perm_code_append (hnodup : b.labels.Nodup) (hl : l ∈ b.labels) :
    (b.append l is).code.Perm (b.code ++ is) := by
  have hblocks (blocks : List Block) (hnodup : (blocks.map (·.label)).Nodup)
      (hl : l ∈ blocks.map (·.label)) :
      ((blocks.map fun block =>
        if block.label = l then { block with instrs := block.instrs ++ is } else block).flatMap
          (·.instrs)).Perm (blocks.flatMap (·.instrs) ++ is) := by
    induction blocks with
    | nil => exact absurd hl List.not_mem_nil
    | cons block blocks ih =>
      obtain ⟨hfirst, hrest⟩ := List.nodup_cons.mp hnodup
      rw [List.map_cons, List.flatMap_cons, List.flatMap_cons, List.append_assoc]
      by_cases heq : block.label = l
      · -- No other block has this label.
        have hsame : (blocks.map fun block =>
            if block.label = l then { block with instrs := block.instrs ++ is } else block) =
            blocks := by
          refine (List.map_congr_left fun other hother => if_neg fun hlabel => ?_).trans
            (List.map_id _)
          have hmem : block.label ∈ blocks.map (·.label) := by
            rw [heq, ← hlabel]
            exact List.mem_map_of_mem hother
          exact hfirst hmem
        rw [hsame, if_pos heq, List.append_assoc]
        exact List.perm_append_comm.append_left _
      · rw [if_neg heq]
        apply List.Perm.append_left
        apply ih hrest
        exact (List.mem_cons.mp hl).resolve_left (Ne.symm heq)
  exact hblocks b.blocks hnodup hl

end CodeAt

/-- The discipline that code keeps to while it is made. Registers are set once. What an instruction
computes with stands in front of it in its block, and so do in the entry the stack cells that it
uses there. Stack cells are made in the entry, which is never gone back to. -/
structure Disciplined (b : Body) : Prop where
  first : b.labels.head? = some .entry
  current : b.current ∈ b.labels
  nodup : b.labels.Nodup
  single : (Ir.results b.code).Nodup
  below : ∀ r ∈ Ir.results b.code, r < b.register
  inputs : ∀ l, Sequential (fun before i => ∀ x ∈ i.operation.inputs, x.Computed before)
    (b.codeAt l)
  addresses : ∀ l, Sequential (fun before i => ∀ a ∈ i.operation.address?,
    a.IsAddress (if l = .entry then before else b.codeAt .entry)) (b.codeAt l)
  cells : ∀ l, l ≠ .entry → ∀ i ∈ b.codeAt l, i.isAlloca = false
  ends : ∀ l t, (l, some t) ∈ b.flow →
    (∀ x ∈ t.inputs, x.Computed (b.codeAt l)) ∧ .entry ∉ t.targets

namespace Disciplined

variable {b b' : Body} {l : Label} {is : List Instr} {t : Terminator}

theorem entry (hb : b.Disciplined) : .entry ∈ b.labels := List.mem_of_mem_head? hb.first

theorem start : Body.start.Disciplined where
  first := rfl
  current := List.mem_singleton_self _
  nodup := List.nodup_singleton _
  single := List.nodup_nil
  below := List.forall_mem_nil _
  inputs := fun l => codeAt_start l ▸ Ir.sequential_nil
  addresses := fun l => codeAt_start l ▸ Ir.sequential_nil
  cells := fun l _ => codeAt_start l ▸ List.forall_mem_nil _
  ends := by
    intro l t ht
    cases List.mem_singleton.mp ht

theorem append (hb : b.Disciplined) (hl : l ∈ b.labels)
    (hblocks : b'.blocks = (b.append l is).blocks) (hcurrent : b'.current = b.current)
    (hinputs : Sequential (fun before i =>
      ∀ x ∈ i.operation.inputs, x.Computed (b.codeAt l ++ before)) is)
    (haddresses : ∀ i ∈ is, ∀ a ∈ i.operation.address?, a.IsAddress (b.codeAt .entry))
    (hcells : l ≠ .entry → ∀ i ∈ is, i.isAlloca = false) (hsingle : (Ir.results is).Nodup)
    (hfresh : ∀ r ∈ Ir.results is, b.register ≤ r ∧ r < b'.register)
    (hle : b.register ≤ b'.register) : b'.Disciplined := by
  have hcode (l' : Label) :
      b'.codeAt l' = if l' = l then b.codeAt l' ++ is else b.codeAt l' := by
    rw [← codeAt_append hl]
    unfold codeAt block?
    rw [hblocks]
  have hsub (l' : Label) : b.codeAt l' ⊆ b'.codeAt l' := by
    rw [hcode]
    split
    · exact List.subset_append_left _ _
    · exact List.Subset.refl _
  have hflow : b'.flow = b.flow := by
    rw [← flow_append b l is]
    unfold flow
    rw [hblocks]
  have hlabels := labels_congr hflow
  have hresults : (Ir.results b'.code).Perm (Ir.results b.code ++ Ir.results is) := by
    rw [← Ir.results_append]
    unfold code
    rw [hblocks]
    exact (perm_code_append hb.nodup hl).filterMap _
  refine ⟨hlabels ▸ hb.first, ?_, hlabels ▸ hb.nodup, ?_, ?_, ?_, ?_, ?_, ?_⟩
  · rw [hlabels, hcurrent]
    exact hb.current
  · -- New registers are not smaller than the next one, and all others are.
    rw [hresults.nodup_iff]
    apply hb.single.append hsingle
    intro r hr hmem
    exact absurd (hb.below r hr) (Nat.not_lt_of_le (hfresh r hmem).1)
  · intro r hr
    rcases List.mem_append.mp (hresults.subset hr) with hr | hr
    · exact Nat.lt_of_lt_of_le (hb.below r hr) hle
    · exact (hfresh r hr).2
  · intro l'
    rw [hcode]
    split
    · rename_i heq
      subst heq
      exact (hb.inputs l').append hinputs
    · exact hb.inputs l'
  · intro l'
    -- A cell that was there is still there.
    have hold : Sequential (fun before i => ∀ a ∈ i.operation.address?,
        a.IsAddress (if l' = .entry then before else b'.codeAt .entry)) (b.codeAt l') := by
      refine (hb.addresses l').imp fun before i _ h a ha => (h a ha).mono ?_
      split
      · exact List.Subset.refl _
      · exact hsub _
    rw [hcode l']
    by_cases heq : l' = l
    · subst heq
      rw [if_pos rfl]
      refine hold.append fun m i hi a ha => ?_
      refine (haddresses i (List.mem_of_getElem? hi) a ha).mono ?_
      split
      · rename_i hentry
        rw [hentry]
        exact List.subset_append_left _ _
      · exact hsub _
    · rw [if_neg heq]
      exact hold
  · intro l' hne i hi
    rw [hcode] at hi
    split at hi
    · rename_i heq
      rcases List.mem_append.mp hi with hi | hi
      · exact hb.cells l' hne i hi
      · exact hcells (heq ▸ hne) i hi
    · exact hb.cells l' hne i hi
  · intro l' t ht
    rw [hflow] at ht
    obtain ⟨hinputs, htargets⟩ := hb.ends l' t ht
    exact ⟨fun x hx => (hinputs x hx).mono (hsub l'), htargets⟩

theorem close (hb : b.Disciplined) (ht : ∀ x ∈ t.inputs, x.Computed (b.codeAt b.current))
    (htargets : .entry ∉ t.targets) : (b.close t).Disciplined where
  first := (labels_close b t).symm ▸ hb.first
  current := (labels_close b t).symm ▸ hb.current
  nodup := (labels_close b t).symm ▸ hb.nodup
  single := (code_close b t).symm ▸ hb.single
  below := (code_close b t).symm ▸ hb.below
  inputs l := by
    rw [codeAt_close]
    exact hb.inputs l
  addresses l := by
    simp only [codeAt_close]
    exact hb.addresses l
  cells l hne := by
    rw [codeAt_close]
    exact hb.cells l hne
  ends := by
    intro l t' hl
    rw [codeAt_close]
    rw [flow_close] at hl
    obtain ⟨x, hx, heq⟩ := List.mem_map.mp hl
    by_cases hcurrent : x.1 = b.current
    · rw [if_pos hcurrent] at heq
      cases heq
      rw [hcurrent]
      exact ⟨ht, htargets⟩
    · rw [if_neg hcurrent] at heq
      exact hb.ends l t' (heq ▸ hx)

theorem create {new : List Label} (hb : b.Disciplined) (hfresh : ∀ l ∈ new, l ∉ b.labels)
    (hnew : new.Nodup) : (b.create new).Disciplined where
  first := by
    rw [labels_create, List.head?_append, hb.first]
    rfl
  current := (labels_create b new).symm ▸ List.mem_append_left _ hb.current
  nodup := by
    rw [labels_create]
    exact hb.nodup.append hnew fun l hl hmem => hfresh l hmem hl
  single := (code_create b new).symm ▸ hb.single
  below := (code_create b new).symm ▸ hb.below
  inputs l := by
    rw [codeAt_create]
    exact hb.inputs l
  addresses l := by
    simp only [codeAt_create]
    exact hb.addresses l
  cells l hne := by
    rw [codeAt_create]
    exact hb.cells l hne
  ends := by
    intro l t hl
    rw [codeAt_create]
    rw [flow_create] at hl
    rcases List.mem_append.mp hl with hl | hl
    · exact hb.ends l t hl
    · obtain ⟨l', -, heq⟩ := List.mem_map.mp hl
      cases heq

theorem goto (hb : b.Disciplined) (hl : l ∈ b.labels) : (b.goto l).Disciplined :=
  ⟨hb.first, hl, hb.nodup, hb.single, hb.below, hb.inputs, hb.addresses, hb.cells, hb.ends⟩

theorem blocks_eq (hb : b.Disciplined) : ∃ entry rest, b.blocks = entry :: rest ∧
    entry.label = .entry ∧ ∀ block ∈ rest, block.label ≠ .entry := by
  have hfirst := hb.first
  have hnodup := hb.nodup
  unfold labels at hfirst hnodup
  cases hblocks : b.blocks with
  | nil =>
    rw [hblocks] at hfirst
    cases hfirst
  | cons entry rest =>
    rw [hblocks] at hfirst hnodup
    have hlabel : entry.label = .entry := Option.some.inj hfirst
    refine ⟨entry, rest, rfl, hlabel, fun block hblock heq => ?_⟩
    have hmem : entry.label ∈ rest.map (·.label) := by
      rw [hlabel, ← heq]
      exact List.mem_map_of_mem hblock
    exact (List.nodup_cons.mp hnodup).1 hmem

theorem function (hb : b.Disciplined) {f : Ir.Function} (hf : f.blocks = b.blocks) :
    f.Disciplined := by
  obtain ⟨entry, rest, hblocks, hentry, hrest⟩ := hb.blocks_eq
  have hcode {block : Block} (hblock : block ∈ entry :: rest) :
      b.codeAt block.label = block.instrs := codeAt_of_mem hb.nodup (hblocks ▸ hblock)
  have hentryCode : b.codeAt .entry = entry.instrs := by
    rw [← hentry]
    exact hcode (List.mem_cons_self ..)
  have hbody : b.code = (entry :: rest).flatMap (·.instrs) := by
    unfold code
    rw [hblocks]
  have hflow {block : Block} (hblock : block ∈ entry :: rest) {t : Ir.Terminator}
      (ht : t ∈ block.terminator) : (block.label, some t) ∈ b.flow := by
    rw [← Option.mem_def.mp ht]
    exact List.mem_map_of_mem (hblocks ▸ hblock)
  have hinputs : ∀ block ∈ entry :: rest,
      Sequential (fun before i => ∀ x ∈ i.operation.inputs, x.Computed before) block.instrs :=
    fun block hblock => hcode hblock ▸ hb.inputs block.label
  have hends : ∀ block ∈ entry :: rest, ∀ t ∈ block.terminator,
      (∀ x ∈ t.inputs, x.Computed block.instrs) ∧ .entry ∉ t.targets := fun block hblock t ht =>
    hcode hblock ▸ hb.ends block.label t (hflow hblock ht)
  -- A register is set once, so what is computed is no stack cell.
  have hcell {block : Block} (hblock : block ∈ entry :: rest) {code : List Instr} {r : Nat}
      {type : Ir.Ty} (hcode : code ⊆ block.instrs) {cell : Instr}
      (hmem : cell ∈ (entry :: rest).flatMap (·.instrs)) (halloca : cell.isAlloca = true)
      (hr : cell.result = some r) : ¬ (Operand.register r type).Computed code := by
    rintro ⟨i, hi, hir, hnot⟩
    have hi' : i ∈ (entry :: rest).flatMap (·.instrs) :=
      List.mem_flatMap.mpr ⟨block, hblock, hcode hi⟩
    rw [Ir.eq_of_result (hbody ▸ hb.single) hi' hmem hir hr, halloca] at hnot
    cases hnot
  unfold Ir.Function.Disciplined
  rw [hf, hblocks]
  refine ⟨hbody ▸ hb.single, hinputs, fun block hblock t ht => (hends block hblock t ht).1, ?_, ?_,
    ?_, ?_, ?_⟩
  · have haddresses := hb.addresses .entry
    rwa [hentryCode] at haddresses
  · intro block hblock i hi a ha
    obtain ⟨n, hn⟩ := List.mem_iff_getElem?.mp hi
    rw [← hcode (List.mem_cons_of_mem _ hblock)] at hn
    have haddress := hb.addresses block.label n i hn a ha
    rwa [if_neg (hrest block hblock), hentryCode] at haddress
  · intro block hblock i hi
    apply hb.cells block.label (hrest block hblock)
    rwa [hcode (List.mem_cons_of_mem _ hblock)]
  · intro block hblock t ht
    rw [hentry]
    exact (hends block hblock t ht).2
  · intro cell hmem halloca r hr type
    constructor
    · intro block hblock i hi hx
      obtain ⟨n, hn⟩ := List.mem_iff_getElem?.mp hi
      exact hcell hblock (List.take_subset n _) hmem halloca hr (hinputs block hblock n i hn _ hx)
    · intro block hblock t ht hx
      exact hcell hblock (List.Subset.refl _) hmem halloca hr ((hends block hblock t ht).1 _ hx)

end Disciplined

end Body

def Scope.names (scope : Scope) : List String := scope.symbols.map (·.name)

theorem Scope.find?_eq_none_iff {scope : Scope} {name : String} :
    scope.find? name = none ↔ name ∉ scope.names := by
  unfold find? names
  rw [List.find?_eq_none, List.mem_map]
  constructor
  · rintro h ⟨symbol, hsymbol, rfl⟩
    exact h symbol hsymbol (beq_self_eq_true _)
  · intro h symbol hsymbol heq
    exact h ⟨symbol, hsymbol, beq_iff_eq.mp heq⟩

theorem Scope.symbols_declare {scope : Scope} {symbol : Symbol}
    (h : scope.find? symbol.name = none) :
    (scope.declare symbol).symbols = scope.symbols ++ [symbol] := by
  unfold declare declare?
  rw [h]
  rfl

def Symbol.cell? (symbol : Symbol) : Option Instr :=
  match symbol.storage with
  | .stack r => some ⟨some r, .alloca symbol.type.ir⟩
  | _ => none

structure Names where
  assigned : String → Prop
  declared : String → Prop

structure Frame.Kept (k : Names) (f : Frame) : Prop where
  cells : f.locals.symbols.map Symbol.cell? =
    ((f.body.codeAt .entry).filter (·.isAlloca)).map some
  single : f.locals.names.Nodup
  assigned : ∀ name ∈ f.locals.names, k.assigned name
  declared : ∀ name ∈ f.globalNames, k.declared name
  apart : ∀ name ∈ f.locals.names, name ∉ f.globalNames
  outside : f.signature = none → f.locals.symbols = []

theorem Frame.Kept.isAddress {k : Names} {f : Frame} (h : f.Kept k) {symbol : Symbol} {a : Operand}
    (hsymbol : symbol ∈ f.locals.symbols) (ha : symbol.address? = some a) :
    a.IsAddress (f.body.codeAt .entry) := by
  have hmem : symbol.cell? ∈ ((f.body.codeAt .entry).filter (·.isAlloca)).map some := by
    rw [← h.cells]
    exact List.mem_map_of_mem hsymbol
  obtain ⟨i, hi, heq⟩ := List.mem_map.mp hmem
  obtain ⟨hi, halloca⟩ := List.mem_filter.mp hi
  unfold Symbol.address? at ha
  unfold Symbol.cell? at heq
  split at ha
  · cases ha
  · rename_i r hstorage
    rw [hstorage] at heq
    cases heq
    cases ha
    exact ⟨_, hi, rfl, halloca⟩
  · cases ha
    trivial

namespace State

def code (s : State) : List Instr := s.frame.body.codeAt s.frame.body.current

def entry (s : State) : List Instr := s.frame.body.codeAt .entry

def spot (s : State) : Spot := ⟨s.code, s.entry⟩

inductive Grows (k : Names) : State → State → Prop
  | absorb {s : State} {e : Emission} (h : ReflTransGen (Emission.Grows s.spot) s.emission e) :
      Grows k s (s.absorb e)
  | declareLocal {s : State} {name : String} {type : ValueType}
      (hfree : s.frame.locals.find? name = none) (hlocal : s.frame.isLocal name = true)
      (hname : k.assigned name) : Grows k s (Lower.after (Lower.declareLocal name type) s)
  | declareGlobal {s : State} {name : String} {type : ValueType} {initial : Ir.Constant} :
      Grows k s (Lower.after (Lower.declareGlobal name type initial) s)
  | declareName {s : State} {name : String} (hfree : s.frame.locals.find? name = none)
      (hname : k.declared name) :
      Grows k s { s with frame :=
        { s.frame with globalNames := s.frame.globalNames ++ [name] } }
  | count {s : State} {p : Progress} (hextends : s.progress.Extends p)
      (hscope : p.scope = s.progress.scope) : Grows k s { s with progress := p }
  | close {s : State} {t : Terminator} (ht : ∀ x ∈ t.inputs, x.Computed s.code)
      (htargets : .entry ∉ t.targets) : Grows k s (s.mapBody (·.close t))
  | create {s : State} {labels : List Label} (hfresh : ∀ l ∈ labels, l ∉ s.frame.body.labels)
      (hnodup : labels.Nodup) (hgiven : ∀ l ∈ labels, used s.progress l) :
      Grows k s (s.mapBody (·.create labels))
  | goto {s : State} {l : Label} (hl : l ∈ s.frame.body.labels) :
      Grows k s (s.mapBody (·.goto l))

structure Remains (s s' : State) : Prop where
  signature : s'.frame.signature = s.frame.signature
  locals : s.frame.locals.symbols <+: s'.frame.locals.symbols
  globalNames : s.frame.globalNames ⊆ s'.frame.globalNames
  labels : s.frame.body.labels ⊆ s'.frame.body.labels
  entry : s.entry ⊆ s'.entry
  errors : s.errors ≤ s'.errors

theorem Remains.refl (s : State) : s.Remains s :=
  ⟨rfl, List.prefix_rfl, List.Subset.refl _, List.Subset.refl _, List.Subset.refl _,
    Nat.le_refl _⟩

theorem Remains.trans {s t u : State} (h : s.Remains t) (h' : t.Remains u) : s.Remains u where
  signature := h'.signature.trans h.signature
  locals := h.locals.trans h'.locals
  globalNames := List.Subset.trans h.globalNames h'.globalNames
  labels := List.Subset.trans h.labels h'.labels
  entry := List.Subset.trans h.entry h'.entry
  errors := Nat.le_trans h.errors h'.errors

theorem Remains.names {s s' : State} (h : s.Remains s') :
    s.frame.locals.names ⊆ s'.frame.locals.names := (h.locals.map _).subset

variable {k : Names} {s s' : State}

theorem Grows.remains (h : Grows k s s') : s.Remains s' := by
  have hrefl := Remains.refl s
  have happend (l : Label) (is : List Instr) :
      s.frame.body.labels ⊆ (s.frame.body.append l is).labels := by
    rw [Body.labels_congr (Body.flow_append ..)]
    exact List.Subset.refl _
  cases h with
  | @absorb e h =>
    exact { hrefl with
      labels := happend _ _
      entry := Body.codeAt_subset_append _ _ _ _
      errors := (s.straight_absorb e).progress.errorCount_le }
  | declareLocal hfree hlocal hname =>
    refine { hrefl with
      locals := ?_, labels := happend _ _, entry := Body.codeAt_subset_append _ _ _ _ }
    change s.frame.locals.symbols <+: (s.frame.locals.declare _).symbols
    rw [Scope.symbols_declare hfree]
    exact List.prefix_append _ _
  | declareGlobal | goto hl => exact { hrefl with }
  | declareName hfree hname =>
    exact { hrefl with globalNames := List.subset_append_left _ _ }
  | count hextends hscope => exact { hrefl with errors := hextends.errorCount_le }
  | @close t ht htargets =>
    have hlabels := Body.labels_close s.frame.body t
    have hentry : (s.mapBody (·.close t)).entry = s.entry := Body.codeAt_close
    exact { hrefl with
      labels := fun l hl => hlabels ▸ hl
      entry := fun i hi => hentry ▸ hi }
  | @create labels hfresh hnodup hgiven =>
    have hlabels := Body.labels_create s.frame.body labels
    have hentry : (s.mapBody (·.create labels)).entry = s.entry := Body.codeAt_create
    exact { hrefl with
      labels := fun l hl => hlabels ▸ List.mem_append_left _ hl
      entry := fun i hi => hentry ▸ hi }

/-- The state of a body whose code keeps to the discipline, and whose labels have been given out. -/
structure Disciplined (k : Names) (s : State) : Prop where
  body : s.frame.body.Disciplined
  given : ∀ l ∈ s.frame.body.labels, used s.progress l
  frame : s.frame.Kept k
  globals : ∀ symbol ∈ s.progress.scope.symbols, ∃ immutable, symbol.storage = .module immutable

theorem Disciplined.absorb (hs : s.Disciplined k) {e : Emission}
    (h : ReflTransGen (Emission.Grows s.spot) s.emission e) : (s.absorb e).Disciplined k := by
  have hflows : e.Flows s.spot s.frame.body.register := (Emission.flows_start _ _ _).steps h
  have huses : ∀ i ∈ e.instrs, ∃ code, i.operation.Uses code s.entry := by
    intro i hi
    obtain ⟨n, hn⟩ := List.mem_iff_getElem?.mp hi
    exact ⟨_, hflows.uses n i hn⟩
  have hplain : ∀ i ∈ e.instrs, i.isAlloca = false := by
    intro i hi
    obtain ⟨code, h⟩ := huses i hi
    exact h.isAlloca i.result
  have hlabels : (s.absorb e).frame.body.labels = s.frame.body.labels :=
    Body.labels_congr (Body.flow_append ..)
  refine ⟨?_, ?_, { hs.frame with cells := ?_ }, hs.globals⟩
  · refine hs.body.append hs.body.current rfl rfl ?_ ?_ (fun _ => hplain) hflows.single
      hflows.fresh hflows.le
    · exact hflows.uses.imp fun before i _ h => h.inputs
    · intro i hi
      obtain ⟨code, h⟩ := huses i hi
      exact h.address
  · intro l hl
    rw [hlabels] at hl
    exact hs.given l hl
  · -- No cell is among the new code, so the cells are the same.
    have hnone : e.instrs.filter (·.isAlloca) = [] :=
      List.filter_eq_nil_iff.mpr fun i hi => Bool.eq_false_iff.mp (hplain i hi)
    have hentry : ((s.absorb e).frame.body.codeAt .entry).filter (·.isAlloca) =
        (s.frame.body.codeAt .entry).filter (·.isAlloca) := by
      refine (congrArg _ (Body.codeAt_append hs.body.current)).trans ?_
      split
      · rw [List.filter_append, hnone, List.append_nil]
      · rfl
    rw [hentry]
    exact hs.frame.cells

theorem Disciplined.declareLocal (hs : s.Disciplined k) {name : String} (type : ValueType)
    (hfree : s.frame.locals.find? name = none) (hlocal : s.frame.isLocal name = true)
    (hname : k.assigned name) :
    (Lower.after (Lower.declareLocal name type) s).Disciplined k := by
  set s' := Lower.after (Lower.declareLocal name type) s
  set symbol : Symbol := ⟨name, type, .stack s.frame.body.register⟩
  set cell : Instr := ⟨some s.frame.body.register, .alloca type.ir⟩
  obtain ⟨hsignature, hnotGlobal⟩ := Bool.and_eq_true_iff.mp hlocal
  have hsymbols : s'.frame.locals.symbols = s.frame.locals.symbols ++ [symbol] :=
    Scope.symbols_declare hfree
  have hnames : s'.frame.locals.names = s.frame.locals.names ++ [name] := by
    unfold Scope.names
    rw [hsymbols, List.map_append]
    rfl
  have hlabels : s'.frame.body.labels = s.frame.body.labels :=
    Body.labels_congr (Body.flow_append ..)
  refine ⟨?_, ?_, ⟨?_, ?_, ?_, hs.frame.declared, ?_, ?_⟩, hs.globals⟩
  · have hcell : Sequential (fun before i => ∀ x ∈ i.operation.inputs,
        x.Computed (s.frame.body.codeAt .entry ++ before)) [cell] :=
      Ir.sequential_singleton (List.forall_mem_nil _)
    refine hs.body.append hs.body.entry rfl rfl hcell ?_ (fun hne => ?_)
      (List.nodup_singleton _) ?_ (Nat.le_succ _)
    · intro i hi a ha
      rw [List.mem_singleton.mp hi] at ha
      cases ha
    · exact absurd rfl hne
    · intro r hr
      rw [List.mem_singleton.mp hr]
      exact ⟨Nat.le_refl _, Nat.lt_succ_self _⟩
  · intro l hl
    rw [hlabels] at hl
    exact hs.given l hl
  · -- The variable and its cell both come last.
    have hentry : s'.frame.body.codeAt .entry = s.frame.body.codeAt .entry ++ [cell] :=
      (Body.codeAt_append hs.body.entry).trans (if_pos rfl)
    rw [hsymbols, hentry, List.map_append, List.filter_append, List.map_append, hs.frame.cells]
    rfl
  · rw [hnames]
    apply hs.frame.single.append (List.nodup_singleton _)
    intro other hother hmem
    rw [List.mem_singleton.mp hmem] at hother
    exact Scope.find?_eq_none_iff.mp hfree hother
  · rw [hnames]
    intro other hother
    rcases List.mem_append.mp hother with hother | hother
    · exact hs.frame.assigned other hother
    · rwa [List.mem_singleton.mp hother]
  · rw [hnames]
    intro other hother
    rcases List.mem_append.mp hother with hother | hother
    · exact hs.frame.apart other hother
    · have hnot : name ∉ s.frame.globalNames := by simpa using hnotGlobal
      rwa [List.mem_singleton.mp hother]
  · intro hnone
    have hnone : s.frame.signature = none := hnone
    rw [hnone] at hsignature
    cases hsignature

theorem Grows.disciplined (h : Grows k s s') (hs : s.Disciplined k) : s'.Disciplined k := by
  -- Code in the entry matters to the frame, and nothing else of the body.
  have hframe {b : Body} (h : b.codeAt .entry = s.frame.body.codeAt .entry) :
      ({ s.frame with body := b } : Frame).Kept k :=
    { hs.frame with
      cells := by
        rw [h]
        exact hs.frame.cells }
  cases h with
  | absorb h => exact hs.absorb h
  | declareLocal hfree hlocal hname => exact hs.declareLocal _ hfree hlocal hname
  | declareGlobal =>
    refine ⟨hs.body, hs.given, hs.frame, fun symbol hsymbol => ?_⟩
    rcases Scope.mem_declare hsymbol with hsymbol | rfl
    · exact hs.globals symbol hsymbol
    · exact ⟨_, rfl⟩
  | declareName hfree hname =>
    refine ⟨hs.body, hs.given, { hs.frame with declared := ?_, apart := ?_ }, hs.globals⟩
    · intro other hother
      rcases List.mem_append.mp hother with hother | hother
      · exact hs.frame.declared other hother
      · rwa [List.mem_singleton.mp hother]
    · intro other hother hmem
      rcases List.mem_append.mp hmem with hmem | hmem
      · exact hs.frame.apart other hother hmem
      · rw [List.mem_singleton.mp hmem] at hother
        exact Scope.find?_eq_none_iff.mp hfree hother
  | count hextends hscope =>
    refine ⟨hs.body, fun l hl => used_mono hextends (hs.given l hl), hs.frame, ?_⟩
    intro symbol hsymbol
    exact hs.globals symbol (hscope ▸ hsymbol)
  | @close t ht htargets =>
    refine ⟨hs.body.close ht htargets, fun l hl => ?_, hframe Body.codeAt_close, hs.globals⟩
    have hl : l ∈ (s.frame.body.close t).labels := hl
    rw [Body.labels_close] at hl
    exact hs.given l hl
  | @create labels hfresh hnodup hgiven =>
    refine ⟨hs.body.create hfresh hnodup, fun l hl => ?_, hframe Body.codeAt_create, hs.globals⟩
    have hl : l ∈ (s.frame.body.create labels).labels := hl
    rw [Body.labels_create] at hl
    exact (List.mem_append.mp hl).elim (hs.given l) (hgiven l)
  | goto hl => exact ⟨hs.body.goto hl, hs.given, hframe rfl, hs.globals⟩

end State

end Lowering

end BoardPython
