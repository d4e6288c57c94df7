import BoardPython.Proofs.UnitStages

/-! The blocks of all functions of an accepted module make a well-formed graph. While a function is
lowered, some of its blocks have no end yet: the current one, and those that the statements around it
still have to come to. -/
namespace BoardPython

namespace Ir

/-- A graph of blocks, as the body of a function has to be. -/
structure WellFormed (blocks : List Block) : Prop where
  entry : blocks.head?.map (·.label) = some .entry
  labels : (blocks.map (·.label.text)).Nodup
  ended : ∀ b ∈ blocks, b.terminator.isSome
  targets : ∀ b ∈ blocks, ∀ t ∈ b.terminator, ∀ l ∈ t.targets,
    l ∈ blocks.map (·.label) ∧ l.IsTarget

namespace Label

def stems : List String :=
  ["entry", "if_then_", "if_else_", "if_merge_", "while_cond_", "while_body_", "while_exit_",
    "after_return_"]

/-- The place of a label's stem. -/
def kind : Label → Fin 8
  | entry => 0
  | ifThen _ => 1
  | ifElse _ => 2
  | ifMerge _ => 3
  | whileCond _ => 4
  | whileBody _ => 5
  | whileExit _ => 6
  | afterReturn _ => 7

def id? : Label → Option Nat
  | entry => none
  | ifThen id | ifElse id | ifMerge id | whileCond id | whileBody id | whileExit id
  | afterReturn id => some id

def stem (kind : Fin 8) : List Char := (stems.get kind).toList

theorem toList_text (l : Label) :
    l.text.toList = stem l.kind ++ l.id?.elim [] (·.repr.toList) := by
  have happend (stem : String) (id : Nat) :
      (toString stem ++ toString id).toList = stem.toList ++ id.repr.toList :=
    String.toList_append
  cases l with
  | entry => rfl
  | ifThen id | ifElse id | ifMerge id | whileCond id | whileBody id | whileExit id
  | afterReturn id => exact happend _ id

theorem id?_eq_none_iff (l : Label) : l.id? = none ↔ l.kind = 0 := by
  cases l <;> simp [id?, kind]

theorem eq_of_kind {l l' : Label} (h : l.kind = l'.kind) (hid : l.id? = l'.id?) : l = l' := by
  cases l <;> cases l' <;> simp_all [kind, id?]

theorem take_text (l : Label) : l.text.toList.take 7 = (stem l.kind).take 7 := by
  rw [toList_text]
  have hlong : ∀ k, k ≠ 0 → 7 ≤ (stem k).length := by decide
  cases hid : l.id? with
  | none => simp
  | some id =>
    apply List.take_append_of_le_length
    apply hlong
    rw [ne_eq, ← id?_eq_none_iff, hid]
    simp

theorem text_injective : Function.Injective Label.text := by
  intro l l' h
  -- The kind of a label is told by the start of its text, and its number by the rest.
  have hstems : ∀ k k', (stem k).take 7 = (stem k').take 7 → k = k' := by decide
  have hkind : l.kind = l'.kind := by
    apply hstems
    rw [← take_text, ← take_text, h]
  have hnumbers : l.id?.elim [] (·.repr.toList) = l'.id?.elim [] (·.repr.toList) := by
    have htexts := congrArg String.toList h
    rw [toList_text, toList_text, hkind] at htexts
    exact List.append_cancel_left htexts
  apply eq_of_kind hkind
  cases hid : l.id? with
  | none =>
    have hzero := (id?_eq_none_iff l).mp hid
    exact ((id?_eq_none_iff l').mpr (hkind ▸ hzero)).symm
  | some id =>
    cases hid' : l'.id? with
    | none =>
      have hzero := (id?_eq_none_iff l').mp hid'
      rw [(id?_eq_none_iff l).mpr (hkind.trans hzero)] at hid
      cases hid
    | some id' =>
      rw [hid, hid'] at hnumbers
      rw [Nat.repr_inj.mp (String.toList_inj.mp hnumbers)]

end Label

end Ir

namespace Lowering

open Ir (Instr Label Operand Terminator WellFormed)

namespace Body

section Tidy

variable {b : Body}

theorem Tidy.wellFormed (h : b.Tidy []) : WellFormed b.blocks where
  entry := by
    have hentry := h.entry
    unfold labels at hentry
    rwa [List.head?_map] at hentry
  labels := by
    have hnodup := h.nodup.map Label.text_injective
    unfold Body.labels at hnodup
    rwa [List.map_map] at hnodup
  ended := by
    intro block hblock
    cases ht : block.terminator with
    | some t => rfl
    | none =>
      have hmem : (block.label, none) ∈ b.flow := by
        rw [← ht]
        exact List.mem_map_of_mem hblock
      cases h.ended _ hmem
  targets := by
    intro block hblock t ht
    have hmem : (block.label, some t) ∈ b.flow := by
      rw [← Option.mem_def.mp ht]
      exact List.mem_map_of_mem hblock
    exact h.targets _ t hmem

end Tidy

end Body

/-- A state in which only the current block has no end yet, and labels that have not been given out are
free. -/
structure State.Tidy (s : State) : Prop extends s.Given where
  body : s.frame.body.Tidy [s.frame.body.current]

theorem State.tidy_start {s : State} (h : s.frame.body = .start) : s.Tidy :=
  ⟨(State.ready_start h).toGiven, h ▸ Body.tidy_start⟩

theorem Lowered.tidies {s s' : State} {os : List Ir.Outline} (h : Lowered s s' os) (hs : s.Tidy) :
    s'.Tidy :=
  ⟨h.given, h.tidy [] hs.body⟩

theorem State.Tidy.extend {s : State} {p : Progress} (hs : s.Tidy) (h : s.progress.Extends p) :
    State.Tidy ⟨p, s.frame⟩ :=
  ⟨⟨hs.current, fun l hl => used_mono h (hs.labels l hl)⟩, hs.body⟩

theorem Definition.wellFormed_lower {env : Environment} {d : Definition} {p : Progress} {s' : State}
    (h : d.lower env ⟨p, .ofSignature d.signature⟩ = .ok () s')
    (hno : s'.progress.errors ≤ p.errors) :
    WellFormed s'.frame.body.blocks := by
  rw [Definition.lower_eq] at h
  obtain ⟨_, s1, h1, h⟩ := bind_eq_ok h
  obtain ⟨_, s2, h2, h⟩ := bind_eq_ok h
  cases h
  have hstart : State.Tidy ⟨p, .ofSignature d.signature⟩ := State.tidy_start rfl
  have hstraight := d.straight_prologue.of_ok h1
  have hprologue := lowered_of_straight hstart.toGiven hstraight
  have hbody := Lower.lowered_stmts d.body hprologue.given h2
    (Nat.le_trans hno hstraight.progress.errorCount_le)
  have htidy := (hprologue.trans hbody).tidies hstart
  exact (htidy.body.finish (by simp [Terminator.targets])).wellFormed

namespace Compilation

variable {c : Compilation}

theorem tidy_lowerItem (hc : c.state.Tidy) (item : Item)
    (hno : (c.lowerItem item).progress.errors ≤ c.progress.errors) :
    (c.lowerItem item).state.Tidy := by
  cases item with
  | definition d =>
    have htop : (c.lowerItem (.definition d)).top = c.top := c.top_lowerDefinition d
    unfold state
    rw [htop]
    exact hc.extend (c.extends_lowerItem (.definition d))
  | statement st =>
    exact (Lower.lowered_stmt st hc.toGiven (lowerTop_eq_ok hno) hno).tidies hc

theorem tidy_lowerItems (items : List Item) (hc : c.state.Tidy)
    (hno : (items.foldl lowerItem c).progress.errors ≤ c.progress.errors) :
    (items.foldl lowerItem c).state.Tidy := by
  induction items generalizing c with
  | nil => exact hc
  | cons item items ih =>
    rw [List.foldl_cons] at hno ⊢
    have hfirst := (c.extends_lowerItem item).errorCount_le
    have hrest := (extends_lowerItems items (c.lowerItem item)).errorCount_le
    exact ih (tidy_lowerItem hc item (Nat.le_trans hrest hno)) (Nat.le_trans hno hfirst)

/-- Code outside of functions can be gone on with, and functions have well-formed bodies: all but the
builtin ones, which have none, and the one for that code, which gets its body in the end. -/
structure Sound (c : Compilation) : Prop where
  top : c.state.Tidy
  init : initCallee.id < c.functions.length
  bodies : ∀ i f, c.functions[i]? = some f →
    (i < Builtin.all.length → f.blocks = []) ∧ (initCallee.id < i → WellFormed f.blocks)

theorem sound_start (board : Board) (strict : Bool) (operators : Operators) :
    (start board strict operators).Sound where
  top := State.tidy_start rfl
  init := by
    simp [start, initCallee]
  bodies := by
    intro i f hf
    refine ⟨fun _ => blocks_start (List.mem_of_getElem? hf), fun hi => ?_⟩
    have hlt := (List.getElem?_eq_some_iff.mp hf).1
    have hlength : (start board strict operators).functions.length = initCallee.id + 1 := by
      simp [start, initCallee]
    omega

/-- A unit without errors keeps all this, and code outside of functions has its end then. -/
theorem Sound.lowerUnit (hc : c.Sound) (unit : List Stmt)
    (hno : (c.lowerUnit unit).progress.errors ≤ c.progress.errors) :
    (c.lowerUnit unit).Sound ∧ WellFormed (c.lowerUnit unit).top.body.blocks := by
  have hbodies : ∀ i f, (c.lowerUnit unit).functions[i]? = some f →
      (i < Builtin.all.length → f.blocks = []) ∧ (initCallee.id < i → WellFormed f.blocks) := by
    intro i f hf
    rcases function_lowerUnit hno hf with hold | ⟨hle, k, st, d, -, hcompiled⟩
    · exact hc.bodies i f hold
    · have hinit := hc.init
      have hbuiltin : Builtin.all.length ≤ initCallee.id := Nat.le_refl _
      refine ⟨fun hi => by omega, fun _ => ?_⟩
      rw [hcompiled.blocks]
      exact Definition.wellFormed_lower (lower_eq_bodyState _ d) hcompiled.noError
  have hinit := Nat.lt_of_lt_of_le hc.init (c.functions_lowerUnit unit).length_le
  obtain ⟨log, hunit⟩ := c.lowerUnit_eq unit
  have hdeclares := declares_declareAll unit c
  set c1 := (c.declareAll unit).1
  set items := (c.declareAll unit).2
  have hstart : c1.state.Tidy := by
    unfold state
    rw [hdeclares.top]
    exact hc.top.extend hdeclares.progress_extends
  have hno1 : (items.foldl lowerItem c1).progress.errors ≤
      c1.progress.errors := by
    rw [hunit] at hno
    exact Nat.le_trans hno hdeclares.progress_extends.errorCount_le
  have htidy := tidy_lowerItems items hstart hno1
  set c2 := items.foldl lowerItem c1
  -- The code outside of functions gets its end, and goes on in the same block after it.
  have hfinished : (c2.top.body.finish (.ret none)).Tidy [] :=
    htidy.body.finish (by simp [Terminator.targets])
  have hlabels := c2.top.body.labels_finish (.ret none)
  have hcurrent : (c2.top.body.finish (.ret none)).current = c2.top.body.current := by
    unfold Body.finish
    split <;> rfl
  rw [hunit] at hbodies hinit ⊢
  have hthere : (c2.top.body.finish (.ret none)).current ∈
      (c2.top.body.finish (.ret none)).labels := by
    rw [hcurrent, hlabels]
    exact htidy.current
  refine ⟨⟨⟨⟨hthere, fun l hl => htidy.labels l (hlabels ▸ hl)⟩, ?_⟩, hinit, hbodies⟩,
    hfinished.wellFormed⟩
  exact hfinished.mono (List.nil_subset _) (List.cons_subset.mpr ⟨hthere, List.nil_subset _⟩)

theorem Sound.lowerUnits (hc : c.Sound) (units : List (List Stmt))
    (hno : (units.foldl Compilation.lowerUnit c).progress.errors ≤
      c.progress.errors) : (units.foldl Compilation.lowerUnit c).Sound := by
  induction units generalizing c with
  | nil => exact hc
  | cons unit units ih =>
    rw [List.foldl_cons] at hno ⊢
    obtain ⟨hfirst, hrest⟩ := errors_le_of_cons hno
    exact ih (hc.lowerUnit unit hfirst).1 hrest

/-- The graphs of all functions of an accepted module are well-formed, after any units. Builtin
functions have no body; all other functions have one. -/
theorem accepted_graphs_wellFormed {board : Board} {strict : Bool} {operators : Operators}
    {units : List (List Stmt)} {unit : List Stmt} {M : Ir.Module}
    (hM : ((units.foldl lowerUnit (start board strict operators)).lowerUnit unit).module? = some M)
    (i : Nat) (f : Ir.Function) (hf : M.functions[i]? = some f) :
    if i < Builtin.all.length then f.blocks = [] else WellFormed f.blocks := by
  obtain ⟨hno, rfl⟩ := module?_eq_some hM
  have hsound := (sound_start board strict operators).lowerUnits units (by
    have hle := (extends_lowerUnit (units.foldl lowerUnit (start board strict operators))
      unit).errorCount_le
    rw [hno] at hle
    exact Nat.le_trans hle (Nat.zero_le _))
  obtain ⟨hsound', htop⟩ := hsound.lowerUnit unit (by rw [hno]; exact Nat.zero_le _)
  set c := (units.foldl lowerUnit (start board strict operators)).lowerUnit unit
  have hf : (c.functions.modify initCallee.id fun f =>
    { f with blocks := c.top.body.blocks })[i]? = some f := hf
  by_cases hi : initCallee.id = i
  · have hnot : ¬ i < Builtin.all.length := hi ▸ Nat.lt_irrefl _
    rw [if_neg hnot]
    rw [hi, List.getElem?_modify_eq] at hf
    obtain ⟨f0, -, rfl⟩ := Option.map_eq_some_iff.mp hf
    exact htop
  · rw [List.getElem?_modify_ne _ _ hi] at hf
    have hbody := hsound'.bodies i f hf
    split
    · exact hbody.1 ‹_›
    · apply hbody.2
      have hbuiltin : initCallee.id = Builtin.all.length := rfl
      omega

section Sample

/-- A return in a loop, and code outside of functions. -/
def search : List Stmt :=
  (parseSource (.ofString
    "def f(n):\n    while n:\n        if n:\n            return\n        n -= 1\nx = 1\n")).stmts

/-- More code outside of functions, which goes on where the other unit has ended. -/
def countdown : List Stmt :=
  (parseSource (.ofString "while x:\n    f(x)\n    x -= 1\n")).stmts

theorem search_countdown_wellFormed :
    ∃ M, (([search].foldl lowerUnit (start .uno true .numeric)).lowerUnit countdown).module? =
        some M ∧ (M.functions.map (·.blocks.length)).drop Builtin.all.length = [4, 8] ∧
      ∀ f ∈ M.functions.drop Builtin.all.length, WellFormed f.blocks := by
  have hno : (([search].foldl lowerUnit (start .uno true .numeric)).lowerUnit
      countdown).diagnostics.hasErrors = false := by
    decide +kernel
  refine ⟨_, if_neg (Bool.eq_false_iff.mp hno), by decide +kernel, fun f hf => ?_⟩
  obtain ⟨i, hi⟩ := List.mem_iff_getElem?.mp hf
  rw [List.getElem?_drop] at hi
  have hwell := accepted_graphs_wellFormed (if_neg (Bool.eq_false_iff.mp hno)) _ f hi
  rwa [if_neg (by omega)] at hwell

end Sample

end Compilation

end Lowering

end BoardPython
