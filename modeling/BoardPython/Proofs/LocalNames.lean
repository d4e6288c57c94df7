import BoardPython.Proofs.ModuleNames
import BoardPython.Proofs.WellFormedBlocks

/-! The names inside of a function. Parameters and blocks share one namespace; parameters are named
by the program and blocks are numbered through the whole of it, so that which names clash can be
told from the source: `local_identifiers_nodup_iff`. -/
namespace BoardPython

/-- How many branches, loops and returns there are. -/
structure Tally where
  ifs : Nat
  whiles : Nat
  returns : Nat
  deriving DecidableEq

namespace Tally

instance : Zero Tally := ⟨⟨0, 0, 0⟩⟩

instance : Add Tally := ⟨fun a b => ⟨a.ifs + b.ifs, a.whiles + b.whiles, a.returns + b.returns⟩⟩

variable (a b c : Tally)

@[simp] theorem ifs_add : (a + b).ifs = a.ifs + b.ifs := rfl

@[simp] theorem whiles_add : (a + b).whiles = a.whiles + b.whiles := rfl

@[simp] theorem returns_add : (a + b).returns = a.returns + b.returns := rfl

theorem zero_add : 0 + a = a := by
  change Tally.mk _ _ _ = a
  simp only [show (0 : Tally) = ⟨0, 0, 0⟩ from rfl, Nat.zero_add]

theorem add_assoc : a + b + c = a + (b + c) := by
  change Tally.mk _ _ _ = Tally.mk _ _ _
  simp only [ifs_add, whiles_add, returns_add, Nat.add_assoc]

end Tally

mutual

def Stmt.tally : Stmt → Tally
  | .branch _ _ yes no => ⟨1, 0, 0⟩ + tallyAll yes + tallyAll no
  | .loop _ _ body => ⟨0, 1, 0⟩ + tallyAll body
  | .ret .. => ⟨0, 0, 1⟩
  | .define _ _ _ _ body => tallyAll body
  | _ => 0

def tallyAll : List Stmt → Tally
  | [] => 0
  | st :: rest => st.tally + tallyAll rest

end

theorem tallyAll_append (ss ss' : List Stmt) :
    tallyAll (ss ++ ss') = tallyAll ss + tallyAll ss' := by
  induction ss with
  | nil =>
    rw [tallyAll, Tally.zero_add]
    rfl
  | cons st ss ih => rw [List.cons_append, tallyAll, tallyAll, ih, Tally.add_assoc]

namespace Ir

def Label.Between (a b : Tally) : Label → Prop
  | .entry => False
  | .ifThen n | .ifElse n | .ifMerge n => a.ifs < n ∧ n ≤ b.ifs
  | .whileCond n | .whileBody n | .whileExit n => a.whiles < n ∧ n ≤ b.whiles
  | .afterReturn n => a.returns < n ∧ n ≤ b.returns

theorem Label.between_add_add (l : Label) (a b c : Tally) :
    l.Between a (a + (b + c)) ↔ l.Between a (a + b) ∨ l.Between (a + b) (a + b + c) := by
  cases l <;> simp only [Between, Tally.ifs_add, Tally.whiles_add, Tally.returns_add, false_or] <;>
    omega

theorem Label.not_between_self (l : Label) (a : Tally) : ¬ l.Between a a := by
  intro h
  cases l <;> simp only [Between] at h <;> omega

/-- The labels of the blocks in a function, with what comes before it and what is in it. -/
def blockLabels (before inside : Tally) : List Label :=
  .entry ::
    (List.range' (before.ifs + 1) inside.ifs).flatMap
      (fun n => [.ifThen n, .ifElse n, .ifMerge n]) ++
    (List.range' (before.whiles + 1) inside.whiles).flatMap
      (fun n => [.whileCond n, .whileBody n, .whileExit n]) ++
    (List.range' (before.returns + 1) inside.returns).map .afterReturn

theorem mem_blockLabels_iff {l : Label} {before inside : Tally} :
    l ∈ blockLabels before inside ↔ l = .entry ∨ l.Between before (before + inside) := by
  cases l <;> simp [blockLabels, Label.Between] <;> omega

theorem localName_injective : Function.Injective localName :=
  fun _ _ h => nameText_injective (String.append_right_inj _ |>.mp h)

/-- The names of a function's parameters and blocks, as they are written. -/
def Function.localIdentifiers (f : Function) : List String :=
  (f.params.filterMap (·.name) ++ f.blocks.map (·.label.text)).map localName

end Ir

namespace Lowering

open Ir (Label Function Operand)

def Progress.tally (p : Progress) : Tally := ⟨p.ifs, p.whiles, p.returns⟩

/-- From one state to another, numbers are given out for a tally, and blocks are made with the
labels that have them. -/
structure State.Numbers (s s' : State) (t : Tally) : Prop where
  tally : s'.progress.tally = s.progress.tally + t
  labels : ∀ l, l ∈ s'.frame.body.labels ↔
    l ∈ s.frame.body.labels ∨ l.Between s.progress.tally s'.progress.tally

section Numbers

variable {s s1 s2 : State} {t t' : Tally}

theorem State.Numbers.trans (h : s.Numbers s1 t) (h' : s1.Numbers s2 t') :
    s.Numbers s2 (t + t') := by
  have htally : s2.progress.tally = s.progress.tally + (t + t') := by
    rw [h'.tally, h.tally, Tally.add_assoc]
  refine ⟨htally, fun l => ?_⟩
  rw [h'.labels, h.labels, htally, h.tally, Label.between_add_add, Tally.add_assoc, or_assoc]

structure State.SameBlocks (s s' : State) : Prop where
  tally : s'.progress.tally = s.progress.tally
  labels : s'.frame.body.labels = s.frame.body.labels

theorem Lower.plain_sameBlocks : Lower.Plain State.SameBlocks where
  refl _ := ⟨rfl, rfl⟩
  trans _ _ _ h h' := ⟨h'.tally.trans h.tally, h'.labels.trans h.labels⟩
  absorb _ _ := ⟨rfl, Body.labels_congr (Body.flow_append _ _ _)⟩
  declareLocal _ _ _ := ⟨rfl, Body.labels_congr (Body.flow_append _ _ _)⟩
  declareGlobal _ _ _ _ := ⟨rfl, rfl⟩
  globalNames _ _ := ⟨rfl, rfl⟩

theorem State.SameBlocks.numbers (h : s.SameBlocks s1) : s.Numbers s1 0 := by
  refine ⟨h.tally, fun l => ?_⟩
  rw [h.labels, h.tally]
  simp [Label.not_between_self]

theorem State.Numbers.map (h : s.Numbers s1 t) {f : Body → Body}
    (hf : (f s1.frame.body).labels = s1.frame.body.labels) : s.Numbers (s1.mapBody f) t := by
  have hsame : s1.SameBlocks (s1.mapBody f) := ⟨rfl, hf⟩
  exact h.trans hsame.numbers

theorem State.numbers_of_labels {new : List Label}
    (htally : s1.progress.tally = s.progress.tally + t)
    (hlabels : s1.frame.body.labels = s.frame.body.labels ++ new)
    (hnew : ∀ l, l ∈ new ↔ l.Between s.progress.tally (s.progress.tally + t)) :
    s.Numbers s1 t := by
  refine ⟨htally, fun l => ?_⟩
  rw [hlabels, List.mem_append, hnew, htally]

end Numbers

theorem mem_branch_iff (a : Tally) (l : Label) :
    l ∈ [Label.ifThen (a.ifs + 1), .ifElse (a.ifs + 1), .ifMerge (a.ifs + 1)] ↔
      l.Between a (a + ⟨1, 0, 0⟩) := by
  cases l <;> simp [Label.Between] <;> omega

theorem mem_loop_iff (a : Tally) (l : Label) :
    l ∈ [Label.whileCond (a.whiles + 1), .whileBody (a.whiles + 1), .whileExit (a.whiles + 1)] ↔
      l.Between a (a + ⟨0, 1, 0⟩) := by
  cases l <;> simp [Label.Between] <;> omega

theorem mem_ret_iff (a : Tally) (l : Label) :
    l ∈ [Label.afterReturn (a.returns + 1)] ↔ l.Between a (a + ⟨0, 0, 1⟩) := by
  cases l <;> simp [Label.Between]
  omega

namespace Lower

variable {env : Environment} {s s' : State}

theorem numbers_simple {st : Stmt} (hst : isSimple st = true) (h : stmt env st s = .ok () s') :
    s.Numbers s' 0 :=
  ((plain_sameBlocks.stmt hst).of_ok h).numbers

mutual

theorem numbers_stmt : ∀ (st : Stmt) {s s' : State}, stmt env st s = .ok () s' →
    s'.progress.errors ≤ s.progress.errors → s.Numbers s' st.tally
  | .branch pos cond yes no, s, s', h, hno => by
    obtain ⟨id, x, s1, s3, s5, hid, hx, h3, he3, h5, he5, rfl⟩ := branch_eq_ok h hno
    have hcond := (plain_sameBlocks.condition cond).of_ok hx
    have henter : s.Numbers (s1.mapBody (Body.enterThen id x)) ⟨1, 0, 0⟩ := by
      refine State.numbers_of_labels hcond.tally ?_ (mem_branch_iff s.progress.tally)
      change ((s1.frame.body.create _).close _).labels = _
      rw [Body.labels_close, Body.labels_create, hcond.labels, hid]
      rfl
    rw [Stmt.tally]
    have hyes : s.Numbers (s3.mapBody (Body.leaveBranch id (.ifElse id))) _ :=
      (henter.trans (numbers_stmts yes h3 he3)).map (Body.labels_finish _ _)
    exact (hyes.trans (numbers_stmts no h5 he5)).map (Body.labels_finish _ _)
  | .loop pos cond body, s, s', h, hno => by
    obtain ⟨id, x, s1, s3, hid, hx, h3, he3, rfl⟩ := loop_eq_ok h hno
    have hcond := (plain_sameBlocks.condition cond).of_ok hx
    have henter : s.Numbers (s1.mapBody (Body.enterLoopBody id x)) ⟨0, 1, 0⟩ := by
      refine State.numbers_of_labels hcond.tally ?_ (mem_loop_iff s.progress.tally)
      change (s1.frame.body.close _).labels = _
      rw [Body.labels_close, hcond.labels]
      change ((s.frame.body.create _).close _).labels = _
      rw [Body.labels_close, Body.labels_create, hid]
      rfl
    rw [Stmt.tally]
    exact (henter.trans (numbers_stmts body h3 he3)).map (Body.labels_finish _ _)
  | .ret pos e, s, s', h, _ => by
    rw [stmt] at h
    obtain ⟨s1, x, hsame, rfl⟩ := plain_sameBlocks.ret_eq_ok h
    have hnext : s1.Numbers ((after nextReturn s1).mapBody
        (Body.leave (s1.progress.returns + 1) x)) ⟨0, 0, 1⟩ := by
      refine State.numbers_of_labels rfl ?_ (mem_ret_iff s1.progress.tally)
      change ((s1.frame.body.close _).create _).labels = _
      rw [Body.labels_create, Body.labels_close]
      rfl
    have hall := hsame.numbers.trans hnext
    rwa [Tally.zero_add] at hall
  | .define pos name params returns body, s, s', h, _ => by
    rw [stmt] at h
    cases h
  | .evaluate .., s, s', h, _ | .pass .., s, s', h, _ | .globals .., s, s', h, _
  | .assign .., s, s', h, _ | .augment .., s, s', h, _ => numbers_simple rfl h

theorem numbers_stmts : ∀ (ss : List Stmt) {s s' : State}, stmts env ss s = .ok () s' →
    s'.progress.errors ≤ s.progress.errors →
    s.Numbers s' (tallyAll ss)
  | [], s, s', h, _ => by
    rw [stmts] at h
    obtain ⟨-, rfl⟩ := pure_eq_ok h
    exact (plain_sameBlocks.refl _).numbers
  | st :: ss, s, s', h, hno => by
    obtain ⟨s1, h1, -, he1, h2, he2⟩ := cons_eq_ok h hno
    rw [tallyAll]
    exact (numbers_stmt st h1 he1).trans (numbers_stmts ss h2 he2)

end

end Lower

theorem Definition.MadeFrom.tally_body {d : Definition} {f : Function} {st : Stmt}
    (h : d.MadeFrom f st) : tallyAll d.body = st.tally := by
  cases st with
  | define pos name params returns body => rw [Stmt.tally, h.2.2.1]
  | _ => exact h.elim

theorem Definition.numbers_lower {env : Environment} {d : Definition} {p : Progress} {s' : State}
    (h : d.lower env ⟨p, .ofSignature d.signature⟩ = .ok () s')
    (hno : s'.progress.errors ≤ p.errors) :
    State.Numbers ⟨p, .ofSignature d.signature⟩ s' (tallyAll d.body) := by
  rw [Definition.lower_eq] at h
  obtain ⟨_, s1, h1, h⟩ := bind_eq_ok h
  obtain ⟨_, s2, h2, h⟩ := bind_eq_ok h
  cases h
  have hext := (d.straight_prologue.of_ok h1).progress
  have hprologue := ((stays_prologue Lower.plain_sameBlocks.toEmits Lower.plain_sameBlocks.declareLocal d).of_ok h1).numbers
  have hbody := Lower.numbers_stmts d.body h2 (Nat.le_trans hno hext.errorCount_le)
  have hall := hprologue.trans hbody
  rw [Tally.zero_add] at hall
  exact hall.map (Body.labels_finish _ _)

namespace Compilation

variable {c : Compilation} {unit : List Stmt} {i : Nat}

variable {f : Function} {d : Definition} {st : Stmt}

theorem tally_lowerItem {functions : List Function} {place : Nat} {item : Item}
    (hitem : item.Stands functions place st)
    (hno : (c.lowerItem item).progress.errors ≤ c.progress.errors) :
    (c.lowerItem item).progress.tally = c.progress.tally + st.tally := by
  cases item with
  | statement s =>
    obtain ⟨rfl, -⟩ := hitem
    exact (Lower.numbers_stmt s (lowerTop_eq_ok hno) hno).tally
  | definition d =>
    obtain ⟨-, f, -, hmade⟩ := hitem
    rw [lowerItem, lowerDefinition_eq] at hno ⊢
    rw [(d.numbers_lower (c.lower_eq_bodyState d) hno).tally, hmade.tally_body]

theorem tally_atItem
    (hno : (c.lowerUnit unit).progress.errors ≤ c.progress.errors)
    (hi : i ≤ unit.length) :
    (c.atItem unit i).progress.tally = c.progress.tally + tallyAll (unit.take i) := by
  induction i with
  | zero =>
    obtain ⟨added, hadded⟩ := (declares_declareAll unit c).progress
    change (c.declareAll unit).1.progress.tally = _
    rw [hadded]
    rfl
  | succ i ih =>
    obtain ⟨item, hitem, hstands⟩ := item_declareAll unit c
      (Nat.le_trans (c.errorCount_declareAll_le unit) hno) (List.getElem?_eq_getElem hi)
    rw [atItem_succ hitem, tally_lowerItem hstands (errorCount_lowerItem_le hitem hno),
      ih (Nat.le_of_succ_le hi), List.take_succ_eq_append_getElem hi, tallyAll_append,
      Tally.add_assoc]
    rfl

theorem tally_lowerUnits (units : List (List Stmt)) (c : Compilation)
    (hno : (units.foldl lowerUnit c).progress.errors ≤
      c.progress.errors) :
    (units.foldl lowerUnit c).progress.tally = c.progress.tally + tallyAll units.flatten := by
  induction units generalizing c with
  | nil => rfl
  | cons unit units ih =>
    rw [List.foldl_cons] at hno ⊢
    obtain ⟨hfirst, hrest⟩ := errors_le_of_cons hno
    rw [ih (c.lowerUnit unit) hrest, progress_lowerUnit, tally_atItem hfirst (Nat.le_refl _),
      List.take_length, List.flatten_cons, tallyAll_append, Tally.add_assoc]

theorem Compiled.mem_labels_iff (h : c.Compiled unit i st d f)
    (l : Label) : l ∈ f.blocks.map (·.label) ↔
      l ∈ Ir.blockLabels (c.atItem unit i).progress.tally st.tally := by
  have hblocks := h.blocks
  have hnumbers := d.numbers_lower ((c.atItem unit i).lower_eq_bodyState d) h.noError
  have hlabels := hnumbers.labels l
  rw [Ir.mem_blockLabels_iff, hblocks, ← h.made.tally_body]
  rw [hnumbers.tally] at hlabels
  simpa [Body.labels, Frame.ofSignature, Body.start] using hlabels

theorem Compiled.nodup_labels
    (h : c.Compiled unit i st d f) : (f.blocks.map (·.label.text)).Nodup := by
  rw [h.blocks]
  exact (Definition.wellFormed_lower ((c.atItem unit i).lower_eq_bodyState d) h.noError).labels

variable {pos : Position} {name : String} {params : List Param} {returns : Option String}
  {body : List Stmt}

theorem Compiled.params_eq (h : c.Compiled unit i (.define pos name params returns body) d f) :
    f.params.map (·.name) = params.map fun p => some p.name := by
  rw [h.made.params_eq, h.made.2.1, List.map_map]
  rfl

theorem Compiled.nodup_localIdentifiers_iff
    (h : c.Compiled unit i (.define pos name params returns body) d f) :
    f.localIdentifiers.Nodup ↔ ∀ p ∈ params, p.name ∉
      (Ir.blockLabels (c.atItem unit i).progress.tally (tallyAll body)).map Label.text := by
  have hnames : f.params.filterMap (·.name) = params.map (·.name) := by
    have hmap := congrArg (List.filterMap id) h.params_eq
    simpa [List.filterMap_map, Function.comp_def] using hmap
  have hnodup : (params.map (·.name)).Nodup := h.made.2.1 ▸ h.made.1.nodup
  -- The texts of two lists of labels are the same, since the labels are.
  have hlabels (text : String) : text ∈ f.blocks.map (·.label.text) ↔
      text ∈ (Ir.blockLabels (c.atItem unit i).progress.tally (tallyAll body)).map Label.text := by
    have hmem := h.mem_labels_iff
    rw [Stmt.tally] at hmem
    simp only [List.mem_map] at hmem ⊢
    constructor
    · rintro ⟨b, hb, rfl⟩
      exact ⟨_, (hmem _).mp ⟨b, hb, rfl⟩, rfl⟩
    · rintro ⟨l, hl, rfl⟩
      obtain ⟨b, hb, rfl⟩ := (hmem l).mpr hl
      exact ⟨b, hb, rfl⟩
  unfold Function.localIdentifiers
  rw [List.nodup_map_iff Ir.localName_injective, List.nodup_append', hnames]
  constructor
  · rintro ⟨-, -, hdisjoint⟩ p hp hmem
    exact hdisjoint (List.mem_map_of_mem hp) ((hlabels _).mpr hmem)
  · intro hfree
    refine ⟨hnodup, h.nodup_labels, fun text htext hmem => ?_⟩
    obtain ⟨p, hp, rfl⟩ := List.mem_map.mp htext
    exact hfree p hp ((hlabels _).mp hmem)

theorem nodup_localIdentifiers_init {board : Board} {strict : Bool} {operators : Operators}
    {units : List (List Stmt)} {M : Ir.Module}
    (hM : (units.foldl lowerUnit (start board strict operators)).module? = some M)
    (hf : f ∈ M.functions.take (initCallee.id + 1)) : f.localIdentifiers.Nodup := by
  obtain ⟨hno, rfl⟩ := module?_eq_some hM
  have hsound := (sound_start board strict operators).lowerUnits units (by
    rw [hno]
    exact Nat.zero_le _)
  obtain ⟨new, hnew⟩ := functions_lowerUnits units (start board strict operators)
  set c := units.foldl lowerUnit (start board strict operators)
  have hfirst : c.functions.take (initCallee.id + 1) =
      Builtin.all.map Builtin.declaration ++ [⟨initName, .void, [], true, []⟩] := by
    rw [← hnew, List.take_append_of_le_length (by simp [start, initCallee]), List.take_of_length_le]
    · rfl
    · simp [start, initCallee]
  -- These have been there from the start, and only the last of them gets blocks.
  have hall : ∀ f ∈ Builtin.all.map Builtin.declaration ++ [⟨initName, .void, [], true, []⟩],
      f.params.filterMap (·.name) = [] ∧ f.blocks = [] := by decide
  unfold toModule at hf
  dsimp only at hf
  rw [List.take_modify, hfirst] at hf
  unfold Function.localIdentifiers
  rw [List.nodup_map_iff Ir.localName_injective]
  rcases mem_or_of_mem_modify hf with hf | ⟨f0, hf0, rfl⟩
  · rw [(hall f hf).1, (hall f hf).2]
    exact List.nodup_nil
  · rw [(hall f0 hf0).1, List.nil_append]
    have hnodup := hsound.top.body.nodup.map Label.text_injective
    unfold Body.labels at hnodup
    rwa [List.map_map] at hnodup

/-- In an accepted module, the names of the parameters and blocks of a function are different unless
a parameter is named like a block. Functions come in the order of their definitions, and the numbers
in the names of blocks are those of the branches, loops and returns of the whole program. -/
theorem local_identifiers_nodup_iff {board : Board} {strict : Bool} {operators : Operators}
    {units : List (List Stmt)} {M : Ir.Module}
    (hM : (units.foldl lowerUnit (start board strict operators)).module? = some M) :
    M.functions.length = initCallee.id + 1 + (definitions units.flatten).length ∧
      (∀ f ∈ M.functions.take (initCallee.id + 1), f.localIdentifiers.Nodup) ∧
      ∀ us unit vs i pos name params returns body, units = us ++ unit :: vs →
        unit[i]? = some (.define pos name params returns body) →
        ∃ f, M.functions[initCallee.id + 1 +
            (definitions (us.flatten ++ unit.take i)).length]? = some f ∧
          f.name = name ∧ f.params.map (·.name) = params.map (fun p => some p.name) ∧
          (f.localIdentifiers.Nodup ↔ ∀ p ∈ params, p.name ∉
            (Ir.blockLabels (tallyAll (us.flatten ++ unit.take i)) (tallyAll body)).map
              Label.text) := by
  refine ⟨?_, fun f hf => nodup_localIdentifiers_init hM hf, ?_⟩
  · obtain ⟨hno, rfl⟩ := module?_eq_some hM
    have hlength := length_functions_lowerUnits units (start board strict operators)
      (Nat.le_trans (Nat.le_of_eq hno) (Nat.zero_le _))
    unfold toModule
    rw [List.length_modify, hlength]
    simp [start, initCallee]
  · rintro us unit vs i pos name params returns body rfl hst
    obtain ⟨d, f, hf, hcompiled⟩ := compiled_of_module? hM hst rfl
    refine ⟨f, hf, congrArg Function.name hcompiled.made.2.2.2, hcompiled.params_eq, ?_⟩
    rw [hcompiled.nodup_localIdentifiers_iff]
    -- The numbers before the definition are those of the statements before it.
    obtain ⟨hno, -⟩ := module?_eq_some hM
    rw [List.foldl_append, List.foldl_cons] at hno
    set c := us.foldl lowerUnit (start board strict operators)
    have hrest := (extends_lowerUnits vs (c.lowerUnit unit)).errorCount_le
    have hunit := (c.extends_lowerUnit unit).errorCount_le
    have hc : c.progress.errors = 0 := by omega
    have hbefore : c.progress.tally = tallyAll us.flatten := by
      have htally := tally_lowerUnits us (start board strict operators)
        (Nat.le_trans (Nat.le_of_eq hc) (Nat.zero_le _))
      have hzero : (start board strict operators).progress.tally = 0 := rfl
      rwa [hzero, Tally.zero_add] at htally
    have hle : i ≤ unit.length := Nat.le_of_lt (List.getElem?_eq_some_iff.mp hst).1
    rw [tally_atItem (by omega) hle, hbefore, ← tallyAll_append]

section Sample

/-- `def blink(if_then_2): if if_then_2: return` -/
def blinking : List Stmt :=
  [.define ⟨1, 1⟩ "blink" [⟨⟨1, 11⟩, "if_then_2", none⟩] none
    [.branch ⟨2, 5⟩ (.name ⟨2, 8⟩ "if_then_2") [.ret ⟨3, 9⟩ none] []]]

/-- `def wait(if_then_1, entry_2): while if_then_1: if entry_2: return`, with the name of a block of
the function before. -/
def waiting : List Stmt :=
  [.define ⟨1, 1⟩ "wait" [⟨⟨1, 10⟩, "if_then_1", none⟩, ⟨⟨1, 21⟩, "entry_2", none⟩] none
    [.loop ⟨2, 5⟩ (.name ⟨2, 11⟩ "if_then_1")
      [.branch ⟨3, 9⟩ (.name ⟨3, 12⟩ "entry_2") [.ret ⟨4, 13⟩ none] []]]]

theorem blinking_waiting_nodup :
    ∃ M, ([blinking, waiting].foldl lowerUnit (start .uno true .numeric)).module? = some M ∧
      ∃ f g, M.functions[initCallee.id + 1]? = some f ∧ M.functions[initCallee.id + 2]? = some g ∧
        f.name = "blink" ∧ g.name = "wait" ∧ f.localIdentifiers.Nodup ∧
        g.localIdentifiers.Nodup := by
  have hno : ([blinking, waiting].foldl lowerUnit
      (start .uno true .numeric)).diagnostics.hasErrors = false := by
    decide +kernel
  have hM : ([blinking, waiting].foldl lowerUnit (start .uno true .numeric)).module? = some _ :=
    if_neg (Bool.eq_false_iff.mp hno)
  obtain ⟨-, -, hdefined⟩ := local_identifiers_nodup_iff hM
  obtain ⟨f, hf, hfname, -, hfiff⟩ := hdefined [] blinking [waiting] 0 _ _ _ _ _ rfl rfl
  obtain ⟨g, hg, hgname, -, hgiff⟩ := hdefined [blinking] waiting [] 0 _ _ _ _ _ rfl rfl
  exact ⟨_, hM, f, g, hf, hg, hfname, hgname, hfiff.mpr (by decide), hgiff.mpr (by decide)⟩

/-- A source gives a module with a function in which a name stands for two things. -/
def LocalClash (source : Bytes) : Prop :=
  ∃ M, ((start .uno true .numeric).addSources [source]).module? = some M ∧
    ∃ f ∈ M.functions, ¬ f.localIdentifiers.Nodup

theorem localClash_of_accepted {source : Bytes}
    (h : ((start .uno true .numeric).addSources [source]).diagnostics.hasErrors = false ∧
      ∃ f ∈ ((start .uno true .numeric).addSources [source]).toModule.functions,
        ¬ f.localIdentifiers.Nodup) : LocalClash source :=
  ⟨_, if_neg (Bool.eq_false_iff.mp h.1), h.2⟩

/-- Parameters can have the names of the entry block and of a block of a branch. -/
theorem accepted_local_names_clash :
    LocalClash (.ofString "def f(entry):\n    pass\n") ∧
      LocalClash (.ofString "def f(if_then_1):\n    if if_then_1:\n        pass\n") := by
  refine ⟨localClash_of_accepted ?_, localClash_of_accepted ?_⟩ <;> decide +kernel

end Sample

end Compilation

end Lowering

end BoardPython
