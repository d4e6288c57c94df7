import BoardPython.Proofs.LoweringSteps

/-! The control flow of lowered statements follows the source. The outline of statements is what
their lowering adds, statement by statement; the blocks of the body lay it out. -/
namespace BoardPython.Lowering

open Ir (Block Instr Label Lays Operand Outline Terminator)

namespace Body

/-- The instructions that have been added to the current block since, without stack cells. -/
def addedSince (b b' : Body) : List Instr :=
  ((b'.block? b.current).elim [] fun block => block.instrs.drop b.point.offset).filter
    (!·.isAlloca)

def returned (b : Body) (label : Label) : Option Operand :=
  match (b.block? label).bind (·.terminator) with
  | some (.ret x) => x
  | _ => none

/-- Ends the current block with a branch whose first part comes next. -/
def enterThen (id : Nat) (x : Operand) (b : Body) : Body :=
  ((b.create [.ifThen id, .ifElse id, .ifMerge id]).close
    (.branch x (.ifThen id) (.ifElse id))).goto (.ifThen id)

def leaveBranch (id : Nat) (next : Label) (b : Body) : Body :=
  (b.finish (.jump (.ifMerge id))).goto next

def leave (id : Nat) (x : Option Operand) (b : Body) : Body :=
  ((b.close (.ret x)).create [.afterReturn id]).goto (.afterReturn id)

def enterLoop (id : Nat) (b : Body) : Body :=
  ((b.create [.whileCond id, .whileBody id, .whileExit id]).close
    (.jump (.whileCond id))).goto (.whileCond id)

/-- Ends the condition of a loop, whose body comes next. -/
def enterLoopBody (id : Nat) (x : Operand) (b : Body) : Body :=
  (b.close (.branch x (.whileBody id) (.whileExit id))).goto (.whileBody id)

def leaveLoop (id : Nat) (b : Body) : Body :=
  (b.finish (.jump (.whileCond id))).goto (.whileExit id)

end Body

namespace Lower

mutual

def outline (env : Environment) : Stmt → State → List Outline
  | .branch _ cond yes no, s =>
    let id := s.progress.ifs + 1
    match condition env cond (after nextIf s) with
    | .ok x s1 =>
      let s2 := s1.mapBody (Body.enterThen id x)
      let s3 := (after (stmts env yes) s2).mapBody (Body.leaveBranch id (.ifElse id))
      [.group (s.frame.body.addedSince s1.frame.body),
        .branch x (outlineAll env yes s2) (outlineAll env no s3)]
    | .error .. => []
  | .loop _ cond body, s =>
    let id := s.progress.whiles + 1
    let s0 := (after nextWhile s).mapBody (Body.enterLoop id)
    match condition env cond s0 with
    | .ok x s1 =>
      [.loop (s0.frame.body.addedSince s1.frame.body) x
        (outlineAll env body (s1.mapBody (Body.enterLoopBody id x)))]
    | .error .. => []
  | .ret pos e, s =>
    let s' := after (stmt env (.ret pos e)) s
    [.group (s.frame.body.addedSince s'.frame.body),
      .ret (s'.frame.body.returned s.frame.body.current)]
  | st, s => [.group (s.frame.body.addedSince (after (stmt env st) s).frame.body)]

/-- What the lowering of statements adds, one after the other. -/
def outlineAll (env : Environment) : List Stmt → State → List Outline
  | [], _ => []
  | st :: ss, s => outline env st s ++ outlineAll env ss (after (reported (stmt env st)) s)

end

end Lower

def used (p : Progress) : Label → Prop
  | .entry => True
  | .ifThen n | .ifElse n | .ifMerge n => n ≤ p.ifs
  | .whileCond n | .whileBody n | .whileExit n => n ≤ p.whiles
  | .afterReturn n => n ≤ p.returns

theorem used_mono {p p' : Progress} (h : p.Extends p') {l : Label} (hl : used p l) : used p' l := by
  cases l with
  | entry => trivial
  | ifThen n | ifElse n | ifMerge n => exact Nat.le_trans hl h.ifs
  | whileCond n | whileBody n | whileExit n => exact Nat.le_trans hl h.whiles
  | afterReturn n => exact Nat.le_trans hl h.returns

section Numbered

variable {p : Progress} {id : Nat}

theorem used_branch (h : id ≤ p.ifs) :
    ∀ l ∈ [Label.ifThen id, .ifElse id, .ifMerge id], used p l := by
  simp [used, h]

theorem used_loop (h : id ≤ p.whiles) :
    ∀ l ∈ [Label.whileCond id, .whileBody id, .whileExit id], used p l := by
  simp [used, h]

theorem not_used_branch (h : id = p.ifs + 1) :
    ∀ l ∈ [Label.ifThen id, .ifElse id, .ifMerge id], ¬ used p l := by
  simp [used, h]

theorem not_used_loop (h : id = p.whiles + 1) :
    ∀ l ∈ [Label.whileCond id, .whileBody id, .whileExit id], ¬ used p l := by
  simp [used, h]

end Numbered

/-- The current block is there, and all labels have been given out. -/
structure State.Given (s : State) : Prop where
  current : s.frame.body.current ∈ s.frame.body.labels
  labels : ∀ l ∈ s.frame.body.labels, used s.progress l

structure State.Ready (s : State) : Prop extends s.Given where
  isOpen : s.frame.body.Open

theorem State.ready_start {s : State} (h : s.frame.body = .start) : s.Ready := by
  refine ⟨⟨?_, fun l hl => ?_⟩, ?_⟩
  · rw [h]
    exact List.mem_singleton_self _
  · rw [h] at hl
    rw [List.mem_singleton.mp hl]
    trivial
  · rw [h]
    exact ⟨⟨.entry, [], none⟩, rfl, rfl⟩

/-- From one state to another, the body gets the layout of an outline, if the current block is open.
The blocks around the current one stay as they are, and those without an end are still the current one
and the same others. -/
structure Lowered (s s' : State) (os : List Outline) : Prop where
  given : s'.Given
  onward : s.frame.body.Onward [] s'.frame.body
  tidy : ∀ rest, s.frame.body.Tidy (s.frame.body.current :: rest) →
    s'.frame.body.Tidy (s'.frame.body.current :: rest)
  lays : s.frame.body.Open → ∀ fin, s'.frame.body.Later fin →
    Lays fin.blocks s.frame.body.point os s'.frame.body.point

section Steps

variable {s s' s'' : State} {os os' : List Outline}

theorem Lowered.ready (h : Lowered s s' os) (hs : s.Ready) : s'.Ready :=
  ⟨h.given, h.onward.isOpen hs.isOpen⟩

theorem Lowered.refl (h : s.Given) : Lowered s s [] where
  given := h
  onward := .refl _
  tidy := fun _ h => h
  lays := fun _ _ _ => .refl _

theorem Lowered.trans (h : Lowered s s' os) (h' : Lowered s' s'' os') :
    Lowered s s'' (os ++ os') where
  given := h'.given
  onward := h.onward.trans h'.onward
  tidy := fun rest hs => h'.tidy rest (h.tidy rest hs)
  lays := by
    intro hopen fin hfin
    have hopen' := h.onward.isOpen hopen
    exact (h.lays hopen fin ((h'.onward.later hopen').trans hfin)).trans (h'.lays hopen' fin hfin)

theorem Lowered.walkFrom_iff (h : Lowered s s' os) (hs : s.Ready) (x : Option Operand)
    (es : List Ir.Event) :
    Ir.WalkFrom (s'.frame.body.finish (.ret x)).blocks s.frame.body.point es ↔
      Ir.Run (os ++ [Outline.ret x]) es := by
  have hopen := (h.ready hs).isOpen
  rw [Body.finish_of_open hopen]
  have hend := Body.ends_of_closed hopen (fun _ hb => Body.block?_close_current hb)
    (.refl (s'.frame.body.close (.ret x)))
  exact h.lays hs.isOpen _ (Body.later_close hopen) [.ret x] (es.length + 1)
    (fun _ _ => Ir.walkFrom_ret_iff hend []) es (Nat.lt_succ_self _)

theorem lowered_of_straight (hs : s.Given) (h : s.Straight s') :
    Lowered s s' [.group (s.frame.body.addedSince s'.frame.body)] where
  given := by
    have hlabels := Body.labels_congr h.body.flow
    refine ⟨?_, fun l hl => used_mono h.progress (hs.labels l (hlabels ▸ hl))⟩
    rw [h.body.current, hlabels]
    exact hs.current
  onward := h.body.onward
  tidy := by
    intro rest hrest
    rw [h.body.current]
    exact hrest.of_flow h.body.flow
  lays := by
    intro hopen fin hfin
    obtain ⟨block, hb, -⟩ := hopen
    obtain ⟨added, hb'⟩ := h.body.code block hb
    obtain ⟨block', rest, hfin', hi, -⟩ := hfin _ _ hb'
    have hgroup : s.frame.body.addedSince s'.frame.body = added.filter (!·.isAlloca) := by
      rw [Body.addedSince, Body.point, hb, hb']
      simp
    rw [hgroup]
    refine Ir.lays_group hfin' h.body.current ?_
    rw [hi]
    rw [Body.point, Body.point, h.body.current, hb, hb']
    simp

variable {s1 : State} {id : Nat} {l : Label}

theorem State.Given.fresh {new : List Label} (h : s.Given) (hnew : ∀ l ∈ new, ¬ used s.progress l) :
    ∀ l ∈ new, l ∉ s.frame.body.labels :=
  fun l hl hmem => hnew l hl (h.labels l hmem)

theorem State.Given.move {f : Body → Body} {new : List Label} {target : Label} {t : Terminator}
    (h : s.Given) (hm : s.frame.body.Moves (f s.frame.body) new target t)
    (hnew : ∀ l ∈ new, used s.progress l) : (s.mapBody f).Ready := by
  refine ⟨⟨?_, fun l hl => ?_⟩, hm.isOpen⟩
  · exact hm.current.symm ▸ hm.mem_target
  · rcases List.mem_append.mp (hm.labels ▸ hl) with hold | hmem
    · exact h.labels l hold
    · exact hnew l hmem

theorem moves_finish {b : Body} {t : Terminator} (hopen : b.Open)
    (hl : b.block? l = some ⟨l, [], none⟩) (hne : l ≠ b.current) :
    b.Moves ((b.finish t).goto l) [] l t := by
  rw [Body.finish_of_open hopen]
  exact Body.moves_goto hl hne

theorem Lowered.pending (h : Lowered s s' os) (hne : l ≠ .entry)
    (hl : s.frame.body.block? l = some ⟨l, [], none⟩) (hcur : l ≠ s.frame.body.current) :
    s'.frame.body.block? l = some ⟨l, [], none⟩ ∧ l ≠ s'.frame.body.current := by
  obtain ⟨hkeeps, hcur'⟩ := h.onward.outside l (Body.mem_labels hl) hcur List.not_mem_nil
  exact ⟨hkeeps.eq hne hl, hcur'⟩

theorem lowered_branch {s3 s5 : State} {x : Operand} {ys ns : List Outline}
    (hid : id = s.progress.ifs + 1) (hs : s.Given)
    (hcond : (Lower.after Lower.nextIf s).Straight s1)
    (hyes : (s1.mapBody (Body.enterThen id x)).Ready →
      Lowered (s1.mapBody (Body.enterThen id x)) s3 ys)
    (hno : (s3.mapBody (Body.leaveBranch id (.ifElse id))).Ready →
      Lowered (s3.mapBody (Body.leaveBranch id (.ifElse id))) s5 ns) :
    (s1.mapBody (Body.enterThen id x)).Ready ∧
    (s3.mapBody (Body.leaveBranch id (.ifElse id))).Ready ∧
    Lowered s (s5.mapBody (Body.leaveBranch id (.ifMerge id)))
      [.group (s.frame.body.addedSince s1.frame.body), .branch x ys ns] := by
  have hs0 : (Lower.after Lower.nextIf s).Given :=
    ⟨hs.current, fun l hl => used_mono (Lower.extends_nextIf s).progress (hs.labels l hl)⟩
  have h1 := lowered_of_straight hs0 hcond
  -- The number is a new one, so no block has these labels.
  have hfresh : ∀ l ∈ [Label.ifThen id, .ifElse id, .ifMerge id], l ∉ s1.frame.body.labels := by
    rw [Body.labels_congr hcond.body.flow]
    exact hs.fresh (not_used_branch hid)
  have hle : id ≤ s1.progress.ifs := hid ▸ hcond.progress.ifs
  -- Three moves: into the first part, to the second one, and behind both.
  have hm1 : s1.frame.body.Moves (Body.enterThen id x s1.frame.body) _ _ _ :=
    Body.moves_create h1.given.current (by simp) hfresh (by simp)
  have hready2 := h1.given.move hm1 (used_branch hle)
  have h3 := hyes hready2
  have hopen3 := (h3.ready hready2).isOpen
  obtain ⟨helse, helse'⟩ := h3.pending (by simp) (hm1.made (.ifElse id) (by simp))
    (hm1.ne_current (by simp))
  obtain ⟨hmerge, hmerge'⟩ := h3.pending (by simp) (hm1.made (.ifMerge id) (by simp))
    (hm1.ne_current (by simp))
  have hm2 : s3.frame.body.Moves (Body.leaveBranch id (.ifElse id) s3.frame.body) _ _ _ :=
    moves_finish hopen3 helse helse'
  have hready4 := h3.given.move hm2 (by simp)
  have h5 := hno hready4
  have hopen5 := (h5.ready hready4).isOpen
  have hmerge2 : (s3.mapBody (Body.leaveBranch id (.ifElse id))).frame.body.block? (.ifMerge id) =
      some ⟨.ifMerge id, [], none⟩ :=
    (hm2.same _ (Body.mem_labels hmerge) hmerge').trans hmerge
  obtain ⟨hmerge3, hmerge3'⟩ := h5.pending (by simp) hmerge2
    (hm2.ne_current (by simp))
  have hm3 : s5.frame.body.Moves (Body.leaveBranch id (.ifMerge id) s5.frame.body) _ _ _ :=
    moves_finish hopen5 hmerge3 hmerge3'
  -- A block that was there before is none of the new ones, so each part leaves it alone.
  have hon : s1.frame.body.Onward [.ifThen id, .ifElse id, .ifMerge id]
      (Body.leaveBranch id (.ifMerge id) s5.frame.body) :=
    (hm1.onward (by simp)).trans (h3.onward.mono.trans ((hm2.onward (by simp)).trans
      (h5.onward.mono.trans (hm3.onward (by simp)))))
  refine ⟨hready2, hready4, (h5.given.move hm3 (by simp)).toGiven,
    h1.onward.trans (hon.of_fresh hfresh), ?_, ?_⟩
  · intro rest hrest
    have ht2 := hm1.tidy _ (h1.tidy rest hrest) (by simp [Terminator.targets, Label.IsTarget])
    have ht4 := hm2.tidy _ (h3.tidy (.ifElse id :: .ifMerge id :: rest) ht2)
      (by simp [Terminator.targets, Label.IsTarget, Body.mem_labels hmerge])
    exact hm3.tidy _ (h5.tidy (.ifMerge id :: rest) ht4)
      (by simp [Terminator.targets, Label.IsTarget, Body.mem_labels hmerge3])
  · intro hopen fin hfin
    have hopen1 := h1.onward.isOpen hopen
    -- What is laid out stays as it is until the body is complete, so all parts are read there.
    have hl5 := (hm3.later hopen5).trans hfin
    have hl4 := (h5.onward.later hready4.isOpen).trans hl5
    have hl3 := (hm2.later hopen3).trans hl4
    have hl2 := (h3.onward.later hready2.isOpen).trans hl3
    have hl1 := (hm1.later hopen1).trans hl2
    have hend : (Ir.block? fin.blocks (.ifMerge id)).isSome := hfin.isSome hm3.empty
    have hthen := (h3.lays hready2.isOpen fin hl3).trans (Ir.lays_jump (hm2.ends hopen3 hl4) hend)
    have helse := (h5.lays hready4.isOpen fin hl5).trans (Ir.lays_jump (hm3.ends hopen5 hfin) hend)
    rw [List.append_nil] at hthen helse
    have hp2 : (s1.mapBody (Body.enterThen id x)).frame.body.point = ⟨.ifThen id, 0⟩ := hm1.point
    have hp4 : (s3.mapBody (Body.leaveBranch id (.ifElse id))).frame.body.point = ⟨.ifElse id, 0⟩ :=
      hm2.point
    have hp6 : (s5.mapBody (Body.leaveBranch id (.ifMerge id))).frame.body.point =
      ⟨.ifMerge id, 0⟩ := hm3.point
    rw [hp2] at hthen
    rw [hp4] at helse
    rw [hp6]
    exact (h1.lays hopen fin hl1).trans (Ir.lays_branch (hm1.ends hopen1 hl2) hthen helse)

theorem lowered_loop {s3 : State} {x : Operand} (hid : id = s.progress.whiles + 1) (hs : s.Given)
    (hcond : ((Lower.after Lower.nextWhile s).mapBody (Body.enterLoop id)).Straight s1)
    (hbody : (s1.mapBody (Body.enterLoopBody id x)).Ready →
      Lowered (s1.mapBody (Body.enterLoopBody id x)) s3 os) :
    ((Lower.after Lower.nextWhile s).mapBody (Body.enterLoop id)).Ready ∧
    (s1.mapBody (Body.enterLoopBody id x)).Ready ∧
    Lowered s (s3.mapBody (Body.leaveLoop id))
      [.loop (((Lower.after Lower.nextWhile s).mapBody (Body.enterLoop id)).frame.body.addedSince
        s1.frame.body) x os] := by
  have hs' : (Lower.after Lower.nextWhile s).Given :=
    ⟨hs.current, fun l hl => used_mono (Lower.extends_nextWhile s).progress (hs.labels l hl)⟩
  have hfresh := hs.fresh (not_used_loop hid)
  -- Three moves: to the condition, into the body, and behind the loop.
  have hm0 : s.frame.body.Moves (Body.enterLoop id s.frame.body) _ _ _ :=
    Body.moves_create hs.current (by simp) hfresh (by simp)
  have hready0 := hs'.move hm0 (used_loop (Nat.le_of_eq hid))
  have h1 := lowered_of_straight hready0.toGiven hcond
  have hopen1 := (h1.ready hready0).isOpen
  obtain ⟨hbody1, hbody1'⟩ := h1.pending (by simp) (hm0.made (.whileBody id) (by simp))
    (hm0.ne_current (by simp))
  obtain ⟨hexit1, hexit1'⟩ := h1.pending (by simp) (hm0.made (.whileExit id) (by simp))
    (hm0.ne_current (by simp))
  have hm1 : s1.frame.body.Moves (Body.enterLoopBody id x s1.frame.body) _ _ _ :=
    Body.moves_goto hbody1 hbody1'
  have hready2 := h1.given.move hm1 (by simp)
  have h3 := hbody hready2
  have hopen3 := (h3.ready hready2).isOpen
  have hexit2 : (s1.mapBody (Body.enterLoopBody id x)).frame.body.block? (.whileExit id) =
      some ⟨.whileExit id, [], none⟩ :=
    (hm1.same _ (Body.mem_labels hexit1) hexit1').trans hexit1
  obtain ⟨hexit3, hexit3'⟩ := h3.pending (by simp) hexit2
    (hm1.ne_current (by simp))
  have hm3 : s3.frame.body.Moves (Body.leaveLoop id s3.frame.body) _ _ _ :=
    moves_finish hopen3 hexit3 hexit3'
  have hon : s.frame.body.Onward [.whileCond id, .whileBody id, .whileExit id]
      (Body.leaveLoop id s3.frame.body) :=
    (hm0.onward (by simp)).trans (h1.onward.mono.trans ((hm1.onward (by simp)).trans
      (h3.onward.mono.trans (hm3.onward (by simp)))))
  -- The block of the condition has its end already when the body is left, but it is still there.
  have hcond3 : Label.whileCond id ∈ s3.frame.body.labels :=
    h3.onward.labels ((hm1.onward (List.mem_singleton_self _)).labels (h1.onward.labels hm0.mem_target))
  refine ⟨hready0, hready2, (h3.given.move hm3 (by simp)).toGiven, hon.of_fresh hfresh,
    ?_, ?_⟩
  · intro rest hrest
    have ht0 := hm0.tidy rest hrest (by simp [Terminator.targets, Label.IsTarget])
    have ht2 := hm1.tidy _ (h1.tidy (.whileBody id :: .whileExit id :: rest) ht0)
      (by simp [Terminator.targets, Label.IsTarget, Body.mem_labels hbody1, Body.mem_labels hexit1])
    exact hm3.tidy _ (h3.tidy (.whileExit id :: rest) ht2)
      (by simp [Terminator.targets, Label.IsTarget, hcond3])
  · intro hopen fin hfin
    have hl3 := (hm3.later hopen3).trans hfin
    have hl2 := (h3.onward.later hready2.isOpen).trans hl3
    have hl1 := (hm1.later hopen1).trans hl2
    have hl0 := (h1.onward.later hready0.isOpen).trans hl1
    have hcond : (Ir.block? fin.blocks (.whileCond id)).isSome := hl0.isSome hm0.empty
    have hstart := h1.lays hready0.isOpen fin hl1
    -- The body jumps back to the condition, whose block has its end by then.
    have hback := (h3.lays hready2.isOpen fin hl3).trans
      (Ir.lays_jump (hm3.ends hopen3 hfin) hcond)
    have hp0 : ((Lower.after Lower.nextWhile s).mapBody (Body.enterLoop id)).frame.body.point =
      ⟨.whileCond id, 0⟩ := hm0.point
    have hp2 : (s1.mapBody (Body.enterLoopBody id x)).frame.body.point = ⟨.whileBody id, 0⟩ :=
      hm1.point
    have hp4 : (s3.mapBody (Body.leaveLoop id)).frame.body.point = ⟨.whileExit id, 0⟩ := hm3.point
    rw [List.append_nil, hp2] at hback
    rw [hp0] at hstart
    rw [hp4]
    exact (Ir.lays_jump (hm0.ends hopen hl0) hcond).trans
      (Ir.lays_loop hstart (hm1.ends hopen1 hl2) hback)

theorem lowered_ret {x : Option Operand} (hs : s.Given) (h : s.Straight s1)
    (hid : id = s1.progress.returns + 1) :
    Lowered s ((Lower.after Lower.nextReturn s1).mapBody (Body.leave id x))
      [.group (s.frame.body.addedSince (Body.leave id x s1.frame.body)),
        .ret ((Body.leave id x s1.frame.body).returned s.frame.body.current)] := by
  have h1 := lowered_of_straight hs h
  have hs1 : (Lower.after Lower.nextReturn s1).Given :=
    ⟨h1.given.current, fun l hl => used_mono (Lower.extends_nextReturn s1).progress
      (h1.given.labels l hl)⟩
  have hfresh : ∀ l ∈ [Label.afterReturn id], l ∉ s1.frame.body.labels :=
    h1.given.fresh (by simp [used, hid])
  have hm : s1.frame.body.Moves (Body.leave id x s1.frame.body) [.afterReturn id] (.afterReturn id)
      (.ret x) := by
    have hcur := fun hmem => hfresh _ hmem h1.given.current
    rw [Body.leave, Body.close_create hcur]
    exact Body.moves_create h1.given.current (by simp) hfresh (by simp)
  -- The block that returns is the one that the code went to.
  obtain ⟨block, hb⟩ := Body.exists_block? hs.current
  obtain ⟨added, hb1⟩ := h.body.code block hb
  have hb2 := hm.closed _ (by rw [h.body.current]; exact hb1)
  rw [h.body.current] at hb2
  have hadded : s.frame.body.addedSince (Body.leave id x s1.frame.body) =
      s.frame.body.addedSince s1.frame.body := by
    rw [Body.addedSince, Body.addedSince, hb1, hb2]
    rfl
  have hret : (Body.leave id x s1.frame.body).returned s.frame.body.current = x := by
    rw [Body.returned, hb2]
    rfl
  rw [hadded, hret]
  have hon := (hm.onward (List.mem_singleton_self _)).of_fresh hfresh
  have hgiven := hs1.move hm (List.forall_mem_singleton.mpr (Nat.le_of_eq hid))
  refine ⟨hgiven.toGiven, h1.onward.trans hon, ?_, ?_⟩
  · intro rest hrest
    exact hm.tidy rest (h1.tidy rest hrest) (by simp [Terminator.targets])
  · intro hopen fin hfin
    have hopen1 := h1.onward.isOpen hopen
    exact (h1.lays hopen fin ((hm.later hopen1).trans hfin)).trans
      (Ir.lays_ret (hm.ends hopen1 hfin))

end Steps

namespace Lower

variable {env : Environment} {s s' : State}

variable {st : Stmt} {pos : Position}

theorem ret_eq_ok {e : Option Expr} (h : ret env pos e s = .ok () s') :
    ∃ f v x s1 s2, e.elim (pure Value.void) (value env) s = .ok v s1 ∧
      returned pos f v s1 = .ok x s2 ∧
      s' = (after nextReturn s2).mapBody (Body.leave (s2.progress.returns + 1) x) := by
  obtain ⟨s0, s1, hget, h⟩ := bind_eq_ok h
  cases hget
  cases hf : s.frame.signature with
  | none =>
    rw [hf] at h
    cases h
  | some f =>
    rw [hf] at h
    cases e with
    | none | some e =>
      obtain ⟨v, s1, hv, h⟩ := bind_eq_ok h
      obtain ⟨x, s2, hx, h⟩ := bind_eq_ok h
      cases h
      exact ⟨f, v, x, s1, s2, hv, hx, rfl⟩

theorem Emits.ret_eq_ok {R : State → State → Prop} (hR : Emits R) {e : Option Expr}
    (h : ret env pos e s = .ok () s') :
    ∃ s1 x, R s s1 ∧
      s' = (after nextReturn s1).mapBody (Body.leave (s1.progress.returns + 1) x) := by
  obtain ⟨f, v, x, s1, s2, hv, hx, hs'⟩ := Lower.ret_eq_ok h
  refine ⟨s2, x, hR.trans _ _ _ ?_ ((hR.returned pos f v).of_ok hx), hs'⟩
  cases e with
  | none =>
    cases hv
    exact hR.refl s
  | some e => exact (hR.value e).of_ok hv

/-- A branch without errors in it has none in its parts, since no error is ever lost. -/
theorem branch_eq_ok {cond : Expr} {yes no : List Stmt}
    (h : stmt env (.branch pos cond yes no) s = .ok () s')
    (hno : s'.progress.errors ≤ s.progress.errors) :
    ∃ id x s1 s3 s5, id = s.progress.ifs + 1 ∧ condition env cond (after nextIf s) = .ok x s1 ∧
      stmts env yes (s1.mapBody (Body.enterThen id x)) = .ok () s3 ∧
      s3.progress.errors ≤ s1.progress.errors ∧
      stmts env no (s3.mapBody (Body.leaveBranch id (.ifElse id))) = .ok () s5 ∧
      s5.progress.errors ≤ s3.progress.errors ∧
      s' = s5.mapBody (Body.leaveBranch id (.ifMerge id)) := by
  rw [stmt] at h
  obtain ⟨id, s0, hid, h⟩ := bind_eq_ok h
  cases hid
  obtain ⟨x, s1, hx, h⟩ := bind_eq_ok h
  obtain ⟨_, s2, h2, h⟩ := bind_eq_ok h
  cases h2
  obtain ⟨_, s3, h3, h⟩ := bind_eq_ok h
  obtain ⟨_, s4, h4, h⟩ := bind_eq_ok h
  cases h4
  obtain ⟨_, s5, h5, h⟩ := bind_eq_ok h
  cases h
  have he1 : s.progress.errors ≤ s1.progress.errors :=
    ((plain_straight.condition cond).of_ok hx).progress.errorCount_le
  have he3 : s1.progress.errors ≤ s3.progress.errors :=
    ((extends_stmts yes).of_ok h3).progress.errorCount_le
  have he5 : s3.progress.errors ≤ s5.progress.errors :=
    ((extends_stmts no).of_ok h5).progress.errorCount_le
  have hno : s5.progress.errors ≤ s.progress.errors := hno
  exact ⟨_, x, s1, s3, s5, rfl, hx, h3, Nat.le_trans (Nat.le_trans he5 hno) he1, h5,
    Nat.le_trans hno (Nat.le_trans he1 he3), rfl⟩

theorem loop_eq_ok {cond : Expr} {body : List Stmt}
    (h : stmt env (.loop pos cond body) s = .ok () s')
    (hno : s'.progress.errors ≤ s.progress.errors) :
    ∃ id x s1 s3, id = s.progress.whiles + 1 ∧
      condition env cond ((after nextWhile s).mapBody (Body.enterLoop id)) = .ok x s1 ∧
      stmts env body (s1.mapBody (Body.enterLoopBody id x)) = .ok () s3 ∧
      s3.progress.errors ≤ s1.progress.errors ∧
      s' = s3.mapBody (Body.leaveLoop id) := by
  rw [stmt] at h
  obtain ⟨id, s0, hid, h⟩ := bind_eq_ok h
  cases hid
  obtain ⟨_, s1, h1, h⟩ := bind_eq_ok h
  cases h1
  obtain ⟨x, s2, hx, h⟩ := bind_eq_ok h
  obtain ⟨_, s3, h3, h⟩ := bind_eq_ok h
  cases h3
  obtain ⟨_, s4, h4, h⟩ := bind_eq_ok h
  cases h
  have he2 : s.progress.errors ≤ s2.progress.errors :=
    ((plain_straight.condition cond).of_ok hx).progress.errorCount_le
  exact ⟨_, x, s2, s4, rfl, hx, h4, Nat.le_trans hno he2, rfl⟩

/-- A statement that adds no error does not fail, since one that fails is reported. -/
theorem stmt_eq_ok
    (hno : (after (reported (stmt env st)) s).progress.errors ≤
      s.progress.errors) :
    stmt env st s = .ok () (after (reported (stmt env st)) s) := by
  unfold after reported at hno ⊢
  cases h : stmt env st s with
  | ok a t => rfl
  | error e t =>
    rw [h] at hno
    have he := ((extends_stmt st).of_error h).progress.errorCount_le
    have hreport := t.progress.errorCount_report e
    have hno : (t.progress.report e).errors ≤ _ := hno
    omega

theorem cons_eq_ok {ss : List Stmt} (h : stmts env (st :: ss) s = .ok () s')
    (hno : s'.progress.errors ≤ s.progress.errors) :
    ∃ s1, stmt env st s = .ok () s1 ∧ after (reported (stmt env st)) s = s1 ∧
      s1.progress.errors ≤ s.progress.errors ∧
      stmts env ss s1 = .ok () s' ∧
      s'.progress.errors ≤ s1.progress.errors := by
  rw [stmts] at h
  obtain ⟨_, s1, h1, h2⟩ := bind_eq_ok h
  obtain rfl := after_of_ok h1
  have he1 := ((extends_reported (extends_stmt st)).of_ok h1).progress.errorCount_le
  have he2 := ((extends_stmts ss).of_ok h2).progress.errorCount_le
  have hno1 := Nat.le_trans he2 hno
  exact ⟨_, stmt_eq_ok hno1, rfl, hno1, h2, Nat.le_trans hno he1⟩

theorem outline_of_simple (h : isSimple st = true) (s : State) :
    outline env st s = [.group (s.frame.body.addedSince (after (stmt env st) s).frame.body)] := by
  cases st with
  | branch pos cond yes no | loop pos cond body | ret pos e => cases h
  | _ => rw [outline] <;> simp

theorem lowered_simple (hst : isSimple st = true) (hs : s.Given)
    (h : stmt env st s = .ok () s') : Lowered s s' (outline env st s) := by
  rw [outline_of_simple hst, after_of_ok h]
  exact lowered_of_straight hs ((plain_straight.stmt hst).of_ok h)

mutual

theorem lowered_stmt : ∀ (st : Stmt) {s s' : State}, s.Given → stmt env st s = .ok () s' →
    s'.progress.errors ≤ s.progress.errors →
    Lowered s s' (outline env st s)
  | .branch pos cond yes no, s, s', hs, h, hno => by
    obtain ⟨id, x, s1, s3, s5, rfl, hx, h3, he3, h5, he5, rfl⟩ := branch_eq_ok h hno
    simp only [outline, hx, after_of_ok h3]
    exact (lowered_branch rfl hs ((plain_straight.condition cond).of_ok hx)
      (fun hready => lowered_stmts yes hready.toGiven h3 he3)
      (fun hready => lowered_stmts no hready.toGiven h5 he5)).2.2
  | .loop pos cond body, s, s', hs, h, hno => by
    obtain ⟨id, x, s1, s3, rfl, hx, h3, he3, rfl⟩ := loop_eq_ok h hno
    simp only [outline, hx]
    exact (lowered_loop rfl hs ((plain_straight.condition cond).of_ok hx)
      (fun hready => lowered_stmts body hready.toGiven h3 he3)).2.2
  | .ret pos e, s, s', hs, h, hno => by
    rw [outline, after_of_ok h]
    rw [stmt] at h
    obtain ⟨s1, x, hstraight, rfl⟩ := plain_straight.ret_eq_ok h
    exact lowered_ret hs hstraight rfl
  | .evaluate .., s, s', hs, h, _ | .pass .., s, s', hs, h, _ | .globals .., s, s', hs, h, _
  | .assign .., s, s', hs, h, _ | .augment .., s, s', hs, h, _ | .define .., s, s', hs, h, _ =>
    lowered_simple rfl hs h

theorem lowered_stmts : ∀ (ss : List Stmt) {s s' : State}, s.Given → stmts env ss s = .ok () s' →
    s'.progress.errors ≤ s.progress.errors →
    Lowered s s' (outlineAll env ss s)
  | [], s, s', hs, h, _ => by
    rw [stmts] at h
    obtain ⟨-, rfl⟩ := pure_eq_ok h
    rw [outlineAll]
    exact .refl hs
  | st :: ss, s, s', hs, h, hno => by
    obtain ⟨s1, h1, hafter, he1, h2, he2⟩ := cons_eq_ok h hno
    rw [outlineAll, hafter]
    have hfirst := lowered_stmt st hs h1 he1
    exact hfirst.trans (lowered_stmts ss hfirst.given h2 he2)

end

end Lower

end BoardPython.Lowering
