import BoardPython.Proofs.ArityLockstep
import BoardPython.Proofs.CompilationSteps

/-! Strict and lenient compilations go in lockstep as long as there is nothing to warn about. At the
first wrong number of arguments the strict one has an error and the lenient one has a warning, and
neither of them goes away. -/
namespace BoardPython

namespace Lowering

namespace State

def faults (s : State) : Nat := s.progress.diagnostics.errorCount

def alarms (s : State) : Nat := s.progress.diagnostics.warnings.length

end State

abbrev Lower.Lockstep {α : Type} (x y : Lower α) : Prop :=
  Lowering.Lockstep State.faults State.alarms x y

theorem Diagnostics.warnings_length_append (ds ds' : List Diagnostic) :
    (Diagnostics.mk (ds ++ ds')).warnings.length =
      (Diagnostics.mk ds).warnings.length + (Diagnostics.mk ds').warnings.length := by
  simp [Diagnostics.warnings]

namespace Lower

variable {α : Type}

theorem lockstep_fail (pos : Position) (fault : Fault) :
    Lower.Lockstep (fail pos fault : Lower α) (fail pos fault) := lockstep_throw _

theorem lockstep_emit {x y : Emit α} (h : Emit.Lockstep x y) :
    Lower.Lockstep (emit x) (emit y) := by
  have hfinal (x : Emit α) (s : State) :
      finalState (emit x s) = s.absorb (finalState (x s.emission)) := by
    unfold emit
    cases x s.emission <;> rfl
  have halarms (s : State) (e : Emission) : (s.absorb e).alarms = s.alarms + e.alarms :=
    Diagnostics.warnings_length_append s.progress.diagnostics.items e.warnings
  refine ⟨fun s => ?_, fun s => ?_, fun s => ?_⟩
  · rw [hfinal]
    exact (s.straight_absorb _).progress.errorCount_le
  · rw [hfinal, halarms]
    exact Nat.le_add_right _ _
  unfold Parallel
  rw [hfinal, halarms]
  -- An expression has no faults but the one that ends it, so a faulty one fails.
  rcases h.parallel s.emission with ⟨heq, hquiet⟩ | ⟨hfaulty, halarm⟩
  · left
    constructor
    · unfold emit
      rw [heq]
    · rw [hquiet]
      rfl
  · right
    constructor
    · unfold Faulty at hfaulty ⊢
      unfold emit
      cases hx : x s.emission with
      | error e s1 => trivial
      | ok a s1 =>
        rw [hx] at hfaulty
        exact absurd hfaulty (Nat.lt_irrefl _)
    · exact Nat.lt_add_of_pos_right (Nat.lt_of_le_of_lt (Nat.zero_le _) halarm)

theorem lockstep_reported {x y : Lower Unit} (h : Lower.Lockstep x y) :
    Lower.Lockstep (reported x) (reported y) := by
  have hfaults (s : State) (e : Error) :
      State.faults { s with progress := s.progress.report e } = s.faults + 1 :=
    s.progress.errorCount_report e
  have halarms (x : Lower Unit) (s : State) :
      State.alarms (finalState (reported x s)) = State.alarms (finalState (x s)) := by
    unfold reported
    cases x s with
    | ok a s1 => rfl
    | error e s1 => exact Diagnostics.warnings_length_append s1.progress.diagnostics.items [_]
  refine ⟨fun s => ?_, fun s => ?_, fun s => ?_⟩
  · have hs := h.faults_le s
    unfold reported
    cases hx : x s with
    | ok a s1 =>
      rw [hx] at hs
      exact hs
    | error e s1 =>
      rw [hx] at hs
      exact Nat.le_trans (Nat.le_succ_of_le hs) (Nat.le_of_eq (hfaults s1 e).symm)
  · rw [halarms]
    exact h.alarms_le s
  unfold Parallel
  rw [halarms]
  -- An error that is reported is one more fault, and the statement ends without one.
  rcases h.parallel s with ⟨heq, hquiet⟩ | ⟨hfaulty, halarm⟩
  · left
    refine ⟨?_, hquiet⟩
    unfold reported
    rw [heq]
  · right
    refine ⟨?_, halarm⟩
    have hs := h.faults_le s
    unfold Faulty at hfaulty ⊢
    unfold reported
    cases hx : x s with
    | ok a s1 =>
      rw [hx] at hfaulty
      exact hfaulty
    | error e s1 =>
      rw [hx] at hs
      exact Nat.lt_of_lt_of_eq (Nat.lt_succ_of_le hs) (hfaults s1 e).symm

theorem lockstep_nextIf : Lower.Lockstep nextIf nextIf :=
  lockstep_of_quiet (fun _ => rfl) fun _ => rfl

theorem lockstep_nextWhile : Lower.Lockstep nextWhile nextWhile :=
  lockstep_of_quiet (fun _ => rfl) fun _ => rfl

theorem lockstep_nextReturn : Lower.Lockstep nextReturn nextReturn :=
  lockstep_of_quiet (fun _ => rfl) fun _ => rfl

variable {env : Environment}

theorem lockstep_value (hops : env.operators = .numeric) (e : Expr) :
    Lower.Lockstep (value { env with strict := true } e) (value { env with strict := false } e) := by
  apply lockstep_get.bind
  intro s
  exact lockstep_emit ((Emit.couples_lockstep (c := s.context env) hops).lower e)

theorem couplesPlain_lockstep (hops : env.operators = .numeric) :
    CouplesPlain { env with strict := true } { env with strict := false } id (fun _ => True)
      fun _ => Lower.Lockstep where
  pure := lockstep_pure
  fail := lockstep_fail
  bind := Lockstep.bind
  get h := lockstep_get.bind fun s => h s s (.refl s)
  value e _ _ h := (lockstep_value hops e).bind fun v => h v trivial
  calculate op _ := lockstep_emit (Emit.lockstep_emit op)
  coerce _ hx := lockstep_emit (Emit.lockstep_calculates.coerce? hx)
  keep _ _ hx :=
    lockstep_emit ((Emit.lockstep_calculates.coerce? hx).bind fun _ => Emit.lockstep_perform _)
  defined _ := rfl
  declareLocal _ _ := lockstep_of_quiet (fun _ => rfl) fun _ => rfl
  declareGlobal _ _ _ := lockstep_of_quiet (fun _ => rfl) fun _ => rfl

theorem couples_lockstep (hops : env.operators = .numeric) :
    Couples { env with strict := true } { env with strict := false } id (fun _ => True)
      (fun _ : Unit => Eq) (fun _ _ => Lower.Lockstep) (fun _ => True) fun _ => True where
  code _ := (couplesPlain_lockstep hops).toCouplesExpr
  void := trivial
  returned _ _ _ := rfl
  assign _ pos name hint e _ := (couplesPlain_lockstep hops).assign pos name hint e
  globals _ pos names _ := (couplesPlain_lockstep hops).declareNames
    (fun _ => lockstep_of_quiet (fun _ => rfl) fun _ => rfl) pos names
  nextIf h := lockstep_nextIf.bind fun n => h () n n (List.forall₂_refl _)
  nextWhile h := lockstep_nextWhile.bind fun n => h () n n (List.forall₂_refl _)
  nextReturn h := lockstep_nextReturn.bind fun n => h () n n rfl
  edit h := h.eq ▸ lockstep_of_quiet (fun _ => rfl) fun _ => rfl
  sides _ := ⟨trivial, trivial⟩
  body _ := trivial
  each _ := ⟨trivial, trivial⟩

theorem lockstep_stmt (hops : env.operators = .numeric) (st : Stmt) :
    Lower.Lockstep (stmt { env with strict := true } st) (stmt { env with strict := false } st) :=
  (couples_lockstep hops).stmt (fun _ _ _ => lockstep_reported) st () trivial

end Lower

theorem Definition.lockstep_lower {env : Environment} (hops : env.operators = .numeric)
    (d : Definition) : Lower.Lockstep (d.lower { env with strict := true })
      (d.lower { env with strict := false }) := by
  have hplain := Lower.couplesPlain_lockstep hops
  have hperform (op : Ir.Operation) :
      Lower.Lockstep (Lower.emit (Emit.perform op)) (Lower.emit (Emit.perform op)) :=
    Lower.lockstep_emit (Emit.lockstep_perform op)
  have hprologue := couples_prologue hplain.toCouplesCode (fun _ _ _ => hperform _) (hperform _) d
    fun p _ => hplain.declareLocal p.1 p.2
  have hcouples := Lower.couples_lockstep hops
  rw [Definition.lower_eq, Definition.lower_eq]
  apply hprologue.bind
  intro _
  exact (hcouples.stmts (fun _ _ _ => Lower.lockstep_reported) d.body () trivial).bind fun _ =>
    hcouples.edit (i := ()) (.finish (.ret _) .start)

namespace Compilation

/-- The compilation with another answer to wrong numbers of arguments. -/
def arity (c : Compilation) (strict : Bool) : Compilation := { c with strict := strict }

def faults (c : Compilation) : Nat := c.progress.diagnostics.errorCount

def alarms (c : Compilation) : Nat := c.progress.diagnostics.warnings.length

/-- A strict and a lenient compilation from the same point on: they are the same and nothing has been
warned about since, or one has an error and the other one has a warning. -/
def Parts (c strict lenient : Compilation) : Prop :=
  (∃ c' : Compilation, strict = c'.arity true ∧ lenient = c'.arity false ∧ c'.alarms = c.alarms) ∨
    (c.faults < strict.faults ∧ c.alarms < lenient.alarms)

theorem faults_le {c c' : Compilation} (h : c.progress.Extends c'.progress) :
    c.faults ≤ c'.faults := h.errorCount_le

theorem alarms_le {c c' : Compilation} (h : c.progress.Extends c'.progress) :
    c.alarms ≤ c'.alarms := (h.items.filter _).length_le

theorem declareAll_arity (unit : List Stmt) (c : Compilation) (strict : Bool) :
    (c.arity strict).declareAll unit =
      ((c.declareAll unit).1.arity strict, (c.declareAll unit).2) :=
  declareAll_mapSettings unit c (fun _ => strict) id

theorem alarms_declareAll (unit : List Stmt) (c : Compilation) :
    (c.declareAll unit).1.alarms = c.alarms := by
  refine declareAll_induction (R := fun c c' => c'.alarms = c.alarms) (fun _ => rfl)
    (fun c _ e ih => ih.trans ?_) (fun h ih => ih.trans ?_) unit c
  · exact Diagnostics.warnings_length_append c.progress.diagnostics.items [_]
  · obtain ⟨-, -, result, types, -, -, -, rfl⟩ := define_eq_ok h
    rfl

variable {c : Compilation}

theorem parts_of_states {x y : Lower Unit} {s s1 s2 : State} (update : State → Compilation)
    (hupdate : ∀ t, (update t).progress = t.progress) (hs : s.progress = c.progress)
    (hstep : Lower.Lockstep x y) (hx : x s = .ok () s1) (hy : y s = .ok () s2) :
    Parts c ((update s1).arity true) ((update s2).arity false) := by
  -- Faults and alarms are counted in the progress alone.
  have hfaults (t : State) : (update t).faults = t.faults := by
    unfold faults State.faults
    rw [hupdate]
  have halarms (t : State) : (update t).alarms = t.alarms := by
    unfold alarms State.alarms
    rw [hupdate]
  have hf : c.faults = s.faults := by
    unfold faults State.faults
    rw [hs]
  have ha : c.alarms = s.alarms := by
    unfold alarms State.alarms
    rw [hs]
  rcases hstep.parallel s with ⟨heq, hquiet⟩ | ⟨hfaulty, halarm⟩
  · left
    rw [hx, hy] at heq
    cases heq
    rw [hy] at hquiet
    refine ⟨update s1, rfl, rfl, ?_⟩
    rw [halarms, ha]
    exact hquiet
  · right
    unfold Faulty at hfaulty
    rw [hx] at hfaulty
    rw [hy] at halarm
    change c.faults < (update s1).faults ∧ c.alarms < (update s2).alarms
    rw [hfaults, halarms, hf, ha]
    exact ⟨hfaulty, halarm⟩

theorem parts_lowerItem (hops : c.operators = .numeric) (item : Item) :
    Parts c ((c.arity true).lowerItem item) ((c.arity false).lowerItem item) := by
  cases item with
  | definition d =>
    have hok (env : Environment) :
        ∃ s', d.lower env ⟨c.progress, .ofSignature d.signature⟩ = .ok () s' := d.lower_eq_ok env _
    obtain ⟨s1, h1⟩ := hok (c.arity true).environment
    obtain ⟨s2, h2⟩ := hok (c.arity false).environment
    have henv : c.environment.operators = .numeric := hops
    have hparts := parts_of_states (c := c) (fun t => { c with
        progress := t.progress
        functions := c.functions.modify d.signature.callee.id fun f =>
          { f with blocks := t.frame.body.blocks } })
      (fun _ => rfl) rfl (Definition.lockstep_lower henv d) h1 h2
    rw [← Lower.after_of_ok h1, ← Lower.after_of_ok h2] at hparts
    rw [lowerItem, lowerItem, lowerDefinition_eq, lowerDefinition_eq]
    exact hparts
  | statement st =>
    have hok (env : Environment) :
        ∃ s', Lower.reported (Lower.stmt env st) c.state = .ok () s' := Lower.reported_eq_ok _ _
    obtain ⟨s1, h1⟩ := hok (c.arity true).environment
    obtain ⟨s2, h2⟩ := hok (c.arity false).environment
    have henv : c.environment.operators = .numeric := hops
    have hparts := parts_of_states (c := c)
      (fun t => { c with progress := t.progress, top := t.frame }) (fun _ => rfl) rfl
      (Lower.lockstep_reported (Lower.lockstep_stmt henv st)) h1 h2
    rw [← Lower.after_of_ok h1, ← Lower.after_of_ok h2] at hparts
    rw [lowerItem, lowerItem, lowerTop_eq, lowerTop_eq]
    exact hparts

theorem operators_lowerItem (c : Compilation) (item : Item) :
    (c.lowerItem item).operators = c.operators :=
  congrArg Environment.operators (c.environment_lowerItem item)

theorem parts_lowerItems (hops : c.operators = .numeric) (items : List Item) :
    Parts c (items.foldl lowerItem (c.arity true)) (items.foldl lowerItem (c.arity false)) := by
  induction items generalizing c with
  | nil => exact .inl ⟨c, rfl, rfl, rfl⟩
  | cons item items ih =>
    rw [List.foldl_cons, List.foldl_cons]
    have hoperators := (c.arity true).operators_lowerItem item
    have hfirst := faults_le ((c.arity true).extends_lowerItem item)
    rcases parts_lowerItem hops item with ⟨c', hstrict, hlenient, hquiet⟩ | ⟨hf, ha⟩
    · rw [hstrict] at hoperators hfirst
      rw [hstrict, hlenient]
      rcases ih (c := c') (hoperators.trans hops) with ⟨c'', h1, h2, hquiet'⟩ | ⟨hf, ha⟩
      · exact .inl ⟨c'', h1, h2, hquiet'.trans hquiet⟩
      · exact .inr ⟨Nat.lt_of_le_of_lt hfirst hf, lt_of_eq_of_lt hquiet.symm ha⟩
    · -- Errors and warnings stay.
      have hstrict := faults_le (extends_lowerItems items ((c.arity true).lowerItem item))
      have hlenient := alarms_le (extends_lowerItems items ((c.arity false).lowerItem item))
      exact .inr ⟨Nat.lt_of_lt_of_le hf hstrict, Nat.lt_of_lt_of_le ha hlenient⟩

theorem operators_lowerUnit (unit : List Stmt) (c : Compilation) :
    (c.lowerUnit unit).operators = c.operators := by
  have hitems := environment_lowerItems (c.declareAll unit).2 (c.declareAll unit).1
  exact (congrArg Environment.operators hitems).trans (declares_declareAll unit c).operators

theorem parts_lowerUnit (hops : c.operators = .numeric) (unit : List Stmt) :
    Parts c ((c.arity true).lowerUnit unit) ((c.arity false).lowerUnit unit) := by
  have hdeclares := declares_declareAll unit c
  have hfaults := faults_le hdeclares.progress_extends
  have halarms := alarms_declareAll unit c
  unfold lowerUnit
  rw [declareAll_arity, declareAll_arity]
  dsimp only
  rcases parts_lowerItems (hdeclares.operators.trans hops) (c.declareAll unit).2 with
    ⟨c', hstrict, hlenient, hquiet⟩ | ⟨hf, ha⟩
  · rw [hstrict, hlenient]
    left
    refine ⟨({ c' with top := _ , log := _ } : Compilation), rfl, rfl, hquiet.trans halarms⟩
  · exact .inr ⟨Nat.lt_of_le_of_lt hfaults hf, lt_of_eq_of_lt halarms.symm ha⟩

/-- Either both compilations accept the sources without a warning, and do the same, or the strict one
does not accept them and the other one warns if it does. -/
theorem acceptAll?_arity (sources : List Bytes) (hops : c.operators = .numeric)
    (hquiet : c.alarms = 0) :
    (∃ c' : Compilation, (c.arity true).acceptAll? sources = some (c'.arity true) ∧
        (c.arity false).acceptAll? sources = some (c'.arity false) ∧ c'.alarms = 0) ∨
      ((c.arity true).acceptAll? sources = none ∧
        ∀ c', (c.arity false).acceptAll? sources = some c' → 0 < c'.alarms) := by
  induction sources generalizing c with
  | nil => exact .inl ⟨c, rfl, rfl, hquiet⟩
  | cons source sources ih =>
    have hparts := parts_lowerUnit hops (parseSource source).stmts
    have hoperators := operators_lowerUnit (parseSource source).stmts (c.arity true)
    cases hstrict : (c.arity true).accept? source with
    | none =>
      right
      refine ⟨by rw [acceptAll?, hstrict]; rfl, fun c2 h2 => ?_⟩
      obtain ⟨h1, h2⟩ := acceptAll?_cons_eq_some h2
      obtain ⟨hstop, hno, -⟩ := accept?_eq_some_iff.mp h1
      rcases hparts with ⟨c1, h3, h4, -⟩ | ⟨-, ha⟩
      · -- Had they done the same, the strict one would have accepted the source as well.
        rw [h4] at hno
        have hsome : (c.arity true).accept? source = some (c1.arity true) :=
          accept?_eq_some_iff.mpr ⟨hstop, hno, h3⟩
        cases hstrict.symm.trans hsome
      · have hle := alarms_le (extends_acceptAll? sources h2)
        exact Nat.lt_of_lt_of_le (Nat.lt_of_le_of_lt (Nat.zero_le _) ha) hle
    | some c1 =>
      obtain ⟨hstop, hno, hc1⟩ := accept?_eq_some_iff.mp hstrict
      -- The strict one has accepted the source, so there was nothing to warn about.
      rcases hparts with ⟨c2, h3, h4, hsame⟩ | ⟨hf, -⟩
      · obtain rfl : c1 = c2.arity true := hc1.symm.trans h3
        have hlenient : (c.arity false).accept? source = some (c2.arity false) :=
          accept?_eq_some_iff.mpr ⟨hstop, hno, h4⟩
        rw [acceptAll?, acceptAll?, hstrict, hlenient]
        rw [h3] at hoperators
        exact ih (hoperators.trans hops) (hsame.trans hquiet)
      · rw [hc1] at hf
        exact absurd hf (Nat.not_lt_of_le (Nat.le_trans (Nat.le_of_eq hno) (Nat.zero_le _)))

end Compilation

/-- Strict and lenient compilations agree exactly on sources without warnings: one accepts them with
some module if and only if the other one accepts them with that module and has recorded no warning. -/
theorem strict_accepts_iff_no_warning (board : Board) (sources : List Bytes) (M : Ir.Module) :
    (∃ c, (Compilation.start board true .numeric).acceptAll? sources = some c ∧
        c.module? = some M) ↔
      ∃ c, (Compilation.start board false .numeric).acceptAll? sources = some c ∧
        c.module? = some M ∧ c.diagnostics.warnings = [] := by
  rcases Compilation.acceptAll?_arity (c := .start board true .numeric) sources rfl rfl with
    ⟨c', hstrict, hlenient, hquiet⟩ | ⟨hstrict, hlenient⟩
  · constructor
    · rintro ⟨c, hc, hM⟩
      obtain rfl : c'.arity true = c := Option.some.inj (hstrict.symm.trans hc)
      exact ⟨c'.arity false, hlenient, hM, List.length_eq_zero_iff.mp hquiet⟩
    · rintro ⟨c, hc, hM, -⟩
      obtain rfl : c'.arity false = c := Option.some.inj (hlenient.symm.trans hc)
      exact ⟨c'.arity true, hstrict, hM⟩
  · constructor
    · rintro ⟨c, hc, -⟩
      cases hstrict.symm.trans hc
    · rintro ⟨c, hc, -, hnone⟩
      have halarm := hlenient c hc
      exact absurd (List.length_eq_zero_iff.mpr hnone) (Nat.ne_of_gt halarm)

end Lowering

end BoardPython
