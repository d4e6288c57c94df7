import BoardPython.Proofs.DeclarationSteps
import BoardPython.Proofs.UnitStages

/-! No error is lost. Errors come up in three places: a function cannot be declared, a statement
outside of functions fails, or a statement inside of another one or of a function does, which itself
goes on. There is a module if and only if there was none of them, in no unit so far. -/
namespace BoardPython.Lowering

namespace Lower

mutual

/-- A statement does not fail in a state. Nor do the statements in it, each one in the state that
lowering has come to. -/
def Faultless (env : Environment) : Stmt → State → Prop
  | .branch pos cond yes no, s =>
    (∃ s', stmt env (.branch pos cond yes no) s = .ok () s') ∧
      ∃ x s1, condition env cond (after nextIf s) = .ok x s1 ∧
        FaultlessAll env yes (s1.mapBody (Body.enterThen (s.progress.ifs + 1) x)) ∧
        FaultlessAll env no
          ((after (stmts env yes) (s1.mapBody (Body.enterThen (s.progress.ifs + 1) x))).mapBody
            (Body.leaveBranch (s.progress.ifs + 1) (.ifElse (s.progress.ifs + 1))))
  | .loop pos cond body, s =>
    (∃ s', stmt env (.loop pos cond body) s = .ok () s') ∧
      ∃ x s1, condition env cond
          ((after nextWhile s).mapBody (Body.enterLoop (s.progress.whiles + 1))) = .ok x s1 ∧
        FaultlessAll env body (s1.mapBody (Body.enterLoopBody (s.progress.whiles + 1) x))
  | st, s => ∃ s', stmt env st s = .ok () s'

def FaultlessAll (env : Environment) : List Stmt → State → Prop
  | [], _ => True
  | st :: ss, s => Faultless env st s ∧ FaultlessAll env ss (after (reported (stmt env st)) s)

end

end Lower

namespace Compilation

/-- The functions that a unit defines can all be declared, one after the other. -/
def DeclaresAll : Compilation → List Stmt → Prop
  | _, [] => True
  | c, .define pos name params returns body :: rest =>
    ∃ r, c.define pos name params returns body = .ok r ∧ r.1.DeclaresAll rest
  | c, _ :: rest => c.DeclaresAll rest

/-- The statements of a unit are lowered one after the other, and no statement fails. They have become
items: a definition is there with its body, the others are as they were. -/
inductive LowersAll : Compilation → List Stmt → List Item → Prop
  | nil {c : Compilation} : LowersAll c [] []
  | definition {c : Compilation} {pos : Position} {name : String} {params : List Param}
      {returns : Option String} {body : List Stmt} {d : Definition} {rest : List Stmt}
      {items : List Item} (hbody : d.body = body)
      (hfaultless : Lower.FaultlessAll c.environment body
        (Lower.after d.prologue ⟨c.progress, .ofSignature d.signature⟩))
      (hrest : LowersAll (c.lowerDefinition d) rest items) :
      LowersAll c (.define pos name params returns body :: rest) (.definition d :: items)
  | statement {c : Compilation} {st : Stmt} {rest : List Stmt} {items : List Item}
      (hst : st.defined? = none) (hfaultless : Lower.Faultless c.environment st c.state)
      (hrest : LowersAll (c.lowerTop st) rest items) :
      LowersAll c (st :: rest) (.statement st :: items)

/-- All functions of a unit are declared, and no statement in it fails, at any depth. -/
structure Faultless (c : Compilation) (unit : List Stmt) : Prop where
  declared : c.DeclaresAll unit
  lowered : (c.declareAll unit).1.LowersAll unit (c.declareAll unit).2

def recorded (c : Compilation) (unit : List Stmt) : List Diagnostic :=
  (c.lowerUnit unit).diagnostics.items.drop c.diagnostics.items.length

end Compilation

/-! ### Statements -/

variable {names : String → Prop} {s s' : State}

theorem State.Change.faults_eq (h : Change names False s s') : s'.faults = s.faults := by
  cases h with
  | keep hscope hlocals hglobals hitems =>
    obtain ⟨new, hnew, hwarnings⟩ := hitems
    have hnone : new.filter (fun d => d.severity == .error) = [] := by
      rw [List.filter_eq_nil_iff]
      intro d hd
      rw [hwarnings d hd]
      decide
    unfold State.faults Diagnostics.errorCount Diagnostics.errors
    rw [hnew, List.filter_append, hnone, List.append_nil]
  | report hnested => exact hnested.elim
  | declareLocal htype | declareGlobal htype hinitial hfree hname => rfl

theorem State.faults_eq_of_changes (h : Relation.ReflTransGen (Change names False) s s') :
    s'.faults = s.faults := by
  induction h with
  | refl => rfl
  | tail _ hstep ih => exact hstep.faults_eq.trans ih

namespace Lower

variable {env : Environment} {s s' : State}

theorem faults_le_stmts (env : Environment) (ss : List Stmt) (s : State) :
    s.faults ≤ (after (stmts env ss) s).faults := (extends_stmts ss s).progress.errorCount_le

theorem faults_le_reported (env : Environment) (st : Stmt) (s : State) :
    s.faults ≤ (after (reported (stmt env st)) s).faults :=
  (extends_reported (extends_stmt st) s).progress.errorCount_le

variable {cond : Expr} {x : Ir.Operand} {st : Stmt} {s1 : State}

theorem faults_condition (henv : env.operators.Lawful) (h : condition env cond s = .ok x s') :
    s'.faults = s.faults := by
  have hchanges : Meets (State.Change (fun _ => True) False) s (condition env cond) fun _ _ => True :=
    (couplesExpr_changes henv).condition cond s
  exact State.faults_eq_of_changes (hchanges.of_ok h).1

theorem after_reported (h : stmt env st s = .ok () s') : after (reported (stmt env st)) s = s' := by
  unfold after reported
  rw [h]

/-- A statement with no others in it adds an error if and only if it fails. -/
theorem ok_iff_of_changes
    (h : Meets (State.Change (fun _ => True) False) s (stmt env st) fun _ _ => True) :
    (∃ s', stmt env st s = .ok () s') ↔ (after (reported (stmt env st)) s).faults ≤ s.faults := by
  constructor
  · rintro ⟨s', hs'⟩
    rw [after_reported hs']
    exact Nat.le_of_eq (State.faults_eq_of_changes (h.of_ok hs').1)
  · exact fun hno => ⟨_, stmt_eq_ok hno⟩

theorem faultless_of_simple (hst : isSimple st = true) :
    Faultless env st s ↔ ∃ s', stmt env st s = .ok () s' := by
  cases st with
  | branch pos cond yes no | loop pos cond body | ret pos e => cases hst
  | _ => rw [Faultless] <;> simp

theorem faultless_simple_iff (henv : env.operators.Lawful) (hst : isSimple st = true) :
    Faultless env st s ↔ (after (reported (stmt env st)) s).faults ≤ s.faults :=
  (faultless_of_simple hst).trans
    (ok_iff_of_changes ((couples_changes henv).simple () hst (fun _ _ => trivial) s))

theorem after_stmts_cons (st : Stmt) (ss : List Stmt) (s : State) :
    after (stmts env (st :: ss)) s = after (stmts env ss) (after (reported (stmt env st)) s) := by
  obtain ⟨s', h⟩ := stmts_eq_ok env (st :: ss) s
  rw [after_of_ok h]
  rw [stmts] at h
  obtain ⟨_, s1, h1, h2⟩ := bind_eq_ok h
  rw [after_of_ok h1, after_of_ok h2]

theorem branch_of_condition (pos : Position) (yes no : List Stmt)
    (hx : condition env cond (after nextIf s) = .ok x s1) :
    let id := s.progress.ifs + 1
    let s3 := after (stmts env yes) (s1.mapBody (Body.enterThen id x))
    let s5 := after (stmts env no) (s3.mapBody (Body.leaveBranch id (.ifElse id)))
    stmt env (.branch pos cond yes no) s = .ok () (s5.mapBody (Body.leaveBranch id (.ifMerge id))) := by
  intro id s3 s5
  obtain ⟨t3, h3⟩ := stmts_eq_ok env yes (s1.mapBody (Body.enterThen id x))
  obtain rfl : s3 = t3 := after_of_ok h3
  obtain ⟨t5, h5⟩ := stmts_eq_ok env no (s3.mapBody (Body.leaveBranch id (.ifElse id)))
  obtain rfl : s5 = t5 := after_of_ok h5
  have hid : nextIf s = .ok id (after nextIf s) := rfl
  rw [stmt, bind_of_ok hid, bind_of_ok hx]
  exact (bind_of_ok h3).trans (bind_of_ok h5)

theorem loop_of_condition (pos : Position) (body : List Stmt)
    (hx : condition env cond
      ((after nextWhile s).mapBody (Body.enterLoop (s.progress.whiles + 1))) = .ok x s1) :
    let id := s.progress.whiles + 1
    let s3 := after (stmts env body) (s1.mapBody (Body.enterLoopBody id x))
    stmt env (.loop pos cond body) s = .ok () (s3.mapBody (Body.leaveLoop id)) := by
  intro id s3
  obtain ⟨t3, h3⟩ := stmts_eq_ok env body (s1.mapBody (Body.enterLoopBody id x))
  obtain rfl : s3 = t3 := after_of_ok h3
  rw [stmt]
  exact (bind_of_ok hx).trans (bind_of_ok h3)

mutual

/-- A statement adds no error if and only if neither it nor a statement in it fails. -/
theorem faultless_iff (henv : env.operators.Lawful) : ∀ (st : Stmt) (s : State),
    Faultless env st s ↔ (after (reported (stmt env st)) s).faults ≤ s.faults
  | .branch pos cond yes no, s => by
    rw [Faultless]
    constructor
    · rintro ⟨-, x, s1, hx, hyes, hno⟩
      have hcond := faults_condition henv hx
      rw [faultlessAll_iff henv] at hyes hno
      rw [after_reported (branch_of_condition pos yes no hx)]
      exact Nat.le_trans hno (Nat.le_trans hyes (Nat.le_of_eq hcond))
    · intro hle
      have h := stmt_eq_ok hle
      obtain ⟨id, x, s1, s3, s5, rfl, hx, h3, he3, h5, he5, -⟩ := branch_eq_ok h hle
      refine ⟨⟨_, h⟩, x, s1, hx, ?_, ?_⟩
      · rw [faultlessAll_iff henv, after_of_ok h3]
        exact he3
      · rw [faultlessAll_iff henv, after_of_ok h3, after_of_ok h5]
        exact he5
  | .loop pos cond body, s => by
    rw [Faultless]
    constructor
    · rintro ⟨-, x, s1, hx, hbody⟩
      have hcond := faults_condition henv hx
      rw [faultlessAll_iff henv] at hbody
      rw [after_reported (loop_of_condition pos body hx)]
      exact Nat.le_trans hbody (Nat.le_of_eq hcond)
    · intro hle
      have h := stmt_eq_ok hle
      obtain ⟨id, x, s1, s3, rfl, hx, h3, he3, -⟩ := loop_eq_ok h hle
      refine ⟨⟨_, h⟩, x, s1, hx, ?_⟩
      rw [faultlessAll_iff henv, after_of_ok h3]
      exact he3
  | .ret pos e, s => by
    rw [Faultless]
    · refine ok_iff_of_changes ?_
      rw [stmt]
      exact (couples_changes henv).ret () pos e s
    · simp
    · simp
  | .evaluate .., s | .pass .., s | .globals .., s | .assign .., s | .augment .., s
  | .define .., s => faultless_simple_iff henv rfl

theorem faultlessAll_iff (henv : env.operators.Lawful) : ∀ (ss : List Stmt) (s : State),
    FaultlessAll env ss s ↔ (after (stmts env ss) s).faults ≤ s.faults
  | [], s => by
    rw [FaultlessAll, stmts]
    exact iff_of_true trivial (Nat.le_refl _)
  | st :: ss, s => by
    rw [FaultlessAll, faultless_iff henv st, faultlessAll_iff henv ss, after_stmts_cons]
    -- No error is taken back, so there are none in the end if there are none on the way.
    have hfirst := faults_le_reported env st s
    have hrest := faults_le_stmts env ss (after (reported (stmt env st)) s)
    omega

end

end Lower

/-! ### Units -/

namespace Compilation

variable {c : Compilation}

/-- Declaring functions adds no error if and only if all of them can be declared. -/
theorem declaresAll_iff (unit : List Stmt) (c : Compilation) :
    c.DeclaresAll unit ↔ (c.declareAll unit).1.faults ≤ c.faults := by
  induction unit generalizing c with
  | nil => exact iff_of_true trivial (Nat.le_refl _)
  | cons st unit ih =>
    cases st with
    | define pos name params returns body =>
      rw [DeclaresAll, declareAll]
      cases h : c.define pos name params returns body with
      | error e =>
        refine iff_of_false ?_ (Nat.not_le_of_lt (c.errors_lt_declareAll_report e unit))
        rintro ⟨r, hr, -⟩
        cases hr
      | ok r =>
        have hfaults : r.1.faults = c.faults := congrArg Progress.errors (progress_define h)
        constructor
        · rintro ⟨r', hr', hall⟩
          cases hr'
          exact hfaults ▸ (ih r.1).mp hall
        · intro hle
          exact ⟨r, rfl, (ih r.1).mpr (hfaults ▸ hle)⟩
    | _ => exact ih c

variable {d : Definition} {unit : List Stmt} {items : List Item}

/-- The body of a function adds no error if and only if no statement in it fails. -/
theorem faultless_definition_iff (hc : c.operators.Lawful)
    (hd : ∀ t ∈ d.signature.params, t.zero?.isSome) :
    Lower.FaultlessAll c.environment d.body
      (Lower.after d.prologue ⟨c.progress, .ofSignature d.signature⟩) ↔
      (c.lowerDefinition d).faults ≤ c.faults := by
  set s : State := ⟨c.progress, .ofSignature d.signature⟩
  have henv : c.environment.operators.Lawful := hc
  obtain ⟨s1, -, -, h1, -, -⟩ := d.prologue_eq_ok c.progress
  have hprologue : Meets (State.Change (fun _ => True) False) s d.prologue fun _ _ => True :=
    Definition.changes_prologue hd
  have hfaults : s1.faults = c.faults := State.faults_eq_of_changes (hprologue.of_ok h1).1
  have hbody : (c.lowerDefinition d).faults =
      (Lower.after (Lower.stmts c.environment d.body) s1).faults := by
    obtain ⟨s2, h2⟩ := Lower.stmts_eq_ok c.environment d.body s1
    have h : d.lower c.environment s = .ok () (s2.mapBody (·.finish (.ret d.ending))) := by
      rw [Definition.lower_eq, bind_of_ok h1, bind_of_ok h2]
      rfl
    rw [lowerDefinition_eq, Lower.after_of_ok h2]
    change (c.bodyState d).faults = _
    unfold bodyState
    rw [Lower.after_of_ok h]
    rfl
  rw [Lower.after_of_ok h1, Lower.faultlessAll_iff henv, hbody, hfaults]

theorem faultless_statement_iff (hc : c.operators.Lawful) (st : Stmt) :
    Lower.Faultless c.environment st c.state ↔ (c.lowerTop st).faults ≤ c.faults := by
  have henv : c.environment.operators.Lawful := hc
  rw [Lower.faultless_iff henv, ← state_lowerTop]
  rfl

/-- No error is taken back, so that items add none if and only if neither the first one does nor the
others do. -/
theorem faults_cons_le_iff (c : Compilation) (item : Item) (items : List Item) :
    ((item :: items).foldl lowerItem c).faults ≤ c.faults ↔
      (c.lowerItem item).faults ≤ c.faults ∧
        (items.foldl lowerItem (c.lowerItem item)).faults ≤ (c.lowerItem item).faults := by
  have hfirst : c.faults ≤ (c.lowerItem item).faults := (c.extends_lowerItem item).errorCount_le
  have hrest : (c.lowerItem item).faults ≤ (items.foldl lowerItem (c.lowerItem item)).faults :=
    (extends_lowerItems items (c.lowerItem item)).errorCount_le
  rw [List.foldl_cons]
  omega

theorem lowersAll_definition_iff {pos : Position} {name : String} {params : List Param}
    {returns : Option String} {body : List Stmt} (hbody : d.body = body) :
    c.LowersAll (.define pos name params returns body :: unit) (.definition d :: items) ↔
      Lower.FaultlessAll c.environment d.body
        (Lower.after d.prologue ⟨c.progress, .ofSignature d.signature⟩) ∧
        (c.lowerDefinition d).LowersAll unit items := by
  rw [hbody]
  constructor
  · intro h
    cases h with
    | definition _ hfaultless hrest => exact ⟨hfaultless, hrest⟩
  · exact fun h => .definition hbody h.1 h.2

theorem lowersAll_statement_iff {st : Stmt} (hst : st.defined? = none) :
    c.LowersAll (st :: unit) (.statement st :: items) ↔
      Lower.Faultless c.environment st c.state ∧ (c.lowerTop st).LowersAll unit items := by
  constructor
  · intro h
    cases h with
    | statement _ hfaultless hrest => exact ⟨hfaultless, hrest⟩
  · exact fun h => .statement hst h.1 h.2

/-- Lowering the items of a unit adds no error if and only if no statement fails. -/
theorem lowersAll_iff (unit : List Stmt) {c₀ : Compilation} (hdeclares : c₀.DeclaresAll unit)
    (hc : c.operators.Lawful) :
    c.LowersAll unit (c₀.declareAll unit).2 ↔
      ((c₀.declareAll unit).2.foldl lowerItem c).faults ≤ c.faults := by
  induction unit generalizing c₀ c with
  | nil => exact iff_of_true .nil (Nat.le_refl _)
  | cons st unit ih =>
    have hrest (item : Item) {c₁ : Compilation} (hdeclares : c₁.DeclaresAll unit) :
        (c.lowerItem item).LowersAll unit (c₁.declareAll unit).2 ↔
          ((c₁.declareAll unit).2.foldl lowerItem (c.lowerItem item)).faults ≤
            (c.lowerItem item).faults := by
      have henv := congrArg Environment.operators (c.environment_lowerItem item)
      have hc' : (c.lowerItem item).operators = c.operators := henv
      exact ih hdeclares (hc'.symm ▸ hc)
    have hstatement (hst : st.defined? = none) (hdeclares : c₀.DeclaresAll unit) :
        c.LowersAll (st :: unit) (.statement st :: (c₀.declareAll unit).2) ↔
          ((Item.statement st :: (c₀.declareAll unit).2).foldl lowerItem c).faults ≤ c.faults := by
      rw [lowersAll_statement_iff hst, faults_cons_le_iff, faultless_statement_iff hc]
      exact and_congr_right fun _ => hrest (.statement st) hdeclares
    cases st with
    | define pos name params returns body =>
      obtain ⟨r, hr, hdeclares⟩ := hdeclares
      obtain ⟨c₁, d⟩ := r
      obtain ⟨-, -, result, types, -, htypes, hd, -⟩ := define_eq_ok hr
      have hparams : ∀ t ∈ d.signature.params, t.zero?.isSome := by
        rw [hd]
        exact isSome_zero?_of_paramTypes htypes
      have hbody : d.body = body := by rw [hd]
      rw [declareAll, hr]
      dsimp only
      rw [lowersAll_definition_iff hbody, faults_cons_le_iff, faultless_definition_iff hc hparams]
      exact and_congr_right fun _ => hrest (.definition d) hdeclares
    | _ => exact hstatement rfl hdeclares

/-- A unit adds no error if and only if all of its functions are declared and no statement in it
fails. -/
theorem faultless_iff (hc : c.operators.Lawful) (unit : List Stmt) :
    c.Faultless unit ↔ (c.lowerUnit unit).faults ≤ c.faults := by
  have hdeclares := declares_declareAll unit c
  have hfirst : c.faults ≤ (c.declareAll unit).1.faults := hdeclares.progress_extends.errorCount_le
  have hrest : (c.declareAll unit).1.faults ≤ (c.lowerUnit unit).faults :=
    c.errorCount_declareAll_le unit
  have hc' : (c.declareAll unit).1.operators.Lawful := hdeclares.operators ▸ hc
  have hlowers (hall : c.DeclaresAll unit) :
      (c.declareAll unit).1.LowersAll unit (c.declareAll unit).2 ↔
        (c.lowerUnit unit).faults ≤ (c.declareAll unit).1.faults := lowersAll_iff unit hall hc'
  constructor
  · rintro ⟨hall, hlowered⟩
    exact Nat.le_trans ((hlowers hall).mp hlowered) ((declaresAll_iff unit c).mp hall)
  · intro hle
    have hall := (declaresAll_iff unit c).mpr (Nat.le_trans hrest hle)
    exact ⟨hall, (hlowers hall).mpr (Nat.le_trans hle hfirst)⟩

theorem items_lowerUnit (c : Compilation) (unit : List Stmt) :
    (c.lowerUnit unit).diagnostics.items = c.diagnostics.items ++ c.recorded unit :=
  List.prefix_iff_eq_append.mp (c.extends_lowerUnit unit).items |>.symm

theorem recorded_iff (c : Compilation) (unit : List Stmt) :
    (∀ d ∈ c.recorded unit, d.severity ≠ .error) ↔ (c.lowerUnit unit).faults ≤ c.faults := by
  have hcount : (c.lowerUnit unit).faults =
      c.faults + ((c.recorded unit).filter (fun d => d.severity == .error)).length := by
    change ((c.lowerUnit unit).diagnostics.items.filter _).length = _
    rw [items_lowerUnit, List.filter_append, List.length_append]
    rfl
  rw [hcount]
  simp

/-- No error is taken back, so that there are none after some units if and only if no unit added
one. -/
theorem faults_lowerUnits_le_iff (units : List (List Stmt)) (c : Compilation) :
    (units.foldl lowerUnit c).faults ≤ c.faults ↔
      ∀ before unit after, units = before ++ unit :: after →
        ((before.foldl lowerUnit c).lowerUnit unit).faults ≤ (before.foldl lowerUnit c).faults := by
  induction units generalizing c with
  | nil =>
    refine iff_of_true (Nat.le_refl _) fun before unit after h => ?_
    simp at h
  | cons first units ih =>
    have hfirst : c.faults ≤ (c.lowerUnit first).faults := (c.extends_lowerUnit first).errorCount_le
    have hrest : (c.lowerUnit first).faults ≤ (units.foldl lowerUnit (c.lowerUnit first)).faults :=
      (extends_lowerUnits units (c.lowerUnit first)).errorCount_le
    rw [List.foldl_cons]
    constructor
    · intro hle before unit after h
      cases before with
      | nil =>
        cases h
        exact Nat.le_trans hrest hle
      | cons _ before =>
        cases h
        exact (ih (c.lowerUnit first)).mp (Nat.le_trans hle hfirst) before unit after rfl
    · intro hall
      have hunits := (ih (c.lowerUnit first)).mpr fun before unit after h =>
        hall (first :: before) unit after (congrArg (first :: ·) h)
      exact Nat.le_trans hunits (hall [] first units rfl)

theorem operators_lowerUnits (units : List (List Stmt)) (c : Compilation) :
    (units.foldl lowerUnit c).operators = c.operators := by
  induction units generalizing c with
  | nil => rfl
  | cons unit units ih => exact (ih (c.lowerUnit unit)).trans (operators_lowerUnit unit c)

theorem isSome_module?_iff (c : Compilation) : c.module?.isSome ↔ c.faults ≤ 0 := by
  have hfaults : c.diagnostics.hasErrors = false ↔ c.faults = 0 := c.hasErrors_eq_false_iff
  unfold module?
  rw [Nat.le_zero, ← hfaults]
  cases c.diagnostics.hasErrors <;> simp

/-- No error is lost, and none is taken back. A unit adds to the diagnostics and leaves those that
there are. There is a module if and only if no unit so far has come with an error. This is so if and
only if every function of these units was declared, and every statement was lowered without one, those
inside of others included. -/
theorem module_iff_faultless (board : Board) (strict : Bool) (units : List (List Stmt)) :
    let c₀ := start board strict .numeric
    let c := units.foldl lowerUnit c₀
    (∀ unit, (c.lowerUnit unit).diagnostics.items = c.diagnostics.items ++ c.recorded unit) ∧
    (c.module?.isSome ↔ ∀ before unit after, units = before ++ unit :: after →
      ∀ d ∈ (before.foldl lowerUnit c₀).recorded unit, d.severity ≠ .error) ∧
    (c.module?.isSome ↔ ∀ before unit after, units = before ++ unit :: after →
      (before.foldl lowerUnit c₀).Faultless unit) := by
  intro c₀ c
  have hlawful (before : List (List Stmt)) : (before.foldl lowerUnit c₀).operators.Lawful := by
    rw [operators_lowerUnits]
    exact Operators.lawful_numeric
  have hmodule : c.module?.isSome ↔ ∀ before unit after, units = before ++ unit :: after →
      ((before.foldl lowerUnit c₀).lowerUnit unit).faults ≤ (before.foldl lowerUnit c₀).faults :=
    c.isSome_module?_iff.trans (faults_lowerUnits_le_iff units c₀)
  refine ⟨c.items_lowerUnit, hmodule.trans ?_, hmodule.trans ?_⟩
  · exact forall₃_congr fun before unit after => imp_congr_right fun _ => (recorded_iff _ unit).symm
  · exact forall₃_congr fun before unit after => imp_congr_right fun _ =>
      (faultless_iff (hlawful before) unit).symm

section Sample

def climb : List Stmt :=
  (parseSource (.ofString "n = 1\nif n:\n    while n < 9:\n        n = n + 1\n")).stmts

/-- Reads a variable that there is not, in a loop inside of a branch inside of a function. -/
def stumble : List Stmt :=
  (parseSource (.ofString ("def tick(step):\n    if step:\n        while step:\n" ++
    "            step = missing\n    print(step)\n"))).stmts

/-- One statement fails, deep inside of others that go on, and there is no module any more. -/
theorem stumble_is_fatal :
    let c₀ := start .uno true .numeric
    c₀.Faultless climb ∧ ¬([climb].foldl lowerUnit c₀).Faultless stumble ∧
      ([climb].foldl lowerUnit c₀).module?.isSome ∧
      ¬([climb, stumble, climb].foldl lowerUnit c₀).module?.isSome := by
  intro c₀
  obtain ⟨-, -, hone⟩ := module_iff_faultless .uno true [climb]
  obtain ⟨-, -, htwo⟩ := module_iff_faultless .uno true [climb, stumble]
  obtain ⟨-, -, hthree⟩ := module_iff_faultless .uno true [climb, stumble, climb]
  have hsome : ([climb].foldl lowerUnit c₀).module?.isSome := by decide +kernel
  have hnone : ¬([climb, stumble].foldl lowerUnit c₀).module?.isSome := by decide +kernel
  have hclimb : c₀.Faultless climb := hone.mp hsome [] climb [] rfl
  have hstumble : ¬([climb].foldl lowerUnit c₀).Faultless stumble := by
    intro hfaultless
    refine hnone (htwo.mpr fun before unit after h => ?_)
    rcases before with _ | ⟨first, _ | ⟨second, before⟩⟩
    · cases h
      exact hclimb
    · cases h
      exact hfaultless
    · simp at h
  exact ⟨hclimb, hstumble, hsome, fun h => hstumble (hthree.mp h [climb] stumble [climb] rfl)⟩

end Sample

end Compilation

end BoardPython.Lowering
