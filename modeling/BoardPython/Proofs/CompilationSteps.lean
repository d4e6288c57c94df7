import BoardPython.Proofs.FunctionFlow

/-! What a unit does to a compilation. First its functions are declared, and then each item takes the
state of lowering a step further. -/
namespace BoardPython

def Ir.Function.header (f : Ir.Function) : Ir.Function := { f with blocks := [] }

theorem Ir.Function.getElem?_of_headers {fs fs' : List Function} {i : Nat} {f : Function}
    (hheaders : fs.map Function.header <+: fs'.map Function.header) (hf : fs[i]? = some f) :
    ∃ f', fs'[i]? = some f' ∧ f'.header = f.header := by
  obtain ⟨added, hadded⟩ := hheaders
  have hlt : i < fs.length := (List.getElem?_eq_some_iff.mp hf).1
  have hheader : (fs'.map Function.header)[i]? = some f.header := by
    rw [← hadded, List.getElem?_append_left (by rwa [List.length_map]), List.getElem?_map, hf]
    rfl
  rw [List.getElem?_map] at hheader
  exact Option.map_eq_some_iff.mp hheader

namespace Lowering

theorem map_modify_eq {α β : Type} {f : α → β} {g : α → α} (h : ∀ a, f (g a) = f a) {l : List α}
    {i : Nat} : (l.modify i g).map f = l.map f := by
  induction l generalizing i with
  | nil => simp
  | cons a l ih =>
    cases i with
    | zero => simp [h]
    | succ i => simp [ih]

theorem mem_or_of_mem_modify {α : Type} {l : List α} {i : Nat} {g : α → α} {a : α}
    (h : a ∈ l.modify i g) : a ∈ l ∨ ∃ b ∈ l, a = g b := by
  obtain ⟨j, hj⟩ := List.mem_iff_getElem?.mp h
  by_cases hij : i = j
  · rw [hij, List.getElem?_modify_eq] at hj
    obtain ⟨b, hb, rfl⟩ := Option.map_eq_some_iff.mp hj
    exact .inr ⟨b, List.mem_of_getElem? hb, rfl⟩
  · rw [List.getElem?_modify_ne _ _ hij] at hj
    exact .inl (List.mem_of_getElem? hj)

theorem Definition.extends_lower (env : Environment) (d : Definition) :
    Lower.Stays State.Extends (d.lower env) := by
  rw [Definition.lower_eq]
  have hwalks : Lower.Walks env (fun _ => True) State.Extends := Lower.walks_extends
  apply hwalks.bind fun s => (d.straight_prologue s).toExtends
  intro _
  exact hwalks.bind (Lower.extends_stmts d.body) fun _ s => hwalks.finish s _

namespace Compilation

variable {c : Compilation}

def initHeader : Ir.Function := ⟨initName, .void, [], true, []⟩

def state (c : Compilation) : State := ⟨c.progress, c.top⟩

theorem run_snd {α : Type} (c : Compilation) (frame : Frame) (x : Lower α) :
    (c.run frame x).2 = ({ c with progress := (Lower.after x ⟨c.progress, frame⟩).progress },
      (Lower.after x ⟨c.progress, frame⟩).frame) := by
  unfold run Lower.after
  cases x ⟨c.progress, frame⟩ <;> rfl

def bodyState (c : Compilation) (d : Definition) : State :=
  Lower.after (d.lower c.environment) ⟨c.progress, .ofSignature d.signature⟩

theorem lower_eq_bodyState (c : Compilation) (d : Definition) :
    d.lower c.environment ⟨c.progress, .ofSignature d.signature⟩ = .ok () (c.bodyState d) := by
  obtain ⟨s, hs⟩ := d.lower_eq_ok c.environment c.progress
  rw [bodyState, Lower.after_of_ok hs, hs]

theorem lowerDefinition_eq (c : Compilation) (d : Definition) :
    c.lowerDefinition d = { c with
      progress := (c.bodyState d).progress
      functions := c.functions.modify d.signature.callee.id fun f =>
        { f with blocks := (c.bodyState d).frame.body.blocks } } := by
  unfold lowerDefinition bodyState
  have h := c.run_snd (.ofSignature d.signature) (d.lower c.environment)
  simp only [h]

theorem lowerTop_eq (c : Compilation) (s : Stmt) :
    c.lowerTop s = { c with
      progress := (Lower.after (Lower.reported (Lower.stmt c.environment s)) c.state).progress
      top := (Lower.after (Lower.reported (Lower.stmt c.environment s)) c.state).frame } := by
  unfold lowerTop
  have h := c.run_snd c.top (Lower.reported (Lower.stmt c.environment s))
  simp only [h]
  rfl

theorem state_lowerTop (c : Compilation) (s : Stmt) :
    (c.lowerTop s).state = Lower.after (Lower.reported (Lower.stmt c.environment s)) c.state := by
  rw [lowerTop_eq]
  rfl

theorem lowerTop_eq_ok {s : Stmt} (hno : (c.lowerTop s).progress.errors ≤ c.progress.errors) :
    Lower.stmt c.environment s c.state = .ok () (c.lowerTop s).state := by
  have hstate := c.state_lowerTop s
  rw [hstate]
  refine Lower.stmt_eq_ok ?_
  rw [← hstate]
  exact hno

theorem top_lowerDefinition (c : Compilation) (d : Definition) :
    (c.lowerDefinition d).top = c.top := by
  rw [lowerDefinition_eq]

theorem environment_lowerItem (c : Compilation) (item : Item) :
    (c.lowerItem item).environment = c.environment := by
  cases item with
  | definition d =>
    rw [lowerItem, lowerDefinition_eq]
    rfl
  | statement s =>
    rw [lowerItem, lowerTop_eq]
    rfl

theorem environment_lowerItems (items : List Item) (c : Compilation) :
    (items.foldl lowerItem c).environment = c.environment := by
  induction items generalizing c with
  | nil => rfl
  | cons item items ih => rw [List.foldl_cons, ih, environment_lowerItem]

theorem extends_lowerItem (c : Compilation) (item : Item) :
    c.progress.Extends (c.lowerItem item).progress := by
  cases item with
  | definition d =>
    rw [lowerItem, lowerDefinition_eq]
    exact (d.extends_lower c.environment ⟨c.progress, .ofSignature d.signature⟩).progress
  | statement s =>
    rw [lowerItem, lowerTop_eq]
    exact (Lower.extends_reported (Lower.extends_stmt s) c.state).progress

theorem extends_lowerItems (items : List Item) (c : Compilation) :
    c.progress.Extends (items.foldl lowerItem c).progress := by
  induction items generalizing c with
  | nil => exact .refl _
  | cons item items ih => exact (c.extends_lowerItem item).trans (ih (c.lowerItem item))

theorem lowerUnit_eq (c : Compilation) (unit : List Stmt) :
    ∃ log, c.lowerUnit unit =
      { (c.declareAll unit).2.foldl lowerItem (c.declareAll unit).1 with
        top := { ((c.declareAll unit).2.foldl lowerItem (c.declareAll unit).1).top with
          body := ((c.declareAll unit).2.foldl lowerItem (c.declareAll unit).1).top.body.finish
            (.ret none) }
        log := log } :=
  ⟨_, rfl⟩

/-- Declaring functions changes the functions, and reports those that cannot be declared. -/
structure Declares (c c' : Compilation) : Prop where
  board : c'.board = c.board
  strict : c'.strict = c.strict
  operators : c'.operators = c.operators
  top : c'.top = c.top
  progress : ∃ added, c'.progress =
    { c.progress with diagnostics := ⟨c.progress.diagnostics.items ++ added⟩ }

theorem Declares.refl (c : Compilation) : c.Declares c :=
  ⟨rfl, rfl, rfl, rfl, [], by simp⟩

variable {c' : Compilation} {source : Bytes}

theorem Declares.trans {c'' : Compilation} (h : c.Declares c') (h' : c'.Declares c'') :
    c.Declares c'' := by
  obtain ⟨added, hadded⟩ := h.progress
  obtain ⟨added', hadded'⟩ := h'.progress
  refine ⟨h'.board.trans h.board, h'.strict.trans h.strict, h'.operators.trans h.operators,
    h'.top.trans h.top, added ++ added', ?_⟩
  rw [hadded', hadded]
  simp

theorem declares_report (c : Compilation) (e : Error) : c.Declares (c.report e) :=
  ⟨rfl, rfl, rfl, rfl, [_], rfl⟩

theorem Declares.progress_extends (h : c.Declares c') :
    c.progress.Extends c'.progress := by
  obtain ⟨added, hadded⟩ := h.progress
  rw [hadded]
  exact { Progress.Extends.refl c.progress with items := List.prefix_append _ _ }

def declaration (name : String) (params : List String) (types : List ValueType)
    (result : ValueType) : Ir.Function :=
  ⟨name, result.ir, (params.zip types).map fun (name, t) => ⟨some name, t.ir⟩, false, []⟩

def newSignature (c : Compilation) (name : String) (params : List String) (types : List ValueType)
    (result : ValueType) : Signature :=
  ⟨name, types, result,
    ⟨c.functions.length, name, (declaration name params types result).params.map (·.type),
      result.ir⟩⟩

variable {pos : Position} {name : String} {params : List Param} {returns : Option String}
  {body : List Stmt} {d : Definition}

theorem define_eq_ok
    (h : c.define pos name params returns body = .ok (c', d)) :
    c.table.find? name = none ∧ name ≠ initName ∧ ∃ result types,
      resultType pos returns = .ok result ∧ paramTypes name [] params = .ok types ∧
      d = ⟨c.newSignature name (params.map (·.name)) types result, params.map (·.name), body⟩ ∧
      c' = { c with
        functions := c.functions ++ [declaration name (params.map (·.name)) types result]
        table := c.table.declare name d.signature
        defined := c.defined + 1 } := by
  unfold define at h
  by_cases hfree : (c.table.find? name).isSome
  · rw [if_pos hfree] at h
    cases h
  by_cases hinit : name = initName
  · rw [if_neg hfree, if_pos hinit] at h
    cases h
  rw [if_neg hfree, if_neg hinit] at h
  have hnone : c.table.find? name = none := by
    simpa using hfree
  refine ⟨hnone, hinit, ?_⟩
  cases hresult : resultType pos returns with
  | error e =>
    rw [hresult] at h
    cases h
  | ok result =>
    cases htypes : paramTypes name [] params with
    | error e =>
      rw [hresult, htypes] at h
      cases h
    | ok types =>
      rw [hresult, htypes] at h
      cases h
      exact ⟨result, types, rfl, rfl, rfl, rfl⟩

theorem declares_define (h : c.define pos name params returns body = .ok (c', d)) :
    c.Declares c' := by
  obtain ⟨-, -, result, types, -, -, -, rfl⟩ := define_eq_ok h
  exact ⟨rfl, rfl, rfl, rfl, [], by simp⟩

def mapSettings (c : Compilation) (f : Bool → Bool) (g : Operators → Operators) : Compilation :=
  { c with strict := f c.strict, operators := g c.operators }

theorem define_mapSettings (c : Compilation) (f : Bool → Bool) (g : Operators → Operators)
    (pos : Position) (name : String) (params : List Param) (returns : Option String)
    (body : List Stmt) : (c.mapSettings f g).define pos name params returns body =
      (c.define pos name params returns body).map fun (c, d) => (c.mapSettings f g, d) := by
  unfold define
  change (if (c.table.find? name).isSome then _ else _) = _
  by_cases hfree : (c.table.find? name).isSome
  · rw [if_pos hfree, if_pos hfree]
    rfl
  rw [if_neg hfree, if_neg hfree]
  by_cases hinit : name = initName
  · rw [if_pos hinit, if_pos hinit]
    rfl
  rw [if_neg hinit, if_neg hinit]
  cases resultType pos returns with
  | error e => rfl
  | ok result =>
    cases paramTypes name [] params with
    | error e | ok types => rfl

theorem declareAll_mapSettings (unit : List Stmt) (c : Compilation) (f : Bool → Bool)
    (g : Operators → Operators) : (c.mapSettings f g).declareAll unit =
      ((c.declareAll unit).1.mapSettings f g, (c.declareAll unit).2) := by
  induction unit generalizing c with
  | nil => rfl
  | cons st unit ih =>
    cases st with
    | define pos name params returns body =>
      rw [declareAll, declareAll, define_mapSettings]
      cases c.define pos name params returns body with
      | error e => exact ih (c.report e)
      | ok r => exact congrArg (fun p => (p.1, Item.definition r.2 :: p.2)) (ih r.1)
    | _ => exact congrArg (fun p => (p.1, Item.statement _ :: p.2)) (ih c)

/-- Declaring functions goes from definition to definition; some are left out with an error. -/
theorem declareAll_induction {R : Compilation → Compilation → Prop} (hrefl : ∀ c, R c c)
    (hreport : ∀ c c' e, R (c.report e) c' → R c c')
    (hdefine : ∀ {c c' c'' : Compilation} {d : Definition} {pos name params returns body},
      c.define pos name params returns body = .ok (c', d) → R c' c'' → R c c'')
    (unit : List Stmt) (c : Compilation) : R c (c.declareAll unit).1 := by
  induction unit generalizing c with
  | nil => exact hrefl c
  | cons st unit ih =>
    cases st with
    | define pos name params returns body =>
      rw [declareAll]
      cases h : c.define pos name params returns body with
      | error e => exact hreport c _ e (ih (c.report e))
      | ok r => exact hdefine h (ih r.1)
    | _ => exact ih c

theorem declares_declareAll (unit : List Stmt) (c : Compilation) :
    c.Declares (c.declareAll unit).1 :=
  declareAll_induction (R := Declares) .refl (fun c _ e ih => (c.declares_report e).trans ih)
    (fun h ih => (declares_define h).trans ih) unit c

/-- The error of a definition that is left out stays. -/
theorem errors_lt_declareAll_report (c : Compilation) (e : Error) (unit : List Stmt) :
    c.progress.errors < ((c.report e).declareAll unit).1.progress.errors := by
  have hle := (declares_declareAll unit (c.report e)).progress_extends.errorCount_le
  have hreport : (c.report e).progress.errors = c.progress.errors + 1 :=
    c.progress.errorCount_report e
  omega

theorem extends_lowerUnit (c : Compilation) (unit : List Stmt) :
    c.progress.Extends (c.lowerUnit unit).progress :=
  (declares_declareAll unit c).progress_extends.trans
    (extends_lowerItems (c.declareAll unit).2 (c.declareAll unit).1)

theorem extends_lowerUnits (units : List (List Stmt)) (c : Compilation) :
    c.progress.Extends (units.foldl lowerUnit c).progress := by
  induction units generalizing c with
  | nil => exact .refl _
  | cons unit units ih => exact (c.extends_lowerUnit unit).trans (ih (c.lowerUnit unit))

/-- If units add no errors, then neither does the first one nor do the others. -/
theorem errors_le_of_cons {unit : List Stmt} {units : List (List Stmt)} {c : Compilation}
    (hno : (units.foldl lowerUnit (c.lowerUnit unit)).progress.errors ≤ c.progress.errors) :
    (c.lowerUnit unit).progress.errors ≤ c.progress.errors ∧
      (units.foldl lowerUnit (c.lowerUnit unit)).progress.errors ≤
        (c.lowerUnit unit).progress.errors :=
  ⟨Nat.le_trans (extends_lowerUnits units (c.lowerUnit unit)).errorCount_le hno,
    Nat.le_trans hno (c.extends_lowerUnit unit).errorCount_le⟩

theorem progress_define {r : Compilation × Definition} {c : Compilation}
    (h : c.define pos name params returns body = .ok r) : r.1.progress = c.progress := by
  obtain ⟨-, -, result, types, -, -, -, hc⟩ := define_eq_ok h
  rw [hc]

theorem functions_declareAll (unit : List Stmt) (c : Compilation) :
    c.functions <+: (c.declareAll unit).1.functions := by
  refine declareAll_induction (R := fun c c' => c.functions <+: c'.functions)
    (fun _ => List.prefix_rfl) (fun _ _ _ ih => ih) (fun h ih => ?_) unit c
  obtain ⟨-, -, result, types, -, -, -, rfl⟩ := define_eq_ok h
  exact (List.prefix_append _ _).trans ih

theorem headers_lowerItem (c : Compilation) (item : Item) :
    (c.lowerItem item).functions.map Ir.Function.header = c.functions.map Ir.Function.header := by
  cases item with
  | statement s =>
    rw [lowerItem, lowerTop_eq]
  | definition d =>
    rw [lowerItem, lowerDefinition_eq]
    apply map_modify_eq
    intro f
    rfl

theorem headers_lowerItems (items : List Item) (c : Compilation) :
    (items.foldl lowerItem c).functions.map Ir.Function.header =
      c.functions.map Ir.Function.header := by
  induction items generalizing c with
  | nil => rfl
  | cons item items ih => rw [List.foldl_cons, ih, headers_lowerItem]

theorem addSource_eq_ok (h : c.addSource source = .ok c') :
    (parseSource source).stop = none ∧ c' = c.lowerUnit (parseSource source).stmts := by
  unfold addSource at h
  cases hstop : (parseSource source).stop with
  | some stop =>
    simp only [hstop] at h
    cases h
  | none =>
    simp only [hstop] at h
    cases h
    exact ⟨rfl, rfl⟩

theorem hasErrors_eq_false_iff (c : Compilation) :
    c.diagnostics.hasErrors = false ↔ c.progress.errors = 0 := by
  change decide (c.progress.errors ≠ 0) = false ↔ _
  simp

theorem module?_eq_some {M : Ir.Module} (h : c.module? = some M) :
    c.progress.errors = 0 ∧ M = c.toModule := by
  unfold module? at h
  split at h
  · cases h
  · rename_i hno
    exact ⟨(hasErrors_eq_false_iff c).mp (Bool.eq_false_iff.mpr hno), (Option.some.inj h).symm⟩

/-- Adds a source, which must have neither a wrong syntax nor errors. -/
def accept? (c : Compilation) (source : Bytes) : Option Compilation :=
  match c.addSource source with
  | .ok c' => if c'.diagnostics.hasErrors then none else some c'
  | .error _ => none

/-- Adds sources, all of which must be accepted. -/
def acceptAll? : Compilation → List Bytes → Option Compilation
  | c, [] => some c
  | c, source :: sources => (c.accept? source).bind (·.acceptAll? sources)

theorem accept?_eq_some_iff :
    c.accept? source = some c' ↔ (parseSource source).stop = none ∧
      c'.progress.errors = 0 ∧ c.lowerUnit (parseSource source).stmts = c' := by
  unfold accept? addSource
  cases hstop : (parseSource source).stop with
  | some stop => simp [hstop]
  | none =>
    simp only [hstop, true_and]
    set c1 := c.lowerUnit (parseSource source).stmts
    -- With the right syntax, only errors decide.
    cases herror : c1.diagnostics.hasErrors with
    | false =>
      have hno := (hasErrors_eq_false_iff c1).mp herror
      constructor
      · intro h
        obtain rfl : c1 = c' := Option.some.inj h
        exact ⟨hno, rfl⟩
      · rintro ⟨-, rfl⟩
        rfl
    | true =>
      constructor
      · intro h
        cases h
      · rintro ⟨hno, rfl⟩
        rw [(hasErrors_eq_false_iff c1).mpr hno] at herror
        cases herror

theorem acceptAll?_cons_eq_some {sources : List Bytes}
    (h : c.acceptAll? (source :: sources) = some c') :
    c.accept? source = some (c.lowerUnit (parseSource source).stmts) ∧
      (c.lowerUnit (parseSource source).stmts).acceptAll? sources = some c' := by
  obtain ⟨c1, h1, h2⟩ := Option.bind_eq_some_iff.mp h
  obtain ⟨-, -, rfl⟩ := accept?_eq_some_iff.mp h1
  exact ⟨h1, h2⟩

theorem extends_acceptAll? (sources : List Bytes)
    (h : c.acceptAll? sources = some c') : c.progress.Extends c'.progress := by
  induction sources generalizing c with
  | nil =>
    cases h
    exact .refl _
  | cons source sources ih =>
    obtain ⟨-, h⟩ := acceptAll?_cons_eq_some h
    exact (c.extends_lowerUnit _).trans (ih h)

end Compilation

end Lowering

end BoardPython
