import BoardPython.Proofs.ArityModes
import BoardPython.Proofs.ModuleNames
import BoardPython.Proofs.UnitStages

/-! What lowering does to the variables of a program. Expressions bring string literals and no other
globals. Variables are made by assignments, and all of them have a type with values. This holds for
all operators that keep to the contract of the ones of the processor. -/
namespace BoardPython

def Ir.Global.IsLiteral (g : Ir.Global) : Prop := ∃ number, g.name = Lowering.literalName number

namespace Lowering

open Ir (Callee Operand Operation Ty)
open Relation (ReflTransGen)
open Token (Kind)

/-- A value whose operand has the type that represents the type of the value. -/
def Value.Fits (v : Value) : Prop := ∀ x, v.operand? = some x → x.type = v.type.ir

theorem Value.fits_void : Value.void.Fits := fun x hx => by cases hx

/-- A list is another one and what has been added to it, all of some kind. -/
def Appends {α : Type} (kind : α → Prop) (xs xs' : List α) : Prop :=
  ∃ new, xs' = xs ++ new ∧ ∀ x ∈ new, kind x

namespace Appends

variable {α : Type} {kind : α → Prop} {xs xs' xs'' : List α}

theorem of_eq (h : xs' = xs) : Appends kind xs xs' :=
  ⟨[], by rw [h, List.append_nil], List.forall_mem_nil _⟩

theorem single {x : α} (hx : kind x) : Appends kind xs (xs ++ [x]) :=
  ⟨[x], rfl, List.forall_mem_singleton.mpr hx⟩

theorem trans (h : Appends kind xs xs') (h' : Appends kind xs' xs'') : Appends kind xs xs'' := by
  obtain ⟨new, rfl, hnew⟩ := h
  obtain ⟨new', rfl, hnew'⟩ := h'
  exact ⟨new ++ new', List.append_assoc .., List.forall_mem_append.mpr ⟨hnew, hnew'⟩⟩

theorem append_left (h : Appends kind [] xs) (ys : List α) : Appends kind ys (ys ++ xs) := by
  obtain ⟨_, rfl, hnew⟩ := h
  exact ⟨_, rfl, hnew⟩

end Appends

/-- The globals that are added are string literals, and what is put on record are warnings. -/
structure Emission.Adds (s s' : Emission) : Prop where
  globals : Appends Ir.Global.IsLiteral s.globals s'.globals
  warnings : Appends (fun d => d.severity = .warning) s.warnings s'.warnings

variable {s s' : Emission}

theorem Emission.Adds.of_eq (hglobals : s'.globals = s.globals)
    (hwarnings : s'.warnings = s.warnings) : s.Adds s' := ⟨.of_eq hglobals, .of_eq hwarnings⟩

theorem Emission.adds_of_steps (h : ReflTransGen Adds s s') : s.Adds s' := by
  induction h with
  | refl => exact .of_eq rfl rfl
  | tail _ hstep ih => exact ⟨ih.globals.trans hstep.globals, ih.warnings.trans hstep.warnings⟩

/-- The contract of operators: they add no globals but string literals, warn if anything, and give
values with operands of the right type. -/
structure Operators.Lawful (o : Operators) : Prop where
  binary : ∀ op v w s, v.Fits → w.Fits →
    Meets Emission.Adds s (o.binary op v w) fun _ x => x.Fits
  compare : ∀ ops vs s, (∀ v ∈ vs, Value.Fits v) →
    Meets Emission.Adds s (o.compare ops vs) fun _ x => x.Fits

namespace Emit

open Emission (Adds)

variable {s : Emission}

theorem adds_emit (op : Operation) : Meets Adds s (Emit.emit op) fun _ x => x.type = op.type :=
  ⟨.single (.of_eq rfl rfl), rfl⟩

theorem adds_perform (op : Operation) : Meets Adds s (Emit.perform op) fun _ _ => True :=
  ⟨.single (.of_eq rfl rfl), trivial⟩

end Emit

/-! ### Expressions -/

section Expressions

open Emission (Adds)

def Rules.adding (strict : Bool) : Rules where
  step := Adds
  scene _ := .full
  isPlace _ := True
  strict := strict
  scene_le _ := Ir.Scene.Le.refl _
  holds_const _ _ := trivial
  emit _ _ := ⟨.of_eq rfl rfl, trivial⟩
  load _ _ := ⟨.of_eq rfl rfl, trivial⟩
  perform _ _ := .of_eq rfl rfl
  literal _ _ := ⟨⟨.single ⟨_, rfl⟩, .of_eq rfl⟩, trivial⟩
  warn _ hd := ⟨.of_eq rfl, .single hd⟩

theorem Value.known_full_iff {v : Value} : v.Known .full ↔ v.Fits :=
  ⟨fun h x hx => (h x hx).2, fun h x hx => ⟨trivial, h x hx⟩⟩

theorem Operators.lawful_numeric : Operators.numeric.Lawful where
  binary op v w s hv hw := by
    have hbinary := Rules.meets_binary (R := .adding true) (s := s) op
      (Value.known_full_iff.mpr hv) (Value.known_full_iff.mpr hw)
    exact hbinary.weaken fun _ _ _ hx => Value.known_full_iff.mp hx
  compare ops vs s hvs := by
    have hcompare := Rules.meets_compare (R := .adding true) (s := s) ops fun v hv =>
      Value.known_full_iff.mpr (hvs v hv)
    exact hcompare.weaken fun _ _ _ hx => Value.known_full_iff.mp hx

theorem Operators.Lawful.recording {o : Operators} (ho : o.Lawful) : o.recording.Lawful where
  binary op v w s hv hw := by
    have hrecord : Meets Adds s (Emit.record (binaryLine op v w)) fun _ _ => True :=
      ⟨.single (.of_eq rfl rfl), trivial⟩
    exact hrecord.bind fun _ s' _ _ => ho.binary op v w s' hv hw
  compare ops vs s hvs := by
    have hrecord : Meets Adds s (Emit.record (compareLine ops vs)) fun _ _ => True :=
      ⟨.single (.of_eq rfl rfl), trivial⟩
    exact hrecord.bind fun _ s' _ _ => ho.compare ops vs s' hvs

variable {c : Context}

theorem Operators.Lawful.admits (hc : c.operators.Lawful) : (Rules.adding c.strict).Admits c where
  strict := rfl
  binary op v w s hv hw :=
    (hc.binary op v w s (Value.known_full_iff.mp hv) (Value.known_full_iff.mp hw)).weaken
      fun _ _ _ hx => Value.known_full_iff.mpr hx
  compare ops vs s hvs :=
    (hc.compare ops vs s fun v hv => Value.known_full_iff.mp (hvs v hv)).weaken
      fun _ _ _ hx => Value.known_full_iff.mpr hx
  symbols _ _ _ _ _ := trivial
  functions _ _ _ _ := trivial

theorem adds_lower (hc : c.operators.Lawful) (e : Expr) (s : Emission) :
    Meets Adds s (lower c e) fun _ v => v.Fits :=
  (Rules.meets_lower hc.admits e s).weaken fun _ _ _ hv => Value.known_full_iff.mp hv

end Expressions

/-! ### Statements -/

/-- What can happen to the variables and the diagnostics at a time. Only where statements are `nested`
in others are their errors reported. -/
inductive State.Change (names : String → Prop) (nested : Prop) : State → State → Prop
  | keep {s s' : State} (hscope : s'.progress.scope = s.progress.scope)
      (hlocals : s'.frame.locals = s.frame.locals)
      (hglobals : Appends Ir.Global.IsLiteral s.progress.globals s'.progress.globals)
      (hitems : Appends (fun d => d.severity = .warning) s.progress.diagnostics.items
        s'.progress.diagnostics.items) : Change names nested s s'
  | report {s : State} {e : Error} (hnested : nested) :
      Change names nested s { s with progress := s.progress.report e }
  | declareLocal {s : State} {name : String} {type : ValueType} (htype : type.zero?.isSome) :
      Change names nested s (Lower.after (Lower.declareLocal name type) s)
  | declareGlobal {s : State} {name : String} {type : ValueType} {initial : Ir.Constant}
      (htype : type.zero?.isSome) (hinitial : initial.type = type.ir)
      (hfree : s.progress.scope.find? name = none) (hname : names name) :
      Change names nested s (Lower.after (Lower.declareGlobal name type initial) s)

theorem State.Change.of_eq {names : String → Prop} {nested : Prop} {s s' : State}
    (hscope : s'.progress.scope = s.progress.scope) (hlocals : s'.frame.locals = s.frame.locals)
    (hglobals : s'.progress.globals = s.progress.globals)
    (hitems : s'.progress.diagnostics.items = s.progress.diagnostics.items) :
    Change names nested s s' := .keep hscope hlocals (.of_eq hglobals) (.of_eq hitems)

namespace Lower

open State (Change)

variable {names : String → Prop} {nested : Prop} {env : Environment} {s : State} {α : Type}

theorem changes_emit {x : Emit α} {P : Emission → α → Prop} {Q : State → α → Prop}
    (hx : Meets Emission.Adds s.emission x P) (hQ : ∀ e a, P e a → Q (s.absorb e) a) :
    Meets (Change names nested) s (Lower.emit x) Q := by
  refine meets_absorb (fun e hsteps => ?_) hx hQ
  have hadds := Emission.adds_of_steps hsteps
  exact .keep rfl rfl (hadds.globals.append_left _) (hadds.warnings.append_left _)

theorem changes_value (henv : env.operators.Lawful) (e : Expr) :
    Meets (Change names nested) s (value env e) fun _ v => v.Fits := by
  apply meets_get_bind
  exact changes_emit (adds_lower (c := s.context env) henv e s.emission) fun _ _ hv => hv

variable {v : Value} {name : String}

theorem adds_coerce? {e : Emission} {t : ValueType} {x : Emit Operand} (hv : v.Fits)
    (hx : coerce? v t = some x) : Meets Emission.Adds e x fun _ _ => True := by
  have hcoerce := Rules.meets_coerce? (R := .adding true) (s := e) (Value.known_full_iff.mpr hv) hx
  exact hcoerce.weaken fun _ _ _ _ => trivial

theorem couplesCode_changes : CouplesCode id Value.Fits
    fun _ x _ => ∀ s, Meets (Change names nested) s x fun _ _ => True where
  pure _ _ := meets_pure trivial
  fail _ _ _ := meets_throw _
  bind hx hf s := (hx s).bind fun a s' _ _ => hf a s'
  get h s := meets_get_bind (h s s (.refl s) s)
  calculate op _ _ := changes_emit (Emit.adds_emit op) fun _ _ _ => trivial
  coerce hv hx _ := changes_emit (adds_coerce? hv hx) fun _ _ h => h
  keep _ hv hx _ := changes_emit ((adds_coerce? hv hx).bind fun _ _ _ _ => Emit.adds_perform _)
    fun _ _ h => h

theorem couplesExpr_changes (henv : env.operators.Lawful) : CouplesExpr env env id Value.Fits
    fun _ x _ => ∀ s, Meets (Change names nested) s x fun _ _ => True where
  toCouplesCode := couplesCode_changes
  value e _ _ h _ := (changes_value henv e).bind fun v s' _ hv => h v hv s'

theorem changes_store (pos : Position) (symbol : Symbol) (hv : v.Fits) :
    Meets (Change names nested) s (store pos symbol v) fun _ _ => True :=
  couplesCode_changes.store pos symbol hv s

theorem type_of_constant {initial : Ir.Constant} (hv : v.Fits) (h : constant? v = some initial) :
    initial.type = v.type.ir := by
  have hknown : v.Known .full := fun x hx => ⟨trivial, hv x hx⟩
  exact type_of_constant? hknown h

theorem changes_assignNewGlobal (pos : Position) {type : ValueType} {zero : Ir.Constant}
    (hv : v.Fits) (hzero : type.zero? = some zero) (hfree : s.progress.scope.find? name = none)
    (hname : names name) :
    Meets (Change names nested) s (assignNewGlobal env pos name type zero v) fun _ _ => True := by
  have hdeclare (initial : Ir.Constant) (hinitial : initial.type = type.ir) :
      Meets (Change names nested) s (declareGlobal name type initial) fun _ _ => True :=
    ⟨.single (.declareGlobal (Option.isSome_of_eq_some hzero) hinitial hfree hname), trivial⟩
  unfold assignNewGlobal
  apply meets_guarded
  intro _
  apply meets_get_bind
  dsimp only
  split
  · rename_i initial hinitial _ htype
    refine (hdeclare initial ?_).bind fun _ _ _ _ => meets_pure trivial
    rw [type_of_constant hv hinitial, of_decide_eq_true htype]
  · refine (hdeclare zero (ValueType.type_of_zero? hzero)).bind fun symbol _ _ _ => ?_
    exact changes_store pos symbol hv

theorem changes_assign (henv : env.operators.Lawful) (pos : Position) (hint : Option String)
    (e : Expr) (hname : names name) :
    Meets (Change names nested) s (assign env pos name hint e) fun _ _ => True := by
  apply (changes_value henv e).bind
  intro v s1 _ hv
  apply (meets_hintedType pos hint v).bind
  intro type s2 _ heq
  subst heq
  split
  · exact meets_throw _
  rename_i zero hzero
  apply meets_get_bind
  cases htarget : s2.target? name with
  | some symbol =>
    apply meets_guarded
    intro _
    exact changes_store pos symbol hv
  | none =>
    unfold State.target? at htarget
    apply meets_ite
    · intro _
      have hdeclare : Meets (Change names nested) s2 (declareLocal name type) fun _ _ => True :=
        ⟨.single (.declareLocal (Option.isSome_of_eq_some hzero)), trivial⟩
      exact hdeclare.bind fun symbol _ _ _ => changes_store pos symbol hv
    · intro hglobal
      rw [if_neg hglobal] at htarget
      exact changes_assignNewGlobal pos hv hzero htarget hname

theorem changes_quietly {α : Type} {x : Lower α} (h : Stays (Change names nested) x) (s : State) :
    Meets (Change names nested) s x fun _ _ => True := by
  have hs := h s
  unfold after at hs
  unfold Meets
  cases hx : x s with
  | ok a s' =>
    rw [hx] at hs
    exact ⟨.single hs, trivial⟩
  | error e s' =>
    rw [hx] at hs
    exact .single hs

theorem couples_changes (henv : env.operators.Lawful) :
    Couples env env id Value.Fits (fun _ : Unit => Eq)
      (fun _ _ x _ => ∀ s, Meets (Change names nested) s x fun _ _ => True)
      (fun st => ∀ name ∈ st.assigned, names name)
      fun ss => ∀ name ∈ assignedAll ss, names name where
  code _ := couplesExpr_changes henv
  void := Value.fits_void
  returned _ _ _ := rfl
  assign _ pos name hint e h _ := changes_assign henv pos hint e (h name (List.mem_singleton_self _))
  globals _ pos names _ := couplesCode_changes.declareNames
    (fun _ => changes_quietly fun _ => .of_eq rfl rfl rfl rfl) pos names
  nextIf h s := (changes_quietly (fun _ => .of_eq rfl rfl rfl rfl) s).bind fun n s' _ _ =>
    h () n n (List.forall₂_refl _) s'
  nextWhile h s := (changes_quietly (fun _ => .of_eq rfl rfl rfl rfl) s).bind fun n s' _ _ =>
    h () n n (List.forall₂_refl _) s'
  nextReturn h s := (changes_quietly (fun _ => .of_eq rfl rfl rfl rfl) s).bind fun n s' _ _ =>
    h () n n rfl s'
  edit _ := changes_quietly fun _ => .of_eq rfl rfl rfl rfl
  sides := List.forall_mem_append.mp
  body := id
  each := List.forall_mem_append.mp

theorem changes_stmt (henv : env.operators.Lawful) (hnested : nested) (st : Stmt)
    (hst : ∀ name ∈ st.assigned, names name) :
    Meets (Change names nested) s (stmt env st) fun _ _ => True :=
  (couples_changes henv).stmt (fun _ _ _ h s => meets_reported (fun _ _ => .report hnested) (h s))
    st () hst s

theorem changes_stmts (henv : env.operators.Lawful) (hnested : nested) (ss : List Stmt)
    (hss : ∀ name ∈ assignedAll ss, names name) :
    Meets (Change names nested) s (stmts env ss) fun _ _ => True :=
  (couples_changes henv).stmts (fun _ _ _ h s => meets_reported (fun _ _ => .report hnested) (h s))
    ss () hss s

end Lower

/-! ### Units -/

theorem ValueType.isSome_zero?_of_ofHint? {hint : String} {t : ValueType}
    (h : ofHint? hint = some t) (hvoid : t ≠ .void) : t.zero?.isSome := by
  unfold ofHint? at h
  split at h
  · cases h; rfl
  split at h
  · cases h; rfl
  split at h
  · cases h; rfl
  split at h
  · cases h; rfl
  split at h
  · cases h; rfl
  split at h
  · cases h
    exact absurd rfl hvoid
  · cases h

theorem isSome_zero?_of_paramTypes {function : String} {params : List Param} {seen : List String}
    {types : List ValueType} (h : paramTypes function seen params = .ok types) :
    ∀ t ∈ types, t.zero?.isSome := by
  induction params generalizing seen types with
  | nil =>
    cases h
    exact List.forall_mem_nil _
  | cons p params ih =>
    obtain ⟨-, type, rest, rfl, hrest, htype⟩ := paramTypes_cons_eq_ok h
    refine List.forall_mem_cons.mpr ⟨?_, ih hrest⟩
    rcases htype with rfl | ⟨hint, ht, hvoid⟩
    · rfl
    · exact ValueType.isSome_zero?_of_ofHint? ht hvoid

namespace Definition

open State (Change)

variable {names : String → Prop} {nested : Prop} {env : Environment} {s : State}

theorem changes_spill (name : String) {type : ValueType} (htype : type.zero?.isSome) :
    Meets (Change names nested) s (spill name type) fun _ _ => True :=
  couples_spill Lower.couplesCode_changes
    (fun _ _ _ _ => Lower.changes_emit (Emit.adds_perform _) fun _ _ h => h)
    (Lower.changes_quietly fun _ => .declareLocal htype) s

/-- A definition whose parameters have types with values, and whose variables have names of some
kind. -/
structure Plain (names : String → Prop) (d : Definition) : Prop where
  params : ∀ t ∈ d.signature.params, t.zero?.isSome
  assigned : ∀ name ∈ assignedAll d.body, names name

theorem changes_prologue {d : Definition} (hd : ∀ t ∈ d.signature.params, t.zero?.isSome) :
    Meets (Change names nested) s d.prologue fun _ _ => True :=
  couples_prologue Lower.couplesCode_changes
    (fun _ _ _ _ => Lower.changes_emit (Emit.adds_perform _) fun _ _ h => h)
    (fun _ => Lower.changes_emit (Emit.adds_perform _) fun _ _ h => h) d
    (fun p hp => Lower.changes_quietly fun _ => .declareLocal (hd p.2 (List.of_mem_zip hp).2)) s

theorem changes_lower (henv : env.operators.Lawful) (hnested : nested) {d : Definition}
    (hd : d.Plain names) : Meets (Change names nested) s (d.lower env) fun _ _ => True := by
  rw [lower_eq]
  apply (changes_prologue hd.params).bind
  intro _ s1 _ _
  apply (Lower.changes_stmts henv hnested d.body hd.assigned).bind
  intro _ s2 _ _
  exact Lower.changes_quietly (fun _ => .of_eq rfl rfl rfl rfl) s2

end Definition

def Item.Plain (names : String → Prop) : Item → Prop
  | .definition d => d.Plain names
  | .statement st => ∀ name ∈ st.assigned, names name

namespace Compilation

open State (Change)

variable {names : String → Prop} {c : Compilation}

theorem plain_declareAll (unit : List Stmt) (c : Compilation)
    (hunit : ∀ name ∈ assignedAll unit, names name) :
    ∀ item ∈ (c.declareAll unit).2, item.Plain names := by
  intro item hitem
  cases declared_of_mem hitem with
  | statement hst => exact fun name h => hunit name (assigned_subset_assignedAll hst h)
  | definition hst h hbefore hafter =>
    obtain ⟨-, -, result, types, -, htypes, rfl, -⟩ := define_eq_ok h
    exact ⟨isSome_zero?_of_paramTypes htypes, fun name h =>
      hunit name (assigned_subset_assignedAll hst h)⟩

theorem changes_declareAll (unit : List Stmt) (c : Compilation) :
    ReflTransGen (Change names True) c.state (c.declareAll unit).1.state := by
  refine declareAll_induction (R := fun c c' => ReflTransGen (Change names True) c.state c'.state)
    (fun _ => .refl) (fun _ _ _ ih => .head (.report trivial) ih) (fun h ih => ?_) unit c
  obtain ⟨-, -, result, types, -, -, -, rfl⟩ := define_eq_ok h
  exact ih

theorem changes_lowerTop (hc : c.operators.Lawful) {st : Stmt}
    (hst : ∀ name ∈ st.assigned, names name) :
    ReflTransGen (Change names True) c.state (c.lowerTop st).state := by
  have henv : c.environment.operators.Lawful := hc
  rw [state_lowerTop]
  exact (Lower.meets_reported (fun _ _ => .report trivial)
    (Lower.changes_stmt henv trivial st hst)).after

theorem changes_bodyState (hc : c.operators.Lawful) {d : Definition} (hd : d.Plain names) :
    ReflTransGen (Change names True) ⟨c.progress, .ofSignature d.signature⟩ (c.bodyState d) := by
  have henv : c.environment.operators.Lawful := hc
  exact (Definition.changes_lower henv trivial hd).after

structure Stable (names : String → Prop) (P : State → Prop) : Prop where
  change : ∀ s s', Change names True s s' → P s → P s'
  enter : ∀ s f, P s → P { s with frame := .ofSignature f }
  leave : ∀ s s' : State, P s → P s' → P { s' with frame := s.frame }

namespace Stable

variable {P : State → Prop}

theorem steps (hP : Stable names P) {s s' : State} (h : ReflTransGen (Change names True) s s')
    (hs : P s) : P s' := by
  induction h with
  | refl => exact hs
  | tail _ hstep ih => exact hP.change _ _ hstep ih

theorem lowerItem (hP : Stable names P) (hc : c.operators.Lawful) {item : Item}
    (hitem : item.Plain names) (h : P c.state) : P (c.lowerItem item).state := by
  cases item with
  | definition d =>
    have hbody := hP.steps (changes_bodyState hc hitem) (hP.enter c.state d.signature h)
    rw [Compilation.lowerItem, lowerDefinition_eq]
    exact hP.leave c.state (c.bodyState d) h hbody
  | statement st => exact hP.steps (changes_lowerTop hc hitem) h

theorem lowerItems (hP : Stable names P) {items : List Item} (hc : c.operators.Lawful)
    (hitems : ∀ item ∈ items, item.Plain names) (h : P c.state) :
    P (items.foldl Compilation.lowerItem c).state := by
  induction items generalizing c with
  | nil => exact h
  | cons item items ih =>
    obtain ⟨hitem, hrest⟩ := List.forall_mem_cons.mp hitems
    have henv := congrArg Environment.operators (c.environment_lowerItem item)
    have hc' : (c.lowerItem item).operators.Lawful := by
      rw [show (c.lowerItem item).operators = c.operators from henv]
      exact hc
    exact ih hc' hrest (hP.lowerItem hc hitem h)

theorem lowerUnit (hP : Stable names P) (hc : c.operators.Lawful) {unit : List Stmt}
    (hunit : ∀ name ∈ assignedAll unit, names name) (h : P c.state) : P (c.lowerUnit unit).state
    := by
  obtain ⟨log, heq⟩ := c.lowerUnit_eq unit
  have hdeclared : P (c.declareAll unit).1.state := hP.steps (changes_declareAll unit c) h
  have hdeclares := declares_declareAll unit c
  have hc' : (c.declareAll unit).1.operators.Lawful := hdeclares.operators ▸ hc
  have hitems := hP.lowerItems hc' (plain_declareAll unit c hunit) hdeclared
  rw [heq]
  refine hP.change _ _ ?_ hitems
  exact .of_eq rfl rfl rfl rfl

theorem lowerUnits (hP : Stable names P) (hc : c.operators.Lawful) {units : List (List Stmt)}
    (hunits : ∀ unit ∈ units, ∀ name ∈ assignedAll unit, names name) (h : P c.state) :
    P (units.foldl Compilation.lowerUnit c).state := by
  induction units generalizing c with
  | nil => exact h
  | cons unit units ih =>
    obtain ⟨hunit, hrest⟩ := List.forall_mem_cons.mp hunits
    exact ih ((operators_lowerUnit unit c).symm ▸ hc) hrest (hP.lowerUnit hc hunit h)

end Stable

end Compilation

end Lowering

end BoardPython
