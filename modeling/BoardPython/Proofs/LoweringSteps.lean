import BoardPython.Lowering.Compilation
import BoardPython.Proofs.BodyGrowth
import BoardPython.Proofs.CoupledRuns
import BoardPython.Proofs.EmittedCode

/-! What a step of lowering can do to the state, whether it succeeds or fails: the module only grows,
and all statements but branches, loops and returns add straight-line code. -/
namespace BoardPython

mutual

def Stmt.globalized : Stmt → List String
  | .globals _ names => names
  | .branch _ _ yes no => globalizedAll yes ++ globalizedAll no
  | .loop _ _ body => globalizedAll body
  | _ => []

def globalizedAll : List Stmt → List String
  | [] => []
  | s :: rest => s.globalized ++ globalizedAll rest

end

namespace Lowering

open Ir (Label Operand)

abbrev Progress.errors (p : Progress) : Nat := p.diagnostics.errorCount

structure Progress.Extends (p p' : Progress) : Prop where
  items : p.diagnostics.items <+: p'.diagnostics.items
  globals : p.globals <+: p'.globals
  scope : ∀ name s, p.scope.find? name = some s → p'.scope.find? name = some s
  ifs : p.ifs ≤ p'.ifs
  whiles : p.whiles ≤ p'.whiles
  returns : p.returns ≤ p'.returns

namespace Progress.Extends

theorem refl (p : Progress) : p.Extends p :=
  ⟨List.prefix_rfl, List.prefix_rfl, fun _ _ h => h, Nat.le_refl _, Nat.le_refl _, Nat.le_refl _⟩

variable {p q : Progress}

theorem trans {r : Progress} (h : p.Extends q) (h' : q.Extends r) : p.Extends r where
  items := h.items.trans h'.items
  globals := h.globals.trans h'.globals
  scope := fun name s hs => h'.scope name s (h.scope name s hs)
  ifs := Nat.le_trans h.ifs h'.ifs
  whiles := Nat.le_trans h.whiles h'.whiles
  returns := Nat.le_trans h.returns h'.returns

theorem errorCount_le (h : p.Extends q) : p.errors ≤ q.errors :=
  (h.items.filter _).length_le

end Progress.Extends

theorem Progress.extends_report (p : Progress) (e : Error) : p.Extends (p.report e) :=
  { Progress.Extends.refl p with items := List.prefix_append _ _ }

theorem Progress.errorCount_report (p : Progress) (e : Error) :
    (p.report e).errors = p.errors + 1 := by
  simp [Progress.report, Diagnostics.report, Diagnostics.add, Diagnostics.push,
    Diagnostics.errorCount, Diagnostics.errors]

theorem Scope.find?_declare_eq (s : Scope) (new : Symbol) (name : String) :
    (s.declare new).find? name = (s.find? name).or (if new.name = name then some new else none) := by
  unfold declare declare?
  split
  · rename_i htaken
    rw [Option.getD_none]
    split
    · rename_i heq
      obtain ⟨old, hold⟩ := Option.isSome_iff_exists.mp (heq ▸ htaken)
      rw [hold]
      rfl
    · rw [Option.or_none]
  · rw [Option.getD_some, find?, find?, List.find?_append, List.find?_singleton]
    by_cases heq : new.name = name <;> simp [heq]

theorem Scope.find?_declare {s : Scope} {name : String} {symbol : Symbol} (new : Symbol)
    (h : s.find? name = some symbol) : (s.declare new).find? name = some symbol := by
  rw [find?_declare_eq, h]
  rfl

theorem Scope.find?_declare_self {scope : Scope} {symbol : Symbol}
    (h : scope.find? symbol.name = none) :
    (scope.declare symbol).find? symbol.name = some symbol := by
  rw [find?_declare_eq, h, if_pos rfl]
  rfl

theorem FunctionTable.find?_declare_eq (t : FunctionTable) (key : String) (s : Signature)
    (key' : String) :
    (t.declare key s).find? key' = (t.find? key').or (if key = key' then some s else none) := by
  unfold declare declare?
  split
  · rename_i htaken
    rw [Option.getD_none]
    split
    · rename_i heq
      obtain ⟨old, hold⟩ := Option.isSome_iff_exists.mp (heq ▸ htaken)
      rw [hold]
      rfl
    · rw [Option.or_none]
  · rw [Option.getD_some, find?, List.find?_append, find?, Option.map_or, List.find?_singleton]
    by_cases heq : key = key' <;> simp [heq]

namespace State

structure Extends (s s' : State) : Prop where
  progress : s.progress.Extends s'.progress
  signature : s'.frame.signature = s.frame.signature

structure Straight (s s' : State) : Prop extends Extends s s' where
  body : s.frame.body.Straight s'.frame.body

theorem Extends.refl (s : State) : s.Extends s := ⟨.refl _, rfl⟩

variable {s t u : State}

theorem Extends.trans (h : s.Extends t) (h' : t.Extends u) : s.Extends u :=
  ⟨h.progress.trans h'.progress, h'.signature.trans h.signature⟩

theorem Straight.refl (s : State) : s.Straight s := ⟨.refl _, .refl _⟩

theorem Straight.trans (h : s.Straight t) (h' : t.Straight u) : s.Straight u :=
  ⟨h.toExtends.trans h'.toExtends, h.body.trans h'.body⟩

theorem straight_absorb (s : State) (e : Emission) : s.Straight (s.absorb e) where
  progress := { Progress.Extends.refl s.progress with
    items := List.prefix_append _ _
    globals := List.prefix_append _ _ }
  signature := rfl
  body := Body.straight_append _ _ _

end State

namespace Lower

variable {α β : Type}

/-- The state after a step, also if it fails. -/
def after (x : Lower α) (s : State) : State :=
  match x s with
  | .ok _ s' => s'
  | .error _ s' => s'

def Stays (R : State → State → Prop) (x : Lower α) : Prop := ∀ s, R s (after x s)

section Rules

variable {R : State → State → Prop} {x : Lower α} {s s' : State} {a : α}

theorem after_of_ok (h : x s = .ok a s') : after x s = s' := by
  rw [after, h]

theorem Stays.of_error {e : Error} (hx : Stays R x) (h : x s = .error e s') : R s s' := by
  have hs := hx s
  rwa [after, h] at hs

theorem Stays.of_ok (hx : Stays R x) (h : x s = .ok a s') : R s s' := by
  rw [← after_of_ok h]
  exact hx s

theorem stays_pure (hrefl : ∀ s, R s s) (a : α) : Stays R (pure a : Lower α) := hrefl

theorem stays_fail (hrefl : ∀ s, R s s) (pos : Position) (fault : Fault) :
    Stays R (fail pos fault : Lower α) := hrefl

theorem after_bind (htrans : ∀ s t u, R s t → R t u → R s u) {f : α → Lower β}
    (hx : R s (after x s)) (hf : ∀ a s', x s = .ok a s' → R s' (after (f a) s')) :
    R s (after (x >>= f) s) := by
  unfold after at *
  cases h : x s with
  | error e s' =>
    rw [h] at hx
    rw [bind_of_error h]
    exact hx
  | ok a s' =>
    rw [h] at hx
    rw [bind_of_ok h]
    exact htrans s s' _ hx (hf a s' h)

theorem Stays.bind (htrans : ∀ s t u, R s t → R t u → R s u) {f : α → Lower β} (hx : Stays R x)
    (hf : ∀ a, Stays R (f a)) : Stays R (x >>= f) :=
  fun s => after_bind htrans (hx s) fun a s' _ => hf a s'

end Rules

structure Emits (R : State → State → Prop) : Prop where
  refl : ∀ s, R s s
  trans : ∀ s t u, R s t → R t u → R s u
  absorb : ∀ s e, R s (s.absorb e)

namespace Emits

variable {R : State → State → Prop} {env : Environment}

theorem bind (hR : Emits R) {x : Lower α} {f : α → Lower β} (hx : Stays R x)
    (hf : ∀ a, Stays R (f a)) : Stays R (x >>= f) :=
  Stays.bind hR.trans hx hf

theorem pure (hR : Emits R) (a : α) : Stays R (Pure.pure a : Lower α) := stays_pure hR.refl a

theorem fail (hR : Emits R) (pos : Position) (fault : Fault) :
    Stays R (Lower.fail pos fault : Lower α) := stays_fail hR.refl pos fault

theorem get (hR : Emits R) : Stays R (MonadState.get : Lower State) := hR.refl

theorem emit (hR : Emits R) (x : Emit α) : Stays R (Lower.emit x) := by
  intro s
  unfold after Lower.emit
  cases x s.emission with
  | ok a e | error err e => exact hR.absorb s e

theorem value (hR : Emits R) (e : Expr) : Stays R (Lower.value env e) :=
  hR.bind hR.get fun _ => hR.emit _

theorem couplesCode (hR : Emits R) : CouplesCode id (fun _ => True) fun _ x _ => Stays R x where
  pure := hR.pure
  fail := hR.fail
  bind := hR.bind
  get h := hR.bind hR.get fun s => h s s (.refl s)
  calculate _ _ := hR.emit _
  coerce _ _ := hR.emit _
  keep _ _ _ := hR.emit _

theorem couplesExpr (hR : Emits R) :
    CouplesExpr env env id (fun _ => True) fun _ x _ => Stays R x where
  toCouplesCode := hR.couplesCode
  value e _ _ h := hR.bind (hR.value e) fun v => h v trivial

theorem condition (hR : Emits R) (e : Expr) : Stays R (Lower.condition env e) :=
  hR.couplesExpr.condition e

theorem guarded (hR : Emits R) {c : Prop} [Decidable c] {pos : Position} {fault : Fault}
    {x : Lower α} (hx : Stays R x) :
    Stays R (if c then (do Lower.fail pos fault; x) else x) :=
  hR.couplesCode.guarded (y := x) hx

theorem store (hR : Emits R) (pos : Position) (symbol : Symbol) (v : Value) :
    Stays R (Lower.store pos symbol v) := hR.couplesCode.store pos symbol trivial

theorem hintedType (hR : Emits R) (pos : Position) (hint : Option String) (v : Value) :
    Stays R (Lower.hintedType pos hint v) := hR.couplesCode.hintedType pos hint v

theorem augment (hR : Emits R) (pos : Position) (name : String) (op : Token.Kind) (e : Expr) :
    Stays R (Lower.augment env pos name op e) := hR.couplesExpr.augment pos name op e

theorem returned (hR : Emits R) (pos : Position) (f : Signature) (v : Value) :
    Stays R (Lower.returned pos f v) := hR.couplesCode.returned pos f trivial

theorem reported (hR : Emits R)
    (hreport : ∀ s e, R s { s with progress := s.progress.report e }) {x : Lower Unit}
    (hx : Stays R x) : Stays R (Lower.reported x) := by
  intro s
  have hs := hx s
  unfold after at hs
  unfold after Lower.reported
  cases h : x s with
  | ok a s1 =>
    rw [h] at hs
    exact hs
  | error e s1 =>
    rw [h] at hs
    exact hR.trans _ _ _ hs (hreport s1 e)

end Emits

structure Plain (R : State → State → Prop) : Prop extends Emits R where
  declareLocal : ∀ name type, Stays R (Lower.declareLocal name type)
  declareGlobal : ∀ name type initial, Stays R (Lower.declareGlobal name type initial)
  globalNames : ∀ s name,
    R s { s with frame := { s.frame with globalNames := s.frame.globalNames ++ [name] } }

namespace Plain

variable {R : State → State → Prop} {env : Environment}

theorem couplesPlain (hR : Plain R) :
    CouplesPlain env env id (fun _ => True) fun _ x _ => Stays R x where
  toCouplesExpr := hR.couplesExpr
  defined _ := rfl
  declareLocal := hR.declareLocal
  declareGlobal := hR.declareGlobal

theorem assignNewGlobal (hR : Plain R) (pos : Position) (name : String) (type : ValueType)
    (zero : Ir.Constant) (v : Value) :
    Stays R (Lower.assignNewGlobal env pos name type zero v) :=
  hR.couplesPlain.assignNewGlobal pos name type zero trivial

theorem assign (hR : Plain R) (pos : Position) (name : String) (hint : Option String) (e : Expr) :
    Stays R (Lower.assign env pos name hint e) := hR.couplesPlain.assign pos name hint e

theorem declareNames (hR : Plain R) (pos : Position) (names : List String) :
    Stays R (Lower.declareNames pos names) :=
  hR.couplesCode.declareNames (fun name s => hR.globalNames s name) pos names

theorem stmt (hR : Plain R) {st : Stmt} (h : isSimple st = true) : Stays R (Lower.stmt env st) :=
  hR.couplesExpr.simple h (fun pos name hint e _ => hR.assign pos name hint e)
    fun pos names _ => hR.declareNames pos names

end Plain

structure Walks (env : Environment) (declared : String → Prop) (R : State → State → Prop) : Prop
    extends Emits R where
  assign : ∀ pos name hint e, Stays R (Lower.assign env pos name hint e)
  declareNames : ∀ pos names, (∀ name ∈ names, declared name) →
    Stays R (Lower.declareNames pos names)
  report : ∀ s e, R s { s with progress := s.progress.report e }
  nextIf : Stays R Lower.nextIf
  nextWhile : Stays R Lower.nextWhile
  nextReturn : Stays R Lower.nextReturn
  create : ∀ s labels, R s (s.mapBody (·.create labels))
  close : ∀ s t, R s (s.mapBody (·.close t))
  goto : ∀ s l, R s (s.mapBody (·.goto l))

namespace Walks

variable {R : State → State → Prop} {env : Environment} {declared : String → Prop}

theorem reported (hR : Walks env declared R) {x : Lower Unit} (hx : Stays R x) :
    Stays R (Lower.reported x) := hR.toEmits.reported hR.report hx

theorem finish (hR : Walks env declared R) (s : State) (t : Ir.Terminator) :
    R s (s.mapBody (·.finish t)) := by
  by_cases hopen : s.frame.body.isOpen
  · simpa only [State.mapBody, Body.finish, if_pos hopen] using hR.close s t
  · simpa only [State.mapBody, Body.finish, if_neg hopen] using hR.refl s

theorem leave (hR : Walks env declared R) (t : Ir.Terminator) (l : Ir.Label) :
    Stays R (Lower.modifyBody fun b => (b.finish t).goto l) :=
  fun s => hR.trans _ _ _ (hR.finish s t) (hR.goto _ l)

theorem enter (hR : Walks env declared R) (labels : List Ir.Label) (t : Ir.Terminator)
    (l : Ir.Label) : Stays R (Lower.modifyBody fun b => ((b.create labels).close t).goto l) :=
  fun s => hR.trans _ _ _ (hR.create s labels) (hR.trans _ _ _ (hR.close _ t) (hR.goto _ l))

theorem edit (hR : Walks env declared R) {f g : Body → Body} (h : Edits Eq f g) :
    Stays R (Lower.modifyBody f) := by
  intro s
  change R s (s.mapBody f)
  induction h with
  | start => exact hR.refl s
  | create _ _ ih => exact hR.trans _ _ _ ih (hR.create _ _)
  | close _ _ ih => exact hR.trans _ _ _ ih (hR.close _ _)
  | finish _ _ ih => exact hR.trans _ _ _ ih (hR.finish _ _)
  | goto _ _ ih => exact hR.trans _ _ _ ih (hR.goto _ _)

theorem couples (hR : Walks env declared R) :
    Couples env env id (fun _ => True) (fun _ : Unit => Eq) (fun _ _ x _ => Stays R x)
      (fun st => ∀ name ∈ st.globalized, declared name)
      fun ss => ∀ name ∈ globalizedAll ss, declared name where
  code _ := hR.couplesExpr
  void := trivial
  returned _ _ _ := rfl
  assign _ pos name hint e _ := hR.assign pos name hint e
  globals _ pos names h := hR.declareNames pos names h
  nextIf h := hR.bind hR.nextIf fun n => h () n n (List.forall₂_refl _)
  nextWhile h := hR.bind hR.nextWhile fun n => h () n n (List.forall₂_refl _)
  nextReturn h := hR.bind hR.nextReturn fun n => h () n n rfl
  edit := hR.edit
  sides := List.forall_mem_append.mp
  body := id
  each := List.forall_mem_append.mp

theorem ret (hR : Walks env declared R) (pos : Position) (e : Option Expr) :
    Stays R (Lower.ret env pos e) := hR.couples.ret () pos e

theorem stmt (hR : Walks env declared R) (st : Stmt) (hst : ∀ name ∈ st.globalized, declared name) :
    Stays R (Lower.stmt env st) :=
  hR.couples.stmt (fun _ _ _ => hR.reported) st () hst

theorem stmts (hR : Walks env declared R) (ss : List Stmt)
    (hss : ∀ name ∈ globalizedAll ss, declared name) : Stays R (Lower.stmts env ss) :=
  hR.couples.stmts (fun _ _ _ => hR.reported) ss () hss

end Walks

section Straight

variable {env : Environment}

theorem straight_declareLocal (name : String) (type : ValueType) :
    Stays State.Straight (declareLocal name type) := by
  intro s
  exact ⟨⟨.refl _, rfl⟩, Body.straight_alloca _ _⟩

theorem straight_declareGlobal (name : String) (type : ValueType) (initial : Ir.Constant) :
    Stays State.Straight (declareGlobal name type initial) := by
  intro s
  refine ⟨⟨{ Progress.Extends.refl s.progress with
    globals := List.prefix_append _ _
    scope := fun _ _ h => Scope.find?_declare _ h }, rfl⟩, .refl _⟩

theorem plain_straight : Plain State.Straight where
  refl := .refl
  trans _ _ _ := .trans
  absorb := State.straight_absorb
  declareLocal := straight_declareLocal
  declareGlobal := straight_declareGlobal
  globalNames _ _ := ⟨⟨.refl _, rfl⟩, .refl _⟩

end Straight

section Extends

variable {env : Environment}

theorem extends_nextIf : Stays State.Extends nextIf :=
  fun s => ⟨{ Progress.Extends.refl s.progress with ifs := Nat.le_succ _ }, rfl⟩

theorem extends_nextWhile : Stays State.Extends nextWhile :=
  fun s => ⟨{ Progress.Extends.refl s.progress with whiles := Nat.le_succ _ }, rfl⟩

theorem extends_nextReturn : Stays State.Extends nextReturn :=
  fun s => ⟨{ Progress.Extends.refl s.progress with returns := Nat.le_succ _ }, rfl⟩

theorem emits_extends : Emits State.Extends where
  refl := .refl
  trans _ _ _ := .trans
  absorb s e := (s.straight_absorb e).toExtends

theorem extends_reported {x : Lower Unit} (h : Stays State.Extends x) :
    Stays State.Extends (reported x) :=
  emits_extends.reported (fun s e => ⟨s.progress.extends_report e, rfl⟩) h

theorem walks_extends : Walks env (fun _ => True) State.Extends where
  toEmits := emits_extends
  assign pos name hint e s := (plain_straight.assign pos name hint e s).toExtends
  declareNames pos names _ s := (plain_straight.declareNames pos names s).toExtends
  report s e := ⟨s.progress.extends_report e, rfl⟩
  nextIf := extends_nextIf
  nextWhile := extends_nextWhile
  nextReturn := extends_nextReturn
  create _ _ := ⟨.refl _, rfl⟩
  close _ _ := ⟨.refl _, rfl⟩
  goto _ _ := ⟨.refl _, rfl⟩

theorem extends_stmt (st : Stmt) : Stays State.Extends (stmt env st) :=
  walks_extends.stmt st fun _ _ => trivial

theorem extends_stmts (ss : List Stmt) : Stays State.Extends (stmts env ss) :=
  walks_extends.stmts ss fun _ _ => trivial

end Extends

section Assignments

variable {env : Environment} {s s' : State} {pos : Position} {hint : Option String} {v : Value}
  {type : ValueType} {name : String}

theorem hintedType_eq_ok (h : hintedType pos hint v s = .ok type s') :
    s' = s ∧ (hint = none ∧ type = v.type ∨
      ∃ text, hint = some text ∧ ValueType.ofHint? text = some type) := by
  unfold hintedType at h
  cases hint with
  | none =>
    obtain ⟨rfl, rfl⟩ := pure_eq_ok h
    exact ⟨rfl, .inl ⟨rfl, rfl⟩⟩
  | some text =>
    simp only at h
    cases ht : ValueType.ofHint? text with
    | none =>
      rw [ht] at h
      cases h
    | some t =>
      rw [ht] at h
      obtain ⟨rfl, rfl⟩ := pure_eq_ok h
      exact ⟨rfl, .inr ⟨text, rfl, ht⟩⟩

theorem assignNewGlobal_eq_ok {zero : Ir.Constant}
    (h : assignNewGlobal env pos name type zero v s = .ok () s') :
    (s.frame.signature = none ∧ ∃ c, constant? v = some c ∧ v.type = type ∧
        s' = after (declareGlobal name type c) s) ∨
      store pos ⟨name, type, .module false⟩ v (after (declareGlobal name type zero) s) =
        .ok () s' := by
  unfold assignNewGlobal at h
  by_cases hfunction : (env.functions.find? name).isSome
  · rw [if_pos hfunction] at h
    cases h
  rw [if_neg hfunction] at h
  obtain ⟨s0, s1, hget, h⟩ := bind_eq_ok h
  cases hget
  cases hc : constant? v with
  | none =>
    rw [hc] at h
    exact .inr h
  | some c =>
    cases hsignature : s.frame.signature with
    | some f =>
      rw [hc, hsignature] at h
      exact .inr h
    | none =>
      rw [hc, hsignature] at h
      by_cases htype : v.type = type
      · rw [decide_eq_true htype] at h
        cases h
        exact .inl ⟨rfl, c, rfl, htype, rfl⟩
      · rw [decide_eq_false htype] at h
        exact .inr h

theorem assign_steps {e : Expr} (h : assign env pos name hint e s = .ok () s') :
    ∃ v s1, value env e s = .ok v s1 ∧
      ((∃ symbol, s1.target? name = some symbol ∧ store pos symbol v s1 = .ok () s') ∨
      s1.target? name = none ∧ ∃ type,
        (hint.all fun hint => decide (ValueType.ofHint? hint = some type)) = true ∧
        ((s1.frame.isLocal name = true ∧
          store pos ⟨name, type, .stack s1.frame.body.register⟩ v
            (after (declareLocal name type) s1) = .ok () s') ∨
        (s1.frame.isLocal name = false ∧
          ∃ zero, assignNewGlobal env pos name type zero v s1 = .ok () s'))) := by
  obtain ⟨v, s1, hv, hrest⟩ := bind_eq_ok h
  obtain ⟨type, s2, htype, hlast⟩ := bind_eq_ok hrest
  obtain ⟨rfl, hhint⟩ := hintedType_eq_ok htype
  refine ⟨v, s2, hv, ?_⟩
  cases hzero : type.zero? with
  | none =>
    rw [hzero] at hlast
    cases hlast
  | some zero =>
    rw [hzero] at hlast
    obtain ⟨s3, s4, hget, hassign⟩ := bind_eq_ok hlast
    cases hget
    cases htarget : s2.target? name with
    | some symbol =>
      rw [htarget] at hassign
      dsimp only at hassign
      split at hassign
      · cases hassign
      · exact .inl ⟨symbol, rfl, hassign⟩
    | none =>
      rw [htarget] at hassign
      dsimp only at hassign
      refine .inr ⟨rfl, type, ?_, ?_⟩
      · rcases hhint with ⟨rfl, -⟩ | ⟨text, rfl, htext⟩
        · rfl
        · exact decide_eq_true htext
      by_cases hlocal : s2.frame.isLocal name
      · rw [if_pos hlocal] at hassign
        obtain ⟨symbol, s5, hdeclare, hstore⟩ := bind_eq_ok hassign
        cases hdeclare
        exact .inl ⟨hlocal, hstore⟩
      · rw [if_neg hlocal] at hassign
        exact .inr ⟨Bool.eq_false_iff.mpr hlocal, zero, hassign⟩

end Assignments

end Lower

end Lowering

end BoardPython
