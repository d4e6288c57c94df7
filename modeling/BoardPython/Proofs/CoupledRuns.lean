import BoardPython.Proofs.Calculations

/-! Two runs that lower the same code. What single steps in both keep to, and what goes on to what is
composed of them, holds of the two runs as a whole: `Emit.Couples.lower` for expressions and
`Lower.Couples.stmts` for statements. -/
namespace BoardPython.Lowering

open Ir (Label Operand Terminator Ty)

/-! ### Expressions -/

namespace Emit

/-- A relation of runs in two contexts, where the functions of the first one are `moved` in the
second one. -/
structure Couples (c c' : Context) (moved : Signature → Signature)
    (R : (α : Type) → Emit α → Emit α → Prop) : Prop where
  calculates : Calculates fun α x => R α x x
  bind : ∀ {α β : Type} {x y : Emit α} {f g : α → Emit β}, R α x y → (∀ a, R β (f a) (g a)) →
    R β (x >>= f) (y >>= g)
  operators : c.operators = .numeric
  operators' : c'.operators = .numeric
  params : ∀ f, (moved f).callee.params = f.callee.params
  stringValue : ∀ pos value, R _ (stringValue c pos value) (stringValue c' pos value)
  variableValue : ∀ pos name, R _ (variableValue c pos name) (variableValue c' pos name)
  function : ∀ {α : Type} (pos : Position) (name : String) (first : Option ValueType)
    {f g : Signature → Emit α}, (∀ s, R α (f s) (g (moved s))) →
    R α (function c pos name first >>= f) (function c' pos name first >>= g)
  checkArity : ∀ pos name params args,
    R _ (checkArity c pos name params args) (checkArity c' pos name params args)
  call : ∀ pos (f : Signature) args, R _ (call pos f.callee args) (call pos (moved f).callee args)

namespace Couples

variable {c c' : Context} {moved : Signature → Signature} {R : (α : Type) → Emit α → Emit α → Prop}

mutual

theorem lower (h : Couples c c' moved R) : ∀ e : Expr,
    R _ (Lowering.lower c e) (Lowering.lower c' e)
  | .number pos value raw => by
    simp only [Lowering.lower]
    exact h.calculates.number pos value raw false
  | .string pos value => by
    simp only [Lowering.lower]
    exact h.stringValue pos value
  | .bool .. | .none .. => by
    simp only [Lowering.lower]
    exact h.calculates.pure _
  | .unary pos op e => by
    simp only [Lowering.lower]
    exact h.calculates.negation pos op e
  | .name pos id => by
    simp only [Lowering.lower]
    exact h.variableValue pos id
  | .binary pos op left right => by
    simp only [Lowering.lower]
    apply h.bind (h.lower left)
    intro x
    apply h.bind (h.lower right)
    intro y
    rw [h.operators, h.operators']
    exact h.calculates.locate pos (h.calculates.binary op x y)
  | .compare pos ops operands => by
    simp only [Lowering.lower]
    apply h.bind (h.lowerAll operands)
    intro values
    rw [h.operators, h.operators']
    exact h.calculates.locate pos (h.calculates.compare ops values)
  | .call pos callee args => by
    cases callee with
    | name p name =>
      cases args with
      | nil =>
        simp only [Lowering.lower]
        apply h.function p name none
        intro f
        rw [h.params]
        exact h.bind (h.checkArity pos name _ 0) fun _ => h.call pos f []
      | cons arg args =>
        simp only [Lowering.lower]
        apply h.bind (h.lower arg)
        intro first
        apply h.function p name
        intro f
        rw [h.params]
        apply h.bind (h.checkArity pos name _ _)
        intro _
        cases f.callee.params with
        | nil => exact h.bind (h.lowerAll args) fun _ => h.call pos f []
        | cons param params =>
          apply h.bind (h.calculates.passArgument _ name 1 _ param)
          intro x
          exact h.bind (h.lowerArguments name 2 params args) fun xs => h.call pos f (x :: xs)
    | _ =>
      -- Only names can be called.
      simp only [Lowering.lower]
      exact h.calculates.throw _
  | .ellipsis .. | .logical .. | .member .. | .list .. | .lambda .. => by
    simp only [Lowering.lower]
    exact h.calculates.throw _

theorem lowerAll (h : Couples c c' moved R) : ∀ es : List Expr,
    R _ (Lowering.lowerAll c es) (Lowering.lowerAll c' es)
  | [] => by
    simp only [Lowering.lowerAll]
    exact h.calculates.pure _
  | e :: es => by
    simp only [Lowering.lowerAll]
    apply h.bind (h.lower e)
    intro v
    exact h.bind (h.lowerAll es) fun _ => h.calculates.pure _

theorem lowerArguments (h : Couples c c' moved R) (name : String) (i : Nat) (params : List Ty) :
    ∀ es : List Expr, R _ (Lowering.lowerArguments c name i params es)
      (Lowering.lowerArguments c' name i params es)
  | [] => by
    simp only [Lowering.lowerArguments]
    exact h.calculates.pure _
  | e :: es => by
    simp only [Lowering.lowerArguments]
    apply h.bind (h.lower e)
    intro v
    cases params with
    | nil => exact h.lowerArguments name (i + 1) [] es
    | cons param params =>
      apply h.bind (h.calculates.passArgument _ name i v param)
      intro x
      exact h.bind (h.lowerArguments name (i + 1) params es) fun _ => h.calculates.pure _

end

end Couples

end Emit

/-! ### Statements -/

/-- The same names have the same meanings in two states, up to functions that are `moved`. -/
structure State.Resembles (moved : Signature → Signature) (s t : State) : Prop where
  signature : t.frame.signature = s.frame.signature.map moved
  locals : t.frame.locals = s.frame.locals
  globalNames : t.frame.globalNames = s.frame.globalNames
  scope : ∀ name, t.progress.scope.find? name = s.progress.scope.find? name

namespace State.Resembles

variable {moved : Signature → Signature} {s t : State}

theorem refl (s : State) : s.Resembles id s :=
  ⟨Option.map_id_apply.symm, rfl, rfl, fun _ => rfl⟩

theorem isSome_signature (h : s.Resembles moved t) :
    t.frame.signature.isSome = s.frame.signature.isSome := by
  rw [h.signature, Option.isSome_map]

theorem isLocal (h : s.Resembles moved t) (name : String) :
    t.frame.isLocal name = s.frame.isLocal name := by
  rw [Frame.isLocal, Frame.isLocal, h.isSome_signature, h.globalNames]

theorem target? (h : s.Resembles moved t) (name : String) : t.target? name = s.target? name := by
  rw [State.target?, State.target?, h.isLocal, h.locals, h.scope]

end State.Resembles

namespace Lower

inductive EndsAlike (label : Label → Label → Prop) : Terminator → Terminator → Prop
  | ret (x : Option Operand) : EndsAlike label (.ret x) (.ret x)
  | jump {l l' : Label} (h : label l l') : EndsAlike label (.jump l) (.jump l')
  | branch (x : Operand) {yes yes' no no' : Label} (hyes : label yes yes') (hno : label no no') :
      EndsAlike label (.branch x yes no) (.branch x yes' no')

theorem EndsAlike.eq {t t' : Terminator} (h : EndsAlike Eq t t') : t = t' := by
  cases h with
  | ret x => rfl
  | jump h => rw [h]
  | branch x hyes hno => rw [hyes, hno]

inductive Edits (label : Label → Label → Prop) : (Body → Body) → (Body → Body) → Prop
  | start : Edits label (fun b => b) fun b => b
  | create {f g : Body → Body} {ls ls' : List Label} (hls : List.Forall₂ label ls ls')
      (h : Edits label f g) : Edits label (fun b => (f b).create ls) fun b => (g b).create ls'
  | close {f g : Body → Body} {t t' : Terminator} (ht : EndsAlike label t t')
      (h : Edits label f g) : Edits label (fun b => (f b).close t) fun b => (g b).close t'
  | finish {f g : Body → Body} {t t' : Terminator} (ht : EndsAlike label t t')
      (h : Edits label f g) : Edits label (fun b => (f b).finish t) fun b => (g b).finish t'
  | goto {f g : Body → Body} {l l' : Label} (hl : label l l') (h : Edits label f g) :
      Edits label (fun b => (f b).goto l) fun b => (g b).goto l'

theorem Edits.eq {f g : Body → Body} (h : Edits Eq f g) : f = g := by
  induction h with
  | start => rfl
  | create hls _ ih =>
    rw [List.forall₂_eq_eq_eq] at hls
    rw [ih, hls]
  | close ht _ ih | finish ht _ ih => rw [ih, ht.eq]
  | goto hl _ ih => rw [ih, hl]

def isSimple : Stmt → Bool
  | .branch .. | .loop .. | .ret .. => false
  | _ => true

/-- A relation of runs that emit code. Of the values that they compute something may be known. -/
structure CouplesCode (moved : Signature → Signature) (knows : Value → Prop)
    (R : (α : Type) → Lower α → Lower α → Prop) : Prop where
  pure : ∀ {α : Type} (a : α), R α (pure a) (pure a)
  fail : ∀ {α : Type} pos fault, R α (fail pos fault) (fail pos fault)
  bind : ∀ {α β : Type} {x y : Lower α} {f g : α → Lower β}, R α x y → (∀ a, R β (f a) (g a)) →
    R β (x >>= f) (y >>= g)
  get : ∀ {α : Type} {f g : State → Lower α}, (∀ s t, s.Resembles moved t → R α (f s) (g t)) →
    R α (get >>= f) (get >>= g)
  calculate : ∀ op : Ir.Operation, op.isCalculation = true →
    R _ (emit (Emit.emit op)) (emit (Emit.emit op))
  coerce : ∀ {v : Value} {t : ValueType} {x : Emit Operand}, knows v → coerce? v t = some x →
    R _ (emit x) (emit x)
  keep : ∀ {v : Value} {t : ValueType} {x : Emit Operand} (a : Operand), knows v →
    coerce? v t = some x → R _ (emit (do Emit.perform (.store (← x) a)))
      (emit (do Emit.perform (.store (← x) a)))

namespace CouplesCode

variable {moved : Signature → Signature} {knows : Value → Prop}
  {R : (α : Type) → Lower α → Lower α → Prop} {α : Type} {c : Prop} [Decidable c] {v : Value}

theorem ite {x y x' y' : Lower α} (hx : R α x y) (hx' : R α x' y') :
    R α (if c then x else x') (if c then y else y') := by
  split
  · exact hx
  · exact hx'

variable (h : CouplesCode moved knows R)
include h

theorem guarded {pos : Position} {fault : Fault}
    {x y : Lower α} (hx : R α x y) :
    R α (if c then (do Lower.fail pos fault; x) else x)
      (if c then (do Lower.fail pos fault; y) else y) :=
  ite (h.bind (h.fail pos fault) fun _ : Unit => hx) hx

theorem store (pos : Position) (symbol : Symbol)
    (hv : knows v) : R _ (store pos symbol v) (store pos symbol v) := by
  unfold Lower.store
  apply h.guarded
  split
  · rename_i address x _ hx
    exact h.keep address hv hx
  · exact h.fail _ _

theorem hintedType (pos : Position) (hint : Option String) (v : Value) :
    R _ (hintedType pos hint v) (hintedType pos hint v) := by
  unfold Lower.hintedType
  split
  · exact h.pure _
  · split
    · exact h.pure _
    · exact h.fail _ _

theorem returned (pos : Position) (f : Signature)
    (hv : knows v) : R _ (returned pos f v) (returned pos f v) := by
  unfold Lower.returned
  split
  · exact h.pure _
  · exact h.fail _ _
  · exact h.fail _ _
  · split
    · rename_i x hx
      exact h.bind (h.coerce hv hx) fun _ => h.pure _
    · exact h.fail _ _

theorem declareNames
    (hname : ∀ name, R Unit
      (modify fun s => { s with frame := { s.frame with globalNames := s.frame.globalNames ++ [name] } })
      (modify fun s => { s with frame := { s.frame with globalNames := s.frame.globalNames ++ [name] } }))
    (pos : Position) (names : List String) : R _ (declareNames pos names) (declareNames pos names) := by
  induction names with
  | nil => exact h.pure _
  | cons name names ih =>
    apply h.get
    intro s t hst
    rw [hst.locals]
    exact h.guarded (h.bind (hname name) fun _ => ih)

end CouplesCode

structure CouplesExpr (env env' : Environment) (moved : Signature → Signature)
    (knows : Value → Prop) (R : (α : Type) → Lower α → Lower α → Prop) : Prop
    extends CouplesCode moved knows R where
  value : ∀ {α : Type} (e : Expr) {f g : Value → Lower α}, (∀ v, knows v → R α (f v) (g v)) →
    R α (value env e >>= f) (value env' e >>= g)

namespace CouplesExpr

variable {env env' : Environment} {moved : Signature → Signature} {knows : Value → Prop}
  {R : (α : Type) → Lower α → Lower α → Prop} (h : CouplesExpr env env' moved knows R)
include h

theorem condition (e : Expr) :
    R _ (condition env e) (condition env' e) := by
  apply h.value e
  intro v _
  cases v with
  | bool x => exact h.pure x
  | i8 x | i16 x | f32 x => exact h.calculate _ rfl
  | str x | void => exact h.fail _ _

theorem augment (pos : Position) (name : String)
    (op : Token.Kind) (e : Expr) : R _ (augment env pos name op e) (augment env' pos name op e) := by
  apply h.get
  intro s t hst
  rw [hst.target?]
  cases s.target? name with
  | none => exact h.fail _ _
  | some symbol => exact h.value _ fun v hv => h.store pos symbol hv

theorem simple {st : Stmt} (hst : isSimple st = true)
    (hassign : ∀ pos name hint e, st = .assign pos name hint e →
      R _ (assign env pos name hint e) (assign env' pos name hint e))
    (hglobals : ∀ pos names, st = .globals pos names →
      R _ (declareNames pos names) (declareNames pos names)) : R _ (stmt env st) (stmt env' st) := by
  unfold stmt
  cases st with
  | evaluate pos e => exact h.value e fun _ _ => h.pure _
  | pass pos => exact h.pure _
  | globals pos names =>
    apply h.get
    intro s t hst
    rw [hst.isSome_signature]
    exact CouplesCode.ite (hglobals pos names rfl) (h.pure _)
  | assign pos name hint e => exact hassign pos name hint e rfl
  | augment pos name op e => exact h.augment pos name op e
  | define pos name params returns body => exact h.fail _ _
  | branch pos cond yes no | loop pos cond body | ret pos e => cases hst

end CouplesExpr

structure CouplesPlain (env env' : Environment) (moved : Signature → Signature)
    (knows : Value → Prop) (R : (α : Type) → Lower α → Lower α → Prop) : Prop
    extends CouplesExpr env env' moved knows R where
  defined : ∀ name, (env'.functions.find? name).isSome = (env.functions.find? name).isSome
  declareLocal : ∀ name type, R _ (declareLocal name type) (declareLocal name type)
  declareGlobal : ∀ name type initial,
    R _ (declareGlobal name type initial) (declareGlobal name type initial)

namespace CouplesPlain

variable {env env' : Environment} {moved : Signature → Signature} {knows : Value → Prop}
  {R : (α : Type) → Lower α → Lower α → Prop} (h : CouplesPlain env env' moved knows R)
include h

theorem assignNewGlobal (pos : Position) (name : String)
    (type : ValueType) (zero : Ir.Constant) {v : Value} (hv : knows v) :
    R _ (assignNewGlobal env pos name type zero v) (assignNewGlobal env' pos name type zero v) := by
  unfold Lower.assignNewGlobal
  rw [h.defined]
  apply h.guarded
  apply h.get
  intro s t hst
  have houtside : t.frame.signature.isNone = s.frame.signature.isNone := by
    rw [hst.signature, Option.isNone_map]
  dsimp only
  rw [houtside]
  split
  · exact h.bind (h.declareGlobal name type _) fun _ => h.pure _
  · exact h.bind (h.declareGlobal name type zero) fun symbol => h.store pos symbol hv

theorem assign (pos : Position) (name : String)
    (hint : Option String) (e : Expr) :
    R _ (assign env pos name hint e) (assign env' pos name hint e) := by
  apply h.value e
  intro v hv
  apply h.bind (h.hintedType pos hint v)
  intro type
  cases type.zero? with
  | none => exact h.fail _ _
  | some zero =>
    apply h.get
    intro s t hst
    rw [hst.target?, hst.isLocal]
    -- Both have the variable already, or both make it.
    cases s.target? name with
    | some symbol => exact h.guarded (h.store pos symbol hv)
    | none =>
      exact CouplesCode.ite (h.bind (h.declareLocal name type) fun symbol => h.store pos symbol hv)
        (h.assignNewGlobal pos name type zero hv)

end CouplesPlain

/-- A relation of runs that lower statements of some kind. They may give blocks different numbers,
and then it may be another one from there on. -/
structure Couples {ι : Type} (env env' : Environment) (moved : Signature → Signature)
    (knows : Value → Prop) (label : ι → Label → Label → Prop)
    (R : ι → (α : Type) → Lower α → Lower α → Prop) (kind : Stmt → Prop)
    (kinds : List Stmt → Prop) : Prop where
  code : ∀ i, CouplesExpr env env' moved knows (R i)
  void : knows .void
  returned : ∀ pos f v, Lower.returned pos (moved f) v = Lower.returned pos f v
  assign : ∀ i pos name hint e, kind (.assign pos name hint e) →
    R i _ (assign env pos name hint e) (assign env' pos name hint e)
  globals : ∀ i pos names, kind (.globals pos names) →
    R i _ (declareNames pos names) (declareNames pos names)
  nextIf : ∀ {i : ι} {α : Type} {f g : Nat → Lower α},
    (∀ j n n', List.Forall₂ (label j) [.ifThen n, .ifElse n, .ifMerge n]
      [.ifThen n', .ifElse n', .ifMerge n'] → R j α (f n) (g n')) →
    R i α (nextIf >>= f) (nextIf >>= g)
  nextWhile : ∀ {i : ι} {α : Type} {f g : Nat → Lower α},
    (∀ j n n', List.Forall₂ (label j) [.whileCond n, .whileBody n, .whileExit n]
      [.whileCond n', .whileBody n', .whileExit n'] → R j α (f n) (g n')) →
    R i α (nextWhile >>= f) (nextWhile >>= g)
  nextReturn : ∀ {i : ι} {α : Type} {f g : Nat → Lower α},
    (∀ j n n', label j (.afterReturn n) (.afterReturn n') → R j α (f n) (g n')) →
    R i α (nextReturn >>= f) (nextReturn >>= g)
  edit : ∀ {i : ι} {f g : Body → Body}, Edits (label i) f g →
    R i Unit (modifyBody f) (modifyBody g)
  sides : ∀ {pos cond yes no}, kind (.branch pos cond yes no) → kinds yes ∧ kinds no
  body : ∀ {pos cond body}, kind (.loop pos cond body) → kinds body
  each : ∀ {st ss}, kinds (st :: ss) → kind st ∧ kinds ss

namespace Couples

variable {ι : Type} {env env' : Environment} {moved : Signature → Signature}
  {knows : Value → Prop} {label : ι → Label → Label → Prop}
  {R : ι → (α : Type) → Lower α → Lower α → Prop} {kind : Stmt → Prop} {kinds : List Stmt → Prop}
  (h : Couples env env' moved knows label R kind kinds)
include h

theorem ret (i : ι) (pos : Position)
    (e : Option Expr) : R i _ (ret env pos e) (ret env' pos e) := by
  apply (h.code i).get
  intro s t hst
  rw [hst.signature]
  cases s.frame.signature with
  | none => exact (h.code i).fail _ _
  | some f =>
    have hrest (v : Value) (hv : knows v) : R i Unit (do
        let x ← Lower.returned pos f v
        let label := Label.afterReturn (← Lower.nextReturn)
        modifyBody fun b => ((b.close (.ret x)).create [label]).goto label) (do
        let x ← Lower.returned pos (moved f) v
        let label := Label.afterReturn (← Lower.nextReturn)
        modifyBody fun b => ((b.close (.ret x)).create [label]).goto label) := by
      rw [h.returned]
      apply (h.code i).bind ((h.code i).returned pos f hv)
      intro x
      apply h.nextReturn
      intro j n n' hn
      exact h.edit (.goto hn (.create (.cons hn .nil) (.close (.ret x) .start)))
    cases e with
    | none => exact hrest .void h.void
    | some e => exact (h.code i).value e hrest

theorem simple (i : ι) {st : Stmt} (hst : isSimple st = true) (hkind : kind st) :
    R i _ (stmt env st) (stmt env' st) :=
  (h.code i).simple hst (fun pos name hint e heq => h.assign i pos name hint e (heq ▸ hkind))
    fun pos names heq => h.globals i pos names (heq ▸ hkind)

mutual

-- The induction is on the statement, for all relations: a branch has its number before its sides.
theorem stmt (hreport : ∀ i x y, R i Unit x y → R i Unit (reported x) (reported y)) : ∀ (st : Stmt) (i : ι),
    kind st → R i _ (stmt env st) (stmt env' st)
  | .branch pos cond yes no, i, hst => by
    obtain ⟨hyes, hno⟩ := h.sides hst
    unfold Lower.stmt
    apply h.nextIf
    intro j n n' hn
    obtain ⟨hthen, helse, hmerge⟩ : label j (.ifThen n) (.ifThen n') ∧
      label j (.ifElse n) (.ifElse n') ∧ label j (.ifMerge n) (.ifMerge n') := by
      simpa using hn
    have hleave {l l' : Label} (hl : label j l l') :=
      h.edit (.goto hl (.finish (.jump hmerge) .start))
    apply (h.code j).bind ((h.code j).condition cond)
    intro x
    apply (h.code j).bind (h.edit (.goto hthen (.close (.branch x hthen helse) (.create hn .start))))
    intro _
    apply (h.code j).bind (stmts hreport yes j hyes)
    intro _
    apply (h.code j).bind (hleave helse)
    intro _
    exact (h.code j).bind (stmts hreport no j hno) fun _ => hleave hmerge
  | .loop pos cond body, i, hst => by
    unfold Lower.stmt
    apply h.nextWhile
    intro j n n' hn
    obtain ⟨hcond, hbody, hexit⟩ : label j (.whileCond n) (.whileCond n') ∧
      label j (.whileBody n) (.whileBody n') ∧ label j (.whileExit n) (.whileExit n') := by
      simpa using hn
    apply (h.code j).bind (h.edit (.goto hcond (.close (.jump hcond) (.create hn .start))))
    intro _
    apply (h.code j).bind ((h.code j).condition cond)
    intro x
    apply (h.code j).bind (h.edit (.goto hbody (.close (.branch x hbody hexit) .start)))
    intro _
    exact (h.code j).bind (stmts hreport body j (h.body hst)) fun _ =>
      h.edit (.goto hexit (.finish (.jump hcond) .start))
  | .ret pos e, i, _ => by
    unfold Lower.stmt
    exact h.ret i pos e
  | .evaluate .., i, hst | .pass .., i, hst | .globals .., i, hst | .assign .., i, hst
  | .augment .., i, hst | .define .., i, hst => h.simple i rfl hst

theorem stmts (hreport : ∀ i x y, R i Unit x y → R i Unit (reported x) (reported y)) :
    ∀ (ss : List Stmt) (i : ι), kinds ss → R i _ (stmts env ss) (stmts env' ss)
  | [], i, _ => by
    unfold Lower.stmts
    exact (h.code i).pure _
  | st :: ss, i, hss => by
    obtain ⟨hst, hrest⟩ := h.each hss
    unfold Lower.stmts
    exact (h.code i).bind (hreport i _ _ (stmt hreport st i hst)) fun _ =>
      stmts hreport ss i hrest

end

end Couples

end Lower

end BoardPython.Lowering
