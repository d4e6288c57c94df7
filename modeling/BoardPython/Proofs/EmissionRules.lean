import BoardPython.Proofs.Calculations
import BoardPython.Proofs.IrTyping

/-! Rules that emitted code keeps to. They say by which steps an emission goes on and what its code
can refer to. If single instructions keep to some rules, then so does the lowering of an expression,
whether it succeeds or fails half way: `Rules.meets_lower`. -/
namespace BoardPython

def Ir.Operation.isCellFree : Operation → Bool
  | .alloca _ | .load .. | .store .. => false
  | _ => true

namespace Lowering

open Ir (Callee Operand Operation Scene Ty)
open Relation (ReflTransGen)

section Meets

variable {σ α β : Type} {step : σ → σ → Prop} {s : σ} {Q : σ → α → Prop} {P : σ → β → Prop}

/-- From a state on, a computation goes by steps of some kind, also if it fails, and what it gives
has a property. -/
def Meets (step : σ → σ → Prop) (s : σ) (x : EStateM Error σ α) (Q : σ → α → Prop) : Prop :=
  match x s with
  | .ok a s' => ReflTransGen step s s' ∧ Q s' a
  | .error _ s' => ReflTransGen step s s'

variable {x : EStateM Error σ α}

theorem Meets.of_ok {s' : σ} {a : α} (h : Meets step s x Q)
    (hx : x s = .ok a s') : ReflTransGen step s s' ∧ Q s' a := by
  rwa [Meets, hx] at h

theorem Meets.of_error {s' : σ} {e : Error} (h : Meets step s x Q)
    (hx : x s = .error e s') : ReflTransGen step s s' := by
  rwa [Meets, hx] at h

theorem meets_pure {a : α} (h : Q s a) : Meets step s (pure a) Q := ⟨.refl, h⟩

theorem meets_throw (e : Error) : Meets step s (throw e) Q := ReflTransGen.refl

theorem Meets.bind {f : α → EStateM Error σ β} (hx : Meets step s x Q)
    (hf : ∀ a s', ReflTransGen step s s' → Q s' a → Meets step s' (f a) P) :
    Meets step s (x >>= f) P := by
  unfold Meets
  cases h : x s with
  | error e s1 =>
    rw [bind_of_error h]
    exact hx.of_error h
  | ok a s1 =>
    obtain ⟨hsteps, ha⟩ := hx.of_ok h
    have hrest := hf a s1 hsteps ha
    rw [bind_of_ok h]
    cases h' : f a s1 with
    | error e s2 => exact hsteps.trans (hrest.of_error h')
    | ok b s2 =>
      obtain ⟨hsteps', hb⟩ := hrest.of_ok h'
      exact ⟨hsteps.trans hsteps', hb⟩

theorem meets_get_bind {f : σ → EStateM Error σ β} (h : Meets step s (f s) P) :
    Meets step s (get >>= f) P := h

theorem Meets.weaken {Q' : σ → α → Prop} (hx : Meets step s x Q)
    (h : ∀ a s', ReflTransGen step s s' → Q s' a → Q' s' a) : Meets step s x Q' := by
  unfold Meets
  cases hs : x s with
  | error e s1 => exact hx.of_error hs
  | ok a s1 =>
    obtain ⟨hsteps, ha⟩ := hx.of_ok hs
    exact ⟨hsteps, h a s1 hsteps ha⟩

theorem meets_ite {c : Prop} [Decidable c] {y : EStateM Error σ α} (hx : c → Meets step s x Q)
    (hy : ¬c → Meets step s y Q) :
    Meets step s (if c then x else y) Q := by
  split
  · exact hx ‹c›
  · exact hy ‹¬c›

end Meets

namespace Lower

variable {step : State → State → Prop} {s : State} {α : Type}

theorem meets_absorb {estep : Emission → Emission → Prop} {x : Emit α} {P : Emission → α → Prop}
    {Q : State → α → Prop} (hstep : ∀ e, ReflTransGen estep s.emission e → step s (s.absorb e))
    (hx : Meets estep s.emission x P) (hQ : ∀ e a, P e a → Q (s.absorb e) a) :
    Meets step s (Lower.emit x) Q := by
  unfold Meets Lower.emit
  cases h : x s.emission with
  | ok a e =>
    obtain ⟨hsteps, ha⟩ := hx.of_ok h
    exact ⟨.single (hstep e hsteps), hQ e a ha⟩
  | error err e => exact .single (hstep e (hx.of_error h))

theorem meets_guarded {c : Prop} [Decidable c] {pos : Position} {fault : Fault} {x : Lower α}
    {Q : State → α → Prop} (hx : ¬c → Meets step s x Q) :
    Meets step s (if c then (do Lower.fail pos fault; x) else x) Q := by
  apply meets_ite
  · intro _
    exact Meets.bind (Q := fun _ (_ : Unit) => False) (meets_throw _) fun _ _ _ h => h.elim
  · exact hx

end Lower

namespace Emission

def literal (number : Nat) (value : Bytes) : Ir.Global :=
  ⟨s!".str.{number}", .bytes (value ++ [0]), true, true, true⟩

def emitted (s : Emission) (op : Operation) : Emission :=
  { s with
    instrs := s.instrs ++ [⟨some s.register, op⟩]
    register := s.register + 1 }

def performed (s : Emission) (op : Operation) : Emission :=
  { s with instrs := s.instrs ++ [⟨none, op⟩] }

def withLiteral (s : Emission) (value : Bytes) : Emission :=
  { s with
    globals := s.globals ++ [literal (s.strings + 1) value]
    strings := s.strings + 1 }

end Emission

structure Rules where
  step : Emission → Emission → Prop
  /-- What the code of an emission can refer to. -/
  scene : Emission → Scene
  /-- The addresses of variables. -/
  isPlace : Operand → Prop
  /-- Whether calls have all of their arguments. -/
  strict : Bool
  scene_le : ∀ {s s' : Emission}, step s s' → (scene s).Le (scene s')
  holds_const : ∀ (s : Emission) (k : Ir.Constant), (scene s).holds (.const k)
  emit : ∀ {s : Emission} {op : Operation}, op.Typed (scene s) strict → op.isCellFree = true →
    step s (s.emitted op) ∧ (scene (s.emitted op)).holds (.register s.register op.type)
  load : ∀ {s : Emission} {type : Ty} {a : Operand}, isPlace a → a.type = .pointer type →
    step s (s.emitted (.load type a)) ∧
      (scene (s.emitted (.load type a))).holds (.register s.register type)
  perform : ∀ {s : Emission} {op : Operation}, op.Typed (scene s) strict → op.isCellFree = true →
    step s (s.performed op)
  literal : ∀ (s : Emission) (value : Bytes), step s (s.withLiteral value) ∧
    (scene (s.withLiteral value)).holds
      (.global (Emission.literal (s.strings + 1) value).name (.array (value.length + 1) .i8))
  warn : ∀ {s : Emission} {d : Diagnostic}, strict = false → d.severity = .warning →
    step s { s with warnings := s.warnings ++ [d] }

/-- The operand of a value is there, and it has the type that represents the type of the value. -/
def Value.Known (σ : Scene) (v : Value) : Prop := ∀ x, v.operand? = some x → σ.Has x v.type.ir

variable {σ : Scene}

theorem Value.Known.mono {τ : Scene} {v : Value} (h : v.Known σ) (hle : σ.Le τ) : v.Known τ :=
  fun x hx => (h x hx).mono hle

theorem Value.known_void (σ : Scene) : Value.void.Known σ := fun x hx => by cases hx

theorem Value.known_ofOperand {t : ValueType} {x : Operand} (h : σ.Has x t.ir) :
    (Value.ofOperand t x).Known σ := by
  intro y hy
  cases t with
  | void | other code => cases hy
  | _ =>
    cases hy
    exact h

theorem Value.Known.wrap {v : Value} (h : v.Known σ) :
    Value.wrap v.type v.operand? = .ok v := by
  cases v with
  | void => rfl
  | _ x =>
    have hx := (h x rfl).2
    exact if_neg (not_not_intro hx)

def Promoted.Known (σ : Scene) (p : Promoted) : Prop :=
  σ.Has p.left p.type.type.ir ∧ σ.Has p.right p.type.type.ir

theorem Symbol.type_of_address? {symbol : Symbol} {a : Operand} (h : symbol.address? = some a) :
    a.type = .pointer symbol.type.ir := by
  unfold address? at h
  split at h <;> cases h <;> rfl

namespace Numeric

variable {operation : Ir.BinaryOp} {op : Token.Kind}

theorem isFloat_of_intOp?
    (h : intOp? op = some operation) : operation.isFloat = false := by
  unfold intOp? at h
  split at h <;> cases h <;> rfl

theorem isFloat_of_floatOp?
    (h : floatOp? op = some operation) : operation.isFloat = true := by
  unfold floatOp? at h
  split at h <;> cases h <;> rfl

theorem typed_operation {τ : Scene} {strict : Bool} {p : Promoted} (hp : p.Known τ)
    (hop : p.type.operation? op = some operation) :
    (Operation.binary operation p.left p.right).Typed τ strict := by
  obtain ⟨t, x, y⟩ := p
  obtain ⟨hx, hy⟩ := hp
  cases t with
  | i8 | i16 => exact .int (isFloat_of_intOp? hop) hx hy
  | f32 => exact .float (isFloat_of_floatOp? hop) hx hy

theorem value_eq_ofOperand (t : Numeric) (x : Operand) : t.value x = .ofOperand t.type x := by
  cases t <;> rfl

end Numeric

theorem meets_locate {step : Emission → Emission → Prop} {s : Emission} {α : Type} {x : Emit α}
    {Q : Emission → α → Prop} (pos : Position) (h : Meets step s x Q) :
    Meets step s (Emit.locate pos x) Q := by
  unfold Meets Emit.locate
  cases hx : x s with
  | ok a s1 => exact h.of_ok hx
  | error e s1 => exact h.of_error hx

namespace Rules

structure Admits (R : Rules) (c : Context) : Prop where
  strict : R.strict = c.strict
  binary : ∀ op v w s, v.Known (R.scene s) → w.Known (R.scene s) →
    Meets R.step s (c.operators.binary op v w) fun s' x => x.Known (R.scene s')
  compare : ∀ ops vs s, (∀ v ∈ vs, Value.Known (R.scene s) v) →
    Meets R.step s (c.operators.compare ops vs) fun s' x => x.Known (R.scene s')
  symbols : ∀ name symbol a, c.resolve? name = some symbol → symbol.address? = some a → R.isPlace a
  functions : ∀ key f s, c.functions.find? key = some f → (R.scene s).calls f.callee

variable {R : Rules} {c : Context} {s s' : Emission}

theorem scene_le_of_steps (h : ReflTransGen R.step s s') : (R.scene s).Le (R.scene s') := by
  induction h with
  | refl => exact Scene.Le.refl _
  | tail _ hstep ih => exact ih.trans (R.scene_le hstep)

theorem has_const (k : Ir.Constant) : (R.scene s).Has (.const k) k.type := ⟨R.holds_const s k, rfl⟩

variable {op : Operation} {bits : Nat} {values : List Value}

theorem meets_emit (hop : op.Typed (R.scene s) R.strict) (hfree : op.isCellFree = true) :
    Meets R.step s (Emit.emit op) fun s' x => (R.scene s').Has x op.type :=
  ⟨.single (R.emit hop hfree).1, (R.emit hop hfree).2, rfl⟩

theorem meets_load {type : Ty} {a : Operand} (ha : R.isPlace a) (htype : a.type = .pointer type) :
    Meets R.step s (Emit.emit (.load type a)) fun s' x => (R.scene s').Has x type :=
  ⟨.single (R.load ha htype).1, (R.load ha htype).2, rfl⟩

theorem meets_perform (hop : op.Typed (R.scene s) R.strict) (hfree : op.isCellFree = true) :
    Meets R.step s (Emit.perform op) fun _ _ => True :=
  ⟨.single (R.perform hop hfree), trivial⟩

theorem meets_stringLiteral (value : Bytes) :
    Meets R.step s (Emit.stringLiteral value) fun s' x => (R.scene s').Has x .bytePointer := by
  -- The global comes first, so that its first byte can be referred to.
  have hstring : Meets R.step s (modifyGet fun s : Emission => (s.strings + 1, s.withLiteral value))
      fun s' number => (R.scene s').holds
        (.global (Emission.literal number value).name (.array (value.length + 1) .i8)) :=
    ⟨.single (R.literal s value).1, (R.literal s value).2⟩
  exact hstring.bind fun number s' _ hg => meets_emit (.firstByte hg) rfl

variable {v w : Value} {x : Operand}

theorem meets_extend (hx : (R.scene s).Has x .i8) :
    Meets R.step s (extend x) fun s' y => (R.scene s').Has y .i16 :=
  meets_emit (.sext (by decide) hx) rfl

theorem meets_toFloat (hx : (R.scene s).Has x (.int bits)) :
    Meets R.step s (toFloat x) fun s' y => (R.scene s').Has y .float :=
  meets_emit (.sitofp hx) rfl

theorem meets_promote (hv : v.Known (R.scene s)) (hw : w.Known (R.scene s)) :
    Meets R.step s (promote v w) fun s' p =>
      ∀ p', p = some p' → p'.Known (R.scene s') := by
  have hboth {t : Numeric} {x y : Operand} {s' : Emission} (hx : (R.scene s').Has x t.type.ir)
      (hy : (R.scene s').Has y t.type.ir) :
      Meets R.step s' (pure (some (⟨t, x, y⟩ : Promoted))) fun s' p =>
        ∀ p', p = some p' → p'.Known (R.scene s') :=
    meets_pure fun p' hp' => by
      obtain rfl := Option.some.inj hp'
      exact ⟨hx, hy⟩
  have hnone : Meets R.step s (pure none) fun s' (p : Option Promoted) =>
      ∀ p', p = some p' → p'.Known (R.scene s') :=
    meets_pure fun p' hp' => by cases hp'
  -- An operand that needs no conversion is still there after that of the other one.
  have hkeep {x : Operand} {t : Ty} {s' : Emission} (hx : (R.scene s).Has x t)
      (hs : ReflTransGen R.step s s') : (R.scene s').Has x t :=
    hx.mono (scene_le_of_steps hs)
  unfold promote
  cases v with
  | i8 x =>
    have hx := hv x rfl
    cases w with
    | i8 y => exact hboth hx (hw y rfl)
    | i16 y => exact (meets_extend hx).bind fun z s' hs hz => hboth hz (hkeep (hw y rfl) hs)
    | f32 y => exact (meets_toFloat hx).bind fun z s' hs hz => hboth hz (hkeep (hw y rfl) hs)
    | _ => exact hnone
  | i16 x =>
    have hx := hv x rfl
    cases w with
    | i8 y => exact (meets_extend (hw y rfl)).bind fun z s' hs hz => hboth (hkeep hx hs) hz
    | i16 y => exact hboth hx (hw y rfl)
    | f32 y => exact (meets_toFloat hx).bind fun z s' hs hz => hboth hz (hkeep (hw y rfl) hs)
    | _ => exact hnone
  | f32 x =>
    have hx := hv x rfl
    cases w with
    | i8 y | i16 y => exact (meets_toFloat (hw y rfl)).bind fun z s' hs hz => hboth (hkeep hx hs) hz
    | f32 y => exact hboth hx (hw y rfl)
    | _ => exact hnone
  | _ => exact hnone

theorem meets_binary (op : Token.Kind) (hv : v.Known (R.scene s)) (hw : w.Known (R.scene s)) :
    Meets R.step s (Numeric.binary op v w) fun s' r => r.Known (R.scene s') := by
  apply (meets_promote hv hw).bind
  intro p s' _ hp
  cases p with
  | none => exact meets_throw _
  | some p =>
    have hknown := hp p rfl
    dsimp only
    cases hop : p.type.operation? op with
    | none => exact meets_throw _
    | some operation =>
      apply (meets_emit (Numeric.typed_operation hknown hop) rfl).bind
      intro x s'' _ hx
      have htype : (Operation.binary operation p.left p.right).type = p.type.type.ir := hknown.1.2
      rw [htype] at hx
      rw [Numeric.value_eq_ofOperand]
      exact meets_pure (Value.known_ofOperand hx)

theorem meets_compareOne (op : Token.Kind) (hv : v.Known (R.scene s)) (hw : w.Known (R.scene s)) :
    Meets R.step s (Numeric.compareOne op v w) fun s' x => (R.scene s').Has x .i1 := by
  unfold Numeric.compareOne
  split
  · rename_i x y
    exact meets_emit (.icmp (hv x rfl) (hw y rfl)) rfl
  · rename_i x y
    exact meets_emit (.icmp (hv x rfl) (hw y rfl)) rfl
  apply (meets_promote hv hw).bind
  intro p s' _ hp
  cases p with
  | none => exact meets_throw _
  | some p =>
    obtain ⟨t, x, y⟩ := p
    obtain ⟨hx, hy⟩ := hp _ rfl
    dsimp only
    cases Numeric.order? op with
    | none => exact meets_throw _
    | some order =>
      cases t with
      | i8 | i16 => exact meets_emit (.icmp hx hy) rfl
      | f32 => exact meets_emit (.fcmp hx hy) rfl

theorem meets_compareRest (ops : List Token.Kind) {sofar : Operand}
    (hsofar : (R.scene s).Has sofar .i1) (hv : v.Known (R.scene s))
    (hvalues : ∀ w ∈ values, w.Known (R.scene s)) :
    Meets R.step s (Numeric.compareRest sofar v ops values) fun s' x =>
      (R.scene s').Has x .i1 := by
  induction ops generalizing s sofar v values with
  | nil => exact meets_pure hsofar
  | cons op ops ih =>
    cases values with
    | nil => exact meets_pure hsofar
    | cons w values =>
      have hw := hvalues w (List.mem_cons_self ..)
      apply (meets_compareOne op hv hw).bind
      intro c s1 h1 hc
      have hle1 := scene_le_of_steps h1
      apply (meets_emit (.int rfl (hsofar.mono hle1) hc) rfl).bind
      intro both s2 h2 hboth
      have hle2 := hle1.trans (scene_le_of_steps h2)
      have htype : (Operation.binary .and sofar c).type = .i1 := hsofar.2
      rw [htype] at hboth
      exact ih hboth (hw.mono hle2) fun w' hw' =>
        (hvalues w' (List.mem_cons_of_mem _ hw')).mono hle2

theorem meets_compare (ops : List Token.Kind) (hvalues : ∀ v ∈ values, v.Known (R.scene s)) :
    Meets R.step s (Numeric.compare ops values) fun s' r => r.Known (R.scene s') := by
  unfold Numeric.compare
  split
  · rename_i op ops v w values
    apply meets_ite
    · intro _
      exact meets_throw _
    intro _
    have hv := hvalues v (List.mem_cons_self ..)
    have hw := hvalues w (List.mem_cons_of_mem _ (List.mem_cons_self ..))
    apply (meets_compareOne op hv hw).bind
    intro first s1 h1 hfirst
    have hle := scene_le_of_steps h1
    have hrest : ∀ u ∈ values, u.Known (R.scene s1) := fun u hu =>
      (hvalues u (List.mem_cons_of_mem _ (List.mem_cons_of_mem _ hu))).mono hle
    apply (meets_compareRest ops hfirst (hw.mono hle) hrest).bind
    intro x s2 _ hx
    exact meets_pure (Value.known_ofOperand (t := .bool) hx)
  · exact meets_throw _

theorem meets_number (pos : Position) (value : Number.Numeral) (raw : String) (negated : Bool) :
    Meets R.step s (number pos value raw negated) fun s' v => v.Known (R.scene s') := by
  cases value with
  | int n => exact meets_pure (Value.known_ofOperand (t := .i16) (has_const _))
  | float x => exact meets_pure (Value.known_ofOperand (t := .f32) (has_const _))
  | imaginary x => exact meets_throw _

theorem meets_negation (pos : Position) (op : Token.Kind) (e : Expr) :
    Meets R.step s (negation pos op e) fun s' v => v.Known (R.scene s') := by
  unfold negation
  split
  · exact meets_number _ _ _ _
  · exact meets_throw _

theorem meets_stringValue (pos : Position) (value : Bytes) :
    Meets R.step s (stringValue c pos value) fun s' v => v.Known (R.scene s') := by
  apply meets_ite
  · intro _
    apply (meets_stringLiteral value).bind
    intro x s' _ hx
    exact meets_pure (Value.known_ofOperand (t := .str) hx)
  · intro _
    exact meets_throw _

theorem meets_variableValue (hc : R.Admits c) (pos : Position) (name : String) :
    Meets R.step s (variableValue c pos name) fun s' v => v.Known (R.scene s') := by
  unfold variableValue
  cases hsymbol : c.resolve? name with
  | none => exact meets_throw _
  | some symbol =>
    dsimp only
    cases haddress : symbol.address? with
    | none => exact meets_pure (Value.known_void _)
    | some a =>
      have ha := hc.symbols name symbol a hsymbol haddress
      apply (meets_load ha (Symbol.type_of_address? haddress)).bind
      intro x s' _ hx
      exact meets_pure (Value.known_ofOperand hx)

theorem meets_resize (width : Nat) (hx : (R.scene s).Has x (.int bits)) :
    Meets R.step s (resize x bits width) fun s' y => (R.scene s').Has y (.int width) := by
  apply meets_ite
  · intro heq
    exact meets_pure (heq ▸ hx)
  intro hne
  by_cases hlt : width < bits
  · rw [if_pos hlt]
    exact meets_emit (.trunc hlt hx) rfl
  · rw [if_neg hlt]
    exact meets_emit (.sext (by omega) hx) rfl

theorem meets_coerce? {t : ValueType} {x : Emit Operand} (hv : v.Known (R.scene s))
    (hx : Lower.coerce? v t = some x) : Meets R.step s x fun s' y => (R.scene s').Has y t.ir := by
  unfold Lower.coerce? at hx
  split at hx <;> cases hx
  · exact meets_pure (hv _ rfl)
  · exact meets_resize 16 (hv _ rfl)
  · exact meets_resize 8 (hv _ rfl)
  · exact meets_pure (hv _ rfl)
  · exact meets_pure (hv _ rfl)
  · exact meets_pure (hv _ rfl)
  · exact meets_pure (hv _ rfl)

theorem meets_pass? {param : Ty} {x : Emit Operand} (hv : v.Known (R.scene s))
    (hx : pass? v param = some x) :
    Meets R.step s x fun s' y => (R.scene s').Has y param := by
  unfold pass? at hx
  split at hx
  · rename_i x' bits
    cases hx
    exact meets_resize bits (hv x' rfl)
  · rename_i x' bits
    split at hx
    · cases hx
      exact meets_resize bits (hv x' rfl)
    · cases hx
  · cases hx
    exact meets_pure (hv _ rfl)
  · cases hx
    exact meets_pure (hv _ rfl)
  · cases hx

theorem meets_passArgument (pos : Position) (name : String) (i : Nat) (param : Ty)
    (hv : v.Known (R.scene s)) :
    Meets R.step s (passArgument pos name i v param) fun s' y =>
      (R.scene s').Has y param := by
  unfold passArgument
  cases hx : pass? v param with
  | some x => exact meets_pass? hv hx
  | none => exact meets_throw _

theorem meets_function (hc : R.Admits c) (pos : Position) (name : String)
    (first : Option ValueType) :
    Meets R.step s (function c pos name first) fun _ f =>
      ∀ s', (R.scene s').calls f.callee := by
  rw [function_eq]
  cases hf : c.select? name first with
  | none => exact meets_throw _
  | some f =>
    refine meets_pure fun s' => ?_
    rcases Option.or_eq_some_iff.mp hf with hf | ⟨-, hf⟩
    · exact hc.functions name f s' hf
    · obtain ⟨t, -, hf⟩ := Option.bind_eq_some_iff.mp hf
      exact hc.functions _ f s' hf

theorem meets_checkArity (hc : R.Admits c) (pos : Position) (name : String) (params args : Nat) :
    Meets R.step s (checkArity c pos name params args) fun _ _ =>
      R.strict = true → args = params := by
  rw [hc.strict]
  apply meets_ite
  · intro heq
    exact meets_pure fun _ => heq
  intro _
  apply meets_ite
  · intro _
    exact meets_throw _
  · intro hlenient
    have hwarn := hc.strict.trans (Bool.eq_false_iff.mpr hlenient)
    exact ⟨.single (R.warn hwarn rfl), fun hstrict => absurd hstrict hlenient⟩

theorem meets_callValue (pos : Position) {result : Ty} (hx : (R.scene s).Has x result) :
    Meets R.step s (callValue pos result x) fun s' v => v.Known (R.scene s') := by
  unfold callValue
  split
  · exact meets_pure (Value.known_ofOperand (t := .i8) hx)
  · exact meets_pure (Value.known_ofOperand (t := .i16) hx)
  · exact meets_throw _
  · exact meets_pure (Value.known_ofOperand (t := .f32) hx)
  · exact meets_throw _

theorem meets_call (pos : Position) {f : Callee} {args : List Operand} (hf : (R.scene s).calls f)
    (hargs : List.Forall₂ (R.scene s).Has args (f.params.take args.length))
    (hstrict : R.strict = true → args.length = f.params.length) :
    Meets R.step s (call pos f args) fun s' v => v.Known (R.scene s') := by
  have hcall : (Operation.call true f args).Typed (R.scene s) R.strict := .call hf hargs hstrict
  apply meets_ite
  · intro _
    exact (meets_perform hcall rfl).bind fun _ _ _ _ => meets_pure (Value.known_void _)
  · intro _
    exact (meets_emit hcall rfl).bind fun x s' _ hx => meets_callValue pos hx

mutual

theorem meets_lower (hc : R.Admits c) : ∀ (e : Expr) (s : Emission),
    Meets R.step s (lower c e) fun s' v => v.Known (R.scene s')
  | .number pos value raw, s => by
    simp only [lower]
    exact meets_number _ _ _ _
  | .string pos value, s => by
    simp only [lower]
    exact meets_stringValue pos value
  | .bool pos b, s => by
    simp only [lower]
    exact meets_pure (Value.known_ofOperand (t := .bool) (has_const _))
  | .none pos, s => by
    simp only [lower]
    exact meets_pure (Value.known_void _)
  | .ellipsis .., s | .logical .., s | .member .., s | .list .., s | .lambda .., s => by
    simp only [lower]
    exact meets_throw _
  | .unary pos op operand, s => by
    simp only [lower]
    exact meets_negation pos op operand
  | .name pos id, s => by
    simp only [lower]
    exact meets_variableValue hc pos id
  | .binary pos op left right, s => by
    simp only [lower]
    apply (meets_lower hc left s).bind
    intro v s1 _ hv
    apply (meets_lower hc right s1).bind
    intro w s2 h2 hw
    exact meets_locate pos (hc.binary op v w s2 (hv.mono (scene_le_of_steps h2)) hw)
  | .compare pos ops operands, s => by
    simp only [lower]
    apply (meets_lowerAll hc operands s).bind
    intro values s1 _ hvalues
    exact meets_locate pos (hc.compare ops values s1 hvalues)
  | .call pos callee args, s => by
    cases callee with
    | name p name =>
      cases args with
      | nil =>
        simp only [lower]
        apply (meets_function hc p name none).bind
        intro f s1 _ hf
        apply (meets_checkArity hc pos name f.callee.params.length 0).bind
        intro _ s2 _ harity
        exact meets_call pos (hf _) .nil harity
      | cons arg args =>
        simp only [lower]
        apply (meets_lower hc arg s).bind
        intro first s1 _ hfirst
        apply (meets_function hc p name (some first.type)).bind
        intro f s2 h2 hf
        apply (meets_checkArity hc pos name f.callee.params.length (args.length + 1)).bind
        intro _ s3 h3 harity
        -- What was emitted for the first argument is still there when it is passed.
        have hfirst' := hfirst.mono (scene_le_of_steps (h2.trans h3))
        split
        · rename_i hparams
          apply (meets_lowerAll hc args s3).bind
          intro _ s4 _ _
          refine meets_call pos (hf _) .nil fun _ => ?_
          rw [hparams]
          rfl
        · rename_i param params hparams
          apply (meets_passArgument arg.position name 1 param hfirst').bind
          intro x s4 _ hx
          apply (meets_lowerArguments hc name 2 params args s4).bind
          intro xs s5 h5 hxs
          have hx' := hx.mono (scene_le_of_steps h5)
          apply meets_call pos (hf _)
          · rw [hparams]
            exact .cons hx' hxs.1
          · intro hstrict
            have hlength := harity hstrict
            rw [hparams, List.length_cons] at hlength
            rw [hparams, List.length_cons, List.length_cons, hxs.2]
            omega
    | _ =>
      simp only [lower]
      exact meets_throw _

theorem meets_lowerAll (hc : R.Admits c) : ∀ (es : List Expr) (s : Emission),
    Meets R.step s (lowerAll c es) fun s' vs => ∀ v ∈ vs, v.Known (R.scene s')
  | [], s => by
    simp only [lowerAll]
    exact meets_pure (List.forall_mem_nil _)
  | e :: es, s => by
    simp only [lowerAll]
    apply (meets_lower hc e s).bind
    intro v s1 _ hv
    apply (meets_lowerAll hc es s1).bind
    intro vs s2 h2 hvs
    refine meets_pure fun w hw => ?_
    rcases List.mem_cons.mp hw with rfl | hw
    · exact hv.mono (scene_le_of_steps h2)
    · exact hvs w hw

theorem meets_lowerArguments (hc : R.Admits c) (name : String) : ∀ (i : Nat) (params : List Ty)
    (es : List Expr) (s : Emission),
    Meets R.step s (lowerArguments c name i params es) fun s' xs =>
      List.Forall₂ (R.scene s').Has xs (params.take xs.length) ∧
        xs.length = min es.length params.length
  | i, params, [], s => by
    simp only [lowerArguments]
    refine meets_pure ⟨.nil, ?_⟩
    simp
  | i, [], e :: es, s => by
    simp only [lowerArguments]
    apply (meets_lower hc e s).bind
    intro v s1 _ hv
    apply (meets_lowerArguments hc name (i + 1) [] es s1).weaken
    intro xs s2 _ hxs
    refine ⟨hxs.1, ?_⟩
    rw [hxs.2]
    simp
  | i, param :: params, e :: es, s => by
    simp only [lowerArguments]
    apply (meets_lower hc e s).bind
    intro v s1 _ hv
    apply (meets_passArgument e.position name i param hv).bind
    intro x s2 _ hx
    apply (meets_lowerArguments hc name (i + 1) params es s2).bind
    intro xs s3 h3 hxs
    refine meets_pure ⟨.cons (hx.mono (scene_le_of_steps h3)) hxs.1, ?_⟩
    rw [List.length_cons, List.length_cons, List.length_cons, hxs.2]
    omega

end

end Rules

end Lowering

end BoardPython
