import BoardPython.Proofs.DeclarationSteps

/-! Which expressions can be lowered, and what type their values have. The typing rules look at the
variables and the functions that an expression can name, and at nothing that has been emitted. An
expression is lowered to a value of a type exactly if the rules give it that type. -/
namespace BoardPython.Lowering

open Ir (Callee Operand Ty)
open Token (Kind)

/-! ### Types of operands, arguments and results -/

namespace ValueType

def numbers : List ValueType := [.i8, .i16, .f32]

def integers : List ValueType := [.i8, .i16]

def wider (t u : ValueType) : ValueType :=
  if t = .f32 ∨ u = .f32 then .f32 else if t = .i16 ∨ u = .i16 then .i16 else .i8

end ValueType

def arithmetic : List Kind := [.plus, .minus, .star, .slash, .percent]

def integral : List Kind := [.doubleSlash, .ampersand, .pipe, .caret, .shiftLeft, .shiftRight]

def orders : List Kind := [.equal, .notEqual, .less, .lessEqual, .greater, .greaterEqual]

def Applicable (op : Kind) (t u : ValueType) : Prop :=
  (op ∈ arithmetic ∧ t ∈ ValueType.numbers ∧ u ∈ ValueType.numbers) ∨
    (op ∈ integral ∧ t ∈ ValueType.integers ∧ u ∈ ValueType.integers)

def Comparable (op : Kind) (t u : ValueType) : Prop :=
  (op ∈ orders ∧ t ∈ ValueType.numbers ∧ u ∈ ValueType.numbers) ∨
    ((op = .equal ∨ op = .notEqual) ∧ t = .bool ∧ u = .bool)

/-- A chain of comparisons, each between neighbours. -/
structure Chained (ops : List Kind) (ts : List ValueType) : Prop where
  nonempty : ops ≠ []
  length : ts.length = ops.length + 1
  comparable : ∀ x ∈ ops.zip (ts.zip ts.tail), Comparable x.1 x.2.1 x.2.2

/-- Whether values of a type can be passed for a parameter. -/
inductive Castable : ValueType → Ty → Prop
  | i8 {bits : Nat} : Castable .i8 (.int bits)
  | i16 {bits : Nat} (h : bits ≤ 16) : Castable .i16 (.int bits)
  | f32 : Castable .f32 .float
  | str : Castable .str .bytePointer

/-- The type that the result of a call has as a value. -/
inductive Returns : Ty → ValueType → Prop
  | void : Returns .void .void
  | i8 : Returns .i8 .i8
  | i16 : Returns .i16 .i16
  | f32 : Returns .float .f32

/-- The function that a call means: that of the name, or else the overload for the type of the first
argument. -/
inductive Context.Selects (c : Context) (name : String) (first : Option ValueType) :
    Signature → Prop
  | plain {f : Signature} (h : c.functions.find? name = some f) : Selects c name first f
  | overload {f : Signature} {t : ValueType} (h : c.functions.find? name = none)
      (ht : first = some t) (hf : c.functions.find? (FunctionTable.overloadKey name t) = some f) :
      Selects c name first f

inductive HasType (c : Context) : Expr → ValueType → Prop
  | int {pos : Position} {n : Int} {raw : String} : HasType c (.number pos (.int n) raw) .i16
  | float {pos : Position} {x : Number.Binary} {raw : String} :
      HasType c (.number pos (.float x) raw) .f32
  | negatedInt {pos p : Position} {n : Int} {raw : String} :
      HasType c (.unary pos .minus (.number p (.int n) raw)) .i16
  | negatedFloat {pos p : Position} {x : Number.Binary} {raw : String} :
      HasType c (.unary pos .minus (.number p (.float x) raw)) .f32
  | string {pos : Position} {value : Bytes} (h : c.locals.isSome) : HasType c (.string pos value) .str
  | bool {pos : Position} {b : Bool} : HasType c (.bool pos b) .bool
  | none {pos : Position} : HasType c (.none pos) .void
  | name {pos : Position} {id : String} {symbol : Symbol} (h : c.resolve? id = some symbol) :
      HasType c (.name pos id) symbol.type
  | binary {pos : Position} {op : Kind} {left right : Expr} {t u : ValueType}
      (hleft : HasType c left t) (hright : HasType c right u) (h : Applicable op t u) :
      HasType c (.binary pos op left right) (t.wider u)
  | compare {pos : Position} {ops : List Kind} {operands : List Expr} {ts : List ValueType}
      (hoperands : List.Forall₂ (HasType c) operands ts) (h : Chained ops ts) :
      HasType c (.compare pos ops operands) .bool
  | call {pos p : Position} {name : String} {args : List Expr} {ts : List ValueType}
      {f : Signature} {t : ValueType} (hargs : List.Forall₂ (HasType c) args ts)
      (hf : c.Selects name ts.head? f)
      (hcount : c.strict = true → ts.length = f.callee.params.length)
      (hcast : ∀ x ∈ ts.zip f.callee.params, Castable x.1 x.2) (hresult : Returns f.callee.result t) :
      HasType c (.call pos (.name p name) args) t

/-! ### Computations that do not depend on what has been emitted -/

section Rules

variable {α β γ δ : Type}

/-- A computation whose results, seen through `view`, are those that satisfy `R`, from whatever has
been emitted before. -/
def Gives (view : α → β) (R : β → Prop) (x : Emit α) : Prop :=
  ∀ s b, (∃ a s', x s = .ok a s' ∧ view a = b) ↔ R b

abbrev Succeeds (P : Prop) (x : Emit α) : Prop := Gives (fun _ => ()) (fun _ => P) x

variable {x : Emit α} {view : α → β} {R : β → Prop} {f : α → Emit γ}

theorem gives_pure {a : α} (h : R (view a))
    (hunique : ∀ b, R b → view a = b) : Gives view R (pure a) := by
  intro s b
  constructor
  · rintro ⟨a', s', hok, rfl⟩
    obtain ⟨rfl, -⟩ := pure_eq_ok hok
    exact h
  · intro hb
    exact ⟨a, s, rfl, hunique b hb⟩

theorem gives_throw {e : Error} (h : ∀ b, ¬ R b) :
    Gives view R (throw e) := by
  intro s b
  constructor
  · rintro ⟨a, s', hok, -⟩
    cases hok
  · intro hb
    exact absurd hb (h b)

theorem Gives.bind {view' : γ → δ} (hx : Gives view R x) (next : β → δ → Prop)
    (hf : ∀ a, R (view a) → Gives view' (next (view a)) (f a)) :
    Gives view' (fun d => ∃ b, R b ∧ next b d) (x >>= f) := by
  intro s d
  constructor
  · rintro ⟨c, s', hok, hd⟩
    obtain ⟨a, s1, ha, hc⟩ := bind_eq_ok hok
    have hR := (hx s _).mp ⟨a, s1, ha, rfl⟩
    exact ⟨view a, hR, (hf a hR s1 d).mp ⟨c, s', hc, hd⟩⟩
  · rintro ⟨b, hb, hd⟩
    obtain ⟨a, s1, ha, rfl⟩ := (hx s b).mpr hb
    obtain ⟨c, s', hc, hview⟩ := (hf a hb s1 d).mpr hd
    exact ⟨c, s', (bind_of_ok ha).trans hc, hview⟩

theorem Gives.congr {R' : β → Prop} (hx : Gives view R x)
    (h : ∀ b, R' b ↔ R b) : Gives view R' x := fun s b => (hx s b).trans (h b).symm

theorem Gives.locate (hx : Gives view R x)
    (pos : Position) : Gives view R (Emit.locate pos x) := by
  intro s b
  rw [← hx s b]
  constructor
  · rintro ⟨a, s', hok, hb⟩
    exact ⟨a, s', locate_eq_ok hok, hb⟩
  · rintro ⟨a, s', hok, hb⟩
    refine ⟨a, s', ?_, hb⟩
    unfold Emit.locate
    rw [hok]

/-- A first step that cannot fail does not matter. -/
theorem Gives.of_total {view : γ → δ} {R : δ → Prop} (hx : Succeeds True x)
    (hf : ∀ a, Gives view R (f a)) : Gives view R (x >>= f) := by
  refine (Gives.bind hx (fun _ => R) fun a _ => hf a).congr fun d => ⟨fun h => ⟨(), trivial, h⟩, ?_⟩
  rintro ⟨-, -, h⟩
  exact h

theorem Succeeds.bind {P : Prop} {view : γ → δ} {R : δ → Prop} (hx : Succeeds P x)
    (hf : P → ∀ a, Gives view R (f a)) :
    Gives view (fun d => P ∧ R d) (x >>= f) := by
  refine (Gives.bind hx (fun _ => R) fun a hP => hf hP a).congr fun d => ⟨fun h => ⟨(), h⟩, ?_⟩
  rintro ⟨-, h⟩
  exact h

theorem Gives.succeeds (hx : Gives view R x) :
    Succeeds (∃ b, R b) x := by
  intro s _
  constructor
  · rintro ⟨a, s', hok, -⟩
    exact ⟨view a, (hx s _).mp ⟨a, s', hok, rfl⟩⟩
  · rintro ⟨b, hb⟩
    obtain ⟨a, s', hok, -⟩ := (hx s b).mpr hb
    exact ⟨a, s', hok, rfl⟩

theorem succeeds_emit (operation : Ir.Operation) : Succeeds True (Emit.emit operation) :=
  fun _ _ => ⟨fun _ => trivial, fun _ => ⟨_, _, rfl, rfl⟩⟩

theorem succeeds_perform (operation : Ir.Operation) : Succeeds True (Emit.perform operation) :=
  fun _ _ => ⟨fun _ => trivial, fun _ => ⟨_, _, rfl, rfl⟩⟩

theorem succeeds_stringLiteral (value : Bytes) : Succeeds True (Emit.stringLiteral value) :=
  fun _ _ => ⟨fun _ => trivial, fun _ => ⟨_, _, rfl, rfl⟩⟩

theorem succeeds_pure (a : α) : Succeeds True (pure a : Emit α) :=
  gives_pure trivial fun _ _ => rfl

end Rules

/-! ### Operators -/

namespace Numeric

theorem gives_promote (v w : Value) :
    Gives (Option.map fun p : Promoted => p.type.type)
      (fun t => t = if v.type ∈ ValueType.numbers ∧ w.type ∈ ValueType.numbers then
        some (v.type.wider w.type) else none) (promote v w) := by
  have hpure (p : Option Promoted) (t : Option ValueType) (ht : t = p.map (·.type.type)) :
      Gives (Option.map fun p : Promoted => p.type.type) (fun t' => t' = t)
        (pure p : Emit (Option Promoted)) :=
    gives_pure ht.symm fun b hb => (hb.trans ht).symm
  have hconvert (operation : Ir.Operation) (f : Operand → Promoted) (t : ValueType)
      (ht : ∀ x, (f x).type.type = t) :
      Gives (Option.map fun p : Promoted => p.type.type) (fun t' => t' = some t)
        (Emit.emit operation >>= fun x => pure (some (f x))) :=
    .of_total (succeeds_emit operation) fun x => hpure _ _ (by rw [Option.map_some, ht])
  cases v <;> cases w <;>
    first
    | exact hpure _ _ rfl
    | exact hconvert _ _ _ fun _ => rfl

theorem isSome_operation?_iff (t : Numeric) (op : Kind) :
    (t.operation? op).isSome ↔ op ∈ arithmetic ∨ op ∈ integral ∧ t.type ∈ ValueType.integers := by
  cases t <;> cases op <;> simp [operation?, intOp?, floatOp?, arithmetic, integral, type,
    ValueType.integers]

theorem isSome_order?_iff (op : Kind) : (order? op).isSome ↔ op ∈ orders := by
  cases op <;> simp [order?, orders]

theorem wider_mem_integers_iff {t u : ValueType} (ht : t ∈ ValueType.numbers)
    (hu : u ∈ ValueType.numbers) :
    t.wider u ∈ ValueType.integers ↔ t ∈ ValueType.integers ∧ u ∈ ValueType.integers := by
  have hall : ∀ t ∈ ValueType.numbers, ∀ u ∈ ValueType.numbers,
      t.wider u ∈ ValueType.integers ↔ t ∈ ValueType.integers ∧ u ∈ ValueType.integers := by
    decide
  exact hall t ht u hu

theorem numbers_of_integers {t : ValueType} (h : t ∈ ValueType.integers) :
    t ∈ ValueType.numbers :=
  have hall : ∀ t ∈ ValueType.integers, t ∈ ValueType.numbers := by decide
  hall t h

theorem applicable_iff (op : Kind) (t u : ValueType) :
    Applicable op t u ↔ (t ∈ ValueType.numbers ∧ u ∈ ValueType.numbers) ∧
      (op ∈ arithmetic ∨ op ∈ integral ∧ t.wider u ∈ ValueType.integers) := by
  constructor
  · rintro (⟨hop, ht, hu⟩ | ⟨hop, ht, hu⟩)
    · exact ⟨⟨ht, hu⟩, .inl hop⟩
    · have ht' := numbers_of_integers ht
      have hu' := numbers_of_integers hu
      exact ⟨⟨ht', hu'⟩, .inr ⟨hop, (wider_mem_integers_iff ht' hu').mpr ⟨ht, hu⟩⟩⟩
  · rintro ⟨⟨ht, hu⟩, hop | ⟨hop, hwider⟩⟩
    · exact .inl ⟨hop, ht, hu⟩
    · exact .inr ⟨hop, (wider_mem_integers_iff ht hu).mp hwider⟩

theorem type_value (t : Numeric) (x : Operand) : (t.value x).type = t.type := by
  cases t <;> rfl

theorem gives_promoted {α β : Type} {view : α → β} {R : ValueType → β → Prop} (v w : Value)
    {f : Option Promoted → Emit α} (hnone : ∃ e, f none = throw e)
    (hsome : ∀ p, Gives view (R p.type.type) (f (some p))) :
    Gives view (fun b => (v.type ∈ ValueType.numbers ∧ w.type ∈ ValueType.numbers) ∧
      R (v.type.wider w.type) b) (promote v w >>= f) := by
  have hf (p : Option Promoted) :
      Gives view (fun b => ∃ t, p.map (·.type.type) = some t ∧ R t b) (f p) := by
    cases p with
    | none =>
      obtain ⟨e, he⟩ := hnone
      rw [he]
      refine gives_throw ?_
      rintro b ⟨t, ht, -⟩
      cases ht
    | some p =>
      refine (hsome p).congr fun b => ⟨?_, fun hb => ⟨_, rfl, hb⟩⟩
      rintro ⟨t, ht, hb⟩
      cases ht
      exact hb
  refine ((gives_promote v w).bind (fun t? b => ∃ t, t? = some t ∧ R t b) fun p _ => hf p).congr
    fun b => ?_
  by_cases hnum : v.type ∈ ValueType.numbers ∧ w.type ∈ ValueType.numbers
  · rw [if_pos hnum]
    constructor
    · rintro ⟨-, hb⟩
      exact ⟨_, rfl, _, rfl, hb⟩
    · rintro ⟨_, rfl, t, ht, hb⟩
      cases ht
      exact ⟨hnum, hb⟩
  · rw [if_neg hnum]
    constructor
    · rintro ⟨h, -⟩
      exact absurd h hnum
    · rintro ⟨_, rfl, t, ht, -⟩
      cases ht

theorem gives_binary (op : Kind) (v w : Value) :
    Gives Value.type (fun t => Applicable op v.type w.type ∧ v.type.wider w.type = t)
      (binary op v w) := by
  have hcongr (t : ValueType) : Applicable op v.type w.type ∧ v.type.wider w.type = t ↔
      (v.type ∈ ValueType.numbers ∧ w.type ∈ ValueType.numbers) ∧
        (op ∈ arithmetic ∨ op ∈ integral ∧ v.type.wider w.type ∈ ValueType.integers) ∧
          v.type.wider w.type = t := by
    rw [applicable_iff, and_assoc]
  refine Gives.congr ?_ hcongr
  refine gives_promoted (R := fun common t =>
    (op ∈ arithmetic ∨ op ∈ integral ∧ common ∈ ValueType.integers) ∧ common = t)
    v w ⟨_, rfl⟩ fun p => ?_
  dsimp only
  rw [← isSome_operation?_iff]
  cases p.type.operation? op with
  | none =>
    refine gives_throw ?_
    rintro t ⟨h, -⟩
    cases h
  | some operation =>
    refine .of_total (succeeds_emit _) fun x => ?_
    rw [← type_value p.type x]
    exact gives_pure ⟨rfl, rfl⟩ fun t h => h.2

theorem gives_compareOne (op : Kind) (v w : Value) :
    Succeeds (Comparable op v.type w.type) (compareOne op v w) := by
  unfold compareOne
  split
  · exact (succeeds_emit _).congr fun _ => iff_true_intro (.inr ⟨.inl rfl, rfl, rfl⟩)
  · exact (succeeds_emit _).congr fun _ => iff_true_intro (.inr ⟨.inr rfl, rfl, rfl⟩)
  · rename_i hequal hunequal
    -- What is left are numbers.
    have hcongr : Comparable op v.type w.type ↔
        (v.type ∈ ValueType.numbers ∧ w.type ∈ ValueType.numbers) ∧ op ∈ orders := by
      constructor
      · rintro (⟨hop, hnumbers⟩ | ⟨hop, hv, hw⟩)
        · exact ⟨hnumbers, hop⟩
        · cases v <;> cases hv
          cases w <;> cases hw
          rcases hop with rfl | rfl
          · exact absurd rfl (hequal _ _ rfl rfl)
          · exact absurd rfl (hunequal _ _ rfl rfl)
      · rintro ⟨hnumbers, hop⟩
        exact .inl ⟨hop, hnumbers⟩
    refine Gives.congr ?_ fun _ => hcongr
    refine gives_promoted (R := fun _ _ => op ∈ orders) v w ⟨_, rfl⟩ fun p => ?_
    dsimp only
    rw [← isSome_order?_iff]
    cases order? op with
    | none => exact gives_throw fun _ h => by cases h
    | some order =>
      dsimp only
      split
      · exact (succeeds_emit _).congr fun _ => iff_true_intro rfl
      · exact (succeeds_emit _).congr fun _ => iff_true_intro rfl

theorem gives_compareRest (sofar : Operand) (v : Value) (ops : List Kind) (ws : List Value)
    (h : ops.length = ws.length) :
    Succeeds (∀ x ∈ ops.zip ((v.type :: ws.map Value.type).zip (ws.map Value.type)),
      Comparable x.1 x.2.1 x.2.2) (compareRest sofar v ops ws) := by
  induction ops generalizing sofar v ws with
  | nil =>
    refine (succeeds_pure sofar).congr fun _ => iff_true_intro fun x hx => ?_
    rw [List.zip_nil_left] at hx
    cases hx
  | cons op ops ih =>
    cases ws with
    | nil => cases h
    | cons w ws =>
      refine Gives.congr ?_ fun _ => List.forall_mem_cons
      exact (gives_compareOne op v w).bind fun _ c =>
        .of_total (succeeds_emit _) fun both => ih both w ws (Nat.succ.inj h)

theorem gives_compare (ops : List Kind) (vs : List Value) :
    Gives Value.type (fun t => Chained ops (vs.map Value.type) ∧ .bool = t) (compare ops vs) := by
  -- A chain that is too short has nothing to compare.
  have hshort (e : Error) (h : ¬ (ops ≠ [] ∧ vs.length = ops.length + 1)) :
      Gives Value.type (fun t => Chained ops (vs.map Value.type) ∧ .bool = t) (throw e) := by
    refine gives_throw ?_
    rintro t ⟨hchain, -⟩
    exact h ⟨hchain.nonempty, by rw [← hchain.length, List.length_map]⟩
  unfold compare
  split
  · rename_i op ops v w ws
    by_cases hlength : ops.length = ws.length
    · rw [if_neg (not_not.mpr hlength)]
      have hcongr (t : ValueType) :
          (Chained (op :: ops) ((v :: w :: ws).map Value.type) ∧ .bool = t) ↔
            Comparable op v.type w.type ∧
              (∀ x ∈ ops.zip ((w.type :: ws.map Value.type).zip (ws.map Value.type)),
                Comparable x.1 x.2.1 x.2.2) ∧ .bool = t := by
        constructor
        · rintro ⟨hchain, ht⟩
          obtain ⟨hfirst, hrest⟩ := List.forall_mem_cons.mp hchain.comparable
          exact ⟨hfirst, hrest, ht⟩
        · rintro ⟨hfirst, hrest, ht⟩
          refine ⟨⟨List.cons_ne_nil _ _, ?_, List.forall_mem_cons.mpr ⟨hfirst, hrest⟩⟩, ht⟩
          simp [hlength]
      refine Gives.congr ?_ hcongr
      exact (gives_compareOne op v w).bind fun _ first =>
        (gives_compareRest first w ops ws hlength).bind fun _ x => gives_pure rfl fun _ h => h
    · rw [if_pos hlength]
      refine hshort _ fun h => hlength ?_
      simpa using h.2.symm
  · rename_i hne
    refine hshort _ fun h => ?_
    obtain ⟨hops, hlength⟩ := h
    cases ops with
    | nil => exact hops rfl
    | cons op ops =>
      rcases vs with _ | ⟨v, _ | ⟨w, vs⟩⟩
      · cases hlength
      · cases hlength
      · exact hne op ops v w vs rfl rfl

end Numeric

/-! ### Literals and names -/

theorem gives_number (c : Context) (pos : Position) (value : Number.Numeral) (raw : String) :
    Gives Value.type (HasType c (.number pos value raw)) (number pos value raw false) := by
  cases value with
  | int n => exact gives_pure .int fun t h => by cases h; rfl
  | float x => exact gives_pure .float fun t h => by cases h; rfl
  | imaginary x => exact gives_throw fun t h => by cases h

theorem gives_negation (c : Context) (pos : Position) (op : Kind) (e : Expr) :
    Gives Value.type (HasType c (.unary pos op e)) (negation pos op e) := by
  unfold negation
  split
  · rename_i p value raw
    cases value with
    | int n =>
      exact gives_pure .negatedInt fun t h => by cases h; rfl
    | float x =>
      exact gives_pure .negatedFloat fun t h => by cases h; rfl
    | imaginary x => exact gives_throw fun t h => by cases h
  · rename_i hother
    refine gives_throw fun t h => ?_
    cases h with
    | negatedInt | negatedFloat => exact hother _ _ _ rfl rfl

theorem gives_stringValue (c : Context) (pos : Position) (value : Bytes) :
    Gives Value.type (HasType c (.string pos value)) (stringValue c pos value) := by
  unfold stringValue
  split
  · rename_i hlocals
    exact .of_total (succeeds_stringLiteral value) fun x =>
      gives_pure (.string hlocals) fun t h => by cases h; rfl
  · rename_i hlocals
    refine gives_throw fun t h => ?_
    cases h with
    | string h => exact hlocals h

/-- A variable of a type that values have, which is kept somewhere unless it has no value. -/
structure Symbol.Sound (s : Symbol) : Prop where
  known : ∀ code, s.type ≠ .other code
  kept : s.storage = .nowhere → s.type = .void

variable {t : ValueType} {c : Context} {name : String} {symbol : Symbol}

theorem Value.type_ofOperand (h : ∀ code, t ≠ .other code) (x : Operand) :
    (Value.ofOperand t x).type = t := by
  cases t with
  | other code => exact absurd rfl (h code)
  | _ => rfl

theorem gives_variableValue (hc : ∀ symbol, c.resolve? name = some symbol → symbol.Sound)
    (pos : Position) :
    Gives Value.type (HasType c (.name pos name)) (variableValue c pos name) := by
  unfold variableValue
  cases hname : c.resolve? name with
  | none =>
    refine gives_throw fun t h => ?_
    cases h with
    | name h =>
      rw [hname] at h
      cases h
  | some symbol =>
    have hsound := hc symbol hname
    have htype (t : ValueType) : HasType c (.name pos name) t ↔ symbol.type = t := by
      constructor
      · intro h
        cases h with
        | name h =>
          rw [hname] at h
          cases h
          rfl
      · rintro rfl
        exact .name hname
    dsimp only
    cases haddress : symbol.address? with
    | none =>
      have hvoid : symbol.type = .void := by
        apply hsound.kept
        unfold Symbol.address? at haddress
        cases hstorage : symbol.storage with
        | nowhere => rfl
        | stack register | module immutable => rw [hstorage] at haddress; cases haddress
      exact gives_pure ((htype _).mpr hvoid) fun t h => hvoid.symm.trans ((htype t).mp h)
    | some address =>
      refine .of_total (succeeds_emit _) fun x => ?_
      have hvalue := Value.type_ofOperand hsound.known x
      exact gives_pure ((htype _).mpr hvalue.symm) fun t h => hvalue.trans ((htype t).mp h)

/-! ### Calls -/

theorem succeeds_resize (x : Operand) (bits width : Nat) : Succeeds True (resize x bits width) := by
  unfold resize
  split
  · exact succeeds_pure x
  · exact succeeds_emit _

theorem pass?_eq_some_or_none (v : Value) (param : Ty) :
    (Castable v.type param ∧ ∃ x, pass? v param = some x ∧ Succeeds True x) ∨
      (¬ Castable v.type param ∧ pass? v param = none) := by
  unfold pass?
  split
  · exact .inl ⟨.i8, _, rfl, succeeds_resize _ _ _⟩
  · split
    · rename_i hbits
      exact .inl ⟨.i16 hbits, _, rfl, succeeds_resize _ _ _⟩
    · rename_i hbits
      refine .inr ⟨fun h => ?_, rfl⟩
      cases h with
      | i16 h => exact hbits h
  · exact .inl ⟨.f32, _, rfl, succeeds_pure _⟩
  · exact .inl ⟨.str, _, rfl, succeeds_pure _⟩
  · rename_i h8 h16 hfloat hstr
    refine .inr ⟨fun h => ?_, rfl⟩
    generalize htype : v.type = type at h
    cases h <;> cases v <;> cases htype
    · exact h8 _ _ rfl rfl
    · exact h16 _ _ rfl rfl
    · exact hfloat _ rfl rfl
    · exact hstr _ rfl rfl

theorem succeeds_passArgument (pos : Position) (name : String) (i : Nat) (v : Value) (param : Ty) :
    Succeeds (Castable v.type param) (passArgument pos name i v param) := by
  unfold passArgument
  rcases pass?_eq_some_or_none v param with ⟨hcast, x, hpass, hx⟩ | ⟨hcast, hpass⟩
  · rw [hpass]
    exact hx.congr fun _ => iff_true_intro hcast
  · rw [hpass]
    exact gives_throw fun _ => hcast

theorem gives_function (c : Context) (pos : Position) (name : String) (first : Option ValueType) :
    Gives id (c.Selects name first) (function c pos name first) := by
  have hselects (f : Signature) : c.Selects name first f ↔ c.select? name first = some f := by
    simp only [Context.select?, Option.or_eq_some_iff, Option.bind_eq_some_iff]
    constructor
    · intro h
      cases h with
      | plain h => exact .inl h
      | overload h ht hf => exact .inr ⟨h, _, ht, hf⟩
    · rintro (h | ⟨h, t, ht, hf⟩)
      · exact .plain h
      · exact .overload h ht hf
  refine Gives.congr ?_ hselects
  rw [function_eq]
  cases c.select? name first with
  | some f => exact gives_pure rfl fun g => Option.some.inj
  | none => exact gives_throw fun g h => by cases h

theorem succeeds_checkArity (c : Context) (pos : Position) (name : String) (params args : Nat) :
    Succeeds (c.strict = true → args = params) (checkArity c pos name params args) := by
  unfold checkArity
  split
  · rename_i h
    exact (succeeds_pure ()).congr fun _ => iff_true_intro fun _ => h
  · rename_i hne
    split
    · rename_i hstrict
      exact gives_throw fun _ h => hne (h hstrict)
    · rename_i hstrict
      exact fun s b => ⟨fun _ h => absurd h hstrict, fun _ => ⟨_, _, rfl, rfl⟩⟩

theorem gives_callValue (pos : Position) {result : Ty} (h : result ≠ .void) (x : Operand) :
    Gives Value.type (Returns result) (callValue pos result x) := by
  unfold callValue
  split
  · exact gives_pure .i8 fun t h => by cases h; rfl
  · exact gives_pure .i16 fun t h => by cases h; rfl
  · rename_i h8 h16
    refine gives_throw fun t hresult => ?_
    cases hresult with
    | i8 => exact h8 rfl
    | i16 => exact h16 rfl
  · exact gives_pure .f32 fun t h => by cases h; rfl
  · rename_i h8 h16 hint hfloat
    refine gives_throw fun t hresult => ?_
    cases hresult with
    | void => exact h rfl
    | i8 => exact h8 rfl
    | i16 => exact h16 rfl
    | f32 => exact hfloat rfl

theorem gives_call (pos : Position) (f : Callee) (args : List Operand) :
    Gives Value.type (Returns f.result) (call pos f args) := by
  unfold call
  split
  · rename_i hvoid
    rw [hvoid]
    exact .of_total (succeeds_perform _) fun _ => gives_pure .void fun t h => by cases h; rfl
  · rename_i hvoid
    exact .of_total (succeeds_emit _) fun x => gives_callValue pos hvoid x

theorem hasType_call_iff {pos p : Position} {args : List Expr} :
    HasType c (.call pos (.name p name) args) t ↔
      ∃ ts, List.Forall₂ (HasType c) args ts ∧ ∃ f, c.Selects name ts.head? f ∧
        (c.strict = true → ts.length = f.callee.params.length) ∧
        (∀ x ∈ ts.zip f.callee.params, Castable x.1 x.2) ∧ Returns f.callee.result t := by
  constructor
  · intro h
    cases h with
    | call hargs hf hcount hcast hresult => exact ⟨_, hargs, _, hf, hcount, hcast, hresult⟩
  · rintro ⟨ts, hargs, f, hf, hcount, hcast, hresult⟩
    exact .call hargs hf hcount hcast hresult

/-! ### Expressions -/

def Context.Sound (c : Context) : Prop
    := ∀ name symbol, c.resolve? name = some symbol → symbol.Sound

section Agreement

variable {c : Context}

def Passable (c : Context) (params : List Ty) (before : List ValueType) (args : List Expr) : Prop :=
  ∃ ts, List.Forall₂ (HasType c) args ts ∧ ∀ x ∈ (before ++ ts).zip params, Castable x.1 x.2

variable {args : List Expr} {params : List Ty} {t : ValueType} {arg : Expr}

theorem passable_cons_iff {param : Ty} :
    Passable c (param :: params) [t] args ↔ Castable t param ∧ Passable c params [] args := by
  constructor
  · rintro ⟨ts, hargs, hcast⟩
    obtain ⟨hfirst, hrest⟩ := List.forall_mem_cons.mp hcast
    exact ⟨hfirst, ts, hargs, hrest⟩
  · rintro ⟨hfirst, ts, hargs, hrest⟩
    exact ⟨ts, hargs, List.forall_mem_cons.mpr ⟨hfirst, hrest⟩⟩

theorem passable_arg_iff :
    Passable c params [] (arg :: args) ↔ ∃ t, HasType c arg t ∧ Passable c params [t] args := by
  constructor
  · rintro ⟨ts, hargs, hcast⟩
    cases hargs with
    | cons harg hargs => exact ⟨_, harg, _, hargs, hcast⟩
  · rintro ⟨t, harg, ts, hargs, hcast⟩
    exact ⟨t :: ts, .cons harg hargs, hcast⟩

theorem passable_nil_iff {before : List ValueType} :
    Passable c [] before args ↔ ∃ ts, List.Forall₂ (HasType c) args ts := by
  unfold Passable
  simp

theorem hasType_call_cons_iff {pos p : Position} {name : String} :
    HasType c (.call pos (.name p name) (arg :: args)) t ↔
      ∃ t1, HasType c arg t1 ∧ ∃ f, c.Selects name (some t1) f ∧
        (c.strict = true → args.length + 1 = f.callee.params.length) ∧
        Passable c f.callee.params [t1] args ∧ Returns f.callee.result t := by
  rw [hasType_call_iff]
  constructor
  · rintro ⟨ts, hargs, f, hf, hcount, hcast, hresult⟩
    cases hargs with
    | cons harg hargs =>
      refine ⟨_, harg, f, hf, ?_, ⟨_, hargs, hcast⟩, hresult⟩
      rw [hargs.length_eq]
      exact hcount
  · rintro ⟨t1, harg, f, hf, hcount, ⟨ts, hargs, hcast⟩, hresult⟩
    refine ⟨t1 :: ts, .cons harg hargs, f, hf, ?_, hcast, hresult⟩
    rw [List.length_cons, ← hargs.length_eq]
    exact hcount

mutual

theorem gives_lower (hc : c.Sound) (hnumeric : c.operators = .numeric) :
    ∀ e : Expr, Gives Value.type (HasType c e) (lower c e)
  | .number pos value raw => by
    simp only [lower]
    exact gives_number c pos value raw
  | .string pos value => by
    simp only [lower]
    exact gives_stringValue c pos value
  | .bool pos b => by
    simp only [lower]
    exact gives_pure .bool fun t h => by cases h; rfl
  | .none pos => by
    simp only [lower]
    exact gives_pure .none fun t h => by cases h; rfl
  | .ellipsis .. | .logical .. | .member .. | .list .. | .lambda .. => by
    simp only [lower]
    exact gives_throw fun t h => by cases h
  | .unary pos op operand => by
    simp only [lower]
    exact gives_negation c pos op operand
  | .name pos id => by
    simp only [lower]
    exact gives_variableValue (hc id) pos
  | .binary pos op left right => by
    have hcongr (t : ValueType) : HasType c (.binary pos op left right) t ↔
        ∃ t1, HasType c left t1 ∧ ∃ t2, HasType c right t2 ∧
          Applicable op t1 t2 ∧ t1.wider t2 = t := by
      constructor
      · intro h
        cases h with
        | binary hleft hright h => exact ⟨_, hleft, _, hright, h, rfl⟩
      · rintro ⟨t1, hleft, t2, hright, h, rfl⟩
        exact .binary hleft hright h
    simp only [lower, hnumeric]
    refine Gives.congr ?_ hcongr
    refine (gives_lower hc hnumeric left).bind (fun t1 t => ∃ t2, HasType c right t2 ∧
      Applicable op t1 t2 ∧ t1.wider t2 = t) fun v _ => ?_
    refine (gives_lower hc hnumeric right).bind (fun t2 t =>
      Applicable op v.type t2 ∧ v.type.wider t2 = t) fun w _ => ?_
    exact (Numeric.gives_binary op v w).locate pos
  | .compare pos ops operands => by
    have hcongr (t : ValueType) : HasType c (.compare pos ops operands) t ↔
        ∃ ts, List.Forall₂ (HasType c) operands ts ∧ Chained ops ts ∧ .bool = t := by
      constructor
      · intro h
        cases h with
        | compare hoperands h => exact ⟨_, hoperands, h, rfl⟩
      · rintro ⟨ts, hoperands, h, rfl⟩
        exact .compare hoperands h
    simp only [lower, hnumeric]
    refine Gives.congr ?_ hcongr
    refine (gives_lowerAll hc hnumeric operands).bind (fun ts t => Chained ops ts ∧ ValueType.bool = t)
      fun vs _ => ?_
    exact (Numeric.gives_compare ops vs).locate pos
  | .call pos callee args => by
    cases callee with
    | name p name =>
      cases args with
      | nil =>
        have hcongr (t : ValueType) : HasType c (.call pos (.name p name) []) t ↔
            ∃ f, c.Selects name none f ∧ (c.strict = true → 0 = f.callee.params.length) ∧
              Returns f.callee.result t := by
          rw [hasType_call_iff]
          simp
        simp only [lower]
        refine Gives.congr ?_ hcongr
        refine (gives_function c p name none).bind (fun f t =>
          (c.strict = true → 0 = f.callee.params.length) ∧ Returns f.callee.result t) fun f _ => ?_
        exact (succeeds_checkArity c pos name f.callee.params.length 0).bind fun _ _ =>
          gives_call pos f.callee []
      | cons arg args =>
        simp only [lower]
        refine Gives.congr ?_ fun _ => hasType_call_cons_iff
        refine (gives_lower hc hnumeric arg).bind (fun t1 t => ∃ f, c.Selects name (some t1) f ∧
          (c.strict = true → args.length + 1 = f.callee.params.length) ∧
          Passable c f.callee.params [t1] args ∧ Returns f.callee.result t) fun v _ => ?_
        refine (gives_function c p name (some v.type)).bind (fun f t =>
          (c.strict = true → args.length + 1 = f.callee.params.length) ∧
          Passable c f.callee.params [v.type] args ∧ Returns f.callee.result t) fun f _ => ?_
        refine (succeeds_checkArity c pos name f.callee.params.length (args.length + 1)).bind
          fun _ _ => ?_
        dsimp only [id]
        cases f.callee.params with
        | nil =>
          rw [passable_nil_iff]
          exact (gives_lowerAll hc hnumeric args).succeeds.bind fun _ _ => gives_call pos f.callee []
        | cons param params =>
          rw [passable_cons_iff]
          simp only [and_assoc]
          refine (succeeds_passArgument arg.position name 1 v param).bind fun _ x => ?_
          exact (succeeds_lowerArguments hc hnumeric name 2 params args).bind fun _ xs =>
            gives_call pos f.callee (x :: xs)
    | _ =>
      simp only [lower]
      exact gives_throw fun t h => by cases h

theorem gives_lowerAll (hc : c.Sound) (hnumeric : c.operators = .numeric) :
    ∀ es : List Expr, Gives (List.map Value.type) (List.Forall₂ (HasType c) es) (lowerAll c es)
  | [] => by
    simp only [lowerAll]
    exact gives_pure .nil fun ts h => by cases h; rfl
  | e :: es => by
    simp only [lowerAll]
    have hcongr (ts : List ValueType) : List.Forall₂ (HasType c) (e :: es) ts ↔
        ∃ t, HasType c e t ∧ ∃ ts', List.Forall₂ (HasType c) es ts' ∧ t :: ts' = ts := by
      constructor
      · intro h
        cases h with
        | cons hfirst hrest => exact ⟨_, hfirst, _, hrest, rfl⟩
      · rintro ⟨t, hfirst, ts', hrest, rfl⟩
        exact .cons hfirst hrest
    refine Gives.congr ?_ hcongr
    refine (gives_lower hc hnumeric e).bind (fun t ts =>
      ∃ ts', List.Forall₂ (HasType c) es ts' ∧ t :: ts' = ts) fun v _ => ?_
    exact (gives_lowerAll hc hnumeric es).bind (fun ts' ts => v.type :: ts' = ts) fun vs _ =>
      gives_pure rfl fun ts h => h

theorem succeeds_lowerArguments (hc : c.Sound) (hnumeric : c.operators = .numeric) (name : String) :
    ∀ (i : Nat) (params : List Ty) (es : List Expr),
      Succeeds (Passable c params [] es) (lowerArguments c name i params es)
  | i, params, [] => by
    simp only [lowerArguments]
    exact (succeeds_pure _).congr fun _ => iff_true_intro ⟨[], .nil, by simp⟩
  | i, [], e :: es => by
    have hcongr : Passable c [] [] (e :: es) ↔ (∃ t, HasType c e t) ∧ Passable c [] [] es := by
      simp only [passable_arg_iff, passable_nil_iff, exists_and_right]
    simp only [lowerArguments]
    refine Gives.congr ?_ fun _ => hcongr
    exact (gives_lower hc hnumeric e).succeeds.bind fun _ v =>
      succeeds_lowerArguments hc hnumeric name (i + 1) [] es
  | i, param :: params, e :: es => by
    have hcongr : Passable c (param :: params) [] (e :: es) ↔
        ∃ t, HasType c e t ∧ Castable t param ∧ Passable c params [] es := by
      simp only [passable_arg_iff, passable_cons_iff]
    simp only [lowerArguments]
    refine Gives.congr ?_ fun _ => hcongr
    refine (gives_lower hc hnumeric e).bind (fun t _ =>
      Castable t param ∧ Passable c params [] es) fun v _ => ?_
    refine (succeeds_passArgument e.position name i v param).bind fun _ x => ?_
    exact ((succeeds_lowerArguments hc hnumeric name (i + 1) params es).bind fun _ xs =>
      succeeds_pure (x :: xs)).congr fun _ => (iff_of_eq (and_true _)).symm

end

end Agreement

/-! ### States -/

def Scope.Sound (scope : Scope) : Prop := ∀ symbol ∈ scope.symbols, symbol.Sound

theorem Scope.sound_empty : Scope.empty.Sound := List.forall_mem_nil _

theorem Symbol.sound_of_zero? (htype : symbol.type.zero?.isSome)
    (hstorage : symbol.storage ≠ .nowhere) : symbol.Sound := by
  refine ⟨fun code h => ?_, fun h => absurd h hstorage⟩
  rw [h] at htype
  cases htype

theorem Scope.Sound.declare {scope : Scope} (h : scope.Sound) (hsymbol : symbol.Sound) :
    (scope.declare symbol).Sound := by
  intro symbol' hmem
  rcases Scope.mem_declare hmem with hmem | rfl
  · exact h symbol' hmem
  · exact hsymbol

namespace State

/-- A state whose variables are all sound. -/
structure Sound (s : State) : Prop where
  globals : s.progress.scope.Sound
  locals : s.frame.locals.Sound

variable {s s' : State}

theorem Sound.context (hs : s.Sound) (env : Environment) : (s.context env).Sound := by
  intro name symbol h
  exact (mem_of_resolve? h).elim (hs.locals _) (hs.globals _)

theorem Change.sound {names : String → Prop} {nested : Prop} (h : Change names nested s s')
    (hs : s.Sound) : s'.Sound := by
  cases h with
  | keep hscope hlocals => exact ⟨hscope ▸ hs.globals, hlocals ▸ hs.locals⟩
  | report => exact ⟨hs.globals, hs.locals⟩
  | declareLocal htype =>
    exact ⟨hs.globals, hs.locals.declare (Symbol.sound_of_zero? htype (by simp))⟩
  | declareGlobal htype hinitial hfree hname =>
    exact ⟨hs.globals.declare (Symbol.sound_of_zero? htype (by simp)), hs.locals⟩

theorem stable_sound (names : String → Prop) : Compilation.Stable names Sound where
  change _ _ h hs := h.sound hs
  enter _ _ hs := ⟨hs.globals, Scope.sound_empty⟩
  leave _ _ hs hs' := ⟨hs'.globals, hs.locals⟩

end State

theorem Compilation.sound_state_start (board : Board) (strict : Bool) (operators : Operators) :
    (start board strict operators).state.Sound := by
  refine ⟨?_, Scope.sound_empty⟩
  have hconstants : ∀ symbol ∈ Builtin.scope.symbols,
      symbol.type.zero?.isSome ∧ symbol.storage ≠ .nowhere := by decide
  exact fun symbol hsymbol =>
    Symbol.sound_of_zero? (hconstants symbol hsymbol).1 (hconstants symbol hsymbol).2

/-- With the operators of the processor, an expression is lowered to a value of a type if and only if
it has that type by the rules, in every state with sound variables. These are all states that can
come about: after any units, in a new function, and after parameters and statements. -/
theorem value_type_iff_hasType :
    (∀ (env : Environment) (s : State) (e : Expr) (t : ValueType), env.operators = .numeric →
      s.Sound → ((∃ v s', Lower.value env e s = .ok v s' ∧ v.type = t) ↔
        HasType (s.context env) e t)) ∧
    (∀ board strict (units : List (List Stmt)),
      (units.foldl Compilation.lowerUnit (.start board strict .numeric)).state.Sound) ∧
    ∀ s : State, s.Sound → (∀ f, State.Sound { s with frame := .ofSignature f }) ∧
      (∀ name type, type.zero?.isSome → (Lower.after (Definition.spill name type) s).Sound) ∧
      ∀ env ss, env.operators = .numeric → (Lower.after (Lower.stmts env ss) s).Sound := by
  refine ⟨fun env s e t hnumeric hs => ?_, fun board strict units => ?_, fun s hs =>
    ⟨fun f => ⟨hs.globals, Scope.sound_empty⟩, fun name type htype => ?_,
      fun env ss hnumeric => ?_⟩⟩
  · rw [← gives_lower (hs.context env) hnumeric e s.emission t]
    constructor
    · rintro ⟨v, s', hok, htype⟩
      obtain ⟨e', he', -⟩ := value_eq_ok hok
      exact ⟨v, e', he', htype⟩
    · rintro ⟨v, e', hok, htype⟩
      refine ⟨v, s.absorb e', ?_, htype⟩
      change Lower.emit (lower (s.context env) e) s = _
      unfold Lower.emit
      rw [hok]
  · exact (State.stable_sound fun _ => True).lowerUnits Operators.lawful_numeric
      (fun _ _ _ _ => trivial) (Compilation.sound_state_start board strict .numeric)
  · exact (State.stable_sound fun _ => True).steps (Definition.changes_spill name htype).after hs
  · have hlawful : env.operators.Lawful := hnumeric ▸ Operators.lawful_numeric
    exact (State.stable_sound fun _ => True).steps
      (Lower.changes_stmts hlawful trivial ss fun _ _ => trivial).after hs

section Sample

def byteFrame : Frame :=
  ⟨some ⟨"show", [.i8], .void, ⟨11, "show", [.i8], .void⟩⟩, ⟨[⟨"x", .i8, .stack 0⟩]⟩, [],
    ⟨[⟨.entry, [⟨some 0, .alloca .i8⟩], none⟩], .entry, 1⟩⟩

/-- `print(x + -300, "more")` -/
def surplusPrint : Expr :=
  .call ⟨1, 1⟩ (.name ⟨1, 1⟩ "print")
    [.binary ⟨1, 7⟩ .plus (.name ⟨1, 7⟩ "x")
      (.unary ⟨1, 11⟩ .minus (.number ⟨1, 12⟩ (.int 300) "300")),
     .string ⟨1, 17⟩ (.ofString "more")]

theorem surplusPrint_type_iff :
    let c := Compilation.start .uno false .numeric
    let s : State := ⟨c.progress, byteFrame⟩
    s.Sound ∧ (∃ v s', Lower.value c.environment surplusPrint s = .ok v s' ∧ v.type = .void) ∧
      ¬ ∃ v s', Lower.value c.environment surplusPrint c.state = .ok v s' ∧ v.type = .void := by
  intro c s
  obtain ⟨hiff, hunits, hframes⟩ := value_type_iff_hasType
  have htop : c.state.Sound := hunits .uno false []
  have hlocals : byteFrame.locals.Sound := by
    intro symbol hsymbol
    rw [List.mem_singleton.mp hsymbol]
    exact Symbol.sound_of_zero? rfl (by decide)
  have hs : s.Sound := ⟨htop.globals, hlocals⟩
  refine ⟨hs, ?_, ?_⟩
  · rw [hiff c.environment s surplusPrint .void rfl hs]
    have hx : (s.context c.environment).resolve? "x" = some ⟨"x", .i8, .stack 0⟩ := by decide
    have hprint : Builtin.table.find? "print" = none := by decide
    have hprint16 : Builtin.table.find? (FunctionTable.overloadKey "print" .i16) =
        some ⟨"print__i16", [.i16], .void, ⟨7, "dsp_print_i16", [.i16], .void⟩⟩ := by decide
    have hsum : HasType (s.context c.environment) (.binary ⟨1, 7⟩ .plus (.name ⟨1, 7⟩ "x")
        (.unary ⟨1, 11⟩ .minus (.number ⟨1, 12⟩ (.int 300) "300"))) .i16 :=
      .binary (.name hx) .negatedInt (.inl (by decide))
    refine .call (.cons hsum (.cons (.string rfl) .nil)) (.overload hprint rfl hprint16) ?_ ?_ .void
    · intro hstrict
      cases hstrict
    · intro x hx
      rw [List.mem_singleton.mp hx]
      exact .i16 (by decide)
  · rw [hiff c.environment c.state surplusPrint .void rfl htop]
    intro h
    cases h with
    | call hargs =>
      cases hargs with
      | cons _ hrest =>
        cases hrest with
        | cons hstring _ =>
          cases hstring with
          | string hlocals => cases hlocals

end Sample

end BoardPython.Lowering
