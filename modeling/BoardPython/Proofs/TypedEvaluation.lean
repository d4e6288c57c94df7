import BoardPython.Proofs.ExprMeaning

/-! Expressions that can be lowered make sense: if the variables hold values of their types and calls
come back, the evaluation gives a value of the type that the lowered value has, unless it divides or
shifts in an undefined way. -/
namespace BoardPython.Lowering

open Ir (Callee Datum Machine Memory Operand Registers Trap Ty World)
open Token (Kind)

/-- Memory where the cell of every variable holds a value of its type. -/
def Context.Holds {F : Type} (c : Context) (mem : Memory F) : Prop :=
  ∀ name s slot, c.resolve? name = some s → s.slot? = some slot →
    ∃ d, mem slot = some d ∧ d.type = s.type.ir

/-- Calls come back. They leave values of their types in the variables, and results are of the right
type, where it is the type of values. -/
def Answers {F : Type} (m : Machine F) (c : Context) : Prop :=
  ∀ f args w, c.Holds w.memory → ∃ d mem, m.call f args w = some (d, mem) ∧ c.Holds mem ∧
    ∀ type : ValueType, type.ir = f.result → f.result ≠ .void → d.type = f.result

/-- An evaluation that is not stuck, and gives what it should unless it is undefined. -/
def Safe {F α : Type} (c : Context) (ref : World F → Except Trap (α × World F)) (q : α → Prop) :
    Prop :=
  ∀ w, c.Holds w.memory → ref w = .error .undefined ∨
    ∃ a w', ref w = .ok (a, w') ∧ c.Holds w'.memory ∧ q a

section Rules

variable {F α β : Type} {c : Context}

variable {q : α → Prop} {ref : World F → Except Trap (α × World F)}

theorem safe_pure {r : Except Trap α} (h : r = .error .undefined ∨ ∃ a, r = .ok a ∧ q a) :
    Safe (F := F) c (fun w => r.map (·, w)) q := by
  intro w hw
  rcases h with rfl | ⟨a, rfl, ha⟩
  · exact .inl rfl
  · exact .inr ⟨a, w, rfl, hw, ha⟩

theorem Safe.bind {next : α × World F → Except Trap (β × World F)} {q' : β → Prop}
    (h : Safe c ref q) (h' : ∀ a, q a → Safe c (fun w => next (a, w)) q') :
    Safe c (fun w => ref w >>= next) q' := by
  intro w hw
  rcases h w hw with he | ⟨a, w1, he, hw1, ha⟩
  · refine .inl ?_
    simp only [he]
    rfl
  · simp only [he]
    exact h' a ha w1 hw1

theorem Safe.congr {ref' : World F → Except Trap (α × World F)} (h : Safe c ref q)
    (heq : ∀ w, ref w = ref' w) : Safe c ref' q := by
  rwa [← funext heq]

theorem Safe.map {q' : β → Prop} (f : α → β) (h : Safe c ref q) (hq : ∀ a, q a → q' (f a)) :
    Safe c (fun w => (ref w).map fun x => (f x.1, x.2)) q' := by
  intro w hw
  rcases h w hw with he | ⟨a, w', he, hw', ha⟩
  · refine .inl ?_
    simp only [he]
    rfl
  · refine .inr ⟨f a, w', ?_, hw', hq a ha⟩
    simp only [he]
    rfl

end Rules

section Operators

variable {F : Type} {m : Machine F} {s t : Emission}

/-- Numbers of one numeric type. -/
def Pair.Of (type : Numeric) : Pair F → Prop
  | .ints bits _ _ => (type = .i8 ∧ bits = 8) ∨ (type = .i16 ∧ bits = 16)
  | .floats _ _ => type = .f32

variable {op : Kind} {a b : Scalar F} {left right : Value}

theorem pair?_of_promote {p : Promoted} (h : promote left right s = .ok (some p) t)
    (ha : a.type = left.type)
    (hb : b.type = right.type) : ∃ q, pair? m a b = some q ∧ q.Of p.type := by
  cases left <;> cases right <;> cases h <;> cases a <;> cases ha <;> cases b <;> cases hb
  case i8.i8 => exact ⟨_, rfl, .inl ⟨rfl, rfl⟩⟩
  case i8.i16 | i16.i8 | i16.i16 => exact ⟨_, rfl, .inr ⟨rfl, rfl⟩⟩
  all_goals exact ⟨_, rfl, rfl⟩

variable {operation : Ir.BinaryOp} {v : Value} {z : Operand} {ops : List Kind}

theorem intBinary_safe (h : Numeric.intOp? op = some operation) (bits : Nat) (a b : Int) :
    intBinary bits op a b = .error .undefined ∨ ∃ n, intBinary bits op a b = .ok n := by
  cases op <;> cases h <;> simp only [intBinary] <;> first
    | exact .inr ⟨_, rfl⟩
    | split <;> simp

theorem Pair.binary_safe {q : Pair F} {type : Numeric} (hq : q.Of type)
    (h : type.operation? op = some operation) :
    q.binary m op = .error .undefined ∨ ∃ x, q.binary m op = .ok x ∧ x.type = type.type := by
  cases q with
  | ints bits a b =>
    have hint : Numeric.intOp? op = some operation := by
      rcases hq with ⟨rfl, -⟩ | ⟨rfl, -⟩ <;> exact h
    rw [Pair.binary]
    rcases intBinary_safe hint bits a b with he | ⟨n, he⟩
    · rw [he]
      exact .inl rfl
    · rw [he]
      refine .inr ⟨_, rfl, ?_⟩
      rcases hq with ⟨rfl, rfl⟩ | ⟨rfl, rfl⟩ <;> rfl
  | floats x y =>
    obtain rfl : type = .f32 := hq
    rw [Pair.binary, (floatBinary_of_floatOp? (m := m) h x y).2]
    exact .inr ⟨_, rfl, rfl⟩

theorem binary_safe (h : Numeric.binary op left right s = .ok v t) (ha : a.type = left.type)
    (hb : b.type = right.type) :
    binary m op a b = .error .undefined ∨ ∃ x, binary m op a b = .ok x ∧ x.type = v.type := by
  obtain ⟨r, s1, hp, h⟩ := bind_eq_ok h
  cases r with
  | none => cases h
  | some p =>
    obtain ⟨q, hpair, hq⟩ := pair?_of_promote (m := m) hp ha hb
    cases hop : p.type.operation? op with
    | none =>
      simp only [hop] at h
      cases h
    | some operation =>
      simp only [hop] at h
      obtain ⟨z, s2, -, h⟩ := bind_eq_ok h
      obtain ⟨rfl, -⟩ := pure_eq_ok h
      have hv : (p.type.value z).type = p.type.type := by cases p.type <;> rfl
      rw [binary, hpair, hv]
      exact Pair.binary_safe hq hop

theorem Pair.compare_safe (q : Pair F) {order : Ir.Order}
    (h : Numeric.order? op = some order) : ∃ r, q.compare m op = .ok r := by
  cases q with
  | ints bits a b => cases op <;> cases h <;> exact ⟨_, rfl⟩
  | floats x y => exact ⟨_, floatCompare_of_order? h x y⟩

theorem compareOne_safe (h : Numeric.compareOne op left right s = .ok z t) (ha : a.type = left.type)
    (hb : b.type = right.type) : ∃ r, compareOne m op a b = .ok r := by
  unfold Numeric.compareOne at h
  split at h
  · cases a <;> cases ha
    cases b <;> cases hb
    exact ⟨_, rfl⟩
  · cases a <;> cases ha
    cases b <;> cases hb
    exact ⟨_, rfl⟩
  obtain ⟨r, s1, hp, h⟩ := bind_eq_ok h
  cases r with
  | none => cases h
  | some p =>
    obtain ⟨q, hpair, -⟩ := pair?_of_promote (m := m) hp ha hb
    cases hop : Numeric.order? op with
    | none =>
      simp only [hop] at h
      cases h
    | some order =>
      obtain ⟨r, hr⟩ := q.compare_safe (m := m) hop
      refine ⟨r, ?_⟩
      -- Truth values cannot be promoted, so the comparison is one of numbers.
      have hnum : compareOne m op a b = Machine.need (pair? m a b) >>= Pair.compare m op := by
        cases left <;> cases right <;> cases hp <;> cases a <;> cases ha <;> rfl
      rw [hnum, hpair]
      exact hr

def TypeAll (vs : List Value) (xs : List (Scalar F)) : Prop :=
  List.Forall₂ (fun v x => x.type = v.type) vs xs

theorem compareChain_safe {sofar : Operand} {rights : List Value}
    (h : Numeric.compareRest sofar left ops rights s = .ok z t) {bs : List (Scalar F)}
    (ha : a.type = left.type) (hbs : TypeAll rights bs) : ∃ r, compareChain m a ops bs = .ok r := by
  induction ops generalizing s sofar left rights a bs with
  | nil => exact ⟨true, rfl⟩
  | cons op ops ih =>
    cases hbs with
    | nil => exact ⟨true, rfl⟩
    | @cons right b rights bs hb hbs =>
      obtain ⟨c, s1, hc, h⟩ := bind_eq_ok h
      obtain ⟨both, s2, -, h⟩ := bind_eq_ok h
      obtain ⟨r, hr⟩ := compareOne_safe (m := m) hc ha hb
      obtain ⟨r', hr'⟩ := ih h hb hbs
      refine ⟨r && r', ?_⟩
      rw [compareChain, hr, hr']
      rfl

theorem compare_safe {vs : List Value} (h : Numeric.compare ops vs s = .ok v t)
    {xs : List (Scalar F)} (hxs : TypeAll vs xs) :
    ∃ x, compare m ops xs = .ok x ∧ x.type = v.type := by
  unfold Numeric.compare at h
  split at h
  · rename_i op ops left right rights
    split at h
    · cases h
    obtain ⟨first, s1, hfirst, h⟩ := bind_eq_ok h
    obtain ⟨z, s2, hz, h⟩ := bind_eq_ok h
    obtain ⟨rfl, rfl⟩ := pure_eq_ok h
    cases hxs with
    | @cons _ a _ _ ha hxs =>
      cases hxs with
      | @cons _ b _ bs hb hbs =>
        obtain ⟨r, hr⟩ := compareOne_safe (m := m) hfirst ha hb
        obtain ⟨r', hr'⟩ := compareChain_safe (m := m) hz hb hbs
        refine ⟨.bool (r && r'), ?_, rfl⟩
        rw [compare, compareChain, hr, hr']
        rfl
  · cases h

end Operators

section Expressions

variable {F : Type} {m : Machine F} {c : Context} {s t : Emission}

variable {v : Value} {pos : Position}

theorem numeral_safe {value : Number.Numeral} {raw : String} {negated : Bool}
    (h : number pos value raw negated s = .ok v t) :
    ∃ x, numeral m value negated = .ok x ∧ x.type = v.type := by
  cases value <;> cases h <;> exact ⟨_, rfl, rfl⟩

variable {x : Scalar F} {name : String} {f : Callee} {args : List Operand}

theorem type_of_ofDatum? {type : ValueType} {d : Datum F} (o : Operand)
    (h : Scalar.ofDatum? type d = some x) : x.type = (Value.ofOperand type o).type := by
  cases type <;> cases d <;> simp only [Scalar.ofDatum?, reduceCtorEq] at h <;>
    first | (cases h; rfl) | (split at h <;> cases h; rfl)

theorem read_safe (h : variableValue c pos name s = .ok v t) {mem : Memory F} (hmem : c.Holds mem) :
    ∃ x, read c name mem = .ok x ∧ x.type = v.type := by
  unfold variableValue at h
  cases hs : c.resolve? name with
  | none =>
    rw [hs] at h
    cases h
  | some symbol =>
    rw [hs] at h
    simp only at h
    cases ha : symbol.address? with
    | none =>
      rw [ha] at h
      obtain ⟨rfl, -⟩ := pure_eq_ok h
      have hslot : symbol.slot? = none := by rw [Symbol.slot?, ha]; rfl
      exact ⟨.void, read_of_nowhere hs hslot mem, rfl⟩
    | some address =>
      rw [ha] at h
      obtain ⟨o, s1, -, h⟩ := bind_eq_ok h
      obtain ⟨rfl, -⟩ := pure_eq_ok h
      obtain ⟨slot, -, hslot⟩ := Symbol.slot?_of_address? ha
      obtain ⟨d, hd, htype⟩ := hmem name symbol slot hs hslot
      obtain ⟨-, hne⟩ | ⟨x, hx, -, -⟩ := ofDatum?_cases symbol.type d
      · exact absurd htype hne
      · refine ⟨x, ?_, type_of_ofDatum? o hx⟩
        rw [read_of_slot hs hslot, hd, Option.bind_some, hx]
        rfl

theorem passed?_of_passArgument {i : Nat} {param : Ty} {o : Operand}
    (h : passArgument pos name i v param s = .ok o t) (hx : x.type = v.type) :
    ∃ d, passed? x param = some d := by
  rcases passArgument_eq_ok h with ⟨z, bits, rfl, rfl, -⟩ | ⟨z, bits, rfl, rfl, hle, -⟩ |
    ⟨rfl, rfl, -⟩ | ⟨rfl, rfl, -⟩ <;> cases x <;> cases hx
  · exact ⟨_, rfl⟩
  · exact ⟨_, if_pos hle⟩
  · exact ⟨_, rfl⟩
  · exact ⟨_, rfl⟩

theorem apply_safe (hm : Answers m c) (h : call pos f args s = .ok v t) (ds : List (Datum F)) :
    Safe c (apply m f ds) (fun x => x.type = v.type) := by
  intro w hw
  obtain ⟨d, mem, hcall, hmem, htype⟩ := hm f ds w hw
  refine .inr ?_
  unfold call at h
  split at h
  · rename_i hvoid
    obtain ⟨_, s1, -, h⟩ := bind_eq_ok h
    obtain ⟨rfl, -⟩ := pure_eq_ok h
    refine ⟨.void, ⟨mem, w.calls ++ [(f, ds)]⟩, ?_, hmem, rfl⟩
    simp only [apply, hcall, Machine.need, if_pos hvoid]
    rfl
  · rename_i hvoid
    obtain ⟨o, s1, -, h⟩ := bind_eq_ok h
    obtain ⟨-, type, hir, rfl, hval⟩ := callValue_eq_ok (F := F) h
    obtain ⟨-, hne⟩ | ⟨x, hx, -, -⟩ := ofDatum?_cases type d
    · exact absurd ((htype type hir hvoid).trans hir.symm) hne
    · refine ⟨x, ⟨mem, w.calls ++ [(f, ds)]⟩, ?_, hmem, type_of_ofDatum? o hx⟩
      simp only [apply, hcall, if_neg hvoid, hval]
      change (Machine.need (Scalar.ofDatum? type d) >>= fun x => _) = _
      rw [hx]
      rfl

theorem callPassed_safe (hm : Answers m c) (h : call pos f args s = .ok v t) (xs : List (Scalar F))
    (hxs : ∃ ds, ((xs.zip f.params).mapM fun p => passed? p.1 p.2) = some ds) :
    Safe c (fun w => Machine.need ((xs.zip f.params).mapM fun p => passed? p.1 p.2) >>=
      fun ds => apply m f ds w) (fun x => x.type = v.type) := by
  obtain ⟨ds, hds⟩ := hxs
  rw [hds]
  exact apply_safe hm h ds

mutual

theorem lower_safe (hc : c.operators = .numeric) (hm : Answers m c) :
    ∀ (e : Expr) {s t : Emission} {v : Value}, lower c e s = .ok v t →
      Safe c (eval m c e) (fun x => x.type = v.type)
  | .number pos value raw, s, t, v, h => by
    rw [lower] at h
    rw [eval_number]
    exact safe_pure (.inr (numeral_safe h))
  | .string pos value, s, t, v, h => by
    rw [lower, stringValue] at h
    split at h
    · obtain ⟨o, s1, -, h⟩ := bind_eq_ok h
      obtain ⟨rfl, -⟩ := pure_eq_ok h
      intro w hw
      exact .inr ⟨_, w, by rw [eval]; rfl, hw, rfl⟩
    · cases h
  | .bool .., s, t, v, h | .none .., s, t, v, h => by
    rw [lower] at h
    obtain ⟨rfl, -⟩ := pure_eq_ok h
    intro w hw
    exact .inr ⟨_, w, by rw [eval]; rfl, hw, rfl⟩
  | .ellipsis .., s, t, v, h | .logical .., s, t, v, h | .member .., s, t, v, h
  | .list .., s, t, v, h | .lambda .., s, t, v, h => by
    rw [lower] at h
    cases h
  | .unary pos op operand, s, t, v, h => by
    rw [lower] at h
    unfold negation at h
    split at h
    · rename_i p value raw
      rw [eval_negative]
      exact safe_pure (.inr (numeral_safe h))
    · cases h
  | .name pos id, s, t, v, h => by
    rw [lower] at h
    intro w hw
    obtain ⟨x, hx, htype⟩ := read_safe h hw
    refine .inr ⟨x, w, ?_, hw, htype⟩
    simp only [eval_name, hx]
    rfl
  | .binary pos op left right, s, t, v, h => by
    rw [lower] at h
    obtain ⟨x, s1, hx, h⟩ := bind_eq_ok h
    obtain ⟨y, s2, hy, h⟩ := bind_eq_ok h
    rw [hc] at h
    rw [eval_binary]
    refine (lower_safe hc hm left hx).bind fun a ha => ?_
    dsimp only
    exact (lower_safe hc hm right hy).bind fun b hb =>
      safe_pure (binary_safe (locate_eq_ok h) ha hb)
  | .compare pos ops operands, s, t, v, h => by
    rw [lower] at h
    obtain ⟨vs, s1, hvs, h⟩ := bind_eq_ok h
    rw [hc] at h
    rw [eval_compare]
    exact (lowerAll_safe hc hm operands hvs).bind fun xs hxs =>
      safe_pure (.inr (compare_safe (locate_eq_ok h) hxs))
  | .call pos callee args, s, t, v, h => by
    cases callee with
    | name pos' name =>
      cases args with
      | nil =>
        rw [lower] at h
        obtain ⟨f, s1, hfun, hrest⟩ := bind_eq_ok h
        obtain ⟨_, s2, -, hcall⟩ := bind_eq_ok hrest
        refine (apply_safe hm hcall []).congr fun w => ?_
        rw [eval, (function_eq_ok hfun).2]
        rfl
      | cons arg args =>
        rw [lower] at h
        obtain ⟨first, s1, hfirst, hselect⟩ := bind_eq_ok h
        obtain ⟨f, s2, hfun, hcheck⟩ := bind_eq_ok hselect
        obtain ⟨_, s3, -, hrest⟩ := bind_eq_ok hcheck
        have hf := (function_eq_ok hfun).2
        rw [eval_call]
        refine (lower_safe hc hm arg hfirst).bind fun x hx => ?_
        simp only [hx, hf]
        cases hparams : f.callee.params with
        | nil =>
          rw [hparams] at hrest
          obtain ⟨vs, s4, hvs, hcall⟩ := bind_eq_ok hrest
          refine (lowerAll_safe hc hm args hvs).bind fun xs _ =>
            callPassed_safe hm hcall (x :: xs) ⟨[], ?_⟩
          rw [hparams]
          rfl
        | cons param params =>
          rw [hparams] at hrest
          obtain ⟨o, s4, ho, hlast⟩ := bind_eq_ok hrest
          obtain ⟨os, s5, hos, hcall⟩ := bind_eq_ok hlast
          refine (lowerArguments_safe hc hm name args params hos).bind fun xs hxs =>
            callPassed_safe hm hcall (x :: xs) ?_
          obtain ⟨d, hd⟩ := passed?_of_passArgument ho hx
          obtain ⟨ds, hds⟩ := hxs
          refine ⟨d :: ds, ?_⟩
          rw [hparams]
          simp [hd, hds]
    | _ =>
      simp only [lower] at h
      cases h

theorem lowerAll_safe (hc : c.operators = .numeric) (hm : Answers m c) :
    ∀ (es : List Expr) {s t : Emission} {vs : List Value}, lowerAll c es s = .ok vs t →
      Safe c (evalAll m c es) (fun xs => TypeAll vs xs)
  | [], s, t, vs, h => by
    rw [lowerAll] at h
    obtain ⟨rfl, -⟩ := pure_eq_ok h
    intro w hw
    exact .inr ⟨[], w, by rw [evalAll]; rfl, hw, .nil⟩
  | e :: es, s, t, vs, h => by
    rw [lowerAll] at h
    obtain ⟨v, s1, hv, h⟩ := bind_eq_ok h
    obtain ⟨vs', s2, hvs, h⟩ := bind_eq_ok h
    obtain ⟨rfl, rfl⟩ := pure_eq_ok h
    rw [evalAll_cons]
    refine (lower_safe hc hm e hv).bind fun x hx => ?_
    exact (lowerAll_safe hc hm es hvs).map (x :: ·) fun xs hxs => .cons hx hxs

theorem lowerArguments_safe (hc : c.operators = .numeric) (hm : Answers m c) (name : String) :
    ∀ (es : List Expr) (params : List Ty) {i : Nat} {s t : Emission} {os : List Operand},
      lowerArguments c name i params es s = .ok os t →
        Safe c (evalAll m c es) fun xs =>
          ∃ ds, ((xs.zip params).mapM fun p => passed? p.1 p.2) = some ds
  | [], params, i, s, t, os, h => by
    intro w hw
    exact .inr ⟨[], w, by rw [evalAll]; rfl, hw, [], by simp⟩
  | e :: es, params, i, s, t, os, h => by
    rw [lowerArguments] at h
    obtain ⟨v, s1, hv, h⟩ := bind_eq_ok h
    rw [evalAll_cons]
    refine (lower_safe hc hm e hv).bind fun x hx => ?_
    cases params with
    | nil =>
      exact (lowerArguments_safe hc hm name es [] h).map (x :: ·) fun xs _ => ⟨[], rfl⟩
    | cons param params =>
      obtain ⟨o, s2, ho, h⟩ := bind_eq_ok h
      obtain ⟨os', s3, hos, h⟩ := bind_eq_ok h
      refine (lowerArguments_safe hc hm name es params hos).map (x :: ·) fun xs hxs => ?_
      obtain ⟨d, hd⟩ := passed?_of_passArgument ho hx
      obtain ⟨ds, hds⟩ := hxs
      exact ⟨d :: ds, by simp [hd, hds]⟩

end

end Expressions

/-- Lowering an expression keeps its meaning. The code that it adds to the current block is undefined
where the evaluation of the expression is, and otherwise makes the same calls, leaves the same memory
and gives the value. -/
theorem value_keeps_meaning {F : Type} (m : Machine F) {env : Environment} {e : Expr} {s s' : State}
    {v : Value} (hops : env.operators = .numeric) (hm : Answers m (s.context env))
    (h : Lower.value env e s = .ok v s') :
    ∃ code added,
      s'.frame = { s.frame with body :=
        { s.frame.body.append s.frame.body.current code with register := s'.frame.body.register } } ∧
      s'.progress.globals = s.progress.globals ++ added ∧
      (HoldsBytes m added → ∀ regs w, (s.context env).Holds w.memory →
        (m.exec code regs w = .error .undefined ↔ eval m (s.context env) e w = .error .undefined) ∧
        (eval m (s.context env) e w ≠ .error .undefined →
          ∃ x regs' w', eval m (s.context env) e w = .ok (x, w') ∧
            m.exec code regs w = .ok (regs', w') ∧ v.Denotes m regs' x)) := by
  obtain ⟨t, ht, rfl⟩ := value_eq_ok h
  refine ⟨t.instrs, t.globals, rfl, rfl, fun hb regs w hw => ?_⟩
  have hrun := (lower_lowersTo (m := m) hops (.refl _) e ht).2.computes hb
  rcases lower_safe hops hm e ht w hw with he | ⟨x, w', he, -, -⟩
  · have hx := hrun.trap regs w .undefined trivial he
    exact ⟨⟨fun _ => he, fun _ => hx⟩, fun hne => absurd he hne⟩
  · obtain ⟨regs', hx, -, hden⟩ := hrun.value regs w x w' trivial he
    refine ⟨⟨fun hu => ?_, fun hu => ?_⟩, fun _ => ⟨x, regs', w', he, hx, hden⟩⟩
    · cases hx.symm.trans hu
    · cases he.symm.trans hu

section Sample

def wordFunction : Callee := ⟨0, "f", [.i16], .i16⟩

def wordEnvironment : Environment :=
  ⟨⟨[("f", ⟨"f", [.i16], .i16, wordFunction⟩)]⟩, true, .numeric⟩

/-- Code outside of functions that has made the variable `x`. -/
def wordState : State :=
  ⟨⟨[], ⟨[⟨"x", .i8, .module false⟩]⟩, .empty, 0, 0, 0, 0, []⟩, .top⟩

/-- `f(x - 300)` -/
def wordCall : Expr :=
  .call ⟨1, 1⟩ (.name ⟨1, 1⟩ "f")
    [.binary ⟨1, 3⟩ .minus (.name ⟨1, 3⟩ "x") (.number ⟨1, 7⟩ (.int 300) "300")]

/-- Calls give zero and change nothing. -/
def zeroMachine : Machine Unit where
  constant _ := ()
  binary _ _ _ := ()
  compare _ _ _ := false
  ofInt _ _ := ()
  bytes _ := none
  argument _ := none
  call f _ w := some (match f.result with
    | .int bits => .int bits 0
    | .float => .float ()
    | _ => .pointer none, w.memory)

theorem zeroMachine_answers (c : Context) : Answers zeroMachine c := by
  intro f args w hw
  refine ⟨_, w.memory, rfl, hw, fun type h hvoid => ?_⟩
  rw [← h] at hvoid ⊢
  cases type <;> first | rfl | exact absurd rfl hvoid

/-- The byte is extended before the subtraction, and the word is passed. -/
theorem wordCall_keeps_meaning :
    ∃ v s' code regs', Lower.value wordEnvironment wordCall wordState = .ok v s' ∧
      s'.frame = { wordState.frame with body :=
        { wordState.frame.body.append .entry code with register := 4 } } ∧
      zeroMachine.exec code (fun _ => none) ⟨fun _ => some (.int 8 (-5)), []⟩ =
        .ok (regs', ⟨fun _ => some (.int 8 (-5)), [(wordFunction, [.int 16 (-305)])]⟩) ∧
      v.Denotes zeroMachine regs' (.i16 0) := by
  have h : ∃ v s', Lower.value wordEnvironment wordCall wordState = .ok v s' ∧
      s'.frame.body.register = 4 ∧ s'.progress.globals = [] := ⟨_, _, rfl, rfl, rfl⟩
  obtain ⟨v, s', h, hreg, hglobals⟩ := h
  have hmem : (wordState.context wordEnvironment).Holds
      (fun _ => some (.int 8 (-5)) : Memory Unit) := by
    intro name s slot hs _
    have hfind : wordState.progress.scope.symbols.find? (·.name == name) = some s := hs
    have hx := List.mem_singleton.mp (List.mem_of_find?_eq_some hfind)
    exact ⟨_, rfl, by rw [hx]; rfl⟩
  obtain ⟨code, added, hframe, hadded, hrun⟩ :=
    value_keeps_meaning zeroMachine rfl (zeroMachine_answers _) h
  rw [hglobals] at hadded
  cases hadded
  have hvalue : eval zeroMachine (wordState.context wordEnvironment) wordCall
      ⟨fun _ => some (.int 8 (-5)), []⟩ =
      .ok (.i16 0, ⟨fun _ => some (.int 8 (-5)), [(wordFunction, [.int 16 (-305)])]⟩) := by
    rfl
  obtain ⟨-, hok⟩ := hrun (by intro g hg; cases hg) (fun _ => none) ⟨_, []⟩ hmem
  obtain ⟨x, regs', w', hx, hexec, hden⟩ := hok (by rw [hvalue]; simp)
  cases hvalue.symm.trans hx
  rw [hreg] at hframe
  exact ⟨v, s', code, regs', h, hframe, hexec, hden⟩

end Sample

end BoardPython.Lowering
