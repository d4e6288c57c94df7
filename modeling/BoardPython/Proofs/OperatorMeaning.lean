import BoardPython.Proofs.EmittedCode

/-! Operators on lowered values do what operators on numbers do. -/
namespace BoardPython.Lowering

open Ir (BinaryOp Datum Machine Operand Operation Registers Trap World)
open Token (Kind)

section Words

variable {n : Nat}

theorem wrap_tdiv_ne_iff (hn : 0 < n) (x y : BitVec n) :
    wrap n (x.toInt.tdiv y.toInt) ≠ x.toInt.tdiv y.toInt ↔ x = BitVec.intMin n ∧ y = -1#n := by
  constructor
  · intro h
    by_contra hc
    have hor : x ≠ BitVec.intMin n ∨ y ≠ -1#n := by
      rcases not_and_or.mp hc with hx | hy
      · exact .inl hx
      · exact .inr hy
    apply h
    rw [wrap, ← BitVec.toInt_sdiv, BitVec.toInt_sdiv_of_ne_or_ne x y hor]
  · rintro ⟨rfl, rfl⟩
    have hlt : (2 : Nat) ^ (n - 1) < 2 ^ n := Nat.pow_lt_pow_right (by omega) (by omega)
    have hmin : (BitVec.intMin n).toInt = -(2 ^ (n - 1) : Nat) := by
      rw [BitVec.toInt_intMin, Nat.mod_eq_of_lt hlt]
    have hone : (-1#n).toInt = -1 := by
      rw [BitVec.neg_one_eq_allOnes, BitVec.toInt_allOnes, if_pos hn]
    have htwo : (2 : Nat) ^ n = 2 * 2 ^ (n - 1) := by
      rw [← Nat.pow_succ', Nat.succ_eq_add_one, Nat.sub_add_cancel hn]
    rw [hmin, hone, Int.tdiv_neg, Int.tdiv_one, neg_neg, wrap, htwo]
    intro h
    have hb := Int.bmod_lt (x := ((2 ^ (n - 1) : Nat) : Int)) (m := 2 * 2 ^ (n - 1)) (by positivity)
    rw [h] at hb
    omega

theorem toNat_lt_iff (hn : 0 < n) (y : BitVec n) :
    y.toNat < n ↔ 0 ≤ y.toInt ∧ y.toInt < n := by
  have htwo : (2 : Nat) ^ n = 2 * 2 ^ (n - 1) := by
    rw [← Nat.pow_succ', Nat.succ_eq_add_one, Nat.sub_add_cancel hn]
  have hle : n - 1 < 2 ^ (n - 1) := Nat.lt_two_pow_self
  have hy := y.isLt
  rw [BitVec.toInt_eq_toNat_cond]
  split <;> omega

theorem toInt_shiftLeft_eq (x : BitVec n) (k : Nat) :
    (x <<< k).toInt = wrap n (x.toInt * 2 ^ k) := by
  rw [wrap, ← BitVec.toInt_ofInt, BitVec.ofInt_mul, BitVec.ofInt_toInt,
    BitVec.shiftLeft_eq_mul_twoPow]
  congr 2
  apply BitVec.eq_of_toNat_eq
  rw [BitVec.toNat_twoPow, BitVec.toNat_ofInt]
  norm_cast

theorem toNat_toInt_of_nonneg {y : BitVec n} (h : 0 ≤ y.toInt) : y.toInt.toNat = y.toNat := by
  have hy := y.isLt
  rw [BitVec.toInt_eq_toNat_cond] at h ⊢
  split at h <;> split <;> omega

theorem onInts_sdiv (hn : 0 < n) (x y : BitVec n) :
    (BinaryOp.sdiv.onInts x y).map BitVec.toInt = intBinary n .slash x.toInt y.toInt := by
  have hzero : y = 0#n ↔ y.toInt = 0 := by
    rw [← BitVec.toInt_inj, BitVec.toInt_zero]
  simp only [BinaryOp.onInts, intBinary, wrap_tdiv_ne_iff hn, hzero]
  split
  · rfl
  · rename_i hc
    have hor : x ≠ BitVec.intMin n ∨ y ≠ -1#n := not_and_or.mp (not_or.mp hc).2
    simp only [Except.map, BitVec.toInt_sdiv_of_ne_or_ne x y hor]

theorem onInts_toInt (hn : 0 < n) {op : Kind} {operation : BinaryOp}
    (h : Numeric.intOp? op = some operation) (x y : BitVec n) :
    (operation.onInts x y).map BitVec.toInt = intBinary n op x.toInt y.toInt := by
  cases op with
  | plus =>
    cases h
    simp only [BinaryOp.onInts, intBinary, Except.map, BitVec.toInt_add, wrap]
  | minus =>
    cases h
    simp only [BinaryOp.onInts, intBinary, Except.map, BitVec.toInt_sub, wrap]
  | star =>
    cases h
    simp only [BinaryOp.onInts, intBinary, Except.map, BitVec.toInt_mul, wrap]
  | slash | doubleSlash =>
    cases h
    exact onInts_sdiv hn x y
  | percent =>
    cases h
    have hzero : y = 0#n ↔ y.toInt = 0 := by
      rw [← BitVec.toInt_inj, BitVec.toInt_zero]
    simp only [BinaryOp.onInts, intBinary, wrap_tdiv_ne_iff hn, hzero]
    split
    · rfl
    · simp only [Except.map, BitVec.toInt_srem]
  | ampersand | pipe | caret =>
    cases h
    simp only [BinaryOp.onInts, intBinary, Except.map, BitVec.ofInt_toInt]
  | shiftLeft =>
    cases h
    simp only [BinaryOp.onInts, intBinary, toNat_lt_iff hn]
    split
    · rename_i hc
      simp only [Except.map, toInt_shiftLeft_eq, toNat_toInt_of_nonneg hc.1]
    · rfl
  | shiftRight =>
    cases h
    simp only [BinaryOp.onInts, intBinary, toNat_lt_iff hn]
    split
    · rename_i hc
      simp only [Except.map, BitVec.toInt_sshiftRight, Int.shiftRight_eq_div_pow,
        toNat_toInt_of_nonneg hc.1, Nat.cast_pow, Nat.cast_ofNat]
    · rfl
  | _ => cases h

theorem onInts_order {op : Kind} {order : Ir.Order} (h : Numeric.order? op = some order)
    (x y : BitVec n) : Except.ok (order.onInts x y) = intCompare op x.toInt y.toInt := by
  have heq : (x == y) = (x.toInt == y.toInt) := by
    rw [Bool.eq_iff_iff, beq_iff_eq, beq_iff_eq, BitVec.toInt_inj]
  cases op with
  | equal =>
    cases h
    simp only [Ir.Order.onInts, intCompare, heq]
  | notEqual =>
    cases h
    simp only [Ir.Order.onInts, intCompare, bne, heq]
  | less | lessEqual | greater | greaterEqual =>
    cases h
    rfl
  | _ => cases h

end Words

namespace Value

variable {F : Type} {m : Machine F}

def Below (n : Nat) (v : Value) : Prop := ∀ x, v.operand? = some x → x.Below n

/-- What a value stands for, by what its operand holds. -/
def Denotes (m : Machine F) (regs : Registers F) : Value → Scalar F → Prop
  | i8 o, x => ∃ b : BitVec 8, m.operand? regs o = some (.int 8 b) ∧ x = .i8 b.toInt
  | i16 o, x => ∃ b : BitVec 16, m.operand? regs o = some (.int 16 b) ∧ x = .i16 b.toInt
  | f32 o, x => ∃ y, m.operand? regs o = some (.float y) ∧ x = .f32 y
  | str o, x => ∃ target, m.operand? regs o = some (.pointer target) ∧ x = .str target
  | bool o, x => ∃ b, m.operand? regs o = some (.int 1 (BitVec.ofBool b)) ∧ x = .bool b
  | void, x => x = .void

variable {v : Value}

theorem Below.mono {n k : Nat} (h : v.Below n) (hk : n ≤ k) : v.Below k :=
  fun x hx => (h x hx).mono hk

theorem type_eq_of_denotes {regs : Registers F} {x : Scalar F}
    (h : v.Denotes m regs x) : x.type = v.type := by
  cases v with
  | void => rw [show x = .void from h]; rfl
  | _ =>
    obtain ⟨_, -, rfl⟩ := h
    rfl

theorem denotes_stable {n : Nat} (h : v.Below n) (x : Scalar F) :
    Machine.StableBelow n fun regs => v.Denotes m regs x := by
  intro regs regs' ha hd
  have hsame (o : Operand) (ho : v.operand? = some o) :
      m.operand? regs' o = m.operand? regs o := Machine.operand?_of_below (h o ho) ha
  cases v with
  | void => exact hd
  | _ =>
    obtain ⟨b, hb, rfl⟩ := hd
    exact ⟨b, (hsame _ rfl).trans hb, rfl⟩

end Value

section Conversions

variable {F : Type} {m : Machine F} {s t : Emission} {pre : Registers F → Prop}

theorem setWidth_eq_ofInt {n k : Nat} (h : k ≤ n) (x : BitVec n) :
    x.setWidth k = BitVec.ofInt k x.toInt := by
  have hdvd : ((2 ^ k : Nat) : Int) ∣ ((2 ^ n : Nat) : Int) := by
    exact_mod_cast Nat.pow_dvd_pow 2 h
  apply BitVec.eq_of_toNat_eq
  rw [BitVec.toNat_setWidth, BitVec.toNat_ofInt, BitVec.toInt_eq_toNat_cond]
  split
  · norm_cast
  · rw [Int.sub_emod, Int.emod_eq_zero_of_dvd hdvd, sub_zero, Int.emod_emod_of_dvd _ dvd_rfl]
    norm_cast

def HoldsInt (m : Machine F) (regs : Registers F) (o : Operand) (bits : Nat) (n : Int) : Prop :=
  ∃ b : BitVec bits, m.operand? regs o = some (.int bits b) ∧ b.toInt = n

variable {o x : Operand} {n : Int} {regs : Registers F} {bits width : Nat}

theorem realizes_extend (h : extend o s = .ok x t)
    (hpre : ∀ regs, pre regs → HoldsInt m regs o 8 n) :
    Realizes m s t pre (fun w => .ok (.int 16 (BitVec.ofInt 16 n), w))
      (fun d regs => m.operand? regs x = some d) := by
  apply realizes_emit_ok h
  intro regs w hp
  obtain ⟨b, hb, rfl⟩ := hpre regs hp
  rw [Machine.operate_convert hb]
  rfl

theorem realizes_toFloat (h : toFloat o s = .ok x t)
    (hpre : ∀ regs, pre regs → HoldsInt m regs o bits n) :
    Realizes m s t pre (fun w => .ok (.float (m.ofInt bits n), w))
      (fun d regs => m.operand? regs x = some d) := by
  apply realizes_emit_ok h
  intro regs w hp
  obtain ⟨b, hb, rfl⟩ := hpre regs hp
  rw [Machine.operate_convert hb]
  rfl

theorem resize_below (h : resize o bits width s = .ok x t)
    (ho : o.Below s.register) : x.Below t.register := by
  unfold resize at h
  split at h
  · obtain ⟨rfl, rfl⟩ := pure_eq_ok h
    exact ho
  · exact emit_below h

theorem resize_extends (h : resize o bits width s = .ok x t) :
    s.Extends t := by
  unfold resize at h
  split at h
  · obtain ⟨-, rfl⟩ := pure_eq_ok h
    exact .refl _
  · exact emit_extends h

theorem realizes_resize (h : resize o bits width s = .ok x t)
    (hpre : ∀ regs, pre regs → HoldsInt m regs o bits n) :
    Realizes m s t pre (fun w => .ok (.int width (BitVec.ofInt width n), w))
      (fun d regs => m.operand? regs x = some d) := by
  unfold resize at h
  split at h
  · rename_i heq
    subst heq
    obtain ⟨rfl, rfl⟩ := pure_eq_ok h
    refine realizes_pure fun regs hp => ?_
    obtain ⟨b, hb, rfl⟩ := hpre regs hp
    rw [hb, BitVec.ofInt_toInt]
  · rename_i hne
    apply realizes_emit_ok h
    intro regs w hp
    obtain ⟨b, hb, rfl⟩ := hpre regs hp
    rw [Machine.operate_convert hb]
    by_cases hlt : width < bits
    · rw [if_pos hlt, Machine.convert, if_pos hlt, setWidth_eq_ofInt (Nat.le_of_lt hlt)]
      rfl
    · rw [if_neg hlt, Machine.convert, if_pos (by omega)]
      rfl

def Promoted.Holds (m : Machine F) (regs : Registers F) (p : Promoted) : Pair F → Prop
  | .ints bits a b =>
    (p.type = .i8 ∧ bits = 8 ∨ p.type = .i16 ∧ bits = 16) ∧
      HoldsInt m regs p.left bits a ∧ HoldsInt m regs p.right bits b
  | .floats x y =>
    p.type = .f32 ∧ m.operand? regs p.left = some (.float x) ∧
      m.operand? regs p.right = some (.float y)

theorem holdsInt_of_i8
    (h : (Value.i8 o).Denotes m regs (.i8 n)) : HoldsInt m regs o 8 n := by
  obtain ⟨b, hb, he⟩ := h
  exact ⟨b, hb, (Scalar.i8.inj he).symm⟩

theorem holdsInt_of_i16
    (h : (Value.i16 o).Denotes m regs (.i16 n)) : HoldsInt m regs o 16 n := by
  obtain ⟨b, hb, he⟩ := h
  exact ⟨b, hb, (Scalar.i16.inj he).symm⟩

theorem operand?_of_f32 {x : F}
    (h : (Value.f32 o).Denotes m regs (.f32 x)) : m.operand? regs o = some (.float x) := by
  obtain ⟨y, hy, he⟩ := h
  rw [hy, Scalar.f32.inj he]

theorem holdsInt_ofInt {b : BitVec 8}
    (h : m.operand? regs o = some (.int 16 (BitVec.ofInt 16 b.toInt))) :
    HoldsInt m regs o 16 b.toInt := by
  refine ⟨_, h, ?_⟩
  have hlt := BitVec.toInt_lt (x := b)
  have hle := BitVec.le_toInt b
  exact BitVec.toInt_ofInt_eq_self (by decide) (by norm_num at hle ⊢; omega)
    (by norm_num at hlt ⊢; omega)

theorem realizes_promote {left right : Value} {p : Promoted} (a b : Scalar F)
    (h : promote left right s = .ok (some p) t) (hl : left.Below s.register)
    (hr : right.Below s.register) :
    (p.left.Below t.register ∧ p.right.Below t.register) ∧
      Realizes m s t (fun regs => left.Denotes m regs a ∧ right.Denotes m regs b)
        (fun w => (Machine.need (pair? m a b)).map (·, w)) (fun q regs => p.Holds m regs q) := by
  have hstable : Machine.StableBelow s.register
      fun regs => left.Denotes m regs a ∧ right.Denotes m regs b :=
    (Value.denotes_stable hl a).and (Value.denotes_stable hr b)
  cases left <;> cases right
  case' i8.i8 x y | i16.i16 x y | f32.f32 x y =>
    obtain ⟨hp, rfl⟩ := pure_eq_ok h
    cases hp
    refine ⟨⟨hl x rfl, hr y rfl⟩, realizes_of_pre (.refl _) fun regs hpre => ?_⟩
    obtain ⟨⟨u, -, rfl⟩, ⟨v, -, rfl⟩⟩ := hpre
    refine realizes_pure fun regs hd => ?_
  · exact ⟨.inl ⟨rfl, rfl⟩, holdsInt_of_i8 hd.1, holdsInt_of_i8 hd.2⟩
  · exact ⟨.inr ⟨rfl, rfl⟩, holdsInt_of_i16 hd.1, holdsInt_of_i16 hd.2⟩
  · exact ⟨rfl, operand?_of_f32 hd.1, operand?_of_f32 hd.2⟩
  -- One operand is brought to the type of the other one.
  case' i8.i16 x y | i8.f32 x y | i16.f32 x y =>
    obtain ⟨z, s1, hz, hp⟩ := bind_eq_ok h
    obtain ⟨hp, rfl⟩ := pure_eq_ok hp
    cases hp
    have hm := emit_extends hz
    refine ⟨⟨emit_below hz, (hr y rfl).mono hm.register⟩, realizes_of_pre hm fun regs hpre => ?_⟩
    obtain ⟨⟨u, -, rfl⟩, ⟨v, -, rfl⟩⟩ := hpre
  · refine ((realizes_extend hz fun regs hd => holdsInt_of_i8 hd.1).keep hstable).const ?_
    intro regs hd
    exact ⟨.inr ⟨rfl, rfl⟩, holdsInt_ofInt hd.2, holdsInt_of_i16 hd.1.2⟩
  · refine ((realizes_toFloat hz fun regs hd => holdsInt_of_i8 hd.1).keep hstable).const ?_
    exact fun regs hd => ⟨rfl, hd.2, operand?_of_f32 hd.1.2⟩
  · refine ((realizes_toFloat hz fun regs hd => holdsInt_of_i16 hd.1).keep hstable).const ?_
    exact fun regs hd => ⟨rfl, hd.2, operand?_of_f32 hd.1.2⟩
  case' i16.i8 x y | f32.i8 x y | f32.i16 x y =>
    obtain ⟨z, s1, hz, hp⟩ := bind_eq_ok h
    obtain ⟨hp, rfl⟩ := pure_eq_ok hp
    cases hp
    have hm := emit_extends hz
    refine ⟨⟨(hl x rfl).mono hm.register, emit_below hz⟩, realizes_of_pre hm fun regs hpre => ?_⟩
    obtain ⟨⟨u, -, rfl⟩, ⟨v, -, rfl⟩⟩ := hpre
  · refine ((realizes_extend hz fun regs hd => holdsInt_of_i8 hd.2).keep hstable).const ?_
    intro regs hd
    exact ⟨.inr ⟨rfl, rfl⟩, holdsInt_of_i16 hd.1.1, holdsInt_ofInt hd.2⟩
  · refine ((realizes_toFloat hz fun regs hd => holdsInt_of_i8 hd.2).keep hstable).const ?_
    exact fun regs hd => ⟨rfl, operand?_of_f32 hd.1.1, hd.2⟩
  · refine ((realizes_toFloat hz fun regs hd => holdsInt_of_i16 hd.2).keep hstable).const ?_
    exact fun regs hd => ⟨rfl, operand?_of_f32 hd.1.1, hd.2⟩
  all_goals
    obtain ⟨hp, -⟩ := pure_eq_ok h
    cases hp

end Conversions

section Operators

variable {F : Type} {m : Machine F} {s t : Emission}

variable {z y x : Operand} {op : Kind} {order : Ir.Order} {n bits : Nat} {pre : Registers F → Prop}
  {left : Value} {regs : Registers F} {o : Operand} {type : Numeric} {operation : BinaryOp}
  {p : Promoted} {right v : Value} {vs : List Value} {ops : List Kind}

theorem operand?_of_holdsInt {n : Int} (h : HoldsInt m regs o bits n) :
    m.operand? regs o = some (.int bits (BitVec.ofInt bits n)) ∧
      (BitVec.ofInt bits n).toInt = n := by
  obtain ⟨b, hb, rfl⟩ := h
  rw [BitVec.ofInt_toInt]
  exact ⟨hb, rfl⟩

theorem denotes_ofInt {b : BitVec bits} (htype : type = .i8 ∧ bits = 8 ∨ type = .i16 ∧ bits = 16)
    (h : m.operand? regs z = some (.int bits b)) :
    (type.value z).Denotes m regs (Scalar.ofInt bits b.toInt) := by
  rcases htype with ⟨rfl, rfl⟩ | ⟨rfl, rfl⟩
  · exact ⟨b, h, rfl⟩
  · exact ⟨b, h, rfl⟩

theorem floatBinary_of_floatOp? (h : Numeric.floatOp? op = some operation) (x y : F) :
    operation.isFloat = true ∧ floatBinary m op x y = .ok (m.binary operation x y) := by
  cases op <;> cases h <;> exact ⟨rfl, rfl⟩

theorem realizes_operation (hop : p.type.operation? op = some operation)
    (hz : Emit.emit (.binary operation p.left p.right) s = .ok z t) (q : Pair F) :
    Realizes m s t (fun regs => p.Holds m regs q) (fun w => (q.binary m op).map (·, w))
      (fun x regs => (p.type.value z).Denotes m regs x) := by
  refine realizes_of_pre (emit_extends hz) fun regs hpre => ?_
  cases q with
  | ints bits a b =>
    obtain ⟨htype, hl, hr⟩ := hpre
    have ha := (operand?_of_holdsInt hl).2
    have hb := (operand?_of_holdsInt hr).2
    have hint : Numeric.intOp? op = some operation := by
      rcases htype with ⟨htype, -⟩ | ⟨htype, -⟩ <;> rwa [htype] at hop
    have hword := onInts_toInt (by omega) hint (BitVec.ofInt bits a) (BitVec.ofInt bits b)
    rw [ha, hb] at hword
    rw [Pair.binary, ← hword]
    cases hon : operation.onInts (BitVec.ofInt bits a) (BitVec.ofInt bits b)
    case' error => refine realizes_emit_error hz fun regs w hd => ?_
    case' ok => refine (realizes_emit_ok hz fun regs w hd => ?_).const fun _ => denotes_ofInt htype
    all_goals
      rw [Machine.operate_binary (operand?_of_holdsInt hd.2.1).1 (operand?_of_holdsInt hd.2.2).1,
        Machine.arithmetic_ints, hon]
      rfl
  | floats x y =>
    obtain ⟨htype, -, -⟩ := hpre
    rw [htype] at hop ⊢
    obtain ⟨hfloat, hval⟩ := floatBinary_of_floatOp? (m := m) hop x y
    rw [Pair.binary, hval]
    refine (realizes_emit_ok hz fun regs w hd => ?_).const fun regs hz => ⟨_, hz, rfl⟩
    rw [Machine.operate_binary hd.2.1 hd.2.2, Machine.arithmetic, if_pos hfloat]
    rfl

theorem value_below (h : z.Below n) : (type.value z).Below n := by
  intro x hx
  cases type <;> (cases hx; exact h)

theorem realizes_binary (a b : Scalar F) (h : Numeric.binary op left right s = .ok v t)
    (hl : left.Below s.register) (hr : right.Below s.register) :
    v.Below t.register ∧
      Realizes m s t (fun regs => left.Denotes m regs a ∧ right.Denotes m regs b)
        (fun w => (binary m op a b).map (·, w)) (fun x regs => v.Denotes m regs x) := by
  obtain ⟨r, s1, hp, h⟩ := bind_eq_ok h
  cases r with
  | none => cases h
  | some p =>
    obtain ⟨-, hpair⟩ := realizes_promote (m := m) a b hp hl hr
    cases hop : p.type.operation? op with
    | none =>
      simp only [hop] at h
      cases h
    | some operation =>
      simp only [hop] at h
      obtain ⟨z, s2, hz, h⟩ := bind_eq_ok h
      obtain ⟨rfl, rfl⟩ := pure_eq_ok h
      refine ⟨value_below (emit_below hz), ?_⟩
      · refine (hpair.append (emit_extends hz) (realizes_operation hop hz)).congr ?_
        intro w
        rw [binary]
        cases Machine.need (pair? m a b) <;> rfl

def HoldsBool (m : Machine F) (regs : Registers F) (o : Operand) (b : Bool) : Prop :=
  m.operand? regs o = some (.int 1 (BitVec.ofBool b))

theorem holdsBool_stable (h : o.Below n) (b : Bool) :
    Machine.StableBelow n fun regs => HoldsBool m regs o b := by
  intro regs regs' hagree hb
  exact (Machine.operand?_of_below h hagree).trans hb

theorem realizes_truth {op : Operation} {b : Bool} (hz : Emit.emit op s = .ok z t)
    (h : ∀ regs w, pre regs → m.operate regs w op = .ok (some (.int 1 (BitVec.ofBool b)), w)) :
    Realizes m s t pre (fun w => .ok (b, w)) (fun r regs => HoldsBool m regs z r) :=
  (realizes_emit_ok hz h).const fun _ hz => hz

theorem floatCompare_of_order? (h : Numeric.order? op = some order) (x y : F) :
    floatCompare m op x y = .ok (m.compare order x y) := by
  cases op <;> cases h <;> rfl

theorem realizes_icmp {a b : Int} (hop : Numeric.order? op = some order)
    (hz : Emit.emit (.icmp order x y) s = .ok z t)
    (hpre : ∀ regs, pre regs → HoldsInt m regs x bits a ∧ HoldsInt m regs y bits b) :
    Realizes m s t pre (fun w => (intCompare op a b).map (·, w))
      (fun r regs => HoldsBool m regs z r) := by
  refine realizes_of_pre (emit_extends hz) fun regs hp => ?_
  have ha := (operand?_of_holdsInt (hpre regs hp).1).2
  have hb := (operand?_of_holdsInt (hpre regs hp).2).2
  have hord := onInts_order hop (BitVec.ofInt bits a) (BitVec.ofInt bits b)
  rw [ha, hb] at hord
  rw [← hord]
  exact realizes_truth hz fun regs w hp => Machine.operate_icmp
    (operand?_of_holdsInt (hpre regs hp).1).1 (operand?_of_holdsInt (hpre regs hp).2).1

theorem realizes_fcmp {a b : F} (hop : Numeric.order? op = some order)
    (hz : Emit.emit (.fcmp order x y) s = .ok z t)
    (hpre : ∀ regs, pre regs →
      m.operand? regs x = some (.float a) ∧ m.operand? regs y = some (.float b)) :
    Realizes m s t pre (fun w => (floatCompare m op a b).map (·, w))
      (fun r regs => HoldsBool m regs z r) := by
  rw [floatCompare_of_order? hop]
  exact realizes_truth hz fun regs w hp => Machine.operate_fcmp (hpre regs hp).1 (hpre regs hp).2

theorem realizes_order (hop : Numeric.order? op = some order)
    (hz : (match p.type with
      | .f32 => Emit.emit (.fcmp order p.left p.right)
      | _ => Emit.emit (.icmp order p.left p.right)) s = .ok z t) :
    z.Below t.register ∧ s.Extends t ∧ ∀ q : Pair F,
      Realizes m s t (fun regs => p.Holds m regs q) (fun w => (q.compare m op).map (·, w))
        (fun b regs => HoldsBool m regs z b) := by
  cases htype : p.type
  all_goals
    simp only [htype] at hz
    refine ⟨emit_below hz, emit_extends hz, fun q => realizes_of_pre (emit_extends hz) ?_⟩
    intro regs hpre
    cases q
  case f32.floats => exact realizes_fcmp hop hz fun regs hd => hd.2
  case f32.ints => rcases hpre.1 with ⟨h, -⟩ | ⟨h, -⟩ <;> cases htype.symm.trans h
  case i8.ints | i16.ints => exact realizes_icmp hop hz fun regs hd => hd.2
  case i8.floats | i16.floats => cases htype.symm.trans hpre.1

theorem realizes_compareBool (a b : Scalar F)
    (hop : op = .equal ∧ order = .eq ∨ op = .notEqual ∧ order = .ne)
    (hz : Emit.emit (.icmp order x y) s = .ok z t) :
    Realizes m s t (fun regs => (Value.bool x).Denotes m regs a ∧ (Value.bool y).Denotes m regs b)
      (fun w => (compareOne m op a b).map (·, w)) (fun r regs => HoldsBool m regs z r) := by
  refine realizes_of_pre (emit_extends hz) fun regs hpre => ?_
  obtain ⟨⟨u, -, rfl⟩, ⟨v, -, rfl⟩⟩ := hpre
  have hval : compareOne m op (.bool u) (.bool v) =
      .ok (order.onInts (BitVec.ofBool u) (BitVec.ofBool v)) := by
    rcases hop with ⟨rfl, rfl⟩ | ⟨rfl, rfl⟩ <;> cases u <;> cases v <;> rfl
  rw [hval]
  refine realizes_truth hz fun regs w hd => ?_
  obtain ⟨⟨u', hu, he⟩, ⟨v', hv, he'⟩⟩ := hd
  rw [← Scalar.bool.inj he] at hu
  rw [← Scalar.bool.inj he'] at hv
  exact Machine.operate_icmp hu hv

theorem realizes_compareOne (a b : Scalar F) (h : Numeric.compareOne op left right s = .ok z t)
    (hl : left.Below s.register) (hr : right.Below s.register) :
    z.Below t.register ∧
      Realizes m s t (fun regs => left.Denotes m regs a ∧ right.Denotes m regs b)
        (fun w => (compareOne m op a b).map (·, w)) (fun r regs => HoldsBool m regs z r) := by
  unfold Numeric.compareOne at h
  split at h
  · exact ⟨emit_below h, realizes_compareBool a b (.inl ⟨rfl, rfl⟩) h⟩
  · exact ⟨emit_below h, realizes_compareBool a b (.inr ⟨rfl, rfl⟩) h⟩
  obtain ⟨r, s1, hp, h⟩ := bind_eq_ok h
  cases r with
  | none => cases h
  | some p =>
    obtain ⟨-, hpair⟩ := realizes_promote (m := m) a b hp hl hr
    cases hop : Numeric.order? op with
    | none =>
      simp only [hop] at h
      cases h
    | some order =>
      simp only [hop] at h
      obtain ⟨hbelow, hmono, hq⟩ := realizes_order (m := m) hop h
      refine ⟨hbelow, realizes_of_pre (hpair.mono.trans hmono) fun regs hd => ?_⟩
      refine (hpair.append hmono hq).congr fun w => ?_
      -- Numbers are compared as numbers, since only they can be promoted.
      have hnum : compareOne m op a b = Machine.need (pair? m a b) >>= Pair.compare m op := by
        cases left with
        | bool o | void | str o => cases right <;> cases hp
        | _ =>
          obtain ⟨⟨u, -, rfl⟩, -⟩ := hd
          rfl
      rw [hnum]
      cases Machine.need (pair? m a b) <;> rfl

def DenoteAll (m : Machine F) (regs : Registers F) (vs : List Value) (xs : List (Scalar F)) : Prop
    :=
  List.Forall₂ (fun v x => v.Denotes m regs x) vs xs

theorem denoteAll_stable (h : ∀ v ∈ vs, v.Below n) (xs : List (Scalar F)) :
    Machine.StableBelow n fun regs => DenoteAll m regs vs xs := by
  intro regs regs' hagree hd
  induction hd with
  | nil => exact .nil
  | cons hv _ ih =>
    refine .cons (Value.denotes_stable (h _ (by simp)) _ regs regs' hagree hv) ?_
    exact ih fun v hmem => h v (by simp [hmem])

theorem realizes_and {u v : Bool} (hz : Emit.emit (.binary .and x y) s = .ok z t)
    (hpre : ∀ regs, pre regs → HoldsBool m regs x u ∧ HoldsBool m regs y v) :
    Realizes m s t pre (fun w => .ok (u && v, w)) (fun r regs => HoldsBool m regs z r) := by
  have hand : BitVec.ofBool u &&& BitVec.ofBool v = BitVec.ofBool (u && v) :=
    BitVec.ofBool_and_ofBool
  refine realizes_truth hz fun regs w hp => ?_
  rw [Machine.operate_binary (hpre regs hp).1 (hpre regs hp).2, Machine.arithmetic_ints,
    BinaryOp.onInts, hand]
  rfl

theorem realizes_compareRest {sofar : Operand} {rights : List Value} (acc : Bool)
    (a : Scalar F) (bs : List (Scalar F))
    (h : Numeric.compareRest sofar left ops rights s = .ok z t) (hs : sofar.Below s.register)
    (hl : left.Below s.register) (hr : ∀ v ∈ rights, v.Below s.register) :
    z.Below t.register ∧
      Realizes m s t
        (fun regs => HoldsBool m regs sofar acc ∧ left.Denotes m regs a ∧ DenoteAll m regs rights bs)
        (fun w => (compareChain m a ops bs).map fun r => (acc && r, w))
        (fun r regs => HoldsBool m regs z r) := by
  induction ops generalizing s sofar left rights acc a bs with
  | nil =>
    obtain ⟨rfl, rfl⟩ := pure_eq_ok h
    refine ⟨hs, realizes_pure fun regs hd => ?_⟩
    rw [Bool.and_true]
    exact hd.1
  | cons op ops ih =>
    cases rights with
    | nil =>
      obtain ⟨rfl, rfl⟩ := pure_eq_ok h
      refine ⟨hs, realizes_of_pre (.refl _) fun regs hd => ?_⟩
      obtain ⟨-, -, hd⟩ := hd
      cases hd
      refine realizes_pure fun regs hd => ?_
      rw [Bool.and_true]
      exact hd.1
    | cons right rights =>
      obtain ⟨c, s1, hc, h⟩ := bind_eq_ok h
      obtain ⟨both, s2, hboth, h⟩ := bind_eq_ok h
      have hright : right.Below s.register := hr right (by simp)
      have hrights : ∀ v ∈ rights, v.Below s.register := fun v hv => hr v (by simp [hv])
      obtain ⟨hcb, hone⟩ := realizes_compareOne (m := m) a (bs.headD .void) hc hl hright
      have hm1 := hone.mono.register
      have hm2 := (emit_extends hboth).register
      obtain ⟨hzb, hrest⟩ := ih acc (bs.headD .void) bs.tail h (emit_below hboth)
        (hright.mono (by omega)) (fun v hv => (hrights v hv).mono (by omega))
      refine ⟨hzb, realizes_of_pre (hone.mono.trans ((emit_extends hboth).trans hrest.mono)) ?_⟩
      intro regs hd
      obtain ⟨-, -, hd⟩ := hd
      cases hd with
      | @cons _ b _ bs hb hbs =>
        -- The operands stay as they are while the chain goes on.
        let p (regs : Registers F) : Prop :=
          HoldsBool m regs sofar acc ∧ left.Denotes m regs a ∧
            DenoteAll m regs (right :: rights) (b :: bs)
        have hp : Machine.StableBelow s.register p :=
          (holdsBool_stable hs acc).and
            ((Value.denotes_stable hl a).and (denoteAll_stable hr (b :: bs)))
        have h1 : Realizes m s s1 p (fun w => (compareOne m op a b).map (·, w))
            (fun r regs => p regs ∧ HoldsBool m regs c r) := by
          refine Realizes.keep (hone.weaken (fun regs hd => ?_) fun _ _ h => h) hp
          exact ⟨hd.2.1, (List.forall₂_cons.mp hd.2.2).1⟩
        have h2 (r : Bool) : Realizes m s1 s2 (fun regs => p regs ∧ HoldsBool m regs c r)
            (fun w => .ok (acc && r, w)) (fun r' regs => p regs ∧ HoldsBool m regs both r') := by
          have hand := (realizes_and hboth fun regs hd => ⟨hd.1.1, hd.2⟩).keep
            ((hp.mono hm1).and (holdsBool_stable (m := m) hcb r))
          exact hand.weaken (fun _ h => h) fun _ _ h => ⟨h.1.1, h.2⟩
        have h3 (r : Bool) : Realizes m s2 t (fun regs => p regs ∧ HoldsBool m regs both r)
            (fun w => (compareChain m b ops bs).map fun r' => (r && r', w))
            (fun r' regs => HoldsBool m regs z r') := by
          obtain ⟨-, hrest⟩ := ih r b bs h (emit_below hboth) (hright.mono (by omega))
            fun v hv => (hrights v hv).mono (by omega)
          exact hrest.weaken (fun regs hd => ⟨hd.2, List.forall₂_cons.mp hd.1.2.2⟩) fun _ _ h => h
        have hall := h1.append ((emit_extends hboth).trans hrest.mono) fun r =>
          (h2 r).append hrest.mono h3
        refine hall.congr fun w => ?_
        rw [compareChain]
        cases compareOne m op a b with
        | error e => rfl
        | ok r =>
          cases compareChain m b ops bs with
          | error e => rfl
          | ok r' => simp [Except.map, bind, Except.bind, pure, Except.pure, Bool.and_assoc]

theorem realizes_compare (xs : List (Scalar F)) (h : Numeric.compare ops vs s = .ok v t)
    (hvs : ∀ u ∈ vs, u.Below s.register) :
    v.Below t.register ∧
      Realizes m s t (fun regs => DenoteAll m regs vs xs) (fun w => (compare m ops xs).map (·, w))
        (fun x regs => v.Denotes m regs x) := by
  unfold Numeric.compare at h
  split at h
  · rename_i op ops left right rights
    split at h
    · cases h
    obtain ⟨first, s1, hfirst, h⟩ := bind_eq_ok h
    obtain ⟨z, s2, hz, h⟩ := bind_eq_ok h
    obtain ⟨rfl, rfl⟩ := pure_eq_ok h
    have hright : right.Below s.register := hvs right (by simp)
    have hrights : ∀ v ∈ rights, v.Below s.register := fun v hv => hvs v (by simp [hv])
    obtain ⟨hfb, hone⟩ := realizes_compareOne (m := m) (xs.headD .void) (xs.tail.headD .void) hfirst
      (hvs left (by simp)) hright
    have hm := hone.mono.register
    have hrest (r : Bool) (b : Scalar F) (bs : List (Scalar F)) :=
      realizes_compareRest (m := m) r b bs hz hfb (hright.mono hm)
        fun v hv => (hrights v hv).mono hm
    obtain ⟨hzb, hlast⟩ := hrest true .void []
    refine ⟨?_, realizes_of_pre (hone.mono.trans hlast.mono) fun regs hd => ?_⟩
    · intro x hx
      cases hx
      exact hzb
    cases hd with
    | @cons _ a _ _ ha hd =>
      cases hd with
      | @cons _ b _ bs hb hbs =>
        have hp : Machine.StableBelow s.register
            fun regs => DenoteAll m regs (left :: right :: rights) (a :: b :: bs) :=
          denoteAll_stable hvs _
        have h1 : Realizes m s s1
            (fun regs => DenoteAll m regs (left :: right :: rights) (a :: b :: bs))
            (fun w => (compareOne m op a b).map (·, w))
            (fun r regs => DenoteAll m regs (left :: right :: rights) (a :: b :: bs) ∧
              HoldsBool m regs first r) := by
          refine Realizes.keep (hone.weaken (fun regs hd => ?_) fun _ _ h => h) hp
          have hd := List.forall₂_cons.mp hd
          exact ⟨hd.1, (List.forall₂_cons.mp hd.2).1⟩
        have h2 (r : Bool) : Realizes m s1 t
            (fun regs => DenoteAll m regs (left :: right :: rights) (a :: b :: bs) ∧
              HoldsBool m regs first r)
            (fun w => ((compareChain m b ops bs).map fun r' => (r && r', w)).map
              fun c => (Scalar.bool c.1, c.2))
            (fun x regs => (Value.bool z).Denotes m regs x) := by
          refine ((hrest r b bs).2.weaken (fun regs hd => ?_) fun _ _ h => h).map _ ?_
          · exact ⟨hd.2, List.forall₂_cons.mp (List.forall₂_cons.mp hd.1).2⟩
          · intro r' regs hd
            exact ⟨r', hd, rfl⟩
        refine (h1.append hlast.mono h2).congr fun w => ?_
        rw [compare, compareChain]
        cases compareOne m op a b with
        | error e => rfl
        | ok r => cases compareChain m b ops bs <;> rfl
  · cases h

end Operators

end BoardPython.Lowering
