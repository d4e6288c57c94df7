import BoardPython.Proofs.OperatorMeaning

/-! Lowering an expression keeps its meaning: the code that it adds does what the evaluation of the
expression does. -/
namespace BoardPython.Lowering

open Ir (Callee Datum Machine Memory Operand Operation Registers Slot Trap Ty World)
open Token (Kind)

section Leaves

variable {F : Type} {m : Machine F} {s t : Emission}

abbrev anyRegisters : Registers F → Prop := fun _ => True

variable {type : ValueType} {x : Operand} {n i : Nat} {os : List Operand}

theorem below_ofOperand (h : x.Below n) : (Value.ofOperand type x).Below n := by
  intro y hy
  cases type <;> simp only [Value.ofOperand, Value.operand?, Option.some.injEq, reduceCtorEq] at hy <;>
    (subst hy; exact h)

variable {pos : Position} {v : Value} {name : String} {o : Operand} {f : Callee} {c : Context}
  {param : Ty}

theorem realizes_number {value : Number.Numeral} {raw : String} {negated : Bool}
    (h : number pos value raw negated s = .ok v t) :
    v.Below t.register ∧ Realizes m s t anyRegisters
      (fun w => (numeral m value negated).map (·, w)) (fun x regs => v.Denotes m regs x) := by
  cases value with
  | int n =>
    obtain ⟨rfl, rfl⟩ := pure_eq_ok h
    refine ⟨fun x hx => ?_, realizes_pure fun regs _ => ?_⟩
    · cases hx
      trivial
    · refine ⟨_, rfl, ?_⟩
      rw [BitVec.toInt_ofInt, wrap16, wrap]
      exact congrArg Scalar.i16 Int.bmod_bmod.symm
  | float x =>
    obtain ⟨rfl, rfl⟩ := pure_eq_ok h
    refine ⟨fun x hx => ?_, realizes_pure fun regs _ => ⟨_, rfl, rfl⟩⟩
    cases hx
    trivial
  | imaginary x => cases h

theorem ofDatum?_cases (type : ValueType) (d : Datum F) :
    (Scalar.ofDatum? type d = none ∧ d.type ≠ type.ir) ∨
      ∃ x, Scalar.ofDatum? type d = some x ∧ d.type = type.ir ∧
        ∀ (m : Machine F) regs o, m.operand? regs o = some d →
          (Value.ofOperand type o).Denotes m regs x := by
  cases type <;> cases d
  case i8.int bits b =>
    by_cases h : bits = 8
    · subst h
      exact .inr ⟨_, rfl, rfl, fun m regs o ho => ⟨b, ho, rfl⟩⟩
    · exact .inl ⟨by simp [Scalar.ofDatum?, h], by simp [Datum.type, ValueType.ir, h]⟩
  case i16.int bits b =>
    by_cases h : bits = 16
    · subst h
      exact .inr ⟨_, rfl, rfl, fun m regs o ho => ⟨b, ho, rfl⟩⟩
    · exact .inl ⟨by simp [Scalar.ofDatum?, h], by simp [Datum.type, ValueType.ir, h]⟩
  case bool.int bits b =>
    by_cases h : bits = 1
    · subst h
      refine .inr ⟨_, rfl, rfl, fun m regs o ho => ⟨b.getLsbD 0, ?_, rfl⟩⟩
      rw [ho]
      congr 2
      rcases BitVec.eq_zero_or_eq_one b with rfl | rfl <;> rfl
    · exact .inl ⟨by simp [Scalar.ofDatum?, h], by simp [Datum.type, ValueType.ir, h]⟩
  case f32.float y | str.pointer y => exact .inr ⟨_, rfl, rfl, fun m regs o ho => ⟨y, ho, rfl⟩⟩
  all_goals exact .inl ⟨rfl, by simp [Datum.type, ValueType.ir]⟩

theorem realizes_variable {c' : Context} (hext : c.Extends c')
    (h : variableValue c pos name s = .ok v t) :
    v.Below t.register ∧ Realizes m s t anyRegisters
      (fun w => (read c' name w.memory).map (·, w)) (fun x regs => v.Denotes m regs x) := by
  unfold variableValue at h
  cases hs : c.resolve? name with
  | none =>
    rw [hs] at h
    cases h
  | some symbol =>
    rw [hs] at h
    simp only at h
    cases ha : symbol.address? with
    | none =>
      rw [ha] at h
      obtain ⟨rfl, rfl⟩ := pure_eq_ok h
      have hslot : symbol.slot? = none := by rw [Symbol.slot?, ha]; rfl
      simp only [read_of_nowhere (hext.resolve name symbol hs) hslot]
      refine ⟨fun x hx => ?_, realizes_pure fun regs _ => rfl⟩
      cases hx
    | some address =>
      rw [ha] at h
      obtain ⟨o, s1, ho, h⟩ := bind_eq_ok h
      obtain ⟨rfl, rfl⟩ := pure_eq_ok h
      obtain ⟨slot, hslot, hslot'⟩ := Symbol.slot?_of_address? ha
      simp only [read_of_slot (hext.resolve name symbol hs) hslot']
      refine ⟨below_ofOperand (emit_below ho), realizes_emit ho ?_ ?_⟩
      · intro regs w e _ he
        rw [Machine.operate_load hslot]
        cases hd : w.memory slot with
        | none =>
          rw [hd] at he
          cases he
          rfl
        | some d =>
          rw [hd] at he
          rcases ofDatum?_cases symbol.type d with ⟨hnone, hne⟩ | ⟨x, hx, -, -⟩
          · simp only [Option.bind_some, hnone] at he
            cases he
            exact if_neg hne
          · simp only [Option.bind_some, hx] at he
            cases he
      · intro regs w x w' _ he
        rw [Machine.operate_load hslot]
        cases hd : w.memory slot with
        | none =>
          rw [hd] at he
          cases he
        | some d =>
          rw [hd] at he
          rcases ofDatum?_cases symbol.type d with ⟨hnone, hne⟩ | ⟨x', hx, htype, hden⟩
          · simp only [Option.bind_some, hnone] at he
            cases he
          · simp only [Option.bind_some, hx] at he
            cases he
            exact ⟨d, if_pos htype, fun regs' ho => hden m regs' o ho⟩

theorem realizes_string {value : Bytes} (h : stringValue c pos value s = .ok v t) :
    v.Below t.register ∧ Realizes m s t anyRegisters
      (fun w => .ok (.str (some (value ++ [0])), w)) (fun x regs => v.Denotes m regs x) := by
  unfold stringValue at h
  split at h
  · obtain ⟨o, s1, ho, h⟩ := bind_eq_ok h
    obtain ⟨rfl, rfl⟩ := pure_eq_ok h
    obtain ⟨number, s2, hn, ho⟩ := bind_eq_ok ho
    cases hn
    have hm := emit_extends ho
    refine ⟨fun x hx => ?_, ⟨List.IsPrefix.trans List.prefix_rfl hm.instrs, ?_, hm.register⟩, ?_⟩
    · cases hx
      exact emit_below ho
    · exact List.IsPrefix.trans (List.prefix_append _ _) hm.globals
    intro hb
    have hbytes : m.bytes s!".str.{s.strings + 1}" = some (value ++ [0]) :=
      hb _ (hm.globals.subset (List.mem_append_right _ (List.mem_singleton_self _))) _ rfl
    have hlen : value.length + 1 = (value ++ [0]).length := by simp
    rw [hlen] at ho
    have hload : Realizes m _ _ anyRegisters _ _ := realizes_emit_ok ho
      fun regs w _ => Machine.operate_firstByte hbytes
    exact (hload.const fun regs hd => ⟨_, hd, rfl⟩).computes hb
  · cases h

theorem passArgument_eq_ok (h : passArgument pos name i v param s = .ok o t) :
    (∃ x bits, v = .i8 x ∧ param = .int bits ∧ resize x 8 bits s = .ok o t) ∨
    (∃ x bits, v = .i16 x ∧ param = .int bits ∧ bits ≤ 16 ∧ resize x 16 bits s = .ok o t) ∨
    (v = .f32 o ∧ param = .float ∧ t = s) ∨ (v = .str o ∧ param = .bytePointer ∧ t = s) := by
  unfold passArgument at h
  cases hp : pass? v param with
  | none =>
    rw [hp] at h
    cases h
  | some x =>
    rw [hp] at h
    unfold pass? at hp
    split at hp
    · cases hp
      exact .inl ⟨_, _, rfl, rfl, h⟩
    · split at hp
      · rename_i hle
        cases hp
        exact .inr (.inl ⟨_, _, rfl, rfl, hle, h⟩)
      · cases hp
    · cases hp
      obtain ⟨rfl, rfl⟩ := pure_eq_ok h
      exact .inr (.inr (.inl ⟨rfl, rfl, rfl⟩))
    · cases hp
      obtain ⟨rfl, rfl⟩ := pure_eq_ok h
      exact .inr (.inr (.inr ⟨rfl, rfl, rfl⟩))
    · cases hp

def Passes (m : Machine F) (regs : Registers F) (o : Operand) (x : Scalar F) (param : Ty) : Prop :=
  ∃ d, passed? x param = some d ∧ m.operand? regs o = some d

theorem passes_stable (h : o.Below n) (x : Scalar F) (param : Ty) :
    Machine.StableBelow n fun regs => Passes m regs o x param := by
  intro regs regs' hagree hp
  obtain ⟨d, hd, ho⟩ := hp
  exact ⟨d, hd, (Machine.operand?_of_below h hagree).trans ho⟩

theorem realizes_passArgument (x : Scalar F) (h : passArgument pos name i v param s = .ok o t)
    (hv : v.Below s.register) :
    o.Below t.register ∧ Realizes m s t (fun regs => v.Denotes m regs x) (fun w => .ok ((), w))
      (fun _ regs => Passes m regs o x param) := by
  rcases passArgument_eq_ok h with ⟨z, bits, rfl, rfl, hr⟩ | ⟨z, bits, rfl, rfl, hle, hr⟩ |
    ⟨rfl, rfl, rfl⟩ | ⟨rfl, rfl, rfl⟩
  · refine ⟨resize_below hr (hv z rfl), realizes_of_pre (resize_extends hr) fun regs hd => ?_⟩
    obtain ⟨b, -, rfl⟩ := hd
    exact (realizes_resize hr fun regs hd => holdsInt_of_i8 hd).const fun regs ho => ⟨_, rfl, ho⟩
  · refine ⟨resize_below hr (hv z rfl), realizes_of_pre (resize_extends hr) fun regs hd => ?_⟩
    obtain ⟨b, -, rfl⟩ := hd
    exact (realizes_resize hr fun regs hd => holdsInt_of_i16 hd).const
      fun regs ho => ⟨_, if_pos hle, ho⟩
  · refine ⟨hv o rfl, realizes_pure fun regs hd => ?_⟩
    obtain ⟨y, ho, rfl⟩ := hd
    exact ⟨_, rfl, ho⟩
  · refine ⟨hv o rfl, realizes_pure fun regs hd => ?_⟩
    obtain ⟨target, ho, rfl⟩ := hd
    exact ⟨_, rfl, ho⟩

theorem function_eq_ok {first : Option ValueType} {f : Signature}
    (h : function c pos name first s = .ok f t) :
    t = s ∧ callee? c name first = some f.callee := by
  have hcallee : callee? c name first = (c.select? name first).map (·.callee) := by
    unfold callee? Context.select?
    cases c.functions.find? name <;> rfl
  rw [function_eq] at h
  cases hf : c.select? name first with
  | none =>
    rw [hf] at h
    cases h
  | some g =>
    rw [hf] at h
    obtain ⟨rfl, rfl⟩ := pure_eq_ok h
    exact ⟨rfl, by rw [hcallee, hf]; rfl⟩

theorem checkArity_extends {params args : Nat}
    (h : checkArity c pos name params args s = .ok () t) :
    s.Extends t ∧ s.since t = [] ∧ t.register = s.register := by
  unfold checkArity at h
  split at h
  · obtain ⟨-, rfl⟩ := pure_eq_ok h
    exact ⟨.refl _, Emission.since_self _, rfl⟩
  split at h
  · cases h
  · cases h
    exact ⟨⟨List.prefix_rfl, List.prefix_rfl, Nat.le_refl _⟩, by simp [Emission.since], rfl⟩

theorem callValue_eq_ok {result : Ty} (h : callValue pos result x s = .ok v t) :
    t = s ∧ ∃ type : ValueType, type.ir = result ∧ v = .ofOperand type x ∧
      ∀ d : Datum F, result? result d = Scalar.ofDatum? type d := by
  unfold callValue at h
  split at h
  · obtain ⟨rfl, rfl⟩ := pure_eq_ok h
    exact ⟨rfl, .i8, rfl, rfl, fun _ => rfl⟩
  · obtain ⟨rfl, rfl⟩ := pure_eq_ok h
    exact ⟨rfl, .i16, rfl, rfl, fun _ => rfl⟩
  · cases h
  · obtain ⟨rfl, rfl⟩ := pure_eq_ok h
    exact ⟨rfl, .f32, rfl, rfl, fun _ => rfl⟩
  · cases h

theorem apply_of_void (h : f.result = .void) (ds : List (Datum F)) (w : World F) :
    apply m f ds w = (m.invoke f ds w).map fun c => (.void, c.2) := by
  rw [apply, Machine.invoke]
  cases m.call f ds w with
  | none => rfl
  | some c =>
    simp only [Machine.need, h, if_true]
    rfl

theorem apply_of_type (hvoid : f.result ≠ .void) (h : type.ir = f.result)
    (hval : ∀ d : Datum F, result? f.result d = Scalar.ofDatum? type d) (ds : List (Datum F))
    (w : World F) :
    (apply m f ds w = .error .stuck ∧ m.invoke f ds w = .error .stuck) ∨
      ∃ x d w', apply m f ds w = .ok (x, w') ∧ m.invoke f ds w = .ok (some d, w') ∧
        ∀ regs o, m.operand? regs o = some d → (Value.ofOperand type o).Denotes m regs x := by
  rw [apply, Machine.invoke]
  cases m.call f ds w with
  | none => exact .inl ⟨rfl, rfl⟩
  | some c =>
    simp only [if_neg hvoid, hval]
    rcases ofDatum?_cases type c.1 with ⟨hnone, hne⟩ | ⟨x, hx, heq, hden⟩
    · rw [h] at hne
      refine .inl ⟨?_, ?_⟩
      · change (Machine.need (Scalar.ofDatum? type c.1) >>= fun x => _) = _
        rw [hnone]
        rfl
      · exact if_neg hne
    · rw [h] at heq
      refine .inr ⟨x, c.1, ⟨c.2, w.calls ++ [(f, ds)]⟩, ?_, ?_, hden m⟩
      · change (Machine.need (Scalar.ofDatum? type c.1) >>= fun x => _) = _
        rw [hx]
        rfl
      · exact if_pos heq

theorem realizes_call {args : List Operand} (ds : List (Datum F))
    (h : call pos f args s = .ok v t) :
    v.Below t.register ∧ Realizes m s t (fun regs => args.mapM (m.operand? regs) = some ds)
      (apply m f ds) (fun x regs => v.Denotes m regs x) := by
  unfold call at h
  split at h
  · rename_i hvoid
    obtain ⟨_, s1, hp, h⟩ := bind_eq_ok h
    obtain ⟨rfl, rfl⟩ := pure_eq_ok h
    have hbelow : (Value.void).Below t.register := by
      intro x hx
      cases hx
    refine ⟨hbelow, realizes_perform hp ?_ ?_⟩
    · intro regs w e hargs he
      rw [apply_of_void hvoid] at he
      rw [Machine.operate_call hargs]
      cases hi : m.invoke f ds w with
      | error e' =>
        rw [hi] at he
        cases he
        rfl
      | ok c =>
        rw [hi] at he
        cases he
    · intro regs w x w' hargs he
      rw [apply_of_void hvoid] at he
      rw [Machine.operate_call hargs]
      cases hi : m.invoke f ds w with
      | error e' =>
        rw [hi] at he
        cases he
      | ok c =>
        rw [hi] at he
        cases he
        exact ⟨c.1, rfl, rfl⟩
  · rename_i hvoid
    obtain ⟨o, s1, ho, h⟩ := bind_eq_ok h
    obtain ⟨rfl, type, htype, rfl, hval⟩ := callValue_eq_ok (F := F) h
    refine ⟨below_ofOperand (emit_below ho), realizes_emit ho ?_ ?_⟩
    · intro regs w e hargs he
      rw [Machine.operate_call hargs]
      rcases apply_of_type hvoid htype hval ds w with ⟨ha, hi⟩ | ⟨x, d, w1, ha, -, -⟩
      · rw [ha] at he
        cases he
        exact hi
      · rw [ha] at he
        cases he
    · intro regs w x w' hargs he
      rw [Machine.operate_call hargs]
      rcases apply_of_type hvoid htype hval ds w with ⟨ha, -⟩ | ⟨x1, d, w1, ha, hi, hden⟩
      · rw [ha] at he
        cases he
      · rw [ha] at he
        cases he
        exact ⟨d, hi, fun regs' ho => hden regs' o ho⟩

def PassAll (m : Machine F) (regs : Registers F) (os : List Operand) (xs : List (Scalar F))
    (params : List Ty) : Prop :=
  ∃ ds, ((xs.zip params).mapM fun p => passed? p.1 p.2) = some ds ∧
    os.mapM (m.operand? regs) = some ds

theorem PassAll.cons {regs : Registers F} {x : Scalar F} {xs : List (Scalar F)} {params : List Ty}
    (h : Passes m regs o x param) (hs : PassAll m regs os xs params) :
    PassAll m regs (o :: os) (x :: xs) (param :: params) := by
  obtain ⟨d, hd, ho⟩ := h
  obtain ⟨ds, hds, hos⟩ := hs
  refine ⟨d :: ds, ?_, ?_⟩
  · simp [hd, hds]
  · simp [ho, hos]

theorem realizes_callPassed (xs : List (Scalar F)) (h : call pos f os s = .ok v t) :
    v.Below t.register ∧ Realizes m s t (fun regs => PassAll m regs os xs f.params)
      (fun w => Machine.need ((xs.zip f.params).mapM fun p => passed? p.1 p.2) >>=
        fun ds => apply m f ds w) (fun x regs => v.Denotes m regs x) := by
  obtain ⟨hbelow, hany⟩ := realizes_call (m := m) [] h
  refine ⟨hbelow, realizes_of_pre hany.mono fun regs hpre => ?_⟩
  obtain ⟨ds, hds, -⟩ := hpre
  obtain ⟨-, hcall⟩ := realizes_call (m := m) ds h
  rw [hds]
  refine hcall.weaken (fun regs' hpre => ?_) fun _ _ h => h
  obtain ⟨ds', hds', hos⟩ := hpre
  rw [hds] at hds'
  cases hds'
  exact hos

end Leaves

section Expressions

variable {F : Type} {m : Machine F} {c c' : Context} {s t : Emission}

theorem Realizes.carry {α : Type} {ref : World F → Except Trap (α × World F)}
    {post : α → Registers F → Prop} {p : Registers F → Prop}
    (h : Realizes m s t anyRegisters ref post) (hp : Machine.StableBelow s.register p) :
    Realizes m s t p ref (fun a regs => p regs ∧ post a regs) :=
  (h.weaken (fun _ _ => trivial) fun _ _ h => h).keep hp

def LowersTo (m : Machine F) (s t : Emission) (v : Value)
    (ref : World F → Except Trap (Scalar F × World F)) : Prop :=
  v.Below t.register ∧ Realizes m s t anyRegisters ref (fun x regs => v.Denotes m regs x)

variable {s1 : Emission} {v : Value}

theorem lowersTo_binary {s2 : Emission} {op : Kind} {x y : Value} {left right : Expr}
    (hx : LowersTo m s s1 x (eval m c left)) (hy : LowersTo m s1 s2 y (eval m c right))
    (h : Numeric.binary op x y s2 = .ok v t) (pos : Position) :
    LowersTo m s t v (eval m c (.binary pos op left right)) := by
  have hxb : x.Below s2.register := hx.1.mono hy.2.mono.register
  have hop (a b : Scalar F) := realizes_binary (m := m) a b h hxb hy.1
  have hm := (hop .void .void).2.mono
  have hboth (a : Scalar F) := (hy.2.carry (Value.denotes_stable hx.1 a)).append hm
    fun b => (hop a b).2
  rw [eval_binary]
  exact ⟨(hop .void .void).1, hx.2.append (hy.2.mono.trans hm) hboth⟩

theorem lowersTo_compare {ops : List Kind} {vs : List Value} {operands : List Expr}
    (hvs : ∀ u ∈ vs, u.Below s1.register)
    (hall : Realizes m s s1 anyRegisters (evalAll m c operands) fun xs regs => DenoteAll m regs vs xs)
    (h : Numeric.compare ops vs s1 = .ok v t) (pos : Position) :
    LowersTo m s t v (eval m c (.compare pos ops operands)) := by
  have hop (xs : List (Scalar F)) := realizes_compare (m := m) xs h hvs
  rw [eval_compare]
  exact ⟨(hop []).1, hall.append (hop []).2.mono fun xs => (hop xs).2⟩

theorem lowersTo_call {s2 : Emission} {name : String} {f : Callee} {first : Value} {arg : Expr}
    {args : List Expr} {os : List Operand} (pos pos' : Position)
    (hfirst : LowersTo m s s1 first (eval m c arg)) (hf : callee? c name (some first.type) = some f)
    (hargs : ∀ x, Realizes m s1 s2 (fun regs => first.Denotes m regs x) (evalAll m c args)
      fun xs regs => PassAll m regs os (x :: xs) f.params)
    (h : call pos f os s2 = .ok v t) :
    LowersTo m s t v (eval m c (.call pos (.name pos' name) (arg :: args))) := by
  have hcall (x : Scalar F) (xs : List (Scalar F)) := realizes_callPassed (m := m) (x :: xs) h
  have hm := (hcall .void []).2.mono
  have hrest (x : Scalar F) : Realizes m s1 t (fun regs => first.Denotes m regs x)
      (fun w => Machine.need (callee? c name (some x.type)) >>= fun f =>
        evalAll m c args w >>= fun xs =>
          Machine.need (((x :: xs.1).zip f.params).mapM fun p => passed? p.1 p.2) >>= fun ds =>
            apply m f ds xs.2)
      (fun y regs => v.Denotes m regs y) := by
    refine realizes_of_pre ((hargs x).mono.trans hm) fun regs hd => ?_
    rw [Value.type_eq_of_denotes hd, hf]
    exact (hargs x).append hm fun xs => (hcall x xs).2
  rw [eval_call]
  exact ⟨(hcall .void []).1, hfirst.2.append ((hargs .void).mono.trans hm) hrest⟩

mutual

theorem lower_lowersTo (hc : c.operators = .numeric) (hext : c.Extends c') :
    ∀ (e : Expr) {s t : Emission} {v : Value}, lower c e s = .ok v t →
      LowersTo m s t v (eval m c' e)
  | .number pos value raw, s, t, v, h => by
    rw [lower] at h
    rw [eval_number]
    exact realizes_number h
  | .string pos value, s, t, v, h => by
    rw [lower] at h
    obtain ⟨hbelow, hr⟩ := realizes_string (m := m) h
    refine ⟨hbelow, hr.congr fun w => ?_⟩
    rw [eval]
    rfl
  | .bool pos b, s, t, v, h => by
    rw [lower] at h
    obtain ⟨rfl, rfl⟩ := pure_eq_ok h
    refine ⟨fun x hx => ?_, (realizes_pure fun regs _ => ⟨b, rfl, rfl⟩).congr fun w => ?_⟩
    · cases hx
      trivial
    · rw [eval]
      rfl
  | .none pos, s, t, v, h => by
    rw [lower] at h
    obtain ⟨rfl, rfl⟩ := pure_eq_ok h
    refine ⟨fun x hx => ?_, (realizes_pure fun regs _ => rfl).congr fun w => ?_⟩
    · cases hx
    · rw [eval]
      rfl
  | .ellipsis .., s, t, v, h | .logical .., s, t, v, h | .member .., s, t, v, h
  | .list .., s, t, v, h | .lambda .., s, t, v, h => by
    rw [lower] at h
    cases h
  | .unary pos op operand, s, t, v, h => by
    rw [lower] at h
    unfold negation at h
    split at h
    · rename_i p value raw
      rw [eval_negative]
      exact realizes_number h
    · cases h
  | .name pos id, s, t, v, h => by
    rw [lower] at h
    rw [eval_name]
    exact realizes_variable hext h
  | .binary pos op left right, s, t, v, h => by
    rw [lower] at h
    obtain ⟨x, s1, hx, h⟩ := bind_eq_ok h
    obtain ⟨y, s2, hy, h⟩ := bind_eq_ok h
    rw [hc] at h
    exact lowersTo_binary (lower_lowersTo hc hext left hx) (lower_lowersTo hc hext right hy)
      (locate_eq_ok h) pos
  | .compare pos ops operands, s, t, v, h => by
    rw [lower] at h
    obtain ⟨vs, s1, hvs, h⟩ := bind_eq_ok h
    rw [hc] at h
    obtain ⟨hbelow, hall⟩ := lowerAll_realizes hc hext operands hvs
    exact lowersTo_compare hbelow hall (locate_eq_ok h) pos
  | .call pos callee args, s, t, v, h => by
    cases callee with
    | name pos' name =>
      cases args with
      | nil =>
        rw [lower] at h
        obtain ⟨f, s1, hfun, hrest⟩ := bind_eq_ok h
        obtain ⟨_, s2, ha, hcall⟩ := bind_eq_ok hrest
        obtain ⟨rfl, hf⟩ := function_eq_ok hfun
        obtain ⟨hm, hnil, hreg⟩ := checkArity_extends ha
        obtain ⟨hbelow, hcall⟩ := realizes_call (m := m) [] hcall
        refine ⟨hbelow,
          ((hcall.after hm hnil hreg).weaken (fun _ _ => rfl) fun _ _ h => h).congr ?_⟩
        intro w
        rw [eval, callee?_of_extends hext, hf]
        rfl
      | cons arg args =>
        rw [lower] at h
        obtain ⟨first, s1, hfirst, hselect⟩ := bind_eq_ok h
        obtain ⟨f, s2, hfun, hcheck⟩ := bind_eq_ok hselect
        obtain ⟨_, s3, ha, hrest⟩ := bind_eq_ok hcheck
        obtain ⟨rfl, hf⟩ := function_eq_ok hfun
        obtain ⟨hm, hnil, hreg⟩ := checkArity_extends ha
        have hlow := lower_lowersTo hc hext arg hfirst
        have hcallee := (callee?_of_extends hext _ _).trans hf
        cases hparams : f.callee.params with
        | nil =>
          rw [hparams] at hrest
          obtain ⟨vs, s4, hvs, hcall⟩ := bind_eq_ok hrest
          refine lowersTo_call pos pos' hlow hcallee (fun x => ?_) hcall
          have hall := (lowerAll_realizes hc hext args hvs).2
          refine (hall.weaken (fun _ _ => trivial) fun xs regs _ => ?_).after hm hnil hreg
          rw [hparams]
          exact ⟨[], rfl, rfl⟩
        | cons param params =>
          rw [hparams] at hrest
          obtain ⟨o, s4, ho, hlast⟩ := bind_eq_ok hrest
          obtain ⟨os, s5, hos, hcall⟩ := bind_eq_ok hlast
          refine lowersTo_call pos pos' hlow hcallee (fun x => ?_) hcall
          have hb : first.Below s3.register := hlow.1.mono (by omega)
          obtain ⟨hob, hpass⟩ := realizes_passArgument (m := m) x ho hb
          have hrest := lowerArguments_realizes hc hext name args params hos
          have hall := hpass.append hrest.mono fun _ => hrest.carry (passes_stable hob x param)
          refine (hall.weaken (fun _ h => h) fun xs regs hp => ?_).after hm hnil hreg
          rw [hparams]
          exact PassAll.cons hp.1 hp.2
    | _ =>
      simp only [lower] at h
      cases h

theorem lowerAll_realizes (hc : c.operators = .numeric) (hext : c.Extends c') :
    ∀ (es : List Expr) {s t : Emission} {vs : List Value}, lowerAll c es s = .ok vs t →
      (∀ v ∈ vs, v.Below t.register) ∧
        Realizes m s t anyRegisters (evalAll m c' es) (fun xs regs => DenoteAll m regs vs xs)
  | [], s, t, vs, h => by
    rw [lowerAll] at h
    obtain ⟨rfl, rfl⟩ := pure_eq_ok h
    refine ⟨fun v hv => ?_, (realizes_pure fun regs _ => .nil).congr fun w => ?_⟩
    · cases hv
    · rw [evalAll]
      rfl
  | e :: es, s, t, vs, h => by
    rw [lowerAll] at h
    obtain ⟨v, s1, hv, h⟩ := bind_eq_ok h
    obtain ⟨vs', s2, hvs, h⟩ := bind_eq_ok h
    obtain ⟨rfl, rfl⟩ := pure_eq_ok h
    obtain ⟨hb, hr⟩ := lower_lowersTo hc hext e hv
    obtain ⟨hbs, hrs⟩ := lowerAll_realizes hc hext es hvs
    have hnext (x : Scalar F) : Realizes m s1 t (fun regs => v.Denotes m regs x)
        (fun w => (evalAll m c' es w).map fun xs => (x :: xs.1, xs.2))
        (fun xs regs => DenoteAll m regs (v :: vs') xs) :=
      (hrs.carry (Value.denotes_stable hb x)).map (x :: ·) fun xs regs hd => .cons hd.1 hd.2
    rw [evalAll_cons]
    refine ⟨?_, hr.append hrs.mono hnext⟩
    intro u hu
    rcases List.mem_cons.mp hu with rfl | hu
    · exact hb.mono hrs.mono.register
    · exact hbs u hu

theorem lowerArguments_realizes (hc : c.operators = .numeric) (hext : c.Extends c')
    (name : String) :
    ∀ (es : List Expr) (params : List Ty) {i : Nat} {s t : Emission} {os : List Operand},
      lowerArguments c name i params es s = .ok os t →
        Realizes m s t anyRegisters (evalAll m c' es) (fun xs regs => PassAll m regs os xs params)
  | [], params, i, s, t, os, h => by
    rw [lowerArguments] at h
    obtain ⟨rfl, rfl⟩ := pure_eq_ok h
    have hnil (regs : Registers F) : PassAll m regs [] [] params := ⟨[], by simp, rfl⟩
    refine (realizes_pure fun regs _ => hnil regs).congr fun w => ?_
    rw [evalAll]
    rfl
  | e :: es, params, i, s, t, os, h => by
    rw [lowerArguments] at h
    obtain ⟨v, s1, hv, h⟩ := bind_eq_ok h
    obtain ⟨hb, hr⟩ := lower_lowersTo hc hext e hv
    cases params with
    | nil =>
      have hrs := lowerArguments_realizes hc hext name es [] h
      have hnext (x : Scalar F) : Realizes m s1 t (fun regs => v.Denotes m regs x)
          (fun w => (evalAll m c' es w).map fun xs => (x :: xs.1, xs.2))
          (fun xs regs => PassAll m regs os xs []) := by
        refine (hrs.weaken (fun _ _ => trivial) fun _ _ h => h).map (x :: ·) fun xs regs hp => ?_
        simpa [PassAll] using hp
      rw [evalAll_cons]
      exact hr.append hrs.mono hnext
    | cons param params =>
      obtain ⟨o, s2, ho, hrest⟩ := bind_eq_ok h
      obtain ⟨os', s3, hos, hp⟩ := bind_eq_ok hrest
      obtain ⟨rfl, rfl⟩ := pure_eq_ok hp
      have hrs := lowerArguments_realizes hc hext name es params hos
      have hpass (x : Scalar F) := realizes_passArgument (m := m) x ho hb
      have hnext (x : Scalar F) : Realizes m s1 t (fun regs => v.Denotes m regs x)
          (fun w => (evalAll m c' es w).map fun xs => (x :: xs.1, xs.2))
          (fun xs regs => PassAll m regs (o :: os') xs (param :: params)) := by
        have hall := (hpass x).2.append hrs.mono fun _ =>
          hrs.carry (passes_stable (hpass x).1 x param)
        exact hall.map (x :: ·) fun xs regs hp => PassAll.cons hp.1 hp.2
      rw [evalAll_cons]
      exact hr.append ((hpass .void).2.mono.trans hrs.mono) hnext

end

end Expressions

end BoardPython.Lowering
