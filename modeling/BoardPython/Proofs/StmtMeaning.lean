import BoardPython.Proofs.StructuredFlow
import BoardPython.Proofs.TopLevelRuns
import BoardPython.Proofs.TypedEvaluation

/-! Lowering a statement keeps its meaning: the code that is added to the current block does what the
statement does. -/
namespace BoardPython.Lowering

open Ir (Block Datum Instr Machine Memory Operand Registers Slot Trap World)

namespace Body

structure Grows (b : Body) (code : List Instr) (b' : Body) : Prop where
  current : b'.current = b.current
  instrs : ∀ block, b.block? b.current = some block →
    b'.block? b.current = some { block with instrs := block.instrs ++ code }

variable {b b' b'' : Body} {code code' : List Instr}

theorem Grows.refl (b : Body) : b.Grows [] b :=
  ⟨rfl, fun block hb => by rw [hb, List.append_nil]⟩

theorem Grows.trans (h : b.Grows code b') (h' : b'.Grows code' b'') :
    b.Grows (code ++ code') b'' := by
  refine ⟨h'.current.trans h.current, fun block hb => ?_⟩
  have hb' := h.instrs block hb
  rw [← h.current] at hb'
  have hb'' := h'.instrs _ hb'
  rwa [h.current, List.append_assoc] at hb''

theorem grows_append (b : Body) (is : List Instr) (register : Nat) :
    b.Grows is { b.append b.current is with register := register } := by
  refine ⟨rfl, fun block hb => block?_append.trans ?_⟩
  rw [if_pos rfl, hb]
  rfl

theorem Grows.addedSince (h : b.Grows code b') (hopen : b.Open) :
    b.addedSince b' = code.filter (!·.isAlloca) := by
  obtain ⟨block, hb, -⟩ := hopen
  rw [Body.addedSince, Body.point, hb, h.instrs block hb]
  simp

end Body

section Steps

variable {F : Type} {m : Machine F} {env : Environment} {c : Context} {s s' : State}

theorem grows_absorb (s : State) (t : Emission) :
    s.frame.body.Grows t.instrs (s.absorb t).frame.body := Body.grows_append _ _ _

variable {v : Value} {o : Operand} {pos : Position} {e : Expr} {symbol : Symbol} {t : Emission}

theorem Realizes.exec {α : Type} {pre : Registers F → Prop}
    {ref : World F → Except Trap (α × World F)} {post : α → Registers F → Prop}
    (h : Realizes m s.emission t pre ref post) (hb : HoldsBytes m t.globals) {regs : Registers F}
    {w w' : World F} {a : α} (hp : pre regs) (he : ref w = .ok (a, w')) :
    ∃ regs', m.exec t.instrs regs w = .ok (regs', w') ∧ post a regs' := by
  obtain ⟨regs', hexec, -, hpost⟩ := (h.computes hb).value regs w a w' hp he
  exact ⟨regs', hexec, hpost⟩

theorem holdsBytes_absorb (h : HoldsBytes m (s.absorb t).progress.globals) :
    HoldsBytes m t.globals :=
  fun g hg => h g (List.mem_append_right _ hg)

theorem value_grows (hops : env.operators = .numeric) (hext : (s.context env).Extends c)
    (h : Lower.value env e s = .ok v s') (hb : HoldsBytes m s'.progress.globals) :
    v.Below s'.frame.body.register ∧ ∃ code, s.frame.body.Grows code s'.frame.body ∧
      ∀ regs w x w', eval m c e w = .ok (x, w') →
        ∃ regs', m.exec code regs w = .ok (regs', w') ∧ v.Denotes m regs' x := by
  obtain ⟨t, ht, rfl⟩ := value_eq_ok h
  obtain ⟨hbelow, hlow⟩ := lower_lowersTo (m := m) hops hext e ht
  refine ⟨hbelow, t.instrs, grows_absorb s t, fun regs w x w' he => ?_⟩
  exact hlow.exec (holdsBytes_absorb hb) trivial he

theorem stored?_of_denotes {regs : Registers F} {x : Scalar F} (h : v.Denotes m regs x)
    (ho : v.operand? = some o) :
    stored? x v.type = m.operand? regs o := by
  cases v with
  | void => cases ho
  | i8 o' | i16 o' =>
    cases ho
    obtain ⟨b, hb, rfl⟩ := h
    rw [hb, Value.type, stored?, BitVec.ofInt_toInt]
  | f32 o' =>
    cases ho
    obtain ⟨y, hy, rfl⟩ := h
    exact hy.symm
  | str o' =>
    cases ho
    obtain ⟨target, ht, rfl⟩ := h
    exact ht.symm
  | bool o' =>
    cases ho
    obtain ⟨b, hb, rfl⟩ := h
    exact hb.symm

theorem realizes_coerce {type : ValueType} {x : Emit Operand} {a : Scalar F} {d : Datum F}
    {s : Emission} (hx : Lower.coerce? v type = some x) (hd : stored? a type = some d)
    (h : x s = .ok o t) :
    Realizes m s t (fun regs => v.Denotes m regs a) (fun w => .ok (d, w))
      (fun d regs => m.operand? regs o = some d) := by
  have hsame {o' : Operand} (ho : v.operand? = some o') (htype : v.type = type)
      (h : (pure o' : Emit Operand) s = .ok o t) :
      Realizes m s t (fun regs => v.Denotes m regs a) (fun w => .ok (d, w))
        (fun d regs => m.operand? regs o = some d) := by
    obtain ⟨rfl, rfl⟩ := pure_eq_ok h
    refine realizes_pure fun regs hden => ?_
    rw [← stored?_of_denotes hden ho, htype, hd]
  unfold Lower.coerce? at hx
  split at hx <;> cases hx
  case h_2 o' =>
    refine realizes_of_pre (resize_extends h) fun regs hden => ?_
    obtain ⟨b, -, rfl⟩ := hden
    cases hd
    exact realizes_resize h fun regs hden => holdsInt_of_i8 hden
  case h_3 o' =>
    refine realizes_of_pre (resize_extends h) fun regs hden => ?_
    obtain ⟨b, -, rfl⟩ := hden
    cases hd
    exact realizes_resize h fun regs hden => holdsInt_of_i16 hden
  all_goals exact hsame rfl rfl h

theorem store_eq_ok (h : Lower.store pos symbol v s = .ok () s') :
    ∃ address x, symbol.address? = some address ∧ Lower.coerce? v symbol.type = some x ∧
      Lower.emit (do Emit.perform (.store (← x) address)) s = .ok () s' := by
  unfold Lower.store at h
  dsimp only at h
  split at h
  · cases h
  · cases ha : symbol.address? with
    | none =>
      rw [ha] at h
      cases h
    | some address =>
      cases hx : Lower.coerce? v symbol.type with
      | none =>
        rw [ha, hx] at h
        cases h
      | some x =>
        rw [ha, hx] at h
        exact ⟨address, x, rfl, rfl, h⟩

theorem store_grows (h : Lower.store pos symbol v s = .ok () s')
    (hb : HoldsBytes m s'.progress.globals) :
    ∃ slot code, symbol.slot? = some slot ∧ s.frame.body.Grows code s'.frame.body ∧
      ∀ regs w x d, v.Denotes m regs x → stored? x symbol.type = some d →
        ∃ regs', m.exec code regs w = .ok (regs', { w with memory := w.memory.set slot d }) := by
  obtain ⟨address, x, ha, hx, h⟩ := store_eq_ok h
  obtain ⟨slot, haddress, hslot⟩ := Symbol.slot?_of_address? ha
  obtain ⟨t, ht, rfl⟩ := emit_eq_ok h
  obtain ⟨o, t1, ho, hperform⟩ := bind_eq_ok ht
  refine ⟨slot, t.instrs, hslot, grows_absorb s t, fun regs w a d hden hd => ?_⟩
  have hstore (d : Datum F) : Realizes m t1 t (fun regs => m.operand? regs o = some d)
      (fun w => .ok ((), { w with memory := w.memory.set slot d })) fun _ _ => True := by
    refine realizes_perform hperform ?_ ?_
    · intro regs w e _ he
      cases he
    · intro regs w a w' hd he
      cases he
      exact ⟨none, Machine.operate_store hd haddress, trivial⟩
  have hall := (realizes_coerce hx hd ho).append (hstore d).mono hstore
  obtain ⟨regs', hexec, -⟩ := hall.exec (holdsBytes_absorb hb) hden rfl
  exact ⟨regs', hexec⟩

theorem HoldsBytes.mono {globals globals' : List Ir.Global} (h : HoldsBytes m globals')
    (hp : globals <+: globals') : HoldsBytes m globals :=
  fun g hg => h g (hp.subset hg)

theorem nonzero_grows {bits : Nat} {x : Operand}
    (h : Lower.emit (Emit.emit (.icmp .ne o (.const (.int bits 0)))) s = .ok x s')
    (hb : HoldsBytes m s'.progress.globals) :
    ∃ code, s.frame.body.Grows code s'.frame.body ∧ ∀ regs w n, HoldsInt m regs o bits n →
      ∃ regs', m.exec code regs w = .ok (regs', w) ∧ HoldsBool m regs' x (n != 0) := by
  obtain ⟨t, ht, rfl⟩ := emit_eq_ok h
  refine ⟨t.instrs, grows_absorb s t, fun regs w n hn => ?_⟩
  have hop : Numeric.order? .notEqual = some .ne := rfl
  have hzero (regs : Registers F) : HoldsInt m regs (.const (.int bits 0)) bits 0 :=
    ⟨BitVec.ofInt bits 0, rfl, by simp⟩
  exact (realizes_icmp hop ht fun regs hp => ⟨hp, hzero regs⟩).exec (holdsBytes_absorb hb) hn rfl

theorem condition_grows {x : Operand} (hops : env.operators = .numeric)
    (hext : (s.context env).Extends c) (h : Lower.condition env e s = .ok x s')
    (hb : HoldsBytes m s'.progress.globals) :
    ∃ code, s.frame.body.Grows code s'.frame.body ∧ ∀ regs w b w', test m c e w = .ok (b, w') →
      ∃ regs', m.exec code regs w = .ok (regs', w') ∧ HoldsBool m regs' x b := by
  obtain ⟨v, s1, hv, h⟩ := bind_eq_ok h
  have htruth : s1.progress.globals <+: s'.progress.globals ∧
      ∃ code, s1.frame.body.Grows code s'.frame.body ∧ ∀ regs w a b, v.Denotes m regs a →
        truth? m a = some b →
          ∃ regs', m.exec code regs w = .ok (regs', w) ∧ HoldsBool m regs' x b := by
    cases v with
    | bool o =>
      obtain ⟨rfl, rfl⟩ := pure_eq_ok h
      refine ⟨List.prefix_rfl, [], .refl _, fun regs w a b hden ht => ⟨regs, rfl, ?_⟩⟩
      obtain ⟨b', hb', rfl⟩ := hden
      cases ht
      exact hb'
    | i8 o | i16 o =>
      obtain ⟨code, hgrows, hexec⟩ := nonzero_grows h hb
      refine ⟨((Lower.plain_straight.emit _).of_ok h).progress.globals, code, hgrows, ?_⟩
      intro regs w a b hden ht
      obtain ⟨n, hn, rfl⟩ := hden
      cases ht
      exact hexec regs w n.toInt ⟨n, hn, rfl⟩
    | f32 o =>
      have hmono := ((Lower.plain_straight.emit _).of_ok h).progress.globals
      obtain ⟨t, ht, rfl⟩ := emit_eq_ok h
      refine ⟨hmono, t.instrs, grows_absorb s1 t, fun regs w a b hden htruth => ?_⟩
      obtain ⟨y, hy, rfl⟩ := hden
      cases htruth
      have hop : Numeric.order? .notEqual = some .ne := rfl
      exact (realizes_fcmp hop ht fun regs hp => ⟨hp, rfl⟩).exec (holdsBytes_absorb hb) hy rfl
    | str o | void => cases h
  obtain ⟨hmono, code', hgrows', htruth⟩ := htruth
  obtain ⟨-, code, hgrows, hvalue⟩ := value_grows hops hext hv (hb.mono hmono)
  refine ⟨code ++ code', hgrows.trans hgrows', fun regs w b w' ht => ?_⟩
  obtain ⟨a, ha, hb⟩ := test_eq_ok ht
  obtain ⟨regs1, hexec, hden⟩ := hvalue regs w a w' ha
  obtain ⟨regs2, hexec', hx⟩ := htruth regs1 w' a b hden hb
  refine ⟨regs2, ?_, hx⟩
  rw [Machine.exec_append, hexec]
  exact hexec'

theorem stored_grows {s1 s2 : State} (hops : env.operators = .numeric)
    (hext : (s.context env).Extends c) (hv : Lower.value env e s = .ok v s1)
    (hbody : s2.frame.body = s1.frame.body) (hmono : s1.progress.globals <+: s2.progress.globals)
    (h : Lower.store pos symbol v s2 = .ok () s') (hb : HoldsBytes m s'.progress.globals) :
    ∃ slot code, symbol.slot? = some slot ∧ s.frame.body.Grows code s'.frame.body ∧
      ∀ regs w x w1 d, eval m c e w = .ok (x, w1) → stored? x symbol.type = some d →
        ∃ regs', m.exec code regs w = .ok (regs', { w1 with memory := w1.memory.set slot d }) := by
  have hmono' := ((Lower.plain_straight.store pos symbol v).of_ok h).progress.globals
  obtain ⟨-, code, hgrows, hvalue⟩ := value_grows hops hext hv (hb.mono (hmono.trans hmono'))
  obtain ⟨slot, code', hslot, hgrows', hstore⟩ := store_grows h hb
  rw [hbody] at hgrows'
  refine ⟨slot, code ++ code', hslot, hgrows.trans hgrows', fun regs w x w1 d he hd => ?_⟩
  obtain ⟨regs1, hexec, hden⟩ := hvalue regs w x w1 he
  obtain ⟨regs2, hexec'⟩ := hstore regs1 w1 x d hden hd
  refine ⟨regs2, ?_⟩
  rw [Machine.exec_append, hexec]
  exact hexec'

end Steps

end BoardPython.Lowering
