import BoardPython.Proofs.ExprMeaning
import BoardPython.Proofs.LoweringSteps

/-! Overloads. The key of an overload says of which function it is and for which type, so a call to a
name that no function has by itself selects what was declared for the type of its first argument. -/
namespace BoardPython.Lowering

open Ir (Operand)

namespace ValueType

theorem isDigit_of_mem_repr {c : Char} {n : Nat} (h : c ∈ n.repr.toList) : c.isDigit = true := by
  rw [Nat.toList_repr] at h
  exact Nat.isDigit_of_mem_toDigits (by decide) (by decide) h

theorem repr_injective : Function.Injective Int.repr := by
  have hsign (m n : Nat) : m.repr ≠ "-" ++ n.repr := fun h => by
    have hmem : '-' ∈ m.repr.toList := by
      rw [h, String.toList_append]
      exact List.mem_append_left _ (by decide)
    exact absurd (isDigit_of_mem_repr hmem) (by decide)
  intro m n h
  cases m with
  | ofNat m =>
    cases n with
    | ofNat n => exact congrArg Int.ofNat (Nat.repr_inj.mp h)
    | negSucc n => exact absurd h (hsign m _)
  | negSucc m =>
    cases n with
    | ofNat n => exact absurd h.symm (hsign n _)
    | negSucc n =>
      have hrepr := Nat.repr_inj.mp ((String.append_right_inj _).mp h)
      exact congrArg Int.negSucc (Nat.succ.inj hrepr)

theorem name_other (code : Int) : (other code).name = "ValueType(" ++ (code.repr ++ ")") :=
  String.append_assoc

theorem underscore_notMem_name (t : ValueType) : '_' ∉ t.name.toList := by
  have hdigits (n : Nat) : '_' ∉ n.repr.toList := fun h =>
    absurd (isDigit_of_mem_repr h) (by decide)
  cases t with
  | other code =>
    simp only [name_other, String.toList_append, List.mem_append, not_or]
    refine ⟨by decide, ?_, by decide⟩
    cases code with
    | ofNat n => exact hdigits n
    | negSucc n =>
      rw [Int.repr, String.toList_append]
      exact List.not_mem_append (by decide) (hdigits _)
  | _ => decide

theorem name_injective : Function.Injective name := by
  have hother (code : Int) : (other code).name.toList.head? = some 'V' := by
    rw [name_other, String.toList_append]
    rfl
  intro s t h
  cases s with
  | other m =>
    cases t with
    | other n =>
      rw [name_other, name_other] at h
      have hrepr := (String.append_left_inj _).mp ((String.append_right_inj _).mp h)
      exact congrArg other (repr_injective hrepr)
    | _ => exact absurd (h ▸ hother m) (by decide)
  | _ =>
    cases t with
    | other n => exact absurd (h ▸ hother n) (by decide)
    | _ => first | rfl | exact absurd h (by decide)

/-- The code that stands for a type. -/
def code : ValueType → Int
  | void => 0 | i8 => 1 | i16 => 2 | f32 => 3 | str => 4 | bool => 5
  | other code => code

theorem code_ofCode (n : Int) : (ofCode n).code = n := by
  cases n with
  | negSucc n => rfl
  | ofNat n => rcases n with _ | _ | _ | _ | _ | _ | n <;> rfl

end ValueType

theorem append_mark_inj {α : Type} {mark : α} {a b x y : List α} (hx : mark ∉ x) (hy : mark ∉ y)
    (h : a ++ mark :: x = b ++ mark :: y) : a = b ∧ x = y := by
  induction a generalizing b with
  | nil =>
    cases b with
    | nil => exact ⟨rfl, (List.cons.inj h).2⟩
    | cons d b => exact absurd ((List.cons.inj h).2 ▸ List.mem_append_right b List.mem_cons_self) hx
  | cons c a ih =>
    cases b with
    | nil =>
      exact absurd ((List.cons.inj h).2 ▸ List.mem_append_right a List.mem_cons_self) hy
    | cons d b =>
      obtain ⟨rfl, htail⟩ := List.cons.inj h
      obtain ⟨rfl, rfl⟩ := ih htail
      exact ⟨rfl, rfl⟩

namespace FunctionTable

/-- The name of a type has no underscore, so it is what follows the last one of the key. -/
theorem overloadKey_injective : Function.Injective2 overloadKey := by
  intro a b s t h
  have hlist : (a.toList ++ ['_']) ++ '_' :: s.name.toList =
      (b.toList ++ ['_']) ++ '_' :: t.name.toList := by
    simpa [overloadKey] using congrArg String.toList h
  obtain ⟨hnames, htypes⟩ :=
    append_mark_inj s.underscore_notMem_name t.underscore_notMem_name hlist
  exact ⟨String.toList_inj.mp (List.append_cancel_right hnames),
    ValueType.name_injective (String.toList_inj.mp htypes)⟩

end FunctionTable

/-- An overload of a function, for first arguments of a type. -/
structure Overload where
  function : String
  first : ValueType
  signature : Signature

namespace FunctionTable

def overloaded (t : FunctionTable) (os : List Overload) : FunctionTable :=
  os.foldl (fun t o => t.declare (overloadKey o.function o.first) o.signature) t

/-- What is declared for first arguments of a type: by a table, or else by the first of the overloads
that are added to it. -/
def declared? (t : FunctionTable) (os : List Overload) (name : String) (first : ValueType) :
    Option Signature :=
  (t.find? (overloadKey name first)).or
    ((os.find? fun o => o.function = name ∧ o.first = first).map (·.signature))

theorem find?_overloaded (t : FunctionTable) (os : List Overload) (name : String)
    (first : ValueType) :
    (t.overloaded os).find? (overloadKey name first) = t.declared? os name first := by
  induction os generalizing t with
  | nil => simp [overloaded, declared?]
  | cons o os ih =>
    change ((t.declare _ _).overloaded os).find? _ = _
    rw [ih, declared?, declared?, find?_declare_eq, Option.or_assoc]
    congr 1
    by_cases h : o.function = name ∧ o.first = first
    · simp [h]
    · have hne : overloadKey o.function o.first ≠ overloadKey name first :=
        fun heq => h (overloadKey_injective heq)
      simp [h, hne]

end FunctionTable

open FunctionTable (overloadKey)

section Calls

variable {c : Context} {pos p : Position} {name : String} {arg : Expr} {args : List Expr}
  {s s1 s' : Emission} {first v : Value} {f : Signature} {b : Builtin} {t : ValueType}

theorem select?_of_overload (hplain : c.functions.find? name = none) (t : ValueType) :
    c.select? name (some t) = c.functions.find? (overloadKey name t) := by
  rw [Context.select?, hplain]
  rfl

theorem function_eq_ok_iff {first : Option ValueType} :
    function c p name first s = .ok f s ↔ c.select? name first = some f := by
  rw [function_eq]
  cases c.select? name first with
  | none => simp [Emit.fail, throw, throwThe, MonadExceptOf.throw, EStateM.throw]
  | some g => simp [pure, EStateM.pure]

theorem call_emits {f : Ir.Callee} {xs : List Operand} (h : call pos f xs s = .ok v s') :
    ∃ result, s'.instrs = s.instrs ++ [⟨result, .call true f xs⟩] := by
  unfold call at h
  split at h
  · cases h
    exact ⟨none, rfl⟩
  · obtain ⟨x, s1, hemit, hvalue⟩ := bind_eq_ok h
    cases hemit
    obtain ⟨rfl, -⟩ := callValue_eq_ok (F := Unit) hvalue
    exact ⟨some s.register, rfl⟩

/-- The last thing that a call emits is the call of what it has selected. -/
theorem lower_call_emits (harg : lower c arg s = .ok first s1)
    (h : lower c (.call pos (.name p name) (arg :: args)) s = .ok v s') :
    ∃ f instrs result xs, c.select? name (some first.type) = some f ∧
      s'.instrs = instrs ++ [⟨result, .call true f.callee xs⟩] := by
  rw [lower] at h
  obtain ⟨first', s1', hfirst, hselect⟩ := bind_eq_ok h
  cases harg.symm.trans hfirst
  obtain ⟨f, s2, hfun, hcheck⟩ := bind_eq_ok hselect
  obtain ⟨_, s3, -, hrest⟩ := bind_eq_ok hcheck
  obtain ⟨rfl, -⟩ := function_eq_ok hfun
  obtain ⟨s4, xs, hcall⟩ : ∃ s4 xs, call pos f.callee xs s4 = .ok v s' := by
    cases hparams : f.callee.params with
    | nil =>
      rw [hparams] at hrest
      obtain ⟨_, s4, -, hcall⟩ := bind_eq_ok hrest
      exact ⟨s4, [], hcall⟩
    | cons param params =>
      rw [hparams] at hrest
      obtain ⟨x, _, -, hlast⟩ := bind_eq_ok hrest
      obtain ⟨xs, s4, -, hcall⟩ := bind_eq_ok hlast
      exact ⟨s4, x :: xs, hcall⟩
  obtain ⟨result, hinstrs⟩ := call_emits hcall
  exact ⟨f, s4.instrs, result, xs, function_eq_ok_iff.mp hfun, hinstrs⟩

theorem pass?_self (h : v.type ∈ [.i8, .i16, .f32, .str]) :
    ∃ x, v.operand? = some x ∧ pass? v v.type.ir = some (pure x) := by
  cases v with
  | bool x => exact absurd (show ValueType.bool ∈ _ from h) (by decide)
  | void => exact absurd h (by decide)
  | _ x => exact ⟨x, rfl, rfl⟩

/-- The only overloads that every program has are those for printing. -/
theorem Builtin.overload (hb : b ∈ all) (h : b.key = overloadKey name t) :
    name = "print" ∧ b.params = [t] ∧ b.result = .void ∧ t ∈ [.i8, .i16, .f32, .str] := by
  have hmark : '_' ∈ b.key.toList := by
    rw [h, overloadKey, String.toList_append, String.toList_append]
    exact List.mem_append_left _ (List.mem_append_right _ (by decide))
  have hall : ∀ b ∈ all, '_' ∈ b.key.toList → ∃ t ∈ [ValueType.i8, .i16, .f32, .str],
      b.key = overloadKey "print" t ∧ b.params = [t] ∧ b.result = .void := by decide
  obtain ⟨t', ht', hkey, hparams, hresult⟩ := hall b hb hmark
  obtain ⟨rfl, rfl⟩ := FunctionTable.overloadKey_injective (h.symm.trans hkey)
  exact ⟨rfl, hparams, hresult, ht'⟩

/-- Arguments beyond the parameters are lowered, and none of them is passed. -/
theorem lowerArguments_nil (i : Nat) :
    lowerArguments c name i [] args = (do let _ ← lowerAll c args; return []) := by
  induction args generalizing i with
  | nil => simp only [lowerArguments, lowerAll, pure_bind]
  | cons e es ih => simp only [lowerArguments, lowerAll, ih, bind_assoc, pure_bind]

theorem lower_call_builtin (harg : lower c arg s = .ok first s1) (hb : b ∈ Builtin.all)
    (hkey : b.key = overloadKey name first.type) {id : Nat}
    (hselect : c.select? name (some first.type) = some (b.signature id)) :
    ∃ x, first.operand? = some x ∧
      lower c (.call pos (.name p name) (arg :: args)) s = (do
        checkArity c pos name 1 (args.length + 1)
        let _ ← lowerAll c args
        Emit.perform (.call true (b.signature id).callee [x])
        return .void : Emit Value) s1 := by
  obtain ⟨-, hparams, hresult, htype⟩ := Builtin.overload hb hkey
  obtain ⟨x, hx, hpass⟩ := pass?_self htype
  have hcallee : (b.signature id).callee.params = [first.type.ir] := by
    rw [Builtin.signature, hparams, List.map_singleton]
  have hvoid : (b.signature id).callee.result = .void := by rw [Builtin.signature, hresult]; rfl
  have hpassed : passArgument arg.position name 1 first first.type.ir = pure x := by
    rw [passArgument, hpass]
  refine ⟨x, hx, ?_⟩
  rw [lower, bind_of_ok harg, bind_of_ok (function_eq_ok_iff.mpr hselect), hcallee]
  simp only [hpassed, pure_bind, call, if_pos hvoid, lowerArguments_nil, bind_assoc,
    List.length_singleton]

end Calls

/-- Keys tell overloads apart, also those for types without a name. A call to a name that no function
has by itself fails if it has no arguments. Otherwise it selects what was declared for the type of
its first argument, and ends in a call of that or fails. An overload for printing is passed the first
argument as it was lowered. -/
theorem calls_select_overloads :
    Function.Injective2 overloadKey ∧
    (∀ a b m n, overloadKey a (.ofCode m) = overloadKey b (.ofCode n) → a = b ∧ m = n) ∧
    ∀ (c : Context) (t : FunctionTable) (os : List Overload) (pos p : Position) (name : String),
      c.functions = t.overloaded os → c.functions.find? name = none →
      (∀ s, lower c (.call pos (.name p name) []) s =
        .error (.located p (.undefinedFunction name)) s) ∧
      ∀ (arg : Expr) (args : List Expr) (s s1 : Emission) (first : Value),
        lower c arg s = .ok first s1 →
        (∀ f, function c p name (some first.type) s1 = .ok f s1 ↔
          t.declared? os name first.type = some f) ∧
        (t.declared? os name first.type = none →
          lower c (.call pos (.name p name) (arg :: args)) s =
            .error (.located p (.undefinedOverload name first.type)) s1) ∧
        (∀ v s', lower c (.call pos (.name p name) (arg :: args)) s = .ok v s' →
          ∃ f instrs result xs, t.declared? os name first.type = some f ∧
            s'.instrs = instrs ++ [⟨result, .call true f.callee xs⟩]) ∧
        ∀ b ∈ Builtin.all, ∀ id, b.key = overloadKey name first.type →
          t.declared? os name first.type = some (b.signature id) →
          name = "print" ∧ ∃ x, first.operand? = some x ∧
            lower c (.call pos (.name p name) (arg :: args)) s = (do
              checkArity c pos name 1 (args.length + 1)
              let _ ← lowerAll c args
              Emit.perform (.call true (b.signature id).callee [x])
              return .void : Emit Value) s1 := by
  refine ⟨FunctionTable.overloadKey_injective, fun a b m n h => ?_, ?_⟩
  · obtain ⟨hname, hcode⟩ := FunctionTable.overloadKey_injective h
    refine ⟨hname, ?_⟩
    rw [← ValueType.code_ofCode m, hcode, ValueType.code_ofCode]
  intro c t os pos p name hc hplain
  constructor
  · intro s
    rw [lower, function_eq, Context.select?, hplain]
    rfl
  intro arg args s s1 first harg
  have hselect : c.select? name (some first.type) = t.declared? os name first.type := by
    rw [select?_of_overload hplain, hc, FunctionTable.find?_overloaded]
  rw [← hselect]
  refine ⟨fun f => function_eq_ok_iff, fun hnone => ?_, fun v s' => lower_call_emits harg, ?_⟩
  · rw [lower, bind_of_ok harg, function_eq, hnone]
    rfl
  · intro b hb id hkey hdeclared
    exact ⟨(Builtin.overload hb hkey).1, lower_call_builtin harg hb hkey hdeclared⟩

theorem calls_select_overloads_printed :
    let show16 := Builtin.signature ⟨"show", "show_i16", [.i16], .void⟩ 10
    let c : Context := ⟨.empty, none, [], Builtin.table.overloaded [⟨"show", .i16, show16⟩], true,
      .numeric⟩
    let print16 : Builtin := ⟨overloadKey "print" .i16, "dsp_print_i16", [.i16], .void⟩
    let seven : Expr := .number ⟨1, 7⟩ (.int 7) "7"
    function c ⟨1, 1⟩ "show" (some .i16) (.start 0 0) = .ok show16 (.start 0 0) ∧
    (lower c (.call ⟨1, 1⟩ (.name ⟨1, 1⟩ "show") []) (.start 0 0) =
      .error (.located ⟨1, 1⟩ (.undefinedFunction "show")) (.start 0 0)) ∧
    ∃ x, (Value.i16 (.const (.int 16 7))).operand? = some x ∧
      lower c (.call ⟨1, 1⟩ (.name ⟨1, 1⟩ "print") [seven]) (.start 0 0) = (do
        checkArity c ⟨1, 1⟩ "print" 1 1
        let _ ← lowerAll c []
        Emit.perform (.call true (print16.signature 7).callee [x])
        return .void : Emit Value) (.start 0 0) := by
  intro show16 c print16 seven
  have hshow := calls_select_overloads.2.2 c Builtin.table _ ⟨1, 1⟩ ⟨1, 1⟩ "show" rfl (by decide)
  have hprint := calls_select_overloads.2.2 c Builtin.table _ ⟨1, 1⟩ ⟨1, 1⟩ "print" rfl (by decide)
  refine ⟨((hshow.2 seven [] _ _ _ rfl).1 show16).mpr (by decide), hshow.1 _, ?_⟩
  exact ((hprint.2 seven [] _ _ _ rfl).2.2.2 print16 (by decide) 7 rfl (by decide)).2

end BoardPython.Lowering
