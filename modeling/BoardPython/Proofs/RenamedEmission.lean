import BoardPython.Proofs.ArityLockstep
import BoardPython.Proofs.Renaming

/-! Two runs that lower one expression, from other numbers on and with functions in other places,
emit the same code up to a renaming. The renaming need only fit the numbers that have been given so
far, so that later numbers can still be chosen freely. -/
namespace BoardPython.Lowering

open Ir (Callee Counter Instr Operand Operation Renaming)

section Agree

variable {σ α β γ δ : Type} {Q : α → β → σ → σ → Prop} {Q' : γ → δ → σ → σ → Prop}
variable {E : σ → σ → Prop}

inductive Agree (Q : α → β → σ → σ → Prop) (E : σ → σ → Prop) :
    EStateM.Result Error σ α → EStateM.Result Error σ β → Prop
  | ok {a : α} {b : β} {s t : σ} (h : Q a b s t) : Agree Q E (.ok a s) (.ok b t)
  | error {e : Error} {s t : σ} (h : E s t) : Agree Q E (.error e s) (.error e t)

theorem Agree.bind {x : EStateM Error σ α} {y : EStateM Error σ β} {f : α → EStateM Error σ γ}
    {g : β → EStateM Error σ δ} {s t : σ} (h : Agree Q E (x s) (y t))
    (hf : ∀ a b s' t', Q a b s' t' → Agree Q' E (f a s') (g b t')) :
    Agree Q' E ((x >>= f) s) ((y >>= g) t) := by
  generalize hx : x s = r at h
  generalize hy : y t = r' at h
  cases h with
  | ok hq =>
    rw [bind_of_ok hx, bind_of_ok hy]
    exact hf _ _ _ _ hq
  | error he =>
    rw [bind_of_error hx, bind_of_error hy]
    exact .error he

theorem Agree.mono {R : α → β → σ → σ → Prop} {F : σ → σ → Prop}
    {r : EStateM.Result Error σ α} {r' : EStateM.Result Error σ β} (h : Agree Q E r r')
    (hQ : ∀ a b s t, Q a b s t → R a b s t) (hE : ∀ s t, E s t → F s t) : Agree R F r r' := by
  cases h with
  | ok hq => exact .ok (hQ _ _ _ _ hq)
  | error he => exact .error (hE _ _ he)

end Agree

def Progress.count (p : Progress) : Counter → Nat
  | .ifs => p.ifs
  | .whiles => p.whiles
  | .returns => p.returns
  | .strings => p.strings

/-- Two runs to compare: where each of them starts, where the second one has the functions of the
first, and the renamings that take what is in the body before the start from one to the other. -/
structure Pairing where
  first : Progress
  second : Progress
  place : Equiv.Perm Nat
  admits : Renaming → Prop

namespace Pairing

/-- A renaming takes the numbers up to `n` that the first run has given to those of the second,
which are as many after its start. -/
structure Fits (P : Pairing) (k : Counter) (n : Nat) (ρ : Renaming) : Prop where
  place : ρ.place = P.place
  number : ∀ i, P.first.count k < i → i ≤ n →
    ρ.number k i + P.first.count k = i + P.second.count k

theorem Fits.mono {P : Pairing} {k : Counter} {m n : Nat} {ρ : Renaming} (h : P.Fits k n ρ)
    (hmn : m ≤ n) : P.Fits k m ρ :=
  ⟨h.place, fun i hlow hle => h.number i hlow (Nat.le_trans hle hmn)⟩

end Pairing

/-- Two emissions are alike: what the second one has added is what the first one has, renamed. At
least `low` string literals have been counted. -/
structure Emission.Alike (P : Pairing) (low : Nat) (e e' : Emission) : Prop where
  start : P.first.count .strings ≤ low
  floor : low ≤ e.strings
  strings : e'.strings + P.first.count .strings = e.strings + P.second.count .strings
  register : e'.register = e.register
  instrs : ∀ ρ, P.Fits .strings e.strings ρ → e'.instrs = e.instrs.map (Instr.rename ρ)
  globals : ∀ ρ, P.Fits .strings e.strings ρ → e'.globals = e.globals.map (Ir.Global.rename ρ)
  warnings : e'.warnings = e.warnings

namespace Emit

variable {α β γ δ : Type} {P : Pairing} {low : Nat}

/-- From emissions that are alike, two steps lead to such emissions; they fail with the same error,
or succeed, and then `r` takes the first result to the second. -/
def Mirrors (P : Pairing) (low : Nat) (r : α → β) (x : Emit α) (y : Emit β) : Prop :=
  ∀ e e', e.Alike P low e' →
    Agree (fun a b s t => b = r a ∧ s.Alike P low t) (·.Alike P low ·) (x e) (y e')

theorem mirrors_pure (r : α → β) (a : α) : Mirrors P low r (pure a) (pure (r a)) :=
  fun _ _ h => .ok ⟨rfl, h⟩

theorem mirrors_throw (r : α → β) (err : Error) :
    Mirrors P low r (throw err : Emit α) (throw err : Emit β) :=
  fun _ _ h => .error h

variable {r : α → β} {x : Emit α} {y : Emit β} {op op' : Operation}

theorem Mirrors.bind {q : γ → δ} {f : α → Emit γ} {g : β → Emit δ} (hx : Mirrors P low r x y)
    (hf : ∀ a, Mirrors P low q (f a) (g (r a))) : Mirrors P low q (x >>= f) (y >>= g) := by
  intro e e' h
  apply (hx e e' h).bind
  rintro a b s t ⟨rfl, hst⟩
  exact hf a s t hst

theorem Mirrors.locate (pos : Position) (h : Mirrors P low r x y) :
    Mirrors P low r (Emit.locate pos x) (Emit.locate pos y) := by
  intro e e' he
  have hagree := h e e' he
  unfold Emit.locate
  generalize x e = o at hagree ⊢
  generalize y e' = o' at hagree ⊢
  cases hagree with
  | ok hq => exact .ok hq
  | error he => exact .error he

theorem instrs_append {e e' : Emission} (h : e.Alike P low e') {i i' : Instr} {ρ : Renaming}
    (hρ : P.Fits .strings e.strings ρ) (hi : i' = i.rename ρ) :
    e'.instrs ++ [i'] = (e.instrs ++ [i]).map (Instr.rename ρ) := by
  rw [List.map_append, h.instrs ρ hρ, hi]
  rfl

theorem mirrors_emit (hop : ∀ ρ : Renaming, ρ.place = P.place → op' = op.rename ρ) :
    Mirrors P low id (Emit.emit op) (Emit.emit op') := by
  intro e e' h
  -- Some renaming has the right places, and none changes a type.
  have htype : op'.type = op.type := by
    rw [hop (.ofPlaces P.place) rfl, Operation.type_rename]
  refine .ok ⟨?_, { h with
    register := congrArg (· + 1) h.register
    instrs := fun ρ hρ => instrs_append h hρ ?_ }⟩
  · rw [h.register, htype]
    rfl
  · rw [h.register, hop ρ hρ.place]
    rfl

theorem mirrors_perform (hop : ∀ ρ : Renaming, ρ.place = P.place → op' = op.rename ρ) :
    Mirrors P low id (Emit.perform op) (Emit.perform op') := by
  intro e e' h
  refine .ok ⟨rfl, { h with instrs := fun ρ hρ => instrs_append h hρ ?_ }⟩
  rw [hop ρ hρ.place]
  rfl

theorem mirrors_warn (pos : Position) (message : String) :
    Mirrors P low id (Emit.warn pos message) (Emit.warn pos message) := by
  intro e e' h
  exact .ok ⟨rfl, { h with warnings := congrArg (· ++ _) h.warnings }⟩

theorem mirrors_stringLiteral (value : Bytes) :
    Mirrors P low id (Emit.stringLiteral value) (Emit.stringLiteral value) := by
  intro e e' h
  have hstart : P.first.count .strings ≤ e.strings := h.start.trans h.floor
  have hstrings := h.strings
  -- Both have counted as many literals since their starts, and so the next ones are a pair.
  have hname (ρ : Renaming) (hρ : P.Fits .strings (e.strings + 1) ρ) :
      literalName (e'.strings + 1) = ρ.literal (literalName (e.strings + 1)) := by
    have hnumber := hρ.number (e.strings + 1) (by omega) (Nat.le_refl _)
    have heq : e'.strings + 1 = ρ.number .strings (e.strings + 1) := by omega
    rw [heq, Renaming.literal_literalName]
  have hfits {ρ : Renaming} (hρ : P.Fits .strings (e.strings + 1) ρ) :
      P.Fits .strings e.strings ρ := hρ.mono (Nat.le_succ _)
  refine .ok ⟨congrArg (Operand.register · _) h.register, ?_⟩
  exact {
    start := h.start
    floor := Nat.le_succ_of_le h.floor
    strings := show e'.strings + 1 + _ = e.strings + 1 + _ by omega
    register := congrArg (· + 1) h.register
    instrs := fun ρ hρ => by
      apply instrs_append h (hfits hρ)
      change (⟨some e'.register, .firstByte (literalName (e'.strings + 1)) _⟩ : Instr) = _
      rw [hname ρ hρ, h.register]
      rfl
    globals := fun ρ hρ => by
      change e'.globals ++ [⟨literalName (e'.strings + 1), _, _, _, _⟩] =
        (e.globals ++ [(⟨literalName (e.strings + 1), _, _, _, _⟩ : Ir.Global)]).map _
      rw [List.map_append, h.globals ρ (hfits hρ), hname ρ hρ]
      rfl
    warnings := h.warnings }

theorem rename_of_isCalculation (hop : op.isCalculation = true) (ρ : Renaming) :
    op = op.rename ρ := by
  cases op <;> first | rfl | cases hop

theorem mirrors_calculates : Calculates fun _ x => Mirrors P low id x x where
  pure a := mirrors_pure id a
  throw err := mirrors_throw id err
  bind hx hf := hx.bind hf
  emit _ hop := mirrors_emit fun ρ _ => rename_of_isCalculation hop ρ
  locate pos _ hx := hx.locate pos

end Emit

def Signature.moved (place : Equiv.Perm Nat) (s : Signature) : Signature :=
  { s with callee := s.callee.moved place }

def FunctionTable.Alike (place : Equiv.Perm Nat) (t t' : FunctionTable) : Prop :=
  ∀ key, t'.find? key = (t.find? key).map (Signature.moved place)

/-- Names mean the same in two contexts, but functions are in other places. -/
structure Context.Alike (place : Equiv.Perm Nat) (c c' : Context) : Prop where
  globals : ∀ name, c'.globals.find? name = c.globals.find? name
  locals : c'.locals = c.locals
  globalNames : c'.globalNames = c.globalNames
  functions : c.functions.Alike place c'.functions
  strict : c'.strict = c.strict
  operators : c.operators = .numeric
  operators' : c'.operators = .numeric

namespace Emit

variable {P : Pairing} {low : Nat} {c c' : Context}

theorem mirrors_call (pos : Position) (f : Callee) (args : List Operand) :
    Mirrors P low id (call pos f args) (call pos (f.moved P.place) args) := by
  have hop (ρ : Renaming) (hρ : ρ.place = P.place) :
      Operation.call true (f.moved P.place) args = (Operation.call true f args).rename ρ := by
    rw [← hρ]
    rfl
  unfold call
  change Mirrors P low id _ (if f.result = .void then _ else _)
  split
  · exact (mirrors_perform hop).bind fun _ => mirrors_pure id _
  · exact (mirrors_emit hop).bind fun x => mirrors_calculates.callValue pos f.result x

theorem mirrors_stringValue (hc : c.Alike P.place c') (pos : Position) (value : Bytes) :
    Mirrors P low id (stringValue c pos value) (stringValue c' pos value) := by
  unfold stringValue
  rw [hc.locals]
  split
  · exact (mirrors_stringLiteral value).bind fun _ => mirrors_pure id _
  · exact mirrors_throw id _

theorem resolve?_of_alike {place : Equiv.Perm Nat} (hc : c.Alike place c') (name : String) :
    c'.resolve? name = c.resolve? name := by
  unfold Context.resolve? Scope.resolve?
  rw [hc.globalNames, hc.locals, hc.globals]

theorem mirrors_variableValue (hc : c.Alike P.place c') (pos : Position) (name : String) :
    Mirrors P low id (variableValue c pos name) (variableValue c' pos name) := by
  unfold variableValue
  rw [resolve?_of_alike hc]
  cases c.resolve? name with
  | none => exact mirrors_throw id _
  | some s =>
    dsimp only
    cases s.address? with
    | none => exact mirrors_pure id _
    | some address => exact (mirrors_emit fun _ _ => rfl).bind fun _ => mirrors_pure id _

theorem mirrors_function (hc : c.Alike P.place c') (pos : Position) (name : String)
    (first : Option ValueType) :
    Mirrors P low (Signature.moved P.place) (function c pos name first)
      (function c' pos name first) := by
  have hselect : c'.select? name first = (c.select? name first).map (·.moved P.place) := by
    have hfunctions (key : String) :
        c'.functions.find? key = (c.functions.find? key).map (·.moved P.place) := hc.functions key
    cases first <;> simp [Context.select?, hfunctions, Option.map_or]
  rw [function_eq, function_eq, hselect]
  cases c.select? name first with
  | some f => exact mirrors_pure _ f
  | none => exact mirrors_throw _ _

theorem mirrors_checkArity (hc : c.Alike P.place c') (pos : Position) (name : String)
    (params args : Nat) :
    Mirrors P low id (checkArity c pos name params args) (checkArity c' pos name params args) := by
  unfold checkArity
  rw [hc.strict]
  split
  · exact mirrors_pure id _
  · split
    · exact mirrors_throw id _
    · exact mirrors_warn pos _

theorem couples_mirrors (hc : c.Alike P.place c') :
    Couples c c' (Signature.moved P.place) fun _ => Mirrors P low id where
  calculates := mirrors_calculates
  bind hx hf := hx.bind hf
  operators := hc.operators
  operators' := hc.operators'
  params _ := rfl
  stringValue := mirrors_stringValue hc
  variableValue := mirrors_variableValue hc
  function pos name first _ _ h := (mirrors_function hc pos name first).bind h
  checkArity := mirrors_checkArity hc
  call pos f args := mirrors_call pos f.callee args

end Emit

end BoardPython.Lowering
