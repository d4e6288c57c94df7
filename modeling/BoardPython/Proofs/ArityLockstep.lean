import BoardPython.Proofs.CoupledRuns

/-! Two ways to lower an expression, with an answer each to a wrong number of arguments, go in
lockstep: they do the same as long as there is nothing to warn about, and else the first one fails
and the second one warns. -/
namespace BoardPython

def Diagnostics.warnings (ds : Diagnostics) : List Diagnostic :=
  ds.items.filter (·.severity == .warning)

namespace Lowering

section Lockstep

variable {σ α β : Type}

def finalState : EStateM.Result Error σ α → σ
  | .ok _ s => s
  | .error _ s => s

def Faulty (faults : σ → Nat) (x : EStateM Error σ α) (s : σ) : Prop :=
  match x s with
  | .ok _ s' => faults s < faults s'
  | .error _ _ => True

/-- Two steps from one state: they do the same and no alarm is given, or the first one is faulty and
the second one gives an alarm. -/
def Parallel (faults alarms : σ → Nat) (x y : EStateM Error σ α) (s : σ) : Prop :=
  (x s = y s ∧ alarms (finalState (y s)) = alarms s) ∨
    (Faulty faults x s ∧ alarms s < alarms (finalState (y s)))

structure Lockstep (faults alarms : σ → Nat) (x y : EStateM Error σ α) : Prop where
  faults_le : ∀ s, faults s ≤ faults (finalState (x s))
  alarms_le : ∀ s, alarms s ≤ alarms (finalState (y s))
  parallel : ∀ s, Parallel faults alarms x y s

variable {faults alarms : σ → Nat} {x y : EStateM Error σ α} {f g : α → EStateM Error σ β}

theorem le_bind {measure : σ → Nat} (hx : ∀ s, measure s ≤ measure (finalState (x s)))
    (hf : ∀ a s, measure s ≤ measure (finalState (f a s))) (s : σ) :
    measure s ≤ measure (finalState ((x >>= f) s)) := by
  have hs := hx s
  cases h : x s with
  | error e s1 =>
    rw [h] at hs
    rw [bind_of_error h]
    exact hs
  | ok a s1 =>
    rw [h] at hs
    rw [bind_of_ok h]
    exact Nat.le_trans hs (hf a s1)

theorem Faulty.bind {s : σ} (h : Faulty faults x s)
    (hf : ∀ a s, faults s ≤ faults (finalState (f a s))) : Faulty faults (x >>= f) s := by
  unfold Faulty at h
  cases hx : x s with
  | error e s1 =>
    unfold Faulty
    rw [bind_of_error hx]
    trivial
  | ok a s1 =>
    rw [hx] at h
    have hle := hf a s1
    unfold Faulty
    rw [bind_of_ok hx]
    cases hfa : f a s1 with
    | error e s2 => trivial
    | ok b s2 =>
      rw [hfa] at hle
      exact Nat.lt_of_lt_of_le h hle

theorem Lockstep.bind (h : Lockstep faults alarms x y)
    (h' : ∀ a, Lockstep faults alarms (f a) (g a)) :
    Lockstep faults alarms (x >>= f) (y >>= g) where
  faults_le := le_bind h.faults_le fun a => (h' a).faults_le
  alarms_le := le_bind h.alarms_le fun a => (h' a).alarms_le
  parallel := by
    intro s
    rcases h.parallel s with ⟨heq, hquiet⟩ | ⟨hfaulty, halarm⟩
    · cases hy : y s with
      | error e s1 =>
        left
        rw [hy] at heq hquiet
        rw [bind_of_error heq, bind_of_error hy]
        exact ⟨rfl, hquiet⟩
      | ok a s1 =>
        -- Both are in the same state, so the rest decides.
        rw [hy] at heq hquiet
        have hquiet : alarms s1 = alarms s := hquiet
        have hfaults : faults s ≤ faults s1 := by
          have hs := h.faults_le s
          rwa [heq] at hs
        unfold Parallel Faulty
        rw [bind_of_ok heq, bind_of_ok hy, ← hquiet]
        rcases (h' a).parallel s1 with ⟨heq', hquiet'⟩ | ⟨hfaulty', halarm'⟩
        · exact .inl ⟨heq', hquiet'⟩
        · right
          refine ⟨?_, halarm'⟩
          unfold Faulty at hfaulty'
          cases hf : f a s1 with
          | error e s2 => trivial
          | ok b s2 =>
            rw [hf] at hfaulty'
            exact Nat.lt_of_le_of_lt hfaults hfaulty'
    · right
      refine ⟨hfaulty.bind fun a => (h' a).faults_le, ?_⟩
      cases hy : y s with
      | error e s1 =>
        rw [hy] at halarm
        rw [bind_of_error hy]
        exact halarm
      | ok a s1 =>
        rw [hy] at halarm
        rw [bind_of_ok hy]
        exact Nat.lt_of_lt_of_le halarm ((h' a).alarms_le s1)

theorem lockstep_of_quiet (hfaults : ∀ s, faults (finalState (x s)) = faults s)
    (halarms : ∀ s, alarms (finalState (x s)) = alarms s) : Lockstep faults alarms x x where
  faults_le s := Nat.le_of_eq (hfaults s).symm
  alarms_le s := Nat.le_of_eq (halarms s).symm
  parallel s := .inl ⟨rfl, halarms s⟩

theorem lockstep_pure (a : α) : Lockstep faults alarms (pure a : EStateM Error σ α) (pure a) :=
  lockstep_of_quiet (fun _ => rfl) fun _ => rfl

theorem lockstep_throw (e : Error) :
    Lockstep faults alarms (throw e : EStateM Error σ α) (throw e) :=
  lockstep_of_quiet (fun _ => rfl) fun _ => rfl

theorem lockstep_get : Lockstep faults alarms (get : EStateM Error σ σ) get :=
  lockstep_of_quiet (fun _ => rfl) fun _ => rfl

theorem lockstep_ite {c : Prop} [Decidable c] {x' y' : EStateM Error σ α}
    (h : Lockstep faults alarms x y) (h' : Lockstep faults alarms x' y') :
    Lockstep faults alarms (if c then x else x') (if c then y else y') := by
  split
  · exact h
  · exact h'

end Lockstep

def Emission.alarms (s : Emission) : Nat := (Diagnostics.mk s.warnings).warnings.length

abbrev Emit.Lockstep {α : Type} (x y : Emit α) : Prop :=
  Lowering.Lockstep (fun _ => 0) Emission.alarms x y

namespace Emit

variable {α : Type}

theorem lockstep_fail (pos : Position) (fault : Fault) :
    Emit.Lockstep (Emit.fail pos fault : Emit α) (Emit.fail pos fault) := lockstep_throw _

theorem lockstep_emit (op : Ir.Operation) : Emit.Lockstep (Emit.emit op) (Emit.emit op) :=
  lockstep_of_quiet (fun _ => rfl) fun _ => rfl

theorem lockstep_perform (op : Ir.Operation) : Emit.Lockstep (Emit.perform op) (Emit.perform op) :=
  lockstep_of_quiet (fun _ => rfl) fun _ => rfl

theorem lockstep_stringLiteral (value : Bytes) :
    Emit.Lockstep (Emit.stringLiteral value) (Emit.stringLiteral value) :=
  lockstep_of_quiet (fun _ => rfl) fun _ => rfl

theorem lockstep_locate {x y : Emit α} (pos : Position) (h : Emit.Lockstep x y) :
    Emit.Lockstep (Emit.locate pos x) (Emit.locate pos y) := by
  have hfinal (x : Emit α) (s : Emission) :
      finalState (Emit.locate pos x s) = finalState (x s) := by
    unfold Emit.locate
    cases x s <;> rfl
  refine ⟨fun s => Nat.le_refl _, fun s => ?_, fun s => ?_⟩
  · rw [hfinal]
    exact h.alarms_le s
  unfold Parallel
  rw [hfinal]
  rcases h.parallel s with ⟨heq, hquiet⟩ | ⟨hfaulty, halarm⟩
  · left
    refine ⟨?_, hquiet⟩
    unfold Emit.locate
    rw [heq]
  · right
    refine ⟨?_, halarm⟩
    unfold Faulty at hfaulty ⊢
    unfold Emit.locate
    cases hx : x s with
    | error e s1 => trivial
    | ok a s1 =>
      rw [hx] at hfaulty
      exact hfaulty

theorem lockstep_checkArity (c : Context) (pos : Position) (name : String) (params args : Nat) :
    Emit.Lockstep (checkArity { c with strict := true } pos name params args)
      (checkArity { c with strict := false } pos name params args) := by
  unfold checkArity
  apply lockstep_ite (lockstep_pure ())
  have halarm (s : Emission) : Emission.alarms (finalState (Emit.warn pos
      (Fault.arityDetail name params args) s)) = s.alarms + 1 := by
    change (List.filter _ (s.warnings ++ [_])).length = (List.filter _ s.warnings).length + 1
    simp
  refine ⟨fun s => Nat.le_refl _, fun s => ?_, fun s => .inr ⟨trivial, ?_⟩⟩
  · exact Nat.le_trans (Nat.le_succ _) (Nat.le_of_eq (halarm s).symm)
  · exact Nat.lt_of_lt_of_eq (Nat.lt_succ_self _) (halarm s).symm

end Emit

theorem Emit.lockstep_calculates : Calculates fun _ x => Emit.Lockstep x x where
  pure := lockstep_pure
  throw := lockstep_throw
  bind := Lockstep.bind
  emit op _ := Emit.lockstep_emit op
  locate pos _ := Emit.lockstep_locate pos

section Expressions

theorem lockstep_call (pos : Position) (f : Ir.Callee) (args : List Ir.Operand) :
    Emit.Lockstep (call pos f args) (call pos f args) := by
  unfold call
  apply lockstep_ite ((Emit.lockstep_perform _).bind fun _ => lockstep_pure _)
  exact (Emit.lockstep_emit _).bind fun x => Emit.lockstep_calculates.callValue pos f.result x

variable (c : Context)

theorem lockstep_stringValue (pos : Position) (value : Bytes) :
    Emit.Lockstep (stringValue { c with strict := true } pos value)
      (stringValue { c with strict := false } pos value) :=
  lockstep_ite ((Emit.lockstep_stringLiteral value).bind fun _ => lockstep_pure _)
    (Emit.lockstep_fail _ _)

theorem lockstep_variableValue (pos : Position) (name : String) :
    Emit.Lockstep (variableValue { c with strict := true } pos name)
      (variableValue { c with strict := false } pos name) := by
  have hresolve (strict : Bool) :
      Context.resolve? { c with strict := strict } name = c.resolve? name := rfl
  unfold variableValue
  rw [hresolve true, hresolve false]
  cases c.resolve? name with
  | none => exact Emit.lockstep_fail _ _
  | some s =>
    dsimp only
    cases s.address? with
    | none => exact lockstep_pure _
    | some address => exact (Emit.lockstep_emit _).bind fun _ => lockstep_pure _

theorem lockstep_function (pos : Position) (name : String) (first : Option ValueType) :
    Emit.Lockstep (function { c with strict := true } pos name first)
      (function { c with strict := false } pos name first) := by
  have hselect (strict : Bool) : { c with strict }.select? name first = c.select? name first := rfl
  rw [function_eq, function_eq, hselect true, hselect false]
  cases c.select? name first with
  | some f => exact lockstep_pure f
  | none => exact Emit.lockstep_fail _ _

variable {c}

theorem Emit.couples_lockstep (hops : c.operators = .numeric) :
    Emit.Couples { c with strict := true } { c with strict := false } id fun _ => Emit.Lockstep where
  calculates := Emit.lockstep_calculates
  bind := Lockstep.bind
  operators := hops
  operators' := hops
  params _ := rfl
  stringValue := lockstep_stringValue c
  variableValue := lockstep_variableValue c
  function pos name first _ _ h := (lockstep_function c pos name first).bind h
  checkArity := Emit.lockstep_checkArity c
  call pos f args := lockstep_call pos f.callee args

end Expressions

end Lowering

end BoardPython
