import BoardPython.Proofs.RenamedCompilation

/-! The order of definitions does not matter. Two definitions next to each other that declare no
names global can change places: the diagnostics are the same, and so is the module, but for the
numbers of the blocks and string literals of the two functions:
`Compilation.exchanged_of_swapped`. -/
namespace BoardPython

namespace Ir

/-- A renaming gives numbers between `mid` and `high` to what had numbers between `low` and `mid`,
and the other way round. -/
def Renaming.Exchanges (low mid high : Counter → Nat) (ρ : Renaming) : Prop :=
  ∀ k n, (low k < n → n ≤ mid k → ρ.number k n + mid k = n + high k) ∧
    (mid k < n → n ≤ high k → ρ.number k n + mid k = n + low k)

namespace Renaming

variable {low mid high : Counter → Nat} (place : Equiv.Perm Nat) (hlow : ∀ k, low k ≤ mid k)
  (hhigh : ∀ k, mid k ≤ high k)

def exchange (low mid high : Counter → Nat) (place : Equiv.Perm Nat) : Renaming :=
  ⟨fun k => rotation (low k) (mid k - low k) (high k - mid k), place⟩

include hlow hhigh

theorem exchanges_exchange : (exchange low mid high place).Exchanges low mid high := by
  intro k n
  have hl := hlow k
  have hh := hhigh k
  refine ⟨fun hn hn' => ?_, fun hn hn' => ?_⟩
  · change rotation _ _ _ n + _ = _
    rw [rotation_apply, if_pos (by omega)]
    omega
  · change rotation _ _ _ n + _ = _
    rw [rotation_apply, if_neg (by omega), if_pos (by omega)]
    omega

theorem number_exchange_of_outside {k : Counter} {n : Nat} (h : n ≤ low k ∨ high k < n) :
    (exchange low mid high place).number k n = n := by
  have hl := hlow k
  have hh := hhigh k
  change rotation _ _ _ n = n
  rw [rotation_apply, if_neg (by omega), if_neg (by omega)]

end Renaming

/-- Two functions next to each other have changed places. They are the same up to a renaming of
blocks and string literals; the other functions have the same text. -/
structure Module.Exchanged (k : Nat) (ρ : Renaming) (M M' : Module) : Prop where
  dataLayout : M'.dataLayout = M.dataLayout
  triple : M'.triple = M.triple
  place : ρ.place = Equiv.swap k (k + 1)
  globals : M'.globals.Perm (M.globals.map (Global.rename ρ))
  functions : ∀ i, M'.functions[ρ.place i]? = M.functions[i]?.map (Function.rename ρ)
  others : ∀ i, i ≠ k → i ≠ k + 1 →
    M'.functions[i]?.map Function.text = M.functions[i]?.map Function.text

end Ir

namespace Lowering

open Ir (Counter Function Renaming)

theorem perm_of_crosswise {α : Type} {xs ys as bs ms ns : List α} (h : (xs ++ as).Perm (ms ++ ns))
    (h' : (ns ++ ms).Perm (ys ++ bs)) (hab : bs.Perm as) : xs.Perm ys := by
  apply (List.perm_append_right_iff as).mp
  calc (xs ++ as).Perm (ms ++ ns) := h
    List.Perm _ (ns ++ ms) := List.perm_append_comm
    List.Perm _ (ys ++ bs) := h'
    List.Perm _ (ys ++ as) := hab.append_left ys

def Comparison.exchanging (C : Comparison) (low mid high : Counter → Nat) (i j : Nat) :
    Comparison where
  place := C.place
  since := high
  code n ρ := C.Keeps low ρ ∧ C.code n ρ ∧ (n = i ∨ n = j → ρ.Exchanges low mid high)
  literals ρ := C.Keeps low ρ ∧ C.literals ρ ∧ ρ.Exchanges low mid high

namespace Progress.Alike

variable {C : Comparison} {p q : Progress} {admits admits' : Renaming → Prop} {s s' t t' : State}

variable (admits) in
/-- One run goes from `p` to `s` and then to `s'`, and the other one goes from `q` to `t'` and then
to `t`. What is between two of them is given numbers by both runs, from another number on. -/
theorem fitsAll_exchange (h : p.Alike C q)
    (hsecond : s'.Alike (C.pairing s.progress q admits') s.progress.count t') {ρ : Renaming}
    (hplace : ρ.place = C.place)
    (hρ : ρ.Exchanges p.count s.progress.count s'.progress.count) :
    (C.pairing p t'.progress admits).FitsAll s.progress.count ρ ∧
      (C.pairing s.progress q admits').FitsAll s'.progress.count ρ := by
  have hcount (k : Counter) : t'.progress.count k + s.progress.count k =
      s'.progress.count k + q.count k := hsecond.count k
  refine ⟨fun k => ⟨hplace, fun n hlow hle => ?_⟩, fun k => ⟨hplace, fun n hlow hle => ?_⟩⟩
  · have hnumber := (hρ k n).1 hlow hle
    have hk := hcount k
    rw [h.count] at hk
    change _ + p.count k = n + t'.progress.count k
    omega
  · have hnumber := (hρ k n).2 hlow hle
    change _ + s.progress.count k = n + q.count k
    rw [hnumber, h.count]

theorem exchange (h : p.Alike C q) (hfirst : s.Alike (C.pairing p t'.progress admits) p.count t)
    (hsecond : s'.Alike (C.pairing s.progress q admits') s.progress.count t')
    (hscope : ∀ name, s'.progress.scope.find? name = s.progress.scope.find? name) (i j : Nat) :
    s'.progress.Alike (C.exchanging p.count s.progress.count s'.progress.count i j)
      t.progress where
  since _ := Nat.le_refl _
  count k := by
    have hcount : t.progress.count k + p.count k = s.progress.count k + t'.progress.count k :=
      hfirst.count k
    have hcount' : t'.progress.count k + s.progress.count k = s'.progress.count k + q.count k :=
      hsecond.count k
    rw [h.count] at hcount'
    omega
  scope name := (hfirst.scope name).trans (hscope name).symm
  diagnostics := perm_of_crosswise hfirst.diagnostics hsecond.diagnostics h.diagnostics
  globals ρ hρ hliterals := by
    obtain ⟨hkeeps, hold, hexchanges⟩ := hliterals
    obtain ⟨hfits, hfits'⟩ := h.fitsAll_exchange admits hsecond hρ.place hexchanges
    exact perm_of_crosswise (hfirst.globals ρ hfits) (hsecond.globals ρ hfits')
      (h.globals ρ hkeeps hold)

end Progress.Alike

namespace Compilation

variable {C : Comparison} {c c' : Compilation}

theorem progress_lowerDefinition (c : Compilation) (d : Definition) :
    (c.lowerDefinition d).progress = (c.bodyState d).progress := by
  rw [lowerDefinition_eq]

theorem functions_lowerDefinition (c : Compilation) (d : Definition) :
    (c.lowerDefinition d).functions = c.functions.modify d.signature.callee.id fun f =>
      { f with blocks := (c.bodyState d).frame.body.blocks } := by
  rw [lowerDefinition_eq]

theorem environment_lowerDefinition (c : Compilation) (d : Definition) :
    (c.lowerDefinition d).environment = c.environment :=
  c.environment_lowerItem (.definition d)

variable {d : Definition} {name name' : String}

theorem find?_lowerDefinition (c : Compilation) (hd : globalizedAll d.body = []) (name : String) :
    (c.lowerDefinition d).progress.scope.find? name = c.progress.scope.find? name := by
  rw [progress_lowerDefinition]
  exact c.find?_bodyState d (hd ▸ List.not_mem_nil)

/-- Two functions are lowered in one order and in the other. What the first run counts for each of
them, the second run counts too, from another number on. -/
theorem Alike.exchange (h : c.Alike C c') {e : Definition}
    (hid : d.signature.callee.id ≠ e.signature.callee.id) (hd : globalizedAll d.body = [])
    (he : globalizedAll e.body = []) :
    ((c.lowerDefinition d).lowerDefinition e).Alike
      (C.exchanging c.progress.count (c.lowerDefinition d).progress.count
        ((c.lowerDefinition d).lowerDefinition e).progress.count d.signature.callee.id
        e.signature.callee.id)
      ((c'.lowerDefinition (e.moved C.place)).lowerDefinition (d.moved C.place)) := by
  have hd' : globalizedAll (d.moved C.place).body = [] := hd
  have he' : globalizedAll (e.moved C.place).body = [] := he
  -- One function is lowered first in one run, and the other one in the other run.
  have hfirst : (c.bodyState d).Alike (C.pairing c.progress
      (c'.lowerDefinition (e.moved C.place)).progress fun _ => True) c.progress.count
      ((c'.lowerDefinition (e.moved C.place)).bodyState (d.moved C.place)) :=
    alike_bodyState (environment_lowerDefinition c' _ ▸ h.environment) h.init
      (fun name => (c'.find?_lowerDefinition he' name).trans (h.progress.scope name)) d
  have hsecond : ((c.lowerDefinition d).bodyState e).Alike (C.pairing
      (c.lowerDefinition d).progress c'.progress fun _ => True) (c.lowerDefinition d).progress.count
      (c'.bodyState (e.moved C.place)) :=
    alike_bodyState (environment_lowerDefinition c _ ▸ h.environment) h.init
      (fun name => (h.progress.scope name).trans (c.find?_lowerDefinition hd name).symm) e
  have hscope (name : String) := (c.lowerDefinition d).find?_lowerDefinition he name
  rw [progress_lowerDefinition] at hfirst hsecond
  simp only [progress_lowerDefinition] at hscope
  have hprogress := h.progress.exchange hfirst hsecond hscope d.signature.callee.id
    e.signature.callee.id
  rw [progress_lowerDefinition, progress_lowerDefinition]
  refine {
    init := h.init
    board := by simpa only [lowerDefinition_eq] using h.board
    environment := by
      simp only [environment_lowerDefinition]
      exact h.environment
    progress := by simpa only [progress_lowerDefinition] using hprogress
    length := by simp only [functions_lowerDefinition, List.length_modify, h.length]
    functions := fun i ρ hρ hcode => ?_
    top := by
      simp only [top_lowerDefinition]
      exact h.top
    body := fun ρ _ hcode => by
      simpa only [top_lowerDefinition] using h.body ρ hcode.1 hcode.2.1 }
  obtain ⟨hkeeps, hold, hexchanges⟩ := hcode
  have hfits (hi : i = d.signature.callee.id ∨ i = e.signature.callee.id) :=
    h.progress.fitsAll_exchange (fun _ => True) hsecond hρ.place (hexchanges hi)
  -- The two bodies go to different functions, so it does not matter which one goes first.
  have hne : C.place e.signature.callee.id ≠ C.place d.signature.callee.id := fun heq =>
    hid (C.place.injective heq).symm
  simp only [functions_lowerDefinition]
  change ((c'.functions.modify (C.place e.signature.callee.id) _).modify
    (C.place d.signature.callee.id) _)[C.place i]? = _
  rw [List.modify_modify_ne _ _ _ hne]
  refine getElem?_modify_moved
    (getElem?_modify_moved (h.functions i ρ hkeeps hold) _ fun hi => ?_) _ fun hi => ?_
  · exact congrArg Body.blocks (hfirst.body ρ trivial (hfits (.inl hi.symm)).1)
  · exact congrArg Body.blocks (hsecond.body ρ trivial (hfits (.inr hi.symm)).2)

theorem declareAll_append (xs ys : List Stmt) (c : Compilation) :
    c.declareAll (xs ++ ys) =
      (((c.declareAll xs).1.declareAll ys).1,
        (c.declareAll xs).2 ++ ((c.declareAll xs).1.declareAll ys).2) := by
  induction xs generalizing c with
  | nil => rfl
  | cons st xs ih =>
    cases st with
    | define pos name params returns body =>
      rw [List.cons_append, declareAll, declareAll]
      cases c.define pos name params returns body with
      | error e => exact ih (c.report e)
      | ok r =>
        dsimp only
        rw [ih]
        rfl
    | _ =>
      dsimp only [List.cons_append, declareAll]
      rw [ih]

theorem find?_extended_of_ne (c : Compilation) (hne : name ≠ name') (params : List String)
    (types : List ValueType) (result : ValueType) :
    (c.extended name params types result).table.find? name' = c.table.find? name' := by
  change (c.table.declare _ _).find? name' = _
  rw [FunctionTable.find?_declare_eq, if_neg hne, Option.or_none]

theorem newSignature_extended (c : Compilation) (name name' : String) (params params' : List String)
    (types types' : List ValueType) (result result' : ValueType) :
    (c.extended name' params' types' result').newSignature name params types result =
      (c.newSignature name params types result).moved
        (Equiv.swap c.functions.length (c.functions.length + 1)) := by
  simp [newSignature, extended, Signature.moved, Ir.Callee.moved]

theorem newSignature_eq_moved (c : Compilation) (name name' : String) (params params' : List String)
    (types types' : List ValueType) (result result' : ValueType) :
    c.newSignature name' params' types' result' =
      ((c.extended name params types result).newSignature name' params' types' result').moved
        (Equiv.swap c.functions.length (c.functions.length + 1)) := by
  simp [newSignature, extended, Signature.moved, Ir.Callee.moved]

theorem Alike.extended_exchange (h : c.Alike C c)
    (hplace : C.place = Equiv.swap c.functions.length (c.functions.length + 1)) (hne : name ≠ name')
    (params params' : List String) (types types' : List ValueType) (result result' : ValueType) :
    ((c.extended name params types result).extended name' params' types' result').Alike C
      ((c.extended name' params' types' result').extended name params types result) := by
  refine { h with
    environment := { h.environment with functions := fun key => ?_ }
    length := ?_
    functions := fun i ρ hρ hcode => ?_ }
  · have hkey : c.table.find? key = (c.table.find? key).map (Signature.moved C.place) :=
      h.environment.functions key
    change ((c.table.declare name' _).declare name _).find? key =
      (((c.table.declare name _).declare name' _).find? key).map _
    simp only [FunctionTable.find?_declare_eq, Option.map_or, ← hkey, Option.or_assoc]
    rw [newSignature_extended, ← hplace]
    congr 1
    -- At most one of the two names is the key.
    by_cases hname : name = key
    · have hname' : name' ≠ key := fun heq => hne (hname.trans heq.symm)
      simp [hname, hname']
    · by_cases hname' : name' = key
      · rw [if_pos hname', if_neg hname, if_neg hname, if_pos hname',
          newSignature_eq_moved c name name' params params' types types' result result', ← hplace]
        rfl
      · simp [hname, hname']
  · simp [Compilation.extended]
  · set f := declaration name params types result
    set g := declaration name' params' types' result'
    change (c.functions ++ [g] ++ [f])[C.place i]? = (c.functions ++ [f] ++ [g])[i]?.map _
    have hold := h.functions i ρ hρ hcode
    rw [hplace] at hold ⊢
    by_cases hi : i = c.functions.length
    · rw [hi, Equiv.swap_apply_left]
      simp
      rfl
    by_cases hi' : i = c.functions.length + 1
    · rw [hi', Equiv.swap_apply_right]
      simp
      rfl
    rw [Equiv.swap_apply_of_ne_of_ne hi hi', List.append_assoc, List.append_assoc] at *
    by_cases hlt : i < c.functions.length
    · rw [List.getElem?_append_left hlt, List.getElem?_append_left hlt]
      exact hold
    · rw [List.getElem?_eq_none (by simp; omega), List.getElem?_eq_none (by simp; omega)]
      rfl

theorem Alike.count_le_lowerDefinition (h : c.Alike C c') (d : Definition) (k : Counter) :
    c.progress.count k ≤ (c.lowerDefinition d).progress.count k := by
  rw [progress_lowerDefinition]
  exact (alike_bodyState h.environment h.init h.progress.scope d).floor k

end Compilation

/-- All functions are compared under all renamings that keep the numbers. -/
def Comparison.initial (place : Equiv.Perm Nat) : Comparison :=
  ⟨place, fun _ => 0, fun _ _ => True, fun _ => True⟩

/-- The functions in places `k` and `k + 1` have changed places, and there is a renaming to compare
them under. All others have only to know the new places. -/
structure Comparison.Exchanging (C : Comparison) (k : Nat) : Prop where
  place : C.place = Equiv.swap k (k + 1)
  exists_renaming : ∃ ρ, (∀ high, C.Keeps high ρ) ∧ (∀ i, C.code i ρ) ∧ C.literals ρ
  others : ∀ i, i ≠ k → i ≠ k + 1 → C.code i (.ofPlaces C.place)

theorem Comparison.exchanging_initial (k : Nat) {low mid high : Counter → Nat}
    (hlow : ∀ j, low j ≤ mid j) (hhigh : ∀ j, mid j ≤ high j) :
    ((initial (Equiv.swap k (k + 1))).exchanging low mid high k (k + 1)).Exchanging k := by
  have hexchanges := Renaming.exchanges_exchange (Equiv.swap k (k + 1)) hlow hhigh
  have hfixed {j : Counter} {n : Nat} (hn : n ≤ low j ∨ high j < n) :=
    Renaming.number_exchange_of_outside (Equiv.swap k (k + 1)) hlow hhigh hn
  have hkeeps : (initial (Equiv.swap k (k + 1))).Keeps low
      (.exchange low mid high (Equiv.swap k (k + 1))) := ⟨rfl, fun _ _ _ hn => hfixed (.inl hn)⟩
  refine ⟨rfl, ⟨.exchange low mid high (Equiv.swap k (k + 1)), fun _ => ⟨rfl, fun _ _ hn _ => ?_⟩,
    fun i => ⟨hkeeps, trivial, fun _ => hexchanges⟩, hkeeps, trivial, hexchanges⟩,
    fun i hi hi' => ?_⟩
  · exact hfixed (.inr hn)
  · exact ⟨⟨rfl, fun _ _ _ _ => rfl⟩, trivial, fun heq => (heq.elim hi hi').elim⟩

namespace Compilation

section Swap

variable {c : Compilation} {pos pos' : Position} {name name' : String} {params params' : List Param}
variable {returns returns' : Option String} {body body' : List Stmt} {e : Error}
  {r : ValueType × List ValueType} {first second : Stmt} {k : Nat}

theorem declareAll_swap (hne : name ≠ name')
    (h : checked (c.table.find? name).isSome pos name params returns = .error e)
    (h' : checked (c.table.find? name').isSome pos' name' params' returns' = .ok r)
    (after : List Stmt) :
    c.declareAll (.define pos name params returns body ::
        .define pos' name' params' returns' body' :: after) =
      c.declareAll (.define pos' name' params' returns' body' ::
        .define pos name params returns body :: after) := by
  have hlater : checked ((c.extended name' (params'.map (·.name)) r.2 r.1).table.find? name).isSome
      pos name params returns = .error e := by
    rw [find?_extended_of_ne _ hne.symm]
    exact h
  have hsooner : checked ((c.report e).table.find? name').isSome pos' name' params' returns' =
      .ok r := h'
  rw [declareAll_of_error h, declareAll_of_ok hsooner, declareAll_of_ok h',
    declareAll_of_error hlater]
  rfl

theorem errorCount_lt_declareAll
    (h : checked (c.table.find? name).isSome pos name params returns = .error e)
    (unit : List Stmt) : c.progress.errors <
      (c.declareAll (.define pos name params returns body ::
        unit)).1.progress.errors := by
  rw [declareAll_of_error h]
  exact c.errors_lt_declareAll_report e unit

/-- If one of two definitions is left out, the functions are in the same places in either order, and
there is an error. -/
theorem Alike.declareAll_swap_of_error (h : c.Alike (.initial 1) c) (hne : name ≠ name')
    (herror : ∀ r r', checked (c.table.find? name).isSome pos name params returns = .ok r →
      checked (c.table.find? name').isSome pos' name' params' returns' ≠ .ok r')
    (after : List Stmt)
    (hfirst : first = .define pos name params returns body)
    (hsecond : second = .define pos' name' params' returns' body') :
    ((c.declareAll (first :: second :: after)).1.Alike (.initial 1)
        (c.declareAll (second :: first :: after)).1 ∧
      (c.declareAll (second :: first :: after)).2 =
        (c.declareAll (first :: second :: after)).2.map (Item.moved 1)) ∧
      c.progress.errors <
        (c.declareAll (first :: second :: after)).1.progress.errors := by
  have hself (unit : List Stmt) := h.declareAll unit fun _ _ _ => rfl
  subst hfirst hsecond
  cases hF : checked (c.table.find? name).isSome pos name params returns with
  | error e =>
    refine ⟨?_, errorCount_lt_declareAll hF _⟩
    cases hG : checked (c.table.find? name').isSome pos' name' params' returns' with
    | error e' =>
      -- Both are left out, and only the order of their errors changes.
      have hreports : ((c.report e).report e').Alike (.initial 1) ((c.report e').report e) :=
        { (h.report e).report e' with
          progress := { ((h.report e).report e').progress with
            diagnostics := by
              change (_ ++ [_] ++ [_] : List Diagnostic).Perm (_ ++ [_] ++ [_])
              rw [List.append_assoc, List.append_assoc]
              exact (List.Perm.swap _ _ _).append_left _ } }
      have hG' : checked ((c.report e).table.find? name').isSome pos' name' params' returns' =
          .error e' := hG
      have hF' : checked ((c.report e').table.find? name).isSome pos name params returns =
          .error e := hF
      rw [declareAll_of_error hF, declareAll_of_error hG', declareAll_of_error hG,
        declareAll_of_error hF']
      exact hreports.declareAll after fun _ _ _ => rfl
    | ok r =>
      rw [← declareAll_swap hne hF hG after]
      exact hself _
  | ok r =>
    cases hG : checked (c.table.find? name').isSome pos' name' params' returns' with
    | error e' =>
      rw [← declareAll_swap hne.symm hG hF after]
      exact ⟨hself _, errorCount_lt_declareAll hG _⟩
    | ok r' => exact absurd hG (herror r r' hF)

variable (body body') in
/-- If both definitions are declared, their functions change places, and all later functions stay in
theirs. -/
theorem Alike.exists_declareAll (hk : c.functions.length = k)
    (h : c.Alike (.initial (Equiv.swap k (k + 1))) c) {r' : ValueType × List ValueType}
    (hne : name ≠ name') (hF : checked (c.table.find? name).isSome pos name params returns = .ok r)
    (hG : checked (c.table.find? name').isSome pos' name' params' returns' = .ok r')
    (after : List Stmt) :
    ∃ c1 c1' d e items, c.declareAll (.define pos name params returns body ::
          .define pos' name' params' returns' body' :: after) =
        (c1, .definition d :: .definition e :: items) ∧
      c.declareAll (.define pos' name' params' returns' body' ::
          .define pos name params returns body :: after) =
        (c1', .definition (e.moved (Equiv.swap k (k + 1))) ::
          .definition (d.moved (Equiv.swap k (k + 1))) ::
            items.map (Item.moved (Equiv.swap k (k + 1)))) ∧
      c1.Alike (.initial (Equiv.swap k (k + 1))) c1' ∧ k + 2 ≤ c1.functions.length ∧
      d.signature.callee.id = k ∧ e.signature.callee.id = k + 1 ∧ d.body = body ∧
      e.body = body' := by
  subst hk
  -- The names are different, so neither definition is in the way of the other.
  have hF' : checked ((c.extended name' (params'.map (·.name)) r'.2 r'.1).table.find? name).isSome
      pos name params returns = .ok r := by
    rw [find?_extended_of_ne _ hne.symm]
    exact hF
  have hG' : checked ((c.extended name (params.map (·.name)) r.2 r.1).table.find? name').isSome
      pos' name' params' returns' = .ok r' := by
    rw [find?_extended_of_ne _ hne]
    exact hG
  rw [declareAll_of_ok hF, declareAll_of_ok hG', declareAll_of_ok hG, declareAll_of_ok hF']
  set names := params.map (·.name)
  set names' := params'.map (·.name)
  have hdeclared := h.extended_exchange rfl hne names names' r.2 r'.2 r.1 r'.1
  have hlength : ((c.extended name names r.2 r.1).extended name' names' r'.2
      r'.1).functions.length = c.functions.length + 2 := by
    simp [Compilation.extended]
  obtain ⟨halike, hitems⟩ := hdeclared.declareAll after fun i hi _ =>
    Equiv.swap_apply_of_ne_of_ne (by omega) (by omega)
  refine ⟨_, _, _, _, _, rfl, ?_, halike, ?_, rfl, ?_, rfl, rfl⟩
  · rw [hitems, newSignature_extended,
      newSignature_eq_moved c name name' names names' r.2 r'.2 r.1 r'.1]
    rfl
  · rw [← hlength]
    exact (functions_declareAll after _).length_le
  · simp [Compilation.newSignature, Compilation.extended]

theorem exists_exchanging_lowerUnit {unit unit' : List Stmt} {c1 c1' : Compilation}
    {d e : Definition} {items items' : List Item}
    (hunit : c.declareAll unit = (c1, items ++ .definition d :: .definition e :: items'))
    (hunit' : c.declareAll unit' = (c1', items ++
      .definition (e.moved (Equiv.swap k (k + 1))) ::
        .definition (d.moved (Equiv.swap k (k + 1))) ::
          items'.map (Item.moved (Equiv.swap k (k + 1)))))
    (hitems : items = items.map (Item.moved (Equiv.swap k (k + 1))))
    (h : c1.Alike (.initial (Equiv.swap k (k + 1))) c1') (hd : d.signature.callee.id = k)
    (he : e.signature.callee.id = k + 1) (hbody : globalizedAll d.body = [])
    (hbody' : globalizedAll e.body = []) :
    ∃ C, (c.lowerUnit unit).Alike C (c.lowerUnit unit') ∧ C.Exchanging k := by
  have hid : d.signature.callee.id ≠ e.signature.callee.id := by omega
  -- The items before are the same in both; the two definitions are lowered crosswise.
  have hbefore := h.lowerItems items
  have hexchange := hbefore.exchange hid hbody hbody'
  have hlow := hbefore.count_le_lowerDefinition d
  have hhigh := (hbefore.lowerDefinition d).count_le_lowerDefinition e
  rw [hitems] at hunit'
  rw [hd, he] at hexchange
  refine ⟨_, Alike.lowerUnit_of_items hunit hunit' ?_,
    Comparison.exchanging_initial k hlow hhigh⟩
  rw [List.foldl_append, List.foldl_append]
  exact hexchange.lowerItems items'

theorem exists_alike_lowerUnit {before : List Stmt}
    (h : ∀ place : Equiv.Perm Nat,
      (∀ i < (c.declareAll before).1.functions.length, place i = i) → c.Alike (.initial place) c)
    (hne : name ≠ name') (hbody : globalizedAll body = []) (hbody' : globalizedAll body' = [])
    (after : List Stmt)
    (hfirst : first = .define pos name params returns body)
    (hsecond : second = .define pos' name' params' returns' body') :
    ∃ C, (c.lowerUnit (before ++ first :: second :: after)).Alike C
        (c.lowerUnit (before ++ second :: first :: after)) ∧
      (∀ i, (c.lowerUnit (before ++ first :: second :: after)).functions.length ≤ i →
        C.place i = i) ∧
      (C.Exchanging (c.declareAll before).1.functions.length ∨
        c.progress.errors < (c.lowerUnit
          (before ++ first :: second :: after)).progress.errors) := by
  have hbefore (place : Equiv.Perm Nat)
      (hplace : ∀ i < (c.declareAll before).1.functions.length, place i = i) :=
    (h place hplace).declareAll before fun i _ hi => hplace i hi
  have hle := (declares_declareAll before c).progress_extends.errorCount_le
  set c0 := (c.declareAll before).1
  set unit := before ++ first :: second :: after
  by_cases herror : ∀ r r', checked (c0.table.find? name).isSome pos name params returns = .ok r →
      checked (c0.table.find? name').isSome pos' name' params' returns' ≠ .ok r'
  · obtain ⟨halike, hitems⟩ := hbefore 1 fun _ _ => rfl
    obtain ⟨⟨hdeclared, hlater⟩, hlt⟩ :=
      halike.declareAll_swap_of_error hne herror after hfirst hsecond
    refine ⟨.initial 1, Alike.lowerUnit_of_items (declareAll_append ..) (declareAll_append ..) ?_,
      fun _ _ => rfl, .inr ?_⟩
    · rw [hlater]
      have hall := hdeclared.lowerItems
        ((c.declareAll before).2 ++ (c0.declareAll (first :: second :: after)).2)
      rw [List.map_append, ← hitems] at hall
      exact hall
    · have hlower := c.errorCount_declareAll_le unit
      rw [declareAll_append] at hlower
      exact hle.trans_lt (hlt.trans_le hlower)
  · push Not at herror
    obtain ⟨r, r', hF, hG⟩ := herror
    obtain ⟨halike, hitems⟩ := hbefore (Equiv.swap c0.functions.length (c0.functions.length + 1))
      fun i hi => Equiv.swap_apply_of_ne_of_ne (by omega) (by omega)
    subst hfirst hsecond
    obtain ⟨c1, c1', d, e, items, hunit, hunit', hdeclared, hlength, hd, he, rfl, rfl⟩ :=
      halike.exists_declareAll body body' rfl hne hF hG after
    have hall : c.declareAll unit = (c1, (c.declareAll before).2 ++
        .definition d :: .definition e :: items) := by
      rw [declareAll_append, hunit]
    obtain ⟨C, hC, hexchanging⟩ := exists_exchanging_lowerUnit hall
      (by rw [declareAll_append, hunit']) hitems hdeclared hd he hbody hbody'
    refine ⟨C, hC, fun i hi => ?_, .inl hexchanging⟩
    rw [length_lowerUnit, hall] at hi
    have hi' : c0.functions.length + 2 ≤ i := hlength.trans hi
    rw [hexchanging.place]
    exact Equiv.swap_apply_of_ne_of_ne (by omega) (by omega)

end Swap

section Outcome

variable {C : Comparison} {c c' : Compilation} {k : Nat}

theorem Alike.functions_toModule (h : c.Alike C c') {i : Nat} {ρ : Renaming}
    (hkeeps : C.Keeps c.progress.count ρ) (hcode : C.code i ρ) :
    c'.toModule.functions[C.place i]? = c.toModule.functions[i]?.map (Function.rename ρ) := by
  have hmoved := getElem?_modify_moved (h.functions i ρ hkeeps hcode) initCallee.id fun hi =>
    congrArg Body.blocks (h.body ρ hkeeps (hi ▸ hcode))
  rw [h.init] at hmoved
  exact hmoved

theorem Alike.exists_exchanged (h : c.Alike C c') (hC : C.Exchanging k) :
    ∃ ρ, c.toModule.Exchanged k ρ c'.toModule := by
  obtain ⟨ρ, hkeeps, hcode, hliterals⟩ := hC.exists_renaming
  have hplace : ρ.place = C.place := (hkeeps c.progress.count).place
  refine ⟨ρ, {
    dataLayout := congrArg Board.dataLayout h.board
    triple := congrArg Board.triple h.board
    place := hplace.trans hC.place
    globals := h.progress.globals ρ (hkeeps _) hliterals
    functions := fun i => hplace ▸ h.functions_toModule (hkeeps _) (hcode i)
    others := fun i hi hi' => ?_ }⟩
  have hfixed : C.place i = i := by
    rw [hC.place, Equiv.swap_apply_of_ne_of_ne hi hi']
  -- No number changes here, and the place of a called function is not part of the text.
  have hother := h.functions_toModule ⟨rfl, fun _ _ _ _ => rfl⟩ (hC.others i hi hi')
  rw [hfixed] at hother
  rw [hother, Option.map_map]
  congr 1
  funext f
  exact f.text_rename_ofPlaces C.place

theorem Alike.errorCount_eq (h : c.Alike C c') :
    c'.progress.errors = c.progress.errors :=
  (h.progress.diagnostics.filter _).length_eq

theorem Alike.isSome_module? (h : c.Alike C c') : c'.module?.isSome = c.module?.isSome := by
  have herrors : c'.diagnostics.hasErrors = c.diagnostics.hasErrors := by
    change decide (c'.progress.errors ≠ 0) = _
    rw [h.errorCount_eq]
    rfl
  unfold module?
  rw [herrors]
  split <;> rfl

theorem alike_lowerUnits (board : Board) (strict : Bool) (units : List (List Stmt))
    {place : Equiv.Perm Nat} (hplace : ∀ i <
      (units.foldl lowerUnit (start board strict .numeric)).functions.length, place i = i) :
    (units.foldl lowerUnit (start board strict .numeric)).Alike (.initial place)
      (units.foldl lowerUnit (start board strict .numeric)) := by
  have hle := (functions_lowerUnits units (start board strict .numeric)).length_le
  have hstart := alike_start (C := .initial place) board strict
    (fun i hi => hplace i (hi.trans_le hle)) fun _ => rfl
  exact hstart.lowerUnits units fun i _ hlt => hplace i hlt

section Places

variable {board : Board} {strict : Bool} {earlier later : List (List Stmt)}
variable {before after : List Stmt}

theorem length_declareAll_lowerUnits (hno : ((earlier ++ (before ++ after) :: later).foldl lowerUnit
      (start board strict .numeric)).progress.errors = 0) :
    ((earlier.foldl lowerUnit (start board strict .numeric)).declareAll before).1.functions.length =
      initCallee.id + 1 + (definitions (earlier.flatten ++ before)).length := by
  have hearlier := length_functions_lowerUnits earlier (start board strict .numeric)
  rw [List.foldl_append, List.foldl_cons] at hno
  set c := earlier.foldl lowerUnit (start board strict .numeric)
  have hbefore := (declares_declareAll before c).progress_extends.errorCount_le
  have hafter : (c.declareAll before).1.progress.errors ≤
      (c.declareAll (before ++ after)).1.progress.errors := by
    rw [declareAll_append]
    exact (declares_declareAll after _).progress_extends.errorCount_le
  have hunit := c.errorCount_declareAll_le (before ++ after)
  have hlater := (extends_lowerUnits later (c.lowerUnit (before ++ after))).errorCount_le
  have hlength := (stands_declareAll before c (by omega)).1
  have hstart : (start board strict .numeric).functions.length = initCallee.id + 1 := rfl
  rw [hlength, hearlier (by omega), hstart, definitions_append, List.length_append, Nat.add_assoc]

theorem length_definitions_concat (unit : List Stmt) {st : Stmt} (hst : st.defined?.isSome) :
    (definitions (unit ++ [st])).length = (definitions unit).length + 1 := by
  simp [definitions, hst]

theorem exists_named_of_module? {pos : Position} {name : String} {params : List Param}
    {returns : Option String} {body : List Stmt} {M : Ir.Module}
    (hM : ((earlier ++ (before ++ .define pos name params returns body :: after) :: later).foldl
      lowerUnit (start board strict .numeric)).module? = some M) :
    ∃ f, M.functions[initCallee.id + 1 + (definitions (earlier.flatten ++ before)).length]? =
      some f ∧ f.name = name := by
  have hst : (before ++ .define pos name params returns body :: after)[before.length]? =
      some (.define pos name params returns body) := by simp
  obtain ⟨d, f, hf, hcompiled⟩ := compiled_of_module? hM hst rfl
  obtain ⟨-, -, -, hheader⟩ := hcompiled.made
  rw [List.take_left] at hf
  exact ⟨f, hf, congrArg Function.name hheader⟩

end Places

/-- **Definition order.** Two definitions of a unit that follow one another, have different names
and declare no name global change places. The diagnostics are the same, in some order; there is a
module or there is none, as before. In the module their functions have changed places too, and they
are the same up to the numbers of their blocks and string literals; no other function changes. -/
theorem exchanged_of_swapped {board : Board} {strict : Bool} {earlier later : List (List Stmt)}
    {before after : List Stmt} {first second : Stmt} {pos pos' : Position} {name name' : String}
    {params params' : List Param} {returns returns' : Option String} {body body' : List Stmt}
    {c c' : Compilation} (hfirst : first = .define pos name params returns body)
    (hsecond : second = .define pos' name' params' returns' body')
    (hc : (earlier ++ (before ++ first :: second :: after) :: later).foldl lowerUnit
      (start board strict .numeric) = c)
    (hc' : (earlier ++ (before ++ second :: first :: after) :: later).foldl lowerUnit
      (start board strict .numeric) = c')
    (hne : name ≠ name') (hbody : globalizedAll body = []) (hbody' : globalizedAll body' = []) :
    c'.diagnostics.items.Perm c.diagnostics.items ∧ c'.module?.isSome = c.module?.isSome ∧
      ∀ M M', c.module? = some M → c'.module? = some M' →
        ∃ k ρ f g, k = initCallee.id + 1 + (definitions (earlier.flatten ++ before)).length ∧
          M.functions[k]? = some f ∧ f.name = name ∧
          M.functions[k + 1]? = some g ∧ g.name = name' ∧ M.Exchanged k ρ M' := by
  subst hc hc'
  have hself (place : Equiv.Perm Nat)
      (hplace : ∀ i < ((earlier.foldl lowerUnit
        (start board strict .numeric)).declareAll before).1.functions.length, place i = i) :=
    alike_lowerUnits board strict earlier fun i hi =>
      hplace i (hi.trans_le (functions_declareAll before _).length_le)
  obtain ⟨C, hunit, hplace, hcases⟩ :=
    exists_alike_lowerUnit hself hne hbody hbody' after hfirst hsecond
  have halike := hunit.lowerUnits later fun i hi _ => hplace i hi
  rw [← List.foldl_cons, ← List.foldl_append, ← List.foldl_cons, ← List.foldl_append] at halike
  refine ⟨halike.progress.diagnostics, halike.isSome_module?, fun M M' hM hM' => ?_⟩
  obtain ⟨hno, hmodule⟩ := module?_eq_some hM
  obtain ⟨-, rfl⟩ := module?_eq_some hM'
  have hC := hcases.resolve_right fun hlt => ?_
  · rw [length_declareAll_lowerUnits hno] at hC
    obtain ⟨ρ, hexchanged⟩ := halike.exists_exchanged hC
    subst hfirst hsecond
    obtain ⟨f, hf, hname⟩ := exists_named_of_module? hM
    rw [List.append_cons before] at hM
    obtain ⟨g, hg, hname'⟩ := exists_named_of_module? hM
    rw [← List.append_assoc, length_definitions_concat _ rfl] at hg
    exact ⟨_, ρ, f, g, rfl, hf, hname, hg, hname', hmodule ▸ hexchanged⟩
  · -- An error in this unit would still be there.
    rw [List.foldl_append, List.foldl_cons] at hno
    have hlater := (extends_lowerUnits later ((earlier.foldl lowerUnit
      (start board strict .numeric)).lowerUnit
        (before ++ first :: second :: after))).errorCount_le
    omega

section Sample

/-- `def up(n): if n < limit: print("up"); down(n, 1)`. -/
def rising : Stmt :=
  .define ⟨2, 1⟩ "up" [⟨⟨2, 8⟩, "n", none⟩] none
    [.branch ⟨3, 5⟩ (.compare ⟨3, 8⟩ [.less] [.name ⟨3, 8⟩ "n", .name ⟨3, 12⟩ "limit"])
      [.evaluate ⟨4, 9⟩ (.call ⟨4, 9⟩ (.name ⟨4, 9⟩ "print")
          [.string ⟨4, 15⟩ (.ofString "up")]),
        .evaluate ⟨5, 9⟩ (.call ⟨5, 9⟩ (.name ⟨5, 9⟩ "down")
          [.name ⟨5, 14⟩ "n", .number ⟨5, 17⟩ (.int 1) "1"])] []]

/-- `def down(n): while n: n -= 1`, and then `if limit < n: print("down"); up(limit, 2)`. -/
def falling : Stmt :=
  .define ⟨6, 1⟩ "down" [⟨⟨6, 10⟩, "n", none⟩] none
    [.loop ⟨7, 5⟩ (.name ⟨7, 11⟩ "n")
        [.augment ⟨8, 9⟩ "n" .minus (.number ⟨8, 14⟩ (.int 1) "1")],
      .branch ⟨9, 5⟩ (.compare ⟨9, 8⟩ [.less] [.name ⟨9, 8⟩ "limit", .name ⟨9, 16⟩ "n"])
        [.evaluate ⟨10, 9⟩ (.call ⟨10, 9⟩ (.name ⟨10, 9⟩ "print")
            [.string ⟨10, 15⟩ (.ofString "down")]),
          .evaluate ⟨11, 9⟩ (.call ⟨11, 9⟩ (.name ⟨11, 9⟩ "up")
            [.name ⟨11, 12⟩ "limit", .number ⟨11, 19⟩ (.int 2) "2"])] []]

/-- `def setup(): if limit: up(limit)`. -/
def entering : Stmt :=
  .define ⟨12, 1⟩ "setup" [] none
    [.branch ⟨13, 5⟩ (.name ⟨13, 8⟩ "limit")
      [.evaluate ⟨14, 9⟩ (.call ⟨14, 9⟩ (.name ⟨14, 9⟩ "up") [.name ⟨14, 12⟩ "limit"])] []]

/-- `limit = 3`, two definitions, and the use of one of them. -/
def climbing (first second : Stmt) : Compilation :=
  ([] ++ ([Stmt.assign ⟨1, 1⟩ "limit" none (.number ⟨1, 9⟩ (.int 3) "3")] ++
    first :: second :: [entering]) :: []).foldl lowerUnit (start .uno false .numeric)

/-- Both functions have a branch, a string literal and a warning, and they call each other. -/
theorem climbing_exchanged :
    (climbing rising falling).diagnostics.items.length = 2 ∧
      (climbing falling rising).diagnostics.items.Perm
        (climbing rising falling).diagnostics.items ∧
      ∃ M M', (climbing rising falling).module? = some M ∧
        (climbing falling rising).module? = some M' ∧ M'.globals ≠ M.globals ∧
        ∃ ρ f g, M.functions[initCallee.id + 1]? = some f ∧ f.name = "up" ∧
          M.functions[initCallee.id + 2]? = some g ∧ g.name = "down" ∧
          M.Exchanged (initCallee.id + 1) ρ M' := by
  have hno : (climbing rising falling).diagnostics.hasErrors = false := by decide +kernel
  have hM : (climbing rising falling).module? = some _ := if_neg (Bool.eq_false_iff.mp hno)
  obtain ⟨hdiagnostics, hverdict, hmodules⟩ := exchanged_of_swapped (rfl : rising = _)
    (rfl : falling = _) (rfl : _ = climbing rising falling) (rfl : _ = climbing falling rising)
    (by decide) rfl rfl
  rw [hM] at hverdict
  obtain ⟨M', hM'⟩ := Option.isSome_iff_exists.mp hverdict
  obtain ⟨k, ρ, f, g, hk, hf, hname, hg, hname', hexchanged⟩ := hmodules _ M' hM hM'
  have hplace : k = initCallee.id + 1 := hk
  subst hplace
  obtain ⟨-, rfl⟩ := module?_eq_some hM'
  have hglobals : (climbing falling rising).toModule.globals ≠
      (climbing rising falling).toModule.globals := by decide +kernel
  have hwarnings : (climbing rising falling).diagnostics.items.length = 2 := by decide +kernel
  exact ⟨hwarnings, hdiagnostics, _, _, hM, hM', hglobals, ρ, f, g, hf, hname, hg, hname',
    hexchanged⟩

end Sample

end Outcome

end Compilation

end Lowering

end BoardPython
