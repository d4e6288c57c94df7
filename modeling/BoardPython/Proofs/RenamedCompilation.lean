import BoardPython.Proofs.RenamedLowering

/-! Two compilations that are alike stay so, whatever unit both of them go on with: the second one
has the functions of the first in other places, and its code is that of the first one, renamed. -/
namespace BoardPython.Lowering

open Ir (Block Counter Function Renaming)

/-- How two compilations are compared: where the second one has the functions of the first, from
which numbers on both give the same, and under which renamings the function in a place and the
globals are compared. -/
structure Comparison where
  place : Equiv.Perm Nat
  since : Counter → Nat
  code : Nat → Renaming → Prop
  literals : Renaming → Prop

namespace Comparison

/-- A renaming that leaves the later ones of the numbers that have been given as they are. -/
structure Keeps (C : Comparison) (high : Counter → Nat) (ρ : Renaming) : Prop where
  place : ρ.place = C.place
  number : ∀ k n, C.since k < n → n ≤ high k → ρ.number k n = n

theorem Keeps.mono {C : Comparison} {low high : Counter → Nat} {ρ : Renaming}
    (h : C.Keeps high ρ) (hle : ∀ k, low k ≤ high k) : C.Keeps low ρ :=
  ⟨h.place, fun k n hn hlow => h.number k n hn (hlow.trans (hle k))⟩

def pairing (C : Comparison) (p p' : Progress) (admits : Renaming → Prop) : Pairing :=
  ⟨p, p', C.place, admits⟩

end Comparison

theorem State.alike_start (P : Pairing) {f f' : Frame}
    (hscope : ∀ name, P.second.scope.find? name = P.first.scope.find? name)
    (hframe : f.Alike P.place f')
    (hbody : ∀ ρ, P.admits ρ → f'.body = f.body.rename ρ) :
    State.Alike P P.first.count ⟨P.first, f⟩ ⟨P.second, f'⟩ where
  start _ := Nat.le_refl _
  floor _ := Nat.le_refl _
  count _ := Nat.add_comm ..
  scope := hscope
  diagnostics := List.perm_append_comm
  globals _ _ := List.perm_append_comm
  frame := hframe
  body ρ hadmits _ := hbody ρ hadmits

theorem Frame.alike_ofSignature (place : Equiv.Perm Nat) (s : Signature) :
    (ofSignature s).Alike place (ofSignature (s.moved place)) := ⟨rfl, rfl, rfl, rfl⟩

/-- What has become of two modules is alike: the second has the same variables, and diagnostics and
globals in another order. -/
structure Progress.Alike (C : Comparison) (p p' : Progress) : Prop where
  since : ∀ k, C.since k ≤ p.count k
  count : ∀ k, p'.count k = p.count k
  scope : ∀ name, p'.scope.find? name = p.scope.find? name
  diagnostics : p'.diagnostics.items.Perm p.diagnostics.items
  globals : ∀ ρ, C.Keeps p.count ρ → C.literals ρ →
    p'.globals.Perm (p.globals.map (Ir.Global.rename ρ))

namespace Progress.Alike

variable {C : Comparison} {p p' : Progress} {admits : Renaming → Prop} {s t : State}

theorem fitsAll (h : p.Alike C p') {high : Counter → Nat} {ρ : Renaming} (hρ : C.Keeps high ρ) :
    (C.pairing p p' admits).FitsAll high ρ := by
  intro k
  refine ⟨hρ.place, fun i hlow hle => ?_⟩
  change ρ.number k i + p.count k = i + p'.count k
  rw [hρ.number k i ((h.since k).trans_lt hlow) hle, h.count]

theorem of_state (h : p.Alike C p') (hst : s.Alike (C.pairing p p' admits) p.count t) :
    s.progress.Alike C t.progress where
  since k := (h.since k).trans (hst.floor k)
  count k := by
    have hcount : t.progress.count k + p.count k = s.progress.count k + p'.count k := hst.count k
    rw [h.count] at hcount
    exact Nat.add_right_cancel hcount
  scope := hst.scope
  diagnostics := by
    have hitems : (t.progress.diagnostics.items ++ p.diagnostics.items).Perm
        (s.progress.diagnostics.items ++ p'.diagnostics.items) := hst.diagnostics
    exact (List.perm_append_right_iff _).mp (hitems.trans (h.diagnostics.append_left _))
  globals ρ hρ hliterals := by
    have hglobals : (t.progress.globals ++ p.globals.map _).Perm
        (s.progress.globals.map _ ++ p'.globals) := hst.globals ρ (h.fitsAll hρ)
    have hold := h.globals ρ (hρ.mono hst.floor) hliterals
    exact (List.perm_append_right_iff _).mp (hglobals.trans (hold.append_left _))

theorem report (h : p.Alike C p') (e : Error) : (p.report e).Alike C (p'.report e) :=
  { h with diagnostics := h.diagnostics.append_right _ }

end Progress.Alike

theorem getElem?_modify_moved {place : Equiv.Perm Nat} {ρ : Renaming} {fs fs' : List Function}
    {i : Nat} (h : fs'[place i]? = fs[i]?.map (Function.rename ρ)) (id : Nat)
    {blocks blocks' : List Block} (hblocks : id = i → blocks' = blocks.map (Block.rename ρ)) :
    (fs'.modify (place id) fun f => { f with blocks := blocks' })[place i]? =
      (fs.modify id fun f => { f with blocks := blocks })[i]?.map (Function.rename ρ) := by
  by_cases hid : id = i
  · subst hid
    rw [List.getElem?_modify_eq, List.getElem?_modify_eq, h, hblocks rfl]
    cases fs[id]? <;> rfl
  · rw [List.getElem?_modify_ne _ _ hid, List.getElem?_modify_ne _ _ fun heq =>
      hid (place.injective heq), h]

namespace Compilation

/-- Two compilations are alike: names mean the same, and the functions and the code outside of them
are the same under all renamings that they are compared under. -/
structure Alike (C : Comparison) (c c' : Compilation) : Prop where
  init : C.place initCallee.id = initCallee.id
  board : c'.board = c.board
  environment : c.environment.Alike C.place c'.environment
  progress : c.progress.Alike C c'.progress
  length : c'.functions.length = c.functions.length
  functions : ∀ i ρ, C.Keeps c.progress.count ρ → C.code i ρ →
    c'.functions[C.place i]? = c.functions[i]?.map (Function.rename ρ)
  top : c.top.Alike C.place c'.top
  body : ∀ ρ, C.Keeps c.progress.count ρ → C.code initCallee.id ρ →
    c'.top.body = c.top.body.rename ρ

variable {C : Comparison} {c c' : Compilation}

theorem alike_bodyState (henv : c.environment.Alike C.place c'.environment)
    (hinit : C.place initCallee.id = initCallee.id)
    (hscope : ∀ name, c'.progress.scope.find? name = c.progress.scope.find? name)
    (d : Definition) :
    (c.bodyState d).Alike (C.pairing c.progress c'.progress fun _ => True) c.progress.count
      (c'.bodyState (d.moved C.place)) :=
  (Definition.mirrors_lower henv hinit d).after <|
    State.alike_start (C.pairing c.progress c'.progress fun _ => True) hscope
      (Frame.alike_ofSignature C.place d.signature) fun _ _ => rfl

theorem Alike.lowerDefinition (h : c.Alike C c') (d : Definition) :
    (c.lowerDefinition d).Alike C (c'.lowerDefinition (d.moved C.place)) := by
  have hst := alike_bodyState h.environment h.init h.progress.scope d
  rw [lowerDefinition_eq, lowerDefinition_eq]
  refine { h with
    progress := h.progress.of_state hst
    length := ?_
    functions := fun i ρ hρ hcode => ?_
    body := fun ρ hρ hcode => h.body ρ (hρ.mono hst.floor) hcode }
  · rw [List.length_modify, List.length_modify, h.length]
  · refine getElem?_modify_moved (h.functions i ρ (hρ.mono hst.floor) hcode) _ fun _ => ?_
    exact congrArg Body.blocks (hst.body ρ trivial (h.progress.fitsAll hρ))

theorem Alike.lowerTop (h : c.Alike C c') (st : Stmt) :
    (c.lowerTop st).Alike C (c'.lowerTop st) := by
  -- What is already in the body constrains the renamings that it is compared under.
  have hst := (Lower.mirrors_stmt h.environment st c.progress.count).reported.after <|
    State.alike_start (C.pairing c.progress c'.progress fun ρ =>
      C.Keeps c.progress.count ρ ∧ C.code initCallee.id ρ) h.progress.scope h.top
      fun ρ hρ => h.body ρ hρ.1 hρ.2
  rw [lowerTop_eq, lowerTop_eq]
  exact { h with
    progress := h.progress.of_state hst
    functions := fun i ρ hρ hcode => h.functions i ρ (hρ.mono hst.floor) hcode
    top := hst.frame
    body := fun ρ hρ hcode =>
      hst.body ρ ⟨hρ.mono hst.floor, hcode⟩ (h.progress.fitsAll hρ) }

end Compilation

def Item.moved (place : Equiv.Perm Nat) : Item → Item
  | .definition d => .definition (d.moved place)
  | .statement s => .statement s

namespace FunctionTable

theorem Alike.declare {place : Equiv.Perm Nat} {t t' : FunctionTable} (h : t.Alike place t')
    (key : String) (s : Signature) :
    (t.declare key s).Alike place (t'.declare key (s.moved place)) := by
  intro key'
  rw [find?_declare_eq, find?_declare_eq, h key', Option.map_or]
  split <;> rfl

end FunctionTable

namespace Compilation

variable {C : Comparison} {c c' : Compilation}

def checked (taken : Bool) (pos : Position) (name : String) (params : List Param)
    (returns : Option String) : Except Error (ValueType × List ValueType) := do
  if taken then throw (.located pos (.functionDefined name))
  if name = initName then throw (.located pos (.reserved name))
  let result ← resultType pos returns
  let types ← paramTypes name [] params
  return (result, types)

def extended (c : Compilation) (name : String) (params : List String) (types : List ValueType)
    (result : ValueType) : Compilation :=
  { c with
    functions := c.functions ++ [declaration name params types result]
    table := c.table.declare name (c.newSignature name params types result)
    defined := c.defined + 1 }

theorem define_eq (c : Compilation) (pos : Position) (name : String) (params : List Param)
    (returns : Option String) (body : List Stmt) :
    c.define pos name params returns body =
      (checked (c.table.find? name).isSome pos name params returns).map fun r =>
        (c.extended name (params.map (·.name)) r.2 r.1,
          ⟨c.newSignature name (params.map (·.name)) r.2 r.1, params.map (·.name), body⟩) := by
  unfold define checked
  by_cases htaken : (c.table.find? name).isSome
  · rw [if_pos htaken, if_pos htaken]
    rfl
  by_cases hinit : name = initName
  · rw [if_neg htaken, if_neg htaken, if_pos hinit, if_pos hinit]
    rfl
  rw [if_neg htaken, if_neg htaken, if_neg hinit, if_neg hinit]
  cases resultType pos returns with
  | error e => rfl
  | ok result =>
    cases paramTypes name [] params with
    | error e | ok types => rfl

variable {pos : Position} {name : String} {params : List Param} {returns : Option String}

theorem declareAll_of_ok {r : ValueType × List ValueType}
    (h : checked (c.table.find? name).isSome pos name params returns = .ok r) (body : List Stmt)
    (unit : List Stmt) :
    c.declareAll (.define pos name params returns body :: unit) =
      (((c.extended name (params.map (·.name)) r.2 r.1).declareAll unit).1,
        .definition
          ⟨c.newSignature name (params.map (·.name)) r.2 r.1, params.map (·.name), body⟩ ::
          ((c.extended name (params.map (·.name)) r.2 r.1).declareAll unit).2) := by
  rw [declareAll, define_eq, h]
  rfl

theorem declareAll_of_error {e : Error}
    (h : checked (c.table.find? name).isSome pos name params returns = .error e) (body : List Stmt)
    (unit : List Stmt) :
    c.declareAll (.define pos name params returns body :: unit) = (c.report e).declareAll unit := by
  rw [declareAll, define_eq, h]
  rfl

theorem Alike.isSome_find? (h : c.Alike C c') (name : String) :
    (c'.table.find? name).isSome = (c.table.find? name).isSome := by
  rw [show c'.table.find? name = _ from h.environment.functions name, Option.isSome_map]
  rfl

theorem Alike.newSignature (h : c.Alike C c')
    (hplace : C.place c.functions.length = c.functions.length) (name : String)
    (params : List String) (types : List ValueType) (result : ValueType) :
    c'.newSignature name params types result =
      (c.newSignature name params types result).moved C.place := by
  unfold Compilation.newSignature Signature.moved Ir.Callee.moved
  dsimp only
  rw [hplace, h.length]

theorem Alike.extended (h : c.Alike C c')
    (hplace : C.place c.functions.length = c.functions.length) (name : String)
    (params : List String) (types : List ValueType) (result : ValueType) :
    (c.extended name params types result).Alike C (c'.extended name params types result) := by
  refine { h with
    environment := { h.environment with functions := ?_ }
    length := ?_
    functions := fun i ρ hρ hcode => ?_ }
  · change (c.table.declare _ _).Alike C.place (c'.table.declare _ _)
    rw [h.newSignature hplace]
    exact FunctionTable.Alike.declare h.environment.functions _ _
  · simp only [Compilation.extended, List.length_append, h.length]
  · change (c'.functions ++ _)[C.place i]? = (c.functions ++ _)[i]?.map _
    have hold := h.functions i ρ hρ hcode
    rcases lt_trichotomy i c.functions.length with hi | rfl | hi
    · rw [List.getElem?_eq_getElem hi, Option.map_some] at hold
      rw [List.getElem?_append_left (List.getElem?_eq_some_iff.mp hold).1, hold,
        List.getElem?_append_left hi, List.getElem?_eq_getElem hi, Option.map_some]
    · rw [hplace, List.getElem?_concat_length]
      rw [← h.length, List.getElem?_concat_length]
      rfl
    · -- The place behind the last one is taken, so later ones are later still.
      rw [List.getElem?_eq_none hi.le, Option.map_none, List.getElem?_eq_none_iff, h.length] at hold
      have hne : C.place i ≠ c.functions.length := fun heq =>
        hi.ne' (C.place.injective (heq.trans hplace.symm))
      have hnone : (c.functions ++ [declaration name params types result])[i]? = none :=
        List.getElem?_eq_none (by simpa using hi)
      rw [hnone, Option.map_none, List.getElem?_eq_none_iff, List.length_append, h.length,
        List.length_singleton]
      omega

theorem Alike.report (h : c.Alike C c') (e : Error) : (c.report e).Alike C (c'.report e) :=
  { h with progress := h.progress.report e }

theorem Alike.declareAll (unit : List Stmt) (h : c.Alike C c')
    (hplace : ∀ i, c.functions.length ≤ i → i < (c.declareAll unit).1.functions.length →
      C.place i = i) :
    (c.declareAll unit).1.Alike C (c'.declareAll unit).1 ∧
      (c'.declareAll unit).2 = (c.declareAll unit).2.map (Item.moved C.place) := by
  induction unit generalizing c c' with
  | nil => exact ⟨h, rfl⟩
  | cons st unit ih =>
    cases st with
    | define pos name params returns body =>
      have htaken := h.isSome_find? name
      cases hchecked : checked (c.table.find? name).isSome pos name params returns with
      | error e =>
        rw [declareAll_of_error hchecked] at hplace ⊢
        rw [declareAll_of_error (htaken ▸ hchecked)]
        exact ih (h.report e) hplace
      | ok r =>
        rw [declareAll_of_ok hchecked] at hplace ⊢
        rw [declareAll_of_ok (htaken ▸ hchecked)]
        set names := params.map fun p => p.name
        have hlength : (c.extended name names r.2 r.1).functions.length = c.functions.length + 1 :=
          List.length_append
        have hle := (functions_declareAll unit (c.extended name names r.2 r.1)).length_le
        -- The new function is the last one in both, and its place stays.
        have hlast : C.place c.functions.length = c.functions.length :=
          hplace _ (Nat.le_refl _) (hlength.symm.trans_le hle)
        obtain ⟨halike, hitems⟩ := ih (h.extended hlast name names r.2 r.1) fun i hi hlt =>
          hplace i (Nat.le_of_succ_le (hlength.symm.trans_le hi)) hlt
        refine ⟨halike, ?_⟩
        rw [hitems, h.newSignature hlast]
        rfl
    | _ =>
      obtain ⟨halike, hitems⟩ := ih h hplace
      exact ⟨halike, congrArg (_ :: ·) hitems⟩

theorem Alike.lowerItem (h : c.Alike C c') (item : Item) :
    (c.lowerItem item).Alike C (c'.lowerItem (item.moved C.place)) := by
  cases item with
  | definition d => exact h.lowerDefinition d
  | statement st => exact h.lowerTop st

theorem Alike.lowerItems (items : List Item) (h : c.Alike C c') :
    (items.foldl Compilation.lowerItem c).Alike C
      ((items.map (Item.moved C.place)).foldl Compilation.lowerItem c') := by
  induction items generalizing c c' with
  | nil => exact h
  | cons item items ih => exact ih (h.lowerItem item)

theorem Alike.finish (h : c.Alike C c') {log log' : List String} :
    Alike C
      { c with top := { c.top with body := c.top.body.finish (.ret none) }, log := log }
      { c' with top := { c'.top with body := c'.top.body.finish (.ret none) }, log := log' } :=
  { h with
    top := { h.top with
      register := (Lower.register_finish _ _).trans
        (h.top.register.trans (Lower.register_finish _ _).symm) }
    body := fun ρ hρ hcode => by
      have hbody := c.top.body.rename_finish ρ (.ret none)
      rw [← h.body ρ hρ hcode] at hbody
      exact hbody.symm }

theorem Alike.lowerUnit_of_items {unit unit' : List Stmt} {c1 c1' : Compilation}
    {items items' : List Item} (hunit : c.declareAll unit = (c1, items))
    (hunit' : c'.declareAll unit' = (c1', items'))
    (h : (items.foldl Compilation.lowerItem c1).Alike C
      (items'.foldl Compilation.lowerItem c1')) :
    (c.lowerUnit unit).Alike C (c'.lowerUnit unit') := by
  obtain ⟨log, heq⟩ := c.lowerUnit_eq unit
  obtain ⟨log', heq'⟩ := c'.lowerUnit_eq unit'
  rw [heq, heq', hunit, hunit']
  exact h.finish

theorem length_lowerUnit (c : Compilation) (unit : List Stmt) :
    (c.lowerUnit unit).functions.length = (c.declareAll unit).1.functions.length := by
  have hheaders := congrArg List.length
    (headers_lowerItems (c.declareAll unit).2 (c.declareAll unit).1)
  rw [List.length_map, List.length_map] at hheaders
  exact hheaders

theorem Alike.lowerUnit (unit : List Stmt) (h : c.Alike C c')
    (hplace : ∀ i, c.functions.length ≤ i → i < (c.lowerUnit unit).functions.length →
      C.place i = i) :
    (c.lowerUnit unit).Alike C (c'.lowerUnit unit) := by
  rw [length_lowerUnit] at hplace
  obtain ⟨hdeclared, hitems⟩ := h.declareAll unit hplace
  refine lowerUnit_of_items rfl rfl ?_
  rw [hitems]
  exact hdeclared.lowerItems _

theorem Alike.lowerUnits (units : List (List Stmt)) (h : c.Alike C c')
    (hplace : ∀ i, c.functions.length ≤ i →
      i < (units.foldl Compilation.lowerUnit c).functions.length → C.place i = i) :
    (units.foldl Compilation.lowerUnit c).Alike C (units.foldl Compilation.lowerUnit c') := by
  induction units generalizing c c' with
  | nil => exact h
  | cons unit units ih =>
    rw [List.foldl_cons, List.foldl_cons] at *
    have hfirst := (functions_lowerUnit c unit).length_le
    have hrest := (functions_lowerUnits units (c.lowerUnit unit)).length_le
    exact ih (h.lowerUnit unit fun i hi hlt => hplace i hi (hlt.trans_le hrest)) fun i hi hlt =>
      hplace i (hfirst.trans hi) hlt

theorem alike_start (board : Board) (strict : Bool)
    (hplace : ∀ i < initCallee.id + 1, C.place i = i) (hsince : ∀ k, C.since k = 0) :
    (start board strict .numeric).Alike C (start board strict .numeric) where
  init := hplace _ (Nat.lt_succ_self _)
  board := rfl
  environment := by
    refine ⟨fun key => ?_, rfl, rfl, rfl⟩
    change Builtin.table.find? key = (Builtin.table.find? key).map _
    -- All builtin functions are in places that stay.
    have hids : ∀ e ∈ Builtin.table.entries, e.2.callee.id < initCallee.id + 1 := by decide
    cases hfind : Builtin.table.find? key with
    | none => rfl
    | some f =>
      obtain ⟨e, he, rfl⟩ := Option.map_eq_some_iff.mp hfind
      have hid := hplace _ (hids e (List.mem_of_find?_eq_some he))
      simp only [Option.map_some, Signature.moved, Ir.Callee.moved, hid]
  progress := by
    refine ⟨fun k => by rw [hsince]; exact Nat.zero_le _, fun _ => rfl, fun _ => rfl, .refl _,
      fun ρ _ _ => ?_⟩
    have hnamed : ∀ g ∈ Builtin.globals, g.unnamedAddr = false := by decide
    have hrename : ∀ g ∈ Builtin.globals, g.rename ρ = g := fun g hg => by
      simp [Ir.Global.rename, hnamed g hg]
    exact .of_eq ((List.map_congr_left hrename).trans (List.map_id _)).symm
  length := rfl
  functions i ρ _ _ := by
    have hlength : (start board strict .numeric).functions.length = initCallee.id + 1 := rfl
    by_cases hi : i < initCallee.id + 1
    · rw [hplace i hi, List.getElem?_eq_getElem (hlength ▸ hi), Option.map_some,
        Function.rename_of_blocks_eq_nil ρ (blocks_start (List.getElem_mem _))]
    · -- The first places stay, so no other one comes between them.
      have hle : initCallee.id + 1 ≤ C.place i := by
        by_contra hlt
        exact hi ((C.place.injective (hplace _ (Nat.lt_of_not_le hlt))) ▸ Nat.lt_of_not_le hlt)
      rw [List.getElem?_eq_none (hlength ▸ hle),
        List.getElem?_eq_none (hlength ▸ Nat.le_of_not_lt hi)]
      rfl
  top := ⟨rfl, rfl, rfl, rfl⟩
  body _ _ _ := rfl

end Compilation

end BoardPython.Lowering
