import BoardPython.Proofs.CompilationSteps
import BoardPython.Proofs.ParsedNames

/-! The stages of a compilation: where it stands when it comes to an item of a unit. In units
without errors, the items are the statements one by one, and the function of a definition has in the
module the body that it got at its stage. -/
namespace BoardPython

def definitions (unit : List Stmt) : List Stmt := unit.filter (·.defined?.isSome)

theorem definitions_append (unit rest : List Stmt) :
    definitions (unit ++ rest) = definitions unit ++ definitions rest :=
  List.filter_append ..

theorem exists_of_getElem?_definitions {unit : List Stmt} {j : Nat} {st : Stmt}
    (h : (definitions unit)[j]? = some st) :
    ∃ i, unit[i]? = some st ∧ (definitions (unit.take i)).length = j := by
  induction unit generalizing j with
  | nil => cases h
  | cons first unit ih =>
    by_cases hfirst : first.defined?.isSome
    · cases j with
      | zero => exact ⟨0, by simpa [definitions, hfirst] using h, rfl⟩
      | succ j =>
        obtain ⟨i, hi, rfl⟩ := ih (j := j) (by simpa [definitions, hfirst] using h)
        exact ⟨i + 1, hi, by simp [definitions, hfirst]⟩
    · obtain ⟨i, hi, rfl⟩ := ih (j := j) (by simpa [definitions, hfirst] using h)
      exact ⟨i + 1, hi, by simp [definitions, hfirst]⟩

namespace Lowering

open Ir (Function)

def State.errors (s : State) : Nat := s.progress.diagnostics.errorCount

theorem paramTypes_cons_eq_ok {function : String} {p : Param} {params : List Param}
    {seen : List String} {types : List ValueType}
    (h : paramTypes function seen (p :: params) = .ok types) :
    p.name ∉ seen ∧ ∃ type rest, types = type :: rest ∧
      paramTypes function (p.name :: seen) params = .ok rest ∧
      (type = .i16 ∨ ∃ hint, ValueType.ofHint? hint = some type ∧ type ≠ .void) := by
  rw [paramTypes] at h
  by_cases hseen : seen.contains p.name
  · rw [if_pos hseen] at h
    cases h
  rw [if_neg hseen] at h
  refine ⟨fun hmem => hseen (List.contains_iff_mem.mpr hmem), ?_⟩
  -- Whatever the type of the first parameter is, the others have theirs.
  cases hrest : paramTypes function (p.name :: seen) params with
  | error e =>
    rw [hrest] at h
    dsimp only at h
    split at h
    · cases h
    · split at h <;> cases h
  | ok rest =>
    rw [hrest] at h
    dsimp only at h
    split at h
    · cases h
      exact ⟨_, rest, rfl, rfl, .inl rfl⟩
    · split at h
      · cases h
      · cases h
      · rename_i t hvoid ht
        cases h
        exact ⟨t, rest, rfl, rfl, .inr ⟨_, ht, fun heq => hvoid heq⟩⟩

theorem paramTypes_eq_ok {function : String} {params : List Param} {seen : List String}
    {types : List ValueType} (h : paramTypes function seen params = .ok types) :
    types.length = params.length ∧ (params.map (·.name)).Nodup ∧
      ∀ p ∈ params, p.name ∉ seen := by
  induction params generalizing seen types with
  | nil =>
    cases h
    exact ⟨rfl, List.nodup_nil, List.forall_mem_nil _⟩
  | cons p params ih =>
    obtain ⟨hp, type, rest, rfl, hrest, -⟩ := paramTypes_cons_eq_ok h
    obtain ⟨hlength, hnodup, hfresh⟩ := ih hrest
    refine ⟨congrArg Nat.succ hlength, ?_, ?_⟩
    · refine List.nodup_cons.mpr ⟨fun hmem => ?_, hnodup⟩
      obtain ⟨q, hq, heq⟩ := List.mem_map.mp hmem
      exact hfresh q hq (heq ▸ List.mem_cons_self ..)
    · exact List.forall_mem_cons.mpr ⟨hp, fun q hq hmem =>
        hfresh q hq (List.mem_cons_of_mem _ hmem)⟩

namespace Definition

/-- The names of parameters are told apart, and each has a type. -/
structure Proper (d : Definition) : Prop where
  nodup : d.params.Nodup
  types : d.signature.params.length = d.params.length

/-- A statement is the definition of a function, which has been declared. -/
def MadeFrom (d : Definition) (f : Function) : Stmt → Prop
  | .define _ name params _ body => d.Proper ∧ d.params = params.map (·.name) ∧ d.body = body ∧
      f = Compilation.declaration name d.params d.signature.params d.signature.result
  | _ => False

variable {d : Definition} {f : Function} {st : Stmt}

theorem Proper.map_fst_zip (hd : d.Proper) :
    (d.params.zip d.signature.params).map Prod.fst = d.params :=
  List.map_fst_zip (Nat.le_of_eq hd.types.symm)

theorem Proper.nodup_zip (hd : d.Proper) :
    ((d.params.zip d.signature.params).map Prod.fst).Nodup := by
  rw [hd.map_fst_zip]
  exact hd.nodup

theorem MadeFrom.exists_eq (h : d.MadeFrom f st) :
    ∃ pos name params returns, st = .define pos name params returns d.body ∧ d.Proper ∧
      d.params = params.map (·.name) ∧
      f = Compilation.declaration name d.params d.signature.params d.signature.result := by
  cases st with
  | define pos name params returns body =>
    obtain ⟨hd, hparams, rfl, hf⟩ := h
    exact ⟨pos, name, params, returns, rfl, hd, hparams, hf⟩
  | _ => exact h.elim

theorem MadeFrom.proper (h : d.MadeFrom f st) : d.Proper := by
  obtain ⟨-, -, -, -, -, hd, -⟩ := h.exists_eq
  exact hd

theorem MadeFrom.header_eq (h : d.MadeFrom f st) : f.header = f := by
  obtain ⟨-, -, -, -, -, -, -, rfl⟩ := h.exists_eq
  rfl

theorem MadeFrom.params_eq (h : d.MadeFrom f.header st) :
    f.params.map (·.name) = d.params.map some := by
  obtain ⟨-, name, -, -, -, hd, -, hheader⟩ := h.exists_eq
  have htakes : f.params = (d.params.zip d.signature.params).map fun p => ⟨some p.1, p.2.ir⟩ :=
    congrArg Function.params hheader
  calc f.params.map (·.name)
    _ = ((d.params.zip d.signature.params).map Prod.fst).map some := by
      rw [htakes, List.map_map, List.map_map]
      rfl
    _ = d.params.map some := by rw [hd.map_fst_zip]

end Definition

/-- What a statement of a unit has become. A definition has its function at a place. -/
def Item.Stands (functions : List Function) (place : Nat) (st : Stmt) : Item → Prop
  | .definition d =>
    d.signature.callee.id = place ∧ ∃ f, functions[place]? = some f ∧ d.MadeFrom f st
  | .statement s => s = st ∧ st.defined? = none

namespace Compilation

variable {c : Compilation} {unit : List Stmt} {i : Nat}

/-- The compilation that item number `i` of a unit is lowered in. -/
def atItem (c : Compilation) (unit : List Stmt) (i : Nat) : Compilation :=
  ((c.declareAll unit).2.take i).foldl lowerItem (c.declareAll unit).1

variable {item : Item} {items : List Item} {st : Stmt} {d : Definition}

theorem atItem_succ (h : (c.declareAll unit).2[i]? = some item) :
    c.atItem unit (i + 1) = (c.atItem unit i).lowerItem item := by
  unfold atItem
  rw [List.take_add_one, h, List.foldl_append]
  rfl

theorem lowerItems_atItem (c : Compilation) (unit : List Stmt) (i : Nat) :
    ((c.declareAll unit).2.drop i).foldl lowerItem (c.atItem unit i) =
      (c.declareAll unit).2.foldl lowerItem (c.declareAll unit).1 := by
  unfold atItem
  rw [← List.foldl_append, List.take_append_drop]

theorem extends_atItem (c : Compilation) (unit : List Stmt) (i : Nat) :
    c.progress.Extends (c.atItem unit i).progress :=
  (declares_declareAll unit c).progress_extends.trans (extends_lowerItems _ _)

theorem atItem_extends (c : Compilation) (unit : List Stmt) (i : Nat) :
    (c.atItem unit i).progress.Extends (c.lowerUnit unit).progress := by
  have h := extends_lowerItems ((c.declareAll unit).2.drop i) (c.atItem unit i)
  rwa [lowerItems_atItem] at h

theorem errorCount_lowerItem_le (h : (c.declareAll unit).2[i]? = some item)
    (hno : (c.lowerUnit unit).progress.errors ≤ c.progress.errors) :
    ((c.atItem unit i).lowerItem item).progress.errors ≤
      (c.atItem unit i).progress.errors := by
  have hbefore := (c.extends_atItem unit i).errorCount_le
  have hafter := (c.atItem_extends unit (i + 1)).errorCount_le
  rw [atItem_succ h] at hafter
  omega

theorem madeFrom_define {c' : Compilation} {pos : Position} {name : String}
    {params : List Param} {returns : Option String} {body : List Stmt}
    (h : c.define pos name params returns body = .ok (c', d)) :
    d.signature.callee.id = c.functions.length ∧ ∃ f, c'.functions = c.functions ++ [f] ∧
      d.MadeFrom f (.define pos name params returns body) := by
  obtain ⟨-, -, result, types, -, htypes, rfl, rfl⟩ := define_eq_ok h
  obtain ⟨hlength, hnodup, -⟩ := paramTypes_eq_ok htypes
  have hproper : types.length = (params.map (·.name)).length := by
    rw [hlength, List.length_map]
  exact ⟨rfl, _, rfl, ⟨hnodup, hproper⟩, rfl, rfl, rfl⟩

/-- An item of a unit is a statement, or it has been declared after the functions of `c`. -/
inductive Declared (c : Compilation) (unit : List Stmt) (functions : List Function) : Item → Prop
  | statement {st : Stmt} (hst : st ∈ unit) : Declared c unit functions (.statement st)
  | definition {c₁ c₂ : Compilation} {d : Definition} {pos name params returns body}
      (hst : .define pos name params returns body ∈ unit)
      (h : c₁.define pos name params returns body = .ok (c₂, d))
      (hbefore : c.functions <+: c₁.functions) (hafter : c₂.functions <+: functions) :
      Declared c unit functions (.definition d)

theorem Declared.cons {c₁ : Compilation} {functions : List Function}
    (h : c₁.Declared unit functions item) (first : Stmt) (hc : c.functions <+: c₁.functions) :
    c.Declared (first :: unit) functions item := by
  cases h with
  | statement hst => exact .statement (List.mem_cons_of_mem _ hst)
  | definition hst h hbefore hafter =>
    exact .definition (List.mem_cons_of_mem _ hst) h (hc.trans hbefore) hafter

theorem declared_of_mem (h : item ∈ (c.declareAll unit).2) :
    c.Declared unit (c.declareAll unit).1.functions item := by
  induction unit generalizing c with
  | nil => cases h
  | cons first unit ih =>
    cases first with
    | define pos name params returns body =>
      rw [declareAll] at h ⊢
      cases hr : c.define pos name params returns body with
      | error e =>
        rw [hr] at h
        exact (ih (c := c.report e) h).cons _ List.prefix_rfl
      | ok r =>
        rw [hr] at h
        rcases List.mem_cons.mp h with rfl | h
        · exact .definition List.mem_cons_self hr List.prefix_rfl (functions_declareAll unit r.1)
        · obtain ⟨-, f, hfunctions, -⟩ := madeFrom_define hr
          exact (ih h).cons _ (hfunctions ▸ List.prefix_append _ _)
    | _ =>
      rcases List.mem_cons.mp h with rfl | h
      · exact .statement List.mem_cons_self
      · exact (ih h).cons _ List.prefix_rfl

theorem le_id_of_mem (h : .definition d ∈ (c.declareAll unit).2) :
    c.functions.length ≤ d.signature.callee.id := by
  cases declared_of_mem h with
  | definition hst h hbefore hafter =>
    rw [(madeFrom_define h).1]
    exact hbefore.length_le

theorem made_declareAll (unit : List Stmt) (c : Compilation) :
    (∃ new, (c.declareAll unit).1.functions = c.functions ++ new ∧ ∀ f ∈ new, f.blocks = []) ∧
      ∀ d, .definition d ∈ (c.declareAll unit).2 → ∃ st ∈ unit, ∃ f,
        (c.declareAll unit).1.functions[d.signature.callee.id]? = some f ∧ d.MadeFrom f st := by
  constructor
  · refine declareAll_induction (R := fun c c' => ∃ new, c'.functions = c.functions ++ new ∧
      ∀ f ∈ new, f.blocks = []) (fun _ => ⟨[], (List.append_nil _).symm, List.forall_mem_nil _⟩)
      (fun _ _ _ ih => ih) (fun h ih => ?_) unit c
    obtain ⟨-, f, hfunctions, hmade⟩ := madeFrom_define h
    obtain ⟨new, hnew, hblocks⟩ := ih
    refine ⟨f :: new, ?_, List.forall_mem_cons.mpr ⟨?_, hblocks⟩⟩
    · rw [hnew, hfunctions, List.append_assoc]
      rfl
    · rw [← hmade.header_eq]
      rfl
  · intro d hd
    cases declared_of_mem hd with
    | definition hst h hbefore hafter =>
      obtain ⟨hid, f, hfunctions, hmade⟩ := madeFrom_define h
      obtain ⟨added, hadded⟩ := hafter
      refine ⟨_, hst, f, ?_, hmade⟩
      rw [← hadded, hid, hfunctions]
      simp

theorem proper_declareAll (unit : List Stmt) (c : Compilation) :
    ∀ d, .definition d ∈ (c.declareAll unit).2 → d.Proper := by
  intro d hd
  obtain ⟨st, -, f, -, h⟩ := (made_declareAll unit c).2 d hd
  exact h.proper

/-- In a unit without errors, each definition has got a function. -/
theorem stands_declareAll (unit : List Stmt) (c : Compilation)
    (hno : (c.declareAll unit).1.progress.errors ≤ c.progress.errors) :
    (c.declareAll unit).1.functions.length = c.functions.length + (definitions unit).length ∧
      ∀ (i : Nat) st, unit[i]? = some st → ∃ item : Item, (c.declareAll unit).2[i]? = some item ∧
        item.Stands (c.declareAll unit).1.functions
          (c.functions.length + (definitions (unit.take i)).length) st := by
  induction unit generalizing c with
  | nil => exact ⟨rfl, fun i st hst => by cases hst⟩
  | cons first unit ih =>
    cases first with
    | define pos name params returns body =>
      rw [declareAll] at hno ⊢
      cases h : c.define pos name params returns body with
      | error e =>
        rw [h] at hno
        exact absurd hno (Nat.not_le_of_lt (c.errors_lt_declareAll_report e unit))
      | ok r =>
        obtain ⟨c', d⟩ := r
        obtain ⟨hid, f, hfunctions, hmade⟩ := madeFrom_define h
        have hprogress : c'.progress = c.progress := progress_define h
        have hlength : c'.functions.length = c.functions.length + 1 := by
          rw [hfunctions]
          exact List.length_append
        rw [h] at hno
        obtain ⟨hcount, hstands⟩ := ih c' (hprogress ▸ hno)
        rw [hlength, Nat.add_assoc, Nat.add_comm 1] at hcount
        refine ⟨hcount, fun i st hst => ?_⟩
        cases i with
        | zero =>
          cases hst
          obtain ⟨new, hnew⟩ := functions_declareAll unit c'
          refine ⟨.definition d, rfl, hid, f, ?_, hmade⟩
          dsimp only
          rw [← hnew, hfunctions]
          simp [definitions]
        | succ i =>
          obtain ⟨item, hitem, hstands⟩ := hstands i st hst
          refine ⟨item, hitem, ?_⟩
          rw [hlength, Nat.add_assoc, Nat.add_comm 1] at hstands
          exact hstands
    | _ =>
      obtain ⟨hcount, hstands⟩ := ih c hno
      refine ⟨hcount, fun i st hst => ?_⟩
      cases i with
      | zero =>
        cases hst
        exact ⟨_, rfl, rfl, rfl⟩
      | succ i => exact hstands i st hst

theorem item_declareAll (unit : List Stmt) (c : Compilation)
    (hno : (c.declareAll unit).1.progress.errors ≤ c.progress.errors)
    (hst : unit[i]? = some st) :
    ∃ item, (c.declareAll unit).2[i]? = some item ∧
      item.Stands (c.declareAll unit).1.functions
        (c.functions.length + (definitions (unit.take i)).length) st :=
  (stands_declareAll unit c hno).2 i st hst

theorem length_declareAll_le (unit : List Stmt) (c : Compilation) :
    (c.declareAll unit).2.length ≤ unit.length := by
  induction unit generalizing c with
  | nil => exact Nat.le_refl _
  | cons st unit ih =>
    cases st with
    | define pos name params returns body =>
      rw [declareAll]
      cases h : c.define pos name params returns body with
      | error e => exact Nat.le_succ_of_le (ih (c.report e))
      | ok r => exact Nat.succ_le_succ (ih r.1)
    | _ => exact Nat.succ_le_succ (ih c)

theorem progress_lowerUnit (c : Compilation) (unit : List Stmt) :
    (c.lowerUnit unit).progress = (c.atItem unit unit.length).progress := by
  unfold atItem
  rw [List.take_of_length_le (length_declareAll_le unit c)]
  rfl

theorem blocks_start {board : Board} {strict : Bool} {operators : Operators} {f : Function}
    (hf : f ∈ (start board strict operators).functions) : f.blocks = [] := by
  have hall : ∀ f ∈ Builtin.all.map Builtin.declaration ++ [initHeader], f.blocks = [] := by
    decide
  exact hall f hf

/-- Items that are not for a function leave it as it is. -/
theorem function_lowerItems (hids : ∀ d, .definition d ∈ items → d.signature.callee.id ≠ i) :
    (items.foldl lowerItem c).functions[i]? = c.functions[i]? := by
  induction items generalizing c with
  | nil => rfl
  | cons item items ih =>
    rw [List.foldl_cons, ih fun d hd => hids d (List.mem_cons_of_mem _ hd)]
    cases item with
    | statement st => rw [lowerItem, lowerTop_eq]
    | definition d =>
      rw [lowerItem, lowerDefinition_eq]
      exact List.getElem?_modify_ne _ _ (hids d List.mem_cons_self)

theorem errorCount_declareAll_le (c : Compilation) (unit : List Stmt) :
    (c.declareAll unit).1.progress.errors ≤
      (c.lowerUnit unit).progress.errors :=
  (extends_lowerItems (c.declareAll unit).2 (c.declareAll unit).1).errorCount_le

theorem functions_atItem_succ (hd : (c.declareAll unit).2[i]? = some (.definition d))
    (hno : (c.declareAll unit).1.progress.errors ≤ c.progress.errors) :
    (c.lowerUnit unit).functions[d.signature.callee.id]? =
      (c.atItem unit (i + 1)).functions[d.signature.callee.id]? := by
  obtain ⟨log, hunit⟩ := c.lowerUnit_eq unit
  rw [hunit, ← lowerItems_atItem c unit (i + 1)]
  refine function_lowerItems fun d' hd' => ?_
  -- No later item is for the same function.
  have hplace {k : Nat} {d : Definition} (hk : (c.declareAll unit).2[k]? = some (.definition d)) :
      ∃ st, unit[k]? = some st ∧ st.defined?.isSome ∧
        d.signature.callee.id = c.functions.length + (definitions (unit.take k)).length := by
    have hlt := Nat.lt_of_lt_of_le (List.getElem?_eq_some_iff.mp hk).1 (length_declareAll_le unit c)
    obtain ⟨item, hitem, hstands⟩ := item_declareAll unit c hno (List.getElem?_eq_getElem hlt)
    obtain rfl := Option.some.inj (hitem.symm.trans hk)
    obtain ⟨hid, f, -, hmade⟩ := hstands
    obtain ⟨_, _, _, _, hst, -⟩ := hmade.exists_eq
    exact ⟨_, List.getElem?_eq_getElem hlt, by rw [hst]; rfl, hid⟩
  obtain ⟨k, hk⟩ := List.mem_iff_getElem?.mp hd'
  rw [List.getElem?_drop] at hk
  obtain ⟨st, hst, hdefines, hid⟩ := hplace hd
  obtain ⟨-, -, -, hid'⟩ := hplace hk
  have hle : (definitions (unit.take (i + 1))).length ≤
      (definitions (unit.take (i + 1 + k))).length :=
    ((List.take_prefix_take_left (Nat.le_add_right ..)).filter _).length_le
  rw [List.take_add_one, hst, definitions_append, List.length_append] at hle
  have hone : (definitions (some st).toList).length = 1 := by simp [definitions, hdefines]
  omega

theorem function_atItem_succ {f : Function} (hd : (c.declareAll unit).2[i]? = some (.definition d))
    (hf : (c.declareAll unit).1.functions[d.signature.callee.id]? = some f)
    (hmade : d.MadeFrom f st) :
    ∃ f', (c.atItem unit (i + 1)).functions[d.signature.callee.id]? = some f' ∧
      d.MadeFrom f'.header st ∧
      f'.blocks = ((c.atItem unit i).bodyState d).frame.body.blocks := by
  -- Only bodies have changed since the function was declared.
  have hheaders : (c.declareAll unit).1.functions.map Function.header <+:
      (c.atItem unit i).functions.map Function.header := by
    unfold atItem
    rw [headers_lowerItems]
  obtain ⟨f1, hf1, hheader⟩ := Function.getElem?_of_headers hheaders hf
  refine ⟨{ f1 with blocks := ((c.atItem unit i).bodyState d).frame.body.blocks }, ?_, ?_, rfl⟩
  · rw [atItem_succ hd, lowerItem, lowerDefinition_eq, List.getElem?_modify_eq, hf1]
    rfl
  · change d.MadeFrom f1.header st
    rw [hheader, hmade.header_eq]
    exact hmade

theorem functions_lowerUnit (c : Compilation) (unit : List Stmt) :
    c.functions <+: (c.lowerUnit unit).functions := by
  obtain ⟨new, hnew⟩ := functions_declareAll unit c
  refine List.prefix_iff_getElem?.mpr fun i hi => ?_
  have hsame : (c.lowerUnit unit).functions[i]? = (c.declareAll unit).1.functions[i]? :=
    function_lowerItems fun d hd => (Nat.lt_of_lt_of_le hi (le_id_of_mem hd)).ne'
  rw [hsame, ← hnew, List.getElem?_append_left hi, List.getElem?_eq_getElem hi]

theorem functions_lowerUnits (units : List (List Stmt)) (c : Compilation) :
    c.functions <+: (units.foldl lowerUnit c).functions := by
  induction units generalizing c with
  | nil => exact List.prefix_rfl
  | cons unit units ih => exact (c.functions_lowerUnit unit).trans (ih (c.lowerUnit unit))

theorem length_functions_lowerUnit
    (hno : (c.lowerUnit unit).progress.errors ≤ c.progress.errors) :
    (c.lowerUnit unit).functions.length = c.functions.length + (definitions unit).length := by
  have hheaders : (c.lowerUnit unit).functions.map Function.header = _ :=
    headers_lowerItems (c.declareAll unit).2 (c.declareAll unit).1
  rw [← (stands_declareAll unit c (Nat.le_trans (c.errorCount_declareAll_le unit) hno)).1]
  simpa using congrArg List.length hheaders

theorem length_functions_lowerUnits (units : List (List Stmt)) (c : Compilation)
    (hno : (units.foldl lowerUnit c).progress.errors ≤
      c.progress.errors) :
    (units.foldl lowerUnit c).functions.length =
      c.functions.length + (definitions units.flatten).length := by
  induction units generalizing c with
  | nil => rfl
  | cons unit units ih =>
    rw [List.foldl_cons] at hno ⊢
    obtain ⟨hfirst, hrest⟩ := errors_le_of_cons hno
    rw [ih (c.lowerUnit unit) hrest, length_functions_lowerUnit hfirst, List.flatten_cons,
      definitions_append, List.length_append, Nat.add_assoc]

structure Compiled (c : Compilation) (unit : List Stmt) (i : Nat) (st : Stmt) (d : Definition)
    (f : Function) : Prop where
  item : (c.declareAll unit).2[i]? = some (.definition d)
  made : d.MadeFrom f.header st
  blocks : f.blocks = ((c.atItem unit i).bodyState d).frame.body.blocks
  noError : ((c.atItem unit i).bodyState d).errors ≤ (c.atItem unit i).state.errors

theorem compiled_lowerUnit (hst : unit[i]? = some st) (hdefines : st.defined?.isSome)
    (hno : (c.lowerUnit unit).progress.errors ≤ c.progress.errors) :
    ∃ d f, (c.lowerUnit unit).functions[c.functions.length +
        (definitions (unit.take i)).length]? = some f ∧ c.Compiled unit i st d f := by
  have hdeclared := Nat.le_trans (c.errorCount_declareAll_le unit) hno
  obtain ⟨item, hitem, hstands⟩ := item_declareAll unit c hdeclared hst
  cases item with
  | statement s =>
    rw [hstands.2] at hdefines
    cases hdefines
  | definition d =>
    obtain ⟨hid, f0, hf0, hmade⟩ := hstands
    obtain ⟨f, hf, hheader, hblocks⟩ := function_atItem_succ hitem (hid ▸ hf0) hmade
    refine ⟨d, f, ?_, hitem, hheader, hblocks, ?_⟩
    · rw [← hid, functions_atItem_succ hitem hdeclared]
      exact hf
    · have hle := errorCount_lowerItem_le hitem hno
      rw [lowerItem, lowerDefinition_eq] at hle
      exact hle

/-- A function after a unit without errors was there before, or it is that of a definition. -/
theorem function_lowerUnit {f : Function}
    (hno : (c.lowerUnit unit).progress.errors ≤ c.progress.errors)
    (hf : (c.lowerUnit unit).functions[i]? = some f) :
    c.functions[i]? = some f ∨ c.functions.length ≤ i ∧ ∃ k st d,
      (definitions unit)[i - c.functions.length]? = some st ∧ c.Compiled unit k st d f := by
  by_cases hi : i < c.functions.length
  · left
    obtain ⟨new, hnew⟩ := c.functions_lowerUnit unit
    rwa [← hnew, List.getElem?_append_left hi] at hf
  · right
    obtain ⟨j, rfl⟩ := Nat.exists_eq_add_of_le (Nat.le_of_not_lt hi)
    have hlt := (List.getElem?_eq_some_iff.mp hf).1
    rw [length_functions_lowerUnit hno] at hlt
    have hst := List.getElem?_eq_getElem (l := definitions unit) (i := j) (by omega)
    obtain ⟨k, hk, rfl⟩ := exists_of_getElem?_definitions hst
    obtain ⟨d, f', hf', hcompiled⟩ :=
      compiled_lowerUnit hk (List.mem_filter.mp (List.mem_of_getElem? hst)).2 hno
    obtain rfl := Option.some.inj (hf'.symm.trans hf)
    rw [Nat.add_sub_cancel_left]
    exact ⟨Nat.le_add_right .., k, _, d, hst, hcompiled⟩

/-- In a module, functions come in the order of their definitions, after the builtin ones and the
one for code outside of functions. Each has the body that it got at its stage. -/
theorem compiled_of_module? {board : Board} {strict : Bool} {operators : Operators}
    {us vs : List (List Stmt)} {M : Ir.Module}
    (hM : ((us ++ unit :: vs).foldl lowerUnit (start board strict operators)).module? = some M)
    (hst : unit[i]? = some st) (hdefines : st.defined?.isSome) :
    ∃ d f, M.functions[initCallee.id + 1 +
        (definitions (us.flatten ++ unit.take i)).length]? = some f ∧
      (us.foldl lowerUnit (start board strict operators)).Compiled unit i st d f := by
  obtain ⟨hno, rfl⟩ := module?_eq_some hM
  rw [List.foldl_append, List.foldl_cons] at hno ⊢
  set c := us.foldl lowerUnit (start board strict operators)
  have hrest := (extends_lowerUnits vs (c.lowerUnit unit)).errorCount_le
  have hunit := (c.extends_lowerUnit unit).errorCount_le
  obtain ⟨d, f, hf, hcompiled⟩ := compiled_lowerUnit hst hdefines (c := c) (by omega)
  have hc : c.progress.errors = 0 := by omega
  have hlength : c.functions.length = initCallee.id + 1 + (definitions us.flatten).length := by
    rw [length_functions_lowerUnits us _ (Nat.le_trans (Nat.le_of_eq hc) (Nat.zero_le _))]
    simp [start, initCallee]
  refine ⟨d, f, ?_, hcompiled⟩
  rw [definitions_append, List.length_append, ← Nat.add_assoc, ← hlength]
  unfold toModule
  dsimp only
  rw [List.getElem?_modify_ne _ _ (by omega)]
  obtain ⟨new, hnew⟩ := functions_lowerUnits vs (c.lowerUnit unit)
  rw [← hnew, List.getElem?_append_left (List.getElem?_eq_some_iff.mp hf).1]
  exact hf

end Compilation

end Lowering

end BoardPython
