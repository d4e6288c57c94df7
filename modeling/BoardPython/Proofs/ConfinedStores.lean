import BoardPython.Proofs.NameSlots
import BoardPython.Proofs.SymbolTables

/-! What code stores to. A function stores to its own stack cells and to the module globals that it
declares global, and code outside of functions stores to module globals. All of these globals are
mutable. -/
namespace BoardPython

open Ir (Function Instr Operand)

def Ir.Function.HasCell (f : Function) (a : Operand) : Prop :=
  ∃ r type, a = .register r (.pointer type) ∧ (⟨some r, .alloca type⟩ : Instr) ∈ f.code

namespace Lowering

namespace Progress

def Mutable (p : Progress) (name : String) (a : Operand) : Prop :=
  ∃ symbol, p.scope.find? name = some symbol ∧ symbol.storage = .module false ∧
    a = .global name symbol.type.ir

theorem Mutable.mono {p p' : Progress} {name : String} {a : Operand} (h : p.Mutable name a)
    (hextends : p.Extends p') : p'.Mutable name a := by
  obtain ⟨symbol, hsymbol, hrest⟩ := h
  exact ⟨symbol, hextends.scope name symbol hsymbol, hrest⟩

end Progress

theorem State.Disciplined.mutable {k : Names} {t : State} (ht : t.Disciplined k) {name : String}
    (hlocal : t.frame.isLocal name = false) {symbol : Symbol}
    (htarget : t.target? name = some symbol) (himmutable : symbol.isImmutable = false) :
    t.progress.Mutable name (t.address (.global name)) := by
  have hsymbol : t.symbol? (.global name) = some symbol :=
    (if_neg (Bool.eq_false_iff.mp hlocal)).symm.trans htarget
  obtain ⟨immutable, hstorage⟩ := ht.globals symbol (List.mem_of_find?_eq_some hsymbol)
  have hname : symbol.name = name := by simpa using List.find?_some hsymbol
  have haddress := ht.address?_eq hsymbol
  rw [Symbol.address?, hstorage] at haddress
  rw [Symbol.isImmutable, hstorage] at himmutable
  refine ⟨symbol, hsymbol, ?_, ?_⟩
  · cases immutable with
    | false => exact hstorage
    | true => cases himmutable
  · rw [← Option.some.inj haddress, hname]

theorem State.Accounted.store {t : State} {d : Definition} (ht : t.Accounted d) {f : Function}
    (hf : f.blocks = t.frame.body.blocks) {a : Operand} (ha : .store a ∈ Ir.accesses f.code) :
    f.HasCell a ∨ ∃ name ∈ globalizedAll d.body, t.progress.Mutable name a := by
  have hkeeps := ht.disciplined.keeps hf ht.known
  have hcell {name : String} (hname : .cell name ∈ d.usedSlots) :
      f.HasCell (t.address (.cell name)) := by
    obtain ⟨r, type, haddress, hi⟩ := hkeeps.cell name hname
    exact ⟨r, type, haddress, List.mem_of_mem_filter hi⟩
  have hmem : .store a ∈ d.accesses t.address := by
    rw [← Multiset.mem_coe, ← ht.touched, State.touched, Multiset.mem_coe,
      ← Body.code_eq_of_blocks hf]
    exact ha
  rcases List.mem_append.mp hmem with hparam | huse
  · obtain ⟨name, hname, heq⟩ := List.mem_map.mp hparam
    cases heq
    exact .inl (hcell (List.mem_append_left _ (List.mem_map_of_mem hname)))
  · obtain ⟨⟨u, slot⟩, hu, heq⟩ := List.mem_map.mp huse
    have hslot : slot ∈ d.usedSlots := List.mem_append_right _ (List.mem_map_of_mem hu)
    cases u with
    | read name => cases heq
    | write name =>
      cases heq
      obtain ⟨j, hj, hmeaning⟩ := mem_slots hu
      have hwrite : .write name ∈ usesAll d.body := List.mem_of_getElem? hj
      by_cases hlocal : name ∈ cellsAfter (fun name => decide (name ∉ globalizedAll d.body))
          d.params.toFinset ((usesAll d.body).take (j + 1))
      · obtain rfl : slot = .cell name := hmeaning.trans (if_pos hlocal)
        exact .inl (hcell hslot)
      · obtain rfl : slot = .global name := hmeaning.trans (if_neg hlocal)
        -- The assignment would have made a local variable.
        have hglobal : name ∈ globalizedAll d.body := by
          by_contra hnot
          refine hlocal (mem_cellsAfter.mpr (.inr ⟨decide_eq_true hnot, ?_⟩))
          apply List.mem_of_getElem? (i := j)
          rw [List.getElem?_take_of_lt (Nat.lt_succ_self j), hj]
        have hnot : t.frame.isLocal name = false := by
          rw [ht.isLocal name]
          exact decide_eq_false (not_not.mpr hglobal)
        obtain ⟨symbol, htarget, himmutable⟩ := ht.written name hwrite
        exact .inr ⟨name, hglobal, ht.disciplined.mutable hnot htarget himmutable⟩

namespace Compilation

variable {c : Compilation}

structure Confined (c : Compilation) : Prop where
  functions : ∀ f ∈ c.functions, ∀ a, .store a ∈ Ir.accesses f.code →
    f.HasCell a ∨ ∃ name, c.progress.Mutable name a
  top : ∀ a, .store a ∈ Ir.accesses c.top.body.code → ∃ name, c.progress.Mutable name a

theorem confined_start (board : Board) (strict : Bool) :
    (start board strict .numeric).Confined where
  functions f hf a ha := by
    unfold Function.code at ha
    rw [blocks_start hf] at ha
    exact absurd ha List.not_mem_nil
  top a ha := absurd ha List.not_mem_nil

/-- A store outside of functions was there before, or it is to a variable that can be changed. -/
theorem store_lowerTop (hc : c.Lawful) {st : Stmt} {a : Operand}
    (hno : (c.lowerTop st).state.errors ≤ c.state.errors)
    (ha : .store a ∈ Ir.accesses (c.lowerTop st).top.body.code) :
    .store a ∈ Ir.accesses c.top.body.code ∨ ∃ name, (c.lowerTop st).progress.Mutable name a := by
  have hnames : ∀ name ∈ st.assigned, True := fun _ _ => trivial
  have hlawful := (hc.lowerTop hnames).1
  have ht := hlawful.cells
  have houtside : (c.lowerTop st).state.frame.signature = none := hlawful.outside
  have haccounts := Lower.accounts_stmt hc.numeric ht st (.refl _) hc.cells.body.current
    (lowerTop_eq_ok hno) hno
  have hmem : .store a ∈ (c.lowerTop st).state.touched := ha
  refine (Multiset.mem_add.mp (Multiset.mem_of_le haccounts.touched hmem)).imp id fun hnew => ?_
  obtain ⟨⟨u, slot⟩, hu, heq⟩ := List.mem_map.mp (Multiset.mem_coe.mp hnew)
  cases u with
  | read name => cases heq
  | write name =>
    cases heq
    obtain ⟨j, hj, hmeaning⟩ := mem_slots hu
    have hnot : (c.lowerTop st).state.frame.isLocal name = false := by
      unfold Frame.isLocal
      rw [houtside]
      rfl
    -- There are no local variables outside of functions.
    have hcells : c.state.cells = ∅ := by
      unfold State.cells Scope.names
      rw [hc.cells.frame.outside hc.outside]
      rfl
    have hglobal : name ∉ cellsAfter (c.lowerTop st).state.frame.isLocal c.state.cells
        (st.uses.take (j + 1)) := by
      rw [mem_cellsAfter, hcells, hnot]
      simp
    obtain rfl : slot = .global name := hmeaning.trans (if_neg hglobal)
    obtain ⟨symbol, htarget, himmutable⟩ := haccounts.written name (List.mem_of_getElem? hj)
    exact ⟨name, ht.mutable hnot htarget himmutable⟩

theorem store_atItem (hc : c.Lawful) {unit : List Stmt}
    (hno : (c.lowerUnit unit).progress.errors ≤ c.progress.errors) {i : Nat} {a : Operand}
    (ha : .store a ∈ Ir.accesses (c.atItem unit i).top.body.code) :
    .store a ∈ Ir.accesses c.top.body.code ∨ ∃ name, (c.lowerUnit unit).progress.Mutable name a := by
  induction i with
  | zero =>
    have htop : (c.atItem unit 0).top = c.top := (declares_declareAll unit c).top
    exact .inl (htop ▸ ha)
  | succ i ih =>
    cases hitem : (c.declareAll unit).2[i]? with
    | none =>
      unfold atItem at ha
      rw [List.take_add_one, hitem, Option.toList_none, List.append_nil] at ha
      exact ih ha
    | some item =>
      have hextends := c.atItem_extends unit (i + 1)
      rw [atItem_succ hitem] at ha hextends
      cases item with
      | definition d =>
        rw [lowerItem, top_lowerDefinition] at ha
        exact ih ha
      | statement st =>
        have hstore := store_lowerTop (hc.atItem unit i).1 (errorCount_lowerItem_le hitem hno) ha
        exact hstore.elim ih fun h => .inr (h.imp fun _ h => h.mono hextends)

theorem Confined.lowerUnit (hc : c.Confined) (hlawful : c.Lawful) {unit : List Stmt}
    (hno : (c.lowerUnit unit).progress.errors ≤ c.progress.errors) :
    (c.lowerUnit unit).Confined := by
  have hextends := c.extends_lowerUnit unit
  refine ⟨fun f hf a ha => ?_, fun a ha => ?_⟩
  · obtain ⟨i, hf⟩ := List.mem_iff_getElem?.mp hf
    rcases function_lowerUnit hno hf with hold | ⟨-, k, st, d, -, hcompiled⟩
    · have hstore := hc.functions f (List.mem_of_getElem? hold) a ha
      exact hstore.imp_right fun h => h.imp fun _ h => h.mono hextends
    · have hlater := c.atItem_extends unit (k + 1)
      rw [atItem_succ hcompiled.item, lowerItem, lowerDefinition_eq] at hlater
      have haccounted := hlawful.accounted (List.mem_of_getElem? hcompiled.item) hcompiled.noError
      refine (haccounted.store hcompiled.blocks ha).imp_right ?_
      exact Exists.imp fun _ h => h.2.mono hlater
  · obtain ⟨log, hunit⟩ := c.lowerUnit_eq unit
    have htop : .store a ∈ Ir.accesses (c.atItem unit (c.declareAll unit).2.length).top.body.code := by
      unfold atItem
      rw [hunit, Body.code_finish] at ha
      rwa [List.take_length]
    refine (store_atItem hlawful hno htop).elim (fun h => ?_) id
    exact (hc.top a h).imp fun _ h => h.mono hextends

theorem Confined.foldl_lowerUnit (hc : c.Confined) (hlawful : c.Lawful)
    (units : List (List Stmt))
    (hno : (units.foldl Compilation.lowerUnit c).progress.errors ≤
      c.progress.errors) : (units.foldl Compilation.lowerUnit c).Confined := by
  induction units generalizing c with
  | nil => exact hc
  | cons unit units ih =>
    rw [List.foldl_cons] at hno ⊢
    obtain ⟨hfirst, hrest⟩ := errors_le_of_cons hno
    exact ih (hc.lowerUnit hlawful hfirst) (hlawful.lower unit) hrest

/-- A variable that can be changed is in a global that can be changed, and in no other one. Neither
constants of the board nor string literals are such. -/
theorem mutable_global {p : Progress} (hp : p.Paired) (hbuiltin : Builtin.globals ⊆ p.globals)
    {name : String} {a : Operand} (h : p.Mutable name a) :
    ∃ g ∈ p.globals, a = .global g.name g.initial.type ∧ g.immutable = false ∧
      (∀ g' ∈ Builtin.globals, g'.name ≠ g.name) ∧ (∀ bytes, g.initial ≠ .bytes bytes) ∧
      ∀ g' ∈ p.globals, g'.name = g.name → g' = g := by
  obtain ⟨symbol, hsymbol, hstorage, rfl⟩ := h
  have hmem : symbol ∈ p.scope.symbols := List.mem_of_find?_eq_some hsymbol
  have hname : symbol.name = name := by simpa using List.find?_some hsymbol
  obtain ⟨g, hg, hkept⟩ := hp.kept symbol hmem
  have hone {g' : Ir.Global} (hg' : g' ∈ p.globals) : g'.name = g.name → g' = g :=
    hp.eq_of_name hmem hg hg' hkept
  have hmutable : g.immutable = false :=
    Storage.module.inj (hkept.storage.symm.trans hstorage)
  refine ⟨g, hg, ?_, hmutable, fun g' hg' heq => ?_, fun bytes hbytes => ?_, fun g' hg' => hone hg'⟩
  · rw [hkept.name, hname, hkept.content]
  · have hall : ∀ g ∈ Builtin.globals, g.immutable = true := by decide
    rw [← hone (hbuiltin hg') heq, hall g' hg'] at hmutable
    cases hmutable
  · -- The type of a variable is not that of an array.
    have htype := hkept.content
    rw [hbytes] at htype
    cases htype' : symbol.type <;> rw [htype'] at htype <;> cases htype

/-- In an accepted module, every store goes to a stack cell of the same function or to a mutable
global, which is neither a constant of the board nor a string literal. A function stores to no
global but those of the names that it declares global, and its lowering leaves all other names of
the global scope as they are. -/
theorem stores_confined {board : Board} {strict : Bool} {sources : List Bytes}
    {units : List (List Stmt)} {M : Ir.Module}
    (hunits : sources.map (fun source => (parseSource source).stmts) = units)
    (hM : (units.foldl lowerUnit (start board strict .numeric)).module? = some M) :
    (∀ f ∈ M.functions, ∀ i ∈ f.code, ∀ x a, i.operation = .store x a → f.HasCell a ∨
      ∃ g ∈ M.globals, a = .global g.name g.initial.type ∧ g.immutable = false ∧
        (∀ g' ∈ Builtin.globals, g'.name ≠ g.name) ∧ (∀ bytes, g.initial ≠ .bytes bytes) ∧
        ∀ g' ∈ M.globals, g'.name = g.name → g' = g) ∧
      ∀ us unit vs i pos name params returns body, units = us ++ unit :: vs →
        unit[i]? = some (.define pos name params returns body) →
        ∃ f, M.functions[initCallee.id + 1 +
            (definitions (us.flatten ++ unit.take i)).length]? = some f ∧ f.name = name ∧
          ∀ x, x ∉ globalizedAll body →
            (∀ j ∈ f.code, ∀ v type, j.operation ≠ .store v (.global x type)) ∧
            ((us.foldl lowerUnit (start board strict .numeric)).atItem unit
                (i + 1)).progress.scope.find? x =
              ((us.foldl lowerUnit (start board strict .numeric)).atItem unit
                i).progress.scope.find? x := by
  have hstore {f : Function} {i : Instr} {x a : Operand} (hi : i ∈ f.code)
      (hop : i.operation = .store x a) : .store a ∈ Ir.accesses f.code :=
    List.mem_filterMap.mpr ⟨i, hi, by rw [hop]; rfl⟩
  constructor
  · obtain ⟨hno, rfl⟩ := module?_eq_some hM
    have hconfined := (confined_start board strict).foldl_lowerUnit (lawful_start board strict)
      units (Nat.le_trans (Nat.le_of_eq hno) (Nat.zero_le _))
    have hpaired := paired_lowerUnits Operators.lawful_numeric board strict sources
    rw [hunits] at hpaired
    have hbuiltin := (extends_lowerUnits units (start board strict .numeric)).globals.subset
    set c := units.foldl lowerUnit (start board strict .numeric)
    have hglobal {a : Operand} (h : ∃ name, c.progress.Mutable name a) :=
      mutable_global hpaired hbuiltin h.choose_spec
    intro f hf i hi x a hop
    rcases mem_or_of_mem_modify hf with hf | ⟨g, -, rfl⟩
    · exact (hconfined.functions f hf a (hstore hi hop)).imp_right hglobal
    · exact .inr (hglobal (hconfined.top a (hstore hi hop)))
  · rintro us unit vs i pos name params returns body rfl hst
    obtain ⟨d, f, hf, hcompiled⟩ := compiled_of_module? hM hst rfl
    obtain ⟨-, -, rfl, hheader⟩ := hcompiled.made
    have haccounted := ((lawful_start board strict).lowerAll us).accounted
      (List.mem_of_getElem? hcompiled.item) hcompiled.noError
    refine ⟨f, hf, congrArg Function.name hheader, fun x hx => ⟨fun j hj v type hop => ?_, ?_⟩⟩
    · rcases haccounted.store hcompiled.blocks (hstore hj hop) with ⟨r, type, heq, -⟩ |
        ⟨name, hname, symbol, -, -, heq⟩
      · cases heq
      · cases heq
        exact hx hname
    · rw [atItem_succ hcompiled.item, lowerItem, lowerDefinition_eq]
      exact find?_bodyState _ d hx

section Sample

/-- A function that changes one global and makes another one. It reads a constant, and it has a
string literal and a local variable with the name of a global. -/
def stepping : Bytes :=
  .ofString ("n = 0\nlow = 2\ndef tick(step):\n    global n\n    global m\n    n = n + step\n" ++
    "    low = n\n    m = LOW\n    print(\"on\")\n")

def declaredGlobal : Stmt → List String
  | .define _ _ _ _ body => globalizedAll body
  | _ => []

theorem stepping_stores_confined :
    ∃ M, ([(parseSource stepping).stmts].foldl lowerUnit (start .uno true .numeric)).module? =
        some M ∧
      ∃ f, M.functions[initCallee.id + 1]? = some f ∧ f.name = "tick" ∧
        (∀ i ∈ f.code, ∀ x a, i.operation = .store x a → f.HasCell a ∨ ∃ g ∈ M.globals,
          a = .global g.name g.initial.type ∧ g.immutable = false) ∧
        ∀ i ∈ f.code, ∀ v type, i.operation ≠ .store v (.global "low" type) := by
  have hno : ([(parseSource stepping).stmts].foldl lowerUnit
      (start .uno true .numeric)).diagnostics.hasErrors = false := by decide +kernel
  have hM : ([(parseSource stepping).stmts].foldl lowerUnit
      (start .uno true .numeric)).module? = some _ := if_neg (Bool.eq_false_iff.mp hno)
  obtain ⟨hstores, hdefined⟩ := stores_confined
    (rfl : [stepping].map (fun source => (parseSource source).stmts) = _) hM
  have hparsed : (parseSource stepping).stmts[2]?.map (fun st => (st.defined?, declaredGlobal st)) =
      some (some "tick", ["n", "m"]) := by decide +kernel
  have hfirst : (definitions ([].flatten ++ (parseSource stepping).stmts.take 2)).length = 0 := by
    decide +kernel
  obtain ⟨st, hst, hdefines⟩ := Option.map_eq_some_iff.mp hparsed
  injection hdefines with hname hglobals
  cases st with
  | define pos name params returns body =>
    cases hname
    obtain ⟨f, hf, hfname, hothers⟩ := hdefined [] _ [] 2 pos "tick" params returns body rfl hst
    rw [hfirst] at hf
    refine ⟨_, hM, f, hf, hfname, fun i hi x a hop => ?_, (hothers "low" ?_).1⟩
    · refine (hstores f (List.mem_of_getElem? hf) i hi x a hop).imp_right ?_
      rintro ⟨g, hg, ha, hmutable, -⟩
      exact ⟨g, hg, ha, hmutable⟩
    · have hbody : globalizedAll body = ["n", "m"] := hglobals
      rw [hbody]
      decide
  | _ => cases hname

end Sample

end Compilation

end Lowering

end BoardPython
