import BoardPython.Proofs.TypedModule

/-! The discipline of values and stack cells in accepted modules: `accepted_stack_discipline`. What
an instruction computes with comes from its own block, variables are kept in stack cells of the
entry, one for each parameter and each local variable, and the address of a cell goes nowhere
else. -/
namespace BoardPython

/-- The names that a function assigns to without declaring them global, apart from its parameters.
Each is there once. -/
def localNames (params : List String) (body : List Stmt) : List String :=
  ((assignedAll body).filter fun name => name ∉ params ∧ name ∉ globalizedAll body).dedup

namespace Ir

def Function.cells (f : Function) : List Instr := f.code.filter (·.isAlloca)

/-- A function has a stack cell for each of its variables: first those of its parameters, which are
stored in them, and then one for each local variable. -/
structure Function.HasVariables (name : String) (params : List String) (body : List Stmt)
    (f : Function) : Prop where
  named : f.name = name
  takes : f.params.map (·.name) = params.map some
  count : f.cells.length = params.length + (localNames params body).length
  spilled : ∀ (j : Nat) (p : Param), f.params[j]? = some p → ∃ name r, p.name = some name ∧
    f.cells[j]? = some ⟨some r, .alloca p.type⟩ ∧
    ⟨none, .store (.param name p.type) (.register r (.pointer p.type))⟩ ∈ f.code

end Ir

/-- A function has the variables of a definition. -/
def Stmt.Realized (f : Ir.Function) : Stmt → Prop
  | .define _ name params _ body => f.HasVariables name (params.map (·.name)) body
  | _ => False

namespace Lowering

open Ir (Block Instr Label Operand Sequential)
open Relation (ReflTransGen)

namespace Body

variable {b : Body}

theorem Disciplined.cells_eq (hb : b.Disciplined) {f : Ir.Function} (hf : f.blocks = b.blocks) :
    f.cells = (b.codeAt .entry).filter (·.isAlloca) := by
  obtain ⟨entry, rest, hblocks, hentry, hrest⟩ := hb.blocks_eq
  have hmem {block : Block} (h : block ∈ entry :: rest) : block ∈ b.blocks := hblocks ▸ h
  have hnone : (rest.flatMap (·.instrs)).filter (·.isAlloca) = [] := by
    rw [List.filter_eq_nil_iff]
    intro i hi
    obtain ⟨block, hblock, hi⟩ := List.mem_flatMap.mp hi
    rw [← codeAt_of_mem hb.nodup (hmem (List.mem_cons_of_mem _ hblock))] at hi
    rw [hb.cells block.label (hrest block hblock) i hi]
    exact Bool.false_ne_true
  rw [← hentry, codeAt_of_mem hb.nodup (hmem (List.mem_cons_self ..))]
  unfold Ir.Function.cells Ir.Function.code
  rw [hf, hblocks, List.flatMap_cons, List.filter_append, hnone, List.append_nil]

end Body

theorem State.Disciplined.cells_eq {k : Names} {s : State} (hs : s.Disciplined k) {f : Ir.Function}
    (hf : f.blocks = s.frame.body.blocks) :
    f.cells.map some = s.frame.locals.symbols.map Symbol.cell? := by
  rw [hs.body.cells_eq hf]
  exact hs.frame.cells.symm

theorem State.names_of_holds {s : State} {params : List (String × ValueType)}
    {symbols : List Symbol} (h : List.Forall₂ s.Holds params symbols) :
    symbols.map (·.name) = params.map Prod.fst := by
  induction h with
  | nil => rfl
  | cons hfirst _ ih => rw [List.map_cons, List.map_cons, hfirst.name, ih]

namespace Definition

structure Stored (d : Definition) (f : Ir.Function) : Prop where
  count : f.cells.length = d.params.length + (localNames d.params d.body).length
  spilled : ∀ (j : Nat) (p : String × ValueType),
    (d.params.zip d.signature.params)[j]? = some p → ∃ r,
      f.cells[j]? = some ⟨some r, .alloca p.2.ir⟩ ∧
      ⟨none, .store (.param p.1 p.2.ir) (.register r (.pointer p.2.ir))⟩ ∈ f.code

theorem perm_names {d : Definition} (hd : d.Proper) {s : State} (hs : s.Disciplined d.names)
    (hparams : ∀ name ∈ d.params, name ∈ s.frame.locals.names)
    (hcovers : s.Covers (assignedAll d.body) (globalizedAll d.body)) :
    s.frame.locals.names.Perm (d.params ++ localNames d.params d.body) := by
  have hmem (name : String) : name ∈ localNames d.params d.body ↔ name ∈ assignedAll d.body ∧
      name ∉ d.params ∧ name ∉ globalizedAll d.body := by
    unfold localNames
    rw [List.mem_dedup, List.mem_filter, decide_eq_true_iff]
  have hnodup : (d.params ++ localNames d.params d.body).Nodup :=
    hd.nodup.append (List.nodup_dedup _) fun name hname hlocal =>
      ((hmem name).mp hlocal).2.1 hname
  rw [List.perm_ext_iff_of_nodup hs.frame.single hnodup]
  intro name
  rw [List.mem_append, hmem]
  constructor
  · intro hname
    -- A variable has a name that can be assigned, and it has not been declared global.
    have hnot : name ∉ globalizedAll d.body := fun hglobal =>
      hs.frame.apart name hname (hcovers.declared name hglobal)
    by_cases hparam : name ∈ d.params
    · exact .inl hparam
    · exact .inr ⟨(hs.frame.assigned name hname).resolve_left hparam, hparam, hnot⟩
  · rintro (hname | ⟨hassigned, -, hnot⟩)
    · exact hparams name hname
    · rcases hcovers.assigned name hassigned with hglobal | hlocal
      · exact absurd (hs.frame.declared name hglobal) hnot
      · exact hlocal

theorem LoweredTo.stored {d : Definition} {p : Progress} {s : State} (h : d.LoweredTo p s)
    (hd : d.Proper) (hno : s.errors ≤ p.errors) {f : Ir.Function}
    (hf : f.blocks = s.frame.body.blocks) : d.Stored f := by
  obtain ⟨symbols, hbegins, hholds⟩ := h.holds
  have hcells := h.disciplined.cells_eq hf
  have hnames : symbols.map (·.name) = d.params := by
    rw [← hd.map_fst_zip]
    exact State.names_of_holds hholds
  have hparams : ∀ name ∈ d.params, name ∈ s.frame.locals.names := by
    rw [← hnames]
    exact fun name hname => (hbegins.map _).subset hname
  constructor
  · have hlength := congrArg List.length hcells
    rw [List.length_map, List.length_map] at hlength
    have hperm := (perm_names hd h.disciplined hparams (h.covers hno)).length_eq
    rw [Scope.names, List.length_map, List.length_append] at hperm
    omega
  · intro j p hp
    obtain ⟨hlength, hall⟩ := List.forall₂_iff_get.mp hholds
    obtain ⟨hj, hget⟩ := List.getElem?_eq_some_iff.mp hp
    have hj' : j < symbols.length := hlength ▸ hj
    have hsymbol : s.Holds p symbols[j] := hget ▸ hall j hj hj'
    obtain ⟨r, hcell, hstore⟩ := hsymbol.stored
    refine ⟨r, ?_, ?_⟩
    · -- The variables of the parameters come first, and so do their cells.
      have hfind : s.frame.locals.symbols[j]? = some symbols[j] := by
        obtain ⟨rest, hrest⟩ := hbegins
        rw [← hrest, List.getElem?_append_left hj', List.getElem?_eq_getElem hj']
      have hsome := congrArg (·[j]?) hcells
      rw [List.getElem?_map, List.getElem?_map, hfind, Option.map_some, hcell] at hsome
      obtain ⟨cell, hcell', heq⟩ := Option.map_eq_some_iff.mp hsome
      rw [hcell', Option.some.inj heq]
    · unfold Ir.Function.code
      rw [hf]
      exact (Body.mem_code_iff h.disciplined.body.nodup).mpr ⟨.entry, hstore⟩

end Definition

namespace Definition

variable {d : Definition} {f : Ir.Function} {st : Stmt}

theorem MadeFrom.realized (h : d.MadeFrom f.header st) (hstored : d.Stored f) :
    st.Realized f := by
  have htakes := h.params_eq
  obtain ⟨pos, name, params, returns, rfl, hd, hparams, hheader⟩ := h.exists_eq
  refine ⟨congrArg Ir.Function.name hheader, ?_, ?_, ?_⟩
  · rw [htakes, hparams]
  · rw [← hparams]
    exact hstored.count
  · intro j p hp
    have hp : (Compilation.declaration name d.params d.signature.params
        d.signature.result).params[j]? = some p := hheader ▸ hp
    rw [Compilation.declaration, List.getElem?_map] at hp
    obtain ⟨q, hq, rfl⟩ := Option.map_eq_some_iff.mp hp
    obtain ⟨r, hcell, hstore⟩ := hstored.spilled j q hq
    exact ⟨q.1, r, rfl, hcell, hstore⟩

end Definition

namespace Compilation

variable {c : Compilation}

variable {c' : Compilation} {d : Definition} {f : Ir.Function}

variable {items : List Item} {defs unit : List Stmt}

/-- The functions after the builtin ones and the one for code outside of functions are those of the
definitions, in their order. -/
structure Realizes (c : Compilation) (defs : List Stmt) : Prop where
  init : initCallee.id < c.functions.length
  builtin : ∀ f ∈ c.functions.take (initCallee.id + 1), f.blocks = []
  defined : List.Forall₂ (fun st f => st.Realized f) defs (c.functions.drop (initCallee.id + 1))

theorem Realizes.append {defs' : List Stmt} (h : c.Realizes defs) {new : List Ir.Function}
    (hnew : c'.functions = c.functions ++ new)
    (hdefs' : List.Forall₂ (fun st f => st.Realized f) defs' new) :
    c'.Realizes (defs ++ defs') := by
  have hle : initCallee.id + 1 ≤ c.functions.length := h.init
  refine ⟨?_, ?_, ?_⟩
  · rw [hnew, List.length_append]
    omega
  · rw [hnew, List.take_append_of_le_length hle]
    exact h.builtin
  · rw [hnew, List.drop_append_of_le_length hle]
    exact List.rel_append h.defined hdefs'

theorem realizes_start (board : Board) (strict : Bool) :
    (start board strict .numeric).Realizes [] where
  init := by
    simp [start, initCallee]
  builtin f hf := blocks_start (List.mem_of_mem_take hf)
  defined := by
    simp [start, initCallee]

theorem Lawful.functions_lowerUnit (hc : c.Lawful)
    (hno : (c.lowerUnit unit).progress.errors ≤ c.progress.errors) :
    ∃ new, (c.lowerUnit unit).functions = c.functions ++ new ∧
      List.Forall₂ (fun st f => st.Realized f) (definitions unit) new := by
  obtain ⟨new, hnew⟩ := c.functions_lowerUnit unit
  have hlength := length_functions_lowerUnit hno
  rw [← hnew, List.length_append] at hlength
  refine ⟨new, hnew.symm, List.forall₂_iff_get.mpr ⟨by omega, fun j hj hj' => ?_⟩⟩
  have hf : (c.lowerUnit unit).functions[c.functions.length + j]? = some new[j] := by
    rw [← hnew, List.getElem?_append_right (Nat.le_add_right ..), Nat.add_sub_cancel_left,
      List.getElem?_eq_getElem hj']
  rcases function_lowerUnit hno hf with hold | ⟨-, k, st, d, hst, hcompiled⟩
  · exact absurd (List.getElem?_eq_some_iff.mp hold).1 (by omega)
  · rw [Nat.add_sub_cancel_left, List.getElem?_eq_getElem hj] at hst
    obtain rfl := Option.some.inj hst
    have hlowered := (hc.atItem unit k).2 d (List.mem_of_getElem? hcompiled.item)
    exact hcompiled.made.realized
      (hlowered.stored hcompiled.made.proper hcompiled.noError hcompiled.blocks)

theorem Lawful.realizes_lowerAll (hc : c.Lawful) (hdefs : c.Realizes defs)
    (units : List (List Stmt))
    (hno : (units.foldl Compilation.lowerUnit c).progress.errors ≤ c.progress.errors) :
    (units.foldl Compilation.lowerUnit c).Realizes (defs ++ definitions units.flatten) := by
  induction units generalizing c defs with
  | nil => exact (List.append_nil defs).symm ▸ hdefs
  | cons unit units ih =>
    rw [List.foldl_cons] at hno ⊢
    obtain ⟨hfirst, hrest⟩ := errors_le_of_cons hno
    obtain ⟨new, hnew, hrealized⟩ := hc.functions_lowerUnit hfirst
    have hdefs1 := hdefs.append hnew hrealized
    rw [List.flatten_cons, definitions_append, ← List.append_assoc]
    exact ih (hc.lower unit) hdefs1 hrest

/-- In an accepted module, values and stack cells are disciplined in all functions. The builtin
functions and the code outside of functions have no stack cells; each function of a definition has
one for each parameter and one for each local variable. -/
theorem accepted_stack_discipline {board : Board} {strict : Bool} {units : List (List Stmt)}
    {M : Ir.Module} (hM : (units.foldl lowerUnit (start board strict .numeric)).module? = some M) :
    (∀ f ∈ M.functions, f.Disciplined) ∧
      (∀ f ∈ M.functions.take (initCallee.id + 1), f.cells = []) ∧
      List.Forall₂ (fun st f => st.Realized f) (definitions units.flatten)
        (M.functions.drop (initCallee.id + 1)) := by
  obtain ⟨hno, rfl⟩ := module?_eq_some hM
  have hc := (lawful_start board strict).lowerAll units
  have hdefs := (lawful_start board strict).realizes_lowerAll (realizes_start board strict) units
    (by rw [hno]; exact Nat.zero_le _)
  set c := units.foldl lowerUnit (start board strict .numeric)
  unfold toModule
  dsimp only
  refine ⟨fun f hf => ?_, fun f hf => ?_, ?_⟩
  · rcases mem_or_of_mem_modify hf with hf | ⟨f, -, rfl⟩
    · exact hc.disciplined f hf
    · exact hc.cells.body.function rfl
  · rw [List.take_modify] at hf
    rcases mem_or_of_mem_modify hf with hf | ⟨f, -, rfl⟩
    · unfold Ir.Function.cells Ir.Function.code
      rw [hdefs.builtin f hf]
      rfl
    · -- Names outside of functions are those of globals.
      have hcells := hc.cells.cells_eq (f := { f with blocks := c.top.body.blocks }) rfl
      rw [hc.cells.frame.outside hc.outside] at hcells
      exact List.map_eq_nil_iff.mp hcells
  · rw [List.drop_modify_of_lt _ _ _ _ (Nat.lt_succ_self _)]
    exact hdefs.defined

section Sample

/-- A function with two parameters and a local variable in a loop. It also assigns to a global. -/
def leveling : List Stmt :=
  (parseSource (.ofString (String.join [
    "level = 3\n",
    "def scale(n, step):\n",
    "    global level\n",
    "    while n:\n",
    "        k = step + n\n",
    "        level = k\n",
    "        if k:\n            return\n",
    "        n -= 1\n"]))).stmts

/-- Calls of the function. -/
def ramp : List Stmt :=
  (parseSource (.ofString "scale(level, 2)\ndef setup():\n    scale(1, level)\n")).stmts

theorem leveling_ramp_disciplined :
    ∃ M, ([leveling, ramp].foldl lowerUnit (start .uno true .numeric)).module? = some M ∧
      (M.functions.map (·.cells.length)).drop initCallee.id = [0, 3, 0] ∧
      (∀ f ∈ M.functions, f.Disciplined) ∧
      (∀ f ∈ M.functions.take (initCallee.id + 1), f.cells = []) ∧
      List.Forall₂ (fun st f => st.Realized f) (definitions [leveling, ramp].flatten)
        (M.functions.drop (initCallee.id + 1)) := by
  have hno : ([leveling, ramp].foldl lowerUnit
      (start .uno true .numeric)).diagnostics.hasErrors = false := by
    decide +kernel
  have hM : ([leveling, ramp].foldl lowerUnit (start .uno true .numeric)).module? = some _ :=
    if_neg (Bool.eq_false_iff.mp hno)
  exact ⟨_, hM, by decide +kernel, accepted_stack_discipline hM⟩

end Sample

end Compilation

end Lowering

end BoardPython
