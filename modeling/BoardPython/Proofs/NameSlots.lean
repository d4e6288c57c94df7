import BoardPython.Proofs.StackDiscipline
import BoardPython.Proofs.VariableSlots

/-! What the names in a function mean. A parameter is a local variable, and so is a name that is
assigned without being declared global, but only from its first assignment on: before it, the name
means the module global. So all occurrences of a name mean one variable unless it is read before it
is assigned: `Compilation.accesses_definition`. -/
namespace BoardPython

open Ir (Access Function Instr Operand accesses)

/-- A name is assigned, and it is read before it is assigned for the first time. -/
def ReadFirst (us : List Use) (name : String) : Prop :=
  .write name ∈ us ∧ .read name ∈ us.takeWhile (· ≠ .write name)

instance (us : List Use) (name : String) : Decidable (ReadFirst us name) :=
  inferInstanceAs (Decidable (_ ∧ _))

/-- All occurrences of a name mean one variable. -/
def OneSlot (occurrences : List (Use × VariableSlot)) (name : String) : Prop :=
  ∀ u ∈ occurrences, ∀ v ∈ occurrences, u.1.name = name → v.1.name = name → u.2 = v.2

instance (occurrences : List (Use × VariableSlot)) (name : String) :
    Decidable (OneSlot occurrences name) := inferInstanceAs (Decidable (∀ u ∈ _, _))

section Slots

variable {isLocal : String → Bool} {cells : Finset String} {us : List Use} {name : String}

theorem mem_slots {u : Use × VariableSlot} (hu : u ∈ slots isLocal cells us) :
    ∃ i, us[i]? = some u.1 ∧
      u.2 = u.1.slot (cellsAfter isLocal cells (us.take (i + 1))) := by
  obtain ⟨i, hi⟩ := List.mem_iff_getElem?.mp hu
  rw [getElem?_slots] at hi
  obtain ⟨w, hw, rfl⟩ := Option.map_eq_some_iff.mp hi
  exact ⟨i, hw, rfl⟩

theorem mem_slots_of_getElem? {u : Use} {i : Nat} (hu : us[i]? = some u) :
    (u, u.slot (cellsAfter isLocal cells (us.take (i + 1)))) ∈ slots isLocal cells us := by
  apply List.mem_of_getElem? (i := i)
  rw [getElem?_slots, hu]
  rfl

theorem mem_takeWhile_ne {α : Type} [DecidableEq α] {l : List α} {a b : α} {i : Nat}
    (ha : l[i]? = some a) (hb : b ∉ l.take (i + 1)) : a ∈ l.takeWhile (· ≠ b) := by
  rw [← List.take_append_drop (i + 1) l, List.takeWhile_append_of_pos]
  · apply List.mem_append_left
    apply List.mem_of_getElem? (i := i)
    rw [List.getElem?_take_of_lt (Nat.lt_succ_self i), ha]
  · intro x hx
    exact decide_eq_true fun heq => hb (heq ▸ hx)

theorem write_mem_take_iff {u : Use} {i : Nat} (hu : us[i]? = some u) (hname : u.name = name)
    (hfirst : ¬ ReadFirst us name) : .write name ∈ us.take (i + 1) ↔ .write name ∈ us := by
  refine ⟨List.mem_of_mem_take, fun hwrite => ?_⟩
  by_contra hnot
  cases u with
  | read other =>
    obtain rfl : other = name := hname
    exact hfirst ⟨hwrite, mem_takeWhile_ne hu hnot⟩
  | write other =>
    obtain rfl : other = name := hname
    apply hnot
    apply List.mem_of_getElem? (i := i)
    rw [List.getElem?_take_of_lt (Nat.lt_succ_self i), hu]

/-- A name means one variable if it is local from the start or is never made local, or else if it is
not read before it is assigned. -/
theorem oneSlot_slots_iff : OneSlot (slots isLocal cells us) name ↔
    name ∈ cells ∨ isLocal name = false ∨ ¬ ReadFirst us name := by
  constructor
  · intro h
    by_contra hnot
    push Not at hnot
    obtain ⟨hcells, hlocal, hwrite, hread⟩ := hnot
    obtain ⟨i, hi⟩ := List.mem_iff_getElem?.mp hread
    obtain ⟨j, hj⟩ := List.mem_iff_getElem?.mp hwrite
    obtain ⟨rest, hrest⟩ := List.takeWhile_prefix (l := us) fun u => decide (u ≠ .write name)
    have hlt : i < (us.takeWhile (· ≠ .write name)).length := (List.getElem?_eq_some_iff.mp hi).1
    have hget : us[i]? = some (.read name) := by
      rw [← hrest, List.getElem?_append_left hlt]
      exact hi
    have htake : .write name ∉ us.take (i + 1) := by
      rw [← hrest, List.take_append_of_le_length hlt]
      intro hmem
      have hne := List.mem_takeWhile_imp (List.mem_of_mem_take hmem)
      simp at hne
    -- The read means a global, and the assignment a local variable.
    have heq := h _ (mem_slots_of_getElem? hget) _ (mem_slots_of_getElem? hj) rfl rfl
    have hglobal : name ∉ cellsAfter isLocal cells (us.take (i + 1)) := by
      rw [mem_cellsAfter]
      exact fun hmem => hmem.elim hcells fun hmem => htake hmem.2
    have hcell : name ∈ cellsAfter isLocal cells (us.take (j + 1)) := by
      rw [mem_cellsAfter]
      refine .inr ⟨by simpa using hlocal, ?_⟩
      apply List.mem_of_getElem? (i := j)
      rw [List.getElem?_take_of_lt (Nat.lt_succ_self j), hj]
    have hread : (Use.read name).slot (cellsAfter isLocal cells (us.take (i + 1))) =
        .global name := if_neg hglobal
    have hwrite : (Use.write name).slot (cellsAfter isLocal cells (us.take (j + 1))) =
        .cell name := if_pos hcell
    cases hread.symm.trans (heq.trans hwrite)
  · intro h u hu v hv hun hvn
    obtain ⟨i, hi, hui⟩ := mem_slots hu
    obtain ⟨j, hj, hvj⟩ := mem_slots hv
    have hsame : name ∈ cellsAfter isLocal cells (us.take (i + 1)) ↔
        name ∈ cellsAfter isLocal cells (us.take (j + 1)) := by
      rw [mem_cellsAfter, mem_cellsAfter]
      rcases h with h | h | h
      · simp [h]
      · simp [h]
      · rw [write_mem_take_iff hi hun h, write_mem_take_iff hj hvn h]
    rw [hui, hvj, Use.slot, Use.slot, hun, hvn]
    simp only [hsame]

end Slots

/-- A function has variables at certain addresses: each local one has a stack cell of its own, and
each other one is the module global of its name. -/
structure Ir.Function.Keeps (f : Function) (address : VariableSlot → Operand)
    (slots : List VariableSlot) : Prop where
  cell : ∀ name, .cell name ∈ slots → ∃ r type, address (.cell name) = .register r (.pointer type) ∧
    (⟨some r, .alloca type⟩ : Instr) ∈ f.cells
  apart : ∀ name name', .cell name ∈ slots → .cell name' ∈ slots →
    address (.cell name) = address (.cell name') → name = name'
  global : ∀ name, .global name ∈ slots → ∃ type, address (.global name) = .global name type

namespace Lowering

theorem Body.code_eq_of_blocks {f : Function} {b : Body} (h : f.blocks = b.blocks) :
    f.code = b.code := by
  unfold Function.code Body.code
  rw [h]

theorem nodup_of_results {is : List Instr} (hnodup : (Ir.results is).Nodup)
    (hsome : ∀ i ∈ is, i.result.isSome) : is.Nodup := by
  unfold Ir.results at hnodup
  rw [List.nodup_iff_pairwise_ne, List.pairwise_filterMap] at hnodup
  refine hnodup.imp_of_mem fun {i j} hi _ hne heq => ?_
  obtain ⟨r, hr⟩ := Option.isSome_iff_exists.mp (hsome i hi)
  exact hne r hr r (heq ▸ hr) rfl

theorem Symbol.cell?_eq_some {symbol : Symbol} {i : Instr} (h : symbol.cell? = some i) :
    ∃ r, symbol.storage = .stack r ∧ i = ⟨some r, .alloca symbol.type.ir⟩ := by
  unfold cell? at h
  split at h
  · rename_i r hstorage
    exact ⟨r, hstorage, (Option.some.inj h).symm⟩
  · cases h

theorem State.Disciplined.keeps {k : Names} {t : State} (ht : t.Disciplined k) {f : Function}
    (hf : f.blocks = t.frame.body.blocks) {slots : List VariableSlot}
    (hslots : ∀ slot ∈ slots, (t.symbol? slot).isSome) : f.Keeps t.address slots := by
  have hcells := ht.cells_eq hf
  have hstack (name : String) (hname : .cell name ∈ slots) : ∃ symbol ∈ t.frame.locals.symbols,
      symbol.name = name ∧ ∃ r, t.address (.cell name) = .register r (.pointer symbol.type.ir) ∧
        symbol.cell? = some ⟨some r, .alloca symbol.type.ir⟩ ∧
        (⟨some r, .alloca symbol.type.ir⟩ : Instr) ∈ f.cells := by
    obtain ⟨symbol, hsymbol⟩ := Option.isSome_iff_exists.mp (hslots _ hname)
    have hmem : symbol ∈ t.frame.locals.symbols := List.mem_of_find?_eq_some hsymbol
    have hcell : symbol.cell? ∈ f.cells.map some := hcells ▸ List.mem_map_of_mem hmem
    obtain ⟨i, hi, heq⟩ := List.mem_map.mp hcell
    obtain ⟨r, hstorage, rfl⟩ := Symbol.cell?_eq_some heq.symm
    refine ⟨symbol, hmem, by simpa using List.find?_some hsymbol, r, ?_, heq.symm, hi⟩
    have haddress := ht.address?_eq hsymbol
    rw [Symbol.address?, hstorage] at haddress
    exact (Option.some.inj haddress).symm
  have hnodup : (t.frame.locals.symbols.map Symbol.cell?).Nodup := by
    rw [← hcells]
    refine List.Nodup.map (Option.some_injective _) (nodup_of_results ?_ fun i hi => ?_)
    · have hsub : (Ir.results f.cells).Sublist (Ir.results f.code) :=
        List.filter_sublist.filterMap _
      exact (Body.code_eq_of_blocks hf ▸ ht.body.single).sublist hsub
    · have hmem : some i ∈ t.frame.locals.symbols.map Symbol.cell? :=
        hcells ▸ List.mem_map_of_mem hi
      obtain ⟨symbol, -, hsymbol⟩ := List.mem_map.mp hmem
      obtain ⟨r, -, rfl⟩ := Symbol.cell?_eq_some hsymbol
      rfl
  refine ⟨fun name hname => ?_, fun name name' hname hname' heq => ?_, fun name hname => ?_⟩
  · obtain ⟨symbol, -, -, r, haddress, -, hi⟩ := hstack name hname
    exact ⟨r, _, haddress, hi⟩
  · obtain ⟨symbol, hmem, rfl, r, haddress, hcell, -⟩ := hstack name hname
    obtain ⟨symbol', hmem', rfl, r', haddress', hcell', -⟩ := hstack name' hname'
    -- One address is that of one cell, and one cell is that of one variable.
    rw [haddress, haddress'] at heq
    have hsame : symbol.cell? = symbol'.cell? := by
      injection heq with hr htype
      injection htype with htype
      rw [hcell, hcell', hr, htype]
    rw [List.inj_on_of_nodup_map hnodup hmem hmem' hsame]
  · obtain ⟨symbol, hsymbol⟩ := Option.isSome_iff_exists.mp (hslots _ hname)
    obtain ⟨immutable, hstorage⟩ := ht.globals symbol (List.mem_of_find?_eq_some hsymbol)
    have haddress := ht.address?_eq hsymbol
    rw [Symbol.address?, hstorage] at haddress
    refine ⟨symbol.type.ir, ?_⟩
    have hname : symbol.name = name := by simpa using List.find?_some hsymbol
    rw [← Option.some.inj haddress, hname]

namespace Definition

/-- The occurrences of variables in a function with what they mean. -/
def occurrences (d : Definition) : List (Use × VariableSlot) :=
  slots (fun name => decide (name ∉ globalizedAll d.body)) d.params.toFinset (usesAll d.body)

/-- What a function does to memory if its variables are at certain addresses. -/
def accesses (d : Definition) (address : VariableSlot → Operand) : List Access :=
  d.params.map (fun name => .store (address (.cell name))) ++
    d.occurrences.map fun u => u.1.access (address u.2)

/-- The variables that a function has or uses. -/
def usedSlots (d : Definition) : List VariableSlot :=
  d.params.map .cell ++ d.occurrences.map Prod.snd

end Definition

/-- The state in which a function has been lowered without errors. -/
structure State.Accounted (t : State) (d : Definition) : Prop where
  disciplined : t.Disciplined d.names
  isLocal : ∀ name, t.frame.isLocal name = decide (name ∉ globalizedAll d.body)
  touched : t.touched = d.accesses t.address
  known : ∀ slot ∈ d.usedSlots, (t.symbol? slot).isSome
  written : ∀ name, .write name ∈ usesAll d.body →
    ∃ symbol, t.target? name = some symbol ∧ symbol.isImmutable = false

theorem slots_params {isLocal : String → Bool} {params : List String}
    (hparams : ∀ name ∈ params, isLocal name = true) (cells : Finset String) :
    slots isLocal cells (params.map .write) = params.map fun name => (.write name, .cell name) := by
  induction params generalizing cells with
  | nil => rfl
  | cons name params ih =>
    obtain ⟨hname, hrest⟩ := List.forall_mem_cons.mp hparams
    have hmem : name ∈ (Use.write name).extend isLocal cells := by
      rw [Use.extend, if_pos hname]
      exact Finset.mem_insert_self _ _
    have hslot : (Use.write name).slot ((Use.write name).extend isLocal cells) = .cell name :=
      if_pos hmem
    rw [List.map_cons, List.map_cons, slots, hslot, ih hrest]

namespace Compilation

variable {c : Compilation} {d : Definition}

theorem Lawful.accounted (hc : c.Lawful) {unit : List Stmt} {i : Nat}
    (hd : .definition d ∈ (c.declareAll unit).2)
    (hno : ((c.atItem unit i).bodyState d).errors ≤ (c.atItem unit i).state.errors) :
    ((c.atItem unit i).bodyState d).Accounted d := by
  obtain ⟨hlawful, hlowered⟩ := hc.atItem unit i
  have henv : (c.atItem unit i).environment.operators = .numeric := hlawful.numeric
  have hproper := proper_declareAll unit c d hd
  have ht := (c.atItem unit i).lower_eq_bodyState d
  obtain ⟨hdisciplined, hsignature, ⟨symbols, hbegins, hholds⟩, hcovers⟩ := hlowered d hd
  set t := (c.atItem unit i).bodyState d
  have hcovers := hcovers hno
  have hisLocal (name : String) : t.frame.isLocal name = decide (name ∉ globalizedAll d.body) := by
    have hiff : name ∈ t.frame.globalNames ↔ name ∈ globalizedAll d.body :=
      ⟨hdisciplined.frame.declared name, hcovers.declared name⟩
    rw [Frame.isLocal, hsignature]
    simp [hiff]
  have hparams : ∀ name ∈ d.params, name ∈ t.cells := by
    intro name hname
    rw [← hproper.map_fst_zip, ← State.names_of_holds hholds] at hname
    exact List.mem_toFinset.mpr ((hbegins.map _).subset hname)
  have hlocal : ∀ name ∈ d.params, t.frame.isLocal name = true := fun name hname =>
    ((State.Before.refl t).isLocal_of_mem hdisciplined (hparams name hname)).1
  have haccounts := d.accounts_lower hproper henv hdisciplined ht hno
  -- After its parameters, the function has them as variables.
  have hcells : cellsAfter t.frame.isLocal ∅ (d.params.map .write) = d.params.toFinset := by
    ext name
    rw [mem_cellsAfter, List.mem_toFinset]
    constructor
    · rintro (hname | ⟨-, hname⟩)
      · exact absurd hname (Finset.notMem_empty _)
      · obtain ⟨other, hother, heq⟩ := List.mem_map.mp hname
        cases heq
        exact hother
    · intro hname
      exact .inr ⟨hlocal name hname, List.mem_map_of_mem hname⟩
  have hfun : t.frame.isLocal = fun name => decide (name ∉ globalizedAll d.body) := funext hisLocal
  have hslots : slots t.frame.isLocal ∅ (d.params.map Use.write ++ usesAll d.body) =
      d.params.map (fun name => (Use.write name, VariableSlot.cell name)) ++ d.occurrences := by
    rw [slots_append, slots_params hlocal, hcells, hfun]
    rfl
  refine ⟨hdisciplined, hisLocal, ?_, ?_, ?_⟩
  · have hplaced :
        t.placed ∅ (d.params.map Use.write ++ usesAll d.body) = d.accesses t.address := by
      unfold State.placed
      rw [hslots, List.map_append, List.map_map]
      rfl
    exact (haccounts.complete (hsignature ▸ rfl)).trans ((zero_add _).trans hplaced)
  · intro slot hslot
    have hmem : slot ∈ (slots t.frame.isLocal ∅ (d.params.map Use.write ++ usesAll d.body)).map
        Prod.snd := by
      rw [hslots, List.map_append, List.map_map]
      exact hslot
    obtain ⟨u, hu, rfl⟩ := List.mem_map.mp hmem
    exact haccounts.known u hu
  · intro name hname
    exact haccounts.written name (List.mem_append_right _ hname)

/-- Each occurrence of a variable in a function that is lowered without errors is a load or a store
at the address of its slot, and each parameter is stored in a stack cell; there are no other loads
and stores. A name means a local variable from its first assignment on, and a global before it, so
it means one variable unless it is read before it is assigned. -/
theorem accesses_definition {board : Board} {strict : Bool} {units : List (List Stmt)}
    {unit : List Stmt} {i : Nat} {d : Definition} {c : Compilation}
    (hc : units.foldl lowerUnit (start board strict .numeric) = c)
    (hd : (c.declareAll unit).2[i]? = some (.definition d))
    (hno : (c.atItem unit (i + 1)).diagnostics.errorCount ≤
      (c.atItem unit i).diagnostics.errorCount) :
    ∃ st ∈ unit, ∃ f address,
      (c.atItem unit (i + 1)).functions[d.signature.callee.id]? = some f ∧
      d.MadeFrom f.header st ∧ f.Keeps address d.usedSlots ∧
      (Ir.accesses f.code).Perm (d.accesses address) ∧
      (∀ j : Nat, d.occurrences[j]? = (usesAll d.body)[j]?.map fun u =>
        (u, if u.name ∈ d.params ∨ u.name ∉ globalizedAll d.body ∧
            .write u.name ∈ (usesAll d.body).take (j + 1)
          then .cell u.name else .global u.name)) ∧
      ∀ name, OneSlot d.occurrences name ↔
        name ∈ d.params ∨ name ∈ globalizedAll d.body ∨ ¬ ReadFirst (usesAll d.body) name := by
  have hlawful : c.Lawful := hc ▸ (lawful_start board strict).lowerAll units
  have hmem : .definition d ∈ (c.declareAll unit).2 := List.mem_of_getElem? hd
  obtain ⟨st, hst, f0, hf0, hmade⟩ := (made_declareAll unit c).2 d hmem
  obtain ⟨f, hf, hheader, hblocks⟩ := function_atItem_succ hd hf0 hmade
  have hno : ((c.atItem unit i).bodyState d).errors ≤ (c.atItem unit i).state.errors := by
    rw [atItem_succ hd, lowerItem, lowerDefinition_eq] at hno
    exact hno
  have haccounted := hlawful.accounted hmem hno
  refine ⟨st, hst, f, _, hf, hheader, haccounted.disciplined.keeps hblocks haccounted.known, ?_, ?_,
    fun name => ?_⟩
  · rw [Body.code_eq_of_blocks hblocks]
    exact Multiset.coe_eq_coe.mp haccounted.touched
  · intro j
    rw [Definition.occurrences, getElem?_slots]
    congr 1
    funext u
    simp only [Use.slot, mem_cellsAfter, List.mem_toFinset, decide_eq_true_eq]
  · rw [Definition.occurrences, oneSlot_slots_iff]
    simp

section Sample

/-- `limit = 9`, a function with an error, and then
`def count(step): global n; n = 5; while n: n -= step; low = limit; limit = n`. -/
def limiting : List Stmt :=
  [.assign ⟨1, 1⟩ "limit" none (.number ⟨1, 9⟩ (.int 9) "9"),
    .define ⟨2, 1⟩ "broken" [] none [.evaluate ⟨3, 5⟩ (.name ⟨3, 5⟩ "unknown")],
    .define ⟨4, 1⟩ "count" [⟨⟨4, 11⟩, "step", none⟩] none
      [.globals ⟨5, 5⟩ ["n"], .assign ⟨6, 5⟩ "n" none (.number ⟨6, 9⟩ (.int 5) "5"),
        .loop ⟨7, 5⟩ (.name ⟨7, 11⟩ "n")
          [.augment ⟨8, 9⟩ "n" .minus (.name ⟨8, 14⟩ "step"),
            .assign ⟨9, 9⟩ "low" none (.name ⟨9, 15⟩ "limit"),
            .assign ⟨10, 9⟩ "limit" none (.name ⟨10, 17⟩ "n")]]]

theorem limiting_slots : ∃ d,
    ((start .uno true .numeric).declareAll limiting).2[2]? = some (.definition d) ∧
      ((start .uno true .numeric).lowerUnit limiting).diagnostics.hasErrors = true ∧
      OneSlot d.occurrences "step" ∧ OneSlot d.occurrences "n" ∧ OneSlot d.occurrences "low" ∧
      ¬ OneSlot d.occurrences "limit" ∧
      ∃ f address, ((start .uno true .numeric).atItem limiting 3).functions[
          d.signature.callee.id]? = some f ∧ f.Keeps address d.usedSlots ∧
        (Ir.accesses f.code).Perm
          ([.store (address (.cell "step")), .store (address (.global "n")),
            .load (address (.global "n")), .load (address (.global "n")),
            .load (address (.cell "step")), .store (address (.global "n")),
            .load (address (.global "limit")), .store (address (.cell "low")),
            .load (address (.global "n")), .store (address (.cell "limit"))]) := by
  have hd : ((start .uno true .numeric).declareAll limiting).2[2]? = some (Item.definition _) := rfl
  have hno : ((start .uno true .numeric).atItem limiting 3).diagnostics.errorCount ≤
      ((start .uno true .numeric).atItem limiting 2).diagnostics.errorCount := by decide +kernel
  obtain ⟨-, -, f, address, hf, -, hkeeps, hperm, -, hone⟩ :=
    accesses_definition (i := 2) (List.foldl_nil : [].foldl lowerUnit _ = _) hd hno
  refine ⟨_, hd, by decide +kernel, (hone "step").mpr (by decide), (hone "n").mpr (by decide),
    (hone "low").mpr (by decide), fun h => absurd ((hone "limit").mp h) (by decide),
    f, address, hf, hkeeps, hperm⟩

/-- The loads and stores of the last function of an accepted source. -/
def lastAccesses? (source : Bytes) : Option (List Access) :=
  ((start .uno true .numeric).addSources [source]).module?.bind fun M =>
    M.functions.getLast?.map fun f => Ir.accesses f.code

/-- A name can mean a global in one place and a local variable in the next. -/
theorem accepted_two_slots :
    lastAccesses? (.ofString "x = 1\ndef f():\n    y = x\n    x = 2\n") =
        some [.load (.global "x" (.int 16)), .store (.register 1 (.pointer (.int 16))),
          .store (.register 2 (.pointer (.int 16)))] ∧
      lastAccesses? (.ofString "x = 1\ndef f():\n    x = x + 1\n") =
        some [.load (.global "x" (.int 16)), .store (.register 2 (.pointer (.int 16)))] := by
  decide +kernel

end Sample

end Compilation

end Lowering

end BoardPython
