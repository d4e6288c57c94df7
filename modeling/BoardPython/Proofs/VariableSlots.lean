import BoardPython.Proofs.DisciplinedLowering
import BoardPython.Proofs.GlobalFrame
import BoardPython.Proofs.VariableUses

/-! The slots of variables. An occurrence of a name in a function means the stack cell of a local
variable, if there has been one of that name by then, or else the module global. An assignment makes
a local variable unless its name is declared global. The loads and stores of lowered statements are
those of the occurrences in them: `Lower.accounts_stmts`. -/
namespace BoardPython

inductive VariableSlot where
  | cell (name : String)
  | global (name : String)
  deriving DecidableEq, Repr

namespace Use

def extend (isLocal : String → Bool) (cells : Finset String) : Use → Finset String
  | .read _ => cells
  | .write name => if isLocal name then insert name cells else cells

/-- What an occurrence means where there are certain local variables. -/
def slot (cells : Finset String) (u : Use) : VariableSlot :=
  if u.name ∈ cells then .cell u.name else .global u.name

end Use

def cellsAfter (isLocal : String → Bool) (cells : Finset String) (us : List Use) : Finset String :=
  us.foldl (Use.extend isLocal) cells

def slots (isLocal : String → Bool) : Finset String → List Use → List (Use × VariableSlot)
  | _, [] => []
  | cells, u :: us =>
    (u, u.slot (u.extend isLocal cells)) :: slots isLocal (u.extend isLocal cells) us

section Slots

variable {isLocal : String → Bool} {cells : Finset String}

theorem cellsAfter_append (us vs : List Use) : cellsAfter isLocal cells (us ++ vs) =
    cellsAfter isLocal (cellsAfter isLocal cells us) vs := List.foldl_append

theorem mem_cellsAfter {us : List Use} {name : String} : name ∈ cellsAfter isLocal cells us ↔
    name ∈ cells ∨ isLocal name = true ∧ .write name ∈ us := by
  induction us generalizing cells with
  | nil => simp [cellsAfter]
  | cons u us ih =>
    change name ∈ cellsAfter isLocal (u.extend isLocal cells) us ↔ _
    rw [ih]
    cases u with
    | read other => simp [Use.extend]
    | write other =>
      by_cases hlocal : isLocal other
      · simp only [Use.extend, if_pos hlocal, Finset.mem_insert, List.mem_cons, Use.write.injEq]
        constructor
        · rintro ((rfl | h) | h)
          · exact .inr ⟨hlocal, .inl rfl⟩
          · exact .inl h
          · exact .inr ⟨h.1, .inr h.2⟩
        · rintro (h | ⟨h, rfl | hmem⟩)
          · exact .inl (.inr h)
          · exact .inl (.inl rfl)
          · exact .inr ⟨h, hmem⟩
      · simp only [Use.extend, if_neg hlocal, List.mem_cons, Use.write.injEq]
        constructor
        · rintro (h | h)
          · exact .inl h
          · exact .inr ⟨h.1, .inr h.2⟩
        · rintro (h | ⟨h, rfl | hmem⟩)
          · exact .inl h
          · exact absurd h hlocal
          · exact .inr ⟨h, hmem⟩

theorem cellsAfter_reads (names : List String) :
    cellsAfter isLocal cells (names.map .read) = cells := by
  ext name
  simp [mem_cellsAfter]

theorem slots_append (us vs : List Use) : slots isLocal cells (us ++ vs) =
    slots isLocal cells us ++ slots isLocal (cellsAfter isLocal cells us) vs := by
  induction us generalizing cells with
  | nil => rfl
  | cons u us ih =>
    rw [List.cons_append, slots, slots, ih]
    rfl

theorem slots_reads (names : List String) : slots isLocal cells (names.map .read) =
    names.map fun name => (.read name, (Use.read name).slot cells) := by
  induction names with
  | nil => rfl
  | cons name names ih =>
    rw [List.map_cons, List.map_cons, slots]
    exact congrArg _ ih

theorem getElem?_slots (us : List Use) (i : Nat) : (slots isLocal cells us)[i]? =
    us[i]?.map fun u => (u, u.slot (cellsAfter isLocal cells (us.take (i + 1)))) := by
  induction us generalizing cells i with
  | nil => rfl
  | cons u us ih =>
    cases i with
    | zero => rfl
    | succ i =>
      rw [slots, List.getElem?_cons_succ, List.getElem?_cons_succ, ih]
      rfl

end Slots

namespace Lowering

open Ir (Access Instr Label Operand Terminator accesses)

namespace State

structure Before (s t : State) : Prop where
  signature : t.frame.signature = s.frame.signature
  locals : s.frame.locals.symbols <+: t.frame.locals.symbols
  globalNames : s.frame.globalNames ⊆ t.frame.globalNames
  scope : ∀ name symbol, s.progress.scope.find? name = some symbol →
    t.progress.scope.find? name = some symbol
  labels : s.frame.body.labels <+: t.frame.body.labels

theorem Before.refl (s : State) : s.Before s :=
  ⟨rfl, List.prefix_rfl, List.Subset.refl _, fun _ _ h => h, List.prefix_rfl⟩

theorem Before.trans {s t u : State} (h : s.Before t) (h' : t.Before u) : s.Before u where
  signature := h'.signature.trans h.signature
  locals := h.locals.trans h'.locals
  globalNames := List.Subset.trans h.globalNames h'.globalNames
  scope name symbol hs := h'.scope name symbol (h.scope name symbol hs)
  labels := h.labels.trans h'.labels

end State

theorem Scope.prefix_declare (scope : Scope) (symbol : Symbol) :
    scope.symbols <+: (scope.declare symbol).symbols := by
  unfold declare declare?
  split
  · exact List.prefix_rfl
  · exact List.prefix_append _ _

theorem Body.labels_append (b : Body) (l : Label) (is : List Instr) :
    (b.append l is).labels = b.labels := by
  rw [labels_eq_flow, labels_eq_flow, flow_append]

theorem Body.code_finish (b : Body) (t : Terminator) : (b.finish t).code = b.code := by
  unfold finish
  split
  · exact code_close b t
  · rfl

namespace Lower

variable {env : Environment}

theorem plain_before : Plain State.Before where
  refl := .refl
  trans _ _ _ := .trans
  absorb s e := { State.Before.refl s with
    labels := (Body.labels_append s.frame.body s.frame.body.current e.instrs).symm ▸
      List.prefix_rfl }
  declareLocal _ _ s := { State.Before.refl s with
    locals := Scope.prefix_declare _ _
    labels := (Body.labels_append s.frame.body .entry _).symm ▸ List.prefix_rfl }
  declareGlobal _ _ _ s := { State.Before.refl s with
    scope := fun _ _ h => Scope.find?_declare _ h }
  globalNames s _ := { State.Before.refl s with
    globalNames := List.subset_append_left _ _ }

theorem walks_before (env : Environment) : Walks env (fun _ => True) State.Before where
  toEmits := plain_before.toEmits
  assign := plain_before.assign
  declareNames pos names _ := plain_before.declareNames pos names
  report s _ := { State.Before.refl s with }
  nextIf s := { State.Before.refl s with }
  nextWhile s := { State.Before.refl s with }
  nextReturn s := { State.Before.refl s with }
  create s labels := { State.Before.refl s with
    labels := (Body.labels_create s.frame.body labels).symm ▸ List.prefix_append _ _ }
  close s t := { State.Before.refl s with
    labels := (Body.labels_close s.frame.body t).symm ▸ List.prefix_rfl }
  goto s _ := { State.Before.refl s with }

theorem before_stmts (ss : List Stmt) : Stays State.Before (stmts env ss) :=
  (walks_before env).stmts ss fun _ _ => trivial

end Lower

theorem Scope.find?_of_prefix {scope scope' : Scope} {name : String} {symbol : Symbol}
    (h : scope.symbols <+: scope'.symbols) (hsymbol : scope.find? name = some symbol) :
    scope'.find? name = some symbol := by
  obtain ⟨rest, hrest⟩ := h
  unfold find? at hsymbol ⊢
  rw [← hrest, List.find?_append, hsymbol]
  rfl

namespace State

variable {k : Names} {env : Environment} {s s' s'' t : State} {us vs : List Use}

def cells (s : State) : Finset String := s.frame.locals.names.toFinset

variable {name : String} {symbol : Symbol}

theorem mem_cells :
    name ∈ s.cells ↔ ∃ symbol, s.frame.locals.find? name = some symbol := by
  rw [cells, List.mem_toFinset, ← Option.isSome_iff_exists, Option.isSome_iff_ne_none, ne_eq,
    Scope.find?_eq_none_iff, not_not]

def symbol? (s : State) : VariableSlot → Option Symbol
  | .cell name => s.frame.locals.find? name
  | .global name => s.progress.scope.find? name

def address (s : State) (slot : VariableSlot) : Operand :=
  ((s.symbol? slot).bind Symbol.address?).getD (.const (.bool false))

theorem Before.symbol? (h : s.Before t) {slot : VariableSlot}
    (hsymbol : s.symbol? slot = some symbol) : t.symbol? slot = some symbol := by
  cases slot with
  | cell name => exact Scope.find?_of_prefix h.locals hsymbol
  | global name => exact h.scope name symbol hsymbol

theorem Disciplined.address?_eq (ht : t.Disciplined k) {slot : VariableSlot}
    (hsymbol : t.symbol? slot = some symbol) : symbol.address? = some (t.address slot) := by
  have hsome : ∃ a, symbol.address? = some a := by
    cases slot with
    | cell name =>
      have hmem : symbol.cell? ∈ ((t.frame.body.codeAt .entry).filter (·.isAlloca)).map some := by
        rw [← ht.frame.cells]
        exact List.mem_map_of_mem (List.mem_of_find?_eq_some hsymbol)
      obtain ⟨i, -, hi⟩ := List.mem_map.mp hmem
      unfold Symbol.cell? at hi
      unfold Symbol.address?
      split at hi
      · rename_i r hstorage
        rw [hstorage]
        exact ⟨_, rfl⟩
      · cases hi
    | global name =>
      obtain ⟨immutable, hstorage⟩ := ht.globals symbol (List.mem_of_find?_eq_some hsymbol)
      unfold Symbol.address?
      rw [hstorage]
      exact ⟨_, rfl⟩
  obtain ⟨a, ha⟩ := hsome
  rw [address, hsymbol, Option.bind_some, ha, Option.getD_some]

theorem Before.isLocal_of_mem (h : s.Before t) (ht : t.Disciplined k)
    (hname : name ∈ s.cells) : t.frame.isLocal name = true ∧ s.frame.isLocal name = true := by
  have hmem : name ∈ t.frame.locals.names :=
    (h.locals.map _).subset (List.mem_toFinset.mp hname)
  have hsome : t.frame.signature.isSome := by
    rw [Option.isSome_iff_ne_none]
    intro hnone
    rw [Scope.names, ht.frame.outside hnone] at hmem
    exact absurd hmem List.not_mem_nil
  have happart : name ∉ t.frame.globalNames := ht.frame.apart name hmem
  have happart' : name ∉ s.frame.globalNames := fun hmem => happart (h.globalNames hmem)
  rw [Frame.isLocal, Frame.isLocal, ← h.signature, hsome]
  simp [happart, happart']

theorem Before.resolve?_eq (h : s.Before t) (ht : t.Disciplined k) (name : String) :
    (s.context env).resolve? name = s.symbol? ((Use.read name).slot s.cells) := by
  unfold Context.resolve? Scope.resolve?
  by_cases hname : name ∈ s.cells
  · obtain ⟨symbol, hsymbol⟩ := mem_cells.mp hname
    obtain ⟨hsome, hnot⟩ := Bool.and_eq_true_iff.mp (h.isLocal_of_mem ht hname).2
    obtain ⟨signature, hsignature⟩ := Option.isSome_iff_exists.mp hsome
    have hslot : (Use.read name).slot s.cells = .cell name := if_pos hname
    have hlocal : ((if (s.context env).globalNames.contains name then none
        else (s.context env).locals).bind (·.find? name)) = some symbol := by
      have hnot : ¬ (s.context env).globalNames.contains name = true := by
        change ¬ s.frame.globalNames.contains name = true
        simpa using hnot
      rw [if_neg hnot]
      change (s.frame.signature.map fun _ => s.frame.locals).bind (·.find? name) = some symbol
      rw [hsignature]
      exact hsymbol
    rw [hslot, hlocal]
    exact hsymbol.symm
  · have hnone : s.frame.locals.find? name = none := by
      rw [Option.eq_none_iff_forall_ne_some]
      exact fun symbol hsymbol => hname (mem_cells.mpr ⟨symbol, hsymbol⟩)
    have hslot : (Use.read name).slot s.cells = .global name := if_neg hname
    have hlocal : ((if (s.context env).globalNames.contains name then none
        else (s.context env).locals).bind (·.find? name)) = none := by
      split
      · rfl
      · change (s.frame.signature.map fun _ => s.frame.locals).bind (·.find? name) = none
        cases s.frame.signature with
        | none => rfl
        | some signature => exact hnone
    rw [hslot, hlocal]
    rfl

theorem Before.not_isLocal (h : s.Before t) (hname : s.frame.isLocal name = false) :
    t.frame.isLocal name = false := by
  unfold Frame.isLocal at *
  rw [h.signature]
  rcases Bool.and_eq_false_iff.mp hname with hnone | hmem
  · rw [hnone, Bool.false_and]
  · have hmem : name ∈ s.frame.globalNames := by simpa using hmem
    simp [h.globalNames hmem]

theorem Before.target (h : s.Before t) (ht : t.Disciplined k)
    (hsymbol : s.target? name = some symbol) :
    (Use.write name).extend t.frame.isLocal s.cells = s.cells ∧
      t.symbol? ((Use.write name).slot s.cells) = some symbol ∧ t.target? name = some symbol := by
  unfold target? at hsymbol ⊢
  by_cases hlocal : s.frame.isLocal name
  · rw [if_pos hlocal] at hsymbol
    have hmem : name ∈ s.cells := mem_cells.mpr ⟨symbol, hsymbol⟩
    have hslot : (Use.write name).slot s.cells = .cell name := if_pos hmem
    have hlater : t.frame.isLocal name = true := (h.isLocal_of_mem ht hmem).1
    refine ⟨(if_pos hlater).trans (Finset.insert_eq_of_mem hmem), ?_, ?_⟩
    · rw [hslot]
      exact Scope.find?_of_prefix h.locals hsymbol
    · rw [if_pos hlater]
      exact Scope.find?_of_prefix h.locals hsymbol
  · rw [if_neg hlocal] at hsymbol
    have hmem : name ∉ s.cells := fun hmem => hlocal (h.isLocal_of_mem ht hmem).2
    have hslot : (Use.write name).slot s.cells = .global name := if_neg hmem
    have hlater : ¬ t.frame.isLocal name = true :=
      Bool.eq_false_iff.mp (h.not_isLocal (Bool.eq_false_iff.mpr hlocal))
    refine ⟨if_neg hlater, ?_, ?_⟩
    · rw [hslot]
      exact h.scope name symbol hsymbol
    · rw [if_neg hlater]
      exact h.scope name symbol hsymbol

def touched (s : State) : Multiset Access := accesses s.frame.body.code

theorem touched_append (hnodup : s.frame.body.labels.Nodup) {l : Label}
    (hl : l ∈ s.frame.body.labels) (is : List Instr) :
    (accesses (s.frame.body.append l is).code : Multiset Access) = s.touched + accesses is := by
  rw [touched, Multiset.coe_add, Multiset.coe_eq_coe, ← Ir.accesses_append]
  exact (Body.perm_code_append hnodup hl).filterMap _

theorem touched_mapBody {f : Body → Body} (h : (f s.frame.body).code = s.frame.body.code) :
    (s.mapBody f).touched = s.touched := by
  unfold touched
  rw [← h]
  rfl

def placed (t : State) (cells : Finset String) (us : List Use) : Multiset Access :=
  ((slots t.frame.isLocal cells us).map fun u => u.1.access (t.address u.2) : List Access)

theorem placed_append (t : State) (cells : Finset String) (us vs : List Use) :
    t.placed cells (us ++ vs) =
      t.placed cells us + t.placed (cellsAfter t.frame.isLocal cells us) vs := by
  rw [placed, slots_append, List.map_append, ← Multiset.coe_add]
  rfl

/-- The current block is one of the body. -/
abbrev Current (s : State) : Prop := s.frame.body.current ∈ s.frame.body.labels

theorem Current.append {s : State} (h : s.Current) (label : Label) (instrs : List Ir.Instr) :
    s.frame.body.current ∈ (s.frame.body.append label instrs).labels :=
  (Body.labels_append s.frame.body label instrs).symm ▸ h

/-- Code has been added for occurrences of variables, which are where they are in a later state.
Only outside of functions can there be an assignment without a store. -/
structure Accounts (t s s' : State) (us : List Use) : Prop where
  current : s'.frame.body.current ∈ s'.frame.body.labels
  cells : s'.cells = cellsAfter t.frame.isLocal s.cells us
  touched : s'.touched ≤ s.touched + t.placed s.cells us
  complete : t.frame.signature.isSome → s'.touched = s.touched + t.placed s.cells us
  known : ∀ u ∈ slots t.frame.isLocal s.cells us, (t.symbol? u.2).isSome
  written : ∀ name, .write name ∈ us →
    ∃ symbol, t.target? name = some symbol ∧ symbol.isImmutable = false

namespace Accounts

theorem of_eq (hcurrent : s'.Current)
    (hcells : s'.cells = s.cells) (htouched : s'.touched = s.touched) : Accounts t s s' [] where
  current := hcurrent
  cells := hcells
  touched := (htouched.trans (add_zero _).symm).le
  complete _ := htouched.trans (add_zero _).symm
  known _ h := absurd h List.not_mem_nil
  written _ h := absurd h List.not_mem_nil

theorem trans (h : Accounts t s s' us) (h' : Accounts t s' s'' vs) :
    Accounts t s s'' (us ++ vs) where
  current := h'.current
  cells := by rw [cellsAfter_append, ← h.cells, h'.cells]
  touched := by
    rw [placed_append, ← h.cells, ← add_assoc]
    exact h'.touched.trans (add_le_add_left h.touched _)
  complete hsome := by
    rw [placed_append, ← h.cells, ← add_assoc, ← h.complete hsome, h'.complete hsome]
  known u hu := by
    rw [slots_append, ← h.cells] at hu
    rcases List.mem_append.mp hu with hu | hu
    · exact h.known u hu
    · exact h'.known u hu
  written name hname := by
    rcases List.mem_append.mp hname with hname | hname
    · exact h.written name hname
    · exact h'.written name hname

theorem mapBody (h : Accounts t s s' us) {f : Body → Body}
    (hcode : (f s'.frame.body).code = s'.frame.body.code)
    (hcurrent : (f s'.frame.body).current ∈ (f s'.frame.body).labels) :
    Accounts t s (s'.mapBody f) us := by
  have htouched := s'.touched_mapBody hcode
  exact ⟨hcurrent, h.cells, htouched.symm ▸ h.touched, htouched.symm ▸ h.complete, h.known,
    h.written⟩

end Accounts

end State

namespace Lower

open State (Accounts)

variable {α : Type} {k : Names} {env : Environment} {s s1 s' t : State} {x : Emit α} {a : α}
  {names : List String} {symbol : Symbol} {type : ValueType}

theorem touched_emit {new : List Access} (ht : t.Disciplined k) (hs : s.Before t)
    (hcurrent : s.Current) (hx : ∀ e, x s.emission = .ok a e → accesses e.instrs = new)
    (h : emit x s = .ok a s') : s'.Current ∧ s'.cells = s.cells ∧ s'.touched = s.touched + new := by
  have hnodup : s.frame.body.labels.Nodup := ht.body.nodup.sublist hs.labels.sublist
  obtain ⟨e, hrun, rfl⟩ := emit_eq_ok h
  refine ⟨?_, rfl, ?_⟩
  · exact State.Current.append hcurrent s.frame.body.current e.instrs
  · rw [← hx e hrun]
    exact s.touched_append hnodup hcurrent e.instrs

theorem accounts_emit (ht : t.Disciplined k) (hs : s.Before t) (hcurrent : s.Current)
    (hx : Touches (s.context env) names α x) (h : emit x s = .ok a s') :
    Accounts t s s' (names.map .read) := by
  obtain ⟨e, hrun, -⟩ := emit_eq_ok h
  obtain ⟨hinstrs, hknown⟩ := hx _ _ _ hrun
  have hslot (name : String) (hname : name ∈ names) : ∃ symbol,
      (s.context env).resolve? name = some symbol ∧
        t.symbol? ((Use.read name).slot s.cells) = some symbol := by
    obtain ⟨symbol, hsymbol⟩ := Option.isSome_iff_exists.mp (hknown name hname)
    exact ⟨symbol, hsymbol, hs.symbol? ((hs.resolve?_eq ht name).symm.trans hsymbol)⟩
  have hloads : names.flatMap (s.context env).loads =
      names.map fun name => .load (t.address ((Use.read name).slot s.cells)) := by
    rw [← List.flatMap_pure_eq_map]
    refine List.flatMap_congr fun name hname => ?_
    obtain ⟨symbol, hsymbol, hlater⟩ := hslot name hname
    rw [Context.loads, hsymbol, Option.bind_some, ht.address?_eq hlater]
    rfl
  have hnew (e' : Emission) (hrun' : x s.emission = .ok a e') : accesses e'.instrs =
      names.map fun name => .load (t.address ((Use.read name).slot s.cells)) := by
    rw [hrun] at hrun'
    cases hrun'
    exact hinstrs.trans ((List.nil_append _).trans hloads)
  obtain ⟨hcurrent', hcells, htouched⟩ := touched_emit ht hs hcurrent hnew h
  have htouched : s'.touched = s.touched + t.placed s.cells (names.map .read) := by
    rw [htouched, State.placed, slots_reads, List.map_map]
    rfl
  refine ⟨hcurrent', hcells.trans (cellsAfter_reads names).symm, htouched.le, fun _ => htouched,
    fun u hu => ?_, by simp⟩
  rw [slots_reads] at hu
  obtain ⟨name, hname, rfl⟩ := List.mem_map.mp hu
  obtain ⟨symbol, -, hlater⟩ := hslot name hname
  exact Option.isSome_iff_exists.mpr ⟨symbol, hlater⟩

variable {pos : Position} {name : String} {v : Value} {e : Expr}

theorem accounts_value (henv : env.operators = .numeric) (ht : t.Disciplined k) (hs : s.Before t)
    (hcurrent : s.Current) (h : value env e s = .ok v s') :
    Accounts t s s' e.uses := by
  change emit (lower (s.context env) e) s = .ok v s' at h
  exact accounts_emit ht hs hcurrent (touches_lower henv e) h

theorem accounts_condition {x : Operand} (henv : env.operators = .numeric) (ht : t.Disciplined k)
    (hs : s'.Before t) (hcurrent : s.Current)
    (h : condition env e s = .ok x s') :
    Accounts t s s' e.uses := by
  have hbefore := (plain_before.condition e).of_ok h
  obtain ⟨v, s1, hv, h⟩ := bind_eq_ok h
  have hvalue := accounts_value henv ht (hbefore.trans hs) hcurrent hv
  -- A number is compared with zero.
  have hcompare {op : Ir.Operation} (hop : op.isCalculation = true)
      (h : emit (Emit.emit op) s1 = .ok x s') : Accounts t s s' e.uses := by
    have hs1 : s1.Before t := ((plain_before.emit _).of_ok h).trans hs
    have hquiet : Touches (s1.context env) [] Operand (Emit.emit op) :=
      touches_emit (Ir.Operation.access?_of_isCalculation hop)
    have hrest := hvalue.trans (accounts_emit ht hs1 hvalue.current hquiet h)
    rwa [List.map_nil, List.append_nil] at hrest
  cases v with
  | bool y =>
    cases h
    exact hvalue
  | i8 y | i16 y | f32 y => exact hcompare rfl h
  | void | str y => cases h

theorem accounts_write {x : Emit Unit} {a : Operand} (ht : t.Disciplined k) (hs : s1.Before t)
    (hcurrent : s1.Current) (htouched : s1.touched = s.touched)
    (hcells : s1.cells = (Use.write name).extend t.frame.isLocal s.cells)
    (htarget : s1.target? name = some symbol) (himmutable : symbol.isImmutable = false)
    (ha : symbol.address? = some a)
    (hx : ∀ e, x s1.emission = .ok () e → accesses e.instrs = [.store a])
    (h : emit x s1 = .ok () s') : Accounts t s s' [.write name] := by
  obtain ⟨-, hslot, hlater⟩ := hs.target ht htarget
  obtain ⟨hcurrent', hcells', htouched'⟩ := touched_emit ht hs hcurrent hx h
  have htouched' : s'.touched = s.touched + t.placed s.cells [.write name] := by
    obtain rfl : a = t.address ((Use.write name).slot s1.cells) :=
      Option.some.inj (ha.symm.trans (ht.address?_eq hslot))
    rw [htouched', htouched, hcells]
    rfl
  refine ⟨hcurrent', hcells'.trans hcells, htouched'.le, fun _ => htouched', ?_, ?_⟩
  · intro u hu
    cases List.mem_singleton.mp hu
    rw [← hcells]
    exact Option.isSome_iff_exists.mpr ⟨symbol, hslot⟩
  · intro other hother
    cases List.mem_singleton.mp hother
    exact ⟨symbol, hlater, himmutable⟩

theorem accounts_store (env : Environment) (ht : t.Disciplined k) (hs : s'.Before t)
    (hcurrent : s1.Current) (htouched : s1.touched = s.touched)
    (hcells : s1.cells = (Use.write name).extend t.frame.isLocal s.cells)
    (htarget : s1.target? name = some symbol) (h : store pos symbol v s1 = .ok () s') :
    Accounts t s s' [.write name] := by
  have hs1 : s1.Before t := ((plain_before.store pos symbol v).of_ok h).trans hs
  unfold store at h
  by_cases himmutable : symbol.isImmutable
  · rw [if_pos himmutable] at h
    cases h
  rw [if_neg himmutable] at h
  cases ha : symbol.address? with
  | none =>
    rw [ha] at h
    cases h
  | some a =>
    cases hx : coerce? v symbol.type with
    | none =>
      rw [ha, hx] at h
      cases h
    | some x =>
      rw [ha, hx] at h
      refine accounts_write ht hs1 hcurrent htouched hcells htarget
        (Bool.eq_false_iff.mpr himmutable) ha (fun e hrun => ?_) h
      obtain ⟨y, e1, hy, hrun⟩ := bind_eq_ok hrun
      cases hrun
      obtain ⟨hquiet, -⟩ := (calculates_touches (c := s1.context env)).coerce? hx _ _ _ hy
      rw [Ir.accesses_append, hquiet]
      rfl

theorem accounts_assignNewGlobal {zero : Ir.Constant} (ht : t.Disciplined k) (hs : s'.Before t)
    (hcurrent : s.Current) (hlocal : s.frame.isLocal name = false) (hfree : s.target? name = none)
    (h : assignNewGlobal env pos name type zero v s = .ok () s') :
    Accounts t s s' [.write name] := by
  have hbefore := (plain_before.assignNewGlobal pos name type zero v).of_ok h
  have hlater : ¬ t.frame.isLocal name = true :=
    Bool.eq_false_iff.mp ((hbefore.trans hs).not_isLocal hlocal)
  have hcells : s.cells = (Use.write name).extend t.frame.isLocal s.cells := (if_neg hlater).symm
  have hnot : ¬ s.frame.isLocal name = true := Bool.eq_false_iff.mp hlocal
  have htarget (initial : Ir.Constant) :
      (after (declareGlobal name type initial) s).target? name =
        some ⟨name, type, .module false⟩ := by
    have hfree : s.progress.scope.find? name = none := (if_neg hnot).symm.trans hfree
    have hself : (s.progress.scope.declare ⟨name, type, .module false⟩).find? name =
        some ⟨name, type, .module false⟩ := Scope.find?_declare_self hfree
    exact (if_neg hnot).trans hself
  rcases assignNewGlobal_eq_ok h with ⟨hnone, c, -, -, rfl⟩ | h
  · obtain ⟨-, hslot, hlater⟩ := hs.target ht (htarget c)
    refine ⟨hcurrent, hcells, Multiset.le_add_right _ _, fun hsome => ?_, ?_, ?_⟩
    · have hsignature : t.frame.signature = none := hs.signature.trans hnone
      rw [hsignature] at hsome
      cases hsome
    · intro u hu
      cases List.mem_singleton.mp hu
      rw [← hcells]
      exact Option.isSome_iff_exists.mpr ⟨_, hslot⟩
    · intro other hother
      cases List.mem_singleton.mp hother
      exact ⟨_, hlater, rfl⟩
  · refine accounts_store env ht hs ?_ ?_ ?_ (htarget zero) h
    exacts [hcurrent, rfl, hcells]

theorem accounts_declareLocal (ht : t.Disciplined k)
    (hs : (after (declareLocal name type) s).Before t) (hcurrent : s.Current)
    (hlocal : s.frame.isLocal name = true) (hfree : s.frame.locals.find? name = none) :
    (after (declareLocal name type) s).target? name =
        some ⟨name, type, .stack s.frame.body.register⟩ ∧
      (after (declareLocal name type) s).cells =
        (Use.write name).extend t.frame.isLocal s.cells ∧
      (after (declareLocal name type) s).touched = s.touched := by
  have hs1 : s.Before t := (plain_before.declareLocal name type s).trans hs
  have hcells : (after (declareLocal name type) s).cells = insert name s.cells := by
    change (Scope.names (s.frame.locals.declare _)).toFinset = _
    rw [Scope.names, Scope.symbols_declare hfree, List.map_append, List.toFinset_append,
      Finset.insert_eq, Finset.union_comm]
    rfl
  refine ⟨?_, ?_, ?_⟩
  · have hself : (s.frame.locals.declare ⟨name, type, .stack s.frame.body.register⟩).find?
        name = some ⟨name, type, .stack s.frame.body.register⟩ := Scope.find?_declare_self hfree
    exact (if_pos hlocal).trans hself
  · have hlater : t.frame.isLocal name = true :=
      (hs.isLocal_of_mem ht (hcells ▸ Finset.mem_insert_self _ _)).1
    exact hcells.trans (if_pos hlater).symm
  · have hnodup : s.frame.body.labels.Nodup := ht.body.nodup.sublist hs1.labels.sublist
    have hentry : Label.entry ∈ s.frame.body.labels := by
      obtain ⟨rest, hrest⟩ := hs1.labels
      have hfirst := ht.body.first
      rw [← hrest, List.head?_append_of_ne_nil _ (List.ne_nil_of_mem hcurrent)] at hfirst
      exact List.mem_of_mem_head? hfirst
    exact (s.touched_append hnodup hentry _).trans (add_zero _)

theorem accounts_assign {hint : Option String} (henv : env.operators = .numeric)
    (ht : t.Disciplined k) (hs : s'.Before t)
    (hcurrent : s.Current)
    (h : assign env pos name hint e s = .ok () s') :
    Accounts t s s' (e.uses ++ [Use.write name]) := by
  have hbefore := (plain_before.assign pos name hint e).of_ok h
  obtain ⟨v, s1, hv, hrest⟩ := assign_steps h
  have hvalue := accounts_value henv ht (hbefore.trans hs) hcurrent hv
  refine hvalue.trans ?_
  rcases hrest with ⟨symbol, htarget, hstore⟩ |
    ⟨hfree, type, -, ⟨hlocal, hstore⟩ | ⟨hlocal, zero, hnew⟩⟩
  · have hs1 : s1.Before t := ((plain_before.store pos symbol v).of_ok hstore).trans hs
    exact accounts_store env ht hs hvalue.current rfl (hs1.target ht htarget).1.symm htarget hstore
  · have hs2 : (after (declareLocal name type) s1).Before t :=
      ((plain_before.store pos _ v).of_ok hstore).trans hs
    obtain ⟨htarget, hcells, htouched⟩ := accounts_declareLocal ht hs2 hvalue.current hlocal
      ((if_pos hlocal).symm.trans hfree)
    refine accounts_store env ht hs ?_ htouched hcells htarget hstore
    exact State.Current.append hvalue.current .entry _
  · exact accounts_assignNewGlobal ht hs hvalue.current hlocal hfree hnew

theorem accounts_augment {op : Token.Kind} (henv : env.operators = .numeric) (ht : t.Disciplined k)
    (hs : s'.Before t) (hcurrent : s.Current)
    (h : augment env pos name op e s = .ok () s') :
    Accounts t s s' (.read name :: e.uses ++ [Use.write name]) := by
  have hbefore := (plain_before.augment pos name op e).of_ok h
  obtain ⟨s0, s1, hget, hrest⟩ := bind_eq_ok h
  cases hget
  cases htarget : s.target? name with
  | none =>
    rw [htarget] at hrest
    cases hrest
  | some symbol =>
    rw [htarget] at hrest
    obtain ⟨v, s2, hv, hstore⟩ := bind_eq_ok hrest
    have hvalue := accounts_value henv ht (hbefore.trans hs) hcurrent hv
    refine hvalue.trans ?_
    have hs2 : s2.Before t := ((plain_before.store pos symbol v).of_ok hstore).trans hs
    -- The value has been computed without a change to the variables.
    have hsame : s2.target? name = s.target? name := by
      obtain ⟨e', -, rfl⟩ := value_eq_ok hv
      rfl
    have htarget : s2.target? name = some symbol := hsame.trans htarget
    exact accounts_store env ht hs hvalue.current rfl (hs2.target ht htarget).1.symm htarget hstore

theorem accounts_returned (env : Environment) {f : Signature} {x : Option Operand}
    (ht : t.Disciplined k) (hs : s.Before t) (hcurrent : s.Current)
    (h : Lower.returned pos f v s = .ok x s') : Accounts t s s' [] := by
  generalize hstep : Lower.returned pos f v = step at h
  unfold Lower.returned at hstep
  split at hstep
  · subst hstep
    cases h
    exact .of_eq hcurrent rfl rfl
  · subst hstep
    cases h
  · subst hstep
    cases h
  · split at hstep
    · rename_i y hy
      subst hstep
      obtain ⟨z, s1, hz, h⟩ := bind_eq_ok h
      cases h
      have hquiet : Touches (s.context env) [] Operand y := calculates_touches.coerce? hy
      exact accounts_emit ht hs hcurrent hquiet hz
    · subst hstep
      cases h

theorem accounts_ret {e : Option Expr} (henv : env.operators = .numeric) (ht : t.Disciplined k)
    (hs : s'.Before t) (hcurrent : s.Current)
    (h : ret env pos e s = .ok () s') :
    Accounts t s s' (Stmt.ret pos e).uses := by
  have hbefore := ((walks_before env).ret pos e).of_ok h
  obtain ⟨f, v, x, s1, s2, hv, hx, rfl⟩ := ret_eq_ok h
  have hvalue : Accounts t s s1 (Stmt.ret pos e).uses := by
    cases e with
    | none =>
      cases hv
      exact .of_eq hcurrent rfl rfl
    | some e => exact accounts_value henv ht (hbefore.trans hs) hcurrent hv
  have hs1 : s1.Before t := by
    refine ((plain_before.returned pos f v).of_ok hx).trans (.trans ?_ hs)
    exact ((walks_before env).nextReturn s2).trans
      (((walks_before env).close _ _).trans
        (((walks_before env).create _ _).trans
          ((walks_before env).goto _ _)))
  have hreturned := accounts_returned env ht hs1 hvalue.current hx
  have hcount : Accounts t s2 (after nextReturn s2) [] := .of_eq hreturned.current rfl rfl
  have hall := (hvalue.trans hreturned).trans hcount
  rw [List.append_nil, List.append_nil] at hall
  refine hall.mapBody (f := Body.leave (s2.progress.returns + 1) x) ?_ ?_
  · exact (Body.code_create _ _).trans (Body.code_close _ _)
  · exact (Body.labels_create _ _).symm ▸ List.mem_append_right _ (List.mem_singleton_self _)

theorem accounts_declareNames (hcurrent : s.Current) (h : declareNames pos names s = .ok () s') :
    Accounts t s s' [] := by
  induction names generalizing s with
  | nil =>
    cases h
    exact .of_eq hcurrent rfl rfl
  | cons name names ih =>
    obtain ⟨s0, s1, hget, hrest⟩ := bind_eq_ok h
    cases hget
    dsimp only at hrest
    split at hrest
    · cases hrest
    · obtain ⟨_, s1, hname, hnames⟩ := bind_eq_ok hrest
      cases hname
      have hsame : Accounts t s { s with frame := { s.frame with
          globalNames := s.frame.globalNames ++ [name] } } [] := .of_eq hcurrent rfl rfl
      exact hsame.trans (ih hcurrent hnames)

mutual

theorem accounts_stmt (henv : env.operators = .numeric) (ht : t.Disciplined k) : ∀ (st : Stmt)
    {s s' : State}, s'.Before t → s.Current →
    stmt env st s = .ok () s' →
    s'.progress.errors ≤ s.progress.errors →
    Accounts t s s' st.uses
  | .branch pos cond yes no, s, s', hs', hcurrent, h, hno => by
    obtain ⟨id, x, s1, s3, s5, -, hx, hyes, hno1, hno', hno2, rfl⟩ := branch_eq_ok h hno
    have hs5 : s5.Before t := ((walks_before env).leave _ _ s5).trans hs'
    have hs4 : (s3.mapBody (Body.leaveBranch id (.ifElse id))).Before t :=
      ((before_stmts no).of_ok hno').trans hs5
    have hs3 : s3.Before t := ((walks_before env).leave _ _ s3).trans hs4
    have hyes3 := (before_stmts yes).of_ok hyes
    have hs1 : s1.Before t :=
      ((walks_before env).enter _ _ _ s1).trans (hyes3.trans hs3)
    have hcount : Accounts t s (after nextIf s) [] := .of_eq hcurrent rfl rfl
    have hcond : Accounts t s s1 cond.uses :=
      hcount.trans (accounts_condition henv ht hs1 hcount.current hx)
    have hlabels : (Body.enterThen id x s1.frame.body).labels =
        s1.frame.body.labels ++ [Label.ifThen id, .ifElse id, .ifMerge id] :=
      (Body.labels_close _ _).trans (Body.labels_create _ _)
    have hthen : Accounts t s (s1.mapBody (Body.enterThen id x)) cond.uses := by
      refine hcond.mapBody ((Body.code_close _ _).trans (Body.code_create _ _)) ?_
      rw [hlabels]
      exact List.mem_append_right _ List.mem_cons_self
    have hyes := hthen.trans (accounts_stmts henv ht yes hs3 hthen.current hyes hno1)
    -- The blocks of the branch have been there since its condition.
    have hthere {l : Label} (hl : l ∈ [Label.ifElse id, .ifMerge id]) :
        l ∈ s3.frame.body.labels := by
      apply hyes3.labels.subset
      change l ∈ (Body.enterThen id x s1.frame.body).labels
      rw [hlabels]
      exact List.mem_append_right _ (List.mem_cons_of_mem _ hl)
    have helse := hyes.mapBody (f := Body.leaveBranch id (.ifElse id)) (Body.code_finish _ _)
      ((Body.labels_finish _ _).symm ▸ hthere List.mem_cons_self)
    have hnos := helse.trans (accounts_stmts henv ht no hs5 helse.current hno' hno2)
    refine hnos.mapBody (Body.code_finish _ _) ((Body.labels_finish _ _).symm ▸ ?_)
    apply ((before_stmts no).of_ok hno').labels.subset
    change Label.ifMerge id ∈ (s3.frame.body.finish _).labels
    rw [Body.labels_finish]
    exact hthere (by simp)
  | .loop pos cond body, s, s', hs', hcurrent, h, hno => by
    obtain ⟨id, x, s1, s3, -, hx, hbody, hno1, rfl⟩ := loop_eq_ok h hno
    have hs3 : s3.Before t := ((walks_before env).leave _ _ s3).trans hs'
    have hbody3 := (before_stmts body).of_ok hbody
    have hs2 : (s1.mapBody (Body.enterLoopBody id x)).Before t := hbody3.trans hs3
    have hs1 : s1.Before t := ((walks_before env).close s1 _).trans
      (((walks_before env).goto _ _).trans hs2)
    have hlabels : (Body.enterLoop id s.frame.body).labels =
        s.frame.body.labels ++ [Label.whileCond id, .whileBody id, .whileExit id] :=
      (Body.labels_close _ _).trans (Body.labels_create _ _)
    have hstart : Accounts t s ((after nextWhile s).mapBody (Body.enterLoop id)) [] := by
      have hcount : Accounts t s (after nextWhile s) [] := .of_eq hcurrent rfl rfl
      refine hcount.mapBody ((Body.code_close _ _).trans (Body.code_create _ _)) ?_
      change _ ∈ (Body.enterLoop id s.frame.body).labels
      rw [hlabels]
      exact List.mem_append_right _ List.mem_cons_self
    have hcond : Accounts t s s1 cond.uses :=
      hstart.trans (accounts_condition henv ht hs1 hstart.current hx)
    have hthere {l : Label} (hl : l ∈ [Label.whileBody id, .whileExit id]) :
        l ∈ s1.frame.body.labels := by
      apply ((plain_before.condition cond).of_ok hx).labels.subset
      change l ∈ (Body.enterLoop id s.frame.body).labels
      rw [hlabels]
      exact List.mem_append_right _ (List.mem_cons_of_mem _ hl)
    have henter := hcond.mapBody (f := Body.enterLoopBody id x) (Body.code_close _ _)
      ((Body.labels_close _ _).symm ▸ hthere List.mem_cons_self)
    have hloop := henter.trans (accounts_stmts henv ht body hs3 henter.current hbody hno1)
    refine hloop.mapBody (Body.code_finish _ _) ((Body.labels_finish _ _).symm ▸ ?_)
    apply hbody3.labels.subset
    change Label.whileExit id ∈ (s1.frame.body.close _).labels
    rw [Body.labels_close]
    exact hthere (by simp)
  | .ret pos e, s, s', hs', hcurrent, h, _ => by
    rw [stmt] at h
    exact accounts_ret henv ht hs' hcurrent h
  | .evaluate pos e, s, s', hs', hcurrent, h, _ => by
    rw [stmt] at h
    obtain ⟨v, s1, hv, h⟩ := bind_eq_ok h
    cases h
    exact accounts_value henv ht (((plain_before.value e).of_ok hv).trans hs') hcurrent hv
  | .pass pos, s, s', _, hcurrent, h, _ => by
    rw [stmt] at h
    cases h
    exact .of_eq hcurrent rfl rfl
  | .globals pos names, s, s', _, hcurrent, h, _ => by
    rw [stmt] at h
    obtain ⟨s0, s1, hget, h⟩ := bind_eq_ok h
    cases hget
    split at h
    · exact accounts_declareNames hcurrent h
    · cases h
      exact .of_eq hcurrent rfl rfl
  | .assign pos name hint e, s, s', hs', hcurrent, h, _ => by
    rw [stmt] at h
    exact accounts_assign henv ht hs' hcurrent h
  | .augment pos name op e, s, s', hs', hcurrent, h, _ => by
    rw [stmt] at h
    exact accounts_augment henv ht hs' hcurrent h
  | .define pos name params returns body, s, s', _, _, h, _ => by
    rw [stmt] at h
    cases h

theorem accounts_stmts (henv : env.operators = .numeric) (ht : t.Disciplined k) :
    ∀ (ss : List Stmt) {s s' : State}, s'.Before t →
    s.Current → stmts env ss s = .ok () s' →
    s'.progress.errors ≤ s.progress.errors →
    Accounts t s s' (usesAll ss)
  | [], s, s', _, hcurrent, h, _ => by
    rw [stmts] at h
    cases h
    exact .of_eq hcurrent rfl rfl
  | st :: ss, s, s', hs', hcurrent, h, hno => by
    obtain ⟨s1, hst, -, hno1, hss, hno2⟩ := cons_eq_ok h hno
    have hs1 : s1.Before t := ((before_stmts ss).of_ok hss).trans hs'
    have hfirst := accounts_stmt henv ht st hs1 hcurrent hst hno1
    exact hfirst.trans (accounts_stmts henv ht ss hs' hfirst.current hss hno2)

end

end Lower

namespace Definition

open State (Accounts)

variable {k : Names} {env : Environment} {s s' t : State}

theorem accounts_spill {name : String} {type : ValueType} (ht : t.Disciplined k) (hs : s'.Before t)
    (hcurrent : s.Current) (hlocal : s.frame.isLocal name = true)
    (hfree : s.frame.locals.find? name = none) (h : spill name type s = .ok () s') :
    Accounts t s s' [.write name] ∧ s'.frame.locals.names = s.frame.locals.names ++ [name] ∧
      s'.frame.globalNames = s.frame.globalNames := by
  obtain ⟨symbol, s1, hdeclare, hemit⟩ := bind_eq_ok h
  cases hdeclare
  have hs1 : (Lower.after (Lower.declareLocal name type) s).Before t :=
    ((Lower.plain_before.emit _).of_ok hemit).trans hs
  obtain ⟨htarget, hcells, htouched⟩ := Lower.accounts_declareLocal ht hs1 hcurrent hlocal hfree
  refine ⟨Lower.accounts_write ht hs1 ?_ htouched hcells htarget rfl rfl (fun e hrun => ?_) hemit,
    ?_, ?_⟩
  · exact State.Current.append hcurrent .entry _
  · cases hrun
    rfl
  · cases hemit
    exact (congrArg _ (Scope.symbols_declare hfree)).trans (List.map_append ..)
  · cases hemit
    rfl

theorem before_spillAll (params : List (String × ValueType)) :
    Lower.Stays State.Before (spillAll params) :=
  stays_spillAll Lower.plain_before.toEmits Lower.plain_before.declareLocal params

theorem accounts_spillAll {params : List (String × ValueType)} (ht : t.Disciplined k)
    (hs : s'.Before t) (hcurrent : s.Current)
    (hsome : t.frame.signature.isSome) (hglobals : s.frame.globalNames = [])
    (hnodup : (params.map Prod.fst).Nodup)
    (hfree : ∀ name ∈ params.map Prod.fst, name ∉ s.frame.locals.names)
    (h : spillAll params s = .ok () s') :
    Accounts t s s' ((params.map Prod.fst).map .write) := by
  induction params generalizing s with
  | nil =>
    cases h
    exact .of_eq hcurrent rfl rfl
  | cons p params ih =>
    obtain ⟨hp, hnodup⟩ := List.nodup_cons.mp hnodup
    obtain ⟨hfirst, hfree⟩ := List.forall_mem_cons.mp hfree
    obtain ⟨_, s1, hspill, hrest⟩ := bind_eq_ok h
    have hs1 := ((before_spillAll params).of_ok hrest).trans hs
    have hbefore := ((before_spillAll (p :: params)).of_ok h).trans hs
    have hlocal : s.frame.isLocal p.1 = true := by
      unfold Frame.isLocal
      rw [← hbefore.signature, hsome, hglobals]
      rfl
    obtain ⟨hone, hnames, hsame⟩ := accounts_spill ht hs1 hcurrent hlocal
      (Scope.find?_eq_none_iff.mpr hfirst) hspill
    refine hone.trans (ih hone.current (hsame.trans hglobals) hnodup ?_ hrest)
    intro name hname hmem
    rw [hnames] at hmem
    rcases List.mem_append.mp hmem with hmem | hmem
    · exact hfree name hname hmem
    · exact hp (List.mem_singleton.mp hmem ▸ hname)

/-- A function that is lowered without errors assigns its parameters to variables, and then it loads
and stores what occurs in it. -/
theorem accounts_lower {d : Definition} {p : Progress} (hd : d.Proper)
    (henv : env.operators = .numeric) (ht : t.Disciplined k)
    (h : d.lower env ⟨p, .ofSignature d.signature⟩ = .ok () t)
    (hno : t.progress.errors ≤ p.errors) :
    Accounts t ⟨p, .ofSignature d.signature⟩ t (d.params.map .write ++ usesAll d.body) := by
  rw [lower_eq] at h
  obtain ⟨_, s1, h1, h⟩ := bind_eq_ok h
  obtain ⟨_, s2, h2, h⟩ := bind_eq_ok h
  cases h
  set t := s2.mapBody (·.finish (.ret d.ending))
  have hs2 : s2.Before t := (Lower.walks_before env).finish s2 _
  have hs1 : s1.Before t := ((Lower.before_stmts d.body).of_ok h2).trans hs2
  have hsome : t.frame.signature.isSome := by
    rw [hs1.signature, ((stays_prologue Lower.plain_before.toEmits Lower.plain_before.declareLocal d).of_ok h1).signature]
    rfl
  have hstart : Label.entry ∈ (Frame.ofSignature d.signature).body.labels :=
    List.mem_singleton_self _
  have hspilled {s : State} (hcurrent : s.Current)
      (hglobals : s.frame.globalNames = []) (hlocals : s.frame.locals.names = [])
      (h : spillAll (d.params.zip d.signature.params) s = .ok () s1) :
      Accounts t s s1 (d.params.map .write) := by
    have hall := accounts_spillAll ht hs1 hcurrent hsome hglobals hd.nodup_zip
      (fun name _ => hlocals ▸ List.not_mem_nil) h
    rwa [hd.map_fst_zip] at hall
  have hprologue : Accounts t ⟨p, .ofSignature d.signature⟩ s1 (d.params.map .write) := by
    unfold prologue at h1
    dsimp only at h1
    split at h1
    · obtain ⟨_, s0, hcall, h1⟩ := bind_eq_ok h1
      have hquiet : Touches (State.context env ⟨p, .ofSignature d.signature⟩) [] Unit
          (Emit.perform (.call false initCallee [])) := touches_perform rfl
      have hs0 : State.Before ⟨p, .ofSignature d.signature⟩ t := by
        refine ((Lower.plain_before.emit _).of_ok hcall).trans (.trans ?_ hs1)
        exact (before_spillAll _).of_ok h1
      have hcall' := Lower.accounts_emit ht hs0 hstart hquiet hcall
      cases hcall
      exact hcall'.trans (hspilled hcall'.current rfl rfl h1)
    · exact hspilled hstart rfl rfl h1
  have he1 := (d.straight_prologue.of_ok h1).progress.errorCount_le
  have hbody := Lower.accounts_stmts henv ht d.body hs2 hprologue.current h2
    (Nat.le_trans hno he1)
  have hcurrent : (s2.frame.body.finish (.ret d.ending)).current = s2.frame.body.current := by
    unfold Body.finish
    split <;> rfl
  refine (hprologue.trans hbody).mapBody (Body.code_finish _ _) ?_
  rw [hcurrent, Body.labels_finish]
  exact hbody.current

end Definition

end Lowering

end BoardPython
