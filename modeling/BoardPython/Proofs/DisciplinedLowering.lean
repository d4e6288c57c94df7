import BoardPython.Proofs.StackCells

/-! Lowering statements adds well-typed code that keeps to the discipline of code and stack cells,
whether it succeeds or fails: `Lower.meets_stmts`. If it succeeds, then every name that is assigned
has become a variable of the function or has been declared global. -/
namespace BoardPython.Lowering

open Ir (Instr Label Operand Operation Terminator Ty)
open Relation (ReflTransGen)

namespace State

variable {k : Names} {s s' : State} {env : Environment}

theorem code_absorb (hs : s.Disciplined k) (e : Emission) : (s.absorb e).code = e.code s.spot :=
  (Body.codeAt_append hs.body.current).trans (if_pos rfl)

theorem code_emission (s : State) : s.emission.code s.spot = s.code := List.append_nil _

theorem Disciplined.isAddress_of_global (hs : s.Disciplined k) {symbol : Symbol} {a : Operand}
    (hsymbol : symbol ∈ s.progress.scope.symbols) (ha : symbol.address? = some a) :
    a.IsAddress s.entry := by
  obtain ⟨immutable, hstorage⟩ := hs.globals symbol hsymbol
  unfold Symbol.address? at ha
  rw [hstorage] at ha
  obtain rfl := Option.some.inj ha
  trivial

theorem Disciplined.placed (hs : s.Disciplined k) (henv : env.operators = .numeric) :
    (s.context env).Placed s.entry where
  operators := henv
  symbols name symbol a hsymbol ha := by
    rcases mem_of_resolve? hsymbol with hsymbol | hsymbol
    · exact hs.frame.isAddress hsymbol ha
    · exact hs.isAddress_of_global hsymbol ha

theorem Disciplined.isAddress_of_target? (hs : s.Disciplined k) {name : String} {symbol : Symbol}
    {a : Operand} (hsymbol : s.target? name = some symbol) (ha : symbol.address? = some a) :
    a.IsAddress s.entry := by
  unfold target? at hsymbol
  split at hsymbol
  · exact hs.frame.isAddress (Scope.mem_of_find? hsymbol) ha
  · exact hs.isAddress_of_global (Scope.mem_of_find? hsymbol) ha

/-- A step of lowering: what it adds is well typed and disciplined. -/
def Adds (k : Site) (n : Names) (s s' : State) : Prop := Step k s s' ∧ Grows n s s'

structure Lawful (k : Site) (n : Names) (s : State) : Prop where
  typed : s.Typed k
  disciplined : s.Disciplined n

section Adds

variable {k : Site} {n : Names} (h : ReflTransGen (Adds k n) s s')

include h

theorem steps_of_adds : ReflTransGen (Step k) s s' := ReflTransGen.mono (fun _ _ h => h.1) _ _ h

theorem scene_le_of_adds : (s.scene k).Le (s'.scene k) := scene_le_of_steps (steps_of_adds h)

theorem remains_of_adds : s.Remains s' := by
  induction h with
  | refl => exact .refl _
  | tail _ hstep ih => exact ih.trans hstep.2.remains

theorem Lawful.steps (hs : s.Lawful k n) : s'.Lawful k n := by
  induction h with
  | refl => exact hs
  | tail _ hstep ih => exact ⟨hstep.1.typed ih.typed, hstep.2.disciplined ih.disciplined⟩

end Adds

/-- Names that have been assigned are those of variables of the function unless they have been
declared global, and some others have been declared global. -/
structure Covers (s : State) (assigned declared : List String) : Prop where
  assigned : ∀ name ∈ assigned, name ∈ s.frame.globalNames ∨ name ∈ s.frame.locals.names
  declared : ∀ name ∈ declared, name ∈ s.frame.globalNames

theorem covers_nil (s : State) : s.Covers [] [] :=
  ⟨List.forall_mem_nil _, List.forall_mem_nil _⟩

theorem Covers.mono {assigned declared : List String} (h : s.Covers assigned declared)
    (hremains : s.Remains s') : s'.Covers assigned declared where
  assigned name hname :=
    (h.assigned name hname).imp (fun h => hremains.globalNames h) fun h => hremains.names h
  declared name hname := hremains.globalNames (h.declared name hname)

theorem Covers.append {as as' ds ds' : List String} (h : s.Covers as ds) (h' : s.Covers as' ds') :
    s.Covers (as ++ as') (ds ++ ds') where
  assigned name hname := (List.mem_append.mp hname).elim (h.assigned name) (h'.assigned name)
  declared name hname := (List.mem_append.mp hname).elim (h.declared name) (h'.declared name)

end State

open State (Adds Step)

namespace Lower

variable {k : Site} {n : Names} {s : State} {α : Type}

variable {v : Value} {Q : State → α → Prop} {l : Label} {t : Terminator}

theorem adds_goto (hl : l ∈ s.frame.body.labels) : Adds k n s (s.mapBody (·.goto l)) :=
  ⟨.goto hl, .goto hl⟩

theorem adds_close (ht : t.Typed (s.scene k) k.function.result)
    (hinputs : ∀ x ∈ t.inputs, x.Computed s.code) (htargets : .entry ∉ t.targets) :
    Adds k n s (s.mapBody (·.close t)) :=
  ⟨.close ht, .close hinputs htargets⟩

theorem meets_stays {x : Lower α} {R : State → State → Prop} (hx : Meets (Adds k n) s x Q)
    (hR : Stays R x) :
    Meets (Adds k n) s x fun s' a => Q s' a ∧ R s s' := by
  unfold Meets
  cases h : x s with
  | ok a s1 =>
    obtain ⟨hsteps, ha⟩ := hx.of_ok h
    exact ⟨hsteps, ha, hR.of_ok h⟩
  | error e s1 => exact hx.of_error h

theorem meets_emit {x : Emit α} {P R : Emission → α → Prop}
    (hx : Meets (Emission.Step (s.scene k) k.env.strict) s.emission x P)
    (hx' : Meets (Emission.Grows s.spot) s.emission x R)
    (hQ : ∀ e a, P e a → R e a → Q (s.absorb e) a) : Meets (Adds k n) s (Lower.emit x) Q := by
  unfold Meets Lower.emit
  cases h : x s.emission with
  | ok a e =>
    obtain ⟨hsteps, ha⟩ := hx.of_ok h
    obtain ⟨hgrows, ha'⟩ := hx'.of_ok h
    exact ⟨.single ⟨.absorb hsteps, .absorb hgrows⟩, hQ e a ha ha'⟩
  | error err e => exact .single ⟨.absorb (hx.of_error h), .absorb (hx'.of_error h)⟩

theorem has_absorb (hs : s.Lawful k n) {e : Emission} {x : Operand} {t : Ty}
    (hx : (e.scene (s.scene k)).Has x t) (hx' : x.Computed (e.code s.spot)) :
    ((s.absorb e).scene k).Has x t ∧ x.Computed (s.absorb e).code :=
  ⟨hx.mono (State.scene_absorb hs.typed e), (State.code_absorb hs.disciplined e).symm ▸ hx'⟩

theorem computed_emission {x : Operand} (hx : x.Computed s.code) :
    x.Computed (s.emission.code s.spot) := (State.code_emission s).symm ▸ hx

theorem meets_value (hs : s.Lawful k n) (e : Expr) :
    Meets (Adds k n) s (value k.env e) fun s' v => v.Known (s'.scene k) ∧ v.Computed s'.code := by
  have hlower := meets_lower hs.typed.context e s.emission
  have hflows := flows_lower (hs.disciplined.placed k.numeric) (k := s.spot) e s.emission
  apply meets_get_bind
  refine meets_emit hlower hflows fun e v hv hv' => ⟨?_, ?_⟩
  · exact hv.mono (State.scene_absorb hs.typed e)
  · rw [State.code_absorb hs.disciplined]
    exact hv'

theorem meets_condition (hs : s.Lawful k n) (e : Expr) :
    Meets (Adds k n) s (condition k.env e) fun s' x =>
      (s'.scene k).Has x .i1 ∧ x.Computed s'.code := by
  apply (meets_value hs e).bind
  rintro v s1 h1 ⟨hv, hv'⟩
  have hs1 := hs.steps h1
  have htest {op : Operation} (hop : op.Typed (s1.emission.scene (s1.scene k)) k.env.strict)
      (huses : op.Uses (s1.emission.code s1.spot) s1.entry) (htype : op.type = .i1) :
      Meets (Adds k n) s1 (Lower.emit (Emit.emit op)) fun s' x =>
        (s'.scene k).Has x .i1 ∧ x.Computed s'.code :=
    meets_emit (Emit.meets_emit hop) (Emit.flows_emit huses) fun e x hx hx' =>
      has_absorb hs1 (htype ▸ hx) hx'
  cases v with
  | bool x => exact meets_pure ⟨hv x rfl, hv' x rfl⟩
  | i8 x | i16 x =>
    exact htest (.icmp (has_emission (hv x rfl)) ⟨.inr trivial, rfl⟩)
      (.icmp (computed_emission (hv' x rfl)) trivial) rfl
  | f32 x =>
    exact htest (.fcmp (has_emission (hv x rfl)) ⟨.inr trivial, rfl⟩)
      (.fcmp (computed_emission (hv' x rfl)) trivial) rfl
  | str x | void => exact meets_throw _

theorem flows_coerce? {type : ValueType} {x : Emit Operand} (hv : v.Known (s.scene k))
    (hv' : v.Computed s.code) (hx : coerce? v type = some x) :
    Meets (Emission.Grows s.spot) s.emission x fun e y => y.Computed (e.code s.spot) := by
  have hknown : v.Known (computedScene (s.emission.code s.spot)) := fun y hy =>
    ⟨computed_emission (hv' y hy), (hv y hy).2⟩
  exact (Rules.meets_coerce? (R := .flowing s.spot k.env.strict) hknown hx).weaken
    fun _ _ _ hy => hy.1

theorem meets_store (pos : Position) {symbol : Symbol} (hv : v.Known (s.scene k))
    (hv' : v.Computed s.code) (hsymbol : ∀ a, symbol.address? = some a →
      (s.scene k).holds a ∧ a.IsAddress s.entry) :
    Meets (Adds k n) s (store pos symbol v) fun _ _ => True := by
  unfold store
  apply meets_guarded
  intro _
  split
  · rename_i a x ha hx
    obtain ⟨hholds, haddress⟩ := hsymbol a ha
    apply meets_emit (P := fun _ _ => True) (R := fun _ _ => True)
    · apply (Rules.meets_coerce? (R := .typed _ k.env.strict) (known_emission hv) hx).bind
      intro y e h hy
      have ha : (s.emission.scene (s.scene k)).Has a (.pointer symbol.type.ir) :=
        has_emission ⟨hholds, Symbol.type_of_address? ha⟩
      exact Emit.meets_perform (.store hy (ha.mono (Emission.scene_le_of_steps h)))
    · apply (flows_coerce? hv hv' hx).bind
      intro y e _ hy
      exact Emit.flows_perform (.store hy haddress)
    · exact fun _ _ _ _ => trivial
  · exact meets_throw _

theorem mem_declareLocal (hs : s.Lawful k n) (name : String) (type : ValueType) :
    (⟨some s.frame.body.register, .alloca type.ir⟩ : Instr) ∈
      (after (declareLocal name type) s).entry := by
  change _ ∈ (s.frame.body.append .entry _).codeAt .entry
  rw [Body.codeAt_append hs.disciplined.body.entry, if_pos rfl]
  exact List.mem_append_right _ (List.mem_singleton_self _)

theorem holds_declareLocal (hs : s.Lawful k n) (name : String) (type : ValueType) :
    ((after (declareLocal name type) s).scene k).holds
      (.register s.frame.body.register (.pointer type.ir)) :=
  ⟨_, Body.subset_code_append hs.typed.entry (List.mem_singleton_self _), rfl, rfl⟩

theorem meets_declareLocal (hs : s.Lawful k n) {name : String} (type : ValueType)
    (hfree : s.frame.locals.find? name = none) (hlocal : s.frame.isLocal name = true)
    (hname : n.assigned name) :
    Meets (Adds k n) s (declareLocal name type) fun s' symbol =>
      (∀ a, symbol.address? = some a → (s'.scene k).holds a ∧ a.IsAddress s'.entry) ∧
        s.code ⊆ s'.code ∧ name ∈ s'.frame.locals.names := by
  have hstep : Adds k n s (after (declareLocal name type) s) :=
    ⟨.declareLocal, .declareLocal hfree hlocal hname⟩
  refine ⟨.single hstep, fun a ha => ?_, ?_, ?_⟩
  · obtain rfl := Option.some.inj ha
    exact ⟨holds_declareLocal hs name type, _, mem_declareLocal hs name type, rfl, rfl⟩
  · exact Body.codeAt_subset_append _ _ _ _
  · change name ∈ (s.frame.locals.declare _).symbols.map (·.name)
    rw [Scope.symbols_declare hfree, List.map_append]
    exact List.mem_append_right _ (List.mem_singleton_self _)

variable {type : ValueType} {initial : Ir.Constant} {name : String}

theorem meets_declareGlobal (htype : initial.type = type.ir)
    (hfree : s.progress.scope.find? name = none) (hunused : k.env.functions.find? name = none)
    (hname : k.names name) :
    Meets (Adds k n) s (declareGlobal name type initial) fun s' symbol =>
      (∀ a, symbol.address? = some a → (s'.scene k).holds a ∧ a.IsAddress s'.entry) ∧
        s'.code = s.code := by
  refine ⟨.single ⟨.declareGlobal htype hfree hunused hname, .declareGlobal⟩, fun a ha => ?_, rfl⟩
  obtain rfl := Option.some.inj ha
  exact ⟨⟨_, List.mem_append_right _ (List.mem_singleton_self _), rfl, htype⟩, trivial⟩

theorem meets_assignNewGlobal (pos : Position) {zero : Ir.Constant} (hv : v.Known (s.scene k))
    (hv' : v.Computed s.code) (hzero : zero.type = type.ir)
    (hfree : s.progress.scope.find? name = none) (hname : k.names name) :
    Meets (Adds k n) s (assignNewGlobal k.env pos name type zero v) fun _ _ => True := by
  unfold assignNewGlobal
  apply meets_guarded
  intro htable
  have hunused : k.env.functions.find? name = none := by
    simpa using htable
  apply meets_get_bind
  dsimp only
  split
  · rename_i initial hinitial _ htype
    have heq : initial.type = type.ir := by
      rw [type_of_constant? hv hinitial, of_decide_eq_true htype]
    exact (meets_declareGlobal heq hfree hunused hname).bind fun _ _ _ _ => meets_pure trivial
  · apply (meets_declareGlobal hzero hfree hunused hname).bind
    rintro symbol s1 h1 ⟨hsymbol, hcode⟩
    exact meets_store pos (hv.mono (State.scene_le_of_adds h1)) (hcode ▸ hv') hsymbol

theorem Lawful.target (hs : s.Lawful k n) {symbol : Symbol} (hsymbol : s.target? name = some symbol)
    (a : Operand) (ha : symbol.address? = some a) : (s.scene k).holds a ∧ a.IsAddress s.entry :=
  ⟨hs.typed.holds_of_target? hsymbol ha, hs.disciplined.isAddress_of_target? hsymbol ha⟩

theorem meets_assign (hs : s.Lawful k n) (pos : Position) (hint : Option String) (e : Expr)
    (hname : k.names name ∧ n.assigned name) :
    Meets (Adds k n) s (assign k.env pos name hint e) fun s' _ =>
      s.frame.signature.isSome → s'.Covers [name] [] := by
  apply (meets_value hs e).bind
  rintro v s1 h1 ⟨hv, hv'⟩
  have hs1 := hs.steps h1
  have hsignature := (State.remains_of_adds h1).signature
  apply (meets_hintedType pos hint v).bind
  intro type s2 _ heq
  subst heq
  split
  · exact meets_throw _
  rename_i zero hzero
  apply meets_get_bind
  -- A name is known from here on if it is that of a variable or has been declared global.
  have hcovers {s3 s4 : State} (h : ReflTransGen (Adds k n) s3 s4)
      (hknown : name ∈ s3.frame.globalNames ∨ name ∈ s3.frame.locals.names) :
      s4.Covers [name] [] := by
    have hone : s3.Covers [name] [] :=
      ⟨List.forall_mem_singleton.mpr hknown, List.forall_mem_nil _⟩
    exact hone.mono (State.remains_of_adds h)
  have hglobal (hsome : s.frame.signature.isSome) (hnot : ¬ s2.frame.isLocal name = true) :
      name ∈ s2.frame.globalNames := by
    rw [← hsignature] at hsome
    unfold Frame.isLocal at hnot
    rw [hsome] at hnot
    simpa using hnot
  -- A variable that exists is stored to; one that does not is made first.
  cases htarget : s2.target? name with
  | some symbol =>
    apply meets_guarded
    intro _
    apply (meets_store pos hv hv' (Lawful.target hs1 htarget)).weaken
    intro _ s3 h3 _ hsome
    apply hcovers h3
    unfold State.target? at htarget
    by_cases hlocal : s2.frame.isLocal name
    · rw [if_pos hlocal] at htarget
      right
      by_contra hnone
      rw [Scope.find?_eq_none_iff.mpr hnone] at htarget
      cases htarget
    · exact .inl (hglobal hsome hlocal)
  | none =>
    unfold State.target? at htarget
    apply meets_ite
    · intro hlocal
      rw [if_pos hlocal] at htarget
      apply (meets_declareLocal hs1 type htarget hlocal hname.2).bind
      intro symbol s3 h3 hsymbol
      obtain ⟨haddress, hcode, hnew⟩ := hsymbol
      apply (meets_store pos (hv.mono (State.scene_le_of_adds h3)) (hv'.mono hcode)
        haddress).weaken
      intro _ s4 h4 _ _
      exact hcovers h4 (.inr hnew)
    · intro hnot
      rw [if_neg hnot] at htarget
      apply (meets_assignNewGlobal pos hv hv' (ValueType.type_of_zero? hzero) htarget
        hname.1).weaken
      intro _ s3 h3 _ hsome
      exact hcovers h3 (.inl (hglobal hsome hnot))

theorem meets_augment (hs : s.Lawful k n) (pos : Position) (name : String) (op : Token.Kind)
    (e : Expr) : Meets (Adds k n) s (augment k.env pos name op e) fun _ _ => True := by
  apply meets_get_bind
  cases htarget : s.target? name with
  | none => exact meets_throw _
  | some symbol =>
    apply (meets_value hs _).bind
    rintro v s1 h1 ⟨hv, hv'⟩
    refine meets_store pos hv hv' fun a ha => ?_
    obtain ⟨hholds, haddress⟩ := Lawful.target hs htarget a ha
    exact ⟨(State.scene_le_of_adds h1).holds a hholds,
      haddress.mono (State.remains_of_adds h1).entry⟩

theorem meets_returned (hs : s.Lawful k n) (pos : Position) (f : Signature)
    (hv : v.Known (s.scene k)) (hv' : v.Computed s.code) :
    Meets (Adds k n) s (returned pos f v) fun s' x =>
      (Terminator.ret x).Typed (s'.scene k) f.result.ir ∧
        ∀ y ∈ (Terminator.ret x).inputs, y.Computed s'.code := by
  unfold returned
  split
  · rename_i hresult
    refine meets_pure ⟨?_, List.forall_mem_nil _⟩
    rw [hresult]
    exact rfl
  · exact meets_throw _
  · exact meets_throw _
  · split
    · rename_i x hx
      have hvalue : f.result.ir ≠ .void := by
        unfold coerce? at hx
        split at hx <;> simp_all [ValueType.ir]
      have hemit : Meets (Adds k n) s (Lower.emit x) fun s' y =>
          (s'.scene k).Has y f.result.ir ∧ y.Computed s'.code :=
        meets_emit (Rules.meets_coerce? (R := .typed _ k.env.strict) (known_emission hv) hx)
          (flows_coerce? hv hv' hx) fun e y hy hy' => has_absorb hs hy hy'
      exact hemit.bind fun y s' _ hy =>
        meets_pure ⟨⟨hvalue, hy.1⟩, List.forall_mem_singleton.mpr hy.2⟩
    · exact meets_throw _

theorem adds_ret (hs : s.Lawful k n) (pos : Position) (e : Option Expr) :
    Meets (Adds k n) s (ret k.env pos e) fun _ _ => True := by
  -- The type of the value is that of the function, also if it was brought to it.
  refine meets_ret adds_goto pos ⟨Value.known_void _, Value.computed_void _⟩ (meets_value hs)
    (fun f v s1 h1 hv => meets_returned (hs.steps h1) pos f hv.1 hv.2) ?_
  rintro f x s1 hf h1 ⟨hx, hinputs⟩
  rw [hs.typed.signature f hf] at hx
  have hcount : Adds k n s1 (after nextReturn s1) :=
    ⟨.count, .count (extends_nextReturn s1).progress rfl⟩
  refine .head hcount (.head (adds_close hx hinputs List.not_mem_nil)
    (.single ⟨.create, .create ?_ (List.nodup_singleton _) ?_⟩))
  · -- The number is a new one, so there is no block with it.
    intro l hl hmem
    change l ∈ (s1.frame.body.close (.ret x)).labels at hmem
    rw [Body.labels_close, List.mem_singleton.mp hl] at hmem
    exact absurd ((hs.steps h1).disciplined.given _ hmem) (Nat.not_succ_le_self _)
  · intro l hl
    rw [List.mem_singleton.mp hl]
    exact Nat.le_refl _

theorem meets_declareNames (pos : Position) (names : List String)
    (hnames : ∀ name ∈ names, n.declared name) (s : State) :
    Meets (Adds k n) s (declareNames pos names) fun s' _ => s'.Covers [] names := by
  induction names generalizing s with
  | nil => exact meets_pure (State.covers_nil _)
  | cons name names ih =>
    obtain ⟨hname, hrest⟩ := List.forall_mem_cons.mp hnames
    apply meets_get_bind
    apply meets_guarded
    intro hfree
    have hadd : Meets (Adds k n) s (modify fun s : State =>
        { s with frame := { s.frame with globalNames := s.frame.globalNames ++ [name] } })
        fun s' (_ : Unit) => name ∈ s'.frame.globalNames :=
      ⟨.single ⟨.globalNames, .declareName (Option.not_isSome_iff_eq_none.mp hfree) hname⟩,
        List.mem_append_right _ (List.mem_singleton_self _)⟩
    apply hadd.bind
    intro _ s1 _ hadded
    apply (ih hrest s1).weaken
    intro _ s2 h2 hcovers
    have hfirst := (State.remains_of_adds h2).globalNames hadded
    exact ⟨hcovers.assigned, List.forall_mem_cons.mpr ⟨hfirst, hcovers.declared⟩⟩

/-- A step without errors has succeeded. -/
theorem adds_reported {x : Lower Unit} {Q : State → Unit → Prop} (hx : Meets (Adds k n) s x Q) :
    Meets (Adds k n) s (reported x) fun s' a => s'.errors ≤ s.errors → Q s' a := by
  unfold Meets reported
  cases h : x s with
  | ok a s1 =>
    obtain ⟨hsteps, ha⟩ := hx.of_ok h
    exact ⟨hsteps, fun _ => ha⟩
  | error e s1 =>
    have hsteps := hx.of_error h
    have hstep : Adds k n s1 { s1 with progress := s1.progress.report e } :=
      ⟨.report, .count (s1.progress.extends_report e) rfl⟩
    refine ⟨.tail hsteps hstep, fun hno => ?_⟩
    have hle := (State.remains_of_adds hsteps).errors
    have hreport := s1.progress.errorCount_report e
    have hno : (s1.progress.report e).errors ≤ s.errors := hno
    unfold State.errors at hle hno
    unfold Progress.errors at hreport hno
    omega

theorem adds_enter {new : List Label} (hfresh : ∀ l ∈ new, l ∉ s.frame.body.labels)
    (hnodup : new.Nodup) (hgiven : ∀ l ∈ new, used s.progress l)
    (ht : t.Typed (s.scene k) k.function.result)
    (hinputs : ∀ x ∈ t.inputs, x.Computed s.code) (htargets : .entry ∉ t.targets) (hl : l ∈ new) :
    Meets (Adds k n) s (modifyBody fun b => ((b.create new).close t).goto l) fun s' _ =>
      new ⊆ s'.frame.body.labels := by
  have hcreate : Step k s (s.mapBody (·.create new)) := .create
  have hcode : (s.mapBody (·.create new)).code = s.code := Body.codeAt_create
  refine meets_enter adds_goto ⟨hcreate, .create hfresh hnodup hgiven⟩
    (adds_close (ht.mono hcreate.scene_le) ?_ htargets) hl
  rw [hcode]
  exact hinputs

theorem adds_leave {target : Label} (htarget : target ≠ .entry) (hl : l ∈ s.frame.body.labels) :
    Meets (Adds k n) s (modifyBody fun b => (b.finish (.jump target)).goto l) fun _ _ => True :=
  meets_leave adds_goto (adds_close trivial (List.forall_mem_nil _)
    fun hmem => htarget (List.mem_singleton.mp hmem).symm) hl

mutual

theorem meets_stmt : ∀ (st : Stmt) {s : State}, s.Lawful k n →
    (∀ name ∈ st.assigned, k.names name ∧ n.assigned name) →
    (∀ name ∈ st.globalized, n.declared name) →
    Meets (Adds k n) s (stmt k.env st) fun s' _ => s.frame.signature.isSome →
      s'.errors ≤ s.errors → s'.Covers st.assigned st.globalized
  | .evaluate pos e, s, hs, _, _ => by
    simp only [stmt]
    apply (meets_value hs e).bind
    intro _ s1 _ _
    exact meets_pure fun _ _ => State.covers_nil _
  | .pass pos, s, hs, _, _ => by
    simp only [stmt]
    exact meets_pure fun _ _ => State.covers_nil _
  | .globals pos names, s, hs, _, hdeclared => by
    simp only [stmt]
    apply meets_get_bind
    apply meets_ite
    · intro _
      exact (meets_declareNames pos names hdeclared s).weaken fun _ _ _ hcovers _ _ => hcovers
    · intro hnone
      exact meets_pure fun hsome => absurd hsome hnone
  | .assign pos name hint e, s, hs, hassigned, _ => by
    simp only [stmt]
    apply (meets_assign hs pos hint e (hassigned name (List.mem_singleton_self _))).weaken
    intro _ s1 _ hcovers hsome _
    exact hcovers hsome
  | .augment pos name op e, s, hs, _, _ => by
    simp only [stmt]
    exact (meets_augment hs pos name op e).weaken fun _ _ _ _ _ _ => State.covers_nil _
  | .ret pos e, s, hs, _, _ => by
    simp only [stmt]
    exact (adds_ret hs pos e).weaken fun _ _ _ _ _ _ => State.covers_nil _
  | .branch pos cond yes no, s, hs, hassigned, hdeclared => by
    simp only [stmt]
    obtain ⟨hyes, hno⟩ := List.forall_mem_append.mp hassigned
    obtain ⟨hyes', hno'⟩ := List.forall_mem_append.mp hdeclared
    have hcount : Meets (Adds k n) s nextIf fun s1 id =>
        id = s.progress.ifs + 1 ∧ s1 = after nextIf s :=
      ⟨.single ⟨.count, .count (extends_nextIf s).progress rfl⟩, rfl, rfl⟩
    apply hcount.bind
    rintro id s1 h1 ⟨hid, hs1⟩
    have hcond := meets_condition (hs.steps h1) cond
    apply (meets_stays hcond (plain_straight.condition cond)).bind
    rintro x s2 h2 ⟨⟨hx, hx'⟩, hstraight⟩
    subst hs1
    -- The number is a new one, and the condition has made no blocks.
    have hfresh : ∀ l ∈ [Label.ifThen id, .ifElse id, .ifMerge id], l ∉ s2.frame.body.labels := by
      rw [Body.labels_congr hstraight.body.flow]
      exact fun l hl hmem => not_used_branch hid l hl (hs.disciplined.given l hmem)
    have hle : id ≤ s2.progress.ifs := hid ▸ hstraight.progress.ifs
    apply (adds_enter (t := .branch x (.ifThen id) (.ifElse id)) hfresh (by simp) (used_branch hle)
      hx (List.forall_mem_singleton.mpr hx') (by simp [Terminator.targets]) (by simp)).bind
    intro _ s3 h3 hlabels
    have h03 := (h1.trans h2).trans h3
    have hs3 := hs.steps h03
    apply (meets_stmts yes hs3 hyes hyes').bind
    intro _ s4 h4 hcovers
    have hs4 := hs3.steps h4
    have hlabels4 := List.Subset.trans hlabels (State.remains_of_adds h4).labels
    have hmerge : Label.ifMerge id ≠ .entry := by simp
    apply (adds_leave hmerge (hlabels4 (by simp))).bind
    intro _ s5 h5 _
    have hs5 := hs4.steps h5
    apply (meets_stmts no hs5 hno hno').bind
    intro _ s6 h6 hcovers'
    have hlabels6 := List.Subset.trans hlabels4 (State.remains_of_adds (h5.trans h6)).labels
    apply (adds_leave hmerge (hlabels6 (by simp))).weaken
    intro _ s7 h7 _ hsome herrors
    -- No part has made an error if there is none in the end.
    have hr3 := State.remains_of_adds h03
    have hr4 := State.remains_of_adds h4
    have hr5 := State.remains_of_adds h5
    have hr6 := State.remains_of_adds h6
    have hr7 := State.remains_of_adds h7
    have he3 := hr3.errors
    have he4 := hr4.errors
    have he5 := hr5.errors
    have he6 := hr6.errors
    have he7 := hr7.errors
    have hsome3 : s3.frame.signature.isSome := hr3.signature ▸ hsome
    have hsome5 : s5.frame.signature.isSome := (hr4.trans hr5).signature ▸ hsome3
    have hfirst := (hcovers hsome3 (by omega)).mono ((hr5.trans hr6).trans hr7)
    have hsecond := (hcovers' hsome5 (by omega)).mono hr7
    exact hfirst.append hsecond
  | .loop pos cond body, s, hs, hassigned, hdeclared => by
    simp only [stmt]
    have hcount : Meets (Adds k n) s nextWhile fun s1 id =>
        id = s.progress.whiles + 1 ∧ s1 = after nextWhile s :=
      ⟨.single ⟨.count, .count (extends_nextWhile s).progress rfl⟩, rfl, rfl⟩
    apply hcount.bind
    rintro id s1 h1 ⟨hid, rfl⟩
    have hfresh : ∀ l ∈ [Label.whileCond id, .whileBody id, .whileExit id],
        l ∉ (after nextWhile s).frame.body.labels :=
      fun l hl hmem => not_used_loop hid l hl (hs.disciplined.given l hmem)
    apply (adds_enter (t := .jump (.whileCond id)) hfresh (by simp)
      (used_loop (Nat.le_of_eq hid)) trivial (List.forall_mem_nil _)
      (by simp [Terminator.targets]) (by simp)).bind
    intro _ s2 h2 hlabels
    have hs2 := hs.steps (h1.trans h2)
    apply (meets_condition hs2 cond).bind
    rintro x s3 h3 ⟨hx, hx'⟩
    have hlabels3 := List.Subset.trans hlabels (State.remains_of_adds h3).labels
    apply (meets_close (t := .branch x (.whileBody id) (.whileExit id)) adds_goto
      (adds_close hx (List.forall_mem_singleton.mpr hx') (by simp [Terminator.targets]))
      (hlabels3 (by simp))).bind
    intro _ s4 h4 _
    have h04 := ((h1.trans h2).trans h3).trans h4
    have hlabels4 := List.Subset.trans hlabels3 (State.remains_of_adds h4).labels
    apply (meets_stmts body (hs.steps h04) hassigned hdeclared).bind
    intro _ s5 h5 hcovers
    have hlabels5 := List.Subset.trans hlabels4 (State.remains_of_adds h5).labels
    have hback : Label.whileCond id ≠ .entry := by simp
    apply (adds_leave hback (hlabels5 (by simp))).weaken
    intro _ s6 h6 _ hsome herrors
    have hr4 := State.remains_of_adds h04
    have hr5 := State.remains_of_adds h5
    have hr6 := State.remains_of_adds h6
    have he4 := hr4.errors
    have he6 := hr6.errors
    have hsome4 : s4.frame.signature.isSome := hr4.signature ▸ hsome
    exact (hcovers hsome4 (by omega)).mono hr6
  | .define pos name params returns body, s, hs, _, _ => by
    simp only [stmt]
    exact meets_throw _

theorem meets_stmts : ∀ (ss : List Stmt) {s : State}, s.Lawful k n →
    (∀ name ∈ assignedAll ss, k.names name ∧ n.assigned name) →
    (∀ name ∈ globalizedAll ss, n.declared name) →
    Meets (Adds k n) s (stmts k.env ss) fun s' _ => s.frame.signature.isSome →
      s'.errors ≤ s.errors → s'.Covers (assignedAll ss) (globalizedAll ss)
  | [], s, hs, _, _ => by
    simp only [stmts]
    exact meets_pure fun _ _ => State.covers_nil _
  | st :: ss, s, hs, hassigned, hdeclared => by
    simp only [stmts]
    obtain ⟨hfirst, hrest⟩ := List.forall_mem_append.mp hassigned
    obtain ⟨hfirst', hrest'⟩ := List.forall_mem_append.mp hdeclared
    apply (adds_reported (meets_stmt st hs hfirst hfirst')).bind
    intro _ s1 h1 hcovers
    apply (meets_stmts ss (hs.steps h1) hrest hrest').weaken
    intro _ s2 h2 hcovers' hsome herrors
    have hr1 := State.remains_of_adds h1
    have hr2 := State.remains_of_adds h2
    have he1 := hr1.errors
    have he2 := hr2.errors
    have hsome1 : s1.frame.signature.isSome := hr1.signature ▸ hsome
    have hone := hcovers (by omega) hsome (by omega)
    exact (hone.mono hr2).append (hcovers' hsome1 (by omega))

end

end Lower

structure State.Opening (s : State) : Prop where
  signature : s.frame.signature.isSome
  globalNames : s.frame.globalNames = []
  current : s.frame.body.current = .entry

/-- A variable holds a parameter: it has been stored in its cell. -/
structure State.Holds (s : State) (p : String × ValueType) (symbol : Symbol) : Prop where
  name : symbol.name = p.1
  stored : ∃ r, symbol.cell? = some ⟨some r, .alloca p.2.ir⟩ ∧
    ⟨none, .store (.param p.1 p.2.ir) (.register r (.pointer p.2.ir))⟩ ∈ s.entry

theorem State.Holds.mono {s s' : State} {p : String × ValueType} {symbol : Symbol}
    (h : s.Holds p symbol) (hremains : s.Remains s') : s'.Holds p symbol := by
  obtain ⟨r, hcell, hstore⟩ := h.stored
  exact ⟨h.name, r, hcell, hremains.entry hstore⟩

namespace Definition

/-- The names that a function can have variables for, and those that it can declare global. -/
def names (d : Definition) : Names where
  assigned name := name ∈ d.params ∨ name ∈ assignedAll d.body
  declared name := name ∈ globalizedAll d.body

section Parameters

variable {k : Site} {n : Names} {s : State}

theorem meets_spill (hs : s.Lawful k n) (hopening : s.Opening) {name : String} (type : ValueType)
    (hfree : s.frame.locals.find? name = none) (hname : n.assigned name)
    (hparam : ⟨some name, type.ir⟩ ∈ k.function.params) :
    Meets (Adds k n) s (spill name type) fun s' _ => s'.Opening ∧ ∃ symbol,
      s'.frame.locals.symbols = s.frame.locals.symbols ++ [symbol] ∧
        s'.Holds (name, type) symbol := by
  set s1 := Lower.after (Lower.declareLocal name type) s
  set r := s.frame.body.register
  set store : Instr := ⟨none, .store (.param name type.ir) (.register r (.pointer type.ir))⟩
  set s2 := s1.absorb { s1.emission with instrs := [store] }
  have hlocal : s.frame.isLocal name = true := by
    unfold Frame.isLocal
    rw [hopening.signature, hopening.globalNames]
    rfl
  have hdeclare : Adds k n s s1 := ⟨.declareLocal, .declareLocal hfree hlocal hname⟩
  have hs1 := hs.steps (.single hdeclare)
  have hvalue : (s1.scene k).Has (.param name type.ir) type.ir := ⟨hparam, rfl⟩
  have haddress : (s1.scene k).Has (.register r (.pointer type.ir)) (.pointer type.ir) :=
    ⟨Lower.holds_declareLocal hs name type, rfl⟩
  have hstore : Adds k n s1 s2 := by
    refine ⟨.absorb (.single (.perform ?_)), .absorb (.single (.perform ?_))⟩
    · exact .store (Lower.has_emission hvalue) (Lower.has_emission haddress)
    · exact .store trivial ⟨_, Lower.mem_declareLocal hs name type, rfl, rfl⟩
  have hstored : store ∈ s2.entry := by
    have hentry : s2.entry = s1.entry ++ [store] :=
      (Body.codeAt_append hs1.disciplined.body.current).trans (if_pos hopening.current.symm)
    rw [hentry]
    exact List.mem_append_right _ (List.mem_singleton_self _)
  exact ⟨.head hdeclare (.single hstore), ⟨hopening.signature, hopening.globalNames,
    hopening.current⟩, ⟨name, type, .stack r⟩, Scope.symbols_declare hfree, rfl, r, rfl, hstored⟩

theorem meets_spillAll {params : List (String × ValueType)} (hs : s.Lawful k n)
    (hopening : s.Opening) (hnodup : (params.map Prod.fst).Nodup)
    (hfree : ∀ p ∈ params, s.frame.locals.find? p.1 = none)
    (hparams : ∀ p ∈ params, n.assigned p.1 ∧ ⟨some p.1, p.2.ir⟩ ∈ k.function.params) :
    Meets (Adds k n) s (spillAll params) fun s' _ => s'.Opening ∧ ∃ symbols,
      s'.frame.locals.symbols = s.frame.locals.symbols ++ symbols ∧
        List.Forall₂ s'.Holds params symbols := by
  induction params generalizing s with
  | nil => exact meets_pure ⟨hopening, [], (List.append_nil _).symm, .nil⟩
  | cons p params ih =>
    obtain ⟨hp, hnodup⟩ := List.nodup_cons.mp hnodup
    obtain ⟨hfirst, hfree⟩ := List.forall_mem_cons.mp hfree
    obtain ⟨⟨hname, hparam⟩, hparams⟩ := List.forall_mem_cons.mp hparams
    apply (meets_spill hs hopening p.2 hfirst hname hparam).bind
    rintro _ s1 h1 ⟨hopening1, symbol, hsymbols, hholds⟩
    -- The next parameters have other names.
    have hfree1 : ∀ q ∈ params, s1.frame.locals.find? q.1 = none := by
      intro q hq
      rw [Scope.find?_eq_none_iff, Scope.names, hsymbols, List.map_append, List.mem_append]
      rintro (hold | hnew)
      · exact Scope.find?_eq_none_iff.mp (hfree q hq) hold
      · have heq : q.1 = symbol.name := List.mem_singleton.mp hnew
        rw [hholds.name] at heq
        exact hp (heq ▸ List.mem_map_of_mem hq)
    apply (ih (hs.steps h1) hopening1 hnodup hfree1 hparams).weaken
    rintro _ s2 h2 ⟨hopening2, symbols, hsymbols2, hrest⟩
    refine ⟨hopening2, symbol :: symbols, ?_, ?_⟩
    · rw [hsymbols2, hsymbols, List.append_assoc]
      rfl
    · exact .cons (hholds.mono (State.remains_of_adds h2)) hrest

end Parameters

theorem disciplined_start {n : Names} {p : Progress} {frame : Frame} (hbody : frame.body = .start)
    (hlocals : frame.locals = .empty) (hnames : frame.globalNames = [])
    (hglobals : ∀ symbol ∈ p.scope.symbols, ∃ immutable, symbol.storage = .module immutable) :
    State.Disciplined n ⟨p, frame⟩ := by
  have hsymbols : frame.locals.symbols = [] := by rw [hlocals]; rfl
  have hnone : frame.locals.names = [] := by rw [hlocals]; rfl
  refine ⟨hbody ▸ .start, ?_, ⟨?_, ?_, ?_, ?_, ?_, fun _ => hsymbols⟩, hglobals⟩
  · intro l hl
    have hl : l ∈ frame.body.labels := hl
    rw [hbody] at hl
    rw [List.mem_singleton.mp hl]
    trivial
  · rw [hsymbols, hbody, Body.codeAt_start]
    rfl
  · rw [hnone]
    exact List.nodup_nil
  · rw [hnone]
    exact List.forall_mem_nil _
  · rw [hnames]
    exact List.forall_mem_nil _
  · rw [hnone]
    exact List.forall_mem_nil _

section Body

variable {d : Definition} {k : Site} {s : State}

theorem typed_ending (hresult : k.function.result = d.signature.result.ir) :
    (Terminator.ret d.ending).Typed (s.scene k) k.function.result := by
  unfold ending
  rw [hresult]
  cases hzero : d.signature.result.zero? with
  | none =>
    have hvoid : d.signature.result.ir = .void := by
      cases ht : d.signature.result <;> rw [ht] at hzero <;> first | rfl | cases hzero
    exact hvoid
  | some zero =>
    have htype := ValueType.type_of_zero? hzero
    have hne : d.signature.result.ir ≠ .void := by
      cases ht : d.signature.result <;> rw [ht] at hzero <;> cases hzero <;> decide
    exact ⟨hne, trivial, htype⟩

/-- A function has been lowered. Its variables begin with those that hold its parameters, and if
there are no errors, then its names are covered. -/
structure LoweredTo (d : Definition) (p : Progress) (s : State) : Prop where
  disciplined : s.Disciplined d.names
  signature : s.frame.signature = some d.signature
  holds : ∃ symbols, symbols <+: s.frame.locals.symbols ∧
    List.Forall₂ s.Holds (d.params.zip d.signature.params) symbols
  covers : s.errors ≤ p.errors → s.Covers (assignedAll d.body) (globalizedAll d.body)

theorem meets_lower (hd : d.Proper) {p : Progress}
    (hs : State.Lawful k d.names ⟨p, .ofSignature d.signature⟩)
    (hinit : initCallee.Refers k.functions) (hresult : k.function.result = d.signature.result.ir)
    (hparams : ∀ q ∈ d.params.zip d.signature.params, ⟨some q.1, q.2.ir⟩ ∈ k.function.params)
    (hnames : ∀ name ∈ assignedAll d.body, k.names name) :
    Meets (Adds k d.names) ⟨p, .ofSignature d.signature⟩ (d.lower k.env) fun s' _ =>
      d.LoweredTo p s' := by
  have hprologue : Meets (Adds k d.names) ⟨p, .ofSignature d.signature⟩ d.prologue fun s1 _ =>
      s1.frame.signature.isSome ∧ ∃ symbols, s1.frame.locals.symbols = symbols ∧
        List.Forall₂ s1.Holds (d.params.zip d.signature.params) symbols := by
    have hspill {s1 : State} (hs1 : s1.Lawful k d.names) (hopening : s1.Opening)
        (hnone : s1.frame.locals.symbols = []) :
        Meets (Adds k d.names) s1 (spillAll (d.params.zip d.signature.params)) fun s2 _ =>
          s2.frame.signature.isSome ∧ ∃ symbols, s2.frame.locals.symbols = symbols ∧
            List.Forall₂ s2.Holds (d.params.zip d.signature.params) symbols := by
      have hfree : ∀ q ∈ d.params.zip d.signature.params,
          s1.frame.locals.find? q.1 = none := by
        intro q _
        rw [Scope.find?_eq_none_iff, Scope.names, hnone]
        exact List.not_mem_nil
      apply (meets_spillAll hs1 hopening hd.nodup_zip hfree fun q hq =>
        ⟨.inl (List.of_mem_zip hq).1, hparams q hq⟩).weaken
      rintro _ s2 _ ⟨hopening2, symbols, hsymbols, hholds⟩
      exact ⟨hopening2.signature, symbols, by rw [hsymbols, hnone]; rfl, hholds⟩
    unfold prologue
    apply meets_ite
    · intro _
      have hcall : Meets (Adds k d.names) ⟨p, .ofSignature d.signature⟩
          (Lower.emit (Emit.perform (.call false initCallee []))) fun s1 _ =>
            s1.Opening ∧ s1.frame.locals.symbols = [] :=
        Lower.meets_emit (Emit.meets_perform (.call hinit .nil fun _ => rfl))
          (Emit.flows_perform (.call (List.forall_mem_nil _))) fun _ _ _ _ =>
            ⟨⟨rfl, rfl, rfl⟩, rfl⟩
      exact hcall.bind fun _ s1 h1 hopening => hspill (hs.steps h1) hopening.1 hopening.2
    · intro _
      exact hspill hs ⟨rfl, rfl, rfl⟩ rfl
  rw [lower_eq]
  apply hprologue.bind
  rintro _ s1 h1 ⟨hsome, symbols, hsymbols, hholds⟩
  have hs1 := hs.steps h1
  apply (Lower.meets_stmts d.body hs1 (fun name h => ⟨hnames name h, .inr h⟩)
    fun name h => h).bind
  intro _ s2 h2 hcovers
  have hending : ∀ x ∈ (Terminator.ret d.ending).inputs, x.Computed s2.code := by
    intro x hx
    obtain ⟨zero, -, rfl⟩ := Option.map_eq_some_iff.mp (Option.mem_toList.mp hx)
    trivial
  have hclose := Lower.adds_close (n := d.names) (typed_ending hresult) hending List.not_mem_nil
  apply (Lower.meets_modifyBody (Lower.steps_finish hclose)).weaken
  rintro _ s3 h3 -
  have hr1 := State.remains_of_adds h1
  have hr2 := State.remains_of_adds h2
  have hr3 := State.remains_of_adds h3
  have hr13 := hr2.trans hr3
  refine ⟨((hs1.steps h2).steps h3).disciplined, (hr1.trans hr13).signature,
    ⟨symbols, hsymbols ▸ hr13.locals, hholds.imp fun p symbol h => h.mono hr13⟩, fun hno => ?_⟩
  have he1 : p.errors ≤ s1.errors := hr1.errors
  have he3 := hr3.errors
  exact (hcovers hsome (by omega)).mono hr3

end Body

end Definition

end BoardPython.Lowering
