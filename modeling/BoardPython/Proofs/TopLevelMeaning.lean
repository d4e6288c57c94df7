import BoardPython.Proofs.Execution
import BoardPython.Proofs.StmtMeaning

/-! Code outside of functions keeps its meaning, but for assignments that become initial values: they
are made once and for all before the code runs, and not where they stand. -/
namespace BoardPython.Lowering

open Ir (Datum Follows Instr Machine Memory Operand Outline Registers Run Slot World)

namespace Lower

/-- Whether an assignment becomes the initial value of its variable, so that nothing is stored: it is
the first one to the variable, and the value is a constant of the variable's type. -/
def isPreset (env : Environment) (name : String) (hint : Option String) (e : Expr) (s : State) :
    Bool :=
  match value env e s with
  | .ok v s1 =>
    (s1.target? name).isNone && (constant? v).isSome &&
      hint.all fun hint => decide (ValueType.ofHint? hint = some v.type)
  | .error .. => false

mutual

/-- The places of the assignments in a statement that become initial values. -/
def presets (env : Environment) : Stmt → State → List Position
  | .assign pos name hint e, s => if isPreset env name hint e s then [pos] else []
  | .branch _ cond yes no, s =>
    let id := s.progress.ifs + 1
    match condition env cond (after nextIf s) with
    | .ok x s1 =>
      let s2 := s1.mapBody (Body.enterThen id x)
      let s3 := (after (stmts env yes) s2).mapBody (Body.leaveBranch id (.ifElse id))
      presetsAll env yes s2 ++ presetsAll env no s3
    | .error .. => []
  | .loop _ cond body, s =>
    let id := s.progress.whiles + 1
    match condition env cond ((after nextWhile s).mapBody (Body.enterLoop id)) with
    | .ok x s1 => presetsAll env body (s1.mapBody (Body.enterLoopBody id x))
    | .error .. => []
  | _, _ => []

def presetsAll (env : Environment) : List Stmt → State → List Position
  | [], _ => []
  | st :: ss, s => presets env st s ++ presetsAll env ss (after (reported (stmt env st)) s)

end

end Lower

/-- An assignment changes nothing that code can tell from the initial value: nothing has been assigned
to the variable before, or it holds the value already. -/
def Assigned.Settled {F : Type} (a : Assigned F) : Prop :=
  a.before = none ∨ a.before = some a.value

/-- The globals are in memory with their initial values. -/
structure Loaded {F : Type} (m : Machine F) (globals : List Ir.Global) (initial : Memory F) :
    Prop where
  bytes : HoldsBytes m globals
  values : ∀ g ∈ globals, ∀ d, m.datum? g.initial = some d → initial (.global g.name) = some d

/-- The context of code outside of functions, when the module is complete. -/
def topContext (env : Environment) (p : Progress) : Context := State.context env ⟨p, .top⟩

section Contexts

variable {env : Environment} {s : State} {fin : Progress}

theorem resolve?_of_outside (h : s.frame.signature = none) (name : String) :
    (s.context env).resolve? name = s.progress.scope.find? name := by
  have hlocals : (s.context env).locals = none := by
    change s.frame.locals? = none
    rw [Frame.locals?, h]
    rfl
  rw [Context.resolve?, hlocals, ite_self]
  rfl

theorem topContext_extends (h : s.frame.signature = none) (hfin : s.progress.Extends fin) :
    (s.context env).Extends (topContext env fin) := by
  refine ⟨rfl, fun name symbol hs => ?_⟩
  rw [resolve?_of_outside h] at hs
  rw [topContext, resolve?_of_outside rfl]
  exact hfin.scope name symbol hs

theorem target?_of_outside (h : s.frame.signature = none) (name : String) :
    s.target? name = s.progress.scope.find? name := by
  have hlocal : s.frame.isLocal name = false := by rw [Frame.isLocal, h]; rfl
  rw [State.target?, hlocal]
  rfl

end Contexts

namespace Lower

variable {env : Environment} {s s' : State}

def withGlobal (name : String) (type : ValueType) (initial : Ir.Constant) (s : State) : State :=
  after (declareGlobal name type initial) s

/-- What an assignment outside of functions can be lowered to: a store to a variable that exists, an
initial value, or a store to a new variable. -/
theorem assign_eq_ok {pos : Position} {name : String} {hint : Option String} {e : Expr}
    (hsig : s.frame.signature = none) (h : assign env pos name hint e s = .ok () s') :
    ∃ v s1, value env e s = .ok v s1 ∧
      ((∃ symbol, s1.progress.scope.find? name = some symbol ∧ store pos symbol v s1 = .ok () s') ∨
      (s1.progress.scope.find? name = none ∧
        ((∃ c, constant? v = some c ∧ s' = withGlobal name v.type c s1 ∧
          isPreset env name hint e s = true) ∨
        ∃ type zero, store pos ⟨name, type, .module false⟩ v (withGlobal name type zero s1) =
          .ok () s'))) := by
  obtain ⟨v, s1, hv, hcases⟩ := assign_steps h
  have hsig1 : s1.frame.signature = none := ((plain_straight.value e).of_ok hv).signature.trans hsig
  have htarget := target?_of_outside hsig1 name
  rw [htarget] at hcases
  refine ⟨v, s1, hv, hcases.imp_right ?_⟩
  -- Outside of functions there are no local variables, so only the scope decides.
  have hlocal : s1.frame.isLocal name = false := by rw [Frame.isLocal, hsig1]; rfl
  rintro ⟨hfree, type, hhint, ⟨htrue, -⟩ | ⟨-, zero, hnew⟩⟩
  · cases hlocal.symm.trans htrue
  refine ⟨hfree, ?_⟩
  rcases assignNewGlobal_eq_ok hnew with ⟨-, c, hc, rfl, hs'⟩ | hstore
  · refine .inl ⟨c, hc, hs', ?_⟩
    rw [isPreset, hv]
    simp [htarget, hfree, hc, hhint]
  · exact .inr ⟨type, zero, hstore⟩

end Lower

structure Prepared {F : Type} (m : Machine F) (env : Environment) (fin : Progress)
    (initial : Memory F) : Prop where
  operators : env.operators = .numeric
  loaded : Loaded m fin.globals initial
  calls : CallsCarryOver m initial

/-- Code does what a statement does, if the assignments that have become initial values are settled.
Variables that have not been assigned hold their initial values. -/
def Simulates {F : Type} (m : Machine F) (c : Context) (initial : Memory F) (fixed : List Position)
    (st : Stmt) (code : List Instr) : Prop :=
  ∀ regs w assigned w', act m c st w = .ok (assigned, w') →
    (∀ a ∈ assigned, a.pos ∈ fixed → a.Settled) →
      ∃ regs', m.exec code regs (w.over initial) = .ok (regs', w'.over initial)

def Decides {F : Type} (m : Machine F) (c : Context) (initial : Memory F) (cond : Expr)
    (code : List Instr) (x : Operand) : Prop :=
  ∀ regs w b w', test m c cond w = .ok (b, w') →
    ∃ regs', m.exec code regs (w.over initial) = .ok (regs', w'.over initial) ∧
      HoldsBool m regs' x b

section Simulation

variable {F : Type} {m : Machine F} {env : Environment} {fin : Progress} {initial : Memory F}
  {fixed : List Position} {s s' : State} {pos : Position} {name : String} {e : Expr}
  {code : List Instr} {st : Stmt}

theorem simulated_of_stored {symbol : Symbol} {slot : Slot}
    (hp : Prepared m env fin initial) (hs : (topContext env fin).resolve? name = some symbol)
    (hslot : symbol.slot? = some slot)
    (hcode : ∀ regs w x w1 d, eval m (topContext env fin) e w = .ok (x, w1) →
      stored? x symbol.type = some d →
        ∃ regs', m.exec code regs w = .ok (regs', { w1 with memory := w1.memory.set slot d }))
    {regs : Registers F} {w w' : World F} {assigned : List (Assigned F)}
    (h : assignTo m (topContext env fin) pos name e w = .ok (assigned, w')) :
    ∃ regs', m.exec code regs (w.over initial) = .ok (regs', w'.over initial) := by
  obtain ⟨x, w1, symbol', slot', d, hx, hs', hslot', hd, -, rfl⟩ := assignTo_eq_ok h
  obtain rfl : symbol' = symbol := Option.some.inj (hs'.symm.trans hs)
  obtain rfl : slot' = slot := Option.some.inj (hslot'.symm.trans hslot)
  rw [Ir.World.over_set]
  exact hcode regs _ x _ d (carries_eval hp.calls e w x w1 hx) hd

theorem simulated_of_preset {v : Value} {constant : Ir.Constant}
    (hp : Prepared m env fin initial) (hc : Lower.constant? v = some constant)
    (hs : (topContext env fin).resolve? name = some ⟨name, v.type, .module false⟩)
    (hglobal : (⟨name, constant, false, false, false⟩ : Ir.Global) ∈ fin.globals)
    (hcode : ∀ regs w x w1, eval m (topContext env fin) e w = .ok (x, w1) →
      ∃ regs', m.exec code regs w = .ok (regs', w1) ∧ v.Denotes m regs' x)
    {regs : Registers F} {w w' : World F} {assigned : List (Assigned F)}
    (h : assignTo m (topContext env fin) pos name e w = .ok (assigned, w'))
    (hsettled : ∀ a ∈ assigned, a.Settled) :
    ∃ regs', m.exec code regs (w.over initial) = .ok (regs', w'.over initial) := by
  obtain ⟨x, w1, symbol, slot, d, hx, hs', hslot, hd, rfl, rfl⟩ := assignTo_eq_ok h
  obtain rfl := Option.some.inj (hs'.symm.trans hs)
  obtain rfl : Slot.global name = slot := Option.some.inj hslot
  obtain ⟨regs', hexec, hden⟩ := hcode regs _ x _ (carries_eval hp.calls e w x w1 hx)
  have hoperand : v.operand? = some (.const constant) := by
    unfold Lower.constant? at hc
    split at hc
    · rename_i ho
      cases hc
      exact ho
    · cases hc
  -- The constant is the initial value, so a settled assignment changes nothing.
  have hdatum : m.datum? constant = some d := by
    rw [← hd]
    exact (stored?_of_denotes hden hoperand).symm
  have hinitial := hp.loaded.values _ hglobal d hdatum
  rw [Ir.World.over_set_initial hinitial (hsettled _ (List.mem_singleton_self _))]
  exact ⟨regs', hexec⟩

theorem simulates_assign {hint : Option String} (hp : Prepared m env fin initial)
    (hsig : s.frame.signature = none) (h : Lower.assign env pos name hint e s = .ok () s')
    (hfin : s'.progress.Extends fin)
    (hfixed : Lower.isPreset env name hint e s = true → pos ∈ fixed) :
    ∃ code, s.frame.body.Grows code s'.frame.body ∧
      Simulates m (topContext env fin) initial fixed (.assign pos name hint e) code := by
  have hbytes : HoldsBytes m s'.progress.globals := hp.loaded.bytes.mono hfin.globals
  have hstraight : s.Straight s' := (Lower.plain_straight.assign pos name hint e).of_ok h
  have hext : (s.context env).Extends (topContext env fin) :=
    topContext_extends hsig (hstraight.progress.trans hfin)
  have hresolve {t : State} {symbol : Symbol} (ht : t.progress.Extends fin)
      (hs : t.progress.scope.find? name = some symbol) :
      (topContext env fin).resolve? name = some symbol := by
    rw [topContext, resolve?_of_outside rfl]
    exact ht.scope name symbol hs
  have hnew {t : State} (type : ValueType) (c : Ir.Constant) (ht : t.progress.scope.find? name = none) :
      (Lower.withGlobal name type c t).progress.scope.find? name =
        some ⟨name, type, .module false⟩ := Scope.find?_declare_self ht
  obtain ⟨v, s1, hv, hcases⟩ := Lower.assign_eq_ok hsig h
  -- The module is complete by the time that the code is run, so names are looked up there.
  rcases hcases with ⟨symbol, hs, hstore⟩ | ⟨hnone, ⟨c, hc, rfl, hpreset⟩ | ⟨type, zero, hstore⟩⟩
  · have hmono := ((Lower.plain_straight.store pos symbol v).of_ok hstore).progress.trans hfin
    obtain ⟨slot, code, hslot, hgrows, hcode⟩ :=
      stored_grows hp.operators hext hv rfl List.prefix_rfl hstore hbytes
    refine ⟨code, hgrows, fun regs w assigned w' hact _ => ?_⟩
    exact simulated_of_stored hp (hresolve hmono hs) hslot hcode hact
  · have hmono := (Lower.plain_straight.declareGlobal name v.type c s1).progress
    obtain ⟨-, code, hgrows, hcode⟩ := value_grows hp.operators hext hv (hbytes.mono hmono.globals)
    refine ⟨code, hgrows, fun regs w assigned w' hact hsettled => ?_⟩
    have hglobal : (⟨name, c, false, false, false⟩ : Ir.Global) ∈ fin.globals :=
      hfin.globals.subset (List.mem_append_right _ (List.mem_singleton_self _))
    refine simulated_of_preset hp hc (hresolve hfin (hnew _ _ hnone)) hglobal hcode hact ?_
    intro a ha
    refine hsettled a ha ?_
    obtain ⟨x, w1, symbol, slot, d, -, -, -, -, rfl, -⟩ := assignTo_eq_ok hact
    rw [List.mem_singleton.mp ha]
    exact hfixed hpreset
  · have hdeclare := (Lower.plain_straight.declareGlobal name type zero s1).progress
    have hmono := ((Lower.plain_straight.store pos _ v).of_ok hstore).progress.trans hfin
    have hbody : (Lower.withGlobal name type zero s1).frame.body = s1.frame.body := rfl
    obtain ⟨slot, code, hslot, hgrows, hcode⟩ :=
      stored_grows hp.operators hext hv hbody hdeclare.globals hstore hbytes
    refine ⟨code, hgrows, fun regs w assigned w' hact _ => ?_⟩
    exact simulated_of_stored hp (hresolve hmono (hnew _ _ hnone)) hslot hcode hact

theorem augment_eq_ok {op : Token.Kind} (hsig : s.frame.signature = none)
    (h : Lower.augment env pos name op e s = .ok () s') :
    ∃ symbol v s1, s.progress.scope.find? name = some symbol ∧
      Lower.value env (.binary pos op (.name pos name) e) s = .ok v s1 ∧
      Lower.store pos symbol v s1 = .ok () s' := by
  obtain ⟨s0, s1, hget, hrest⟩ := bind_eq_ok h
  cases hget
  rw [target?_of_outside hsig] at hrest
  cases hs : s.progress.scope.find? name with
  | none =>
    rw [hs] at hrest
    cases hrest
  | some symbol =>
    rw [hs] at hrest
    obtain ⟨v, s2, hv, hstore⟩ := bind_eq_ok hrest
    exact ⟨symbol, v, s2, rfl, hv, hstore⟩

theorem simulates_simple (hp : Prepared m env fin initial) (hst : Lower.isSimple st = true)
    (hsig : s.frame.signature = none) (h : Lower.stmt env st s = .ok () s')
    (hfin : s'.progress.Extends fin) (hfixed : Lower.presets env st s ⊆ fixed) :
    ∃ code, s.frame.body.Grows code s'.frame.body ∧
      Simulates m (topContext env fin) initial fixed st code := by
  have hbytes : HoldsBytes m s'.progress.globals := hp.loaded.bytes.mono hfin.globals
  have hstraight := (Lower.plain_straight.stmt hst).of_ok h
  have hext : (s.context env).Extends (topContext env fin) :=
    topContext_extends hsig (hstraight.progress.trans hfin)
  unfold Lower.stmt at h
  cases st with
  | evaluate pos e =>
    obtain ⟨v, s1, hv, hlast⟩ := bind_eq_ok h
    obtain ⟨-, rfl⟩ := pure_eq_ok hlast
    obtain ⟨-, code, hgrows, hcode⟩ := value_grows hp.operators hext hv hbytes
    refine ⟨code, hgrows, fun regs w assigned w' hact _ => ?_⟩
    obtain ⟨x, hx, hlast⟩ := except_bind_eq_ok hact
    cases hlast
    obtain ⟨regs', hexec, -⟩ := hcode regs _ x.1 _ (carries_eval hp.calls e w x.1 x.2 hx)
    exact ⟨regs', hexec⟩
  | pass pos =>
    obtain ⟨-, rfl⟩ := pure_eq_ok h
    refine ⟨[], .refl _, fun regs w assigned w' hact _ => ?_⟩
    cases hact
    exact ⟨regs, rfl⟩
  | globals pos names =>
    obtain ⟨s0, s1, hget, hrest⟩ := bind_eq_ok h
    cases hget
    rw [hsig] at hrest
    obtain ⟨-, rfl⟩ := pure_eq_ok hrest
    refine ⟨[], .refl _, fun regs w assigned w' hact _ => ?_⟩
    cases hact
    exact ⟨regs, rfl⟩
  | assign pos name hint e =>
    refine simulates_assign hp hsig h hfin fun hpreset => hfixed ?_
    rw [Lower.presets, if_pos hpreset]
    exact List.mem_singleton_self _
  | augment pos name op e =>
    obtain ⟨symbol, v, s1, hs, hv, hstore⟩ := augment_eq_ok hsig h
    obtain ⟨slot, code, hslot, hgrows, hcode⟩ :=
      stored_grows hp.operators hext hv rfl List.prefix_rfl hstore hbytes
    refine ⟨code, hgrows, fun regs w assigned w' hact _ => ?_⟩
    refine simulated_of_stored hp (hext.resolve name symbol ?_) hslot hcode hact
    rw [resolve?_of_outside hsig]
    exact hs
  | define pos name params returns body => cases h
  | branch pos cond yes no | loop pos cond body | ret pos e => cases hst

theorem simulates_filter {c : Context} (h : Simulates m c initial fixed st code) :
    Simulates m c initial fixed st (code.filter (!·.isAlloca)) := by
  intro regs w assigned w' hact hsettled
  rw [Ir.exec_filter]
  exact h regs w assigned w' hact hsettled

theorem decides_condition {cond : Expr} {x : Operand} (hp : Prepared m env fin initial)
    (hsig : s.frame.signature = none) (hopen : s.frame.body.Open)
    (h : Lower.condition env cond s = .ok x s') (hfin : s'.progress.Extends fin) :
    Decides m (topContext env fin) initial cond (s.frame.body.addedSince s'.frame.body) x := by
  have hstraight := (Lower.plain_straight.condition cond).of_ok h
  have hext : (s.context env).Extends (topContext env fin) :=
    topContext_extends hsig (hstraight.progress.trans hfin)
  obtain ⟨code, hgrows, hcode⟩ := condition_grows hp.operators hext h (hp.loaded.bytes.mono hfin.globals)
  intro regs w b w' ht
  rw [hgrows.addedSince hopen, Ir.exec_filter]
  exact hcode regs _ b _ (carries_test hp.calls cond w b w' ht)

end Simulation

/-- Statements and structured code that match: each piece of code does what its statement does, or
decides its condition. -/
inductive Matches {F : Type} (m : Machine F) (c : Context) (initial : Memory F)
    (fixed : List Position) : List Stmt → List Outline → Prop where
  | nil : Matches m c initial fixed [] []
  | act {st : Stmt} {ss : List Stmt} {code : List Instr} {os : List Outline}
      (h : Simulates m c initial fixed st code) (hst : Lower.isSimple st = true)
      (hrest : Matches m c initial fixed ss os) :
      Matches m c initial fixed (st :: ss) (.group code :: os)
  | branch {pos : Position} {cond : Expr} {yes no ss : List Stmt} {code : List Instr} {x : Operand}
      {ys ns os : List Outline} (hcond : Decides m c initial cond code x)
      (hyes : Matches m c initial fixed yes ys) (hno : Matches m c initial fixed no ns)
      (hrest : Matches m c initial fixed ss os) :
      Matches m c initial fixed (.branch pos cond yes no :: ss) (.group code :: .branch x ys ns :: os)
  | loop {pos : Position} {cond : Expr} {body ss : List Stmt} {code : List Instr} {x : Operand}
      {bs os : List Outline} (hcond : Decides m c initial cond code x)
      (hbody : Matches m c initial fixed body bs) (hrest : Matches m c initial fixed ss os) :
      Matches m c initial fixed (.loop pos cond body :: ss) (.loop code x bs :: os)

section Runs

variable {F : Type} {m : Machine F} {c : Context} {initial : Memory F} {fixed : List Position}
  {ss ss' : List Stmt} {os os' : List Outline}

theorem Matches.append (h : Matches m c initial fixed ss os)
    (h' : Matches m c initial fixed ss' os') :
    Matches m c initial fixed (ss ++ ss') (os ++ os') := by
  induction h with
  | nil => exact h'
  | act h hst _ ih => exact .act h hst ih
  | branch hcond hyes hno _ _ _ ih => exact .branch hcond hyes hno ih
  | loop hcond hbody _ _ ih => exact .loop hcond hbody ih

variable {ys ns : List Outline} {w : World F}

theorem Matches.ite {yes no : List Stmt} (hyes : Matches m c initial fixed yes ys)
    (hno : Matches m c initial fixed no ns) (b : Bool) :
    Matches m c initial fixed (if b then yes else no) (if b then ys else ns) := by
  cases b with
  | true => exact hyes
  | false => exact hno

theorem follows_branch {x : Operand} {code : List Instr} {k : List Outline} {cond : Expr}
    {b : Bool} {w1 : World F} {w2 : World F} (hcond : Decides m c initial cond code x)
    (ht : test m c cond w = .ok (b, w1))
    (hnext : ∀ regs, ∃ es, Run ((if b then ys else ns) ++ k) es ∧
      Follows m es regs (w1.over initial) w2) (regs : Registers F) :
    ∃ es, Run (.group code :: .branch x ys ns :: k) es ∧ Follows m es regs (w.over initial) w2 := by
  obtain ⟨regs1, hexec, hx⟩ := hcond regs w b w1 ht
  obtain ⟨es, hr, hf⟩ := hnext regs1
  exact Ir.follows_group hexec (.branch hr) (.decide hx hf)

theorem follows_of_runs {w' : World F} {trace : List (Assigned F)} (hr : Runs m c ss w w' trace)
    (hm : Matches m c initial fixed ss os) (hsettled : ∀ a ∈ trace, a.pos ∈ fixed → a.Settled)
    (regs : Registers F) :
    ∃ es, Run (os ++ [Outline.ret none]) es ∧
      Follows m es regs (w.over initial) (w'.over initial) := by
  induction hr generalizing os regs with
  | nil =>
    cases hm
    exact ⟨_, .ret, .ret⟩
  | act hact _ ih =>
    cases hm with
    | act hsim _ hrest =>
      obtain ⟨regs1, hexec⟩ := hsim regs _ _ _ hact fun a ha =>
        hsettled a (List.mem_append_left _ ha)
      obtain ⟨es, hr, hf⟩ := ih hrest (fun a ha => hsettled a (List.mem_append_right _ ha)) regs1
      exact Ir.follows_group hexec hr hf
    | branch | loop => cases hact
  | branch ht _ ih =>
    cases hm with
    | act _ hst => cases hst
    | branch hcond hyes hno hrest =>
      refine follows_branch hcond ht (fun regs1 => ?_) regs
      have hnext := ih ((hyes.ite hno _).append hrest) hsettled regs1
      rw [List.append_assoc] at hnext
      exact hnext
  | @loop pos _ _ _ _ _ _ _ _ ht _ ih =>
    cases hm with
    | act _ hst => cases hst
    | loop hcond hbody hrest =>
      -- One more time around is the body with the loop behind it.
      have hagain := hbody.append (@Matches.loop _ _ _ _ _ pos _ _ _ _ _ _ _ hcond hbody .nil)
      have hnext := ih ((hagain.ite .nil _).append hrest) hsettled
      simp only [List.append_assoc] at hnext
      obtain ⟨es, hr, hf⟩ := follows_branch hcond ht hnext regs
      exact ⟨es, .loop hr, hf⟩

end Runs

namespace Lower

section Lowering

variable {F : Type} {m : Machine F} {env : Environment} {fin : Progress} {initial : Memory F}
  {fixed : List Position}

theorem matches_simple {st : Stmt} {s s' : State} (hp : Prepared m env fin initial)
    (hst : isSimple st = true) (hs : s.Ready) (hsig : s.frame.signature = none)
    (h : stmt env st s = .ok () s') (hfin : s'.progress.Extends fin)
    (hfixed : presets env st s ⊆ fixed) :
    Matches m (topContext env fin) initial fixed [st] (outline env st s) := by
  obtain ⟨code, hgrows, hsim⟩ := simulates_simple hp hst hsig h hfin hfixed
  rw [outline_of_simple hst, after_of_ok h, hgrows.addedSince hs.isOpen]
  exact .act (simulates_filter hsim) hst .nil

mutual

theorem matches_stmt (hp : Prepared m env fin initial) : ∀ (st : Stmt) {s s' : State}, s.Ready →
    s.frame.signature = none → stmt env st s = .ok () s' →
    s'.progress.errors ≤ s.progress.errors →
    s'.progress.Extends fin → presets env st s ⊆ fixed →
    Matches m (topContext env fin) initial fixed [st] (outline env st s)
  | .branch pos cond yes no, s, s', hs, hsig, h, hno, hfin, hfixed => by
    obtain ⟨id, x, s1, s3, s5, rfl, hx, h3, he3, h5, he5, rfl⟩ := branch_eq_ok h hno
    have hcond := (plain_straight.condition cond).of_ok hx
    obtain ⟨hready2, hready4, -⟩ := lowered_branch rfl hs.toGiven hcond
      (fun hready => lowered_stmts yes hready.toGiven h3 he3)
      (fun hready => lowered_stmts no hready.toGiven h5 he5)
    have hext3 := (extends_stmts yes).of_ok h3
    have hext5 := (extends_stmts no).of_ok h5
    have hsig1 : s1.frame.signature = none := hcond.signature.trans hsig
    have hsig3 : s3.frame.signature = none := hext3.signature.trans hsig1
    have hfin3 : s3.progress.Extends fin := hext5.progress.trans hfin
    simp only [presets, hx, after_of_ok h3, List.append_subset] at hfixed
    simp only [outline, hx, after_of_ok h3]
    have hsig0 : (after nextIf s).frame.signature = none := hsig
    -- The condition is decided by the code that was added for it.
    have hdecides := decides_condition hp hsig0 hs.isOpen hx (hext3.progress.trans hfin3)
    exact .branch hdecides
      (matches_stmts hp yes hready2 hsig1 h3 he3 hfin3 hfixed.1)
      (matches_stmts hp no hready4 hsig3 h5 he5 hfin hfixed.2) .nil
  | .loop pos cond body, s, s', hs, hsig, h, hno, hfin, hfixed => by
    obtain ⟨id, x, s1, s3, rfl, hx, h3, he3, rfl⟩ := loop_eq_ok h hno
    have hcond := (plain_straight.condition cond).of_ok hx
    obtain ⟨hready0, hready2, -⟩ := lowered_loop rfl hs.toGiven hcond
      (fun hready => lowered_stmts body hready.toGiven h3 he3)
    have hext3 := (extends_stmts body).of_ok h3
    have hsig1 : s1.frame.signature = none := hcond.signature.trans hsig
    simp only [presets, hx] at hfixed
    simp only [outline, hx]
    exact .loop (decides_condition hp hsig hready0.isOpen hx (hext3.progress.trans hfin))
      (matches_stmts hp body hready2 hsig1 h3 he3 hfin hfixed) .nil
  | .ret pos e, s, s', hs, hsig, h, hno, hfin, hfixed => by
    rw [stmt] at h
    obtain ⟨s0, s1, hget, hrest⟩ := bind_eq_ok h
    cases hget
    rw [hsig] at hrest
    cases hrest
  | .evaluate .., s, s', hs, hsig, h, _, hfin, hfixed
  | .pass .., s, s', hs, hsig, h, _, hfin, hfixed
  | .globals .., s, s', hs, hsig, h, _, hfin, hfixed
  | .assign .., s, s', hs, hsig, h, _, hfin, hfixed
  | .augment .., s, s', hs, hsig, h, _, hfin, hfixed
  | .define .., s, s', hs, hsig, h, _, hfin, hfixed => matches_simple hp rfl hs hsig h hfin hfixed

theorem matches_stmts (hp : Prepared m env fin initial) : ∀ (ss : List Stmt) {s s' : State},
    s.Ready → s.frame.signature = none → stmts env ss s = .ok () s' →
    s'.progress.errors ≤ s.progress.errors →
    s'.progress.Extends fin → presetsAll env ss s ⊆ fixed →
    Matches m (topContext env fin) initial fixed ss (outlineAll env ss s)
  | [], s, s', hs, hsig, h, hno, hfin, hfixed => by
    rw [outlineAll]
    exact .nil
  | st :: ss, s, s', hs, hsig, h, hno, hfin, hfixed => by
    obtain ⟨s1, h1, hafter, he1, h2, he2⟩ := cons_eq_ok h hno
    have hext1 := (extends_stmt st).of_ok h1
    have hext2 := (extends_stmts ss).of_ok h2
    rw [presetsAll, hafter, List.append_subset] at hfixed
    rw [outlineAll, hafter]
    have hfirst := matches_stmt hp st hs hsig h1 he1 (hext2.progress.trans hfin) hfixed.1
    exact hfirst.append (matches_stmts hp ss ((lowered_stmt st hs.toGiven h1 he1).ready hs)
      (hext1.signature.trans hsig) h2 he2 hfin hfixed.2)

end

end Lowering

end Lower

end BoardPython.Lowering
