import BoardPython.Proofs.DisciplinedLowering

/-! All code of a module is well typed and disciplined after any sources, also after those that were
not accepted. A compilation keeps its table of functions, its scope and its module in step with each
other. -/
namespace BoardPython

namespace Ir

variable {fs fs' : List Function}

theorem Callee.Refers.mono {f : Callee} (h : f.Refers fs)
    (hheaders : fs.map Function.header <+: fs'.map Function.header) : f.Refers fs' := by
  obtain ⟨g, hg, hname, hparams, hresult⟩ := h
  obtain ⟨g', hg', heq⟩ := Function.getElem?_of_headers hheaders hg
  have hname' : g'.header.name = g.header.name := congrArg Function.name heq
  have hparams' : g'.header.params = g.header.params := congrArg Function.params heq
  have hresult' : g'.header.result = g.header.result := congrArg Function.result heq
  refine ⟨g', hg', hname'.trans hname, ?_, hresult'.trans hresult⟩
  rw [← hparams]
  exact congrArg (List.map Param.type) hparams'

theorem Function.scene_le {globals globals' : List Global} (f : Function)
    (hglobals : globals ⊆ globals')
    (hheaders : fs.map Function.header <+: fs'.map Function.header) :
    (f.scene globals fs).Le (f.scene globals' fs') where
  holds _ hx := hx.mono hglobals (List.Subset.refl _) (List.Subset.refl _)
  calls _ hg := hg.mono hheaders

end Ir

namespace Lowering

open Ir (Operand Operation Terminator Ty)
open Relation (ReflTransGen)

theorem State.Typed.blocks {k : Place} {s : State} (hs : s.Typed k) :
    Ir.Blocks.Typed (s.scene k) k.env.strict k.function.result s.frame.body.blocks where
  code b hb i hi := hs.code i (Body.mem_code.mpr ⟨b, hb, hi⟩)
  ends b hb t ht := by
    apply hs.ends b.label t
    rw [← Option.mem_def.mp ht]
    exact List.mem_map_of_mem hb

namespace Definition

def Declared (functions : List Ir.Function) (d : Definition) : Prop :=
  d.Proper ∧ ∃ f, functions[d.signature.callee.id]? = some f ∧ f.result = d.signature.result.ir ∧
    ∀ p ∈ d.params.zip d.signature.params, ⟨some p.1, p.2.ir⟩ ∈ f.params

variable {d : Definition}

theorem Declared.mono {fs fs' : List Ir.Function} (h : d.Declared fs)
    (hheaders : fs.map Ir.Function.header <+: fs'.map Ir.Function.header) : d.Declared fs' := by
  obtain ⟨hproper, f, hf, hresult, hparams⟩ := h
  obtain ⟨f', hf', heq⟩ := Ir.Function.getElem?_of_headers hheaders hf
  have hresult' : f'.header.result = f.header.result := congrArg Ir.Function.result heq
  have hparams' : f'.header.params = f.header.params := congrArg Ir.Function.params heq
  refine ⟨hproper, f', hf', hresult'.trans hresult, fun p hp => ?_⟩
  change _ ∈ f'.header.params
  rw [hparams']
  exact hparams p hp

end Definition

/-- An item fits a module: a definition is of one of its functions, and variables have one of some
names. -/
def Item.Fits (functions : List Ir.Function) (names : String → Prop) : Item → Prop
  | .definition d => d.Declared functions ∧ ∀ name ∈ assignedAll d.body, names name
  | .statement s => ∀ name ∈ s.assigned, names name

theorem Item.Fits.mono {fs fs' : List Ir.Function} {names : String → Prop} {item : Item}
    (h : item.Fits fs names)
    (hheaders : fs.map Ir.Function.header <+: fs'.map Ir.Function.header) :
    item.Fits fs' names := by
  cases item with
  | definition d => exact ⟨h.1.mono hheaders, h.2⟩
  | statement s => exact h

theorem FunctionTable.find?_declare {t : FunctionTable} {key key' : String} {new f : Signature}
    (h : (t.declare key new).find? key' = some f) : t.find? key' = some f ∨ f = new := by
  rw [find?_declare_eq, Option.or_eq_some_iff] at h
  refine h.imp_right fun h => ?_
  have hnew := h.2
  split at hnew
  · exact (Option.some.inj hnew).symm
  · cases hnew

namespace Compilation

/-- Outside of functions, all names are for globals. -/
def topNames : Names := ⟨fun _ => True, fun _ => True⟩

/-- All code is well typed and disciplined, and all that the table of functions and the scope name is
there. -/
structure Lawful (c : Compilation) : Prop where
  numeric : c.operators = .numeric
  linked : ∀ key f, c.table.find? key = some f → f.callee.Refers c.functions
  init : initCallee.Refers c.functions
  bodies : ∀ f ∈ c.functions,
    Ir.Blocks.Typed (f.scene c.progress.globals c.functions) c.strict f.result f.blocks
  disciplined : ∀ f ∈ c.functions, f.Disciplined
  outside : c.top.signature = none
  top : c.state.Typed ⟨c.environment, c.functions, initHeader⟩
  cells : c.state.Disciplined topNames

variable {c : Compilation} {names : String → Prop}

def Lawful.site (hc : c.Lawful) (f : Ir.Function) (names : String → Prop) : Site where
  env := c.environment
  functions := c.functions
  function := f
  names := names
  numeric := hc.numeric
  linked := hc.linked

/-- What has become of the module outside of functions goes by steps, and functions get no more than
bodies. -/
structure Evolves (names : String → Prop) (c c' : Compilation) : Prop where
  environment : c'.environment = c.environment
  headers : c'.functions.map Ir.Function.header = c.functions.map Ir.Function.header
  steps : ∃ k : Site, k.env = c.environment ∧ k.names = names ∧ ∃ s s' : State,
    s.progress = c.progress ∧ s'.progress = c'.progress ∧ ReflTransGen (State.Step k) s s'

theorem Lawful.state (hc : c.Lawful) (names : String → Prop) :
    State.Lawful (hc.site initHeader names) topNames c.state := ⟨hc.top, hc.cells⟩

theorem Lawful.lowerTop (hc : c.Lawful) {st : Stmt} (hst : ∀ name ∈ st.assigned, names name) :
    (c.lowerTop st).Lawful ∧ c.Evolves names (c.lowerTop st) := by
  let k := hc.site initHeader names
  have hadds : ReflTransGen (State.Adds k topNames) c.state (c.lowerTop st).state := by
    rw [state_lowerTop]
    exact (Lower.adds_reported (Lower.meets_stmt st (hc.state names)
      (fun name h => ⟨hst name h, trivial⟩) fun _ _ => trivial)).after
  -- Code outside of functions goes on where the last statement has left it.
  have hs := (hc.state names).steps hadds
  have houtside := (State.remains_of_adds hadds).signature.trans hc.outside
  have hextends := c.extends_lowerItem (.statement st)
  have henvironment := c.environment_lowerItem (.statement st)
  have hheaders := c.headers_lowerItem (.statement st)
  rw [lowerItem] at hextends henvironment hheaders
  refine ⟨?_, henvironment, hheaders, k, rfl, rfl, c.state, _, rfl, rfl,
    State.steps_of_adds hadds⟩
  rw [lowerTop_eq] at hextends hs houtside ⊢
  refine ⟨hc.numeric, hc.linked, hc.init, fun f hf => ?_, hc.disciplined, houtside, hs.typed,
    hs.disciplined⟩
  exact (hc.bodies f hf).mono (f.scene_le hextends.globals.subset List.prefix_rfl)

theorem typed_of_start {k : Place} {s : State} (hbody : s.frame.body = .start)
    (hlocals : s.frame.locals = .empty)
    (hsignature : ∀ f, s.frame.signature = some f → f.result.ir = k.function.result)
    (hglobals : s.progress.Linked) : s.Typed k := by
  -- There is an entry block, and nothing in it.
  have hcode : s.frame.body.code = [] := by rw [hbody]; rfl
  have hlabels : s.frame.body.labels = [.entry] := by rw [hbody]; rfl
  have hflow : s.frame.body.flow = [(.entry, none)] := by rw [hbody]; rfl
  refine ⟨?_, ?_, ?_, ?_, hsignature, ?_, hglobals⟩
  · rw [hlabels]
    exact List.mem_singleton_self _
  · rw [hlabels, hbody]
    exact List.mem_singleton_self _
  · rw [hcode]
    exact List.forall_mem_nil _
  · rw [hflow]
    intro l t ht
    cases List.mem_singleton.mp ht
  · intro symbol hsymbol
    rw [hlocals] at hsymbol
    exact absurd hsymbol List.not_mem_nil

variable {d : Definition} {P : Compilation → Prop}

theorem Lawful.adds_bodyState (hc : c.Lawful) {f : Ir.Function} (hproper : d.Proper)
    (hresult : f.result = d.signature.result.ir)
    (hparams : ∀ p ∈ d.params.zip d.signature.params, ⟨some p.1, p.2.ir⟩ ∈ f.params)
    (hbody : ∀ name ∈ assignedAll d.body, names name) :
    ReflTransGen (State.Adds (hc.site f names) d.names) ⟨c.progress, .ofSignature d.signature⟩
      (c.bodyState d) ∧ (c.bodyState d).Typed (hc.site f names) ∧
      d.LoweredTo c.progress (c.bodyState d) := by
  have hs0 : State.Lawful (hc.site f names) d.names ⟨c.progress, .ofSignature d.signature⟩ :=
    ⟨typed_of_start rfl rfl (fun g hg => Option.some.inj hg ▸ hresult.symm) hc.top.globals,
      Definition.disciplined_start rfl rfl rfl hc.cells.globals⟩
  obtain ⟨hadds, hlowered⟩ := (Definition.meets_lower hproper hs0 hc.init hresult hparams
    hbody).of_ok (c.lower_eq_bodyState d)
  exact ⟨hadds, (hs0.steps hadds).typed, hlowered⟩

theorem Lawful.lowerDefinition (hc : c.Lawful) (hd : d.Declared c.functions)
    (hbody : ∀ name ∈ assignedAll d.body, names name) :
    (c.lowerDefinition d).Lawful ∧ c.Evolves names (c.lowerDefinition d) := by
  obtain ⟨hproper, f, hf, hresult, hparams⟩ := hd
  obtain ⟨hadds, hs, hlowered⟩ := hc.adds_bodyState hproper hresult hparams hbody
  have hextends := c.extends_lowerItem (.definition d)
  have hheaders := c.headers_lowerItem (.definition d)
  have henvironment := c.environment_lowerItem (.definition d)
  rw [lowerItem, lowerDefinition_eq] at hextends hheaders henvironment
  rw [lowerDefinition_eq]
  refine ⟨?_, henvironment, hheaders, hc.site f names, rfl, rfl, _, c.bodyState d, rfl, rfl,
    State.steps_of_adds hadds⟩
  have hglobals := hextends.globals.subset
  have hprefix : c.functions.map Ir.Function.header <+: _ :=
    ⟨[], (List.append_nil _).trans hheaders.symm⟩
  refine ⟨hc.numeric, fun key g hg => (hc.linked key g hg).mono hprefix, hc.init.mono hprefix, ?_,
    ?_, hc.outside, hc.top.of_eq ⟨?_, fun g hg => hg.mono hprefix⟩ rfl rfl rfl rfl rfl hs.globals,
    hc.cells.body, fun l hl => used_mono hextends (hc.cells.given l hl), hc.cells.frame,
    hlowered.disciplined.globals⟩
  · -- The function gets the new body; all others only see more globals.
    intro g hg
    obtain ⟨i, hi⟩ := List.mem_iff_getElem?.mp hg
    by_cases hid : d.signature.callee.id = i
    · subst hid
      rw [List.getElem?_modify_eq, hf] at hi
      obtain rfl := Option.some.inj hi
      exact hs.blocks.mono ⟨fun _ hx => hx, fun g hg => hg.mono hprefix⟩
    · rw [List.getElem?_modify_ne _ _ hid] at hi
      exact (hc.bodies g (List.mem_of_getElem? hi)).mono (g.scene_le hglobals hprefix)
  · intro g hg
    rcases mem_or_of_mem_modify hg with hg | ⟨g, -, rfl⟩
    · exact hc.disciplined g hg
    · exact hlowered.disciplined.body.function rfl
  · intro x hx
    exact hx.mono hglobals (List.Subset.refl _) (List.Subset.refl _)

theorem Lawful.lowerItem (hc : c.Lawful) {item : Item} (hitem : item.Fits c.functions names) :
    (c.lowerItem item).Lawful ∧ c.Evolves names (c.lowerItem item) := by
  cases item with
  | definition d => exact hc.lowerDefinition hitem.1 hitem.2
  | statement st => exact hc.lowerTop hitem

theorem Lawful.lowerItems (hP : ∀ c c' : Compilation, c.Evolves names c' → P c → P c')
    (items : List Item) (hc : c.Lawful) (hitems : ∀ item ∈ items, item.Fits c.functions names)
    (h : P c) :
    (items.foldl Compilation.lowerItem c).Lawful ∧ P (items.foldl Compilation.lowerItem c) := by
  induction items generalizing c with
  | nil => exact ⟨hc, h⟩
  | cons item items ih =>
    obtain ⟨hlawful, hevolves⟩ := hc.lowerItem (hitems item (List.mem_cons_self ..))
    have hheaders : c.functions.map Ir.Function.header <+: _ :=
      ⟨[], (List.append_nil _).trans (c.headers_lowerItem item).symm⟩
    have hrest : ∀ item' ∈ items, item'.Fits (c.lowerItem item).functions names :=
      fun item' h => (hitems item' (List.mem_cons_of_mem _ h)).mono hheaders
    exact ih hlawful hrest (hP c _ hevolves h)

theorem Lawful.report (hc : c.Lawful) (e : Error) : (c.report e).Lawful :=
  have hcount : State.Grows topNames c.state ⟨c.progress.report e, c.top⟩ :=
    .count (c.progress.extends_report e) rfl
  ⟨hc.numeric, hc.linked, hc.init, hc.bodies, hc.disciplined, hc.outside,
    hc.top.of_eq (Ir.Scene.Le.refl _) rfl rfl rfl rfl rfl hc.top.globals,
    hcount.disciplined hc.cells⟩

theorem Lawful.define {pos : Position} {name : String} {params : List Param}
    {returns : Option String} {body : List Stmt} {c' : Compilation} (hc : c.Lawful)
    (h : c.define pos name params returns body = .ok (c', d)) :
    c'.Lawful ∧ d.Declared c'.functions ∧ d.body = body := by
  obtain ⟨-, f, -, hmade⟩ := madeFrom_define h
  obtain ⟨-, -, result, types, -, -, hd, hc'⟩ := define_eq_ok h
  set new := declaration name (params.map (·.name)) types result
  have hnew : (c.functions ++ [new])[c.functions.length]? = some new := by simp
  have hprefix : c.functions.map Ir.Function.header <+:
      (c.functions ++ [new]).map Ir.Function.header := by
    rw [List.map_append]
    exact List.prefix_append _ _
  have hproper := hmade.proper
  subst hd hc'
  -- The new function comes last, so that all numbers of functions stay right.
  refine ⟨⟨hc.numeric, ?_, hc.init.mono hprefix, ?_, ?_, hc.outside, ?_, hc.cells⟩,
    ⟨hproper, new, hnew, rfl, ?_⟩, rfl⟩
  · intro key f hf
    rcases FunctionTable.find?_declare hf with hf | rfl
    · exact (hc.linked key f hf).mono hprefix
    · exact ⟨new, hnew, rfl, rfl, rfl⟩
  · intro f hf
    rcases List.mem_append.mp hf with hf | hf
    · exact (hc.bodies f hf).mono (f.scene_le (List.Subset.refl _) hprefix)
    · rw [List.mem_singleton.mp hf]
      exact ⟨List.forall_mem_nil _, List.forall_mem_nil _⟩
  · intro f hf
    rcases List.mem_append.mp hf with hf | hf
    · exact hc.disciplined f hf
    · rw [List.mem_singleton.mp hf]
      trivial
  · exact hc.top.of_eq ⟨fun x hx => hx, fun g hg => hg.mono hprefix⟩ rfl rfl rfl rfl rfl
      hc.top.globals
  · intro p hp
    exact List.mem_map_of_mem hp

theorem Lawful.declareAll (hc : c.Lawful) (unit : List Stmt)
    (hunit : ∀ name ∈ assignedAll unit, names name) :
    (c.declareAll unit).1.Lawful ∧
      ∀ item ∈ (c.declareAll unit).2, item.Fits (c.declareAll unit).1.functions names := by
  induction unit generalizing c with
  | nil => exact ⟨hc, List.forall_mem_nil _⟩
  | cons st unit ih =>
    have hst : ∀ name ∈ st.assigned, names name := fun name h =>
      hunit name (List.mem_append_left _ h)
    have hrest : ∀ name ∈ assignedAll unit, names name := fun name h =>
      hunit name (List.mem_append_right _ h)
    cases st with
    | define pos name params returns body =>
      rw [Compilation.declareAll]
      cases h : c.define pos name params returns body with
      | error e => exact ih (hc.report e) hrest
      | ok r =>
        obtain ⟨hc', hd, hbody⟩ := hc.define h
        obtain ⟨hlawful, hfits⟩ := ih hc' hrest
        refine ⟨hlawful, fun item hitem => ?_⟩
        rcases List.mem_cons.mp hitem with rfl | hitem
        · refine ⟨hd.mono ((functions_declareAll unit r.1).map _), ?_⟩
          rw [hbody]
          exact hst
        · exact hfits item hitem
    | _ =>
      obtain ⟨hlawful, hfits⟩ := ih hc hrest
      refine ⟨hlawful, fun item hitem => ?_⟩
      rcases List.mem_cons.mp hitem with rfl | hitem
      · exact hst
      · exact hfits item hitem

/-- What holds after the functions of a unit are declared and is kept by all that can happen then
holds after the unit. -/
theorem Lawful.lowerUnit (names : String → Prop)
    (hevolves : ∀ c c' : Compilation, c.Evolves names c' → P c → P c') (unit : List Stmt)
    (hunit : ∀ name ∈ assignedAll unit, names name) (hc : c.Lawful) (h : P (c.declareAll unit).1) :
    (c.lowerUnit unit).Lawful ∧ P (c.lowerUnit unit) := by
  obtain ⟨log, heq⟩ := c.lowerUnit_eq unit
  obtain ⟨hlawful, hfits⟩ := hc.declareAll unit hunit
  obtain ⟨hc1, hP⟩ := hlawful.lowerItems hevolves _ hfits h
  set c1 := (c.declareAll unit).2.foldl Compilation.lowerItem (c.declareAll unit).1
  -- The code outside of functions gets its end.
  let k := hc1.site initHeader names
  have hfinish : ReflTransGen (State.Adds k topNames) c1.state
      (c1.state.mapBody (·.finish (.ret none))) :=
    Lower.steps_finish (Lower.adds_close rfl (List.forall_mem_nil _) List.not_mem_nil)
  have hs := (hc1.state names).steps hfinish
  rw [heq]
  refine ⟨⟨hc1.numeric, hc1.linked, hc1.init, hc1.bodies, hc1.disciplined, hc1.outside, hs.typed,
    hs.disciplined⟩, ?_⟩
  exact hevolves c1 _ ⟨rfl, rfl, k, rfl, rfl, c1.state, _, rfl, rfl,
    State.steps_of_adds hfinish⟩ hP

theorem Lawful.lower (hc : c.Lawful) (unit : List Stmt) : (c.lowerUnit unit).Lawful :=
  (Lawful.lowerUnit (fun _ => True) (P := fun _ => True) (fun _ _ _ _ => trivial) unit
    (fun _ _ => trivial) hc trivial).1

theorem Lawful.lowerAll (hc : c.Lawful) (units : List (List Stmt)) :
    (units.foldl Compilation.lowerUnit c).Lawful := by
  induction units generalizing c with
  | nil => exact hc
  | cons unit units ih => exact ih (hc.lower unit)

theorem Lawful.atItem (hc : c.Lawful) (unit : List Stmt) (i : Nat) :
    (c.atItem unit i).Lawful ∧ ∀ d, .definition d ∈ (c.declareAll unit).2 →
      d.LoweredTo (c.atItem unit i).progress ((c.atItem unit i).bodyState d) := by
  have hnames : ∀ name ∈ assignedAll unit, True := fun _ _ => trivial
  obtain ⟨hlawful, hfits⟩ := hc.declareAll unit hnames
  have hc1 := (hlawful.lowerItems (P := fun _ => True) (fun _ _ _ _ => trivial)
    ((c.declareAll unit).2.take i)
    (fun item hitem => hfits item (List.mem_of_mem_take hitem)) trivial).1
  refine ⟨hc1, fun d hd => ?_⟩
  have hheaders := headers_lowerItems ((c.declareAll unit).2.take i) (c.declareAll unit).1
  obtain ⟨⟨hproper, f, -, hresult, hparams⟩, hbody⟩ :=
    (hfits _ hd).mono ⟨[], (List.append_nil _).trans hheaders.symm⟩
  exact (hc1.adds_bodyState hproper hresult hparams hbody).2.2

theorem lawful_start (board : Board) (strict : Bool) : (start board strict .numeric).Lawful := by
  have hglobals : ∀ symbol ∈ Builtin.scope.symbols,
      (∃ immutable, symbol.storage = .module immutable) ∧
        ∃ g ∈ Builtin.globals, g.name = symbol.name ∧ g.initial.type = symbol.type.ir := by
    decide
  refine ⟨rfl, ?_, ⟨initHeader, rfl, rfl, rfl, rfl⟩, fun f hf => ?_, fun f hf => ?_, rfl, ?_, ?_⟩
  · intro key f hf
    obtain ⟨e, he, rfl⟩ := Option.map_eq_some_iff.mp hf
    have hall : ∀ e ∈ Builtin.table.entries,
        e.2.callee.Refers (Builtin.all.map Builtin.declaration ++ [initHeader]) := by
      decide
    exact hall e (List.mem_of_find?_eq_some he)
  · rw [blocks_start hf]
    exact ⟨List.forall_mem_nil _, List.forall_mem_nil _⟩
  · exact Ir.Function.disciplined_of_blocks (blocks_start hf)
  · exact typed_of_start rfl rfl (fun f hf => by cases hf) hglobals
  · exact Definition.disciplined_start rfl rfl rfl fun symbol h => (hglobals symbol h).1

theorem Lawful.toModule (hc : c.Lawful) : c.toModule.Typed c.strict := by
  obtain ⟨f, hf, -, hparams, hresult⟩ := hc.init
  have hheaders : (c.functions.modify initCallee.id fun f =>
      { f with blocks := c.top.body.blocks }).map Ir.Function.header =
      c.functions.map Ir.Function.header := by
    apply map_modify_eq
    intro f
    rfl
  have hprefix : c.functions.map Ir.Function.header <+: _ :=
    ⟨[], (List.append_nil _).trans hheaders.symm⟩
  have hnone : f.params = [] := List.map_eq_nil_iff.mp hparams
  -- The place for code outside of functions has got its body only now.
  intro g hg
  obtain ⟨i, hi⟩ := List.mem_iff_getElem?.mp hg
  by_cases hid : initCallee.id = i
  · subst hid
    change (c.functions.modify _ _)[_]? = _ at hi
    rw [List.getElem?_modify_eq, hf] at hi
    obtain rfl := Option.some.inj hi
    have htop := hc.top.blocks
    change Ir.Blocks.Typed _ _ f.result _
    rw [hresult]
    refine htop.mono ⟨fun x hx => ?_, fun g hg => hg.mono hprefix⟩
    exact hx.mono (List.Subset.refl _) (List.nil_subset _) (List.Subset.refl _)
  · change (c.functions.modify _ _)[_]? = _ at hi
    rw [List.getElem?_modify_ne _ _ hid] at hi
    exact (hc.bodies g (List.mem_of_getElem? hi)).mono (g.scene_le (List.Subset.refl _) hprefix)

/-- Adds sources one after the other, accepted or not. One with a wrong syntax changes nothing. -/
def addSources : Compilation → List Bytes → Compilation
  | c, [] => c
  | c, source :: sources => ((c.addSource source).toOption.getD c).addSources sources

theorem strict_lowerUnit (c : Compilation) (unit : List Stmt) :
    (c.lowerUnit unit).strict = c.strict := by
  obtain ⟨log, heq⟩ := c.lowerUnit_eq unit
  have hitems := congrArg Environment.strict
    (environment_lowerItems (c.declareAll unit).2 (c.declareAll unit).1)
  rw [heq]
  exact hitems.trans (declares_declareAll unit c).strict

theorem Lawful.addSources (hc : c.Lawful) (sources : List Bytes) :
    (c.addSources sources).Lawful ∧ (c.addSources sources).strict = c.strict := by
  induction sources generalizing c with
  | nil => exact ⟨hc, rfl⟩
  | cons source sources ih =>
    rw [Compilation.addSources]
    cases h : c.addSource source with
    | error stop => exact ih hc
    | ok c' =>
      obtain ⟨-, rfl⟩ := addSource_eq_ok h
      obtain ⟨hlawful, hstrict⟩ := ih (hc.lower (parseSource source).stmts)
      exact ⟨hlawful, hstrict.trans (c.strict_lowerUnit _)⟩

theorem linked_full {context : Context} (h : context.operators = .numeric) :
    context.Linked .full :=
  ⟨h, fun _ _ _ _ _ => trivial, fun _ _ _ => trivial⟩

/-- All code is well typed after any sources. Globals have initial values of the types of their
variables, and the operand of a value that an expression is lowered to has the type that represents
the type of the value. -/
theorem emitted_code_typed (board : Board) (strict : Bool) (sources : List Bytes) :
    ((start board strict .numeric).addSources sources).toModule.Typed strict ∧
      (∀ symbol ∈ ((start board strict .numeric).addSources sources).progress.scope.symbols,
        ∃ g ∈ ((start board strict .numeric).addSources sources).toModule.globals,
          g.name = symbol.name ∧ g.initial.type = symbol.type.ir) ∧
      ∀ (context : Context) (e : Expr) (s s' : Emission) (v : Value),
        context.operators = .numeric → lower context e s = .ok v s' →
          (∀ x ∈ v.operand?, x.type = v.type.ir) ∧ Value.wrap v.type v.operand? = .ok v := by
  obtain ⟨hlawful, hstrict⟩ := (lawful_start board strict).addSources sources
  refine ⟨?_, fun symbol hsymbol => (hlawful.top.globals symbol hsymbol).2, ?_⟩
  · have hmodule := hlawful.toModule
    rwa [hstrict] at hmodule
  · intro context e s s' v hoperators hv
    have hknown := ((meets_lower (linked_full hoperators) e s).of_ok hv).2
    exact ⟨fun x hx => (hknown x hx).2, hknown.wrap⟩

section Sample

/-- Values of all types but truth values are kept, passed and returned. -/
def scaling : Bytes :=
  .ofString ("x: i8 = 3\ny = 1.5\ndef f(a: i8, b: float) -> float:\n    s = \"on\"\n" ++
    "    print(s)\n    if a < b:\n        return b * a\n")

/-- Calls with an argument too many and too few, and an error after the second call. -/
def misuse : Bytes := .ofString "y = f(x, y, 3)\nz = f(x) + unknown\n"

/-- `x + 300`, where `x` is a byte. -/
def widenedSum : Expr :=
  .binary ⟨1, 3⟩ .plus (.name ⟨1, 1⟩ "x") (.number ⟨1, 5⟩ (.int 300) "300")

def byteContext : Context := ⟨⟨[⟨"x", .i8, .module false⟩]⟩, none, [], .empty, true, .numeric⟩

def widenedCode : List Ir.Instr :=
  [⟨some 0, .load .i8 (.global "x" .i8)⟩, ⟨some 1, .convert .sext (.register 0 .i8) .i16⟩,
    ⟨some 2, .binary .add (.register 1 .i16) (.const (.int 16 300))⟩]

theorem misuse_widenedSum_typed :
    let c := (start .uno false .numeric).addSources [scaling, misuse]
    c.diagnostics.hasErrors = true ∧
      (c.toModule.functions.drop initCallee.id).map (·.code.length) = [8, 17] ∧
      c.toModule.Typed false ∧
      lower byteContext widenedSum (.start 0 0) =
        .ok (.i16 (.register 2 .i16)) ⟨widenedCode, [], [], [], 3, 0⟩ ∧
      Value.wrap .i16 (some (.register 2 .i16)) = .ok (.i16 (.register 2 .i16)) := by
  have htyped := emitted_code_typed .uno false [scaling, misuse]
  have hsum : lower byteContext widenedSum (.start 0 0) =
      .ok (.i16 (.register 2 .i16)) ⟨widenedCode, [], [], [], 3, 0⟩ := rfl
  have hvalue := htyped.2.2 byteContext widenedSum _ _ _ rfl hsum
  exact ⟨by decide +kernel, by decide +kernel, htyped.1, hsum, hvalue.2⟩

end Sample

end Compilation

end Lowering

end BoardPython
