import BoardPython.Proofs.CompilationSteps
import BoardPython.Proofs.TopLevelMeaning

/-! The function that runs the code outside of functions does what the statements of the unit do, as
long as no assignment that has become an initial value would change anything where it stands. -/
namespace BoardPython.Lowering

open Ir (Datum Machine Memory Outline Registers Slot World)

/-- The statements of a unit without its definitions. -/
def outside (unit : List Stmt) : List Stmt := unit.filter fun st => !(st matches .define ..)

def Item.statements : List Item → List Stmt
  | [] => []
  | .definition _ :: items => statements items
  | .statement s :: items => s :: statements items

namespace Compilation

theorem statements_declareAll (unit : List Stmt) (c : Compilation) :
    Item.statements (c.declareAll unit).2 = outside unit := by
  induction unit generalizing c with
  | nil => rfl
  | cons st unit ih =>
    cases st with
    | define pos name params returns body =>
      rw [declareAll]
      cases c.define pos name params returns body with
      | error e => exact ih (c.report e)
      | ok r => exact ih r.1
    | _ => exact congrArg (_ :: ·) (ih c)

/-- The places of the assignments outside of functions that become initial values. -/
def presetItems : List Item → Compilation → List Position
  | [], _ => []
  | .definition d :: items, c => presetItems items (c.lowerDefinition d)
  | .statement s :: items, c =>
    Lower.presets c.environment s c.state ++ presetItems items (c.lowerTop s)

def presets (c : Compilation) (unit : List Stmt) : List Position :=
  presetItems (c.declareAll unit).2 (c.declareAll unit).1

end Compilation

/-- Before anything has been assigned, only the constants of the board hold a value. -/
def boardMemory {F : Type} : Memory F
  | .global name =>
    (Builtin.constants.find? (·.1 == name)).map fun (_, value) => .int 16 (BitVec.ofInt 16 value)
  | .stack _ => none

theorem boardMemory_over {F : Type} {m : Machine F} {globals : List Ir.Global} {initial : Memory F}
    (hload : Loaded m globals initial) (hboard : Builtin.globals ⊆ globals) :
    (⟨boardMemory, []⟩ : World F).over initial = ⟨initial, []⟩ := by
  have hmem : (fun slot => (boardMemory slot).or (initial slot)) = initial := by
    funext slot
    cases hslot : (boardMemory slot : Option (Datum F)) with
    | none => rfl
    | some d =>
      cases slot with
      | stack register => cases hslot
      | global name =>
        obtain ⟨⟨name', value⟩, hfind, rfl⟩ := Option.map_eq_some_iff.mp hslot
        have hname : name' = name := by simpa using List.find?_some hfind
        have hglobal : (⟨name', .int 16 value, true, true, false⟩ : Ir.Global) ∈ globals :=
          hboard (List.mem_map_of_mem (List.mem_of_find?_eq_some hfind))
        rw [← hname, hload.values _ hglobal _ rfl]
        rfl
  exact congrArg (World.mk · []) hmem

namespace Compilation

variable {F : Type} {m : Machine F} {env : Environment} {fin : Progress} {initial : Memory F}
  {fixed : List Position}

/-- What has been lowered outside of functions is laid out, and matches its statements. Definitions in
between add nothing to it. -/
theorem lowerItems_match (hp : Prepared m env fin initial) (items : List Item) {c c' : Compilation}
    (hc : items.foldl lowerItem c = c') (henv : c.environment = env) (hready : c.state.Ready)
    (hsig : c.top.signature = none)
    (hno : c'.progress.errors ≤ c.progress.errors)
    (hfin : c'.progress.Extends fin) (hfixed : presetItems items c ⊆ fixed) :
    ∃ os, Lowered c.state c'.state os ∧
      Matches m (topContext env fin) initial fixed (Item.statements items) os := by
  induction items generalizing c with
  | nil =>
    subst hc
    exact ⟨[], .refl hready.toGiven, .nil⟩
  | cons item items ih =>
    rw [List.foldl_cons] at hc
    have hitem := c.extends_lowerItem item
    have hrest := extends_lowerItems items (c.lowerItem item)
    rw [hc] at hrest
    have hno' := Nat.le_trans hno hitem.errorCount_le
    have henv' := (c.environment_lowerItem item).trans henv
    cases item with
    | definition d =>
      have htop := c.top_lowerDefinition d
      -- Only labels that have been given out matter, and there are more of them now.
      have hready' : (c.lowerDefinition d).state.Ready := by
        have hold : State.Ready ⟨c.progress, (c.lowerDefinition d).top⟩ := htop.symm ▸ hready
        exact ⟨⟨hold.current, fun l hl => used_mono hitem (hold.labels l hl)⟩, hold.isOpen⟩
      obtain ⟨os, hlow, hmatch⟩ := ih hc henv' hready' (by rw [lowerItem, htop]; exact hsig) hno' hfixed
      refine ⟨os, ?_, hmatch⟩
      have hframe : (c.lowerItem (.definition d)).state.frame = c.state.frame := htop
      refine ⟨hlow.given, ?_, ?_, ?_⟩
      · rw [← hframe]
        exact hlow.onward
      · rw [← hframe]
        exact hlow.tidy
      · rw [← hframe]
        exact hlow.lays
    | statement s =>
      have hno1 := Nat.le_trans hrest.errorCount_le hno
      have hok := lowerTop_eq_ok hno1
      rw [henv] at hok
      rw [presetItems, henv, List.append_subset] at hfixed
      have hfirst := Lower.lowered_stmt s hready.toGiven hok hno1
      have hext := (Lower.extends_stmt s).of_ok hok
      have hmatch := Lower.matches_stmt hp s hready hsig hok hno1 (hrest.trans hfin) hfixed.1
      obtain ⟨os, hlow, hmatch'⟩ := ih hc henv' (hfirst.ready hready) (hext.signature.trans hsig) hno' hfixed.2
      exact ⟨_, hfirst.trans hlow, hmatch.append hmatch'⟩

theorem initFunction_header (unit : List Stmt) (c : Compilation)
    (h : (c.functions.map Ir.Function.header)[initCallee.id]? = some ⟨initName, .void, [], true, []⟩) :
    ∃ f, (c.lowerUnit unit).functions[initCallee.id]? = some f ∧
      f.header = ⟨initName, .void, [], true, []⟩ := by
  obtain ⟨log, hunit⟩ := c.lowerUnit_eq unit
  obtain ⟨rest, hrest⟩ := (functions_declareAll unit c).map Ir.Function.header
  have hheaders := headers_lowerItems (c.declareAll unit).2 (c.declareAll unit).1
  have hfun : (c.lowerUnit unit).functions.map Ir.Function.header =
      (c.declareAll unit).1.functions.map Ir.Function.header := by
    rw [hunit, ← hheaders]
  have hsome : ((c.lowerUnit unit).functions.map Ir.Function.header)[initCallee.id]? =
      some ⟨initName, .void, [], true, []⟩ := by
    rw [hfun, ← hrest, List.getElem?_append_left (List.getElem?_eq_some_iff.mp h).1]
    exact h
  rw [List.getElem?_map] at hsome
  exact Option.map_eq_some_iff.mp hsome

/-- The statements of an accepted first unit are laid out in the function for code outside of functions,
from its entry to its return. -/
theorem lowerUnit_match {board : Board} {strict : Bool} {unit : List Stmt} {c : Compilation}
    (hc : c = (start board strict .numeric).lowerUnit unit)
    (hno : c.progress.errors = 0) (hload : Loaded m c.progress.globals initial)
    (hcalls : CallsCarryOver m initial) :
    ∃ os, (∀ es, Ir.WalkFrom c.top.body.blocks ⟨.entry, 0⟩ es ↔ Ir.Run (os ++ [.ret none]) es) ∧
      Matches m (topContext c.environment c.progress) initial
        ((start board strict .numeric).presets unit) (outside unit) os := by
  subst hc
  set c0 := start board strict .numeric
  set c1 := (c0.declareAll unit).1
  obtain ⟨log, hunit⟩ := c0.lowerUnit_eq unit
  have hdeclares : Declares c0 c1 := declares_declareAll unit c0
  have htop : c1.top = .top := hdeclares.top
  have henv : (c0.lowerUnit unit).environment = c1.environment := by
    rw [hunit]
    exact environment_lowerItems _ _
  have hp : Prepared m c1.environment (c0.lowerUnit unit).progress initial :=
    ⟨hdeclares.operators, hload, hcalls⟩
  -- Declaring functions has left the frame for code outside of them at its start.
  have hready : c1.state.Ready := State.ready_start (by rw [state, htop]; rfl)
  obtain ⟨os, hlow, hmatch⟩ := lowerItems_match hp (c0.declareAll unit).2 rfl rfl hready (by rw [htop]; rfl)
    (by rw [hunit] at hno; rw [hno]; exact Nat.zero_le _) (by rw [hunit]; exact .refl _)
    (fun _ h => h)
  refine ⟨os, fun es => ?_, ?_⟩
  · have hwalk := hlow.walkFrom_iff hready none es
    have hpoint : c1.state.frame.body.point = ⟨.entry, 0⟩ := by
      rw [state, htop]
      rfl
    rw [hpoint] at hwalk
    rw [hunit]
    exact hwalk
  · rw [henv, ← statements_declareAll unit c0]
    exact hmatch

theorem board_globals_subset (board : Board) (strict : Bool) (operators : Operators)
    (unit : List Stmt) :
    Builtin.globals ⊆ ((start board strict operators).lowerUnit unit).progress.globals := by
  set c0 := start board strict operators
  obtain ⟨log, hunit⟩ := c0.lowerUnit_eq unit
  obtain ⟨added, hadded⟩ := (declares_declareAll unit c0).progress
  have hglobals : (c0.declareAll unit).1.progress.globals = Builtin.globals := by
    rw [hadded]
    rfl
  rw [hunit, ← hglobals]
  exact (extends_lowerItems (c0.declareAll unit).2 (c0.declareAll unit).1).globals.subset

end Compilation

def initialMemory {F : Type} (m : Machine F) (globals : List Ir.Global) : Memory F
  | .global name => (globals.find? (·.name == name)).bind fun g => m.datum? g.initial
  | .stack _ => none

theorem loaded_initialMemory {F : Type} {m : Machine F} {globals : List Ir.Global}
    (hbytes : HoldsBytes m globals) (hnames : (globals.map (·.name)).Nodup) :
    Loaded m globals (initialMemory m globals) := by
  refine ⟨hbytes, fun g hg d hd => ?_⟩
  -- A global is found by its name, since no other one has it.
  have hfind : globals.find? (·.name == g.name) = some g := by
    induction globals with
    | nil => cases hg
    | cons g' globals ih =>
      rw [List.map_cons, List.nodup_cons] at hnames
      rcases List.mem_cons.mp hg with rfl | hg
      · exact List.find?_cons_of_pos (beq_self_eq_true _)
      · have hne : g'.name ≠ g.name := by
          intro h
          exact hnames.1 (h ▸ List.mem_map_of_mem hg)
        rw [List.find?_cons_of_neg (by simpa using hne)]
        exact ih (fun g h => hbytes g (List.mem_cons_of_mem _ h)) hnames.2 hg
  change (globals.find? (·.name == g.name)).bind _ = _
  rw [hfind]
  exact hd

/-- The function for code outside of functions keeps the meaning of the statements of an accepted
unit, if each assignment that has become an initial value is settled whenever it is executed. It
makes the same calls, and all variables that have been assigned hold the same values. -/
theorem init_keeps_meaning {F : Type} (m : Machine F) {board : Board} {strict : Bool}
    {source : Bytes} {c : Compilation} {M : Ir.Module}
    (hsource : (Compilation.start board strict .numeric).addSource source = .ok c)
    (hmodule : c.module? = some M) {initial : Memory F} (hload : Loaded m M.globals initial)
    (hcalls : CallsCarryOver m initial) {w : World F} {trace : List (Assigned F)}
    (hrun : Runs m (topContext c.environment c.progress) (outside (parseSource source).stmts)
      ⟨boardMemory, []⟩ w trace)
    (hsettled : ∀ a ∈ trace,
      a.pos ∈ (Compilation.start board strict .numeric).presets (parseSource source).stmts →
        a.Settled) :
    ∃ f, M.functions[initCallee.id]? = some f ∧ f.name = initName ∧
      ∃ w', f.Runs m ⟨initial, []⟩ w' ∧ w'.calls = w.calls ∧
        ∀ slot d, w.memory slot = some d → w'.memory slot = some d := by
  obtain ⟨-, hc⟩ := Compilation.addSource_eq_ok hsource
  obtain ⟨hno, rfl⟩ := Compilation.module?_eq_some hmodule
  obtain ⟨f, hf, hheader⟩ := Compilation.initFunction_header (parseSource source).stmts
    (.start board strict .numeric) rfl
  obtain ⟨os, hwalk, hmatch⟩ := Compilation.lowerUnit_match hc hno hload hcalls
  -- The run of the statements is one of the outline, and that is a walk through the blocks.
  obtain ⟨es, hes, hfollows⟩ := follows_of_runs hrun hmatch hsettled fun _ => none
  have hboard : Builtin.globals ⊆ c.progress.globals := by
    rw [hc]
    exact Compilation.board_globals_subset _ _ _ _
  rw [boardMemory_over hload hboard] at hfollows
  obtain ⟨b, hb, hw⟩ := (hwalk es).mpr hes
  refine ⟨{ f with blocks := c.top.body.blocks }, ?_, congrArg Ir.Function.name hheader,
    w.over initial, ⟨b, hb, Ir.executes_of_walk hw hfollows⟩, rfl, ?_⟩
  · change (c.functions.modify initCallee.id _)[initCallee.id]? = _
    rw [List.getElem?_modify_eq, hc, hf]
    rfl
  · intro slot d hd
    exact World.over_of_some hd

section Samples

deriving instance DecidableEq for Datum

instance (a : Assigned Unit) : Decidable a.Settled :=
  inferInstanceAs (Decidable (a.before = none ∨ a.before = some a.value))

theorem zeroMachine_carriesOver (initial : Memory Unit) : CallsCarryOver zeroMachine initial := by
  intro f args w d memory h
  cases h
  rfl

def compiled (source : Bytes) : Compilation :=
  (Compilation.start .uno false .numeric).lowerUnit (parseSource source).stmts

variable {source : Bytes}

theorem addSource_compiled (h : (parseSource source).stop = none) :
    (Compilation.start .uno false .numeric).addSource source = .ok (compiled source) := by
  unfold Compilation.addSource
  simp only [h]
  rfl

theorem module?_compiled (h : (compiled source).diagnostics.hasErrors = false) :
    (compiled source).module? = some (compiled source).toModule :=
  if_neg (Bool.eq_false_iff.mp h)

/-- What its statements do as they are written, if calls change nothing. -/
def written (source : Bytes) (steps : Nat) : Option (World Unit × List (Assigned Unit)) :=
  runFor zeroMachine (topContext (compiled source).environment (compiled source).progress) steps
    (outside (parseSource source).stmts) ⟨boardMemory, []⟩

def startMemory (source : Bytes) : Memory Unit :=
  initialMemory zeroMachine (compiled source).progress.globals

theorem loaded_startMemory (hnames : ((compiled source).progress.globals.map (·.name)).Nodup)
    (hplain : ∀ g ∈ (compiled source).progress.globals, !(g.initial matches .bytes _)) :
    Loaded zeroMachine (compiled source).progress.globals (startMemory source) := by
  refine loaded_initialMemory (fun g hg bytes hbytes => ?_) hnames
  have hg := hplain g hg
  rw [hbytes] at hg
  cases hg

/-- The initial value of `k` is assigned twice, with nothing in between. -/
def weeks : Bytes :=
  Bytes.ofString "n = 2\ns = 0\nwhile n:\n    k = 7\n    s += k\n    n -= 1\n"

theorem init_keeps_weeks :
    ∃ f w', (compiled weeks).toModule.functions[initCallee.id]? = some f ∧
      f.Runs zeroMachine ⟨startMemory weeks, []⟩ w' ∧
      w'.memory (.global "s") = some (.int 16 14) := by
  obtain ⟨⟨w, trace⟩, hwritten⟩ := Option.isSome_iff_exists.mp
    (show (written weeks 20).isSome = true by decide +kernel)
  have hchecked : ((written weeks 20).all fun r => decide (
      (∀ a ∈ r.2, a.pos ∈ (Compilation.start .uno false .numeric).presets
        (parseSource weeks).stmts → a.Settled) ∧
      r.1.memory (.global "s") = some (.int 16 14))) = true := by
    decide +kernel
  rw [hwritten] at hchecked
  obtain ⟨hsettled, hs⟩ := of_decide_eq_true hchecked
  obtain ⟨f, hf, -, w', hrun, -, hkeeps⟩ := init_keeps_meaning zeroMachine
    (addSource_compiled (by decide +kernel)) (module?_compiled (by decide +kernel))
    (loaded_startMemory (by decide +kernel) (by decide +kernel)) (zeroMachine_carriesOver _)
    (runs_of_runFor hwritten) hsettled
  exact ⟨f, w', hf, hrun, hkeeps _ _ hs⟩

/-- Here `x` is changed before it is set to one again. -/
def restarts : Bytes :=
  Bytes.ofString "n = 2\nwhile n:\n    x = 1\n    x += n\n    n -= 1\n"

/-- Without the condition, it would not hold: at the end `x` should be two, and is four. -/
theorem init_loses_assignment :
    ∃ c M f w trace, (Compilation.start .uno false .numeric).addSource restarts = .ok c ∧
      c.module? = some M ∧ Loaded zeroMachine M.globals (startMemory restarts) ∧
      Runs zeroMachine (topContext c.environment c.progress) (outside (parseSource restarts).stmts)
        ⟨boardMemory, []⟩ w trace ∧
      w.memory (.global "x") = some (.int 16 2) ∧
      M.functions[initCallee.id]? = some f ∧
      (∃ w', f.Runs zeroMachine ⟨startMemory restarts, []⟩ w') ∧
      ∀ w', f.Runs zeroMachine ⟨startMemory restarts, []⟩ w' →
        w'.memory (.global "x") = some (.int 16 4) := by
  -- Both runs are computed, and no run but one is possible.
  obtain ⟨⟨w, trace⟩, hwritten⟩ := Option.isSome_iff_exists.mp
    (show (written restarts 20).isSome = true by decide +kernel)
  have hx : ((written restarts 20).map (·.1.memory (.global "x"))) =
      some (some (.int 16 2)) := by
    decide +kernel
  rw [hwritten] at hx
  set f : Ir.Function := ⟨initName, .void, [], true, (compiled restarts).top.body.blocks⟩
  obtain ⟨w', hw'⟩ := Option.isSome_iff_exists.mp
    (show (f.runFor zeroMachine 20 ⟨startMemory restarts, []⟩).isSome = true by decide +kernel)
  have hx' : (f.runFor zeroMachine 20 ⟨startMemory restarts, []⟩).map
      (·.memory (.global "x")) = some (some (.int 16 4)) := by
    decide +kernel
  rw [hw'] at hx'
  have hrun := Ir.Function.runs_of_runFor hw'
  refine ⟨_, _, f, w, trace, addSource_compiled (by decide +kernel),
    module?_compiled (by decide +kernel),
    loaded_startMemory (by decide +kernel) (by decide +kernel), runs_of_runFor hwritten,
    Option.some.inj hx, by decide +kernel, ⟨w', hrun⟩, fun w'' h => ?_⟩
  rw [← hrun.unique h]
  exact Option.some.inj hx'

end Samples

end BoardPython.Lowering
