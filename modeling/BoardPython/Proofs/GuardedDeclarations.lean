import BoardPython.Proofs.GlobalFrame
import BoardPython.Proofs.StackDiscipline

/-! Lowering that looks at the outcome of every declaration. It does what lowering does, but stops for
good where the name of a new variable or the key of a new function is taken. It never stops there, so
that lowering need not look. -/
namespace BoardPython.Lowering

open Ir (Operand)

/-- Why guarded lowering stops. -/
inductive Stop where
  | error (e : Error)
  /-- The name that is being declared is taken. -/
  | taken

abbrev Guarded := EStateM Stop State

namespace Guarded

variable {α β : Type}

def lift (x : Lower α) : Guarded α := fun s =>
  match x s with
  | .ok a s' => .ok a s'
  | .error e s' => .error (.error e) s'

def declareLocal (name : String) (type : ValueType) : Guarded Symbol := fun s =>
  let symbol : Symbol := ⟨name, type, .stack (s.frame.body.alloca type.ir).2⟩
  match s.frame.locals.declare? symbol with
  | none => .error .taken s
  | some locals =>
    .ok symbol { s with frame :=
      { s.frame with body := (s.frame.body.alloca type.ir).1, locals := locals } }

def declareGlobal (name : String) (type : ValueType) (initial : Ir.Constant) : Guarded Symbol :=
  fun s =>
    let symbol : Symbol := ⟨name, type, .module false⟩
    match s.progress.scope.declare? symbol with
    | none => .error .taken s
    | some scope =>
      .ok symbol { s with progress :=
        { s.progress with
          globals := s.progress.globals ++ [⟨name, initial, false, false, false⟩]
          scope := scope } }

def assignNewGlobal (env : Environment) (pos : Position) (name : String) (type : ValueType)
    (zero : Ir.Constant) (v : Value) : Guarded Unit := do
  if (env.functions.find? name).isSome then lift (Lower.fail pos (.definedAsFunction name))
  let outside := (← get).frame.signature.isNone
  match Lower.constant? v, outside, decide (v.type = type) with
  | some c, true, true => let _ ← declareGlobal name type c
  | _, _, _ => lift (Lower.store pos (← declareGlobal name type zero) v)

def assign (env : Environment) (pos : Position) (name : String) (hint : Option String)
    (e : Expr) : Guarded Unit := do
  let v ← lift (Lower.value env e)
  let type ← lift (Lower.hintedType pos hint v)
  match type.zero? with
  | none => lift (Lower.fail pos (.assignedNone name))
  | some zero =>
    let s ← get
    match s.target? name with
    | some symbol =>
      if hint.isSome ∧ type ≠ symbol.type then lift (Lower.fail pos (.declaredAs name symbol.type))
      lift (Lower.store pos symbol v)
    | none =>
      if s.frame.isLocal name then lift (Lower.store pos (← declareLocal name type) v)
      else assignNewGlobal env pos name type zero v

def reported (x : Guarded Unit) : Guarded Unit := fun s =>
  match x s with
  | .ok a s => .ok a s
  | .error (.error e) s => .ok () { s with progress := s.progress.report e }
  | .error .taken s => .error .taken s

mutual

def stmt (env : Environment) : Stmt → Guarded Unit
  | .assign pos name hint e => assign env pos name hint e
  | .branch _ cond yes no => do
    let id ← lift Lower.nextIf
    let x ← lift (Lower.condition env cond)
    lift (Lower.modifyBody fun b =>
      ((b.create [.ifThen id, .ifElse id, .ifMerge id]).close
        (.branch x (.ifThen id) (.ifElse id))).goto (.ifThen id))
    stmts env yes
    lift (Lower.modifyBody fun b => (b.finish (.jump (.ifMerge id))).goto (.ifElse id))
    stmts env no
    lift (Lower.modifyBody fun b => (b.finish (.jump (.ifMerge id))).goto (.ifMerge id))
  | .loop _ cond body => do
    let id ← lift Lower.nextWhile
    lift (Lower.modifyBody fun b =>
      ((b.create [.whileCond id, .whileBody id, .whileExit id]).close
        (.jump (.whileCond id))).goto (.whileCond id))
    let x ← lift (Lower.condition env cond)
    lift (Lower.modifyBody fun b =>
      (b.close (.branch x (.whileBody id) (.whileExit id))).goto (.whileBody id))
    stmts env body
    lift (Lower.modifyBody fun b => (b.finish (.jump (.whileCond id))).goto (.whileExit id))
  | st => lift (Lower.stmt env st)

def stmts (env : Environment) : List Stmt → Guarded Unit
  | [] => return ()
  | s :: rest => do
    reported (stmt env s)
    stmts env rest

end

def spill (name : String) (type : ValueType) : Guarded Unit := do
  match (← declareLocal name type).address? with
  | some address => lift (Lower.emit (Emit.perform (.store (.param name type.ir) address)))
  | none => return ()

def spillAll : List (String × ValueType) → Guarded Unit
  | [] => return ()
  | (name, type) :: rest => do
    spill name type
    spillAll rest

def body (env : Environment) (d : Definition) : Guarded Unit := do
  if d.signature.name = setupName then
    lift (Lower.emit (Emit.perform (.call false initCallee [])))
  spillAll (d.params.zip d.signature.params)
  stmts env d.body
  lift (Lower.modifyBody (·.finish (.ret (d.signature.result.zero?.map .const))))

/-- Runs a step in a frame, if it does not come to a name that is taken. -/
def run (c : Compilation) (frame : Frame) (x : Guarded Unit) : Option (Compilation × Frame) :=
  match x ⟨c.progress, frame⟩ with
  | .ok _ s => some ({ c with progress := s.progress }, s.frame)
  | .error (.error _) s => some ({ c with progress := s.progress }, s.frame)
  | .error .taken _ => none

def define (c : Compilation) (pos : Position) (name : String) (params : List Param)
    (returns : Option String) (body : List Stmt) : Except Stop (Compilation × Definition) := do
  if (c.table.find? name).isSome then throw (.error (.located pos (.functionDefined name)))
  if name = initName then throw (.error (.located pos (.reserved name)))
  let result ← (resultType pos returns).mapError .error
  let types ← (paramTypes name [] params).mapError .error
  let names := params.map (·.name)
  let signature := c.newSignature name names types result
  match c.table.declare? name signature with
  | none => throw .taken
  | some table =>
    return ({ c with
        functions := c.functions ++ [Compilation.declaration name names types result]
        table := table
        defined := c.defined + 1 },
      ⟨signature, names, body⟩)

def declareAll (c : Compilation) : List Stmt → Option (Compilation × List Item)
  | [] => some (c, [])
  | .define pos name params returns body :: rest =>
    match define c pos name params returns body with
    | .ok (c, d) => (declareAll c rest).map fun r => (r.1, .definition d :: r.2)
    | .error (.error e) => declareAll (c.report e) rest
    | .error .taken => none
  | s :: rest => (declareAll c rest).map fun r => (r.1, .statement s :: r.2)

def lowerItem (c : Compilation) : Item → Option Compilation
  | .definition d =>
    (run c (.ofSignature d.signature) (body c.environment d)).map fun r =>
      { r.1 with functions := r.1.functions.modify d.signature.callee.id fun f =>
        { f with blocks := r.2.body.blocks } }
  | .statement s =>
    (run c c.top (reported (stmt c.environment s))).map fun r => { r.1 with top := r.2 }

def lowerUnit (c : Compilation) (unit : List Stmt) : Option Compilation := do
  let (c, items) ← declareAll c unit
  let c ← items.foldlM lowerItem c
  let c := { c with top := { c.top with body := c.top.body.finish (.ret none) } }
  return { c with log := c.log ++ [c.summary] }

def start (board : Board) (strict : Bool) (operators : Operators) : Option Compilation := do
  let table ← Builtin.all.zipIdx.foldlM (fun t b => t.declare? b.1.key (b.1.signature b.2)) .empty
  let scope ← Builtin.constants.foldlM (fun s k => s.declare? ⟨k.1, .i16, .module true⟩) .empty
  let c := Compilation.start board strict operators
  return { c with table := table, progress := { c.progress with scope := scope } }

def lowerUnits (board : Board) (strict : Bool) (operators : Operators) (units : List (List Stmt)) :
    Option Compilation := do
  units.foldlM lowerUnit (← start board strict operators)

/-! ### Names are never taken -/

theorem lift_bind (x : Lower α) (f : α → Lower β) :
    lift (x >>= f) = lift x >>= fun a => lift (f a) := by
  funext s
  simp only [lift, bind, EStateM.bind]
  cases x s <;> rfl

variable {s : State} {name : String} {x : Guarded α} {y : Lower α} {f : α → Guarded β}
  {g : α → Lower β}

theorem bind_eq_lift (hx : x = lift y) (hf : ∀ a, f a = lift (g a)) : x >>= f = lift (y >>= g) := by
  rw [lift_bind, hx, funext hf]

theorem guarded_eq_lift {c : Prop} [Decidable c] {e : Lower Unit} (hx : x = lift y) :
    (if c then (do lift e; x) else x) = lift (if c then (do e; y) else y) := by
  split
  · exact bind_eq_lift rfl fun _ => hx
  · exact hx

theorem get_bind_eq_lift_at {f : State → Guarded α} {g : State → Lower α}
    (h : f s s = lift (g s) s) : (do f (← get) : Guarded α) s = lift (do g (← get)) s := h

theorem declare?_eq_some {scope : Scope} {symbol : Symbol} (h : scope.find? symbol.name = none) :
    scope.declare? symbol = some (scope.declare symbol) := by
  unfold Scope.declare Scope.declare?
  rw [h]
  rfl

theorem declareLocal_eq (type : ValueType) (h : s.frame.locals.find? name = none) :
    declareLocal name type s = lift (Lower.declareLocal name type) s := by
  unfold declareLocal
  dsimp only
  rw [declare?_eq_some h]
  rfl

theorem declareGlobal_eq (type : ValueType) (initial : Ir.Constant)
    (h : s.progress.scope.find? name = none) :
    declareGlobal name type initial s = lift (Lower.declareGlobal name type initial) s := by
  unfold declareGlobal
  dsimp only
  rw [declare?_eq_some h]
  rfl

theorem bind_eq_lift_at (hx : x s = lift y s)
    (hf : ∀ a s', y s = .ok a s' → f a s' = lift (g a) s') : (x >>= f) s = lift (y >>= g) s := by
  rw [lift_bind]
  change EStateM.bind x f s = EStateM.bind (lift y) (fun a => lift (g a)) s
  unfold EStateM.bind
  rw [hx]
  unfold lift at hx ⊢
  cases hy : y s with
  | error e s' => rfl
  | ok a s' => exact hf a s' hy

theorem assignNewGlobal_eq (env : Environment) (pos : Position) (type : ValueType)
    (zero : Ir.Constant) (v : Value) (h : s.progress.scope.find? name = none) :
    assignNewGlobal env pos name type zero v s =
      lift (Lower.assignNewGlobal env pos name type zero v) s := by
  have hdeclare (initial : Ir.Constant) := declareGlobal_eq type initial h
  unfold assignNewGlobal Lower.assignNewGlobal
  by_cases hfunction : (env.functions.find? name).isSome
  · rw [if_pos hfunction, if_pos hfunction]
    rfl
  rw [if_neg hfunction, if_neg hfunction]
  refine get_bind_eq_lift_at ?_
  dsimp only
  cases Lower.constant? v with
  | none => exact bind_eq_lift_at (hdeclare zero) fun symbol _ _ => rfl
  | some initial =>
    cases s.frame.signature.isNone with
    | false => exact bind_eq_lift_at (hdeclare zero) fun symbol _ _ => rfl
    | true =>
      cases decide (v.type = type) with
      | false => exact bind_eq_lift_at (hdeclare zero) fun symbol _ _ => rfl
      | true => exact bind_eq_lift_at (hdeclare initial) fun symbol _ _ => rfl

theorem reported_eq (x : Lower Unit) : reported (lift x) = lift (Lower.reported x) := by
  funext s
  unfold reported lift Lower.reported
  cases x s <;> rfl

theorem assign_eq (env : Environment) (pos : Position) (name : String) (hint : Option String)
    (e : Expr) : assign env pos name hint e = lift (Lower.assign env pos name hint e) := by
  refine bind_eq_lift rfl fun v => bind_eq_lift rfl fun type => ?_
  cases type.zero? with
  | none => rfl
  | some zero =>
    funext s
    refine get_bind_eq_lift_at ?_
    cases htarget : s.target? name with
    | some symbol => exact congrFun (guarded_eq_lift rfl) s
    | none =>
      unfold State.target? at htarget
      dsimp only
      by_cases hlocal : s.frame.isLocal name
      · rw [if_pos hlocal] at htarget
        rw [if_pos hlocal, if_pos hlocal]
        exact bind_eq_lift_at (declareLocal_eq type htarget) fun symbol _ _ => rfl
      · rw [if_neg hlocal] at htarget
        rw [if_neg hlocal, if_neg hlocal]
        exact assignNewGlobal_eq env pos type zero v htarget

mutual

theorem stmt_eq (env : Environment) : ∀ st : Stmt, stmt env st = lift (Lower.stmt env st)
  | .assign pos name hint e => by
    simp only [stmt, Lower.stmt]
    exact assign_eq env pos name hint e
  | .branch pos cond yes no => by
    simp only [stmt, Lower.stmt]
    refine bind_eq_lift rfl fun id => bind_eq_lift rfl fun x => bind_eq_lift rfl fun _ => ?_
    refine bind_eq_lift (stmts_eq env yes) fun _ => bind_eq_lift rfl fun _ => ?_
    exact bind_eq_lift (stmts_eq env no) fun _ => rfl
  | .loop pos cond body => by
    simp only [stmt, Lower.stmt]
    refine bind_eq_lift rfl fun id => bind_eq_lift rfl fun _ => bind_eq_lift rfl fun x => ?_
    exact bind_eq_lift rfl fun _ => bind_eq_lift (stmts_eq env body) fun _ => rfl
  | .define .. | .augment .. | .ret .. | .evaluate .. | .pass .. | .globals .. => by
    simp only [stmt]

theorem stmts_eq (env : Environment) : ∀ ss : List Stmt, stmts env ss = lift (Lower.stmts env ss)
  | [] => by
    simp only [stmts, Lower.stmts]
    rfl
  | st :: ss => by
    simp only [stmts, Lower.stmts]
    rw [stmt_eq env st, reported_eq]
    exact bind_eq_lift rfl fun _ => stmts_eq env ss

end

theorem spill_eq (type : ValueType) (h : s.frame.locals.find? name = none) :
    spill name type s = lift (Definition.spill name type) s := by
  refine bind_eq_lift_at (declareLocal_eq type h) fun symbol s' _ => ?_
  cases symbol.address? <;> rfl

theorem spillAll_eq {params : List (String × ValueType)} (hnodup : (params.map (·.1)).Nodup)
    (h : ∀ p ∈ params, s.frame.locals.find? p.1 = none) :
    spillAll params s = lift (Definition.spillAll params) s := by
  induction params generalizing s with
  | nil => rfl
  | cons p params ih =>
    obtain ⟨name, type⟩ := p
    obtain ⟨hfirst, hrest⟩ := List.forall_mem_cons.mp h
    obtain ⟨hname, hnodup⟩ := List.nodup_cons.mp hnodup
    refine bind_eq_lift_at (spill_eq type hfirst) fun _ s' hs' => ih hnodup fun p hp => ?_
    have hne : name ≠ p.1 := fun heq => hname (List.mem_map.mpr ⟨p, hp, heq.symm⟩)
    cases hs'
    exact (Scope.find?_declare_of_ne hne).trans (hrest p hp)

theorem body_eq (env : Environment) {d : Definition} (hd : d.Proper) (p : Progress) :
    body env d ⟨p, .ofSignature d.signature⟩ =
      lift (d.lower env) ⟨p, .ofSignature d.signature⟩ := by
  have hrest {s : State} (hs : s.frame.locals = .empty) :
      (do spillAll (d.params.zip d.signature.params)
          stmts env d.body
          lift (Lower.modifyBody (·.finish (.ret (d.signature.result.zero?.map .const)))) :
            Guarded Unit) s =
        lift (do
          Definition.spillAll (d.params.zip d.signature.params)
          Lower.stmts env d.body
          Lower.modifyBody (·.finish (.ret (d.signature.result.zero?.map .const)))) s := by
    refine bind_eq_lift_at (spillAll_eq hd.nodup_zip fun q _ => ?_) fun _ s' _ => ?_
    · rw [hs]
      rfl
    · exact congrFun (bind_eq_lift (stmts_eq env d.body) fun _ => rfl) s'
  unfold body Definition.lower
  split
  · exact bind_eq_lift_at rfl fun _ s' hs' => hrest (by cases hs'; rfl)
  · exact hrest rfl

theorem run_eq (c : Compilation) (frame : Frame) (x : Guarded Unit) (y : Lower Unit)
    (h : x ⟨c.progress, frame⟩ = lift y ⟨c.progress, frame⟩) :
    run c frame x = some (c.run frame y).2 := by
  unfold run Compilation.run
  rw [h]
  unfold lift
  cases y ⟨c.progress, frame⟩ <;> rfl

theorem define_eq (c : Compilation) (pos : Position) (name : String) (params : List Param)
    (returns : Option String) (body : List Stmt) :
    define c pos name params returns body =
      (c.define pos name params returns body).mapError .error := by
  unfold define Compilation.define
  by_cases hfree : (c.table.find? name).isSome
  · rw [if_pos hfree, if_pos hfree]
    rfl
  rw [if_neg hfree, if_neg hfree]
  by_cases hinit : name = initName
  · rw [if_pos hinit, if_pos hinit]
    rfl
  rw [if_neg hinit, if_neg hinit]
  cases resultType pos returns with
  | error e => rfl
  | ok result =>
    cases paramTypes name [] params with
    | error e => rfl
    | ok types =>
      have hdeclare (signature : Signature) :
          c.table.declare? name signature = some (c.table.declare name signature) := by
        unfold FunctionTable.declare FunctionTable.declare?
        rw [if_neg hfree]
        rfl
      simp only [Except.mapError, bind, Except.bind, hdeclare]
      rfl

theorem declareAll_eq (unit : List Stmt) (c : Compilation) :
    declareAll c unit = some (c.declareAll unit) := by
  induction unit generalizing c with
  | nil => rfl
  | cons st unit ih =>
    cases st with
    | define pos name params returns body =>
      rw [declareAll, Compilation.declareAll, define_eq]
      cases c.define pos name params returns body with
      | error e => exact ih (c.report e)
      | ok r =>
        change (declareAll r.1 unit).map _ = _
        rw [ih r.1]
        rfl
    | _ =>
      change (declareAll c unit).map _ = _
      rw [ih c]
      rfl

theorem lowerItem_eq (c : Compilation) {item : Item}
    (hitem : ∀ d, item = .definition d → d.Proper) : lowerItem c item = some (c.lowerItem item)
    := by
  cases item with
  | definition d =>
    rw [lowerItem, run_eq c _ _ _ (body_eq c.environment (hitem d rfl) c.progress)]
    rfl
  | statement st =>
    have hst : reported (stmt c.environment st) =
        lift (Lower.reported (Lower.stmt c.environment st)) := by
      rw [stmt_eq, reported_eq]
    rw [lowerItem, run_eq c _ _ _ (congrFun hst _)]
    rfl

theorem lowerItems_eq {items : List Item} (hitems : ∀ d, .definition d ∈ items → d.Proper)
    (c : Compilation) : items.foldlM lowerItem c = some (items.foldl Compilation.lowerItem c) := by
  induction items generalizing c with
  | nil => rfl
  | cons item items ih =>
    have hitem : ∀ d, item = .definition d → d.Proper := fun d hd => hitems d (hd ▸ List.mem_cons_self)
    rw [List.foldlM_cons, lowerItem_eq c hitem]
    exact ih (fun d hd => hitems d (List.mem_cons_of_mem _ hd)) _

theorem lowerUnit_eq (c : Compilation) (unit : List Stmt) :
    lowerUnit c unit = some (c.lowerUnit unit) := by
  unfold lowerUnit
  rw [declareAll_eq]
  simp only [Option.bind_eq_bind, Option.bind_some]
  rw [lowerItems_eq (Compilation.proper_declareAll unit c)]
  rfl

theorem start_eq (board : Board) (strict : Bool) (operators : Operators) :
    start board strict operators = some (.start board strict operators) := by
  have htable : Builtin.all.zipIdx.foldlM (fun t b => t.declare? b.1.key (b.1.signature b.2))
      FunctionTable.empty = some Builtin.table := by rfl
  have hscope : Builtin.constants.foldlM
      (fun (s : Scope) k => s.declare? ⟨k.1, .i16, .module true⟩) .empty = some Builtin.scope := by
    rfl
  unfold start
  rw [htable, hscope]
  rfl

/-- No name is ever taken when it is declared: neither that of a builtin, nor of a function, a
parameter or a variable that a unit makes, whatever the units and the operators are. -/
theorem lowerUnits_eq (board : Board) (strict : Bool) (operators : Operators)
    (units : List (List Stmt)) : lowerUnits board strict operators units =
      some (units.foldl Compilation.lowerUnit (.start board strict operators)) := by
  have hunits (c : Compilation) :
      units.foldlM lowerUnit c = some (units.foldl Compilation.lowerUnit c) := by
    induction units generalizing c with
    | nil => rfl
    | cons unit units ih =>
      rw [List.foldlM_cons, lowerUnit_eq]
      exact ih _
  unfold lowerUnits
  rw [start_eq]
  exact hunits _

end Guarded

end BoardPython.Lowering
