import BoardPython.Proofs.StructuredFlow

/-! The control flow of a whole function: what it begins with, its statements, and the return at its
end. -/
namespace BoardPython.Lowering

open Ir (Block Event Instr Label Operand Outline Point Run WalkFrom)

namespace Definition

/-- The code that a function begins with. -/
def prologue (d : Definition) : Lower Unit := do
  if d.signature.name = setupName then
    Lower.emit (Emit.perform (.call false initCallee []))
  spillAll (d.params.zip d.signature.params)

def spills (register : Nat) : List (String × ValueType) → List Instr
  | [] => []
  | (name, type) :: rest =>
    ⟨none, .store (.param name type.ir) (.register register (.pointer type.ir))⟩ ::
      spills (register + 1) rest

/-- The call of the code outside of functions, for the function that the board runs first. -/
def initCalls (d : Definition) : List Instr :=
  if d.signature.name = setupName then [⟨none, .call false initCallee []⟩] else []

/-- What comes before the statements. -/
def opening (d : Definition) : List Instr :=
  d.initCalls ++ spills 0 (d.params.zip d.signature.params)

/-- What a function returns if it ends without a return. -/
def ending (d : Definition) : Option Operand := d.signature.result.zero?.map .const

theorem lower_eq (env : Environment) (d : Definition) :
    d.lower env = (do
      d.prologue
      Lower.stmts env d.body
      Lower.modifyBody (·.finish (.ret d.ending))) := by
  unfold lower prologue
  dsimp only
  split <;> rfl

def begun (is : List Instr) (register : Nat) : Body := ⟨[⟨.entry, is, none⟩], .entry, register⟩

theorem append_begun (is js : List Instr) (r : Nat) :
    (begun is r).append .entry js = begun (is ++ js) r := by
  simp [begun, Body.append, Body.update]

theorem spill_eq_ok (name : String) (type : ValueType) {s : State} {is : List Instr} {r : Nat}
    (h : s.frame.body = begun is r) :
    ∃ s', spill name type s = .ok () s' ∧
      s'.frame.body = begun (is ++ [⟨some r, .alloca type.ir⟩,
        ⟨none, .store (.param name type.ir) (.register r (.pointer type.ir))⟩]) (r + 1) := by
  obtain ⟨progress, signature, locals, names, body⟩ := s
  obtain rfl : body = begun is r := h
  refine ⟨_, rfl, ?_⟩
  simp [State.absorb, State.emission, Emission.start, Body.append, Body.update, begun]

theorem spillAll_eq_ok (params : List (String × ValueType)) {s : State} {is : List Instr} {r : Nat}
    (h : s.frame.body = begun is r) :
    ∃ s' code, spillAll params s = .ok () s' ∧
      s'.frame.body = begun (is ++ code) (r + params.length) ∧
      code.filter (!·.isAlloca) = spills r params := by
  induction params generalizing s is r with
  | nil => exact ⟨s, [], rfl, by simpa using h, rfl⟩
  | cons param params ih =>
    obtain ⟨name, type⟩ := param
    obtain ⟨s1, h1, hb1⟩ := spill_eq_ok name type h
    obtain ⟨s2, code, h2, hb2, hcode⟩ := ih hb1
    refine ⟨s2, [⟨some r, .alloca type.ir⟩,
      ⟨none, .store (.param name type.ir) (.register r (.pointer type.ir))⟩] ++ code, ?_, ?_, ?_⟩
    · rw [spillAll, bind_of_ok h1, h2]
    · rw [hb2, List.append_assoc, List.length_cons, Nat.add_right_comm, Nat.add_assoc]
    · rw [List.filter_append, hcode]
      rfl

section Couples

variable {moved : Signature → Signature} {knows : Value → Prop}
  {R : (α : Type) → Lower α → Lower α → Prop}

variable (h : Lower.CouplesCode moved knows R)
  (hstore : ∀ name t a, R _ (Lower.emit (Emit.perform (.store (.param name t) a)))
    (Lower.emit (Emit.perform (.store (.param name t) a))))
include h hstore

theorem couples_spill {name : String} {type : ValueType}
    (hlocal : R _ (Lower.declareLocal name type) (Lower.declareLocal name type)) :
    R _ (spill name type) (spill name type) := by
  apply h.bind hlocal
  intro symbol
  split
  · exact hstore _ _ _
  · exact h.pure _

theorem couples_spillAll {params : List (String × ValueType)}
    (hlocal : ∀ p ∈ params, R _ (Lower.declareLocal p.1 p.2) (Lower.declareLocal p.1 p.2)) :
    R _ (spillAll params) (spillAll params) := by
  induction params with
  | nil => exact h.pure _
  | cons p params ih =>
    obtain ⟨hp, hrest⟩ := List.forall_mem_cons.mp hlocal
    exact h.bind (couples_spill h hstore hp) fun _ => ih hrest

theorem couples_prologue
    (hinit : R _ (Lower.emit (Emit.perform (.call false initCallee [])))
      (Lower.emit (Emit.perform (.call false initCallee [])))) (d : Definition)
    (hlocal : ∀ p ∈ d.params.zip d.signature.params,
      R _ (Lower.declareLocal p.1 p.2) (Lower.declareLocal p.1 p.2)) :
    R _ d.prologue d.prologue := by
  have hspills := couples_spillAll h hstore hlocal
  unfold prologue
  dsimp only
  exact Lower.CouplesCode.ite (h.bind hinit fun _ => hspills) hspills

end Couples

section Stays

variable {R : State → State → Prop}

theorem stays_spillAll (hR : Lower.Emits R)
    (hlocal : ∀ name type, Lower.Stays R (Lower.declareLocal name type))
    (params : List (String × ValueType)) : Lower.Stays R (spillAll params) :=
  couples_spillAll hR.couplesCode (fun _ _ _ => hR.emit _) fun p _ => hlocal p.1 p.2

theorem stays_prologue (hR : Lower.Emits R)
    (hlocal : ∀ name type, Lower.Stays R (Lower.declareLocal name type)) (d : Definition) :
    Lower.Stays R d.prologue :=
  couples_prologue hR.couplesCode (fun _ _ _ => hR.emit _) (hR.emit _) d fun p _ => hlocal p.1 p.2

end Stays

theorem straight_prologue (d : Definition) : Lower.Stays State.Straight d.prologue :=
  stays_prologue Lower.plain_straight.toEmits Lower.plain_straight.declareLocal d

theorem prologue_eq_ok (d : Definition) (p : Progress) :
    ∃ s code r, d.prologue ⟨p, .ofSignature d.signature⟩ = .ok () s ∧
      s.frame.body = begun code r ∧ code.filter (!·.isAlloca) = d.opening := by
  unfold prologue opening initCalls
  dsimp only
  split
  · obtain ⟨s, code, h, hb, hcode⟩ := spillAll_eq_ok (d.params.zip d.signature.params)
      (s := State.absorb ⟨p, .ofSignature d.signature⟩
        ⟨[⟨none, .call false initCallee []⟩], [], [], [], 0, p.strings⟩)
      (append_begun [] [⟨none, .call false initCallee []⟩] 0)
    refine ⟨s, _, _, h, hb, ?_⟩
    rw [List.filter_append, hcode]
    rfl
  · obtain ⟨s, code, h, hb, hcode⟩ := spillAll_eq_ok (d.params.zip d.signature.params)
      (s := ⟨p, .ofSignature d.signature⟩) (show _ = begun [] 0 from rfl)
    exact ⟨s, _, _, h, hb, hcode⟩

end Definition

theorem Lower.reported_eq_ok (x : Lower Unit) (s : State) :
    ∃ s', Lower.reported x s = .ok () s' := by
  unfold Lower.reported
  cases x s with
  | ok a t => exact ⟨t, rfl⟩
  | error e t => exact ⟨_, rfl⟩

theorem Lower.stmts_eq_ok (env : Environment) (ss : List Stmt) (s : State) :
    ∃ s', Lower.stmts env ss s = .ok () s' := by
  induction ss generalizing s with
  | nil => exact ⟨s, by rw [Lower.stmts]; rfl⟩
  | cons st ss ih =>
    obtain ⟨s1, h1⟩ := Lower.reported_eq_ok (Lower.stmt env st) s
    obtain ⟨s2, h2⟩ := ih s1
    refine ⟨s2, ?_⟩
    rw [Lower.stmts, bind_of_ok h1, h2]

theorem Definition.lower_eq_ok (env : Environment) (d : Definition) (p : Progress) :
    ∃ s', d.lower env ⟨p, .ofSignature d.signature⟩ = .ok () s' := by
  obtain ⟨s1, -, -, h1, -, -⟩ := d.prologue_eq_ok p
  obtain ⟨s2, h2⟩ := Lower.stmts_eq_ok env d.body s1
  refine ⟨s2.mapBody (·.finish (.ret d.ending)), ?_⟩
  rw [Definition.lower_eq, bind_of_ok h1, bind_of_ok h2]
  rfl

/-- The control flow of a function follows the source. If lowering it adds no error, then walks from
its entry make the events that the structured run makes: its opening, the statements, and the return
of the zero of its type at the end. This is so for all that can come first, so also for loops that
never end. -/
theorem lower_follows_source (env : Environment) (d : Definition) (p : Progress) :
    ∃ s', d.lower env ⟨p, .ofSignature d.signature⟩ = .ok () s' ∧
      (s'.progress.diagnostics.errorCount = p.diagnostics.errorCount →
        ∀ es, WalkFrom s'.frame.body.blocks ⟨.entry, 0⟩ es ↔
          Run (.group d.opening :: Lower.outlineAll env d.body
            (Lower.after d.prologue ⟨p, .ofSignature d.signature⟩) ++ [.ret d.ending]) es) := by
  obtain ⟨s1, code, r, h1, hb1, hcode⟩ := d.prologue_eq_ok p
  obtain ⟨s2, h2⟩ := Lower.stmts_eq_ok env d.body s1
  refine ⟨s2.mapBody (·.finish (.ret d.ending)), ?_, fun hno es => ?_⟩
  · rw [Definition.lower_eq]
    change EStateM.bind d.prologue _ _ = _
    rw [EStateM.bind, h1]
    change EStateM.bind (Lower.stmts env d.body) _ _ = _
    rw [EStateM.bind, h2]
    rfl
  rw [Lower.after_of_ok h1]
  have hstraight := d.straight_prologue.of_ok h1
  have hready : State.Ready ⟨p, .ofSignature d.signature⟩ := State.ready_start rfl
  have hopening := lowered_of_straight hready.toGiven hstraight
  have hadded : (Frame.ofSignature d.signature).body.addedSince s1.frame.body = d.opening := by
    rw [hb1, ← hcode]
    rfl
  have hbody : Lowered s1 s2 (Lower.outlineAll env d.body s1) := by
    refine Lower.lowered_stmts d.body hopening.given h2 ?_
    have hle := hstraight.progress.errorCount_le
    exact Nat.le_trans (Nat.le_of_eq hno) hle
  have hall := (hopening.trans hbody).walkFrom_iff hready d.ending es
  rw [List.singleton_append, hadded] at hall
  exact hall

section Sample

/-- `def poll(n): while n: if n: return` -/
def poll : Definition where
  signature := ⟨"poll", [.i16], .void, ⟨0, "poll", [.i16], .void⟩⟩
  params := ["n"]
  body := [.loop ⟨2, 5⟩ (.name ⟨2, 11⟩ "n")
    [.branch ⟨3, 9⟩ (.name ⟨3, 12⟩ "n") [.ret ⟨3, 15⟩ none] []]]

def pollProgress : Progress := ⟨[], .empty, .empty, 0, 0, 0, 0, []⟩

def pollEnvironment : Environment := ⟨.empty, true, .numeric⟩

def pollCode (register : Nat) : List Instr :=
  [⟨some register, .load .i16 (.register 0 (.pointer .i16))⟩,
    ⟨some (register + 1), .icmp .ne (.register register .i16) (.const (.int 16 0))⟩]

def pollEvents : List Event :=
  let first := (pollCode 1).map .run
  let second := (pollCode 3).map .run
  .run ⟨none, .store (.param "n" .i16) (.register 0 (.pointer .i16))⟩ ::
    first ++ .decide (.register 2 .i1) true :: second ++ .decide (.register 4 .i1) false ::
    first ++ .decide (.register 2 .i1) true :: second ++ [.decide (.register 4 .i1) true, .ret none]

/-- A walk that goes around once, and returns the second time. -/
theorem poll_follows_source :
    ∃ s', poll.lower pollEnvironment ⟨pollProgress, .ofSignature poll.signature⟩ = .ok () s' ∧
      WalkFrom s'.frame.body.blocks ⟨.entry, 0⟩ pollEvents := by
  obtain ⟨s', h, hiff⟩ := lower_follows_source pollEnvironment poll pollProgress
  have herrors : s'.progress.diagnostics.errorCount = 0 := by
    rw [← Lower.after_of_ok h]
    decide +kernel
  have houtline : Lower.outlineAll pollEnvironment poll.body
      (Lower.after poll.prologue ⟨pollProgress, .ofSignature poll.signature⟩) =
      [.loop (pollCode 1) (.register 2 .i1) [.group (pollCode 3),
        .branch (.register 4 .i1) [.group [], .ret none] []]] := by
    cbv
  rw [houtline] at hiff
  refine ⟨s', h, (hiff herrors pollEvents).mpr ?_⟩
  exact .run (.skip (.loop (.run (.run (.skip (.branch (.run (.run (.skip (.branch
    (.loop (.run (.run (.skip (.branch (.run (.run (.skip (.branch (.skip .ret))))))))))))))))))))

end Sample

end BoardPython.Lowering
