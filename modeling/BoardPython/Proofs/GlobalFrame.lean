import BoardPython.Proofs.StackCells

/-! What a function can change of the global scope. A statement of a function reaches the scope
through the names that have been declared global, and through no others, whether it succeeds or
fails: `Compilation.find?_bodyState`. -/
namespace BoardPython.Lowering

theorem Scope.find?_declare_of_ne {scope : Scope} {symbol : Symbol} {name : String}
    (h : symbol.name ≠ name) : (scope.declare symbol).find? name = scope.find? name := by
  rw [find?_declare_eq, if_neg h, Option.or_none]

/-- In a function, the global scope is left as it is for names that are not declared global. -/
structure State.Frames (declared : String → Prop) (s s' : State) : Prop where
  signature : s'.frame.signature = s.frame.signature
  globalNames : ∀ name ∈ s'.frame.globalNames, name ∈ s.frame.globalNames ∨ declared name
  scope : s.frame.signature.isSome → ∀ name, name ∉ s.frame.globalNames → ¬ declared name →
    s'.progress.scope.find? name = s.progress.scope.find? name

namespace State

variable {declared : String → Prop} {s t u : State}

theorem frames_of_eq (hsignature : t.frame.signature = s.frame.signature)
    (hnames : t.frame.globalNames = s.frame.globalNames)
    (hscope : t.progress.scope = s.progress.scope) : s.Frames declared t :=
  ⟨hsignature, fun name hname => .inl (hnames ▸ hname), fun _ name _ _ => by rw [hscope]⟩

theorem Frames.trans (h : s.Frames declared t) (h' : t.Frames declared u) :
    s.Frames declared u where
  signature := h'.signature.trans h.signature
  globalNames name hname := by
    rcases h'.globalNames name hname with hold | hnew
    · exact h.globalNames name hold
    · exact .inr hnew
  scope hsome name hname hnot := by
    have hname' : name ∉ t.frame.globalNames := fun hmem =>
      (h.globalNames name hmem).elim hname hnot
    rw [h'.scope (h.signature ▸ hsome) name hname' hnot, h.scope hsome name hname hnot]

end State

namespace Lower

variable {env : Environment} {declared : String → Prop} {s : State}

theorem emits_frames : Emits (State.Frames declared) where
  refl _ := State.frames_of_eq rfl rfl rfl
  trans _ _ _ := .trans
  absorb _ _ := State.frames_of_eq rfl rfl rfl

theorem frames_assignNewGlobal (pos : Position) {name : String} (type : ValueType)
    (zero : Ir.Constant) (v : Value) (hname : s.frame.isLocal name = false) :
    s.Frames declared (after (assignNewGlobal env pos name type zero v) s) := by
  have hdeclare (initial : Ir.Constant) :
      s.Frames declared (after (declareGlobal name type initial) s) := by
    refine ⟨rfl, fun _ h => .inl h, fun hsome other hother _ => ?_⟩
    -- A name that is not local to a function has been declared global in it.
    apply Scope.find?_declare_of_ne
    rintro rfl
    unfold Frame.isLocal at hname
    rw [hsome] at hname
    exact hother (by simpa using hname)
  unfold assignNewGlobal
  split
  · exact emits_frames.refl s
  · apply after_bind emits_frames.trans (emits_frames.refl s)
    rintro s0 _ ⟨⟩
    dsimp only
    split
    · exact after_bind emits_frames.trans (hdeclare _) fun _ s1 _ => emits_frames.refl s1
    · exact after_bind emits_frames.trans (hdeclare zero) fun _ s1 _ => emits_frames.store _ _ _ s1

theorem frames_assign (pos : Position) (name : String) (hint : Option String) (e : Expr) :
    Stays (State.Frames declared) (assign env pos name hint e) := by
  have hstore (symbol : Symbol) (v : Value) (s : State) :
      s.Frames declared (after (store pos symbol v) s) := emits_frames.store pos symbol v s
  apply emits_frames.bind (emits_frames.value e)
  intro v
  apply emits_frames.bind (emits_frames.hintedType pos hint v)
  intro type
  split
  · exact emits_frames.fail _ _
  intro s
  apply after_bind emits_frames.trans (emits_frames.refl s)
  rintro s0 _ ⟨⟩
  split
  · split
    · exact emits_frames.refl s
    · exact hstore _ v s
  · split
    · refine after_bind emits_frames.trans (State.frames_of_eq rfl rfl rfl) fun symbol s1 _ => ?_
      exact hstore symbol v s1
    · rename_i hlocal
      exact frames_assignNewGlobal pos type _ v (Bool.eq_false_iff.mpr hlocal)

theorem frames_declareNames (pos : Position) {names : List String}
    (hnames : ∀ name ∈ names, declared name) :
    Stays (State.Frames declared) (declareNames pos names) := by
  induction names with
  | nil => exact emits_frames.pure _
  | cons name names ih =>
    obtain ⟨hname, hrest⟩ := List.forall_mem_cons.mp hnames
    apply emits_frames.bind emits_frames.get
    intro s
    apply emits_frames.guarded
    refine emits_frames.bind (fun s => ⟨rfl, fun other hother => ?_, fun _ _ _ _ => rfl⟩)
      fun _ => ih hrest
    rcases List.mem_append.mp hother with hold | hnew
    · exact .inl hold
    · exact .inr (List.mem_singleton.mp hnew ▸ hname)

theorem walks_frames : Walks env declared (State.Frames declared) where
  toEmits := emits_frames
  assign := frames_assign
  declareNames pos _ hnames := frames_declareNames pos hnames
  report _ _ := State.frames_of_eq rfl rfl rfl
  nextIf _ := State.frames_of_eq rfl rfl rfl
  nextWhile _ := State.frames_of_eq rfl rfl rfl
  nextReturn _ := State.frames_of_eq rfl rfl rfl
  create _ _ := State.frames_of_eq rfl rfl rfl
  close _ _ := State.frames_of_eq rfl rfl rfl
  goto _ _ := State.frames_of_eq rfl rfl rfl

end Lower

namespace Definition

variable {env : Environment} {declared : String → Prop}

theorem frames_lower (d : Definition) (hd : ∀ name ∈ globalizedAll d.body, declared name) :
    Lower.Stays (State.Frames declared) (d.lower env) := by
  rw [lower_eq]
  have hprologue := stays_prologue (R := State.Frames declared) Lower.emits_frames
    (fun _ _ _ => State.frames_of_eq rfl rfl rfl) d
  exact Lower.emits_frames.bind hprologue fun _ =>
    Lower.emits_frames.bind (Lower.walks_frames.stmts d.body hd) fun _ =>
      fun s => (Lower.walks_frames : Lower.Walks env declared _).finish s _

end Definition

/-- Lowering a function leaves the global scope as it is for all names that it does not declare
global, also if there are errors in it. -/
theorem Compilation.find?_bodyState (c : Compilation) (d : Definition) {name : String}
    (hname : name ∉ globalizedAll d.body) :
    (c.bodyState d).progress.scope.find? name = c.progress.scope.find? name :=
  (d.frames_lower (fun _ h => h) ⟨c.progress, .ofSignature d.signature⟩).scope rfl name
    List.not_mem_nil hname

end BoardPython.Lowering
