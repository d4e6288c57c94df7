import BoardPython.Proofs.GlobalFrame
import BoardPython.Proofs.RenamedEmission

/-! Two runs that lower one body, from other numbers on and with functions in other places, do the
same up to a renaming, whether statements succeed or fail: `Definition.mirrors_lower` and
`Lower.mirrors_stmt`. -/
namespace BoardPython.Lowering

open Ir (Counter Label Operand Renaming Terminator)

theorem perm_append_both {α : Type} {xs ys as bs : List α} (h : (xs ++ as).Perm (ys ++ bs))
    (new : List α) : (xs ++ new ++ as).Perm (ys ++ new ++ bs) := by
  have hlast (zs cs : List α) : (zs ++ new ++ cs).Perm (zs ++ cs ++ new) := by
    rw [List.append_assoc, List.append_assoc]
    exact List.perm_append_comm.append_left zs
  exact (hlast xs as).trans ((h.append_right new).trans (hlast ys bs).symm)

theorem Scope.find?_declare_congr {scope scope' : Scope}
    (h : ∀ name, scope'.find? name = scope.find? name) (symbol : Symbol) (name : String) :
    (scope'.declare symbol).find? name = (scope.declare symbol).find? name := by
  rw [find?_declare_eq, find?_declare_eq, h]

namespace Progress

def counted (p : Progress) : Counter → Progress
  | .ifs => { p with ifs := p.ifs + 1 }
  | .whiles => { p with whiles := p.whiles + 1 }
  | .returns => { p with returns := p.returns + 1 }
  | .strings => { p with strings := p.strings + 1 }

theorem count_counted (p : Progress) (k j : Counter) :
    (p.counted k).count j = p.count j + if j = k then 1 else 0 := by
  cases k <;> cases j <;> rfl

end Progress

structure Environment.Alike (place : Equiv.Perm Nat) (env env' : Environment) : Prop where
  functions : env.functions.Alike place env'.functions
  strict : env'.strict = env.strict
  operators : env.operators = .numeric
  operators' : env'.operators = .numeric

namespace Pairing

variable {P : Pairing} {low high : Counter → Nat} {k : Counter} {n n' : Nat} {ρ : Renaming}

def FitsAll (P : Pairing) (high : Counter → Nat) (ρ : Renaming) : Prop := ∀ k, P.Fits k (high k) ρ

theorem FitsAll.mono (h : P.FitsAll high ρ) (hle : ∀ k, low k ≤ high k) : P.FitsAll low ρ :=
  fun k => (h k).mono (hle k)

structure Pairs (P : Pairing) (low : Counter → Nat) (k : Counter) (n n' : Nat) : Prop where
  start : P.first.count k < n
  given : n ≤ low k
  number : n' + P.first.count k = n + P.second.count k

theorem Pairs.number_eq (h : P.Pairs low k n n') (hρ : P.FitsAll low ρ) : ρ.number k n = n' := by
  have hfits := (hρ k).number n h.start h.given
  have hnumber := h.number
  omega

def Labels (P : Pairing) (low : Counter → Nat) (l l' : Label) : Prop :=
  ∀ ρ, P.FitsAll low ρ → l.rename ρ = l'

theorem Pairs.labels (h : P.Pairs low k n n') (l : Nat → Label)
    (hl : ∀ ρ m, (l m).rename ρ = l (ρ.number k m)) : P.Labels low (l n) (l n') := by
  intro ρ hρ
  rw [hl, h.number_eq hρ]

end Pairing

structure Frame.Alike (place : Equiv.Perm Nat) (f f' : Frame) : Prop where
  signature : f'.signature = f.signature.map (Signature.moved place)
  locals : f'.locals = f.locals
  globalNames : f'.globalNames = f.globalNames
  register : f'.body.register = f.body.register

/-- Two states are alike: the body of the second one is that of the first one, renamed, and what has
been added to the module since the start is the same. At least as many numbers have been given as
`low` says. -/
structure State.Alike (P : Pairing) (low : Counter → Nat) (s t : State) : Prop where
  start : ∀ k, P.first.count k ≤ low k
  floor : ∀ k, low k ≤ s.progress.count k
  count : ∀ k, t.progress.count k + P.first.count k = s.progress.count k + P.second.count k
  scope : ∀ name, t.progress.scope.find? name = s.progress.scope.find? name
  diagnostics : (t.progress.diagnostics.items ++ P.first.diagnostics.items).Perm
    (s.progress.diagnostics.items ++ P.second.diagnostics.items)
  globals : ∀ ρ, P.FitsAll s.progress.count ρ →
    (t.progress.globals ++ P.first.globals.map (Ir.Global.rename ρ)).Perm
      (s.progress.globals.map (Ir.Global.rename ρ) ++ P.second.globals)
  frame : s.frame.Alike P.place t.frame
  body : ∀ ρ, P.admits ρ → P.FitsAll s.progress.count ρ → t.frame.body = s.frame.body.rename ρ

namespace State.Alike

variable {P : Pairing} {low low' : Counter → Nat} {s t : State}

theorem lower_floor (h : s.Alike P low' t) (hstart : ∀ k, P.first.count k ≤ low k)
    (hle : ∀ k, low k ≤ low' k) : s.Alike P low t :=
  { h with
    start := hstart
    floor := fun k => (hle k).trans (h.floor k) }

theorem resembles (h : s.Alike P low t) : s.Resembles (Signature.moved P.place) t :=
  ⟨h.frame.signature, h.frame.locals, h.frame.globalNames, h.scope⟩

theorem context {env env' : Environment} (h : s.Alike P low t) (henv : env.Alike P.place env') :
    (s.context env).Alike P.place (t.context env') where
  globals := h.scope
  locals := by
    change t.frame.signature.map _ = s.frame.signature.map _
    rw [h.frame.signature, h.frame.locals, Option.map_map]
    rfl
  globalNames := h.frame.globalNames
  functions := henv.functions
  strict := henv.strict
  operators := henv.operators
  operators' := henv.operators'

theorem emission (h : s.Alike P low t) :
    s.emission.Alike P (s.progress.count .strings) t.emission where
  start := (h.start .strings).trans (h.floor .strings)
  floor := Nat.le_refl _
  strings := h.count .strings
  register := h.frame.register
  instrs _ _ := rfl
  globals _ _ := rfl
  warnings := rfl

theorem absorb {e e' : Emission} (h : s.Alike P low t)
    (he : e.Alike P (s.progress.count .strings) e') : (s.absorb e).Alike P low (t.absorb e') := by
  -- A renaming that fits the numbers given after this also fits those given before.
  have hle (k : Counter) : s.progress.count k ≤ (s.absorb e).progress.count k := by
    cases k with
    | strings => exact he.floor
    | _ => exact Nat.le_refl _
  refine { h with
    floor := fun k => (h.floor k).trans (hle k)
    count := fun k => ?_
    diagnostics := ?_
    globals := fun ρ hρ => ?_
    frame := { h.frame with register := he.register }
    body := fun ρ hadmits hρ => ?_ }
  · cases k with
    | strings => exact he.strings
    | ifs => exact h.count .ifs
    | whiles => exact h.count .whiles
    | returns => exact h.count .returns
  · change (_ ++ e'.warnings ++ _).Perm (_ ++ e.warnings ++ _)
    rw [he.warnings]
    exact perm_append_both h.diagnostics e.warnings
  · change (_ ++ e'.globals ++ _).Perm ((_ ++ e.globals).map _ ++ _)
    rw [he.globals ρ (hρ .strings), List.map_append]
    exact perm_append_both (h.globals ρ (hρ.mono hle)) _
  · have hbody := (s.frame.body.rename_append ρ s.frame.body.current e.instrs).symm
    rw [← he.instrs ρ (hρ .strings), ← h.body ρ hadmits (hρ.mono hle)] at hbody
    -- The instructions go to the current block, which is renamed like any other.
    have hcurrent : s.frame.body.current.rename ρ = t.frame.body.current := by
      rw [h.body ρ hadmits (hρ.mono hle)]
      rfl
    rw [hcurrent] at hbody
    change ({ t.frame.body.append t.frame.body.current e'.instrs with register := e'.register } :
      Body) = _
    rw [hbody, he.register]
    rfl

theorem mapBody (h : s.Alike P low t) {f g : Body → Body}
    (hf : ∀ b, (f b).register = b.register) (hg : ∀ b, (g b).register = b.register)
    (hbody : ∀ ρ, P.FitsAll low ρ → ∀ b, (f b).rename ρ = g (b.rename ρ)) :
    (s.mapBody f).Alike P low (t.mapBody g) :=
  { h with
    frame := { h.frame with register := (hg _).trans (h.frame.register.trans (hf _).symm) }
    body := fun ρ hadmits hρ =>
      (congrArg g (h.body ρ hadmits hρ)).trans (hbody ρ (hρ.mono h.floor) _).symm }

theorem report (h : s.Alike P low t) (e : Error) :
    State.Alike P low { s with progress := s.progress.report e }
      { t with progress := t.progress.report e } :=
  { h with diagnostics := perm_append_both h.diagnostics _ }

theorem counted (h : s.Alike P low t) (k : Counter) :
    P.Pairs (s.progress.counted k).count k (s.progress.count k + 1) (t.progress.count k + 1) ∧
      State.Alike P (s.progress.counted k).count { s with progress := s.progress.counted k }
        { t with progress := t.progress.counted k } := by
  have hstart (j : Counter) : P.first.count j ≤ s.progress.count j := (h.start j).trans (h.floor j)
  have hle (j : Counter) : s.progress.count j ≤ (s.progress.counted k).count j := by
    rw [Progress.count_counted]
    exact Nat.le_add_right _ _
  have hcount := h.count k
  refine ⟨⟨Nat.lt_succ_of_le (hstart k), ?_, by omega⟩, ?_⟩
  · rw [Progress.count_counted, if_pos rfl]
  · have hscope (p : Progress) : (p.counted k).scope = p.scope := by cases k <;> rfl
    have hdiagnostics (p : Progress) : (p.counted k).diagnostics = p.diagnostics := by
      cases k <;> rfl
    have hglobals (p : Progress) : (p.counted k).globals = p.globals := by cases k <;> rfl
    exact { h with
      start := fun j => (hstart j).trans (hle j)
      floor := fun _ => Nat.le_refl _
      count := fun j => by
        have hj := h.count j
        simp only [Progress.count_counted]
        omega
      scope := fun name => by simp only [hscope, h.scope]
      diagnostics := by simpa only [hdiagnostics] using h.diagnostics
      globals := fun ρ hρ => by simpa only [hglobals] using h.globals ρ (hρ.mono hle)
      body := fun ρ hadmits hρ => h.body ρ hadmits (hρ.mono hle) }

end State.Alike

namespace Lower

variable {α β : Type} {P : Pairing} {low : Counter → Nat} {env env' : Environment}

/-- From states that are alike, two steps lead to such states; they fail with the same error, or
succeed with the same result. -/
def Mirrors (P : Pairing) (low : Counter → Nat) (x y : Lower α) : Prop :=
  ∀ s t, s.Alike P low t →
    Agree (fun a b s' t' => b = a ∧ s'.Alike P low t') (·.Alike P low ·) (x s) (y t)

theorem mirrors_pure (a : α) : Mirrors P low (pure a) (pure a) := fun _ _ h => .ok ⟨rfl, h⟩

theorem mirrors_fail (pos : Position) (fault : Fault) :
    Mirrors P low (fail pos fault : Lower α) (fail pos fault) := fun _ _ h => .error h

variable {x y : Lower α} {f g : Body → Body} {ρ : Renaming}

theorem Mirrors.bind {f g : α → Lower β} (hx : Mirrors P low x y)
    (hf : ∀ a, Mirrors P low (f a) (g a)) : Mirrors P low (x >>= f) (y >>= g) := by
  intro s t h
  apply (hx s t h).bind
  rintro a b s' t' ⟨rfl, hst⟩
  exact hf b s' t' hst

theorem mirrors_get {f g : State → Lower α}
    (h : ∀ s t, s.Alike P low t → Mirrors P low (f s) (g t)) :
    Mirrors P low (get >>= f) (get >>= g) :=
  fun s t hst => h s t hst s t hst

theorem Mirrors.after {s t : State} (hx : Mirrors P low x y) (h : s.Alike P low t) :
    (after x s).Alike P low (after y t) := by
  have hagree := hx s t h
  unfold Lower.after
  generalize x s = r at hagree ⊢
  generalize y t = r' at hagree ⊢
  cases hagree with
  | ok hq => exact hq.2
  | error he => exact he

theorem mirrors_emit {x y : Emit α} (hx : ∀ n, Emit.Mirrors P n id x y) :
    Mirrors P low (emit x) (emit y) := by
  intro s t h
  have hagree := hx _ s.emission t.emission h.emission
  unfold emit
  generalize x s.emission = r at hagree ⊢
  generalize y t.emission = r' at hagree ⊢
  cases hagree with
  | ok hq => exact .ok ⟨hq.1, h.absorb hq.2⟩
  | error he => exact .error (h.absorb he)

theorem mirrors_value (henv : env.Alike P.place env') (e : Expr) :
    Mirrors P low (value env e) (value env' e) := by
  intro s t h
  exact mirrors_emit (fun _ => (Emit.couples_mirrors (h.context henv)).lower e) s t h

theorem mirrors_modifyBody (hf : ∀ b, (f b).register = b.register)
    (hg : ∀ b, (g b).register = b.register)
    (hbody : ∀ ρ, P.FitsAll low ρ → ∀ b, (f b).rename ρ = g (b.rename ρ)) :
    Mirrors P low (modifyBody f) (modifyBody g) :=
  fun _ _ h => .ok ⟨rfl, h.mapBody hf hg hbody⟩

theorem mirrors_next (k : Counter) {next : Lower Nat}
    (hnext : ∀ s, next s = .ok (s.progress.count k + 1) { s with progress := s.progress.counted k })
    {f g : Nat → Lower α}
    (hf : ∀ low n n', P.Pairs low k n n' → Mirrors P low (f n) (g n')) :
    Mirrors P low (next >>= f) (next >>= g) := by
  intro s t h
  obtain ⟨hpairs, halike⟩ := h.counted k
  rw [bind_of_ok (hnext s), bind_of_ok (hnext t)]
  -- What follows starts from a higher floor, under which the number can be used.
  have hlow {s' t' : State} (hst : s'.Alike P (s.progress.counted k).count t') :
      s'.Alike P low t' := by
    refine hst.lower_floor h.start fun j => (h.floor j).trans ?_
    rw [Progress.count_counted]
    exact Nat.le_add_right _ _
  exact (hf _ _ _ hpairs _ _ halike).mono (fun _ _ _ _ hq => ⟨hq.1, hlow hq.2⟩)
    fun _ _ he => hlow he

theorem mirrors_declareLocal (name : String) (type : ValueType) :
    Mirrors P low (declareLocal name type) (declareLocal name type) := by
  intro s t h
  have hregister := h.frame.register
  refine .ok ⟨?_, { h with
    frame := { h.frame with
      locals := ?_
      register := congrArg (· + 1) hregister }
    body := fun ρ hadmits hρ => ?_ }⟩
  · exact congrArg (fun r => (⟨name, type, .stack r⟩ : Symbol)) hregister
  · change t.frame.locals.declare ⟨name, type, .stack t.frame.body.register⟩ = _
    rw [h.frame.locals, hregister]
  · have hbody := s.frame.body.rename_append ρ .entry
      [⟨some s.frame.body.register, .alloca type.ir⟩]
    rw [← h.body ρ hadmits hρ, ← hregister] at hbody
    change ({ t.frame.body.append .entry [⟨some t.frame.body.register, .alloca type.ir⟩] with
      register := t.frame.body.register + 1 } : Body) = _
    rw [show t.frame.body.append .entry [⟨some t.frame.body.register, .alloca type.ir⟩] = _ from
      hbody.symm, hregister]
    rfl

theorem mirrors_declareGlobal (name : String) (type : ValueType) (initial : Ir.Constant) :
    Mirrors P low (declareGlobal name type initial) (declareGlobal name type initial) := by
  intro s t h
  refine .ok ⟨rfl, { h with
    scope := fun other => Scope.find?_declare_congr h.scope _ other
    globals := fun ρ hρ => ?_ }⟩
  change (t.progress.globals ++ _ ++ _).Perm ((s.progress.globals ++ _).map _ ++ _)
  rw [List.map_append]
  exact perm_append_both (h.globals ρ hρ) [⟨name, initial, false, false, false⟩]

theorem Mirrors.reported {x y : Lower Unit} (hx : Mirrors P low x y) :
    Mirrors P low (reported x) (reported y) := by
  intro s t h
  have hagree := hx s t h
  unfold Lower.reported
  generalize x s = r at hagree ⊢
  generalize y t = r' at hagree ⊢
  cases hagree with
  | ok hq => exact .ok hq
  | error he => exact .ok ⟨rfl, he.report _⟩

theorem register_finish (b : Body) (t : Terminator) : (b.finish t).register = b.register := by
  unfold Body.finish
  split <;> rfl

theorem rename_of_endsAlike {t t' : Terminator} (h : EndsAlike (P.Labels low) t t')
    (hρ : P.FitsAll low ρ) : t.rename ρ = t' := by
  cases h with
  | ret x => rfl
  | jump h => rw [Terminator.rename, h ρ hρ]
  | branch x hyes hno => rw [Terminator.rename, hyes ρ hρ, hno ρ hρ]

theorem rename_of_edits (h : Edits (P.Labels low) f g) (hρ : P.FitsAll low ρ) (b : Body) :
    (f b).rename ρ = g (b.rename ρ) := by
  induction h with
  | start => rfl
  | @create _ _ ls ls' hls _ ih =>
    have hmap : ls.map (Label.rename ρ) = ls' := by
      rw [← List.forall₂_eq_eq_eq, List.forall₂_map_left_iff]
      exact hls.imp fun _ _ hl => hl ρ hρ
    rw [Body.rename_create, ih, hmap]
  | close ht _ ih => rw [Body.rename_close, ih, rename_of_endsAlike ht hρ]
  | finish ht _ ih => rw [Body.rename_finish, ih, rename_of_endsAlike ht hρ]
  | goto hl _ ih => rw [Body.rename_goto, ih, hl ρ hρ]

theorem register_of_edits {label : Label → Label → Prop} (h : Edits label f g) (b : Body) :
    (f b).register = b.register ∧ (g b).register = b.register := by
  induction h with
  | start => exact ⟨rfl, rfl⟩
  | create _ _ ih | close _ _ ih | goto _ _ ih => exact ih
  | finish _ _ ih => exact ⟨(register_finish _ _).trans ih.1, (register_finish _ _).trans ih.2⟩

theorem couplesPlain_mirrors (henv : env.Alike P.place env') (low : Counter → Nat) :
    CouplesPlain env env' (Signature.moved P.place) (fun _ => True) fun _ => Mirrors P low where
  pure := mirrors_pure
  fail := mirrors_fail
  bind := Mirrors.bind
  get h := mirrors_get fun s t hst => h s t hst.resembles
  value e _ _ h := (mirrors_value henv e).bind fun v => h v trivial
  calculate op hop := mirrors_emit fun _ => Emit.mirrors_calculates.emit op hop
  coerce _ hx := mirrors_emit fun _ => Emit.mirrors_calculates.coerce? hx
  keep _ _ hx := mirrors_emit fun _ => (Emit.mirrors_calculates.coerce? hx).bind fun _ =>
    Emit.mirrors_perform fun _ _ => rfl
  defined name := by rw [henv.functions name, Option.isSome_map]
  declareLocal := mirrors_declareLocal
  declareGlobal := mirrors_declareGlobal

theorem mirrors_declareName (name : String) : Mirrors P low (modify fun s => { s with
      frame := { s.frame with globalNames := s.frame.globalNames ++ [name] } }) (modify fun s =>
      { s with frame := { s.frame with globalNames := s.frame.globalNames ++ [name] } }) :=
  fun _ _ h => .ok ⟨rfl, { h with frame := { h.frame with
    globalNames := congrArg (· ++ [name]) h.frame.globalNames } }⟩

theorem couples_mirrors (henv : env.Alike P.place env') :
    Couples env env' (Signature.moved P.place) (fun _ => True) P.Labels (fun low _ => Mirrors P low)
      (fun _ => True) fun _ => True where
  code low := (couplesPlain_mirrors henv low).toCouplesExpr
  void := trivial
  returned _ _ _ := rfl
  assign low pos name hint e _ := (couplesPlain_mirrors henv low).assign pos name hint e
  globals low pos names _ :=
    (couplesPlain_mirrors henv low).declareNames mirrors_declareName pos names
  nextIf h := mirrors_next .ifs (fun _ => rfl) fun low n n' hn => h low n n'
    (.cons (hn.labels .ifThen fun _ _ => rfl) (.cons (hn.labels .ifElse fun _ _ => rfl)
      (.cons (hn.labels .ifMerge fun _ _ => rfl) .nil)))
  nextWhile h := mirrors_next .whiles (fun _ => rfl) fun low n n' hn => h low n n'
    (.cons (hn.labels .whileCond fun _ _ => rfl) (.cons (hn.labels .whileBody fun _ _ => rfl)
      (.cons (hn.labels .whileExit fun _ _ => rfl) .nil)))
  nextReturn h := mirrors_next .returns (fun _ => rfl) fun low n n' hn =>
    h low n n' (hn.labels .afterReturn fun _ _ => rfl)
  edit h := mirrors_modifyBody (fun b => (register_of_edits h b).1)
    (fun b => (register_of_edits h b).2) fun _ hρ b => rename_of_edits h hρ b
  sides _ := ⟨trivial, trivial⟩
  body _ := trivial
  each _ := ⟨trivial, trivial⟩

theorem mirrors_stmt (henv : env.Alike P.place env') (st : Stmt) (low : Counter → Nat) :
    Mirrors P low (stmt env st) (stmt env' st) :=
  (couples_mirrors henv).stmt (fun _ _ _ => Mirrors.reported) st low trivial

end Lower

def Definition.moved (place : Equiv.Perm Nat) (d : Definition) : Definition :=
  { d with signature := d.signature.moved place }

namespace Definition

variable {P : Pairing} {low : Counter → Nat} {env env' : Environment}

theorem mirrors_lower (henv : env.Alike P.place env')
    (hinit : P.place initCallee.id = initCallee.id) (d : Definition) :
    Lower.Mirrors P low (d.lower env) ((d.moved P.place).lower env') := by
  have hinitCall : Lower.Mirrors P low (Lower.emit (Emit.perform (.call false initCallee [])))
      (Lower.emit (Emit.perform (.call false initCallee []))) := by
    refine Lower.mirrors_emit fun _ => Emit.mirrors_perform fun ρ hρ => ?_
    rw [Ir.Operation.rename, hρ, Ir.Callee.moved, hinit]
  have hplain := Lower.couplesPlain_mirrors henv low
  have hprologue := couples_prologue hplain.toCouplesCode
    (fun _ _ _ => Lower.mirrors_emit fun _ => Emit.mirrors_perform fun _ _ => rfl) hinitCall d
    fun p _ => hplain.declareLocal p.1 p.2
  have hcouples := Lower.couples_mirrors henv
  -- Being in another place, the function has the same parameters and the same body.
  change Lower.Mirrors P low (d.lower env) (d.lower env')
  rw [lower_eq, lower_eq]
  apply hprologue.bind
  intro _
  exact (hcouples.stmts (fun _ _ _ => Lower.Mirrors.reported) d.body low trivial).bind fun _ =>
    hcouples.edit (i := low) (.finish (.ret _) .start)

end Definition

end BoardPython.Lowering
