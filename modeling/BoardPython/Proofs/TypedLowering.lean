import BoardPython.Proofs.LoweringSteps
import BoardPython.Proofs.ParsedNames
import BoardPython.Proofs.TypedEmission

/-! Well-typed code of a body. What can happen to its state while statements are lowered is said
once, as steps that bring the evidence for what they add; a statement that fails half way has still
made only such steps. -/
namespace BoardPython

namespace Lowering

open Ir (Callee Label Operand Operation Scene Terminator Ty)
open Relation (ReflTransGen)

structure Place where
  env : Environment
  functions : List Ir.Function
  function : Ir.Function

/-- A place where all functions are there that can be called. -/
structure Site extends Place where
  /-- The names that variables can have. -/
  names : String → Prop
  numeric : env.operators = .numeric
  linked : ∀ key f, env.functions.find? key = some f → f.callee.Refers functions

instance : Coe Site Place := ⟨Site.toPlace⟩

def Progress.Linked (p : Progress) : Prop :=
  ∀ symbol ∈ p.scope.symbols, (∃ immutable, symbol.storage = .module immutable) ∧
    ∃ g ∈ p.globals, g.name = symbol.name ∧ g.initial.type = symbol.type.ir

def Frame.Linked (f : Frame) : Prop :=
  ∀ symbol ∈ f.locals.symbols, ∃ r, symbol.storage = .stack r ∧
    ∃ i ∈ f.body.code, i.result = some r ∧ i.operation = .alloca symbol.type.ir

theorem Scope.mem_declare {scope : Scope} {new symbol : Symbol}
    (h : symbol ∈ (scope.declare new).symbols) : symbol ∈ scope.symbols ∨ symbol = new := by
  unfold declare declare? at h
  split at h
  · exact .inl h
  · exact (List.mem_append.mp h).imp_right List.mem_singleton.mp

theorem Scope.mem_of_find? {scope : Scope} {name : String} {symbol : Symbol}
    (h : scope.find? name = some symbol) : symbol ∈ scope.symbols :=
  List.mem_of_find?_eq_some h

theorem Progress.Linked.mono {p p' : Progress} (h : p.Linked) (hscope : p'.scope = p.scope)
    (hglobals : p.globals ⊆ p'.globals) : p'.Linked := by
  intro symbol hsymbol
  rw [hscope] at hsymbol
  obtain ⟨hstorage, g, hg, hdef⟩ := h symbol hsymbol
  exact ⟨hstorage, g, hglobals hg, hdef⟩

theorem Frame.Linked.mono {f f' : Frame} (h : f.Linked) (hlocals : f'.locals = f.locals)
    (hcode : f.body.code ⊆ f'.body.code) : f'.Linked := by
  intro symbol hsymbol
  rw [hlocals] at hsymbol
  obtain ⟨r, hstorage, i, hi, hdef⟩ := h symbol hsymbol
  exact ⟨r, hstorage, i, hcode hi, hdef⟩

namespace State

def scene (k : Place) (s : State) : Scene where
  holds x := x.Refers s.progress.globals k.function.params s.frame.body.code
  calls f := f.Refers k.functions

inductive Step (k : Site) : State → State → Prop
  | absorb {s : State} {e : Emission}
      (h : ReflTransGen (Emission.Step (s.scene k) k.env.strict) s.emission e) :
      Step k s (s.absorb e)
  | declareLocal {s : State} {name : String} {type : ValueType} :
      Step k s (Lower.after (Lower.declareLocal name type) s)
  | declareGlobal {s : State} {name : String} {type : ValueType} {initial : Ir.Constant}
      (htype : initial.type = type.ir) (hfree : s.progress.scope.find? name = none)
      (hunused : k.env.functions.find? name = none) (hname : k.names name) :
      Step k s (Lower.after (Lower.declareGlobal name type initial) s)
  | globalNames {s : State} {names : List String} :
      Step k s { s with frame := { s.frame with globalNames := names } }
  | count {s : State} {ifs whiles returns : Nat} :
      Step k s { s with progress :=
        { s.progress with ifs := ifs, whiles := whiles, returns := returns } }
  | report {s : State} {e : Error} : Step k s { s with progress := s.progress.report e }
  | close {s : State} {t : Terminator} (h : t.Typed (s.scene k) k.function.result) :
      Step k s (s.mapBody (·.close t))
  | create {s : State} {labels : List Label} : Step k s (s.mapBody (·.create labels))
  | goto {s : State} {l : Label} (h : l ∈ s.frame.body.labels) : Step k s (s.mapBody (·.goto l))

variable {k : Site} {s s' : State}

theorem scene_le_of_subset (hglobals : s.progress.globals ⊆ s'.progress.globals)
    (hcode : s.frame.body.code ⊆ s'.frame.body.code) : (s.scene k).Le (s'.scene k) where
  holds _ hx := hx.mono hglobals (List.Subset.refl _) hcode
  calls _ hf := hf

theorem Step.scene_le (h : Step k s s') : (s.scene k).Le (s'.scene k) := by
  have hrefl {α : Type} (l : List α) : l ⊆ l := List.Subset.refl l
  have hsame {is is' : List Ir.Instr} (h : is' = is) : is ⊆ is' := h ▸ hrefl is'
  cases h with
  | absorb h =>
    exact scene_le_of_subset (List.subset_append_left _ _) (Body.code_subset_append _ _ _)
  | declareLocal => exact scene_le_of_subset (hrefl _) (Body.code_subset_append _ _ _)
  | declareGlobal => exact scene_le_of_subset (List.subset_append_left _ _) (hrefl _)
  | globalNames | count | report | goto h => exact scene_le_of_subset (hrefl _) (hrefl _)
  | close h => exact scene_le_of_subset (hrefl _) (hsame (Body.code_close _ _))
  | create => exact scene_le_of_subset (hrefl _) (hsame (Body.code_create _ _))

theorem scene_le_of_steps (h : ReflTransGen (Step k) s s') : (s.scene k).Le (s'.scene k) := by
  induction h with
  | refl => exact Scene.Le.refl _
  | tail _ hstep ih => exact ih.trans hstep.scene_le

/-- All code of the body is well typed so far, and all names are there that can be referred to. -/
structure Typed (k : Place) (s : State) : Prop where
  entry : .entry ∈ s.frame.body.labels
  current : s.frame.body.current ∈ s.frame.body.labels
  code : ∀ i ∈ s.frame.body.code, i.operation.Typed (s.scene k) k.env.strict
  ends : ∀ l t, (l, some t) ∈ s.frame.body.flow → t.Typed (s.scene k) k.function.result
  signature : ∀ f, s.frame.signature = some f → f.result.ir = k.function.result
  locals : s.frame.Linked
  globals : s.progress.Linked

theorem scene_absorb (hs : s.Typed k) (e : Emission) :
    (e.scene (s.scene k)).Le ((s.absorb e).scene k) where
  holds x hx := by
    rcases hx with hx | hx
    · exact hx.mono (List.subset_append_left _ _) (List.Subset.refl _)
        (Body.code_subset_append _ _ _)
    · exact hx.mono (List.subset_append_right _ _) (List.nil_subset _)
        (Body.subset_code_append hs.current)
  calls _ hf := hf

theorem Typed.of_eq {p p' : Place} (hs : s.Typed p) (hle : (s.scene p).Le (s'.scene p'))
    (hstrict : p'.env.strict = p.env.strict) (hresult : p'.function.result = p.function.result)
    (hbody : s'.frame.body = s.frame.body) (hsignature : s'.frame.signature = s.frame.signature)
    (hlocals : s'.frame.locals = s.frame.locals) (hglobals : s'.progress.Linked) :
    s'.Typed p' where
  entry := by rw [hbody]; exact hs.entry
  current := by rw [hbody]; exact hs.current
  code i hi := by
    rw [hbody] at hi
    rw [hstrict]
    exact (hs.code i hi).mono hle
  ends l t ht := by
    rw [hbody] at ht
    rw [hresult]
    exact (hs.ends l t ht).mono hle
  signature f hf := by
    rw [hresult]
    exact hs.signature f (hsignature ▸ hf)
  locals := hs.locals.mono hlocals (by rw [hbody]; exact List.Subset.refl _)
  globals := hglobals

theorem Typed.append (hs : s.Typed k) {l : Label} {is : List Ir.Instr}
    (hle : (s.scene k).Le (s'.scene k))
    (hblocks : s'.frame.body.blocks = (s.frame.body.append l is).blocks)
    (hcurrent : s'.frame.body.current = s.frame.body.current)
    (his : ∀ i ∈ is, i.operation.Typed (s'.scene k) k.env.strict)
    (hsignature : s'.frame.signature = s.frame.signature) (hlocals : s'.frame.Linked)
    (hglobals : s'.progress.Linked) : s'.Typed k := by
  have hflow : s'.frame.body.flow = s.frame.body.flow := by
    rw [← Body.flow_append s.frame.body l is]
    unfold Body.flow
    rw [hblocks]
  have hlabels := Body.labels_congr hflow
  have hcode : s'.frame.body.code = (s.frame.body.append l is).code := by
    unfold Body.code
    rw [hblocks]
  refine ⟨?_, ?_, ?_, ?_, ?_, hlocals, hglobals⟩
  · rw [hlabels]
    exact hs.entry
  · rw [hlabels, hcurrent]
    exact hs.current
  · intro i hi
    rw [hcode] at hi
    rcases Body.mem_code_append hi with hi | hi
    · exact (hs.code i hi).mono hle
    · exact his i hi
  · intro l t ht
    rw [hflow] at ht
    exact (hs.ends l t ht).mono hle
  · intro f hf
    exact hs.signature f (hsignature ▸ hf)

theorem Step.typed (h : Step k s s') (hs : s.Typed k) : s'.Typed k := by
  have hle := h.scene_le
  cases h with
  | @absorb e h =>
    refine hs.append hle rfl rfl ?_ rfl (hs.locals.mono rfl (Body.code_subset_append _ _ _))
      (hs.globals.mono rfl (List.subset_append_left _ _))
    have hnothing : s.emission.Typed (s.scene k) k.env.strict :=
      List.forall_mem_nil _
    intro i hi
    exact (Emission.typed_of_steps h hnothing i hi).mono (scene_absorb hs e)
  | @declareLocal name type =>
    refine hs.append hle (l := .entry) rfl rfl ?_ rfl ?_ hs.globals
    · intro i hi
      rw [List.mem_singleton.mp hi]
      exact .alloca
    · -- The new cell is in the entry block.
      intro symbol hsymbol
      rcases Scope.mem_declare hsymbol with hsymbol | rfl
      · obtain ⟨r, hstorage, i, hi, hdef⟩ := hs.locals symbol hsymbol
        exact ⟨r, hstorage, i, Body.code_subset_append _ _ _ hi, hdef⟩
      · exact ⟨_, rfl, _, Body.subset_code_append hs.entry (List.mem_singleton_self _), rfl, rfl⟩
  | declareGlobal htype hfree hunused hname =>
    refine hs.of_eq hle rfl rfl rfl rfl rfl fun symbol hsymbol => ?_
    rcases Scope.mem_declare hsymbol with hsymbol | rfl
    · obtain ⟨hstorage, g, hg, hdef⟩ := hs.globals symbol hsymbol
      exact ⟨hstorage, g, List.mem_append_left _ hg, hdef⟩
    · exact ⟨⟨_, rfl⟩, _, List.mem_append_right _ (List.mem_singleton_self _), rfl, htype⟩
  | globalNames | count | report => exact hs.of_eq hle rfl rfl rfl rfl rfl hs.globals
  | @close t h =>
    have hlabels := Body.labels_close s.frame.body t
    have hcode := Body.code_close s.frame.body t
    refine ⟨hlabels ▸ hs.entry, hlabels ▸ hs.current, ?_, ?_, hs.signature,
      hs.locals.mono rfl (hcode ▸ List.Subset.refl _), hs.globals⟩
    · intro i hi
      exact (hs.code i (hcode ▸ hi)).mono hle
    · intro l t' ht
      change (l, some t') ∈ (s.frame.body.close t).flow at ht
      rw [Body.flow_close] at ht
      obtain ⟨x, hx, heq⟩ := List.mem_map.mp ht
      by_cases hcurrent : x.1 = s.frame.body.current
      · rw [if_pos hcurrent] at heq
        obtain ⟨-, rfl⟩ : x.1 = l ∧ t = t' := by simpa using heq
        exact h.mono hle
      · rw [if_neg hcurrent] at heq
        exact (hs.ends l t' (heq ▸ hx)).mono hle
  | @create labels =>
    have hlabels := Body.labels_create s.frame.body labels
    have hcode := Body.code_create s.frame.body labels
    have hsub : s.frame.body.labels ⊆ (s.frame.body.create labels).labels := by
      rw [hlabels]
      exact List.subset_append_left _ _
    refine ⟨hsub hs.entry, hsub hs.current, ?_, ?_, hs.signature,
      hs.locals.mono rfl (hcode ▸ List.Subset.refl _), hs.globals⟩
    · intro i hi
      exact (hs.code i (hcode ▸ hi)).mono hle
    · intro l t ht
      change (l, some t) ∈ (s.frame.body.create labels).flow at ht
      rw [Body.flow_create] at ht
      rcases List.mem_append.mp ht with ht | ht
      · exact (hs.ends l t ht).mono hle
      · obtain ⟨l', -, heq⟩ := List.mem_map.mp ht
        cases heq
  | goto h => exact ⟨hs.entry, h, hs.code, hs.ends, hs.signature, hs.locals, hs.globals⟩

variable {symbol : Symbol} {a : Operand}

theorem Typed.holds_of_local (hs : s.Typed k) (hsymbol : symbol ∈ s.frame.locals.symbols)
    (ha : symbol.address? = some a) :
    (s.scene k).holds a := by
  obtain ⟨r, hstorage, i, hi, hresult, hoperation⟩ := hs.locals symbol hsymbol
  unfold Symbol.address? at ha
  rw [hstorage] at ha
  obtain rfl := Option.some.inj ha
  exact ⟨i, hi, hresult, by rw [hoperation]; rfl⟩

theorem Typed.holds_of_global (hs : s.Typed k) (hsymbol : symbol ∈ s.progress.scope.symbols)
    (ha : symbol.address? = some a) :
    (s.scene k).holds a := by
  obtain ⟨⟨immutable, hstorage⟩, g, hg, hname, htype⟩ := hs.globals symbol hsymbol
  unfold Symbol.address? at ha
  rw [hstorage] at ha
  obtain rfl := Option.some.inj ha
  exact ⟨g, hg, hname, htype⟩

theorem mem_of_resolve? {env : Environment} {name : String}
    (h : (s.context env).resolve? name = some symbol) :
    symbol ∈ s.frame.locals.symbols ∨ symbol ∈ s.progress.scope.symbols := by
  unfold Context.resolve? Scope.resolve? at h
  split at h
  · rename_i found hfound
    obtain rfl := Option.some.inj h
    obtain ⟨scope, hscope, hfind⟩ := Option.bind_eq_some_iff.mp hfound
    have hlocals : scope = s.frame.locals := by
      split at hscope
      · cases hscope
      · obtain ⟨f, -, heq⟩ := Option.map_eq_some_iff.mp hscope
        exact heq.symm
    exact .inl (hlocals ▸ Scope.mem_of_find? hfind)
  · exact .inr (Scope.mem_of_find? h)

theorem Typed.context (hs : s.Typed k) : (s.context k.env).Linked (s.scene k) where
  operators := k.numeric
  functions := k.linked
  symbols name symbol a hsymbol ha := by
    rcases mem_of_resolve? hsymbol with hsymbol | hsymbol
    · exact hs.holds_of_local hsymbol ha
    · exact hs.holds_of_global hsymbol ha

theorem Typed.holds_of_target? (hs : s.Typed k) {name : String}
    (hsymbol : s.target? name = some symbol) (ha : symbol.address? = some a) :
    (s.scene k).holds a := by
  unfold target? at hsymbol
  split at hsymbol
  · exact hs.holds_of_local (Scope.mem_of_find? hsymbol) ha
  · exact hs.holds_of_global (Scope.mem_of_find? hsymbol) ha

end State

theorem ValueType.type_of_zero? {t : ValueType} {zero : Ir.Constant} (h : t.zero? = some zero) :
    zero.type = t.ir := by
  cases t <;> cases h <;> rfl

theorem Meets.after {α : Type} {step : State → State → Prop} {s : State} {x : Lower α}
    {Q : State → α → Prop} (h : Meets step s x Q) : ReflTransGen step s (Lower.after x s) := by
  unfold Lower.after
  cases hx : x s with
  | ok a s' => exact (h.of_ok hx).1
  | error e s' => exact h.of_error hx

namespace Lower

open State (Step)

section Steps

variable {step : State → State → Prop} {s : State}

theorem meets_hintedType (pos : Position) (hint : Option String) (v : Value) :
    Meets step s (hintedType pos hint v) fun s' _ => s' = s := by
  unfold hintedType
  split
  · exact meets_pure rfl
  · split
    · exact meets_pure rfl
    · exact meets_throw _

theorem meets_modifyBody {f : Body → Body} (h : ReflTransGen step s (s.mapBody f)) :
    Meets step s (modifyBody f) fun s' _ => s' = s.mapBody f := ⟨h, rfl⟩

theorem steps_finish {t : Terminator} (h : step s (s.mapBody (·.close t))) :
    ReflTransGen step s (s.mapBody (·.finish t)) := by
  by_cases hopen : s.frame.body.isOpen
  · have hclose : s.mapBody (·.finish t) = s.mapBody (·.close t) := by
      simp only [State.mapBody, Body.finish, if_pos hopen]
    rw [hclose]
    exact .single h
  · have hsame : s.mapBody (·.finish t) = s := by
      simp only [State.mapBody, Body.finish, if_neg hopen]
    rw [hsame]

theorem meets_reported (hstep : ∀ (s : State) e, step s { s with progress := s.progress.report e })
    {x : Lower Unit} {Q : State → Unit → Prop} (hx : Meets step s x Q) :
    Meets step s (reported x) fun _ _ => True := by
  unfold Meets reported
  cases h : x s with
  | ok a s1 => exact ⟨(hx.of_ok h).1, trivial⟩
  | error e s1 => exact ⟨.tail (hx.of_error h) (hstep s1 e), trivial⟩

variable {t : Terminator} {l : Label} {new : List Label}
  (hgoto : ∀ {s : State} {l : Label}, l ∈ s.frame.body.labels → step s (s.mapBody (·.goto l)))

include hgoto

theorem meets_enter (hcreate : step s (s.mapBody (·.create new)))
    (hclose : step (s.mapBody (·.create new)) (s.mapBody fun b => (b.create new).close t))
    (hl : l ∈ new) :
    Meets step s (modifyBody fun b => ((b.create new).close t).goto l) fun s' _ =>
      new ⊆ s'.frame.body.labels := by
  have hnew : new ⊆ (s.mapBody fun b => (b.create new).close t).frame.body.labels := by
    change new ⊆ ((s.frame.body.create new).close t).labels
    rw [Body.labels_close, Body.labels_create]
    exact List.subset_append_right _ _
  exact ⟨.head hcreate (.head hclose (.single (hgoto (hnew hl)))), hnew⟩

theorem meets_close (hclose : step s (s.mapBody (·.close t))) (hl : l ∈ s.frame.body.labels) :
    Meets step s (modifyBody fun b => (b.close t).goto l) fun _ _ => True :=
  have hl : l ∈ (s.mapBody (·.close t)).frame.body.labels := (Body.labels_close _ _).symm ▸ hl
  ⟨.head hclose (.single (hgoto hl)), trivial⟩

theorem meets_leave (hclose : step s (s.mapBody (·.close t))) (hl : l ∈ s.frame.body.labels) :
    Meets step s (modifyBody fun b => (b.finish t).goto l) fun _ _ => True :=
  have hl : l ∈ (s.mapBody (·.finish t)).frame.body.labels := (Body.labels_finish _ _).symm ▸ hl
  ⟨.tail (steps_finish hclose) (hgoto hl), trivial⟩

theorem meets_ret {env : Environment} {e : Option Expr} {V : State → Value → Prop}
    {T : Signature → State → Option Operand → Prop} (pos : Position)
    (hvoid : V s .void) (hvalue : ∀ e, Meets step s (value env e) V)
    (hreturned : ∀ f v s1, ReflTransGen step s s1 → V s1 v →
      Meets step s1 (returned pos f v) (T f))
    (hleave : ∀ f x s1, s.frame.signature = some f → ReflTransGen step s s1 → T f s1 x →
      ReflTransGen step s1 ((after nextReturn s1).mapBody fun b =>
        (b.close (.ret x)).create [.afterReturn (s1.progress.returns + 1)])) :
    Meets step s (ret env pos e) fun _ _ => True := by
  apply meets_get_bind
  cases hf : s.frame.signature with
  | none => exact meets_throw _
  | some f =>
    have helim : Meets step s (e.elim (pure Value.void) (value env)) V := by
      cases e with
      | none => exact meets_pure hvoid
      | some e => exact hvalue e
    have hrest {v : Value} {s1 : State} (h1 : ReflTransGen step s s1) (hv : V s1 v) :
        Meets step s1 (do
          let x ← returned pos f v
          let label := Label.afterReturn (← nextReturn)
          modifyBody fun b => ((b.close (.ret x)).create [label]).goto label) fun _ _ => True := by
      apply (hreturned f v s1 h1 hv).bind
      intro x s2 h2 hx
      refine ⟨.tail (hleave f x s2 hf (h1.trans h2) hx) (hgoto ?_), trivial⟩
      change _ ∈ (Body.create _ _).labels
      rw [Body.labels_create]
      exact List.mem_append_right _ (List.mem_singleton_self _)
    cases e with
    | none | some e => exact helim.bind fun v s1 h1 hv => hrest h1 hv

end Steps

variable {k : Site} {s : State} {v : Value}

theorem has_emission {x : Operand} {t : Ty} (hx : (s.scene k).Has x t) :
    (s.emission.scene (s.scene k)).Has x t := ⟨.inl hx.1, hx.2⟩

theorem known_emission (hv : v.Known (s.scene k)) :
    v.Known (s.emission.scene (s.scene k)) := fun x hx => has_emission (hv x hx)

theorem type_of_constant? {σ : Scene} {initial : Ir.Constant} (hv : v.Known σ)
    (h : constant? v = some initial) : initial.type = v.type.ir := by
  unfold constant? at h
  split at h
  · rename_i x hx
    cases h
    exact (hv _ hx).2
  · cases h

end Lower

end Lowering

end BoardPython
