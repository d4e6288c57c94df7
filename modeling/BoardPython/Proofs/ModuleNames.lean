import BoardPython.Ir.Text
import BoardPython.Proofs.TreeShape
import BoardPython.Proofs.TypedModule

/-! Which functions and globals of a module can have the same name. Functions that sources define are
told apart from each other, and so are globals. A function and a global are told apart only if the
function is known when the global is made. A function with another name for the linker is not told
apart from anything. -/
namespace BoardPython

namespace Text

theorem escapedByte_append_inj {a b : UInt8} {r s : List Char}
    (h : escapedByte a ++ r = escapedByte b ++ s) : a = b ∧ r = s := by
  -- A plain byte stands for itself and is not a backslash, which all other bytes start with.
  have hplain {b : UInt8} (hb : isPlainByte b = true) :
      (Char.ofNat b.toNat).toNat = b.toNat ∧ b.toNat ≠ 0x5C := by
    simp only [isPlainByte, Bool.and_eq_true, decide_eq_true_eq] at hb
    have hvalid : b.toNat.isValidChar := Or.inl (by omega)
    exact ⟨by rw [Char.toNat_ofNat, if_pos hvalid], hb.2⟩
  have hslash {b : UInt8} (hb : isPlainByte b = true) : Char.ofNat b.toNat ≠ '\\' := by
    intro heq
    obtain ⟨hnat, hne⟩ := hplain hb
    rw [heq] at hnat
    exact hne hnat.symm
  have hdigit : ∀ m < 16, ∀ n < 16, Bytes.upperHexDigit m = Bytes.upperHexDigit n → m = n := by
    decide
  have ha := a.toNat_lt
  have hb := b.toNat_lt
  unfold escapedByte at h
  by_cases hpa : isPlainByte a = true
  · rw [if_pos hpa] at h
    by_cases hpb : isPlainByte b = true
    · rw [if_pos hpb] at h
      obtain ⟨hchar, rfl⟩ := List.cons.inj h
      have hnat : a.toNat = b.toNat := by
        rw [← (hplain hpa).1, hchar]
        exact (hplain hpb).1
      exact ⟨UInt8.toNat_inj.mp hnat, rfl⟩
    · rw [if_neg hpb] at h
      exact absurd (List.cons.inj h).1 (hslash hpa)
  · rw [if_neg hpa] at h
    by_cases hpb : isPlainByte b = true
    · rw [if_pos hpb] at h
      exact absurd (List.cons.inj h).1.symm (hslash hpb)
    · rw [if_neg hpb] at h
      obtain ⟨-, h⟩ := List.cons.inj h
      obtain ⟨hhigh, h⟩ := List.cons.inj h
      obtain ⟨hlow, rfl⟩ := List.cons.inj h
      -- The two digits give the byte back.
      have hdiv := hdigit _ (by omega) _ (by omega) hhigh
      have hmod := hdigit _ (by omega) _ (by omega) hlow
      exact ⟨UInt8.toNat_inj.mp (by omega), rfl⟩

theorem escape_injective : Function.Injective escape := by
  intro as bs h
  have hchars : as.flatMap escapedByte = bs.flatMap escapedByte := String.ofList_injective h
  have hnil (b : UInt8) (r : List Char) : escapedByte b ++ r ≠ [] := by
    unfold escapedByte
    split <;> simp
  clear h
  -- Byte by byte, since no escaped byte is empty and none is the start of another.
  induction as generalizing bs with
  | nil =>
    cases bs with
    | nil => rfl
    | cons b bs => exact absurd hchars.symm (hnil b _)
  | cons a as ih =>
    cases bs with
    | nil => exact absurd hchars (hnil a _)
    | cons b bs =>
      obtain ⟨rfl, hrest⟩ := escapedByte_append_inj hchars
      rw [ih hrest]

end Text

theorem Bytes.ofString_injective : Function.Injective Bytes.ofString := by
  intro s t h
  apply String.toByteArray_inj.mp
  exact ByteArray.ext (Array.toList_inj.mp h)

theorem Bytes.ofString_append (s t : String) :
    Bytes.ofString (s ++ t) = Bytes.ofString s ++ Bytes.ofString t := by
  change (s ++ t).toByteArray.data.toList = _
  rw [String.toByteArray_append, ByteArray.data_append, Array.toList_append]
  rfl

namespace Ir

theorem bare_ne_quoted {name text : String} (h : (Bytes.ofString name).all isBareNameByte = true) :
    name ≠ "\"" ++ text := by
  rintro rfl
  rw [Bytes.ofString_append, List.all_append, Bool.and_eq_true] at h
  exact absurd h.1 (by decide)

theorem nameText_injective : Function.Injective nameText := by
  intro s t h
  unfold nameText at h
  dsimp only at h
  by_cases hs : (Bytes.ofString s).all isBareNameByte = true
  · rw [if_pos hs] at h
    by_cases ht : (Bytes.ofString t).all isBareNameByte = true
    · rwa [if_pos ht] at h
    · rw [if_neg ht, String.append_assoc] at h
      exact absurd h (bare_ne_quoted hs)
  · rw [if_neg hs] at h
    by_cases ht : (Bytes.ofString t).all isBareNameByte = true
    · rw [if_pos ht, String.append_assoc] at h
      exact absurd h.symm (bare_ne_quoted ht)
    · rw [if_neg ht] at h
      have hescaped := (String.append_right_inj _).mp ((String.append_left_inj _).mp h)
      exact Bytes.ofString_injective (Text.escape_injective hescaped)

theorem globalName_injective : Function.Injective globalName :=
  fun _ _ h => nameText_injective ((String.append_right_inj _).mp h)

def Module.identifiers (m : Module) : List String :=
  m.functions.map (globalName ·.name) ++ m.globals.map (globalName ·.name)

theorem Module.nodup_identifiers_iff (m : Module) :
    m.identifiers.Nodup ↔ (m.functions.map (·.name) ++ m.globals.map (·.name)).Nodup := by
  have hmap : m.identifiers =
      (m.functions.map (·.name) ++ m.globals.map (·.name)).map globalName := by
    rw [List.map_append, List.map_map, List.map_map]
    rfl
  rw [hmap]
  exact List.nodup_map_iff globalName_injective

end Ir

namespace Lowering

open Relation (ReflTransGen)

section Literals

def literalName (number : Nat) : String := s!".str.{number}"

theorem literalName_injective : Function.Injective literalName := by
  intro m n h
  have hlist := congrArg String.toList h
  simp only [literalName, String.toList_append, List.append_cancel_left_eq] at hlist
  exact Nat.repr_inj.mp (String.toList_inj.mp hlist)

theorem not_isWord_literalName (number : Nat) : ¬IsWord (literalName number) := by
  intro h
  -- A word has no dot in it.
  have hdot : '.' ∈ (literalName number).toList := by
    rw [literalName, String.toList_append]
    exact List.mem_append_left _ (by decide)
  exact absurd (h '.' hdot) (by decide)

end Literals

namespace Progress

/-- The globals are told apart by their names. Each is a variable with a word for a name, or one of
the string literals so far. -/
structure Named (p : Progress) : Prop where
  nodup : (p.globals.map (·.name)).Nodup
  names : ∀ g ∈ p.globals, (IsWord g.name ∧ (p.scope.find? g.name).isSome) ∨
    ∃ number ≤ p.strings, g.name = literalName number

variable {p p' : Progress}

theorem Named.of_eq (hp : p.Named) (hglobals : p'.globals = p.globals)
    (hscope : p'.scope = p.scope) (hstrings : p'.strings = p.strings) : p'.Named := by
  refine ⟨?_, ?_⟩
  · rw [hglobals]
    exact hp.nodup
  · rw [hglobals, hscope, hstrings]
    exact hp.names

theorem Named.append (hp : p.Named) {g : Ir.Global} (hglobals : p'.globals = p.globals ++ [g])
    (hnew : ∀ g' ∈ p.globals, g'.name ≠ g.name)
    (hold : ∀ g' ∈ p.globals, (IsWord g'.name ∧ (p'.scope.find? g'.name).isSome) ∨
      ∃ number ≤ p'.strings, g'.name = literalName number)
    (hname : (IsWord g.name ∧ (p'.scope.find? g.name).isSome) ∨
      ∃ number ≤ p'.strings, g.name = literalName number) : p'.Named := by
  refine ⟨?_, ?_⟩
  · rw [hglobals, List.map_append, List.nodup_append]
    refine ⟨hp.nodup, List.nodup_singleton _, fun name hold name' hname' => ?_⟩
    obtain ⟨g', hg', rfl⟩ := List.mem_map.mp hold
    rw [List.mem_singleton.mp hname']
    exact hnew g' hg'
  · intro g' hg'
    rw [hglobals] at hg'
    rcases List.mem_append.mp hg' with hg' | hg'
    · exact hold g' hg'
    · rw [List.mem_singleton.mp hg']
      exact hname

theorem Named.ne_literalName (hp : p.Named) :
    ∀ g ∈ p.globals, g.name ≠ literalName (p.strings + 1) := by
  intro g hg heq
  rcases hp.names g hg with ⟨hword, -⟩ | ⟨number, hle, hnumber⟩
  · exact not_isWord_literalName _ (heq ▸ hword)
  · -- It has a number that no literal has had.
    have hsame := literalName_injective (hnumber.symm.trans heq)
    omega

theorem Named.literal (hp : p.Named) (value : Bytes)
    (hglobals : p'.globals = p.globals ++ [Emission.literal (p.strings + 1) value])
    (hscope : p'.scope = p.scope) (hstrings : p'.strings = p.strings + 1) : p'.Named := by
  apply hp.append hglobals hp.ne_literalName
  · intro g hg
    rw [hscope]
    refine (hp.names g hg).imp_right fun h => ?_
    obtain ⟨number, hle, hnumber⟩ := h
    exact ⟨number, by omega, hnumber⟩
  · exact .inr ⟨p.strings + 1, hstrings.ge, rfl⟩

theorem Named.declare (hp : p.Named) {name : String} (type : ValueType) (initial : Ir.Constant)
    (hfree : p.scope.find? name = none) (hname : IsWord name)
    (hglobals : p'.globals = p.globals ++ [⟨name, initial, false, false, false⟩])
    (hscope : p'.scope = p.scope.declare ⟨name, type, .module false⟩)
    (hstrings : p'.strings = p.strings) : p'.Named := by
  apply hp.append hglobals
  · intro g hg heq
    change g.name = name at heq
    rcases hp.names g hg with ⟨-, hsome⟩ | ⟨number, -, hnumber⟩
    · rw [heq, hfree] at hsome
      cases hsome
    · exact not_isWord_literalName number (hnumber.symm.trans heq ▸ hname)
  · intro g hg
    rw [hscope, hstrings]
    refine (hp.names g hg).imp_left fun h => ⟨h.1, ?_⟩
    obtain ⟨symbol, hsymbol⟩ := Option.isSome_iff_exists.mp h.2
    rw [Scope.find?_declare _ hsymbol]
    rfl
  · refine .inl ⟨hname, ?_⟩
    have hself : (p.scope.declare ⟨name, type, .module false⟩).find? name = some _ :=
      Scope.find?_declare_self hfree
    rw [hscope, hself]
    rfl

/-- Globals are added, and none with a word for a name that is a key of the table of functions. -/
def Adds (t : FunctionTable) (p p' : Progress) : Prop :=
  ∃ added, p'.globals = p.globals ++ added ∧
    ∀ g ∈ added, IsWord g.name → t.find? g.name = none

variable {t : FunctionTable}

theorem Adds.of_eq (h : p'.globals = p.globals) : p.Adds t p' :=
  ⟨[], by rw [h, List.append_nil], List.forall_mem_nil _⟩

theorem Adds.trans {p'' : Progress} (h : p.Adds t p') (h' : p'.Adds t p'') : p.Adds t p'' := by
  obtain ⟨added, hglobals, hunused⟩ := h
  obtain ⟨added', hglobals', hunused'⟩ := h'
  refine ⟨added ++ added', by rw [hglobals', hglobals, List.append_assoc], fun g hg => ?_⟩
  rcases List.mem_append.mp hg with hg | hg
  · exact hunused g hg
  · exact hunused' g hg

end Progress

namespace State

variable {k : Site} {s s' : State}

theorem named_absorb {σ : Ir.Scene} {strict : Bool} {e : Emission} (hs : s.progress.Named)
    (h : ReflTransGen (Emission.Step σ strict) s.emission e) :
    (s.absorb e).progress.Named ∧ ∀ g ∈ e.globals, ¬IsWord g.name := by
  induction h with
  | refl =>
    exact ⟨hs.of_eq (List.append_nil _) rfl rfl, List.forall_mem_nil _⟩
  | @tail e e' _ hstep ih =>
    obtain ⟨hnamed, hliterals⟩ := ih
    cases hstep with
    | emit hop | perform hop | warn hstrict => exact ⟨hnamed.of_eq rfl rfl rfl, hliterals⟩
    | @string value =>
      -- Nothing else that is emitted adds a global.
      refine ⟨hnamed.literal value ?_ rfl rfl, fun g hg => ?_⟩
      · exact (List.append_assoc ..).symm
      · rcases List.mem_append.mp hg with hg | hg
        · exact hliterals g hg
        · rw [List.mem_singleton.mp hg]
          exact not_isWord_literalName _

theorem Step.named (h : Step k s s') (hwords : k.names = IsWord) (hs : s.progress.Named) :
    s'.progress.Named ∧ s.progress.Adds k.env.functions s'.progress := by
  cases h with
  | @absorb e h =>
    obtain ⟨hnamed, hliterals⟩ := named_absorb hs h
    exact ⟨hnamed, e.globals, rfl, fun g hg hword => absurd hword (hliterals g hg)⟩
  | @declareGlobal name type initial htype hfree hunused hname =>
    rw [hwords] at hname
    refine ⟨hs.declare type initial hfree hname rfl rfl rfl, _, rfl, ?_⟩
    intro g hg _
    rw [List.mem_singleton.mp hg]
    exact hunused
  | _ => exact ⟨hs.of_eq rfl rfl rfl, .of_eq rfl⟩

theorem named_of_steps (h : ReflTransGen (Step k) s s') (hwords : k.names = IsWord)
    (hs : s.progress.Named) : s'.progress.Named ∧ s.progress.Adds k.env.functions s'.progress := by
  induction h with
  | refl => exact ⟨hs, .of_eq rfl⟩
  | tail _ hstep ih =>
    obtain ⟨hnamed, hadds⟩ := hstep.named hwords ih.1
    exact ⟨hnamed, ih.2.trans hadds⟩

end State

theorem FunctionTable.isSome_find?_declare {t : FunctionTable} (key : String) (new : Signature)
    {key' : String} (h : (t.find? key').isSome) : ((t.declare key new).find? key').isSome := by
  rw [find?_declare_eq, Option.isSome_or, h]
  rfl

theorem FunctionTable.isSome_find?_declare_self (t : FunctionTable) (key : String)
    (new : Signature) : ((t.declare key new).find? key).isSome := by
  rw [find?_declare_eq, if_pos rfl, Option.isSome_or, Option.isSome_some, Bool.or_true]

/-- The names for the linker that no source can call a function by. -/
def Builtin.linkNames : List String := (all.filter fun b => b.key ≠ b.symbol).map (·.symbol)

namespace Compilation

variable {c c' : Compilation} {new : List String}

def names (c : Compilation) : List String :=
  c.functions.map (·.name) ++ c.progress.globals.map (·.name)

theorem functions_toModule (c : Compilation) :
    c.toModule.functions.map (·.name) = c.functions.map (·.name) := by
  apply map_modify_eq
  intro f
  rfl

theorem nodup_identifiers_toModule (c : Compilation) :
    c.toModule.identifiers.Nodup ↔ c.names.Nodup := by
  rw [Ir.Module.nodup_identifiers_iff, functions_toModule]
  rfl

structure Defines (c c' : Compilation) (new : List String) : Prop where
  functions : c'.functions.map (·.name) = c.functions.map (·.name) ++ new
  nodup : new.Nodup
  free : ∀ name ∈ new, IsWord name ∧ name ≠ initName ∧ c.table.find? name = none
  listed : ∀ name ∈ new, (c'.table.find? name).isSome
  table : ∀ key, (c.table.find? key).isSome → (c'.table.find? key).isSome

theorem Defines.refl (c : Compilation) : c.Defines c [] where
  functions := (List.append_nil _).symm
  nodup := List.nodup_nil
  free _ h := absurd h List.not_mem_nil
  listed _ h := absurd h List.not_mem_nil
  table _ h := h

variable {c'' : Compilation} {name : String}

theorem Defines.of_eq (h : c.Defines c' new)
    (hfunctions : c''.functions.map (·.name) = c'.functions.map (·.name))
    (htable : c''.table = c'.table) : c.Defines c'' new where
  functions := hfunctions.trans h.functions
  nodup := h.nodup
  free := h.free
  listed name hname := htable ▸ h.listed name hname
  table key hkey := htable ▸ h.table key hkey

theorem defines_define {pos : Position} {params : List Param} {returns : Option String}
    {body : List Stmt} {d : Definition} (h : c.define pos name params returns body = .ok (c', d))
    (hname : IsWord name) : c.Defines c' [name] := by
  obtain ⟨hfree, hinit, result, types, -, -, -, rfl⟩ := define_eq_ok h
  refine ⟨List.map_append, List.nodup_singleton _, fun name' h' => ?_, fun name' h' => ?_,
    fun key hkey => FunctionTable.isSome_find?_declare _ _ hkey⟩
  · rw [List.mem_singleton.mp h']
    exact ⟨hname, hinit, hfree⟩
  · rw [List.mem_singleton.mp h']
    exact FunctionTable.isSome_find?_declare_self ..

theorem Defines.trans {new' : List String} (h : c.Defines c' new)
    (h' : c'.Defines c'' new') : c.Defines c'' (new ++ new') where
  functions := by rw [h'.functions, h.functions, List.append_assoc]
  nodup := by
    rw [List.nodup_append]
    refine ⟨h.nodup, h'.nodup, fun name hname name' hname' heq => ?_⟩
    have hlisted := h.listed name hname
    rw [heq, (h'.free name' hname').2.2] at hlisted
    cases hlisted
  free name hname := by
    rcases List.mem_append.mp hname with hname | hname
    · exact h.free name hname
    · obtain ⟨hword, hinit, hfree⟩ := h'.free name hname
      refine ⟨hword, hinit, Option.not_isSome_iff_eq_none.mp fun hsome => ?_⟩
      have hsome' := h.table name hsome
      rw [hfree] at hsome'
      cases hsome'
  listed name hname := by
    rcases List.mem_append.mp hname with hname | hname
    · exact h'.table name (h.listed name hname)
    · exact h'.listed name hname
  table key hkey := h'.table key (h.table key hkey)

theorem defines_declareAll (unit : List Stmt) (hunit : ∀ st ∈ unit, Parser.Words st)
    (c : Compilation) : ∃ new, c.Defines (c.declareAll unit).1 new := by
  induction unit generalizing c with
  | nil => exact ⟨[], .refl c⟩
  | cons st unit ih =>
    have hrest : ∀ st' ∈ unit, Parser.Words st' := fun st' h => hunit st' (List.mem_cons_of_mem _ h)
    cases st with
    | define pos name params returns body =>
      have hname : IsWord name := (hunit _ (List.mem_cons_self ..)).defined name rfl
      rw [declareAll]
      cases h : c.define pos name params returns body with
      | error e =>
        obtain ⟨new, hnew⟩ := ih hrest (c.report e)
        have hreport : c.Defines (c.report e) [] := (Defines.refl c).of_eq rfl rfl
        exact ⟨_, hreport.trans hnew⟩
      | ok r =>
        obtain ⟨new, hnew⟩ := ih hrest r.1
        exact ⟨_, (defines_define h hname).trans hnew⟩
    | _ => exact ih hrest c

/-- What is known of names at any time. The functions of sources are in the table; of the others,
those are that are called by their own names. -/
structure Named (c : Compilation) : Prop where
  functions : ∃ defined, c.functions.map (·.name) =
      Builtin.all.map (·.symbol) ++ initName :: defined ∧ (initName :: defined).Nodup ∧
    ∀ name ∈ defined, IsWord name ∧ (c.table.find? name).isSome
  keys : ∀ b ∈ Builtin.all, (c.table.find? b.key).isSome
  globals : c.progress.Named

theorem Named.defines (hc : c.Named) (h : c.Defines c' new) (hprogress : c'.progress.Named) :
    c'.Named := by
  obtain ⟨defined, hfunctions, hnodup, hlisted⟩ := hc.functions
  refine ⟨⟨defined ++ new, ?_, ?_, ?_⟩, fun b hb => h.table _ (hc.keys b hb), hprogress⟩
  · rw [h.functions, hfunctions, List.append_assoc, List.cons_append]
  · rw [← List.cons_append, List.nodup_append]
    refine ⟨hnodup, h.nodup, fun name hname name' hname' heq => ?_⟩
    obtain ⟨-, hinit, hfree⟩ := h.free name' hname'
    rcases List.mem_cons.mp hname with rfl | hname
    · exact hinit heq.symm
    · have hsome := (hlisted name hname).2
      rw [heq, hfree] at hsome
      cases hsome
  · intro name hname
    rcases List.mem_append.mp hname with hname | hname
    · exact ⟨(hlisted name hname).1, h.table _ (hlisted name hname).2⟩
    · exact ⟨(h.free name hname).1, h.listed name hname⟩

/-- A function has a word for a name, and unless it is known to the linker only, the name is in the
table. -/
theorem Named.of_mem_functions (hc : c.Named) (h : name ∈ c.functions.map (·.name)) : IsWord name ∧
      (name ∈ Builtin.linkNames ∨ name = initName ∨ (c.table.find? name).isSome) := by
  obtain ⟨defined, hfunctions, -, hlisted⟩ := hc.functions
  rw [hfunctions] at h
  rcases List.mem_append.mp h with h | h
  · have hwords : ∀ name ∈ Builtin.all.map (·.symbol), IsWord name := by decide
    refine ⟨hwords name h, ?_⟩
    obtain ⟨b, hb, rfl⟩ := List.mem_map.mp h
    -- A builtin function is in the table by its key, which may be another name.
    by_cases hkey : b.key = b.symbol
    · exact .inr (.inr (hkey ▸ hc.keys b hb))
    · have hfilter : b ∈ Builtin.all.filter fun b => b.key ≠ b.symbol :=
        List.mem_filter.mpr ⟨hb, decide_eq_true hkey⟩
      exact .inl (List.mem_map_of_mem hfilter)
  · rcases List.mem_cons.mp h with rfl | h
    · exact ⟨by decide, .inr (.inl rfl)⟩
    · exact ⟨(hlisted name h).1, .inr (.inr (hlisted name h).2)⟩

theorem Named.mem_functions_of_mem_linkNames (hc : c.Named) (h : name ∈ Builtin.linkNames) :
    name ∈ c.functions.map (·.name) := by
  obtain ⟨defined, hfunctions, -, -⟩ := hc.functions
  have hsubset : ∀ name ∈ Builtin.linkNames, name ∈ Builtin.all.map (·.symbol) := by decide
  rw [hfunctions]
  exact List.mem_append_left _ (hsubset name h)

theorem Named.initName_mem_functions (hc : c.Named) : initName ∈ c.functions.map (·.name) := by
  obtain ⟨defined, hfunctions, -, -⟩ := hc.functions
  rw [hfunctions]
  exact List.mem_append_right _ (List.mem_cons_self ..)

/-- What is new in a compilation has names that nothing else has: functions do not have that of an
older global, globals do not have that of the function for code outside of functions, and neither
have a name that is for the linker only. -/
def Fresh (c c' : Compilation) : Prop :=
  (∀ f ∈ c'.functions.drop c.functions.length,
      f.name ∉ Builtin.linkNames ∧ f.name ∉ c.progress.globals.map (·.name)) ∧
    ∀ g ∈ c'.progress.globals.drop c.progress.globals.length,
      g.name ∉ Builtin.linkNames ∧ g.name ≠ initName

instance (c c' : Compilation) : Decidable (c.Fresh c') := inferInstanceAs (Decidable (_ ∧ _))

structure Adds (c c' : Compilation) (functions globals : List String) : Prop where
  defines : c.Defines c' functions
  makes : c'.progress.globals.map (·.name) = c.progress.globals.map (·.name) ++ globals
  unused : ∀ name ∈ globals, IsWord name → c'.table.find? name = none

variable {functions globals : List String}

theorem Adds.fresh_iff (h : c.Adds c' functions globals) : c.Fresh c' ↔
    (∀ name ∈ functions, name ∉ Builtin.linkNames ∧ name ∉ c.progress.globals.map (·.name)) ∧
      ∀ name ∈ globals, name ∉ Builtin.linkNames ∧ name ≠ initName := by
  have hfunctions : (c'.functions.drop c.functions.length).map (·.name) = functions := by
    rw [List.map_drop, h.defines.functions]
    exact List.drop_left' (List.length_map _)
  have hglobals : (c'.progress.globals.drop c.progress.globals.length).map (·.name) = globals := by
    rw [List.map_drop, h.makes]
    exact List.drop_left' (List.length_map _)
  unfold Fresh
  rw [← hfunctions, ← hglobals, List.forall_mem_map, List.forall_mem_map]

theorem Adds.nodup_names_iff (h : c.Adds c' functions globals) (hc : c.Named) (hc' : c'.Named) :
    c'.names.Nodup ↔ c.names.Nodup ∧ c.Fresh c' := by
  rw [h.fresh_iff]
  unfold names
  rw [h.defines.functions, h.makes]
  have hglobals := hc'.globals.nodup
  rw [h.makes] at hglobals
  constructor
  · intro hnodup
    -- What is new is none of the old names, and among those are all that are to be avoided.
    have hsublist : (c.functions.map (·.name) ++ c.progress.globals.map (·.name)).Sublist
        ((c.functions.map (·.name) ++ functions) ++ (c.progress.globals.map (·.name) ++ globals)) :=
      (List.sublist_append_left _ _).append (List.sublist_append_left _ _)
    obtain ⟨hfunctions, -, happart⟩ := List.nodup_append.mp hnodup
    obtain ⟨-, -, hdefined⟩ := List.nodup_append.mp hfunctions
    refine ⟨hnodup.sublist hsublist, fun name hname => ⟨fun hlink => ?_, fun hglobal => ?_⟩,
      fun name hname => ⟨fun hlink => ?_, fun hinit => ?_⟩⟩
    · exact hdefined name (hc.mem_functions_of_mem_linkNames hlink) name hname rfl
    · exact happart name (List.mem_append_right _ hname) name (List.mem_append_left _ hglobal) rfl
    · exact happart name (List.mem_append_left _ (hc.mem_functions_of_mem_linkNames hlink)) name
        (List.mem_append_right _ hname) rfl
    · exact happart name (List.mem_append_left _ (hinit ▸ hc.initName_mem_functions)) name
        (List.mem_append_right _ hname) rfl
  · rintro ⟨hnodup, hfreshFunctions, hfreshGlobals⟩
    obtain ⟨hold, -, holdApart⟩ := List.nodup_append.mp hnodup
    -- The name of a function that is defined is free, also if it is that of a function before.
    have hdefined : (c.functions.map (·.name) ++ functions).Nodup := by
      refine List.nodup_append.mpr ⟨hold, h.defines.nodup, fun name hname name' hname' heq => ?_⟩
      subst heq
      obtain ⟨-, hinit, hfree⟩ := h.defines.free name hname'
      rcases (hc.of_mem_functions hname).2 with hlink | hname | hsome
      · exact (hfreshFunctions name hname').1 hlink
      · exact hinit hname
      · rw [hfree] at hsome
        cases hsome
    refine List.nodup_append.mpr ⟨hdefined, hglobals, fun name hname name' hname' heq => ?_⟩
    subst heq
    rcases List.mem_append.mp hname' with hglobal | hglobal
    · rcases List.mem_append.mp hname with hname | hname
      · exact holdApart name hname name hglobal rfl
      · exact (hfreshFunctions name hname).2 hglobal
    · -- A variable is made only if the table does not have its name.
      rw [← h.defines.functions] at hname
      obtain ⟨hword, hlink | hinit | hsome⟩ := hc'.of_mem_functions hname
      · exact (hfreshGlobals name hglobal).1 hlink
      · exact (hfreshGlobals name hglobal).2 hinit
      · rw [h.unused name hglobal hword] at hsome
        cases hsome

theorem Evolves.named (h : c.Evolves IsWord c') (hc : c.progress.Named) :
    c'.table = c.table ∧ c'.functions.map (·.name) = c.functions.map (·.name) ∧
      c'.progress.Named ∧ c.progress.Adds c.table c'.progress := by
  obtain ⟨k, henv, hwords, s, s', hs, hs', hsteps⟩ := h.steps
  obtain ⟨hnamed, hadds⟩ := State.named_of_steps hsteps hwords (hs ▸ hc)
  have hheaders := congrArg (List.map Ir.Function.name) h.headers
  rw [List.map_map, List.map_map] at hheaders
  rw [hs, hs', henv] at hadds
  exact ⟨congrArg Environment.functions h.environment, hheaders, hs' ▸ hnamed, hadds⟩

theorem Named.lowerUnit (hc : c.Named) (hlawful : c.Lawful) {unit : List Stmt}
    (hunit : ∀ st ∈ unit, Parser.Words st) :
    (c.lowerUnit unit).Lawful ∧ (c.lowerUnit unit).Named ∧
      ((c.lowerUnit unit).names.Nodup ↔ c.names.Nodup ∧ c.Fresh (c.lowerUnit unit)) := by
  obtain ⟨new, hdefines⟩ := defines_declareAll unit hunit c
  obtain ⟨added, hprogress⟩ := (declares_declareAll unit c).progress
  set c1 := (c.declareAll unit).1
  have hnamed : c1.progress.Named := by
    rw [hprogress]
    exact hc.globals.of_eq rfl rfl rfl
  -- From now on the table and the functions stay as they are.
  let P (c' : Compilation) : Prop := c'.table = c1.table ∧
    c'.functions.map (·.name) = c1.functions.map (·.name) ∧ c'.progress.Named ∧
    c1.progress.Adds c1.table c'.progress
  have hevolves (c2 c3 : Compilation) (h : c2.Evolves IsWord c3) (hP : P c2) : P c3 := by
    obtain ⟨htable, hfunctions, hnamed2, hadds⟩ := hP
    obtain ⟨htable3, hfunctions3, hnamed3, hadds3⟩ := h.named hnamed2
    rw [htable] at hadds3
    exact ⟨htable3.trans htable, hfunctions3.trans hfunctions, hnamed3, hadds.trans hadds3⟩
  obtain ⟨hlawful', htable, hfunctions, hnamed', globals, hglobals, hunused⟩ :=
    hlawful.lowerUnit IsWord hevolves unit (Parser.words_all hunit) ⟨rfl, rfl, hnamed, .of_eq rfl⟩
  have hdefines' : c.Defines (c.lowerUnit unit) new := hdefines.of_eq hfunctions htable
  have hc' := hc.defines hdefines' hnamed'
  have hadds : c.Adds (c.lowerUnit unit) new (globals.map (·.name)) := by
    refine ⟨hdefines', ?_, fun name hname hword => ?_⟩
    · rw [hglobals, hprogress, List.map_append]
    · obtain ⟨g, hg, rfl⟩ := List.mem_map.mp hname
      rw [htable]
      exact hunused g hg hword
  exact ⟨hlawful', hc', hadds.nodup_names_iff hc hc'⟩

theorem named_start (board : Board) (strict : Bool) : (start board strict .numeric).Named where
  functions := ⟨[], rfl, List.nodup_singleton _, List.forall_mem_nil _⟩
  keys := by
    have hkeys : ∀ b ∈ Builtin.all, (Builtin.table.find? b.key).isSome := by decide
    exact hkeys
  globals := by
    have hnames : ∀ g ∈ Builtin.globals, IsWord g.name ∧ (Builtin.scope.find? g.name).isSome := by
      decide
    have hnodup : (Builtin.globals.map (·.name)).Nodup := by decide
    exact ⟨hnodup, fun g hg => .inl (hnames g hg)⟩

def FreshAll : Compilation → List Bytes → Prop
  | _, [] => True
  | c, source :: sources =>
    c.Fresh (c.addSources [source]) ∧ (c.addSources [source]).FreshAll sources

instance decidableFreshAll : (c : Compilation) → (sources : List Bytes) →
    Decidable (c.FreshAll sources)
  | _, [] => inferInstanceAs (Decidable True)
  | c, source :: sources =>
    have := decidableFreshAll (c.addSources [source]) sources
    inferInstanceAs (Decidable (_ ∧ _))

theorem Named.addSource (hc : c.Named) (hlawful : c.Lawful) (source : Bytes) :
    (c.addSources [source]).Lawful ∧ (c.addSources [source]).Named ∧
      ((c.addSources [source]).names.Nodup ↔
        c.names.Nodup ∧ c.Fresh (c.addSources [source])) := by
  rw [addSources, addSources]
  cases h : c.addSource source with
  | error stop =>
    have hfresh : c.Fresh c := by
      unfold Fresh
      rw [List.drop_length, List.drop_length]
      exact ⟨List.forall_mem_nil _, List.forall_mem_nil _⟩
    exact ⟨hlawful, hc, fun hnodup => ⟨hnodup, hfresh⟩, And.left⟩
  | ok c' =>
    obtain ⟨-, rfl⟩ := addSource_eq_ok h
    exact hc.lowerUnit hlawful (words_parseSource source)

theorem Named.addSources (hc : c.Named) (hlawful : c.Lawful) (sources : List Bytes) :
    (c.addSources sources).Named ∧
      ((c.addSources sources).names.Nodup ↔ c.names.Nodup ∧ c.FreshAll sources) := by
  induction sources generalizing c with
  | nil => exact ⟨hc, (and_iff_left trivial).symm⟩
  | cons source sources ih =>
    obtain ⟨hlawful', hc', hstep⟩ := hc.addSource hlawful source
    -- The first source decides about its own names, and the others go on from there.
    obtain ⟨hnamed, hrun⟩ := ih hc' hlawful'
    have hcons : c.addSources (source :: sources) =
        (c.addSources [source]).addSources sources := rfl
    rw [hcons, hrun, hstep, and_assoc]
    exact ⟨hnamed, Iff.rfl⟩

/-- No two globals of a module have the same name, and no two functions that it defines. All names
are different if and only if each source brings fresh names. -/
theorem identifiers_nodup_iff_fresh (board : Board) (strict : Bool) (sources : List Bytes) :
    let M := ((start board strict .numeric).addSources sources).toModule
    (M.globals.map (·.name)).Nodup ∧ ((M.functions.drop Builtin.all.length).map (·.name)).Nodup ∧
      (M.identifiers.Nodup ↔ (start board strict .numeric).FreshAll sources) := by
  intro M
  obtain ⟨hnamed, hnodup⟩ :=
    (named_start board strict).addSources (lawful_start board strict) sources
  have hstart : (start board strict .numeric).names.Nodup := by
    have hfixed : (Builtin.all.map (·.symbol) ++ [initName] ++
        Builtin.globals.map (·.name)).Nodup := by
      decide
    exact hfixed
  refine ⟨hnamed.globals.nodup, ?_, ?_⟩
  · obtain ⟨defined, hfunctions, hdefined, -⟩ := hnamed.functions
    rw [List.map_drop, functions_toModule, hfunctions, List.drop_left' (List.length_map _)]
    exact hdefined
  · rw [nodup_identifiers_toModule, hnodup]
    exact and_iff_right hstart

section Sample

/-- A variable, a function and two string literals. -/
def counting : Bytes :=
  .ofString ("größe = 0\ndef tick(step: i8):\n    global größe\n    print(\"on\")\n" ++
    "    größe = größe + step\n    print(\"off\")\n")

/-- Uses the names of the source before, and a local variable with the name of a function. -/
def ticking : Bytes := .ofString "limit = größe\ndef setup():\n    loop = 3\n    tick(loop)\n"

theorem counting_ticking_nodup :
    let c := (start .uno true .numeric).addSources [counting, ticking]
    c.diagnostics.hasErrors = false ∧ c.toModule.identifiers.length = 23 ∧
      (start .uno true .numeric).FreshAll [counting, ticking] ∧ c.toModule.identifiers.Nodup := by
  have hfresh : (start .uno true .numeric).FreshAll [counting, ticking] := by decide +kernel
  have hnodup := (identifiers_nodup_iff_fresh .uno true [counting, ticking]).2.2.mpr hfresh
  exact ⟨by decide +kernel, by decide +kernel, hfresh, hnodup⟩

/-- Sources give a module in which an identifier stands for two things. -/
def Clash (sources : List Bytes) : Prop :=
  ∃ M, ((start .uno true .numeric).addSources sources).module? = some M ∧ ¬M.identifiers.Nodup

theorem clash_of_accepted {sources : List Bytes}
    (h : ((start .uno true .numeric).addSources sources).diagnostics.hasErrors = false ∧
      ¬((start .uno true .numeric).addSources sources).toModule.identifiers.Nodup) :
    Clash sources :=
  ⟨_, if_neg (Bool.eq_false_iff.mp h.1), h.2⟩

/-- A function has the name of a constant or of an older variable, a variable has the name of the
function for code outside of functions, and either has a name that is for the linker only. -/
theorem accepted_identifiers_clash :
    Clash [.ofString "def LOW():\n    pass\n"] ∧
      Clash [.ofString "x = 1\n", .ofString "def x():\n    pass\n"] ∧
      Clash [.ofString "__dsp_init = 1\n"] ∧
      Clash [.ofString "def dsp_delay():\n    pass\n"] ∧
      Clash [.ofString "dsp_delay = 1\n"] := by
  refine ⟨clash_of_accepted ?_, clash_of_accepted ?_, clash_of_accepted ?_, clash_of_accepted ?_,
    clash_of_accepted ?_⟩ <;> decide +kernel

end Sample

end Compilation

end Lowering

end BoardPython
