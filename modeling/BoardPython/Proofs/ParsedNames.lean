import BoardPython.Proofs.ParserRuns
import BoardPython.Proofs.TokenContents

/-! The texts of tokens. A name consists of letters, digits and underscores, and it is no keyword; a
number has no sign. -/
namespace BoardPython

open Token (Kind)
open Bytes (ascii)

mutual

def Stmt.assigned : Stmt → List String
  | .assign _ name _ _ => [name]
  | .define _ _ _ _ body => assignedAll body
  | .branch _ _ yes no => assignedAll yes ++ assignedAll no
  | .loop _ _ body => assignedAll body
  | _ => []

def assignedAll : List Stmt → List String
  | [] => []
  | s :: rest => s.assigned ++ assignedAll rest

end

theorem assigned_subset_assignedAll {st : Stmt} {ss : List Stmt} (h : st ∈ ss) :
    st.assigned ⊆ assignedAll ss := by
  induction h with
  | head => exact List.subset_append_left _ _
  | tail _ _ ih => exact List.subset_append_of_subset_right _ ih

def Stmt.defined? : Stmt → Option String
  | .define _ name _ _ _ => some name
  | _ => none

/-- A name that can be written in a source. -/
def IsWord (name : String) : Prop := ∀ c ∈ name.toList, Token.Scan.isNameChar c = true

instance (name : String) : Decidable (IsWord name) :=
  decidable_of_iff (name.toList.all Token.Scan.isNameChar = true) List.all_eq_true

namespace Text.Utf8

variable {bs rest : Bytes} {c : Char}

theorem toNat_ofNat_eq (n : Nat) : (Char.ofNat n).toNat = n ∨ (Char.ofNat n).toNat = 0 := by
  unfold Char.ofNat
  split
  · exact .inl rfl
  · exact .inr rfl

theorem decode?_eq_some (h : decode? bs = some (c, rest)) :
    ∃ u, bs = u ++ rest ∧ (∀ w, decode? (u ++ w) = some (c, w)) ∧
      (0 < c.toNat → c.toNat < 0x80 → u = [ascii c]) := by
  have hlarge {n : Nat} {u : Bytes} (hn : 0x80 ≤ n) (hpos : 0 < (Char.ofNat n).toNat)
      (hlt : (Char.ofNat n).toNat < 0x80) : u = [ascii (Char.ofNat n)] := by
    rcases toNat_ofNat_eq n with heq | heq <;> omega
  rcases bs with _ | ⟨a, bs⟩
  · cases h
  -- The first byte tells how many there are: one, two, three or four.
  by_cases h1 : a.toNat < 0x80
  · simp only [decode?, if_pos h1, Option.some.injEq, Prod.mk.injEq] at h
    obtain ⟨rfl, rfl⟩ := h
    refine ⟨[a], rfl, fun w => ?_, fun hpos _ => ?_⟩
    · simp only [List.singleton_append, decode?, if_pos h1]
    · rcases toNat_ofNat_eq a.toNat with heq | heq
      · exact congrArg ([·]) (UInt8.ofNat_toNat.symm.trans (congrArg UInt8.ofNat heq.symm))
      · omega
  by_cases h2 : (0xC2 ≤ a.toNat && a.toNat ≤ 0xDF) = true
  · rcases bs with _ | ⟨b, bs⟩
    · simp only [decode?, if_neg h1, if_pos h2] at h
      cases h
    simp only [decode?, if_neg h1, if_pos h2] at h
    obtain ⟨hb, h⟩ := Option.ite_none_right_eq_some.mp h
    obtain ⟨rfl, rfl⟩ := Prod.mk.inj (Option.some.inj h)
    refine ⟨[a, b], rfl, fun w => ?_, hlarge ?_⟩
    · simp only [List.cons_append, List.nil_append, decode?, if_neg h1, if_pos h2, if_pos hb]
    · simp only [isContinuation, Bool.and_eq_true, decide_eq_true_eq] at h2 hb
      omega
  by_cases h3 : (0xE0 ≤ a.toNat && a.toNat ≤ 0xEF) = true
  · rcases bs with _ | ⟨b, _ | ⟨d, bs⟩⟩
    · simp only [decode?, if_neg h1, if_neg h2, if_pos h3] at h
      cases h
    · simp only [decode?, if_neg h1, if_neg h2, if_pos h3] at h
      cases h
    simp only [decode?, if_neg h1, if_neg h2, if_pos h3] at h
    obtain ⟨hb, h⟩ := Option.ite_none_right_eq_some.mp h
    obtain ⟨rfl, rfl⟩ := Prod.mk.inj (Option.some.inj h)
    refine ⟨[a, b, d], rfl, fun w => ?_, hlarge ?_⟩
    · simp only [List.cons_append, List.nil_append, decode?, if_neg h1, if_neg h2, if_pos h3,
        if_pos hb]
    · simp only [isContinuation, Bool.and_eq_true, decide_eq_true_eq] at h3 hb
      split at hb <;> omega
  by_cases h4 : (0xF0 ≤ a.toNat && a.toNat ≤ 0xF4) = true
  · rcases bs with _ | ⟨b, _ | ⟨d, _ | ⟨e, bs⟩⟩⟩
    · simp only [decode?, if_neg h1, if_neg h2, if_neg h3, if_pos h4] at h
      cases h
    · simp only [decode?, if_neg h1, if_neg h2, if_neg h3, if_pos h4] at h
      cases h
    · simp only [decode?, if_neg h1, if_neg h2, if_neg h3, if_pos h4] at h
      cases h
    simp only [decode?, if_neg h1, if_neg h2, if_neg h3, if_pos h4] at h
    obtain ⟨hb, h⟩ := Option.ite_none_right_eq_some.mp h
    obtain ⟨rfl, rfl⟩ := Prod.mk.inj (Option.some.inj h)
    refine ⟨[a, b, d, e], rfl, fun w => ?_, hlarge ?_⟩
    · simp only [List.cons_append, List.nil_append, decode?, if_neg h1, if_neg h2, if_neg h3,
        if_pos h4, if_pos hb]
    · simp only [isContinuation, Bool.and_eq_true, decide_eq_true_eq] at h4 hb
      split at hb <;> omega
  · simp only [decode?, if_neg h1, if_neg h2, if_neg h3, if_neg h4] at h
    cases h

theorem pieces_of_decode? (h : decode? bs = some (c, rest)) :
    pieces bs = .inl c :: pieces rest := by
  rw [pieces]
  split
  · rename_i c' rest' h'
    rw [h] at h'
    obtain ⟨rfl, rfl⟩ := Prod.mk.inj (Option.some.inj h')
    rfl
  · rename_i h'
    rw [h] at h'
    cases h'

end Text.Utf8

namespace Token.Scan

theorem isNameChar_zero : isNameChar '\x00' = false := by decide

/-- What a name takes up decodes to its characters, all of which can stand in a name. A name of
ASCII characters takes up their own bytes. -/
theorem nameSpan_eq {bs after : Bytes} {cs : List Char} (h : nameSpan bs = (cs, after)) :
    ∃ u, bs = u ++ after ∧ Text.Utf8.pieces u = cs.map .inl ∧ (∀ c ∈ cs, isNameChar c = true) ∧
      ((∀ c ∈ cs, c.toNat < 0x80) → u = cs.map ascii) := by
  induction hn : bs.length using Nat.strongRecOn generalizing bs cs with
  | ind n ih =>
    have hnone : ∃ u, bs = u ++ bs ∧ Text.Utf8.pieces u = ([] : List Char).map .inl ∧
        (∀ c ∈ ([] : List Char), isNameChar c = true) ∧
        ((∀ c ∈ ([] : List Char), c.toNat < 0x80) → u = [].map ascii) := by
      refine ⟨[], rfl, ?_, by simp, fun _ => rfl⟩
      simp [Text.Utf8.pieces, Text.Utf8.decode?]
    rw [nameSpan] at h
    split at h
    · rename_i c rest hdecode
      split at h
      · rename_i hc
        obtain ⟨rfl, rfl⟩ := Prod.mk.inj h
        -- The character takes up `v`, and the rest of the name what is found by induction.
        have hlt := Text.Utf8.decode?_length hdecode
        obtain ⟨v, rfl, hv, hascii⟩ := Text.Utf8.decode?_eq_some hdecode
        obtain ⟨u, hu, hpieces, hall, hbytes⟩ :=
          ih rest.length (hn ▸ hlt) (Eq.refl (nameSpan rest)) rfl
        refine ⟨v ++ u, by rw [List.append_assoc, ← hu], ?_, List.forall_mem_cons.mpr ⟨hc, hall⟩, ?_⟩
        · rw [Text.Utf8.pieces_of_decode? (hv u), hpieces]
          rfl
        · intro hsmall
          obtain ⟨hfirst, hrest⟩ := List.forall_mem_cons.mp hsmall
          have hpos : 0 < c.toNat := by
            refine Nat.pos_of_ne_zero fun hzero => ?_
            rw [← Char.ofNat_toNat c, hzero] at hc
            exact absurd hc (by rw [isNameChar_zero]; decide)
          rw [hascii hpos hfirst, hbytes hrest]
          rfl
      · obtain ⟨rfl, rfl⟩ := Prod.mk.inj h
        exact hnone
    · obtain ⟨rfl, rfl⟩ := Prod.mk.inj h
      exact hnone

theorem nameSpan_ne_nil {bs : Bytes} (h : startsName bs = true) : (nameSpan bs).1 ≠ [] := by
  unfold startsName at h
  rw [nameSpan]
  split at h
  · rename_i c rest hdecode
    have hc : isNameChar c = true := by simp only [isNameChar, h, Bool.true_or]
    split
    · rename_i c' rest' hdecode'
      obtain ⟨rfl, rfl⟩ := Prod.mk.inj (Option.some.inj (hdecode'.symm.trans hdecode))
      rw [if_pos hc]
      exact List.cons_ne_nil _ _
    · rename_i hdecode'
      cases hdecode'.symm.trans hdecode
  · cases h

end Token.Scan

/-- A name of the language. -/
structure IsName (name : String) : Prop where
  word : IsWord name
  nonempty : name ≠ ""
  noKeyword : ∀ k ∈ Kind.keywords, name ≠ k.name

namespace Number

theorem splitSign_fst {text : Bytes} (h : text.head? ≠ some (ascii '-')) :
    (splitSign text).1 = false := by
  unfold splitSign
  split
  · rename_i b rest
    have hb : (b == ascii '-') = false := beq_eq_false_iff_ne.mpr fun heq => h (heq ▸ rfl)
    rw [hb]
    split <;> rfl
  · rfl

theorem nonneg_of_read {text : Bytes} {n : Int} (h : Numeral.read text = .ok (.int n))
    (hsign : (withoutUnderscores text).head? ≠ some (ascii '-')) : 0 ≤ n := by
  have hinteger (hn : readInteger (withoutUnderscores text) = some n) : 0 ≤ n := by
    have heq (t : Bytes) : readInteger t = (readNatural 10 (splitSign t).2).bind fun m =>
        some (if (splitSign t).1 then -(m : Int) else m) := by
      rw [readInteger]
      dsimp only
      cases readNatural 10 (splitSign t).2 <;> rfl
    rw [heq, splitSign_fst hsign] at hn
    obtain ⟨m, -, hm⟩ := Option.bind_eq_some_iff.mp hn
    rw [← Option.some.inj hm]
    exact Int.natCast_nonneg m
  unfold Numeral.read at h
  dsimp only at h
  split at h
  · split at h
    · cases h
      exact Int.natCast_nonneg _
    · cases h
  split at h
  · split at h <;> cases h
  split at h
  · split at h <;> cases h
  split at h
  · rename_i m hm
    cases h
    exact hinteger hm
  · cases h

end Number

namespace Lexer

open Token.Scan

structure Legible (x : Kind × Bytes) : Prop where
  name : x.1 = .identifier → IsName (Text.Utf8.toString x.2)
  none : x.1 = .kwNone → Text.Utf8.toString x.2 = Kind.kwNone.name
  number : x.1 = .number → ∀ n, Number.Numeral.read x.2 = .ok (.int n) → 0 ≤ n

variable {text rest : Bytes} {s : Lexer}

theorem legible_of_notMem {kind : Kind} (h : kind ∉ [.identifier, .kwNone, .number]) :
    Legible (kind, text) := by
  simp only [List.mem_cons, List.not_mem_nil, or_false, not_or] at h
  exact ⟨fun hk => absurd hk h.1, fun hk => absurd hk h.2.1, fun hk => absurd hk h.2.2⟩

theorem wordText_eq (rest : Bytes) :
    ∃ cs, cs = (nameSpan rest).1 ∧ (Text.Utf8.toString (wordText rest)).toList = cs ∧
      (∀ c ∈ cs, isNameChar c = true) ∧
      ((∀ c ∈ cs, c.toNat < 0x80) → wordText rest = cs.map ascii) := by
  obtain ⟨u, hu, hpieces, hall, hbytes⟩ := nameSpan_eq (Eq.refl (nameSpan rest))
  have htake : wordText rest = u := by
    have hlength := congrArg List.length hu
    rw [List.length_append] at hlength
    rw [wordText, hlength, Nat.add_sub_cancel]
    exact hu ▸ List.take_left
  refine ⟨_, rfl, ?_, hall, htake ▸ hbytes⟩
  rw [htake, Text.Utf8.toString, hpieces, List.map_map, String.toList_ofList]
  exact List.map_id _

theorem isName_wordText (hstart : startsName rest = true)
    (hkind : wordKind (wordText rest) = .identifier) :
    IsName (Text.Utf8.toString (wordText rest)) := by
  obtain ⟨cs, hcs, hlist, hall, hbytes⟩ := wordText_eq rest
  refine ⟨fun c hc => hall c (hlist ▸ hc), fun hempty => ?_, fun k hk hname => ?_⟩
  · rw [hempty] at hlist
    exact nameSpan_ne_nil hstart (hcs.symm.trans hlist.symm)
  · -- The bytes would be those of the keyword.
    have hkeywords : ∀ k ∈ Kind.keywords, (k.name.toList.all fun c => c.toNat < 0x80) = true ∧
        wordKind (k.name.toList.map ascii) ≠ .identifier := by decide
    obtain ⟨hascii, hno⟩ := hkeywords k hk
    rw [hname] at hlist
    rw [hbytes (by simpa [← hlist] using hascii), ← hlist] at hkind
    exact hno hkind

theorem head?_ne_minus (hstart : startsNumber rest = true) (length : Nat) :
    (Number.withoutUnderscores (rest.take length)).head? ≠ some (ascii '-') := by
  have hminus : ∀ a : UInt8, a = ascii '_' ∨ a = ascii '-' → Bytes.isDigit a = false ∧
      a ≠ ascii '.' := by
    rintro _ (rfl | rfl) <;> decide
  rcases rest with _ | ⟨a, rest⟩
  · cases hstart
  rcases length with _ | length
  · exact fun hnone => by cases hnone
  have ha : Bytes.isDigit a = true ∨ a = ascii '.' := by
    cases rest with
    | nil => exact .inl hstart
    | cons b rest => exact (by simpa [startsNumber] using hstart : _ ∨ _ ∧ _).imp_right And.left
  have hno : ¬(a = ascii '_' ∨ a = ascii '-') := fun h => by
    obtain ⟨hdigit, hpoint⟩ := hminus a h
    exact ha.elim (fun h => by rw [hdigit] at h; cases h) hpoint
  rw [List.take_succ_cons, Number.withoutUnderscores,
    List.filter_cons_of_pos (by simpa using fun h => hno (.inl h))]
  exact fun heq => hno (.inr (Option.some.inj heq))

theorem legible_of_tokenText {k : Kind} (h : TokenText rest k text) : Legible (k, text) := by
  cases h with
  | number hstart =>
    exact ⟨fun hk => Kind.noConfusion hk, fun hk => Kind.noConfusion hk,
      fun _ n hread => Number.nonneg_of_read hread (head?_ne_minus hstart _)⟩
  | word hstart =>
    refine ⟨isName_wordText hstart, fun hk => ?_, fun hk => ?_⟩
    · have hspelling : wordText rest = Kind.kwNone.spelling := by
        simp only [wordKind] at hk
        cases hfind : Kind.keywords.find? fun k => k.spelling == wordText rest with
        | none =>
          rw [hfind] at hk
          cases hk
        | some k =>
          rw [hfind] at hk
          obtain rfl : k = .kwNone := hk
          have hfound := List.find?_some hfind
          exact (beq_iff_eq.mp hfound).symm
      rw [hspelling]
      cbv
    · have hmem := wordKind_mem (wordText rest)
      rw [show wordKind (wordText rest) = .number from hk] at hmem
      exact absurd hmem (by decide)
  | string value => exact legible_of_notMem (by decide)
  | operator hk =>
    have hoperators : ∀ k ∈ Kind.operators, k ∉ [Kind.identifier, .kwNone, .number] := by decide
    exact legible_of_notMem (hoperators k hk)

theorem legible_step {next : Lexer} {b : UInt8} {ts : List Token} (h : s.step b = .more ts next) :
    ∀ t ∈ ts, Legible t.content := by
  have hother {s : Lexer} {k : Kind} (hk : k ∉ [.identifier, .kwNone, .number]) :
      Legible (s.token k []).content := legible_of_notMem hk
  cases does_step h with
  | skip | wrap => exact List.forall_mem_nil _
  | newline => exact List.forall_mem_singleton.mpr (hother (by decide))
  | read h => exact List.forall_mem_singleton.mpr (legible_of_tokenText h.text)
  | indent => exact List.forall_mem_singleton.mpr (hother (by decide))
  | dedent =>
    intro t ht
    obtain ⟨level, -, rfl⟩ := List.mem_map.mp ht
    exact hother (by decide)

theorem legible_yield {xs : List (Kind × Bytes)} (h : s.yield = some xs) : ∀ x ∈ xs, Legible x := by
  induction hw : s.work using Nat.strongRecOn generalizing s xs with
  | ind n ih =>
    cases hs : s.rest with
    | nil =>
      -- What comes at the end of the text ends lines and blocks.
      rw [yield_of_nil hs, finish_contents] at h
      obtain rfl := Option.some.inj h
      intro x hx
      rcases List.mem_append.mp hx with hx | hx
      · rcases List.mem_append.mp hx with hx | hx
        · split at hx
          · rw [List.mem_singleton.mp hx]
            exact legible_of_notMem (by decide)
          · exact absurd hx List.not_mem_nil
        · obtain ⟨level, -, rfl⟩ := List.mem_map.mp hx
          exact legible_of_notMem (by decide)
      · rw [List.mem_singleton.mp hx]
        exact legible_of_notMem (by decide)
    | cons b r =>
      cases hstep : s.step b with
      | fail e stop =>
        rw [yield_of_fail hs hstep] at h
        cases h
      | more ts next =>
        rw [yield_of_more hs hstep] at h
        obtain ⟨ys, hys, rfl⟩ := Option.map_eq_some_iff.mp h
        -- The step has given no other names, and there is less work left.
        have hlt : next.work < n := hw ▸ step_work hs hstep
        intro x hx
        rcases List.mem_append.mp hx with hx | hx
        · obtain ⟨t, ht, rfl⟩ := List.mem_map.mp hx
          exact legible_step hstep t ht
        · exact ih next.work hlt hys rfl x hx

end Lexer

theorem legible_of_tokenize {source : Bytes} {ts : List Token} (h : tokenize source = .ok ts) :
    ∀ t ∈ ts, Lexer.Legible t.content := by
  have hyield : (Lexer.ofBytes source).yield = some (ts.map Token.content) := by
    rw [← Lexer.tokenContents_eq_yield, tokenContents, h]
    rfl
  intro t ht
  exact Lexer.legible_yield hyield _ (List.mem_map_of_mem ht)

end BoardPython
