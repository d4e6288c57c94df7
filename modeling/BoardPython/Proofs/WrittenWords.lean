import BoardPython.Proofs.LineTokens
import BoardPython.Proofs.ModuleNames
import BoardPython.Proofs.Numerals

/-! The tokens of written words. A word becomes one token, whatever comes after it, as long as the
next byte may follow the word: `yield_word`. Words with the spaces of a style between them become
their tokens one after the other: `yield_row`. -/
namespace BoardPython

open Token (Kind)
open Token.Scan
open Bytes (ascii)

def stops : Bytes := [' ', '\n', '(', ')', '[', ']', ',', ':'].map ascii

def quiet : Bytes := ['\n', '#', ' ', '\t', '\r', '\\', '\x0c'].map ascii

def joints : Bytes := ['=', '*', '/', '<', '>', '.'].map ascii

section Ascii

variable {c : Char}

theorem toNat_ascii (h : c.toNat < 128) : (ascii c).toNat = c.toNat := by
  change c.toNat % 256 = c.toNat
  omega

theorem decode?_of_lt {x : UInt8} (h : x.toNat < 128) (r : Bytes) :
    Text.Utf8.decode? (x :: r) = some (Char.ofNat x.toNat, r) := by
  simp only [Text.Utf8.decode?, if_pos h]

theorem decode?_ascii (h : c.toNat < 128) (r : Bytes) :
    Text.Utf8.decode? (ascii c :: r) = some (c, r) := by
  rw [decode?_of_lt (by rwa [toNat_ascii h]), toNat_ascii h, Char.ofNat_toNat]

theorem ofString_ascii {s : String} (h : ∀ c ∈ s.toList, c.toNat < 128) :
    Bytes.ofString s = s.toList.map ascii := by
  have hchar (c : Char) (hc : c.toNat < 128) : String.utf8EncodeChar c = [ascii c] := by
    have hle : c.val.toNat ≤ 127 := Nat.le_of_lt_succ hc
    simp only [String.utf8EncodeChar, if_pos hle]
    rfl
  have hbytes : Bytes.ofString s = s.toList.flatMap String.utf8EncodeChar := by
    change s.toByteArray.data.toList = _
    conv_lhs => rw [← String.ofList_toList (s := s), String.toByteArray_ofList]
    simp [List.utf8Encode]
  rw [hbytes]
  generalize s.toList = cs at h
  induction cs with
  | nil => rfl
  | cons c cs ih =>
    rw [List.flatMap_cons, hchar c (h c (List.mem_cons_self ..)), List.map_cons,
      ih fun d hd => h d (List.mem_cons_of_mem _ hd)]
    rfl

theorem toNat_lt_of_isAsciiName (h : isAsciiName c = true) : c.toNat < 128 := by
  have hle (d : Char) (hd : c ≤ d) (hlt : d.toNat < 128) : c.toNat < 128 :=
    Nat.lt_of_le_of_lt (UInt32.le_iff_toNat_le.mp hd) hlt
  simp only [isAsciiName, Char.isAlphanum, Char.isAlpha, Char.isUpper, Char.isLower, Char.isDigit,
    Bool.or_eq_true, Bool.and_eq_true, decide_eq_true_eq, beq_iff_eq] at h
  rcases h with (((h | h) | h) | rfl)
  · exact hle 'Z' h.2 (by decide)
  · exact hle 'z' h.2 (by decide)
  · exact hle '9' h.2 (by decide)
  · decide

theorem of_ascii {P : Char → Prop} (hall : ∀ n < 128, P (Char.ofNat n)) (h : c.toNat < 128) :
    P c := by
  have hc := hall c.toNat h
  rwa [Char.ofNat_toNat] at hc

theorem isLetter_ascii (h : c.toNat < 128) :
    Text.isLetter c = c.isAlpha ∧ Text.isDecimalDigit c = c.isDigit :=
  of_ascii (P := fun c => Text.isLetter c = c.isAlpha ∧ Text.isDecimalDigit c = c.isDigit)
    (by decide) h

theorem isNameChar_ascii (h : c.toNat < 128) : isNameChar c = isAsciiName c := by
  obtain ⟨hletter, hdigit⟩ := isLetter_ascii h
  unfold isNameChar isAsciiName Char.isAlphanum
  rw [hletter, hdigit, Bool.or_assoc, Bool.or_comm]

theorem isNameChar_of_isAsciiName (h : isAsciiName c = true) : isNameChar c = true :=
  (isNameChar_ascii (toNat_lt_of_isAsciiName h)).trans h

end Ascii

section Names

variable {cs : List Char} {c : UInt8} {b : Bytes}

theorem of_mem_stops (hc : c ∈ stops) :
    (c.toNat < 128 ∧ (Char.ofNat c.toNat).toNat < 128 ∧ isAsciiName (Char.ofNat c.toNat) = false) ∧
    (isDigitOrUnderscore c = false ∧ (c == ascii '.') = false ∧
      (Bytes.toLower c == ascii 'e') = false ∧ (Bytes.toLower c == ascii 'j') = false ∧
      isBaseLetter c = false) ∧
    Bytes.isDigit c = false ∧ c ∉ joints := by
  revert c
  decide +kernel

theorem isNameChar_stop (hc : c = ascii '.' ∨ c ∈ stops) :
    c.toNat < 128 ∧ isNameChar (Char.ofNat c.toNat) = false := by
  rcases hc with rfl | hc
  · exact ⟨by decide, (isNameChar_ascii (by decide)).trans (by decide)⟩
  · obtain ⟨⟨hlt, hchar, hname⟩, -⟩ := of_mem_stops hc
    exact ⟨hlt, (isNameChar_ascii hchar).trans hname⟩

theorem startsName_eq_false (hlt : c.toNat < 128) (hc : isNameChar (Char.ofNat c.toNat) = false) :
    startsName (c :: b) = false := by
  simp only [isNameChar, Bool.or_eq_false_iff] at hc
  simp only [startsName, decode?_of_lt hlt, hc.1, Bool.or_self]

theorem nameSpan_ascii (hcs : ∀ d ∈ cs, isAsciiName d = true) (hc : c = ascii '.' ∨ c ∈ stops) :
    nameSpan (cs.map ascii ++ c :: b) = (cs, c :: b) := by
  induction cs with
  | nil =>
    rw [List.map_nil, List.nil_append, nameSpan]
    split
    · rename_i d rest hd
      rw [decode?_of_lt (isNameChar_stop hc).1] at hd
      obtain ⟨rfl, rfl⟩ := Prod.mk.inj (Option.some.inj hd)
      rw [if_neg (by rw [(isNameChar_stop hc).2]; decide)]
    · rfl
  | cons d cs ih =>
    have hd := hcs d (List.mem_cons_self ..)
    have hdecode := decode?_ascii (toNat_lt_of_isAsciiName hd) (cs.map ascii ++ c :: b)
    rw [List.map_cons, List.cons_append, nameSpan]
    split
    · rename_i d' rest hd'
      rw [hdecode] at hd'
      obtain ⟨rfl, rfl⟩ := Prod.mk.inj (Option.some.inj hd')
      rw [if_pos (isNameChar_of_isAsciiName hd), ih fun d hd => hcs d (List.mem_cons_of_mem _ hd)]
    · rename_i hnone
      rw [hdecode] at hnone
      cases hnone

theorem toString_ascii (hcs : ∀ d ∈ cs, isAsciiName d = true) :
    Text.Utf8.toString (cs.map ascii) = String.ofList cs := by
  have hpieces : Text.Utf8.pieces (cs.map ascii) = cs.map .inl := by
    induction cs with
    | nil => simp [Text.Utf8.pieces, Text.Utf8.decode?]
    | cons d cs ih =>
      have hlt := toNat_lt_of_isAsciiName (hcs d (List.mem_cons_self ..))
      rw [List.map_cons, Text.Utf8.pieces_of_decode? (decode?_ascii hlt _),
        ih fun d hd => hcs d (List.mem_cons_of_mem _ hd), List.map_cons]
  rw [Text.Utf8.toString, hpieces, List.map_map]
  congr 1
  exact List.map_id _

end Names

section Words

variable {s : String}

theorem isAsciiWord_iff : isAsciiWord s = true ↔ ∃ c cs, s.toList = c :: cs ∧
    (c.isAlpha || c == '_') = true ∧ ∀ d ∈ c :: cs, isAsciiName d = true := by
  have hfirst {c : Char} (h : (c.isAlpha || c == '_') = true) : isAsciiName c = true := by
    simp only [Bool.or_eq_true] at h
    rcases h with h | h <;> simp [isAsciiName, Char.isAlphanum, h]
  unfold isAsciiWord
  cases s.toList with
  | nil => simp
  | cons c cs =>
    simp only [Bool.and_eq_true, List.all_eq_true, List.forall_mem_cons, List.cons.injEq]
    constructor
    · rintro ⟨hc, hcs⟩
      exact ⟨c, cs, ⟨rfl, rfl⟩, hc, hfirst hc, hcs⟩
    · rintro ⟨c', cs', ⟨rfl, rfl⟩, hc, -, hcs⟩
      exact ⟨hc, hcs⟩

theorem ofString_of_isAsciiName {cs : List Char} (hs : s.toList = cs)
    (hcs : ∀ d ∈ cs, isAsciiName d = true) : Bytes.ofString s = cs.map ascii := by
  rw [← hs]
  refine ofString_ascii fun c hc => toNat_lt_of_isAsciiName (hcs c ?_)
  rwa [hs] at hc

theorem toString_ofString (h : isAsciiWord s = true) :
    Text.Utf8.toString (Bytes.ofString s) = s := by
  obtain ⟨c, cs, hs, -, hall⟩ := isAsciiWord_iff.mp h
  rw [ofString_of_isAsciiName hs hall, toString_ascii hall, ← hs, String.ofList_toList]

theorem isAsciiWord_of_isIdentifier (h : isIdentifier s = true) : isAsciiWord s = true :=
  (Bool.and_eq_true_iff.mp h).1

theorem isAsciiWord_keyword {k : Kind} (h : k ∈ Kind.keywords) : isAsciiWord k.name = true := by
  have hall : ∀ k ∈ Kind.keywords, isAsciiWord k.name = true := by decide
  exact hall k h

theorem wordKind_keyword {k : Kind} (h : k ∈ Kind.keywords) : wordKind k.spelling = k := by
  have hall : ∀ k ∈ Kind.keywords, wordKind k.spelling = k := by decide
  exact hall k h

theorem wordKind_identifier {id : String} (h : isIdentifier id = true) :
    wordKind (Bytes.ofString id) = .identifier := by
  have hne : ∀ k ∈ Kind.keywords, k.name ≠ id := by
    simpa [isIdentifier] using (Bool.and_eq_true_iff.mp h).2
  have hnone : (Kind.keywords.find? fun k => k.spelling == Bytes.ofString id) = none := by
    refine List.find?_eq_none.mpr fun k hk heq => hne k hk ?_
    exact Bytes.ofString_injective (beq_iff_eq.mp heq)
  rw [wordKind, hnone]
  rfl

end Words

section Numbers

variable {c : UInt8} {b : Bytes}

theorem isDigit_written {n : Nat} {d : UInt8} (h : d ∈ (Word.number n).written) :
    Bytes.isDigit d = true := by
  obtain ⟨c, hc, rfl⟩ := List.mem_map.mp h
  have hdigit : c.isDigit = true := Nat.isDigit_of_mem_toDigits (by decide) (by decide) hc
  have hname : isAsciiName c = true := by simp [isAsciiName, Char.isAlphanum, hdigit]
  exact of_ascii (P := fun c => c.isDigit = true → Bytes.isDigit (ascii c) = true) (by decide)
    (toNat_lt_of_isAsciiName hname) hdigit

variable {x : UInt8} {u w : Bytes}

theorem numberSpan_digits (hx : Bytes.isDigit x = true) (hu : ∀ d ∈ u, isDigitOrUnderscore d = true)
    (hw : ∀ c ∈ w.head?, c ∈ stops) : numberSpan (x :: u ++ w) = ⟨(x :: u).length, true⟩ := by
  have hbase {d : UInt8} (hd : isDigitOrUnderscore d = true) : isBaseLetter d = false := by
    rcases Bool.or_eq_true_iff.mp hd with hd | hd
    · exact of_isDigit (P := fun d => isBaseLetter d = false) (by decide) hd
    · rw [eq_of_beq hd]
      decide
  have hend : w.takeWhile isDigitOrUnderscore = [] ∧ fractionLength w = 0 ∧
      exponentSpan w = ⟨0, true⟩ ∧ imaginaryLength w = 0 ∧ ∀ c ∈ w.head?, isBaseLetter c = false := by
    cases w with
    | nil => exact ⟨rfl, rfl, rfl, rfl, by simp⟩
    | cons c b =>
      obtain ⟨-, ⟨hdigit, hpoint, hexponent, hunit, hletter⟩, -⟩ := of_mem_stops (hw c rfl)
      simp [fractionLength, exponentSpan, imaginaryLength, hdigit, hpoint, hexponent, hunit, hletter]
  obtain ⟨htake, hfraction, hexponent, hunit, hletter⟩ := hend
  have hwhole : digitsLength (x :: u ++ w) = (x :: u).length := by
    have hall : ∀ d ∈ x :: u, isDigitOrUnderscore d = true :=
      List.forall_mem_cons.mpr ⟨by rw [isDigitOrUnderscore, hx, Bool.true_or], hu⟩
    rw [digitsLength, List.takeWhile_append_of_pos hall, htake, List.append_nil]
  have hdrop : (x :: u ++ w).drop (x :: u).length = w := List.drop_left
  have hspan : decimalSpan (x :: u ++ w) = ⟨(x :: u).length, true⟩ := by
    simp only [decimalSpan, hwhole, hdrop, hfraction, Nat.add_zero, hexponent, if_true, hunit]
  -- The second byte is one of the number or the one behind it, and no base letter either way.
  rw [← hspan]
  rcases u with _ | ⟨y, u⟩
  · rcases w with _ | ⟨c, b⟩
    · rfl
    · simp only [List.cons_append, List.nil_append, numberSpan, hletter c rfl, Bool.and_false,
        Bool.false_eq_true, if_false]
  · simp only [List.cons_append, numberSpan, hbase (hu y (List.mem_cons_self ..)), Bool.and_false,
      Bool.false_eq_true, if_false]

theorem token?_of_span (hx : Bytes.isDigit x = true)
    (hspan : numberSpan (x :: u ++ w) = ⟨(x :: u).length, true⟩) :
    token? (x :: u ++ w) = if startsName w then none else some (.number, x :: u, w) := by
  have hnumber : startsNumber (x :: u ++ w) = true := by
    rcases h : u ++ w with _ | ⟨y, v⟩ <;> simp [startsNumber, hx, h]
  have htake : (x :: u ++ w).take (x :: u).length = x :: u := List.take_left
  have hdrop : (x :: u ++ w).drop (x :: u).length = w := List.drop_left
  rw [List.cons_append] at hspan hnumber htake hdrop ⊢
  simp only [token?, hnumber, hspan, htake, hdrop, if_true, Bool.true_and]
  cases startsName w <;> rfl

end Numbers

section Strings

theorem spells_escapes (value : Bytes) :
    Spells (ascii '"') (value.flatMap Word.hexEscape) value := by
  induction value with
  | nil => exact .nil
  | cons x value ih => exact .hex (List.mem_cons_self ..) (List.mem_cons_self ..) ih

end Strings

def Word.EndsAt (c : UInt8) : Word → Prop
  | .number _ => c ∈ stops
  | .string _ => True
  | .name _ => c = ascii '.' ∨ c ∈ stops
  | .symbol k => c ∈ stops ∨ k ∈ [.leftParen, .leftBracket, .rightParen] ∨
      (k = .dot ∧ ∃ d : Char, c = ascii d ∧ (d.isAlpha || d == '_') = true)

theorem Word.depthAfter_content (w : Word) (depth : Nat) :
    w.content.1.depthAfter depth = w.depthAfter depth := by
  cases w with
  | symbol k =>
    simp only [content, Kind.depthAfter, depthAfter, opens, closes, beq_iff_eq, Bool.or_eq_true,
      symbol.injEq]
    exact if_congr Iff.rfl rfl (if_congr Iff.rfl rfl rfl)
  | _ => simp [content, Kind.depthAfter, depthAfter, opens, closes]

section Operators

variable {k : Kind} {c : UInt8} {b : Bytes}

theorem ascii_letter {d : Char} (hd : (d.isAlpha || d == '_') = true) :
    ascii d ∉ quiet ∧ ascii d ∉ joints ∧ Bytes.isDigit (ascii d) = false ∧
      (d == '_' || Text.isLetter d) = true := by
  have hname : isAsciiName d = true := by
    simp only [Bool.or_eq_true] at hd
    rcases hd with h | h <;> simp [isAsciiName, Char.isAlphanum, h]
  have hlt := toNat_lt_of_isAsciiName hname
  obtain ⟨hquiet, hjoints, hdigit⟩ := of_ascii (P := fun d => (d.isAlpha || d == '_') = true →
    ascii d ∉ quiet ∧ ascii d ∉ joints ∧ Bytes.isDigit (ascii d) = false) (by decide) hlt hd
  refine ⟨hquiet, hjoints, hdigit, ?_⟩
  rw [(isLetter_ascii hlt).1, Bool.or_comm]
  exact hd

theorem operator_head (hk : k ∈ Kind.operators) : ∃ x u, k.spelling = x :: u ∧ x.toNat < 128 ∧
    isNameChar (Char.ofNat x.toNat) = false ∧ (x == ascii '"' || x == 0x27) = false ∧
    x ∉ quiet := by
  have hall : ∀ k ∈ Kind.operators, (k.spelling.head?.any fun x => x.toNat < 128 &&
      !isNameChar (Char.ofNat x.toNat) && !(x == ascii '"' || x == 0x27) &&
      !quiet.contains x) = true := by decide
  obtain ⟨x, hx, hfacts⟩ := (Option.any_eq_true ..).mp (hall k hk)
  obtain ⟨u, hu⟩ := List.head?_eq_some_iff.mp hx
  simp only [Bool.and_eq_true, Bool.not_eq_true', decide_eq_true_eq, List.contains_eq_mem,
    decide_eq_false_iff_not] at hfacts
  exact ⟨x, u, hu, hfacts.1.1.1, hfacts.1.1.2, hfacts.1.2, hfacts.2⟩

/-- An operator is the longest that fits, because no longer one goes on with the byte behind it. -/
theorem operator?_append {u : Bytes} {x : UInt8} (hu : operator? (x :: u) = some k)
    (hc : c ∉ joints) : operator? (x :: u ++ c :: b) = some k := by
  have hjoints : ∀ q ∈ Kind.operators, q.spelling.tail ⊆ joints := by decide
  rw [← hu]
  refine List.find?_congr fun q hq => ?_
  cases hspelling : q.spelling with
  | nil => rfl
  | cons y v =>
    have hv : c ∉ v := by
      have h := hjoints q hq
      rw [hspelling] at h
      exact fun hmem => hc (h hmem)
    simp only [Bytes.startsWith, List.cons_append, List.isPrefixOf, isPrefixOf_append_gap v u b hv]

theorem endsAt_operator (hc : (Word.symbol k).EndsAt c) :
    k ∈ [.leftParen, .leftBracket, .rightParen] ∨ (Bytes.isDigit c = false ∧ c ∉ joints) := by
  rcases hc with hc | hc | ⟨-, d, rfl, hd⟩
  · exact .inr (of_mem_stops hc).2.2
  · exact .inl hc
  · exact .inr ⟨(ascii_letter hd).2.2.1, (ascii_letter hd).2.1⟩

theorem operator?_spelling (hk : k ∈ Kind.operators) (hc : (Word.symbol k).EndsAt c) :
    operator? (k.spelling ++ c :: b) = some k := by
  rcases endsAt_operator hc with hbracket | ⟨-, hfree⟩
  · simp only [List.mem_cons, List.not_mem_nil, or_false] at hbracket
    rcases hbracket with rfl | rfl | rfl <;> rfl
  · have hall : ∀ k ∈ Kind.operators, operator? k.spelling = some k := by decide
    have hself := hall k hk
    obtain ⟨x, u, hspelling, -⟩ := operator_head hk
    rw [hspelling] at hself ⊢
    exact operator?_append hself hfree

theorem startsNumber_spelling (hk : k ∈ Kind.operators) (hc : (Word.symbol k).EndsAt c) :
    startsNumber (k.spelling ++ c :: b) = false := by
  rcases endsAt_operator hc with hbracket | ⟨hdigit, -⟩
  · simp only [List.mem_cons, List.not_mem_nil, or_false] at hbracket
    rcases hbracket with rfl | rfl | rfl <;> rfl
  · have hall : ∀ k ∈ Kind.operators, k.spelling ≠ [] ∧ startsNumber k.spelling = false := by decide
    obtain ⟨hne, hself⟩ := hall k hk
    rcases hspelling : k.spelling with _ | ⟨x, _ | ⟨y, u⟩⟩
    · exact absurd hspelling hne
    · rw [hspelling] at hself
      simp only [startsNumber] at hself
      simp only [List.cons_append, List.nil_append, startsNumber, hself, hdigit, Bool.and_false,
        Bool.or_self]
    · rw [hspelling] at hself
      exact hself

end Operators

theorem startsToken_of_notMem {x : UInt8} {r : Bytes} (h : x ∉ quiet) :
    startsToken (x :: r) = true := by
  have hx (d : Char) (hd : ascii d ∈ quiet) : (x == ascii d) = false :=
    beq_eq_false_iff_ne.mpr fun heq => h (heq ▸ hd)
  have hcontinues : Lexer.continuesLine (x :: r) = false := by
    cases r with
    | nil => rfl
    | cons y r => rw [Lexer.continuesLine, hx '\\' (by decide), Bool.false_and]
  simp only [startsToken, isBlank, hx '\n' (by decide), hx '#' (by decide), hx ' ' (by decide),
    hx '\t' (by decide), hx '\r' (by decide), hcontinues, Bool.or_self, Bool.not_false]

theorem ascii_head {s : String} (h : isAsciiWord s = true) :
    ∃ d u, Bytes.ofString s = ascii d :: u ∧ (d.isAlpha || d == '_') = true ∧ ascii d ∉ quiet := by
  obtain ⟨d, ds, hs, hd, hds⟩ := isAsciiWord_iff.mp h
  refine ⟨d, ds.map ascii, ofString_of_isAsciiName hs hds, hd, ?_⟩
  exact (ascii_letter hd).1

namespace Word

variable {w a b : Word} {c : UInt8} {r : Bytes}

theorem written_number (n : Nat) : ∃ x u, (number n).written = x :: u := by
  refine List.exists_cons_of_ne_nil ?_
  simp only [written, ne_eq, List.map_eq_nil_iff]
  exact Nat.toDigits_ne_nil

theorem written_head (hw : w.isValid = true) : ∃ x u, w.written = x :: u ∧ x ∉ quiet := by
  cases w with
  | number n =>
    obtain ⟨x, u, hwritten⟩ := written_number n
    have hx : Bytes.isDigit x = true := isDigit_written (hwritten ▸ List.mem_cons_self ..)
    exact ⟨x, u, hwritten, of_isDigit (P := (· ∉ quiet)) (by decide) hx⟩
  | string value => exact ⟨_, _, rfl, by decide⟩
  | name id =>
    obtain ⟨d, u, hid, -, hd⟩ := ascii_head (isAsciiWord_of_isIdentifier hw)
    exact ⟨_, u, hid, hd⟩
  | symbol k =>
    simp only [isValid, Bool.or_eq_true, List.contains_iff_mem] at hw
    rcases hw with hk | hk
    · obtain ⟨d, u, hid, -, hd⟩ := ascii_head (isAsciiWord_keyword hk)
      exact ⟨_, u, hid, hd⟩
    · obtain ⟨x, u, hspelling, -, -, -, hx⟩ := operator_head hk
      exact ⟨x, u, hspelling, hx⟩

section Tokens

variable {b : Bytes}

theorem token?_number {n : Nat} (hc : c ∈ stops) :
    token? ((number n).written ++ c :: b) = some (.number, (number n).written, c :: b) := by
  obtain ⟨x, u, hwritten⟩ := written_number n
  have hdigits : ∀ d ∈ (number n).written, Bytes.isDigit d = true := fun d => isDigit_written
  rw [hwritten] at hdigits ⊢
  obtain ⟨hx, hu⟩ := List.forall_mem_cons.mp hdigits
  have hspan : numberSpan (x :: u ++ c :: b) = ⟨(x :: u).length, true⟩ :=
    numberSpan_digits hx (fun d hd => by rw [isDigitOrUnderscore, hu d hd, Bool.true_or]) (by simpa)
  have hname : startsName (c :: b) = false :=
    startsName_eq_false (isNameChar_stop (.inr hc)).1 (isNameChar_stop (.inr hc)).2
  rw [token?_of_span hx hspan, hname]
  rfl

theorem token?_ascii {text : String} (htext : isAsciiWord text = true)
    (hc : c = ascii '.' ∨ c ∈ stops) : token? (Bytes.ofString text ++ c :: b) =
      some (wordKind (Bytes.ofString text), Bytes.ofString text, c :: b) := by
  obtain ⟨d, ds, hs, hd, hds⟩ := isAsciiWord_iff.mp htext
  rw [ofString_of_isAsciiName hs hds]
  obtain ⟨-, hjoints, hdigit, hletter⟩ := ascii_letter hd
  have hpoint : (ascii d == ascii '.') = false :=
    beq_eq_false_iff_ne.mpr fun heq => hjoints (heq ▸ by decide)
  have hnumber : startsNumber ((d :: ds).map ascii ++ c :: b) = false := by
    cases ds <;> simp [startsNumber, hdigit, hpoint]
  have hname : startsName ((d :: ds).map ascii ++ c :: b) = true := by
    have hlt := toNat_lt_of_isAsciiName (hds d (List.mem_cons_self ..))
    simp only [List.map_cons, List.cons_append, startsName, decode?_ascii hlt, hletter]
  have hspan := nameSpan_ascii (b := b) hds hc
  have htake : ((d :: ds).map ascii ++ c :: b).take
      (((d :: ds).map ascii ++ c :: b).length - (c :: b).length) = (d :: ds).map ascii := by
    rw [List.length_append, Nat.add_sub_cancel]
    exact List.take_left
  rw [List.map_cons, List.cons_append] at hnumber hname hspan htake ⊢
  simp only [token?, hnumber, hname, hspan, htake, Bool.false_eq_true, if_false, if_true]

theorem token?_string (value : Bytes) :
    token? ((string value).written ++ b) = some (.string, value, b) := by
  have hwritten : (string value).written ++ b =
      ascii '"' :: (value.flatMap hexEscape ++ ascii '"' :: b) := by
    simp [written]
  rw [hwritten, token?_quote (by decide), closed?_of_spells (by decide) (spells_escapes value)]
  rfl

theorem token?_operator {k : Kind} (hk : k ∈ Kind.operators) (hc : (symbol k).EndsAt c) :
    token? (k.spelling ++ c :: b) = some (k, k.spelling, c :: b) := by
  have hnumber := startsNumber_spelling (b := b) hk hc
  have hoperator := operator?_spelling (b := b) hk hc
  have hdrop : (k.spelling ++ c :: b).drop k.spelling.length = c :: b := List.drop_left
  obtain ⟨x, u, hspelling, hlt, hname, hquote, -⟩ := operator_head hk
  have hname' : startsName (x :: (u ++ c :: b)) = false := startsName_eq_false hlt hname
  have hquote' : isQuote x = false := hquote
  have hcons : k.spelling ++ c :: b = x :: (u ++ c :: b) := by
    rw [hspelling]
    rfl
  rw [hcons] at hnumber hoperator hdrop ⊢
  simp only [token?, hnumber, hname', hquote', hoperator, hdrop, Bool.false_eq_true, if_false,
    Option.map_some]

theorem token?_written (hw : w.isValid = true) (hc : w.EndsAt c) :
    token? (w.written ++ c :: b) = some (w.content.1, w.content.2, c :: b) := by
  cases w with
  | number n => exact token?_number hc
  | string value => exact token?_string value
  | name id =>
    have h : token? ((name id).written ++ c :: b) = _ :=
      token?_ascii (isAsciiWord_of_isIdentifier hw) hc
    rwa [wordKind_identifier hw] at h
  | symbol k =>
    simp only [isValid, Bool.or_eq_true, List.contains_iff_mem] at hw
    rcases hw with hk | hk
    · -- No keyword is a bracket or a dot.
      have hall : ∀ k ∈ Kind.keywords, k ∉ [Kind.leftParen, .leftBracket, .rightParen] ∧ k ≠ .dot :=
        by decide
      have hstop : c ∈ stops := by
        rcases hc with hc | hc | ⟨hc, -⟩
        · exact hc
        · exact absurd hc (hall k hk).1
        · exact absurd hc (hall k hk).2
      have h : token? (k.spelling ++ c :: b) = _ := token?_ascii (isAsciiWord_keyword hk) (.inr hstop)
      change _ = some (wordKind k.spelling, k.spelling, c :: b) at h
      rwa [wordKind_keyword hk] at h
    · exact token?_operator hk hc

end Tokens

theorem content_ne_newline (hw : w.isValid = true) : w.content.1 ≠ .newline := by
  cases w with
  | number n | string value | name id => exact Kind.noConfusion
  | symbol k =>
    have hall : ∀ k ∈ Kind.keywords ++ Kind.operators, k ≠ .newline := by decide
    simp only [isValid, Bool.or_eq_true, List.contains_iff_mem] at hw
    exact hall k (List.mem_append.mpr hw)

theorem endsAt_of_mem_stops (hc : c ∈ stops) : w.EndsAt c := by
  cases w with
  | number n => exact hc
  | string value => trivial
  | name id => exact .inr hc
  | symbol k => exact .inl hc

theorem endsAt_of_touches (h : a.touches b = true) (hb : b.isValid = true)
    (hc : b.written = c :: r) : a.EndsAt c := by
  have hsymbol {k : Kind} (hk : k ∈ [.leftParen, .rightParen, .rightBracket, .comma, .colon])
      (hb : b = symbol k) : a.EndsAt c := by
    have hall : ∀ k ∈ [Kind.leftParen, .rightParen, .rightBracket, .comma, .colon],
        k.spelling ⊆ stops := by decide
    rw [hb] at hc
    refine endsAt_of_mem_stops (hall k hk ?_)
    rw [show k.spelling = c :: r from hc]
    exact List.mem_cons_self ..
  simp only [touches, opens, closes, Bool.or_eq_true, Bool.and_eq_true, beq_iff_eq] at h
  rcases h with ((((((rfl | rfl) | (h | h)) | h) | h) | ⟨ha, hb'⟩) | ⟨rfl, hb'⟩)
  · exact .inr (.inl (by decide))
  · exact .inr (.inl (by decide))
  · exact hsymbol (by decide) h
  · exact hsymbol (by decide) h
  · exact hsymbol (by decide) h
  · exact hsymbol (by decide) h
  · rcases ha with ha | rfl
    · rcases hb' with hb' | rfl
      · exact hsymbol (by decide) hb'
      · obtain ⟨rfl, -⟩ := List.cons.inj hc
        cases a with
        | name id => exact .inl rfl
        | number n | string value | symbol k => cases ha
    · exact .inr (.inl (by decide))
  · cases b with
    | name id =>
      obtain ⟨d, u, hid, hd, -⟩ := ascii_head (isAsciiWord_of_isIdentifier hb)
      obtain ⟨rfl, -⟩ := List.cons.inj (hid.symm.trans hc)
      exact .inr (.inr ⟨rfl, d, rfl, hd⟩)
    | number n | string value | symbol k => cases hb'

end Word

theorem Style.row_cons (style : Style) (w : Word) (ws : List Word) :
    ∃ t, style.row (w :: ws) = w.written ++ t := by
  cases ws with
  | nil => exact ⟨[], (List.append_nil _).symm⟩
  | cons w' ws => exact ⟨_, rfl⟩

namespace Lexer

def within (levels : List Nat) (depth : Nat) (last : Option Kind) (rest : Bytes) : Lexer :=
  ⟨rest, 0, 0, depth, levels, false, last⟩

def atLine (levels : List Nat) (last : Option Kind) (rest : Bytes) : Lexer :=
  ⟨rest, 0, 0, 0, levels, true, last⟩

section Within

variable {levels : List Nat} {depth : Nat} {last : Option Kind} {c : UInt8} {b : Bytes}

theorem yield_word {w : Word} (hw : w.isValid = true) (hc : w.EndsAt c) :
    (within levels depth last (w.written ++ c :: b)).yield =
      (within levels (w.depthAfter depth) (some w.content.1) (c :: b)).yield.map
        (w.content :: ·) := by
  obtain ⟨x, u, hwritten, hx⟩ := Word.written_head hw
  have htoken := Word.token?_written (b := b) hw hc
  rw [hwritten] at htoken ⊢
  rw [yield_token rfl rfl (startsToken_of_notMem hx) htoken]
  exact congrArg (fun d => Option.map _ (within levels d _ _).yield) (w.depthAfter_content depth)

theorem yield_spaces (n : Nat) : (within levels depth last
    (List.replicate n (ascii ' ') ++ b)).yield = (within levels depth last b).yield := by
  induction n with
  | zero => rfl
  | succ n ih =>
    generalize hs : within levels depth last (List.replicate (n + 1) (ascii ' ') ++ b) = s
    have hstep : s.step (ascii ' ') = .more [] (s.advance 1) := by
      rw [step_eq_lexeme (by rw [← hs]; rfl)]
      exact lexeme_blank (by decide) s
    rw [yield_of_silent (by rw [← hs]; rfl) hstep, ← ih, ← hs]
    exact yield_eq_of_bare_eq rfl

theorem yield_row (style : Style) (w : Word) (ws : List Word)
    (hws : ∀ a ∈ w :: ws, a.isValid = true) (hc : c ∈ stops) :
    (within levels depth last (style.row (w :: ws) ++ c :: b)).yield =
      (within levels ((w :: ws).foldl Word.depthAfter depth) (some (ws.getLastD w).content.1)
        (c :: b)).yield.map ((w :: ws).map Word.content ++ ·) := by
  obtain ⟨hw, hws'⟩ := List.forall_mem_cons.mp hws
  induction ws generalizing w depth last with
  | nil => exact yield_word hw (Word.endsAt_of_mem_stops hc)
  | cons w' ws ih =>
    obtain ⟨hw', hws''⟩ := List.forall_mem_cons.mp hws'
    have hrow : style.row (w :: w' :: ws) ++ c :: b = w.written ++
        (List.replicate (style.gap w w') (ascii ' ') ++ (style.row (w' :: ws) ++ c :: b)) := by
      simp only [Style.row, List.append_assoc]
    -- Behind the word stands a space or the first byte of the next word.
    obtain ⟨x, r, hnext, hends⟩ : ∃ x r, List.replicate (style.gap w w') (ascii ' ') ++
        (style.row (w' :: ws) ++ c :: b) = x :: r ∧ w.EndsAt x := by
      cases hgap : style.gap w w' with
      | succ n => exact ⟨_, _, rfl, Word.endsAt_of_mem_stops (by decide)⟩
      | zero =>
        obtain ⟨x, u, hwritten, -⟩ := Word.written_head hw'
        obtain ⟨t, ht⟩ := style.row_cons w' ws
        refine ⟨x, u ++ (t ++ c :: b), ?_,
          Word.endsAt_of_touches (style.apart w w' hgap) hw' hwritten⟩
        simp only [ht, hwritten, List.replicate_zero, List.nil_append, List.cons_append,
          List.append_assoc]
    rw [hrow, hnext, yield_word hw hends, ← hnext, yield_spaces, ih w' hws' hw' hws'',
      Option.map_map, List.getLastD_cons]
    rfl

theorem yield_newline {k : Kind} (hk : k ≠ .newline) :
    (within levels 0 (some k) (ascii '\n' :: b)).yield =
      (atLine levels (some .newline) b).yield.map ((.newline, []) :: ·) := by
  have hstep := newline_of_ends (s := within levels 0 (some k) (ascii '\n' :: b))
    ⟨rfl, rfl, fun h => hk (Option.some.inj h)⟩
  rw [← lexeme_newline, ← step_eq_lexeme rfl] at hstep
  rw [yield_of_more rfl hstep]
  congr 1
  exact yield_eq_of_bare_eq rfl

end Within

end Lexer

end BoardPython
