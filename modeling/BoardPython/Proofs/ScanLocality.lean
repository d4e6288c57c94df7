import Mathlib
import BoardPython.Token.Progress

/-! How far the scans of single lexemes look ahead. No number, name or operator reaches over a break,
that is a space or the end of a line, so that these depend only on the bytes in front of the first
one. -/
namespace BoardPython

open Token (Kind)
open Bytes (ascii)

def isGap (b : UInt8) : Bool := b == ascii ' ' || b == ascii '\n'

def isBreak (b : UInt8) : Bool := isGap b || b == ascii '\r'

theorem isGap_cases {c : UInt8} (h : isGap c = true) : c = ascii ' ' ∨ c = ascii '\n' := by
  simpa [isGap] using h

theorem isBreak_of_isGap {c : UInt8} (h : isGap c = true) : isBreak c = true := by
  rw [isBreak, h, Bool.true_or]

theorem of_isBreak {P : UInt8 → Prop} {c : UInt8} (h : isBreak c = true) (hs : P (ascii ' '))
    (hn : P (ascii '\n')) (hr : P (ascii '\r')) : P c := by
  rw [isBreak, Bool.or_eq_true, beq_iff_eq] at h
  rcases h with h | rfl
  · rcases isGap_cases h with rfl | rfl
    · exact hs
    · exact hn
  · exact hr

section Lists

variable {p : UInt8 → Bool} {c : UInt8}

theorem takeWhile_append_gap (u b : Bytes) (hc : p c = false) :
    (u ++ c :: b).takeWhile p = u.takeWhile p := by
  induction u with
  | nil => simp [hc]
  | cons x u ih => simp only [List.cons_append, List.takeWhile_cons, ih]

theorem takeWhile_append_of_length_le (u w : Bytes)
    (h : ((u ++ w).takeWhile p).length ≤ u.length) : (u ++ w).takeWhile p = u.takeWhile p := by
  rw [List.takeWhile_append] at h ⊢
  split at h
  · rename_i hu
    have hw : w.takeWhile p = [] := by
      simp only [List.length_append] at h
      exact List.eq_nil_of_length_eq_zero (by omega)
    rw [if_pos hu, hw, List.append_nil]
    exact (List.takeWhile_sublist p).eq_of_length hu |>.symm
  · rename_i hu
    rw [if_neg hu]

theorem isPrefixOf_append_gap (q u b : Bytes) (hc : c ∉ q) :
    q.isPrefixOf (u ++ c :: b) = q.isPrefixOf u := by
  induction q generalizing u with
  | nil => simp
  | cons x q ih =>
    simp only [List.mem_cons, not_or] at hc
    cases u with
    | nil =>
      have hx : (x == c) = false := by simpa using fun h => hc.1 h.symm
      simp [List.isPrefixOf, hx]
    | cons y u => simp only [List.cons_append, List.isPrefixOf, ih u hc.2]

end Lists

namespace Text.Utf8

theorem decode?_append_break (x : UInt8) (u b : Bytes) {c : UInt8} (hc : isBreak c = true) :
    decode? (x :: u ++ c :: b) = (decode? (x :: u)).map fun d => (d.1, d.2 ++ c :: b) := by
  have hlt : c.toNat < 0x80 :=
    of_isBreak hc (P := fun c => c.toNat < 0x80) (by decide) (by decide) (by decide)
  have hcont : isContinuation c = false := by
    simp only [isContinuation, Bool.and_eq_false_imp, decide_eq_true_eq, decide_eq_false_iff_not]
    omega
  have hlow : ∀ low : Nat, 0x80 ≤ low → decide (low ≤ c.toNat) = false := by
    intro low hl
    simp only [decide_eq_false_iff_not]
    omega
  have hE : ∀ a : UInt8, 0x80 ≤ (if a.toNat = 0xE0 then 0xA0 else 0x80 : Nat) := by
    intro a
    split <;> omega
  have hF : ∀ a : UInt8, 0x80 ≤ (if a.toNat = 0xF0 then 0x90 else 0x80 : Nat) := by
    intro a
    split <;> omega
  simp only [List.cons_append, decode?]
  split
  · rfl
  split
  · cases u with
    | nil =>
      simp only [List.nil_append, hcont, Bool.false_eq_true, if_false]
      rfl
    | cons y u =>
      simp only [List.cons_append, apply_ite (Option.map _), Option.map_some, Option.map_none]
  split
  · rcases u with _ | ⟨y, _ | ⟨z, u⟩⟩
    · cases b with
      | nil => rfl
      | cons z b =>
        simp only [List.nil_append, hlow _ (hE x), Bool.false_and, Bool.false_eq_true, if_false]
        rfl
    · simp only [List.cons_append, List.nil_append, hcont, Bool.and_false, Bool.false_eq_true,
        if_false]
      rfl
    · simp only [List.cons_append, apply_ite (Option.map _), Option.map_some, Option.map_none]
  split
  · rcases u with _ | ⟨y, _ | ⟨z, _ | ⟨w, u⟩⟩⟩
    · rcases b with _ | ⟨y, _ | ⟨z, b⟩⟩
      · rfl
      · rfl
      · simp only [List.nil_append, hlow _ (hF x), Bool.false_and, Bool.false_eq_true, if_false]
        rfl
    · cases b with
      | nil => rfl
      | cons z b =>
        simp only [List.cons_append, List.nil_append, hcont, Bool.and_false, Bool.false_and,
          Bool.false_eq_true, if_false]
        rfl
    · simp only [List.cons_append, List.nil_append, hcont, Bool.and_false, Bool.false_eq_true,
        if_false]
      rfl
    · simp only [List.cons_append, apply_ite (Option.map _), Option.map_some, Option.map_none]
  · rfl

theorem decode?_break (b : Bytes) {c : UInt8} (hc : isBreak c = true) :
    decode? (c :: b) = some (Char.ofNat c.toNat, b) := by
  have hlt : c.toNat < 0x80 :=
    of_isBreak hc (P := fun c => c.toNat < 0x80) (by decide) (by decide) (by decide)
  simp only [decode?, if_pos hlt]

end Text.Utf8

namespace Token.Scan

variable {c : UInt8}

theorem isNameChar_break (hc : isBreak c = true) : isNameChar (Char.ofNat c.toNat) = false :=
  of_isBreak hc (P := fun c => isNameChar (Char.ofNat c.toNat) = false) (by decide)
    (by decide) (by decide)

theorem startsName_append_break (u b : Bytes) (hc : isBreak c = true) :
    startsName (u ++ c :: b) = startsName u := by
  cases u with
  | nil =>
    have hd := Text.Utf8.decode?_break b hc
    have hn := isNameChar_break hc
    simp only [isNameChar, Bool.or_eq_false_iff] at hn
    simp only [startsName, List.nil_append, hd, hn.1.1, hn.1.2, Bool.or_self]
    rfl
  | cons x u =>
    simp only [startsName, Text.Utf8.decode?_append_break x u b hc]
    cases Text.Utf8.decode? (x :: u) <;> rfl

theorem nameSpan_append_break (u b : Bytes) (hc : isBreak c = true) :
    nameSpan (u ++ c :: b) = ((nameSpan u).1, (nameSpan u).2 ++ c :: b) := by
  induction hn : u.length using Nat.strongRecOn generalizing u with
  | ind n ih =>
    cases u with
    | nil =>
      have hd := Text.Utf8.decode?_break b hc
      have h0 : nameSpan [] = ([], []) := by simp [nameSpan, Text.Utf8.decode?]
      rw [h0, List.nil_append, nameSpan]
      split
      · rename_i ch rest h
        rw [hd] at h
        obtain ⟨rfl, rfl⟩ := Prod.mk.inj (Option.some.inj h)
        rw [isNameChar_break hc]
        rfl
      · rfl
    | cons x u =>
      have hd := Text.Utf8.decode?_append_break x u b hc
      rw [nameSpan, nameSpan.eq_def (x :: u)]
      cases h : Text.Utf8.decode? (x :: u) with
      | none =>
        rw [h] at hd
        split
        · rename_i ch rest h'
          rw [hd] at h'
          cases h'
        · rfl
      | some d =>
        obtain ⟨ch, rest⟩ := d
        rw [h] at hd
        split
        · rename_i ch' rest' h'
          rw [hd] at h'
          obtain ⟨rfl, rfl⟩ := Prod.mk.inj (Option.some.inj h')
          have hlt := Text.Utf8.decode?_length h
          rw [ih rest.length (by omega) rest rfl]
          simp only
          split <;> rfl
        · rename_i h'
          rw [hd] at h'
          cases h'

theorem digitsLength_append_break (u b : Bytes) (hc : isBreak c = true) :
    digitsLength (u ++ c :: b) = digitsLength u := by
  have hp : isDigitOrUnderscore c = false :=
    of_isBreak hc (P := fun c => isDigitOrUnderscore c = false) (by decide) (by decide) (by decide)
  rw [digitsLength, takeWhile_append_gap u b hp, digitsLength]

theorem digitsLength_le (u : Bytes) : digitsLength u ≤ u.length :=
  (List.takeWhile_sublist _).length_le

theorem fractionLength_append_break (u b : Bytes) (hc : isBreak c = true) :
    fractionLength (u ++ c :: b) = fractionLength u := by
  cases u with
  | nil => exact of_isBreak hc (P := fun c => fractionLength (c :: b) = 0) rfl rfl rfl
  | cons x u => simp only [List.cons_append, fractionLength, digitsLength_append_break u b hc]

theorem fractionLength_le (u : Bytes) : fractionLength u ≤ u.length := by
  cases u with
  | nil => exact Nat.le_refl _
  | cons x u =>
    have := digitsLength_le u
    simp only [fractionLength, List.length_cons]
    split <;> omega

theorem signLength_append_break (u b : Bytes) (hc : isBreak c = true) :
    signLength (u ++ c :: b) = signLength u := by
  cases u with
  | nil => exact of_isBreak hc (P := fun c => signLength (c :: b) = 0) rfl rfl rfl
  | cons x u => rfl

theorem signLength_le (u : Bytes) : signLength u ≤ u.length := by
  cases u with
  | nil => exact Nat.le_refl _
  | cons x u =>
    simp only [signLength, List.length_cons]
    split <;> omega

theorem exponentSpan_append_break (u b : Bytes) (hc : isBreak c = true) :
    exponentSpan (u ++ c :: b) = exponentSpan u := by
  cases u with
  | nil => exact of_isBreak hc (P := fun c => exponentSpan (c :: b) = ⟨0, true⟩) rfl rfl rfl
  | cons x u =>
    have hd : Bytes.isDigit c = false :=
      of_isBreak hc (P := fun c => Bytes.isDigit c = false) (by decide) (by decide) (by decide)
    simp only [List.cons_append, exponentSpan, signLength_append_break u b hc,
      List.drop_append_of_le_length (signLength_le u)]
    cases hu : u.drop (signLength u) with
    | nil => simp only [List.nil_append, hd, Bool.false_eq_true, if_false]
    | cons d digits =>
      have := digitsLength_append_break (d :: digits) b hc
      simp only [List.cons_append] at this ⊢
      rw [this]

theorem exponentSpan_length_le (u : Bytes) : (exponentSpan u).length ≤ u.length := by
  cases u with
  | nil => exact Nat.le_refl _
  | cons x u =>
    have hs := signLength_le u
    have hd := digitsLength_le (u.drop (signLength u))
    rw [List.length_drop] at hd
    simp only [exponentSpan, List.length_cons]
    split
    · split
      · rename_i d digits hu
        rw [hu] at hd
        split <;> simp only <;> omega
      · simp only
        omega
    · simp only
      omega

theorem imaginaryLength_append_break (u b : Bytes) (hc : isBreak c = true) :
    imaginaryLength (u ++ c :: b) = imaginaryLength u := by
  cases u with
  | nil => exact of_isBreak hc (P := fun c => imaginaryLength (c :: b) = 0) rfl rfl rfl
  | cons x u => rfl

theorem imaginaryLength_le (u : Bytes) : imaginaryLength u ≤ u.length := by
  cases u with
  | nil => exact Nat.le_refl _
  | cons x u =>
    simp only [imaginaryLength, List.length_cons]
    split <;> omega

theorem decimalSpan_bounds (u : Bytes) :
    digitsLength u + fractionLength (u.drop (digitsLength u)) ≤ u.length ∧
      ∀ m ≤ u.length, m + (exponentSpan (u.drop m)).length ≤ u.length ∧
        m + imaginaryLength (u.drop m) ≤ u.length := by
  have hw := digitsLength_le u
  have hf := fractionLength_le (u.drop (digitsLength u))
  rw [List.length_drop] at hf
  refine ⟨by omega, fun m hm => ?_⟩
  have he := exponentSpan_length_le (u.drop m)
  have hi := imaginaryLength_le (u.drop m)
  rw [List.length_drop] at he hi
  omega

theorem decimalSpan_append_break (u b : Bytes) (hc : isBreak c = true) :
    decimalSpan (u ++ c :: b) = decimalSpan u := by
  obtain ⟨hm, hx⟩ := decimalSpan_bounds u
  obtain ⟨he, -⟩ := hx _ hm
  simp only [decimalSpan, digitsLength_append_break u b hc,
    List.drop_append_of_le_length (digitsLength_le u), fractionLength_append_break _ b hc,
    List.drop_append_of_le_length hm, exponentSpan_append_break _ b hc,
    List.drop_append_of_le_length he, imaginaryLength_append_break _ b hc]

theorem decimalSpan_length_le (u : Bytes) : (decimalSpan u).length ≤ u.length := by
  obtain ⟨hm, hx⟩ := decimalSpan_bounds u
  obtain ⟨he, -⟩ := hx _ hm
  have hi := (hx _ he).2
  simp only [decimalSpan]
  split <;> assumption

theorem numberSpan_append_break (x : UInt8) (u b : Bytes) (hc : isBreak c = true) :
    numberSpan (x :: u ++ c :: b) = numberSpan (x :: u) := by
  have hd := decimalSpan_append_break (x :: u) b hc
  cases u with
  | nil =>
    have hl : isBaseLetter c = false :=
      of_isBreak hc (P := fun c => isBaseLetter c = false) (by decide) (by decide) (by decide)
    simp only [List.cons_append, List.nil_append] at hd ⊢
    simp only [numberSpan, hl, Bool.and_false, Bool.false_eq_true, if_false, hd]
  | cons y u =>
    have hp : isHexOrUnderscore c = false :=
      of_isBreak hc (P := fun c => isHexOrUnderscore c = false) (by decide) (by decide) (by decide)
    simp only [List.cons_append] at hd ⊢
    simp only [numberSpan, takeWhile_append_gap u b hp, hd]

theorem numberSpan_length_le (u : Bytes) : (numberSpan u).length ≤ u.length := by
  unfold numberSpan
  split
  · split
    · rename_i x y rest _
      have : (rest.takeWhile isHexOrUnderscore).length ≤ rest.length :=
        (List.takeWhile_sublist _).length_le
      simp only [List.length_cons]
      omega
    · exact decimalSpan_length_le _
  · exact decimalSpan_length_le _

theorem startsNumber_append_break (x : UInt8) (u b : Bytes) (hc : isBreak c = true) :
    startsNumber (x :: u ++ c :: b) = startsNumber (x :: u) := by
  cases u with
  | nil =>
    have hd : Bytes.isDigit c = false :=
      of_isBreak hc (P := fun c => Bytes.isDigit c = false) (by decide) (by decide) (by decide)
    simp only [List.cons_append, List.nil_append, startsNumber, hd, Bool.and_false, Bool.or_false]
  | cons y u => rfl

theorem operator?_append_break (u b : Bytes) (hc : isBreak c = true) :
    operator? (u ++ c :: b) = operator? u := by
  have hg : ∀ k ∈ Kind.operators, c ∉ k.spelling :=
    of_isBreak hc (P := fun c => ∀ k ∈ Kind.operators, c ∉ k.spelling) (by decide) (by decide)
      (by decide)
  have hs : ∀ k ∈ Kind.operators,
      Bytes.startsWith (u ++ c :: b) k.spelling = Bytes.startsWith u k.spelling := by
    intro k hk
    exact isPrefixOf_append_gap k.spelling u b (hg k hk)
  unfold operator?
  generalize Kind.operators = ks at hs
  induction ks with
  | nil => rfl
  | cons k ks ih =>
    simp only [List.find?_cons, hs k (List.mem_cons_self ..)]
    rw [ih (fun k hk => hs k (List.mem_cons_of_mem _ hk))]

theorem spelling_length_le {u : Bytes} {k : Kind} (h : operator? u = some k) :
    k.spelling.length ≤ u.length := by
  unfold operator? at h
  have hp := List.find?_some h
  exact (List.isPrefixOf_iff_prefix.mp hp).length_le

end Token.Scan

end BoardPython
