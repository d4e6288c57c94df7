import Mathlib
import BoardPython.Number.Numeral
import BoardPython.Token.Scan

/-! How integers are written. A decimal number has digits and, behind the first one, any underscores;
behind a base letter a single underscore may stand in front of each digit. What is spelled so is read
as its value, and nothing else behind a base letter is: `read_of_spelling`, `exists_of_read`. -/
namespace BoardPython

open Bytes (ascii)
open Token.Scan

theorem of_isDigit {P : UInt8 → Prop} {d : UInt8} (hall : ∀ n < 10, P (UInt8.ofNat (48 + n)))
    (h : Bytes.isDigit d = true) : P d := by
  simp only [Bytes.isDigit, Bool.and_eq_true, decide_eq_true_eq, UInt8.le_iff_toNat_le] at h
  have hlow : 48 ≤ d.toNat := h.1
  have hhigh : d.toNat ≤ 57 := h.2
  have hd : UInt8.ofNat (48 + (d.toNat - 48)) = d := by
    rw [Nat.add_sub_cancel' hlow, UInt8.ofNat_toNat]
  rw [← hd]
  exact hall _ (by omega)

namespace Number

/-- The letters that select a base. -/
def bases : List (UInt8 × Nat) :=
  [(ascii 'x', 16), (ascii 'X', 16), (ascii 'o', 8), (ascii 'O', 8), (ascii 'b', 2), (ascii 'B', 2)]

/-- A digit is written in either case. -/
def IsDigit (base v : Nat) (b : UInt8) : Prop :=
  v < base ∧ (b = ascii (Bytes.lowerHexDigit v) ∨ b = ascii (Bytes.upperHexDigit v))

inductive Sprinkled (base : Nat) : List Nat → Bytes → Prop
  | nil : Sprinkled base [] []
  | digit {v : Nat} {b : UInt8} {vs : List Nat} {text : Bytes} (hb : IsDigit base v b)
      (h : Sprinkled base vs text) : Sprinkled base (v :: vs) (b :: text)
  | underscore {vs : List Nat} {text : Bytes} (h : Sprinkled base vs text) :
      Sprinkled base vs (ascii '_' :: text)

inductive Grouped (base : Nat) : List Nat → Bytes → Prop
  | nil : Grouped base [] []
  | digit {v : Nat} {b : UInt8} {vs : List Nat} {text : Bytes} (hb : IsDigit base v b)
      (h : Grouped base vs text) : Grouped base (v :: vs) (b :: text)
  | separated {v : Nat} {b : UInt8} {vs : List Nat} {text : Bytes} (hb : IsDigit base v b)
      (h : Grouped base vs text) : Grouped base (v :: vs) (ascii '_' :: b :: text)

/-- The spellings of a natural number. -/
inductive Spelling : Nat → Bytes → Prop
  | decimal {v : Nat} {b : UInt8} {vs : List Nat} {text : Bytes} (hb : IsDigit 10 v b)
      (h : Sprinkled 10 vs text) : Spelling (Nat.ofDigits 10 (v :: vs).reverse) (b :: text)
  | based {letter : UInt8} {base : Nat} {vs : List Nat} {text : Bytes}
      (hletter : (letter, base) ∈ bases) (hne : vs ≠ []) (h : Grouped base vs text) :
      Spelling (Nat.ofDigits base vs.reverse) (ascii '0' :: letter :: text)

variable {base v n : Nat} {b letter : UInt8} {vs : List Nat} {text ds : Bytes}

theorem IsDigit.facts (h : IsDigit base v b) (hbase : base ≤ 16) :
    Bytes.digitValue? b = some v ∧ b ≠ ascii '_' ∧ isHexOrUnderscore b = true := by
  have hlower : ∀ v < 16, Bytes.digitValue? (ascii (Bytes.lowerHexDigit v)) = some v ∧
      ascii (Bytes.lowerHexDigit v) ≠ ascii '_' ∧
      isHexOrUnderscore (ascii (Bytes.lowerHexDigit v)) = true := by decide
  have hupper : ∀ v < 16, Bytes.digitValue? (ascii (Bytes.upperHexDigit v)) = some v ∧
      ascii (Bytes.upperHexDigit v) ≠ ascii '_' ∧
      isHexOrUnderscore (ascii (Bytes.upperHexDigit v)) = true := by decide
  obtain ⟨hv, rfl | rfl⟩ := h
  · exact hlower v (Nat.lt_of_lt_of_le hv hbase)
  · exact hupper v (Nat.lt_of_lt_of_le hv hbase)

theorem IsDigit.isDigit (h : IsDigit 10 v b) : Bytes.isDigit b = true := by
  have hall : ∀ v < 10, Bytes.isDigit (ascii (Bytes.lowerHexDigit v)) = true ∧
      Bytes.isDigit (ascii (Bytes.upperHexDigit v)) = true := by decide
  obtain ⟨hv, rfl | rfl⟩ := h
  · exact (hall v hv).1
  · exact (hall v hv).2

theorem isDigit_of_digitValue? (h : Bytes.digitValue? b = some v) (hv : v < base)
    (hbase : base ≤ 16) : IsDigit base v b := by
  have hall : ∀ n < 256, ∀ v < 16, Bytes.digitValue? (UInt8.ofNat n) = some v →
      UInt8.ofNat n = ascii (Bytes.lowerHexDigit v) ∨ UInt8.ofNat n = ascii (Bytes.upperHexDigit v) := by
    decide +kernel
  have hb := hall b.toNat b.toNat_lt v (Nat.lt_of_lt_of_le hv hbase)
  rw [UInt8.ofNat_toNat] at hb
  exact ⟨hv, hb h⟩

theorem bases_facts (h : (letter, base) ∈ bases) :
    base ≤ 16 ∧ baseOf? letter = some base ∧ letter ≠ ascii '_' ∧ isBaseLetter letter = true := by
  have hall : ∀ x ∈ bases, x.2 ≤ 16 ∧ baseOf? x.1 = some x.2 ∧ x.1 ≠ ascii '_' ∧
      isBaseLetter x.1 = true := by decide
  exact hall _ h

theorem Grouped.sprinkled (h : Grouped base vs text) : Sprinkled base vs text := by
  induction h with
  | nil => exact .nil
  | digit hb _ ih => exact .digit hb ih
  | separated hb _ ih => exact .underscore (.digit hb ih)

theorem Sprinkled.isHexOrUnderscore (h : Sprinkled base vs text) (hbase : base ≤ 16) :
    ∀ b ∈ text, Token.Scan.isHexOrUnderscore b = true := by
  induction h with
  | nil => exact List.forall_mem_nil _
  | digit hb _ ih => exact List.forall_mem_cons.mpr ⟨(hb.facts hbase).2.2, ih⟩
  | underscore _ ih => exact List.forall_mem_cons.mpr ⟨by decide, ih⟩

theorem Sprinkled.isDigitOrUnderscore (h : Sprinkled 10 vs text) :
    ∀ b ∈ text, Token.Scan.isDigitOrUnderscore b = true := by
  induction h with
  | nil => exact List.forall_mem_nil _
  | digit hb _ ih =>
    refine List.forall_mem_cons.mpr ⟨?_, ih⟩
    rw [Token.Scan.isDigitOrUnderscore, hb.isDigit, Bool.true_or]
  | underscore _ ih => exact List.forall_mem_cons.mpr ⟨by decide, ih⟩

theorem Sprinkled.without (h : Sprinkled base vs text) (hbase : base ≤ 16) :
    List.Forall₂ (IsDigit base) vs (withoutUnderscores text) := by
  induction h with
  | nil => exact .nil
  | digit hb _ ih =>
    rw [withoutUnderscores, List.filter_cons_of_pos (by simpa using (hb.facts hbase).2.1)]
    exact .cons hb ih
  | underscore _ ih =>
    rw [withoutUnderscores, List.filter_cons_of_neg (by simp)]
    exact ih

theorem Grouped.underscoresBetween (h : Grouped base vs text) (hbase : base ≤ 16) :
    underscoresBetween true text = true := by
  have hdigit {v : Nat} {b : UInt8} (hb : IsDigit base v b) (after : Bool) (text : Bytes) :
      Number.underscoresBetween after (b :: text) = Number.underscoresBetween true text := by
    rw [Number.underscoresBetween, if_neg (by simpa using (hb.facts hbase).2.1)]
  induction h with
  | nil => rfl
  | digit hb _ ih => rw [hdigit hb, ih]
  | separated hb _ ih => rw [Number.underscoresBetween, if_pos (by simp), hdigit hb, ih, Bool.and_self]

theorem readDigits_eq (h : List.Forall₂ (IsDigit base) vs ds) (hbase : base ≤ 16) (value : Nat) :
    readDigits base value ds = some (vs.foldl (fun n v => v + base * n) value) := by
  induction h generalizing value with
  | nil => rfl
  | cons hb _ ih =>
    rw [readDigits, (hb.facts hbase).1]
    dsimp only
    rw [if_pos hb.1, ih, List.foldl_cons, Nat.add_comm, Nat.mul_comm]

theorem readNatural_eq (h : List.Forall₂ (IsDigit base) vs ds) (hbase : base ≤ 16) (hne : vs ≠ []) :
    readNatural base ds = some (Nat.ofDigits base vs.reverse) := by
  have hds : ds ≠ [] := fun hnil => hne (List.forall₂_nil_right_iff.mp (hnil ▸ h))
  rw [readNatural, if_neg (by simpa using hds), readDigits_eq h hbase, Nat.ofDigits_eq_foldr,
    List.foldr_reverse]
  rfl

theorem read_decimal (hclean : withoutUnderscores text = ds) (hdigits : ∀ d ∈ ds, Bytes.isDigit d = true)
    (hread : readNatural 10 ds = some n) : Numeral.read text = .ok (.int n) := by
  have hlower : ds.map Bytes.toLower = ds := by
    have hsame : ds.map Bytes.toLower = ds.map id := List.map_congr_left fun d hd =>
      of_isDigit (P := fun d => Bytes.toLower d = d) (by decide) (hdigits d hd)
    rw [hsame, List.map_id]
  have hfree (c : UInt8) (hc : Bytes.isDigit c = false) : c ∉ ds := by
    intro hmem
    rw [hdigits c hmem] at hc
    cases hc
  have hprefix : isPrefixed ds = false := by
    rcases ds with _ | ⟨x, _ | ⟨y, ds⟩⟩
    · rfl
    · rfl
    · have hy : (baseOf? y).isSome = false := of_isDigit (P := fun y => (baseOf? y).isSome = false)
        (by decide) (hdigits y (by simp))
      rw [isPrefixed, hy, Bool.and_false]
  have hlast : (ds.getLast? == some (ascii 'j')) = false := by
    refine beq_eq_false_iff_ne.mpr fun heq => ?_
    exact hfree (ascii 'j') (by decide) (List.mem_of_getLast? heq)
  have hpoint : ds.contains (ascii '.') = false := by
    simpa using hfree (ascii '.') (by decide)
  have hexponent : ds.contains (ascii 'e') = false := by
    simpa using hfree (ascii 'e') (by decide)
  have hinteger : readInteger ds = some (n : Int) := by
    rcases ds with _ | ⟨x, u⟩
    · cases hread
    have hx := of_isDigit (P := fun x => (x == ascii '+') = false ∧ (x == ascii '-') = false)
      (by decide) (hdigits x (List.mem_cons_self ..))
    simp only [readInteger, splitSign, hx.1, hx.2, Bool.false_eq_true, if_false, hread]
    rfl
  simp only [Numeral.read, hclean, hlower, hprefix, hlast, hpoint, hexponent, hinteger,
    Bool.or_self, Bool.false_eq_true, if_false]

theorem read_based (hletter : (letter, base) ∈ bases) :
    Numeral.read (ascii '0' :: letter :: text) =
      (readPrefixed (ascii '0' :: letter :: text)).elim (.error .integer) fun n => .ok (.int n) := by
  obtain ⟨-, hbase, hne, -⟩ := bases_facts hletter
  have hclean : withoutUnderscores (ascii '0' :: letter :: text) =
      ascii '0' :: letter :: withoutUnderscores text := by
    rw [withoutUnderscores, List.filter_cons_of_pos (by decide),
      List.filter_cons_of_pos (by simpa using hne)]
    rfl
  have hprefixed : isPrefixed (ascii '0' :: letter :: withoutUnderscores text) = true := by
    rw [isPrefixed, hbase]
    rfl
  rw [Numeral.read, hclean, if_pos hprefixed]
  cases readPrefixed (ascii '0' :: letter :: text) <;> rfl

theorem read_of_spelling (h : Spelling n text) : Numeral.read text = .ok (.int n) := by
  cases h with
  | decimal hb h =>
    have hdigits := (Sprinkled.digit hb h).without (by decide)
    refine read_decimal rfl (fun d hd => ?_)
      (readNatural_eq hdigits (by decide) (List.cons_ne_nil _ _))
    obtain ⟨i, hi, rfl⟩ := List.getElem_of_mem hd
    exact (hdigits.get (hdigits.length_eq ▸ hi) hi).isDigit
  | @based letter base vs text hletter hne h =>
    obtain ⟨hle, hbase, -⟩ := bases_facts hletter
    have hread : readPrefixed (ascii '0' :: letter :: text) = some (Nat.ofDigits base vs.reverse) := by
      rw [readPrefixed, hbase]
      dsimp only
      rw [h.underscoresBetween hle, if_pos (by decide),
        readNatural_eq (h.sprinkled.without hle) hle hne]
    rw [read_based hletter, hread]
    rfl

theorem exists_grouped {value : Nat} (hbase : base ≤ 16) (after : Bool)
    (hbetween : underscoresBetween after text = true)
    (hread : readDigits base value (withoutUnderscores text) = some n) :
    (after = true → ∃ vs, Grouped base vs text) ∧
      (after = false → ∃ v vs b rest, text = b :: rest ∧ IsDigit base v b ∧ Grouped base vs rest) := by
  induction text generalizing after value with
  | nil =>
    rw [underscoresBetween] at hbetween
    exact ⟨fun _ => ⟨[], .nil⟩, fun hfalse => by rw [hfalse] at hbetween; cases hbetween⟩
  | cons b text ih =>
    rw [underscoresBetween] at hbetween
    by_cases hb : b = ascii '_'
    · subst hb
      rw [if_pos (by simp), Bool.and_eq_true] at hbetween
      rw [withoutUnderscores, List.filter_cons_of_neg (by simp)] at hread
      obtain ⟨v, vs, b', rest, rfl, hb', hrest⟩ := (ih false hbetween.2 hread).2 rfl
      exact ⟨fun _ => ⟨v :: vs, .separated hb' hrest⟩,
        fun hfalse => by rw [hfalse] at hbetween; cases hbetween.1⟩
    · rw [if_neg (by simpa using hb)] at hbetween
      rw [withoutUnderscores, List.filter_cons_of_pos (by simpa using hb), readDigits] at hread
      cases hvalue : Bytes.digitValue? b with
      | none =>
        rw [hvalue] at hread
        cases hread
      | some v =>
        rw [hvalue] at hread
        dsimp only at hread
        split at hread
        · rename_i hv
          have hdigit := isDigit_of_digitValue? hvalue hv hbase
          obtain ⟨vs, hvs⟩ := (ih true hbetween hread).1 rfl
          exact ⟨fun _ => ⟨v :: vs, .digit hdigit hvs⟩, fun _ => ⟨v, vs, b, text, rfl, hdigit, hvs⟩⟩
        · cases hread

theorem exists_of_read {value : Numeral} (hletter : (letter, base) ∈ bases)
    (h : Numeral.read (ascii '0' :: letter :: text) = .ok value) :
    ∃ n, Spelling n (ascii '0' :: letter :: text) := by
  obtain ⟨hle, hbase, -⟩ := bases_facts hletter
  rw [read_based hletter] at h
  cases hread : readPrefixed (ascii '0' :: letter :: text) with
  | none =>
    rw [hread] at h
    cases h
  | some m =>
    rw [readPrefixed, hbase] at hread
    dsimp only at hread
    split at hread
    · rename_i hbetween
      rw [readNatural] at hread
      split at hread
      · cases hread
      · rename_i hne
        obtain ⟨vs, hvs⟩ := (exists_grouped hle true (by simpa using hbetween) hread).1 rfl
        refine ⟨_, .based hletter (fun hnil => hne ?_) hvs⟩
        subst hnil
        cases hvs
        rfl
    · cases hread

end Number

end BoardPython
