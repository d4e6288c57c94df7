import BoardPython.Proofs.Numerals
import BoardPython.Token.Progress

/-! How string literals are written. `Spells` says it without the scanner: which bytes may stand for
themselves and which escapes there are. The scanner reads exactly what is written that way, up to
the closing quote: `literal_of_spells` and `spells_of_literal`. -/
namespace BoardPython

open Bytes (ascii)

namespace Position

def columnStep (column : Nat) (b : UInt8) : Nat := if b = ascii '\n' then 1 else column + 1

theorem foldl_columnStep_mono {c c' : Nat} (h : c ≤ c') (u : Bytes) :
    u.foldl columnStep c ≤ u.foldl columnStep c' := by
  induction u generalizing c c' with
  | nil => exact h
  | cons b u ih =>
    rw [List.foldl_cons, List.foldl_cons]
    refine ih ?_
    unfold columnStep
    split <;> omega

variable {u : Bytes}

theorem foldl_columnStep_of_line (hu : ascii '\n' ∉ u) (c : Nat) :
    u.foldl columnStep c = c + u.length := by
  induction u generalizing c with
  | nil => rfl
  | cons b u ih =>
    obtain ⟨hb, hu⟩ := not_or.mp fun h => hu (List.mem_cons.mpr h)
    rw [List.foldl_cons, ih hu, columnStep, if_neg (Ne.symm hb), List.length_cons]
    omega

/-- The position after some bytes, each of which takes one column. -/
def after (p : Position) (read : Bytes) : Position :=
  ⟨p.line + read.count (ascii '\n'), read.foldl columnStep p.column⟩

theorem after_append (p : Position) (u v : Bytes) : p.after (u ++ v) = (p.after u).after v := by
  simp only [after, List.count_append, List.foldl_append, Nat.add_assoc]

theorem after_of_line (hu : ascii '\n' ∉ u) (p : Position) :
    p.after u = ⟨p.line, p.column + u.length⟩ := by
  rw [after, List.count_eq_zero_of_not_mem hu, foldl_columnStep_of_line hu, Nat.add_zero]

theorem after_line_append (hu : ascii '\n' ∉ u) (p : Position) (v : Bytes) :
    p.after (u ++ v) = (⟨p.line, p.column + u.length⟩ : Position).after v := by
  rw [after_append, after_of_line hu]

theorem after_of_newline (hu : ascii '\n' ∉ u) (p : Position) :
    p.after (u ++ [ascii '\n']) = ⟨p.line + 1, 1⟩ := by
  rw [after_append, after_of_line hu]
  rfl

end Position

namespace Token.Scan

def isQuote (b : UInt8) : Bool := b == ascii '"' || b == 0x27

theorem isQuote_ne {mark : UInt8} (hmark : isQuote mark = true) : mark ≠ ascii '\\' ∧ mark ≠ ascii '\n' := by
  rw [isQuote, Bool.or_eq_true, beq_iff_eq, beq_iff_eq] at hmark
  rcases hmark with rfl | rfl <;> decide

/-- The escapes of one byte that are known, and what they stand for. -/
def shortEscapes : List (UInt8 × UInt8) :=
  [(ascii 'n', ascii '\n'), (ascii 't', ascii '\t'), (ascii 'r', ascii '\r'), (ascii '0', 0),
    (ascii '\\', ascii '\\'), (0x27, 0x27), (ascii '"', ascii '"')]

/-- The hexadecimal digits for a number below sixteen, one for each case. -/
def hexDigits (n : Nat) : Bytes :=
  [ascii (Bytes.lowerHexDigit n), ascii (Bytes.upperHexDigit n)]

/-- `Spells mark written value`: between two `mark`s, `written` stands for `value`. A byte stands for
itself or is written by an escape; an escape that is not known stands for itself too; and a
backslash at the end of a line joins it with the next one. -/
inductive Spells (mark : UInt8) : Bytes → Bytes → Prop
  | nil : Spells mark [] []
  | plain {b : UInt8} {written value : Bytes} (hmark : b ≠ mark) (hescape : b ≠ ascii '\\')
      (hline : b ≠ ascii '\n') (h : Spells mark written value) :
      Spells mark (b :: written) (b :: value)
  | hex {b high low : UInt8} {written value : Bytes} (hhigh : high ∈ hexDigits (b.toNat / 16))
      (hlow : low ∈ hexDigits (b.toNat % 16)) (h : Spells mark written value) :
      Spells mark (ascii '\\' :: ascii 'x' :: high :: low :: written) (b :: value)
  | short {e b : UInt8} {written value : Bytes} (he : (e, b) ∈ shortEscapes)
      (h : Spells mark written value) : Spells mark (ascii '\\' :: e :: written) (b :: value)
  | unknown {e : UInt8} {written value : Bytes}
      (he : e ∉ ascii '\n' :: ascii 'x' :: shortEscapes.map Prod.fst)
      (h : Spells mark written value) :
      Spells mark (ascii '\\' :: e :: written) (ascii '\\' :: e :: value)
  | joined {written value : Bytes} (h : Spells mark written value) :
      Spells mark (ascii '\\' :: ascii '\n' :: written) value

theorem Literal.prepend_eq_closed {l : Literal} {bs value rest : Bytes} {stop : Position}
    (h : l.prepend bs = .closed value rest stop) :
    ∃ value', l = .closed value' rest stop ∧ value = bs ++ value' := by
  cases l with
  | closed value' rest' stop' =>
    obtain ⟨rfl, rfl, rfl⟩ := Literal.closed.inj h
    exact ⟨value', rfl, rfl⟩
  | broken => cases h

section Escapes

variable {e b d high low : UInt8}

theorem escaped_of_mem (h : (e, b) ∈ shortEscapes) :
    e ≠ ascii '\n' ∧ e ≠ ascii 'x' ∧ escaped e = [b] := by
  simp only [shortEscapes, List.mem_cons, Prod.mk.injEq, List.not_mem_nil, or_false] at h
  rcases h with ⟨rfl, rfl⟩ | ⟨rfl, rfl⟩ | ⟨rfl, rfl⟩ | ⟨rfl, rfl⟩ | ⟨rfl, rfl⟩ | ⟨rfl, rfl⟩ |
    ⟨rfl, rfl⟩ <;> decide

theorem escaped_of_notMem (h : e ∉ shortEscapes.map Prod.fst) : escaped e = [ascii '\\', e] := by
  simp only [shortEscapes, List.map_cons, List.map_nil, List.mem_cons, List.not_mem_nil, or_false,
    not_or] at h
  obtain ⟨hn, ht, hr, hzero, hescape, hsingle, hdouble⟩ := h
  simp [escaped, hn, ht, hr, hzero, hescape, hsingle, hdouble]

theorem hexDigits_spec {n : Nat} (hn : n < 16) (hd : d ∈ hexDigits n) :
    Bytes.isHexDigit d = true ∧ Bytes.digitValue? d = some n := by
  obtain ⟨hvalue, hne, hhex⟩ := Number.IsDigit.facts ⟨hn, List.mem_pair.mp hd⟩ (Nat.le_refl 16)
  rw [isHexOrUnderscore, Bool.or_eq_true, beq_iff_eq] at hhex
  exact ⟨hhex.resolve_right hne, hvalue⟩

theorem mem_hexDigits (hd : Bytes.isHexDigit d = true) :
    ∃ n < 16, Bytes.digitValue? d = some n ∧ d ∈ hexDigits n := by
  have hall : ∀ m < 256, Bytes.isHexDigit (UInt8.ofNat m) = true →
      ∃ n < 16, Bytes.digitValue? (UInt8.ofNat m) = some n ∧ UInt8.ofNat m ∈ hexDigits n := by
    decide +kernel
  have h := hall d.toNat d.toNat_lt
  rw [UInt8.ofNat_toNat] at h
  exact h hd

theorem hexByte_of_mem (hhigh : high ∈ hexDigits (b.toNat / 16))
    (hlow : low ∈ hexDigits (b.toNat % 16)) :
    (Bytes.isHexDigit high && Bytes.isHexDigit low) = true ∧ hexByte high low = b := by
  have hb : b.toNat < 256 := b.toNat_lt
  obtain ⟨hhighDigit, hhighValue⟩ := hexDigits_spec (by omega) hhigh
  obtain ⟨hlowDigit, hlowValue⟩ := hexDigits_spec (by omega) hlow
  refine ⟨by rw [hhighDigit, hlowDigit]; rfl, ?_⟩
  rw [hexByte, hhighValue, hlowValue, Option.getD_some, Option.getD_some, Nat.div_add_mod',
    UInt8.ofNat_toNat]

theorem mem_hexDigits_hexByte (h : (Bytes.isHexDigit high && Bytes.isHexDigit low) = true) :
    high ∈ hexDigits ((hexByte high low).toNat / 16) ∧
      low ∈ hexDigits ((hexByte high low).toNat % 16) := by
  rw [Bool.and_eq_true] at h
  obtain ⟨m, hm, hhighValue, hhigh⟩ := mem_hexDigits h.1
  obtain ⟨n, hn, hlowValue, hlow⟩ := mem_hexDigits h.2
  have hbyte : (hexByte high low).toNat = m * 16 + n := by
    rw [hexByte, hhighValue, hlowValue, Option.getD_some, Option.getD_some, UInt8.toNat_ofNat']
    omega
  have hdiv : (hexByte high low).toNat / 16 = m := by omega
  have hmod : (hexByte high low).toNat % 16 = n := by omega
  rw [hdiv, hmod]
  exact ⟨hhigh, hlow⟩

end Escapes

variable {mark : UInt8} {p stop : Position} {bs written value rest : Bytes}

theorem literal_escape (hmark : mark ≠ ascii '\\') {e : UInt8} (hx : e ≠ ascii 'x') (p : Position)
    (rest : Bytes) : literal mark p (ascii '\\' :: e :: rest) =
      if e == ascii '\n' then literal mark ⟨p.line + 1, 1⟩ rest
      else (literal mark ⟨p.line, p.column + 2⟩ rest).prepend (escaped e) := by
  have hm : (ascii '\\' == mark) = false := beq_eq_false_iff_ne.mpr hmark.symm
  have hx' : (e == ascii 'x') = false := beq_eq_false_iff_ne.mpr hx
  rw [literal.eq_def]
  dsimp only
  rw [hm, hx', if_neg (by decide), if_neg (by decide), if_neg (by decide)]
  simp only [Bool.false_eq_true, if_false]

theorem literal_of_spells (hmark : mark ≠ ascii '\\') (hline : mark ≠ ascii '\n')
    (h : Spells mark written value) (p : Position) (rest : Bytes) :
    ∃ stop, literal mark p (written ++ mark :: rest) = .closed value rest stop := by
  induction h generalizing p with
  | nil =>
    rw [List.nil_append, literal.eq_def]
    simp only
    rw [if_neg (by simpa using hline), if_pos (by simp)]
    exact ⟨_, rfl⟩
  | plain hb hescape hnewline _ ih =>
    obtain ⟨stop, hstop⟩ := ih ⟨p.line, p.column + 1⟩
    rw [List.cons_append, literal.eq_def]
    simp only
    rw [if_neg (by simpa using hnewline), if_neg (by simpa using hb), if_pos (by simpa using hescape),
      hstop]
    exact ⟨_, rfl⟩
  | hex hhigh hlow _ ih =>
    obtain ⟨hdigits, hbyte⟩ := hexByte_of_mem hhigh hlow
    obtain ⟨stop, hstop⟩ := ih ⟨p.line, p.column + 4⟩
    simp only [List.cons_append]
    rw [literal, if_neg (by decide), if_neg (by simpa using hmark.symm), if_neg (by decide),
      if_neg (by decide), if_pos (by decide), if_pos hdigits, hbyte, hstop]
    exact ⟨_, rfl⟩
  | short he _ ih =>
    obtain ⟨hnewline, hx, hescaped⟩ := escaped_of_mem he
    obtain ⟨stop, hstop⟩ := ih ⟨p.line, p.column + 2⟩
    rw [List.cons_append, List.cons_append, literal_escape hmark hx, if_neg (by simpa using hnewline),
      hescaped, hstop]
    exact ⟨_, rfl⟩
  | unknown he _ ih =>
    obtain ⟨hnewline, he⟩ := not_or.mp fun h => he (List.mem_cons.mpr h)
    obtain ⟨hx, he⟩ := not_or.mp fun h => he (List.mem_cons.mpr h)
    obtain ⟨stop, hstop⟩ := ih ⟨p.line, p.column + 2⟩
    rw [List.cons_append, List.cons_append, literal_escape hmark hx, if_neg (by simpa using hnewline),
      escaped_of_notMem he, hstop]
    exact ⟨_, rfl⟩
  | joined _ ih =>
    obtain ⟨stop, hstop⟩ := ih ⟨p.line + 1, 1⟩
    rw [List.cons_append, List.cons_append, literal_escape hmark (by decide), if_pos (by decide),
      hstop]
    exact ⟨_, rfl⟩

theorem spells_of_literal (h : literal mark p bs = .closed value rest stop) :
    ∃ written, bs = written ++ mark :: rest ∧ Spells mark written value ∧
      stop = p.after (written ++ [mark]) := by
  -- On the number of bytes, since an escape uses up two or four of them at once.
  induction hn : bs.length using Nat.strongRecOn generalizing p bs value with
  | ind n ih =>
    rcases bs with _ | ⟨b, bs⟩
    · rw [literal.eq_def] at h
      cases h
    rw [List.length_cons] at hn
    rw [literal.eq_def] at h
    dsimp only at h
    by_cases hb : b == ascii '\n'
    · rw [if_pos hb] at h
      cases h
    rw [if_neg hb] at h
    have hline : ascii '\n' ∉ [b] := by simpa using Ne.symm (by simpa using hb)
    by_cases hm : b == mark
    · rw [if_pos hm] at h
      obtain ⟨rfl, rfl, rfl⟩ := Literal.closed.inj h
      rw [beq_iff_eq.mp hm] at hline ⊢
      exact ⟨[], rfl, .nil, (Position.after_of_line hline p).symm⟩
    rw [if_neg hm] at h
    by_cases hs : b != ascii '\\'
    · rw [if_pos hs] at h
      obtain ⟨value', hl, rfl⟩ := Literal.prepend_eq_closed h
      obtain ⟨w, rfl, hw, rfl⟩ := ih _ (by omega) hl rfl
      refine ⟨b :: w, rfl, .plain (by simpa using hm) (by simpa using hs) (by simpa using hb) hw, ?_⟩
      exact (Position.after_line_append hline p (w ++ [mark])).symm
    rw [if_neg hs] at h
    obtain rfl : b = ascii '\\' := by simpa using hs
    rcases bs with _ | ⟨e, bs⟩
    · cases h
    rw [List.length_cons] at hn
    dsimp only at h
    by_cases he : e == ascii '\n'
    · rw [if_pos he] at h
      rw [beq_iff_eq.mp he]
      obtain ⟨w, rfl, hw, rfl⟩ := ih _ (by omega) h rfl
      refine ⟨ascii '\\' :: ascii '\n' :: w, rfl, .joined hw, ?_⟩
      calc (⟨p.line + 1, 1⟩ : Position).after (w ++ [mark])
          = (p.after ([ascii '\\'] ++ [ascii '\n'])).after (w ++ [mark]) := by
            rw [Position.after_of_newline hline]
        _ = p.after ([ascii '\\', ascii '\n'] ++ (w ++ [mark])) :=
            (Position.after_append p _ _).symm
    rw [if_neg he] at h
    have hpair : ascii '\n' ∉ [ascii '\\', e] := by
      simp only [List.mem_cons, List.not_mem_nil, or_false, not_or] at hline ⊢
      exact ⟨hline, Ne.symm (by simpa using he)⟩
    by_cases hx : e == ascii 'x'
    · rw [if_pos hx] at h
      rw [beq_iff_eq.mp hx] at hpair ⊢
      rcases bs with _ | ⟨high, _ | ⟨low, bs⟩⟩
      · cases h
      · cases h
      rw [List.length_cons, List.length_cons] at hn
      dsimp only at h
      by_cases hd : Bytes.isHexDigit high && Bytes.isHexDigit low
      · rw [if_pos hd] at h
        obtain ⟨value', hl, rfl⟩ := Literal.prepend_eq_closed h
        obtain ⟨w, rfl, hw, rfl⟩ := ih _ (by omega) hl rfl
        obtain ⟨hhigh, hlow⟩ := mem_hexDigits_hexByte hd
        have hfour : ascii '\n' ∉ [ascii '\\', ascii 'x', high, low] := by
          have hdigit {d : UInt8} (hd : Bytes.isHexDigit d = true) : ascii '\n' ≠ d := by
            rintro rfl
            exact absurd hd (by decide)
          rw [Bool.and_eq_true] at hd
          simp only [List.mem_cons, List.not_mem_nil, or_false, not_or] at hpair ⊢
          exact ⟨hpair.1, hpair.2, hdigit hd.1, hdigit hd.2⟩
        exact ⟨_, rfl, .hex hhigh hlow hw, (Position.after_line_append hfour p (w ++ [mark])).symm⟩
      · rw [if_neg hd] at h
        cases h
    rw [if_neg hx] at h
    obtain ⟨value', hl, rfl⟩ := Literal.prepend_eq_closed h
    obtain ⟨w, rfl, hw, rfl⟩ := ih _ (by omega) hl rfl
    have hstop := (Position.after_line_append hpair p (w ++ [mark])).symm
    by_cases hshort : e ∈ shortEscapes.map Prod.fst
    · obtain ⟨⟨e, b⟩, hmem, rfl⟩ := List.mem_map.mp hshort
      rw [(escaped_of_mem hmem).2.2]
      exact ⟨_, rfl, .short hmem hw, hstop⟩
    · rw [escaped_of_notMem hshort]
      have hnot : e ∉ ascii '\n' :: ascii 'x' :: shortEscapes.map Prod.fst := by
        simp only [List.mem_cons, not_or]
        exact ⟨by simpa using he, by simpa using hx, hshort⟩
      exact ⟨_, rfl, .unknown hnot hw, hstop⟩

theorem literal_closed (hmark : mark ≠ ascii '\\') (hline : mark ≠ ascii '\n')
    (h : literal mark p bs = .closed value rest stop) :
    ∃ u, u ≠ [] ∧ bs = u ++ rest ∧ ∀ w, literal mark p (u ++ w) = .closed value w stop := by
  obtain ⟨written, rfl, hspells, rfl⟩ := spells_of_literal h
  refine ⟨written ++ [mark], by simp, by simp, fun w => ?_⟩
  obtain ⟨stop, hstop⟩ := literal_of_spells hmark hline hspells p w
  obtain ⟨written', heq, -, rfl⟩ := spells_of_literal hstop
  obtain rfl : written = written' := List.append_cancel_right heq
  rw [List.append_assoc]
  exact hstop

def Literal.closed? : Literal → Option (Bytes × Bytes)
  | closed value rest _ => some (value, rest)
  | broken .. => none

theorem Literal.closed?_prepend (bs : Bytes) (l : Literal) :
    (l.prepend bs).closed? = l.closed?.map fun x => (bs ++ x.1, x.2) := by
  cases l <;> rfl

theorem closed?_of_spells (hmark : isQuote mark = true) (h : Spells mark written value)
    (p : Position) (rest : Bytes) :
    (literal mark p (written ++ mark :: rest)).closed? = some (value, rest) := by
  obtain ⟨hescape, hnewline⟩ := isQuote_ne hmark
  obtain ⟨stop, hstop⟩ := literal_of_spells hescape hnewline h p rest
  rw [hstop]
  rfl

theorem spells_of_closed? (h : (literal mark p bs).closed? = some (value, rest)) :
    ∃ written, bs = written ++ mark :: rest ∧ Spells mark written value := by
  cases hl : literal mark p bs with
  | closed value' rest' stop =>
    rw [hl] at h
    obtain ⟨rfl, rfl⟩ := Prod.mk.inj (Option.some.inj h)
    obtain ⟨written, hbs, hspells, -⟩ := spells_of_literal hl
    exact ⟨written, hbs, hspells⟩
  | broken =>
    rw [hl] at h
    cases h

theorem literal_closed?_position (hmark : isQuote mark = true) (p q : Position) (bs : Bytes) :
    (literal mark p bs).closed? = (literal mark q bs).closed? := by
  have hsome {p q : Position} {x : Bytes × Bytes} (h : (literal mark p bs).closed? = some x) :
      (literal mark q bs).closed? = some x := by
    obtain ⟨written, rfl, hspells⟩ := spells_of_closed? h
    exact closed?_of_spells hmark hspells q x.2
  exact Option.ext fun x => ⟨hsome, hsome⟩

theorem literal_closed?_append (hmark : isQuote mark = true)
    (h : (literal mark p bs).closed? = some (value, rest)) (w : Bytes) :
    (literal mark p (bs ++ w)).closed? = some (value, rest ++ w) := by
  obtain ⟨written, rfl, hspells⟩ := spells_of_closed? h
  rw [List.append_assoc]
  exact closed?_of_spells hmark hspells p (rest ++ w)

end Token.Scan

end BoardPython
