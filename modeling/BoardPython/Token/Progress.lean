import BoardPython.Token.Lexer

/-! Every step of a lexer brings the end of the text nearer. Main statement: `step_work`. -/
namespace BoardPython

open Token (Kind)
open Bytes (ascii)

namespace Token.Scan

theorem nameSpan_length (bs : Bytes) : (nameSpan bs).2.length ≤ bs.length := by
  fun_induction nameSpan bs with
  | case1 bs c rest h hc cs after hr ih =>
    have := Text.Utf8.decode?_length h
    simp only [hr] at ih ⊢
    omega
  | case2 => exact Nat.le_refl _
  | case3 => exact Nat.le_refl _

theorem nameSpan_length_lt {bs : Bytes} (h : startsName bs = true) :
    (nameSpan bs).2.length < bs.length := by
  unfold startsName at h
  split at h
  · rename_i c rest hd
    have hc : isNameChar c = true := by
      simp only [isNameChar, Bool.or_eq_true, beq_iff_eq] at h ⊢
      rcases h with h | h
      · exact Or.inl (Or.inl h)
      · exact Or.inl (Or.inr h)
    have hlt := Text.Utf8.decode?_length hd
    have hle := nameSpan_length rest
    unfold nameSpan
    split
    · rename_i c' rest' hd'
      rw [hd] at hd'
      obtain ⟨rfl, rfl⟩ := Prod.mk.inj (Option.some.inj hd')
      rw [if_pos hc]
      exact Nat.lt_of_le_of_lt hle hlt
    · rename_i hn
      rw [hd] at hn
      contradiction
  · contradiction

theorem literal_rest_length (mark : UInt8) (p : Position) (bs : Bytes) :
    (literal mark p bs).rest.length ≤ bs.length := by
  induction hn : bs.length using Nat.strongRecOn generalizing p bs with
  | ind n ih =>
    have next (q : Position) (rest : Bytes) (hr : rest.length < n) :
        (literal mark q rest).rest.length ≤ n := by
      have := ih rest.length hr q rest rfl
      omega
    unfold literal
    split
    · simp [Literal.rest]
    · simp only [List.length_cons] at hn
      split
      · simp only [Literal.rest, List.length_cons]; omega
      split
      · simp only [Literal.rest]; omega
      split
      · rw [Literal.rest_prepend]; exact next _ _ (by omega)
      split
      · simp only [Literal.rest, List.length_cons, List.length_nil] at hn ⊢; omega
      simp only [List.length_cons] at hn
      split
      · exact next _ _ (by omega)
      split
      · split
        · simp only [List.length_cons] at hn
          split
          · rw [Literal.rest_prepend]; exact next _ _ (by omega)
          · simp only [Literal.rest, List.length_cons]; omega
        · simp only [Literal.rest]; omega
      · rw [Literal.rest_prepend]; exact next _ _ (by omega)

theorem digitsLength_pos {b : UInt8} {rest : Bytes} (h : Bytes.isDigit b = true) :
    0 < digitsLength (b :: rest) := by
  simp [digitsLength, isDigitOrUnderscore, h]

theorem decimalSpan_length_pos {bs : Bytes} (h : startsNumber bs = true) :
    0 < (decimalSpan bs).length := by
  have hm : 0 < digitsLength bs + fractionLength (bs.drop (digitsLength bs)) := by
    by_cases hd : 0 < digitsLength bs
    · omega
    · have h0 : digitsLength bs = 0 := by omega
      rw [h0, List.drop_zero]
      match bs, h with
      | a :: b :: _, h =>
        simp only [startsNumber, Bool.or_eq_true, Bool.and_eq_true] at h
        rcases h with h | h
        · exact absurd (digitsLength_pos h) hd
        · simp only [fractionLength, h.1, if_true]
          omega
      | [a], h => exact absurd (digitsLength_pos h) hd
  simp only [decimalSpan]
  split <;> simp only <;> omega

theorem numberSpan_length_pos {bs : Bytes} (h : startsNumber bs = true) :
    0 < (numberSpan bs).length := by
  unfold numberSpan
  split
  · split
    · simp only
      omega
    · exact decimalSpan_length_pos h
  · exact decimalSpan_length_pos h

theorem spelling_length_pos {bs : Bytes} {k : Kind} (h : operator? bs = some k) :
    0 < k.spelling.length := by
  have hm : k ∈ Kind.operators := List.mem_of_find?_eq_some h
  have ha : ∀ k ∈ Kind.operators, 0 < k.spelling.length := by decide
  exact ha k hm

end Token.Scan

namespace Lexer

/-- What is left to do: bytes to read, each of which may start a line whose indentation has to be
looked at first. -/
def work (s : Lexer) : Nat := 2 * s.rest.length + (if s.lineStart && s.depth == 0 then 1 else 0)

theorem work_le (s : Lexer) : s.work ≤ 2 * s.rest.length + 1 := by
  unfold work
  split <;> omega

theorem le_work (s : Lexer) : 2 * s.rest.length ≤ s.work := by
  unfold work
  omega

theorem work_lt_of_rest {s t : Lexer} (h : t.rest.length < s.rest.length) : t.work < s.work := by
  have := t.work_le
  have := s.le_work
  omega

theorem length_rest_advance (s : Lexer) (n : Nat) :
    (s.advance n).rest.length = s.rest.length - n := by
  simp [advance]

theorem length_rest_nextLine (s : Lexer) (n : Nat) :
    (s.nextLine n).rest.length = s.rest.length - n := by
  simp [nextLine]

theorem lexeme_rest {s s' : Lexer} {b : UInt8} {r : Bytes} {ts : List Token}
    (hs : s.rest = b :: r) (h : s.lexeme b = .more ts s') : s'.rest.length < s.rest.length := by
  have hpos : 0 < s.rest.length := by simp [hs]
  unfold lexeme at h
  split at h
  · unfold newline at h
    simp only at h
    split at h
    · obtain ⟨-, rfl⟩ := Step.more.inj h
      simp only [length_rest_nextLine]
      omega
    · obtain ⟨-, rfl⟩ := Step.more.inj h
      simp only [length_rest_nextLine]
      omega
  split at h
  · obtain ⟨-, rfl⟩ := Step.more.inj h
    rw [length_rest_advance]
    omega
  split at h
  · obtain ⟨-, rfl⟩ := Step.more.inj h
    rw [length_rest_nextLine]
    omega
  split at h
  · rename_i hb
    obtain ⟨-, rfl⟩ := Step.more.inj h
    rw [skipComment, length_rest_advance]
    have : 0 < (s.rest.takeWhile Token.Scan.isCommentByte).length := by
      have hc : b = ascii '#' := by simpa using hb
      rw [hs, List.takeWhile_cons_of_pos (by subst hc; decide)]
      simp
    omega
  split at h
  · rename_i hn
    have := Token.Scan.numberSpan_length_pos hn
    unfold number at h
    simp only at h
    split at h
    · cases h
    split at h
    · cases h
    obtain ⟨-, rfl⟩ := Step.more.inj h
    simp only [length_rest_advance]
    omega
  split at h
  · rename_i hn
    have := Token.Scan.nameSpan_length_lt hn
    unfold word at h
    simp only at h
    obtain ⟨-, rfl⟩ := Step.more.inj h
    exact this
  split at h
  · unfold string at h
    have hl := Token.Scan.literal_rest_length b (s.advance 1).position (s.rest.drop 1)
    split at h
    · rename_i value rest stop heq
      simp only [heq, Token.Scan.Literal.rest] at hl
      obtain ⟨-, rfl⟩ := Step.more.inj h
      simp only [List.length_drop] at hl ⊢
      omega
    · cases h
  · unfold operator at h
    split at h
    · cases h
    · rename_i k hk
      have := Token.Scan.spelling_length_pos hk
      simp only at h
      obtain ⟨-, rfl⟩ := Step.more.inj h
      simp only [length_rest_advance]
      omega

theorem endBlankLine_rest {s s' : Lexer} {ts : List Token} (h : s.endBlankLine = .more ts s') :
    s'.rest.length = s.rest.length - 1 := by
  unfold endBlankLine at h
  obtain ⟨-, rfl⟩ := Step.more.inj h
  split
  · rename_i he
    simp [List.isEmpty_iff.mp he]
  · rw [length_rest_nextLine]

/-- Looking at the indentation of a line reads a byte or settles the indentation. -/
theorem layout_work {s s' : Lexer} {b : UInt8} {r : Bytes} {ts : List Token}
    (hs : s.rest = b :: r) (hl : (s.lineStart && s.depth == 0) = true)
    (h : s.layout = .more ts s') : s'.work < s.work := by
  have hpos : 0 < s.rest.length := by simp [hs]
  have hw : s.work = 2 * s.rest.length + 1 := by simp [work, hl]
  unfold layout at h
  simp only at h
  have hle := length_rest_advance s (s.rest.takeWhile Token.Scan.isIndentation).length
  split at h
  · rename_i he
    have := endBlankLine_rest h
    rw [he] at this
    exact work_lt_of_rest (by simp only [List.length_nil] at this; omega)
  · rename_i c tail hc
    have hcpos : 0 < (s.advance (s.rest.takeWhile Token.Scan.isIndentation).length).rest.length := by
      simp [hc]
    split at h
    · have := endBlankLine_rest h
      exact work_lt_of_rest (by omega)
    split at h
    · rename_i hh
      have := endBlankLine_rest h
      rw [skipComment, length_rest_advance] at this
      have htake : 0 < ((s.advance
          (s.rest.takeWhile Token.Scan.isIndentation).length).rest.takeWhile
            Token.Scan.isCommentByte).length := by
        have : c = ascii '#' := by simpa using hh
        rw [hc, List.takeWhile_cons_of_pos (by subst this; decide)]
        simp
      exact work_lt_of_rest (by omega)
    · unfold indent at h
      simp only at h
      split at h
      · obtain ⟨-, rfl⟩ := Step.more.inj h
        simp only [work, Bool.false_and, Bool.false_eq_true, if_false] at hw ⊢
        omega
      · split at h
        · obtain ⟨-, rfl⟩ := Step.more.inj h
          simp only [work, Bool.false_and, Bool.false_eq_true, if_false] at hw ⊢
          omega
        · cases h

theorem step_work {s s' : Lexer} {b : UInt8} {r : Bytes} {ts : List Token}
    (hs : s.rest = b :: r) (h : s.step b = .more ts s') : s'.work < s.work := by
  unfold step at h
  split at h
  · rename_i hl
    exact layout_work hs hl h
  · exact work_lt_of_rest (lexeme_rest hs h)

end Lexer

end BoardPython
