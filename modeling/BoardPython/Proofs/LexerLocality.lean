import BoardPython.Proofs.LiteralSpelling
import BoardPython.Proofs.ScanLocality
import BoardPython.Token.Tokenize

/-! Runs of a lexer on two texts that differ in one gap. As long as both runs stand in front of the
gap they are the same: `visits_of_gap`. -/
namespace BoardPython

open Token (Kind)
open Token.Scan
open Bytes (ascii)

namespace Lexer

def withRest (s : Lexer) (r : Bytes) : Lexer := { s with rest := r }

/-- Steps from one lexer to another, and the tokens they give. -/
inductive Visits : Lexer → List Token → Lexer → Prop
  | here (s : Lexer) : Visits s [] s
  | step {s next t : Lexer} {b : UInt8} {r : Bytes} {ts us : List Token}
      (hs : s.rest = b :: r) (h : s.step b = .more ts next) (ht : Visits next us t) :
      Visits s (ts ++ us) t

theorem step_rest_le {s next : Lexer} {b : UInt8} {r : Bytes} {ts : List Token}
    (hs : s.rest = b :: r) (h : s.step b = .more ts next) : next.rest.length ≤ s.rest.length := by
  have hw := step_work hs h
  have := next.le_work
  have := s.work_le
  omega

theorem Visits.rest_le {s t : Lexer} {ts : List Token} (h : Visits s ts t) :
    t.rest.length ≤ s.rest.length := by
  induction h with
  | here s => exact Nat.le_refl _
  | step hs h _ ih => exact Nat.le_trans ih (step_rest_le hs h)

section Gap

variable {c c' : UInt8} {b : Bytes}

variable {s s' t' : Lexer} {ts ts' : List Token} {u v : Bytes} {x : UInt8}

theorem drop_gap_of_lt {n : Nat} (h : b.length < ((u ++ c :: b).drop n).length) :
    n ≤ u.length ∧ (u ++ c :: b).drop n = u.drop n ++ c :: b := by
  simp only [List.length_drop, List.length_append, List.length_cons] at h
  have hn : n ≤ u.length := by omega
  exact ⟨hn, List.drop_append_of_le_length hn⟩

theorem takeWhile_gap {p : UInt8 → Bool} (h : ((u ++ c :: b).takeWhile p).length ≤ u.length)
    (h' : ((u ++ c' :: b).takeWhile p).length ≤ u.length) :
    (u ++ c' :: b).takeWhile p = (u ++ c :: b).takeWhile p := by
  rw [takeWhile_append_of_length_le u _ h, takeWhile_append_of_length_le u _ h']

/-- What two steps in front of different gaps have in common: they give the same tokens, read the
same bytes and change the lexer in the same way. -/
structure SameStep (c c' : UInt8) (b : Bytes) (ts ts' : List Token) (s' t' : Lexer) : Prop where
  tokens : ts' = ts
  rest : ∃ u, s'.rest = u ++ c :: b ∧ t' = s'.withRest (u ++ c' :: b)

theorem sameStep_advance {n : Nat} (hs : s.rest = u ++ c :: b)
    (hr : b.length < (s.advance n).rest.length) (ts : List Token) :
    SameStep c c' b ts ts (s.advance n) ((s.withRest (u ++ c' :: b)).advance n) := by
  simp only [advance, hs] at hr
  obtain ⟨hn, hd⟩ := drop_gap_of_lt hr
  refine ⟨rfl, u.drop n, by rw [advance, hs, hd], ?_⟩
  simp only [advance, withRest, List.drop_append_of_le_length hn]

theorem sameStep_skipComment (hs : s.rest = u ++ c :: b) (hr : b.length < s.skipComment.rest.length)
    (hr' : b.length < (s.withRest (u ++ c' :: b)).skipComment.rest.length) (ts : List Token) :
    SameStep c c' b ts ts s.skipComment (s.withRest (u ++ c' :: b)).skipComment := by
  have hn : (s.rest.takeWhile isCommentByte).length ≤ u.length := by
    simp only [skipComment, advance, hs] at hr ⊢
    exact (drop_gap_of_lt hr).1
  have hn' : ((u ++ c' :: b).takeWhile isCommentByte).length ≤ u.length :=
    (drop_gap_of_lt hr').1
  have he : (u ++ c' :: b).takeWhile isCommentByte =
      s.rest.takeWhile isCommentByte := by
    rw [hs] at hn ⊢
    exact takeWhile_gap hn hn'
  have hw : (s.withRest (u ++ c' :: b)).skipComment =
      (s.withRest (u ++ c' :: b)).advance (s.rest.takeWhile isCommentByte).length := by
    rw [← he]
    rfl
  rw [hw]
  exact sameStep_advance hs hr ts

theorem lexeme_backslash_gap {next : Lexer} (hc : isBreak c = true)
    (hs : s.rest = ascii '\\' :: c :: b) (h : s.lexeme (ascii '\\') = .more ts next) :
    next.rest.length ≤ b.length := by
  unfold lexeme at h
  rw [if_neg (by decide), if_neg (by decide)] at h
  split at h
  · obtain ⟨-, rfl⟩ := Step.more.inj h
    simp [nextLine, hs]
  rw [if_neg (by decide)] at h
  have hn : startsNumber s.rest = false := by
    rw [hs]
    exact (startsNumber_append_break (ascii '\\') [] b hc).trans (by decide)
  have hw : startsName s.rest = false := by
    rw [hs]
    exact (startsName_append_break [ascii '\\'] b hc).trans (by decide)
  have ho : operator? s.rest = none := by
    rw [hs]
    exact (operator?_append_break [ascii '\\'] b hc).trans (by decide)
  rw [if_neg (by simp [hn]), if_neg (by simp [hw]), if_neg (by decide)] at h
  unfold operator at h
  rw [ho] at h
  cases h

theorem continuesLine_gap (hx : v = [] → x ≠ ascii '\\') :
    continuesLine (x :: v ++ c' :: b) = continuesLine (x :: v ++ c :: b) := by
  cases v with
  | nil =>
    have hb : (x == ascii '\\') = false := by simpa using hx rfl
    simp only [List.cons_append, List.nil_append, continuesLine, hb, Bool.false_and]
  | cons y v => rfl

theorem newline_of_ends (h : s.depth = 0 ∧ s.last.isSome ∧ s.last ≠ some .newline) :
    s.newline = .more [s.token .newline []]
      { s.nextLine 1 with lineStart := true, last := some .newline } := by
  rw [newline, if_pos h]
  rfl

theorem newline_of_not_ends (h : ¬(s.depth = 0 ∧ s.last.isSome ∧ s.last ≠ some .newline)) :
    s.newline = .more [] { s.nextLine 1 with lineStart := true } := by
  rw [newline, if_neg h]

theorem sameStep_newline (hs : s.rest = x :: v ++ c :: b) (h : s.newline = .more ts s')
    (h' : (s.withRest (x :: v ++ c' :: b)).newline = .more ts' t') : SameStep c c' b ts ts' s' t'
    := by
  have hn : (s.nextLine 1).rest = v ++ c :: b := by simp [nextLine, hs]
  have hn' : (s.withRest (x :: v ++ c' :: b)).nextLine 1 =
      (s.nextLine 1).withRest (v ++ c' :: b) := by
    simp [nextLine, withRest]
  by_cases hd : s.depth = 0 ∧ s.last.isSome ∧ s.last ≠ some .newline
  · rw [newline_of_ends hd] at h
    rw [newline_of_ends (s := s.withRest (x :: v ++ c' :: b)) hd, hn'] at h'
    obtain ⟨rfl, rfl⟩ := Step.more.inj h
    obtain ⟨rfl, rfl⟩ := Step.more.inj h'
    exact ⟨rfl, v, hn, rfl⟩
  · rw [newline_of_not_ends hd] at h
    rw [newline_of_not_ends (s := s.withRest (x :: v ++ c' :: b)) hd, hn'] at h'
    obtain ⟨rfl, rfl⟩ := Step.more.inj h
    obtain ⟨rfl, rfl⟩ := Step.more.inj h'
    exact ⟨rfl, v, hn, rfl⟩

theorem sameStep_number (hc : isBreak c = true) (hc' : isBreak c' = true)
    (hs : s.rest = x :: v ++ c :: b) (h : s.number = .more ts s')
    (h' : (s.withRest (x :: v ++ c' :: b)).number = .more ts' t') : SameStep c c' b ts ts' s' t'
    := by
  have hn := numberSpan_length_le (x :: v)
  unfold number at h h'
  simp only [withRest, advance, hs, numberSpan_append_break x v b hc,
    numberSpan_append_break x v b hc', List.drop_append_of_le_length hn,
    startsName_append_break _ b hc, startsName_append_break _ b hc',
    List.take_append_of_le_length hn] at h h'
  split at h
  · cases h
  rename_i hcomplete
  simp only [hcomplete, Bool.false_eq_true, if_false] at h'
  split at h
  · cases h
  rename_i hname
  simp only [hname] at h'
  obtain ⟨rfl, rfl⟩ := Step.more.inj h
  obtain ⟨rfl, rfl⟩ := Step.more.inj h'
  exact ⟨rfl, _, rfl, rfl⟩

theorem sameStep_word (hc : isBreak c = true) (hc' : isBreak c' = true) (hs : s.rest = u ++ c :: b)
    (h : s.word = .more ts s') (h' : (s.withRest (u ++ c' :: b)).word = .more ts' t') :
    SameStep c c' b ts ts' s' t' := by
  have hl := nameSpan_length u
  have hk (x : UInt8) : (u ++ x :: b).length - ((nameSpan u).2 ++ x :: b).length =
      u.length - (nameSpan u).2.length := by
    simp only [List.length_append, List.length_cons]
    omega
  unfold word at h h'
  simp only [withRest, hs, nameSpan_append_break u b hc,
    nameSpan_append_break u b hc', hk,
    List.take_append_of_le_length (Nat.sub_le u.length _)] at h h'
  obtain ⟨rfl, rfl⟩ := Step.more.inj h
  obtain ⟨rfl, rfl⟩ := Step.more.inj h'
  exact ⟨rfl, _, rfl, rfl⟩

theorem sameStep_string (hx : (x == ascii '"' || x == 0x27) = true) (hs : s.rest = x :: v ++ c :: b)
    (h : s.string x = .more ts s') (hr : b.length < s'.rest.length)
    (h' : (s.withRest (x :: v ++ c' :: b)).string x = .more ts' t') :
    SameStep c c' b ts ts' s' t' := by
  unfold string at h h'
  simp only [hs, withRest, List.cons_append, List.drop_one, List.tail_cons] at h h'
  split at h
  · rename_i value rest stop hl
    obtain ⟨rfl, rfl⟩ := Step.more.inj h
    obtain ⟨hescape, hline⟩ := isQuote_ne hx
    obtain ⟨u, -, hu, hw⟩ := literal_closed hescape hline hl
    -- The literal ends in front of the gap, so the bytes after it end with the gap.
    have hlen : (c :: b).length ≤ rest.length := hr
    obtain ⟨w, rfl, rfl⟩ : ∃ w, rest = w ++ c :: b ∧ v = u ++ w := by
      rcases List.append_eq_append_iff.mp hu with ⟨w, hu, hw⟩ | ⟨w, hu, hw⟩
      · rw [hw] at hlen
        have hw0 : w = [] := by
          simp only [List.length_append] at hlen
          have := congrArg List.length hw
          simp only [List.length_append, List.length_cons] at this hlen
          exact List.eq_nil_of_length_eq_zero (by omega)
        subst hw0
        exact ⟨[], by simpa using hw.symm, by simpa using hu.symm⟩
      · exact ⟨w, hw, hu⟩
    have hl' := hw (w ++ c' :: b)
    rw [← List.append_assoc] at hl'
    have hp : ({ s with rest := x :: (u ++ w ++ c' :: b) } : Lexer).advance 1 =
        (s.advance 1).withRest (u ++ w ++ c' :: b) := by
      simp [advance, withRest]
    rw [hp] at h'
    have hq : ((s.advance 1).withRest (u ++ w ++ c' :: b)).position = (s.advance 1).position := rfl
    rw [hq, hl'] at h'
    obtain ⟨rfl, rfl⟩ := Step.more.inj h'
    exact ⟨rfl, w, rfl, rfl⟩
  · cases h

theorem sameStep_operator (hc : isBreak c = true) (hc' : isBreak c' = true)
    (hs : s.rest = u ++ c :: b) (h : s.operator = .more ts s')
    (h' : (s.withRest (u ++ c' :: b)).operator = .more ts' t') : SameStep c c' b ts ts' s' t' := by
  unfold operator at h h'
  simp only [withRest, hs, operator?_append_break u b hc,
    operator?_append_break u b hc'] at h h'
  cases ho : operator? u with
  | none =>
    rw [ho] at h
    cases h
  | some k =>
    have hk := spelling_length_le ho
    rw [ho] at h h'
    obtain ⟨rfl, rfl⟩ := Step.more.inj h
    obtain ⟨rfl, rfl⟩ := Step.more.inj h'
    refine ⟨rfl, u.drop k.spelling.length, ?_, ?_⟩
    · simp only [advance, hs, List.drop_append_of_le_length hk]
    · simp only [advance, withRest, hs, List.drop_append_of_le_length hk]

theorem sameStep_lexeme (hc : isBreak c = true) (hc' : isBreak c' = true)
    (hs : s.rest = x :: v ++ c :: b) (h : s.lexeme x = .more ts s') (hr : b.length < s'.rest.length)
    (h' : (s.withRest (x :: v ++ c' :: b)).lexeme x = .more ts' t')
    (hr' : b.length < t'.rest.length) : SameStep c c' b ts ts' s' t' := by
  have hx : v = [] → x ≠ ascii '\\' := by
    rintro rfl rfl
    have := lexeme_backslash_gap hc hs h
    omega
  have hcont : continuesLine (x :: v ++ c' :: b) = continuesLine (x :: v ++ c :: b) :=
    continuesLine_gap hx
  unfold lexeme at h h'
  simp only [show (s.withRest (x :: v ++ c' :: b)).rest = x :: v ++ c' :: b from rfl, hs, hcont,
    startsNumber_append_break x v b hc, startsNumber_append_break x v b hc',
    startsName_append_break (x :: v) b hc,
    startsName_append_break (x :: v) b hc'] at h h'
  by_cases hnl : (x == ascii '\n') = true
  · rw [if_pos hnl] at h h'
    exact sameStep_newline hs h h'
  rw [if_neg hnl] at h h'
  by_cases hb : (x == ascii ' ' || x == ascii '\t' || x == ascii '\r') = true
  · rw [if_pos hb] at h h'
    obtain ⟨rfl, rfl⟩ := Step.more.inj h
    obtain ⟨rfl, rfl⟩ := Step.more.inj h'
    exact sameStep_advance hs hr []
  rw [if_neg hb] at h h'
  by_cases hl : continuesLine (x :: v ++ c :: b) = true
  · rw [if_pos hl] at h h'
    obtain ⟨rfl, rfl⟩ := Step.more.inj h
    obtain ⟨rfl, rfl⟩ := Step.more.inj h'
    simp only [nextLine, hs] at hr
    obtain ⟨hn, hd⟩ := drop_gap_of_lt hr
    refine ⟨rfl, (x :: v).drop 2, by rw [nextLine, hs, hd], ?_⟩
    simp only [nextLine, withRest, List.drop_append_of_le_length hn]
  rw [if_neg hl] at h h'
  by_cases hh : (x == ascii '#') = true
  · rw [if_pos hh] at h h'
    obtain ⟨rfl, rfl⟩ := Step.more.inj h
    obtain ⟨rfl, rfl⟩ := Step.more.inj h'
    exact sameStep_skipComment hs hr hr' []
  rw [if_neg hh] at h h'
  by_cases hn : startsNumber (x :: v) = true
  · rw [if_pos hn] at h h'
    exact sameStep_number hc hc' hs h h'
  rw [if_neg hn] at h h'
  by_cases hw : startsName (x :: v) = true
  · rw [if_pos hw] at h h'
    exact sameStep_word hc hc' hs h h'
  rw [if_neg hw] at h h'
  by_cases hq : (x == ascii '"' || x == 0x27) = true
  · rw [if_pos hq] at h h'
    exact sameStep_string hq hs h hr h'
  rw [if_neg hq] at h h'
  exact sameStep_operator hc hc' hs h h'

theorem endBlankLine_of_cons {y : UInt8} {r : Bytes} (hs : s.rest = y :: r) :
    s.endBlankLine = .more [] (s.nextLine 1) := by
  simp [endBlankLine, hs]

theorem indent_withRest (s : Lexer) (r : Bytes) (width : Nat) (h : s.indent width = .more ts s') :
    (s.withRest r).indent width = .more ts (s'.withRest r) ∧ s'.rest = s.rest := by
  unfold indent at h ⊢
  by_cases hl : s.level < width
  · rw [if_pos hl] at h
    rw [if_pos (show (s.withRest r).level < width from hl)]
    obtain ⟨rfl, rfl⟩ := Step.more.inj h
    exact ⟨rfl, rfl⟩
  rw [if_neg hl] at h
  rw [if_neg (show ¬(s.withRest r).level < width from hl)]
  by_cases hk : ({ s with levels := s.levels.dropWhile (width < ·) } : Lexer).level = width
  · rw [if_pos hk] at h
    rw [if_pos (show ({ s.withRest r with
      levels := (s.withRest r).levels.dropWhile (width < ·) } : Lexer).level = width from hk)]
    obtain ⟨rfl, rfl⟩ := Step.more.inj h
    exact ⟨rfl, rfl⟩
  · rw [if_neg hk] at h
    cases h

theorem layout_of_cons {t : Lexer} {blanks r : Bytes} {y : UInt8}
    (hb : s.rest.takeWhile isIndentation = blanks) (ht : s.advance blanks.length = t)
    (hr : t.rest = y :: r) :
    s.layout = if y == ascii '\n' then t.endBlankLine
      else if y == ascii '#' then t.skipComment.endBlankLine
      else t.indent (indentWidth blanks) := by
  unfold layout
  simp only [hb, ht, hr]

theorem step_eq_layout (h : (s.lineStart && s.depth == 0) = true) (b : UInt8) :
    s.step b = s.layout := by
  rw [step, if_pos h]

theorem step_eq_lexeme (h : (s.lineStart && s.depth == 0) = false) (b : UInt8) :
    s.step b = s.lexeme b := by
  rw [step, if_neg (by simp [h])]

theorem layout_rest_le (h : s.layout = .more ts s') :
    s'.rest.length ≤ (s.advance (s.rest.takeWhile isIndentation).length).rest.length := by
  unfold layout at h
  simp only at h
  generalize s.advance (s.rest.takeWhile isIndentation).length = t at h ⊢
  split at h
  · have := endBlankLine_rest h
    omega
  · split at h
    · have := endBlankLine_rest h
      omega
    split at h
    · have := endBlankLine_rest h
      rw [skipComment, length_rest_advance] at this
      omega
    · rw [(indent_withRest t t.rest _ h).2]

theorem indentation_lt_of_layout (hc : isGap c = true) (hs : s.rest = u ++ c :: b)
    (h : s.layout = .more ts s') (hr : b.length < s'.rest.length) :
    (s.rest.takeWhile isIndentation).length < u.length := by
  have hle := layout_rest_le h
  have hadv : b.length < (s.advance (s.rest.takeWhile isIndentation).length).rest.length :=
    Nat.lt_of_lt_of_le hr hle
  simp only [advance] at hadv
  have hn : (s.rest.takeWhile isIndentation).length ≤ u.length := by
    rw [hs] at hadv ⊢
    exact (drop_gap_of_lt hadv).1
  refine Nat.lt_of_le_of_ne hn fun he => ?_
  -- All of `u` is indentation, so the gap is no blank: it ends the line, and is read with it.
  have htake : (u ++ c :: b).takeWhile isIndentation = u := by
    rw [hs] at he
    exact (List.prefix_of_prefix_length_le (List.takeWhile_prefix _) (List.prefix_append u _)
      (Nat.le_of_eq he)).eq_of_length he
  have hci : isIndentation c = false := by
    have hall : u.all isIndentation = true := by
      rw [← htake]
      exact List.all_takeWhile
    rw [List.takeWhile_append_of_pos (List.all_eq_true.mp hall)] at htake
    by_contra hcon
    rw [List.takeWhile_cons_of_pos (by simpa using hcon)] at htake
    have := congrArg List.length htake
    simp only [List.length_append, List.length_cons] at this
    omega
  have hcn : c = ascii '\n' := by
    rcases isGap_cases hc with rfl | rfl
    · exact absurd hci (by decide)
    · rfl
  unfold layout at h
  have hrest : (s.advance (s.rest.takeWhile isIndentation).length).rest = c :: b := by
    simp only [advance]
    rw [he, hs, List.drop_append_of_le_length (Nat.le_refl _), List.drop_length, List.nil_append]
  simp only [hrest, hcn, beq_self_eq_true, if_true] at h
  have := endBlankLine_rest h
  rw [hrest, List.length_cons] at this
  omega

theorem sameStep_layout (hc : isGap c = true) (hc' : isGap c' = true) (hs : s.rest = u ++ c :: b)
    (h : s.layout = .more ts s') (hr : b.length < s'.rest.length)
    (h' : (s.withRest (u ++ c' :: b)).layout = .more ts' t') (hr' : b.length < t'.rest.length) :
    SameStep c c' b ts ts' s' t' := by
  have hn := indentation_lt_of_layout hc hs h hr
  have hn' := indentation_lt_of_layout (s := s.withRest (u ++ c' :: b)) hc' rfl h' hr'
  have he : (s.withRest (u ++ c' :: b)).rest.takeWhile isIndentation =
      s.rest.takeWhile isIndentation := by
    rw [hs] at hn ⊢
    exact takeWhile_gap (Nat.le_of_lt hn) (Nat.le_of_lt hn')
  generalize hblanks : s.rest.takeWhile isIndentation = blanks at hn he
  obtain ⟨y, v, hy⟩ : ∃ y v, u.drop blanks.length = y :: v := by
    cases hd : u.drop blanks.length with
    | nil =>
      have := congrArg List.length hd
      simp only [List.length_drop, List.length_nil] at this
      omega
    | cons y v => exact ⟨y, v, rfl⟩
  have ht : (s.advance blanks.length).rest = y :: v ++ c :: b := by
    simp only [advance, hs, List.drop_append_of_le_length (Nat.le_of_lt hn), hy]
  have ht' : (s.withRest (u ++ c' :: b)).advance blanks.length =
      (s.advance blanks.length).withRest (y :: v ++ c' :: b) := by
    simp only [advance, withRest, List.drop_append_of_le_length (Nat.le_of_lt hn), hy]
  rw [layout_of_cons hblanks rfl ht] at h
  rw [layout_of_cons he ht' rfl] at h'
  generalize s.advance blanks.length = t at h h' ht ht'
  have hnext : (t.nextLine 1).rest = v ++ c :: b := by simp [nextLine, ht]
  by_cases hnl : (y == ascii '\n') = true
  · rw [if_pos hnl, endBlankLine_of_cons ht] at h
    rw [if_pos hnl, endBlankLine_of_cons (s := t.withRest (y :: v ++ c' :: b)) rfl] at h'
    obtain ⟨rfl, rfl⟩ := Step.more.inj h
    obtain ⟨rfl, rfl⟩ := Step.more.inj h'
    exact ⟨rfl, v, hnext, by simp [nextLine, withRest]⟩
  rw [if_neg hnl] at h h'
  by_cases hh : (y == ascii '#') = true
  · rw [if_pos hh] at h h'
    have hk := endBlankLine_rest h
    have hk' := endBlankLine_rest h'
    have hsame : SameStep c c' b [] [] t.skipComment (t.withRest (y :: v ++ c' :: b)).skipComment :=
      sameStep_skipComment ht (by omega) (by omega) []
    obtain ⟨-, w, hw, hw'⟩ := hsame
    rw [hw'] at h' hk'
    -- The comment ends at a byte in front of the gap, the end of its line.
    cases w with
    | nil =>
      rw [hw] at hk
      simp only [List.nil_append, List.length_cons] at hk
      omega
    | cons z w =>
      rw [endBlankLine_of_cons hw] at h
      rw [endBlankLine_of_cons (s := t.skipComment.withRest (z :: w ++ c' :: b)) rfl] at h'
      obtain ⟨rfl, rfl⟩ := Step.more.inj h
      obtain ⟨rfl, rfl⟩ := Step.more.inj h'
      exact ⟨rfl, w, by simp [nextLine, hw], by simp [nextLine, withRest]⟩
  · rw [if_neg hh] at h h'
    obtain ⟨hi, hrest⟩ := indent_withRest t (y :: v ++ c' :: b) _ h
    rw [hi] at h'
    obtain ⟨rfl, rfl⟩ := Step.more.inj h'
    exact ⟨rfl, y :: v, by rw [hrest, ht], rfl⟩

theorem sameStep_step (hc : isGap c = true) (hc' : isGap c' = true) (hs : s.rest = x :: v ++ c :: b)
    (h : s.step x = .more ts s') (hr : b.length < s'.rest.length)
    (h' : (s.withRest (x :: v ++ c' :: b)).step x = .more ts' t')
    (hr' : b.length < t'.rest.length) : SameStep c c' b ts ts' s' t' := by
  cases hl : (s.lineStart && s.depth == 0) with
  | true =>
    rw [step_eq_layout hl] at h
    rw [step_eq_layout (s := s.withRest (x :: v ++ c' :: b)) hl] at h'
    exact sameStep_layout hc hc' hs h hr h' hr'
  | false =>
    rw [step_eq_lexeme hl] at h
    rw [step_eq_lexeme (s := s.withRest (x :: v ++ c' :: b)) hl] at h'
    exact sameStep_lexeme (isBreak_of_isGap hc) (isBreak_of_isGap hc') hs h hr h' hr'

theorem step_gap_rest (hc : isGap c = true) (hs : s.rest = c :: b)
    (h : s.step c = .more ts s') : s'.rest.length ≤ b.length := by
  unfold step at h
  split at h
  · by_contra hr
    have := indentation_lt_of_layout (u := []) hc hs h (by omega)
    simp at this
  · have := lexeme_rest hs h
    rw [hs, List.length_cons] at this
    omega

theorem visits_of_gap (hc : isGap c = true) (hc' : isGap c' = true) (hs : s.rest = u ++ c :: b)
    (h : Visits s ts s') (hr : s'.rest = c :: b) (h' : Visits (s.withRest (u ++ c' :: b)) ts' t')
    (hr' : t'.rest = c' :: b) :
    ts' = ts ∧ t' = s'.withRest (c' :: b) := by
  induction h generalizing u ts' with
  | here s =>
    have hu : u = [] := by
      rw [hr] at hs
      have := congrArg List.length hs
      simp only [List.length_append, List.length_cons] at this
      exact List.eq_nil_of_length_eq_zero (by omega)
    subst hu
    cases h' with
    | here => exact ⟨rfl, rfl⟩
    | step hx hstep hrest =>
      obtain ⟨rfl, rfl⟩ := List.cons.inj hx
      have := step_gap_rest (s := s.withRest (c' :: b)) hc' rfl hstep
      have := hrest.rest_le
      rw [hr', List.length_cons] at this
      omega
  | step hx hstep hrest ih =>
    have hle := hrest.rest_le
    rw [hr, List.length_cons] at hle
    cases u with
    | nil =>
      rw [hs] at hx
      obtain ⟨rfl, rfl⟩ := List.cons.inj hx
      have := step_gap_rest hc hs hstep
      omega
    | cons x v =>
      rw [hs] at hx
      obtain ⟨rfl, rfl⟩ := List.cons.inj hx
      cases h' with
      | here =>
        have := congrArg List.length hr'
        simp only [withRest, List.length_append, List.length_cons] at this
        omega
      | step hx' hstep' hrest' =>
        obtain ⟨rfl, rfl⟩ := List.cons.inj hx'
        have hle' := hrest'.rest_le
        rw [hr', List.length_cons] at hle'
        obtain ⟨rfl, w, hw, rfl⟩ := sameStep_step hc hc' hs hstep (by omega) hstep' (by omega)
        obtain ⟨rfl, ht⟩ := ih hw hr hrest'
        exact ⟨rfl, ht⟩

end Gap

end Lexer

end BoardPython
