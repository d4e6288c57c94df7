import BoardPython.Proofs.LexerLocality
import BoardPython.Proofs.TokenContents

/-! Lines without tokens. The end of a line that is left out is made up for exactly if no token comes
before another end of a line: `agreeIff_endsBare` and `agreeIff_vacant`. -/
namespace BoardPython

open Token (Kind)
open Token.Scan
open Bytes (ascii)

def isBlank (b : UInt8) : Bool := b == ascii ' ' || b == ascii '\t' || b == ascii '\r'

/-- No token comes before the line ends, be it on a later line that it goes on on. -/
def endsBare : Bytes → Bool
  | [] => true
  | b :: rest =>
    if b == ascii '\n' || b == ascii '#' then true
    else if isBlank b then endsBare rest
    else match rest with
      | c :: rest' => b == ascii '\\' && c == ascii '\n' && endsBare rest'
      | [] => false

theorem head_drop_takeWhile {p : UInt8 → Bool} {bs r : Bytes} {y : UInt8}
    (h : bs.drop (bs.takeWhile p).length = y :: r) : p y = false := by
  induction bs with
  | nil => cases h
  | cons b bs ih =>
    cases hb : p b with
    | true =>
      rw [List.takeWhile_cons_of_pos hb] at h
      exact ih h
    | false =>
      rw [List.takeWhile_cons_of_neg (by simp [hb])] at h
      exact (List.cons.inj h).1 ▸ hb

theorem drop_comment (bs : Bytes) :
    bs.drop (bs.takeWhile isCommentByte).length = [] ∨
      ∃ r, bs.drop (bs.takeWhile isCommentByte).length = ascii '\n' :: r := by
  cases h : bs.drop (bs.takeWhile isCommentByte).length with
  | nil => exact .inl rfl
  | cons y r =>
    have hy : y = ascii '\n' := by simpa [isCommentByte] using head_drop_takeWhile h
    exact .inr ⟨r, by rw [hy]⟩

theorem endsBare_newline (r : Bytes) : endsBare (ascii '\n' :: r) = true := by
  cases r <;> rfl

theorem endsBare_comment (r : Bytes) : endsBare (ascii '#' :: r) = true := by
  cases r <;> rfl

theorem endsBare_blank {b : UInt8} (h : isBlank b = true) (r : Bytes) :
    endsBare (b :: r) = endsBare r := by
  have hn : (b == ascii '\n' || b == ascii '#') = false := by
    simp only [isBlank, Bool.or_eq_true, beq_iff_eq] at h
    rcases h with (rfl | rfl) | rfl <;> decide
  rw [endsBare.eq_def]
  simp only [hn, h, Bool.false_eq_true, if_false, if_true]

theorem endsBare_continuation (r : Bytes) :
    endsBare (ascii '\\' :: ascii '\n' :: r) = endsBare r := by
  rw [endsBare, if_neg (by decide), if_neg (by decide)]
  simp

/-- A place on a line without tokens: in its indentation, which is `width` wide so far, or in its
comment. -/
inductive Spot where
  | margin (width : Nat)
  | comment
  deriving DecidableEq, Repr

/-- No token comes before the next end of a line that would count after a token. Lines with nothing
but blanks and a comment do not count; one that begins with a continuation does, if it has the
indentation `level` and so opens and closes no block. -/
def vacant (level : Nat) : Spot → Bytes → Bool
  | _, [] => true
  | .margin width, b :: rest =>
    if isIndentation b then vacant level (.margin (indentStep width b)) rest
    else if b == ascii '\n' then vacant level (.margin 0) rest
    else if b == ascii '#' then vacant level .comment rest
    else width == level && endsBare (b :: rest)
  | .comment, b :: rest => vacant level (if b == ascii '\n' then .margin 0 else .comment) rest

theorem vacant_indentation (level width : Nat) (blanks rest : Bytes)
    (h : blanks.all isIndentation = true) :
    vacant level (.margin width) (blanks ++ rest) =
      vacant level (.margin (blanks.foldl indentStep width)) rest := by
  induction blanks generalizing width with
  | nil => rfl
  | cons b blanks ih =>
    simp only [List.all_cons, Bool.and_eq_true] at h
    rw [List.cons_append, vacant, if_pos h.1, ih _ h.2, List.foldl_cons]

theorem vacant_margin (level : Nat) (bs : Bytes) :
    vacant level (.margin 0) bs =
      vacant level (.margin (indentWidth (bs.takeWhile isIndentation)))
        (bs.drop (bs.takeWhile isIndentation).length) := by
  have h := vacant_indentation level 0 (bs.takeWhile isIndentation)
    (bs.drop (bs.takeWhile isIndentation).length) List.all_takeWhile
  rw [indentWidth, ← h]
  congr 1
  rw [List.prefix_iff_eq_append.mp (List.takeWhile_prefix _)]

theorem vacant_comment (level : Nat) (bs : Bytes) :
    vacant level .comment bs =
      vacant level .comment (bs.drop (bs.takeWhile isCommentByte).length) := by
  induction bs with
  | nil => rfl
  | cons b bs ih =>
    cases hb : isCommentByte b with
    | true =>
      have hn : (b == ascii '\n') = false := by simpa [isCommentByte] using hb
      rw [List.takeWhile_cons_of_pos hb, List.length_cons, List.drop_succ_cons, ← ih]
      simp only [vacant, hn, Bool.false_eq_true, if_false]
    | false => simp [List.takeWhile_cons_of_neg, hb]

def startsToken : Bytes → Bool
  | [] => false
  | b :: rest => !(b == ascii '\n' || b == ascii '#' || isBlank b ||
      Lexer.continuesLine (b :: rest))

theorem endsBare_of_startsToken {bs : Bytes} (h : startsToken bs = true) : endsBare bs = false := by
  cases bs with
  | nil => cases h
  | cons b rest =>
    simp only [startsToken, Bool.not_eq_true', Bool.or_eq_false_iff] at h
    obtain ⟨⟨⟨hn, hh⟩, hb⟩, hc⟩ := h
    cases rest with
    | nil => simp [endsBare, hn, hh, hb]
    | cons c rest =>
      simp only [Lexer.continuesLine] at hc
      simp [endsBare, hn, hh, hb, hc]

namespace Lexer

def withLast (s : Lexer) (k : Kind) : Lexer := { s with last := some k }

variable {s : Lexer} {width : Nat} {r : Bytes} {α : Type} {b : UInt8} {c : Prop} {y x : Option α}
  {next t : Lexer}

theorem yield_of_silent (hs : s.rest = b :: r) (h : s.step b = .more [] next) :
    s.yield = next.yield :=
  view_of_silent hs h

theorem yield_eq_of_step_bare_eq {c : UInt8} {u : Bytes} (hs : s.rest = b :: r)
    (ht : t.rest = c :: u) (h : (s.step b).bare = (t.step c).bare) : s.yield = t.yield := by
  cases hx : s.step b with
  | more ts next =>
    cases hy : t.step c with
    | more ts' next' =>
      simp only [hx, hy, Step.bare, Option.some.injEq, Prod.mk.injEq] at h
      rw [yield_of_more hs hx, yield_of_more ht hy, h.1, yield_eq_of_bare_eq h.2]
    | fail => simp [hx, hy, Step.bare] at h
  | fail e stop =>
    cases hy : t.step c with
    | more => simp [hx, hy, Step.bare] at h
    | fail e' stop' => rw [yield_of_fail hs hx, yield_of_fail ht hy]

theorem lexeme_newline (s : Lexer) : s.lexeme (ascii '\n') = s.newline := by
  rw [lexeme, if_pos (by decide)]

theorem lexeme_blank (h : isBlank b = true) (s : Lexer) :
    s.lexeme b = .more [] (s.advance 1) := by
  have hn : (b == ascii '\n') = false := by
    simp only [isBlank, Bool.or_eq_true, beq_iff_eq] at h
    rcases h with (rfl | rfl) | rfl <;> decide
  simp only [isBlank] at h
  simp only [lexeme, hn, h, Bool.false_eq_true, if_false, if_true]

theorem lexeme_continuation (hs : s.rest = ascii '\\' :: ascii '\n' :: r) :
    s.lexeme (ascii '\\') = .more [] (s.nextLine 2) := by
  rw [lexeme, if_neg (by decide), if_neg (by decide), if_pos]
  rw [hs]
  rfl

theorem lexeme_comment (hs : s.rest = ascii '#' :: r) :
    s.lexeme (ascii '#') = .more [] s.skipComment := by
  rw [lexeme, if_neg (by decide), if_neg (by decide), if_neg, if_pos (by decide)]
  cases r <;> simp [hs, continuesLine, show (ascii '#' == ascii '\\') = false from by decide]

theorem lexeme_cases (b : UInt8) (r : Bytes) :
    b = ascii '\n' ∨ b = ascii '#' ∨ isBlank b = true ∨
      (b = ascii '\\' ∧ ∃ r', r = ascii '\n' :: r') ∨ startsToken (b :: r) = true := by
  cases h : startsToken (b :: r) with
  | true => simp
  | false =>
    simp only [startsToken, Bool.not_eq_false', Bool.or_eq_true, beq_iff_eq] at h
    rcases h with ((h | h) | h) | h
    · exact .inl h
    · exact .inr (.inl h)
    · exact .inr (.inr (.inl h))
    · cases r with
      | nil => cases h
      | cons c r =>
        simp only [continuesLine, Bool.and_eq_true, beq_iff_eq] at h
        exact .inr (.inr (.inr (.inl ⟨h.1, r, by rw [h.2]⟩)))

theorem lexeme_of_startsToken (hs : s.rest = b :: r) (h : startsToken s.rest = true) :
    s.lexeme b = if startsNumber s.rest then s.number
      else if startsName s.rest then s.word
      else if b == ascii '"' || b == 0x27 then s.string b
      else s.operator := by
  rw [hs] at h
  simp only [startsToken, isBlank, Bool.not_eq_true', Bool.or_eq_false_iff] at h
  obtain ⟨⟨⟨hn, hh⟩, ⟨hb, ht⟩, hr⟩, hc⟩ := h
  rw [lexeme, hs]
  simp only [hn, hh, hb, ht, hr, hc, Bool.or_self, Bool.false_eq_true, if_false]

theorem lexeme_withLast (hs : s.rest = b :: r) (h : startsToken s.rest = true) (k : Kind) :
    ((s.withLast k).lexeme b).bare = (s.lexeme b).bare := by
  rw [lexeme_of_startsToken hs h, lexeme_of_startsToken (s := s.withLast k) hs h]
  have hn : (s.withLast k).number.bare = s.number.bare := by
    simp only [number, apply_ite Step.bare]
    rfl
  have hw : (s.withLast k).word.bare = s.word.bare := rfl
  have hq : ((s.withLast k).string b).bare = (s.string b).bare := by
    unfold string
    rw [show ((s.withLast k).advance 1).position = (s.advance 1).position from rfl,
      show (s.withLast k).rest = s.rest from rfl]
    cases literal b (s.advance 1).position (s.rest.drop 1) <;> rfl
  have ho : (s.withLast k).operator.bare = s.operator.bare := by
    unfold operator
    rw [show (s.withLast k).rest = s.rest from rfl]
    cases operator? s.rest <;> rfl
  simp only [apply_ite Step.bare, hn, hw, hq, ho]
  rfl

theorem indent_deeper (h : s.level < width) :
    s.indent width = .more [s.token .indent []]
      { s with levels := width :: s.levels, lineStart := false, last := some .indent } := by
  rw [indent, if_pos h]

theorem indent_same (h : width = s.level) :
    s.indent width = .more [] { s with lineStart := false } := by
  have hd : s.levels.dropWhile (width < ·) = s.levels ∧
      s.levels.takeWhile (width < ·) = [] := by
    subst h
    unfold level
    cases s.levels <;> simp
  rw [indent, if_neg (by omega)]
  simp only [hd.1, hd.2]
  rw [if_pos h.symm]
  rfl

theorem closed_of_shallower (h : width < s.level) :
    ∃ l ls, s.levels.takeWhile (width < ·) = l :: ls := by
  cases hl : s.levels with
  | nil => simp [level, hl] at h
  | cons l ls =>
    simp only [level, hl, List.headD_cons] at h
    exact ⟨l, ls.takeWhile (width < ·), List.takeWhile_cons_of_pos (by simpa using h)⟩

theorem indent_shallower (h : width < s.level) :
    s.indent width =
      if (s.levels.dropWhile (width < ·)).headD 0 = width then
        .more ((s.levels.takeWhile (width < ·)).map fun _ => s.token .dedent [])
          { s with levels := s.levels.dropWhile (width < ·), lineStart := false,
                   last := some .dedent }
      else failAt s.position .unmatchedDedent { s with levels := s.levels.dropWhile (width < ·) } := by
  obtain ⟨l, ls, hl⟩ := closed_of_shallower h
  rw [indent, if_neg (by omega)]
  simp only [hl, List.isEmpty_cons]
  rfl

theorem indent_tokens {ts : List Token} (hw : width ≠ s.level)
    (h : s.indent width = .more ts next) :
    ∃ t us, ts = t :: us ∧ (t.kind = .indent ∨ t.kind = .dedent) := by
  rcases Nat.lt_or_gt_of_ne hw with hlt | hgt
  · obtain ⟨l, ls, hl⟩ := closed_of_shallower hlt
    rw [indent_shallower hlt, hl] at h
    split at h
    · obtain ⟨rfl, -⟩ := Step.more.inj h
      exact ⟨_, _, List.map_cons .., .inr rfl⟩
    · cases h
  · rw [indent_deeper hgt] at h
    obtain ⟨rfl, -⟩ := Step.more.inj h
    exact ⟨_, _, rfl, .inl rfl⟩

theorem indent_withLast (hw : width ≠ s.level) (k : Kind) :
    ((s.withLast k).indent width).bare = (s.indent width).bare := by
  rcases Nat.lt_or_gt_of_ne hw with hlt | hgt
  · rw [indent_shallower hlt, indent_shallower (s := s.withLast k) hlt]
    simp only [apply_ite Step.bare]
    rfl
  · rw [indent_deeper hgt, indent_deeper (s := s.withLast k) hgt]
    rfl

/-- Outcomes that agree if `c` holds or both fail, and only then. -/
def AgreeIff {α : Type} (x y : Option α) (c : Prop) : Prop := x = y ↔ c ∨ (x = none ∧ y = none)

theorem AgreeIff.of_eq (h : x = y) (hc : c) :
    AgreeIff x y c :=
  ⟨fun _ => .inl hc, fun _ => h⟩

theorem AgreeIff.of_ne (hc : ¬c)
    (h : ∀ v, x = some v → y ≠ some v) : AgreeIff x y c := by
  refine ⟨fun he => .inr ?_, fun hor => ?_⟩
  · cases hx : x with
    | none => exact ⟨rfl, he ▸ hx⟩
    | some v => exact absurd (he ▸ hx) (h v hx)
  · obtain ⟨hx, hy⟩ := hor.resolve_left hc
    rw [hx, hy]

theorem AgreeIff.of_none (hx : x = none) (hy : y = none) :
    AgreeIff x y c :=
  ⟨fun _ => .inr ⟨hx, hy⟩, fun _ => hx.trans hy.symm⟩

theorem AgreeIff.map {β : Type} {f : α → β} (hf : Function.Injective f)
    (h : AgreeIff x y c) : AgreeIff (x.map f) (y.map f) c := by
  unfold AgreeIff at h ⊢
  rw [(Option.map_injective hf).eq_iff, h, Option.map_eq_none_iff, Option.map_eq_none_iff]

theorem agreeIff_cons_of_eq {x y : Option (List α)} {a : α} (h : x = y)
    (hc : ¬c) : AgreeIff x (y.map (a :: ·)) c := by
  refine .of_ne hc fun v hx hy => ?_
  rw [← h, hx, Option.map_some, Option.some.injEq] at hy
  exact absurd (congrArg List.length hy) (by simp)

def newlineContent : Kind × Bytes := (.newline, [])

structure OpenLine (s : Lexer) : Prop where
  depth : s.depth = 0
  last : s.last.isSome ∧ s.last ≠ some .newline

theorem yield_end (hs : s.rest = []) (ho : s.OpenLine) :
    s.yield = (s.withLast .newline).yield.map (newlineContent :: ·) := by
  rw [yield_of_nil hs, yield_of_nil (s := s.withLast .newline) hs, finish_contents, finish_contents,
    if_pos ho.last, if_neg (by simp [withLast])]
  rfl

theorem agreeIff_endsBare (ho : s.OpenLine) (hs : s.lineStart = false) :
    AgreeIff s.yield ((s.withLast .newline).yield.map (newlineContent :: ·))
      (endsBare s.rest = true) := by
  induction hw : s.work using Nat.strongRecOn generalizing s with
  | ind n ih =>
    cases hr : s.rest with
    | nil => exact .of_eq (yield_end hr ho) rfl
    | cons b r =>
      have hstep : s.step b = s.lexeme b := step_eq_lexeme (by simp [hs]) b
      have hstep' : (s.withLast .newline).step b = (s.withLast .newline).lexeme b :=
        step_eq_lexeme (by simp [withLast, hs]) b
      -- Blanks, continuations and comments leave both lexers where the same question arises.
      have silent {next : Lexer} (h : s.lexeme b = .more [] next)
          (h' : (s.withLast .newline).lexeme b = .more [] (next.withLast .newline))
          (ho' : next.OpenLine) (hs' : next.lineStart = false)
          (he : endsBare (b :: r) = endsBare next.rest) :
          AgreeIff s.yield ((s.withLast .newline).yield.map (newlineContent :: ·))
            (endsBare (b :: r) = true) := by
        rw [← hstep] at h
        rw [← hstep'] at h'
        rw [yield_of_silent hr h, yield_of_silent (s := s.withLast .newline) hr h', he]
        exact ih next.work (hw ▸ step_work hr h) ho' hs' rfl
      rcases lexeme_cases b r with rfl | rfl | hb | ⟨rfl, r', rfl⟩ | ht
      · rw [lexeme_newline, newline_of_ends ⟨ho.depth, ho.last⟩] at hstep
        rw [lexeme_newline, newline_of_not_ends (by simp [withLast])] at hstep'
        refine .of_eq ?_ (endsBare_newline r)
        rw [yield_of_more hr hstep, yield_of_silent (s := s.withLast .newline) hr hstep']
        rfl
      · refine silent (lexeme_comment hr) (lexeme_comment (s := s.withLast .newline) hr)
          ⟨ho.depth, ho.last⟩ hs ?_
        rw [endsBare_comment]
        rcases drop_comment s.rest with h | ⟨r', h⟩
        · rw [skipComment, advance, h]
          rfl
        · rw [skipComment, advance, h, endsBare_newline]
      · refine silent (lexeme_blank hb s) (lexeme_blank hb _) ⟨ho.depth, ho.last⟩ hs ?_
        rw [endsBare_blank hb, advance, hr, List.drop_one, List.tail_cons]
      · refine silent (lexeme_continuation hr) (lexeme_continuation (s := s.withLast .newline) hr)
          ⟨ho.depth, ho.last⟩ hs ?_
        rw [endsBare_continuation, nextLine, hr, List.drop_succ_cons, List.drop_one, List.tail_cons]
      · rw [← hr] at ht ⊢
        refine agreeIff_cons_of_eq ?_ (by simp [endsBare_of_startsToken ht])
        refine yield_eq_of_step_bare_eq hr (t := s.withLast .newline) hr ?_
        rw [hstep, hstep', lexeme_withLast hr ht]

theorem layout_of_nil {blanks : Bytes} (hb : s.rest.takeWhile isIndentation = blanks)
    (ht : s.advance blanks.length = t) (hr : t.rest = []) : s.layout = t.endBlankLine := by
  unfold layout
  simp only [hb, ht, hr]

section Layout

variable {s t : Lexer} {b : UInt8} {r : Bytes}

theorem agreeIff_indent {width : Nat} (hr : s.rest = b :: r) (ho : t.OpenLine)
    (h : s.step b = t.indent width)
    (h' : (s.withLast .newline).step b = (t.withLast .newline).indent width) :
    AgreeIff s.yield ((s.withLast .newline).yield.map (newlineContent :: ·))
      ((width == t.level && endsBare t.rest) = true) := by
  by_cases hw : width = t.level
  · rw [indent_same hw] at h
    rw [indent_same (s := t.withLast .newline) hw] at h'
    rw [yield_of_silent hr h, yield_of_silent (s := s.withLast .newline) hr h', hw, beq_self_eq_true,
      Bool.true_and]
    exact agreeIff_endsBare (s := { t with lineStart := false }) ⟨ho.depth, ho.last⟩ rfl
  · refine agreeIff_cons_of_eq ?_ (by simp [hw])
    refine yield_eq_of_step_bare_eq hr (t := s.withLast .newline) hr ?_
    rw [h, h', indent_withLast hw]

theorem agreeIff_endBlankLine (hr : s.rest = b :: r) (ho : t.OpenLine)
    (ht : t.rest = [] ∨ ∃ r', t.rest = ascii '\n' :: r') (h : s.step b = t.endBlankLine)
    (h' : (s.withLast .newline).step b = (t.withLast .newline).endBlankLine)
    (next : (t.nextLine 1).work < s.work →
      AgreeIff (t.nextLine 1).yield
        (((t.nextLine 1).withLast .newline).yield.map (newlineContent :: ·))
        (vacant t.level (.margin 0) (t.rest.drop 1) = true)) :
    AgreeIff s.yield ((s.withLast .newline).yield.map (newlineContent :: ·))
      (vacant t.level .comment t.rest = true) := by
  rcases ht with he | ⟨r', he⟩
  · have hblank : t.endBlankLine = .more [] t := by simp [endBlankLine, he]
    have hblank' : (t.withLast .newline).endBlankLine = .more [] (t.withLast .newline) := by
      simp [endBlankLine, withLast, he]
    rw [hblank] at h
    rw [hblank'] at h'
    rw [yield_of_silent hr h, yield_of_silent (s := s.withLast .newline) hr h', he]
    exact .of_eq (yield_end he ho) rfl
  · rw [endBlankLine_of_cons he] at h
    rw [endBlankLine_of_cons (s := t.withLast .newline) he] at h'
    have hv : vacant t.level .comment t.rest = vacant t.level (.margin 0) (t.rest.drop 1) := by
      rw [he, vacant]
      simp
    rw [yield_of_silent hr h, yield_of_silent (s := s.withLast .newline) hr h', hv]
    exact next (step_work hr h)

end Layout

theorem agreeIff_vacant (ho : s.OpenLine) (hs : s.lineStart = true) :
    AgreeIff s.yield ((s.withLast .newline).yield.map (newlineContent :: ·))
      (vacant s.level (.margin 0) s.rest = true) := by
  induction hw : s.work using Nat.strongRecOn generalizing s with
  | ind n ih =>
    cases hr : s.rest with
    | nil => exact .of_eq (yield_end hr ho) rfl
    | cons b r =>
      have hstep : s.step b = s.layout := step_eq_layout (by simp [hs, ho.depth]) b
      have hstep' : (s.withLast .newline).step b = (s.withLast .newline).layout :=
        step_eq_layout (by simp [withLast, hs, ho.depth]) b
      rw [← hr, vacant_margin]
      generalize hblanks : s.rest.takeWhile isIndentation = blanks
      -- `t` stands behind the indentation; it differs from `s` in its place only.
      have hot : (s.advance blanks.length).OpenLine := ⟨ho.depth, ho.last⟩
      have hst : (s.advance blanks.length).lineStart = true := hs
      have hlevel : (s.advance blanks.length).level = s.level := rfl
      have ht' : (s.withLast .newline).advance blanks.length =
          (s.advance blanks.length).withLast .newline := rfl
      have hrest : s.rest.drop blanks.length = (s.advance blanks.length).rest := rfl
      rw [hrest, ← hlevel]
      generalize ht : s.advance blanks.length = t at *
      have ended {e : Lexer} (hoe : e.OpenLine) (hse : e.lineStart = true)
          (he : e.rest = [] ∨ ∃ r', e.rest = ascii '\n' :: r') (h : s.layout = e.endBlankLine)
          (h' : (s.withLast .newline).layout = (e.withLast .newline).endBlankLine) :=
        agreeIff_endBlankLine hr hoe he (hstep.trans h) (hstep'.trans h') fun hlt =>
          ih _ (hw ▸ hlt) (s := e.nextLine 1) ⟨hoe.depth, hoe.last⟩ hse rfl
      cases hrt : t.rest with
      | nil =>
        have := ended hot hst (.inl hrt) (layout_of_nil hblanks ht hrt)
          (layout_of_nil (s := s.withLast .newline) hblanks ht' hrt)
        rwa [hrt] at this
      | cons y r' =>
        have hy : isIndentation y = false := by
          rw [hrt, ← hblanks] at hrest
          exact head_drop_takeWhile hrest
        have hlay := layout_of_cons hblanks ht hrt
        have hlay' := layout_of_cons (s := s.withLast .newline) hblanks ht' hrt
        rw [vacant, if_neg (by simp [hy])]
        by_cases hnl : (y == ascii '\n') = true
        · rw [if_pos hnl] at hlay hlay' ⊢
          rw [beq_iff_eq.mp hnl] at hrt
          have := ended hot hst (.inr ⟨r', hrt⟩) hlay hlay'
          rw [hrt, vacant] at this
          simpa using this
        rw [if_neg hnl] at hlay hlay' ⊢
        by_cases hh : (y == ascii '#') = true
        · rw [if_pos hh] at hlay hlay' ⊢
          have := ended (e := t.skipComment) ⟨hot.depth, hot.last⟩ hst (drop_comment t.rest) hlay hlay'
          have hv : vacant t.level .comment r' = vacant t.level .comment t.skipComment.rest := by
            rw [skipComment, advance, ← vacant_comment, hrt, vacant, if_neg (by simpa using hnl)]
          rw [hv]
          exact this
        · rw [if_neg hh] at hlay hlay' ⊢
          rw [← hrt]
          exact agreeIff_indent hr hot (hstep.trans hlay) (hstep'.trans hlay')

end Lexer

end BoardPython
