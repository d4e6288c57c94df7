import BoardPython.Proofs.WrittenWords

/-! The tokens of written lines. A line becomes the tokens of its words and the end of the line. If
no line is more than one suite deeper than the one in front of it, then the text of lines becomes
these with the tokens for their indentation between them: `tokenize_lines`. -/
namespace BoardPython

open Token (Kind)
open Token.Scan
open Bytes (ascii)

namespace Lexer

/-- The open blocks of a suite that is `depth` deep. -/
def levelsOf : Nat → List Nat
  | 0 => []
  | depth + 1 => 4 * (depth + 1) :: levelsOf depth

def indentContents (depth next : Nat) : List (Kind × Bytes) :=
  if depth < next then [(.indent, [])] else List.replicate (depth - next) (.dedent, [])

theorem headD_levelsOf (depth : Nat) : (levelsOf depth).headD 0 = 4 * depth := by
  cases depth <;> rfl

variable {depth next : Nat}

theorem dropWhile_levelsOf (h : next ≤ depth) :
    (levelsOf depth).dropWhile (4 * next < ·) = levelsOf next := by
  induction depth with
  | zero =>
    obtain rfl := Nat.le_zero.mp h
    rfl
  | succ depth ih =>
    rcases Nat.lt_or_eq_of_le h with hlt | rfl
    · rw [levelsOf, List.dropWhile_cons_of_pos (by simp only [decide_eq_true_eq]; omega),
        ih (by omega)]
    · rw [levelsOf, List.dropWhile_cons_of_neg (by simp only [decide_eq_true_eq]; omega)]

theorem length_levelsOf (depth : Nat) : (levelsOf depth).length = depth := by
  induction depth with
  | zero => rfl
  | succ depth ih => rw [levelsOf, List.length_cons, ih]

theorem length_takeWhile_levelsOf (h : next ≤ depth) :
    ((levelsOf depth).takeWhile (4 * next < ·)).length = depth - next := by
  have hsplit := congrArg List.length
    (List.takeWhile_append_dropWhile (p := (4 * next < ·)) (l := levelsOf depth))
  rw [List.length_append, dropWhile_levelsOf h, length_levelsOf, length_levelsOf] at hsplit
  omega

theorem indent_levelsOf {s : Lexer} (hs : s.levels = levelsOf depth)
    (hnext : next ≤ depth + 1) : ∃ ts last, s.indent (4 * next) = .more ts
      { s with levels := levelsOf next, lineStart := false, last := last } ∧
      ts.map Token.content = indentContents depth next := by
  have hlevel : s.level = 4 * depth := by rw [level, hs, headD_levelsOf]
  rcases Nat.lt_trichotomy depth next with hlt | rfl | hgt
  · obtain rfl : next = depth + 1 := by omega
    refine ⟨_, _, by rw [indent_deeper (by omega), hs]; rfl, ?_⟩
    rw [indentContents, if_pos hlt]
    rfl
  · refine ⟨[], s.last, by rw [indent_same hlevel.symm, ← hs], ?_⟩
    rw [indentContents, if_neg (Nat.lt_irrefl _), Nat.sub_self]
    rfl
  · refine ⟨_, _, by rw [indent_shallower (by omega), hs, dropWhile_levelsOf hgt.le,
      headD_levelsOf, if_pos rfl], ?_⟩
    rw [indentContents, if_neg (by omega), List.map_map, ← length_takeWhile_levelsOf hgt.le]
    exact List.map_const' ..

theorem indentWidth_spaces (n : Nat) : indentWidth (List.replicate n (ascii ' ')) = n := by
  induction n with
  | zero => rfl
  | succ n ih =>
    rw [indentWidth, List.replicate_succ', List.foldl_append, ← indentWidth, ih]
    rfl

theorem yield_layout (last : Option Kind) {x : UInt8} (r : Bytes) (hnext : next ≤ depth + 1)
    (hx : x ∉ quiet) : ∃ last',
    (atLine (levelsOf depth) last (List.replicate (4 * next) (ascii ' ') ++ x :: r)).yield =
      (within (levelsOf next) 0 last' (x :: r)).yield.map (indentContents depth next ++ ·) := by
  have hne (d : Char) (hd : ascii d ∈ quiet) : (x == ascii d) = false :=
    beq_eq_false_iff_ne.mpr fun heq => hx (heq ▸ hd)
  have hblank : isIndentation x = false := by
    simp only [isIndentation, hne ' ' (by decide), hne '\t' (by decide), hne '\r' (by decide),
      show (x == 0x0C) = false from hne '\x0c' (by decide), Bool.or_self]
  have hblanks : (List.replicate (4 * next) (ascii ' ') ++ x :: r).takeWhile isIndentation =
      List.replicate (4 * next) (ascii ' ') := by
    rw [takeWhile_append_gap _ _ hblank, List.takeWhile_eq_self_iff]
    intro y hy
    rw [List.eq_of_mem_replicate hy]
    rfl
  generalize hs : atLine (levelsOf depth) last
    (List.replicate (4 * next) (ascii ' ') ++ x :: r) = s
  have hrest : s.rest = List.replicate (4 * next) (ascii ' ') ++ x :: r := by
    rw [← hs]
    rfl
  have hdrop : (s.advance (List.replicate (4 * next) (ascii ' ')).length).rest = x :: r := by
    change s.rest.drop _ = _
    rw [hrest]
    exact List.drop_left
  obtain ⟨ts, last', hindent, hts⟩ := indent_levelsOf
    (s := s.advance (List.replicate (4 * next) (ascii ' ')).length) (by rw [← hs]; rfl) hnext
  have hlayout : s.layout =
      (s.advance (List.replicate (4 * next) (ascii ' ')).length).indent (4 * next) := by
    rw [layout_of_cons (by rw [hrest, hblanks]) rfl hdrop]
    simp only [hne '\n' (by decide), hne '#' (by decide), Bool.false_eq_true, if_false,
      indentWidth_spaces]
  obtain ⟨y, u, hcons⟩ : ∃ y u, s.rest = y :: u := by
    rw [hrest]
    cases 4 * next with
    | zero | succ n => exact ⟨_, _, rfl⟩
  have hstep := (step_eq_layout (by rw [← hs]; rfl) y).trans (hlayout.trans hindent)
  refine ⟨last', ?_⟩
  rw [yield_of_more hcons hstep, hts]
  congr 1
  refine yield_eq_of_bare_eq ?_
  have hdepth : (s.advance (List.replicate (4 * next) (ascii ' ')).length).depth = 0 := by
    rw [← hs]
    rfl
  simp only [bare, placed, within, hdrop, hdepth]

end Lexer

/-- A line that the lexer reads as it was meant: it has words, all of them are words of the language,
and it closes the brackets that it opens. -/
structure Line.Sound (l : Line) : Prop where
  nonempty : l.words ≠ []
  valid : ∀ w ∈ l.words, w.isValid = true
  balanced : l.words.foldl Word.depthAfter 0 = 0

/-- No line is more than one suite deeper than the line in front of it, the first one being
compared with `depth`. -/
def Nested : (depth : Nat) → List Line → Prop
  | _, [] => True
  | depth, l :: rest => l.depth ≤ depth + 1 ∧ Nested l.depth rest

/-- The tokens of lines after a line of a suite that is `depth` deep. -/
def linesContents : (depth : Nat) → List Line → List (Kind × Bytes)
  | depth, [] => List.replicate depth (.dedent, []) ++ [(.eof, [])]
  | depth, l :: rest =>
    Lexer.indentContents depth l.depth ++
      (l.words.map Word.content ++ (.newline, []) :: linesContents l.depth rest)

namespace Lexer

theorem yield_line (style : Style) {l : Line} (hl : l.Sound) {depth : Nat} {last : Option Kind}
    {b : Bytes} (hdepth : l.depth ≤ depth + 1) :
    (atLine (levelsOf depth) last (style.line l ++ b)).yield =
      (atLine (levelsOf l.depth) (some .newline) b).yield.map fun xs =>
        indentContents depth l.depth ++ (l.words.map Word.content ++ (.newline, []) :: xs) := by
  obtain ⟨w, ws, hwords⟩ := List.exists_cons_of_ne_nil hl.nonempty
  have hvalid := hwords ▸ hl.valid
  have hbalanced := hwords ▸ hl.balanced
  obtain ⟨x, u, hwritten, hx⟩ := Word.written_head (hvalid w (List.mem_cons_self ..))
  obtain ⟨t, ht⟩ := style.row_cons w ws
  have hrow : style.row (w :: ws) ++ ascii '\n' :: b = x :: (u ++ (t ++ ascii '\n' :: b)) := by
    simp only [ht, hwritten, List.cons_append, List.append_assoc]
  have hline : style.line l ++ b = List.replicate (4 * l.depth) (ascii ' ') ++
      (style.row (w :: ws) ++ ascii '\n' :: b) := by
    simp only [Style.line, hwords, List.append_assoc, List.singleton_append]
  obtain ⟨last', hlayout⟩ := yield_layout last (u ++ (t ++ ascii '\n' :: b)) hdepth hx
  have hlast : (ws.getLastD w).content.1 ≠ .newline :=
    Word.content_ne_newline (hvalid _ (List.getLastD_mem_cons ..))
  rw [hline, hrow, hlayout, ← hrow, yield_row style w ws hvalid (by decide), hbalanced,
    yield_newline hlast, Option.map_map, Option.map_map, hwords]
  rfl

theorem yield_lines (style : Style) {lines : List Line} (hlines : ∀ l ∈ lines, l.Sound)
    {depth : Nat} {last : Option Kind} (hlast : last = none ∨ last = some .newline)
    (hnested : Nested depth lines) :
    (atLine (levelsOf depth) last (lines.flatMap style.line)).yield =
      some (linesContents depth lines) := by
  induction lines generalizing depth last with
  | nil =>
    have hnone : ¬(last.isSome ∧ last ≠ some .newline) := by
      rcases hlast with rfl | rfl <;> simp
    have hclosed : (levelsOf depth).map (fun _ => (Kind.dedent, ([] : Bytes))) =
        List.replicate depth (.dedent, []) := by
      rw [List.map_const', length_levelsOf]
    rw [yield_of_nil rfl, finish_contents, linesContents, ← hclosed]
    exact congrArg (fun xs => some (xs ++ _ ++ _)) (if_neg hnone)
  | cons l rest ih =>
    obtain ⟨hl, hrest⟩ := List.forall_mem_cons.mp hlines
    rw [List.flatMap_cons, yield_line style hl hnested.1, ih hrest (.inr rfl) hnested.2]
    rfl

end Lexer

theorem tokenize_lines (style : Style) {lines : List Line} (hlines : ∀ l ∈ lines, l.Sound)
    (hnested : Nested 0 lines) : ∃ ts, tokenize (lines.flatMap style.line) = .ok ts ∧
      ts.map Token.content = linesContents 0 lines := by
  have hyield : tokenContents (lines.flatMap style.line) = some (linesContents 0 lines) := by
    rw [Lexer.tokenContents_eq_yield, ← Lexer.yield_lines style hlines (.inl rfl) hnested]
    exact Lexer.yield_eq_of_bare_eq rfl
  obtain ⟨ts, hts, hcontents⟩ := Option.map_eq_some_iff.mp hyield
  cases htokens : tokenize (lines.flatMap style.line) with
  | ok us =>
    rw [htokens] at hts
    obtain rfl := Option.some.inj hts
    exact ⟨us, rfl, hcontents⟩
  | error e =>
    rw [htokens] at hts
    cases hts

end BoardPython
