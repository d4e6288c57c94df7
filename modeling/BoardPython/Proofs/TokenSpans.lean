import BoardPython.Proofs.FrontEndTotality

/-! Where the tokens of a text stand. Each token of a run has a span of the text, the spans follow one
another, and between them only blanks, ends of lines, comments and continued lines are passed over.
A token that is written is what stands in its span, and its position counts the bytes in front of
it. What holds after some steps is in `Lexer.Marked`. -/
namespace BoardPython

open Token (Kind)
open Bytes (ascii)

/-- A stretch of a text, from one offset up to another. -/
structure Span where
  start : Nat
  stop : Nat
  deriving DecidableEq, Repr

namespace Token

/-- The spans cover the text up to an offset, one after the other, but for what is passed over. -/
inductive Tiled (text : Bytes) : List Span → Nat → Prop
  | nil : Tiled text [] 0
  | skip {spans : List Span} {o o' : Nat} (h : Tiled text spans o) (ho : o ≤ o')
      (hskips : Skips (text.drop o) (text.drop o')) : Tiled text spans o'
  | span {spans : List Span} {s : Span} (h : Tiled text spans s.start) (hs : s.start ≤ s.stop) :
      Tiled text (spans ++ [s]) s.stop

/-- How many columns fewer than bytes there are on the line up to an offset: what the identifiers
since the last end of a line have too much. -/
def widened (text : Bytes) (marks : List (Token × Span)) (o : Nat) : Nat :=
  (marks.map fun m => if ascii '\n' ∈ (text.take o).drop m.2.start then 0 else m.1.surplus).sum

/-- The number of bytes since the last end of a line. -/
def sinceNewline (before : Bytes) : Nat := (before.reverse.takeWhile (· ≠ ascii '\n')).length

/-- The position of a token counts what stands in front of its span, of which `before` are the
tokens. -/
structure Placed (text : Bytes) (before : List (Token × Span)) (m : Token × Span) : Prop where
  line : m.1.position.line = 1 + (text.take m.2.start).count (ascii '\n')
  column : m.1.position.column + widened text before m.2.start =
    1 + sinceNewline (text.take m.2.start)

/-- Tokens and their spans, up to an offset of the text. -/
structure Located (text : Bytes) (marks : List (Token × Span)) (o : Nat) : Prop where
  tiled : Tiled text (marks.map Prod.snd) o
  stands : ∀ m ∈ marks, Stands m.1.kind m.1.text (text.drop m.2.start) (text.drop m.2.stop)
  placed : ∀ before m after, marks = before ++ m :: after → Placed text before m

section Counting

theorem foldl_columnStep_of_mem {u : Bytes} (hu : ascii '\n' ∈ u) (c c' : Nat) :
    u.foldl Position.columnStep c = u.foldl Position.columnStep c' := by
  induction u generalizing c c' with
  | nil => cases hu
  | cons b u ih =>
    rw [List.foldl_cons, List.foldl_cons]
    by_cases hb : b = ascii '\n'
    · rw [Position.columnStep, Position.columnStep, if_pos hb, if_pos hb]
    · exact ih ((List.mem_cons.mp hu).resolve_left (Ne.symm hb)) _ _

theorem foldl_columnStep_one (u : Bytes) :
    u.foldl Position.columnStep 1 = 1 + sinceNewline u := by
  induction u using List.reverseRecOn with
  | nil => rfl
  | append_singleton u b ih =>
    rw [List.foldl_append, ih, List.foldl_cons, List.foldl_nil, sinceNewline, sinceNewline,
      List.reverse_append, List.reverse_singleton, List.singleton_append, Position.columnStep]
    by_cases hb : b = ascii '\n'
    · rw [if_pos hb, List.takeWhile_cons_of_neg (by simpa using hb)]
      rfl
    · rw [if_neg hb, List.takeWhile_cons_of_pos (by simpa using hb), List.length_cons]
      omega

end Counting

section Marks

variable {text before read rest : Bytes} {marks : List (Token × Span)} {m : Token × Span} {o : Nat}

theorem Tiled.ordered {spans : List Span} (h : Tiled text spans o) :
    (∀ s ∈ spans, s.start ≤ s.stop ∧ s.stop ≤ o) ∧
      spans.Pairwise fun a b => a.stop ≤ b.start := by
  induction h with
  | nil => exact ⟨nofun, .nil⟩
  | skip _ ho _ ih => exact ⟨fun s hs => ⟨(ih.1 s hs).1, (ih.1 s hs).2.trans ho⟩, ih.2⟩
  | @span spans s _ hs ih =>
    refine ⟨fun a ha => ?_, List.pairwise_append.mpr ⟨ih.2, List.pairwise_singleton _ _, ?_⟩⟩
    · rcases List.mem_append.mp ha with ha | ha
      · exact ⟨(ih.1 a ha).1, (ih.1 a ha).2.trans hs⟩
      · rw [List.mem_singleton.mp ha]
        exact ⟨hs, Nat.le_refl _⟩
    · intro a ha b hb
      rw [List.mem_singleton.mp hb]
      exact (ih.1 a ha).2

theorem Located.start_le (h : Located text marks o) (hm : m ∈ marks) : m.2.start ≤ o :=
  have hspan := h.tiled.ordered.1 m.2 (List.mem_map_of_mem hm)
  hspan.1.trans hspan.2

theorem widened_append (before' : List (Token × Span)) (m : Token × Span) (o : Nat) :
    widened text (before' ++ [m]) o = widened text before' o + widened text [m] o := by
  rw [widened, List.map_append, List.sum_append]
  rfl

theorem drop_take_append (htext : text = before ++ (read ++ rest)) {i : Nat}
    (hi : i ≤ before.length) :
    (text.take (before ++ read).length).drop i = before.drop i ++ read := by
  rw [htext, ← List.append_assoc, List.take_left, List.drop_append_of_le_length hi]

theorem widened_of_line (htext : text = before ++ (read ++ rest)) (hread : ascii '\n' ∉ read)
    (hmarks : ∀ m ∈ marks, m.2.start ≤ before.length) :
    widened text marks (before ++ read).length = widened text marks before.length := by
  unfold widened
  refine congrArg List.sum (List.map_congr_left fun m hm => ?_)
  have hbefore : (text.take before.length).drop m.2.start = before.drop m.2.start := by
    rw [htext, List.take_left]
  rw [drop_take_append htext (hmarks m hm), hbefore]
  simp only [List.mem_append, hread, or_false]

theorem widened_of_newline (htext : text = before ++ (read ++ rest)) (hread : ascii '\n' ∈ read)
    (hmarks : ∀ m ∈ marks, m.2.start ≤ before.length) :
    widened text marks (before ++ read).length = 0 := by
  refine List.sum_eq_zero fun x hx => ?_
  obtain ⟨m, hm, rfl⟩ := List.mem_map.mp hx
  rw [drop_take_append htext (hmarks m hm), if_pos (List.mem_append_right _ hread)]

/-- The count of columns goes on over bytes that are read, of which `extra` take none. -/
theorem column_append (htext : text = before ++ (read ++ rest))
    (hmarks : ∀ m ∈ marks, m.2.start ≤ before.length) {c c' extra : Nat}
    (hc : c + widened text marks before.length = before.foldl Position.columnStep 1)
    (hc' : c' + extra = read.foldl Position.columnStep c) :
    c' + extra + widened text marks (before ++ read).length =
      (before ++ read).foldl Position.columnStep 1 := by
  rw [List.foldl_append, ← hc, hc']
  by_cases hread : ascii '\n' ∈ read
  · rw [widened_of_newline htext hread hmarks, Nat.add_zero]
    exact foldl_columnStep_of_mem hread _ _
  · rw [widened_of_line htext hread hmarks, Position.foldl_columnStep_of_line hread,
      Position.foldl_columnStep_of_line hread]
    omega

theorem Located.append (h : Located text marks m.2.start) (hspan : m.2.start ≤ m.2.stop)
    (hstands : Stands m.1.kind m.1.text (text.drop m.2.start) (text.drop m.2.stop))
    (hplaced : Placed text marks m) : Located text (marks ++ [m]) m.2.stop := by
  refine ⟨?_, ?_, ?_⟩
  · rw [List.map_append]
    exact .span h.tiled hspan
  · refine List.forall_mem_append.mpr ⟨h.stands, fun m' hm' => ?_⟩
    rw [List.mem_singleton.mp hm']
    exact hstands
  · intro before' m' after heq
    rcases List.eq_nil_or_concat after with rfl | ⟨after, x, rfl⟩
    · obtain ⟨rfl, hm⟩ := List.append_inj' heq rfl
      rw [← (List.cons.inj hm).1]
      exact hplaced
    · rw [List.concat_eq_append, ← List.cons_append, ← List.append_assoc] at heq
      exact h.placed before' m' after (List.append_inj' heq rfl).1

end Marks

end Token

namespace Lexer

open Token (Skips Stands)

section Runs

open Token (Located Placed Tiled widened)

variable {text before : Bytes} {marks : List (Token × Span)} {s next : Lexer} {ts : List Token}

/-- Where a lexer stands in a text, of which it has read `before`, and the tokens it has found. -/
structure Marked (text before : Bytes) (marks : List (Token × Span)) (s : Lexer) : Prop where
  text_eq : text = before ++ s.rest
  located : Located text marks before.length
  line : s.line = 1 + before.count (ascii '\n')
  column : s.column + widened text marks before.length = before.foldl Position.columnStep 1

theorem Marked.start_le (h : s.Marked text before marks) :
    ∀ m ∈ marks, m.2.start ≤ before.length := fun _ hm => h.located.start_le hm

theorem Marked.placed (h : s.Marked text before marks) {t : Token} (ht : t.position = s.position)
    (stop : Nat) : Placed text marks (t, ⟨before.length, stop⟩) := by
  have htake : text.take before.length = before := by rw [h.text_eq, List.take_left]
  refine ⟨?_, ?_⟩
  · rw [htake]
    exact (congrArg Position.line ht).trans h.line
  · rw [htake, ← Token.foldl_columnStep_one, ← h.column]
    exact congrArg (· + _) (congrArg Position.column ht)

theorem Marked.jump (h : s.Marked text before marks) (hjumps : s.Jumps next) :
    ∃ before', next.Marked text before' marks := by
  obtain ⟨read, hs, hskips, hposition⟩ := hjumps
  have htext : text = before ++ (read ++ next.rest) := by rw [h.text_eq, hs]
  have hdrop : text.drop before.length = s.rest := by rw [h.text_eq, List.drop_left]
  have hdrop' : text.drop (before ++ read).length = next.rest := by
    rw [htext, ← List.append_assoc, List.drop_left]
  obtain ⟨hline, hcolumn⟩ := Position.mk.inj hposition
  refine ⟨before ++ read, ?_, ⟨?_, h.located.stands, h.located.placed⟩, ?_, ?_⟩
  · rw [htext, List.append_assoc]
  · refine .skip h.located.tiled (by simp) ?_
    rw [hdrop, hdrop']
    exact hskips
  · rw [hline, List.count_append, ← Nat.add_assoc]
    exact congrArg (· + _) h.line
  · exact Token.column_append htext h.start_le h.column ((Nat.add_zero _).trans hcolumn)

theorem Marked.layout (h : s.Marked text before marks) (hts : ∀ t ∈ ts, t.surplus = 0 ∧
      t.position = s.position ∧ Stands t.kind t.text s.rest s.rest) :
    ∃ marks', marks'.map Prod.fst = ts ∧ s.Marked text before (marks ++ marks') := by
  induction ts generalizing marks with
  | nil => exact ⟨[], rfl, by rwa [List.append_nil]⟩
  | cons t ts ih =>
    obtain ⟨hsurplus, hposition, hstands⟩ := hts t (List.mem_cons_self ..)
    have hdrop : text.drop before.length = s.rest := by rw [h.text_eq, List.drop_left]
    have hmarked : s.Marked text before (marks ++ [(t, ⟨before.length, before.length⟩)]) := by
      refine ⟨h.text_eq, h.located.append (Nat.le_refl _) ?_ (h.placed hposition _), h.line, ?_⟩
      · rw [hdrop]
        exact hstands
      · rw [Token.widened_append, ← Nat.add_assoc, h.column]
        simp [widened, hsurplus]
    obtain ⟨marks', hmap, hmarks'⟩ := ih hmarked fun t ht => hts t (List.mem_cons_of_mem _ ht)
    refine ⟨(t, ⟨before.length, before.length⟩) :: marks', by rw [List.map_cons, hmap], ?_⟩
    rwa [List.append_assoc, List.singleton_append] at hmarks'

theorem Marked.passes (h : s.Marked text before marks) (hpasses : s.Passes ts next) :
    ∃ before' marks', marks'.map Prod.fst = ts ∧ next.Marked text before' (marks ++ marks') := by
  cases hpasses with
  | @token _ k value read hs hstands hline hcolumn hsurplus =>
    have htext : text = before ++ (read ++ next.rest) := by rw [h.text_eq, hs]
    have hdrop : text.drop before.length = s.rest := by rw [h.text_eq, List.drop_left]
    have hdrop' : text.drop (before ++ read).length = next.rest := by
      rw [htext, ← List.append_assoc, List.drop_left]
    refine ⟨before ++ read, [(s.token k value, ⟨before.length, (before ++ read).length⟩)], rfl,
      ?_, ?_, ?_, ?_⟩
    · rw [htext, List.append_assoc]
    · refine h.located.append (by simp) ?_ (h.placed rfl _)
      rw [hdrop, hdrop']
      exact hstands
    · rw [hline, List.count_append, ← Nat.add_assoc, h.line]
    · have hself : widened text [(s.token k value, ⟨before.length, (before ++ read).length⟩)]
          (before ++ read).length = (s.token k value).surplus := by
        have hbetween : (text.take (before ++ read).length).drop before.length = read := by
          rw [Token.drop_take_append htext (Nat.le_refl _), List.drop_length, List.nil_append]
        rcases hsurplus with hzero | hread
        · simp [widened, hzero]
        · simp only [widened, List.map_cons, List.map_nil, List.sum_cons, List.sum_nil, hbetween,
            if_neg hread, Nat.add_zero]
      rw [Token.widened_append, hself, ← Token.column_append htext h.start_le h.column hcolumn]
      omega
  | newline hs hjumps =>
    have hnewline : ∀ t ∈ [s.token .newline []], t.surplus = 0 ∧ t.position = s.position ∧
        Stands t.kind t.text s.rest s.rest := by
      intro t ht
      rw [List.mem_singleton.mp ht]
      exact ⟨surplus_token (by decide) _, rfl, .newline (.inr hs)⟩
    obtain ⟨marks', hmap, hmarked⟩ := h.layout hnewline
    obtain ⟨before', hmarked'⟩ := hmarked.jump hjumps
    exact ⟨before', marks', hmap, hmarked'⟩
  | skip hjumps hts =>
    obtain ⟨before', hmarked⟩ := h.jump hjumps
    obtain ⟨marks', hmap, hmarked'⟩ := hmarked.layout hts
    exact ⟨before', marks', hmap, hmarked'⟩

theorem finish_tokens (hs : s.rest = []) : ∀ t ∈ s.finish.1, t.surplus = 0 ∧
    t.position = s.position ∧ Stands t.kind t.text s.rest s.rest := by
  have hmargin : Stands .dedent [] s.rest s.rest := by
    refine .margin (.inr rfl) fun b r hb => ?_
    rw [hs] at hb
    cases hb
  intro t ht
  rw [finish, List.mem_append, List.mem_append] at ht
  rcases ht with (ht | ht) | ht
  · split at ht
    · rw [List.mem_singleton.mp ht]
      exact ⟨surplus_token (by decide) _, rfl, .newline (.inl hs)⟩
    · cases ht
  · obtain ⟨l, -, rfl⟩ := List.mem_map.mp ht
    exact ⟨surplus_token (by decide) _, rfl, hmargin⟩
  · rw [List.mem_singleton.mp ht, hs]
    exact ⟨surplus_token (by decide) _, rfl, .eof⟩

theorem Takes.located {n : Nat} {run : Run} (h : s.Takes n run) (hs : s.Marked text before marks)
    (hresult : run.result = .ok ts) :
    ∃ marks', marks'.map Prod.fst = ts ∧ Located text (marks ++ marks') text.length := by
  induction h generalizing before marks ts with
  | finish hnil =>
    obtain ⟨marks', hmap, hmarked⟩ := hs.layout (finish_tokens hnil)
    have hlength : text.length = before.length := by rw [hs.text_eq, hnil, List.append_nil]
    refine ⟨marks', hmap.trans (Except.ok.inj hresult), ?_⟩
    rw [hlength]
    exact hmarked.located
  | fail => cases hresult
  | more hcons hstep _ ih =>
    rename_i run _
    cases hinner : run.result with
    | error e =>
      rw [Run.prepend, hinner] at hresult
      cases hresult
    | ok us =>
      rw [Run.prepend, hinner] at hresult
      obtain ⟨before', marks', hmap, hmarked⟩ := hs.passes (passes_step hcons hstep)
      obtain ⟨marks'', hmap', hlocated⟩ := ih hmarked hinner
      refine ⟨marks' ++ marks'', ?_, ?_⟩
      · rw [List.map_append, hmap, hmap']
        exact Except.ok.inj hresult
      · rwa [← List.append_assoc]

theorem marked_ofBytes (text : Bytes) : (ofBytes text).Marked text [] [] :=
  ⟨rfl, ⟨.nil, nofun, fun _ _ _ h => absurd h (by simp)⟩, rfl, rfl⟩

end Runs

end Lexer

/-- A text that can be read at all is read without loss. Each token has a span of the text, and the
spans come one after the other up to the end of the text. What a token is and what it says stands in
its span, as long as it can be: numbers, names, strings, operators and keywords take some bytes, and
the tokens of the layout none. Between the spans there are only blanks, ends of lines, comments and
backslashes at the end of a line. The line of a token counts the ends of lines in front of it, and its
column the bytes since the last of them, less those of identifiers beyond one for each character. -/
theorem tokenize_located {text : Bytes} {ts : List Token} (h : tokenize text = .ok ts) :
    ∃ marks : List (Token × Span), marks.map Prod.fst = ts ∧
      Token.Located text marks text.length ∧
      (marks.map Prod.snd).Pairwise (fun a b => a.stop ≤ b.start) ∧
      ∀ m ∈ marks, m.2.start ≤ m.2.stop ∧ m.2.stop ≤ text.length ∧
        (m.1.kind ∉ [.newline, .indent, .dedent, .eof] → m.2.start < m.2.stop) := by
  obtain ⟨n, -, htakes⟩ := (Lexer.ofBytes text).start.takes_steps
  obtain ⟨marks, hmap, hlocated⟩ := htakes.located (Lexer.marked_ofBytes text) h
  rw [List.nil_append] at hlocated
  obtain ⟨hbounds, hordered⟩ := hlocated.tiled.ordered
  refine ⟨marks, hmap, hlocated, hordered, fun m hm => ?_⟩
  obtain ⟨hle, hstop⟩ := hbounds m.2 (List.mem_map_of_mem hm)
  refine ⟨hle, hstop, fun hkind => ?_⟩
  have hlt := (hlocated.stands m hm).length_lt hkind
  rw [List.length_drop, List.length_drop] at hlt
  omega

/-- The letter with an accent has two bytes and one column, so that the colon is in the fifth one. -/
theorem tokenize_located_accent :
    tokenize (Bytes.ofString "if é: # c\n x='\\n'") = .ok
      [⟨.kwIf, Bytes.ofString "if", ⟨1, 1⟩⟩, ⟨.identifier, [0xC3, 0xA9], ⟨1, 4⟩⟩,
        ⟨.colon, [ascii ':'], ⟨1, 5⟩⟩, ⟨.newline, [], ⟨1, 10⟩⟩, ⟨.indent, [], ⟨2, 2⟩⟩,
        ⟨.identifier, [ascii 'x'], ⟨2, 2⟩⟩, ⟨.assign, [ascii '='], ⟨2, 3⟩⟩,
        ⟨.string, [ascii '\n'], ⟨2, 4⟩⟩, ⟨.newline, [], ⟨2, 8⟩⟩, ⟨.dedent, [], ⟨2, 8⟩⟩,
        ⟨.eof, [], ⟨2, 8⟩⟩] ∧
    ∃ marks : List (Token × Span), marks.length = 11 ∧
      Token.Located (Bytes.ofString "if é: # c\n x='\\n'") marks 18 := by
  have h : tokenize (Bytes.ofString "if é: # c\n x='\\n'") = .ok
      [⟨.kwIf, Bytes.ofString "if", ⟨1, 1⟩⟩, ⟨.identifier, [0xC3, 0xA9], ⟨1, 4⟩⟩,
        ⟨.colon, [ascii ':'], ⟨1, 5⟩⟩, ⟨.newline, [], ⟨1, 10⟩⟩, ⟨.indent, [], ⟨2, 2⟩⟩,
        ⟨.identifier, [ascii 'x'], ⟨2, 2⟩⟩, ⟨.assign, [ascii '='], ⟨2, 3⟩⟩,
        ⟨.string, [ascii '\n'], ⟨2, 4⟩⟩, ⟨.newline, [], ⟨2, 8⟩⟩, ⟨.dedent, [], ⟨2, 8⟩⟩,
        ⟨.eof, [], ⟨2, 8⟩⟩] := by cbv
  obtain ⟨marks, hmap, hlocated, -, -⟩ := tokenize_located h
  refine ⟨h, marks, ?_, hlocated⟩
  simpa using congrArg List.length hmap

end BoardPython
