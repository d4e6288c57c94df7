import BoardPython.Proofs.LiteralSpelling
import BoardPython.Token.Tokenize

/-! What a lexer yields when nobody looks at positions. The kinds and texts of the tokens do not
depend on the line and the column that a lexer starts from: `yield_eq_of_bare_eq`. -/
namespace BoardPython

open Token (Kind)
open Token.Scan
open Bytes (ascii)

/-- A token without its position. -/
def Token.content (t : Token) : Kind × Bytes := (t.kind, t.text)

/-- The tokens of a text without their positions; none if the text has a lexical error. -/
def tokenContents (source : Bytes) : Option (List (Kind × Bytes)) :=
  (tokenize source).toOption.map (List.map Token.content)

/-- The kinds of the tokens that are written in a text. The others are for lines and blocks. -/
def Token.Kind.written : List Kind :=
  .identifier :: .number :: .string :: (Kind.keywords ++ Kind.operators)

namespace Lexer

section Steps

variable {s next next' : Lexer} {b : UInt8} {ts : List Token} {k : Kind} {text : Bytes}

def wordText (rest : Bytes) : Bytes := rest.take (rest.length - (nameSpan rest).2.length)

inductive TokenText (rest : Bytes) : Kind → Bytes → Prop
  | number (h : startsNumber rest = true) : TokenText rest .number (rest.take (numberSpan rest).length)
  | word (h : startsName rest = true) : TokenText rest (wordKind (wordText rest)) (wordText rest)
  | string (value : Bytes) : TokenText rest .string value
  | operator {k : Kind} (h : k ∈ Kind.operators) : TokenText rest k k.spelling

structure Finds (s : Lexer) (t : Token) (next : Lexer) : Prop where
  text : TokenText s.rest t.kind t.text
  depth : next.depth = s.depth ∨ t.kind ∈ Kind.operators
  levels : next.levels = s.levels
  last : next.last = some t.kind

theorem wordKind_mem (text : Bytes) : wordKind text ∈ .identifier :: Kind.keywords := by
  unfold wordKind
  cases hfind : Kind.keywords.find? _ with
  | none => exact List.mem_cons_self ..
  | some k => exact List.mem_cons_of_mem _ (List.mem_of_find?_eq_some hfind)

theorem TokenText.kind {rest : Bytes} (h : TokenText rest k text) : k ∈ Kind.written := by
  cases h with
  | number | string => decide
  | word h =>
    have hwords : ∀ k ∈ .identifier :: Kind.keywords, k ∈ Kind.written := by decide
    exact hwords _ (wordKind_mem _)
  | operator h =>
    have hoperators : ∀ k ∈ Kind.operators, k ∈ Kind.written := by decide
    exact hoperators _ h

theorem Finds.kind {t : Token} (h : s.Finds t next) : t.kind ∈ Kind.written := h.text.kind

/-- What a step can do: pass over bytes, end a line, with a token or without one, read a token, open
a block or close some. -/
inductive Does (s : Lexer) : List Token → Lexer → Prop
  | skip {next : Lexer} (hdepth : next.depth = s.depth) (hlevels : next.levels = s.levels)
      (hstart : next.lineStart = s.lineStart) (hlast : next.last = s.last) : Does s [] next
  | newline (hends : s.depth = 0 ∧ s.last.isSome ∧ s.last ≠ some .newline) :
      Does s [s.token .newline []] { s.nextLine 1 with lineStart := true, last := some .newline }
  | wrap (hends : ¬(s.depth = 0 ∧ s.last.isSome ∧ s.last ≠ some .newline)) :
      Does s [] { s.nextLine 1 with lineStart := true }
  | read {t : Token} {next : Lexer} (h : s.Finds t next) : Does s [t] next
  | indent {n width : Nat} (hstart : s.lineStart = true ∧ s.depth = 0) (hdeeper : s.level < width) :
      Does s [(s.advance n).token .indent []]
        { s.advance n with levels := width :: s.levels, lineStart := false, last := some .indent }
  | dedent {n : Nat} (width : Nat) (hstart : s.lineStart = true ∧ s.depth = 0) :
      Does s ((s.levels.takeWhile (width < ·)).map fun _ => (s.advance n).token .dedent [])
        { s.advance n with
          levels := s.levels.dropWhile (width < ·), lineStart := false
          last := if (s.levels.takeWhile (width < ·)).isEmpty then s.last else some .dedent }

theorem finds_single (h : s.single k text next' = .more ts next) (hk : TokenText s.rest k text)
    (hdepth : next'.depth = s.depth ∨ k ∈ Kind.operators) (hlevels : next'.levels = s.levels) :
    ∃ t, ts = [t] ∧ s.Finds t next := by
  obtain ⟨rfl, rfl⟩ := Step.more.inj h
  exact ⟨_, rfl, hk, hdepth, hlevels, rfl⟩

theorem finds_number (hstart : startsNumber s.rest = true) (h : s.number = .more ts next) :
    ∃ t, ts = [t] ∧ s.Finds t next := by
  unfold number at h
  dsimp only at h
  split at h
  · cases h
  split at h
  · cases h
  · exact finds_single h (.number hstart) (.inl rfl) rfl

theorem finds_word (hstart : startsName s.rest = true) (h : s.word = .more ts next) :
    ∃ t, ts = [t] ∧ s.Finds t next :=
  finds_single h (.word hstart) (.inl rfl) rfl

theorem finds_string {mark : UInt8} (h : s.string mark = .more ts next) :
    ∃ t, ts = [t] ∧ s.Finds t next := by
  unfold string at h
  split at h
  · exact finds_single h (.string _) (.inl rfl) rfl
  · cases h

theorem finds_operator (h : s.operator = .more ts next) : ∃ t, ts = [t] ∧ s.Finds t next := by
  unfold operator at h
  split at h
  · cases h
  · rename_i k hk
    have hmem := List.mem_of_find?_eq_some hk
    exact finds_single h (.operator hmem) (.inr hmem) rfl

theorem does_lexeme (h : s.lexeme b = .more ts next) : s.Does ts next := by
  have hread (h : ∃ t, ts = [t] ∧ s.Finds t next) : s.Does ts next := by
    obtain ⟨t, rfl, ht⟩ := h
    exact .read ht
  unfold lexeme at h
  split at h
  · unfold newline at h
    dsimp only at h
    split at h
    · rename_i hends
      obtain ⟨rfl, rfl⟩ := Step.more.inj h
      exact .newline hends
    · rename_i hends
      obtain ⟨rfl, rfl⟩ := Step.more.inj h
      exact .wrap hends
  split at h
  · obtain ⟨rfl, rfl⟩ := Step.more.inj h
    exact .skip rfl rfl rfl rfl
  split at h
  · obtain ⟨rfl, rfl⟩ := Step.more.inj h
    exact .skip rfl rfl rfl rfl
  split at h
  · obtain ⟨rfl, rfl⟩ := Step.more.inj h
    exact .skip rfl rfl rfl rfl
  split at h
  · rename_i hstart
    exact hread (finds_number hstart h)
  split at h
  · rename_i hstart
    exact hread (finds_word hstart h)
  split at h
  · exact hread (finds_string h)
  · exact hread (finds_operator h)

theorem does_layout (hstart : s.lineStart = true ∧ s.depth = 0) (h : s.layout = .more ts next) :
    s.Does ts next := by
  have hblank {n : Nat} (h : (s.advance n).endBlankLine = .more ts next) : s.Does ts next := by
    obtain ⟨rfl, rfl⟩ := Step.more.inj h
    split <;> exact .skip rfl rfl rfl rfl
  unfold layout at h
  dsimp only at h
  split at h
  · exact hblank h
  split at h
  · exact hblank h
  split at h
  · obtain ⟨rfl, rfl⟩ := Step.more.inj h
    split <;> exact .skip rfl rfl rfl rfl
  unfold indent at h
  split at h
  · rename_i hdeeper
    obtain ⟨rfl, rfl⟩ := Step.more.inj h
    exact .indent hstart hdeeper
  · dsimp only at h
    split at h
    · obtain ⟨rfl, rfl⟩ := Step.more.inj h
      exact .dedent _ hstart
    · cases h

theorem does_step (h : s.step b = .more ts next) : s.Does ts next := by
  unfold step at h
  split at h
  · rename_i hstart
    exact does_layout (by simpa using hstart) h
  · exact does_lexeme h

end Steps

def placed (s : Lexer) (p : Position) : Lexer := { s with line := p.line, column := p.column }

def bare (s : Lexer) : Lexer := s.placed ⟨0, 0⟩

/-- A step without positions; none if it fails. -/
def Step.bare : Step → Option (List (Kind × Bytes) × Lexer)
  | .more ts next => some (ts.map Token.content, next.bare)
  | .fail .. => none

@[simp] theorem rest_placed (s : Lexer) (p : Position) : (s.placed p).rest = s.rest := rfl

@[simp] theorem advance_placed (s : Lexer) (p : Position) (n : Nat) :
    (s.placed p).advance n = (s.advance n).placed ⟨p.line, p.column + n⟩ := rfl

theorem bare_endBlankLine (s : Lexer) (p : Position) :
    (s.placed p).endBlankLine.bare = s.endBlankLine.bare := by
  simp only [endBlankLine, Step.bare, apply_ite bare]
  rfl

theorem bare_indent (s : Lexer) (p : Position) (width : Nat) :
    ((s.placed p).indent width).bare = (s.indent width).bare := by
  simp only [indent, apply_ite Step.bare]
  -- The dedent tokens are the only ones whose number depends on the lexer.
  simp only [Step.bare, List.map_map]
  rfl

theorem bare_layout (s : Lexer) (p : Position) : (s.placed p).layout.bare = s.layout.bare := by
  unfold layout
  simp only [rest_placed, advance_placed]
  generalize hs : s.advance (s.rest.takeWhile isIndentation).length = t
  split
  · exact bare_endBlankLine t _
  · split
    · exact bare_endBlankLine t _
    split
    · rw [skipComment, advance_placed]
      exact bare_endBlankLine t.skipComment _
    · exact bare_indent t _ _

theorem bare_newline (s : Lexer) (p : Position) : (s.placed p).newline.bare = s.newline.bare := by
  simp only [newline, apply_ite Step.bare]
  rfl

theorem bare_number (s : Lexer) (p : Position) : (s.placed p).number.bare = s.number.bare := by
  simp only [number, apply_ite Step.bare]
  rfl

theorem bare_string (s : Lexer) (p : Position) {mark : UInt8}
    (hmark : isQuote mark = true) :
    ((s.placed p).string mark).bare = (s.string mark).bare := by
  have h := literal_closed?_position hmark ((s.placed p).advance 1).position
    (s.advance 1).position (s.rest.drop 1)
  unfold string
  simp only [rest_placed]
  cases hl : literal mark ((s.placed p).advance 1).position (s.rest.drop 1) with
  | closed value rest stop =>
    cases hm : literal mark (s.advance 1).position (s.rest.drop 1) with
    | closed value' rest' stop' =>
      simp only [hl, hm, Literal.closed?, Option.some.injEq, Prod.mk.injEq] at h
      obtain ⟨rfl, rfl⟩ := h
      rfl
    | broken =>
      rw [hl, hm] at h
      cases h
  | broken =>
    cases hm : literal mark (s.advance 1).position (s.rest.drop 1) with
    | closed =>
      rw [hl, hm] at h
      cases h
    | broken => rfl

theorem bare_operator (s : Lexer) (p : Position) : (s.placed p).operator.bare = s.operator.bare
    := by
  unfold operator
  simp only [rest_placed]
  split <;> rfl

theorem bare_lexeme (s : Lexer) (p : Position) (b : UInt8) :
    ((s.placed p).lexeme b).bare = (s.lexeme b).bare := by
  simp only [lexeme, apply_ite Step.bare, bare_newline, bare_number, bare_operator]
  by_cases hmark : (b == ascii '"' || b == 0x27) = true
  · simp only [hmark, bare_string s p hmark]
    rfl
  · simp only [hmark]
    rfl

theorem bare_step (s : Lexer) (p : Position) (b : UInt8) :
    ((s.placed p).step b).bare = (s.step b).bare := by
  simp only [step, apply_ite Step.bare, bare_layout, bare_lexeme]
  rfl

variable {s t : Lexer} {b : UInt8} {r : Bytes}

theorem eq_placed_of_bare_eq (h : s.bare = t.bare) : t = s.placed t.position := by
  cases s
  cases t
  simp only [bare, placed, Lexer.mk.injEq] at h
  obtain ⟨rfl, -, -, rfl, rfl, rfl, rfl⟩ := h
  rfl

section Views

variable {α : Type} {f : Token → α} {s next stop : Lexer} {b : UInt8} {r : Bytes} {ts : List Token}
  {e : SyntaxError}

theorem steps_of_nil (hs : s.rest = []) : s.steps = ⟨.ok s.finish.1, s.finish.2⟩ := by
  unfold steps
  split
  · rfl
  · rename_i b r h
    rw [hs] at h
    cases h

theorem steps_of_cons (hs : s.rest = b :: r) :
    (∃ ts next, s.step b = .more ts next ∧ s.steps = next.steps.prepend ts) ∨
      ∃ e stop, s.step b = .fail e stop ∧ s.steps = ⟨.error e, stop⟩ := by
  rw [steps]
  split
  · rename_i h
    rw [hs] at h
    cases h
  · rename_i b' r' h
    rw [hs] at h
    obtain ⟨rfl, rfl⟩ := List.cons.inj h
    split
    · rename_i ts next hmore
      exact .inl ⟨ts, next, hmore, rfl⟩
    · rename_i e stop hfail
      exact .inr ⟨e, stop, hfail, rfl⟩

/-- What `f` sees of the tokens of a run; none if the run fails. -/
def view (f : Token → α) (s : Lexer) : Option (List α) := s.steps.result.toOption.map (List.map f)

theorem view_of_nil (hs : s.rest = []) : s.view f = some (s.finish.1.map f) := by
  rw [view, steps_of_nil hs]
  rfl

theorem view_of_more (hs : s.rest = b :: r) (h : s.step b = .more ts next) :
    s.view f = (next.view f).map (ts.map f ++ ·) := by
  rcases steps_of_cons hs with ⟨ts', next', h', hsteps⟩ | ⟨e, stop, h', -⟩
  · obtain ⟨rfl, rfl⟩ := Step.more.inj (h.symm.trans h')
    rw [view, hsteps, view]
    cases hr : next.steps.result with
    | ok us | error e => simp [Run.prepend, hr, Except.map, Except.toOption]
  · cases h.symm.trans h'

theorem view_of_fail (hs : s.rest = b :: r) (h : s.step b = .fail e stop) : s.view f = none := by
  rcases steps_of_cons hs with ⟨ts, next, h', -⟩ | ⟨e', stop', h', hsteps⟩
  · cases h.symm.trans h'
  · rw [view, hsteps]
    rfl

theorem view_of_silent (hs : s.rest = b :: r) (h : s.step b = .more [] next) :
    s.view f = next.view f := by
  rw [view_of_more hs h]
  cases next.view f <;> rfl

end Views

/-- The tokens of a run without their positions; none if the run fails. -/
def yield (s : Lexer) : Option (List (Kind × Bytes)) :=
  s.steps.result.toOption.map (List.map Token.content)

theorem tokenContents_eq_yield (source : Bytes) : tokenContents source = (ofBytes source).yield :=
  rfl

theorem yield_of_nil (hs : s.rest = []) : s.yield = some (s.finish.1.map Token.content) :=
  view_of_nil hs

theorem yield_of_more {next : Lexer} {ts : List Token} (hs : s.rest = b :: r)
    (h : s.step b = .more ts next) : s.yield = next.yield.map (ts.map Token.content ++ ·) :=
  view_of_more hs h

theorem yield_of_fail {stop : Lexer} {e : SyntaxError} (hs : s.rest = b :: r)
    (h : s.step b = .fail e stop) : s.yield = none :=
  view_of_fail hs h

theorem finish_contents (s : Lexer) : s.finish.1.map Token.content =
    (if s.last.isSome ∧ s.last ≠ some .newline then [(Kind.newline, [])] else []) ++
      s.levels.map (fun _ => (Kind.dedent, [])) ++ [(Kind.eof, [])] := by
  simp only [finish, List.map_append, List.map_map, apply_ite (List.map Token.content)]
  rfl

theorem yield_placed (s : Lexer) (p : Position) : (s.placed p).yield = s.yield := by
  induction hw : s.work using Nat.strongRecOn generalizing s p with
  | ind n ih =>
    have hr : (s.placed p).rest = s.rest := rfl
    cases hs : s.rest with
    | nil =>
      rw [yield_of_nil (hr.trans hs), yield_of_nil hs, finish_contents, finish_contents]
      rfl
    | cons b r =>
      have hb := bare_step s p b
      cases h : s.step b with
      | more ts next =>
        cases h' : (s.placed p).step b with
        | more ts' next' =>
          simp only [h, h', Step.bare, Option.some.injEq, Prod.mk.injEq] at hb
          rw [yield_of_more (hr.trans hs) h', yield_of_more hs h, hb.1]
          have hlt : next.work < n := hw ▸ step_work hs h
          rw [eq_placed_of_bare_eq hb.2.symm, ih next.work hlt next _ rfl]
        | fail e stop => simp [h, h', Step.bare] at hb
      | fail e stop =>
        cases h' : (s.placed p).step b with
        | more ts' next' => simp [h, h', Step.bare] at hb
        | fail e' stop' => rw [yield_of_fail (hr.trans hs) h', yield_of_fail hs h]

theorem yield_eq_of_bare_eq (h : s.bare = t.bare) : s.yield = t.yield := by
  rw [eq_placed_of_bare_eq h, yield_placed]

end Lexer

end BoardPython
