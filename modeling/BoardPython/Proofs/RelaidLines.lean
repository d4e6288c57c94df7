import BoardPython.Proofs.LineTokens

/-! Texts whose lines differ in layout only. Two lexers run side by side on texts whose lines have the
same tokens, but other indentation, other blanks and comments at their ends and other blank lines in
between: `agrees_of_relaid`. Where lines are numbered, only the ends of lines may differ; then the
second lexer fails where the first one joins two lines with a backslash. -/
namespace BoardPython

open Token (Kind)
open Token.Scan
open Bytes (ascii)

/-- What is seen of a token: its line only if lines are numbered. -/
def Token.seen (numbered : Bool) (t : Token) : Kind × Bytes × Nat :=
  (t.kind, t.text, if numbered then t.position.line else 0)

def behindLine (lines : List Bytes) : Bytes := lines.flatMap (ascii '\n' :: ·)

def ofLines : List Bytes → Bytes
  | [] => []
  | line :: lines => line ++ behindLine lines

theorem ofLines_eq_intercalate (lines : List Bytes) :
    ofLines lines = [ascii '\n'].intercalate lines := by
  induction lines with
  | nil => rfl
  | cons line lines ih =>
    cases lines with
    | nil => simp [ofLines, behindLine]
    | cons line₂ lines => rw [List.intercalate_cons_cons, ← ih]; simp [ofLines, behindLine]

theorem newline_notMem_of_mem_splitOn {text line : Bytes} (h : line ∈ text.splitOn (ascii '\n')) :
    ascii '\n' ∉ line := by
  unfold List.splitOn at h
  induction text generalizing line with
  | nil => simp_all
  | cons b text ih =>
    rw [List.splitOnP_cons_eq_if_modifyHead] at h
    split at h
    · rcases List.mem_cons.mp h with rfl | h
      · exact List.not_mem_nil
      · exact ih h
    · rename_i hb
      cases hsplit : text.splitOnP (· == ascii '\n') with
      | nil => simp [hsplit] at h
      | cons first rest =>
        simp only [hsplit, List.modifyHead_cons, List.mem_cons] at h ih
        rcases h with rfl | h
        · rw [List.mem_cons, not_or]
          exact ⟨fun heq => hb (beq_iff_eq.mpr heq.symm), ih (.inl rfl)⟩
        · exact ih (.inr h)

theorem ofLines_splitOn (text : Bytes) : ofLines (text.splitOn (ascii '\n')) = text := by
  rw [ofLines_eq_intercalate, List.intercalate_splitOn]

namespace Lexer

section Lines

variable (lines : List Bytes)

theorem lineEnd_behindLine : LineEnd (behindLine lines) := by
  cases lines with
  | nil => exact .inl rfl
  | cons line lines => exact .inr ⟨line ++ behindLine lines, rfl⟩

theorem tail_behindLine : (behindLine lines).tail = ofLines lines := by
  cases lines <;> rfl

theorem isEmpty_behindLine : (behindLine lines).isEmpty = lines.isEmpty := by
  cases lines <;> rfl

theorem atBreak_of_lineEnd {e : Bytes} (he : LineEnd e) : AtBreak e := by
  rcases he with rfl | ⟨r, rfl⟩
  · exact .inl rfl
  · exact .inr ⟨_, _, rfl, by decide⟩

end Lines

/-- In front of the lexer, in the middle of a line, is a backslash at the end of the line, or a string
literal that has one. -/
def JoinsLine (s : Lexer) : Prop :=
  (s.lineStart && s.depth == 0) = false ∧
    (continuesLine s.rest = true ∨ ∃ mark written value rest, isQuote mark = true ∧
      s.rest = mark :: written ++ mark :: rest ∧ Spells mark written value ∧
        ascii '\n' ∈ written)

/-- Somewhere on the way the lexer is in front of such a place. -/
def Joins (s : Lexer) : Prop := ∃ ts t, Visits s ts t ∧ t.JoinsLine

/-- The numbers of open brackets where lines end. -/
def lineDepths (s : Lexer) : List Nat :=
  match _hs : s.rest with
  | [] => [s.depth]
  | b :: _ =>
    (if b = ascii '\n' then [s.depth] else []) ++
      match _h : s.step b with
      | .more _ next => next.lineDepths
      | .fail .. => []
termination_by s.work
decreasing_by exact step_work _hs _h

structure Leads (s : Lexer) (ts : List Token) (next : Lexer) : Prop where
  view : ∀ {α : Type} (f : Token → α), s.view f = (next.view f).map (ts.map f ++ ·)
  joins : s.Joins ↔ next.Joins
  depths : next.lineDepths ⊆ s.lineDepths

section Leads

variable {s next : Lexer} {b : UInt8} {r : Bytes} {ts : List Token}

theorem lineDepths_of_more (hs : s.rest = b :: r) (h : s.step b = .more ts next) :
    s.lineDepths = (if b = ascii '\n' then [s.depth] else []) ++ next.lineDepths := by
  rw [lineDepths]
  split
  · rename_i hnil
    rw [hs] at hnil
    cases hnil
  · rename_i b' r' hcons
    rw [hs] at hcons
    obtain ⟨rfl, rfl⟩ := List.cons.inj hcons
    congr 1
    split
    · rename_i hmore
      rw [h] at hmore
      obtain ⟨rfl, rfl⟩ := Step.more.inj hmore
      rfl
    · rename_i hfail
      rw [h] at hfail
      cases hfail

theorem lineDepths_of_nil (hs : s.rest = []) : s.lineDepths = [s.depth] := by
  rw [lineDepths]
  split
  · rfl
  · rename_i hcons
    rw [hs] at hcons
    cases hcons

theorem depth_mem_lineDepths (he : LineEnd s.rest) : s.depth ∈ s.lineDepths := by
  rw [lineDepths]
  split
  · exact List.mem_singleton_self _
  · rename_i b r hs
    rw [hs] at he
    rcases he with he | ⟨r', he⟩
    · cases he
    · rw [if_pos (List.cons.inj he).1]
      exact List.mem_append_left _ (List.mem_singleton_self _)

theorem not_joinsLine (hs : ∀ b r, s.rest = b :: r → b ≠ ascii '\\' ∧ isQuote b = false) :
    ¬s.JoinsLine := by
  rintro ⟨-, hcontinues | ⟨mark, written, value, rest, hmark, hrest, -⟩⟩
  · obtain ⟨r', hr'⟩ := rest_of_continuesLine hcontinues
    exact (hs _ _ hr').1 rfl
  · rw [(hs _ _ hrest).2] at hmark
    cases hmark

theorem not_joinsLine_of_head (hs : s.rest = b :: r) (hb : b ≠ ascii '\\') (hq : isQuote b = false) :
    ¬s.JoinsLine :=
  not_joinsLine fun b' r' h => by
    rw [hs] at h
    obtain ⟨rfl, -⟩ := List.cons.inj h
    exact ⟨hb, hq⟩

theorem joins_iff (hs : s.rest = b :: r) (h : s.step b = .more ts next) (hhere : ¬s.JoinsLine) :
    s.Joins ↔ next.Joins := by
  constructor
  · rintro ⟨us, t, hvisits, ht⟩
    cases hvisits with
    | here => exact absurd ht hhere
    | step hs' h' htail =>
      rw [hs] at hs'
      obtain ⟨rfl, rfl⟩ := List.cons.inj hs'
      rw [h] at h'
      obtain ⟨rfl, rfl⟩ := Step.more.inj h'
      exact ⟨_, t, htail, ht⟩
  · rintro ⟨us, t, hvisits, ht⟩
    exact ⟨_, t, .step hs h hvisits, ht⟩

theorem not_joins_of_nil (hs : s.rest = []) : ¬s.Joins := by
  rintro ⟨us, t, hvisits, ht⟩
  cases hvisits with
  | here =>
    refine not_joinsLine (fun b r h => ?_) ht
    rw [hs] at h
    cases h
  | step hs' =>
    rw [hs] at hs'
    cases hs'

theorem leads_self : s.Leads [] s :=
  ⟨fun f => by cases s.view f <;> rfl, Iff.rfl, List.Subset.refl _⟩

theorem leads_of_step (hs : s.rest = b :: r) (h : s.step b = .more ts next) (hhere : ¬s.JoinsLine) :
    s.Leads ts next where
  view _ := view_of_more hs h
  joins := joins_iff hs h hhere
  depths := by
    rw [lineDepths_of_more hs h]
    exact List.subset_append_right _ _

theorem leads_blankLine {line : Bytes} {lines : List Bytes}
    (hmode : (s.lineStart && s.depth == 0) = true) (hs : s.rest = ofLines (line :: lines))
    (hblank : isBlankLine line = true) (hline : ascii '\n' ∉ line) :
    ∃ column, s.Leads [] { s with
      rest := ofLines lines, line := if lines.isEmpty then s.line else s.line + 1, column } := by
  cases hrest : s.rest with
  | nil =>
    -- Behind an empty last line there is nothing to pass over.
    rw [hs] at hrest
    obtain ⟨rfl, hlines⟩ := List.append_eq_nil_iff.mp hrest
    cases lines with
    | cons => cases hlines
    | nil =>
      have hsame : s = { s with rest := ofLines [] } := congrArg (fun rest => { s with rest }) hs
      exact ⟨s.column, hsame ▸ leads_self⟩
  | cons b r =>
    obtain ⟨column, hlayout⟩ := layout_of_blankLine hs hblank hline (lineEnd_behindLine lines)
    rw [tail_behindLine, isEmpty_behindLine] at hlayout
    refine ⟨column, leads_of_step hrest ((s.step_eq_layout hmode b).trans hlayout) fun hjoins => ?_⟩
    rw [hjoins.1] at hmode
    cases hmode

theorem leads_lineEnd {lines : List Bytes} (hmode : (s.lineStart && s.depth == 0) = false)
    (hdepth : s.depth = 0) (hs : s.rest = behindLine lines) :
    ∃ column, s.Leads
      (if s.last.isSome ∧ s.last ≠ some .newline then [s.token .newline []] else [])
      { s with
        rest := ofLines lines, line := if lines.isEmpty then s.line else s.line + 1, column,
        lineStart := true,
        last := if s.last.isSome ∧ s.last ≠ some .newline then some .newline else s.last } := by
  cases lines with
  | nil =>
    refine ⟨s.column, fun f => ?_, ?_, ?_⟩
    · rw [view_of_nil hs, view_of_nil rfl]
      simp only [finish, Option.map_some, List.map_append]
      by_cases hends : s.last.isSome ∧ s.last ≠ some .newline
      · simp only [if_pos hends]
        rfl
      · simp only [if_neg hends]
        rfl
    · exact iff_of_false (not_joins_of_nil hs) (not_joins_of_nil rfl)
    · rw [lineDepths_of_nil hs, lineDepths_of_nil rfl]
      exact List.Subset.refl _
  | cons line lines =>
    have hrest : (s.nextLine 1).rest = ofLines (line :: lines) := by
      rw [nextLine, hs]
      rfl
    have hstep := (s.step_eq_lexeme hmode (ascii '\n')).trans s.lexeme_newline
    have hhere : ¬s.JoinsLine := not_joinsLine_of_head hs (by decide) (by decide)
    refine ⟨1, ?_⟩
    by_cases hends : s.last.isSome ∧ s.last ≠ some .newline
    · rw [newline_of_ends ⟨hdepth, hends⟩] at hstep
      rw [if_pos hends, if_pos hends, ← hrest]
      exact leads_of_step hs hstep hhere
    · rw [newline_of_not_ends fun h => hends h.2] at hstep
      rw [if_neg hends, if_neg hends, ← hrest]
      exact leads_of_step hs hstep hhere

end Leads

section Trailing

def isPlain (b : UInt8) : Bool := !isQuote b && b != ascii '\\' && b != ascii '\n'

inductive Trailing : Bytes → Prop
  | blanks {u : Bytes} (hu : ∀ b ∈ u, b = ascii ' ' ∨ b = ascii '\r') : Trailing u
  | comment {u c : Bytes} (hu : ∀ b ∈ u, b = ascii ' ' ∨ b = ascii '\r') (hne : u ≠ [])
      (hc : ∀ b ∈ c, isPlain b = true) : Trailing (u ++ ascii '#' :: c)

variable {w w' e : Bytes}

theorem isPlain_of_blank {b : UInt8} (h : b = ascii ' ' ∨ b = ascii '\r') : isPlain b = true := by
  rcases h with rfl | rfl <;> decide

theorem Trailing.plain (h : Trailing w) : ∀ b ∈ w, isPlain b = true := by
  intro b hb
  cases h with
  | blanks hu => exact isPlain_of_blank (hu b hb)
  | comment hu _ hc =>
    rcases List.mem_append.mp hb with hb | hb
    · exact isPlain_of_blank (hu b hb)
    · rcases List.mem_cons.mp hb with rfl | hb
      · decide
      · exact hc b hb

theorem Trailing.append (h : Trailing w) (h' : Trailing w') : Trailing (w ++ w') := by
  have hplain := h'.plain
  cases h with
  | comment hu hne hc =>
    rw [List.append_assoc, List.cons_append]
    refine .comment hu hne fun b hb => ?_
    exact (List.mem_append.mp hb).elim (hc b) (hplain b)
  | blanks hu =>
    have hboth {v : Bytes} (hv : ∀ b ∈ v, b = ascii ' ' ∨ b = ascii '\r') (b : UInt8)
        (hb : b ∈ w ++ v) : b = ascii ' ' ∨ b = ascii '\r' :=
      (List.mem_append.mp hb).elim (hu b) (hv b)
    cases h' with
    | blanks hu' => exact .blanks (hboth hu')
    | comment hu' hne hc =>
      rw [← List.append_assoc]
      exact .comment (hboth hu') (List.append_ne_nil_of_right_ne_nil _ hne) hc

theorem Trailing.head {b : UInt8} (h : Trailing (b :: w)) : b = ascii ' ' ∨ b = ascii '\r' := by
  generalize hw : b :: w = w' at h
  cases h with
  | blanks hu => exact hu b (hw ▸ List.mem_cons_self ..)
  | @comment u c hu hne =>
    cases u with
    | nil => exact absurd rfl hne
    | cons b' u =>
      obtain ⟨rfl, -⟩ := List.cons.inj hw
      exact hu b (List.mem_cons_self ..)

theorem Trailing.atBreak (h : Trailing w) (he : LineEnd e) : AtBreak (w ++ e) := by
  cases w with
  | nil => exact atBreak_of_lineEnd he
  | cons b w =>
    refine .inr ⟨b, w ++ e, rfl, ?_⟩
    rcases h.head with rfl | rfl <;> decide

theorem Trailing.newline_notMem (h : Trailing w) : ascii '\n' ∉ w :=
  fun hmem => absurd (h.plain _ hmem) (by decide)

theorem Trailing.isBlankLine_append (h : Trailing w) {line : Bytes}
    (hblank : isBlankLine line = true) : isBlankLine (line ++ w) = true := by
  have hindent {b : UInt8} (hb : b = ascii ' ' ∨ b = ascii '\r') :
      isIndentation b = true := by rcases hb with rfl | rfl <;> decide
  unfold isBlankLine at hblank ⊢
  rw [List.dropWhile_append]
  cases hdrop : line.dropWhile isIndentation with
  | nil =>
    rw [List.isEmpty_nil, if_pos rfl]
    cases h with
    | blanks hu => rw [List.dropWhile_eq_nil_iff.mpr fun b hb => hindent (hu b hb)]
    | @comment u c hu =>
      rw [List.dropWhile_append, List.dropWhile_eq_nil_iff.mpr fun b hb => hindent (hu b hb)]
      rfl
  | cons x v =>
    rw [hdrop] at hblank
    exact hblank

theorem view_blanks {t : Lexer} {u r : Bytes} (hu : ∀ b ∈ u, b = ascii ' ' ∨ b = ascii '\r')
    (ht : t.rest = u ++ r) (hmode : (t.lineStart && t.depth == 0) = false) :
    ∃ column, ∀ {α : Type} (f : Token → α), t.view f = Lexer.view f { t with rest := r, column } := by
  induction u generalizing t with
  | nil =>
    refine ⟨t.column, fun f => congrArg (Lexer.view f) ?_⟩
    exact congrArg (fun rest => { t with rest }) ht
  | cons b u ih =>
    have hb : isBlank b = true := by
      rcases hu b (List.mem_cons_self ..) with rfl | rfl <;> decide
    have hrest : (t.advance 1).rest = u ++ r := by
      rw [advance, ht]
      rfl
    have hstep := (t.step_eq_lexeme hmode b).trans (t.lexeme_blank hb)
    obtain ⟨column, hview⟩ := ih (fun b hb => hu b (List.mem_cons_of_mem _ hb)) hrest hmode
    exact ⟨column, fun f => (view_of_silent ht hstep).trans (hview f)⟩

theorem view_trailing {t : Lexer} (hw : Trailing w) (he : LineEnd e) (ht : t.rest = w ++ e)
    (hmode : (t.lineStart && t.depth == 0) = false) :
    ∃ column, ∀ {α : Type} (f : Token → α), t.view f = Lexer.view f { t with rest := e, column } := by
  cases hw with
  | blanks hu => exact view_blanks hu ht hmode
  | @comment u c hu _ hc =>
    rw [List.append_assoc] at ht
    obtain ⟨column, hview⟩ := view_blanks hu ht hmode
    have hline : ascii '\n' ∉ ascii '#' :: c := by
      rw [List.mem_cons, not_or]
      exact ⟨by decide, fun hmem => absurd (hc _ hmem) (by decide)⟩
    have hstep := (step_eq_lexeme (s := { t with rest := ascii '#' :: c ++ e, column }) hmode
      (ascii '#')).trans (lexeme_comment rfl)
    obtain ⟨hskip, hrest⟩ :=
      skipComment_of_line (s := { t with rest := ascii '#' :: c ++ e, column }) rfl hline he
    refine ⟨column + (ascii '#' :: c).length, fun f => ?_⟩
    rw [hview f, view_of_silent rfl hstep, hskip]
    rw [hskip] at hrest
    exact congrArg (Lexer.view f) (congrArg (fun rest => { t with
      rest, column := column + (ascii '#' :: c).length }) hrest)

/-- A token that is not found on its line is not found behind it either, if the line does not end in a
backslash that takes the next newline along. -/
theorem token?_trailing {x : UInt8} {v : Bytes} (hw : Trailing w) (he : LineEnd e)
    (hlast : v.getLast? = some (ascii '\\') → w ≠ [] ∨ e = []) (h : token? (x :: v) = none) :
    token? (x :: v ++ (w ++ e)) = none := by
  rw [token?_append (hw.atBreak he), h]
  · rfl
  intro _ hquote
  have hplain : ∀ b ∈ w, b ≠ x ∧ b ≠ ascii '\\' ∧ b ≠ ascii '\n' := by
    intro b hb
    have hp := hw.plain b hb
    simp only [isPlain, Bool.and_eq_true, Bool.not_eq_true', bne_iff_ne] at hp
    refine ⟨?_, hp.1.2, hp.2⟩
    rintro rfl
    rw [hquote] at hp
    cases hp.1.1
  rw [token?_quote hquote, Option.map_eq_none_iff] at h
  refine literal_closed?_eq_none hquote (hw.atBreak he)
    (fun q => closed?_of_plain hplain he q) (fun hback q => ?_) h
  cases w with
  | nil =>
    obtain rfl : e = [] := (hlast hback).resolve_left fun hne => hne rfl
    have hx : (ascii '\\' == x) = false := beq_eq_false_iff_ne.mpr (isQuote_ne hquote).1.symm
    rw [literal.eq_def]
    dsimp only
    rw [if_neg (by decide), hx, if_neg (by decide), if_neg (by decide)]
    rfl
  | cons b w =>
    -- The backslash takes the first blank along, so the line still ends.
    have hb : b ≠ ascii 'x' ∧ (b == ascii '\n') = false := by
      rcases hw.head with rfl | rfl <;> decide
    rw [List.cons_append, literal_escape (isQuote_ne hquote).1 hb.1, hb.2,
      if_neg (by decide), Literal.closed?_prepend,
      closed?_of_plain (fun b hb => hplain b (List.mem_cons_of_mem _ hb)) he]
    rfl

end Trailing

section Literals

variable {mark : UInt8} {line e written value rest : Bytes}

theorem closed?_eq_none_of_mem (hmark : isQuote mark = true) (hline : ascii '\n' ∉ line)
    (hrest : line ++ e = written ++ mark :: rest) (hspells : Spells mark written value)
    (hjoins : ascii '\n' ∈ written) : (literal mark ⟨1, 1⟩ line).closed? = none := by
  rw [Option.eq_none_iff_forall_ne_some]
  rintro ⟨value', rest'⟩ hclosed
  obtain ⟨written', rfl, -⟩ := spells_of_closed? hclosed
  have hlong := literal_closed?_append hmark hclosed e
  rw [hrest, closed?_of_spells hmark hspells] at hlong
  obtain ⟨-, rfl⟩ := Prod.mk.inj (Option.some.inj hlong)
  rw [List.append_assoc, List.cons_append] at hrest
  have hsame : written' = written := List.append_cancel_right hrest
  exact hline (List.mem_append_left _ (hsame ▸ hjoins))

theorem mem_of_closed? (hmark : isQuote mark = true)
    (hnone : (literal mark ⟨1, 1⟩ line).closed? = none)
    (hclosed : (literal mark ⟨1, 1⟩ (line ++ e)).closed? = some (value, rest)) (he : LineEnd e) :
    ∃ written, line ++ e = written ++ mark :: rest ∧ Spells mark written value ∧
      ascii '\n' ∈ written := by
  obtain ⟨written, hrest, hspells⟩ := spells_of_closed? hclosed
  refine ⟨written, hrest, hspells, ?_⟩
  have hmark' : mark ≠ ascii '\n' := (isQuote_ne hmark).2
  rcases List.append_eq_append_iff.mp hrest with ⟨w, rfl, hw⟩ | ⟨w, hw, hw'⟩
  · -- The literal takes the first byte behind the line along, which is a newline.
    rcases he with rfl | ⟨r, rfl⟩
    · exact absurd (congrArg List.length hw) (by simp)
    · rcases w with _ | ⟨b, w⟩
      · exact absurd (List.cons.inj hw).1.symm hmark'
      · obtain ⟨rfl, -⟩ := List.cons.inj hw
        exact List.mem_append_right _ (List.mem_cons_self ..)
  · rcases w with _ | ⟨b, w⟩
    · rcases he with rfl | ⟨r, rfl⟩
      · cases hw'
      · exact absurd (List.cons.inj hw').1 hmark'
    · obtain ⟨rfl, -⟩ := List.cons.inj hw'
      rw [hw, closed?_of_spells hmark hspells] at hnone
      cases hnone

end Literals

/-- What is known of the end of a line that has tokens. Where lines are numbered, something is added to
it or it is the end of the text; otherwise it is no backslash. -/
def Guarded (numbered : Bool) (body w : Bytes) (lines lines' : List Bytes) : Prop :=
  if numbered then w ≠ [] ∨ lines = [] ∧ lines' = [] else body.getLast? ≠ some (ascii '\\')

/-- The lines of two texts that differ in layout: widths are stretched by `φ`. -/
inductive Relaid (numbered : Bool) (φ : Nat → Nat) : List Bytes → List Bytes → Prop
  | nil : Relaid numbered φ [] []
  | insert {line : Bytes} {lines lines' : List Bytes} (hnumbered : numbered = false)
      (hblank : isBlankLine line = true) (hline : ascii '\n' ∉ line)
      (h : Relaid numbered φ lines lines') : Relaid numbered φ lines (line :: lines')
  | remove {line : Bytes} {lines lines' : List Bytes} (hnumbered : numbered = false)
      (hblank : isBlankLine line = true) (hline : ascii '\n' ∉ line)
      (h : Relaid numbered φ lines lines') : Relaid numbered φ (line :: lines) lines'
  | blank {line w : Bytes} {lines lines' : List Bytes} (hblank : isBlankLine line = true)
      (hline : ascii '\n' ∉ line) (hw : Trailing w)
      (hguard : numbered = true → Guarded numbered line w lines lines')
      (h : Relaid numbered φ lines lines') : Relaid numbered φ (line :: lines) ((line ++ w) :: lines')
  | keep {x : UInt8} {lead lead' v w : Bytes} {lines lines' : List Bytes}
      (hlead : ∀ b ∈ lead, isIndentation b = true)
      (hlead' : ∀ b ∈ lead', isIndentation b = true)
      (hx : isIndentation x = false) (hcomment : x ≠ ascii '#')
      (hline : ascii '\n' ∉ x :: v)
      (hwidth : indentWidth lead' = φ (indentWidth lead))
      (hnumbered : numbered = true → lead' = lead) (hw : Trailing w)
      (hguard : Guarded numbered (x :: v) w lines lines') (h : Relaid numbered φ lines lines') :
      Relaid numbered φ ((lead ++ x :: v) :: lines) ((lead' ++ (x :: v ++ w)) :: lines')

structure Stretch (numbered : Bool) (φ : Nat → Nat) : Prop where
  mono : StrictMono φ
  zero : φ 0 = 0
  same : numbered = true → φ = id

structure Beside (numbered : Bool) (φ : Nat → Nat) (s t : Lexer) : Prop where
  line : numbered = true → t.line = s.line
  depth : t.depth = s.depth
  levels : t.levels = s.levels.map φ
  lineStart : t.lineStart = s.lineStart
  last : t.last = s.last
  closed : numbered = false → ∀ d ∈ s.lineDepths, d = 0

def Within (numbered : Bool) (φ : Nat → Nat) (r r' : Bytes) : Prop :=
  ∃ body w lines lines', r = body ++ behindLine lines ∧ r' = body ++ (w ++ behindLine lines') ∧
    ascii '\n' ∉ body ∧ Trailing w ∧ Guarded numbered body w lines lines' ∧
      Relaid numbered φ lines lines'

/-- The same is seen of the runs of two lexers; where lines are numbered, only if the first one does not
join lines, and if it does, the other one fails. -/
def Agrees (numbered : Bool) (s t : Lexer) : Prop :=
  (numbered = true → s.Joins → t.view (Token.seen numbered) = none) ∧
    ((numbered = true → ¬s.Joins) → t.view (Token.seen numbered) = s.view (Token.seen numbered))

/-- Lexers at the same place of the same line agree, if the first has less to do than `n`. -/
def AgreesBelow (numbered : Bool) (φ : Nat → Nat) (n : Nat) : Prop :=
  ∀ s t : Lexer, s.work < n → Beside numbered φ s t → (numbered = false → s.lineStart = false) →
    Within numbered φ s.rest t.rest → Agrees numbered s t

section Agreement

variable {numbered : Bool} {φ : Nat → Nat} {s t next next' : Lexer} {lines lines' : List Bytes}
  {ts ts' : List Token} {n : Nat}

theorem Beside.mode (h : Beside numbered φ s t) :
    (t.lineStart && t.depth == 0) = (s.lineStart && s.depth == 0) := by
  rw [h.lineStart, h.depth]

theorem Beside.seen (h : Beside numbered φ s t) (k : Kind) (text : Bytes) :
    (t.token k text).seen numbered = (s.token k text).seen numbered := by
  cases numbered with
  | false => rfl
  | true => simp only [Token.seen, token, position, h.line rfl]

theorem agrees_of_leads (h : s.Leads ts next)
    (ht : t.view (Token.seen numbered) =
      (next'.view (Token.seen numbered)).map (ts'.map (Token.seen numbered) ++ ·))
    (htokens : ts'.map (Token.seen numbered) = ts.map (Token.seen numbered))
    (hnext : Agrees numbered next next') : Agrees numbered s t := by
  unfold Agrees
  rw [h.joins, h.view, ht, htokens]
  refine ⟨fun hnumbered hjoins => ?_, fun hjoins => ?_⟩
  · rw [hnext.1 hnumbered hjoins]
    rfl
  · rw [hnext.2 hjoins]

theorem agrees_of_none (hs : (numbered = true ∧ s.Joins) ∨ s.view (Token.seen numbered) = none)
    (ht : t.view (Token.seen numbered) = none) : Agrees numbered s t :=
  ⟨fun _ _ => ht, fun hjoins =>
    hs.elim (fun h => absurd h.2 (hjoins h.1)) fun hnone => ht.trans hnone.symm⟩

theorem agrees_of_nil (h : Beside numbered φ s t) (hs : s.rest = []) (ht : t.rest = []) :
    Agrees numbered s t := by
  have hdedent : Token.seen numbered ∘ (fun _ : Nat => t.token .dedent []) ∘ φ =
      Token.seen numbered ∘ fun _ : Nat => s.token .dedent [] := funext fun _ => h.seen .dedent []
  refine ⟨fun _ hjoins => absurd hjoins (not_joins_of_nil hs), fun _ => ?_⟩
  rw [view_of_nil hs, view_of_nil ht]
  simp only [finish, h.last, h.levels, List.map_append, List.map_map, hdedent,
    apply_ite (List.map (Token.seen numbered)), List.map_cons, List.map_nil, h.seen]

variable {w v line : Bytes} {x : UInt8}

theorem Guarded.suffix {u body : Bytes} (h : Guarded numbered (u ++ body) w lines lines') :
    Guarded numbered body w lines lines' := by
  cases numbered with
  | true => exact h
  | false =>
    intro hlast
    refine h ?_
    rw [List.getLast?_append, hlast]
    rfl

theorem Guarded.of_backslash {body : Bytes} (h : Guarded numbered body w lines lines')
    (hlast : body.getLast? = some (ascii '\\')) :
    numbered = true ∧ (w ≠ [] ∨ lines = [] ∧ lines' = []) := by
  unfold Guarded at h
  split at h
  · rename_i hnumbered
    exact ⟨hnumbered, h⟩
  · exact absurd hlast h

theorem Relaid.isEmpty (h : Relaid numbered φ lines lines') (hnumbered : numbered = true) :
    lines'.isEmpty = lines.isEmpty := by
  cases h with
  | nil | blank | keep => rfl
  | insert hfalse | remove hfalse => rw [hnumbered] at hfalse; cases hfalse

theorem work_ofLines (hs : s.rest = ofLines (line :: lines)) (hle : s.work ≤ n ∨ s.rest = [])
    {k column : Nat} :
    Lexer.work { s with rest := ofLines lines, line := k, column } ≤ n ∨ ofLines lines = [] := by
  have hlength : (ofLines lines).length ≤ s.rest.length := by
    rw [hs, ← tail_behindLine, ofLines, List.length_append, List.length_tail]
    omega
  rw [← List.length_eq_zero_iff] at hle ⊢
  simp only [work] at hle ⊢
  omega

/-- At the start of a line. The induction is on the lines: a blank line may be passed over by one lexer
only, and on a line with tokens both look at the indentation and go on within it. -/
theorem agrees_start (hφ : Stretch numbered φ) (hn : AgreesBelow numbered φ n)
    (hr : Relaid numbered φ lines lines') (h : Beside numbered φ s t)
    (hmode : (s.lineStart && s.depth == 0) = true) (hs : s.rest = ofLines lines)
    (ht : t.rest = ofLines lines') (hle : s.work ≤ n ∨ s.rest = []) : Agrees numbered s t := by
  induction hr generalizing s t with
  | nil => exact agrees_of_nil h hs ht
  | insert hnumbered hblank hline _ ih =>
    obtain ⟨column, hleads⟩ := leads_blankLine (h.mode.trans hmode) ht hblank hline
    refine agrees_of_leads leads_self (hleads.view _) rfl (ih ?_ hmode hs rfl hle)
    exact ⟨by simp [hnumbered], h.depth, h.levels, h.lineStart, h.last, h.closed⟩
  | remove hnumbered hblank hline _ ih =>
    obtain ⟨column, hleads⟩ := leads_blankLine hmode hs hblank hline
    refine agrees_of_leads hleads (leads_self.view _) rfl (ih ?_ hmode rfl ht (work_ofLines hs hle))
    exact ⟨by simp [hnumbered], h.depth, h.levels, h.lineStart, h.last,
      fun hfalse d hd => h.closed hfalse d (hleads.depths hd)⟩
  | blank hblank hline hw _ hr ih =>
    obtain ⟨column, hleads⟩ := leads_blankLine hmode hs hblank hline
    obtain ⟨column', hleads'⟩ := leads_blankLine (h.mode.trans hmode) ht
      (hw.isBlankLine_append hblank)
      fun hmem => (List.mem_append.mp hmem).elim hline hw.newline_notMem
    refine agrees_of_leads hleads (hleads'.view _) rfl (ih ?_ hmode rfl rfl (work_ofLines hs hle))
    refine ⟨fun htrue => ?_, h.depth, h.levels, h.lineStart, h.last,
      fun hfalse d hd => h.closed hfalse d (hleads.depths hd)⟩
    simp only [hr.isEmpty htrue, h.line htrue]
  | @keep x lead lead' v w lines lines' hlead hlead' hx hcomment hline hwidth _ hw hguard hr =>
    have hxline : x ≠ ascii '\n' := fun heq => hline (heq ▸ List.mem_cons_self ..)
    have hs' : s.rest = lead ++ x :: (v ++ behindLine lines) := by
      rw [hs, ofLines, List.append_assoc, List.cons_append]
    have ht' : t.rest = lead' ++ x :: (v ++ (w ++ behindLine lines')) := by
      rw [ht, ofLines, List.append_assoc, List.cons_append, List.cons_append, List.append_assoc]
    obtain ⟨b, r, hb⟩ : ∃ b r, s.rest = b :: r :=
      List.exists_cons_of_ne_nil (by simp [hs'])
    obtain ⟨c, r', hc⟩ : ∃ c r', t.rest = c :: r' :=
      List.exists_cons_of_ne_nil (by simp [ht'])
    have hstep := (s.step_eq_layout hmode b).trans (layout_of_line hs' hlead hx hxline hcomment)
    have hstep' := (t.step_eq_layout (h.mode.trans hmode) c).trans
      (layout_of_line ht' hlead' hx hxline hcomment)
    rw [hwidth] at hstep'
    rcases indent_map (s := s.advance lead.length) (t := t.advance lead'.length) hφ.mono hφ.zero
      h.levels (indentWidth lead) with ⟨_, _, _, _, hfail, hfail'⟩ | ⟨k, m, levels, hmore, hmore'⟩
    · exact agrees_of_none (.inr (view_of_fail hb (hstep.trans hfail)))
        (view_of_fail hc (hstep'.trans hfail'))
    have hleads := leads_of_step hb (hstep.trans hmore) fun hjoins => by
      rw [hjoins.1] at hmode
      cases hmode
    refine agrees_of_leads hleads (view_of_more hc (hstep'.trans hmore')) ?_ ?_
    · rw [List.map_replicate, List.map_replicate]
      exact congrArg (List.replicate m) (h.seen k [])
    refine hn _ _ ?_ ?_ (fun _ => rfl) ?_
    · have hlt := step_work hb (hstep.trans hmore)
      have hne : s.rest ≠ [] := by simp [hs']
      exact Nat.lt_of_lt_of_le hlt (hle.resolve_right hne)
    · refine ⟨h.line, h.depth, rfl, rfl, ?_, fun hfalse d hd => h.closed hfalse d (hleads.depths hd)⟩
      simp only [advance, h.last]
    · refine ⟨x :: v, w, lines, lines', ?_, ?_, hline, hw, hguard, hr⟩
      · simp only [advance, hs', List.drop_left, List.cons_append]
      · simp only [advance, ht', List.drop_left, List.cons_append]

theorem agrees_bracketed (hn : AgreesBelow true φ n) (hr : Relaid true φ lines lines')
    (h : Beside true φ s t) (hdepth : s.depth ≠ 0) (hs : s.rest = behindLine (line :: lines))
    (ht : t.rest = behindLine ((line ++ w) :: lines')) (hline : ascii '\n' ∉ line) (hw : Trailing w)
    (hguard : Guarded true line w lines lines')
    (hle : s.work ≤ n) : Agrees true s t := by
  have hmode : (s.lineStart && s.depth == 0) = false := by simp [hdepth]
  have hstep := ((s.step_eq_lexeme hmode (ascii '\n')).trans s.lexeme_newline).trans
    (newline_of_not_ends fun hends => hdepth hends.1)
  have hstep' := ((t.step_eq_lexeme (h.mode.trans hmode) (ascii '\n')).trans t.lexeme_newline).trans
    (newline_of_not_ends fun hends => hdepth (h.depth ▸ hends.1))
  refine agrees_of_leads (leads_of_step hs hstep (not_joinsLine_of_head hs (by decide) (by decide)))
    (view_of_more ht hstep') rfl (hn _ _ (Nat.lt_of_lt_of_le (step_work hs hstep) hle) ?_ nofun ?_)
  · exact ⟨fun htrue => congrArg (· + 1) (h.line htrue), h.depth, h.levels, rfl, h.last, nofun⟩
  · refine ⟨line, w, lines, lines', ?_, ?_, hline, hw, hguard, hr⟩
    · simp only [nextLine, hs]
      rfl
    · simp only [nextLine, ht, ← List.append_assoc]
      rfl

theorem agrees_lineEnd (hφ : Stretch numbered φ) (hn : AgreesBelow numbered φ n)
    (hr : Relaid numbered φ lines lines') (h : Beside numbered φ s t)
    (hmode : (s.lineStart && s.depth == 0) = false) (hs : s.rest = behindLine lines)
    (ht : t.rest = behindLine lines') (hle : s.work ≤ n) : Agrees numbered s t := by
  by_cases hdepth : s.depth = 0
  · obtain ⟨column, hleads⟩ := leads_lineEnd hmode hdepth hs
    obtain ⟨column', hleads'⟩ := leads_lineEnd (h.mode.trans hmode) (h.depth.trans hdepth) ht
    refine agrees_of_leads hleads (hleads'.view _) ?_ (agrees_start hφ hn hr ?_ ?_ rfl rfl ?_)
    · rw [h.last]
      simp only [apply_ite (List.map (Token.seen numbered)), List.map_cons, List.map_nil, h.seen]
    · refine ⟨fun htrue => ?_, h.depth, h.levels, rfl, by simp only [h.last],
        fun hfalse d hd => h.closed hfalse d (hleads.depths hd)⟩
      simp only [hr.isEmpty htrue, h.line htrue]
    · simp [hdepth]
    · cases lines with
      | nil => exact .inr rfl
      | cons line lines =>
        have hlength : s.rest.length = (ofLines (line :: lines)).length + 1 := by rw [hs]; rfl
        have := s.le_work
        refine .inl ?_
        simp only [work] at *
        split <;> omega
  · -- Brackets are open at the end of a line, so lines are numbered and the next one is the same.
    obtain rfl : numbered = true := by
      by_contra hfalse
      refine hdepth (h.closed (Bool.eq_false_iff.mpr hfalse) s.depth (depth_mem_lineDepths ?_))
      exact hs ▸ lineEnd_behindLine lines
    cases hr with
    | nil => exact agrees_of_nil h hs ht
    | insert hfalse | remove hfalse => cases hfalse
    | blank hblank hline hw hguard hr =>
      exact agrees_bracketed hn hr h hdepth hs ht hline hw (hguard rfl) hle
    | keep hlead hlead' hx hcomment hline hwidth hsame hw hguard hr =>
      obtain rfl := hsame rfl
      rw [← List.append_assoc] at ht
      refine agrees_bracketed hn hr h hdepth hs ht (fun hmem => ?_) hw hguard hle
      exact (List.mem_append.mp hmem).elim (fun hb => absurd (hlead _ hb) (by decide)) hline

theorem startsToken_of_ne {r : Bytes} (hline : x ≠ ascii '\n') (hcomment : x ≠ ascii '#')
    (hblank : isBlank x = false) (hjoin : continuesLine (x :: r) = false) :
    startsToken (x :: r) = true := by
  simp [startsToken, hline, hcomment, hblank, hjoin]

theorem eq_of_continuesLine (hline : ascii '\n' ∉ x :: v) (hw : Trailing w)
    (h : continuesLine (x :: v ++ (w ++ behindLine lines)) = true) :
    x :: v = [ascii '\\'] ∧ w = [] ∧ lines ≠ [] := by
  obtain ⟨r, hr⟩ := rest_of_continuesLine h
  obtain ⟨rfl, hr'⟩ := List.cons.inj hr
  cases v with
  | cons c v =>
    obtain ⟨rfl, -⟩ := List.cons.inj hr'
    exact absurd (List.mem_cons_of_mem _ (List.mem_cons_self ..)) hline
  | nil =>
    cases w with
    | cons c w =>
      obtain ⟨rfl, -⟩ := List.cons.inj hr'
      exact absurd (List.mem_cons_self ..) hw.newline_notMem
    | nil =>
      refine ⟨rfl, rfl, ?_⟩
      rintro rfl
      cases hr'

section Line

variable (h : Beside numbered φ s t) (hmode : (s.lineStart && s.depth == 0) = false)
  (hs : s.rest = x :: v ++ behindLine lines) (ht : t.rest = x :: v ++ (w ++ behindLine lines'))
  (hline : ascii '\n' ∉ x :: v) (hw : Trailing w)
  (hguard : Guarded numbered (x :: v) w lines lines')

include h hmode hs ht hline hw hguard

/-- A place where no token is found on the line: the second lexer fails, and the first one does so too or
goes on on the next line. -/
theorem agrees_of_token?_eq_none (hcomment : x ≠ ascii '#') (hblank : isBlank x = false)
    (hnone : token? (x :: v) = none) : Agrees numbered s t := by
  have hx : x ≠ ascii '\n' := fun heq => hline (heq ▸ List.mem_cons_self ..)
  have hfails {u : Lexer} {r : Bytes} (hu : u.rest = x :: r)
      (hmode : (u.lineStart && u.depth == 0) = false) (hjoin : continuesLine (x :: r) = false)
      (hnone : token? (x :: r) = none) : u.view (Token.seen numbered) = none := by
    have hstarts : startsToken u.rest = true := hu ▸ startsToken_of_ne hx hcomment hblank hjoin
    rcases readsToken_lexeme hu hstarts with ⟨-, e, stop, hfail⟩ | ⟨_, _, _, _, _, hsome, -⟩
    · exact view_of_fail hu ((u.step_eq_lexeme hmode x).trans hfail)
    · rw [hu, hnone] at hsome
      cases hsome
  have hlast : v.getLast? = some (ascii '\\') → (x :: v).getLast? = some (ascii '\\') := fun hv => by
    rw [List.getLast?_cons, hv]
    rfl
  have hfails' : t.view (Token.seen numbered) = none := by
    refine hfails ht (h.mode.trans hmode) (Bool.eq_false_iff.mpr fun hjoin => ?_)
      (token?_trailing hw (lineEnd_behindLine lines') (fun hv => ?_) hnone)
    · obtain ⟨hbody, rfl, hne⟩ := eq_of_continuesLine hline hw hjoin
      rcases (hguard.of_backslash (by rw [hbody]; rfl)).2 with hw' | ⟨-, hnil⟩
      · exact hw' rfl
      · exact hne hnil
    · rcases (hguard.of_backslash (hlast hv)).2 with hw' | ⟨-, rfl⟩
      · exact .inl hw'
      · exact .inr rfl
  refine agrees_of_none ?_ hfails'
  have hjoins (hjoin : s.JoinsLine) : s.Joins := ⟨[], s, .here s, hjoin⟩
  by_cases hback : (x :: v).getLast? = some (ascii '\\')
  · have hnumbered := (hguard.of_backslash hback).1
    cases hjoin : continuesLine (x :: v ++ behindLine lines) with
    | true => exact .inl ⟨hnumbered, hjoins ⟨hmode, .inl (hs ▸ hjoin)⟩⟩
    | false =>
      cases hfound : token? (x :: v ++ behindLine lines) with
      | none => exact .inr (hfails hs hmode hjoin hfound)
      | some found =>
        -- Only a string literal can go on behind the end of its line.
        have hquote : isQuote x = true := by
          by_contra hquote
          rw [token?_append (atBreak_of_lineEnd (lineEnd_behindLine lines))
            fun _ hx => absurd hx hquote, hnone] at hfound
          cases hfound
        rw [List.cons_append, token?_quote hquote] at hfound
        rw [token?_quote hquote, Option.map_eq_none_iff] at hnone
        obtain ⟨⟨value, rest⟩, hclosed, -⟩ := Option.map_eq_some_iff.mp hfound
        obtain ⟨written, hrest, hspells, hmem⟩ :=
          mem_of_closed? hquote hnone hclosed (lineEnd_behindLine lines)
        refine .inl ⟨hnumbered, hjoins ⟨hmode, .inr ⟨x, written, value, rest, hquote, ?_, hspells, hmem⟩⟩⟩
        rw [hs, List.cons_append, hrest, List.cons_append]
  · refine .inr (hfails hs hmode (Bool.eq_false_iff.mpr fun hjoin => hback ?_) ?_)
    · rw [(eq_of_continuesLine (w := []) hline (.blanks nofun) hjoin).1]
      rfl
    · exact token?_trailing (w := []) (.blanks nofun) (lineEnd_behindLine lines)
        (fun hv => absurd (hlast hv) hback) hnone

variable (hn : AgreesBelow numbered φ s.work) (hstart : numbered = false → s.lineStart = false)
  (hr : Relaid numbered φ lines lines')

include hn hr

omit hguard in
theorem agrees_comment (hφ : Stretch numbered φ) (hx : x = ascii '#') : Agrees numbered s t := by
  subst hx
  have hstep := (s.step_eq_lexeme hmode (ascii '#')).trans (lexeme_comment hs)
  have hstep' := (t.step_eq_lexeme (h.mode.trans hmode) (ascii '#')).trans (lexeme_comment ht)
  have hleads := leads_of_step hs hstep (not_joinsLine_of_head hs (by decide) (by decide))
  obtain ⟨hskip, hrest⟩ := skipComment_of_line hs hline (lineEnd_behindLine lines)
  -- The comment takes along what is added to the line.
  obtain ⟨hskip', hrest'⟩ := skipComment_of_line (ht.trans (List.append_assoc ..).symm)
    (fun hmem => (List.mem_append.mp hmem).elim hline hw.newline_notMem) (lineEnd_behindLine lines')
  refine agrees_of_leads hleads (view_of_more ht hstep') rfl
    (agrees_lineEnd hφ hn hr ?_ ?_ hrest hrest' (step_work hs hstep).le)
  · rw [hskip] at hleads ⊢
    rw [hskip']
    exact ⟨h.line, h.depth, h.levels, h.lineStart, h.last,
      fun hfalse d hd => h.closed hfalse d (hleads.depths hd)⟩
  · rw [hskip]
    exact hmode

include hstart

theorem agrees_blank (hblank : isBlank x = true) : Agrees numbered s t := by
  have hstep := (s.step_eq_lexeme hmode x).trans (s.lexeme_blank hblank)
  have hstep' := (t.step_eq_lexeme (h.mode.trans hmode) x).trans (t.lexeme_blank hblank)
  have hplain : x ≠ ascii '\\' ∧ isQuote x = false := by
    simp only [isBlank, Bool.or_eq_true, beq_iff_eq] at hblank
    rcases hblank with (rfl | rfl) | rfl <;> decide
  have hleads := leads_of_step hs hstep (not_joinsLine_of_head hs hplain.1 hplain.2)
  refine agrees_of_leads hleads (view_of_more ht hstep') rfl
    (hn _ _ (step_work hs hstep) ?_ hstart ⟨v, w, lines, lines', ?_, ?_, ?_, hw, ?_, hr⟩)
  · exact ⟨h.line, h.depth, h.levels, h.lineStart, h.last,
      fun hfalse d hd => h.closed hfalse d (hleads.depths hd)⟩
  · rw [advance, hs]
    rfl
  · rw [advance, ht]
    rfl
  · exact fun hmem => hline (List.mem_cons_of_mem _ hmem)
  · exact Guarded.suffix (u := [x]) hguard

theorem agrees_of_token? {text rest : Bytes} {k : Kind} (hcomment : x ≠ ascii '#')
    (hblank : isBlank x = false) (hfound : token? (x :: v) = some (k, text, rest)) :
    Agrees numbered s t := by
  have hx : x ≠ ascii '\n' := fun heq => hline (heq ▸ List.mem_cons_self ..)
  have hjoin {w : Bytes} (hw : Trailing w) {lines : List Bytes} :
      continuesLine (x :: v ++ (w ++ behindLine lines)) = false := by
    refine Bool.eq_false_iff.mpr fun hjoin => ?_
    rw [(eq_of_continuesLine hline hw hjoin).1, show token? [ascii '\\'] = none by decide]
      at hfound
    cases hfound
  have hstay : Trailing [] := .blanks nofun
  have hhere : ¬s.JoinsLine := by
    rintro ⟨-, hjoins | ⟨mark, written, value, rest', hmark, hrest, hspells, hmem⟩⟩
    · rw [hs, ← List.nil_append (behindLine lines), hjoin hstay] at hjoins
      cases hjoins
    · rw [hs, List.cons_append, List.cons_append] at hrest
      obtain ⟨rfl, hrest⟩ := List.cons.inj hrest
      rw [token?_quote hmark, closed?_eq_none_of_mem hmark
        (fun hmem => hline (List.mem_cons_of_mem _ hmem)) hrest hspells hmem] at hfound
      cases hfound
  obtain ⟨column, hlexeme⟩ := lexeme_of_line hs hline
    (startsToken_of_ne hx hcomment hblank (hjoin hstay))
    (atBreak_of_lineEnd (lineEnd_behindLine lines)) hfound
  obtain ⟨column', hlexeme'⟩ := lexeme_of_line ht hline
    (startsToken_of_ne hx hcomment hblank (hjoin hw))
    (hw.atBreak (lineEnd_behindLine lines')) hfound
  have hstep := (s.step_eq_lexeme hmode x).trans hlexeme
  have hstep' := (t.step_eq_lexeme (h.mode.trans hmode) x).trans hlexeme'
  have hleads := leads_of_step hs hstep hhere
  obtain ⟨u, -, hu⟩ := token?_eq_some hfound
  refine agrees_of_leads hleads (view_of_more ht hstep') ?_
    (hn _ _ (step_work hs hstep) ?_ hstart ⟨rest, w, lines, lines', rfl, rfl, ?_, hw, ?_, hr⟩)
  · exact congrArg (fun token => [token]) (h.seen k text)
  · exact ⟨h.line, congrArg k.depthAfter h.depth, h.levels, h.lineStart, rfl,
      fun hfalse d hd => h.closed hfalse d (hleads.depths hd)⟩
  · exact fun hmem => hline (hu ▸ List.mem_append_right _ hmem)
  · rw [hu] at hguard
    exact hguard.suffix

end Line

theorem Relaid.of_numbered (hφ : Stretch true φ) (hline : ascii '\n' ∉ line) (hw : Trailing w)
    (hguard : Guarded true line w lines lines') (hr : Relaid true φ lines lines') :
    Relaid true φ (line :: lines) ((line ++ w) :: lines') := by
  rcases line_cases line with hblank | ⟨x, v, hlead, hx, hcomment⟩
  · exact .blank hblank hline hw (fun _ => hguard) hr
  · have hblanks : ∀ b ∈ indentation line, isIndentation b = true :=
      fun b hb => mem_indentation hb
    have hbody : ascii '\n' ∉ x :: v := fun hmem => hline (hlead ▸ List.mem_append_right _ hmem)
    have hwidth : indentWidth (indentation line) =
        φ (indentWidth (indentation line)) := by rw [hφ.same rfl, id]
    have hkeep := Relaid.keep hblanks hblanks hx hcomment hbody hwidth (fun _ => rfl) hw hguard hr
    rw [← List.append_assoc, ← hlead] at hkeep
    exact hkeep

theorem agrees_within (hφ : Stretch numbered φ) (hn : AgreesBelow numbered φ s.work)
    (h : Beside numbered φ s t) (hstart : numbered = false → s.lineStart = false)
    (hwithin : Within numbered φ s.rest t.rest) : Agrees numbered s t := by
  obtain ⟨body, w, lines, lines', hs, ht, hline, hw, hguard, hr⟩ := hwithin
  cases hmode : s.lineStart && s.depth == 0 with
  | true =>
    -- Brackets have been closed on a later line than they were opened on; the indentation is looked
    -- at here.
    obtain rfl : numbered = true := by
      by_contra hfalse
      rw [hstart (Bool.eq_false_iff.mpr hfalse)] at hmode
      cases hmode
    rw [← List.append_assoc] at ht
    exact agrees_start hφ hn (.of_numbered hφ hline hw hguard hr) h hmode hs ht (.inl le_rfl)
  | false =>
    have hmode' := h.mode.trans hmode
    cases body with
    | nil =>
      obtain ⟨column, hview⟩ := view_trailing hw (lineEnd_behindLine lines') ht hmode'
      refine agrees_of_leads leads_self ((hview _).trans (leads_self.view _)) rfl
        (agrees_lineEnd hφ hn hr ?_ hmode hs rfl le_rfl)
      exact ⟨h.line, h.depth, h.levels, h.lineStart, h.last, h.closed⟩
    | cons x v =>
      by_cases hcomment : x = ascii '#'
      · exact agrees_comment h hmode hs ht hline hw hn hr hφ hcomment
      cases hblank : isBlank x with
      | true => exact agrees_blank h hmode hs ht hline hw hguard hn hstart hr hblank
      | false =>
        cases hfound : token? (x :: v) with
        | none =>
          exact agrees_of_token?_eq_none h hmode hs ht hline hw hguard hcomment hblank hfound
        | some found =>
          exact agrees_of_token? h hmode hs ht hline hw hguard hn hstart hr hcomment hblank hfound

theorem agreesBelow (hφ : Stretch numbered φ) (n : Nat) : AgreesBelow numbered φ n := by
  induction n with
  | zero => exact fun s t hlt => absurd hlt (Nat.not_lt_zero _)
  | succ n ih =>
    intro s t hlt h hstart hwithin
    exact agrees_within hφ (fun u v hu => ih u v (by omega)) h hstart hwithin

theorem agrees_of_relaid (hφ : Stretch numbered φ) (hr : Relaid numbered φ lines lines')
    (hclosed : numbered = false → ∀ d ∈ (ofBytes (ofLines lines)).lineDepths, d = 0) :
    Agrees numbered (ofBytes (ofLines lines)) (ofBytes (ofLines lines')) :=
  agrees_start hφ (agreesBelow hφ _) hr ⟨fun _ => rfl, rfl, rfl, rfl, rfl, hclosed⟩ rfl rfl rfl
    (.inl le_rfl)

end Agreement

end Lexer

end BoardPython
