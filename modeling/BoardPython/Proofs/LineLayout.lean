import BoardPython.Proofs.RelaidLines
import BoardPython.Proofs.WrittenLines

/-! The layout of lines. Blank lines, blanks and comments at the ends of lines, and how far lines are
indented, as long as it is the same for lines with the same indentation and more for those with more,
make no difference to the kinds and texts of the tokens. This is for texts whose lines do not go on on
the next line, in brackets or behind a backslash: `tokenContents_of_layoutEdits`. -/
namespace BoardPython

open Token.Scan (indentWidth isIndentation)
open Bytes (ascii)

namespace Lexer

/-- A line from its first token on. -/
def body (line : Bytes) : Bytes := line.dropWhile isIndentation

def width (line : Bytes) : Nat := indentWidth (indentation line)

/-- A line that has tokens is indented by `φ` of its indentation, in spaces. -/
def reindented (φ : Nat → Nat) (line : Bytes) : Bytes :=
  if isBlankLine line then line else List.replicate (φ (width line)) (ascii ' ') ++ body line

/-- A change to one line: it is put in or taken out, if it is blank, or gets spaces or a comment at its
end. -/
inductive LineEdit : List Bytes → List Bytes → Prop
  | insert {line : Bytes} (hblank : isBlankLine line = true) (hline : ascii '\n' ∉ line) :
      LineEdit [] [line]
  | remove {line : Bytes} (hblank : isBlankLine line = true) : LineEdit [line] []
  | spaces (line : Bytes) (n : Nat) : LineEdit [line] [line ++ List.replicate n (ascii ' ')]
  | comment (line : Bytes) {text : Bytes} (htext : ∀ b ∈ text, isPlain b = true) :
      LineEdit [line] [line ++ ascii ' ' :: ascii '#' :: text]

/-- A change to the layout of the lines of a text. -/
inductive LayoutEdit : List Bytes → List Bytes → Prop
  | line {old new : List Bytes} (before after : List Bytes) (h : LineEdit old new) :
      LayoutEdit (before ++ (old ++ after)) (before ++ (new ++ after))
  | indent {φ : Nat → Nat} (hφ : StrictMono φ) (hzero : φ 0 = 0) (lines : List Bytes) :
      LayoutEdit lines (lines.map (reindented φ))

/-- A line with the same tokens, indented by `φ` of what it was. -/
def Kept (φ : Nat → Nat) (line line' : Bytes) : Prop :=
  (∃ w, Trailing w ∧ body line' = body line ++ w) ∧ width line' = φ (width line)

def withTokens (lines : List Bytes) : List Bytes := lines.filter fun line => !isBlankLine line

def KeptLines (lines lines' : List Bytes) : Prop :=
  ∃ φ : Nat → Nat, StrictMono φ ∧ φ 0 = 0 ∧
    List.Forall₂ (Kept φ) (withTokens lines) (withTokens lines')

section Lines

variable {φ ψ : Nat → Nat} {line line' line'' w : Bytes} {lines lines' lines'' : List Bytes}

theorem withTokens_of_blank (h : isBlankLine line = true) :
    withTokens (line :: lines) = withTokens lines := List.filter_cons_of_neg (by simp [h])

theorem withTokens_of_line (h : isBlankLine line = false) :
    withTokens (line :: lines) = line :: withTokens lines := List.filter_cons_of_pos (by simp [h])

theorem Kept.trans (h : Kept φ line line') (h' : Kept ψ line' line'') :
    Kept (ψ ∘ φ) line line'' := by
  obtain ⟨⟨w, hw, hbody⟩, hwidth⟩ := h
  obtain ⟨⟨w', hw', hbody'⟩, hwidth'⟩ := h'
  refine ⟨⟨w ++ w', hw.append hw', ?_⟩, ?_⟩
  · rw [hbody', hbody, List.append_assoc]
  · rw [hwidth', hwidth, Function.comp]

theorem forall₂_kept_trans (h : List.Forall₂ (Kept φ) lines lines')
    (h' : List.Forall₂ (Kept ψ) lines' lines'') : List.Forall₂ (Kept (ψ ∘ φ)) lines lines'' := by
  induction h generalizing lines'' with
  | nil =>
    cases h'
    exact .nil
  | cons hline _ ih =>
    cases h' with
    | cons hline' h' => exact .cons (hline.trans hline') (ih h')

theorem KeptLines.trans (h : KeptLines lines lines') (h' : KeptLines lines' lines'') :
    KeptLines lines lines'' := by
  obtain ⟨φ, hφ, hzero, hkept⟩ := h
  obtain ⟨ψ, hψ, hzero', hkept'⟩ := h'
  exact ⟨ψ ∘ φ, hψ.comp hφ, by rw [Function.comp, hzero, hzero'], forall₂_kept_trans hkept hkept'⟩

theorem forall₂_kept_self (lines : List Bytes) : List.Forall₂ (Kept id) lines lines :=
  List.forall₂_same.mpr fun _ _ =>
    ⟨⟨[], .blanks fun _ hb => absurd hb List.not_mem_nil, (List.append_nil _).symm⟩, rfl⟩

theorem parts_of_line {x : UInt8} {lead : Bytes} (v : Bytes)
    (hlead : ∀ b ∈ lead, isIndentation b = true)
    (hx : isIndentation x = false) (hcomment : x ≠ ascii '#') :
    indentation (lead ++ x :: v) = lead ∧ body (lead ++ x :: v) = x :: v ∧
      isBlankLine (lead ++ x :: v) = false := by
  have hbody : body (lead ++ x :: v) = x :: v := by
    rw [body, List.dropWhile_append_of_pos hlead, List.dropWhile_cons_of_neg (by simp [hx])]
  refine ⟨takeWhile_of_all hlead fun y u heq => (List.cons.inj heq).1 ▸ hx, hbody, ?_⟩
  unfold isBlankLine
  rw [show (lead ++ x :: v).dropWhile _ = x :: v from hbody]
  simpa using hcomment

theorem exists_parts (hline : isBlankLine line = false) : ∃ lead x v, line = lead ++ x :: v ∧
    (∀ b ∈ lead, isIndentation b = true) ∧ isIndentation x = false ∧
      x ≠ ascii '#' := by
  rcases line_cases line with hblank | ⟨x, v, hlead, hx, hcomment⟩
  · rw [hblank] at hline
    cases hline
  · exact ⟨indentation line, x, v, hlead, fun b hb => mem_indentation hb, hx, hcomment⟩

theorem kept_append (hw : Trailing w) :
    List.Forall₂ (Kept id) (withTokens [line]) (withTokens [line ++ w]) := by
  cases hline : isBlankLine line with
  | true =>
    rw [withTokens_of_blank hline, withTokens_of_blank (hw.isBlankLine_append hline)]
    exact .nil
  | false =>
    obtain ⟨lead, x, v, rfl, hlead, hx, hcomment⟩ := exists_parts hline
    obtain ⟨hindentation, hbody, -⟩ := parts_of_line v hlead hx hcomment
    obtain ⟨hindentation', hbody', hline'⟩ := parts_of_line (v ++ w) hlead hx hcomment
    rw [List.append_assoc, List.cons_append, withTokens_of_line hline, withTokens_of_line hline']
    refine .cons ⟨⟨w, hw, ?_⟩, ?_⟩ .nil
    · rw [hbody', hbody, List.cons_append]
    · rw [width, width, hindentation', hindentation, id]

theorem LineEdit.kept (h : LineEdit lines lines') :
    List.Forall₂ (Kept id) (withTokens lines) (withTokens lines') := by
  cases h with
  | insert hblank | remove hblank =>
    rw [withTokens_of_blank hblank]
    exact .nil
  | spaces line n => exact kept_append (.blanks fun b hb => .inl (List.mem_replicate.mp hb).2)
  | comment line htext =>
    exact kept_append (.comment (u := [ascii ' ']) (by simp) (List.cons_ne_nil _ _) htext)

theorem kept_reindented (φ : Nat → Nat) (lines : List Bytes) :
    List.Forall₂ (Kept φ) (withTokens lines) (withTokens (lines.map (reindented φ))) := by
  induction lines with
  | nil => exact .nil
  | cons line lines ih =>
    rw [List.map_cons]
    cases hline : isBlankLine line with
    | true =>
      rw [reindented, if_pos hline, withTokens_of_blank hline, withTokens_of_blank hline]
      exact ih
    | false =>
      have hspaces : ∀ b ∈ List.replicate (φ (width line)) (ascii ' '),
          isIndentation b = true := fun b hb => (List.mem_replicate.mp hb).2 ▸ by decide
      obtain ⟨lead, x, v, hparts, hlead, hx, hcomment⟩ := exists_parts hline
      have hbody : body line = x :: v := hparts ▸ (parts_of_line v hlead hx hcomment).2.1
      obtain ⟨hindentation, hbody', hline'⟩ := parts_of_line v hspaces hx hcomment
      rw [reindented, if_neg (Bool.eq_false_iff.mp hline), hbody, withTokens_of_line hline,
        withTokens_of_line hline']
      refine .cons ⟨⟨[], .blanks fun _ hb => absurd hb List.not_mem_nil, ?_⟩, ?_⟩ ih
      · rw [hbody', hbody, List.append_nil]
      · rw [width, hindentation, indentWidth_spaces]

theorem LayoutEdit.kept (h : LayoutEdit lines lines') : KeptLines lines lines' := by
  cases h with
  | line before after h =>
    refine ⟨id, strictMono_id, rfl, ?_⟩
    simp only [withTokens, List.filter_append]
    exact List.rel_append (forall₂_kept_self _) (List.rel_append h.kept (forall₂_kept_self _))
  | indent hφ hzero => exact ⟨_, hφ, hzero, kept_reindented _ _⟩

theorem LineEdit.newline_notMem (h : LineEdit lines lines')
    (hlines : ∀ line ∈ lines, ascii '\n' ∉ line) : ∀ line ∈ lines', ascii '\n' ∉ line := by
  intro l hl
  cases h with
  | insert _ hline => exact List.mem_singleton.mp hl ▸ hline
  | remove => cases hl
  | spaces line n =>
    rw [List.mem_singleton.mp hl, List.mem_append, not_or]
    exact ⟨hlines line (List.mem_singleton_self _),
      fun hmem => absurd (List.mem_replicate.mp hmem).2 (by decide)⟩
  | comment line htext =>
    rw [List.mem_singleton.mp hl, List.mem_append, List.mem_cons, List.mem_cons, not_or, not_or, not_or]
    exact ⟨hlines line (List.mem_singleton_self _), by decide, by decide,
      fun hmem => absurd (htext _ hmem) (by decide)⟩

theorem LayoutEdit.newline_notMem (h : LayoutEdit lines lines')
    (hlines : ∀ line ∈ lines, ascii '\n' ∉ line) : ∀ line ∈ lines', ascii '\n' ∉ line := by
  intro l hl
  cases h with
  | line before after h =>
    simp only [List.mem_append] at hl hlines
    rcases hl with hl | hl | hl
    · exact hlines l (.inl hl)
    · exact h.newline_notMem (fun l hl => hlines l (.inr (.inl hl))) l hl
    · exact hlines l (.inr (.inr hl))
  | indent hφ hzero =>
    obtain ⟨line, hmem, rfl⟩ := List.mem_map.mp hl
    have hline := hlines line hmem
    unfold reindented
    split
    · exact hline
    · rw [List.mem_append, not_or]
      exact ⟨fun hmem => absurd (List.mem_replicate.mp hmem).2 (by decide),
        fun hmem => hline ((List.dropWhile_suffix _).subset hmem)⟩

theorem relaid_of_kept (h : List.Forall₂ (Kept φ) (withTokens lines) (withTokens lines'))
    (hlines : ∀ line ∈ lines, ascii '\n' ∉ line ∧ line.getLast? ≠ some (ascii '\\'))
    (hlines' : ∀ line ∈ lines', ascii '\n' ∉ line) : Relaid false φ lines lines' := by
  -- The induction is on the lines of both texts: blank ones are passed over on either side.
  induction lines generalizing lines' with
  | nil =>
    induction lines' with
    | nil => exact .nil
    | cons line' lines' ih =>
      have hline' := hlines' line' (List.mem_cons_self ..)
      cases hblank : isBlankLine line' with
      | true =>
        rw [withTokens_of_blank hblank] at h
        exact .insert rfl hblank hline' (ih h fun l hl => hlines' l (List.mem_cons_of_mem _ hl))
      | false =>
        rw [withTokens_of_line hblank] at h
        cases h
  | cons line lines ih =>
    obtain ⟨hline, hlast⟩ := hlines line (List.mem_cons_self ..)
    have hrest : ∀ l ∈ lines, ascii '\n' ∉ l ∧ l.getLast? ≠ some (ascii '\\') :=
      fun l hl => hlines l (List.mem_cons_of_mem _ hl)
    cases hblank : isBlankLine line with
    | true =>
      rw [withTokens_of_blank hblank] at h
      exact .remove rfl hblank hline (ih h hrest hlines')
    | false =>
      rw [withTokens_of_line hblank] at h
      induction lines' with
      | nil => cases h
      | cons line' lines' ih' =>
        have hline' := hlines' line' (List.mem_cons_self ..)
        have hrest' : ∀ l ∈ lines', ascii '\n' ∉ l := fun l hl => hlines' l (List.mem_cons_of_mem _ hl)
        cases hblank' : isBlankLine line' with
        | true =>
          rw [withTokens_of_blank hblank'] at h
          exact .insert rfl hblank' hline' (ih' h hrest')
        | false =>
          rw [withTokens_of_line hblank'] at h
          cases h with
          | cons hkept h =>
            obtain ⟨⟨w, hw, hbody⟩, hwidth⟩ := hkept
            obtain ⟨lead, x, v, rfl, hlead, hx, hcomment⟩ := exists_parts hblank
            obtain ⟨hindentation, hparts, -⟩ := parts_of_line v hlead hx hcomment
            have hsplit : line' = indentation line' ++ (x :: v ++ w) := by
              rw [← hparts, ← hbody]
              exact List.takeWhile_append_dropWhile.symm
            rw [width, width, hindentation] at hwidth
            rw [hsplit]
            exact .keep hlead (fun b hb => mem_indentation hb) hx hcomment
              (fun hmem => hline (List.mem_append_right _ hmem)) hwidth nofun hw
              (Guarded.suffix (u := lead) hlast) (ih h hrest hrest')

end Lines

end Lexer

/-- For a text none of whose lines ends inside brackets or in a backslash, edits to its layout change
neither the kinds nor the texts of its tokens, nor whether it is in error. -/
theorem tokenContents_of_layoutEdits {source : Bytes} {lines : List Bytes}
    (hdepths : ∀ d ∈ (Lexer.ofBytes source).lineDepths, d = 0)
    (hlast : ∀ line ∈ source.splitOn (ascii '\n'), line.getLast? ≠ some (ascii '\\'))
    (hedits : Relation.ReflTransGen Lexer.LayoutEdit (source.splitOn (ascii '\n')) lines) :
    tokenContents ([ascii '\n'].intercalate lines) = tokenContents source := by
  have hsource : ∀ line ∈ source.splitOn (ascii '\n'), ascii '\n' ∉ line :=
    fun line hline => newline_notMem_of_mem_splitOn hline
  obtain ⟨hlines, φ, hφ, hzero, hkept⟩ : (∀ line ∈ lines, ascii '\n' ∉ line) ∧
      Lexer.KeptLines (source.splitOn (ascii '\n')) lines := by
    induction hedits with
    | refl => exact ⟨hsource, id, strictMono_id, rfl, Lexer.forall₂_kept_self _⟩
    | tail _ hedit ih => exact ⟨hedit.newline_notMem ih.1, ih.2.trans hedit.kept⟩
  have hrelaid := Lexer.relaid_of_kept hkept
    (fun line hline => ⟨hsource line hline, hlast line hline⟩) hlines
  have hstretch : Lexer.Stretch false φ := ⟨hφ, hzero, nofun⟩
  obtain ⟨-, hview⟩ := Lexer.agrees_of_relaid hstretch hrelaid
    (by rw [ofLines_splitOn]; exact fun _ => hdepths)
  rw [ofLines_splitOn, ofLines_eq_intercalate] at hview
  have hcontents (text : Bytes) : tokenContents text =
      ((Lexer.ofBytes text).view (Token.seen false)).map (List.map fun t => (t.1, t.2.1)) := by
    rw [Lexer.view, Option.map_map, List.map_comp_map]
    rfl
  rw [hcontents, hcontents, hview fun h => Bool.noConfusion h]

/-- A block that is indented further, with a comment behind its head, a blank line put in and the empty
last line taken out. -/
theorem tokenContents_of_layoutEdits_block :
    (Lexer.ofBytes (Bytes.ofString "if x:\n y = (1)\n")).lineDepths = [0, 0, 0] ∧
    tokenContents (Bytes.ofString "if x: # one\n\t\n    y = (1)") =
      tokenContents (Bytes.ofString "if x:\n y = (1)\n") := by
  have hdepths : (Lexer.ofBytes (Bytes.ofString "if x:\n y = (1)\n")).lineDepths = [0, 0, 0] := by cbv
  have hlines : (Bytes.ofString "if x:\n y = (1)\n").splitOn (ascii '\n') =
      [Bytes.ofString "if x:", Bytes.ofString " y = (1)", []] := by decide +kernel
  have hmono : StrictMono (4 * · : Nat → Nat) := fun a b (h : a < b) => by
    change 4 * a < 4 * b
    omega
  have hindent : [Bytes.ofString "if x:", Bytes.ofString " y = (1)", []].map
      (Lexer.reindented (4 * ·)) = [Bytes.ofString "if x:", Bytes.ofString "    y = (1)", []] := by
    decide +kernel
  have hcomment : ∀ b ∈ Bytes.ofString " one", Lexer.isPlain b = true := by decide +kernel
  have hblank : Lexer.isBlankLine [ascii '\t'] = true ∧ ascii '\n' ∉ [ascii '\t'] := by decide
  have hempty : Lexer.isBlankLine [] = true := rfl
  have hedits : Relation.ReflTransGen Lexer.LayoutEdit
      ((Bytes.ofString "if x:\n y = (1)\n").splitOn (ascii '\n'))
      [Bytes.ofString "if x:" ++ ascii ' ' :: ascii '#' :: Bytes.ofString " one", [ascii '\t'],
        Bytes.ofString "    y = (1)"] := by
    rw [hlines]
    refine .head (.indent hmono rfl _) ?_
    rw [hindent]
    generalize Bytes.ofString "if x:" = a
    generalize Bytes.ofString "    y = (1)" = b
    refine .head (.line [] [b, []] (.comment a hcomment)) ?_
    generalize a ++ ascii ' ' :: ascii '#' :: Bytes.ofString " one" = a
    refine .head (.line [a] [b, []] (.insert hblank.1 hblank.2)) ?_
    exact .single (.line [a, [ascii '\t'], b] [] (.remove hempty))
  refine ⟨hdepths, tokenContents_of_layoutEdits ?_ ?_ hedits⟩
  · rw [hdepths]
    decide
  · rw [hlines]
    decide +kernel

end BoardPython
