import BoardPython.Proofs.RelaidLines

/-! Lines that end in a carriage return and a newline. Such a text is read like the one without the
carriage returns, but for lines that are joined by a backslash at their end: there the backslash
stands in front of the carriage return and joins nothing. So the two texts give the same tokens, on
the same lines, exactly if no lines are joined or the text is in error anyway. -/
namespace BoardPython

open Token (Kind)
open Bytes (ascii)

/-- A carriage return is put in front of every newline. -/
def withReturns (text : Bytes) : Bytes :=
  text.flatMap fun b => if b = ascii '\n' then [ascii '\r', ascii '\n'] else [b]

/-- A token without its column. -/
def Token.lined (t : Token) : Kind × Bytes × Nat := (t.kind, t.text, t.position.line)

/-- The tokens of a text without their columns; none if the text has a lexical error. -/
def linedTokens (source : Bytes) : Option (List (Kind × Bytes × Nat)) :=
  (tokenize source).toOption.map (List.map Token.lined)

theorem withReturns_of_line {line : Bytes} (hline : ascii '\n' ∉ line) (r : Bytes) :
    withReturns (line ++ r) = line ++ withReturns r := by
  induction line with
  | nil => rfl
  | cons b line ih =>
    obtain ⟨hb, hline⟩ := not_or.mp fun h => hline (List.mem_cons.mpr h)
    have hkept := ih hline
    unfold withReturns at hkept ⊢
    rw [List.cons_append, List.flatMap_cons, if_neg (Ne.symm hb), hkept]
    rfl

theorem relaid_withReturns {lines : List Bytes} (hlines : ∀ line ∈ lines, ascii '\n' ∉ line) :
    ∃ lines', withReturns (ofLines lines) = ofLines lines' ∧ Lexer.Relaid true id lines lines' := by
  have hid : Lexer.Stretch true id := ⟨strictMono_id, rfl, fun _ => rfl⟩
  induction lines with
  | nil => exact ⟨[], rfl, .nil⟩
  | cons line lines ih =>
    have hline := hlines line (List.mem_cons_self ..)
    obtain ⟨lines', htext, hr⟩ := ih fun l hl => hlines l (List.mem_cons_of_mem _ hl)
    have hempty := hr.isEmpty rfl
    cases lines with
    | nil =>
      obtain rfl : lines' = [] := List.isEmpty_iff.mp hempty
      refine ⟨[line ++ []], ?_, .of_numbered hid hline (.blanks nofun) (.inr ⟨rfl, rfl⟩) .nil⟩
      rw [ofLines, withReturns_of_line hline, ofLines, List.append_nil]
      rfl
    | cons line₂ lines =>
      refine ⟨(line ++ [ascii '\r']) :: lines', ?_, .of_numbered hid hline (.blanks ?_)
        (.inl (List.cons_ne_nil _ _)) hr⟩
      · cases lines' with
        | nil => cases hempty
        | cons line₂' lines' =>
          calc withReturns (ofLines (line :: line₂ :: lines))
              = line ++ ascii '\r' :: ascii '\n' :: withReturns (ofLines (line₂ :: lines)) :=
                withReturns_of_line hline _
            _ = line ++ ascii '\r' :: ascii '\n' :: ofLines (line₂' :: lines') := by rw [htext]
            _ = ofLines ((line ++ [ascii '\r']) :: line₂' :: lines') := by simp [ofLines, behindLine]
      · simp

/-- With carriage returns a text gives the same tokens on the same lines exactly if it joins no lines by
a backslash, or is in error. -/
theorem linedTokens_withReturns (text : Bytes) :
    linedTokens (withReturns text) = linedTokens text ↔
      linedTokens text = none ∨ ¬(Lexer.ofBytes text).Joins := by
  obtain ⟨lines', htext, hr⟩ := relaid_withReturns fun line (hline : line ∈ text.splitOn _) =>
    newline_notMem_of_mem_splitOn hline
  obtain ⟨hjoins, hsame⟩ := Lexer.agrees_of_relaid ⟨strictMono_id, rfl, fun _ => rfl⟩ hr nofun
  rw [ofLines_splitOn] at htext hjoins hsame
  rw [htext]
  by_cases h : (Lexer.ofBytes text).Joins
  · have hnone : linedTokens (ofLines lines') = none := hjoins rfl h
    rw [hnone, eq_comm, or_iff_left (not_not.mpr h)]
  · exact iff_of_true (hsame fun _ => h) (.inr h)

/-- A line that goes on behind a backslash: with carriage returns the backslash is a stray character. -/
theorem linedTokens_backslash_return :
    linedTokens (Bytes.ofString "x = \\\n1\n") = some
      [(.identifier, [ascii 'x'], 1), (.assign, [ascii '='], 1), (.number, [ascii '1'], 2),
        (.newline, [], 2), (.eof, [], 3)] ∧
    withReturns (Bytes.ofString "x = \\\n1\n") = Bytes.ofString "x = \\\r\n1\r\n" ∧
    linedTokens (Bytes.ofString "x = \\\r\n1\r\n") = none := by
  refine ⟨by cbv, by decide, by cbv⟩

end BoardPython
