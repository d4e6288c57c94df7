import BoardPython.Proofs.LexerExtent

/-! Tokens of one line. A token can be found from the bytes of its line alone: what stands behind the
line's bytes, if it begins with a break, makes no difference to numbers, names, operators and closed
string literals. A literal that is not closed stays so, unless its line is joined with the next. -/
namespace BoardPython

open Token (Kind)
open Token.Scan
open Bytes (ascii)

def Token.Kind.depthAfter (k : Kind) (depth : Nat) : Nat :=
  if k = .leftParen ∨ k = .leftBracket then depth + 1
  else if k = .rightParen ∨ k = .rightBracket then depth - 1
  else depth

namespace Token.Scan

def AtBreak (w : Bytes) : Prop := w = [] ∨ ∃ c b, w = c :: b ∧ isBreak c = true

section Append

variable {w : Bytes} (hw : AtBreak w)

include hw

theorem startsNumber_append (x : UInt8) (v : Bytes) :
    startsNumber (x :: v ++ w) = startsNumber (x :: v) := by
  rcases hw with rfl | ⟨c, b, rfl, hc⟩
  · rw [List.append_nil]
  · exact startsNumber_append_break x v b hc

theorem numberSpan_append (x : UInt8) (v : Bytes) :
    numberSpan (x :: v ++ w) = numberSpan (x :: v) := by
  rcases hw with rfl | ⟨c, b, rfl, hc⟩
  · rw [List.append_nil]
  · exact numberSpan_append_break x v b hc

theorem startsName_append (u : Bytes) : startsName (u ++ w) = startsName u := by
  rcases hw with rfl | ⟨c, b, rfl, hc⟩
  · rw [List.append_nil]
  · exact startsName_append_break u b hc

theorem nameSpan_append (u : Bytes) : nameSpan (u ++ w) = ((nameSpan u).1, (nameSpan u).2 ++ w)
    := by
  rcases hw with rfl | ⟨c, b, rfl, hc⟩
  · rw [List.append_nil, List.append_nil]
  · exact nameSpan_append_break u b hc

theorem operator?_append (u : Bytes) : operator? (u ++ w) = operator? u := by
  rcases hw with rfl | ⟨c, b, rfl, hc⟩
  · rw [List.append_nil]
  · exact operator?_append_break u b hc

end Append

/-- The token at the start of some bytes, its kind and its text, and the bytes behind it; none if
there is an error. -/
def token? : Bytes → Option (Kind × Bytes × Bytes)
  | [] => none
  | b :: rest =>
    let bs := b :: rest
    if startsNumber bs then
      let span := numberSpan bs
      if span.complete && !startsName (bs.drop span.length) then
        some (.number, bs.take span.length, bs.drop span.length)
      else none
    else if startsName bs then
      let text := bs.take (bs.length - (nameSpan bs).2.length)
      some (wordKind text, text, (nameSpan bs).2)
    else if isQuote b then (literal b ⟨1, 1⟩ rest).closed?.map (Prod.mk .string)
    else (operator? bs).map fun k => (k, k.spelling, bs.drop k.spelling.length)

def behind (w : Bytes) (t : Kind × Bytes × Bytes) : Kind × Bytes × Bytes := (t.1, t.2.1, t.2.2 ++ w)

/-- What stands behind the line of a token makes no difference to it, if there is a break in between.
For a literal that is not closed on its line this has to be known. -/
theorem token?_append {x : UInt8} {v w : Bytes} (hw : AtBreak w)
    (hquote : token? (x :: v) = none → isQuote x = true →
      (literal x ⟨1, 1⟩ (v ++ w)).closed? = none) :
    token? (x :: v ++ w) = (token? (x :: v)).map (behind w) := by
  have hdrop {n : Nat} (hn : n ≤ (x :: v).length) : (x :: v ++ w).drop n = (x :: v).drop n ++ w :=
    List.drop_append_of_le_length hn
  have htake {n : Nat} (hn : n ≤ (x :: v).length) : (x :: v ++ w).take n = (x :: v).take n :=
    List.take_append_of_le_length hn
  have hnumber := startsNumber_append hw x v
  have hspan := numberSpan_append hw x v
  have hname := startsName_append hw (x :: v)
  have hword := nameSpan_append hw (x :: v)
  have hoperator := operator?_append hw (x :: v)
  simp only [List.cons_append] at hdrop htake hnumber hspan hname hword hoperator ⊢
  simp only [token?, hnumber, hspan, hname, hword, hoperator] at hquote ⊢
  split
  · have hle := numberSpan_length_le (x :: v)
    rw [hdrop hle, htake hle, startsName_append hw, apply_ite (Option.map (behind w))]
    rfl
  split
  · have hlength : (x :: (v ++ w)).length - ((nameSpan (x :: v)).2 ++ w).length =
        (x :: v).length - (nameSpan (x :: v)).2.length := by
      simp only [List.length_cons, List.length_append]
      omega
    rw [hlength, htake (Nat.sub_le ..)]
    rfl
  split
  · rename_i hnone hnone' hx
    rw [if_neg hnone, if_neg hnone', if_pos hx] at hquote
    cases hl : (literal x ⟨1, 1⟩ v).closed? with
    | none =>
      rw [hl] at hquote
      rw [hquote rfl hx]
      rfl
    | some t =>
      rw [literal_closed?_append hx hl]
      rfl
  · cases hk : operator? (x :: v) with
    | none => rfl
    | some k =>
      rw [Option.map_some, hdrop (spelling_length_le hk)]
      rfl

theorem token?_quote {x : UInt8} (hx : isQuote x = true) (v : Bytes) :
    token? (x :: v) = (literal x ⟨1, 1⟩ v).closed?.map (Prod.mk .string) := by
  have hmem : x ∈ [ascii '"', 0x27] := by simpa [isQuote] using hx
  have hbytes : ∀ x ∈ [ascii '"', 0x27], Bytes.isDigit x = false ∧ x ≠ ascii '.' ∧ x.toNat < 0x80 ∧
      (Char.ofNat x.toNat == '_' || Text.isLetter (Char.ofNat x.toNat)) = false := by decide +kernel
  obtain ⟨hdigit, hpoint, hlt, hletter⟩ := hbytes x hmem
  have hnumber : startsNumber (x :: v) = false := by
    cases v <;> simp [startsNumber, hdigit, hpoint]
  have hname : startsName (x :: v) = false := by
    simp only [startsName, Text.Utf8.decode?, if_pos hlt, hletter]
  simp only [token?, hnumber, hname, hx, Bool.false_eq_true, if_false, if_true]

theorem token?_eq_some {bs text rest : Bytes} {k : Kind} (h : token? bs = some (k, text, rest)) :
    ∃ u, u ≠ [] ∧ bs = u ++ rest := by
  cases bs with
  | nil => cases h
  | cons b bs =>
    have hsplit {n : Nat} (hn : 0 < n) :
        ∃ u, u ≠ [] ∧ b :: bs = u ++ (b :: bs).drop n := by
      refine ⟨(b :: bs).take n, ?_, (List.take_append_drop n _).symm⟩
      rw [ne_eq, List.take_eq_nil_iff]
      exact fun hnil => hnil.elim (Nat.ne_of_gt hn) (List.cons_ne_nil b bs)
    simp only [token?] at h
    split at h
    · rename_i hnumber
      split at h
      · simp only [Option.some.injEq, Prod.mk.injEq] at h
        exact h.2.2 ▸ hsplit (numberSpan_length_pos hnumber)
      · cases h
    split at h
    · rename_i hname
      simp only [Option.some.injEq, Prod.mk.injEq] at h
      obtain ⟨u, hu, -, -⟩ := nameSpan_eq (Eq.refl (nameSpan (b :: bs)))
      have hlt := nameSpan_length_lt hname
      refine ⟨u, ?_, h.2.2 ▸ hu⟩
      rintro rfl
      rw [List.nil_append] at hu
      rw [← hu] at hlt
      exact Nat.lt_irrefl _ hlt
    split at h
    · obtain ⟨⟨value, rest'⟩, hl, heq⟩ := Option.map_eq_some_iff.mp h
      obtain ⟨-, -, rfl⟩ := heq
      obtain ⟨written, rfl, -⟩ := spells_of_closed? hl
      exact ⟨b :: written ++ [b], List.cons_ne_nil _ _, by simp⟩
    · obtain ⟨k', hk, heq⟩ := Option.map_eq_some_iff.mp h
      simp only [Prod.mk.injEq] at heq
      exact heq.2.2 ▸ hsplit (spelling_length_pos hk)

section Unclosed

variable {mark : UInt8} {u w e value written : Bytes}

/-- What is written in a literal is cut in two: between two bytes, or through an escape, right behind
its backslash or in front of one of its digits. -/
inductive Cut (mark : UInt8) (u w : Bytes) : Prop
  | between {value : Bytes} (h : Spells mark w value)
  | escape {value : Bytes} (hu : u.getLast? = some (ascii '\\'))
      (h : Spells mark (ascii '\\' :: w) value)
  | digit {d : UInt8} {w' : Bytes} (hw : w = d :: w') (hd : Bytes.isHexDigit d = true)

theorem Cut.append (h : Cut mark u w) (v : Bytes) : Cut mark (v ++ u) w := by
  cases h with
  | between h => exact .between h
  | escape hu h =>
    refine .escape ?_ h
    rw [List.getLast?_append, hu]
    rfl
  | digit hw hd => exact .digit hw hd

theorem cut_escape {e : UInt8} (h : Spells mark (ascii '\\' :: e :: written) value)
    (hcut : ascii '\\' :: e :: written = u ++ w)
    (hbehind : ∀ v, written = v ++ w → Cut mark v w) : Cut mark u w := by
  rcases u with _ | ⟨a, _ | ⟨b, u⟩⟩
  · rw [List.nil_append] at hcut
    exact .between (hcut ▸ h)
  · simp only [List.cons_append, List.nil_append, List.cons.injEq] at hcut
    obtain ⟨rfl, hcut⟩ := hcut
    exact .escape rfl (hcut ▸ h)
  · simp only [List.cons_append, List.cons.injEq] at hcut
    exact (hbehind u hcut.2.2).append [a, b]

theorem Spells.cut (h : Spells mark written value) (hcut : written = u ++ w) : Cut mark u w := by
  induction h generalizing u with
  | nil =>
    obtain ⟨rfl, rfl⟩ := List.append_eq_nil_iff.mp hcut.symm
    exact .between .nil
  | plain hmark hescape hline h ih =>
    rcases u with _ | ⟨b, u⟩
    · rw [List.nil_append] at hcut
      exact .between (hcut ▸ Spells.plain hmark hescape hline h)
    · simp only [List.cons_append, List.cons.injEq] at hcut
      exact (ih hcut.2).append [b]
  | @hex x high low _ _ hhigh hlow h ih =>
    have hx : x.toNat < 256 := x.toNat_lt
    refine cut_escape (.hex hhigh hlow h) hcut fun v hv => ?_
    -- Behind the first two bytes of the escape there are its two digits.
    rcases v with _ | ⟨a, _ | ⟨b, v⟩⟩
    · exact .digit hv.symm (hexDigits_spec (by omega) hhigh).1
    · simp only [List.cons_append, List.nil_append, List.cons.injEq] at hv
      exact .digit hv.2.symm (hexDigits_spec (by omega) hlow).1
    · simp only [List.cons_append, List.cons.injEq] at hv
      exact (ih hv.2.2).append [a, b]
  | short he h ih => exact cut_escape (.short he h) hcut fun _ hv => ih hv
  | unknown he h ih => exact cut_escape (.unknown he h) hcut fun _ hv => ih hv
  | joined h ih => exact cut_escape (.joined h) hcut fun _ hv => ih hv

theorem closed?_of_plain (hu : ∀ b ∈ u, b ≠ mark ∧ b ≠ ascii '\\' ∧ b ≠ ascii '\n')
    (he : e = [] ∨ ∃ r, e = ascii '\n' :: r) (p : Position) :
    (literal mark p (u ++ e)).closed? = none := by
  induction u generalizing p with
  | nil =>
    rcases he with rfl | ⟨r, rfl⟩
    · rfl
    · rw [List.nil_append, literal.eq_def]
      rfl
  | cons b u ih =>
    obtain ⟨hmark, hescape, hline⟩ := hu b (List.mem_cons_self ..)
    rw [List.cons_append, literal.eq_def]
    dsimp only
    rw [if_neg (by simpa using hline), if_neg (by simpa using hmark), if_pos (by simpa using hescape),
      Literal.closed?_prepend, ih fun b hb => hu b (List.mem_cons_of_mem _ hb)]
    rfl

/-- A literal that is not closed on its line is not closed behind it either. If the line ends in a
backslash, more has to be known of what is behind it. -/
theorem literal_closed?_eq_none (hmark : isQuote mark = true) (he : AtBreak e)
    (hnone : ∀ q, (literal mark q e).closed? = none)
    (hlast : u.getLast? = some (ascii '\\') →
      ∀ q, (literal mark q (ascii '\\' :: e)).closed? = none)
    {p : Position} (h : (literal mark p u).closed? = none) :
    (literal mark p (u ++ e)).closed? = none := by
  have hclosed {w value bs rest : Bytes} (hw : Spells mark w value) (hbs : bs = w ++ mark :: rest) :
      (literal mark p bs).closed? ≠ none := by
    rw [hbs, closed?_of_spells hmark hw]
    exact nofun
  rw [Option.eq_none_iff_forall_ne_some]
  rintro ⟨value, rest⟩ hvalue
  obtain ⟨written, heq, hspells⟩ := spells_of_closed? hvalue
  -- The closing quote is on the line, and the literal is closed there, or it is not.
  rcases List.append_eq_append_iff.mp heq with ⟨w, rfl, hw⟩ | ⟨w, rfl, hw⟩
  · cases hspells.cut rfl with
    | between h' => exact absurd (hnone p) (hclosed h' hw)
    | escape hu h' => exact absurd (hlast hu p) (hclosed h' (congrArg _ hw))
    | digit hdigit hd =>
      have hbreak {c : UInt8} (hc : isBreak c = true) : Bytes.isHexDigit c = false :=
        of_isBreak hc (P := fun c => Bytes.isHexDigit c = false) (by decide) (by decide) (by decide)
      rw [hw, hdigit] at he
      rcases he with he | ⟨c, b, heq, hc⟩
      · cases he
      · rw [(List.cons.inj heq).1, hbreak hc] at hd
        cases hd
  · rcases w with _ | ⟨b, w⟩
    · exact absurd (hnone p) (hclosed .nil hw.symm)
    · obtain ⟨rfl, -⟩ := List.cons.inj hw
      exact absurd h (hclosed hspells rfl)

end Unclosed

end Token.Scan

namespace Lexer

variable {s : Lexer} {b : UInt8} {r : Bytes}

/-- A token is read, or the lexer fails because none stands here. -/
def ReadsToken (s : Lexer) (found : Option (Kind × Bytes × Bytes)) (step : Step) : Prop :=
  (found = none ∧ ∃ e stop, step = .fail e stop) ∨
    ∃ k text rest line column, found = some (k, text, rest) ∧
      step = .more [s.token k text]
        { s with rest, line, column, depth := k.depthAfter s.depth, last := some k }

theorem depthAfter_wordKind (text : Bytes) (depth : Nat) :
    (wordKind text).depthAfter depth = depth := by
  have hall : ∀ k ∈ Kind.keywords, (k ≠ .leftParen ∧ k ≠ .leftBracket) ∧
      k ≠ .rightParen ∧ k ≠ .rightBracket := by decide
  unfold wordKind
  cases h : Kind.keywords.find? fun k => k.spelling == text with
  | none => rfl
  | some k =>
    obtain ⟨hopens, hcloses⟩ := hall k (List.mem_of_find?_eq_some h)
    rw [Option.getD_some, Kind.depthAfter, if_neg (not_or.mpr hopens), if_neg (not_or.mpr hcloses)]

theorem readsToken_number : s.ReadsToken
    (if (numberSpan s.rest).complete &&
        !startsName (s.rest.drop (numberSpan s.rest).length) then
      some (.number, s.rest.take (numberSpan s.rest).length,
        s.rest.drop (numberSpan s.rest).length)
    else none) s.number := by
  unfold number advance
  dsimp only
  cases (numberSpan s.rest).complete with
  | false => exact .inl ⟨rfl, _, _, rfl⟩
  | true =>
    cases startsName (s.rest.drop (numberSpan s.rest).length) with
    | true => exact .inl ⟨rfl, _, _, rfl⟩
    | false =>
      exact .inr ⟨_, _, _, s.line, s.column + (numberSpan s.rest).length, rfl, rfl⟩

theorem readsToken_word (text : Bytes)
    (htext : text = s.rest.take (s.rest.length - (nameSpan s.rest).2.length)) :
    s.ReadsToken (some (wordKind text, text, (nameSpan s.rest).2)) s.word := by
  refine .inr ⟨_, _, _, s.line, s.column + (nameSpan s.rest).1.length, rfl, ?_⟩
  rw [depthAfter_wordKind, htext]
  rfl

theorem readsToken_string (hb : isQuote b = true) (hs : s.rest = b :: r) : s.ReadsToken
    ((literal b ⟨1, 1⟩ r).closed?.map (Prod.mk .string)) (s.string b) := by
  rw [literal_closed?_position hb ⟨1, 1⟩ (s.advance 1).position]
  unfold string
  rw [hs, List.drop_one, List.tail_cons]
  cases literal b (s.advance 1).position r with
  | closed value rest stop => exact .inr ⟨_, _, _, stop.line, stop.column, rfl, rfl⟩
  | broken => exact .inl ⟨rfl, _, _, rfl⟩

theorem readsToken_operator : s.ReadsToken ((operator? s.rest).map fun k =>
    (k, k.spelling, s.rest.drop k.spelling.length)) s.operator := by
  unfold operator
  cases operator? s.rest with
  | none => exact .inl ⟨rfl, _, _, rfl⟩
  | some k => exact .inr ⟨_, _, _, s.line, s.column + k.spelling.length, rfl, rfl⟩

theorem readsToken_lexeme (hs : s.rest = b :: r) (h : startsToken s.rest = true) :
    s.ReadsToken (token? s.rest) (s.lexeme b) := by
  rw [lexeme_of_startsToken hs h]
  have hnumber := s.readsToken_number
  have hword := s.readsToken_word _ rfl
  have hoperator := s.readsToken_operator
  rw [hs] at hnumber hword hoperator ⊢
  simp only [token?]
  split
  · exact hnumber
  split
  · exact hword
  by_cases hquote : (b == ascii '"' || b == 0x27) = true
  · rw [if_pos hquote, isQuote, if_pos hquote]
    exact readsToken_string hquote hs
  · rw [if_neg hquote, isQuote, if_neg hquote]
    exact hoperator

variable {text rest : Bytes} {k : Kind}

theorem yield_token (hs : s.rest = b :: r)
    (hstart : (s.lineStart && s.depth == 0) = false) (hstarts : startsToken s.rest = true)
    (h : token? s.rest = some (k, text, rest)) :
    s.yield = ({ s with rest, depth := k.depthAfter s.depth, last := some k } : Lexer).yield.map
      ((k, text) :: ·) := by
  rcases readsToken_lexeme hs hstarts with ⟨hnone, -⟩ | ⟨k', text', rest', line, column, hk, hstep⟩
  · rw [h] at hnone
    cases hnone
  · rw [h] at hk
    cases hk
    rw [yield_of_more hs ((step_eq_lexeme hstart b).trans hstep)]
    exact congrArg (Option.map _) (yield_eq_of_bare_eq rfl)

theorem lexeme_of_line {x : UInt8} {v e : Bytes} (hs : s.rest = x :: v ++ e)
    (hline : ascii '\n' ∉ x :: v) (hstarts : startsToken (x :: v ++ e) = true) (he : AtBreak e)
    (h : token? (x :: v) = some (k, text, rest)) :
    ∃ column, s.lexeme x = .more [s.token k text]
      { s with rest := rest ++ e, column, depth := k.depthAfter s.depth, last := some k } := by
  have hfound : token? s.rest = some (k, text, rest ++ e) := by
    rw [hs, token?_append he, h]
    · rfl
    · rw [h]
      exact nofun
  rcases readsToken_lexeme hs (hs ▸ hstarts) with ⟨hnone, -⟩ | ⟨k', text', rest', line, column, hk, hstep⟩
  · rw [hfound] at hnone
    cases hnone
  · rw [hfound] at hk
    obtain ⟨rfl, heq⟩ := Prod.mk.inj (Option.some.inj hk)
    obtain ⟨rfl, rfl⟩ := Prod.mk.inj heq
    -- The bytes that are read are some of the line's, so the lexer is still on it.
    obtain ⟨u, -, hu⟩ := token?_eq_some h
    obtain ⟨read, hread, hcount, -⟩ := (passes_lexeme hs hstep).reads
    have hread : u = read := by
      rw [hs, hu, List.append_assoc] at hread
      exact List.append_cancel_right hread
    have hnone : ascii '\n' ∉ read := by
      rw [hu, hread] at hline
      exact fun hmem => hline (List.mem_append_left _ hmem)
    rw [List.count_eq_zero_of_not_mem hnone, Nat.add_zero] at hcount
    refine ⟨column, ?_⟩
    rw [hstep]
    exact congrArg _ (congrArg (fun l => Lexer.mk _ l _ _ _ _ _) hcount)

section Layout

/-- A line of blanks and possibly a comment. -/
def isBlankLine (line : Bytes) : Bool :=
  match line.dropWhile isIndentation with
  | [] => true
  | b :: _ => b == ascii '#'

def indentation (line : Bytes) : Bytes := line.takeWhile isIndentation

/-- A line is blank, or there are bytes behind its indentation that begin neither with a blank nor with a
comment. -/
theorem line_cases (line : Bytes) : isBlankLine line = true ∨
    ∃ x v, line = indentation line ++ x :: v ∧ isIndentation x = false ∧ x ≠ ascii '#' := by
  have hsplit : indentation line ++ line.dropWhile isIndentation = line :=
    List.takeWhile_append_dropWhile
  unfold isBlankLine
  cases h : line.dropWhile isIndentation with
  | nil => exact .inl rfl
  | cons x v =>
    by_cases hx : x = ascii '#'
    · exact .inl (beq_iff_eq.mpr hx)
    · refine .inr ⟨x, v, by rw [← h, hsplit], ?_, hx⟩
      have hhead := List.head?_dropWhile_not isIndentation line
      rw [h] at hhead
      exact hhead

theorem takeWhile_of_all {p : UInt8 → Bool} {u w : Bytes} (hu : ∀ b ∈ u, p b = true)
    (hw : ∀ x v, w = x :: v → p x = false) : (u ++ w).takeWhile p = u := by
  cases w with
  | nil => rw [List.append_nil, List.takeWhile_eq_self_iff.mpr hu]
  | cons x v =>
    rw [List.takeWhile_append_of_pos hu, List.takeWhile_cons_of_neg (by simp [hw x v rfl]),
      List.append_nil]

variable {line e : Bytes}

theorem mem_indentation {b : UInt8} (hb : b ∈ indentation line) :
    isIndentation b = true := List.mem_takeWhile_imp hb

theorem layout_of_line {x : UInt8} {lead v : Bytes} (hs : s.rest = lead ++ x :: v)
    (hlead : ∀ b ∈ lead, isIndentation b = true)
    (hx : isIndentation x = false) (hline : x ≠ ascii '\n') (hcomment : x ≠ ascii '#') :
    s.layout = (s.advance lead.length).indent (indentWidth lead) := by
  have hblanks : s.rest.takeWhile isIndentation = lead := by
    rw [hs]
    exact takeWhile_of_all hlead fun y w hy => (List.cons.inj hy).1 ▸ hx
  have hrest : (s.advance lead.length).rest = x :: v := by rw [advance, hs, List.drop_left]
  rw [layout_of_cons hblanks rfl hrest, if_neg (by simpa using hline), if_neg (by simpa using hcomment)]

def LineEnd (e : Bytes) : Prop := e = [] ∨ ∃ r, e = ascii '\n' :: r

theorem endBlankLine_of_lineEnd (hs : s.rest = e) (he : LineEnd e) :
    ∃ column, s.endBlankLine = .more [] { s with
      rest := e.tail, line := if e.isEmpty then s.line else s.line + 1, column } := by
  rcases he with rfl | ⟨r, rfl⟩
  · refine ⟨s.column, ?_⟩
    rw [endBlankLine, hs]
    exact congrArg (Step.more []) (congrArg (fun rest => { s with rest }) hs)
  · refine ⟨1, ?_⟩
    rw [endBlankLine_of_cons hs, nextLine, hs]
    rfl

theorem skipComment_of_line {c : Bytes} (hs : s.rest = c ++ e) (hc : ascii '\n' ∉ c)
    (he : LineEnd e) : s.skipComment = s.advance c.length ∧ s.skipComment.rest = e := by
  have hcomment : s.rest.takeWhile isCommentByte = c := by
    rw [hs]
    refine takeWhile_of_all (fun b hb => ?_) fun x v hx => ?_
    · rw [isCommentByte, bne_iff_ne]
      exact fun heq => hc (heq ▸ hb)
    · rcases he with rfl | ⟨r, rfl⟩
      · cases hx
      · rw [← (List.cons.inj hx).1]
        decide
  have hskip : s.skipComment = s.advance c.length := by rw [skipComment, hcomment]
  refine ⟨hskip, ?_⟩
  rw [hskip, advance, hs, List.drop_left]

theorem layout_of_blankLine (hs : s.rest = line ++ e)
    (hblank : isBlankLine line = true) (hline : ascii '\n' ∉ line) (he : LineEnd e) :
    ∃ column, s.layout = .more [] { s with
      rest := e.tail, line := if e.isEmpty then s.line else s.line + 1, column } := by
  have hsplit : indentation line ++ line.dropWhile isIndentation = line :=
    List.takeWhile_append_dropWhile
  rw [← hsplit, List.append_assoc] at hs
  have hrest : (s.advance (indentation line).length).rest =
      line.dropWhile isIndentation ++ e := by rw [advance, hs, List.drop_left]
  unfold isBlankLine at hblank
  cases h : line.dropWhile isIndentation with
  | nil =>
    rw [h, List.nil_append] at hs hrest
    have hblanks : s.rest.takeWhile isIndentation = indentation line := by
      rw [hs]
      refine takeWhile_of_all (fun b hb => mem_indentation hb) fun x v hx => ?_
      rcases he with rfl | ⟨r, rfl⟩
      · cases hx
      · rw [← (List.cons.inj hx).1]
        decide
    obtain ⟨column, hend⟩ := endBlankLine_of_lineEnd hrest he
    refine ⟨column, ?_⟩
    rcases he with rfl | ⟨r, rfl⟩
    · rw [layout_of_nil hblanks rfl hrest, hend]
      rfl
    · rw [layout_of_cons hblanks rfl hrest, if_pos (by decide), hend]
      rfl
  | cons x v =>
    rw [h] at hblank hs hrest hsplit
    obtain rfl : x = ascii '#' := beq_iff_eq.mp hblank
    have hblanks : s.rest.takeWhile isIndentation = indentation line := by
      rw [hs]
      refine takeWhile_of_all (fun b hb => mem_indentation hb) fun x v hx => ?_
      rw [← (List.cons.inj hx).1]
      decide
    have hcomment : ascii '\n' ∉ ascii '#' :: v := fun hmem =>
      hline (hsplit ▸ List.mem_append_right _ hmem)
    obtain ⟨hskip, hskipped⟩ := skipComment_of_line hrest hcomment he
    obtain ⟨column, hend⟩ := endBlankLine_of_lineEnd hskipped he
    refine ⟨column, ?_⟩
    rw [layout_of_cons hblanks rfl hrest, if_neg (by decide), if_pos (by decide), hend, hskip]
    rfl

/-- The indentation is looked at in relation to the levels that are open: if both are stretched in the
same way, the same blocks open and close. -/
theorem indent_map {t : Lexer} {φ : Nat → Nat} (hφ : StrictMono φ) (hzero : φ 0 = 0)
    (hlevels : t.levels = s.levels.map φ) (width : Nat) :
    (∃ e stop e' stop', s.indent width = .fail e stop ∧ t.indent (φ width) = .fail e' stop') ∨
      ∃ k n levels, s.indent width = .more (List.replicate n (s.token k []))
          { s with levels, lineStart := false, last := if n = 0 then s.last else some k } ∧
        t.indent (φ width) = .more (List.replicate n (t.token k []))
          { t with levels := levels.map φ, lineStart := false,
                   last := if n = 0 then t.last else some k } := by
  have hhead (ls : List Nat) : (ls.map φ).headD 0 = φ (ls.headD 0) := by
    cases ls with
    | nil => exact hzero.symm
    | cons l ls => rfl
  have hlevel : t.level = φ s.level := by rw [level, level, hlevels, hhead]
  have hdeeper : (fun l => decide (φ width < l)) ∘ φ = fun l => decide (width < l) := by
    funext l
    simp [hφ.lt_iff_lt]
  have hkept : t.levels.dropWhile (φ width < ·) = (s.levels.dropWhile (width < ·)).map φ := by
    rw [hlevels, List.dropWhile_map, hdeeper]
  have hclosed : t.levels.takeWhile (φ width < ·) = (s.levels.takeWhile (width < ·)).map φ := by
    rw [hlevels, List.takeWhile_map, hdeeper]
  by_cases hopen : s.level < width
  · refine .inr ⟨.indent, 1, width :: s.levels, ?_, ?_⟩
    · rw [indent_deeper hopen]
      rfl
    · rw [indent_deeper (by rw [hlevel]; exact hφ hopen), hlevels]
      rfl
  · have hopen' : ¬t.level < φ width := by rw [hlevel, hφ.lt_iff_lt]; exact hopen
    unfold indent level at *
    rw [if_neg hopen, if_neg hopen']
    dsimp only
    rw [hkept, hclosed, hhead, List.map_map]
    by_cases hmatch : (s.levels.dropWhile (width < ·)).headD 0 = width
    · rw [if_pos hmatch, if_pos (congrArg φ hmatch)]
      refine .inr ⟨.dedent, (s.levels.takeWhile (width < ·)).length,
        s.levels.dropWhile (width < ·), ?_, ?_⟩
      · rw [List.map_const']
        simp only [List.isEmpty_iff_length_eq_zero]
      · rw [show ((fun _ => t.token .dedent []) ∘ φ) = fun _ => t.token .dedent [] from rfl,
          List.map_const']
        simp only [List.isEmpty_iff_length_eq_zero, List.length_map]
    · rw [if_neg hmatch, if_neg (fun heq => hmatch (hφ.injective heq))]
      exact .inl ⟨_, _, _, _, rfl, rfl⟩

end Layout

end Lexer

end BoardPython
