import BoardPython.Proofs.VacantLines
import BoardPython.Proofs.ParsedNames

/-! What a step of a lexer reads. It finds a token, or passes over what stands between tokens:
`Lexer.Passes`. Also where it fails it stays inside its text: what it has read and what it has left
are together the text, and its position counts the bytes that it has read. -/
namespace BoardPython

open Token (Kind)
open Token.Scan
open Bytes (ascii)

namespace Position

/-- From `p`, in front of the bytes `bs`, some bytes are read up to `q`, in front of `rest`. The
lines are counted exactly; a byte takes at most one column, as some characters have several. -/
def Reaches (p : Position) (bs : Bytes) (q : Position) (rest : Bytes) : Prop :=
  ∃ read, bs = read ++ rest ∧ q.line = p.line + read.count (ascii '\n') ∧
    q.column ≤ read.foldl columnStep p.column

variable {p q q' : Position} {bs u mid rest : Bytes}

theorem reaches_self : p.Reaches bs p bs := ⟨[], rfl, rfl, Nat.le_refl _⟩

theorem Reaches.trans (h : p.Reaches bs q mid) (h' : q.Reaches mid q' rest) :
    p.Reaches bs q' rest := by
  obtain ⟨u, rfl, hline, hcolumn⟩ := h
  obtain ⟨v, rfl, hline', hcolumn'⟩ := h'
  refine ⟨u ++ v, (List.append_assoc ..).symm, ?_, ?_⟩
  · rw [hline', hline, List.count_append, Nat.add_assoc]
  · rw [List.foldl_append]
    exact hcolumn'.trans (foldl_columnStep_mono hcolumn v)

theorem reaches_of_line (hu : ascii '\n' ∉ u) {m : Nat} (hm : m ≤ u.length) :
    p.Reaches (u ++ rest) ⟨p.line, p.column + m⟩ rest := by
  refine ⟨u, rfl, ?_, ?_⟩
  · rw [List.count_eq_zero_of_not_mem hu, Nat.add_zero]
  · rw [foldl_columnStep_of_line hu]
    exact Nat.add_le_add_left hm _

theorem reaches_of_newline (hu : ascii '\n' ∉ u) :
    p.Reaches (u ++ ascii '\n' :: rest) ⟨p.line + 1, 1⟩ rest := by
  refine ⟨u ++ [ascii '\n'], by simp, ?_, ?_⟩
  · rw [List.count_append, List.count_eq_zero_of_not_mem hu]
    simp
  · rw [List.foldl_append]
    exact Nat.le_refl 1

end Position

namespace Token.Scan

/-- Where a literal stops. -/
def Literal.stop : Literal → Position
  | closed _ _ stop => stop
  | broken _ _ stop => stop

theorem Literal.stop_prepend (bs : Bytes) (l : Literal) : (l.prepend bs).stop = l.stop := by
  cases l <;> rfl

theorem literal_reaches (mark : UInt8) (p : Position) (bs : Bytes) :
    p.Reaches bs (literal mark p bs).stop (literal mark p bs).rest := by
  induction hn : bs.length using Nat.strongRecOn generalizing p bs with
  | ind n ih =>
    -- Bytes are read and the literal goes on behind them.
    have hnext {q : Position} {rest value : Bytes} (hq : p.Reaches bs q rest)
        (hlt : rest.length < n) : p.Reaches bs ((literal mark q rest).prepend value).stop
          ((literal mark q rest).prepend value).rest := by
      rw [Literal.stop_prepend, Literal.rest_prepend]
      exact hq.trans (ih rest.length hlt q rest rfl)
    have hline {v rest' : Bytes} (hbs : bs = v ++ rest') (hv : ascii '\n' ∉ v) :
        p.Reaches bs ⟨p.line, p.column + v.length⟩ rest' :=
      hbs ▸ Position.reaches_of_line hv (Nat.le_refl _)
    unfold literal
    split
    · exact Position.reaches_self
    rename_i b rest
    rw [List.length_cons] at hn
    split
    · exact Position.reaches_self
    rename_i hb
    have hb' : ascii '\n' ≠ b := fun h => hb (by rw [h]; exact beq_self_eq_true b)
    split
    · exact hline (v := [b]) rfl (by simpa using hb')
    split
    · exact hnext (hline (v := [b]) rfl (by simpa using hb')) (by omega)
    split
    · exact Position.reaches_self
    rename_i e rest
    rw [List.length_cons] at hn
    split
    · rename_i he
      have hq : p.Reaches (b :: e :: rest) ⟨p.line + 1, 1⟩ rest := by
        rw [beq_iff_eq.mp he]
        exact Position.reaches_of_newline (u := [b]) (by simpa using hb')
      exact hq.trans (ih rest.length (by omega) _ rest rfl)
    rename_i he
    have he' : ascii '\n' ≠ e := fun h => he (by rw [h]; exact beq_self_eq_true e)
    have hpair : p.Reaches (b :: e :: rest) ⟨p.line, p.column + 2⟩ rest :=
      hline (v := [b, e]) rfl (by simp [hb', he'])
    split
    · split
      · rename_i high low rest
        simp only [List.length_cons] at hn
        split
        · rename_i hhex
          rw [Bool.and_eq_true] at hhex
          have hdigit {d : UInt8} (hd : Bytes.isHexDigit d = true) : ascii '\n' ≠ d := by
            rintro rfl
            exact absurd hd (by decide)
          refine hnext (hline (v := [b, e, high, low]) rfl ?_) (by omega)
          simp [hb', he', hdigit hhex.1, hdigit hhex.2]
        · exact hpair
      · exact hpair
    · exact hnext hpair (by omega)

/-- A newline in the first `n` bytes has fewer than `n` bytes in front of it. -/
theorem exists_of_newline_mem_take {n : Nat} {bs : Bytes} (h : ascii '\n' ∈ bs.take n) :
    ∃ u w, bs = u ++ ascii '\n' :: w ∧ u.length < n := by
  obtain ⟨u, v, huv⟩ := List.append_of_mem h
  refine ⟨u, v ++ bs.drop n, ?_, ?_⟩
  · rw [← List.cons_append, ← List.append_assoc, ← huv, List.take_append_drop]
  · have hlength := congrArg List.length huv
    rw [List.length_take, List.length_append, List.length_cons] at hlength
    omega

theorem newline_notMem_number {x : UInt8} {bs : Bytes} (hx : x ≠ ascii '\n') :
    ascii '\n' ∉ (x :: bs).take (numberSpan (x :: bs)).length := by
  intro h
  obtain ⟨u, w, hu, hlt⟩ := exists_of_newline_mem_take h
  cases u with
  | nil => exact hx (List.cons.inj hu).1
  | cons y u =>
    have hspan := numberSpan_append_break y u w (c := ascii '\n') (by decide)
    have hle := numberSpan_length_le (y :: u)
    rw [hu, hspan] at hlt
    omega

theorem newline_notMem_name {u after : Bytes} {cs : List Char}
    (h : nameSpan (u ++ after) = (cs, after)) : ascii '\n' ∉ u := by
  intro hmem
  obtain ⟨v, w, rfl⟩ := List.append_of_mem hmem
  rw [List.append_assoc, List.cons_append,
    nameSpan_append_break v (w ++ after) (by decide)] at h
  have hlength := congrArg List.length (Prod.mk.inj h).2
  simp only [List.length_append, List.length_cons] at hlength
  omega

theorem spelling_isPrefix {bs : Bytes} {k : Kind} (h : operator? bs = some k) :
    k.spelling <+: bs := by
  unfold operator? at h
  have hprefix := List.find?_some h
  exact List.isPrefixOf_iff_prefix.mp hprefix

end Token.Scan

namespace Token

open Scan

/-- `Skips bs rest`: from `bs` on to `rest` there are only blanks, ends of lines, comments up to the
end of their lines, and backslashes at the end of a line. -/
inductive Skips : Bytes → Bytes → Prop
  | refl (bs : Bytes) : Skips bs bs
  | blank {b : UInt8} {bs rest : Bytes}
      (hb : b ∈ [ascii ' ', ascii '\t', ascii '\r', 0x0C, ascii '\n']) (h : Skips bs rest) :
      Skips (b :: bs) rest
  | comment {u bs rest : Bytes} (hu : ascii '\n' ∉ u) (hbs : bs = [] ∨ ∃ r, bs = ascii '\n' :: r)
      (h : Skips bs rest) : Skips (ascii '#' :: u ++ bs) rest
  | continuation {bs rest : Bytes} (h : Skips bs rest) :
      Skips (ascii '\\' :: ascii '\n' :: bs) rest

/-- `NameRun bs cs rest`: from `bs` on to `rest` stand the characters `cs`, all of them letters,
digits or underscores. -/
inductive NameRun : Bytes → List Char → Bytes → Prop
  | nil (bs : Bytes) : NameRun bs [] bs
  | cons {bs mid rest : Bytes} {c : Char} {cs : List Char} (h : Text.Utf8.decode? bs = some (c, mid))
      (hc : Scan.isNameChar c = true) (hrun : NameRun mid cs rest) : NameRun bs (c :: cs) rest

/-- `Stands k text bs rest`: at the start of `bs` stands a token of the kind `k` with the text `text`,
and `rest` is behind it. The tokens of the layout take no room. -/
inductive Stands : Kind → Bytes → Bytes → Bytes → Prop
  | number {text bs rest : Bytes} (hbs : bs = text ++ rest) (hstarts : Scan.startsNumber bs = true)
      (hspan : Scan.numberSpan bs = ⟨text.length, true⟩) (hrest : Scan.startsName rest = false) :
      Stands .number text bs rest
  | word {k : Kind} {text bs rest : Bytes} {cs : List Char} (hbs : bs = text ++ rest)
      (hkind : k ∈ Kind.keywords ∧ text = k.spelling ∨
        k = .identifier ∧ ∀ l ∈ Kind.keywords, text ≠ l.spelling)
      (hrun : NameRun bs cs rest) (hne : cs ≠ [])
      (hlongest : ∀ cs' rest', NameRun bs cs' rest' → rest.length ≤ rest'.length) :
      Stands k text bs rest
  | string {mark : UInt8} {written value bs rest : Bytes}
      (hbs : bs = mark :: written ++ mark :: rest) (hmark : mark = ascii '"' ∨ mark = 0x27)
      (hspells : Scan.Spells mark written value) : Stands .string value bs rest
  | operator {k : Kind} {bs rest : Bytes} (hbs : bs = k.spelling ++ rest) (hk : k ∈ Kind.operators)
      (hlongest : ∀ l ∈ Kind.operators, l.spelling <+: bs →
        l.spelling.length ≤ k.spelling.length) : Stands k k.spelling bs rest
  | newline {bs : Bytes} (hbs : bs = [] ∨ ∃ r, bs = ascii '\n' :: r) : Stands .newline [] bs bs
  | margin {k : Kind} {bs : Bytes} (hk : k = .indent ∨ k = .dedent)
      (hbs : ∀ b r, bs = b :: r → Scan.isIndentation b = false ∧ b ≠ ascii '\n' ∧ b ≠ ascii '#') :
      Stands k [] bs bs
  | eof : Stands .eof [] [] []

/-- The bytes of an identifier beyond one for each character. -/
def surplus (t : Token) : Nat :=
  if t.kind = .identifier then t.text.length - (Text.Utf8.pieces t.text).length else 0

section Longest

variable {cs : List Char} {bs rest : Bytes}

theorem nameRun_of_nameSpan (h : Scan.nameSpan bs = (cs, rest)) : NameRun bs cs rest := by
  fun_induction Scan.nameSpan bs generalizing cs with
  | case1 bs c mid hdecode hc cs' after hmid ih =>
    obtain ⟨rfl, rfl⟩ := Prod.mk.inj h
    exact .cons hdecode hc (ih hmid)
  | case2 bs c mid hdecode hc =>
    obtain ⟨rfl, rfl⟩ := Prod.mk.inj h
    exact .nil _
  | case3 bs hdecode =>
    obtain ⟨rfl, rfl⟩ := Prod.mk.inj h
    exact .nil _

theorem NameRun.ne_nil (h : NameRun bs cs rest)
    (hlt : rest.length < bs.length) : cs ≠ [] := by
  cases h with
  | nil => exact absurd hlt (Nat.lt_irrefl _)
  | cons => exact List.cons_ne_nil _ _

theorem NameRun.length_le (h : NameRun bs cs rest) :
    cs.length + rest.length ≤ bs.length := by
  induction h with
  | nil bs => exact Nat.le_of_eq (Nat.zero_add _)
  | cons hdecode _ _ ih =>
    have hlt := Text.Utf8.decode?_length hdecode
    rw [List.length_cons]
    omega

/-- The name at the start of `bs` is the longest run of its characters there. -/
theorem length_nameSpan_le (h : NameRun bs cs rest) :
    (Scan.nameSpan bs).2.length ≤ rest.length := by
  induction h with
  | nil bs => exact Scan.nameSpan_length bs
  | cons hdecode hc _ ih =>
    rw [Scan.nameSpan]
    split
    · rename_i c' mid' hdecode'
      rw [hdecode] at hdecode'
      obtain ⟨rfl, rfl⟩ := Prod.mk.inj (Option.some.inj hdecode')
      rw [if_pos hc]
      exact ih
    · rename_i hnone
      rw [hdecode] at hnone
      cases hnone

theorem wordKind_cases (text : Bytes) :
    Scan.wordKind text ∈ Kind.keywords ∧ text = (Scan.wordKind text).spelling ∨
      Scan.wordKind text = .identifier ∧ ∀ l ∈ Kind.keywords, text ≠ l.spelling := by
  unfold Scan.wordKind
  cases h : Kind.keywords.find? fun k => k.spelling == text with
  | none =>
    refine .inr ⟨rfl, fun l hl heq => ?_⟩
    have hl' := List.find?_eq_none.mp h l hl
    exact hl' (beq_iff_eq.mpr heq.symm)
  | some k =>
    have hk := List.find?_some h
    exact .inl ⟨List.mem_of_find?_eq_some h, (beq_iff_eq.mp hk).symm⟩

theorem length_spelling_le {k l : Kind} (h : Scan.operator? bs = some k) (hl : l ∈ Kind.operators)
    (hfront : l.spelling <+: bs) :
    l.spelling.length ≤ k.spelling.length := by
  have hsorted : Kind.operators.Pairwise fun a b => b.spelling.length ≤ a.spelling.length := by
    decide
  obtain ⟨-, before, after, heq, hbefore⟩ := List.find?_eq_some_iff_append.mp h
  rw [heq] at hl hsorted
  rcases List.mem_append.mp hl with hl | hl
  · have hfits : Bytes.startsWith bs l.spelling = true := List.isPrefixOf_iff_prefix.mpr hfront
    have hnot := hbefore l hl
    rw [hfits] at hnot
    cases hnot
  · rcases List.mem_cons.mp hl with rfl | hl
    · exact Nat.le_refl _
    · exact (List.pairwise_cons.mp (List.pairwise_append.mp hsorted).2.1).1 l hl

/-- A word takes one column for each character, so that only the bytes of identifiers can be more
than its columns. -/
theorem surplus_word {text : Bytes} (p : Position) (hpieces : Text.Utf8.pieces text = cs.map .inl)
    (hle : cs.length ≤ text.length) :
    cs.length + (Token.mk (Scan.wordKind text) text p).surplus = text.length := by
  have hlength : (Text.Utf8.pieces text).length = cs.length := by rw [hpieces, List.length_map]
  have hkeyword : ∀ k ∈ Kind.keywords, k ≠ .identifier ∧
      (Text.Utf8.pieces k.spelling).length = k.spelling.length := by decide +kernel
  rcases wordKind_cases text with ⟨hmem, htext⟩ | ⟨hident, -⟩
  · obtain ⟨hne, hascii⟩ := hkeyword _ hmem
    rw [← htext, hlength] at hascii
    rw [surplus, if_neg hne, hascii, Nat.add_zero]
  · rw [surplus, if_pos hident, hlength]
    exact Nat.add_sub_cancel' hle

end Longest

variable {rest bs : Bytes}

theorem skips_blanks {u : Bytes} (hu : ∀ b ∈ u, Scan.isIndentation b = true)
    (h : Skips bs rest) : Skips (u ++ bs) rest := by
  induction u with
  | nil => exact h
  | cons b u ih =>
    have hb := hu b (List.mem_cons_self ..)
    simp only [Scan.isIndentation, Bool.or_eq_true, beq_iff_eq, or_assoc] at hb
    refine .blank ?_ (ih fun b hb => hu b (List.mem_cons_of_mem _ hb))
    simp only [List.mem_cons, List.not_mem_nil, or_false]
    rcases hb with hb | hb | hb | hb
    · exact .inl hb
    · exact .inr (.inl hb)
    · exact .inr (.inr (.inl hb))
    · exact .inr (.inr (.inr (.inl hb)))

theorem Skips.trans {mid : Bytes} (h : Skips bs mid) (h' : Skips mid rest) :
    Skips bs rest := by
  induction h with
  | refl => exact h'
  | blank hb _ ih => exact .blank hb (ih h')
  | comment hu hbs _ ih => exact .comment hu hbs (ih h')
  | continuation _ ih => exact .continuation (ih h')

theorem Stands.length_lt {k : Kind} {text : Bytes} (h : Stands k text bs rest)
    (hk : k ∉ [.newline, .indent, .dedent, .eof]) : rest.length < bs.length := by
  cases h with
  | number hbs hstarts hspan =>
    have hpos : 0 < text.length := by
      have hpos := Scan.numberSpan_length_pos hstarts
      rwa [hspan] at hpos
    rw [hbs, List.length_append]
    omega
  | word hbs hkind hrun hne =>
    have hpos := List.length_pos_of_ne_nil hne
    have hle := hrun.length_le
    omega
  | string hbs =>
    rw [hbs, List.length_append, List.length_cons, List.length_cons]
    omega
  | operator hbs hmem =>
    have hpos : ∀ k ∈ Kind.operators, 0 < k.spelling.length := by decide
    have hpos := hpos k hmem
    rw [hbs, List.length_append]
    omega
  | newline | eof => simp at hk
  | margin hmargin => rcases hmargin with rfl | rfl <;> simp at hk

end Token

namespace Lexer

open Token (Skips Stands)

def Jumps (s t : Lexer) : Prop :=
  ∃ read, s.rest = read ++ t.rest ∧ Skips s.rest t.rest ∧ t.position = s.position.after read

theorem Jumps.trans {s t u : Lexer} (h : s.Jumps t) (h' : t.Jumps u) : s.Jumps u := by
  obtain ⟨read, hs, hskips, hposition⟩ := h
  obtain ⟨read', ht, hskips', hposition'⟩ := h'
  refine ⟨read ++ read', ?_, hskips.trans hskips', ?_⟩
  · rw [hs, ht, List.append_assoc]
  · rw [hposition', hposition, Position.after_append]

/-- What one step does: it reads a token, or the end of a line that is a token, or passes over what
stands between tokens, possibly to a change of the indentation. -/
inductive Passes (s : Lexer) : List Token → Lexer → Prop
  | token {next : Lexer} {k : Kind} {text read : Bytes} (hs : s.rest = read ++ next.rest)
      (hstands : Stands k text s.rest next.rest)
      (hline : next.line = s.line + read.count (ascii '\n'))
      (hcolumn : next.column + (s.token k text).surplus =
        read.foldl Position.columnStep s.column)
      (hsurplus : (s.token k text).surplus = 0 ∨ ascii '\n' ∉ read) :
      Passes s [s.token k text] next
  | newline {next : Lexer} (hs : ∃ r, s.rest = ascii '\n' :: r) (h : s.Jumps next) :
      Passes s [s.token .newline []] next
  | skip {next : Lexer} {ts : List Token} (h : s.Jumps next)
      (hts : ∀ t ∈ ts, t.surplus = 0 ∧ t.position = next.position ∧
        Stands t.kind t.text next.rest next.rest) : Passes s ts next

section Steps

variable {s t next : Lexer} {b : UInt8} {r u : Bytes} {ts : List Token}

theorem surplus_token {k : Kind} (hk : k ≠ .identifier) (text : Bytes) :
    (s.token k text).surplus = 0 := if_neg hk

theorem passes_line {k : Kind} {text : Bytes} (hk : k ≠ .identifier) (hs : s.rest = u ++ next.rest)
    (hu : ascii '\n' ∉ u) (hstands : Stands k text s.rest next.rest)
    (hposition : next.position = ⟨s.line, s.column + u.length⟩) :
    s.Passes [s.token k text] next := by
  obtain ⟨hline, hcolumn⟩ := Position.mk.inj hposition
  refine .token hs hstands ?_ ?_ (.inr hu)
  · rw [hline, List.count_eq_zero_of_not_mem hu, Nat.add_zero]
  · rw [hcolumn, Position.foldl_columnStep_of_line hu, surplus_token hk, Nat.add_zero]

theorem passes_number (hs : s.rest = b :: r) (hb : b ≠ ascii '\n')
    (hstarts : startsNumber s.rest = true) (h : s.number = .more ts next) :
    s.Passes ts next := by
  have hline : ascii '\n' ∉ s.rest.take (numberSpan s.rest).length := by
    rw [hs]
    exact newline_notMem_number hb
  have hlength : (s.rest.take (numberSpan s.rest).length).length =
      (numberSpan s.rest).length :=
    List.length_take_of_le (numberSpan_length_le s.rest)
  have hsplit := List.take_append_drop (numberSpan s.rest).length s.rest
  unfold number at h
  dsimp only at h
  split at h
  · cases h
  rename_i hcomplete
  split at h
  · cases h
  rename_i hrest
  obtain ⟨rfl, rfl⟩ := Step.more.inj h
  refine passes_line (by decide) hsplit.symm hline ?_ ?_
  · refine .number hsplit.symm hstarts ?_ (Bool.eq_false_iff.mpr hrest)
    rw [hlength]
    cases hspan : numberSpan s.rest
    simpa [hspan] using hcomplete
  · rw [hlength]
    rfl

theorem passes_word (hstarts : startsName s.rest = true) (h : s.word = .more ts next) :
    s.Passes ts next := by
  obtain ⟨u, hu, hpieces, -⟩ := nameSpan_eq (Eq.refl (nameSpan s.rest))
  have hrun := Token.nameRun_of_nameSpan (Eq.refl (nameSpan s.rest))
  have hlt := nameSpan_length_lt hstarts
  have hchars := hrun.length_le
  have hlength := congrArg List.length hu
  rw [List.length_append] at hlength
  have htext : s.rest.take (s.rest.length - (nameSpan s.rest).2.length) = u := by
    rw [hlength, Nat.add_sub_cancel]
    nth_rewrite 1 [hu]
    exact List.take_left
  have hline : ascii '\n' ∉ u := by
    have hspan : nameSpan (u ++ (nameSpan s.rest).2) =
        ((nameSpan s.rest).1, (nameSpan s.rest).2) := by rw [← hu]
    exact newline_notMem_name hspan
  have hsurplus := Token.surplus_word s.position hpieces (by omega)
  unfold word at h
  dsimp only at h
  rw [htext] at h
  obtain ⟨rfl, rfl⟩ := Step.more.inj h
  refine .token hu ?_ ?_ ?_ (.inr hline)
  · exact .word hu (Token.wordKind_cases u) hrun (hrun.ne_nil hlt)
      fun cs' rest' hrun' => Token.length_nameSpan_le hrun'
  · rw [List.count_eq_zero_of_not_mem hline, Nat.add_zero]
  · rw [Position.foldl_columnStep_of_line hline, ← hsurplus, ← Nat.add_assoc]
    rfl

theorem passes_string (hs : s.rest = b :: r) (hb : b = ascii '"' ∨ b = 0x27)
    (h : s.string b = .more ts next) : s.Passes ts next := by
  have hline : ascii '\n' ∉ [b] := by
    rcases hb with rfl | rfl <;> decide
  unfold string at h
  split at h
  · rename_i value rest stop heq
    rw [hs, List.drop_one, List.tail_cons] at heq
    obtain ⟨written, rfl, hspells, rfl⟩ := spells_of_literal heq
    obtain ⟨rfl, rfl⟩ := Step.more.inj h
    have hread : s.rest = (b :: (written ++ [b])) ++ rest := by simp [hs]
    have hposition : (s.advance 1).position.after (written ++ [b]) =
        s.position.after ([b] ++ (written ++ [b])) :=
      (Position.after_line_append hline s.position (written ++ [b])).symm
    have hsurplus : (s.token .string value).surplus = 0 := surplus_token (by decide) value
    refine .token hread ?_ ?_ ?_ (.inl hsurplus)
    · exact .string hs hb hspells
    · exact congrArg Position.line hposition
    · rw [hsurplus]
      exact congrArg Position.column hposition
  · cases h

theorem passes_operator (h : s.operator = .more ts next) : s.Passes ts next := by
  have hspelling : ∀ k ∈ Kind.operators, k ≠ .identifier ∧ ascii '\n' ∉ k.spelling := by decide
  unfold operator at h
  split at h
  · cases h
  · rename_i k hk
    have hmem : k ∈ Kind.operators := List.mem_of_find?_eq_some hk
    obtain ⟨hident, hline⟩ := hspelling k hmem
    obtain ⟨rest, hrest⟩ := spelling_isPrefix hk
    have hdrop : s.rest.drop k.spelling.length = rest := by rw [← hrest, List.drop_left]
    obtain ⟨rfl, rfl⟩ := Step.more.inj h
    have hrest : s.rest = k.spelling ++ s.rest.drop k.spelling.length := by rw [hdrop, hrest]
    exact passes_line hident hrest hline
      (.operator hrest hmem fun l hl hfront => Token.length_spelling_le hk hl hfront) rfl

theorem jumps_self : s.Jumps s := ⟨[], rfl, .refl _, rfl⟩

theorem jumps_advance {n : Nat} (hn : n ≤ s.rest.length) (hline : ascii '\n' ∉ s.rest.take n)
    (hskips : Skips s.rest (s.rest.drop n)) : s.Jumps (s.advance n) := by
  refine ⟨s.rest.take n, (List.take_append_drop n s.rest).symm, hskips, ?_⟩
  rw [Position.after_of_line hline, List.length_take_of_le hn]
  rfl

theorem jumps_nextLine (hs : s.rest = u ++ ascii '\n' :: r) (hu : ascii '\n' ∉ u)
    (hskips : Skips s.rest r) : s.Jumps (s.nextLine (u.length + 1)) := by
  have hdrop : (s.nextLine (u.length + 1)).rest = r := by
    rw [nextLine, hs, ← List.drop_drop, List.drop_left, List.drop_one, List.tail_cons]
  refine ⟨u ++ [ascii '\n'], ?_, hdrop ▸ hskips, (Position.after_of_newline hu s.position).symm⟩
  rw [hdrop, hs, List.append_assoc, List.singleton_append]

theorem jumps_newline (hs : s.rest = ascii '\n' :: r) : s.Jumps (s.nextLine 1) := by
  refine jumps_nextLine (u := []) hs (by simp) ?_
  rw [hs]
  exact .blank (by decide) (.refl _)

theorem takeWhile_split {p : UInt8 → Bool} (bs : Bytes) :
    bs.takeWhile p ++ bs.drop (bs.takeWhile p).length = bs :=
  List.prefix_iff_eq_append.mp (List.takeWhile_prefix p)

theorem jumps_comment (hs : s.rest = ascii '#' :: r) : s.Jumps s.skipComment := by
  have hline (bs : Bytes) : ascii '\n' ∉ bs.takeWhile isCommentByte := fun hmem =>
    absurd (List.mem_takeWhile_imp hmem) (by decide)
  refine jumps_advance (List.takeWhile_sublist _).length_le ?_ ?_
  · rw [← List.prefix_iff_eq_take.mp (List.takeWhile_prefix _)]
    exact hline s.rest
  · have htake : s.rest.takeWhile isCommentByte =
        ascii '#' :: r.takeWhile isCommentByte := by
      rw [hs, List.takeWhile_cons_of_pos (by decide)]
    have hskips := Skips.comment (hline r) (drop_comment s.rest) (.refl _)
    rw [← htake, takeWhile_split] at hskips
    exact hskips

theorem jumps_indentation :
    s.Jumps (s.advance (s.rest.takeWhile isIndentation).length) := by
  refine jumps_advance (List.takeWhile_sublist _).length_le ?_ ?_
  · rw [← List.prefix_iff_eq_take.mp (List.takeWhile_prefix _)]
    exact fun hmem => absurd (List.mem_takeWhile_imp hmem) (by decide)
  · have hskips := Token.skips_blanks (u := s.rest.takeWhile isIndentation)
      (fun b hb => List.mem_takeWhile_imp hb)
      (.refl (s.rest.drop (s.rest.takeWhile isIndentation).length))
    rw [takeWhile_split] at hskips
    exact hskips

theorem passes_newline (hs : s.rest = ascii '\n' :: r) (h : s.newline = .more ts next) :
    s.Passes ts next := by
  unfold newline at h
  dsimp only at h
  split at h
  · obtain ⟨rfl, rfl⟩ := Step.more.inj h
    exact .newline ⟨r, hs⟩ (jumps_newline hs)
  · obtain ⟨rfl, rfl⟩ := Step.more.inj h
    exact .skip (jumps_newline hs) nofun

theorem ne_newline_of_startsToken (h : startsToken (b :: r) = true) : b ≠ ascii '\n' := by
  rintro rfl
  simp [startsToken] at h

theorem passes_lexeme (hs : s.rest = b :: r) (h : s.lexeme b = .more ts next) :
    s.Passes ts next := by
  rcases lexeme_cases b r with rfl | rfl | hb | ⟨rfl, r', rfl⟩ | ht
  · rw [lexeme_newline] at h
    exact passes_newline hs h
  · rw [lexeme_comment hs] at h
    obtain ⟨rfl, rfl⟩ := Step.more.inj h
    exact .skip (jumps_comment hs) nofun
  · rw [lexeme_blank hb] at h
    obtain ⟨rfl, rfl⟩ := Step.more.inj h
    simp only [isBlank, Bool.or_eq_true, beq_iff_eq, or_assoc] at hb
    refine .skip (jumps_advance (by simp [hs]) ?_ ?_) nofun
    · rw [hs, List.take_succ_cons, List.take_zero]
      rcases hb with rfl | rfl | rfl <;> decide
    · rw [hs]
      refine .blank ?_ (.refl _)
      rcases hb with rfl | rfl | rfl <;> simp
  · rw [lexeme_continuation hs] at h
    obtain ⟨rfl, rfl⟩ := Step.more.inj h
    refine .skip (jumps_nextLine (u := [ascii '\\']) hs (by decide) ?_) nofun
    rw [hs]
    exact .continuation (.refl _)
  · have hb := ne_newline_of_startsToken ht
    rw [← hs] at ht
    rw [lexeme_of_startsToken hs ht] at h
    split at h
    · rename_i hnumber
      exact passes_number hs hb hnumber h
    split at h
    · rename_i hname
      exact passes_word hname h
    split at h
    · rename_i hquote
      exact passes_string hs (by simpa using hquote) h
    · exact passes_operator h

theorem jumps_endBlankLine (hs : s.rest = [] ∨ ∃ r, s.rest = ascii '\n' :: r)
    (h : s.endBlankLine = .more ts next) : ts = [] ∧ s.Jumps next := by
  obtain ⟨rfl, rfl⟩ := Step.more.inj h
  refine ⟨rfl, ?_⟩
  rcases hs with hs | ⟨r, hs⟩
  · rw [hs]
    exact jumps_self
  · rw [hs]
    exact jumps_newline hs

theorem passes_indent {width : Nat} (hs : s.rest = b :: r)
    (hb : isIndentation b = false ∧ b ≠ ascii '\n' ∧ b ≠ ascii '#')
    (h : s.indent width = .more ts next) : s.Jumps next ∧
      ∀ t ∈ ts, t.surplus = 0 ∧ t.position = next.position ∧
        Stands t.kind t.text next.rest next.rest := by
  have hmargin {k : Kind} (hk : k = .indent ∨ k = .dedent) : Stands k [] s.rest s.rest := by
    refine .margin hk fun c r' hc => ?_
    rw [hs] at hc
    exact (List.cons.inj hc).1 ▸ hb
  unfold indent at h
  split at h
  · obtain ⟨rfl, rfl⟩ := Step.more.inj h
    refine ⟨jumps_self, fun t ht => ?_⟩
    rw [List.mem_singleton.mp ht]
    exact ⟨surplus_token (by decide) _, rfl, hmargin (.inl rfl)⟩
  · dsimp only at h
    split at h
    · obtain ⟨rfl, rfl⟩ := Step.more.inj h
      refine ⟨jumps_self, fun t ht => ?_⟩
      obtain ⟨l, -, rfl⟩ := List.mem_map.mp ht
      exact ⟨surplus_token (by decide) _, rfl, hmargin (.inr rfl)⟩
    · cases h

theorem passes_layout (h : s.layout = .more ts next) : s.Passes ts next := by
  have hblanks := s.jumps_indentation
  have hhead {c : UInt8} {r' : Bytes}
      (hr : (s.advance (s.rest.takeWhile isIndentation).length).rest = c :: r') :
      isIndentation c = false := head_drop_takeWhile hr
  unfold layout at h
  dsimp only at h
  generalize s.advance (s.rest.takeWhile isIndentation).length = t at h hblanks hhead
  have hblank {t' : Lexer} (ht : t.Jumps t') (hr : t'.rest = [] ∨ ∃ r, t'.rest = ascii '\n' :: r)
      (h' : t'.endBlankLine = .more ts next) : s.Passes ts next := by
    obtain ⟨rfl, hjumps⟩ := jumps_endBlankLine hr h'
    exact .skip ((hblanks.trans ht).trans hjumps) nofun
  split at h
  · rename_i hr
    exact hblank jumps_self (.inl hr) h
  · rename_i y r' hr
    split at h
    · rename_i hy
      exact hblank jumps_self (.inr ⟨r', beq_iff_eq.mp hy ▸ hr⟩) h
    rename_i hnewline
    split at h
    · rename_i hy
      exact hblank (jumps_comment (beq_iff_eq.mp hy ▸ hr)) (drop_comment t.rest) h
    rename_i hhash
    obtain ⟨hjumps, hts⟩ :=
      passes_indent hr ⟨hhead hr, by simpa using hnewline, by simpa using hhash⟩ h
    exact .skip (hblanks.trans hjumps) hts

theorem passes_step (hs : s.rest = b :: r) (h : s.step b = .more ts next) : s.Passes ts next := by
  unfold step at h
  split at h
  · exact passes_layout h
  · exact passes_lexeme hs h

theorem rest_of_continuesLine {bs : Bytes} (h : continuesLine bs = true) :
    ∃ r, bs = [ascii '\\'] ++ ascii '\n' :: r := by
  unfold continuesLine at h
  split at h
  · rename_i x y r
    rw [Bool.and_eq_true, beq_iff_eq, beq_iff_eq] at h
    exact ⟨r, by rw [h.1, h.2]; rfl⟩
  · cases h

end Steps

section Reads

variable {s t next stop : Lexer} {b : UInt8} {r : Bytes} {ts : List Token} {e : SyntaxError}

/-- `t` stands further on in the text of `s`, inside of it. -/
def Reads (s t : Lexer) : Prop := s.position.Reaches s.rest t.position t.rest

theorem reads_self : s.Reads s := Position.reaches_self

theorem Reads.trans {u : Lexer} (h : s.Reads t) (h' : t.Reads u) : s.Reads u :=
  Position.Reaches.trans h h'

theorem Jumps.reads (h : s.Jumps t) : s.Reads t := by
  obtain ⟨read, hs, -, hposition⟩ := h
  exact ⟨read, hs, congrArg Position.line hposition, (congrArg Position.column hposition).le⟩

theorem Passes.reads (h : s.Passes ts next) : s.Reads next := by
  cases h with
  | @token _ k text read hs hstands hline hcolumn =>
    exact ⟨read, hs, hline, hcolumn ▸ Nat.le_add_right _ _⟩
  | newline hs h => exact h.reads
  | skip h hts => exact h.reads

theorem reads_of_more (hs : s.rest = b :: r) (h : s.step b = .more ts next) : s.Reads next :=
  (passes_step hs h).reads

theorem reads_advance {n : Nat} (hn : n ≤ s.rest.length) (hline : ascii '\n' ∉ s.rest.take n) :
    s.Reads (s.advance n) := by
  have hlength : n ≤ (s.rest.take n).length := by rw [List.length_take]; omega
  have h : s.position.Reaches (s.rest.take n ++ s.rest.drop n) (s.advance n).position
      (s.rest.drop n) := Position.reaches_of_line hline hlength
  rw [List.take_append_drop] at h
  exact h

theorem reads_number (hs : s.rest = b :: r) (hb : b ≠ ascii '\n') (h : s.number = .fail e stop) :
    s.Reads stop := by
  have hspan : s.Reads (s.advance (numberSpan s.rest).length) := by
    refine reads_advance (numberSpan_length_le _) ?_
    rw [hs]
    exact newline_notMem_number hb
  unfold number at h
  dsimp only at h
  split at h
  · obtain ⟨-, rfl⟩ := Step.fail.inj h
    exact hspan
  split at h
  · obtain ⟨-, rfl⟩ := Step.fail.inj h
    exact hspan
  · cases h

theorem reads_string (hs : s.rest = b :: r) (hb : b ≠ ascii '\n') {mark : UInt8}
    (h : s.string mark = .fail e stop) : s.Reads stop := by
  have hmark : s.Reads (s.advance 1) := by
    refine reads_advance (by simp [hs]) ?_
    simpa [hs] using hb.symm
  have hliteral := literal_reaches mark (s.advance 1).position (s.rest.drop 1)
  unfold string at h
  split at h
  · cases h
  · rename_i fault rest stop heq
    rw [heq] at hliteral
    obtain ⟨-, rfl⟩ := Step.fail.inj h
    exact Position.Reaches.trans hmark hliteral

theorem reads_operator (h : s.operator = .fail e stop) : s.Reads stop := by
  unfold operator at h
  split at h
  · obtain ⟨-, rfl⟩ := Step.fail.inj h
    exact reads_self
  · cases h

theorem reads_lexeme (hs : s.rest = b :: r) (h : s.lexeme b = .fail e stop) : s.Reads stop := by
  rcases lexeme_cases b r with rfl | rfl | hb | ⟨rfl, r', rfl⟩ | ht
  · rw [lexeme_newline, newline] at h
    dsimp only at h
    split at h <;> cases h
  · rw [lexeme_comment hs] at h
    cases h
  · rw [lexeme_blank hb] at h
    cases h
  · rw [lexeme_continuation hs] at h
    cases h
  · have hb := ne_newline_of_startsToken ht
    rw [← hs] at ht
    rw [lexeme_of_startsToken hs ht] at h
    split at h
    · exact reads_number hs hb h
    split at h
    · cases h
    split at h
    · exact reads_string hs hb h
    · exact reads_operator h

theorem reads_layout (h : s.layout = .fail e stop) : s.Reads stop := by
  have hblanks := s.jumps_indentation.reads
  unfold layout at h
  dsimp only at h
  generalize s.advance (s.rest.takeWhile isIndentation).length = t at h hblanks
  split at h
  · cases h
  split at h
  · cases h
  split at h
  · cases h
  unfold indent at h
  split at h
  · cases h
  · dsimp only at h
    split at h
    · cases h
    · obtain ⟨-, rfl⟩ := Step.fail.inj h
      exact hblanks

theorem reads_of_fail (hs : s.rest = b :: r) (h : s.step b = .fail e stop) : s.Reads stop := by
  unfold step at h
  split at h
  · exact reads_layout h
  · exact reads_lexeme hs h

end Reads

end Lexer

end BoardPython
