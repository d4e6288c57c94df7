import BoardPython.Proofs.VacantLines

/-! A newline and a space inside brackets. The newline leaves a mark that the lexer acts on when the
brackets are closed again, so the two give the same tokens exactly if that goes unnoticed. -/
namespace BoardPython

open Token (Kind)
open Token.Scan
open Bytes (ascii)

/-- Whether the text behind a closing bracket gives the same tokens when it is taken for the start of
a line: the blanks in front are as wide as the current indentation and have no form feed among them,
or the line has no token left and neither have those after it. -/
def readsOn (level : Nat) (text : Bytes) : Bool :=
  let blanks := text.takeWhile isIndentation
  !blanks.contains 0x0C &&
    match text.drop blanks.length with
    | [] => true
    | b :: rest =>
      if b == ascii '\n' then vacant level (.margin 0) rest
      else if b == ascii '#' then vacant level .comment rest
      else indentWidth blanks == level

namespace Lexer

def lineBegun (s : Lexer) : Lexer := { s with lineStart := true }

/-- Where the brackets that are open are all closed, if the run gets there. -/
def groupEnd (s : Lexer) : Option Lexer :=
  if s.depth = 0 then some s
  else
    match _hs : s.rest with
    | [] => none
    | b :: _ =>
      match _h : s.step b with
      | .more _ next => next.groupEnd
      | .fail .. => none
termination_by s.work
decreasing_by exact step_work _hs _h

/-- The mark that a newline inside brackets leaves does no harm: the brackets are never closed, or
another newline leaves it anyway, or what follows them reads on all the same. -/
def NewlineUnnoticed (s : Lexer) : Prop :=
  ∀ t, s.groupEnd = some t → t.lineStart = true ∨ readsOn t.level t.rest = true

variable {s next t : Lexer} {r : Bytes} {ts : List Token} {b : UInt8}

theorem groupEnd_of_closed (h : s.depth = 0) : s.groupEnd = some s := by
  rw [groupEnd, if_pos h]

theorem groupEnd_of_nil (hd : s.depth ≠ 0) (hs : s.rest = []) : s.groupEnd = none := by
  rw [groupEnd, if_neg hd]
  split
  · rfl
  · rename_i h
    rw [hs] at h
    cases h

theorem groupEnd_of_more (hd : s.depth ≠ 0) (hs : s.rest = b :: r) (h : s.step b = .more ts next) :
    s.groupEnd = next.groupEnd := by
  rw [groupEnd, if_neg hd]
  split
  · rename_i hn
    rw [hs] at hn
    cases hn
  · rename_i b' r' hb
    rw [hs] at hb
    obtain ⟨rfl, rfl⟩ := List.cons.inj hb
    split
    · rename_i hm
      rw [h] at hm
      rw [(Step.more.inj hm).2]
    · rename_i hf
      rw [h] at hf
      cases hf

theorem finds_of_startsToken (hs : s.rest = b :: r) (ht : startsToken s.rest = true)
    (h : s.lexeme b = .more ts next) : ∃ t, ts = [t] ∧ s.Finds t next := by
  rw [lexeme_of_startsToken hs ht] at h
  split at h
  · rename_i hstart
    exact finds_number hstart h
  split at h
  · rename_i hstart
    exact finds_word hstart h
  split at h
  · exact finds_string h
  · exact finds_operator h

theorem yield_head (ho : s.OpenLine) (hs : s.lineStart = false) {xs : List (Kind × Bytes)}
    (h : s.yield = some xs) :
    ∃ x ys, xs = x :: ys ∧ x.1 ≠ .indent ∧ x.1 ≠ .dedent := by
  have hwritten : ∀ k ∈ Kind.written, k ≠ .indent ∧ k ≠ .dedent := by decide
  induction hw : s.work using Nat.strongRecOn generalizing s with
  | ind n ih =>
    cases hr : s.rest with
    | nil =>
      rw [yield_of_nil hr, finish_contents, if_pos ho.last, Option.some.injEq] at h
      exact ⟨_, _, h.symm, by decide, by decide⟩
    | cons b r =>
      have hstep : s.step b = s.lexeme b := step_eq_lexeme (by simp [hs]) b
      have silent {next : Lexer} (hm : s.lexeme b = .more [] next) (ho' : next.OpenLine)
          (hs' : next.lineStart = false) :=
        ih next.work (hw ▸ step_work hr (hstep.trans hm)) ho' hs'
          ((yield_of_silent hr (hstep.trans hm)).symm.trans h) rfl
      rcases lexeme_cases b r with rfl | rfl | hb | ⟨rfl, r', rfl⟩ | ht
      · rw [lexeme_newline, newline_of_ends ⟨ho.depth, ho.last⟩] at hstep
        rw [yield_of_more hr hstep] at h
        obtain ⟨ys, -, rfl⟩ := Option.map_eq_some_iff.mp h
        exact ⟨_, ys, rfl, by simp [token, Token.content], by simp [token, Token.content]⟩
      · exact silent (lexeme_comment hr) ⟨ho.depth, ho.last⟩ hs
      · exact silent (lexeme_blank hb s) ⟨ho.depth, ho.last⟩ hs
      · exact silent (lexeme_continuation hr) ⟨ho.depth, ho.last⟩ hs
      · cases hm : s.lexeme b with
        | more ts next =>
          obtain ⟨t, rfl, ht⟩ := finds_of_startsToken hr (hr ▸ ht) hm
          rw [yield_of_more hr (hstep.trans hm)] at h
          obtain ⟨ys, -, rfl⟩ := Option.map_eq_some_iff.mp h
          exact ⟨_, ys, rfl, hwritten _ ht.kind⟩
        | fail e stop =>
          rw [yield_of_fail hr (hstep.trans hm)] at h
          cases h

theorem yield_advance_blanks {blanks : Bytes} (hs : s.lineStart = false) (hr : s.rest = blanks ++ r)
    (hb : ∀ b ∈ blanks, isBlank b = true) :
    s.yield = (s.advance blanks.length).yield := by
  induction blanks generalizing s with
  | nil => rfl
  | cons b blanks ih =>
    have hstep : s.step b = .more [] (s.advance 1) :=
      (step_eq_lexeme (by simp [hs]) b).trans (lexeme_blank (hb b (by simp)) s)
    have hnext : (s.advance 1).rest = blanks ++ r := by simp [advance, hr]
    rw [yield_of_silent hr hstep, ih (s := s.advance 1) hs hnext fun c hc => hb c (by simp [hc])]
    simp only [advance, List.drop_drop, List.length_cons, Nat.add_comm, Nat.add_left_comm]

theorem lexeme_formFeed (hs : s.rest = 0x0C :: r) :
    s.lexeme 0x0C = .fail ⟨s.position, .strayCharacter (Text.Utf8.first s.rest)⟩ s := by
  have hstart : startsToken s.rest = true := by
    rw [hs]
    cases r <;> rfl
  have hn : startsNumber s.rest = false := by
    rw [hs]
    cases r <;> rfl
  have hw : startsName s.rest = false := by
    have hl : ('\x0c' == '_' || Text.isLetter '\x0c') = false := by decide
    have hd : Text.Utf8.decode? (0x0C :: r) = some ('\x0c', r) := by
      simp only [Text.Utf8.decode?, if_pos (show (0x0C : UInt8).toNat < 0x80 by decide)]
      rfl
    rw [hs, startsName, hd]
    exact hl
  have ho : operator? s.rest = none := by
    have hk : ∀ k ∈ Kind.operators, [0x0C].isPrefixOf k.spelling = false ∧ k.spelling ≠ [] := by
      decide
    rw [hs, operator?, List.find?_eq_none]
    intro k hmem
    cases hsp : k.spelling with
    | nil => exact absurd hsp (hk k hmem).2
    | cons c cs =>
      have := (hk k hmem).1
      simp only [hsp, List.isPrefixOf, Bool.and_true] at this
      simp [Bytes.startsWith, List.isPrefixOf, BEq.comm (a := c), this]
  rw [lexeme_of_startsToken hs hstart, hn, hw, operator, ho]
  rfl

theorem yield_formFeed {blanks : Bytes} (hs : s.lineStart = false) (hr : s.rest = blanks ++ r)
    (hb : ∀ b ∈ blanks, isIndentation b = true)
    (hf : 0x0C ∈ blanks) : s.yield = none := by
  induction blanks generalizing s with
  | nil => cases hf
  | cons b blanks ih =>
    have hstep : s.step b = s.lexeme b := step_eq_lexeme (by simp [hs]) b
    by_cases h : b = 0x0C
    · subst h
      exact yield_of_fail hr (hstep.trans (lexeme_formFeed hr))
    · have hblank : isBlank b = true := by
        have hi := hb b (by simp)
        rwa [isIndentation, beq_eq_false_iff_ne.mpr h, Bool.or_false] at hi
      have hnext : (s.advance 1).rest = blanks ++ r := by simp [advance, hr]
      have hmem : 0x0C ∈ blanks := (List.mem_cons.mp hf).resolve_left fun he => h he.symm
      rw [yield_of_silent hr (hstep.trans (lexeme_blank hblank s))]
      exact ih (s := s.advance 1) hs hnext (fun c hc => hb c (by simp [hc])) hmem

/-- A line ends at `t`, which the lexer at the start of a line passes over without a token. -/
theorem agreeIff_lineEnd (ho : t.OpenLine) (hs : t.lineStart = false)
    (ht : t.rest = [] ∨ ∃ r, t.rest = ascii '\n' :: r)
    (h : t.lineBegun.endBlankLine = .more [] next) :
    AgreeIff next.yield t.yield (vacant t.level .comment t.rest = true) := by
  obtain ⟨-, rfl⟩ := Step.more.inj h
  rcases ht with hr | ⟨r, hr⟩
  · have hr' : t.lineBegun.rest = [] := hr
    rw [if_pos (by rw [hr']; rfl), hr]
    refine .of_eq ?_ rfl
    rw [yield_of_nil hr, yield_of_nil hr']
    rfl
  · have hr' : t.lineBegun.rest = ascii '\n' :: r := hr
    have hstep : t.step (ascii '\n') = t.newline :=
      (step_eq_lexeme (by simp [hs]) _).trans (lexeme_newline t)
    rw [newline_of_ends ⟨ho.depth, ho.last⟩] at hstep
    have hv : vacant t.level .comment t.rest = vacant t.level (.margin 0) (t.rest.drop 1) := by
      rw [hr, vacant]
      simp
    rw [if_neg (by simp [hr']), yield_of_more hr hstep, hv]
    exact agreeIff_vacant (s := t.lineBegun.nextLine 1) ⟨ho.depth, ho.last⟩ rfl

/-- A line that starts with a token at another level cannot be taken for the middle of one. -/
theorem agreeIff_of_indent {width : Nat} (hr : s.rest = b :: r) (ho : t.OpenLine)
    (hs : t.lineStart = false) (h : s.step b = t.lineBegun.indent width) :
    AgreeIff s.yield t.yield ((width == t.level) = true) := by
  by_cases hw : width = t.level
  · rw [indent_same (s := t.lineBegun) hw] at h
    refine .of_eq ?_ (by simp [hw])
    rw [yield_of_silent hr h]
    congr 1
    rw [← hs]
    rfl
  · refine .of_ne (by simp [hw]) fun v hx hy => ?_
    cases hi : t.lineBegun.indent width with
    | fail e stop =>
      rw [yield_of_fail hr (h.trans hi)] at hx
      cases hx
    | more ts next =>
      obtain ⟨x, us, rfl, hk⟩ := indent_tokens (s := t.lineBegun) hw hi
      obtain ⟨y, ys, rfl, hni, hnd⟩ := yield_head ho hs hy
      rw [yield_of_more hr (h.trans hi)] at hx
      obtain ⟨zs, -, hz⟩ := Option.map_eq_some_iff.mp hx
      have hxy : x.content = y := (List.cons.inj hz).1
      rw [← hxy] at hni hnd
      exact hk.elim hni hnd

/-- Behind a closing bracket: to be taken for the start of a line changes nothing exactly if the text
reads on. -/
theorem agreeIff_readsOn (ho : s.OpenLine) (hs : s.lineStart = false) :
    AgreeIff s.lineBegun.yield s.yield (readsOn s.level s.rest = true) := by
  cases hr : s.rest with
  | nil =>
    refine .of_eq ?_ rfl
    rw [yield_of_nil hr, yield_of_nil (s := s.lineBegun) hr]
    rfl
  | cons b r =>
    have hstep : s.lineBegun.step b = s.lineBegun.layout :=
      step_eq_layout (by simp [lineBegun, ho.depth]) b
    rw [← hr, readsOn]
    have hall : ∀ b ∈ s.rest.takeWhile isIndentation,
        isIndentation b = true := fun b hb => List.mem_takeWhile_imp hb
    have hsplit : s.rest = s.rest.takeWhile isIndentation ++
        s.rest.drop (s.rest.takeWhile isIndentation).length :=
      (List.prefix_iff_eq_append.mp (List.takeWhile_prefix _)).symm
    generalize hblanks : s.rest.takeWhile isIndentation = blanks at hall hsplit
    by_cases hf : 0x0C ∈ blanks
    · refine .of_ne (by simp [hf]) fun v _ hy => ?_
      rw [yield_formFeed hs hsplit hall hf] at hy
      cases hy
    have hblank : ∀ b ∈ blanks, isBlank b = true := by
      intro b hb
      have hi := hall b hb
      have hne : b ≠ 0x0C := fun he => hf (he ▸ hb)
      rwa [isIndentation, beq_eq_false_iff_ne.mpr hne, Bool.or_false] at hi
    rw [yield_advance_blanks hs hsplit hblank, show blanks.contains 0x0C = false by simpa using hf]
    have hrest : s.rest.drop blanks.length = (s.advance blanks.length).rest := rfl
    have hot : (s.advance blanks.length).OpenLine := ⟨ho.depth, ho.last⟩
    have hst : (s.advance blanks.length).lineStart = false := hs
    have ht : s.lineBegun.advance blanks.length = (s.advance blanks.length).lineBegun := rfl
    have hlevel : s.level = (s.advance blanks.length).level := rfl
    simp only [hlevel, hrest, Bool.not_false, Bool.true_and]
    generalize s.advance blanks.length = t at *
    cases hrt : t.rest with
    | nil =>
      have hlay := layout_of_nil (s := s.lineBegun) hblanks ht hrt
      rw [yield_of_silent (s := s.lineBegun) hr (hstep.trans hlay)]
      have := agreeIff_lineEnd hot hst (.inl hrt) rfl
      rwa [hrt] at this
    | cons y r' =>
      have hlay := layout_of_cons (s := s.lineBegun) hblanks ht hrt
      by_cases hnl : (y == ascii '\n') = true
      · rw [if_pos hnl] at hlay
        rw [beq_iff_eq.mp hnl] at hrt
        rw [yield_of_silent (s := s.lineBegun) hr (hstep.trans hlay)]
        have := agreeIff_lineEnd hot hst (.inr ⟨r', hrt⟩) rfl
        rw [hrt, vacant] at this
        simpa [hnl] using this
      rw [if_neg hnl] at hlay
      by_cases hh : (y == ascii '#') = true
      · rw [if_pos hh] at hlay
        have hcomment : t.step y = .more [] t.skipComment := by
          rw [step_eq_lexeme (by simp [hst]), beq_iff_eq.mp hh]
          exact lexeme_comment (beq_iff_eq.mp hh ▸ hrt)
        have hv : vacant t.level .comment r' = vacant t.level .comment t.skipComment.rest := by
          rw [skipComment, advance, ← vacant_comment, hrt, vacant, if_neg (by simpa using hnl)]
        rw [yield_of_silent (s := s.lineBegun) hr (hstep.trans hlay), yield_of_silent hrt hcomment]
        simp only [hnl, hh, Bool.false_eq_true, if_false, if_true]
        rw [hv]
        exact agreeIff_lineEnd (t := t.skipComment) ⟨hot.depth, hot.last⟩ hst (drop_comment t.rest) rfl
      · rw [if_neg hh] at hlay
        simp only [hnl, hh, Bool.false_eq_true, if_false]
        exact agreeIff_of_indent (s := s.lineBegun) hr hot hst (hstep.trans hlay)

def Step.lineBegun : Step → Step
  | .more ts next => .more ts next.lineBegun
  | .fail e stop => .fail e stop.lineBegun

theorem lexeme_lineBegun (s : Lexer) (b : UInt8) : s.lineBegun.lexeme b = (s.lexeme b).lineBegun
    := by
  have hnl : s.lineBegun.newline = s.newline.lineBegun := by
    simp only [newline, apply_ite Step.lineBegun]
    rfl
  have hn : s.lineBegun.number = s.number.lineBegun := by
    simp only [number, apply_ite Step.lineBegun]
    rfl
  have hq : s.lineBegun.string b = (s.string b).lineBegun := by
    unfold string
    rw [show (s.lineBegun.advance 1).position = (s.advance 1).position from rfl,
      show s.lineBegun.rest = s.rest from rfl]
    cases literal b (s.advance 1).position (s.rest.drop 1) <;> rfl
  have ho : s.lineBegun.operator = s.operator.lineBegun := by
    unfold operator
    rw [show s.lineBegun.rest = s.rest from rfl]
    cases operator? s.rest <;> rfl
  simp only [lexeme, apply_ite Step.lineBegun, hnl, hn, hq, ho]
  rfl

theorem lexeme_depth (h : s.lexeme b = .more ts next) :
    next.depth = s.depth ∨ (next.last.isSome ∧ next.last ≠ some .newline) := by
  have hoperators : ∀ k ∈ Kind.operators, k ≠ .newline := by decide
  cases does_lexeme h with
  | skip hdepth => exact .inl hdepth
  | read h =>
    rw [h.last]
    exact h.depth.imp_right fun hk => ⟨rfl, by simpa using hoperators _ hk⟩
  | _ => exact .inl rfl

/-- Inside brackets: the mark of a new line changes nothing exactly if it goes unnoticed. -/
theorem agreeIff_newlineUnnoticed (hd : s.depth ≠ 0) :
    AgreeIff s.lineBegun.yield s.yield s.NewlineUnnoticed := by
  induction hw : s.work using Nat.strongRecOn generalizing s with
  | ind n ih =>
    cases hr : s.rest with
    | nil =>
      refine .of_eq ?_ fun t ht => ?_
      · rw [yield_of_nil hr, yield_of_nil (s := s.lineBegun) hr]
        rfl
      · rw [groupEnd_of_nil hd hr] at ht
        cases ht
    | cons b r =>
      have hstep : s.step b = s.lexeme b := step_eq_lexeme (by simp [hd]) b
      have hstep' : s.lineBegun.step b = (s.lexeme b).lineBegun :=
        (step_eq_lexeme (by simp [lineBegun, hd]) b).trans (lexeme_lineBegun s b)
      cases hm : s.lexeme b with
      | fail e stop =>
        rw [hm] at hstep hstep'
        exact .of_none (yield_of_fail (s := s.lineBegun) hr hstep') (yield_of_fail hr hstep)
      | more ts next =>
        rw [hm] at hstep hstep'
        have hgroup := groupEnd_of_more hd hr hstep
        rw [yield_of_more hr hstep, yield_of_more (s := s.lineBegun) hr hstep', NewlineUnnoticed, hgroup]
        refine AgreeIff.map (List.append_right_injective _) ?_
        by_cases hclosed : next.depth = 0
        · -- The last bracket has just been closed.
          have ho : next.OpenLine :=
            ⟨hclosed, (lexeme_depth hm).resolve_left (by omega)⟩
          rw [groupEnd_of_closed hclosed]
          cases hl : next.lineStart with
          | true =>
            refine .of_eq (congrArg yield ?_) fun t ht => ?_
            · rw [lineBegun, ← hl]
            · rw [← Option.some.inj ht]
              exact .inl hl
          | false =>
            have := agreeIff_readsOn ho hl
            simpa [hl] using this
        · exact ih next.work (hw ▸ step_work hr hstep) hclosed rfl

theorem Visits.yield_eq (h : Visits s ts t) :
    s.yield = t.yield.map (ts.map Token.content ++ ·) := by
  induction h with
  | here s => simp
  | step hs h _ ih =>
    rw [yield_of_more hs h, ih, Option.map_map, List.map_append]
    simp [Function.comp_def]

end Lexer

/-- A newline inside brackets is like a space exactly if it goes unnoticed where the brackets are
closed, or if both texts are in error. -/
theorem tokenContents_newline_eq_space_iff {a b : Bytes} {ts us : List Token} {s t : Lexer}
    (hs : Lexer.Visits (.ofBytes (a ++ ascii '\n' :: b)) ts s) (hsr : s.rest = ascii '\n' :: b)
    (hd : 0 < s.depth) (ht : Lexer.Visits (.ofBytes (a ++ ascii ' ' :: b)) us t)
    (htr : t.rest = ascii ' ' :: b) :
    tokenContents (a ++ ascii '\n' :: b) = tokenContents (a ++ ascii ' ' :: b) ↔
      (t.advance 1).NewlineUnnoticed ∨
        tokenContents (a ++ ascii '\n' :: b) = none ∧
          tokenContents (a ++ ascii ' ' :: b) = none := by
  obtain ⟨rfl, rfl⟩ := Lexer.visits_of_gap (c := ascii '\n') (by decide) (by decide) rfl hs hsr ht htr
  rw [Lexer.tokenContents_eq_yield, Lexer.tokenContents_eq_yield, hs.yield_eq, ht.yield_eq]
  have hnl : s.step (ascii '\n') = .more [] { s.nextLine 1 with lineStart := true } := by
    rw [Lexer.step_eq_lexeme (by simp [Nat.ne_of_gt hd]), Lexer.lexeme_newline,
      Lexer.newline_of_not_ends (by omega)]
  have hsp : (s.withRest (ascii ' ' :: b)).step (ascii ' ') =
      .more [] ((s.withRest (ascii ' ' :: b)).advance 1) := by
    rw [Lexer.step_eq_lexeme (by simp [Lexer.withRest, Nat.ne_of_gt hd])]
    exact Lexer.lexeme_blank (by decide) _
  rw [Lexer.yield_of_silent hsr hnl, Lexer.yield_of_silent rfl hsp]
  have hbare : ({ s.nextLine 1 with lineStart := true } : Lexer).bare =
      ((s.withRest (ascii ' ' :: b)).advance 1).lineBegun.bare := by
    simp [Lexer.bare, Lexer.placed, Lexer.nextLine, Lexer.advance, Lexer.withRest, Lexer.lineBegun, hsr]
  rw [Lexer.yield_eq_of_bare_eq hbare]
  exact (Lexer.agreeIff_newlineUnnoticed (s := (s.withRest (ascii ' ' :: b)).advance 1)
    (Nat.ne_of_gt hd)).map (List.append_right_injective _)

/-- A call over two lines or on one, with more behind it. -/
def splitCall (gap : UInt8) : Bytes :=
  [ascii 'f', ascii '('] ++ gap :: [ascii ')', ascii '+', ascii '1', ascii '\n']

theorem splitCall_visits {gap : UInt8} (h : gap = ascii '\n' ∨ gap = ascii ' ') :
    Lexer.Visits (.ofBytes (splitCall gap))
      [⟨.identifier, [ascii 'f'], ⟨1, 1⟩⟩, ⟨.leftParen, [ascii '('], ⟨1, 2⟩⟩]
      ⟨(splitCall gap).drop 2, 1, 3, 1, [], false, some .leftParen⟩ := by
  have h0 : (Lexer.ofBytes (splitCall gap)).step (ascii 'f') =
      .more [] ⟨splitCall gap, 1, 1, 0, [], false, none⟩ := by
    rcases h with rfl | rfl <;> cbv
  have h1 : (⟨splitCall gap, 1, 1, 0, [], false, none⟩ : Lexer).step (ascii 'f') =
      .more [⟨.identifier, [ascii 'f'], ⟨1, 1⟩⟩]
        ⟨(splitCall gap).drop 1, 1, 2, 0, [], false, some .identifier⟩ := by
    rcases h with rfl | rfl <;> cbv
  have h2 : (⟨(splitCall gap).drop 1, 1, 2, 0, [], false, some .identifier⟩ : Lexer).step (ascii '(') =
      .more [⟨.leftParen, [ascii '('], ⟨1, 2⟩⟩]
        ⟨(splitCall gap).drop 2, 1, 3, 1, [], false, some .leftParen⟩ := by
    rcases h with rfl | rfl <;> cbv
  exact .step rfl h0 (.step rfl h1 (.step rfl h2 (.here _)))

theorem splitCall_newline_eq_space :
    tokenContents (splitCall (ascii '\n')) = tokenContents (splitCall (ascii ' ')) ∧
      (tokenContents (splitCall (ascii ' '))).isSome := by
  refine ⟨(tokenContents_newline_eq_space_iff (a := [ascii 'f', ascii '('])
    (splitCall_visits (.inl rfl)) rfl (by decide) (splitCall_visits (.inr rfl)) rfl).2 ?_, by
      decide +kernel⟩
  refine .inl fun t ht => .inr ?_
  have hend : (⟨[ascii ')', ascii '+', ascii '1', ascii '\n'], 1, 4, 1, [], false,
      some .leftParen⟩ : Lexer).groupEnd =
      some ⟨[ascii '+', ascii '1', ascii '\n'], 1, 5, 0, [], false, some .rightParen⟩ := by
    cbv
  rw [← Option.some.inj (hend.symm.trans ht)]
  decide

/-- The end of the line that a bracket closes is lost if there is a newline between the brackets. -/
theorem tokenContents_newline_ne_space :
    tokenContents (.ofString "f(\n)\nx") =
      some [(.identifier, [ascii 'f']), (.leftParen, [ascii '(']), (.rightParen, [ascii ')']),
        (.identifier, [ascii 'x']), (.newline, []), (.eof, [])] ∧
    tokenContents (.ofString "f( )\nx") =
      some [(.identifier, [ascii 'f']), (.leftParen, [ascii '(']), (.rightParen, [ascii ')']),
        (.newline, []), (.identifier, [ascii 'x']), (.newline, []), (.eof, [])] := by
  decide +kernel

end BoardPython
