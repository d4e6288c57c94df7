import BoardPython.Proofs.FrontEndTotality

/-! The tokens for lines and blocks. What a single token can do to the open blocks is said once; the
tokens of a run are a sequence of such moves, from the blocks that are open at its start to none at
its end. -/
namespace BoardPython

open Token (Kind)

/-- The kinds of the tokens behind the last line: all open blocks are closed. -/
def Token.closing (blocks : Nat) : List Kind := List.replicate blocks .dedent ++ [.eof]

/-- What of a lexer decides about the tokens for lines and blocks: the kind of the last token, and
the indentations of the open blocks, innermost first. -/
structure Margin where
  last : Option Kind
  levels : List Nat

namespace Margin

/-- A line ends after a token that is not the end of a line. A block is opened deeper than the one
around it, and neither opened nor closed right after it is opened. All other tokens leave the blocks
as they are. -/
inductive Move : Margin → Kind → Margin → Prop
  | newline {m : Margin} (hsome : m.last ≠ none) (hlast : m.last ≠ some .newline) :
      Move m .newline ⟨some .newline, m.levels⟩
  | indent {m : Margin} {width : Nat} (hdeeper : m.levels.headD 0 < width)
      (hlast : m.last ≠ some .indent) : Move m .indent ⟨some .indent, width :: m.levels⟩
  | dedent {last : Option Kind} {level : Nat} {levels : List Nat} (hlast : last ≠ some .indent) :
      Move ⟨last, level :: levels⟩ .dedent ⟨some .dedent, levels⟩
  | plain {m : Margin} {k : Kind} (hk : k ∉ [Kind.newline, .indent, .dedent]) :
      Move m k ⟨some k, m.levels⟩

inductive Moves : Margin → List Kind → Margin → Prop
  | nil {m : Margin} : Moves m [] m
  | cons {m m' m'' : Margin} {k : Kind} {ks : List Kind} (h : Move m k m') (hs : Moves m' ks m'') :
      Moves m (k :: ks) m''

variable {m m' m'' : Margin} {k : Kind} {ks ks' : List Kind}

theorem Moves.single (h : Move m k m') : Moves m [k] m' := .cons h .nil

theorem Moves.append (h : Moves m ks m') (h' : Moves m' ks' m'') : Moves m (ks ++ ks') m'' := by
  induction h with
  | nil => exact h'
  | cons hmove _ ih => exact .cons hmove (ih h')

theorem Moves.split (h : Moves m (ks ++ ks') m'') : ∃ m', Moves m ks m' ∧ Moves m' ks' m'' := by
  induction ks generalizing m with
  | nil => exact ⟨m, .nil, h⟩
  | cons k ks ih =>
    cases h with
    | cons hmove hrest =>
      obtain ⟨m', hfirst, hlast⟩ := ih hrest
      exact ⟨m', .cons hmove hfirst, hlast⟩

theorem Move.last_eq (h : Move m k m') : m'.last = some k := by
  cases h <;> rfl

theorem Moves.last_eq (h : Moves m ks m') : m'.last = ks.getLast?.or m.last := by
  induction h with
  | nil => rfl
  | cons hmove hrest ih =>
    rw [ih, hmove.last_eq, List.getLast?_cons]
    cases List.getLast? _ <;> rfl

theorem Move.count (h : Move m k m') :
    [k].count .dedent + m'.levels.length = [k].count .indent + m.levels.length := by
  cases h with
  | newline hsome hlast => simp
  | indent hdeeper hlast | dedent hlast => simp [Nat.add_comm]
  | plain hk =>
    simp only [List.mem_cons, List.not_mem_nil, or_false, not_or] at hk
    simp [hk.2.1, hk.2.2]

theorem Moves.count (h : Moves m ks m') :
    ks.count .dedent + m'.levels.length = ks.count .indent + m.levels.length := by
  induction h with
  | nil => rfl
  | @cons m m' m'' k ks hmove _ ih =>
    have hfirst := hmove.count
    rw [← List.singleton_append, List.count_append, List.count_append]
    omega

def Nested (m : Margin) : Prop := (m.levels ++ [0]).Pairwise (· > ·)

theorem Nested.suffix (h : m.Nested) (hsuffix : m'.levels <:+ m.levels) : m'.Nested := by
  refine h.sublist ?_
  exact hsuffix.sublist.append (List.Sublist.refl _)

theorem Move.nested (h : Move m k m') (hm : m.Nested) : m'.Nested := by
  cases h with
  | newline hsome hlast | plain hk => exact hm
  | @indent _ width hdeeper hlast =>
    -- The innermost block is the deepest one.
    have hle : ∀ level ∈ m.levels ++ [0], level ≤ m.levels.headD 0 := by
      intro level hlevel
      unfold Nested at hm
      cases hlevels : m.levels with
      | nil =>
        rw [hlevels] at hlevel
        rw [List.mem_singleton.mp hlevel]
        exact Nat.zero_le _
      | cons first levels =>
        rw [hlevels, List.cons_append] at hm hlevel
        rcases List.mem_cons.mp hlevel with rfl | hlevel
        · exact Nat.le_refl _
        · exact Nat.le_of_lt (List.rel_of_pairwise_cons hm hlevel)
    refine List.pairwise_cons.mpr ⟨fun level hlevel => ?_, hm⟩
    exact Nat.lt_of_le_of_lt (hle level hlevel) hdeeper
  | dedent hlast => exact hm.suffix (List.suffix_cons _ _)

theorem Moves.nested (h : Moves m ks m') (hm : m.Nested) : m'.Nested := by
  induction h with
  | nil => exact hm
  | cons hmove _ ih => exact ih (hmove.nested hm)

theorem moves_dedent {last : Option Kind} (hlast : last ≠ some .indent) (closed kept : List Nat) :
    Moves ⟨last, closed ++ kept⟩ (closed.map fun _ => .dedent)
      ⟨if closed.isEmpty then last else some .dedent, kept⟩ := by
  induction closed generalizing last with
  | nil => exact .nil
  | cons level closed ih =>
    have hlast' : some Kind.dedent ≠ some .indent := by decide
    have hrest := ih hlast'
    rw [ite_self] at hrest
    exact .cons (.dedent hlast) hrest

end Margin

namespace Lexer

open Margin (Move Moves)

variable {s next stop : Lexer} {b : UInt8} {r : Bytes} {ts : List Token} {e : SyntaxError}

def margin (s : Lexer) : Margin := ⟨s.last, s.levels⟩

/-- A block is opened outside of brackets, and the line that opens it goes on until it ends with a
token. -/
def Steady (s : Lexer) : Prop := s.last = some .indent → s.depth = 0 ∧ s.lineStart = false

theorem steady_of_last {k : Kind} (hlast : s.last = some k) (hk : k ≠ .indent) : s.Steady := by
  intro h
  rw [hlast] at h
  exact absurd (Option.some.inj h) hk

/-- After a block is opened, the end of the line is a token, so that `lineStart` is not set without
one. At the start of a line no block has just been opened. -/
theorem moves_step (hs : s.Steady) (h : s.step b = .more ts next) :
    Moves s.margin (ts.map (·.kind)) next.margin ∧ next.Steady := by
  have hwritten : ∀ k ∈ Kind.written, k ∉ [Kind.newline, .indent, .dedent] := by decide
  have hopened (hstart : s.lineStart = true ∧ s.depth = 0) : s.last ≠ some .indent := by
    intro hlast
    rw [(hs hlast).2] at hstart
    cases hstart.1
  cases does_step h with
  | skip hdepth hlevels hstart hlast =>
    have hmargin : next.margin = s.margin := by rw [margin, margin, hlevels, hlast]
    rw [hmargin, Steady, hdepth, hstart, hlast]
    exact ⟨.nil, hs⟩
  | newline hends =>
    have hsome : s.last ≠ none := Option.isSome_iff_ne_none.mp hends.2.1
    exact ⟨.single (.newline hsome hends.2.2), steady_of_last rfl (by decide)⟩
  | wrap hends =>
    refine ⟨.nil, fun hlast => absurd ?_ hends⟩
    have hlast' : s.last = some .indent := hlast
    rw [hlast']
    exact ⟨(hs hlast').1, rfl, by decide⟩
  | read h =>
    have hk := hwritten _ h.kind
    refine ⟨?_, steady_of_last h.last fun heq => hk (by simp [heq])⟩
    rw [margin, margin, h.last, h.levels]
    exact .single (.plain hk)
  | indent hstart hdeeper =>
    exact ⟨.single (.indent hdeeper (hopened hstart)), fun _ => ⟨hstart.2, rfl⟩⟩
  | dedent width hstart =>
    refine ⟨?_, fun _ => ⟨hstart.2, rfl⟩⟩
    have hmoves := Margin.moves_dedent (hopened hstart) (s.levels.takeWhile fun l => width < l)
      (s.levels.dropWhile fun l => width < l)
    rw [List.takeWhile_append_dropWhile] at hmoves
    rw [List.map_map]
    exact hmoves

theorem levels_of_fail (h : s.step b = .fail e stop) : stop.levels <:+ s.levels := by
  unfold step at h
  split at h
  · unfold layout at h
    dsimp only at h
    split at h
    · cases h
    split at h
    · cases h
    split at h
    · cases h
    unfold indent at h
    split at h
    · cases h
    dsimp only at h
    split at h
    · cases h
    · obtain ⟨-, rfl⟩ := Step.fail.inj h
      exact List.dropWhile_suffix _
  · unfold lexeme at h
    split at h
    · unfold newline at h
      dsimp only at h
      split at h <;> cases h
    split at h
    · cases h
    split at h
    · cases h
    split at h
    · cases h
    split at h
    · unfold number at h
      dsimp only at h
      split at h
      · obtain ⟨-, rfl⟩ := Step.fail.inj h
        exact List.suffix_rfl
      split at h
      · obtain ⟨-, rfl⟩ := Step.fail.inj h
        exact List.suffix_rfl
      · cases h
    split at h
    · cases h
    split at h
    · unfold string at h
      split at h
      · cases h
      · obtain ⟨-, rfl⟩ := Step.fail.inj h
        exact List.suffix_rfl
    · unfold operator at h
      split at h
      · obtain ⟨-, rfl⟩ := Step.fail.inj h
        exact List.suffix_rfl
      · cases h

variable {n : Nat} {run : Run}

theorem kinds_finish (s : Lexer) : s.finish.1.map (·.kind) =
    (if s.last.isSome ∧ s.last ≠ some .newline then [Kind.newline] else []) ++
      Token.closing s.levels.length := by
  unfold finish
  split <;> simp [token, Token.closing]

theorem Takes.moves (h : s.Takes n run) (hs : s.Steady) (hresult : run.result = .ok ts) :
    ∃ body m, Moves s.margin body m ∧ (m.last = none ∨ m.last = some .newline) ∧
      ts.map (·.kind) = body ++ Token.closing m.levels.length := by
  induction h generalizing ts with
  | fail _ _ => cases hresult
  | @finish s _ =>
    obtain rfl := Except.ok.inj hresult
    by_cases hends : s.last.isSome ∧ s.last ≠ some .newline
    · have hsome : s.last ≠ none := Option.isSome_iff_ne_none.mp hends.1
      refine ⟨[.newline], ⟨some .newline, s.levels⟩, .single (.newline hsome hends.2), .inr rfl, ?_⟩
      rw [kinds_finish, if_pos hends]
    · refine ⟨[], s.margin, .nil, ?_, ?_⟩
      · cases hlast : s.last with
        | none => exact .inl hlast
        | some k =>
          refine .inr (hlast.trans (by_contra fun hne => hends ?_))
          rw [hlast]
          exact ⟨rfl, hne⟩
      · rw [kinds_finish, if_neg hends]
        rfl
  | @more s next _ _ us _ run _ hstep _ ih =>
    cases hinner : run.result with
    | error e =>
      rw [Run.prepend, hinner] at hresult
      cases hresult
    | ok ts' =>
      rw [Run.prepend, hinner] at hresult
      obtain rfl := Except.ok.inj hresult
      obtain ⟨hmoves, hsteady⟩ := moves_step hs hstep
      obtain ⟨body, m, hrest, hlast, hkinds⟩ := ih hsteady hinner
      refine ⟨us.map (·.kind) ++ body, m, hmoves.append hrest, hlast, ?_⟩
      rw [List.map_append, hkinds, List.append_assoc]

theorem Takes.nested (h : s.Takes n run) (hs : s.Steady) (hnested : s.margin.Nested) :
    run.stop.margin.Nested := by
  induction h with
  | finish _ => exact List.pairwise_singleton _ _
  | fail _ hstep => exact hnested.suffix (levels_of_fail hstep)
  | more _ hstep _ ih =>
    obtain ⟨hmoves, hsteady⟩ := moves_step hs hstep
    exact ih hsteady (hmoves.nested hnested)

/-- The columns that lines can go back to, outermost first: the left margin and the open blocks. -/
def indentations (s : Lexer) : List Nat := 0 :: s.levels.reverse

theorem pairwise_indentations_iff (s : Lexer) :
    s.indentations.Pairwise (· < ·) ↔ s.margin.Nested := by
  have hreverse : s.indentations = (s.margin.levels ++ [0]).reverse := by
    rw [List.reverse_append]
    rfl
  rw [hreverse, List.pairwise_reverse]
  exact Iff.rfl

end Lexer

namespace Token

/-- The kinds of the tokens of a run that starts with some blocks open. There is one end token, the
last one. Lines have tokens, and only one end; the last line ends before the blocks are closed. A
block starts with a token of its own. No block is closed that is not open, and all are closed in the
end. -/
structure WellBracketed (opened : Nat) (kinds : List Kind) : Prop where
  eof : ∃ body, kinds = body ++ [Kind.eof] ∧ Kind.eof ∉ body
  newline_first : kinds.head? ≠ some .newline
  newline_newline : ¬[.newline, .newline] <:+: kinds
  last_line : ∃ body n, kinds = body ++ closing n ∧
    (body ≠ [] → body.getLast? = some .newline)
  indent_indent : ¬[.indent, .indent] <:+: kinds
  indent_dedent : ¬[.indent, .dedent] <:+: kinds
  nested : ∀ p, p <+: kinds → p.count .dedent ≤ p.count .indent + opened
  balanced : kinds.count .dedent = kinds.count .indent + opened

end Token

namespace Margin

variable {m m' : Margin} {ks : List Kind}

theorem Moves.of_adjacent {k k' : Kind} (h : Moves m ks m') (hadjacent : [k, k'] <:+: ks) :
    ∃ m₀ m₁ m₂, Move m₀ k m₁ ∧ Move m₁ k' m₂ := by
  obtain ⟨before, after, rfl⟩ := hadjacent
  rw [List.append_assoc] at h
  obtain ⟨m₀, -, h⟩ := h.split
  cases h with
  | cons h₁ h =>
    cases h with
    | cons h₂ _ => exact ⟨m₀, _, _, h₁, h₂⟩

theorem Moves.wellBracketed {m'' : Margin} {n : Nat} (h : Moves m ks m') (hfirst : m.last = none)
    (hlast : m'.last = none ∨ m'.last = some .newline)
    (hends : Moves m' (Token.closing n) m'') (hclosed : m''.levels = [])
    (heof : ∃ body, ks ++ Token.closing n = body ++ [Kind.eof] ∧ Kind.eof ∉ body) :
    Token.WellBracketed m.levels.length (ks ++ Token.closing n) := by
  have hall := h.append hends
  refine ⟨heof, fun hhead => ?_, fun hadjacent => ?_, ⟨ks, n, rfl, fun hne => ?_⟩, fun hadjacent => ?_,
    fun hadjacent => ?_, fun p hp => ?_, ?_⟩
  · obtain ⟨ks', hks⟩ := List.head?_eq_some_iff.mp hhead
    rw [hks] at hall
    cases hall with
    | cons hmove _ =>
      cases hmove with
      | newline hsome _ => exact hsome hfirst
      | plain hk => simp at hk
  · obtain ⟨m₀, m₁, m₂, h₁, h₂⟩ := hall.of_adjacent hadjacent
    cases h₂ with
    | newline _ hne => exact hne h₁.last_eq
    | plain hk => simp at hk
  · have hgetLast := h.last_eq
    rw [hfirst, Option.or_none] at hgetLast
    rw [← hgetLast]
    refine hlast.resolve_left fun hnone => hne ?_
    rw [hnone] at hgetLast
    exact List.getLast?_eq_none_iff.mp hgetLast.symm
  · obtain ⟨m₀, m₁, m₂, h₁, h₂⟩ := hall.of_adjacent hadjacent
    cases h₂ with
    | indent _ hne => exact hne h₁.last_eq
    | plain hk => simp at hk
  · obtain ⟨m₀, m₁, m₂, h₁, h₂⟩ := hall.of_adjacent hadjacent
    cases h₂ with
    | dedent hne => exact hne h₁.last_eq
    | plain hk => simp at hk
  · -- So many blocks are open behind the prefix.
    obtain ⟨after, hafter⟩ := hp
    rw [← hafter] at hall
    obtain ⟨m₁, hprefix, -⟩ := hall.split
    have hcount := hprefix.count
    omega
  · have hcount := hall.count
    rwa [hclosed, List.length_nil, Nat.add_zero] at hcount

end Margin

namespace Lexer

open Margin (Moves)

theorem wellBracketed_run {s : Lexer} {ts : List Token} (h : s.run.result = .ok ts) :
    Token.WellBracketed s.levels.length (ts.map (·.kind)) := by
  obtain ⟨n, -, htakes⟩ := takes_steps s.start
  have hsteady : s.start.Steady := nofun
  obtain ⟨ks, m, hmoves, hlast, hkinds⟩ := htakes.moves hsteady h
  have hdedent : m.last ≠ some .indent := by
    rcases hlast with hlast | hlast <;> rw [hlast] <;> decide
  have hdedents := Margin.moves_dedent hdedent m.levels []
  rw [List.append_nil, List.map_const'] at hdedents
  have hends := hdedents.append (.single (.plain (k := .eof) (by decide)))
  rw [hkinds]
  refine hmoves.wellBracketed rfl hlast hends rfl ?_
  obtain ⟨body, eof, hfree, hts⟩ := htakes.tokens h
  refine ⟨body.map (·.kind), ?_, fun hmem => ?_⟩
  · rw [← hkinds, hts, List.map_append, List.map_singleton, eof.property]
  · obtain ⟨t, ht, hkind⟩ := List.mem_map.mp hmem
    exact hfree t ht hkind

theorem nested_resume (text : Bytes) (calls : Nat) :
    (resume^[calls] (ofBytes text)).margin.Nested := by
  induction calls with
  | zero => exact List.pairwise_singleton _ _
  | succ calls ih =>
    rw [Function.iterate_succ_apply']
    obtain ⟨n, -, htakes⟩ := takes_steps (resume^[calls] (ofBytes text)).start
    exact htakes.nested nofun ih

/-- However often a lexer has been run on a text, the columns that lines can go back to increase
from the left margin on. If its next run gives tokens, they are well bracketed. -/
theorem runs_well_bracketed (text : Bytes) (calls : Nat) :
    (resume^[calls] (ofBytes text)).indentations.Pairwise (· < ·) ∧
      ∀ ts, (resume^[calls] (ofBytes text)).run.result = .ok ts →
        Token.WellBracketed (resume^[calls] (ofBytes text)).levels.length (ts.map (·.kind)) :=
  ⟨(pairwise_indentations_iff _).mpr (nested_resume text calls), fun _ h => wellBracketed_run h⟩

section Sample

/-- Two blocks, and a line between their indentations at which the first run fails. -/
def unindented : Bytes := .ofString "a:\n  b:\n      c\n    d\ne\n"

/-- The second run starts with the outer block open. -/
def resumedKinds : List Kind := [.dedent, .identifier, .newline, .identifier, .newline, .eof]

theorem unindented_well_bracketed :
    (ofBytes unindented).run.result.toOption = none ∧
      (resume^[1] (ofBytes unindented)).indentations = [0, 2] ∧
      (resume^[1] (ofBytes unindented)).run.result.toOption.map (·.map (·.kind)) =
        some resumedKinds ∧
      Token.WellBracketed 1 resumedKinds := by
  have hfails : (ofBytes unindented).run.result.toOption = none := by decide +kernel
  have hlevels : (resume^[1] (ofBytes unindented)).levels = [2] := by decide +kernel
  have hkinds : (resume^[1] (ofBytes unindented)).run.result.toOption.map (·.map (·.kind)) =
      some resumedKinds := by
    decide +kernel
  refine ⟨hfails, by rw [indentations, hlevels]; rfl, hkinds, ?_⟩
  cases hresult : (resume^[1] (ofBytes unindented)).run.result with
  | error e =>
    rw [hresult] at hkinds
    cases hkinds
  | ok ts =>
    have h := (runs_well_bracketed unindented 1).2 ts hresult
    rw [hresult] at hkinds
    have hts : ts.map (·.kind) = resumedKinds := Option.some.inj hkinds
    rwa [hlevels, hts] at h

end Sample

end Lexer

end BoardPython
