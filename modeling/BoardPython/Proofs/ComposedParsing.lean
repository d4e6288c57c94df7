import BoardPython.Proofs.GrammarUnambiguity

/-! Parsing goes statement by statement. What is accepted can be put in front of other tokens without
a change to either, unless these begin with another case of a conditional; and the statements that
are completed before an error are those of the tokens in front of it. Main statement:
`run_append`. -/
namespace BoardPython

open Token (Kind Of)

theorem StmtsDerivation.length_tree_le (d : StmtsDerivation) :
    d.tree.length ≤ d.tokens.length := by
  induction d using StmtsDerivation.ind with
  | nil => exact Nat.le_refl _
  | cons d rest ih =>
    obtain ⟨t, tail, ht, -⟩ := d.starts
    simp only [tree, tokens, ht, List.length_append, List.length_cons]
    omega

namespace Parser

/-- An outcome behind statements that are complete. -/
def Outcome.prepend (stmts : List Stmt) (o : Outcome) : Outcome := ⟨stmts ++ o.stmts, o.stop⟩

theorem Outcome.prepend_prepend (stmts stmts' : List Stmt) (o : Outcome) :
    (o.prepend stmts').prepend stmts = o.prepend (stmts ++ stmts') := by
  simp only [prepend, List.append_assoc]

theorem Outcome.prepend_nil (stmts : List Stmt) (stop : Option Stop) :
    (⟨[], stop⟩ : Outcome).prepend stmts = ⟨stmts, stop⟩ := by
  rw [prepend, List.append_nil]

theorem statements_eq_prepend (n : Nat) (sofar : List Stmt) (ts : List Token) :
    statements n sofar ts = (statements n [] ts).prepend sofar := by
  induction n generalizing sofar ts with
  | zero => exact (Outcome.prepend_nil _ _).symm
  | succ n ih =>
    cases ts with
    | nil => exact (Outcome.prepend_nil _ _).symm
    | cons t tail =>
      rw [statements, statements]
      split
      · exact (Outcome.prepend_nil _ _).symm
      cases statement (t :: tail) with
      | error stop => exact (Outcome.prepend_nil _ _).symm
      | ok r =>
        dsimp only
        rw [ih (sofar ++ [r.1]), ih ([] ++ [r.1]), Outcome.prepend_prepend, List.nil_append]

theorem statements_append_of_ends (d : StmtsDerivation) {rest : List Token} (hrest : EndsStmt rest)
    (n : Nat) : statements (d.tree.length + n) [] (d.tokens ++ rest) =
      (statements n [] rest).prepend d.tree := by
  induction d using StmtsDerivation.ind with
  | nil =>
    rw [StmtsDerivation.tokens, StmtsDerivation.tree, List.nil_append, List.length_nil, Nat.zero_add]
    rfl
  | cons d more ih =>
    have hopeners : ∀ k ∈ StmtDerivation.openers, k ≠ .eof := by decide
    have hread := complete_statement d (more.ends hrest)
    obtain ⟨t, tail, ht, hk⟩ := d.starts
    rw [StmtsDerivation.tokens, StmtsDerivation.tree, List.append_assoc, List.length_cons,
      Nat.add_right_comm]
    rw [ht, List.cons_append] at hread ⊢
    rw [statements, if_neg (hopeners _ hk), hread]
    dsimp only
    rw [statements_eq_prepend, ih, Outcome.prepend_prepend]
    rfl

/-- Tokens that are accepted can be put in front of others: the statements of both are parsed, or
those of the first list and then as many as the others have before they fail, with the same error.
The others must not begin with another case of a conditional. The statements in front of an error
are those of some of the first tokens. -/
theorem run_append :
    (∀ (first second : List Token) (eof eof' : Of .eof) (stmts : List Stmt), EndFree first →
      EndFree second → run (first ++ [eof.val]) = ⟨stmts, none⟩ →
      (∀ t ∈ second.head?, t.kind ∉ [.kwElif, .kwElse]) →
      run (first ++ second ++ [eof'.val]) = (run (second ++ [eof'.val])).prepend stmts) ∧
    ∀ (ts : List Token) (stmts : List Stmt) (stop : Stop), run ts = ⟨stmts, some stop⟩ →
      ∃ first, first <+: ts ∧ ∀ eof : Of .eof, run (first ++ [eof.val]) = ⟨stmts, none⟩ := by
  constructor
  · intro first second eof eof' stmts hfirst hsecond hrun hhead
    obtain ⟨d, eof'', rest, hd, rfl⟩ := exists_of_statements _ hrun
    obtain rfl : first = d.tokens := hfirst.append_cons_inj d.endFree hd
    have hends : EndsStmt (second ++ [eof'.val]) := by
      cases second with
      | nil => exact starts_of eof' [] (by decide)
      | cons t tail => exact ⟨t, tail ++ [eof'.val], rfl, hhead t rfl⟩
    -- As many rounds are left for the second list as it needs.
    have hlength := d.length_tree_le
    obtain ⟨n, hn⟩ : ∃ n, (d.tokens ++ second ++ [eof'.val]).length + 1 = d.tree.length + n :=
      ⟨_, (Nat.add_sub_cancel' (by simp only [List.length_append]; omega)).symm⟩
    have hrounds : second.length < n := by
      simp only [List.length_append, List.length_cons, List.length_nil] at hn
      omega
    have hrounds' : second.length < (second ++ [eof'.val]).length + 1 := by
      simp only [List.length_append, List.length_cons, List.length_nil]
      omega
    obtain ⟨_, -, hsame⟩ := statements_halts hsecond eof'
    calc run (d.tokens ++ second ++ [eof'.val])
        = statements (d.tree.length + n) [] (d.tokens ++ (second ++ [eof'.val])) := by
          rw [run, hn, List.append_assoc]
      _ = (statements n [] (second ++ [eof'.val])).prepend d.tree :=
          statements_append_of_ends d hends n
      _ = (run (second ++ [eof'.val])).prepend d.tree := by
          rw [run, hsame n [] hrounds, hsame _ [] hrounds']
  · intro ts stmts stop hrun
    obtain ⟨d, htokens, hstmts, -⟩ := exists_of_run ts
    have htree : d.tree = stmts := hstmts.symm.trans (congrArg Outcome.stmts hrun)
    refine ⟨d.tokens, htokens, fun eof => ?_⟩
    rw [← htree]
    refine statements_append d eof ?_
    simp only [List.length_append, List.length_cons, List.length_nil]
    omega

/-- A name on a line of its own, and then a bracket that nothing opened. -/
def unopenedBracket : List Token :=
  [⟨.identifier, [120], ⟨3, 1⟩⟩, ⟨.newline, [], ⟨3, 2⟩⟩, ⟨.rightParen, [41], ⟨4, 1⟩⟩]

/-- The conditional in front is complete, and the name too. -/
theorem run_append_unopenedBracket :
    let eof : Of .eof := ⟨⟨.eof, [], ⟨5, 1⟩⟩, rfl⟩
    ∃ stmts, run (conditionalLines ++ [eof.val]) = ⟨stmts, none⟩ ∧
      run (conditionalLines ++ unopenedBracket ++ [eof.val]) =
        ⟨stmts ++ [.evaluate ⟨3, 1⟩ (.name ⟨3, 1⟩ "x")],
          some (.fault ⟨⟨4, 1⟩, .unexpected .rightParen⟩)⟩ ∧
      ∃ first, first <+: conditionalLines ++ unopenedBracket ++ [eof.val] ∧
        run (first ++ [eof.val]) = ⟨stmts ++ [.evaluate ⟨3, 1⟩ (.name ⟨3, 1⟩ "x")], none⟩ := by
  intro eof
  have hfirst : EndFree conditionalLines := by
    unfold EndFree
    decide
  have hsecond : EndFree unopenedBracket := by
    unfold EndFree
    decide
  have hhead : ∀ t ∈ unopenedBracket.head?, t.kind ∉ [Kind.kwElif, .kwElse] := by decide
  have hrun : run (conditionalLines ++ [eof.val]) =
      ⟨(run (conditionalLines ++ [eof.val])).stmts, none⟩ := by cbv
  have hfails : run (unopenedBracket ++ [eof.val]) = ⟨[.evaluate ⟨3, 1⟩ (.name ⟨3, 1⟩ "x")],
      some (.fault ⟨⟨4, 1⟩, .unexpected .rightParen⟩)⟩ := by cbv
  have happend := run_append.1 _ _ eof eof _ hfirst hsecond hrun hhead
  rw [hfails] at happend
  obtain ⟨first, hprefix, haccepted⟩ := run_append.2 _ _ _ happend
  exact ⟨_, hrun, happend, first, hprefix, haccepted eof⟩

end Parser

end BoardPython
