import BoardPython.Proofs.ParserDecisions

/-! What the parser does with whole token lists. It accepts, or fails at one of the tokens, or runs out
of them; in each case the statements that are complete are those of the first tokens. An error is
found as early as it can be: the tokens in front of it are the beginning of a program, and with the
token itself they are not. Main statements: `runs`, `run_halts`, `runExpr_halts`,
`run_fails_earliest`. -/
namespace BoardPython.Parser

open Token (Of)

variable {n : Nat} {ts : List Token} {t : Token} {sofar : List Stmt}

/-- What parsing comes to does not depend on what stands behind the tokens that are looked at. -/
inductive Runs (ts : List Token) : Prop where
  | accepts (d : StmtsDerivation) (eof : Of .eof) (rest : List Token)
      (split : ts = d.tokens ++ eof.val :: rest)
  | fails (d : StmtsDerivation) {e : SyntaxError} {used : List Token} {t : Token} {tail : List Token}
      (split : ts = used ++ t :: tail) (complete : d.tokens <+: used)
      (position : t.position = e.position) (viable : Viable StmtsDerivation.tokens used)
      (result_eq : ∀ n sofar more, used.length < n →
        statements n sofar (used ++ t :: more) = ⟨sofar ++ d.tree, some (.fault e)⟩)
  | runsOut (d : StmtsDerivation) (complete : d.tokens <+: ts) (free : EndFree ts)
      (result_eq : ∀ n sofar, ts.length < n →
        statements n sofar ts = ⟨sofar ++ d.tree, some .outOfTokens⟩)

theorem statements_of_ok {st : Stmt} {rest : List Token} (hhead : ts.head? = some t)
    (ht : t.kind ≠ .eof) (h : statement ts = .ok (st, rest)) :
    statements (n + 1) sofar ts = statements n (sofar ++ [st]) rest := by
  obtain ⟨tail, rfl⟩ := List.head?_eq_some_iff.mp hhead
  rw [statements, if_neg ht, h]

theorem statements_of_error {stop : Stop} (hhead : ts.head? = some t) (ht : t.kind ≠ .eof)
    (h : statement ts = .error stop) : statements (n + 1) sofar ts = ⟨sofar, some stop⟩ := by
  obtain ⟨tail, rfl⟩ := List.head?_eq_some_iff.mp hhead
  rw [statements, if_neg ht, h]

theorem Runs.cons {u : Token} {tail : List Token} (d : StmtDerivation) (hfree : EndFree d.tokens)
    (hd : ∀ more, statement (d.tokens ++ u :: more) = .ok (d.tree, u :: more))
    (h : Runs (u :: tail)) : Runs (d.tokens ++ u :: tail) := by
  obtain ⟨t, after, ht, -⟩ := d.starts
  have hne : t.kind ≠ .eof := hfree t (ht ▸ List.mem_cons_self)
  have hlength : 0 < d.tokens.length := by
    rw [ht]
    exact Nat.succ_pos _
  have hstep {x : List Token} (hx : x.head? = some u) (n : Nat) (sofar : List Stmt) :
      statements (n + 1) sofar (d.tokens ++ x) = statements n (sofar ++ [d.tree]) x := by
    obtain ⟨more, rfl⟩ := List.head?_eq_some_iff.mp hx
    exact statements_of_ok (by rw [ht]; rfl) hne (hd more)
  cases h with
  | accepts ds eof rest hsplit =>
    refine .accepts (.cons d ds) eof rest ?_
    rw [hsplit, StmtsDerivation.tokens, List.append_assoc]
  | @fails ds e used t' tail' hsplit hcomplete hpos hviable heq =>
    obtain ⟨ds', hviable⟩ := hviable
    refine .fails (.cons d ds) (by rw [hsplit, List.append_assoc]) ?_ hpos ⟨.cons d ds', ?_⟩ ?_
    · exact (List.prefix_append_right_inj _).mpr hcomplete
    · exact (List.prefix_append_right_inj _).mpr hviable
    intro n sofar more hn
    rw [List.length_append] at hn
    obtain _ | n := n
    · cases hn
    have hx : (used ++ t' :: more).head? = some u :=
      (head?_append_cons _ more tail' t').trans (congrArg List.head? hsplit.symm)
    rw [List.append_assoc, hstep hx, heq n _ more (by omega), StmtsDerivation.tree, List.append_assoc]
    rfl
  | runsOut ds hcomplete hfree' heq =>
    refine .runsOut (.cons d ds) ((List.prefix_append_right_inj _).mpr hcomplete)
      (hfree.append hfree') fun n sofar hn => ?_
    rw [List.length_append] at hn
    obtain _ | n := n
    · cases hn
    rw [hstep rfl, heq n _ (by omega), StmtsDerivation.tree, List.append_assoc]
    rfl

theorem runs (ts : List Token) : Runs ts := by
  induction hn : ts.length using Nat.strongRecOn generalizing ts with
  | ind n ih =>
    cases ts with
    | nil =>
      refine .runsOut .nil List.nil_prefix .nil fun n sofar hn => ?_
      obtain _ | n := n
      · cases hn
      rw [statements, StmtsDerivation.tree, List.append_nil]
    | cons t tail =>
      by_cases ht : t.kind = .eof
      · exact .accepts .nil ⟨t, ht⟩ tail rfl
      cases decides_statement (k := 0) (t :: tail) with
      | @reads _ _ u rest hsplit hfree hresult heq =>
        obtain ⟨d, rfl, rfl⟩ := hresult
        rw [hsplit]
        have hshort : (u :: rest).length < n := by
          obtain ⟨_, _, hd, -⟩ := d.starts
          rw [← hn, hsplit, hd]
          simp
        exact (ih _ hshort (u :: rest) rfl).cons d hfree fun more => heq d.tokens more (Nat.le_refl _)
      | @fails e used u rest hsplit hpos hviable heq =>
        obtain ⟨d, hviable⟩ := hviable
        refine .fails .nil hsplit List.nil_prefix hpos ⟨.cons d .nil, ?_⟩ fun n sofar more hn => ?_
        · exact hviable.trans (List.prefix_append ..)
        obtain _ | n := n
        · cases hn
        have hhead : (used ++ u :: more).head? = some t :=
          (head?_append_cons _ more rest u).trans (congrArg List.head? hsplit.symm)
        rw [statements_of_error hhead ht (heq used more (Nat.le_refl _)), StmtsDerivation.tree,
          List.append_nil]
      | runsOut hfree hresult =>
        rcases hresult (t :: tail) (Nat.le_refl _) with hout | ⟨_, ⟨d, hd, rfl⟩, hok⟩
        · refine .runsOut .nil List.nil_prefix hfree fun n sofar hn => ?_
          obtain _ | n := n
          · cases hn
          rw [statements_of_error rfl ht hout, StmtsDerivation.tree, List.append_nil]
        · refine .runsOut (.cons d .nil) ⟨[], ?_⟩ hfree fun n sofar hn => ?_
          · rw [StmtsDerivation.tokens, hd, StmtsDerivation.tokens, List.append_nil, List.append_nil]
          obtain _ | _ | n := n
          · cases hn
          · cases Nat.lt_of_succ_lt_succ hn
          · rw [statements_of_ok rfl ht hok]
            rfl

theorem exists_of_run (ts : List Token) :
    ∃ d : StmtsDerivation, d.tokens <+: ts ∧ (run ts).stmts = d.tree ∧
      ((run ts).stop = none → ∃ (eof : Of .eof) (rest : List Token),
        ts = d.tokens ++ eof.val :: rest) := by
  cases runs ts with
  | accepts d eof rest hsplit =>
    subst hsplit
    refine ⟨d, List.prefix_append .., ?_, fun _ => ⟨eof, rest, rfl⟩⟩
    rw [run, statements_append d eof (by rw [List.length_append]; omega)]
    rfl
  | fails d hsplit hcomplete _ _ heq =>
    subst hsplit
    rw [run, heq _ [] _ (by rw [List.length_append]; omega)]
    exact ⟨d, hcomplete.trans (List.prefix_append ..), rfl, fun h => by cases h⟩
  | runsOut d hcomplete _ heq =>
    rw [run, heq _ [] (Nat.lt_succ_self _)]
    exact ⟨d, hcomplete, rfl, fun h => by cases h⟩

theorem exists_of_statements (ts : List Token) {stmts : List Stmt} (h : run ts = ⟨stmts, none⟩) :
    ∃ (d : StmtsDerivation) (eof : Of .eof) (rest : List Token),
      ts = d.tokens ++ eof.val :: rest ∧ d.tree = stmts := by
  obtain ⟨d, -, htree, hsplit⟩ := exists_of_run ts
  rw [h] at htree hsplit
  obtain ⟨eof, rest, hsplit⟩ := hsplit rfl
  exact ⟨d, eof, rest, hsplit, htree.symm⟩

section Halting

/-- A parser that stops does so at the end or with a syntax error. -/
def Settled (stop : Option Stop) : Prop := stop = none ∨ ∃ e, stop = some (.fault e)

theorem exists_of_concat_eq {used tail : List Token} {u : Token} (h : ts ++ [t] = used ++ u :: tail) :
    ∃ mid, ts = used ++ mid ∧ ∀ rest, ∃ more, mid ++ t :: rest = u :: more := by
  rcases tail.eq_nil_or_concat with rfl | ⟨init, last, rfl⟩
  · obtain ⟨rfl, hlast⟩ := List.append_inj' h rfl
    obtain rfl := List.singleton_inj.mp hlast
    exact ⟨[], (List.append_nil ts).symm, fun rest => ⟨rest, rfl⟩⟩
  · rw [List.concat_eq_append, ← List.cons_append, ← List.append_assoc] at h
    obtain ⟨rfl, -⟩ := List.append_inj' h rfl
    exact ⟨u :: init, rfl, fun rest => ⟨init ++ t :: rest, rfl⟩⟩

theorem Decides.settles {α : Type} {p : Parser α} {Q : α → List Token → Prop}
    {V : List Token → Prop} {eof : Of .eof} (h : Decides 0 (fun _ => p) (ts ++ [eof.val]) Q V) :
    (∃ a mid, mid <:+ ts ∧ ∀ rest, p (ts ++ eof.val :: rest) = .ok (a, mid ++ eof.val :: rest)) ∨
      ∃ e, ∀ rest, p (ts ++ eof.val :: rest) = .error (.fault e) := by
  cases h with
  | @reads a used _ _ hsplit _ _ heq =>
    obtain ⟨mid, rfl, hmid⟩ := exists_of_concat_eq hsplit
    refine .inl ⟨a, mid, List.suffix_append .., fun rest => ?_⟩
    obtain ⟨more, hmore⟩ := hmid rest
    rw [List.append_assoc, hmore]
    exact heq used more (Nat.le_refl _)
  | @fails e used _ _ hsplit _ _ heq =>
    obtain ⟨mid, rfl, hmid⟩ := exists_of_concat_eq hsplit
    refine .inr ⟨e, fun rest => ?_⟩
    obtain ⟨more, hmore⟩ := hmid rest
    rw [List.append_assoc, hmore]
    exact heq used more (Nat.le_refl _)
  | runsOut hfree => exact absurd eof.property (hfree eof.val (by simp))

theorem statements_halts (hfree : EndFree ts) (eof : Of .eof) :
    ∃ outcome, Settled outcome.stop ∧ ∀ n rest, ts.length < n →
      statements n [] (ts ++ eof.val :: rest) = outcome := by
  cases runs (ts ++ [eof.val]) with
  | accepts d eof' tail hsplit =>
    obtain ⟨mid, rfl, hmid⟩ := exists_of_concat_eq hsplit
    cases mid with
    | nil =>
      refine ⟨⟨d.tree, none⟩, .inl rfl, fun n rest hn => ?_⟩
      rw [List.append_nil] at hn ⊢
      exact statements_append d eof hn
    | cons u mid =>
      -- An end token would stand in front of the first one.
      obtain ⟨more, hmore⟩ := hmid []
      obtain ⟨rfl, -⟩ := List.cons.inj hmore
      exact absurd eof'.property (hfree _ (by simp))
  | @fails d e used u tail hsplit _ _ _ heq =>
    obtain ⟨mid, rfl, hmid⟩ := exists_of_concat_eq hsplit
    refine ⟨⟨d.tree, some (.fault e)⟩, .inr ⟨e, rfl⟩, fun n rest hn => ?_⟩
    obtain ⟨more, hmore⟩ := hmid rest
    rw [List.length_append] at hn
    rw [List.append_assoc, hmore]
    exact heq n [] more (by omega)
  | runsOut _ _ hfree' => exact absurd eof.property (hfree' eof.val (by simp))

/-- What the parser comes to depends only on the tokens up to the first end token, and it is
statements or a syntax error. -/
theorem run_halts (hfree : EndFree ts) (eof : Of .eof) :
    ∃ outcome, Settled outcome.stop ∧ ∀ rest, run (ts ++ eof.val :: rest) = outcome := by
  obtain ⟨outcome, hsettled, heq⟩ := statements_halts hfree eof
  refine ⟨outcome, hsettled, fun rest => heq _ rest ?_⟩
  rw [List.length_append]
  omega

theorem runExpr_halts (hfree : EndFree ts) (eof : Of .eof) :
    ∃ outcome, Settled outcome.stop ∧ ∀ rest, runExpr (ts ++ eof.val :: rest) = outcome := by
  unfold runExpr
  have hdecides : Decides 0 (fun _ => expression) (ts ++ [eof.val]) _ _ := decides_expression
  rcases hdecides.settles with ⟨e, mid, hmid, hok⟩ | ⟨e, herr⟩
  · -- An end of the line is skipped, and then there must be no other token.
    have hfree' : EndFree mid := fun t ht => hfree t (hmid.subset ht)
    have haccept : Decides 0 (fun _ => accept .newline >>= pure) (mid ++ [eof.val])
        (fun _ _ => True) fun _ => True :=
      decides_accept_bind (by decide) (fun _ _ _ => decides_pure trivial) (decides_pure trivial)
    rw [bind_pure] at haccept
    rcases haccept.settles with ⟨taken, last, hlast, htaken⟩ | ⟨e', herr⟩
    · cases last with
      | nil =>
        refine ⟨⟨some e, none⟩, .inl rfl, fun rest => ?_⟩
        rw [hok]
        dsimp only
        rw [bind_of_ok (htaken rest), List.nil_append, bind_of_ok (expect_of_kind eof.property)]
        rfl
      | cons t last =>
        have ht : t.kind ≠ .eof := hfree' t (hlast.subset List.mem_cons_self)
        refine ⟨⟨some e, some (.fault ⟨t.position, .expected .eof t⟩)⟩, .inr ⟨_, rfl⟩,
          fun rest => ?_⟩
        rw [hok]
        dsimp only
        rw [bind_of_ok (htaken rest), List.cons_append, bind_of_error (expect_of_ne ht)]
    · refine ⟨⟨some e, some (.fault e')⟩, .inr ⟨e', rfl⟩, fun rest => ?_⟩
      rw [hok]
      dsimp only
      rw [bind_of_error (herr rest)]
  · exact ⟨⟨none, some (.fault e)⟩, .inr ⟨e, rfl⟩, fun rest => by rw [herr]⟩

end Halting

/-- An error is at one of the tokens. Those in front of it are the beginning of tokens that are
accepted; and whatever follows it, the error is the same. -/
theorem run_fails_earliest (ts : List Token) (hdistinct : (ts.map Token.position).Nodup)
    (stmts : List Stmt) (e : SyntaxError) (hrun : run ts = ⟨stmts, some (.fault e)⟩) :
    ∃ i, (∀ j, ts[j]?.map Token.position = some e.position ↔ j = i) ∧
      (∀ more, run (ts.take (i + 1) ++ more) = ⟨stmts, some (.fault e)⟩) ∧
      ∃ more stmts', run (ts.take i ++ more) = ⟨stmts', none⟩ := by
  cases runs ts with
  | accepts d eof rest hsplit =>
    subst hsplit
    rw [run, statements_append d eof (by rw [List.length_append]; omega)] at hrun
    cases hrun
  | runsOut d _ _ heq =>
    rw [run, heq _ [] (Nat.lt_succ_self _)] at hrun
    cases hrun
  | @fails d e' used t tail hsplit _ hpos hviable heq =>
    subst hsplit
    rw [run, heq _ [] _ (by rw [List.length_append]; omega)] at hrun
    cases hrun
    have hat : ((used ++ t :: tail).map Token.position)[used.length]? = some e.position := by
      simp [hpos]
    refine ⟨used.length, fun j => ?_, fun more => ?_, ?_⟩
    · rw [← List.getElem?_map]
      refine ⟨fun hj => ?_, fun hj => hj ▸ hat⟩
      exact (List.getElem?_inj (by simp) hdistinct).mp (hat.trans hj.symm) |>.symm
    · have htake : (used ++ t :: tail).take (used.length + 1) ++ more = used ++ t :: more := by
        rw [List.take_length_add_append, List.append_assoc]
        rfl
      rw [htake, run, heq _ [] more (by rw [List.length_append]; omega)]
    · obtain ⟨ds, more, hmore⟩ := hviable
      obtain ⟨eof⟩ := Token.exists_of .eof
      refine ⟨more ++ [eof.val], ds.tree, ?_⟩
      rw [List.take_left, ← List.append_assoc, hmore, run,
        statements_append ds eof (by rw [List.length_append]; omega)]
      rfl

/-- `x = (1` with the bracket left open: the end of the line is wrong, and one token less could
still go on. -/
def openBracket : List Token :=
  [⟨.identifier, [120], ⟨1, 1⟩⟩, ⟨.assign, [], ⟨1, 3⟩⟩, ⟨.leftParen, [], ⟨1, 5⟩⟩,
   ⟨.number, [49], ⟨1, 6⟩⟩, ⟨.newline, [], ⟨1, 7⟩⟩, ⟨.eof, [], ⟨2, 1⟩⟩]

theorem run_fails_earliest_openBracket :
    ∃ e, run openBracket = ⟨[], some (.fault e)⟩ ∧ e.position = ⟨1, 7⟩ ∧
      (∀ more, run (openBracket.take 5 ++ more) = ⟨[], some (.fault e)⟩) ∧
      ∃ more stmts, run (openBracket.take 4 ++ more) = ⟨stmts, none⟩ := by
  have hrun : run openBracket = ⟨[], some (.fault ⟨⟨1, 7⟩,
      .expected .rightParen ⟨.newline, [], ⟨1, 7⟩⟩⟩)⟩ := by cbv
  obtain ⟨i, hi, hfault, hextends⟩ := run_fails_earliest openBracket (by decide) _ _ hrun
  obtain rfl : 4 = i := (hi 4).mp rfl
  exact ⟨_, hrun, rfl, hfault, hextends⟩

end BoardPython.Parser
