import BoardPython.Proofs.ParserSteps
import BoardPython.Proofs.PhraseEnds

/-! Everything that the grammar derives is accepted by the parser, with the tree of the derivation,
if the token after the phrase does not go on with it. Main statements: `complete_expression` and
`complete_statement`. -/
namespace BoardPython.Parser

open Token (Kind Of OneOf)

section Loops

variable {α β : Type} {body : α → Parser (Round α β)} {a : α} {b : β}
  {ts rest : List Token}

/-- With enough rounds, a loop comes to `b` and leaves `rest`. -/
def Loops (body : α → Parser (Round α β)) (a : α) (ts : List Token) (b : β) (rest : List Token) :
    Prop :=
  ∀ bound : List Token, ts.length ≤ bound.length → rounds body bound a ts = .ok (b, rest)

theorem loops_done (h : body a ts = .ok (.done b, rest)) : Loops body a ts b rest :=
  fun bound _ => rounds_of_done bound h

theorem loops_again (a' : α) (mid : List Token) (h : body a ts = .ok (.again a', mid))
    (hlt : mid.length < ts.length) (hloops : Loops body a' mid b rest) : Loops body a ts b rest
    := by
  intro bound hbound
  rw [rounds_of_again (List.length_pos_iff.mp (by omega)) h]
  exact hloops bound.tail (by rw [List.length_tail]; omega)

theorem Loops.repeatUntil (h : Loops body a ts b rest) : repeatUntil body a ts = .ok (b, rest) :=
  h ts (Nat.le_refl _)

section Collecting

variable {body : List α → Parser (Round (List α) (List α))} {found sofar : List α}

theorem loops_item (x : α) (mid : List Token) (h : body sofar ts = .ok (.again (sofar ++ [x]), mid))
    (hlt : mid.length < ts.length) (hloops : ∀ sofar, Loops body sofar mid (sofar ++ found) rest) :
    Loops body sofar ts (sofar ++ x :: found) rest := by
  have hrest := hloops (sofar ++ [x])
  rw [List.append_assoc] at hrest
  exact loops_again _ mid h hlt hrest

theorem repeatUntil_of_loops (h : ∀ sofar, Loops body sofar ts (sofar ++ found) rest) :
    repeatUntil body [] ts = .ok (found, rest) :=
  (h []).repeatUntil

end Collecting

end Loops

/-- A parser reads all derivations of up to `n` tokens if what follows does not go on with them. -/
def CompleteFor (n : Nat) (s : ExprSymbol) (p : Parser Expr) : Prop :=
  ∀ d : ExprDerivation s, d.tokens.length ≤ n → ∀ rest, Ends s.strength rest →
    p (d.tokens ++ rest) = .ok (d.tree, rest)

section Expressions

variable {expr unary operand negation : Parser Expr} {n : Nat} {rest : List Token} {α : Type}
  {closing : Kind}

theorem adjacentStrings_append (value : Bytes) (more : List (Of .string)) (h : Ends 12 rest) :
    adjacentStrings value (more.map (·.val) ++ rest) =
      .ok (value ++ more.flatMap (·.val.text), rest) := by
  apply Loops.repeatUntil
  induction more generalizing value with
  | nil =>
    obtain ⟨t, tail, rfl, ht⟩ := h
    have hk : t.kind ≠ .string := fun hk => absurd (hk ▸ ht) (by decide)
    apply loops_done
    rw [List.map_nil, List.nil_append, peek_bind, if_neg hk, List.flatMap_nil, List.append_nil]
    rfl
  | cons s more ih =>
    refine loops_again (value ++ s.val.text) (more.map (·.val) ++ rest) ?_ ?_ ?_
    · rw [List.map_cons, List.cons_append, peek_bind, if_pos s.property]
      rfl
    · simp
    · rw [List.flatMap_cons, ← List.append_assoc]
      exact ih _

theorem commaSeparated_append {δ : Type} {tokens : δ → List Token} {tree : δ → α}
    {item : Parser α} (hclosing : closing ≠ .comma)
    (hstarts : ∀ x, Starts (· ≠ closing) (tokens x))
    (hitem : ∀ x, (tokens x).length ≤ n → ∀ rest, Starts (· ∈ [.comma, closing]) rest →
      item (tokens x ++ rest) = .ok (tree x, rest))
    (d : CommaList δ) (hd : (d.tokens tokens).length ≤ n)
    (hrest : Starts (· = closing) rest) :
    commaSeparated item closing (d.tokens tokens ++ rest) = .ok (d.tree tree, rest) := by
  have hafter : Starts (· ∈ [.comma, closing]) rest := hrest.mono fun k hk => by simp [hk]
  apply repeatUntil_of_loops
  intro sofar
  induction d generalizing sofar with
  | nil =>
    obtain ⟨t, tail, rfl, hk⟩ := hrest
    apply loops_done
    rw [CommaList.tokens, List.nil_append, peek_bind, if_pos hk, CommaList.tree, List.append_nil]
    rfl
  | last x =>
    obtain ⟨t, tail, ht, hk⟩ := (hstarts x).append rest
    apply loops_done
    rw [CommaList.tokens, peek_bind_of_eq ht, if_neg hk, bind_of_ok (hitem x hd rest hafter)]
    obtain ⟨t', tail', rfl, hk'⟩ := hrest
    rw [bind_of_ok (accept_of_ne fun h => hclosing (hk'.symm.trans h))]
    rfl
  | cons x comma d ih =>
    have hlength : (tokens x).length + (d.tokens tokens).length + 1 ≤ n := by
      simpa [CommaList.tokens, Nat.add_assoc] using hd
    obtain ⟨t, tail, ht, hk⟩ := (hstarts x).append (comma.val :: (d.tokens tokens ++ rest))
    refine loops_item (tree x) (d.tokens tokens ++ rest) ?_ ?_ (ih (by omega))
    · rw [CommaList.tokens, List.append_assoc, List.cons_append, peek_bind_of_eq ht, if_neg hk,
        bind_of_ok (hitem x (by omega) _ (starts_of comma _ (by simp))),
        bind_of_ok (accept_of_kind comma.property)]
      rfl
    · simp only [CommaList.tokens, List.length_append, List.length_cons]
      omega

theorem complete_items (hexpr : CompleteFor n .expr expr)
    (hclosing : closing ∈ [Kind.rightParen, .rightBracket]) (d : ItemsDerivation)
    (hd : d.tokens.length ≤ n) (hrest : Starts (· = closing) rest) :
    commaSeparated expr closing (d.tokens ++ rest) = .ok (d.tree, rest) := by
  have hcomma : ∀ k ∈ [Kind.rightParen, .rightBracket], k ≠ .comma := by decide
  have hopeners : ∀ k ∈ ExprSymbol.expr.openers, k ∉ [Kind.rightParen, .rightBracket] := by decide
  have hstrength : ∀ k ∈ [Kind.rightParen, .rightBracket], k.strength < 1 := by decide
  rw [ItemsDerivation.tokens_eq] at hd ⊢
  rw [ItemsDerivation.tree_eq]
  refine commaSeparated_append (hcomma closing hclosing) ?_ ?_ d.toList hd hrest
  · intro x
    exact x.starts.mono fun k hk heq => hopeners k hk (heq ▸ hclosing)
  · intro x hx rest hafter
    refine hexpr x hx rest (hafter.mono fun k hk => ?_)
    rcases List.mem_pair.mp hk with rfl | rfl
    · decide
    · exact hstrength k hclosing

theorem complete_atom (hexpr : CompleteFor n .expr expr) :
    CompleteFor (n + 1) .atom (atom expr) := by
  intro d hd rest hrest
  unfold atom
  cases d with
  | number t value h =>
    rw [ExprDerivation.tokens, List.singleton_append, peek_bind, t.property]
    change numberAtom t.val rest = _
    unfold numberAtom
    rw [h]
    rfl
  | strings first more =>
    rw [ExprDerivation.tokens, List.cons_append, peek_bind, first.property]
    dsimp only
    rw [next_bind, bind_of_ok (adjacentStrings_append _ more hrest)]
    rfl
  | true t | false t | none t | ellipsis t | name t =>
    rw [ExprDerivation.tokens, List.singleton_append, peek_bind, t.property]
    rfl
  | paren left d right =>
    have hn : d.tokens.length ≤ n := by
      simp only [ExprDerivation.tokens, List.length_cons, List.length_append] at hd
      omega
    have hclose : Ends 1 (right.val :: rest) := starts_of right rest (by decide)
    rw [ExprDerivation.tokens, List.cons_append, List.append_assoc, List.singleton_append, peek_bind,
      left.property]
    dsimp only
    rw [next_bind, bind_of_ok (hexpr d hn _ hclose), bind_of_ok (expect_of_kind right.property)]
    rfl
  | list left elements right =>
    have hn : elements.tokens.length ≤ n := by
      simp only [ExprDerivation.tokens, List.length_cons, List.length_append] at hd
      omega
    have hclose : Starts (· = .rightBracket) (right.val :: rest) := starts_of right rest rfl
    rw [ExprDerivation.tokens, List.cons_append, List.append_assoc, List.singleton_append, peek_bind,
      left.property]
    dsimp only
    rw [next_bind, bind_of_ok (complete_items hexpr (by decide) elements hn hclose),
      bind_of_ok (expect_of_kind right.property)]
    rfl

theorem complete_postfixes (hexpr : CompleteFor n .expr expr) :
    CompleteFor (n + 1) .postfixes (postfixes expr) := by
  intro d hd rest hrest
  cases d with
  | trailed first more =>
    simp only [ExprDerivation.tokens, List.length_append] at hd
    unfold postfixes
    rw [ExprDerivation.tokens, List.append_assoc,
      bind_of_ok (complete_atom hexpr first (by omega) _ (more.ends hrest)), ExprDerivation.tree]
    have hmore : more.tokens.length ≤ n + 1 := by omega
    apply Loops.repeatUntil
    generalize first.tree = e
    induction more using TrailDerivation.ind generalizing e with
    | stop =>
      obtain ⟨t, tail, rfl, ht⟩ := hrest
      apply loops_done
      rw [TrailDerivation.tokens, List.nil_append]
      apply peek_bind_eq_of_forall
      intro p hp
      split at hp
      case h_1 hk | h_2 hk | h_3 hk => exact absurd (hk ▸ ht) (by decide)
      case h_4 => rw [hp]; rfl
    | call left args right more ih =>
      simp only [TrailDerivation.tokens, List.length_cons, List.length_append] at hd hmore
      have hclose : Starts (· = .rightParen) (right.val :: (more.tokens ++ rest)) :=
        starts_of right _ rfl
      refine loops_again (.call e.position e args.tree) (more.tokens ++ rest) ?_ ?_ ?_
      · rw [TrailDerivation.tokens, List.cons_append, List.append_assoc, List.cons_append, peek_bind,
          left.property]
        dsimp only
        rw [next_bind, bind_of_ok (complete_items hexpr (by decide) args (by omega) hclose),
          bind_of_ok (expect_of_kind right.property)]
        rfl
      · simp only [TrailDerivation.tokens, List.length_cons, List.length_append]
        omega
      · exact ih (by omega) (by omega) _
    | member dot field more ih =>
      simp only [TrailDerivation.tokens, List.length_cons] at hd hmore
      refine loops_again (.member dot.val.position e (text field.val)) (more.tokens ++ rest) ?_ ?_ ?_
      · rw [TrailDerivation.tokens, List.cons_append, List.cons_append, peek_bind, dot.property]
        dsimp only
        rw [next_bind, bind_of_ok (expect_of_kind field.property)]
        rfl
      · simp only [TrailDerivation.tokens, List.length_cons, List.length_append]
        omega
      · exact ih (by omega) (by omega) _

theorem complete_power (hexpr : CompleteFor n .expr expr) (hunary : CompleteFor n .unary unary) :
    CompleteFor (n + 1) .power (power expr unary) := by
  intro d hd rest hrest
  unfold power
  cases d with
  | raised base t exponent =>
    simp only [ExprDerivation.tokens, List.length_append, List.length_cons] at hd
    have hbase : Ends 11 (t.val :: (exponent.tokens ++ rest)) := starts_of t _ (by decide)
    rw [ExprDerivation.tokens, List.append_assoc, List.cons_append,
      bind_of_ok (complete_postfixes hexpr base (by omega) _ hbase), peek_bind, if_pos t.property,
      next_bind, bind_of_ok (hunary exponent (by omega) rest hrest), ExprDerivation.tree, t.property]
    rfl
  | postfixes d =>
    simp only [ExprDerivation.tokens] at hd
    rw [ExprDerivation.tokens,
      bind_of_ok (complete_postfixes hexpr d hd rest (hrest.le (by decide)))]
    obtain ⟨t, tail, rfl, ht⟩ := hrest
    have hk : t.kind ≠ .doubleStar := fun hk => absurd (hk ▸ ht) (by decide)
    rw [peek_bind, if_neg hk]
    rfl

theorem complete_signed (hexpr : CompleteFor n .expr expr) (hunary : CompleteFor n .unary unary) :
    CompleteFor (n + 1) .unary (signed expr unary) := by
  intro d hd rest hrest
  unfold signed
  cases d with
  | signed t d =>
    simp only [ExprDerivation.tokens, List.length_cons] at hd
    rw [ExprDerivation.tokens, List.cons_append, peek_bind, if_pos (isSign_iff.mpr t.property),
      next_bind, bind_of_ok (hunary d (by omega) rest hrest)]
    rfl
  | power d =>
    have hopeners : ∀ k ∈ ExprSymbol.power.openers, k ∉ [Kind.minus, .plus, .tilde] := by decide
    obtain ⟨t, tail, ht, hk⟩ := d.starts.append rest
    rw [ExprDerivation.tokens, peek_bind_of_eq ht, if_neg fun h => hopeners _ hk (isSign_iff.mp h)]
    exact complete_power hexpr hunary d hd rest hrest

/-- The operands of a level are read one after the other, whatever is made of them. -/
theorem loops_chain {l : Level} {is : Kind → Bool} (his : ∀ k, is k = true ↔ k ∈ l.operators)
    (add : α → Token → Expr → α) (hoperand : CompleteFor n l.operand operand)
    (more : ChainDerivation l) (hmore : more.tokens.length ≤ n)
    (hrest : Ends (ExprSymbol.chain l).strength rest) (a : α) :
    Loops (fun a => do
      let t ← peek
      if is t.kind then
        let _ ← next
        return .again (add a t (← operand))
      else return .done a) a (more.tokens ++ rest)
      (more.tree.foldl (fun a x => add a x.1 x.2) a) rest := by
  induction more using ChainDerivation.ind generalizing a with
  | stop =>
    obtain ⟨t, tail, rfl, ht⟩ := hrest
    have hk : is t.kind ≠ true := fun hk =>
      absurd (Level.strength_of_mem ((his _).mp hk)) (Nat.ne_of_lt ht)
    apply loops_done
    rw [ChainDerivation.tokens, List.nil_append, peek_bind, if_neg hk]
    rfl
  | again op operand' more ih =>
    simp only [ChainDerivation.tokens, List.length_cons, List.length_append] at hmore
    refine loops_again (add a op.val operand'.tree) (more.tokens ++ rest) ?_ ?_ (ih (by omega) _)
    · rw [ChainDerivation.tokens, List.cons_append, List.append_assoc, peek_bind,
        if_pos ((his _).mpr op.property), next_bind,
        bind_of_ok (hoperand operand' (by omega) _ (more.ends hrest))]
      rfl
    · simp only [ChainDerivation.tokens, List.length_cons, List.length_append]
      omega

theorem complete_leftChain (l : Level) (node : Position → Kind → Expr → Expr → Expr)
    (hfolds : Folds l node) (hoperand : CompleteFor n l.operand operand) :
    CompleteFor n (.chain l) (leftChain l.operators node operand) := by
  intro d hd rest hrest
  cases d with
  | chain first more =>
    simp only [ExprDerivation.tokens, List.length_append] at hd
    unfold leftChain
    rw [ExprDerivation.tokens, List.append_assoc,
      bind_of_ok (hoperand first (by omega) _ (more.ends hrest)), ExprDerivation.tree, hfolds]
    exact (loops_chain (fun _ => List.contains_iff_mem)
      (fun left t right => node t.position t.kind left right) hoperand more (by omega) hrest
      first.tree).repeatUntil

theorem complete_arithmetic (hoperand : CompleteFor n .unary operand) :
    CompleteFor n (.chain .pipe) (arithmetic operand) := by
  have hproduct := complete_leftChain .product .binary (fun _ _ => rfl) hoperand
  have hsum := complete_leftChain .sum .binary (fun _ _ => rfl) hproduct
  have hshift := complete_leftChain .shift .binary (fun _ _ => rfl) hsum
  have hampersand := complete_leftChain .ampersand .binary (fun _ _ => rfl) hshift
  have hcaret := complete_leftChain .caret .binary (fun _ _ => rfl) hampersand
  exact complete_leftChain .pipe .binary (fun _ _ => rfl) hcaret

/-- Operators and operands are collected in the order in which they stand. -/
theorem foldl_collected (xs : List (Token × Expr)) (ops : List Kind) (operands : List Expr) :
    xs.foldl (fun s x => (s.1 ++ [x.1.kind], s.2 ++ [x.2])) (ops, operands) =
      (ops ++ xs.map (·.1.kind), operands ++ xs.map (·.2)) := by
  induction xs generalizing ops operands with
  | nil => simp
  | cons x xs ih => simp [ih]

theorem complete_comparison (hoperand : CompleteFor n Level.comparison.operand operand) :
    CompleteFor n (.chain .comparison) (comparison operand) := by
  intro d hd rest hrest
  cases d with
  | chain first more =>
    simp only [ExprDerivation.tokens, List.length_append] at hd
    unfold comparison
    rw [ExprDerivation.tokens, List.append_assoc,
      bind_of_ok (hoperand first (by omega) _ (more.ends hrest)), ExprDerivation.tree]
    have hloops := loops_chain (l := .comparison) (fun _ => isComparison_iff)
      (fun s t right => (s.1 ++ [t.kind], s.2 ++ [right])) hoperand more (by omega) hrest
      ([], [first.tree])
    refine Eq.trans (bind_of_ok hloops.repeatUntil) ?_
    rw [foldl_collected, Level.join]
    dsimp only
    rw [List.nil_append, List.isEmpty_map]
    split <;> rfl

theorem complete_disjunction (hnegation : CompleteFor n .negation negation) :
    CompleteFor n (.chain .disjunction) (disjunction negation) := by
  have hconjunction := complete_leftChain .conjunction .logical (fun _ _ => rfl) hnegation
  exact complete_leftChain .disjunction .logical (fun _ _ => rfl) hconjunction

theorem lambdaParams_append (d : CommaList (Of .identifier)) (hrest : Starts (· = .colon) rest) :
    lambdaParams (d.tokens (fun name => [name.val]) ++ rest) =
      .ok (d.tree (fun name => text name.val), rest) := by
  apply repeatUntil_of_loops
  intro sofar
  induction d generalizing sofar with
  | nil =>
    obtain ⟨t, tail, rfl, hk⟩ := hrest
    have hne : t.kind ≠ .identifier := fun h => absurd (hk.symm.trans h) (by decide)
    apply loops_done
    rw [CommaList.tokens, List.nil_append, peek_bind, if_neg hne, CommaList.tree, List.append_nil]
    rfl
  | last name =>
    obtain ⟨t, tail, rfl, hk⟩ := hrest
    have hne : t.kind ≠ .comma := fun h => absurd (hk.symm.trans h) (by decide)
    apply loops_done
    rw [CommaList.tokens, List.singleton_append, peek_bind, if_pos name.property, next_bind,
      bind_of_ok (accept_of_ne hne)]
    rfl
  | cons name comma d ih =>
    refine loops_item (text name.val) (d.tokens (fun name => [name.val]) ++ rest) ?_ ?_ ih
    · rw [CommaList.tokens, List.singleton_append, List.cons_append, List.cons_append, peek_bind,
        if_pos name.property, next_bind, bind_of_ok (accept_of_kind comma.property)]
      rfl
    · simp only [CommaList.tokens, List.length_append, List.length_cons]
      omega

structure Grammar.CompleteUpTo (n : Nat) (g : Grammar) : Prop where
  expr : CompleteFor n .expr g.expr
  negation : CompleteFor n .negation g.negation
  unary : CompleteFor n .unary g.unary

theorem Grammar.CompleteUpTo.layer {inner : Grammar} (h : inner.CompleteUpTo n) :
    (Grammar.layer inner).CompleteUpTo (n + 1) := by
  have hunary : CompleteFor (n + 1) .unary (Grammar.layer inner).unary :=
    complete_signed h.expr h.unary
  have hnegation : CompleteFor (n + 1) .negation (Grammar.layer inner).negation := by
    intro d hd rest hrest
    unfold Grammar.layer
    cases d with
    | negated t d =>
      simp only [ExprDerivation.tokens, List.length_cons] at hd
      dsimp only
      rw [ExprDerivation.tokens, List.cons_append, peek_bind, if_pos t.property, next_bind,
        bind_of_ok (h.negation d (by omega) rest hrest), ExprDerivation.tree, t.property]
      rfl
    | comparison d =>
      have hopeners : ∀ k ∈ (ExprSymbol.chain .comparison).openers, k ≠ .kwNot := by decide
      obtain ⟨t, tail, ht, hk⟩ := d.starts.append rest
      dsimp only
      rw [ExprDerivation.tokens, peek_bind_of_eq ht, if_neg (hopeners _ hk)]
      exact complete_comparison (complete_arithmetic hunary) d hd rest hrest
  refine ⟨?_, hnegation, hunary⟩
  intro d hd rest hrest
  unfold Grammar.layer
  cases d with
  | lambda t params colon body =>
    simp only [ExprDerivation.tokens, List.length_cons, List.length_append] at hd
    have hcolon : Starts (· = .colon) (colon.val :: (body.tokens ++ rest)) := starts_of colon _ rfl
    dsimp only
    rw [ExprDerivation.tokens, List.cons_append, List.append_assoc, List.cons_append, peek_bind,
      if_pos t.property]
    unfold lambda
    rw [bind_of_ok (expect_of_kind t.property), bind_of_ok (lambdaParams_append params hcolon),
      bind_of_ok (expect_of_kind colon.property), bind_of_ok (h.expr body (by omega) rest hrest)]
    rfl
  | disjunction d =>
    have hopeners : ∀ k ∈ (ExprSymbol.chain .disjunction).openers, k ≠ .kwLambda := by decide
    obtain ⟨t, tail, ht, hk⟩ := d.starts.append rest
    dsimp only
    rw [ExprDerivation.tokens, peek_bind_of_eq ht, if_neg (hopeners _ hk)]
    exact complete_disjunction hnegation d hd rest hrest

theorem Grammar.completeUpTo_length (bound : List Token) :
    (Grammar.upTo bound).CompleteUpTo bound.length := by
  -- No derivation has no tokens at all, so that no layer is needed for those.
  have hnone {s : ExprSymbol} (p : Parser Expr) : CompleteFor 0 s p := by
    intro d hd
    obtain ⟨t, tail, ht, -⟩ := d.starts
    rw [ht] at hd
    cases hd
  induction bound with
  | nil => exact ⟨hnone _, hnone _, hnone _⟩
  | cons t bound ih => exact Grammar.CompleteUpTo.layer ⟨ih.expr, ih.negation, ih.unary⟩

theorem complete_expression (d : ExprDerivation .expr) (hrest : Ends 1 rest) :
    expression (d.tokens ++ rest) = .ok (d.tree, rest) := by
  refine (Grammar.completeUpTo_length (d.tokens ++ rest)).expr d ?_ rest hrest
  rw [List.length_append]
  exact Nat.le_add_right _ _

end Expressions

section Statements

variable {rest : List Token} {n : Nat} {stmt chained : Parser Stmt}

theorem hintAfter_append {mark : Kind} (d : HintDerivation mark) (hrest : Starts (· ≠ mark) rest) :
    hintAfter mark (d.tokens ++ rest) = .ok (d.tree, rest) := by
  unfold hintAfter
  cases d with
  | none =>
    obtain ⟨t, tail, rfl, hk⟩ := hrest
    rw [HintDerivation.tokens, List.nil_append, bind_of_ok (accept_of_ne hk)]
    rfl
  | some x =>
    have hk : x.2.val.kind = .identifier ∨ x.2.val.kind = .kwNone := by simpa using x.2.property
    have hhint : hint (x.2.val :: rest) = .ok (text x.2.val, rest) := by
      unfold hint
      rw [peek_bind, if_pos hk]
      rfl
    change (accept mark >>= _) (x.1.val :: x.2.val :: rest) = _
    rw [bind_of_ok (accept_of_kind x.1.property), if_pos rfl, bind_of_ok hhint]
    rfl

theorem moreNames_append (names : List String) (more : List (Of .comma × Of .identifier))
    (hrest : Starts (· ≠ .comma) rest) :
    moreNames names ((more.flatMap fun x => [x.1.val, x.2.val]) ++ rest) =
      .ok (names ++ more.map fun x => text x.2.val, rest) := by
  apply Loops.repeatUntil
  induction more generalizing names with
  | nil =>
    obtain ⟨t, tail, rfl, hk⟩ := hrest
    apply loops_done
    rw [List.flatMap_nil, List.nil_append, bind_of_ok (accept_of_ne hk), List.map_nil,
      List.append_nil]
    rfl
  | cons x more ih =>
    refine loops_item (text x.2.val) ((more.flatMap fun x => [x.1.val, x.2.val]) ++ rest) ?_ ?_ ih
    · change (accept .comma >>= _) (x.1.val :: x.2.val :: _) = _
      rw [bind_of_ok (accept_of_kind x.1.property), if_pos rfl,
        bind_of_ok (expect_of_kind x.2.property)]
      rfl
    · simp only [List.flatMap_cons, List.cons_append, List.nil_append, List.length_cons]
      omega

theorem evaluation_append (d : ExprDerivation .expr) (hrest : Ends 1 rest) :
    evaluation (d.tokens ++ rest) = .ok (.evaluate d.start d.tree, rest) := by
  obtain ⟨t, tail, ht, -⟩ := d.starts.append rest
  unfold evaluation
  rw [peek_bind_of_eq ht, bind_of_ok (complete_expression d hrest), d.start_eq ht]
  rfl

theorem complete_simple (d : SimpleDerivation) (hrest : Starts (· = .newline) rest) :
    simple (d.tokens ++ rest) = .ok (d.tree, rest) := by
  have hends : Ends 1 rest := hrest.mono fun k hk => hk ▸ (by decide)
  unfold simple
  cases d with
  | pass t =>
    rw [SimpleDerivation.tokens, List.singleton_append, peek_bind, t.property]
    rfl
  | ret t value =>
    rw [SimpleDerivation.tokens, List.cons_append, peek_bind, t.property]
    dsimp only
    rw [next_bind]
    cases value with
    | none =>
      obtain ⟨u, tail, rfl, hu⟩ := hrest
      rw [Option.elim_none, List.nil_append, peek_bind, if_pos hu]
      rfl
    | some d =>
      have hopeners : ∀ k ∈ ExprSymbol.expr.openers, k ≠ .newline := by decide
      obtain ⟨u, tail, hu, hk⟩ := d.starts.append rest
      rw [Option.elim_some, peek_bind_of_eq hu, if_neg (hopeners _ hk),
        bind_of_ok (complete_expression d hends)]
      rfl
  | globals t first more =>
    rw [SimpleDerivation.tokens, List.cons_append, List.cons_append, peek_bind, t.property]
    dsimp only
    have hcomma : Starts (· ≠ .comma) rest := hrest.mono fun k hk => hk ▸ (by decide)
    rw [next_bind, bind_of_ok (expect_of_kind first.property),
      bind_of_ok (moreNames_append _ more hcomma)]
    rfl
  | assign t hint sign value =>
    have hsign : Starts (· ≠ .colon) (sign.val :: (value.tokens ++ rest)) :=
      starts_of sign _ (by decide)
    have hsecond : headKind (hint.tokens ++ sign.val :: (value.tokens ++ rest)) = .assign ∨
        headKind (hint.tokens ++ sign.val :: (value.tokens ++ rest)) = .colon := by
      cases hint with
      | none => exact .inl sign.property
      | some x => exact .inr x.1.property
    rw [SimpleDerivation.tokens, List.cons_append, List.append_assoc, List.cons_append, peek_bind,
      t.property]
    dsimp only
    rw [nameStatement_of_assign hsecond]
    unfold assignment
    rw [bind_of_ok (expect_of_kind t.property), bind_of_ok (hintAfter_append hint hsign),
      bind_of_ok (expect_of_kind sign.property), bind_of_ok (complete_expression value hends)]
    rfl
  | augment t sign op h value =>
    have hop : augmentedBy? (headKind (sign :: (value.tokens ++ rest))) = some op :=
      augmentedBy?_eq_some_iff.mpr h
    rw [SimpleDerivation.tokens, List.cons_append, List.cons_append, peek_bind, t.property]
    dsimp only
    rw [nameStatement_of_augment hop, next_bind, bind_of_ok (complete_expression value hends)]
    rfl
  | evaluate value =>
    have hevaluation := evaluation_append value hends
    obtain ⟨t, tail, ht, hk⟩ := value.starts.append rest
    rw [SimpleDerivation.tokens]
    rw [ht] at hevaluation ⊢
    apply peek_bind_eq_of_forall
    intro p hp
    split at hp
    case h_1 heq | h_2 heq | h_3 heq => exact absurd (heq ▸ hk) (by decide)
    case h_4 hname =>
      obtain ⟨u, more, rfl, hsecond⟩ := value.no_sign_after_name ht hname hrest
      rw [List.mem_append, List.mem_pair, not_or] at hsecond
      obtain ⟨hassign, haugment⟩ := hsecond
      have hother : ¬(headKind (u :: more) = .assign ∨ headKind (u :: more) = .colon) := hassign
      have hop : augmentedBy? (headKind (u :: more)) = none := by
        rw [Option.eq_none_iff_forall_ne_some]
        intro op hop
        exact haugment (List.mem_map_of_mem (augmentedBy?_eq_some_iff.mp hop))
      rw [hp, nameStatement_of_other hother hop]
      exact hevaluation
    case h_5 =>
      rw [hp]
      exact hevaluation

theorem simpleLine_append (d : SimpleDerivation) (newline : Of .newline) (rest : List Token) :
    simpleLine (d.tokens ++ newline.val :: rest) = .ok (d.tree, rest) := by
  unfold simpleLine
  rw [bind_of_ok (complete_simple d (starts_of newline rest rfl)),
    bind_of_ok (expect_of_kind newline.property)]
  rfl

/-- A parser reads all statements of up to `n` tokens if what follows does not go on with them. -/
def CompleteStmt (n : Nat) (p : Parser Stmt) : Prop :=
  ∀ d : StmtDerivation, d.tokens.length ≤ n → ∀ rest, EndsStmt rest →
    p (d.tokens ++ rest) = .ok (d.tree, rest)

def CompleteAfter (k : Kind) (n : Nat) (p : Parser Stmt) : Prop :=
  ∀ d : ConditionalDerivation k, d.tokens.length ≤ n → ∀ rest, EndsStmt rest →
    p (d.tokens ++ rest) = .ok (d.tree, rest)

theorem complete_block (hstmt : CompleteStmt n stmt) (d : BlockDerivation)
    (hd : d.tokens.length ≤ n) : block stmt (d.tokens ++ rest) = .ok (d.tree, rest) := by
  unfold block
  cases d with
  | line colon d newline =>
    have hopeners : ∀ k ∈ SimpleDerivation.openers, k ≠ .newline := by decide
    obtain ⟨t, tail, ht, hk⟩ := d.starts.append (newline.val :: rest)
    rw [BlockDerivation.tokens, List.cons_append, List.append_assoc, List.singleton_append,
      bind_of_ok (expect_of_kind colon.property), peek_bind_of_eq ht, if_pos (hopeners _ hk),
      bind_of_ok (simpleLine_append d newline rest)]
    rfl
  | suite colon newline indent body dedent =>
    simp only [BlockDerivation.tokens, List.length_cons, List.length_append] at hd
    rw [BlockDerivation.tokens, List.cons_append, List.cons_append, List.cons_append,
      List.append_assoc, List.singleton_append, bind_of_ok (expect_of_kind colon.property),
      peek_bind, if_neg (not_not.mpr newline.property), next_bind,
      bind_of_ok (expect_of_kind indent.property)]
    refine Eq.trans (bind_of_ok (repeatUntil_of_loops
      (?_ : ∀ sofar, Loops _ sofar _ (sofar ++ body.tree) (dedent.val :: rest)))) ?_
    · have hbody : body.tokens.length ≤ n := by omega
      intro sofar
      clear hd
      induction body using StmtsDerivation.ind generalizing sofar with
      | nil =>
        apply loops_done
        rw [StmtsDerivation.tokens, List.nil_append, peek_bind, if_pos (.inl dedent.property),
          StmtsDerivation.tree, List.append_nil]
        rfl
      | cons d body ih =>
        have hopeners : ∀ k ∈ StmtDerivation.openers, ¬(k = .dedent ∨ k = .eof) := by decide
        have hends : EndsStmt (body.tokens ++ dedent.val :: rest) :=
          body.ends (starts_of dedent rest (by decide))
        simp only [StmtsDerivation.tokens, List.length_append] at hbody
        obtain ⟨t, tail, ht, hk⟩ := d.starts
        refine loops_item d.tree (body.tokens ++ dedent.val :: rest) ?_ ?_ (ih (by omega))
        · rw [StmtsDerivation.tokens, List.append_assoc,
            peek_bind_of_eq (congrArg (· ++ _) ht), if_neg (hopeners _ hk),
            bind_of_ok (hstmt d (by omega) _ hends)]
          rfl
        · rw [StmtsDerivation.tokens, List.append_assoc, ht]
          simp
    · rw [bind_of_ok (expect_of_kind dedent.property)]
      rfl

theorem parameter_append (d : ParamDerivation) (hrest : Starts (· ∈ [.comma, .rightParen]) rest) :
    parameter (d.tokens ++ rest) = .ok (d.tree, rest) := by
  have hother : ∀ k ∈ [Kind.comma, .rightParen], k ≠ .colon := by decide
  unfold parameter
  rw [ParamDerivation.tokens, List.cons_append, bind_of_ok (expect_of_kind d.name.property),
    bind_of_ok (hintAfter_append d.hint (hrest.mono hother))]
  rfl

theorem complete_definition (hstmt : CompleteStmt n stmt) (t : Of .kwDef) (name : Of .identifier)
    (left : Of .leftParen) (params : CommaList ParamDerivation) (right : Of .rightParen)
    (returns : HintDerivation .arrow) (body : BlockDerivation) (hbody : body.tokens.length ≤ n)
    (rest : List Token) :
    definition stmt ((StmtDerivation.define t name left params right returns body).tokens ++ rest) =
      .ok ((StmtDerivation.define t name left params right returns body).tree, rest) := by
  have hparams : commaSeparated parameter .rightParen (params.tokens ParamDerivation.tokens ++
      right.val :: (returns.tokens ++ (body.tokens ++ rest))) =
      .ok (params.tree ParamDerivation.tree,
        right.val :: (returns.tokens ++ (body.tokens ++ rest))) :=
    commaSeparated_append (by decide) (fun d => starts_of d.name _ (by decide))
      (fun d _ rest hrest => parameter_append d hrest) params (Nat.le_refl _)
      (starts_of right _ rfl)
  have harrow : Starts (· ≠ .arrow) (body.tokens ++ rest) :=
    (body.starts.mono fun k hk => hk ▸ (by decide)).append rest
  unfold definition
  rw [StmtDerivation.tokens, List.cons_append, List.cons_append, List.cons_append,
    List.append_assoc, List.cons_append, List.append_assoc,
    bind_of_ok (expect_of_kind t.property), bind_of_ok (expect_of_kind name.property),
    bind_of_ok (expect_of_kind left.property), bind_of_ok hparams,
    bind_of_ok (expect_of_kind right.property), bind_of_ok (hintAfter_append returns harrow),
    bind_of_ok (complete_block hstmt body hbody)]
  rfl

theorem complete_whileLoop (hstmt : CompleteStmt n stmt) (t : Of .kwWhile)
    (cond : ExprDerivation .expr) (body : BlockDerivation) (hbody : body.tokens.length ≤ n)
    (rest : List Token) :
    whileLoop stmt ((StmtDerivation.loop t cond body).tokens ++ rest) =
      .ok ((StmtDerivation.loop t cond body).tree, rest) := by
  unfold whileLoop
  rw [StmtDerivation.tokens, List.cons_append, List.append_assoc,
    bind_of_ok (expect_of_kind t.property), bind_of_ok (complete_expression cond body.ends),
    bind_of_ok (complete_block hstmt body hbody)]
  rfl

theorem complete_conditional (hstmt : CompleteStmt n stmt)
    (hchained : CompleteAfter .kwElif n chained) (k : Kind) :
    CompleteAfter k (n + 1) (conditional stmt chained) := by
  intro d hd rest hrest
  cases d with
  | mk t cond body orElse =>
    simp only [ConditionalDerivation.tokens, List.length_cons, List.length_append] at hd
    unfold conditional
    rw [ConditionalDerivation.tokens, List.cons_append, List.append_assoc, List.append_assoc,
      next_bind, bind_of_ok (complete_expression cond body.ends),
      bind_of_ok (complete_block hstmt body (by omega))]
    cases orElse with
    | none =>
      obtain ⟨t', tail, rfl, hk⟩ := hrest
      rw [ElseDerivation.tokens, List.nil_append]
      apply peek_bind_eq_of_forall
      intro p hp
      split at hp
      case h_1 heq | h_2 heq => exact absurd (heq ▸ hk) (by decide)
      case h_3 => rw [hp]; rfl
    | elif d =>
      have hd' := hchained d (by simp only [ElseDerivation.tokens] at hd; omega) rest hrest
      cases d with
      | mk t' cond' body' orElse' =>
        rw [ElseDerivation.tokens]
        rw [ConditionalDerivation.tokens, List.cons_append] at hd' ⊢
        rw [peek_bind, t'.property]
        dsimp only
        rw [bind_of_ok hd']
        rfl
    | block t' body' =>
      simp only [ElseDerivation.tokens, List.length_cons] at hd
      rw [ElseDerivation.tokens, List.cons_append, peek_bind, t'.property]
      dsimp only
      rw [next_bind, bind_of_ok (complete_block hstmt body' (by omega))]
      rfl

structure Statements.CompleteUpTo (n : Nat) (g : Statements) : Prop where
  stmt : CompleteStmt n g.stmt
  chained : CompleteAfter .kwElif n g.chained

theorem Statements.CompleteUpTo.layer {inner : Statements} (h : inner.CompleteUpTo n) :
    (Statements.layer inner).CompleteUpTo (n + 1) := by
  refine ⟨?_, complete_conditional h.stmt h.chained .kwElif⟩
  intro d hd rest hrest
  unfold Statements.layer
  cases d with
  | define t name left params right returns body =>
    have hbody : body.tokens.length ≤ n := by
      simp only [StmtDerivation.tokens, List.length_cons, List.length_append] at hd
      omega
    have hread := complete_definition h.stmt t name left params right returns body hbody rest
    rw [StmtDerivation.tokens, List.cons_append] at hread ⊢
    dsimp only
    rw [peek_bind, t.property]
    exact hread
  | branch d =>
    have hread := complete_conditional h.stmt h.chained .kwIf d hd rest hrest
    cases d with
    | mk t cond body orElse =>
      rw [StmtDerivation.tokens]
      rw [ConditionalDerivation.tokens, List.cons_append] at hread ⊢
      dsimp only
      rw [peek_bind, t.property]
      exact hread
  | loop t cond body =>
    have hbody : body.tokens.length ≤ n := by
      simp only [StmtDerivation.tokens, List.length_cons, List.length_append] at hd
      omega
    have hread := complete_whileLoop h.stmt t cond body hbody rest
    rw [StmtDerivation.tokens, List.cons_append] at hread ⊢
    dsimp only
    rw [peek_bind, t.property]
    exact hread
  | simple d newline =>
    have hread := simpleLine_append d newline rest
    obtain ⟨t, tail, ht, hk⟩ := d.starts.append (newline.val :: rest)
    rw [StmtDerivation.tokens, List.append_assoc, List.singleton_append]
    rw [ht] at hread ⊢
    dsimp only
    apply peek_bind_eq_of_forall
    intro p hp
    split at hp
    case h_1 heq | h_2 heq | h_3 heq => exact absurd (heq ▸ hk) (by decide)
    case h_4 =>
      rw [hp]
      exact hread

theorem Statements.completeUpTo_length (bound : List Token) :
    (Statements.upTo bound).CompleteUpTo bound.length := by
  induction bound with
  | nil =>
    refine ⟨fun d hd => ?_, fun d hd => ?_⟩
    · obtain ⟨t, tail, ht, -⟩ := d.starts
      rw [ht] at hd
      cases hd
    · cases d with
      | mk t cond body orElse => cases hd
  | cons t bound ih => exact Statements.CompleteUpTo.layer ⟨ih.stmt, ih.chained⟩

theorem complete_statement (d : StmtDerivation) (hrest : EndsStmt rest) :
    statement (d.tokens ++ rest) = .ok (d.tree, rest) := by
  refine (Statements.completeUpTo_length (d.tokens ++ rest)).stmt d ?_ rest hrest
  rw [List.length_append]
  exact Nat.le_add_right _ _

theorem statements_append (d : StmtsDerivation) (eof : Of .eof) {sofar : List Stmt}
    (hn : d.tokens.length < n) :
    statements n sofar (d.tokens ++ eof.val :: rest) = ⟨sofar ++ d.tree, none⟩ := by
  induction d using StmtsDerivation.ind generalizing n sofar with
  | nil =>
    obtain _ | n := n
    · cases hn
    · rw [StmtsDerivation.tokens, List.nil_append, statements, if_pos eof.property,
        StmtsDerivation.tree, List.append_nil]
  | cons d more ih =>
    have hopeners : ∀ k ∈ StmtDerivation.openers, k ≠ .eof := by decide
    have hends : EndsStmt (more.tokens ++ eof.val :: rest) :=
      more.ends (starts_of eof rest (by decide))
    have hread := complete_statement d hends
    obtain ⟨t, tail, ht, hk⟩ := d.starts
    rw [StmtsDerivation.tokens, List.length_append, ht, List.length_cons] at hn
    obtain _ | n := n
    · cases hn
    · rw [StmtsDerivation.tokens, List.append_assoc]
      rw [ht, List.cons_append] at hread ⊢
      rw [statements, if_neg (hopeners _ hk), hread]
      dsimp only
      rw [ih (by omega), StmtsDerivation.tree, List.append_assoc]
      rfl

end Statements

end BoardPython.Parser
