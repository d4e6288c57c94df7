import BoardPython.Proofs.GrammarCompleteness

/-! How far the parser looks ahead. It reads a phrase of the grammar and leaves the token after it, or
it fails at a token, and then what stands in front of that token is the beginning of a phrase. Main
statements: `decides_expression` and `decides_statement`. -/
namespace BoardPython

open Token (Kind Of OneOf)

theorem Token.exists_of (k : Kind) : Nonempty (Of k) := ⟨⟨⟨k, [], default⟩, rfl⟩⟩

theorem ExprDerivation.exists_atom : Nonempty (ExprDerivation .atom) := by
  obtain ⟨t⟩ := Token.exists_of .kwNone
  exact ⟨.none t⟩

theorem ExprDerivation.exists_expr : Nonempty (ExprDerivation .expr) := by
  obtain ⟨atom⟩ := exists_atom
  exact ⟨atom.alone⟩

/-- Any items can follow: these have been collected from tokens that end with a comma, if there are
any. -/
def CommaList.Collected {δ α : Type} (tokens : δ → List Token) (tree : δ → α) (items : List α)
    (used : List Token) : Prop :=
  ∀ more : CommaList δ, Parser.Derives (CommaList.tokens tokens) (CommaList.tree tree)
    (items ++ more.tree tree) (used ++ more.tokens tokens)

namespace Parser

section Expressions

variable {k n : Nat} {ts : List Token} {expr unary operand negation : List Token → Parser Expr}
  {V : List Token → Prop}

theorem decides_adjacentStrings (value : Bytes) :
    Decides k (fun _ => adjacentStrings value) ts
      (Derives (fun more : List (Of .string) => more.map (·.val))
        fun more => value ++ more.flatMap (·.val.text)) V := by
  refine decides_repeatUntil (I := Derives (fun more : List (Of .string) => more.map (·.val))
    fun more => value ++ more.flatMap (·.val.text)) ?_ ⟨[], rfl, List.append_nil value⟩
  rintro _ _ rest - ⟨more, rfl, rfl⟩
  refine decides_peek_bind fun t tail hcons => ?_
  subst hcons
  by_cases hk : t.kind = .string
  · simp only [if_pos hk]
    refine decides_next_bind (by rw [hk]; decide) (decides_pure ⟨List.cons_ne_nil _ _, ?_⟩)
    exact ⟨more ++ [⟨t, hk⟩], by simp, by simp⟩
  · simp only [if_neg hk]
    exact decides_pure ⟨more, (List.append_nil _).symm, rfl⟩

theorem decides_commaSeparated {α δ : Type} {tokens : δ → List Token} {tree : δ → α}
    {item : List Token → Parser α}
    (hitem : ∀ rest, rest.length ≤ ts.length →
      Decides k item rest (Derives tokens tree) (Viable tokens)) (closing : Kind) :
    Decides k (fun b => commaSeparated (item b) closing) ts
      (Derives (CommaList.tokens tokens) (CommaList.tree tree))
      (Viable (CommaList.tokens tokens)) := by
  refine decides_repeatUntil (I := CommaList.Collected tokens tree) ?_ fun more => ⟨more, rfl, rfl⟩
  intro items used rest hts hcollected
  have hle : rest.length ≤ ts.length := by
    rw [hts, List.length_append]
    omega
  refine decides_peek_bind fun t tail hcons => ?_
  by_cases hk : t.kind = closing
  · simp only [if_pos hk]
    obtain ⟨d, hd, htree⟩ := hcollected .nil
    exact decides_pure ⟨d, hd, htree.trans (List.append_nil items)⟩
  simp only [if_neg hk]
  refine Decides.bind (((hitem rest hle).mono (Nat.le_add_right k _)).part fun d u more hd => ?_) ?_
  · obtain ⟨d', hd', -⟩ := hcollected (.last d)
    exact ⟨d', by simp [hd', CommaList.tokens, hd]⟩
  rintro _ _ rest' - ⟨d, rfl, rfl⟩
  refine decides_accept_bind (by decide) (fun comma rest'' _ => ?_) ?_
  · refine decides_pure ⟨by simp, fun more => ?_⟩
    obtain ⟨d', hd', htree⟩ := hcollected (.cons d comma more)
    exact ⟨d', by simp [hd', CommaList.tokens], by simp [htree, CommaList.tree]⟩
  · obtain ⟨d', hd', htree⟩ := hcollected (.last d)
    exact decides_pure ⟨d', by simp [hd', CommaList.tokens], htree⟩

abbrev ParsesExpr (n k : Nat) (s : ExprSymbol) (p : List Token → Parser Expr) : Prop :=
  Parses n k (@ExprDerivation.tokens s) ExprDerivation.tree p

theorem decides_items (hexpr : ParsesExpr n 1 .expr expr) (hts : ts.length < n) (hk : 1 ≤ k)
    (closing : Kind) :
    Decides k (fun b => commaSeparated (expr b) closing) ts
      (Derives ItemsDerivation.tokens ItemsDerivation.tree) (Viable ItemsDerivation.tokens) := by
  refine (decides_commaSeparated (fun rest hle => (hexpr rest (hle.trans_lt hts)).mono hk)
    closing).retag ItemsDerivation.ofList (fun d => ?_) fun d => ?_
  · rw [ItemsDerivation.tokens_eq, ItemsDerivation.toList_ofList]
  · rw [ItemsDerivation.tree_eq, ItemsDerivation.toList_ofList]

theorem parses_atom (hexpr : ParsesExpr n 1 .expr expr) :
    ParsesExpr (n + 1) 0 .atom fun b => atom (expr b) := by
  intro ts hts
  have hnone : Viable (@ExprDerivation.tokens .atom) [] := by
    obtain ⟨d⟩ := ExprDerivation.exists_atom
    exact ⟨d, List.nil_prefix⟩
  refine decides_peek_bind fun t tail hcons => ?_
  subst hcons
  rw [List.length_cons] at hts
  have hsingle (d : ExprDerivation .atom) (hd : d.tokens = [t]) (ht : t.kind ≠ .eof) :
      Decides 0 (fun _ => next >>= fun _ => pure d.tree) (t :: tail)
        (Derives ExprDerivation.tokens ExprDerivation.tree) (Viable (@ExprDerivation.tokens .atom)) :=
    decides_next_bind ht (decides_pure ⟨d, hd, rfl⟩)
  cases hk : t.kind with
  | number =>
    -- A bad number is an error at the number itself, though it has been taken.
    cases hread : Number.Numeral.read t.text with
    | ok value =>
      have hnumber : numberAtom t = pure (.number t.position value (text t)) := by
        rw [numberAtom, hread]
      simp only [hnumber]
      exact hsingle (.number ⟨t, hk⟩ value hread) rfl (by rw [hk]; decide)
    | error bad =>
      obtain ⟨fault, hfault⟩ : ∃ fault, numberAtom t = fail t.position fault := by
        cases bad with
        | integer => exact ⟨.badInteger t.text, by rw [numberAtom, hread]⟩
        | float => exact ⟨.badFloat t.text, by rw [numberAtom, hread]⟩
      simp only [hfault]
      have hsplit : t :: tail = [] ++ t :: tail := rfl
      exact .fails (e := ⟨t.position, fault⟩) hsplit rfl hnone fun _ _ _ => rfl
  | string =>
    refine decides_next_bind (by rw [hk]; decide) ((decides_adjacentStrings _).bind ?_)
    rintro _ _ rest - ⟨more, rfl, rfl⟩
    exact decides_pure ⟨.strings ⟨t, hk⟩ more, by simp [ExprDerivation.tokens], rfl⟩
  | kwTrue => exact hsingle (.true ⟨t, hk⟩) rfl (by rw [hk]; decide)
  | kwFalse => exact hsingle (.false ⟨t, hk⟩) rfl (by rw [hk]; decide)
  | kwNone => exact hsingle (.none ⟨t, hk⟩) rfl (by rw [hk]; decide)
  | ellipsis => exact hsingle (.ellipsis ⟨t, hk⟩) rfl (by rw [hk]; decide)
  | identifier => exact hsingle (.name ⟨t, hk⟩) rfl (by rw [hk]; decide)
  | leftParen =>
    obtain ⟨right⟩ := Token.exists_of .rightParen
    refine decides_next_bind (by rw [hk]; decide) (Decides.bind
      ((hexpr tail (by omega)).part fun d u more hd => ?_) ?_)
    · exact ⟨.paren ⟨t, hk⟩ d right, by simp [ExprDerivation.tokens, hd]⟩
    rintro _ _ rest - ⟨d, rfl, rfl⟩
    refine decides_expect_bind (by decide) ?_ fun right _ _ => decides_pure ?_
    · exact ⟨.paren ⟨t, hk⟩ d right, by simp [ExprDerivation.tokens]⟩
    · exact ⟨.paren ⟨t, hk⟩ d right, rfl, rfl⟩
  | leftBracket =>
    obtain ⟨right⟩ := Token.exists_of .rightBracket
    refine decides_next_bind (by rw [hk]; decide) (Decides.bind
      ((decides_items hexpr (by omega) (by omega) _).part fun d u more hd => ?_) ?_)
    · exact ⟨.list ⟨t, hk⟩ d right, by simp [ExprDerivation.tokens, hd]⟩
    rintro _ _ rest - ⟨d, rfl, rfl⟩
    refine decides_expect_bind (by decide) ?_ fun right _ _ => decides_pure ?_
    · exact ⟨.list ⟨t, hk⟩ d right, by simp [ExprDerivation.tokens]⟩
    · exact ⟨.list ⟨t, hk⟩ d right, rfl, rfl⟩
  | _ => exact decides_fail hnone

theorem parses_postfixes (hexpr : ParsesExpr n 1 .expr expr) :
    ParsesExpr (n + 1) 0 .postfixes fun b => postfixes (expr b) := by
  intro ts hts
  refine Decides.bind ((parses_atom hexpr ts hts).part fun d u more hd => ?_) ?_
  · exact ⟨.trailed d .stop, by simp [ExprDerivation.tokens, hd]⟩
  rintro _ _ rest rfl ⟨first, rfl, rfl⟩
  obtain ⟨t₀, tail₀, hfirst, -⟩ := first.starts
  -- Behind each call and attribute, any others can follow.
  refine decides_repeatUntil (I := fun e used => ∀ more : TrailDerivation,
    Derives (@ExprDerivation.tokens .postfixes) ExprDerivation.tree (more.tree e)
      (first.tokens ++ (used ++ more.tokens))) ?_ fun more => ⟨.trailed first more, rfl, rfl⟩
  rintro e used rest' rfl htrail
  refine decides_peek_bind fun t tail hcons => ?_
  subst hcons
  simp only [hfirst, List.length_append, List.length_cons] at hts
  cases hk : t.kind with
  | leftParen =>
    obtain ⟨right⟩ := Token.exists_of .rightParen
    refine decides_next_bind (by rw [hk]; decide) (Decides.bind
      ((decides_items hexpr (by omega) (by omega) _).part fun args u more hargs => ?_) ?_)
    · obtain ⟨d, hd, -⟩ := htrail (.call ⟨t, hk⟩ args right .stop)
      exact ⟨d, by simp [hd, TrailDerivation.tokens, hargs]⟩
    rintro _ _ rest - ⟨args, rfl, rfl⟩
    refine decides_expect_bind (by decide) ?_ fun right _ _ => decides_pure ⟨by simp, ?_⟩
    · obtain ⟨d, hd, -⟩ := htrail (.call ⟨t, hk⟩ args right .stop)
      exact ⟨d, by simp [hd, TrailDerivation.tokens]⟩
    · intro more
      obtain ⟨d, hd, htree⟩ := htrail (.call ⟨t, hk⟩ args right more)
      exact ⟨d, by simp [hd, TrailDerivation.tokens], htree⟩
  | dot =>
    obtain ⟨field⟩ := Token.exists_of .identifier
    refine decides_next_bind (by rw [hk]; decide) (decides_expect_bind (by decide) ?_
      fun field _ _ => decides_pure ⟨by simp, ?_⟩)
    · obtain ⟨d, hd, -⟩ := htrail (.member ⟨t, hk⟩ field .stop)
      exact ⟨d, by simp [hd, TrailDerivation.tokens]⟩
    · intro more
      obtain ⟨d, hd, htree⟩ := htrail (.member ⟨t, hk⟩ field more)
      exact ⟨d, by simp [hd, TrailDerivation.tokens], htree⟩
  | leftBracket =>
    obtain ⟨d, hd, -⟩ := htrail .stop
    exact decides_fail ⟨d, by simp [hd, TrailDerivation.tokens]⟩
  | _ => exact decides_pure (htrail .stop)

theorem parses_power (hexpr : ParsesExpr n 1 .expr expr) (hunary : ParsesExpr n 1 .unary unary) :
    ParsesExpr (n + 1) 0 .power fun b => power (expr b) (unary b) := by
  intro ts hts
  refine Decides.bind ((parses_postfixes hexpr ts hts).part fun d u more hd => ?_) ?_
  · exact ⟨.postfixes d, by simp [ExprDerivation.tokens, hd]⟩
  rintro _ _ rest rfl ⟨base, rfl, rfl⟩
  refine decides_peek_bind fun t tail hcons => ?_
  subst hcons
  rw [List.length_append, List.length_cons] at hts
  by_cases hk : t.kind = .doubleStar
  · simp only [if_pos hk]
    exact decides_next_bind (by rw [hk]; decide) (((hunary tail (by omega)).mono (by omega)).last
      (.raised base ⟨t, hk⟩) (by simp) (fun _ => by simp [ExprDerivation.tokens])
      fun _ => by rw [ExprDerivation.tree, hk])
  · simp only [if_neg hk]
    exact decides_pure ⟨.postfixes base, (List.append_nil _).symm, rfl⟩

theorem parses_signed (hexpr : ParsesExpr n 1 .expr expr) (hunary : ParsesExpr n 1 .unary unary) :
    ParsesExpr (n + 1) 0 .unary fun b => signed (expr b) (unary b) := by
  intro ts hts
  refine decides_peek_bind fun t tail hcons => ?_
  by_cases hk : isSign t.kind = true
  · simp only [if_pos hk]
    subst hcons
    have hne : t.kind ≠ .eof := fun heq => absurd (heq ▸ hk) (by decide)
    exact decides_next_bind hne ((hunary tail (Nat.lt_of_succ_lt_succ hts)).last
      (.signed ⟨t, isSign_iff.mp hk⟩) (by simp) (fun _ => by simp [ExprDerivation.tokens])
      fun _ => rfl)
  · simp only [if_neg hk]
    exact (parses_power hexpr hunary ts hts).retag .power (fun _ => rfl) fun _ => rfl

/-- Operators and operands after the first operand of a chain, whatever they are collected to. -/
theorem decides_chain {σ : Type} {l : Level} {is : Kind → Bool}
    (his : ∀ j, is j = true ↔ j ∈ l.operators) (grow : σ → Token → Expr → σ)
    (hoperand : ParsesExpr n 0 l.operand operand) (first : ExprDerivation l.operand) (s : σ)
    (hts : ts.length < n) :
    Decides k (fun b => repeatUntil (fun s => do
        let t ← peek
        if is t.kind then
          let _ ← next
          return .again (grow s t (← operand b))
        else return .done s) s) ts
      (Derives (@ChainDerivation.tokens l) fun d => d.tree.foldl (fun s x => grow s x.1 x.2) s)
      fun u => Viable (@ExprDerivation.tokens (.chain l)) (first.tokens ++ u) := by
  refine decides_repeatUntil (I := fun s' used => ∀ more : ChainDerivation l,
    Derives (@ChainDerivation.tokens l) (fun d => d.tree.foldl (fun s x => grow s x.1 x.2) s)
      (more.tree.foldl (fun s x => grow s x.1 x.2) s') (used ++ more.tokens)) ?_
    fun more => ⟨more, rfl, rfl⟩
  rintro s' used rest rfl hchain
  refine decides_peek_bind fun t tail hcons => ?_
  subst hcons
  rw [List.length_append, List.length_cons] at hts
  by_cases hk : is t.kind = true
  · simp only [if_pos hk]
    have hop := (his t.kind).mp hk
    have hne : t.kind ≠ .eof := fun heq => absurd (heq ▸ hop) (Level.eof_notMem_operators l)
    refine decides_next_bind hne (Decides.bind
      (((hoperand tail (by omega)).mono (Nat.zero_le _)).part fun d u more hd => ?_) ?_)
    · obtain ⟨c, hc, -⟩ := hchain (.again ⟨t, hop⟩ d .stop)
      exact ⟨.chain first c, by simp [ExprDerivation.tokens, hc, ChainDerivation.tokens, hd]⟩
    rintro _ _ rest - ⟨d, rfl, rfl⟩
    refine decides_pure ⟨by simp, fun more => ?_⟩
    obtain ⟨c, hc, htree⟩ := hchain (.again ⟨t, hop⟩ d more)
    exact ⟨c, by simp [hc, ChainDerivation.tokens], htree⟩
  · simp only [if_neg hk]
    exact decides_pure (hchain .stop)

theorem parses_leftChain (l : Level) (node : Position → Kind → Expr → Expr → Expr)
    (hfolds : Folds l node) (hoperand : ParsesExpr n 0 l.operand operand) :
    ParsesExpr n 0 (.chain l) fun b => leftChain l.operators node (operand b) := by
  intro ts hts
  refine Decides.bind ((hoperand ts hts).part fun d u more hd => ?_) ?_
  · exact ⟨.chain d .stop, by simp [ExprDerivation.tokens, hd]⟩
  rintro _ _ rest rfl ⟨first, rfl, rfl⟩
  rw [List.length_append] at hts
  refine (decides_chain (fun j => List.contains_iff_mem)
    (fun left t right => node t.position t.kind left right) hoperand first first.tree
    (by omega)).weaken ?_ fun _ hu => hu
  rintro _ _ ⟨c, rfl, rfl⟩
  exact ⟨.chain first c, rfl, hfolds _ _⟩

theorem parses_arithmetic (hoperand : ParsesExpr n 0 .unary operand) :
    ParsesExpr n 0 (.chain .pipe) fun b => arithmetic (operand b) := by
  have hproduct := parses_leftChain .product .binary (fun _ _ => rfl) hoperand
  have hsum := parses_leftChain .sum .binary (fun _ _ => rfl) hproduct
  have hshift := parses_leftChain .shift .binary (fun _ _ => rfl) hsum
  have hampersand := parses_leftChain .ampersand .binary (fun _ _ => rfl) hshift
  have hcaret := parses_leftChain .caret .binary (fun _ _ => rfl) hampersand
  exact parses_leftChain .pipe .binary (fun _ _ => rfl) hcaret

theorem parses_comparison (hoperand : ParsesExpr n 0 Level.comparison.operand operand) :
    ParsesExpr n 0 (.chain .comparison) fun b => comparison (operand b) := by
  intro ts hts
  refine Decides.bind ((hoperand ts hts).part fun d u more hd => ?_) ?_
  · exact ⟨.chain d .stop, by simp [ExprDerivation.tokens, hd]⟩
  rintro _ _ rest rfl ⟨first, rfl, rfl⟩
  rw [List.length_append] at hts
  refine (decides_chain (l := .comparison) (fun j => isComparison_iff)
    (fun s t right => (s.1 ++ [t.kind], s.2 ++ [right])) hoperand first ([], [first.tree])
    (by omega)).bind ?_
  rintro _ _ rest - ⟨c, rfl, rfl⟩
  have hempty : (c.tree.map (·.1.kind)).isEmpty = c.tree.isEmpty := by simp
  simp only [foldl_collected, List.nil_append, hempty]
  by_cases hc : c.tree.isEmpty = true
  · simp only [if_pos hc]
    refine decides_pure ⟨.chain first c, by simp [ExprDerivation.tokens], ?_⟩
    rw [ExprDerivation.tree, Level.join, if_pos hc]
  · simp only [if_neg hc]
    refine decides_pure ⟨.chain first c, by simp [ExprDerivation.tokens], ?_⟩
    rw [ExprDerivation.tree, Level.join, if_neg hc]
    rfl

theorem parses_disjunction (hnegation : ParsesExpr n 0 .negation negation) :
    ParsesExpr n 0 (.chain .disjunction) fun b => disjunction (negation b) := by
  have hconjunction := parses_leftChain .conjunction .logical (fun _ _ => rfl) hnegation
  exact parses_leftChain .disjunction .logical (fun _ _ => rfl) hconjunction

theorem decides_lambdaParams :
    Decides k (fun _ => lambdaParams) ts
      (Derives (CommaList.tokens fun name : Of .identifier => [name.val])
        (CommaList.tree fun name => text name.val)) V := by
  refine decides_repeatUntil (I := CommaList.Collected (fun name : Of .identifier => [name.val])
    fun name => text name.val) ?_ fun more => ⟨more, rfl, rfl⟩
  rintro names used rest - hcollected
  refine decides_peek_bind fun t tail hcons => ?_
  subst hcons
  by_cases hk : t.kind = .identifier
  · simp only [if_pos hk]
    refine decides_next_bind (by rw [hk]; decide) (decides_accept_bind (by decide) ?_ ?_)
    · refine fun comma rest _ => decides_pure ⟨by simp, fun more => ?_⟩
      obtain ⟨d, hd, htree⟩ := hcollected (.cons ⟨t, hk⟩ comma more)
      exact ⟨d, by simp [hd, CommaList.tokens], by simp [htree, CommaList.tree]⟩
    · exact decides_pure (hcollected (.last ⟨t, hk⟩))
  · simp only [if_neg hk]
    obtain ⟨d, hd, htree⟩ := hcollected .nil
    exact decides_pure ⟨d, hd, htree.trans (List.append_nil names)⟩

theorem parses_lambda (hexpr : ParsesExpr n 1 .expr expr) :
    ParsesExpr (n + 1) 0 .expr fun b => lambda (expr b) := by
  intro ts hts
  obtain ⟨colon⟩ := Token.exists_of .colon
  obtain ⟨body⟩ := ExprDerivation.exists_expr
  refine decides_expect_bind (by decide) ⟨body, List.nil_prefix⟩ fun t tail hcons => ?_
  rw [hcons, List.length_cons] at hts
  refine decides_lambdaParams.bind ?_
  rintro _ _ rest rfl ⟨params, rfl, rfl⟩
  refine decides_expect_bind (by decide) ?_ fun colon tail hcons => ?_
  · exact ⟨.lambda t params colon body, by simp [ExprDerivation.tokens]⟩
  subst hcons
  rw [List.length_append, List.length_cons] at hts
  exact ((hexpr tail (by omega)).mono (by omega)).last (.lambda t params colon) (by simp)
    (fun _ => by simp [ExprDerivation.tokens]) fun _ => rfl

structure Grammar.Parses (n k : Nat) (g : List Token → Grammar) : Prop where
  expr : ParsesExpr n k .expr fun b => (g b).expr
  negation : ParsesExpr n k .negation fun b => (g b).negation
  unary : ParsesExpr n k .unary fun b => (g b).unary

theorem Grammar.Parses.layer {inner : List Token → Grammar} (h : Grammar.Parses n 1 inner) :
    Grammar.Parses (n + 1) 0 fun b => Grammar.layer (inner b) := by
  have hunary : ParsesExpr (n + 1) 0 .unary fun b => (Grammar.layer (inner b)).unary :=
    parses_signed h.expr h.unary
  have hnegation : ParsesExpr (n + 1) 0 .negation fun b => (Grammar.layer (inner b)).negation := by
    intro ts hts
    refine decides_peek_bind fun t tail hcons => ?_
    by_cases hk : t.kind = .kwNot
    · simp only [if_pos hk]
      subst hcons
      exact decides_next_bind (by rw [hk]; decide)
        ((h.negation tail (Nat.lt_of_succ_lt_succ hts)).last (.negated ⟨t, hk⟩) (by simp)
          (fun _ => by simp [ExprDerivation.tokens]) fun _ => by rw [ExprDerivation.tree, hk])
    · simp only [if_neg hk]
      exact (parses_comparison (parses_arithmetic hunary) ts hts).retag .comparison (fun _ => rfl)
        fun _ => rfl
  refine ⟨fun ts hts => decides_peek_bind fun t tail hcons => ?_, hnegation, hunary⟩
  by_cases hk : t.kind = .kwLambda
  · simp only [if_pos hk]
    exact parses_lambda h.expr ts hts
  · simp only [if_neg hk]
    exact (parses_disjunction hnegation ts hts).retag .disjunction (fun _ => rfl) fun _ => rfl

/-- What stands inside the expressions of `Grammar.upTo bound`. -/
def Grammar.inside : List Token → Grammar
  | [] => none
  | _ :: bound => upTo bound

theorem Grammar.upTo_eq_layer (bound : List Token) : upTo bound = layer (inside bound) := by
  cases bound with
  | nil | cons t bound => rfl

theorem Grammar.parses_upTo (n : Nat) : Grammar.Parses n 0 Grammar.upTo := by
  induction n with
  | zero => exact ⟨fun _ h => absurd h (Nat.not_lt_zero _), fun _ h => absurd h (Nat.not_lt_zero _),
      fun _ h => absurd h (Nat.not_lt_zero _)⟩
  | succ n ih =>
    have hinside : Grammar.Parses n 1 Grammar.inside :=
      ⟨fun ts hts => (ih.expr ts hts).inside fun _ _ => rfl,
        fun ts hts => (ih.negation ts hts).inside fun _ _ => rfl,
        fun ts hts => (ih.unary ts hts).inside fun _ _ => rfl⟩
    have hlayer := hinside.layer
    simp only [← Grammar.upTo_eq_layer] at hlayer
    exact hlayer

theorem decides_expression :
    Decides k (fun _ => expression) ts (Derives (@ExprDerivation.tokens .expr) ExprDerivation.tree)
      (Viable (@ExprDerivation.tokens .expr)) :=
  ((Grammar.parses_upTo (ts.length + 1)).expr ts (Nat.lt_succ_self _)).whole

end Expressions

section Statements

variable {k n : Nat} {ts : List Token} {stmt chained : List Token → Parser Stmt}

theorem decides_hintAfter {mark : Kind} (hmark : mark ≠ .eof) :
    Decides k (fun _ => hintAfter mark) ts (Derives (@HintDerivation.tokens mark) HintDerivation.tree)
      (Viable (@HintDerivation.tokens mark)) := by
  refine decides_accept_bind hmark (fun m rest _ => ?_) (decides_pure ⟨none, rfl, rfl⟩)
  refine Decides.bind (Q := fun a u => ∃ t : OneOf [.identifier, .kwNone], u = [t.val] ∧
    text t.val = a) (decides_peek_bind fun t tail hcons => ?_) ?_
  · subst hcons
    by_cases hk : t.kind = .identifier ∨ t.kind = .kwNone
    · simp only [if_pos hk]
      refine decides_next_bind ?_ (decides_pure ⟨⟨t, List.mem_pair.mpr hk⟩, rfl, rfl⟩)
      rcases hk with hk | hk
      all_goals
        rw [hk]
        decide
    · simp only [if_neg hk]
      obtain ⟨type⟩ := Token.exists_of .kwNone
      exact decides_fail ⟨some (m, ⟨type.val, by simp [type.property]⟩), [type.val], rfl⟩
  · rintro _ _ rest - ⟨type, rfl, rfl⟩
    exact decides_pure ⟨some (m, type), rfl, rfl⟩

theorem decides_parameter :
    Decides k (fun _ => parameter) ts (Derives ParamDerivation.tokens ParamDerivation.tree)
      (Viable ParamDerivation.tokens) := by
  obtain ⟨name⟩ := Token.exists_of .identifier
  refine decides_expect_bind (by decide) ⟨⟨name, none⟩, List.nil_prefix⟩ fun name rest _ => ?_
  exact (decides_hintAfter (by decide)).last (ParamDerivation.mk name) (by simp)
    (fun _ => by simp [ParamDerivation.tokens]) fun _ => rfl

theorem decides_moreNames (names : List String) :
    Decides k (fun _ => moreNames names) ts
      (Derives (fun more : List (Of .comma × Of .identifier) =>
          more.flatMap fun x => [x.1.val, x.2.val])
        fun more => names ++ more.map fun x => text x.2.val)
      (Viable fun more : List (Of .comma × Of .identifier) =>
        more.flatMap fun x => [x.1.val, x.2.val]) := by
  refine decides_repeatUntil (I := Derives (fun more : List (Of .comma × Of .identifier) =>
      more.flatMap fun x => [x.1.val, x.2.val]) fun more => names ++ more.map fun x => text x.2.val)
    ?_ ⟨[], rfl, List.append_nil names⟩
  rintro _ _ rest - ⟨sofar, rfl, rfl⟩
  refine decides_accept_bind (by decide) (fun comma rest' _ => ?_)
    (decides_pure ⟨sofar, (List.append_nil _).symm, rfl⟩)
  obtain ⟨name⟩ := Token.exists_of .identifier
  refine decides_expect_bind (by decide) ?_ fun name _ _ => decides_pure ⟨by simp, ?_⟩
  · exact ⟨sofar ++ [(comma, name)], by simp⟩
  · exact ⟨sofar ++ [(comma, name)], by simp, by simp⟩

theorem decides_evaluation :
    Decides k (fun _ => evaluation) ts (Derives SimpleDerivation.tokens SimpleDerivation.tree)
      (Viable SimpleDerivation.tokens) := by
  refine decides_peek_bind fun t tail hcons => ?_
  refine Decides.bind (decides_expression.part fun d u more hd => ?_) ?_
  · exact ⟨.evaluate d, by simp [SimpleDerivation.tokens, hd]⟩
  rintro _ _ rest hsplit ⟨d, rfl, rfl⟩
  refine decides_pure ⟨.evaluate d, (List.append_nil _).symm, ?_⟩
  rw [SimpleDerivation.tree, d.start_eq (hsplit.symm.trans hcons)]

theorem decides_nameStatement {t : Token} {tail : List Token} (hk : t.kind = .identifier) :
    Decides k (fun _ => nameStatement) (t :: tail)
      (Derives SimpleDerivation.tokens SimpleDerivation.tree) (Viable SimpleDerivation.tokens) := by
  obtain ⟨value⟩ := ExprDerivation.exists_expr
  obtain ⟨sign⟩ := Token.exists_of .assign
  have hfree : EndFree [t] := .single (t := ⟨t, hk⟩) (by decide)
  have hhead {x : List Token} (hx : x.head? = tail.head?) : headKind x = headKind tail := by
    rw [headKind, hx]
    rfl
  by_cases hassign : headKind tail = .assign ∨ headKind tail = .colon
  · refine .after (p := fun _ => do
      let type ← hintAfter .colon
      let _ ← expect .assign
      return .assign t.position (text t) type (← expression)) hfree (fun _ x _ hx => ?_) ?_
    · rw [List.singleton_append, nameStatement_of_assign (hhead hx ▸ hassign)]
      exact bind_of_ok (expect_of_kind hk)
    refine Decides.bind ((decides_hintAfter (by decide)).part fun d u more hd => ?_) ?_
    · exact ⟨.assign ⟨t, hk⟩ d sign value, by simp [SimpleDerivation.tokens, hd]⟩
    rintro _ _ rest - ⟨hint, rfl, rfl⟩
    refine decides_expect_bind (by decide) ?_ fun sign rest _ =>
      decides_expression.last (.assign ⟨t, hk⟩ hint sign) (by simp)
        (fun _ => by simp [SimpleDerivation.tokens]) fun _ => rfl
    exact ⟨.assign ⟨t, hk⟩ hint sign value, by simp [SimpleDerivation.tokens]⟩
  cases hop : augmentedBy? (headKind tail) with
  | some op =>
    refine .after (p := fun _ => do
      let _ ← next
      return .augment t.position (text t) op (← expression)) hfree (fun _ x _ hx => ?_) ?_
    · exact nameStatement_of_augment (hhead hx ▸ hop)
    cases tail with
    | nil => cases hop
    | cons u tail =>
      have hmem : (u.kind, op) ∈ augmentations := augmentedBy?_eq_some_iff.mp hop
      have hne : u.kind ≠ .eof := fun heq => by
        rw [heq] at hmem
        exact absurd (List.mem_map_of_mem hmem) (by decide : Kind.eof ∉ augmentations.map (·.1))
      exact decides_next_bind hne (decides_expression.last (.augment ⟨t, hk⟩ u op hmem) (by simp)
        (fun _ => by simp [SimpleDerivation.tokens]) fun _ => rfl)
  | none =>
    obtain ⟨newline⟩ := Token.exists_of .newline
    refine decides_evaluation.lookahead (fun st hst => ?_) ⟨List.replicate k t, [newline.val], _,
      by simp, evaluation_append (ExprDerivation.name ⟨t, hk⟩).alone
        (starts_of newline [] (by decide))⟩ fun _ x hx => ?_
    · obtain ⟨d, hd, -⟩ := hst
      obtain ⟨u, more, hu, -⟩ := d.starts
      cases hd.symm.trans hu
    · exact nameStatement_of_other (hhead hx ▸ hassign) (hhead hx ▸ hop)

theorem decides_simple :
    Decides k (fun _ => simple) ts (Derives SimpleDerivation.tokens SimpleDerivation.tree)
      (Viable SimpleDerivation.tokens) := by
  refine decides_peek_bind fun t tail hcons => ?_
  subst hcons
  cases hk : t.kind with
  | kwPass =>
    exact decides_next_bind (by rw [hk]; decide) (decides_pure ⟨.pass ⟨t, hk⟩, rfl, rfl⟩)
  | kwReturn =>
    refine decides_next_bind (by rw [hk]; decide) (decides_peek_bind fun after _ _ => ?_)
    by_cases hafter : after.kind = .newline
    · simp only [if_pos hafter]
      exact decides_pure ⟨.ret ⟨t, hk⟩ none, rfl, rfl⟩
    · simp only [if_neg hafter]
      exact decides_expression.last (fun d => .ret ⟨t, hk⟩ (some d)) (by simp)
        (fun _ => by simp [SimpleDerivation.tokens]) fun _ => rfl
  | kwGlobal =>
    obtain ⟨name⟩ := Token.exists_of .identifier
    refine decides_next_bind (by rw [hk]; decide) (decides_expect_bind (by decide)
      ⟨.globals ⟨t, hk⟩ name [], by simp [SimpleDerivation.tokens]⟩ fun first _ _ => ?_)
    exact (decides_moreNames [text first.val]).last (.globals ⟨t, hk⟩ first) (by simp)
      (fun _ => by simp [SimpleDerivation.tokens]) fun _ => rfl
  | identifier => exact decides_nameStatement hk
  | _ => exact decides_evaluation

def lineTokens (x : SimpleDerivation × Of .newline) : List Token := x.1.tokens ++ [x.2.val]

theorem decides_simpleLine :
    Decides k (fun _ => simpleLine) ts (Derives lineTokens fun x => x.1.tree) (Viable lineTokens) := by
  obtain ⟨newline⟩ := Token.exists_of .newline
  refine Decides.bind (decides_simple.part fun d u more hd => ?_) ?_
  · exact ⟨(d, newline), by simp [lineTokens, hd]⟩
  rintro _ _ rest - ⟨d, rfl, rfl⟩
  refine decides_expect_bind (by decide) ⟨(d, newline), by simp [lineTokens]⟩ fun newline _ _ => ?_
  exact decides_pure ⟨(d, newline), by simp [lineTokens], rfl⟩

theorem exists_block : Nonempty BlockDerivation := by
  obtain ⟨colon⟩ := Token.exists_of .colon
  obtain ⟨pass⟩ := Token.exists_of .kwPass
  obtain ⟨newline⟩ := Token.exists_of .newline
  exact ⟨.line colon (.pass pass) newline⟩

abbrev ParsesStmt (n k : Nat) (p : List Token → Parser Stmt) : Prop :=
  Parses n k StmtDerivation.tokens StmtDerivation.tree p

theorem decides_block (hstmt : ParsesStmt n 1 stmt) (hts : ts.length < n + 1) :
    Decides k (fun b => block (stmt b)) ts (Derives BlockDerivation.tokens BlockDerivation.tree)
      (Viable BlockDerivation.tokens) := by
  obtain ⟨indent⟩ := Token.exists_of .indent
  obtain ⟨dedent⟩ := Token.exists_of .dedent
  obtain ⟨someBlock⟩ := exists_block
  refine decides_expect_bind (by decide) ⟨someBlock, List.nil_prefix⟩ fun colon rest hcons => ?_
  rw [hcons, List.length_cons] at hts
  refine decides_peek_bind fun t tail hcons => ?_
  subst hcons
  by_cases hk : t.kind ≠ .newline
  · simp only [if_pos hk]
    refine Decides.bind (decides_simpleLine.part fun d u more hd => ?_) ?_
    · exact ⟨.line colon d.1 d.2, by rw [BlockDerivation.tokens, ← lineTokens, hd]; simp⟩
    rintro _ _ rest - ⟨d, rfl, rfl⟩
    exact decides_pure ⟨.line colon d.1 d.2, by simp [BlockDerivation.tokens, lineTokens], rfl⟩
  simp only [if_neg hk]
  have hk : t.kind = .newline := not_not.mp hk
  refine decides_next_bind (by rw [hk]; decide) (decides_expect_bind (by decide) ?_
    fun indent rest hcons => ?_)
  · exact ⟨.suite colon ⟨t, hk⟩ indent .nil dedent, by simp [BlockDerivation.tokens]⟩
  rw [hcons] at hts
  simp only [List.length_cons] at hts
  -- Behind each statement, any others can follow.
  refine Decides.bind (Q := Derives StmtsDerivation.tokens StmtsDerivation.tree)
    (decides_repeatUntil (I := fun body used => ∀ more : StmtsDerivation,
      Derives StmtsDerivation.tokens StmtsDerivation.tree (body ++ more.tree) (used ++ more.tokens))
      ?_ fun more => ⟨more, rfl, rfl⟩) ?_
  · rintro body used rest' rfl hbody
    rw [List.length_append] at hts
    refine decides_peek_bind fun t' tail' _ => ?_
    by_cases hend : t'.kind = .dedent ∨ t'.kind = .eof
    · simp only [if_pos hend]
      obtain ⟨d, hd, htree⟩ := hbody .nil
      exact decides_pure ⟨d, hd, htree.trans (List.append_nil body)⟩
    · simp only [if_neg hend]
      refine Decides.bind (((hstmt rest' (by omega)).mono (by omega)).part fun d u more hd => ?_) ?_
      · obtain ⟨ds, hds, -⟩ := hbody (.cons d .nil)
        exact ⟨.suite colon ⟨t, hk⟩ indent ds dedent,
          by simp [BlockDerivation.tokens, hds, StmtsDerivation.tokens, hd]⟩
      rintro _ _ rest - ⟨d, rfl, rfl⟩
      obtain ⟨u, more, hu, -⟩ := d.starts
      refine decides_pure ⟨by simp [hu], fun more => ?_⟩
      obtain ⟨ds, hds, htree⟩ := hbody (.cons d more)
      exact ⟨ds, by simp [hds, StmtsDerivation.tokens], by simp [htree, StmtsDerivation.tree]⟩
  rintro _ _ rest - ⟨ds, rfl, rfl⟩
  refine decides_expect_bind (by decide) ?_ fun dedent _ _ => decides_pure ?_
  · exact ⟨.suite colon ⟨t, hk⟩ indent ds dedent, by simp [BlockDerivation.tokens]⟩
  · exact ⟨.suite colon ⟨t, hk⟩ indent ds dedent, by simp [BlockDerivation.tokens], rfl⟩

theorem parses_definition (hstmt : ParsesStmt n 1 stmt) :
    ParsesStmt (n + 1) 0 fun b => definition (stmt b) := by
  intro ts hts
  obtain ⟨t⟩ := Token.exists_of .kwDef
  obtain ⟨name⟩ := Token.exists_of .identifier
  obtain ⟨left⟩ := Token.exists_of .leftParen
  obtain ⟨right⟩ := Token.exists_of .rightParen
  obtain ⟨body⟩ := exists_block
  refine decides_expect_bind (by decide)
    ⟨.define t name left .nil right none body, List.nil_prefix⟩ fun t rest hcons => ?_
  rw [hcons, List.length_cons] at hts
  refine decides_expect_bind (by decide)
    ⟨.define t name left .nil right none body, by simp [StmtDerivation.tokens]⟩
    fun name rest hcons => ?_
  rw [hcons, List.length_cons] at hts
  refine decides_expect_bind (by decide)
    ⟨.define t name left .nil right none body, by simp [StmtDerivation.tokens]⟩
    fun left rest hcons => ?_
  rw [hcons, List.length_cons] at hts
  refine Decides.bind ((decides_commaSeparated (fun rest _ => decides_parameter) _).part
    fun d u more hd => ?_) ?_
  · exact ⟨.define t name left d right none body, by simp [StmtDerivation.tokens, hd]⟩
  rintro _ _ rest rfl ⟨params, rfl, rfl⟩
  rw [List.length_append] at hts
  refine decides_expect_bind (by decide)
    ⟨.define t name left params right none body, by simp [StmtDerivation.tokens]⟩
    fun right rest hcons => ?_
  rw [hcons, List.length_cons] at hts
  refine Decides.bind ((decides_hintAfter (by decide)).part fun d u more hd => ?_) ?_
  · exact ⟨.define t name left params right d body, by simp [StmtDerivation.tokens, hd]⟩
  rintro _ _ rest rfl ⟨returns, rfl, rfl⟩
  rw [List.length_append] at hts
  exact (decides_block hstmt (by omega)).last (.define t name left params right returns) (by simp)
    (fun _ => by simp [StmtDerivation.tokens]) fun _ => rfl

theorem parses_whileLoop (hstmt : ParsesStmt n 1 stmt) :
    ParsesStmt (n + 1) 0 fun b => whileLoop (stmt b) := by
  intro ts hts
  obtain ⟨t⟩ := Token.exists_of .kwWhile
  obtain ⟨cond⟩ := ExprDerivation.exists_expr
  obtain ⟨body⟩ := exists_block
  refine decides_expect_bind (by decide) ⟨.loop t cond body, List.nil_prefix⟩ fun t rest hcons => ?_
  rw [hcons, List.length_cons] at hts
  refine Decides.bind (decides_expression.part fun d u more hd => ?_) ?_
  · exact ⟨.loop t d body, by simp [StmtDerivation.tokens, hd]⟩
  rintro _ _ rest rfl ⟨cond, rfl, rfl⟩
  rw [List.length_append] at hts
  exact (decides_block hstmt (by omega)).last (.loop t cond) (by simp)
    (fun _ => by simp [StmtDerivation.tokens]) fun _ => rfl

def ParsesAfter (n k : Nat) (j : Kind) (p : List Token → Parser Stmt) : Prop :=
  ∀ t tail, t.kind = j → (t :: tail).length < n → Decides k p (t :: tail)
    (Derives (@ConditionalDerivation.tokens j) ConditionalDerivation.tree)
    (Viable (@ConditionalDerivation.tokens j))

theorem parses_conditional (hstmt : ParsesStmt n 1 stmt) (hchained : ParsesAfter n 1 .kwElif chained)
    {j : Kind} (hj : j ≠ .eof) :
    ParsesAfter (n + 1) 0 j fun b => conditional (stmt b) (chained b) := by
  intro t tail ht hts
  obtain ⟨someBlock⟩ := exists_block
  rw [List.length_cons] at hts
  refine decides_next_bind (by rwa [ht]) (Decides.bind
    (decides_expression.part fun d u more hd => ?_) ?_)
  · exact ⟨.mk ⟨t, ht⟩ d someBlock .none, by simp [ConditionalDerivation.tokens, hd]⟩
  rintro _ _ rest rfl ⟨cond, rfl, rfl⟩
  rw [List.length_append] at hts
  refine Decides.bind ((decides_block hstmt (by omega)).part fun d u more hd => ?_) ?_
  · exact ⟨.mk ⟨t, ht⟩ cond d .none, by simp [ConditionalDerivation.tokens, hd]⟩
  rintro _ _ rest rfl ⟨body, rfl, rfl⟩
  rw [List.length_append] at hts
  refine decides_peek_bind fun after tail hcons => ?_
  subst hcons
  rw [List.length_cons] at hts
  cases hk : after.kind with
  | kwElif =>
    exact ((hchained after tail hk (by rw [List.length_cons]; omega)).mono (by omega)).last
      (fun d => .mk ⟨t, ht⟩ cond body (.elif d)) (by simp)
      (fun _ => by simp [ConditionalDerivation.tokens, ElseDerivation.tokens]) fun _ => rfl
  | kwElse =>
    exact decides_next_bind (by rw [hk]; decide) ((decides_block hstmt (by omega)).last
      (fun d => .mk ⟨t, ht⟩ cond body (.block ⟨after, hk⟩ d)) (by simp)
      (fun _ => by simp [ConditionalDerivation.tokens, ElseDerivation.tokens]) fun _ => rfl)
  | _ =>
    exact decides_pure ⟨.mk ⟨t, ht⟩ cond body .none,
      by simp [ConditionalDerivation.tokens, ElseDerivation.tokens], rfl⟩

structure Statements.Parses (n k : Nat) (g : List Token → Statements) : Prop where
  stmt : ParsesStmt n k fun b => (g b).stmt
  chained : ParsesAfter n k .kwElif fun b => (g b).chained

theorem Statements.Parses.layer {inner : List Token → Statements} (h : Statements.Parses n 1 inner) :
    Statements.Parses (n + 1) 0 fun b => Statements.layer (inner b) := by
  refine ⟨fun ts hts => decides_peek_bind fun t tail hcons => ?_,
    parses_conditional h.stmt h.chained (by decide)⟩
  cases hk : t.kind with
  | kwDef => exact parses_definition h.stmt ts hts
  | kwIf =>
    subst hcons
    exact (parses_conditional h.stmt h.chained (by decide) t tail hk hts).retag .branch
      (fun _ => rfl) fun _ => rfl
  | kwWhile => exact parses_whileLoop h.stmt ts hts
  | _ =>
    exact decides_simpleLine.retag (fun x => .simple x.1 x.2) (fun _ => rfl) fun _ => rfl

/-- What stands inside the statements of `Statements.upTo bound`. -/
def Statements.inside : List Token → Statements
  | [] => none
  | _ :: bound => upTo bound

theorem Statements.upTo_eq_layer (bound : List Token) : upTo bound = layer (inside bound) := by
  cases bound with
  | nil | cons t bound => rfl

theorem Statements.parses_upTo (n : Nat) : Statements.Parses n 0 Statements.upTo := by
  induction n with
  | zero =>
    exact ⟨fun _ h => absurd h (Nat.not_lt_zero _), fun _ _ _ h => absurd h (Nat.not_lt_zero _)⟩
  | succ n ih =>
    have hinside : Statements.Parses n 1 Statements.inside :=
      ⟨fun ts hts => (ih.stmt ts hts).inside fun _ _ => rfl,
        fun t tail ht hts => (ih.chained t tail ht hts).inside fun _ _ => rfl⟩
    have hlayer := hinside.layer
    simp only [← Statements.upTo_eq_layer] at hlayer
    exact hlayer

theorem decides_statement (ts : List Token) :
    Decides k (fun _ => statement) ts (Derives StmtDerivation.tokens StmtDerivation.tree)
      (Viable StmtDerivation.tokens) :=
  ((Statements.parses_upTo (ts.length + 1)).stmt ts (Nat.lt_succ_self _)).whole

end Statements

end Parser

end BoardPython
