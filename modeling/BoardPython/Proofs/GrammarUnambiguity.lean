import BoardPython.Proofs.ParserRuns

/-! A list of tokens has at most one derivation, and the parser accepts exactly the lists that have
one. Where one phrase ends and the next begins follows from the strengths of tokens: two phrases at
the start of the same tokens are equal if both end in front of a token that does not go on with
them. -/
namespace BoardPython

open Token (Kind Of OneOf)

section Tokens

variable {k k' : Kind} {P : Kind → Prop} {x y r : List Token}

theorem kind_eq_of_cons_eq {t : Of k} {t' : Of k'} (h : t.val :: x = t'.val :: y) : k = k' :=
  t.property.symm.trans (Eq.trans (congrArg Token.kind (List.cons.inj h).1) t'.property)

theorem cons_eq_cons {Q : Token → Prop} {t t' : Subtype Q} (h : t.val :: x = t'.val :: y) :
    t = t' ∧ x = y :=
  ⟨Subtype.ext (List.cons.inj h).1, (List.cons.inj h).2⟩

theorem Starts.of_cons {t : Token} (h : Starts P (t :: x)) : P t.kind := by
  obtain ⟨t', tail, heq, ht'⟩ := h
  obtain ⟨rfl, -⟩ := List.cons.inj heq
  exact ht'

/-- A list does not begin with a token of kind `k` if it begins with others. -/
theorem Starts.ne_cons {t : Of k} (h : Starts P r) (hP : ¬P k) : t.val :: x ≠ r := by
  rintro rfl
  exact hP (t.property ▸ h.of_cons)

theorem Starts.ne_cons_of_mem {ks : List Kind} {t : OneOf ks} (h : Starts P r)
    (hP : ∀ k ∈ ks, ¬P k) : t.val :: x ≠ r := by
  rintro rfl
  exact hP _ t.property h.of_cons

theorem Starts.disjoint {Q : Kind → Prop} (h : Starts P x) (h' : Starts Q y)
    (hPQ : ∀ k, P k → ¬Q k) : x ≠ y := by
  rintro rfl
  obtain ⟨t, tail, rfl, ht⟩ := h
  exact hPQ _ ht h'.of_cons

/-- A phrase is the only one at the start of its tokens, as far as both end in front of tokens that
stop such phrases. -/
def Determined {δ : Type} (tokens : δ → List Token) (stops : List Token → Prop) (d : δ) : Prop :=
  ∀ (d' : δ) (r r' : List Token), tokens d ++ r = tokens d' ++ r' → stops r → stops r' →
    d = d' ∧ r = r'

theorem Determined.mono {δ : Type} {tokens : δ → List Token} {stops stops' : List Token → Prop}
    {d : δ} (h : Determined tokens stops d) (hstops : ∀ r, stops' r → stops r) :
    Determined tokens stops' d :=
  fun d' r r' heq hr hr' => h d' r r' heq (hstops r hr) (hstops r' hr')

theorem determined_token (stops : List Token → Prop) (t : Of k) :
    Determined (fun t : Of k => [t.val]) stops t := fun _ _ _ heq _ _ => cons_eq_cons heq

/-- Phrases one after the other, each of which begins with the same kind of token. -/
theorem determined_flatMap {δ : Type} {tokens : δ → List Token}
    (hstarts : ∀ x, Starts (· = k) (tokens x))
    (hitem : ∀ x, Determined tokens (fun _ => True) x) (xs : List δ) :
    Determined (List.flatMap tokens) (Starts (· ≠ k)) xs := by
  have hne {r : List Token} (hr : Starts (· ≠ k) r) (x : δ) (more : List Token) :
      tokens x ++ more ≠ r := ((hstarts x).append more).disjoint hr fun _ hk => not_not.mpr hk
  intro xs' r r' h hr hr'
  induction xs generalizing xs' with
  | nil =>
    cases xs' with
    | nil => exact ⟨rfl, h⟩
    | cons x' xs' =>
      rw [List.flatMap_cons, List.append_assoc] at h
      exact absurd h.symm (hne hr x' _)
  | cons x xs ih =>
    rw [List.flatMap_cons, List.append_assoc] at h
    cases xs' with
    | nil => exact absurd h (hne hr' x _)
    | cons x' xs' =>
      rw [List.flatMap_cons, List.append_assoc] at h
      obtain ⟨rfl, hrest⟩ := hitem x x' _ _ h trivial trivial
      obtain ⟨rfl, rfl⟩ := ih xs' hrest
      exact ⟨rfl, rfl⟩

end Tokens

variable {k closing : Kind} {r r' x y : List Token}

theorem Level.not_lt_strength {l : Level} (h : k ∈ l.operators) : ¬k.strength < l.strength :=
  Nat.not_lt.mpr (strength_of_mem h).ge

namespace CommaList

variable {δ : Type} {tokens : δ → List Token}

def items : CommaList δ → List δ
  | nil => []
  | last item => [item]
  | cons item _ rest => item :: rest.items

/-- A list with commas determines its items if it ends in front of a closing token and each item is
determined in front of a comma or that token. -/
theorem determined (hclosing : closing ≠ .comma) (hstarts : ∀ x, Starts (· ≠ closing) (tokens x))
    (d : CommaList δ)
    (hitem : ∀ x ∈ d.items, Determined tokens (Starts (· ∈ [.comma, closing])) x) :
    Determined (CommaList.tokens tokens) (Starts (· = closing)) d := by
  have hafter {r : List Token} (hr : Starts (· = closing) r) : Starts (· ∈ [.comma, closing]) r :=
    hr.mono fun k hk => by simp [hk]
  have hcomma (comma : Of .comma) (more : List Token) :
      Starts (· ∈ [.comma, closing]) (comma.val :: more) := starts_of comma more (by simp)
  have hends {r : List Token} (hr : Starts (· = closing) r) (x : δ) (more : List Token) :
      tokens x ++ more ≠ r := ((hstarts x).append more).disjoint hr fun k hk => hk
  intro d' r r' h hr hr'
  induction d generalizing d' with
  | nil =>
    cases d' with
    | nil => exact ⟨rfl, h⟩
    | last x' => exact absurd h.symm (hends hr x' r')
    | cons x' comma' d' =>
      rw [CommaList.tokens, CommaList.tokens, List.append_assoc] at h
      exact absurd h.symm (hends hr x' _)
  | last x =>
    have hx := hitem x List.mem_cons_self
    cases d' with
    | nil => exact absurd h (hends hr' x r)
    | last x' =>
      obtain ⟨rfl, rfl⟩ := hx x' r r' h (hafter hr) (hafter hr')
      exact ⟨rfl, rfl⟩
    | cons x' comma' d' =>
      rw [CommaList.tokens, CommaList.tokens, List.append_assoc] at h
      obtain ⟨-, rfl⟩ := hx x' r _ h (hafter hr) (hcomma comma' _)
      exact absurd rfl (hr.ne_cons hclosing.symm)
  | cons x comma d ih =>
    obtain ⟨hx, hrest⟩ := List.forall_mem_cons.mp hitem
    rw [CommaList.tokens, List.append_assoc] at h
    cases d' with
    | nil => exact absurd h (hends hr' x _)
    | last x' =>
      obtain ⟨-, htail⟩ := hx x' _ r' h (hcomma comma _) (hafter hr')
      exact absurd htail (hr'.ne_cons hclosing.symm)
    | cons x' comma' d' =>
      rw [CommaList.tokens, List.append_assoc] at h
      obtain ⟨rfl, htail⟩ := hx x' _ _ h (hcomma comma _) (hcomma comma' _)
      obtain ⟨rfl, htail'⟩ := cons_eq_cons htail
      obtain ⟨rfl, rfl⟩ := ih hrest d' htail'
      exact ⟨rfl, rfl⟩

end CommaList

namespace ChainDerivation

variable {l : Level}

theorem determined_stop : Determined tokens (Ends l.strength) (stop : ChainDerivation l) := by
  intro d' r r' h hr hr'
  cases d' with
  | stop => exact ⟨rfl, h⟩
  | again op' operand' more' =>
    exact absurd h.symm (hr.ne_cons_of_mem fun k => Level.not_lt_strength)

theorem determined_again (op : OneOf l.operators) {operand : ExprDerivation l.operand}
    {more : ChainDerivation l}
    (hoperand : Determined ExprDerivation.tokens (Ends l.operand.strength) operand)
    (hmore : Determined tokens (Ends l.strength) more) :
    Determined tokens (Ends l.strength) (again op operand more) := by
  intro d' r r' h hr hr'
  cases d' with
  | stop => exact absurd h (hr'.ne_cons_of_mem fun k => Level.not_lt_strength)
  | again op' operand' more' =>
    simp only [tokens, List.cons_append, List.append_assoc] at h
    obtain ⟨rfl, htail⟩ := cons_eq_cons h
    obtain ⟨rfl, hrest⟩ := hoperand operand' _ _ htail (more.ends hr) (more'.ends hr')
    obtain ⟨rfl, rfl⟩ := hmore more' r r' hrest hr hr'
    exact ⟨rfl, rfl⟩

end ChainDerivation

/-- Items in front of a closing bracket are determined if each item is. -/
theorem ItemsDerivation.determined {closing : Kind} (hclosing : closing ∈ [.rightParen, .rightBracket])
    {d : ItemsDerivation}
    (hitem : ∀ x ∈ d.toList.items, Determined ExprDerivation.tokens (Ends 1) x) :
    Determined ItemsDerivation.tokens (Starts (· = closing)) d := by
  have hbrackets : ∀ k ∈ [Kind.rightParen, .rightBracket], k ≠ .comma ∧
      k ∉ ExprSymbol.expr.openers ∧ ∀ k' ∈ [Kind.comma, k], k'.strength < 1 := by decide
  obtain ⟨hcomma, hopeners, hweak⟩ := hbrackets closing hclosing
  have hstarts (x : ExprDerivation .expr) : Starts (· ≠ closing) x.tokens :=
    x.starts.mono fun k hk heq => hopeners (heq ▸ hk)
  intro d' r r' h hr hr'
  rw [tokens_eq, tokens_eq] at h
  obtain ⟨hlist, rfl⟩ := CommaList.determined hcomma hstarts d.toList
    (fun x hx => (hitem x hx).mono fun r hr => hr.mono hweak) d'.toList r r' h hr hr'
  exact ⟨Function.LeftInverse.injective ofList_toList hlist, rfl⟩

mutual

theorem ExprDerivation.determined {s : ExprSymbol} (d : ExprDerivation s) :
    Determined ExprDerivation.tokens (Ends s.strength) d := by
  intro d' r r' h hr hr'
  cases d with
  | lambda t params colon body =>
    cases d' with
    | lambda t' params' colon' body' =>
      simp only [ExprDerivation.tokens, List.cons_append, List.append_assoc] at h
      obtain ⟨rfl, htail⟩ := cons_eq_cons h
      obtain ⟨rfl, hcolon⟩ := CommaList.determined (by decide)
        (fun name => starts_of name [] (by decide)) params
        (fun name _ => determined_token _ name) params' _ _ htail (starts_of colon _ rfl)
        (starts_of colon' _ rfl)
      obtain ⟨rfl, hafter⟩ := cons_eq_cons hcolon
      obtain ⟨rfl, rfl⟩ := body.determined body' r r' hafter hr hr'
      exact ⟨rfl, rfl⟩
    | disjunction d' => exact absurd h ((d'.starts.append r').ne_cons (by decide))
  | disjunction d =>
    cases d' with
    | lambda t' params' colon' body' =>
      exact absurd h.symm ((d.starts.append r).ne_cons (by decide))
    | disjunction d' =>
      obtain ⟨rfl, rfl⟩ := d.determined d' r r' h hr hr'
      exact ⟨rfl, rfl⟩
  | chain first more =>
    cases d' with
    | chain first' more' =>
      simp only [ExprDerivation.tokens, List.append_assoc] at h
      obtain ⟨rfl, hrest⟩ := first.determined first' _ _ h (more.ends hr) (more'.ends hr')
      obtain ⟨rfl, rfl⟩ := more.determined more' r r' hrest hr hr'
      exact ⟨rfl, rfl⟩
  | negated t d =>
    cases d' with
    | negated t' d' =>
      obtain ⟨rfl, htail⟩ := cons_eq_cons h
      obtain ⟨rfl, rfl⟩ := d.determined d' r r' htail hr hr'
      exact ⟨rfl, rfl⟩
    | comparison d' => exact absurd h ((d'.starts.append r').ne_cons (by decide))
  | comparison d =>
    cases d' with
    | negated t' d' => exact absurd h.symm ((d.starts.append r).ne_cons (by decide))
    | comparison d' =>
      obtain ⟨rfl, rfl⟩ := d.determined d' r r' h hr hr'
      exact ⟨rfl, rfl⟩
  | signed t d =>
    cases d' with
    | signed t' d' =>
      obtain ⟨rfl, htail⟩ := cons_eq_cons h
      obtain ⟨rfl, rfl⟩ := d.determined d' r r' htail hr hr'
      exact ⟨rfl, rfl⟩
    | power d' => exact absurd h ((d'.starts.append r').ne_cons_of_mem (by decide))
  | power d =>
    cases d' with
    | signed t' d' => exact absurd h.symm ((d.starts.append r).ne_cons_of_mem (by decide))
    | power d' =>
      obtain ⟨rfl, rfl⟩ := d.determined d' r r' h hr hr'
      exact ⟨rfl, rfl⟩
  | raised base t exponent =>
    have hends : Ends 11 (t.val :: (exponent.tokens ++ r)) := starts_of t _ (by decide)
    simp only [ExprDerivation.tokens, List.append_assoc, List.cons_append] at h
    cases d' with
    | raised base' t' exponent' =>
      simp only [ExprDerivation.tokens, List.append_assoc, List.cons_append] at h
      obtain ⟨rfl, htail⟩ := base.determined base' _ _ h hends (starts_of t' _ (by decide))
      obtain ⟨rfl, hafter⟩ := cons_eq_cons htail
      obtain ⟨rfl, rfl⟩ := exponent.determined exponent' r r' hafter hr hr'
      exact ⟨rfl, rfl⟩
    | postfixes d' =>
      obtain ⟨-, htail⟩ := base.determined d' _ r' h hends (hr'.le (by decide))
      exact absurd htail (hr'.ne_cons (by decide))
  | postfixes d =>
    cases d' with
    | raised base' t' exponent' =>
      have hends : Ends 11 (t'.val :: (exponent'.tokens ++ r')) := starts_of t' _ (by decide)
      simp only [ExprDerivation.tokens, List.append_assoc, List.cons_append] at h
      obtain ⟨-, htail⟩ := d.determined base' r _ h (hr.le (by decide)) hends
      exact absurd htail.symm (hr.ne_cons (by decide))
    | postfixes d' =>
      obtain ⟨rfl, rfl⟩ := d.determined d' r r' h (hr.le (by decide)) (hr'.le (by decide))
      exact ⟨rfl, rfl⟩
  | trailed first more =>
    cases d' with
    | trailed first' more' =>
      simp only [ExprDerivation.tokens, List.append_assoc] at h
      obtain ⟨rfl, hrest⟩ := first.determined first' _ _ h (more.ends hr) (more'.ends hr')
      obtain ⟨rfl, rfl⟩ := more.determined more' r r' hrest hr hr'
      exact ⟨rfl, rfl⟩
  -- Atoms are told apart by their first token.
  | number t value hvalue =>
    cases d' with
    | number t' value' hvalue' =>
      obtain ⟨rfl, rfl⟩ := cons_eq_cons h
      obtain rfl : value = value' := Except.ok.inj (hvalue.symm.trans hvalue')
      exact ⟨rfl, rfl⟩
    | _ => exact absurd (kind_eq_of_cons_eq h) (by decide)
  | strings first more =>
    have hends {r : List Token} (hr : Ends 12 r) : Starts (· ≠ .string) r :=
      hr.mono fun k hk heq => absurd (heq ▸ hk) (by decide)
    cases d' with
    | strings first' more' =>
      obtain ⟨rfl, htail⟩ := cons_eq_cons h
      rw [List.map_eq_flatMap, List.map_eq_flatMap] at htail
      obtain ⟨rfl, rfl⟩ := determined_flatMap (fun t => starts_of t [] rfl) (determined_token _) more
        more' r r' htail (hends hr) (hends hr')
      exact ⟨rfl, rfl⟩
    | _ => exact absurd (kind_eq_of_cons_eq h) (by decide)
  | true t | false t | none t | ellipsis t | name t =>
    cases d' <;> first
      | exact absurd (kind_eq_of_cons_eq h) (by decide)
      | obtain ⟨rfl, rfl⟩ := cons_eq_cons h
        exact ⟨rfl, rfl⟩
  | paren left d right =>
    cases d' with
    | paren left' d' right' =>
      simp only [ExprDerivation.tokens, List.cons_append, List.append_assoc, List.nil_append] at h
      obtain ⟨rfl, htail⟩ := cons_eq_cons h
      obtain ⟨rfl, hright⟩ := d.determined d' _ _ htail (starts_of right r (by decide))
        (starts_of right' r' (by decide))
      obtain ⟨rfl, rfl⟩ := cons_eq_cons hright
      exact ⟨rfl, rfl⟩
    | _ => exact absurd (kind_eq_of_cons_eq h) (by decide)
  | list left elements right =>
    cases d' with
    | list left' elements' right' =>
      simp only [ExprDerivation.tokens, List.cons_append, List.append_assoc, List.nil_append] at h
      obtain ⟨rfl, htail⟩ := cons_eq_cons h
      obtain ⟨rfl, hright⟩ := ItemsDerivation.determined (by decide) elements.each_determined
        elements' _ _ htail (starts_of right r rfl) (starts_of right' r' rfl)
      obtain ⟨rfl, rfl⟩ := cons_eq_cons hright
      exact ⟨rfl, rfl⟩
    | _ => exact absurd (kind_eq_of_cons_eq h) (by decide)
termination_by structural d

theorem ChainDerivation.determined {l : Level} (d : ChainDerivation l) :
    Determined ChainDerivation.tokens (Ends l.strength) d :=
  d.casesOn ChainDerivation.determined_stop fun op operand more =>
    ChainDerivation.determined_again op operand.determined more.determined
termination_by structural d

theorem TrailDerivation.determined (d : TrailDerivation) :
    Determined TrailDerivation.tokens (Ends 11) d := by
  intro d' r r' h hr hr'
  cases d with
  | stop =>
    cases d' with
    | stop => exact ⟨rfl, h⟩
    | _ => exact absurd h.symm (hr.ne_cons (by decide))
  | call left args right more =>
    cases d' with
    | stop => exact absurd h (hr'.ne_cons (by decide))
    | call left' args' right' more' =>
      simp only [TrailDerivation.tokens, List.cons_append, List.append_assoc] at h
      obtain ⟨rfl, htail⟩ := cons_eq_cons h
      obtain ⟨rfl, hright⟩ := ItemsDerivation.determined (by decide) args.each_determined args' _ _
        htail (starts_of right _ rfl) (starts_of right' _ rfl)
      obtain ⟨rfl, hrest⟩ := cons_eq_cons hright
      obtain ⟨rfl, rfl⟩ := more.determined more' r r' hrest hr hr'
      exact ⟨rfl, rfl⟩
    | member dot' field' more' => exact absurd (kind_eq_of_cons_eq h) (by decide)
  | member dot field more =>
    cases d' with
    | stop => exact absurd h (hr'.ne_cons (by decide))
    | call left' args' right' more' => exact absurd (kind_eq_of_cons_eq h) (by decide)
    | member dot' field' more' =>
      obtain ⟨rfl, htail⟩ := cons_eq_cons h
      obtain ⟨rfl, hrest⟩ := cons_eq_cons htail
      obtain ⟨rfl, rfl⟩ := more.determined more' r r' hrest hr hr'
      exact ⟨rfl, rfl⟩
termination_by structural d

theorem ItemsDerivation.each_determined (d : ItemsDerivation) :
    ∀ x ∈ d.toList.items, Determined ExprDerivation.tokens (Ends 1) x := by
  cases d with
  | nil => exact List.forall_mem_nil _
  | last x => exact List.forall_mem_singleton.mpr x.determined
  | cons x comma d => exact List.forall_mem_cons.mpr ⟨x.determined, d.each_determined⟩
termination_by structural d

end

section Simple

variable {r r' : List Token}

theorem HintDerivation.determined {mark : Kind} (d : HintDerivation mark) :
    Determined HintDerivation.tokens (Starts (· ≠ mark)) d := by
  intro d' r r' h hr hr'
  cases d with
  | none =>
    cases d' with
    | none => exact ⟨rfl, h⟩
    | some x' =>
      have hmark : x'.1.val :: x'.2.val :: r' = r := h.symm
      exact absurd hmark (hr.ne_cons (not_not.mpr rfl))
  | some x =>
    cases d' with
    | none =>
      have hmark : x.1.val :: x.2.val :: r = r' := h
      exact absurd hmark (hr'.ne_cons (not_not.mpr rfl))
    | some x' =>
      have hpair : x.1.val :: x.2.val :: r = x'.1.val :: x'.2.val :: r' := h
      obtain ⟨hmark, htail⟩ := cons_eq_cons hpair
      obtain ⟨htype, rfl⟩ := cons_eq_cons htail
      exact ⟨congrArg some (Prod.ext hmark htype), rfl⟩

theorem SimpleDerivation.determined (d : SimpleDerivation) :
    Determined SimpleDerivation.tokens (Starts (· = .newline)) d := by
  intro d' r r' h hr hr'
  have hends : Ends 1 r' := hr'.mono fun k hk => hk ▸ (by decide)
  -- The parser reads both, so they have the same tree and are of the same kind.
  have hread := Parser.complete_simple d hr
  rw [h, Parser.complete_simple d' hr'] at hread
  obtain ⟨htree, rfl⟩ := Prod.mk.inj (Except.ok.inj hread)
  refine ⟨?_, rfl⟩
  cases d with
  | pass t =>
    cases d' with
    | pass t' =>
      obtain ⟨rfl, -⟩ := cons_eq_cons h
      rfl
    | _ => cases htree
  | ret t value =>
    cases d' with
    | ret t' value' =>
      obtain ⟨rfl, htail⟩ := cons_eq_cons h
      cases value with
      | none =>
        cases value' with
        | none => rfl
        | some v' => cases htree
      | some v =>
        cases value' with
        | none => cases htree
        | some v' =>
          obtain ⟨rfl, -⟩ := v.determined v' _ _ htail hends hends
          rfl
    | _ => cases htree
  | globals t first more =>
    cases d' with
    | globals t' first' more' =>
      have hcomma : Starts (· ≠ .comma) r' := hr'.mono fun k hk => hk ▸ (by decide)
      have hitem (x : Of .comma × Of .identifier) :
          Determined (fun x : Of .comma × Of .identifier => [x.1.val, x.2.val]) (fun _ => True) x := by
        intro x' r r' heq _ _
        obtain ⟨hcomma, htail⟩ := cons_eq_cons heq
        obtain ⟨hname, rfl⟩ := cons_eq_cons htail
        exact ⟨Prod.ext hcomma hname, rfl⟩
      obtain ⟨rfl, htail⟩ := cons_eq_cons h
      obtain ⟨rfl, hmore⟩ := cons_eq_cons htail
      obtain ⟨rfl, -⟩ := determined_flatMap (fun x => starts_of x.1 _ rfl) hitem more more' _ _ hmore
        hcomma hcomma
      rfl
    | _ => cases htree
  | assign t hint sign value =>
    cases d' with
    | assign t' hint' sign' value' =>
      simp only [tokens, List.cons_append, List.append_assoc] at h
      obtain ⟨rfl, htail⟩ := cons_eq_cons h
      obtain ⟨rfl, hsign⟩ := hint.determined hint' _ _ htail (starts_of sign _ (by decide))
        (starts_of sign' _ (by decide))
      obtain ⟨rfl, hvalue⟩ := cons_eq_cons hsign
      obtain ⟨rfl, -⟩ := value.determined value' _ _ hvalue hends hends
      rfl
    | _ => cases htree
  | augment t sign op hop value =>
    cases d' with
    | augment t' sign' op' hop' value' =>
      obtain ⟨rfl, htail⟩ := cons_eq_cons h
      obtain ⟨rfl, hvalue⟩ := List.cons.inj htail
      obtain ⟨rfl, -⟩ := value.determined value' _ _ hvalue hends hends
      cases htree
      rfl
    | _ => cases htree
  | evaluate value =>
    cases d' with
    | evaluate value' =>
      obtain ⟨rfl, -⟩ := value.determined value' _ _ h hends hends
      rfl
    | _ => cases htree

theorem ParamDerivation.determined (d : ParamDerivation) :
    Determined ParamDerivation.tokens (Starts (· ∈ [.comma, .rightParen])) d := by
  have hother : ∀ k ∈ [Kind.comma, .rightParen], k ≠ .colon := by decide
  intro d' r r' h hr hr'
  obtain ⟨name, hint⟩ := d
  obtain ⟨name', hint'⟩ := d'
  obtain ⟨rfl, htail⟩ := cons_eq_cons h
  obtain ⟨rfl, rfl⟩ := hint.determined hint' r r' htail (hr.mono hother) (hr'.mono hother)
  exact ⟨rfl, rfl⟩

end Simple

theorem StmtsDerivation.endsStmt_append (d : StmtsDerivation)
    (hr : Starts (· ∈ [.dedent, .eof]) r) : EndsStmt (d.tokens ++ r) := by
  have hother : ∀ k ∈ [Kind.dedent, .eof], k ∉ [Kind.kwElif, .kwElse] := by decide
  exact d.ends (hr.mono hother)

theorem StmtsDerivation.ne_closing (hr : Starts (· ∈ [.dedent, .eof]) r) (d : StmtDerivation)
    (more : List Token) : d.tokens ++ more ≠ r := by
  have hopeners : ∀ k ∈ StmtDerivation.openers, k ∉ [Kind.dedent, .eof] := by decide
  exact (d.starts.append more).disjoint hr hopeners

theorem ConditionalDerivation.exists_cons (d : ConditionalDerivation k) (r : List Token) :
    ∃ (t : Of k) (tail : List Token), d.tokens ++ r = t.val :: tail := by
  cases d with
  | mk t cond body orElse => exact ⟨t, _, rfl⟩

theorem SimpleDerivation.ne_cons {t : Of k} (d : SimpleDerivation) (hk : k ∉ openers) :
    t.val :: x ≠ d.tokens ++ y :=
  (d.starts.append y).ne_cons hk

mutual

theorem StmtDerivation.determined (d : StmtDerivation) :
    Determined StmtDerivation.tokens EndsStmt d := by
  intro d' r r' h hr hr'
  cases d with
  | define t name left params right returns body =>
    have harrow {d : BlockDerivation} {r : List Token} : Starts (· ≠ .arrow) (d.tokens ++ r) :=
      (d.starts.mono fun k hk => hk ▸ (by decide)).append r
    cases d' with
    | define t' name' left' params' right' returns' body' =>
      simp only [StmtDerivation.tokens, List.cons_append, List.append_assoc] at h
      obtain ⟨rfl, hname⟩ := cons_eq_cons h
      obtain ⟨rfl, hleft⟩ := cons_eq_cons hname
      obtain ⟨rfl, hparams⟩ := cons_eq_cons hleft
      obtain ⟨rfl, hright⟩ := CommaList.determined (by decide)
        (fun d : ParamDerivation => starts_of d.name _ (by decide)) params
        (fun d _ => d.determined) params' _ _ hparams (starts_of right _ rfl)
        (starts_of right' _ rfl)
      obtain ⟨rfl, hreturns⟩ := cons_eq_cons hright
      obtain ⟨rfl, hblock⟩ := returns.determined returns' _ _ hreturns harrow harrow
      obtain ⟨rfl, rfl⟩ := body.determined body' r r' hblock trivial trivial
      exact ⟨rfl, rfl⟩
    | branch d' =>
      obtain ⟨t', tail, htokens⟩ := d'.exists_cons r'
      exact absurd (kind_eq_of_cons_eq (h.trans htokens)) (by decide)
    | loop t' cond' body' => exact absurd (kind_eq_of_cons_eq h) (by decide)
    | simple d' newline' =>
      simp only [StmtDerivation.tokens, List.append_assoc] at h
      exact absurd h (d'.ne_cons (by decide))
  | branch d =>
    obtain ⟨t, tail, htokens⟩ := d.exists_cons r
    cases d' with
    | branch d' =>
      obtain ⟨rfl, rfl⟩ := d.determined d' r r' h hr hr'
      exact ⟨rfl, rfl⟩
    | simple d' newline' =>
      have h' := htokens.symm.trans h
      simp only [StmtDerivation.tokens, List.append_assoc] at h'
      exact absurd h' (d'.ne_cons (by decide))
    | _ => exact absurd (kind_eq_of_cons_eq (htokens.symm.trans h)) (by decide)
  | loop t cond body =>
    cases d' with
    | define t' name' left' params' right' returns' body' =>
      exact absurd (kind_eq_of_cons_eq h) (by decide)
    | branch d' =>
      obtain ⟨t', tail, htokens⟩ := d'.exists_cons r'
      exact absurd (kind_eq_of_cons_eq (h.trans htokens)) (by decide)
    | loop t' cond' body' =>
      simp only [StmtDerivation.tokens, List.cons_append, List.append_assoc] at h
      obtain ⟨rfl, htail⟩ := cons_eq_cons h
      obtain ⟨rfl, hblock⟩ := cond.determined cond' _ _ htail body.ends body'.ends
      obtain ⟨rfl, rfl⟩ := body.determined body' r r' hblock trivial trivial
      exact ⟨rfl, rfl⟩
    | simple d' newline' =>
      simp only [StmtDerivation.tokens, List.append_assoc] at h
      exact absurd h (d'.ne_cons (by decide))
  | simple d newline =>
    simp only [StmtDerivation.tokens, List.append_assoc, List.cons_append, List.nil_append] at h
    cases d' with
    | branch d' =>
      obtain ⟨t', tail, htokens⟩ := d'.exists_cons r'
      exact absurd (h.trans htokens).symm (d.ne_cons (by decide))
    | simple d' newline' =>
      simp only [StmtDerivation.tokens, List.append_assoc, List.cons_append, List.nil_append] at h
      obtain ⟨rfl, htail⟩ := d.determined d' _ _ h (starts_of newline r rfl)
        (starts_of newline' r' rfl)
      obtain ⟨rfl, rfl⟩ := cons_eq_cons htail
      exact ⟨rfl, rfl⟩
    | _ => exact absurd h.symm (d.ne_cons (by decide))
termination_by structural d

theorem ConditionalDerivation.determined {k : Kind} (d : ConditionalDerivation k) :
    Determined ConditionalDerivation.tokens EndsStmt d := by
  intro d' r r' h hr hr'
  cases d with
  | mk t cond body orElse =>
    cases d' with
    | mk t' cond' body' orElse' =>
      simp only [ConditionalDerivation.tokens, List.cons_append, List.append_assoc] at h
      obtain ⟨rfl, htail⟩ := cons_eq_cons h
      obtain ⟨rfl, hblock⟩ := cond.determined cond' _ _ htail body.ends body'.ends
      obtain ⟨rfl, helse⟩ := body.determined body' _ _ hblock trivial trivial
      obtain ⟨rfl, rfl⟩ := orElse.determined orElse' r r' helse hr hr'
      exact ⟨rfl, rfl⟩
termination_by structural d

theorem ElseDerivation.determined (d : ElseDerivation) :
    Determined ElseDerivation.tokens EndsStmt d := by
  intro d' r r' h hr hr'
  cases d with
  | none =>
    cases d' with
    | none => exact ⟨rfl, h⟩
    | elif d' =>
      obtain ⟨t', tail, htokens⟩ := d'.exists_cons r'
      exact absurd (h.trans htokens).symm (hr.ne_cons (by decide))
    | block t' body' => exact absurd h.symm (hr.ne_cons (by decide))
  | elif d =>
    obtain ⟨t, tail, htokens⟩ := d.exists_cons r
    cases d' with
    | none => exact absurd (htokens.symm.trans h) (hr'.ne_cons (by decide))
    | elif d' =>
      obtain ⟨rfl, rfl⟩ := d.determined d' r r' h hr hr'
      exact ⟨rfl, rfl⟩
    | block t' body' => exact absurd (kind_eq_of_cons_eq (htokens.symm.trans h)) (by decide)
  | block t body =>
    cases d' with
    | none => exact absurd h (hr'.ne_cons (by decide))
    | elif d' =>
      obtain ⟨t', tail, htokens⟩ := d'.exists_cons r'
      exact absurd (kind_eq_of_cons_eq (h.trans htokens)) (by decide)
    | block t' body' =>
      obtain ⟨rfl, htail⟩ := cons_eq_cons h
      obtain ⟨rfl, rfl⟩ := body.determined body' r r' htail trivial trivial
      exact ⟨rfl, rfl⟩
termination_by structural d

theorem BlockDerivation.determined (d : BlockDerivation) :
    Determined BlockDerivation.tokens (fun _ => True) d := by
  intro d' r r' h _ _
  cases d with
  | line colon d newline =>
    simp only [BlockDerivation.tokens, List.cons_append, List.append_assoc, List.nil_append] at h
    cases d' with
    | line colon' d' newline' =>
      simp only [BlockDerivation.tokens, List.cons_append, List.append_assoc, List.nil_append] at h
      obtain ⟨rfl, htail⟩ := cons_eq_cons h
      obtain ⟨rfl, hnewline⟩ := d.determined d' _ _ htail (starts_of newline r rfl)
        (starts_of newline' r' rfl)
      obtain ⟨rfl, rfl⟩ := cons_eq_cons hnewline
      exact ⟨rfl, rfl⟩
    | suite colon' newline' indent' body' dedent' =>
      simp only [BlockDerivation.tokens, List.cons_append] at h
      exact absurd (cons_eq_cons h).2.symm (d.ne_cons (by decide))
  | suite colon newline indent body dedent =>
    simp only [BlockDerivation.tokens, List.cons_append, List.append_assoc, List.nil_append] at h
    cases d' with
    | line colon' d' newline' =>
      simp only [BlockDerivation.tokens, List.cons_append, List.append_assoc] at h
      exact absurd (cons_eq_cons h).2 (d'.ne_cons (by decide))
    | suite colon' newline' indent' body' dedent' =>
      simp only [BlockDerivation.tokens, List.cons_append, List.append_assoc, List.nil_append] at h
      obtain ⟨rfl, htail⟩ := cons_eq_cons h
      obtain ⟨rfl, hindent⟩ := cons_eq_cons htail
      obtain ⟨rfl, hstmts⟩ := cons_eq_cons hindent
      obtain ⟨rfl, hdedent⟩ := body.determined body' _ _ hstmts (starts_of dedent r (by decide))
        (starts_of dedent' r' (by decide))
      obtain ⟨rfl, rfl⟩ := cons_eq_cons hdedent
      exact ⟨rfl, rfl⟩
termination_by structural d

theorem StmtsDerivation.determined (d : StmtsDerivation) :
    Determined StmtsDerivation.tokens (Starts (· ∈ [.dedent, .eof])) d := by
  intro d' r r' h hr hr'
  cases d with
  | nil =>
    cases d' with
    | nil => exact ⟨rfl, h⟩
    | cons d' more' =>
      simp only [StmtsDerivation.tokens, List.append_assoc] at h
      exact absurd h.symm (StmtsDerivation.ne_closing hr d' _)
  | cons d more =>
    simp only [StmtsDerivation.tokens, List.append_assoc] at h
    cases d' with
    | nil => exact absurd h (StmtsDerivation.ne_closing hr' d _)
    | cons d' more' =>
      simp only [StmtsDerivation.tokens, List.append_assoc] at h
      obtain ⟨rfl, hrest⟩ := d.determined d' _ _ h (more.endsStmt_append hr)
        (more'.endsStmt_append hr')
      obtain ⟨rfl, rfl⟩ := more.determined more' r r' hrest hr hr'
      exact ⟨rfl, rfl⟩
termination_by structural d

end

theorem StmtDerivation.endFree (d : StmtDerivation) : EndFree d.tokens := by
  obtain ⟨eof⟩ := Token.exists_of .eof
  have hread := Parser.complete_statement d (starts_of eof [] (by decide))
  cases Parser.decides_statement (k := 0) (d.tokens ++ [eof.val]) with
  | @reads _ used _ tail hsplit hfree _ heq =>
    rw [hsplit, heq used tail (Nat.le_refl _)] at hread
    obtain ⟨-, hrest⟩ := Prod.mk.inj (Except.ok.inj hread)
    rw [hrest] at hsplit
    rwa [List.append_cancel_right hsplit]
  | @fails _ used _ tail hsplit _ _ heq =>
    rw [hsplit, heq used tail (Nat.le_refl _)] at hread
    cases hread
  | runsOut hfree => exact absurd eof.property (hfree eof.val (by simp))

theorem StmtsDerivation.endFree (d : StmtsDerivation) : EndFree d.tokens := by
  induction d using StmtsDerivation.ind with
  | nil => exact .nil
  | cons d more ih => exact d.endFree.append ih

theorem EndFree.append_cons_inj {e e' : Of .eof} (hx : EndFree x) (hy : EndFree y)
    (h : x ++ e.val :: r = y ++ e'.val :: r') : x = y := by
  induction x generalizing y with
  | nil =>
    cases y with
    | nil => rfl
    | cons t y =>
      obtain ⟨rfl, -⟩ := List.cons.inj h
      exact absurd e.property (hy _ List.mem_cons_self)
  | cons t x ih =>
    cases y with
    | nil =>
      obtain ⟨rfl, -⟩ := List.cons.inj h
      exact absurd e'.property (hx _ List.mem_cons_self)
    | cons t' y =>
      obtain ⟨rfl, htail⟩ := List.cons.inj h
      rw [ih (List.forall_mem_cons.mp hx).2 (List.forall_mem_cons.mp hy).2 htail]

namespace Parser

/-- The parser accepts exactly the grammar. What stands in front of the first end token is accepted
with some statements if and only if it derives them, and in one way only; nothing after that token
matters. -/
theorem accepts_iff_derives (ts : List Token) (hts : EndFree ts) (eof : Of .eof)
    (rest : List Token) (stmts : List Stmt) :
    (run (ts ++ eof.val :: rest) = ⟨stmts, none⟩ ↔
      ∃ d : StmtsDerivation, d.tokens = ts ∧ d.tree = stmts) ∧
    ∀ d d' : StmtsDerivation, d.tokens = ts → d'.tokens = ts → d = d' := by
  refine ⟨⟨fun h => ?_, ?_⟩, ?_⟩
  · obtain ⟨d, eof', rest', hd, htree⟩ := exists_of_statements _ h
    exact ⟨d, (hts.append_cons_inj d.endFree hd).symm, htree⟩
  · rintro ⟨d, rfl, rfl⟩
    refine statements_append d eof ?_
    simp only [List.length_append, List.length_cons]
    omega
  · rintro d d' hd hd'
    have hends : Starts (· ∈ [.dedent, .eof]) [eof.val] := starts_of eof [] (by decide)
    have htokens : d.tokens ++ [eof.val] = d'.tokens ++ [eof.val] := by rw [hd, hd']
    exact (d.determined d' _ _ htokens hends hends).1

/-- `if True or False and None: pass` and `elif not True: return`, a token a column. -/
def conditionalLines : List Token :=
  [⟨.kwIf, [], ⟨1, 1⟩⟩, ⟨.kwTrue, [], ⟨1, 2⟩⟩, ⟨.kwOr, [], ⟨1, 3⟩⟩, ⟨.kwFalse, [], ⟨1, 4⟩⟩,
   ⟨.kwAnd, [], ⟨1, 5⟩⟩, ⟨.kwNone, [], ⟨1, 6⟩⟩, ⟨.colon, [], ⟨1, 7⟩⟩, ⟨.kwPass, [], ⟨1, 8⟩⟩,
   ⟨.newline, [], ⟨1, 9⟩⟩, ⟨.kwElif, [], ⟨2, 1⟩⟩, ⟨.kwNot, [], ⟨2, 2⟩⟩, ⟨.kwTrue, [], ⟨2, 3⟩⟩,
   ⟨.colon, [], ⟨2, 4⟩⟩, ⟨.kwReturn, [], ⟨2, 5⟩⟩, ⟨.newline, [], ⟨2, 6⟩⟩]

theorem conditionalLines_derives :
    EndFree conditionalLines ∧ ∃ d : StmtsDerivation, d.tokens = conditionalLines ∧
      d.tree = [.branch ⟨1, 1⟩ (.logical ⟨1, 3⟩ .kwOr (.bool ⟨1, 2⟩ true)
          (.logical ⟨1, 5⟩ .kwAnd (.bool ⟨1, 4⟩ false) (.none ⟨1, 6⟩))) [.pass ⟨1, 8⟩]
        [.branch ⟨2, 1⟩ (.unary ⟨2, 2⟩ .kwNot (.bool ⟨2, 3⟩ true)) [.ret ⟨2, 5⟩ none] []]] := by
  have hfree : EndFree conditionalLines := by
    unfold EndFree
    decide
  -- What comes after the end token is not even a statement.
  refine ⟨hfree, (accepts_iff_derives conditionalLines hfree ⟨⟨.eof, [], ⟨3, 1⟩⟩, rfl⟩
    [⟨.dedent, [], ⟨3, 1⟩⟩] _).1.mp ?_⟩
  cbv

end Parser

end BoardPython
