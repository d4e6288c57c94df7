import BoardPython.Proofs.Derivations

/-! Where phrases of the grammar end. How tightly a token goes on with the phrase in front of it is
its strength; a phrase ends in front of a token that is too weak to go on with it. -/
namespace BoardPython

open Token (Kind Of OneOf)

/-- How tightly a token binds to an expression in front of it. A token that cannot follow an
expression inside of a larger one has strength zero. -/
def Token.Kind.strength : Kind → Nat
  | kwOr => 1
  | kwAnd => 2
  | less | greater | lessEqual | greaterEqual | equal | notEqual => 3
  | pipe => 4
  | caret => 5
  | ampersand => 6
  | shiftLeft | shiftRight => 7
  | plus | minus => 8
  | star | slash | doubleSlash | percent => 9
  | doubleStar => 10
  | leftParen | dot | leftBracket => 11
  | string => 12
  | _ => 0

def Level.strength : Level → Nat
  | disjunction => 1
  | conjunction => 2
  | comparison => 3
  | pipe => 4
  | caret => 5
  | ampersand => 6
  | shift => 7
  | sum => 8
  | product => 9

def ExprSymbol.strength : ExprSymbol → Nat
  | expr => 1
  | chain l => l.strength
  | negation => 3
  | unary | power => 10
  | postfixes => 11
  | atom => 12

namespace Level

variable {l : Level} {k : Kind}

theorem strength_of_mem (h : k ∈ l.operators) : k.strength = l.strength := by
  cases l <;> simp only [operators, List.mem_cons, List.not_mem_nil, or_false] at h
  case disjunction | conjunction | pipe | caret | ampersand =>
    rw [h]
    rfl
  case shift | sum =>
    rcases h with rfl | rfl <;> rfl
  case comparison =>
    rcases h with rfl | rfl | rfl | rfl | rfl | rfl <;> rfl
  case product =>
    rcases h with rfl | rfl | rfl | rfl <;> rfl

theorem strength_lt_operand (l : Level) : l.strength < l.operand.strength := by
  cases l <;> decide

end Level

/-- The token after a phrase does not go on with it: it binds less than `n`. -/
abbrev Ends (n : Nat) (rest : List Token) : Prop := Starts (·.strength < n) rest

variable {rest tail : List Token}

theorem Ends.le {n m : Nat} (h : Ends n rest) (hle : n ≤ m) : Ends m rest :=
  h.mono fun _ hk => Nat.lt_of_lt_of_le hk hle

theorem ChainDerivation.ends {l : Level} (d : ChainDerivation l)
    (h : Ends l.strength rest) : Ends l.operand.strength (d.tokens ++ rest) := by
  cases d with
  | stop => exact h.le l.strength_lt_operand.le
  | again op operand more =>
    have hop : op.val.kind.strength < l.operand.strength :=
      Level.strength_of_mem op.property ▸ l.strength_lt_operand
    exact ⟨op.val, _, rfl, hop⟩

theorem TrailDerivation.ends (d : TrailDerivation) (h : Ends 11 rest) :
    Ends 12 (d.tokens ++ rest) := by
  cases d with
  | stop => exact h.le (by decide)
  | call left args right more => exact starts_of left _ (by decide)
  | member dot field more => exact starts_of dot _ (by decide)

theorem starts_after {n m : Nat} {more : List Token} (h : tail = [] ∨ Starts (n ≤ ·.strength) tail)
    (hle : m ≤ n) (hmore : more = [] ∨ Starts (m ≤ ·.strength) more) :
    tail ++ more = [] ∨ Starts (m ≤ ·.strength) (tail ++ more) := by
  rcases h with rfl | h
  · exact hmore
  · exact .inr ((h.mono fun k hk => hle.trans hk).append more)

theorem ExprDerivation.starts_after_name {s : ExprSymbol} (d : ExprDerivation s) {t : Token}
    {tail : List Token} (h : d.tokens = t :: tail) (hk : t.kind = .identifier) :
    tail = [] ∨ Starts (s.strength ≤ ·.strength) tail := by
  have hother {k : Kind} (u : Of k) {more : List Token} (hu : k ≠ .identifier)
      (h : u.val :: more = t :: tail) : False :=
    hu (u.property.symm.trans ((List.cons.inj h).1 ▸ hk))
  cases d with
  | lambda u params colon body | negated u d | number u value h' | true u | false u | none u
  | ellipsis u => exact (hother u (by decide) h).elim
  | disjunction d | comparison d | power d => exact d.starts_after_name h hk
  | chain first more =>
    rename_i l
    obtain ⟨t', tail', ht', -⟩ := first.starts
    rw [tokens, ht'] at h
    obtain ⟨rfl, rfl⟩ := List.cons.inj h
    refine starts_after (first.starts_after_name ht' hk) l.strength_lt_operand.le ?_
    cases more with
    | stop => exact .inl rfl
    | again op operand more =>
      exact .inr ⟨op.val, _, rfl, (Level.strength_of_mem op.property).ge⟩
  | signed u d =>
    have hsign : u.val.kind ∈ [Kind.minus, .plus, .tilde] := u.property
    rw [(List.cons.inj h).1, hk] at hsign
    exact absurd hsign (by decide)
  | raised base u exponent =>
    obtain ⟨t', tail', ht', -⟩ := base.starts
    rw [tokens, ht'] at h
    obtain ⟨rfl, rfl⟩ := List.cons.inj h
    exact starts_after (base.starts_after_name ht' hk) (by decide)
      (.inr (starts_of u _ (by decide)))
  | postfixes d =>
    have hle : ExprSymbol.power.strength ≤ ExprSymbol.postfixes.strength := by decide
    exact (d.starts_after_name h hk).imp_right fun h => h.mono fun k hk => hle.trans hk
  | trailed first more =>
    obtain ⟨t', tail', ht', -⟩ := first.starts
    rw [tokens, ht'] at h
    obtain ⟨rfl, rfl⟩ := List.cons.inj h
    refine starts_after (first.starts_after_name ht' hk) (by decide) ?_
    cases more with
    | stop => exact .inl rfl
    | call left args right more => exact .inr (starts_of left _ (by decide))
    | member dot field more => exact .inr (starts_of dot _ (by decide))
  | strings first more => exact (hother first (by decide) h).elim
  | name u => exact .inl (List.cons.inj h).2.symm
  | paren left d right | list left elements right => exact (hother left (by decide) h).elim

theorem ExprDerivation.no_sign_after_name (d : ExprDerivation .expr) {t : Token}
    (ht : d.tokens ++ rest = t :: tail) (hk : t.kind = .identifier)
    (hrest : Starts (· = .newline) rest) :
    Starts (· ∉ [Kind.assign, .colon] ++ augmentations.map (·.1)) tail := by
  have hweak : ∀ k ∈ [Kind.assign, .colon] ++ augmentations.map (·.1), k.strength < 1 := by decide
  obtain ⟨t', tail', ht', -⟩ := d.starts
  rw [ht'] at ht
  obtain ⟨rfl, rfl⟩ := List.cons.inj ht
  rcases d.starts_after_name ht' hk with rfl | hafter
  · exact hrest.mono fun k hk => hk ▸ (by decide)
  · exact (hafter.mono fun k hk hmem => absurd (hweak k hmem) (Nat.not_lt.mpr hk)).append rest

abbrev EndsStmt (rest : List Token) : Prop := Starts (· ∉ [.kwElif, .kwElse]) rest

theorem StmtsDerivation.ends (d : StmtsDerivation) (h : EndsStmt rest) :
    EndsStmt (d.tokens ++ rest) := by
  have hopeners : ∀ k ∈ StmtDerivation.openers, k ∉ [Kind.kwElif, .kwElse] := by decide
  cases d with
  | nil => exact h
  | cons d more =>
    rw [StmtsDerivation.tokens, List.append_assoc]
    exact (d.starts.mono hopeners).append _

theorem BlockDerivation.starts (d : BlockDerivation) : Starts (· = .colon) d.tokens := by
  cases d with
  | line colon d newline | suite colon newline indent body dedent => exact starts_of colon _ rfl

theorem BlockDerivation.ends (d : BlockDerivation) : Ends 1 (d.tokens ++ rest) :=
  (d.starts.mono fun k hk => hk ▸ (by decide)).append rest

end BoardPython
