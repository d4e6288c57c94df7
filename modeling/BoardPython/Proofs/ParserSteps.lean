import BoardPython.Proofs.Derivations

/-! What single steps of a parser do, and what follows for parsers made of them. A parser decides on
tokens: it reads some of them and leaves the next one, or it fails at a token, and in both cases
whatever comes behind that token makes no difference; or else the tokens run out. -/
namespace BoardPython.Parser

open Token (Kind Of OneOf)

section Results

variable {α β : Type} {ts rest : List Token} {k : Kind}

variable {t : Token} {f : Token → Parser β} {b : β} {p : Parser α} {a : α}

theorem bind_of_ok {f : α → Parser β} (h : p ts = .ok (a, rest)) :
    (p >>= f) ts = f a rest := by
  change Except.bind (p ts) (fun r => f r.1 r.2) = _
  rw [h]
  rfl

theorem bind_of_error {f : α → Parser β} {stop : Stop} (h : p ts = .error stop) :
    (p >>= f) ts = .error stop := by
  change Except.bind (p ts) (fun r => f r.1 r.2) = _
  rw [h]
  rfl

theorem peek_bind : (peek >>= f) (t :: ts) = f t (t :: ts) := rfl

theorem peek_bind_eq_of_forall {r : Except Stop (β × List Token)}
    (h : ∀ p, p = f t → p (t :: ts) = r) :
    (peek >>= f) (t :: ts) = r :=
  h (f t) rfl

theorem peek_bind_of_eq (h : ts = t :: rest) :
    (peek >>= f) ts = f t ts := by
  rw [h, peek_bind]

/-- The kind of the first token, where nothing counts as the end. -/
def headKind (ts : List Token) : Kind := ts.head?.elim .eof (·.kind)

theorem peekSecond_bind {f : Kind → Parser β} :
    (peekSecond >>= f) (t :: ts) = f (headKind ts) (t :: ts) := rfl

theorem next_bind : (next >>= f) (t :: ts) = f t ts := rfl

theorem expect_of_kind (h : t.kind = k) : expect k (t :: ts) = .ok (t, ts) := by
  change (if t.kind = k then next else fail t.position (.expected k t)) (t :: ts) = _
  rw [if_pos h]
  rfl

theorem expect_of_ne (h : t.kind ≠ k) :
    expect k (t :: ts) = .error (.fault ⟨t.position, .expected k t⟩) := by
  change (if t.kind = k then next else fail t.position (.expected k t)) (t :: ts) = _
  rw [if_neg h]
  rfl

theorem accept_of_kind (h : t.kind = k) : accept k (t :: ts) = .ok (true, ts) := by
  change (if t.kind = k then (do let _ ← next; return true) else return false : Parser Bool)
    (t :: ts) = _
  rw [if_pos h]
  rfl

theorem accept_of_ne (h : t.kind ≠ k) : accept k (t :: ts) = .ok (false, t :: ts) := by
  change (if t.kind = k then (do let _ ← next; return true) else return false : Parser Bool)
    (t :: ts) = _
  rw [if_neg h]
  rfl

variable {body : α → Parser (Round α β)} {stop : Stop}

theorem rounds_of_done (limit : List Token) (h : body a ts = .ok (.done b, rest)) :
    rounds body limit a ts = .ok (b, rest) := by
  cases limit with
  | nil | cons t limit =>
    rw [rounds, bind_of_ok h]
    rfl

theorem rounds_of_again {a' : α} {limit : List Token} (hlimit : limit ≠ [])
    (h : body a ts = .ok (.again a', rest)) :
    rounds body limit a ts = rounds body limit.tail a' rest := by
  cases limit with
  | nil => exact absurd rfl hlimit
  | cons t limit =>
    rw [rounds, bind_of_ok h]
    rfl

theorem rounds_of_error (limit : List Token) (h : body a ts = .error stop) :
    rounds body limit a ts = .error stop := by
  cases limit with
  | nil | cons t limit => rw [rounds, bind_of_error h]

end Results

theorem isSign_iff {k : Kind} : isSign k = true ↔ k ∈ [Kind.minus, .plus, .tilde] := by
  simp [isSign, or_assoc]

def Folds (l : Level) (node : Position → Kind → Expr → Expr → Expr) : Prop :=
  ∀ first more, l.join first more =
    more.foldl (fun left x => node x.1.position x.1.kind left x.2) first

theorem isComparison_iff {k : Kind} : isComparison k = true ↔ k ∈ Level.comparison.operators := by
  simp [isComparison, Level.operators, or_assoc]

theorem augmentedBy?_eq_some_iff {k op : Kind} :
    augmentedBy? k = some op ↔ (k, op) ∈ augmentations := by
  cases k <;> simp [augmentedBy?, augmentations, eq_comm]

section NameStatement

variable {t : Token} {tail : List Token}

theorem nameStatement_of_assign (h : headKind tail = .assign ∨ headKind tail = .colon) :
    nameStatement (t :: tail) = assignment (t :: tail) := by
  unfold nameStatement
  rw [peek_bind, peekSecond_bind, if_pos h]

theorem nameStatement_of_augment {op : Kind} (h : augmentedBy? (headKind tail) = some op) :
    nameStatement (t :: tail) =
      (do let _ ← next; return .augment t.position (text t) op (← expression) : Parser Stmt)
        tail := by
  have hne : ¬(headKind tail = .assign ∨ headKind tail = .colon) := by
    rintro (hk | hk)
    · rw [hk] at h
      cases h
    · rw [hk] at h
      cases h
  unfold nameStatement
  rw [peek_bind, peekSecond_bind, if_neg hne, h]
  rfl

theorem nameStatement_of_other (h : ¬(headKind tail = .assign ∨ headKind tail = .colon))
    (hop : augmentedBy? (headKind tail) = none) :
    nameStatement (t :: tail) = evaluation (t :: tail) := by
  unfold nameStatement
  rw [peek_bind, peekSecond_bind, if_neg h, hop]

end NameStatement

section Decides

variable {α β δ : Type} {ts tail used : List Token} {t : Token} {k k' : Nat}
  {p q : List Token → Parser α} {f : List Token → α → Parser β} {r : List Token → Parser β}
  {Q R : α → List Token → Prop} {S : β → List Token → Prop} {V W : List Token → Prop}

/-- The parsers of a family decide on tokens. A family has a parser for each bound on the nesting of
phrases, and the bound must be larger by `k` than what is read. `Q` holds of a result and the tokens
that are read for it, and `V` of the tokens in front of an error. -/
inductive Decides (k : Nat) (p : List Token → Parser α) (ts : List Token)
    (Q : α → List Token → Prop) (V : List Token → Prop) : Prop where
  | reads {a : α} {used : List Token} {t : Token} {tail : List Token} (split : ts = used ++ t :: tail)
      (free : EndFree used) (result : Q a used)
      (result_eq : ∀ bound more, used.length + k ≤ bound.length →
        p bound (used ++ t :: more) = .ok (a, t :: more))
  | fails {e : SyntaxError} {used : List Token} {t : Token} {tail : List Token}
      (split : ts = used ++ t :: tail) (position : t.position = e.position) (viable : V used)
      (result_eq : ∀ bound more, used.length + k ≤ bound.length →
        p bound (used ++ t :: more) = .error (.fault e))
  /-- The parser is done exactly at the end of the list, or asks for one more token. -/
  | runsOut (free : EndFree ts)
      (result : ∀ bound, ts.length + k ≤ bound.length →
        p bound ts = .error .outOfTokens ∨ ∃ a, Q a ts ∧ p bound ts = .ok (a, []))

theorem Decides.weaken (h : Decides k p ts Q V) (hQ : ∀ a u, Q a u → R a u)
    (hV : ∀ u, V u → W u) : Decides k p ts R W := by
  cases h with
  | reads hsplit hfree hresult heq => exact .reads hsplit hfree (hQ _ _ hresult) heq
  | fails hsplit hpos hviable heq => exact .fails hsplit hpos (hV _ hviable) heq
  | runsOut hfree hresult =>
    refine .runsOut hfree fun bound hbound => (hresult bound hbound).imp_right ?_
    rintro ⟨a, ha, heq⟩
    exact ⟨a, hQ a ts ha, heq⟩

theorem Decides.congr (h : Decides k p ts Q V)
    (hq : ∀ bound x n, n + k' ≤ bound.length → n ≤ x.length →
      ∃ bound', n + k ≤ bound'.length ∧ q bound x = p bound' x) : Decides k' q ts Q V := by
  have hlength (used more : List Token) (t : Token) : used.length ≤ (used ++ t :: more).length := by
    rw [List.length_append]
    omega
  cases h with
  | reads hsplit hfree hresult heq =>
    refine .reads hsplit hfree hresult fun bound more hbound => ?_
    obtain ⟨bound', hbound', hqp⟩ := hq bound _ _ hbound (hlength _ more _)
    rw [hqp, heq bound' more hbound']
  | fails hsplit hpos hviable heq =>
    refine .fails hsplit hpos hviable fun bound more hbound => ?_
    obtain ⟨bound', hbound', hqp⟩ := hq bound _ _ hbound (hlength _ more _)
    rw [hqp, heq bound' more hbound']
  | runsOut hfree hresult =>
    refine .runsOut hfree fun bound hbound => ?_
    obtain ⟨bound', hbound', hqp⟩ := hq bound ts _ hbound (Nat.le_refl _)
    rw [hqp]
    exact hresult bound' hbound'

theorem Decides.mono (h : Decides k p ts Q V) (hk : k ≤ k') : Decides k' p ts Q V :=
  h.congr fun bound _ _ hbound _ => ⟨bound, by omega, rfl⟩

theorem Decides.whole (h : Decides 0 p ts Q V) : Decides k (fun _ ts => p ts ts) ts Q V :=
  h.congr fun _ x _ _ hx => ⟨x, hx, rfl⟩

theorem Decides.inside (h : Decides k p ts Q V) (hq : ∀ t bound, q (t :: bound) = p bound) :
    Decides (k + 1) q ts Q V := by
  refine h.congr fun bound x n hbound _ => ?_
  obtain ⟨t, bound', rfl⟩ := List.exists_cons_of_length_pos (l := bound) (by omega)
  rw [List.length_cons] at hbound
  exact ⟨bound', by omega, by rw [hq]⟩

theorem Decides.nil (h : Decides k p [] Q V) (bound : List Token) (hbound : k ≤ bound.length) :
    p bound [] = .error .outOfTokens ∨ ∃ a, Q a [] ∧ p bound [] = .ok (a, []) := by
  cases h with
  | reads hsplit | fails hsplit =>
    exact absurd hsplit.symm (List.append_ne_nil_of_right_ne_nil _ (by simp))
  | runsOut _ hresult => exact hresult bound (by rwa [List.length_nil, Nat.zero_add])

theorem head?_append_cons (used more tail : List Token) (t : Token) :
    (used ++ t :: more).head? = (used ++ t :: tail).head? := by
  cases used <;> rfl

variable {rest : List Token} {a : α} {j : Kind} {δ' : Type}

theorem Decides.after {used : List Token} (hfree : EndFree used)
    (heq : ∀ bound x, used.length + k ≤ bound.length → x.head? = rest.head? →
      q bound (used ++ x) = p bound x)
    (h : Decides (k + used.length) p rest (fun a u => Q a (used ++ u)) fun u => V (used ++ u)) :
    Decides k q (used ++ rest) Q V := by
  cases h with
  | reads hsplit hfree' hresult hp =>
    subst hsplit
    refine .reads (List.append_assoc ..).symm (hfree.append hfree') hresult
      fun bound more hbound => ?_
    rw [List.length_append] at hbound
    rw [List.append_assoc, heq bound _ (by omega) (head?_append_cons ..), hp bound more (by omega)]
  | fails hsplit hpos hviable hp =>
    subst hsplit
    refine .fails (List.append_assoc ..).symm hpos hviable fun bound more hbound => ?_
    rw [List.length_append] at hbound
    rw [List.append_assoc, heq bound _ (by omega) (head?_append_cons ..), hp bound more (by omega)]
  | runsOut hfree' hresult =>
    refine .runsOut (hfree.append hfree') fun bound hbound => ?_
    rw [List.length_append] at hbound
    rw [heq bound rest (by omega) rfl]
    exact hresult bound (by omega)

theorem Decides.bind (hp : Decides k p ts Q V)
    (hf : ∀ a used rest, ts = used ++ rest → Q a used →
      Decides (k + used.length) (fun b => f b a) rest (fun x u => S x (used ++ u))
        fun u => V (used ++ u)) :
    Decides k (fun b => p b >>= f b) ts S V := by
  cases hp with
  | reads hsplit hfree hresult heq =>
    subst hsplit
    refine .after hfree (fun bound x hbound hx => ?_) (hf _ _ _ rfl hresult)
    obtain ⟨more, rfl⟩ := List.head?_eq_some_iff.mp hx
    exact bind_of_ok (heq bound more hbound)
  | fails hsplit hpos hviable heq =>
    exact .fails hsplit hpos hviable fun bound more hbound => bind_of_error (heq bound more hbound)
  | runsOut hfree hresult =>
    refine .runsOut hfree fun bound hbound => ?_
    rcases hresult bound hbound with hout | ⟨a, ha, hok⟩
    · exact .inl (bind_of_error hout)
    · -- Nothing is left for what is done next.
      have hnext := (hf a ts [] (List.append_nil ts).symm ha).nil bound (by omega)
      rw [List.append_nil] at hnext
      rwa [bind_of_ok hok]

theorem decides_pure (h : Q a []) : Decides k (fun _ => pure a) ts Q V := by
  cases ts with
  | nil => exact .runsOut .nil fun _ _ => .inr ⟨a, h, rfl⟩
  | cons t tail =>
    have hsplit : t :: tail = [] ++ t :: tail := rfl
    exact .reads hsplit .nil h fun _ _ _ => rfl

theorem decides_fail {fault : SyntaxFault} (h : V []) :
    Decides k (fun _ => fail t.position fault) (t :: tail) Q V := by
  have hsplit : t :: tail = [] ++ t :: tail := rfl
  exact .fails (e := ⟨t.position, fault⟩) hsplit rfl h fun _ _ _ => rfl

theorem decides_peek_bind {f : List Token → Token → Parser β}
    (h : ∀ t tail, ts = t :: tail → Decides k (fun b => f b t) ts S V) :
    Decides k (fun b => peek >>= f b) ts S V := by
  cases ts with
  | nil => exact .runsOut .nil fun _ _ => .inl rfl
  | cons t tail =>
    refine .after .nil (fun bound x _ hx => ?_) (h t tail rfl)
    obtain ⟨more, rfl⟩ := List.head?_eq_some_iff.mp hx
    rfl

theorem decides_next_bind {f : List Token → Token → Parser β} (ht : t.kind ≠ .eof)
    (h : Decides (k + 1) (fun b => f b t) tail (fun x u => S x (t :: u)) fun u => V (t :: u)) :
    Decides k (fun b => next >>= f b) (t :: tail) S V := by
  have hfree : EndFree [t] := List.forall_mem_singleton.mpr ht
  exact .after hfree (fun _ _ _ _ => rfl) h

/-- Behind a token of kind `j` it goes on; at any other token `expect` fails. -/
theorem decides_expect_bind {f : List Token → Token → Parser β} (hj : j ≠ .eof)
    (hV : V [])
    (h : ∀ (t : Of j) rest, ts = t.val :: rest →
      Decides (k + 1) (fun b => f b t.val) rest (fun x u => S x (t.val :: u))
        fun u => V (t.val :: u)) :
    Decides k (fun b => expect j >>= f b) ts S V := by
  have hexpect : Decides k (fun _ => expect j) ts (fun x u => x.kind = j ∧ u = [x]) V := by
    refine decides_peek_bind fun t tail hcons => ?_
    subst hcons
    by_cases ht : t.kind = j
    · simp only [if_pos ht]
      have hfree : EndFree [t] := .single (t := ⟨t, ht⟩) hj
      exact .after (p := fun _ => pure t) hfree (fun _ _ _ _ => rfl) (decides_pure ⟨ht, rfl⟩)
    · simp only [if_neg ht]
      exact decides_fail hV
  refine hexpect.bind fun x used rest hsplit hx => ?_
  obtain ⟨hx, rfl⟩ := hx
  exact h ⟨x, hx⟩ rest hsplit

theorem decides_accept_bind {f : List Token → Bool → Parser β} (hj : j ≠ .eof)
    (hyes : ∀ (t : Of j) rest, ts = t.val :: rest →
      Decides (k + 1) (fun b => f b true) rest (fun x u => S x (t.val :: u)) fun u => V (t.val :: u))
    (hno : Decides k (fun b => f b false) ts S V) :
    Decides k (fun b => accept j >>= f b) ts S V := by
  have haccept : Decides k (fun _ => accept j) ts
      (fun x u => (x = true ∧ ∃ t : Of j, u = [t.val]) ∨ (x = false ∧ u = [])) V := by
    refine decides_peek_bind fun t tail hcons => ?_
    subst hcons
    by_cases ht : t.kind = j
    · simp only [if_pos ht]
      exact decides_next_bind (fun heq => hj (ht.symm.trans heq))
        (decides_pure (.inl ⟨rfl, ⟨t, ht⟩, rfl⟩))
    · simp only [if_neg ht]
      exact decides_pure (.inr ⟨rfl, rfl⟩)
  refine haccept.bind fun x used rest hsplit hx => ?_
  rcases hx with ⟨rfl, t, rfl⟩ | ⟨rfl, rfl⟩
  · exact hyes t rest hsplit
  · obtain rfl : ts = rest := hsplit
    exact hno

/-- What is done may also depend on the second token, if the first one is read in any case. -/
theorem Decides.lookahead (h : Decides k p (t :: rest) Q V) (hQ : ∀ a, ¬Q a [])
    (hok : ∃ bound more r, k ≤ bound.length ∧ p bound (t :: more) = .ok r)
    (heq : ∀ bound x, x.head? = rest.head? → q bound (t :: x) = p bound (t :: x)) :
    Decides k q (t :: rest) Q V := by
  have hsecond {bound used more tail : List Token} {u : Token} (hused : used ≠ [])
      (hsplit : t :: rest = used ++ u :: tail) :
      q bound (used ++ u :: more) = p bound (used ++ u :: more) := by
    obtain ⟨t', used, rfl⟩ := List.exists_cons_of_ne_nil hused
    obtain ⟨rfl, rfl⟩ := List.cons.inj hsplit
    exact heq bound _ (head?_append_cons ..)
  cases h with
  | reads hsplit hfree hresult hp =>
    refine .reads hsplit hfree hresult fun bound more hbound => ?_
    rw [hsecond (fun hnil => hQ _ (hnil ▸ hresult)) hsplit, hp bound more hbound]
  | fails hsplit hpos hviable hp =>
    refine .fails hsplit hpos hviable fun bound more hbound => ?_
    rw [hsecond ?_ hsplit, hp bound more hbound]
    rintro rfl
    obtain ⟨rfl, -⟩ := List.cons.inj hsplit
    obtain ⟨bound', more', r, hbound', hr⟩ := hok
    cases hr.symm.trans (hp bound' more' (by rwa [List.length_nil, Nat.zero_add]))
  | runsOut hfree hresult =>
    refine .runsOut hfree fun bound hbound => ?_
    rw [heq bound rest rfl]
    exact hresult bound hbound

/-- A round that asks for another has read a token and keeps the invariant `I` of the loop. -/
def Round.Keeps (I : α → List Token → Prop) (S : β → List Token → Prop) (used : List Token) :
    Round α β → List Token → Prop
  | .again a, u => u ≠ [] ∧ I a (used ++ u)
  | .done b, u => S b (used ++ u)

/-- A loop decides if its rounds do. Each round but the last reads a token, so there are never too
few rounds. -/
theorem decides_repeatUntil {body : List Token → α → Parser (Round α β)} {I : α → List Token → Prop}
    (hbody : ∀ a used rest, ts = used ++ rest → I a used →
      Decides (k + used.length) (fun b => body b a) rest (Round.Keeps I S used)
        fun u => V (used ++ u))
    (ha : I a []) : Decides k (fun b => repeatUntil (body b) a) ts S V := by
  -- How many rounds there can be is counted apart from the bound of the family.
  have hrounds : ∀ (n : Nat) (limit : List Token → List Token) (a : α) (used rest : List Token),
      (∀ x, x.length ≤ (limit x).length) → rest.length = n → ts = used ++ rest → I a used →
      Decides (k + used.length) (fun b x => rounds (body b) (limit x) a x) rest
        (fun x u => S x (used ++ u)) fun u => V (used ++ u) := by
    intro n
    induction n using Nat.strongRecOn with
    | ind n ih =>
      intro limit a used rest hlimit hn hts hI
      have hlimit_ne {x : List Token} (hx : x ≠ []) : limit x ≠ [] := by
        have hpos := List.length_pos_iff.mpr hx
        exact List.length_pos_iff.mp (hpos.trans_le (hlimit x))
      -- The rounds behind one that has read `u`.
      have hmore {u rest' : List Token} {a' : α} (hrest : rest = u ++ rest') (hu : u ≠ [])
          (hI' : I a' (used ++ u)) :
          Decides (k + used.length + u.length)
            (fun b x => rounds (body b) (limit (u ++ x)).tail a' x) rest'
            (fun x v => S x (used ++ (u ++ v))) fun v => V (used ++ (u ++ v)) := by
        have hpos := List.length_pos_iff.mpr hu
        have hlength := congrArg List.length hrest
        rw [List.length_append] at hlength
        have hdecides := ih rest'.length (by omega) (fun x => (limit (u ++ x)).tail) a' (used ++ u)
          rest' (fun x => ?_) rfl (by rw [hts, hrest, List.append_assoc]) hI'
        · simpa only [List.length_append, List.append_assoc, ← Nat.add_assoc] using hdecides
        · have hle := hlimit (u ++ x)
          rw [List.length_append] at hle
          rw [List.length_tail]
          omega
      cases hbody a used rest hts hI with
      | @reads round u t tail hsplit hfree hkeeps heq =>
        cases round with
        | done b =>
          exact .reads hsplit hfree hkeeps fun bound more hbound =>
            rounds_of_done _ (heq bound more hbound)
        | again a' =>
          have hdecides := hmore hsplit hkeeps.1 hkeeps.2
          subst hsplit
          refine .after hfree (fun bound x hbound hx => ?_) hdecides
          obtain ⟨more, rfl⟩ := List.head?_eq_some_iff.mp hx
          exact rounds_of_again (hlimit_ne (by simp)) (heq bound more hbound)
      | fails hsplit hpos hviable heq =>
        exact .fails hsplit hpos hviable fun bound more hbound =>
          rounds_of_error _ (heq bound more hbound)
      | runsOut hfree hresult =>
        refine .runsOut hfree fun bound hbound => ?_
        rcases hresult bound hbound with hout | ⟨round, hkeeps, hok⟩
        · exact .inl (rounds_of_error _ hout)
        cases round with
        | done b => exact .inr ⟨b, hkeeps, rounds_of_done _ hok⟩
        | again a' =>
          have hnext := (hmore (List.append_nil rest).symm hkeeps.1 hkeeps.2).nil bound (by omega)
          rw [List.append_nil] at hnext
          rwa [rounds_of_again (hlimit_ne hkeeps.1) hok]
  exact hrounds ts.length id a [] ts (fun _ => Nat.le_refl _) rfl rfl ha

def Viable (tokens : δ → List Token) (used : List Token) : Prop := ∃ d, used <+: tokens d

def Derives (tokens : δ → List Token) (tree : δ → α) (a : α) (used : List Token) : Prop :=
  ∃ d, tokens d = used ∧ tree d = a

variable {tokens : δ → List Token} {tree : δ → α}

theorem Decides.part (h : Decides k p ts Q (Viable tokens))
    (hV : ∀ d u more, tokens d = u ++ more → V u) : Decides k p ts Q V := by
  refine h.weaken (fun _ _ ha => ha) fun u hu => ?_
  obtain ⟨d, more, hmore⟩ := hu
  exact hV d u more hmore.symm

theorem Decides.retag {tokens' : δ' → List Token} {tree' : δ' → α}
    (h : Decides k p ts (Derives tokens tree) (Viable tokens)) (tag : δ → δ')
    (htokens : ∀ d, tokens' (tag d) = tokens d) (htree : ∀ d, tree' (tag d) = tree d) :
    Decides k p ts (Derives tokens' tree') (Viable tokens') := by
  refine (h.part fun d u more hd => ⟨tag d, more, by rw [htokens, hd]⟩).weaken ?_ fun _ hu => hu
  rintro _ _ ⟨d, rfl, rfl⟩
  exact ⟨tag d, htokens d, htree d⟩

theorem Decides.last {β : Type} {tokens' : δ' → List Token} {tree' : δ' → β} {f : α → β}
    {front : List Token → List Token} (h : Decides k p ts (Derives tokens tree) (Viable tokens))
    (tag : δ → δ') (hfront : ∀ u more, front (u ++ more) = front u ++ more)
    (htokens : ∀ d, tokens' (tag d) = front (tokens d)) (htree : ∀ d, tree' (tag d) = f (tree d)) :
    Decides k (fun b => p b >>= fun a => pure (f a)) ts
      (fun a u => Derives tokens' tree' a (front u)) fun u => Viable tokens' (front u) := by
  refine Decides.bind (h.part fun d u more hd => ?_) ?_
  · exact ⟨tag d, more, by rw [htokens, hd, hfront]⟩
  · rintro _ _ rest - ⟨d, rfl, rfl⟩
    exact decides_pure ⟨tag d, by rw [htokens, List.append_nil], htree d⟩

/-- The parsers of a family decide on all lists of fewer than `n` tokens, and read phrases. -/
def Parses (n k : Nat) (tokens : δ → List Token) (tree : δ → α) (p : List Token → Parser α) : Prop :=
  ∀ ts, ts.length < n → Decides k p ts (Derives tokens tree) (Viable tokens)

end Decides

end BoardPython.Parser
