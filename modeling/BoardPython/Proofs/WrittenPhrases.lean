import BoardPython.Proofs.WrittenLines

/-! What written words are read as. Tokens that spell the words of an expression are derived from the
symbol for expressions, by a derivation whose tree is the expression again: `writes_expr`. -/
namespace BoardPython

open Token (Kind Of OneOf)
open Bytes (ascii)

namespace Number

theorem readDigits_append (base value : Nat) (u w : Bytes) :
    readDigits base value (u ++ w) =
      (readDigits base value u).bind fun value => readDigits base value w := by
  induction u generalizing value with
  | nil => rfl
  | cons b u ih =>
    simp only [List.cons_append, readDigits]
    cases Bytes.digitValue? b with
    | none => rfl
    | some d =>
      dsimp only
      split
      · exact ih _
      · rfl

theorem readDigits_toDigits (n : Nat) :
    readDigits 10 0 ((Nat.toDigits 10 n).map ascii) = some n := by
  have hdigit (d : Nat) (hd : d < 10) (value : Nat) :
      readDigits 10 value [ascii d.digitChar] = some (value * 10 + d) := by
    have hall : ∀ d < 10, Bytes.digitValue? (ascii d.digitChar) = some d := by decide
    simp only [readDigits, hall d hd, if_pos hd]
  induction n using Nat.strongRecOn with
  | ind n ih =>
    rcases Nat.lt_or_ge n 10 with hlt | hge
    · rw [Nat.toDigits_of_lt_base hlt]
      exact (hdigit n hlt 0).trans (by rw [Nat.zero_mul, Nat.zero_add])
    · have hmod : n % 10 < 10 := Nat.mod_lt n (by decide)
      rw [Nat.toDigits_of_base_le (by decide) hge, List.map_append, readDigits_append,
        ih (n / 10) (by omega), Option.bind_some]
      exact (hdigit (n % 10) hmod (n / 10)).trans (by rw [Nat.div_add_mod'])

theorem read_written (n : Nat) : Numeral.read (Word.number n).written = .ok (.int n) := by
  have hdigits : ∀ d ∈ (Word.number n).written, Bytes.isDigit d = true := fun d => isDigit_written
  have hread : readDigits 10 0 (Word.number n).written = some n := readDigits_toDigits n
  have hne : (Word.number n).written ≠ [] := by
    obtain ⟨x, u, hx, -⟩ := Word.written_head (w := .number n) rfl
    rw [hx]
    exact List.cons_ne_nil x u
  have hclean : withoutUnderscores (Word.number n).written = (Word.number n).written := by
    refine List.filter_eq_self.mpr fun d hd => ?_
    exact of_isDigit (P := fun d => (d != ascii '_') = true) (by decide) (hdigits d hd)
  refine read_decimal hclean hdigits ?_
  rw [readNatural, if_neg (by simpa using hne), hread]

end Number

structure Closed (ws : List Word) : Prop where
  valid : ∀ w ∈ ws, w.isValid = true
  balanced : ∀ depth, ws.foldl Word.depthAfter depth = depth

def Word.isPlain (w : Word) : Bool := w.isValid && !w.opens && !w.closes

theorem Word.isPlain_name {id : String} (h : isIdentifier id = true) :
    (Word.name id).isPlain = true := by
  simp [isPlain, isValid, h, opens, closes]

namespace Closed

variable {ws us : List Word} {w : Word}

theorem nil : Closed [] := ⟨List.forall_mem_nil _, fun _ => rfl⟩

theorem append (h : Closed ws) (h' : Closed us) : Closed (ws ++ us) where
  valid := List.forall_mem_append.mpr ⟨h.valid, h'.valid⟩
  balanced depth := by rw [List.foldl_append, h.balanced, h'.balanced]

theorem cons (hw : w.isPlain = true) (h : Closed ws) : Closed (w :: ws) := by
  simp only [Word.isPlain, Bool.and_eq_true, Bool.not_eq_true'] at hw
  refine ⟨List.forall_mem_cons.mpr ⟨hw.1.1, h.valid⟩, fun depth => ?_⟩
  rw [List.foldl_cons, Word.depthAfter, hw.1.2, hw.2]
  exact h.balanced depth

theorem single (hw : w.isPlain = true) : Closed [w] := cons hw nil

theorem paren (h : Closed ws) :
    Closed (.symbol .leftParen :: (ws ++ [Word.symbol .rightParen])) where
  valid := List.forall_mem_cons.mpr ⟨by decide, List.forall_mem_append.mpr
    ⟨h.valid, List.forall_mem_singleton.mpr (by decide)⟩⟩
  balanced depth := by
    rw [List.foldl_cons, List.foldl_append, h.balanced]
    rfl

theorem bracket (h : Closed ws) :
    Closed (.symbol .leftBracket :: (ws ++ [Word.symbol .rightBracket])) where
  valid := List.forall_mem_cons.mpr ⟨by decide, List.forall_mem_append.mpr
    ⟨h.valid, List.forall_mem_singleton.mpr (by decide)⟩⟩
  balanced depth := by
    rw [List.foldl_cons, List.foldl_append, h.balanced]
    rfl

theorem commaWords {wss : List (List Word)} (h : ∀ ws ∈ wss, Closed ws) :
    Closed (commaWords wss) := by
  induction wss with
  | nil => exact nil
  | cons ws rest ih =>
    obtain ⟨hws, hrest⟩ := List.forall_mem_cons.mp h
    cases rest with
    | nil => exact hws
    | cons us rest => exact hws.append ((ih hrest).cons (by decide))

theorem chainWords {ops : List Kind} {wss : List (List Word)}
    (hops : ∀ op ∈ ops, (Word.symbol op).isPlain = true) (h : ∀ ws ∈ wss, Closed ws) :
    Closed (chainWords ops wss) := by
  induction ops generalizing wss with
  | nil => exact nil
  | cons op ops ih =>
    obtain ⟨hop, hops⟩ := List.forall_mem_cons.mp hops
    cases wss with
    | nil => exact nil
    | cons ws rest =>
      obtain ⟨hws, hrest⟩ := List.forall_mem_cons.mp h
      exact (hws.append (ih hops hrest)).cons hop

end Closed

/-- The tokens are those that the words are meant to become. -/
def Spells (ts : List Token) (ws : List Word) : Prop := ts.map Token.content = ws.map Word.content

theorem CommaList.map_tree {α β γ : Type} (f : α → β) (g : β → γ) (d : CommaList α) :
    (d.tree f).map g = d.tree fun x => g (f x) := by
  induction d with
  | nil | last x => rfl
  | cons x comma rest ih => rw [tree, tree, List.map_cons, ih]

namespace Spells

variable {ts : List Token} {w : Word} {ws us : List Word}

theorem nil (h : Spells ts []) : ts = [] := List.map_eq_nil_iff.mp h

theorem cons (h : Spells ts (w :: ws)) :
    ∃ t ts', ts = t :: ts' ∧ t.content = w.content ∧ Spells ts' ws := List.map_eq_cons_iff.mp h

theorem append (h : Spells ts (ws ++ us)) :
    ∃ ts₁ ts₂, ts = ts₁ ++ ts₂ ∧ Spells ts₁ ws ∧ Spells ts₂ us := by
  rw [Spells, List.map_append] at h
  exact List.map_eq_append_iff.mp h

theorem symbol {k : Kind} (h : Spells ts (.symbol k :: ws)) :
    ∃ (t : Of k) (ts' : List Token), ts = t.val :: ts' ∧ t.val.text = k.spelling ∧ Spells ts' ws := by
  obtain ⟨t, ts', rfl, ht, hts'⟩ := h.cons
  obtain ⟨hkind, htext⟩ := Prod.mk.inj ht
  exact ⟨⟨t, hkind⟩, ts', rfl, htext, hts'⟩

theorem name {id : String} (hid : isIdentifier id = true) (h : Spells ts (.name id :: ws)) :
    ∃ (t : Of .identifier) (ts' : List Token), ts = t.val :: ts' ∧ Parser.text t.val = id ∧
      Spells ts' ws := by
  obtain ⟨t, ts', rfl, ht, hts'⟩ := h.cons
  obtain ⟨hkind, htext⟩ := Prod.mk.inj ht
  refine ⟨⟨t, hkind⟩, ts', rfl, ?_, hts'⟩
  rw [Parser.text, htext]
  exact toString_ofString (isAsciiWord_of_isIdentifier hid)

theorem nameAlone {id : String} (hid : isIdentifier id = true) (h : Spells ts [.name id]) :
    ∃ t : Of .identifier, [t.val] = ts ∧ Parser.text t.val = id := by
  obtain ⟨t, ts', rfl, ht, hts'⟩ := h.name hid
  obtain rfl := hts'.nil
  exact ⟨t, rfl, ht⟩

theorem commaList {ι δ β : Type} {words : ι → List Word} {tokens : δ → List Token} {value : δ → β}
    {result : ι → β} {xs : List ι}
    (hitem : ∀ x ∈ xs, ∀ ts, Spells ts (words x) → ∃ d, tokens d = ts ∧ value d = result x)
    (h : Spells ts (commaWords (xs.map words))) :
    ∃ d : CommaList δ, d.tokens tokens = ts ∧ d.tree value = xs.map result := by
  induction xs generalizing ts with
  | nil =>
    obtain rfl := h.nil
    exact ⟨.nil, rfl, rfl⟩
  | cons x xs ih =>
    obtain ⟨hx, hxs⟩ := List.forall_mem_cons.mp hitem
    cases xs with
    | nil =>
      obtain ⟨d, hd, hvalue⟩ := hx ts h
      exact ⟨.last d, hd, by rw [CommaList.tree, hvalue]; rfl⟩
    | cons y xs =>
      obtain ⟨ts₁, ts₂, rfl, h₁, h₂⟩ := h.append
      obtain ⟨comma, ts₃, rfl, -, h₃⟩ := h₂.symbol
      obtain ⟨d, rfl, hvalue⟩ := hx ts₁ h₁
      obtain ⟨rest, rfl, hrest⟩ := ih hxs h₃
      exact ⟨.cons d comma rest, rfl, by rw [CommaList.tree, hvalue, hrest]; rfl⟩

end Spells

/-- The words are closed, and tokens that spell them are derived from the symbol by a derivation
whose tree is the expression, up to positions. -/
structure Writes (s : ExprSymbol) (ws : List Word) (e : Expr) : Prop where
  closed : Closed ws
  derives : ∀ ts, Spells ts ws → ∃ d : ExprDerivation s, d.tokens = ts ∧ d.tree.bare = e.bare

def ExprSymbol.looser : ExprSymbol → ExprSymbol
  | atom => postfixes
  | postfixes => power
  | power => unary
  | unary => chain .product
  | chain .product => chain .sum
  | chain .sum => chain .shift
  | chain .shift => chain .ampersand
  | chain .ampersand => chain .caret
  | chain .caret => chain .pipe
  | chain .pipe => chain .comparison
  | chain .comparison => negation
  | negation => chain .conjunction
  | chain .conjunction => chain .disjunction
  | chain .disjunction | expr => expr

namespace Writes

variable {s s' : ExprSymbol} {ws us : List Word} {e e' : Expr}

theorem lift (f : ExprDerivation s → ExprDerivation s') (htokens : ∀ d, (f d).tokens = d.tokens)
    (htree : ∀ d, (f d).tree = d.tree) (h : Writes s ws e) : Writes s' ws e := by
  refine ⟨h.closed, fun ts hts => ?_⟩
  obtain ⟨d, hd, hbare⟩ := h.derives ts hts
  exact ⟨f d, (htokens d).trans hd, (congrArg Expr.bare (htree d)).trans hbare⟩

variable {l : Level} {ops : List Kind} {es : List Expr} {words : Expr → List Word}

theorem chain (h : Writes l.operand ws e) : Writes (.chain l) ws e := by
  refine h.lift (fun d => .chain d .stop) (fun d => List.append_nil d.tokens) fun d => ?_
  cases l <;> rfl

theorem looser (h : Writes s ws e) : Writes s.looser ws e := by
  cases s with
  | atom =>
    exact h.lift (fun d => .trailed d .stop) (fun d => List.append_nil d.tokens) fun _ => rfl
  | postfixes => exact h.lift .postfixes (fun _ => rfl) fun _ => rfl
  | power => exact h.lift .power (fun _ => rfl) fun _ => rfl
  | unary | negation => exact chain h
  | expr => exact h
  | chain l =>
    cases l with
    | comparison => exact h.lift .comparison (fun _ => rfl) fun _ => rfl
    | disjunction => exact h.lift .disjunction (fun _ => rfl) fun _ => rfl
    | product | sum | shift | ampersand | caret | pipe | conjunction => exact chain h

theorem iterate (h : Writes s ws e) (n : Nat) : Writes (ExprSymbol.looser^[n] s) ws e := by
  induction n with
  | zero => exact h
  | succ n ih =>
    rw [Function.iterate_succ_apply']
    exact ih.looser

theorem expr (h : Writes s ws e) : Writes .expr ws e := by
  have hexpr : ExprSymbol.looser^[14] s = .expr := by
    cases s with
    | chain l => cases l <;> rfl
    | _ => rfl
  exact hexpr ▸ h.iterate 14

theorem of_atom (h : Writes .atom ws e) (s : ExprSymbol) : Writes s ws e := by
  obtain ⟨n, rfl⟩ : ∃ n, ExprSymbol.looser^[n] .atom = s := by
    cases s with
    | atom => exact ⟨0, rfl⟩
    | postfixes => exact ⟨1, rfl⟩
    | power => exact ⟨2, rfl⟩
    | unary => exact ⟨3, rfl⟩
    | negation => exact ⟨11, rfl⟩
    | expr => exact ⟨14, rfl⟩
    | chain l =>
      cases l with
      | product => exact ⟨4, rfl⟩
      | sum => exact ⟨5, rfl⟩
      | shift => exact ⟨6, rfl⟩
      | ampersand => exact ⟨7, rfl⟩
      | caret => exact ⟨8, rfl⟩
      | pipe => exact ⟨9, rfl⟩
      | comparison => exact ⟨10, rfl⟩
      | conjunction => exact ⟨12, rfl⟩
      | disjunction => exact ⟨13, rfl⟩
  exact h.iterate n

theorem word {w : Word} (hw : w.isPlain = true)
    (h : ∀ t : Token, t.content = w.content →
      ∃ d : ExprDerivation .atom, d.tokens = [t] ∧ d.tree.bare = e.bare) : Writes .atom [w] e := by
  refine ⟨.single hw, fun ts hts => ?_⟩
  obtain ⟨t, ts', rfl, ht, hts'⟩ := hts.cons
  obtain rfl := hts'.nil
  exact h t ht

theorem paren (h : Writes .expr ws e) :
    Writes .atom (.symbol .leftParen :: (ws ++ [Word.symbol .rightParen])) e := by
  refine ⟨h.closed.paren, fun ts hts => ?_⟩
  obtain ⟨left, ts₁, rfl, -, h₁⟩ := hts.symbol
  obtain ⟨ts₂, ts₃, rfl, h₂, h₃⟩ := h₁.append
  obtain ⟨right, ts₄, rfl, -, h₄⟩ := h₃.symbol
  obtain rfl := h₄.nil
  obtain ⟨d, rfl, hd⟩ := h.derives ts₂ h₂
  exact ⟨.paren left d right, rfl, hd⟩

theorem operand (h : Writes .expr ws e) (hatom : e.isAtom = true → Writes .atom ws e) :
    Writes .atom (e.asOperand ws) e := by
  unfold Expr.asOperand
  split
  · rename_i hyes
    exact hatom hyes
  · exact h.paren

theorem chainDerivation (hops : ops ⊆ l.operators) (hlength : ops.length = es.length)
    (hes : ∀ e ∈ es, Writes l.operand (words e) e) {ts : List Token}
    (hts : Spells ts (chainWords ops (es.map words))) :
    ∃ d : ChainDerivation l, d.tokens = ts ∧ d.tree.map (·.1.kind) = ops ∧
      d.tree.map (·.2.bare) = es.map Expr.bare := by
  induction ops generalizing es ts with
  | nil =>
    obtain rfl : es = [] := List.eq_nil_of_length_eq_zero hlength.symm
    obtain rfl := hts.nil
    exact ⟨.stop, rfl, rfl, rfl⟩
  | cons op ops ih =>
    cases es with
    | nil => cases hlength
    | cons e es =>
      obtain ⟨he, hes⟩ := List.forall_mem_cons.mp hes
      obtain ⟨hop, hops⟩ := List.cons_subset.mp hops
      obtain ⟨t, ts₁, rfl, -, h₁⟩ := hts.symbol
      obtain ⟨ts₂, ts₃, rfl, h₂, h₃⟩ := h₁.append
      obtain ⟨d, rfl, hd⟩ := he.derives ts₂ h₂
      obtain ⟨more, rfl, hkinds, hbares⟩ := ih hops (Nat.succ.inj hlength) hes h₃
      refine ⟨.again ⟨t.val, t.property.symm ▸ hop⟩ d more, rfl, ?_, ?_⟩
      · exact congrArg₂ List.cons t.property hkinds
      · exact congrArg₂ List.cons hd hbares

/-- Operands of a level with its operators between them, `e'` being the node that they make. -/
theorem joined
    (hplain : ∀ op ∈ l.operators, (Word.symbol op).isPlain = true) (hops : ops ⊆ l.operators)
    (hlength : ops.length = es.length) (h : Writes l.operand ws e)
    (hes : ∀ e ∈ es, Writes l.operand (words e) e)
    (hjoin : ∀ (first : Expr) (more : List (Token × Expr)), first.bare = e.bare →
      more.map (·.1.kind) = ops → more.map (·.2.bare) = es.map Expr.bare →
      (l.join first more).bare = e'.bare) :
    Writes (.chain l) (ws ++ chainWords ops (es.map words)) e' := by
  have hwords : ∀ us ∈ es.map words, Closed us := by
    intro us hus
    obtain ⟨e, he, rfl⟩ := List.mem_map.mp hus
    exact (hes e he).closed
  refine ⟨h.closed.append (.chainWords (fun op hop => hplain op (hops hop)) hwords),
    fun ts hts => ?_⟩
  obtain ⟨ts₁, ts₂, rfl, h₁, h₂⟩ := hts.append
  obtain ⟨d, rfl, hd⟩ := h.derives ts₁ h₁
  obtain ⟨more, rfl, hkinds, hbares⟩ := chainDerivation hops hlength hes h₂
  exact ⟨.chain d more, rfl, hjoin d.tree more.tree hd hkinds hbares⟩

end Writes

theorem wordsAll_eq_map (es : List Expr) : wordsAll es = es.map Expr.words := by
  induction es with
  | nil => rfl
  | cons e es ih => rw [wordsAll, ih, List.map_cons]

namespace Expr

def operandWords (e : Expr) : List Word := e.asOperand e.words

structure Written (e : Expr) : Prop where
  expr : Writes .expr e.words e
  atom : e.isAtom = true → Writes .atom e.words e

namespace Written

variable {e : Expr} {pos : Position}

theorem operand (h : e.Written) (s : ExprSymbol) : Writes s e.operandWords e :=
  (h.expr.operand h.atom).of_atom s

theorem of_atom (h : Writes .atom e.words e) : e.Written := ⟨h.expr, fun _ => h⟩

theorem of_phrase {s : ExprSymbol} (h : Writes s e.words e) (hcompound : e.isAtom = false) :
    e.Written :=
  ⟨h.expr, fun hatom => absurd hatom (by rw [hcompound]; decide)⟩

theorem number {value : Number.Numeral} {raw : String} {n : Nat} (hvalue : value = .int n) :
    (Expr.number pos value raw).Written := by
  subst hvalue
  refine of_atom (.word rfl fun t ht => ?_)
  obtain ⟨hkind, htext⟩ := Prod.mk.inj ht
  have hread : Number.Numeral.read t.text = .ok (.int n) := by
    rw [htext]
    exact Number.read_written n
  exact ⟨.number ⟨t, hkind⟩ (.int n) hread, rfl, rfl⟩

theorem string {value : Bytes} : (Expr.string pos value).Written := by
  refine of_atom (.word rfl fun t ht => ?_)
  obtain ⟨hkind, htext⟩ := Prod.mk.inj ht
  refine ⟨.strings ⟨t, hkind⟩ [], rfl, ?_⟩
  change Expr.string default (t.text ++ []) = _
  rw [List.append_nil, htext]
  rfl

theorem name {id : String} (hid : isIdentifier id = true) : (Expr.name pos id).Written := by
  refine of_atom (.word (Word.isPlain_name hid) fun t ht => ?_)
  obtain ⟨hkind, htext⟩ := Prod.mk.inj ht
  refine ⟨.name ⟨t, hkind⟩, rfl, ?_⟩
  change Expr.name default (Parser.text t) = _
  rw [Parser.text, htext, toString_ofString (isAsciiWord_of_isIdentifier hid)]
  rfl

theorem bool {value : Bool} : (Expr.bool pos value).Written := by
  cases value with
  | true => exact of_atom (.word rfl fun t ht => ⟨.true ⟨t, (Prod.mk.inj ht).1⟩, rfl, rfl⟩)
  | false => exact of_atom (.word rfl fun t ht => ⟨.false ⟨t, (Prod.mk.inj ht).1⟩, rfl, rfl⟩)

theorem none : (Expr.none pos).Written :=
  of_atom (.word rfl fun t ht => ⟨.none ⟨t, (Prod.mk.inj ht).1⟩, rfl, rfl⟩)

theorem ellipsis : (Expr.ellipsis pos).Written :=
  of_atom (.word rfl fun t ht => ⟨.ellipsis ⟨t, (Prod.mk.inj ht).1⟩, rfl, rfl⟩)

section Operators

variable {op : Kind} {left right operand : Expr}

theorem pair {l : Level} (hplain : ∀ op ∈ l.operators, (Word.symbol op).isPlain = true)
    (hop : op ∈ l.operators) (hleft : left.Written) (hright : right.Written)
    (hjoin : ∀ first t second, first.bare = left.bare → t.kind = op → second.bare = right.bare →
      (l.join first [(t, second)]).bare = e.bare) :
    Writes (.chain l) (left.operandWords ++ .symbol op :: right.operandWords) e := by
  have hwords : chainWords [op] ([right].map operandWords) = .symbol op :: right.operandWords :=
    congrArg (Word.symbol op :: ·) (List.append_nil _)
  rw [← hwords]
  refine .joined hplain (List.cons_subset.mpr ⟨hop, List.nil_subset _⟩) rfl (hleft.operand _)
    (List.forall_mem_singleton.mpr (hright.operand _)) fun first more hfirst hkinds hbares => ?_
  obtain ⟨x, xs, rfl, hx, hxs⟩ := List.map_eq_cons_iff.mp hkinds
  obtain rfl := List.map_eq_nil_iff.mp hxs
  exact hjoin first x.1 x.2 hfirst hx (List.cons.inj hbares).1

theorem binary (hop : op ∈ .doubleStar :: Level.arithmetic.flatMap Level.operators)
    (hleft : left.Written) (hright : right.Written) : (Expr.binary pos op left right).Written := by
  rcases List.mem_cons.mp hop with rfl | hop
  · have hpower : Writes .power (left.operandWords ++ .symbol .doubleStar :: right.operandWords)
        (.binary pos .doubleStar left right) := by
      have hbase := hleft.operand .postfixes
      have hexponent := hright.operand .unary
      refine ⟨hbase.closed.append (hexponent.closed.cons (by decide)), fun ts hts => ?_⟩
      obtain ⟨ts₁, ts₂, rfl, h₁, h₂⟩ := hts.append
      obtain ⟨t, ts₃, rfl, -, h₃⟩ := h₂.symbol
      obtain ⟨base, rfl, hbase⟩ := hbase.derives ts₁ h₁
      obtain ⟨exponent, rfl, hexponent⟩ := hexponent.derives ts₃ h₃
      refine ⟨.raised base t exponent, rfl, ?_⟩
      simp only [ExprDerivation.tree, Expr.bare, hbase, hexponent, t.property]
    exact of_phrase hpower rfl
  · obtain ⟨l, hl, hop⟩ := List.mem_flatMap.mp hop
    have hplain : ∀ l ∈ Level.arithmetic, ∀ op ∈ l.operators, (Word.symbol op).isPlain = true := by
      decide
    refine of_phrase (pair (hplain l hl) hop hleft hright fun first t second hfirst ht hsecond => ?_)
      rfl
    have hbinary : l.join first [(t, second)] = .binary t.position t.kind first second := by
      simp only [Level.arithmetic, List.mem_cons, List.not_mem_nil, or_false] at hl
      rcases hl with rfl | rfl | rfl | rfl | rfl | rfl <;> rfl
    rw [hbinary]
    simp only [Expr.bare, hfirst, ht, hsecond]

theorem logical (hop : op ∈ [.kwAnd, .kwOr]) (hleft : left.Written) (hright : right.Written) :
    (Expr.logical pos op left right).Written := by
  have hbare (first second : Expr) (t : Token) (hfirst : first.bare = left.bare) (ht : t.kind = op)
      (hsecond : second.bare = right.bare) :
      (Expr.logical t.position t.kind first second).bare = (Expr.logical pos op left right).bare := by
    change Expr.logical default t.kind first.bare second.bare =
      Expr.logical default op left.bare right.bare
    rw [hfirst, ht, hsecond]
  simp only [List.mem_cons, List.not_mem_nil, or_false] at hop
  rcases hop with rfl | rfl
  · exact of_phrase (pair (l := .conjunction) (by decide) (by decide) hleft hright
      fun first t second => hbare first second t) rfl
  · exact of_phrase (pair (l := .disjunction) (by decide) (by decide) hleft hright
      fun first t second => hbare first second t) rfl

theorem unary (hop : op ∈ [.kwNot, .minus, .plus, .tilde]) (h : operand.Written) :
    (Expr.unary pos op operand).Written := by
  rcases List.mem_cons.mp hop with rfl | hop
  · have hnegation : Writes .negation (.symbol .kwNot :: operand.operandWords)
        (.unary pos .kwNot operand) := by
      have hinner := h.operand .negation
      refine ⟨hinner.closed.cons (by decide), fun ts hts => ?_⟩
      obtain ⟨t, ts₁, rfl, -, h₁⟩ := hts.symbol
      obtain ⟨d, rfl, hd⟩ := hinner.derives ts₁ h₁
      refine ⟨.negated t d, rfl, ?_⟩
      simp only [ExprDerivation.tree, Expr.bare, hd, t.property]
    exact of_phrase hnegation rfl
  · have hsigned : Writes .unary (.symbol op :: operand.operandWords) (.unary pos op operand) := by
      have hplain : ∀ op ∈ [Kind.minus, .plus, .tilde], (Word.symbol op).isPlain = true := by decide
      have hinner := h.operand .unary
      refine ⟨hinner.closed.cons (hplain op hop), fun ts hts => ?_⟩
      obtain ⟨t, ts₁, rfl, -, h₁⟩ := hts.symbol
      obtain ⟨d, rfl, hd⟩ := hinner.derives ts₁ h₁
      refine ⟨.signed ⟨t.val, t.property.symm ▸ hop⟩ d, rfl, ?_⟩
      simp only [ExprDerivation.tree, Expr.bare, hd, t.property]
    exact of_phrase hsigned rfl

end Operators

theorem compare {ops : List Kind} {operands : List Expr} (hne : ops ≠ [])
    (hops : ops ⊆ Level.comparison.operators) (hlength : operands.length = ops.length + 1)
    (h : ∀ e ∈ operands, e.Written) : (Expr.compare pos ops operands).Written := by
  cases operands with
  | nil => cases hlength
  | cons first rest =>
    obtain ⟨hfirst, hrest⟩ := List.forall_mem_cons.mp h
    have hchain : Writes (.chain .comparison)
        (first.operandWords ++ chainWords ops (rest.map operandWords))
        (.compare pos ops (first :: rest)) := by
      refine .joined (by decide) hops (Nat.succ.inj hlength).symm (hfirst.operand _)
        (fun e he => (hrest e he).operand _) fun x more hx hkinds hbares => ?_
      have hmore : more ≠ [] := by
        rintro rfl
        exact hne hkinds.symm
      simp only [Level.join, List.isEmpty_iff, if_neg hmore, Expr.bare, bareAll, bareAll_eq_map,
        hx, hkinds, List.map_map]
      exact congrArg (fun es => Expr.compare default ops (first.bare :: es)) hbares
    have hwords : (Expr.compare pos ops (first :: rest)).words =
        first.operandWords ++ chainWords ops (rest.map operandWords) := by
      have hzip : List.zipWith asOperand rest (wordsAll rest) = rest.map operandWords := by
        rw [wordsAll_eq_map, List.zipWith_map_right, List.zipWith_self]
        rfl
      rw [Expr.words, wordsAll, List.zipWith_cons_cons, hzip]
      rfl
    exact of_phrase (hwords ▸ hchain) rfl

theorem items {es : List Expr} (h : ∀ e ∈ es, e.Written) :
    Closed (commaWords (wordsAll es)) ∧ ∀ ts, Spells ts (commaWords (wordsAll es)) →
      ∃ d : ItemsDerivation, d.tokens = ts ∧ bareAll d.tree = bareAll es := by
  rw [wordsAll_eq_map]
  constructor
  · refine .commaWords fun ws hws => ?_
    obtain ⟨e, he, rfl⟩ := List.mem_map.mp hws
    exact (h e he).expr.closed
  · intro ts hts
    obtain ⟨d, hd, htree⟩ := Spells.commaList (fun e he => (h e he).expr.derives) hts
    refine ⟨.ofList d, ?_, ?_⟩
    · rw [ItemsDerivation.tokens_eq, ItemsDerivation.toList_ofList, hd]
    · rw [ItemsDerivation.tree_eq, ItemsDerivation.toList_ofList, bareAll_eq_map, bareAll_eq_map,
        CommaList.map_tree, htree]

theorem call {callee : Expr} {args : List Expr} (hcallee : callee.Written)
    (hargs : ∀ e ∈ args, e.Written) : (Expr.call pos callee args).Written := by
  have hfirst := hcallee.operand .atom
  obtain ⟨hclosed, hitems⟩ := items hargs
  have hphrase : Writes .postfixes (callee.operandWords ++ Word.symbol .leftParen ::
      (commaWords (wordsAll args) ++ [Word.symbol .rightParen])) (.call pos callee args) := by
    refine ⟨hfirst.closed.append hclosed.paren, fun ts hts => ?_⟩
    obtain ⟨ts₁, ts₂, rfl, h₁, h₂⟩ := hts.append
    obtain ⟨left, ts₃, rfl, -, h₃⟩ := h₂.symbol
    obtain ⟨ts₄, ts₅, rfl, h₄, h₅⟩ := h₃.append
    obtain ⟨right, ts₆, rfl, -, h₆⟩ := h₅.symbol
    obtain rfl := h₆.nil
    obtain ⟨d, rfl, hd⟩ := hfirst.derives ts₁ h₁
    obtain ⟨items, rfl, htree⟩ := hitems ts₄ h₄
    refine ⟨.trailed d (.call left items right .stop), rfl, ?_⟩
    exact congrArg₂ (Expr.call default) hd htree
  exact of_phrase hphrase rfl

theorem member {value : Expr} {field : String} (hvalue : value.Written)
    (hfield : isIdentifier field = true) : (Expr.member pos value field).Written := by
  have hfirst := hvalue.operand .atom
  have hphrase : Writes .postfixes (value.operandWords ++ [Word.symbol .dot, .name field])
      (.member pos value field) := by
    refine ⟨hfirst.closed.append (.cons (by decide) (.single (Word.isPlain_name hfield))),
      fun ts hts => ?_⟩
    obtain ⟨ts₁, ts₂, rfl, h₁, h₂⟩ := hts.append
    obtain ⟨dot, ts₃, rfl, -, h₃⟩ := h₂.symbol
    obtain ⟨t, ts₄, rfl, ht, h₄⟩ := h₃.name hfield
    obtain rfl := h₄.nil
    obtain ⟨d, rfl, hd⟩ := hfirst.derives ts₁ h₁
    refine ⟨.trailed d (.member dot t .stop), rfl, ?_⟩
    exact congrArg₂ (Expr.member default) hd ht
  exact of_phrase hphrase rfl

theorem list {elements : List Expr} (h : ∀ e ∈ elements, e.Written) :
    (Expr.list pos elements).Written := by
  obtain ⟨hclosed, hitems⟩ := items h
  have hphrase : Writes .atom (.symbol .leftBracket ::
      (commaWords (wordsAll elements) ++ [Word.symbol .rightBracket])) (.list pos elements) := by
    refine ⟨hclosed.bracket, fun ts hts => ?_⟩
    obtain ⟨left, ts₁, rfl, -, h₁⟩ := hts.symbol
    obtain ⟨ts₂, ts₃, rfl, h₂, h₃⟩ := h₁.append
    obtain ⟨right, ts₄, rfl, -, h₄⟩ := h₃.symbol
    obtain rfl := h₄.nil
    obtain ⟨items, rfl, htree⟩ := hitems ts₂ h₂
    refine ⟨.list left items right, rfl, ?_⟩
    exact congrArg (Expr.list default) htree
  exact of_phrase hphrase rfl

theorem lambda {params : List String} {body : Expr}
    (hparams : ∀ id ∈ params, isIdentifier id = true)
    (hbody : body.Written) : (Expr.lambda pos params body).Written := by
  have hphrase : Writes .expr (.symbol .kwLambda :: (commaWords (params.map fun id => [.name id]) ++
      .symbol .colon :: body.words)) (.lambda pos params body) := by
    have hclosed : Closed (commaWords (params.map fun id => [Word.name id])) := by
      refine .commaWords fun ws hws => ?_
      obtain ⟨id, hid, rfl⟩ := List.mem_map.mp hws
      exact .single (Word.isPlain_name (hparams id hid))
    refine ⟨(hclosed.append (hbody.expr.closed.cons (by decide))).cons (by decide), fun ts hts => ?_⟩
    obtain ⟨t, ts₁, rfl, -, h₁⟩ := hts.symbol
    obtain ⟨ts₂, ts₃, rfl, h₂, h₃⟩ := h₁.append
    obtain ⟨colon, ts₄, rfl, -, h₄⟩ := h₃.symbol
    obtain ⟨names, rfl, hnames⟩ : ∃ d : CommaList (Of .identifier),
        d.tokens (fun t => [t.val]) = ts₂ ∧ d.tree (Parser.text ·.val) = params.map id :=
      Spells.commaList (fun id hid ts hts => Spells.nameAlone (hparams id hid) hts) h₂
    obtain ⟨d, rfl, hd⟩ := hbody.expr.derives ts₄ h₄
    refine ⟨.lambda t names colon d, rfl, ?_⟩
    simp only [ExprDerivation.tree, Expr.bare, hd, hnames, List.map_id]
  exact of_phrase hphrase rfl

end Written

mutual

theorem written_of_regular (e : Expr) (h : e.Regular) : e.Written := by
  cases e with
  | number pos value raw =>
    obtain ⟨n, hn⟩ := h
    exact .number hn
  | string pos value => exact .string
  | name pos id => exact .name h
  | bool pos value => exact .bool
  | none pos => exact .none
  | ellipsis pos => exact .ellipsis
  | binary pos op left right =>
    exact .binary h.1 (written_of_regular left h.2.1) (written_of_regular right h.2.2)
  | unary pos op operand => exact .unary h.1 (written_of_regular operand h.2)
  | logical pos op left right =>
    exact .logical h.1 (written_of_regular left h.2.1) (written_of_regular right h.2.2)
  | compare pos ops operands =>
    exact .compare h.1 h.2.1 h.2.2.1 (written_of_regularAll operands h.2.2.2)
  | call pos callee args =>
    exact .call (written_of_regular callee h.1) (written_of_regularAll args h.2)
  | member pos value field => exact .member (written_of_regular value h.1) h.2
  | list pos elements => exact .list (written_of_regularAll elements h)
  | lambda pos params body => exact .lambda h.1 (written_of_regular body h.2)

theorem written_of_regularAll (es : List Expr) (h : RegularAll es) : ∀ e ∈ es, e.Written := by
  cases es with
  | nil => exact List.forall_mem_nil _
  | cons e es =>
    exact List.forall_mem_cons.mpr ⟨written_of_regular e h.1, written_of_regularAll es h.2⟩

end

end Expr

end BoardPython
