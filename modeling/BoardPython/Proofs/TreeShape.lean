import BoardPython.Proofs.LayoutTokens
import BoardPython.Proofs.SourceWriter

/-! The shape of parsed trees. Blocks have statements, comparisons have an operator and one operand
more than operators, each operator is one of its level, names are names of the language, integers
are natural, and every node stands where a token of the text does. All of it comes from the tokens by
derivation, but that no block is empty, which is a law of layout. -/
namespace BoardPython

open Token (Kind Of OneOf)

/-- An annotation names a type, or it is `None`. -/
def IsHint (hint : String) : Prop := IsName hint ∨ hint = Kind.kwNone.name

section Shaped

variable (P : Position → Prop)

inductive Expr.Shaped : Expr → Prop
  | number {pos : Position} {value : Number.Numeral} {raw : String} (hpos : P pos)
      (hvalue : ∀ n, value = .int n → 0 ≤ n) : Shaped (.number pos value raw)
  | string {pos : Position} {value : Bytes} (hpos : P pos) : Shaped (.string pos value)
  | name {pos : Position} {id : String} (hpos : P pos) (hid : IsName id) : Shaped (.name pos id)
  | bool {pos : Position} {value : Bool} (hpos : P pos) : Shaped (.bool pos value)
  | none {pos : Position} (hpos : P pos) : Shaped (.none pos)
  | ellipsis {pos : Position} (hpos : P pos) : Shaped (.ellipsis pos)
  | binary {pos : Position} {op : Kind} {left right : Expr} (hpos : P pos)
      (hop : op ∈ .doubleStar :: Level.arithmetic.flatMap Level.operators)
      (hleft : Shaped left) (hright : Shaped right) : Shaped (.binary pos op left right)
  | unary {pos : Position} {op : Kind} {operand : Expr} (hpos : P pos)
      (hop : op ∈ [.kwNot, .minus, .plus, .tilde]) (hoperand : Shaped operand) :
      Shaped (.unary pos op operand)
  | logical {pos : Position} {op : Kind} {left right : Expr} (hpos : P pos)
      (hop : op ∈ [.kwAnd, .kwOr]) (hleft : Shaped left) (hright : Shaped right) :
      Shaped (.logical pos op left right)
  | compare {pos : Position} {ops : List Kind} {operands : List Expr} (hpos : P pos)
      (hne : ops ≠ []) (hops : ops ⊆ Level.comparison.operators)
      (hlength : operands.length = ops.length + 1) (hoperands : ∀ e ∈ operands, Shaped e) :
      Shaped (.compare pos ops operands)
  | call {pos : Position} {callee : Expr} {args : List Expr} (hpos : P pos)
      (hcallee : Shaped callee) (hargs : ∀ e ∈ args, Shaped e) : Shaped (.call pos callee args)
  | member {pos : Position} {value : Expr} {field : String} (hpos : P pos) (hvalue : Shaped value)
      (hfield : IsName field) : Shaped (.member pos value field)
  | list {pos : Position} {elements : List Expr} (hpos : P pos)
      (helements : ∀ e ∈ elements, Shaped e) : Shaped (.list pos elements)
  | lambda {pos : Position} {params : List String} {body : Expr} (hpos : P pos)
      (hparams : ∀ id ∈ params, IsName id) (hbody : Shaped body) :
      Shaped (.lambda pos params body)

structure Param.Shaped (p : Param) : Prop where
  position : P p.pos
  name : IsName p.name
  hint : ∀ type ∈ p.hint, IsHint type

inductive Stmt.Shaped : Stmt → Prop
  | define {pos : Position} {name : String} {params : List Param} {returns : Option String}
      {body : List Stmt} (hpos : P pos) (hname : IsName name)
      (hparams : ∀ p ∈ params, p.Shaped P) (hreturns : ∀ type ∈ returns, IsHint type)
      (hne : body ≠ []) (hbody : ∀ st ∈ body, Shaped st) :
      Shaped (.define pos name params returns body)
  | assign {pos : Position} {name : String} {hint : Option String} {value : Expr} (hpos : P pos)
      (hname : IsName name) (hhint : ∀ type ∈ hint, IsHint type) (hvalue : value.Shaped P) :
      Shaped (.assign pos name hint value)
  | augment {pos : Position} {name : String} {op : Kind} {value : Expr} (hpos : P pos)
      (hname : IsName name) (hop : op ∈ augmentations.map (·.2)) (hvalue : value.Shaped P) :
      Shaped (.augment pos name op value)
  | ret {pos : Position} {value : Option Expr} (hpos : P pos)
      (hvalue : ∀ e ∈ value, e.Shaped P) : Shaped (.ret pos value)
  | branch {pos : Position} {cond : Expr} {body orElse : List Stmt} (hpos : P pos)
      (hcond : cond.Shaped P) (hne : body ≠ []) (hbody : ∀ st ∈ body, Shaped st)
      (horElse : ∀ st ∈ orElse, Shaped st) : Shaped (.branch pos cond body orElse)
  | loop {pos : Position} {cond : Expr} {body : List Stmt} (hpos : P pos)
      (hcond : cond.Shaped P) (hne : body ≠ []) (hbody : ∀ st ∈ body, Shaped st) :
      Shaped (.loop pos cond body)
  | evaluate {pos : Position} {value : Expr} (hpos : P pos) (hvalue : value.Shaped P) :
      Shaped (.evaluate pos value)
  | pass {pos : Position} (hpos : P pos) : Shaped (.pass pos)
  | globals {pos : Position} {names : List String} (hpos : P pos)
      (hnames : ∀ id ∈ names, IsName id) : Shaped (.globals pos names)

end Shaped

section Derived

variable {P : Position → Prop} {ts x y : List Token} {t : Token}

theorem Expr.Shaped.position {e : Expr} (h : e.Shaped P) : P e.position := by
  cases h <;> assumption

structure Tidy (P : Position → Prop) (ts : List Token) : Prop where
  legible : ∀ t ∈ ts, Lexer.Legible t.content
  positions : ∀ t ∈ ts, t.kind ∈ Kind.written → P t.position
  blocks : ¬[Kind.indent, .dedent] <:+: ts.map (·.kind)

theorem Tidy.piece (h : Tidy P ts) (hx : x <:+: ts) : Tidy P x :=
  ⟨fun t ht => h.legible t (hx.subset ht), fun t ht => h.positions t (hx.subset ht),
    fun hpair => h.blocks (hpair.trans (hx.map _))⟩

theorem Tidy.left (h : Tidy P (x ++ y)) : Tidy P x := h.piece (List.prefix_append x y).isInfix

theorem Tidy.right (h : Tidy P (x ++ y)) : Tidy P y := h.piece (List.suffix_append x y).isInfix

theorem Tidy.tail (h : Tidy P (t :: ts)) : Tidy P ts := h.piece (List.suffix_cons t ts).isInfix

theorem Tidy.head {k : Kind} {t : Of k} (h : Tidy P (t.val :: ts)) (hk : k ∈ Kind.written) :
    P t.val.position :=
  h.positions t.val List.mem_cons_self (t.property.symm ▸ hk)

theorem Tidy.head_of_mem {ks : List Kind} {t : OneOf ks} (h : Tidy P (t.val :: ts))
    (hks : ks ⊆ Kind.written) : P t.val.position :=
  h.positions t.val List.mem_cons_self (hks t.property)

theorem Tidy.isName {name : Of .identifier} (h : Tidy P (name.val :: ts)) :
    IsName (Parser.text name.val) :=
  (h.legible _ List.mem_cons_self).name name.property

theorem Tidy.isHint {mark : Kind} {hint : HintDerivation mark} (h : Tidy P hint.tokens) :
    ∀ type ∈ hint.tree, IsHint type := by
  rcases hint with _ | ⟨m, type⟩
  · exact fun _ hnone => by cases hnone
  rintro _ ⟨⟩
  have htype := h.legible type.val (by simp [HintDerivation.tokens])
  rcases List.mem_pair.mp type.property with hk | hk
  · exact .inl (htype.name hk)
  · exact .inr (htype.none hk)

theorem Tidy.commaList {α β : Type} {f : α → List Token} {g : α → β} {Q : β → Prop}
    (hitem : ∀ a, Tidy P (f a) → Q (g a)) {d : CommaList α} (h : Tidy P (d.tokens f)) :
    ∀ b ∈ d.tree g, Q b := by
  induction d with
  | nil => exact List.forall_mem_nil _
  | last a => exact List.forall_mem_singleton.mpr (hitem a h)
  | cons a comma d ih => exact List.forall_mem_cons.mpr ⟨hitem a h.left, ih h.right.tail⟩

theorem Tidy.start {s : ExprSymbol} {d : ExprDerivation s} (h : Tidy P d.tokens) : P d.start := by
  have hopeners : ∀ k ∈ ExprSymbol.expr.openers, k ∈ Kind.written := by decide
  have hsymbol : s.openers ⊆ ExprSymbol.expr.openers := by
    cases s with
    | chain l => cases l <;> decide
    | _ => decide
  obtain ⟨t, tail, ht, hk⟩ := d.starts
  rw [d.start_eq ((List.append_nil _).trans ht)]
  exact h.positions t (ht ▸ List.mem_cons_self) (hopeners _ (hsymbol hk))

theorem Level.shaped_join {l : Level} {first : Expr} {more : List (Token × Expr)}
    (hfirst : first.Shaped P)
    (hmore : ∀ x ∈ more, x.1.kind ∈ l.operators ∧ P x.1.position ∧ x.2.Shaped P) :
    (l.join first more).Shaped P := by
  have hfold {node : Token × Expr → Expr → Expr}
      (hnode : ∀ x ∈ more, ∀ left, left.Shaped P → (node x left).Shaped P) :
      (more.foldl (fun left x => node x left) first).Shaped P :=
    List.foldlRecOn more _ hfirst fun left hleft x hx => hnode x hx left hleft
  have hlogical (hl : l.operators ⊆ [.kwAnd, .kwOr]) :
      (more.foldl (fun left x => .logical x.1.position x.1.kind left x.2) first).Shaped P :=
    hfold fun x hx left hleft =>
      .logical (hmore x hx).2.1 (hl (hmore x hx).1) hleft (hmore x hx).2.2
  have hbinary (hl : l ∈ arithmetic) :
      (more.foldl (fun left x => .binary x.1.position x.1.kind left x.2) first).Shaped P := by
    refine hfold fun x hx left hleft => .binary (hmore x hx).2.1 ?_ hleft (hmore x hx).2.2
    exact List.mem_cons_of_mem _ (List.mem_flatMap_of_mem hl (hmore x hx).1)
  cases l with
  | disjunction => exact hlogical (by decide)
  | conjunction => exact hlogical (by decide)
  | comparison =>
    rw [join]
    split
    · exact hfirst
    · rename_i hne
      refine .compare hfirst.position ?_ ?_ (by simp) ?_
      · simpa using hne
      · intro op hop
        obtain ⟨x, hx, rfl⟩ := List.mem_map.mp hop
        exact (hmore x hx).1
      · refine List.forall_mem_cons.mpr ⟨hfirst, fun e he => ?_⟩
        obtain ⟨x, hx, rfl⟩ := List.mem_map.mp he
        exact (hmore x hx).2.2
  | pipe | caret | ampersand | shift | sum | product => exact hbinary (by decide)

theorem Level.operators_subset (l : Level) : l.operators ⊆ Kind.written := by
  cases l <;> decide

mutual

theorem ExprDerivation.shaped {s : ExprSymbol} (d : ExprDerivation s) (h : Tidy P d.tokens) :
    d.tree.Shaped P := by
  cases d with
  | lambda t params colon body =>
    exact .lambda (h.head (by decide)) (h.tail.left.commaList fun name => Tidy.isName)
      (body.shaped h.tail.right.tail)
  | disjunction d | comparison d | power d | postfixes d => exact d.shaped h
  | chain first more => exact Level.shaped_join (first.shaped h.left) (more.shaped h.right)
  | negated t d =>
    refine .unary (h.head (by decide)) ?_ (d.shaped h.tail)
    rw [t.property]
    decide
  | signed t d =>
    exact .unary (h.head_of_mem (by decide)) (List.mem_cons_of_mem _ t.property) (d.shaped h.tail)
  | raised base t exponent =>
    refine .binary (h.right.head (by decide)) ?_ (base.shaped h.left) (exponent.shaped h.right.tail)
    rw [t.property]
    exact List.mem_cons_self
  | trailed first more => exact more.shaped h.right _ (first.shaped h.left)
  | number t value hread =>
    refine .number (h.head (by decide)) ?_
    rintro n rfl
    exact (h.legible _ List.mem_cons_self).number t.property n hread
  | strings first more => exact .string (h.head (by decide))
  | true t | false t => exact .bool (h.head (by decide))
  | none t => exact .none (h.head (by decide))
  | ellipsis t => exact .ellipsis (h.head (by decide))
  | name t => exact .name (h.head (by decide)) h.isName
  | paren left d right => exact d.shaped h.tail.left
  | list left elements right => exact .list (h.head (by decide)) (elements.shaped h.tail.left)

theorem ChainDerivation.shaped {l : Level} (d : ChainDerivation l) (h : Tidy P d.tokens) :
    ∀ x ∈ d.tree, x.1.kind ∈ l.operators ∧ P x.1.position ∧ x.2.Shaped P := by
  revert h
  exact d.casesOn (fun _ => List.forall_mem_nil _) fun op operand more h =>
    List.forall_mem_cons.mpr ⟨⟨op.property, h.head_of_mem (Level.operators_subset _),
      operand.shaped h.tail.left⟩, more.shaped h.tail.right⟩

theorem TrailDerivation.shaped (d : TrailDerivation) (h : Tidy P d.tokens) (e : Expr)
    (he : e.Shaped P) : (d.tree e).Shaped P := by
  cases d with
  | stop => exact he
  | call left args right more =>
    exact more.shaped h.tail.right.tail _ (.call he.position he (args.shaped h.tail.left))
  | member dot field more =>
    exact more.shaped h.tail.tail _ (.member (h.head (by decide)) he h.tail.isName)

theorem ItemsDerivation.shaped (d : ItemsDerivation) (h : Tidy P d.tokens) :
    ∀ e ∈ d.tree, e.Shaped P := by
  cases d with
  | nil => exact List.forall_mem_nil _
  | last item => exact List.forall_mem_singleton.mpr (item.shaped h)
  | cons item comma rest =>
    exact List.forall_mem_cons.mpr ⟨item.shaped h.left, rest.shaped h.right.tail⟩

end

theorem SimpleDerivation.shaped (d : SimpleDerivation) (h : Tidy P d.tokens) :
    d.tree.Shaped P := by
  cases d with
  | pass t => exact .pass (h.head (by decide))
  | ret t value =>
    refine .ret (h.head (by decide)) ?_
    cases value with
    | none => exact fun _ hnone => by cases hnone
    | some value =>
      rintro _ ⟨⟩
      exact value.shaped h.tail
  | globals t first more =>
    refine .globals (h.head (by decide)) (List.forall_mem_cons.mpr ⟨h.tail.isName, ?_⟩)
    intro id hid
    obtain ⟨x, hx, rfl⟩ := List.mem_map.mp hid
    have hmem : x.2.val ∈ more.flatMap fun x => [x.1.val, x.2.val] :=
      List.mem_flatMap.mpr ⟨x, hx, by simp⟩
    exact (h.tail.tail.legible _ hmem).name x.2.property
  | assign t hint sign value =>
    exact .assign (h.head (by decide)) h.isName h.tail.left.isHint (value.shaped h.tail.right.tail)
  | augment t sign op hop value =>
    exact .augment (h.head (by decide)) h.isName (List.mem_map_of_mem hop)
      (value.shaped h.tail.tail)
  | evaluate value => exact .evaluate h.start (value.shaped h)

theorem ParamDerivation.shaped (d : ParamDerivation) (h : Tidy P d.tokens) : d.tree.Shaped P :=
  ⟨h.head (by decide), h.isName, h.tail.isHint⟩

mutual

theorem StmtDerivation.shaped (d : StmtDerivation) (h : Tidy P d.tokens) : d.tree.Shaped P := by
  cases d with
  | define t name left params right returns body =>
    have hparams := h.tail.tail.tail
    obtain ⟨hne, hbody⟩ := body.shaped hparams.right.tail.right
    exact .define (h.head (by decide)) h.tail.isName
      (hparams.left.commaList ParamDerivation.shaped) hparams.right.tail.left.isHint hne hbody
  | branch d => exact d.shaped (by decide) h
  | loop t cond body =>
    obtain ⟨hne, hbody⟩ := body.shaped h.tail.right
    exact .loop (h.head (by decide)) (cond.shaped h.tail.left) hne hbody
  | simple d newline => exact d.shaped h.left

theorem ConditionalDerivation.shaped {k : Kind} (d : ConditionalDerivation k)
    (hk : k ∈ Kind.written) (h : Tidy P d.tokens) : d.tree.Shaped P := by
  revert hk h
  refine d.casesOn fun t cond body orElse hk h => ?_
  obtain ⟨hne, hbody⟩ := body.shaped h.tail.right.left
  exact .branch (h.head hk) (cond.shaped h.tail.left) hne hbody (orElse.shaped h.tail.right.right)

theorem ElseDerivation.shaped (d : ElseDerivation) (h : Tidy P d.tokens) :
    ∀ st ∈ d.tree, st.Shaped P := by
  cases d with
  | none => exact List.forall_mem_nil _
  | elif d => exact List.forall_mem_singleton.mpr (d.shaped (by decide) h)
  | block t body => exact (body.shaped h.tail).2

theorem BlockDerivation.shaped (d : BlockDerivation) (h : Tidy P d.tokens) :
    d.tree ≠ [] ∧ ∀ st ∈ d.tree, st.Shaped P := by
  cases d with
  | line colon d newline =>
    exact ⟨List.cons_ne_nil _ _, List.forall_mem_singleton.mpr (d.shaped h.tail.left)⟩
  | suite colon newline indent body dedent =>
    refine ⟨fun hempty => h.blocks ?_, body.shaped h.tail.tail.tail.left⟩
    cases body with
    | nil =>
      refine ⟨[.colon, .newline], [], ?_⟩
      simp [BlockDerivation.tokens, StmtsDerivation.tokens, colon.property, newline.property, indent.property,
        dedent.property]
    | cons d rest => cases hempty

theorem StmtsDerivation.shaped (d : StmtsDerivation) (h : Tidy P d.tokens) :
    ∀ st ∈ d.tree, st.Shaped P := by
  cases d with
  | nil => exact List.forall_mem_nil _
  | cons d rest => exact List.forall_mem_cons.mpr ⟨d.shaped h.left, rest.shaped h.right⟩

end

end Derived

/-- A number, string, name, keyword or operator of the text stands at the position. -/
def HasTokenAt (source : Bytes) (p : Position) : Prop :=
  ∃ ts, tokenize source = .ok ts ∧ ∃ t ∈ ts, t.kind ∈ Kind.written ∧ t.position = p

theorem tidy_of_tokenize {source : Bytes} {ts : List Token} (h : tokenize source = .ok ts) :
    Tidy (HasTokenAt source) ts where
  legible := legible_of_tokenize h
  positions t ht hk := ⟨ts, h, t, ht, hk, rfl⟩
  blocks := (Lexer.wellBracketed_run h).indent_dedent

theorem shaped_parseSource (source : Bytes) :
    ∀ st ∈ (parseSource source).stmts, st.Shaped (HasTokenAt source) := by
  unfold parseSource
  cases h : tokenize source with
  | error e => exact List.forall_mem_nil _
  | ok ts =>
    obtain ⟨d, htokens, htree, -⟩ := Parser.exists_of_run ts
    change ∀ st ∈ (Parser.run ts).stmts, _
    rw [htree]
    exact d.shaped ((tidy_of_tokenize h).piece htokens.isInfix)

namespace Parser

structure Words (st : Stmt) : Prop where
  assigned : ∀ name ∈ st.assigned, IsWord name
  defined : ∀ name ∈ st.defined?, IsWord name

theorem words_all {body : List Stmt} (h : ∀ st ∈ body, Words st) :
    ∀ name ∈ assignedAll body, IsWord name := by
  induction body with
  | nil => exact List.forall_mem_nil _
  | cons st body ih =>
    obtain ⟨hst, hbody⟩ := List.forall_mem_cons.mp h
    exact List.forall_mem_append.mpr ⟨hst.assigned, ih hbody⟩

theorem words_of_shaped {P : Position → Prop} {st : Stmt} (h : st.Shaped P) : Words st := by
  have hnone : ∀ name ∈ (none : Option String), IsWord name := fun _ hname => by cases hname
  induction h with
  | define hpos hname hparams hreturns hne hbody ih =>
    refine ⟨words_all ih, fun name hdefined => ?_⟩
    obtain rfl := Option.some.inj hdefined
    exact hname.word
  | assign hpos hname => exact ⟨List.forall_mem_singleton.mpr hname.word, hnone⟩
  | branch hpos hcond hne hbody horElse ih ih' =>
    exact ⟨List.forall_mem_append.mpr ⟨words_all ih, words_all ih'⟩, hnone⟩
  | loop hpos hcond hne hbody ih => exact ⟨words_all ih, hnone⟩
  | _ => exact ⟨List.forall_mem_nil _, hnone⟩

end Parser

theorem words_parseSource (source : Bytes) :
    ∀ st ∈ (parseSource source).stmts, Parser.Words st :=
  fun st hst => Parser.words_of_shaped (shaped_parseSource source st hst)

end BoardPython
