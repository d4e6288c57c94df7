import Mathlib
import BoardPython.Parser.Stmt

/-! The grammar of the language. A derivation says by which rules a list of tokens is a phrase of the
language; `tokens` are the tokens it derives and `tree` is the syntax tree they stand for. Nothing
here mentions the parser. -/
namespace BoardPython

open Token (Kind)

namespace Token

abbrev Of (k : Kind) := {t : Token // t.kind = k}

abbrev OneOf (ks : List Kind) := {t : Token // t.kind ∈ ks}

end Token

open Token (Of OneOf)

def Starts (P : Kind → Prop) (ts : List Token) : Prop := ∃ t tail, ts = t :: tail ∧ P t.kind

section Starts

variable {P Q : Kind → Prop} {ts : List Token}

theorem Starts.mono (h : Starts P ts) (hPQ : ∀ k, P k → Q k) : Starts Q ts := by
  obtain ⟨t, tail, rfl, ht⟩ := h
  exact ⟨t, tail, rfl, hPQ _ ht⟩

theorem Starts.append (h : Starts P ts) (more : List Token) : Starts P (ts ++ more) := by
  obtain ⟨t, tail, rfl, ht⟩ := h
  exact ⟨t, tail ++ more, rfl, ht⟩

theorem starts_of {k : Kind} (t : Of k) (tail : List Token) (h : P k) :
    Starts P (t.val :: tail) :=
  ⟨t.val, tail, rfl, t.property.symm ▸ h⟩

end Starts

def EndFree (ts : List Token) : Prop := ∀ t ∈ ts, t.kind ≠ .eof

/-- The levels of operators that stand between two operands, from the loosest to the tightest. -/
inductive Level where
  | disjunction | conjunction | comparison | pipe | caret | ampersand | shift | sum | product
  deriving DecidableEq, Repr

inductive ExprSymbol where
  | expr
  /-- Operands joined by operators of one level. -/
  | chain (l : Level)
  | negation
  | unary
  | power
  /-- An atom with calls and attributes after it. -/
  | postfixes
  | atom
  deriving DecidableEq, Repr

namespace Level

def operators : Level → List Kind
  | disjunction => [.kwOr]
  | conjunction => [.kwAnd]
  | comparison => [.less, .greater, .lessEqual, .greaterEqual, .equal, .notEqual]
  | pipe => [.pipe]
  | caret => [.caret]
  | ampersand => [.ampersand]
  | shift => [.shiftLeft, .shiftRight]
  | sum => [.plus, .minus]
  | product => [.star, .slash, .doubleSlash, .percent]

/-- What the operators of a level stand between: the next tighter level. -/
def operand : Level → ExprSymbol
  | disjunction => .chain conjunction
  | conjunction => .negation
  | comparison => .chain pipe
  | pipe => .chain caret
  | caret => .chain ampersand
  | ampersand => .chain shift
  | shift => .chain sum
  | sum => .chain product
  | product => .unary

/-- The tree of an operand and the operators and operands after it. All levels associate to the left
but the comparisons, which make one node. -/
def join (first : Expr) (more : List (Token × Expr)) : Level → Expr
  | disjunction | conjunction =>
    more.foldl (fun left x => .logical x.1.position x.1.kind left x.2) first
  | comparison =>
    if more.isEmpty then first
    else .compare first.position (more.map (·.1.kind)) (first :: more.map (·.2))
  | pipe | caret | ampersand | shift | sum | product =>
    more.foldl (fun left x => .binary x.1.position x.1.kind left x.2) first

end Level

/-- Items with commas between them; a comma may also follow the last one. -/
inductive CommaList (α : Type) where
  | nil
  | last (item : α)
  | cons (item : α) (comma : Of .comma) (rest : CommaList α)

namespace CommaList

variable {α β : Type}

def tokens (f : α → List Token) : CommaList α → List Token
  | nil => []
  | last item => f item
  | cons item comma rest => f item ++ comma.val :: rest.tokens f

def tree (f : α → β) : CommaList α → List β
  | nil => []
  | last item => [f item]
  | cons item _ rest => f item :: rest.tree f

end CommaList

mutual

inductive ExprDerivation : ExprSymbol → Type where
  | lambda (t : Of .kwLambda) (params : CommaList (Of .identifier)) (colon : Of .colon)
      (body : ExprDerivation .expr) : ExprDerivation .expr
  | disjunction (d : ExprDerivation (.chain .disjunction)) : ExprDerivation .expr
  | chain {l : Level} (first : ExprDerivation l.operand) (more : ChainDerivation l) :
      ExprDerivation (.chain l)
  | negated (t : Of .kwNot) (d : ExprDerivation .negation) : ExprDerivation .negation
  | comparison (d : ExprDerivation (.chain .comparison)) : ExprDerivation .negation
  | signed (t : OneOf [.minus, .plus, .tilde]) (d : ExprDerivation .unary) : ExprDerivation .unary
  | power (d : ExprDerivation .power) : ExprDerivation .unary
  | raised (base : ExprDerivation .postfixes) (t : Of .doubleStar)
      (exponent : ExprDerivation .unary) : ExprDerivation .power
  | postfixes (d : ExprDerivation .postfixes) : ExprDerivation .power
  | trailed (first : ExprDerivation .atom) (more : TrailDerivation) : ExprDerivation .postfixes
  /-- The text of a number token must be that of a number. -/
  | number (t : Of .number) (value : Number.Numeral)
      (h : Number.Numeral.read t.val.text = .ok value) : ExprDerivation .atom
  | strings (first : Of .string) (more : List (Of .string)) : ExprDerivation .atom
  | true (t : Of .kwTrue) : ExprDerivation .atom
  | false (t : Of .kwFalse) : ExprDerivation .atom
  | none (t : Of .kwNone) : ExprDerivation .atom
  | ellipsis (t : Of .ellipsis) : ExprDerivation .atom
  | name (t : Of .identifier) : ExprDerivation .atom
  | paren (left : Of .leftParen) (d : ExprDerivation .expr) (right : Of .rightParen) :
      ExprDerivation .atom
  | list (left : Of .leftBracket) (elements : ItemsDerivation) (right : Of .rightBracket) :
      ExprDerivation .atom

inductive ChainDerivation : Level → Type where
  | stop {l : Level} : ChainDerivation l
  | again {l : Level} (op : OneOf l.operators) (operand : ExprDerivation l.operand)
      (more : ChainDerivation l) : ChainDerivation l

inductive TrailDerivation : Type where
  | stop
  | call (left : Of .leftParen) (args : ItemsDerivation) (right : Of .rightParen)
      (more : TrailDerivation)
  | member (dot : Of .dot) (field : Of .identifier) (more : TrailDerivation)

inductive ItemsDerivation : Type where
  | nil
  | last (item : ExprDerivation .expr)
  | cons (item : ExprDerivation .expr) (comma : Of .comma) (rest : ItemsDerivation)

end

mutual

def ExprDerivation.tokens {s : ExprSymbol} : ExprDerivation s → List Token
  | .lambda t params colon body =>
    t.val :: (params.tokens (fun name => [name.val]) ++ colon.val :: body.tokens)
  | .disjunction d | .comparison d | .power d | .postfixes d => d.tokens
  | .chain first more => first.tokens ++ more.tokens
  | .negated t d => t.val :: d.tokens
  | .signed t d => t.val :: d.tokens
  | .raised base t exponent => base.tokens ++ t.val :: exponent.tokens
  | .trailed first more => first.tokens ++ more.tokens
  | .number t _ _ => [t.val]
  | .strings first more => first.val :: more.map (·.val)
  | .true t => [t.val]
  | .false t => [t.val]
  | .none t => [t.val]
  | .ellipsis t => [t.val]
  | .name t => [t.val]
  | .paren left d right => left.val :: (d.tokens ++ [right.val])
  | .list left elements right => left.val :: (elements.tokens ++ [right.val])

def ChainDerivation.tokens {l : Level} : ChainDerivation l → List Token
  | .stop => []
  | .again op operand more => op.val :: (operand.tokens ++ more.tokens)

def TrailDerivation.tokens : TrailDerivation → List Token
  | .stop => []
  | .call left args right more => left.val :: (args.tokens ++ right.val :: more.tokens)
  | .member dot field more => dot.val :: field.val :: more.tokens

def ItemsDerivation.tokens : ItemsDerivation → List Token
  | .nil => []
  | .last item => item.tokens
  | .cons item comma rest => item.tokens ++ comma.val :: rest.tokens

end

mutual

/-- The tree that a derivation stands for. Parentheses leave no node. -/
def ExprDerivation.tree {s : ExprSymbol} : ExprDerivation s → Expr
  | .lambda t params _ body =>
    .lambda t.val.position (params.tree fun name => Parser.text name.val) body.tree
  | .disjunction d | .comparison d | .power d | .postfixes d => d.tree
  | .chain (l := l) first more => l.join first.tree more.tree
  | .negated t d => .unary t.val.position t.val.kind d.tree
  | .signed t d => .unary t.val.position t.val.kind d.tree
  | .raised base t exponent => .binary t.val.position t.val.kind base.tree exponent.tree
  | .trailed first more => more.tree first.tree
  | .number t value _ => .number t.val.position value (Parser.text t.val)
  | .strings first more => .string first.val.position (first.val.text ++ more.flatMap (·.val.text))
  | .true t => .bool t.val.position Bool.true
  | .false t => .bool t.val.position Bool.false
  | .none t => .none t.val.position
  | .ellipsis t => .ellipsis t.val.position
  | .name t => .name t.val.position (Parser.text t.val)
  | .paren _ d _ => d.tree
  | .list left elements _ => .list left.val.position elements.tree

/-- Each operator with the tree of the operand after it. -/
def ChainDerivation.tree {l : Level} : ChainDerivation l → List (Token × Expr)
  | .stop => []
  | .again op operand more => (op.val, operand.tree) :: more.tree

/-- What becomes of the expression in front. A call is reported where its callee is, an attribute at
its dot. -/
def TrailDerivation.tree : TrailDerivation → Expr → Expr
  | .stop => fun e => e
  | .call _ args _ more => fun e => more.tree (.call e.position e args.tree)
  | .member dot field more => fun e => more.tree (.member dot.val.position e (Parser.text field.val))

def ItemsDerivation.tree : ItemsDerivation → List Expr
  | .nil => []
  | .last item => [item.tree]
  | .cons item _ rest => item.tree :: rest.tree

end

/-- Induction along a chain of operators, without a look into the operands. -/
@[elab_as_elim]
theorem ChainDerivation.ind {l : Level} {P : ChainDerivation l → Prop} (stop : P .stop)
    (again : ∀ op operand more, P more → P (.again op operand more)) (d : ChainDerivation l) :
    P d := by
  cases d with
  | stop => exact stop
  | again op operand more => exact again op operand more (more.ind stop again)

/-- Induction along calls and attributes, without a look into the arguments. -/
@[elab_as_elim]
theorem TrailDerivation.ind {P : TrailDerivation → Prop} (stop : P .stop)
    (call : ∀ left args right more, P more → P (.call left args right more))
    (member : ∀ dot field more, P more → P (.member dot field more)) (d : TrailDerivation) :
    P d := by
  cases d with
  | stop => exact stop
  | call left args right more => exact call left args right more (more.ind stop call member)
  | member dot field more => exact member dot field more (more.ind stop call member)

namespace ItemsDerivation

/-- Items as a list with commas, which is a type of its own because derivations refer to each
other. -/
def toList : ItemsDerivation → CommaList (ExprDerivation .expr)
  | .nil => .nil
  | .last item => .last item
  | .cons item comma rest => .cons item comma rest.toList

def ofList : CommaList (ExprDerivation .expr) → ItemsDerivation
  | .nil => .nil
  | .last item => .last item
  | .cons item comma rest => .cons item comma (ofList rest)

theorem toList_ofList (d : CommaList (ExprDerivation .expr)) : (ofList d).toList = d := by
  induction d with
  | nil | last item => rfl
  | cons item comma rest ih => rw [ofList, toList, ih]

theorem ofList_toList (d : ItemsDerivation) : ofList d.toList = d := by
  cases d with
  | nil | last item => rfl
  | cons item comma rest => rw [toList, ofList, ofList_toList rest]

theorem tokens_eq (d : ItemsDerivation) : d.tokens = d.toList.tokens ExprDerivation.tokens := by
  cases d with
  | nil | last item => rfl
  | cons item comma rest => rw [tokens, toList, CommaList.tokens, tokens_eq rest]

theorem tree_eq (d : ItemsDerivation) : d.tree = d.toList.tree ExprDerivation.tree := by
  cases d with
  | nil | last item => rfl
  | cons item comma rest => rw [tree, toList, CommaList.tree, tree_eq rest]

end ItemsDerivation

namespace ExprSymbol

def atomOpeners : List Kind :=
  [.number, .string, .kwTrue, .kwFalse, .kwNone, .ellipsis, .identifier, .leftParen, .leftBracket]

def openers : ExprSymbol → List Kind
  | expr => [.kwLambda, .kwNot, .minus, .plus, .tilde] ++ atomOpeners
  | chain .disjunction | chain .conjunction | negation =>
    [.kwNot, .minus, .plus, .tilde] ++ atomOpeners
  | chain _ | unary => [.minus, .plus, .tilde] ++ atomOpeners
  | power | postfixes | atom => atomOpeners

theorem openers_operand (l : Level) : l.operand.openers ⊆ (chain l).openers := by
  cases l <;> simp [Level.operand, openers]

end ExprSymbol

theorem ExprDerivation.starts {s : ExprSymbol} (d : ExprDerivation s) :
    Starts (· ∈ s.openers) d.tokens := by
  have hinner {s' : ExprSymbol} {ts : List Token} (h : Starts (· ∈ s'.openers) ts)
      (hs : s'.openers ⊆ s.openers) : Starts (· ∈ s.openers) ts :=
    h.mono fun k hk => hs hk
  cases d with
  | lambda t params colon body | negated t d | number t value h | true t | false t | none t
  | ellipsis t | name t => exact starts_of t _ (by decide)
  | disjunction d | comparison d | power d | postfixes d => exact hinner d.starts (by decide)
  | chain first more => exact (hinner first.starts (ExprSymbol.openers_operand _)).append _
  | signed t d => exact ⟨t.val, _, rfl, List.mem_append_left _ t.property⟩
  | raised base t exponent => exact (hinner base.starts (by decide)).append _
  | trailed first more => exact (hinner first.starts (by decide)).append _
  | strings first more => exact starts_of first _ (by decide)
  | paren left d right | list left elements right => exact starts_of left _ (by decide)

/-- An operand as a whole expression. -/
def ExprDerivation.whole (d : ExprDerivation .unary) : ExprDerivation .expr :=
  .disjunction (.chain (.chain (.comparison (.chain (.chain (.chain (.chain (.chain (.chain
    (.chain d .stop) .stop) .stop) .stop) .stop) .stop) .stop)) .stop) .stop)

theorem ExprDerivation.tokens_whole (d : ExprDerivation .unary) : d.whole.tokens = d.tokens := by
  simp only [whole, tokens, ChainDerivation.tokens, List.append_nil]
  rfl

def ExprDerivation.alone (a : ExprDerivation .atom) : ExprDerivation .expr :=
  whole (.power (.postfixes (.trailed a .stop)))

theorem ExprDerivation.tokens_alone (a : ExprDerivation .atom) : a.alone.tokens = a.tokens := by
  simp only [alone, tokens_whole, tokens, TrailDerivation.tokens, List.append_nil]

/-- Where the first token of an expression stands. -/
def ExprDerivation.start {s : ExprSymbol} (d : ExprDerivation s) : Position :=
  (d.tokens.headD default).position

theorem ExprDerivation.start_eq {s : ExprSymbol} (d : ExprDerivation s) {t : Token}
    {rest tail : List Token} (h : d.tokens ++ rest = t :: tail) : d.start = t.position := by
  obtain ⟨t', tail', ht', -⟩ := d.starts
  rw [ht'] at h
  obtain ⟨rfl, -⟩ := List.cons.inj h
  rw [start, ht']
  rfl

abbrev HintDerivation (mark : Kind) := Option (Of mark × OneOf [.identifier, .kwNone])

namespace HintDerivation

variable {mark : Kind}

def tokens : HintDerivation mark → List Token
  | none => []
  | some (m, type) => [m.val, type.val]

def tree (d : HintDerivation mark) : Option String := d.map fun x => Parser.text x.2.val

end HintDerivation

/-- The signs of augmented assignments, each with the operator that it applies. -/
def augmentations : List (Kind × Kind) :=
  [(.plusAssign, .plus), (.minusAssign, .minus), (.starAssign, .star), (.slashAssign, .slash),
   (.percentAssign, .percent)]

/-- Derivations of statements without a block, without the end of their line. -/
inductive SimpleDerivation where
  | pass (t : Of .kwPass)
  | ret (t : Of .kwReturn) (value : Option (ExprDerivation .expr))
  | globals (t : Of .kwGlobal) (first : Of .identifier) (more : List (Of .comma × Of .identifier))
  | assign (t : Of .identifier) (hint : HintDerivation .colon) (sign : Of .assign)
      (value : ExprDerivation .expr)
  | augment (t : Of .identifier) (sign : Token) (op : Kind) (h : (sign.kind, op) ∈ augmentations)
      (value : ExprDerivation .expr)
  | evaluate (value : ExprDerivation .expr)

namespace SimpleDerivation

def tokens : SimpleDerivation → List Token
  | pass t => [t.val]
  | ret t value => t.val :: value.elim [] (·.tokens)
  | globals t first more => t.val :: first.val :: more.flatMap fun x => [x.1.val, x.2.val]
  | assign t hint sign value => t.val :: (hint.tokens ++ sign.val :: value.tokens)
  | augment t sign _ _ value => t.val :: sign :: value.tokens
  | evaluate value => value.tokens

def tree : SimpleDerivation → Stmt
  | pass t => .pass t.val.position
  | ret t value => .ret t.val.position (value.map (·.tree))
  | globals t first more =>
    .globals t.val.position (Parser.text first.val :: more.map fun x => Parser.text x.2.val)
  | assign t hint _ value => .assign t.val.position (Parser.text t.val) hint.tree value.tree
  | augment t _ op _ value => .augment t.val.position (Parser.text t.val) op value.tree
  | evaluate value => .evaluate value.start value.tree

end SimpleDerivation

def SimpleDerivation.openers : List Kind :=
  [.kwPass, .kwReturn, .kwGlobal] ++ ExprSymbol.expr.openers

theorem SimpleDerivation.starts (d : SimpleDerivation) : Starts (· ∈ openers) d.tokens := by
  cases d with
  | pass t | ret t value | globals t first more | assign t hint sign value
  | augment t sign op h value => exact starts_of t _ (by decide)
  | evaluate value => exact value.starts.mono fun k hk => List.mem_append_right _ hk

structure ParamDerivation where
  name : Of .identifier
  hint : HintDerivation .colon

namespace ParamDerivation

def tokens (d : ParamDerivation) : List Token := d.name.val :: d.hint.tokens

def tree (d : ParamDerivation) : Param :=
  ⟨d.name.val.position, Parser.text d.name.val, d.hint.tree⟩

end ParamDerivation

mutual

inductive StmtDerivation : Type where
  | define (t : Of .kwDef) (name : Of .identifier) (left : Of .leftParen)
      (params : CommaList ParamDerivation) (right : Of .rightParen)
      (returns : HintDerivation .arrow) (body : BlockDerivation)
  | branch (d : ConditionalDerivation .kwIf)
  | loop (t : Of .kwWhile) (cond : ExprDerivation .expr) (body : BlockDerivation)
  | simple (d : SimpleDerivation) (newline : Of .newline)

/-- Derivations of a condition with its block and what is done otherwise, after the keyword `k`. -/
inductive ConditionalDerivation : Kind → Type where
  | mk {k : Kind} (t : Of k) (cond : ExprDerivation .expr) (body : BlockDerivation)
      (orElse : ElseDerivation) : ConditionalDerivation k

/-- What is done otherwise: nothing, another conditional, or a block. -/
inductive ElseDerivation : Type where
  | none
  | elif (d : ConditionalDerivation .kwElif)
  | block (t : Of .kwElse) (body : BlockDerivation)

/-- Derivations of blocks: a simple statement on the line of the header, or indented lines. -/
inductive BlockDerivation : Type where
  | line (colon : Of .colon) (d : SimpleDerivation) (newline : Of .newline)
  | suite (colon : Of .colon) (newline : Of .newline) (indent : Of .indent)
      (body : StmtsDerivation) (dedent : Of .dedent)

inductive StmtsDerivation : Type where
  | nil
  | cons (d : StmtDerivation) (rest : StmtsDerivation)

end

/-- Induction along statements, without a look into their blocks. -/
@[elab_as_elim]
theorem StmtsDerivation.ind {P : StmtsDerivation → Prop} (nil : P .nil)
    (cons : ∀ d rest, P rest → P (.cons d rest)) (d : StmtsDerivation) : P d := by
  cases d with
  | nil => exact nil
  | cons d rest => exact cons d rest (rest.ind nil cons)

mutual

def StmtDerivation.tokens : StmtDerivation → List Token
  | .define t name left params right returns body =>
    t.val :: name.val :: left.val :: (params.tokens ParamDerivation.tokens ++
      right.val :: (returns.tokens ++ body.tokens))
  | .branch d => d.tokens
  | .loop t cond body => t.val :: (cond.tokens ++ body.tokens)
  | .simple d newline => d.tokens ++ [newline.val]

def ConditionalDerivation.tokens {k : Kind} : ConditionalDerivation k → List Token
  | .mk t cond body orElse => t.val :: (cond.tokens ++ (body.tokens ++ orElse.tokens))

def ElseDerivation.tokens : ElseDerivation → List Token
  | .none => []
  | .elif d => d.tokens
  | .block t body => t.val :: body.tokens

def BlockDerivation.tokens : BlockDerivation → List Token
  | .line colon d newline => colon.val :: (d.tokens ++ [newline.val])
  | .suite colon newline indent body dedent =>
    colon.val :: newline.val :: indent.val :: (body.tokens ++ [dedent.val])

def StmtsDerivation.tokens : StmtsDerivation → List Token
  | .nil => []
  | .cons d rest => d.tokens ++ rest.tokens

end

mutual

def StmtDerivation.tree : StmtDerivation → Stmt
  | .define t name _ params _ returns body =>
    .define t.val.position (Parser.text name.val) (params.tree ParamDerivation.tree) returns.tree
      body.tree
  | .branch d => d.tree
  | .loop t cond body => .loop t.val.position cond.tree body.tree
  | .simple d _ => d.tree

def ConditionalDerivation.tree {k : Kind} : ConditionalDerivation k → Stmt
  | .mk t cond body orElse => .branch t.val.position cond.tree body.tree orElse.tree

/-- Another conditional nests in the one before. -/
def ElseDerivation.tree : ElseDerivation → List Stmt
  | .none => []
  | .elif d => [d.tree]
  | .block _ body => body.tree

def BlockDerivation.tree : BlockDerivation → List Stmt
  | .line _ d _ => [d.tree]
  | .suite _ _ _ body _ => body.tree

def StmtsDerivation.tree : StmtsDerivation → List Stmt
  | .nil => []
  | .cons d rest => d.tree :: rest.tree

end

def StmtDerivation.openers : List Kind := [.kwDef, .kwIf, .kwWhile] ++ SimpleDerivation.openers

theorem StmtDerivation.starts (d : StmtDerivation) : Starts (· ∈ openers) d.tokens := by
  cases d with
  | define t name left params right returns body | loop t cond body =>
    exact starts_of t _ (by decide)
  | branch d =>
    cases d with
    | mk t cond body orElse => exact starts_of t _ (by decide)
  | simple d newline =>
    exact (d.starts.mono fun k hk => List.mem_append_right _ hk).append _

theorem Level.eof_notMem_operators (l : Level) : Kind.eof ∉ l.operators := by
  cases l <;> decide

namespace EndFree

variable {k : Kind} {x y : List Token}

theorem nil : EndFree [] := nofun

theorem ne_eof (t : Of k) (hk : k ≠ .eof) : t.val.kind ≠ .eof :=
  fun heq => hk (t.property.symm.trans heq)

theorem cons {t : Of k} (hk : k ≠ .eof) (h : EndFree x) : EndFree (t.val :: x) :=
  List.forall_mem_cons.mpr ⟨ne_eof t hk, h⟩

theorem append (hx : EndFree x) (hy : EndFree y) : EndFree (x ++ y) :=
  List.forall_mem_append.mpr ⟨hx, hy⟩

theorem single {t : Of k} (hk : k ≠ .eof) : EndFree [t.val] := cons hk nil

end EndFree

end BoardPython
