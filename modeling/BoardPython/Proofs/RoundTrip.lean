import BoardPython.Proofs.WrittenPhrases

/-! Writing statements and parsing the text gives the statements back, whatever style they are
written in: `parseSource_text`. The lines of a statement are read as a derivation of it, which takes
up their tokens and leaves those of the lines behind them (`Reads`); the lines of a suite are deeper,
so that the tokens that open and close it stand where its lines begin and end. -/
namespace BoardPython

open Token (Kind Of OneOf)
open Bytes (ascii)

section Hints

variable {mark : Kind} {hinted : Option String}

theorem closed_hintWords (hmark : (Word.symbol mark).isPlain = true)
    (hhint : ∀ type ∈ hinted, isHint type = true) : Closed (hintWords mark hinted) := by
  cases hinted with
  | none => exact .nil
  | some type =>
    have htype := hhint type rfl
    rw [hintWords]
    split
    · exact .cons hmark (.single rfl)
    · rename_i hne
      rw [isHint, beq_eq_false_iff_ne.mpr hne, Bool.false_or] at htype
      exact .cons hmark (.single (Word.isPlain_name htype))

theorem Spells.hint {ts : List Token} (hhint : ∀ type ∈ hinted, isHint type = true)
    (h : Spells ts (hintWords mark hinted)) :
    ∃ d : HintDerivation mark, HintDerivation.tokens d = ts ∧ HintDerivation.tree d = hinted := by
  cases hinted with
  | none =>
    obtain rfl := h.nil
    exact ⟨none, rfl, rfl⟩
  | some type =>
    have htype := hhint type rfl
    rw [hintWords] at h
    obtain ⟨m, ts₁, rfl, -, h₁⟩ := h.symbol
    split at h₁
    · rename_i hnone
      obtain ⟨t, ts₂, rfl, htext, h₂⟩ := h₁.symbol
      obtain rfl := h₂.nil
      refine ⟨some (m, ⟨t.val, by rw [t.property]; decide⟩), rfl, ?_⟩
      have hname : Parser.text t.val = type := by
        rw [Parser.text, htext, hnone]
        exact toString_ofString (isAsciiWord_keyword (by decide))
      exact congrArg some hname
    · rename_i hne
      rw [isHint, beq_eq_false_iff_ne.mpr hne, Bool.false_or] at htype
      obtain ⟨t, rfl, hname⟩ := h₁.nameAlone htype
      exact ⟨some (m, ⟨t.val, by rw [t.property]; decide⟩), rfl, congrArg some hname⟩

theorem Spells.names {names : List String} (hne : names ≠ [])
    (hnames : ∀ id ∈ names, isIdentifier id = true) {ts : List Token}
    (h : Spells ts (commaWords (names.map fun id => [.name id]))) :
    ∃ (first : Of .identifier) (more : List (Of .comma × Of .identifier)),
      first.val :: more.flatMap (fun x => [x.1.val, x.2.val]) = ts ∧
        Parser.text first.val :: more.map (Parser.text ·.2.val) = names := by
  induction names generalizing ts with
  | nil => exact absurd rfl hne
  | cons id names ih =>
    obtain ⟨hid, hnames⟩ := List.forall_mem_cons.mp hnames
    cases names with
    | nil =>
      obtain ⟨first, rfl, hfirst⟩ := Spells.nameAlone hid h
      exact ⟨first, [], rfl, congrArg (· :: []) hfirst⟩
    | cons id' names =>
      obtain ⟨first, ts₂, rfl, hfirst, h₂⟩ := Spells.name hid h
      obtain ⟨comma, ts₃, rfl, -, h₃⟩ := h₂.symbol
      obtain ⟨second, more, rfl, hmore⟩ := ih (List.cons_ne_nil _ _) hnames h₃
      exact ⟨first, (comma, second) :: more, rfl, congrArg₂ List.cons hfirst hmore⟩

end Hints

structure WritesSimple (ws : List Word) (s : Stmt) : Prop where
  closed : Closed ws
  derives : ∀ ts, Spells ts ws → ∃ d : SimpleDerivation, d.tokens = ts ∧ d.tree.bare = s.bare

namespace WritesSimple

variable {pos : Position}

theorem ne_nil {ws : List Word} {s : Stmt} (h : WritesSimple ws s) : ws ≠ [] := by
  rintro rfl
  obtain ⟨d, hd, -⟩ := h.derives [] rfl
  obtain ⟨t, tail, hstarts, -⟩ := d.starts
  rw [hd] at hstarts
  cases hstarts

theorem pass : WritesSimple [.symbol .kwPass] (.pass pos) := by
  refine ⟨.single rfl, fun ts hts => ?_⟩
  obtain ⟨t, ts₁, rfl, -, h₁⟩ := hts.symbol
  obtain rfl := h₁.nil
  exact ⟨.pass t, rfl, rfl⟩

theorem ret {value : Option Expr} (h : ∀ e ∈ value, e.Written) :
    WritesSimple (.symbol .kwReturn :: value.elim [] Expr.words) (.ret pos value) := by
  cases value with
  | none =>
    refine ⟨.single rfl, fun ts hts => ?_⟩
    obtain ⟨t, ts₁, rfl, -, h₁⟩ := hts.symbol
    obtain rfl := h₁.nil
    exact ⟨.ret t none, rfl, rfl⟩
  | some e =>
    have he := (h e rfl).expr
    refine ⟨he.closed.cons rfl, fun ts hts => ?_⟩
    obtain ⟨t, ts₁, rfl, -, h₁⟩ := hts.symbol
    obtain ⟨d, rfl, hd⟩ := he.derives ts₁ h₁
    refine ⟨.ret t (some d), rfl, ?_⟩
    simp only [SimpleDerivation.tree, Stmt.bare, Option.map_some, hd]

theorem globals {names : List String} (hne : names ≠ [])
    (hnames : ∀ id ∈ names, isIdentifier id = true) :
    WritesSimple (.symbol .kwGlobal :: commaWords (names.map fun id => [.name id]))
      (.globals pos names) := by
  have hclosed : Closed (commaWords (names.map fun id => [Word.name id])) := by
    refine .commaWords fun ws hws => ?_
    obtain ⟨id, hid, rfl⟩ := List.mem_map.mp hws
    exact .single (Word.isPlain_name (hnames id hid))
  refine ⟨hclosed.cons rfl, fun ts hts => ?_⟩
  obtain ⟨t, ts₁, rfl, -, h₁⟩ := hts.symbol
  obtain ⟨first, more, htokens, htexts⟩ := h₁.names hne hnames
  refine ⟨.globals t first more, congrArg (t.val :: ·) htokens, ?_⟩
  exact congrArg (Stmt.globals default) htexts

variable {name : String} {value : Expr}

theorem assign {hint : Option String} (hname : isIdentifier name = true)
    (hhint : ∀ type ∈ hint, isHint type = true) (hvalue : value.Written) :
    WritesSimple (.name name :: (hintWords .colon hint ++ .symbol .assign :: value.words))
      (.assign pos name hint value) := by
  refine ⟨((closed_hintWords rfl hhint).append (hvalue.expr.closed.cons rfl)).cons
    (Word.isPlain_name hname), fun ts hts => ?_⟩
  obtain ⟨t, ts₁, rfl, ht, h₁⟩ := hts.name hname
  obtain ⟨ts₂, ts₃, rfl, h₂, h₃⟩ := h₁.append
  obtain ⟨sign, ts₄, rfl, -, h₄⟩ := h₃.symbol
  obtain ⟨type, rfl, htype⟩ := h₂.hint hhint
  obtain ⟨d, rfl, hd⟩ := hvalue.expr.derives ts₄ h₄
  refine ⟨.assign t type sign d, rfl, ?_⟩
  simp only [SimpleDerivation.tree, Stmt.bare, ht, htype, hd]

theorem augment {op : Kind} (hname : isIdentifier name = true) (hop : op ∈ augmentations.map (·.2))
    (hvalue : value.Written) :
    WritesSimple (.name name :: .symbol (augmentSign op) :: value.words)
      (.augment pos name op value) := by
  have hall : ∀ op ∈ augmentations.map (·.2), (augmentSign op, op) ∈ augmentations ∧
      (Word.symbol (augmentSign op)).isPlain = true := by decide
  obtain ⟨hsign, hplain⟩ := hall op hop
  refine ⟨.cons (Word.isPlain_name hname) (.cons hplain hvalue.expr.closed), fun ts hts => ?_⟩
  obtain ⟨t, ts₁, rfl, ht, h₁⟩ := hts.name hname
  obtain ⟨sign, ts₂, rfl, -, h₂⟩ := h₁.symbol
  obtain ⟨d, rfl, hd⟩ := hvalue.expr.derives ts₂ h₂
  refine ⟨.augment t sign.val op (sign.property.symm ▸ hsign) d, rfl, ?_⟩
  simp only [SimpleDerivation.tree, Stmt.bare, ht, hd]

theorem evaluate (h : value.Written) : WritesSimple value.words (.evaluate pos value) := by
  refine ⟨h.expr.closed, fun ts hts => ?_⟩
  obtain ⟨d, rfl, hd⟩ := h.expr.derives ts hts
  exact ⟨.evaluate d, rfl, congrArg (Stmt.evaluate default) hd⟩

end WritesSimple

/-- The lines begin with one that is not deeper than `depth`. -/
def Shallow (depth : Nat) (lines : List Line) : Prop := ∀ l ∈ lines.head?, l.depth ≤ depth

section Lines

variable {depth : Nat} {l : Line} {lines rest : List Line}

theorem linesContents_line (depth : Nat) (ws : List Word) (rest : List Line) :
    linesContents depth (⟨depth, ws⟩ :: rest) =
      ws.map Word.content ++ (.newline, []) :: linesContents depth rest := by
  rw [linesContents, Lexer.indentContents, if_neg (Nat.lt_irrefl _), Nat.sub_self]
  rfl

theorem linesContents_deeper (h : l.depth = depth + 1) :
    linesContents depth (l :: rest) = (.indent, []) :: linesContents (depth + 1) (l :: rest) := by
  obtain ⟨next, ws⟩ := l
  obtain rfl : next = depth + 1 := h
  rw [linesContents_line, linesContents, Lexer.indentContents, if_pos (Nat.lt_succ_self _)]
  rfl

theorem linesContents_shallower (h : Shallow depth lines) :
    linesContents (depth + 1) lines = (.dedent, []) :: linesContents depth lines := by
  cases lines with
  | nil => rfl
  | cons l rest =>
    have hl : l.depth ≤ depth := h l rfl
    rw [linesContents, linesContents, Lexer.indentContents, Lexer.indentContents,
      if_neg (by omega), if_neg (by omega), Nat.succ_sub hl]
    rfl

theorem Nested.mono {deeper : Nat} (h : Nested depth lines) (hle : depth ≤ deeper) :
    Nested deeper lines := by
  cases lines with
  | nil => trivial
  | cons l rest => exact ⟨h.1.trans (by omega), h.2⟩

end Lines

/-- The lines, in a suite that is `depth` deep, are read as something good, which takes up their
tokens if no deeper line follows. -/
structure Reads {δ : Type} (tokens : δ → List Token) (good : δ → Prop) (depth : Nat)
    (lines : List Line) : Prop where
  sound : ∀ l ∈ lines, l.Sound
  level : ∀ l ∈ lines.head?, l.depth = depth
  nested : ∀ rest, Nested depth rest → Nested depth (lines ++ rest)
  derives : ∀ rest ts, Shallow depth rest →
    ts.map Token.content = linesContents depth (lines ++ rest) →
    ∃ d ts', ts = tokens d ++ ts' ∧ good d ∧ ts'.map Token.content = linesContents depth rest

namespace Reads

variable {δ ε : Type} {tokens : δ → List Token} {good : δ → Prop} {tokens' : ε → List Token}
  {good' : ε → Prop} {depth : Nat} {lines lines' : List Line}

theorem map (h : Reads tokens good depth lines)
    (hmap : ∀ d, good d → ∃ d', tokens' d' = tokens d ∧ good' d') :
    Reads tokens' good' depth lines := by
  refine ⟨h.sound, h.level, h.nested, fun rest ts hrest hts => ?_⟩
  obtain ⟨d, ts', rfl, hd, hts'⟩ := h.derives rest ts hrest hts
  obtain ⟨d', htokens, hd'⟩ := hmap d hd
  exact ⟨d', ts', by rw [htokens], hd', hts'⟩

theorem nil {d : δ} (htokens : tokens d = []) (hd : good d) : Reads tokens good depth [] := by
  refine ⟨List.forall_mem_nil _, fun l hl => ?_, fun rest h => h,
    fun rest ts hrest hts => ⟨d, ts, ?_, hd, hts⟩⟩
  · cases hl
  · rw [htokens, List.nil_append]

theorem shallow_append (h : Reads tokens good depth lines) {rest : List Line}
    (hrest : Shallow depth rest) : Shallow depth (lines ++ rest) := by
  cases lines with
  | nil => exact hrest
  | cons l lines =>
    intro l' hl'
    obtain rfl := Option.some.inj hl'
    exact (h.level l rfl).le

theorem append (h : Reads tokens good depth lines) (h' : Reads tokens' good' depth lines') :
    Reads (fun x : δ × ε => tokens x.1 ++ tokens' x.2) (fun x => good x.1 ∧ good' x.2) depth
      (lines ++ lines') := by
  refine ⟨List.forall_mem_append.mpr ⟨h.sound, h'.sound⟩, fun l hl => ?_, fun rest hrest => ?_,
    fun rest ts hrest hts => ?_⟩
  · cases lines with
    | nil => exact h'.level l hl
    | cons l' lines => exact h.level l hl
  · rw [List.append_assoc]
    exact h.nested _ (h'.nested rest hrest)
  · rw [List.append_assoc] at hts
    obtain ⟨d, ts₁, rfl, hd, h₁⟩ := h.derives _ ts (h'.shallow_append hrest) hts
    obtain ⟨d', ts₂, rfl, hd', h₂⟩ := h'.derives rest ts₁ hrest h₁
    exact ⟨(d, d'), ts₂, (List.append_assoc ..).symm, ⟨hd, hd'⟩, h₂⟩

end Reads

variable {ws : List Word} {depth : Nat}

theorem Closed.sound (h : Closed ws) (hne : ws ≠ []) (depth : Nat) : Line.Sound ⟨depth, ws⟩ :=
  ⟨hne, h.valid, h.balanced 0⟩

theorem WritesSimple.reads {s : Stmt} (h : WritesSimple ws s) (depth : Nat) :
    Reads StmtDerivation.tokens (·.tree.bare = s.bare) depth [⟨depth, ws⟩] := by
  refine ⟨List.forall_mem_singleton.mpr (h.closed.sound h.ne_nil depth), fun l hl => ?_,
    fun rest hrest => ⟨Nat.le_succ depth, hrest⟩, fun rest ts hrest hts => ?_⟩
  · obtain rfl := Option.some.inj hl
    rfl
  · rw [List.singleton_append, linesContents_line] at hts
    obtain ⟨ts₁, ts₂, rfl, h₁, h₂⟩ := List.map_eq_append_iff.mp hts
    obtain ⟨t, ts₃, rfl, ht, h₃⟩ := List.map_eq_cons_iff.mp h₂
    obtain ⟨d, rfl, hd⟩ := h.derives ts₁ h₁
    exact ⟨.simple d ⟨t, (Prod.mk.inj ht).1⟩, ts₃, by simp [StmtDerivation.tokens], hd, h₃⟩

theorem Reads.headed {good : StmtsDerivation → Prop} {lines : List Line} (hws : Closed ws)
    (hne : lines ≠ []) (h : Reads StmtsDerivation.tokens good (depth + 1) lines) :
    Reads (fun x : List Token × BlockDerivation => x.1 ++ x.2.tokens)
      (fun x => Spells x.1 ws ∧ ∃ body, good body ∧ x.2.tree = body.tree) depth
      (⟨depth, ws ++ [Word.symbol .colon]⟩ :: lines) := by
  obtain ⟨first, more, rfl⟩ := List.exists_cons_of_ne_nil hne
  have hfirst : first.depth = depth + 1 := h.level first rfl
  have hheader : Line.Sound ⟨depth, ws ++ [Word.symbol .colon]⟩ :=
    (hws.append (.single rfl)).sound (by simp) depth
  refine ⟨List.forall_mem_cons.mpr ⟨hheader, h.sound⟩, fun l hl => ?_, fun rest hrest => ?_,
    fun rest ts hrest hts => ?_⟩
  · obtain rfl := Option.some.inj hl
    rfl
  · have hnested := h.nested rest (hrest.mono (Nat.le_succ depth))
    exact ⟨Nat.le_succ depth, hfirst.le, hnested.2⟩
  · rw [List.cons_append, linesContents_line, List.map_append, List.append_assoc] at hts
    obtain ⟨header, ts₁, rfl, h₁, h₂⟩ := List.map_eq_append_iff.mp hts
    obtain ⟨colon, ts₂, rfl, hcolon, h₃⟩ := List.map_eq_cons_iff.mp h₂
    obtain ⟨newline, ts₃, rfl, hnewline, h₄⟩ := List.map_eq_cons_iff.mp h₃
    -- The suite begins with an indentation and ends with what closes it.
    rw [List.cons_append, linesContents_deeper hfirst] at h₄
    obtain ⟨indent, ts₄, rfl, hindent, h₅⟩ := List.map_eq_cons_iff.mp h₄
    have hdeeper : Shallow (depth + 1) rest := fun l hl => (hrest l hl).trans (Nat.le_succ depth)
    obtain ⟨body, ts₅, rfl, hbody, h₆⟩ := h.derives rest ts₄ hdeeper h₅
    rw [linesContents_shallower hrest] at h₆
    obtain ⟨dedent, ts₆, rfl, hdedent, h₇⟩ := List.map_eq_cons_iff.mp h₆
    refine ⟨(header, .suite ⟨colon, (Prod.mk.inj hcolon).1⟩ ⟨newline, (Prod.mk.inj hnewline).1⟩
      ⟨indent, (Prod.mk.inj hindent).1⟩ body ⟨dedent, (Prod.mk.inj hdedent).1⟩), ts₆, ?_,
      ⟨h₁, body, hbody, rfl⟩, h₇⟩
    simp [BlockDerivation.tokens]

theorem linesAll_ne_nil {chained : Bool} {body : List Stmt} (h : body ≠ []) :
    linesAll chained depth body ≠ [] := by
  cases body with
  | nil => exact absurd rfl h
  | cons s rest =>
    rw [linesAll]
    cases s <;> simp [Stmt.lines]

/-- The lines of a statement are read as that statement, and as what follows another conditional if
it is one. -/
structure Stmt.Readable (chained : Bool) (s : Stmt) : Prop where
  stmt : ∀ depth, Reads StmtDerivation.tokens (·.tree.bare = s.bare) depth
    (s.lines chained .kwIf depth)
  branch : s.isBranch = true → ∀ depth, Reads (ConditionalDerivation.tokens (k := .kwElif))
    (·.tree.bare = s.bare) depth (s.lines chained .kwElif depth)

section Suites

variable {chained : Bool} {depth : Nat} {pos : Position} {body orElse : List Stmt}

theorem reads_suite (h : ∀ s ∈ body, s.Readable chained) (depth : Nat) :
    Reads StmtsDerivation.tokens (suiteBare ·.tree = suiteBare body) depth
      (linesAll chained depth body) := by
  induction body with
  | nil => exact .nil (d := .nil) rfl rfl
  | cons s rest ih =>
    obtain ⟨hs, hrest⟩ := List.forall_mem_cons.mp h
    refine ((hs.stmt depth).append (ih hrest)).map fun x hx => ⟨.cons x.1 x.2, rfl, ?_⟩
    exact congrArg₂ List.cons hx.1 hx.2

theorem reads_block (ws : List Word) (depth : Nat) (hws : Closed ws) (hne : body ≠ [])
    (h : ∀ s ∈ body, s.Readable chained) :
    Reads (fun x : List Token × BlockDerivation => x.1 ++ x.2.tokens)
      (fun x => Spells x.1 ws ∧ suiteBare x.2.tree = suiteBare body) depth
      (⟨depth, ws ++ [Word.symbol .colon]⟩ :: linesAll chained (depth + 1) body) := by
  refine (Reads.headed hws (linesAll_ne_nil hne) (reads_suite h (depth + 1))).map fun x hx => ?_
  obtain ⟨hspells, stmts, hstmts, htree⟩ := hx
  exact ⟨x, rfl, hspells, htree ▸ hstmts⟩

theorem reads_else (h : ∀ s ∈ orElse, s.Readable chained) :
    Reads ElseDerivation.tokens (suiteBare ·.tree = suiteBare orElse) depth
      (elseLines chained depth orElse) := by
  cases orElse with
  | nil => exact .nil (d := .none) rfl rfl
  | cons s rest =>
    rw [elseLines]
    split
    · rename_i hchained
      simp only [Bool.and_eq_true, List.isEmpty_iff] at hchained
      obtain ⟨⟨-, hbranch⟩, rfl⟩ := hchained
      refine ((h s (List.mem_cons_self ..)).branch hbranch depth).map fun d hd => ?_
      exact ⟨.elif d, rfl, congrArg (· :: []) hd⟩
    · refine (reads_block [.symbol .kwElse] depth (.single rfl) (List.cons_ne_nil s rest) h).map
        fun x hx => ?_
      obtain ⟨t, ts, hts, -, hnil⟩ := hx.1.symbol
      obtain rfl := hnil.nil
      exact ⟨.block t x.2, by rw [hts]; rfl, hx.2⟩

namespace Stmt.Readable

theorem of_simple {s : Stmt} {ws : List Word} (h : WritesSimple ws s)
    (hlines : ∀ depth, s.lines chained .kwIf depth = [⟨depth, ws⟩]) (hno : s.isBranch = false) :
    s.Readable chained :=
  ⟨fun depth => hlines depth ▸ h.reads depth, fun hbranch => absurd hbranch (by rw [hno]; decide)⟩

variable {cond : Expr} {params : List Param}

theorem loop (hcond : cond.Written) (hne : body ≠ []) (hbody : ∀ s ∈ body, s.Readable chained) :
    (Stmt.loop pos cond body).Readable chained := by
  refine ⟨fun depth => ?_, fun hbranch => absurd hbranch Bool.false_ne_true⟩
  refine (reads_block (.symbol .kwWhile :: cond.words) depth (hcond.expr.closed.cons rfl) hne
    hbody).map fun x hx => ?_
  obtain ⟨t, ts, hts, -, h₁⟩ := hx.1.symbol
  obtain ⟨d, rfl, hd⟩ := hcond.expr.derives ts h₁
  refine ⟨.loop t d x.2, by rw [hts]; rfl, ?_⟩
  simp only [StmtDerivation.tree, Stmt.bare, hd, hx.2]

theorem branch_reads {k : Kind} (hk : (Word.symbol k).isPlain = true)
    (hcond : cond.Written) (hne : body ≠ []) (hbody : ∀ s ∈ body, s.Readable chained)
    (helse : ∀ s ∈ orElse, s.Readable chained) (depth : Nat) :
    Reads (ConditionalDerivation.tokens (k := k))
      (·.tree.bare = (Stmt.branch pos cond body orElse).bare) depth
      ((Stmt.branch pos cond body orElse).lines chained k depth) := by
  have hblock := reads_block (.symbol k :: cond.words) depth (hcond.expr.closed.cons hk) hne hbody
  refine (hblock.append (reads_else helse)).map fun x hx => ?_
  obtain ⟨t, ts, hts, -, h₁⟩ := hx.1.1.symbol
  obtain ⟨d, rfl, hd⟩ := hcond.expr.derives ts h₁
  refine ⟨.mk t d x.1.2 x.2, ?_, ?_⟩
  · rw [hts]
    simp [ConditionalDerivation.tokens]
  · simp only [ConditionalDerivation.tree, Stmt.bare, hd, hx.1.2, hx.2]

theorem paramWords (h : ∀ p ∈ params, p.Regular) :
    Closed (commaWords (params.map Param.words)) ∧
      ∀ ts, Spells ts (commaWords (params.map Param.words)) → ∃ d : CommaList ParamDerivation,
        d.tokens ParamDerivation.tokens = ts ∧
          (d.tree ParamDerivation.tree).map Param.bare = params.map Param.bare := by
  constructor
  · refine .commaWords fun ws hws => ?_
    obtain ⟨p, hp, rfl⟩ := List.mem_map.mp hws
    exact (closed_hintWords rfl (h p hp).hint).cons (Word.isPlain_name (h p hp).name)
  · intro ts hts
    have hparam : ∀ p ∈ params, ∀ ts, Spells ts p.words →
        ∃ d : ParamDerivation, d.tokens = ts ∧ d.tree.bare = p.bare := by
      intro p hp ts hts
      obtain ⟨t, ts₁, rfl, ht, h₁⟩ := Spells.name (h p hp).name hts
      obtain ⟨type, rfl, htype⟩ := h₁.hint (h p hp).hint
      refine ⟨⟨t, type⟩, rfl, ?_⟩
      simp only [ParamDerivation.tree, Param.bare, ht, htype]
    obtain ⟨d, hd, htree⟩ := Spells.commaList hparam hts
    exact ⟨d, hd, by rw [CommaList.map_tree, htree]⟩

theorem define {name : String} {returns : Option String} (hname : isIdentifier name = true)
    (hparams : ∀ p ∈ params, p.Regular) (hreturns : ∀ type ∈ returns, isHint type = true)
    (hne : body ≠ []) (hbody : ∀ s ∈ body, s.Readable chained) :
    (Stmt.define pos name params returns body).Readable chained := by
  obtain ⟨hclosed, hderives⟩ := paramWords hparams
  have hheader : Closed (signatureWords name params returns) := by
    have h : Closed (.symbol .kwDef :: .name name :: (Word.symbol .leftParen ::
        (commaWords (params.map Param.words) ++ [Word.symbol .rightParen]) ++
          hintWords .arrow returns)) :=
      .cons rfl (.cons (Word.isPlain_name hname)
        (hclosed.paren.append (closed_hintWords rfl hreturns)))
    simpa only [signatureWords, List.cons_append, List.append_assoc, List.nil_append] using h
  refine ⟨fun depth => ?_, fun hbranch => absurd hbranch Bool.false_ne_true⟩
  refine (reads_block _ depth hheader hne hbody).map fun x hx => ?_
  obtain ⟨t, ts₁, hts, -, h₁⟩ := hx.1.symbol
  obtain ⟨id, ts₂, rfl, hid, h₂⟩ := h₁.name hname
  obtain ⟨left, ts₃, rfl, -, h₃⟩ := h₂.symbol
  obtain ⟨ts₄, ts₅, rfl, h₄, h₅⟩ := h₃.append
  obtain ⟨right, ts₆, rfl, -, h₆⟩ := h₅.symbol
  obtain ⟨ps, rfl, hps⟩ := hderives ts₄ h₄
  obtain ⟨type, rfl, htype⟩ := h₆.hint hreturns
  refine ⟨.define t id left ps right type x.2, ?_, ?_⟩
  · rw [hts]
    simp [StmtDerivation.tokens]
  · simp only [StmtDerivation.tree, Stmt.bare, hid, hps, htype, hx.2]

theorem branch_of_written (hcond : cond.Written) (hne : body ≠ [])
    (hbody : ∀ s ∈ body, s.Readable chained) (helse : ∀ s ∈ orElse, s.Readable chained) :
    (Stmt.branch pos cond body orElse).Readable chained := by
  refine ⟨fun depth => ?_, fun _ depth => branch_reads rfl hcond hne hbody helse depth⟩
  refine (branch_reads (k := .kwIf) rfl hcond hne hbody helse depth).map fun d hd => ?_
  exact ⟨.branch d, rfl, hd⟩

end Stmt.Readable

end Suites

mutual

theorem Stmt.readable_of_regular (chained : Bool) (s : Stmt) (h : s.Regular) :
    s.Readable chained := by
  cases s with
  | define pos name params returns body =>
    exact .define h.1 h.2.1 h.2.2.1 h.2.2.2.1 (readable_of_suiteRegular chained body h.2.2.2.2)
  | assign pos name hint value =>
    exact .of_simple (.assign h.1 h.2.1 (Expr.written_of_regular value h.2.2)) (fun _ => rfl) rfl
  | augment pos name op value =>
    exact .of_simple (.augment h.1 h.2.1 (Expr.written_of_regular value h.2.2)) (fun _ => rfl) rfl
  | ret pos value =>
    exact .of_simple (.ret fun e he => Expr.written_of_regular e (h e he)) (fun _ => rfl) rfl
  | branch pos cond body orElse =>
    exact .branch_of_written (Expr.written_of_regular cond h.1) h.2.1
      (readable_of_suiteRegular chained body h.2.2.1)
      (readable_of_suiteRegular chained orElse h.2.2.2)
  | loop pos cond body =>
    exact .loop (Expr.written_of_regular cond h.1) h.2.1
      (readable_of_suiteRegular chained body h.2.2)
  | evaluate pos value =>
    exact .of_simple (.evaluate (Expr.written_of_regular value h)) (fun _ => rfl) rfl
  | pass pos => exact .of_simple .pass (fun _ => rfl) rfl
  | globals pos names => exact .of_simple (.globals h.1 h.2) (fun _ => rfl) rfl

theorem readable_of_suiteRegular (chained : Bool) (body : List Stmt) (h : SuiteRegular body) :
    ∀ s ∈ body, s.Readable chained := by
  cases body with
  | nil => exact List.forall_mem_nil _
  | cons s rest =>
    exact List.forall_mem_cons.mpr
      ⟨s.readable_of_regular chained h.1, readable_of_suiteRegular chained rest h.2⟩

end

theorem suiteRegular_iff {stmts : List Stmt} : SuiteRegular stmts ↔ ∀ s ∈ stmts, s.Regular := by
  induction stmts with
  | nil => simp [SuiteRegular]
  | cons s rest ih => rw [SuiteRegular, ih, List.forall_mem_cons]

/-- Statements that are written in any style and parsed again are the same, up to the places where
they stand and the spelling of their numbers. -/
theorem parseSource_text (style : Style) (stmts : List Stmt) (h : ∀ s ∈ stmts, s.Regular) :
    ∃ read, parseSource (style.text stmts) = ⟨read, none⟩ ∧
      read.map Stmt.bare = stmts.map Stmt.bare := by
  have hreads := reads_suite
    (readable_of_suiteRegular style.chained stmts (suiteRegular_iff.mpr h)) 0
  have hnested : Nested 0 (linesAll style.chained 0 stmts) := by
    have hnil := hreads.nested [] trivial
    rwa [List.append_nil] at hnil
  obtain ⟨ts, htokenize, hcontents⟩ := tokenize_lines style hreads.sound hnested
  have hnone : Shallow 0 [] := by
    intro l hl
    cases hl
  obtain ⟨d, ts₁, rfl, hd, h₁⟩ := hreads.derives [] ts hnone (by rw [hcontents, List.append_nil])
  obtain ⟨eof, ts₂, rfl, heof, h₂⟩ := List.map_eq_cons_iff.mp h₁
  have hrun : Parser.run (d.tokens ++ eof :: ts₂) = ⟨d.tree, none⟩ :=
    Parser.statements_append d ⟨eof, (Prod.mk.inj heof).1⟩
      (by rw [List.length_append]; exact Nat.lt_succ_of_le (Nat.le_add_right ..))
  refine ⟨d.tree, ?_, ?_⟩
  · rw [parseSource, Style.text, htokenize]
    exact hrun
  · rw [← suiteBare_eq_map, ← suiteBare_eq_map, hd]

/-- A function with a loop and conditionals in it, which all end with it. -/
def pollStmts : List Stmt :=
  let x := Expr.name default "x"
  let ten := Expr.number default (.int 10) ""
  [.define default "poll" [⟨default, "x", some "i8"⟩] (some "None")
      [.loop default (.compare default [.less, .lessEqual] [x, .unary default .minus x, ten])
        [.branch default x [.augment default "x" .plus (.binary default .star ten x)]
          [.branch default (.call default x [ten, x]) [.pass default]
            [.ret default (some (.string default [34]))]]]],
    .globals default ["x", "poll"]]

theorem pollStmts_parseSource : (∀ s ∈ pollStmts, s.Regular) ∧
    ∃ read, parseSource ((Style.tight true).text pollStmts) = ⟨read, none⟩ ∧
      read.map Stmt.bare = pollStmts.map Stmt.bare := by
  have hx : isIdentifier "x" = true := by decide
  have hpoll : isIdentifier "poll" = true := by decide
  have hi8 : isIdentifier "i8" = true := by decide
  have hten : ∃ n : Nat, (10 : Int) = n := ⟨10, rfl⟩
  have hparam : (Param.mk default "x" (some "i8")).Regular := ⟨hx, by simp [isHint, hi8]⟩
  have hnone : isHint "None" = true := by decide
  have h : ∀ s ∈ pollStmts, s.Regular := by
    simp [pollStmts, Stmt.Regular, SuiteRegular, Expr.Regular, RegularAll, Level.arithmetic,
      Level.operators, augmentations, hx, hpoll, hten, hparam, hnone]
  exact ⟨h, parseSource_text (Style.tight true) pollStmts h⟩

-- The same conditional in two styles.
example :
    let x := Expr.name default "x"
    let stmts := [Stmt.branch default x [.pass default]
      [.branch default (.unary default .minus (.call default x [x])) [.pass default] []]]
    (Style.tight true).text stmts = .ofString "if x:\n    pass\nelif - (x(x)):\n    pass\n" ∧
      (Style.tight false).text stmts =
        .ofString "if x:\n    pass\nelse:\n    if - (x(x)):\n        pass\n" := by
  cbv

end BoardPython
