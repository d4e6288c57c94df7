import BoardPython.Proofs.BracketedNewline
import BoardPython.Proofs.LineTokens
import BoardPython.Proofs.ModuleNames
import BoardPython.Proofs.UnitStages

/-! String literals reach the module byte for byte. Literals that stand next to each other are one
expression with the bytes of all of them, however these are written, and in the body of a function
the expression becomes a global of its own with these bytes and a zero. -/
namespace BoardPython

open Token (Kind Of)
open Token.Scan (Spells isIndentation isQuote)
open Bytes (ascii)

/-- A string literal as it is written, with the blanks behind it. -/
structure Quoted where
  mark : UInt8
  written : Bytes
  value : Bytes
  blanks : Bytes
  quote : isQuote mark = true
  spells : Spells mark written value
  blank : ∀ b ∈ blanks, isBlank b = true

def Quoted.text (q : Quoted) : Bytes := q.mark :: q.written ++ q.mark :: q.blanks

theorem Quoted.mark_mem (q : Quoted) : q.mark ∈ [ascii '"', 0x27] := by
  simpa [isQuote] using q.quote

namespace Lexer

variable {s : Lexer} {qs : List Quoted}

theorem yield_quoted (q : Quoted) {r : Bytes} (hs : s.rest = q.text ++ r)
    (hstart : s.lineStart = false) : ∃ next : Lexer, next.rest = r ∧ next.lineStart = false ∧
      next.levels = s.levels ∧ next.last = some .string ∧
      s.yield = next.yield.map ((.string, q.value) :: ·) := by
  have hrest : s.rest = q.mark :: (q.written ++ q.mark :: (q.blanks ++ r)) := by
    rw [hs, Quoted.text]
    simp only [List.cons_append, List.append_assoc]
  have htoken : Token.Scan.token? s.rest = some (.string, q.value, q.blanks ++ r) := by
    rw [hrest, Token.Scan.token?_quote q.quote,
      Token.Scan.closed?_of_spells q.quote q.spells]
    rfl
  have hstarts : startsToken s.rest = true := by
    rw [hrest]
    generalize q.written ++ q.mark :: (q.blanks ++ r) = w
    rcases List.mem_cons.mp q.mark_mem with hmark | hmark
    · rw [hmark]
      cases w <;> rfl
    · rw [List.mem_singleton.mp hmark]
      cases w <;> rfl
  let next : Lexer := { s with
    rest := q.blanks ++ r, depth := Kind.depthAfter .string s.depth, last := some .string }
  refine ⟨next.advance q.blanks.length, List.drop_left, hstart, rfl, rfl, ?_⟩
  rw [yield_token hrest (by simp [hstart]) hstarts htoken,
    ← yield_advance_blanks (s := next) hstart rfl q.blank]

theorem yield_literals (qs : List Quoted) (hs : s.rest = qs.flatMap Quoted.text)
    (hstart : s.lineStart = false) (hlevels : s.levels = [])
    (hlast : qs = [] → s.last = some .string) :
    s.yield = some (qs.map (fun q => (Kind.string, q.value)) ++
      [(Kind.newline, []), (Kind.eof, [])]) := by
  induction qs generalizing s with
  | nil =>
    rw [yield_of_nil hs, finish_contents, hlast rfl, hlevels]
    rfl
  | cons q qs ih =>
    obtain ⟨next, hrest, hstart', hlevels', hlast', hyield⟩ := yield_quoted q hs hstart
    rw [hyield, ih hrest hstart' (hlevels'.trans hlevels) fun _ => hlast']
    rfl

theorem tokenContents_eq (text : Bytes) {x : UInt8} {r : Bytes} (hr : text = x :: r)
    (hx : isIndentation x = false ∧ x ≠ ascii '\n' ∧ x ≠ ascii '#') :
    tokenContents text = ({ ofBytes text with lineStart := false } : Lexer).yield := by
  have hlayout : (ofBytes text).layout = .more [] { ofBytes text with lineStart := false } := by
    have hlead : ∀ b ∈ ([] : Bytes), isIndentation b = true := List.forall_mem_nil _
    rw [layout_of_line hr hlead hx.1 hx.2.1 hx.2.2]
    exact indent_same rfl
  have hstep : (ofBytes text).step x = _ := hlayout
  rw [tokenContents_eq_yield, yield_of_silent hr hstep]

theorem tokenContents_literals (first : Quoted) (more : List Quoted) :
    tokenContents ((first :: more).flatMap Quoted.text) =
      some ((first :: more).map (fun q => (Kind.string, q.value)) ++
        [(Kind.newline, []), (Kind.eof, [])]) := by
  have hmarks : ∀ x ∈ [ascii '"', 0x27], isIndentation x = false ∧ x ≠ ascii '\n' ∧
      x ≠ ascii '#' := by decide +kernel
  rw [tokenContents_eq ((first :: more).flatMap Quoted.text) rfl (hmarks _ first.mark_mem)]
  exact yield_literals _ rfl rfl rfl fun hnil => absurd hnil (List.cons_ne_nil _ _)

end Lexer

theorem exists_lineTokens {source : Bytes} {xs : List (Kind × Bytes)}
    (h : tokenContents source = some (xs ++ [(Kind.newline, []), (Kind.eof, [])])) :
    ∃ (ts : List Token) (newline : Of .newline) (eof : Of .eof),
      tokenize source = .ok (ts ++ [newline.val, eof.val]) ∧ ts.map Token.content = xs := by
  unfold tokenContents at h
  cases htokens : tokenize source with
  | error e =>
    rw [htokens] at h
    cases h
  | ok ts =>
    rw [htokens] at h
    obtain ⟨ts, ending, rfl, hts, hending⟩ := List.map_eq_append_iff.mp (Option.some.inj h)
    obtain ⟨newline, rest, rfl, hnewline, hrest⟩ := List.map_eq_cons_iff.mp hending
    obtain ⟨eof, rest, rfl, heof, hnil⟩ := List.map_eq_cons_iff.mp hrest
    obtain rfl := List.map_eq_nil_iff.mp hnil
    exact ⟨ts, ⟨newline, congrArg Prod.fst hnewline⟩, ⟨eof, congrArg Prod.fst heof⟩, rfl, hts⟩

theorem exists_strings {values : List Bytes} {ts : List Token}
    (h : ts.map Token.content = values.map (Prod.mk .string)) :
    ∃ us : List (Of .string), us.map (·.val) = ts ∧ us.map (·.val.text) = values := by
  induction values generalizing ts with
  | nil => exact ⟨[], (List.map_eq_nil_iff.mp h).symm, rfl⟩
  | cons value values ih =>
    obtain ⟨t, ts, rfl, ht, hts⟩ := List.map_eq_cons_iff.mp h
    obtain ⟨us, rfl, rfl⟩ := ih hts
    exact ⟨⟨t, congrArg Prod.fst ht⟩ :: us, rfl, congrArg (· :: _) (congrArg Prod.snd ht)⟩

theorem Parser.runExpr_tokens (d : ExprDerivation .expr) (newline : Of .newline) (eof : Of .eof) :
    runExpr (d.tokens ++ [newline.val, eof.val]) = ⟨some d.tree, none⟩ := by
  have hexpr := complete_expression d (starts_of newline [eof.val] (by decide))
  have haccept : accept .newline [newline.val, eof.val] = .ok (true, [eof.val]) :=
    accept_of_kind newline.property
  have hexpect : expect .eof [eof.val] = .ok (eof.val, []) := expect_of_kind eof.property
  have hending : (do let _ ← accept .newline; let _ ← expect .eof : Parser Unit)
      [newline.val, eof.val] = .ok ((), []) := by
    rw [bind_of_ok haccept, bind_of_ok hexpect]
    rfl
  unfold runExpr
  rw [hexpr]
  dsimp only
  rw [hending]

theorem parseExpr_literals (first : Quoted) (more : List Quoted) :
    ∃ pos, parseExpr ((first :: more).flatMap Quoted.text) =
      ⟨some (.string pos ((first :: more).flatMap (·.value))), none⟩ := by
  obtain ⟨strings, newline, eof, htokens, hstrings⟩ :=
    exists_lineTokens (Lexer.tokenContents_literals first more)
  have hcontents : strings.map Token.content =
      ((first :: more).map (·.value)).map (Prod.mk .string) :=
    hstrings.trans (List.map_map ..).symm
  obtain ⟨us, rfl, hvalues⟩ := exists_strings hcontents
  cases us with
  | nil => cases hvalues
  | cons u us =>
    let d : ExprDerivation .expr := (ExprDerivation.strings u us).alone
    have hrun := Parser.runExpr_tokens d newline eof
    rw [ExprDerivation.tokens_alone] at hrun
    have htree : d.tree = .string u.val.position ((first :: more).flatMap (·.value)) := by
      change Expr.string _ ((u :: us).flatMap (·.val.text)) = _
      rw [List.flatMap_def, List.flatMap_def, hvalues]
    refine ⟨u.val.position, ?_⟩
    rw [parseExpr, htokens, ← htree]
    exact hrun

namespace Lowering

open Relation (ReflTransGen)

theorem State.signature_of_steps {k : Site} {s s' : State} (h : ReflTransGen (Step k) s s') :
    s'.frame.signature = s.frame.signature := by
  induction h with
  | refl => rfl
  | tail _ hstep ih =>
    rw [← ih]
    cases hstep <;> rfl

namespace Compilation

variable {c : Compilation} {d : Definition} {s : State} {e : Emission}

/-- Where lowering the body of a definition comes by: a state, and the code of an expression that is
being lowered in it. -/
def Reaches (c : Compilation) (d : Definition) (s : State) (e : Emission) : Prop :=
  ∃ k : Site, k.env = c.environment ∧ k.names = IsWord ∧
    ReflTransGen (State.Step k) ⟨c.progress, .ofSignature d.signature⟩ s ∧
    ReflTransGen (Emission.Step (s.scene k) c.strict) s.emission e

theorem Reaches.lower_string (h : c.Reaches d s e) (pos : Position) (value : Bytes) :
    lower (s.context c.environment) (.string pos value) e =
      .ok (.str (.register e.register .bytePointer)) { e with
        instrs := e.instrs ++
          [⟨some e.register, .firstByte (literalName (e.strings + 1)) (value.length + 1)⟩]
        globals := e.globals ++ [Emission.literal (e.strings + 1) value]
        register := e.register + 1
        strings := e.strings + 1 } := by
  obtain ⟨k, -, -, hsteps, -⟩ := h
  have hsignature := State.signature_of_steps hsteps
  have hlocals : (s.context c.environment).locals.isSome = true := by
    rw [State.context, Frame.locals?, hsignature]
    rfl
  rw [lower, stringValue, if_pos hlocals]
  rfl

theorem Reaches.named (h : c.Reaches d s e) (hc : c.progress.Named) :
    (s.absorb e).progress.Named := by
  obtain ⟨k, -, hwords, hsteps, hemits⟩ := h
  exact (State.named_absorb (State.named_of_steps hsteps hwords hc).1 hemits).1

theorem Named.atItem (hc : c.Named) (hlawful : c.Lawful) {unit : List Stmt}
    (hunit : ∀ st ∈ unit, Parser.Words st) (i : Nat) :
    (c.atItem unit i).Lawful ∧ (c.atItem unit i).Named := by
  obtain ⟨new, hdefines⟩ := defines_declareAll unit hunit c
  obtain ⟨added, hprogress⟩ := (declares_declareAll unit c).progress
  have hnamed : (c.declareAll unit).1.Named := by
    refine hc.defines hdefines ?_
    rw [hprogress]
    exact hc.globals.of_eq rfl rfl rfl
  obtain ⟨hlawful', hfits⟩ := hlawful.declareAll unit (Parser.words_all hunit)
  refine hlawful'.lowerItems (fun c1 c2 h h1 => ?_) _
    (fun item hitem => hfits item (List.mem_of_mem_take hitem)) hnamed
  obtain ⟨htable, hfunctions, hnamed2, -⟩ := h.named h1.globals
  exact h1.defines ((Defines.refl c1).of_eq hfunctions htable) hnamed2

theorem Reaches.literalName_notMem (h : c.Reaches d s e) (hc : c.Named) :
    literalName (e.strings + 1) ∉
      c.functions.map (·.name) ++ (s.absorb e).progress.globals.map (·.name) := by
  intro hmem
  rcases List.mem_append.mp hmem with hmem | hmem
  · exact not_isWord_literalName _ (hc.of_mem_functions hmem).1
  · obtain ⟨g, hg, hname⟩ := List.mem_map.mp hmem
    exact (h.named hc.globals).ne_literalName g hg hname

theorem reaches_bodyState (hc : c.Named) (hlawful : c.Lawful) {unit : List Stmt}
    (hunit : ∀ st ∈ unit, Parser.Words st) {i : Nat}
    (h : (c.declareAll unit).2[i]? = some (.definition d)) :
    (c.atItem unit i).Reaches d ((c.atItem unit i).bodyState d)
      ((c.atItem unit i).bodyState d).emission := by
  have hitem := (hlawful.declareAll unit (Parser.words_all hunit)).2 _ (List.mem_of_getElem? h)
  have hheaders := headers_lowerItems ((c.declareAll unit).2.take i) (c.declareAll unit).1
  obtain ⟨⟨hproper, f, -, hresult, hparams⟩, hbody⟩ :=
    hitem.mono ⟨[], (List.append_nil _).trans hheaders.symm⟩
  have hsite := (hc.atItem hlawful hunit i).1
  have hadds := (hsite.adds_bodyState hproper hresult hparams hbody).1
  exact ⟨hsite.site f IsWord, rfl, rfl, State.steps_of_adds hadds, .refl⟩

/-- Literals next to each other are one expression with the bytes of all of them. Lowering it in the
body of a function adds a global with these bytes and a zero, under a name that nothing in the module
has so far, and gives the address of its first byte. -/
theorem literals_become_global (first : Quoted) (more : List Quoted) :
    let literals := first :: more
    let value := literals.flatMap (·.value)
    ∃ pos, parseExpr (literals.flatMap Quoted.text) = ⟨some (.string pos value), none⟩ ∧
      ∀ (board : Board) (strict : Bool) (sources : List Bytes) (source : Bytes) (i : Nat)
        (d : Definition) (s : State) (e : Emission),
        let c := ((start board strict .numeric).addSources sources).atItem
          (parseSource source).stmts i
        c.Reaches d s e → ∃ g : Ir.Global,
          (g.isPrivate = true ∧ g.immutable = true ∧ g.unnamedAddr = true) ∧
          g.initial = .bytes (value ++ [0]) ∧
          g.initial.type = .array ((literals.map (·.value.length)).sum + 1) .i8 ∧
          g.name ∉ c.functions.map (·.name) ++ (s.absorb e).progress.globals.map (·.name) ∧
          lower (s.context c.environment) (.string pos value) e =
            .ok (.str (.register e.register .bytePointer)) { e with
              instrs := e.instrs ++
                [⟨some e.register, .firstByte g.name ((literals.map (·.value.length)).sum + 1)⟩]
              globals := e.globals ++ [g]
              register := e.register + 1
              strings := e.strings + 1 } := by
  intro literals value
  obtain ⟨pos, hparse⟩ := parseExpr_literals first more
  refine ⟨pos, hparse, ?_⟩
  intro board strict sources source i d s e c h
  have hlawful := ((lawful_start board strict).addSources sources).1
  have hnamed := ((named_start board strict).addSources (lawful_start board strict) sources).1
  have hc : c.Named := (hnamed.atItem hlawful (words_parseSource source) i).2
  have hlength : value.length = (literals.map (·.value.length)).sum := List.length_flatMap
  refine ⟨Emission.literal (e.strings + 1) value, ⟨rfl, rfl, rfl⟩, rfl, ?_,
    h.literalName_notMem hc, ?_⟩
  · rw [← hlength, ← List.length_singleton (a := (0 : UInt8)), ← List.length_append]
    rfl
  · rw [← hlength]
    exact h.lower_string pos value

section Sample

def switched : Quoted where
  mark := ascii '"'
  written := .ofString "on\\x21"
  value := .ofString "on!"
  blanks := [ascii ' ']
  quote := rfl
  spells := .plain (by decide) (by decide) (by decide) <|
    .plain (by decide) (by decide) (by decide) <| .hex (b := ascii '!') (by decide) (by decide) .nil
  blank := by decide +kernel

def tabbed : Quoted where
  mark := 0x27
  written := .ofString "\\\n\"\\t"
  value := .ofString "\"\t"
  blanks := []
  quote := rfl
  spells := .joined <| .plain (by decide) (by decide) (by decide) <| .short (by decide) .nil
  blank := nofun

/-- The two literals at the end of a function that has two others. -/
theorem literals_become_global_counting :
    let c := (start .uno true .numeric).atItem (parseSource counting).stmts 1
    ∃ d, ((start .uno true .numeric).declareAll (parseSource counting).stmts).2[1]? =
        some (.definition d) ∧
      ∃ pos, parseExpr (.ofString "\"on\\x21\" '\\\n\"\\t'") =
          ⟨some (.string pos (.ofString "on!\"\t")), none⟩ ∧
        let s := c.bodyState d
        c.Reaches d s s.emission ∧ ∃ g : Ir.Global,
          g.initial = .bytes (.ofString "on!\"\t\x00") ∧
          g.name ∉ c.functions.map (·.name) ++
            (s.absorb s.emission).progress.globals.map (·.name) ∧
          lower (s.context c.environment) (.string pos (.ofString "on!\"\t")) s.emission =
            .ok (.str (.register s.emission.register .bytePointer)) { s.emission with
              instrs := [⟨some s.emission.register, .firstByte g.name 6⟩]
              globals := [g]
              register := s.emission.register + 1
              strings := s.emission.strings + 1 } := by
  intro c
  let c₀ := start .uno true .numeric
  have hfree : (c₀.declareAll (parseSource counting).stmts).1.progress.diagnostics.errorCount ≤
      c₀.progress.diagnostics.errorCount := by decide +kernel
  have hname : (parseSource counting).stmts[1]?.bind Stmt.defined? = some "tick" := by
    decide +kernel
  obtain ⟨st, hst, hdefined⟩ := Option.bind_eq_some_iff.mp hname
  obtain ⟨item, hitem, hstands⟩ := item_declareAll _ _ hfree hst
  cases item with
  | statement st' =>
    rw [hstands.2] at hdefined
    cases hdefined
  | definition d =>
    have hreaches := reaches_bodyState (named_start .uno true) (lawful_start .uno true)
      (words_parseSource counting) hitem
    obtain ⟨pos, hparse, hlower⟩ := literals_become_global switched [tabbed]
    obtain ⟨g, -, hinitial, -, hname, hlower⟩ := hlower .uno true [] counting 1 d _ _ hreaches
    exact ⟨d, hitem, pos, hparse, hreaches, g, hinitial, hname, hlower⟩

end Sample

end Compilation

end Lowering

end BoardPython
