import BoardPython.Proofs.StringLiterals
import BoardPython.Proofs.WrittenWords

/-! Integers from text to constant. However an integer is written, with a minus sign or without, it
becomes a constant of sixteen bits with the same remainder, and no code. What begins with a base
letter and is no integer is a syntax error. -/
namespace BoardPython

open Token (Kind Of)
open Token.Scan
open Bytes (ascii)
open Number (Numeral Spelling bases bases_facts)

def withSign (negative : Bool) (text : Bytes) : Bytes :=
  if negative then ascii '-' :: text else text

def signContents (negative : Bool) : List (Kind × Bytes) :=
  if negative then [(.minus, [ascii '-'])] else []

section Tokens

variable {x : UInt8} {u : Bytes}

theorem token?_minus (hx : Bytes.isDigit x = true) :
    token? (ascii '-' :: x :: u) = some (.minus, [ascii '-'], x :: u) := by
  have hoperator : operator? (ascii '-' :: x :: u) = some .minus := by
    refine of_isDigit (P := fun x => operator? (ascii '-' :: x :: u) = some .minus) ?_ hx
    intro n hn
    interval_cases n <;> rfl
  have hnumber : startsNumber (ascii '-' :: x :: u) = false := by
    have hminus : Bytes.isDigit (ascii '-') = false ∧ (ascii '-' == ascii '.') = false := by decide
    rw [startsNumber, hminus.1, hminus.2, Bool.false_and, Bool.or_self]
  have hname : startsName (ascii '-' :: x :: u) = false := startsName_eq_false (by decide) (by decide)
  have hquote : isQuote (ascii '-') = false := by decide
  simp only [token?, hnumber, hname, hquote, hoperator, Bool.false_eq_true, if_false]
  rfl

theorem token?_of_spelling {n : Nat} (h : Spelling n (x :: u)) :
    Bytes.isDigit x = true ∧ token? (x :: u) = some (.number, x :: u, []) := by
  have hend (hx : Bytes.isDigit x = true)
      (hspan : numberSpan (x :: u) = ⟨(x :: u).length, true⟩) :
      token? (x :: u) = some (.number, x :: u, []) := by
    have htoken := token?_of_span (w := []) hx (by rwa [List.append_nil])
    rw [List.append_nil] at htoken
    exact htoken
  cases h with
  | decimal hb h =>
    have hu : ∀ d ∈ u, isDigitOrUnderscore d = true := h.isDigitOrUnderscore
    have hspan := numberSpan_digits (w := []) hb.isDigit hu (by simp)
    rw [List.append_nil] at hspan
    exact ⟨hb.isDigit, hend hb.isDigit hspan⟩
  | based hletter hne h =>
    obtain ⟨hle, -, -, hbase⟩ := bases_facts hletter
    refine ⟨by decide, hend (by decide) ?_⟩
    rw [numberSpan, if_pos (by rw [hbase]; rfl),
      List.takeWhile_eq_self_iff.mpr (h.sprinkled.isHexOrUnderscore hle), Nat.add_comm]
    rfl

theorem token?_based {letter : UInt8} {base : Nat} (hletter : (letter, base) ∈ bases) {cs : List Char}
    (hcs : ∀ c ∈ cs, isAsciiName c = true) :
    let text := ascii '0' :: letter :: cs.map ascii
    token? text = none ∨ token? text = some (.number, text, []) := by
  intro text
  set digits := (cs.map ascii).takeWhile isHexOrUnderscore
  set behind := (cs.map ascii).dropWhile isHexOrUnderscore with hbehind
  have hsplit : text = ascii '0' :: letter :: digits ++ behind := by
    rw [List.cons_append, List.cons_append, List.takeWhile_append_dropWhile]
  have hspan : numberSpan text = ⟨(ascii '0' :: letter :: digits).length, true⟩ := by
    rw [numberSpan, if_pos (by rw [(bases_facts hletter).2.2.2]; rfl), Nat.add_comm]
    rfl
  rw [hsplit] at hspan ⊢
  rw [token?_of_span (by decide) hspan]
  rcases h : behind with _ | ⟨y, r⟩
  · right
    rw [List.append_nil]
    rfl
  · left
    have hy : isHexOrUnderscore y = false := by
      have hhead := List.head?_dropWhile_not isHexOrUnderscore (cs.map ascii)
      rw [← hbehind, h] at hhead
      simpa using hhead
    obtain ⟨c, hc, rfl⟩ : ∃ c ∈ cs, ascii c = y := by
      have hmem : y ∈ behind := h ▸ List.mem_cons_self ..
      exact List.mem_map.mp ((List.dropWhile_sublist _).subset hmem)
    have hlt := toNat_lt_of_isAsciiName (hcs c hc)
    -- The byte belongs to a name and is neither a digit nor an underscore, so it is a letter.
    have halpha : c.isAlpha = true :=
      of_ascii (P := fun c => isAsciiName c = true → isHexOrUnderscore (ascii c) = false →
        c.isAlpha = true) (by decide) hlt (hcs c hc) hy
    have hname : startsName (ascii c :: r) = true := by
      simp only [startsName, decode?_ascii hlt, (isLetter_ascii hlt).1, halpha, Bool.or_true]
    rw [if_pos hname]

end Tokens

namespace Lexer

variable {s : Lexer} {x : UInt8} {u : Bytes}

theorem yield_number (hs : s.rest = x :: u) (hx : Bytes.isDigit x = true)
    (hstart : s.lineStart = false) (hlevels : s.levels = []) :
    (token? (x :: u) = none → s.yield = none) ∧
      (token? (x :: u) = some (.number, x :: u, []) →
        s.yield = some [(.number, x :: u), (.newline, []), (.eof, [])]) := by
  have hline : (s.lineStart && s.depth == 0) = false := by rw [hstart, Bool.false_and]
  have hquiet : x ∉ quiet := of_isDigit (P := (· ∉ quiet)) (by decide) hx
  have hstarts : startsToken s.rest = true := hs ▸ startsToken_of_notMem hquiet
  rw [← hs]
  refine ⟨fun hnone => ?_, fun htoken => ?_⟩
  · rcases readsToken_lexeme hs hstarts with ⟨-, e, stop, hfail⟩ | ⟨k, text, rest, _, _, hsome, -⟩
    · exact yield_of_fail hs ((step_eq_lexeme hline x).trans hfail)
    · rw [hnone] at hsome
      cases hsome
  · rw [yield_token hs hline hstarts htoken, yield_of_nil rfl, finish_contents, hlevels]
    rfl

theorem tokenContents_number (hx : Bytes.isDigit x = true) (negative : Bool) :
    (token? (x :: u) = none → tokenContents (withSign negative (x :: u)) = none) ∧
      (token? (x :: u) = some (.number, x :: u, []) →
        tokenContents (withSign negative (x :: u)) =
          some ((signContents negative ++ [(Kind.number, x :: u)]) ++
            [(Kind.newline, []), (Kind.eof, [])])) := by
  cases negative with
  | false =>
    have hfirst : isIndentation x = false ∧ x ≠ ascii '\n' ∧ x ≠ ascii '#' :=
      of_isDigit (P := fun x => isIndentation x = false ∧ x ≠ ascii '\n' ∧ x ≠ ascii '#')
        (by decide) hx
    rw [tokenContents_eq (withSign false (x :: u)) rfl hfirst]
    exact yield_number rfl hx rfl rfl
  | true =>
    have hminus : isIndentation (ascii '-') = false ∧ ascii '-' ≠ ascii '\n' ∧
        ascii '-' ≠ ascii '#' := by decide
    rw [tokenContents_eq (withSign true (x :: u)) rfl hminus,
      yield_token rfl rfl (startsToken_of_notMem (by decide)) (token?_minus hx)]
    obtain ⟨hnone, hsome⟩ := yield_number (s := { ofBytes (withSign true (x :: u)) with
      lineStart := false, rest := x :: u, depth := Kind.depthAfter .minus 0, last := some .minus })
      rfl hx rfl rfl
    refine ⟨fun h => ?_, fun h => ?_⟩
    · exact (congrArg (Option.map _) (hnone h)).trans rfl
    · exact (congrArg (Option.map _) (hsome h)).trans rfl

end Lexer

namespace Parser

variable {ts : List Token} {expr unary : Parser Expr} {stop : Stop}

theorem Grammar.expr_of_error {inner : Grammar} {t : Token} (hnot : t.kind ≠ .kwNot)
    (hlambda : t.kind ≠ .kwLambda) (h : (layer inner).unary (t :: ts) = .error stop) :
    (layer inner).expr (t :: ts) = .error stop := by
  have hchain {operand : Parser Expr} (ops : List Kind) (node : Position → Kind → Expr → Expr → Expr)
      (h : operand (t :: ts) = .error stop) : leftChain ops node operand (t :: ts) = .error stop :=
    bind_of_error h
  have harithmetic : arithmetic (layer inner).unary (t :: ts) = .error stop :=
    hchain _ _ (hchain _ _ (hchain _ _ (hchain _ _ (hchain _ _ (hchain _ _ h)))))
  have hnegation : (layer inner).negation (t :: ts) = .error stop := by
    refine peek_bind.trans ?_
    rw [if_neg hnot]
    exact bind_of_error harithmetic
  refine peek_bind.trans ?_
  rw [if_neg hlambda]
  exact hchain _ _ (hchain _ _ hnegation)

theorem signed_of_unread (t : Of .number) (h : ∀ value, Numeral.read t.val.text ≠ .ok value) :
    ∃ e, signed expr unary (t.val :: ts) = .error (.fault e) := by
  obtain ⟨e, hatom⟩ : ∃ e, atom expr (t.val :: ts) = .error (.fault e) := by
    unfold atom
    rw [peek_bind, t.property]
    dsimp only
    rw [next_bind, numberAtom]
    cases hread : Numeral.read t.val.text with
    | ok value => exact absurd hread (h value)
    | error fault => cases fault <;> exact ⟨_, rfl⟩
  have hsign : isSign t.val.kind ≠ true := by
    rw [t.property]
    decide
  refine ⟨e, ?_⟩
  rw [signed, peek_bind, if_neg hsign]
  exact bind_of_error (bind_of_error hatom)

theorem expression_of_unread {sign : List Token} (hsign : ∀ m ∈ sign, m.kind = .minus) (t : Of .number)
    (h : ∀ value, Numeral.read t.val.text ≠ .ok value) (rest : List Token) :
    ∃ e, expression (sign ++ t.val :: rest) = .error (.fault e) := by
  have hunary (bound : List Token) (hbound : sign.length ≤ bound.length) :
      ∃ e, (Grammar.upTo bound).unary (sign ++ t.val :: rest) = .error (.fault e) := by
    induction sign generalizing bound with
    | nil =>
      rw [Grammar.upTo_eq_layer]
      exact signed_of_unread t h
    | cons m sign ih =>
      obtain ⟨hm, hsign⟩ := List.forall_mem_cons.mp hsign
      rcases bound with _ | ⟨b, bound⟩
      · exact absurd hbound (Nat.not_succ_le_zero _)
      obtain ⟨e, he⟩ := ih hsign bound (Nat.le_of_succ_le_succ hbound)
      refine ⟨e, ?_⟩
      rw [Grammar.upTo_eq_layer]
      change signed _ _ (m :: (sign ++ t.val :: rest)) = _
      rw [signed, peek_bind, if_pos (by rw [hm]; rfl), next_bind]
      exact bind_of_error he
  obtain ⟨e, he⟩ := hunary (sign ++ t.val :: rest) (by simp)
  refine ⟨e, ?_⟩
  unfold expression
  rw [Grammar.upTo_eq_layer] at he ⊢
  cases sign with
  | nil => exact Grammar.expr_of_error (by rw [t.property]; decide) (by rw [t.property]; decide) he
  | cons m sign =>
    have hm := hsign m (List.mem_cons_self ..)
    exact Grammar.expr_of_error (by rw [hm]; decide) (by rw [hm]; decide) he

end Parser

theorem exists_signTokens {negative : Bool} {text : Bytes} {ts : List Token}
    (h : ts.map Token.content = signContents negative ++ [(Kind.number, text)]) :
    ∃ (sign : List Token) (t : Of .number), ts = sign ++ [t.val] ∧ t.val.text = text ∧
      sign.map Token.content = signContents negative ∧ ∀ m ∈ sign, m.kind = .minus := by
  obtain ⟨sign, number, rfl, hsign, hnumber⟩ := List.map_eq_append_iff.mp h
  obtain ⟨t, rest, rfl, ht, hnil⟩ := List.map_eq_cons_iff.mp hnumber
  obtain rfl := List.map_eq_nil_iff.mp hnil
  refine ⟨sign, ⟨t, congrArg Prod.fst ht⟩, rfl, congrArg Prod.snd ht, hsign, fun m hm => ?_⟩
  have hmem : m.content ∈ signContents negative := hsign ▸ List.mem_map_of_mem hm
  cases negative with
  | false => cases hmem
  | true => exact congrArg Prod.fst (List.mem_singleton.mp hmem)

def Parser.IsInteger (n : Nat) (negative : Bool) (e : Expr) : Prop :=
  ∃ p pos raw, e = if negative then .unary p .minus (.number pos (.int n) raw)
    else .number pos (.int n) raw

theorem parseExpr_integer {n : Nat} {text : Bytes} (h : Spelling n text) (negative : Bool) :
    ∃ e, parseExpr (withSign negative text) = ⟨some e, none⟩ ∧ Parser.IsInteger n negative e := by
  obtain ⟨x, u, rfl⟩ : ∃ x u, text = x :: u := by cases h <;> exact ⟨_, _, rfl⟩
  obtain ⟨hx, htoken⟩ := token?_of_spelling h
  obtain ⟨ts, newline, eof, htokens, hts⟩ :=
    exists_lineTokens ((Lexer.tokenContents_number hx negative).2 htoken)
  obtain ⟨sign, t, rfl, htext, hsign, -⟩ := exists_signTokens hts
  have hread : Numeral.read t.val.text = .ok (.int n) := by rw [htext, Number.read_of_spelling h]
  let d : ExprDerivation .unary := .power (.postfixes (.trailed (.number t (.int n) hread) .stop))
  have hd : d.tokens = [t.val] := by
    simp only [d, ExprDerivation.tokens, TrailDerivation.tokens, List.append_nil]
  have hrun (d' : ExprDerivation .unary) (hd' : d'.tokens = sign ++ [t.val]) :
      parseExpr (withSign negative (x :: u)) = ⟨some d'.whole.tree, none⟩ := by
    rw [parseExpr, htokens, ← hd', ← ExprDerivation.tokens_whole]
    exact Parser.runExpr_tokens _ newline eof
  cases negative with
  | false =>
    obtain rfl := List.map_eq_nil_iff.mp hsign
    exact ⟨d.whole.tree, hrun d hd, t.val.position, _, _, rfl⟩
  | true =>
    obtain ⟨m, rest, rfl, hm, hnil⟩ := List.map_eq_cons_iff.mp hsign
    obtain rfl := List.map_eq_nil_iff.mp hnil
    have hkind : m.kind = .minus := congrArg Prod.fst hm
    let d' : ExprDerivation .unary := .signed ⟨m, by rw [hkind]; decide⟩ d
    have htree : d'.whole.tree = .unary m.position m.kind d.whole.tree := rfl
    refine ⟨d'.whole.tree, hrun d' (by rw [ExprDerivation.tokens, hd]; rfl), ?_⟩
    rw [htree, hkind]
    exact ⟨_, _, _, rfl⟩

theorem parseExpr_based {letter : UInt8} {base : Nat} (hletter : (letter, base) ∈ bases)
    {cs : List Char} (hcs : ∀ c ∈ cs, isAsciiName c = true)
    (h : ∀ n, ¬Spelling n (ascii '0' :: letter :: cs.map ascii)) (negative : Bool) :
    ∃ e, parseExpr (withSign negative (ascii '0' :: letter :: cs.map ascii)) =
      ⟨none, some (.fault e)⟩ := by
  obtain ⟨hnone, hsome⟩ := Lexer.tokenContents_number (x := ascii '0')
    (u := letter :: cs.map ascii) (by decide) negative
  rcases token?_based hletter hcs with htoken | htoken
  · have hcontents := hnone htoken
    unfold tokenContents at hcontents
    unfold parseExpr
    cases htokens : tokenize (withSign negative (ascii '0' :: letter :: cs.map ascii)) with
    | error e => exact ⟨e, rfl⟩
    | ok ts =>
      rw [htokens] at hcontents
      cases hcontents
  · obtain ⟨ts, newline, eof, htokens, hts⟩ := exists_lineTokens (hsome htoken)
    obtain ⟨sign, t, rfl, htext, -, hsign⟩ := exists_signTokens hts
    have hunread (value : Numeral) : Numeral.read t.val.text ≠ .ok value := by
      intro hread
      rw [htext] at hread
      obtain ⟨n, hn⟩ := Number.exists_of_read hletter hread
      exact h n hn
    obtain ⟨e, he⟩ := Parser.expression_of_unread hsign t hunread [newline.val, eof.val]
    refine ⟨e, ?_⟩
    rw [parseExpr, htokens, List.append_assoc]
    dsimp only
    rw [Parser.runExpr, List.singleton_append, he]

namespace Lowering

theorem State.absorb_emission (s : State) : s.absorb s.emission = s := by
  have hbody : s.frame.body.append s.frame.body.current [] = s.frame.body := by
    have hid : s.frame.body.blocks.map (fun block =>
        if block.label = s.frame.body.current then { block with instrs := block.instrs ++ [] }
        else block) = s.frame.body.blocks.map id := by
      refine List.map_congr_left fun block _ => ?_
      split
      · rw [List.append_nil]
        rfl
      · rfl
    rw [Body.append, Body.update, hid, List.map_id]
  simp only [absorb, emission, Emission.start, List.append_nil, hbody]

theorem value_integer {n : Nat} {negative : Bool} {e : Expr} (h : Parser.IsInteger n negative e)
    (env : Environment) (s : State) : Lower.value env e s =
      .ok (.i16 (.const (.int 16 (wrap16 (if negative then -n else n))))) s := by
  have hemit {x : Emit Value} {v : Value} (hx : ∀ em, x em = .ok v em) : Lower.emit x s = .ok v s := by
    rw [Lower.emit, hx]
    exact congrArg _ s.absorb_emission
  obtain ⟨p, pos, raw, rfl⟩ := h
  cases negative with
  | false | true => exact hemit fun em => rfl

/-- Every spelling of an integer, with a minus sign or without, is a constant of sixteen bits with the
same remainder in every state of lowering, and that takes no code. What begins with a base letter and
spells nothing is rejected. -/
theorem integers_become_constants :
    (∀ (n : Nat) (text : Bytes), Spelling n text → ∀ negative : Bool, ∃ (e : Expr) (k : Int),
      parseExpr (withSign negative text) = ⟨some e, none⟩ ∧
      (-32768 ≤ k ∧ k ≤ 32767) ∧ k ≡ (if negative then -n else n) [ZMOD 65536] ∧
      ∀ (env : Environment) (s : State),
        Lower.value env e s = .ok (.i16 (.const (.int 16 k))) s) ∧
    ∀ (letter : UInt8) (base : Nat) (cs : List Char), (letter, base) ∈ bases →
      (∀ c ∈ cs, isAsciiName c = true) →
      (∀ n, ¬Spelling n (ascii '0' :: letter :: cs.map ascii)) → ∀ negative : Bool, ∃ e,
        parseExpr (withSign negative (ascii '0' :: letter :: cs.map ascii)) =
          ⟨none, some (.fault e)⟩ := by
  refine ⟨fun n text h negative => ?_, fun letter base cs hletter hcs h => parseExpr_based hletter hcs h⟩
  obtain ⟨e, hparse, he⟩ := parseExpr_integer h negative
  refine ⟨e, _, hparse, ⟨?_, ?_⟩, ?_, value_integer he⟩
  · exact Int.le_bmod (by decide)
  · exact Int.le_of_lt_add_one (Int.bmod_lt (by decide))
  · exact Int.bmod_emod

def hexText : Bytes := ['0', 'x', '1', '_', 'f', 'f', 'F', 'F'].map ascii

theorem integers_become_constants_hexText :
    (Spelling 131071 hexText ∧ ∃ e, parseExpr (withSign true hexText) = ⟨some e, none⟩ ∧
      ∀ (env : Environment) (s : State), Lower.value env e s = .ok (.i16 (.const (.int 16 1))) s) ∧
    ∃ e, parseExpr (withSign false (['0', 'b', '1', '2'].map ascii)) = ⟨none, some (.fault e)⟩ := by
  have hspelling : Spelling 131071 hexText :=
    .based (by decide : (ascii 'x', 16) ∈ bases) (by decide : [1, 15, 15, 15, 15] ≠ [])
      (.digit ⟨by decide, .inl rfl⟩ (.separated ⟨by decide, .inl rfl⟩ (.digit ⟨by decide, .inl rfl⟩
        (.digit ⟨by decide, .inr rfl⟩ (.digit ⟨by decide, .inr rfl⟩ .nil)))))
  have hnone (n : Nat) : ¬Spelling n (['0', 'b', '1', '2'].map ascii) := by
    intro h
    have hread := Number.read_of_spelling h
    have herror : Numeral.read (['0', 'b', '1', '2'].map ascii) = .error .integer := by decide
    rw [herror] at hread
    cases hread
  obtain ⟨haccepted, hrejected⟩ := integers_become_constants
  refine ⟨⟨hspelling, ?_⟩, ?_⟩
  · obtain ⟨e, k, hparse, ⟨hlow, hhigh⟩, hmod, hvalue⟩ := haccepted _ _ hspelling true
    have hk : k = 1 := by
      simp only [Int.ModEq, if_true] at hmod
      omega
    exact ⟨e, hparse, hk ▸ hvalue⟩
  · have hcs : ['1', '2'].all isAsciiName = true := by decide
    exact hrejected (ascii 'b') 2 ['1', '2'] (by decide) (List.all_eq_true.mp hcs) hnone false

end Lowering

end BoardPython
