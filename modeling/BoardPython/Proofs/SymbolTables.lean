import BoardPython.Proofs.DeclarationSteps
import BoardPython.Proofs.GuardedDeclarations

/-! The tables of names and the module they describe. Each global variable is kept in a global of the
module, and each global but the string literals keeps one variable. Each entry of the table of
functions describes a function of the module that no other entry describes. This is so after any
units, also after those that fail. -/
namespace BoardPython

/-- Both are string literals, or they can be told apart by their names. -/
def Ir.Global.Apart (g g' : Ir.Global) : Prop := g.IsLiteral ∧ g'.IsLiteral ∨ g.name ≠ g'.name

instance : Std.Symm Ir.Global.Apart := ⟨fun _ _ h => h.imp And.symm Ne.symm⟩

theorem Ir.Global.IsLiteral.of_name {g g' : Ir.Global} (h : g.IsLiteral) (hname : g'.name = g.name)
    :
    g'.IsLiteral := h.imp fun _ hnumber => hname.trans hnumber

namespace Lowering

/-- A variable is kept in a global of its name, whose content represents values of its type. -/
structure Symbol.KeptIn (symbol : Symbol) (g : Ir.Global) : Prop where
  name : g.name = symbol.name
  storage : symbol.storage = .module g.immutable
  content : g.initial.type = symbol.type.ir

/-- The module of a table: each entry describes a function of the module that no other entry
describes. -/
structure FunctionTable.Describes (t : FunctionTable) (functions : List Ir.Function) : Prop where
  params : ∀ e ∈ t.entries, e.2.callee.params = e.2.params.map ValueType.ir
  result : ∀ e ∈ t.entries, e.2.callee.result = e.2.result.ir
  refers : ∀ e ∈ t.entries, e.2.callee.Refers functions
  apart : t.entries.Pairwise fun e e' => e.1 ≠ e'.1 ∧ e.2.callee.id ≠ e'.2.callee.id

/-- Names mean in the module what they mean in the tables. -/
structure Compilation.Consistent (c : Compilation) : Prop where
  /-- A global variable has a value, and one global to keep it in. -/
  symbols : ∀ symbol ∈ c.progress.scope.symbols, symbol.type ≠ .void ∧
    ∃! g, g ∈ c.progress.globals ∧ symbol.KeptIn g
  /-- A global that is no string literal keeps one variable. -/
  globals : ∀ g ∈ c.progress.globals, ¬g.IsLiteral →
    ∃! symbol, symbol ∈ c.progress.scope.symbols ∧ symbol.KeptIn g
  /-- No two globals but string literals have the same name. -/
  apart : c.progress.globals.Pairwise Ir.Global.Apart
  functions : c.table.Describes c.functions

/-! ### Variables -/

structure Progress.Paired (p : Progress) : Prop where
  nodup : p.scope.names.Nodup
  words : ∀ symbol ∈ p.scope.symbols, IsWord symbol.name
  types : ∀ symbol ∈ p.scope.symbols, symbol.type.zero?.isSome
  kept : ∀ symbol ∈ p.scope.symbols, ∃ g ∈ p.globals, symbol.KeptIn g
  owned : ∀ g ∈ p.globals, ¬g.IsLiteral → ∃ symbol ∈ p.scope.symbols, symbol.KeptIn g
  apart : p.globals.Pairwise Ir.Global.Apart

theorem Symbol.KeptIn.not_isLiteral {symbol : Symbol} {g : Ir.Global} (h : symbol.KeptIn g)
    (hword : IsWord symbol.name) : ¬g.IsLiteral := by
  rintro ⟨number, hnumber⟩
  rw [← h.name, hnumber] at hword
  exact not_isWord_literalName number hword

namespace Progress.Paired

variable {p p' : Progress}

theorem addLiterals (hp : p.Paired) {new : List Ir.Global} (hscope : p'.scope = p.scope)
    (hglobals : p'.globals = p.globals ++ new) (hnew : ∀ g ∈ new, g.IsLiteral) : p'.Paired := by
  refine ⟨hscope ▸ hp.nodup, hscope ▸ hp.words, hscope ▸ hp.types, ?_, ?_, ?_⟩
  · intro symbol hsymbol
    obtain ⟨g, hg, hkept⟩ := hp.kept symbol (hscope ▸ hsymbol)
    exact ⟨g, hglobals ▸ List.mem_append_left new hg, hkept⟩
  · intro g hg hliteral
    rw [hglobals] at hg
    rcases List.mem_append.mp hg with hg | hg
    · rw [hscope]
      exact hp.owned g hg hliteral
    · exact absurd (hnew g hg) hliteral
  · rw [hglobals, List.pairwise_append]
    refine ⟨hp.apart, List.pairwise_of_forall_mem_list ?_, fun g _ g' hg' => ?_⟩
    · exact fun g hg g' hg' => .inl ⟨hnew g hg, hnew g' hg'⟩
    · by_cases hname : g.name = g'.name
      · exact .inl ⟨(hnew g' hg').of_name hname, hnew g' hg'⟩
      · exact .inr hname

theorem declareGlobal {s : State} (hs : s.progress.Paired) {name : String} {type : ValueType}
    {initial : Ir.Constant} (htype : type.zero?.isSome) (hinitial : initial.type = type.ir)
    (hfree : s.progress.scope.find? name = none) (hname : IsWord name) :
    (Lower.after (Lower.declareGlobal name type initial) s).progress.Paired := by
  set symbol : Symbol := ⟨name, type, .module false⟩
  set g : Ir.Global := ⟨name, initial, false, false, false⟩
  have hkept : symbol.KeptIn g := ⟨rfl, rfl, hinitial⟩
  have hnew : name ∉ s.progress.scope.names := Scope.find?_eq_none_iff.mp hfree
  set p' := (Lower.after (Lower.declareGlobal name type initial) s).progress
  have hscope : p'.scope.symbols = s.progress.scope.symbols ++ [symbol] := by
    have hnone : s.progress.scope.find? symbol.name = none := hfree
    exact Scope.symbols_declare hnone
  have hglobals : p'.globals = s.progress.globals ++ [g] := rfl
  have hall {P : Symbol → Prop} (hold : ∀ symbol ∈ s.progress.scope.symbols, P symbol)
      (hsymbol : P symbol) : ∀ symbol ∈ p'.scope.symbols, P symbol := by
    rw [hscope]
    exact List.forall_mem_append.mpr ⟨hold, List.forall_mem_singleton.mpr hsymbol⟩
  refine ⟨?_, hall hs.words hname, hall hs.types htype, hall ?_ ?_, ?_, ?_⟩
  · unfold Scope.names
    rw [hscope, List.map_append]
    refine List.nodup_append.mpr ⟨hs.nodup, List.nodup_singleton _, fun x hx y hy hxy => ?_⟩
    rw [hxy, List.mem_singleton.mp hy] at hx
    exact hnew hx
  · intro symbol' hsymbol'
    obtain ⟨g', hg', hkept'⟩ := hs.kept symbol' hsymbol'
    exact ⟨g', List.mem_append_left _ hg', hkept'⟩
  · exact ⟨g, List.mem_append_right _ (List.mem_singleton_self g), hkept⟩
  · intro g' hg' hliteral
    rw [hscope]
    rcases List.mem_append.mp hg' with hg' | hg'
    · obtain ⟨symbol', hsymbol', hkept'⟩ := hs.owned g' hg' hliteral
      exact ⟨symbol', List.mem_append_left _ hsymbol', hkept'⟩
    · rw [List.mem_singleton.mp hg']
      exact ⟨symbol, List.mem_append_right _ (List.mem_singleton_self symbol), hkept⟩
  · rw [hglobals, List.pairwise_append]
    refine ⟨hs.apart, List.pairwise_singleton _ _, fun g' hg' g'' hg'' => .inr fun heq => ?_⟩
    rw [List.mem_singleton.mp hg''] at heq
    -- A global of the new name would be no literal, and keep a variable of that name.
    have hliteral : ¬g'.IsLiteral := fun h => hkept.not_isLiteral hname (h.of_name heq.symm)
    obtain ⟨symbol', hsymbol', hkept'⟩ := hs.owned g' hg' hliteral
    exact hnew (List.mem_map.mpr ⟨symbol', hsymbol', hkept'.name.symm.trans heq⟩)

theorem unique_symbol (hp : p.Paired) {symbol symbol' : Symbol} {g : Ir.Global}
    (hsymbol : symbol ∈ p.scope.symbols) (hsymbol' : symbol' ∈ p.scope.symbols)
    (hkept : symbol.KeptIn g) (hkept' : symbol'.KeptIn g) : symbol' = symbol :=
  List.inj_on_of_nodup_map hp.nodup hsymbol' hsymbol (hkept'.name.symm.trans hkept.name)

theorem eq_of_name (hp : p.Paired) {symbol : Symbol} {g g' : Ir.Global}
    (hsymbol : symbol ∈ p.scope.symbols) (hg : g ∈ p.globals) (hg' : g' ∈ p.globals)
    (hkept : symbol.KeptIn g) (hname : g'.name = g.name) : g' = g := by
  by_contra hne
  rcases hp.apart.forall hg' hg hne with hliterals | hnames
  · exact hkept.not_isLiteral (hp.words symbol hsymbol) hliterals.2
  · exact hnames hname

end Progress.Paired

theorem Progress.stable_paired : Compilation.Stable IsWord fun s => s.progress.Paired where
  change s s' h hs := by
    cases h with
    | keep hscope hlocals hglobals hitems =>
      obtain ⟨new, hnew, hliterals⟩ := hglobals
      exact hs.addLiterals hscope hnew hliterals
    | report => exact hs.addLiterals rfl (List.append_nil _).symm (List.forall_mem_nil _)
    | declareLocal htype => exact hs
    | declareGlobal htype hinitial hfree hname => exact hs.declareGlobal htype hinitial hfree hname
  enter _ _ hs := hs
  leave _ _ _ hs' := hs'

/-! ### Functions -/

namespace FunctionTable.Describes

variable {t : FunctionTable} {functions functions' : List Ir.Function}

theorem mono (ht : t.Describes functions)
    (hheaders : functions.map Ir.Function.header <+: functions'.map Ir.Function.header) :
    t.Describes functions' :=
  { ht with refers := fun e he => (ht.refers e he).mono hheaders }

theorem declare (ht : t.Describes functions) {key : String} {f : Signature} {new : Ir.Function}
    (hfree : t.find? key = none) (hid : f.callee.id = functions.length)
    (hparams : f.callee.params = f.params.map ValueType.ir)
    (hresult : f.callee.result = f.result.ir)
    (hrefers : f.callee.Refers (functions ++ [new])) :
    (t.declare key f).Describes (functions ++ [new]) := by
  have hentries : (t.declare key f).entries = t.entries ++ [(key, f)] := by
    unfold FunctionTable.declare declare?
    rw [hfree]
    rfl
  have hheaders : functions.map Ir.Function.header <+:
      (functions ++ [new]).map Ir.Function.header := by
    rw [List.map_append]
    exact List.prefix_append _ _
  have hall {P : String × Signature → Prop} (hold : ∀ e ∈ t.entries, P e) (hnew : P (key, f)) :
      ∀ e ∈ (t.declare key f).entries, P e := by
    rw [hentries]
    exact List.forall_mem_append.mpr ⟨hold, List.forall_mem_singleton.mpr hnew⟩
  refine ⟨hall ht.params hparams, hall ht.result hresult,
    hall (fun e he => (ht.refers e he).mono hheaders) hrefers, ?_⟩
  rw [hentries, List.pairwise_append]
  refine ⟨ht.apart, List.pairwise_singleton _ _, fun e he e' he' => ?_⟩
  rw [List.mem_singleton.mp he']
  obtain ⟨g, hg, -⟩ := ht.refers e he
  have hlt : e.2.callee.id < functions.length := (List.getElem?_eq_some_iff.mp hg).1
  refine ⟨fun heq => ?_, hid ▸ Nat.ne_of_lt hlt⟩
  rw [find?, Option.map_eq_none_iff, List.find?_eq_none] at hfree
  exact hfree e he (beq_iff_eq.mpr heq)

end FunctionTable.Describes

namespace Compilation

variable {c : Compilation}

theorem params_declaration (name : String) {params : List String} {types : List ValueType}
    (result : ValueType) (hlength : types.length = params.length) :
    (declaration name params types result).params.map (·.type) = types.map ValueType.ir := by
  calc (declaration name params types result).params.map (·.type)
      = ((params.zip types).map Prod.snd).map ValueType.ir := by
        simp [declaration, Function.comp_def]
    _ = types.map ValueType.ir := by rw [List.map_snd_zip (Nat.le_of_eq hlength)]

theorem describes_define {pos : Position} {name : String} {params : List Param}
    {returns : Option String} {body : List Stmt} {c' : Compilation} {d : Definition}
    (hc : c.table.Describes c.functions) (h : c.define pos name params returns body = .ok (c', d)) :
    c'.table.Describes c'.functions := by
  obtain ⟨hfree, -, result, types, -, htypes, hd, hc'⟩ := define_eq_ok h
  have hlength : types.length = (params.map (·.name)).length :=
    (paramTypes_eq_ok htypes).1.trans (List.length_map _).symm
  subst hd hc'
  refine hc.declare hfree rfl (params_declaration name result hlength) rfl ⟨_, ?_, rfl, rfl, rfl⟩
  exact List.getElem?_concat_length

theorem describes_declareAll (unit : List Stmt) (hc : c.table.Describes c.functions) :
    (c.declareAll unit).1.table.Describes (c.declareAll unit).1.functions :=
  declareAll_induction
    (R := fun c c' => c.table.Describes c.functions → c'.table.Describes c'.functions)
    (fun _ h => h) (fun _ _ _ ih => ih) (fun h ih hc => ih (describes_define hc h)) unit c hc

theorem describes_lowerUnit (unit : List Stmt) (hc : c.table.Describes c.functions) :
    (c.lowerUnit unit).table.Describes (c.lowerUnit unit).functions := by
  obtain ⟨log, heq⟩ := c.lowerUnit_eq unit
  have htable : (c.lowerUnit unit).table = (c.declareAll unit).1.table :=
    congrArg Environment.functions (environment_lowerItems (c.declareAll unit).2 (c.declareAll unit).1)
  rw [htable]
  refine (describes_declareAll unit hc).mono ?_
  rw [heq]
  dsimp only
  rw [headers_lowerItems]

theorem describes_lowerUnits (units : List (List Stmt)) (hc : c.table.Describes c.functions) :
    (units.foldl lowerUnit c).table.Describes (units.foldl lowerUnit c).functions := by
  induction units generalizing c with
  | nil => exact hc
  | cons unit units ih => exact ih (describes_lowerUnit unit hc)

/-! ### All units -/

theorem paired_start (board : Board) (strict : Bool) (operators : Operators) :
    (start board strict operators).progress.Paired := by
  have hnodup : Builtin.scope.names.Nodup := by decide
  have hsymbols : ∀ symbol ∈ Builtin.scope.symbols, IsWord symbol.name ∧ symbol.type.zero?.isSome ∧
      ∃ g ∈ Builtin.globals, g.name = symbol.name ∧ symbol.storage = .module g.immutable ∧
        g.initial.type = symbol.type.ir := by
    decide
  have hglobals : ∀ g ∈ Builtin.globals, ∃ symbol ∈ Builtin.scope.symbols, g.name = symbol.name ∧
      symbol.storage = .module g.immutable ∧ g.initial.type = symbol.type.ir := by
    decide
  have hapart : Builtin.globals.Pairwise fun g g' => g.name ≠ g'.name := by decide
  refine ⟨hnodup, fun symbol hsymbol => (hsymbols symbol hsymbol).1,
    fun symbol hsymbol => (hsymbols symbol hsymbol).2.1, fun symbol hsymbol => ?_,
    fun g hg _ => ?_, hapart.imp .inr⟩
  · obtain ⟨-, -, g, hg, hname, hstorage, hcontent⟩ := hsymbols symbol hsymbol
    exact ⟨g, hg, hname, hstorage, hcontent⟩
  · obtain ⟨symbol, hsymbol, hname, hstorage, hcontent⟩ := hglobals g hg
    exact ⟨symbol, hsymbol, hname, hstorage, hcontent⟩

theorem describes_start (board : Board) (strict : Bool) (operators : Operators) :
    (start board strict operators).table.Describes (start board strict operators).functions := by
  have hentries : ∀ e ∈ Builtin.table.entries, e.2.callee.params = e.2.params.map ValueType.ir ∧
      e.2.callee.result = e.2.result.ir ∧
      e.2.callee.Refers (Builtin.all.map Builtin.declaration ++ [initHeader]) := by
    decide
  have hapart : Builtin.table.entries.Pairwise fun e e' =>
      e.1 ≠ e'.1 ∧ e.2.callee.id ≠ e'.2.callee.id := by
    decide
  exact ⟨fun e he => (hentries e he).1, fun e he => (hentries e he).2.1,
    fun e he => (hentries e he).2.2, hapart⟩

theorem consistent_of_paired (hpaired : c.progress.Paired)
    (hfunctions : c.table.Describes c.functions) : c.Consistent := by
  refine ⟨fun symbol hsymbol => ⟨?_, ?_⟩, fun g hg hliteral => ?_, hpaired.apart, hfunctions⟩
  · intro hvoid
    have hzero := hpaired.types symbol hsymbol
    rw [hvoid] at hzero
    cases hzero
  · obtain ⟨g, hg, hkept⟩ := hpaired.kept symbol hsymbol
    refine ⟨g, ⟨hg, hkept⟩, ?_⟩
    rintro g' ⟨hg', hkept'⟩
    exact hpaired.eq_of_name hsymbol hg hg' hkept (hkept'.name.trans hkept.name.symm)
  · obtain ⟨symbol, hsymbol, hkept⟩ := hpaired.owned g hg hliteral
    refine ⟨symbol, ⟨hsymbol, hkept⟩, ?_⟩
    rintro symbol' ⟨hsymbol', hkept'⟩
    exact hpaired.unique_symbol hsymbol hsymbol' hkept hkept'

theorem paired_lowerUnits {operators : Operators} (hoperators : operators.Lawful) (board : Board)
    (strict : Bool) (sources : List Bytes) :
    ((sources.map fun source => (parseSource source).stmts).foldl lowerUnit
      (start board strict operators)).progress.Paired := by
  refine Progress.stable_paired.lowerUnits (c := start board strict operators) hoperators ?_
    (paired_start board strict operators)
  intro unit hunit
  obtain ⟨source, -, rfl⟩ := List.mem_map.mp hunit
  exact Parser.words_all (words_parseSource source)

/-- After any units that have been parsed, whether they were accepted or not, the tables of names are
consistent with the module. And lowering that looks at the outcome of every declaration gives the
same: no name was taken when it was declared. -/
theorem tables_consistent {operators : Operators} (hoperators : operators.Lawful) (board : Board)
    (strict : Bool) (sources : List Bytes) :
    let units := sources.map fun source => (parseSource source).stmts
    (units.foldl lowerUnit (start board strict operators)).Consistent ∧
      Guarded.lowerUnits board strict operators units =
        some (units.foldl lowerUnit (start board strict operators)) := by
  intro units
  exact ⟨consistent_of_paired (paired_lowerUnits hoperators board strict sources)
      (describes_lowerUnits units (describes_start ..)),
    Guarded.lowerUnits_eq board strict operators units⟩

section Sample

/-- An assignment that makes its variable and then fails, and a function that is defined twice. -/
def halfDone : Bytes :=
  .ofString "n: str = 1\ndef tick(step):\n    low = step\ndef tick():\n    print(\"off\")\n"

theorem halfDone_tables_consistent :
    Operators.numeric.recording.Lawful ∧
    let c := [(parseSource halfDone).stmts].foldl lowerUnit (start .uno true Operators.numeric.recording)
    c.diagnostics.errorCount = 2 ∧
      (∃! g, g ∈ c.progress.globals ∧ Symbol.KeptIn ⟨"n", .str, .module false⟩ g) ∧
      (∃ e ∈ c.table.entries, e.1 = "tick" ∧ e.2.params = [.i16] ∧ e.2.callee.Refers c.functions) ∧
      Guarded.lowerUnits .uno true Operators.numeric.recording [(parseSource halfDone).stmts] =
        some c := by
  have hlawful := Operators.lawful_numeric.recording
  refine ⟨hlawful, ?_⟩
  intro c
  obtain ⟨hconsistent, hguarded⟩ := tables_consistent hlawful .uno true [halfDone]
  have herrors : c.diagnostics.errorCount = 2 := by decide +kernel
  have hsymbol : (⟨"n", .str, .module false⟩ : Symbol) ∈ c.progress.scope.symbols := by decide +kernel
  have hentry : ∃ e ∈ c.table.entries, e.1 = "tick" ∧ e.2.params = [.i16] := by decide +kernel
  obtain ⟨e, he, hkey, hparams⟩ := hentry
  exact ⟨herrors, (hconsistent.symbols _ hsymbol).2,
    ⟨e, he, hkey, hparams, hconsistent.functions.refers e he⟩, hguarded⟩

end Sample

end Compilation

end Lowering

end BoardPython
