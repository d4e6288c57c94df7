import BoardPython.Proofs.Machine

/-! The typing rules of the intermediate representation. Operands carry a type, and they are well
typed only if what they refer to is there and has that type: a register is the result of an
instruction of the same function, and an address is that of a global with such contents. -/
namespace BoardPython.Ir

/-- What code can refer to. -/
structure Scene where
  /-- The operands that are there, with their types. -/
  holds : Operand → Prop
  /-- The functions that can be called. -/
  calls : Callee → Prop

namespace Scene

def full : Scene := ⟨fun _ => True, fun _ => True⟩

structure Le (σ τ : Scene) : Prop where
  holds : ∀ x, σ.holds x → τ.holds x
  calls : ∀ f, σ.calls f → τ.calls f

theorem Le.refl (σ : Scene) : σ.Le σ := ⟨fun _ h => h, fun _ h => h⟩

variable {σ τ : Scene}

theorem Le.trans {υ : Scene} (h : σ.Le τ) (h' : τ.Le υ) : σ.Le υ :=
  ⟨fun x hx => h'.holds x (h.holds x hx), fun f hf => h'.calls f (h.calls f hf)⟩

def Has (σ : Scene) (x : Operand) (t : Ty) : Prop := σ.holds x ∧ x.type = t

theorem Has.mono {x : Operand} {t : Ty} (hx : σ.Has x t) (h : σ.Le τ) : τ.Has x t :=
  ⟨h.holds x hx.1, hx.2⟩

end Scene

/-- An operation is well typed. If it is `strict`, then calls have all of their arguments. -/
inductive Operation.Typed (σ : Scene) (strict : Bool) : Operation → Prop
  | int {op : BinaryOp} {x y : Operand} {bits : Nat} (hop : op.isFloat = false)
      (hx : σ.Has x (.int bits)) (hy : σ.Has y (.int bits)) : Typed σ strict (.binary op x y)
  | float {op : BinaryOp} {x y : Operand} (hop : op.isFloat = true) (hx : σ.Has x .float)
      (hy : σ.Has y .float) : Typed σ strict (.binary op x y)
  | icmp {order : Order} {x y : Operand} {bits : Nat} (hx : σ.Has x (.int bits))
      (hy : σ.Has y (.int bits)) : Typed σ strict (.icmp order x y)
  | fcmp {order : Order} {x y : Operand} (hx : σ.Has x .float) (hy : σ.Has y .float) :
      Typed σ strict (.fcmp order x y)
  | trunc {x : Operand} {bits width : Nat} (hlt : width < bits) (hx : σ.Has x (.int bits)) :
      Typed σ strict (.convert .trunc x (.int width))
  | sext {x : Operand} {bits width : Nat} (hlt : bits < width) (hx : σ.Has x (.int bits)) :
      Typed σ strict (.convert .sext x (.int width))
  | sitofp {x : Operand} {bits : Nat} (hx : σ.Has x (.int bits)) :
      Typed σ strict (.convert .sitofp x .float)
  | alloca {type : Ty} : Typed σ strict (.alloca type)
  | load {type : Ty} {address : Operand} (ha : σ.Has address (.pointer type)) :
      Typed σ strict (.load type address)
  | store {x address : Operand} {type : Ty} (hx : σ.Has x type)
      (ha : σ.Has address (.pointer type)) : Typed σ strict (.store x address)
  | firstByte {name : String} {length : Nat} (h : σ.holds (.global name (.array length .i8))) :
      Typed σ strict (.firstByte name length)
  | call {tail : Bool} {f : Callee} {args : List Operand} (hf : σ.calls f)
      (hargs : List.Forall₂ σ.Has args (f.params.take args.length))
      (hstrict : strict = true → args.length = f.params.length) :
      Typed σ strict (.call tail f args)

variable {σ τ : Scene} {strict : Bool} {result : Ty}

theorem Operation.Typed.mono {op : Operation} (h : op.Typed σ strict) (hle : σ.Le τ) :
    op.Typed τ strict := by
  cases h with
  | int hop hx hy => exact .int hop (hx.mono hle) (hy.mono hle)
  | float hop hx hy => exact .float hop (hx.mono hle) (hy.mono hle)
  | icmp hx hy => exact .icmp (hx.mono hle) (hy.mono hle)
  | fcmp hx hy => exact .fcmp (hx.mono hle) (hy.mono hle)
  | trunc hlt hx => exact .trunc hlt (hx.mono hle)
  | sext hlt hx => exact .sext hlt (hx.mono hle)
  | sitofp hx => exact .sitofp (hx.mono hle)
  | alloca => exact .alloca
  | load ha => exact .load (ha.mono hle)
  | store hx ha => exact .store (hx.mono hle) (ha.mono hle)
  | firstByte h => exact .firstByte (hle.holds _ h)
  | call hf hargs hstrict =>
    have hargs' := hargs.imp fun x t hx => Scene.Has.mono hx hle
    exact .call (hle.calls _ hf) hargs' hstrict

/-- The end of a block of a function with results of type `result` is well typed. -/
def Terminator.Typed (σ : Scene) (result : Ty) : Terminator → Prop
  | .ret none => result = .void
  | .ret (some x) => result ≠ .void ∧ σ.Has x result
  | .jump _ => True
  | .branch cond _ _ => σ.Has cond .i1

theorem Terminator.Typed.mono {t : Terminator} (h : t.Typed σ result) (hle : σ.Le τ) :
    t.Typed τ result := by
  cases t with
  | ret x =>
    cases x with
    | none => exact h
    | some x => exact ⟨h.1, h.2.mono hle⟩
  | jump target => trivial
  | branch cond yes no => exact Scene.Has.mono h hle

/-- Blocks are well typed as the body of a function with results of type `result`. -/
structure Blocks.Typed (σ : Scene) (strict : Bool) (result : Ty) (blocks : List Block) : Prop where
  code : ∀ b ∈ blocks, ∀ i ∈ b.instrs, i.operation.Typed σ strict
  ends : ∀ b ∈ blocks, ∀ t ∈ b.terminator, t.Typed σ result

theorem Blocks.Typed.mono {blocks : List Block}
    (h : Blocks.Typed σ strict result blocks) (hle : σ.Le τ) :
    Blocks.Typed τ strict result blocks where
  code b hb i hi := (h.code b hb i hi).mono hle
  ends b hb t ht := (h.ends b hb t ht).mono hle

/-- What an operand stands for is there: a global with such contents, a parameter of the function
or the result of one of its instructions. -/
def Operand.Refers (globals : List Global) (params : List Param) (code : List Instr) :
    Operand → Prop
  | .const _ => True
  | .register id type => ∃ i ∈ code, i.result = some id ∧ i.operation.type = type
  | .param name type => ⟨some name, type⟩ ∈ params
  | .global name content => ∃ g ∈ globals, g.name = name ∧ g.initial.type = content

theorem Operand.Refers.mono {globals globals' : List Global} {params params' : List Param}
    {code code' : List Instr} {x : Operand} (h : x.Refers globals params code)
    (hglobals : globals ⊆ globals') (hparams : params ⊆ params') (hcode : code ⊆ code') :
    x.Refers globals' params' code' := by
  cases x with
  | const value => trivial
  | register id type =>
    obtain ⟨i, hi, hdef⟩ := h
    exact ⟨i, hcode hi, hdef⟩
  | param name type => exact hparams h
  | global name content =>
    obtain ⟨g, hg, hdef⟩ := h
    exact ⟨g, hglobals hg, hdef⟩

/-- A call refers to the function of the module at its place. -/
def Callee.Refers (functions : List Function) (f : Callee) : Prop :=
  ∃ g, functions[f.id]? = some g ∧ g.name = f.symbol ∧ g.params.map (·.type) = f.params ∧
    g.result = f.result

instance (functions : List Function) (f : Callee) : Decidable (f.Refers functions) :=
  decidable_of_iff (∃ g ∈ functions[f.id]?, g.name = f.symbol ∧ g.params.map (·.type) = f.params ∧
    g.result = f.result) Iff.rfl

def Function.code (f : Function) : List Instr := f.blocks.flatMap (·.instrs)

/-- What the code of a function of a module can refer to. -/
def Function.scene (globals : List Global) (functions : List Function) (f : Function) : Scene where
  holds x := x.Refers globals f.params f.code
  calls g := g.Refers functions

/-- All code of a module is well typed. -/
def Module.Typed (M : Module) (strict : Bool) : Prop :=
  ∀ f ∈ M.functions, Blocks.Typed (f.scene M.globals M.functions) strict f.result f.blocks

end BoardPython.Ir
