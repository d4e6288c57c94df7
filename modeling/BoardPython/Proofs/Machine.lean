import Mathlib
import BoardPython.Ir.Code

/-! Running straight-line code. A machine settles what the code leaves open: floats, the bytes of
global arrays, the arguments of the function that runs, and what calls do. -/
namespace BoardPython.Ir

/-- A cell that holds a variable: a module global, or the stack cell whose address a register
has. -/
inductive Slot where
  | global (name : String)
  | stack (register : Nat)
  deriving DecidableEq, Repr

def Operand.slot? : Operand → Option Slot
  | .global name _ => some (.global name)
  | .register id _ => some (.stack id)
  | _ => none

/-- A value at run time. A pointer is known by the bytes that it points to. -/
inductive Datum (F : Type) where
  | int (bits : Nat) (x : BitVec bits)
  | float (x : F)
  | pointer (target : Option Bytes)

def Datum.type {F : Type} : Datum F → Ty
  | int bits _ => .int bits
  | float _ => .float
  | pointer _ => .bytePointer

/-- What the cells hold. Variables that have not been assigned need not hold anything. -/
abbrev Memory (F : Type) := Slot → Option (Datum F)

def Memory.set {F : Type} (mem : Memory F) (slot : Slot) (d : Datum F) : Memory F :=
  Function.update mem slot (some d)

/-- What code can change: the memory, and the calls made so far. -/
structure World (F : Type) where
  memory : Memory F
  calls : List (Callee × List (Datum F))

/-- Why code does not go on: its behaviour is undefined, or it makes no sense. -/
inductive Trap where
  | undefined
  | stuck
  deriving DecidableEq, Repr

/-- What the code leaves open. -/
structure Machine (F : Type) where
  constant : Number.Binary → F
  binary : BinaryOp → F → F → F
  compare : Order → F → F → Bool
  /-- The float for an integer of a number of bits. -/
  ofInt : Nat → Int → F
  /-- The bytes of a global array. -/
  bytes : String → Option Bytes
  argument : String → Option (Datum F)
  /-- The result of a call, and the memory after it. -/
  call : Callee → List (Datum F) → World F → Option (Datum F × Memory F)

abbrev Registers (F : Type) := Nat → Option (Datum F)

/-- Integer arithmetic. It wraps around; quotients go toward zero. -/
def BinaryOp.onInts {n : Nat} (op : BinaryOp) (x y : BitVec n) : Except Trap (BitVec n) :=
  match op with
  | .add => .ok (x + y)
  | .sub => .ok (x - y)
  | .mul => .ok (x * y)
  | .sdiv =>
    if y = 0#n ∨ (x = BitVec.intMin n ∧ y = -1#n) then .error .undefined else .ok (x.sdiv y)
  | .srem =>
    if y = 0#n ∨ (x = BitVec.intMin n ∧ y = -1#n) then .error .undefined else .ok (x.srem y)
  | .and => .ok (x &&& y)
  | .or => .ok (x ||| y)
  | .xor => .ok (x ^^^ y)
  | .shl => if y.toNat < n then .ok (x <<< y.toNat) else .error .undefined
  | .ashr => if y.toNat < n then .ok (x.sshiftRight y.toNat) else .error .undefined
  | .fadd | .fsub | .fmul | .fdiv | .frem => .error .stuck

def BinaryOp.isFloat : BinaryOp → Bool
  | .fadd | .fsub | .fmul | .fdiv | .frem => true
  | _ => false

def Order.onInts {n : Nat} (o : Order) (x y : BitVec n) : Bool :=
  match o with
  | .eq => x == y
  | .ne => x != y
  | .lt => x.slt y
  | .le => x.sle y
  | .gt => y.slt x
  | .ge => y.sle x

namespace Machine

variable {F : Type}

def datum? (m : Machine F) : Constant → Option (Datum F)
  | .int bits value => some (.int bits (BitVec.ofInt bits value))
  | .bool value => some (.int 1 (BitVec.ofBool value))
  | .float value => some (.float (m.constant value))
  | .null _ => some (.pointer none)
  | .bytes _ => none

def operand? (m : Machine F) (regs : Registers F) : Operand → Option (Datum F)
  | .const value => m.datum? value
  | .register id _ => regs id
  | .param name _ => m.argument name
  | .global .. => none

def arithmetic (m : Machine F) (op : BinaryOp) : Datum F → Datum F → Except Trap (Datum F)
  | .int n x, .int k y => if k = n then (op.onInts x (y.setWidth n)).map (.int n) else .error .stuck
  | .float x, .float y => if op.isFloat then .ok (.float (m.binary op x y)) else .error .stuck
  | _, _ => .error .stuck

def convert (m : Machine F) : Conversion → Datum F → Ty → Except Trap (Datum F)
  | .trunc, .int n x, .int k => if k < n then .ok (.int k (x.setWidth k)) else .error .stuck
  | .sext, .int n x, .int k => if n < k then .ok (.int k (x.signExtend k)) else .error .stuck
  | .sitofp, .int n x, .float => .ok (.float (m.ofInt n x.toInt))
  | _, _, _ => .error .stuck

def need {α : Type} : Option α → Except Trap α
  | some a => .ok a
  | none => .error .stuck

/-- A call, which is noted. Its result, if it has one, must be of the right type. -/
def invoke (m : Machine F) (f : Callee) (args : List (Datum F)) (w : World F) :
    Except Trap (Option (Datum F) × World F) := do
  let (d, memory) ← need (m.call f args w)
  let w := ⟨memory, w.calls ++ [(f, args)]⟩
  if f.result = .void then return (none, w)
  else if d.type = f.result then return (some d, w)
  else throw .stuck

/-- What an operation gives and does. Stack cells are there from the start. -/
def operate (m : Machine F) (regs : Registers F) (w : World F) :
    Operation → Except Trap (Option (Datum F) × World F)
  | .binary op x y => do
    let d ← m.arithmetic op (← need (m.operand? regs x)) (← need (m.operand? regs y))
    return (some d, w)
  | .icmp order x y => do
    match ← need (m.operand? regs x), ← need (m.operand? regs y) with
    | .int n a, .int k b =>
      if k = n then return (some (.int 1 (BitVec.ofBool (order.onInts a (b.setWidth n)))), w)
      else throw .stuck
    | _, _ => throw .stuck
  | .fcmp order x y => do
    match ← need (m.operand? regs x), ← need (m.operand? regs y) with
    | .float a, .float b => return (some (.int 1 (BitVec.ofBool (m.compare order a b))), w)
    | _, _ => throw .stuck
  | .convert op x target => do
    return (some (← m.convert op (← need (m.operand? regs x)) target), w)
  | .alloca _ => return (none, w)
  | .load type address => do
    let d ← need (w.memory (← need address.slot?))
    if d.type = type then return (some d, w) else throw .stuck
  | .store value address => do
    let d ← need (m.operand? regs value)
    return (none, { w with memory := w.memory.set (← need address.slot?) d })
  | .firstByte name length => do
    let bytes ← need (m.bytes name)
    if bytes.length = length then return (some (.pointer (some bytes)), w) else throw .stuck
  | .call _ f args => do
    m.invoke f (← need (args.mapM (m.operand? regs))) w

section Operate

variable {m : Machine F} {regs : Registers F} {w : World F} {x y : Operand} {op : BinaryOp}
  {d : Datum F} {n : Nat} {order : Order} {slot : Slot}

theorem operate_binary {e : Datum F} (hx : m.operand? regs x = some d)
    (hy : m.operand? regs y = some e) :
    m.operate regs w (.binary op x y) = (m.arithmetic op d e).map fun r => (some r, w) := by
  rw [operate, hx, hy]
  change (m.arithmetic op d e >>= fun r => pure (some r, w)) = _
  cases m.arithmetic op d e <;> rfl

theorem arithmetic_ints (a b : BitVec n) :
    m.arithmetic op (.int n a) (.int n b) = (op.onInts a b).map (.int n) := by
  rw [arithmetic, if_pos rfl, BitVec.setWidth_eq]

theorem operate_icmp {a b : BitVec n}
    (hx : m.operand? regs x = some (.int n a)) (hy : m.operand? regs y = some (.int n b)) :
    m.operate regs w (.icmp order x y) = .ok (some (.int 1 (BitVec.ofBool (order.onInts a b))), w) := by
  rw [operate, hx, hy]
  change (if n = n then Except.ok
    (some (Datum.int 1 (BitVec.ofBool (order.onInts a (b.setWidth n)))), w)
    else Except.error Trap.stuck) = _
  rw [if_pos rfl, BitVec.setWidth_eq]

theorem operate_fcmp {a b : F} (hx : m.operand? regs x = some (.float a))
    (hy : m.operand? regs y = some (.float b)) :
    m.operate regs w (.fcmp order x y) =
      .ok (some (.int 1 (BitVec.ofBool (m.compare order a b))), w) := by
  rw [operate, hx, hy]
  rfl

theorem operate_convert {op : Conversion} {target : Ty} (hx : m.operand? regs x = some d) :
    m.operate regs w (.convert op x target) = (m.convert op d target).map fun r => (some r, w) := by
  rw [operate, hx]
  change (m.convert op d target >>= fun r => pure (some r, w)) = _
  cases m.convert op d target <;> rfl

theorem operate_load {type : Ty} (hx : x.slot? = some slot) :
    m.operate regs w (.load type x) =
      need (w.memory slot) >>= fun d =>
        if d.type = type then .ok (some d, w) else .error .stuck := by
  rw [operate, hx]
  rfl

theorem operate_store (hx : m.operand? regs x = some d)
    (hy : y.slot? = some slot) :
    m.operate regs w (.store x y) = .ok (none, { w with memory := w.memory.set slot d }) := by
  rw [operate, hx, hy]
  rfl

theorem operate_firstByte {name : String} {bytes : Bytes} (h : m.bytes name = some bytes) :
    m.operate regs w (.firstByte name bytes.length) = .ok (some (.pointer (some bytes)), w) := by
  rw [operate, h]
  exact if_pos rfl

theorem operate_call {tail : Bool} {f : Callee} {args : List Operand} {ds : List (Datum F)}
    (h : args.mapM (m.operand? regs) = some ds) :
    m.operate regs w (.call tail f args) = m.invoke f ds w := by
  rw [operate, h]
  rfl

end Operate

def step (m : Machine F) (i : Instr) (regs : Registers F) (w : World F) :
    Except Trap (Registers F × World F) := do
  match i.result, ← m.operate regs w i.operation with
  | some r, (some d, w) => return (Function.update regs r (some d), w)
  | _, (_, w) => return (regs, w)

def exec (m : Machine F) : List Instr → Registers F → World F → Except Trap (Registers F × World F)
  | [], regs, w => .ok (regs, w)
  | i :: is, regs, w => do
    let (regs, w) ← m.step i regs w
    m.exec is regs w

theorem exec_append (m : Machine F) (is js : List Instr) (regs : Registers F) (w : World F) :
    m.exec (is ++ js) regs w = m.exec is regs w >>= fun c => m.exec js c.1 c.2 := by
  induction is generalizing regs w with
  | nil => rfl
  | cons i is ih =>
    rw [List.cons_append, exec, exec]
    cases m.step i regs w with
    | error t => rfl
    | ok c => exact ih c.1 c.2

end Machine

end BoardPython.Ir
