import BoardPython.Proofs.Calculations
import BoardPython.Proofs.Machine

/-! What expressions mean, without any code: integers are numbers, operands and arguments are
evaluated once, from left to right. -/
namespace BoardPython.Lowering

open Ir (Callee Datum Machine Memory Slot Trap Ty World)
open Token (Kind)

inductive Scalar (F : Type) where
  | i8 (n : Int)
  | i16 (n : Int)
  | f32 (x : F)
  | str (target : Option Bytes)
  | bool (b : Bool)
  | void

namespace Scalar

variable {F : Type}

def type : Scalar F → ValueType
  | i8 _ => .i8
  | i16 _ => .i16
  | f32 _ => .f32
  | str _ => .str
  | bool _ => .bool
  | void => .void

def ofInt (bits : Nat) (n : Int) : Scalar F := if bits = 8 then i8 n else i16 n

def ofDatum? (t : ValueType) (d : Datum F) : Option (Scalar F) :=
  match t, d with
  | .i8, .int bits x => if bits = 8 then some (.i8 x.toInt) else none
  | .i16, .int bits x => if bits = 16 then some (.i16 x.toInt) else none
  | .bool, .int bits x => if bits = 1 then some (.bool (x.getLsbD 0)) else none
  | .f32, .float x => some (.f32 x)
  | .str, .pointer target => some (.str target)
  | _, _ => none

end Scalar

def Symbol.slot? (s : Symbol) : Option Slot := s.address?.bind (·.slot?)

theorem Symbol.slot?_of_address? {s : Symbol} {address : Ir.Operand} (h : s.address? = some address)
    :
    ∃ slot, address.slot? = some slot ∧ s.slot? = some slot := by
  rw [Symbol.slot?, h]
  unfold Symbol.address? at h
  cases hs : s.storage with
  | nowhere =>
    rw [hs] at h
    cases h
  | stack register | module immutable =>
    rw [hs] at h
    cases h
    exact ⟨_, rfl, rfl⟩

/-- The signed number that an integer of `bits` bits wraps around to. -/
def wrap (bits : Nat) (n : Int) : Int := n.bmod (2 ^ bits)

/-- Arithmetic on integers of `bits` bits. A quotient goes toward zero. It is undefined to divide by
zero, to divide if the quotient has more bits, and to shift by more than there are bits. -/
def intBinary (bits : Nat) (op : Kind) (a b : Int) : Except Trap Int :=
  match op with
  | .plus => .ok (wrap bits (a + b))
  | .minus => .ok (wrap bits (a - b))
  | .star => .ok (wrap bits (a * b))
  | .slash | .doubleSlash =>
    if b = 0 ∨ wrap bits (a.tdiv b) ≠ a.tdiv b then .error .undefined else .ok (a.tdiv b)
  | .percent =>
    if b = 0 ∨ wrap bits (a.tdiv b) ≠ a.tdiv b then .error .undefined else .ok (a.tmod b)
  | .ampersand => .ok (BitVec.ofInt bits a &&& BitVec.ofInt bits b).toInt
  | .pipe => .ok (BitVec.ofInt bits a ||| BitVec.ofInt bits b).toInt
  | .caret => .ok (BitVec.ofInt bits a ^^^ BitVec.ofInt bits b).toInt
  | .shiftLeft =>
    if 0 ≤ b ∧ b < bits then .ok (wrap bits (a * 2 ^ b.toNat)) else .error .undefined
  | .shiftRight => if 0 ≤ b ∧ b < bits then .ok (a / 2 ^ b.toNat) else .error .undefined
  | _ => .error .stuck

def intCompare (op : Kind) (a b : Int) : Except Trap Bool :=
  match op with
  | .equal => .ok (a == b)
  | .notEqual => .ok (a != b)
  | .less => .ok (a < b)
  | .lessEqual => .ok (a ≤ b)
  | .greater => .ok (b < a)
  | .greaterEqual => .ok (b ≤ a)
  | _ => .error .stuck

inductive Pair (F : Type) where
  | ints (bits : Nat) (a b : Int)
  | floats (x y : F)

section Semantics

variable {F : Type} (m : Machine F)

def floatBinary (op : Kind) (x y : F) : Except Trap F :=
  match op with
  | .plus => .ok (m.binary .fadd x y)
  | .minus => .ok (m.binary .fsub x y)
  | .star => .ok (m.binary .fmul x y)
  | .slash => .ok (m.binary .fdiv x y)
  | .percent => .ok (m.binary .frem x y)
  | _ => .error .stuck

def floatCompare (op : Kind) (x y : F) : Except Trap Bool :=
  match op with
  | .equal => .ok (m.compare .eq x y)
  | .notEqual => .ok (m.compare .ne x y)
  | .less => .ok (m.compare .lt x y)
  | .lessEqual => .ok (m.compare .le x y)
  | .greater => .ok (m.compare .gt x y)
  | .greaterEqual => .ok (m.compare .ge x y)
  | _ => .error .stuck

/-- Two numbers brought to one type: a byte with a word is a word, and an integer with a float is a
float. -/
def pair? : Scalar F → Scalar F → Option (Pair F)
  | .i8 a, .i8 b => some (.ints 8 a b)
  | .i8 a, .i16 b => some (.ints 16 a b)
  | .i16 a, .i8 b => some (.ints 16 a b)
  | .i16 a, .i16 b => some (.ints 16 a b)
  | .f32 x, .f32 y => some (.floats x y)
  | .f32 x, .i8 b => some (.floats x (m.ofInt 8 b))
  | .f32 x, .i16 b => some (.floats x (m.ofInt 16 b))
  | .i8 a, .f32 y => some (.floats (m.ofInt 8 a) y)
  | .i16 a, .f32 y => some (.floats (m.ofInt 16 a) y)
  | _, _ => none

def Pair.binary (op : Kind) : Pair F → Except Trap (Scalar F)
  | .ints bits a b => (intBinary bits op a b).map (Scalar.ofInt bits)
  | .floats x y => (floatBinary m op x y).map .f32

def Pair.compare (op : Kind) : Pair F → Except Trap Bool
  | .ints _ a b => intCompare op a b
  | .floats x y => floatCompare m op x y

def binary (op : Kind) (x y : Scalar F) : Except Trap (Scalar F) := do
  Pair.binary m op (← Machine.need (pair? m x y))

/-- A single comparison: of truth values for being equal or not, of numbers by any order. -/
def compareOne (op : Kind) (x y : Scalar F) : Except Trap Bool :=
  match x, y, op with
  | .bool a, .bool b, .equal => .ok (a == b)
  | .bool a, .bool b, .notEqual => .ok (a != b)
  | x, y, op => do Pair.compare m op (← Machine.need (pair? m x y))

/-- A comparison chain holds if each value compares with the next one. -/
def compareChain (x : Scalar F) : List Kind → List (Scalar F) → Except Trap Bool
  | op :: ops, y :: ys => do
    let first ← compareOne m op x y
    let rest ← compareChain y ops ys
    return first && rest
  | _, _ => return true

def compare (ops : List Kind) (xs : List (Scalar F)) : Except Trap (Scalar F) :=
  match xs with
  | x :: xs => (compareChain m x ops xs).map .bool
  | [] => .error .stuck

def numeral (value : Number.Numeral) (negated : Bool) : Except Trap (Scalar F) :=
  match value with
  | .int n => .ok (.i16 (wrap 16 (if negated then -n else n)))
  | .float x => .ok (.f32 (m.constant ((if negated then x.negate else x).round .single)))
  | .imaginary _ => .error .stuck

def read (c : Context) (name : String) (mem : Memory F) : Except Trap (Scalar F) := do
  let s ← Machine.need (c.resolve? name)
  match s.slot? with
  | none => return .void
  | some slot => Machine.need ((mem slot).bind (Scalar.ofDatum? s.type))

variable {c : Context} {name : String} {s : Symbol}

theorem read_of_slot {slot : Slot} (hs : c.resolve? name = some s) (h : s.slot? = some slot)
    (mem : Memory F) :
    read c name mem = Machine.need ((mem slot).bind (Scalar.ofDatum? s.type)) := by
  simp only [read, hs, Machine.need, bind, Except.bind, h]

theorem read_of_nowhere (hs : c.resolve? name = some s) (h : s.slot? = none) (mem : Memory F) :
    read c name mem = .ok .void := by
  simp only [read, hs, Machine.need, bind, Except.bind, h]
  rfl

/-- An argument as it is passed for a parameter: an integer with as many bits as the parameter. -/
def passed? (x : Scalar F) (param : Ty) : Option (Datum F) :=
  match x, param with
  | .i8 n, .int bits => some (.int bits (BitVec.ofInt bits n))
  | .i16 n, .int bits => if bits ≤ 16 then some (.int bits (BitVec.ofInt bits n)) else none
  | .f32 x, .float => some (.float x)
  | .str target, .pointer (.int 8) => some (.pointer target)
  | _, _ => none

/-- The function that a name means, for a first argument of some type. -/
def callee? (c : Context) (name : String) (first : Option ValueType) : Option Callee :=
  match c.functions.find? name with
  | some s => some s.callee
  | none => (first.bind fun t => c.functions.find? (FunctionTable.overloadKey name t)).map (·.callee)

structure Context.Extends (c c' : Context) : Prop where
  functions : c'.functions = c.functions
  resolve : ∀ name s, c.resolve? name = some s → c'.resolve? name = some s

theorem Context.Extends.refl (c : Context) : c.Extends c := ⟨rfl, fun _ _ h => h⟩

theorem callee?_of_extends {c' : Context} (h : c.Extends c') (name : String)
    (first : Option ValueType) : callee? c' name first = callee? c name first := by
  unfold callee?
  rw [h.functions]

def result? (t : Ty) (d : Datum F) : Option (Scalar F) :=
  match t with
  | .int 8 => Scalar.ofDatum? .i8 d
  | .int 16 => Scalar.ofDatum? .i16 d
  | .float => Scalar.ofDatum? .f32 d
  | _ => none

def apply (f : Callee) (args : List (Datum F)) (w : World F) : Except Trap (Scalar F × World F)
    := do
  let (d, memory) ← Machine.need (m.call f args w)
  let x ← if f.result = .void then pure .void else Machine.need (result? f.result d)
  return (x, ⟨memory, w.calls ++ [(f, args)]⟩)

mutual

def eval (c : Context) : Expr → World F → Except Trap (Scalar F × World F)
  | .number _ value _, w => do return (← numeral m value false, w)
  | .unary _ .minus (.number _ value _), w => do return (← numeral m value true, w)
  | .string _ value, w => return (.str (some (value ++ [0])), w)
  | .bool _ b, w => return (.bool b, w)
  | .none _, w => return (.void, w)
  | .name _ id, w => do return (← read c id w.memory, w)
  | .binary _ op left right, w => do
    let (x, w) ← eval c left w
    let (y, w) ← eval c right w
    return (← binary m op x y, w)
  | .compare _ ops operands, w => do
    let (xs, w) ← evalAll c operands w
    return (← compare m ops xs, w)
  | .call _ (.name _ name) [], w => do
    apply m (← Machine.need (callee? c name none)) [] w
  | .call _ (.name _ name) (arg :: args), w => do
    let (x, w) ← eval c arg w
    let f ← Machine.need (callee? c name (some x.type))
    let (xs, w) ← evalAll c args w
    apply m f (← Machine.need (((x :: xs).zip f.params).mapM fun p => passed? p.1 p.2)) w
  | _, _ => throw .stuck

def evalAll (c : Context) : List Expr → World F → Except Trap (List (Scalar F) × World F)
  | [], w => return ([], w)
  | e :: es, w => do
    let (x, w) ← eval c e w
    let (xs, w) ← evalAll c es w
    return (x :: xs, w)

end

section Equations

variable {m} {c : Context}

theorem eval_number (pos : Position) (value : Number.Numeral) (raw : String) :
    eval m c (.number pos value raw) = fun w => (numeral m value false).map (·, w) := by
  funext w
  change (numeral m value false >>= _) = Except.map _ (numeral m value false)
  cases numeral m value false <;> rfl

theorem eval_negative (pos pos' : Position) (value : Number.Numeral) (raw : String) :
    eval m c (.unary pos .minus (.number pos' value raw)) =
      fun w => (numeral m value true).map (·, w) := by
  funext w
  change (numeral m value true >>= _) = Except.map _ (numeral m value true)
  cases numeral m value true <;> rfl

theorem eval_name (pos : Position) (name : String) :
    eval m c (.name pos name) = fun w => (read c name w.memory).map (·, w) := by
  funext w
  change (read c name w.memory >>= _) = Except.map _ (read c name w.memory)
  cases read c name w.memory <;> rfl

theorem eval_binary (pos : Position) (op : Kind) (left right : Expr) :
    eval m c (.binary pos op left right) = fun w => eval m c left w >>= fun a =>
      eval m c right a.2 >>= fun b => (binary m op a.1 b.1).map (·, b.2) := by
  funext w
  change (eval m c left w >>= _) = (eval m c left w >>= _)
  cases eval m c left w with
  | error e => rfl
  | ok a =>
    change (eval m c right a.2 >>= _) = (eval m c right a.2 >>= _)
    cases eval m c right a.2 with
    | error e => rfl
    | ok b =>
      change (binary m op a.1 b.1 >>= _) = Except.map _ (binary m op a.1 b.1)
      cases binary m op a.1 b.1 <;> rfl

theorem eval_compare (pos : Position) (ops : List Kind) (operands : List Expr) :
    eval m c (.compare pos ops operands) = fun w => evalAll m c operands w >>= fun xs =>
      (compare m ops xs.1).map (·, xs.2) := by
  funext w
  change (evalAll m c operands w >>= _) = (evalAll m c operands w >>= _)
  cases evalAll m c operands w with
  | error e => rfl
  | ok xs =>
    change (compare m ops xs.1 >>= _) = Except.map _ (compare m ops xs.1)
    cases compare m ops xs.1 <;> rfl

theorem eval_call (pos pos' : Position) (name : String) (arg : Expr) (args : List Expr) :
    eval m c (.call pos (.name pos' name) (arg :: args)) = fun w => eval m c arg w >>= fun x =>
      Machine.need (callee? c name (some x.1.type)) >>= fun f =>
        evalAll m c args x.2 >>= fun xs =>
          Machine.need (((x.1 :: xs.1).zip f.params).mapM fun p => passed? p.1 p.2) >>= fun ds =>
            apply m f ds xs.2 := by
  funext w
  rfl

theorem evalAll_cons (e : Expr) (es : List Expr) :
    evalAll m c (e :: es) = fun w => eval m c e w >>= fun x =>
      (evalAll m c es x.2).map fun xs => (x.1 :: xs.1, xs.2) := by
  funext w
  change (eval m c e w >>= _) = (eval m c e w >>= _)
  cases eval m c e w with
  | error e => rfl
  | ok x =>
    change (evalAll m c es x.2 >>= _) = Except.map _ (evalAll m c es x.2)
    cases evalAll m c es x.2 <;> rfl

end Equations

end Semantics

end BoardPython.Lowering
