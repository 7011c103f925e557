import Mathlib.Data.Int.Notation
import TreeCompiler.Lowering.Expr
import TreeCompiler.Proofs.Bytes

/-!
What an expression means, said without any code.

A function runs over a memory of bytes: those of the stack from the lower end of its frame
upwards, and the data behind every symbol. Its operands address exactly these. Names load
and assignments store in the width of their operand; arithmetic is that of 64-bit words. What
a call does is left open: an oracle answers for the routine, from the argument words and the
memory, with a word and a memory of its own.
-/

namespace TreeCompiler

/-- A byte of storage. -/
inductive Cell (α : Type) where
  | stack (address : α)
  | data (symbol : String) (offset : ℕ)
deriving DecidableEq

/-- What a running function can address. Stack bytes count from the lower end of its frame. -/
abbrev Memory := Cell ℕ → Byte

/-- Byte `i` at an address, where the frame has `frame` bytes below the frame pointer. -/
def Address.cell (frame : ℕ) : Address → ℕ → Cell ℕ
  | .symbol x n, i => .data x (n + i)
  | .frame d, i => .stack ((frame : ℤ) + d + i).toNat

namespace Memory

def load (m : Memory) (frame : ℕ) (o : Operand) : Word :=
  loadBytes m (o.address.cell frame) o.width.bytes

def store (m : Memory) (frame : ℕ) (o : Operand) (v : Word) : Memory :=
  storeBytes m (o.address.cell frame) v o.width.bytes

end Memory

/-- What calling a routine with these argument words does to the memory, and what it returns.
It may also not return. -/
abbrev Oracle := String → List Word → Memory → Option (Word × Memory)

/-- The function that an expression stands in: its symbols, its frame and its callees. -/
structure Setting where
  arena : Arena
  frame : ℕ
  oracle : Oracle

/-- Where a name is, if it is anywhere. -/
def Ident.place? (arena : Arena) (x : Ident) : Option Operand :=
  x.symbol.bind fun id => arena[id]?.bind fun s => (s.locate x.offset).toOption

/-- The routine that a call enters. -/
def Ident.routine (f : Ident) : String :=
  if f.name == printName then printSymbol else functionSymbol f.name

/-- A quotient goes toward zero, and is undefined where it has no value in 64 bits. -/
def Arith.eval : Arith → Word → Word → Option Word
  | add, a, b => some (a + b)
  | sub, a, b => some (a - b)
  | mul, a, b => some (a * b)
  | div, a, b => if b = 0 ∨ a = BitVec.intMin 64 ∧ b = -1 then none else some (a.sdiv b)

/-- Relations compare words as signed numbers. -/
def Rel.holds : Rel → Word → Word → Bool
  | eq, a, b => a == b
  | ne, a, b => a != b
  | gt, a, b => b.slt a
  | lt, a, b => a.slt b
  | ge, a, b => b.sle a
  | le, a, b => a.sle b

def BinOp.eval : BinOp → Word → Word → Option Word
  | arith op, a, b => op.eval a b
  | compare rel, a, b => some (if rel.holds a b then 1 else 0)

mutual

/-- The value of an expression, and the memory after it. -/
def Expr.eval (env : Setting) : Expr → Memory → Option (Word × Memory)
  | .int v, m => some (v.toBitVec, m)
  | .bool b, m => some (if b then 1 else 0, m)
  | .name x, m => do
    let o ← x.place? env.arena
    return (m.load env.frame o, m)
  | .assign x e, m => do
    let (v, m) ← e.eval env m
    let o ← x.place? env.arena
    return (v, m.store env.frame o v)
  | .binary op l r, m => do
    let (a, m) ← l.eval env m
    let (b, m) ← r.eval env m
    let v ← op.eval a b
    return (v, m)
  | .call f args, m => do
    let (vs, m) ← Expr.evalArgs env args m
    env.oracle f.routine vs m
termination_by structural e => e

/-- The values of the arguments of a call. The last argument is evaluated first. -/
def Expr.evalArgs (env : Setting) : List Expr → Memory → Option (List Word × Memory)
  | [], m => some ([], m)
  | e :: rest, m => do
    let (vs, m) ← Expr.evalArgs env rest m
    let (v, m) ← e.eval env m
    return (v :: vs, m)
termination_by structural es => es

end

end TreeCompiler
