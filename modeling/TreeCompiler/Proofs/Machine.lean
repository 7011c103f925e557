import Mathlib.Logic.Relation
import TreeCompiler.Proofs.Evaluation

/-!
The machine that runs assembly lines, one function at a time.

Registers hold words, and the stack is a line of bytes without end, so the stack and frame
pointers are numbers on that line. The text still to run is part of the state, and a jump goes
to the line behind its label in the text of the unit. Flags are known after a comparison only.
A line with no meaning here (the end of the function, a division that overflows) has no step.

A callee is known by the oracle alone. It gets its argument words, off the stack or in `rdi`,
and the memory of the caller; it leaves a word in `rax` and a memory. What lies on the stack
between the frame and the arguments it keeps. All else, down to every scratch register, it
leaves in any state.
-/

namespace TreeCompiler

structure Flags where
  zero : Bool
  sign : Bool
  overflow : Bool
deriving DecidableEq

/-- The flags after comparing two words, which subtracts the second from the first. -/
def Flags.compare (a b : Word) : Flags := ⟨a - b == 0, (a - b).msb, a.ssubOverflow b⟩

def Cond.holds (f : Flags) : Cond → Bool
  | e => f.zero
  | ne => !f.zero
  | l => f.sign != f.overflow
  | le => f.zero || f.sign != f.overflow
  | g => !f.zero && f.sign == f.overflow
  | ge => f.sign == f.overflow

structure Machine where
  text : List Line
  scratch : Scratch → Word
  rax : Word
  rdx : Word
  rdi : Word
  rsi : Word
  rsp : ℤ
  rbp : ℤ
  flags : Option Flags
  mem : Cell ℤ → Byte

/-- A cell of a function's memory on the machine, where the frame starts at `base`. -/
def Cell.based (base : ℤ) : Cell ℕ → Cell ℤ
  | stack k => .stack (base + k)
  | data x n => .data x n

/-- Byte `i` at an address on the machine. -/
def Address.cellAt (rbp : ℤ) : Address → ℕ → Cell ℤ
  | .symbol x n, i => .data x (n + i)
  | .frame d, i => .stack (rbp + d + i)

/-- The word on the stack at `a`. -/
def wordAt (mem : Cell ℤ → Byte) (a : ℤ) : Word := loadBytes mem (fun i => .stack (a + i)) 8

/-- The `n` words on the stack from `a` upwards. -/
def wordsAt (mem : Cell ℤ → Byte) (a : ℤ) : ℕ → List Word
  | 0 => []
  | n + 1 => wordAt mem a :: wordsAt mem (a + 8) n

namespace Machine

/-- The memory of the running function, whose frame has `frame` bytes. -/
def view (M : Machine) (frame : ℕ) : Memory := M.mem ∘ Cell.based (M.rbp - frame)

def get (M : Machine) : Reg → Word
  | .rax => M.rax
  | .rdi => M.rdi
  | .rsi => M.rsi
  | .rsp => BitVec.ofInt 64 M.rsp
  | .rbp => BitVec.ofInt 64 M.rbp
  | .scratch r => M.scratch r

def setScratch (M : Machine) (r : Scratch) (v : Word) : Machine :=
  { M with scratch := Function.update M.scratch r v }

def set (M : Machine) (r : Reg) (v : Word) : Machine :=
  match r with
  | .rax => { M with rax := v }
  | .rdi => { M with rdi := v }
  | .rsi => { M with rsi := v }
  | .rsp => { M with rsp := v.toInt }
  | .rbp => { M with rbp := v.toInt }
  | .scratch r => M.setScratch r v

def push (M : Machine) (v : Word) : Machine :=
  { M with
    rsp := M.rsp - 8
    mem := storeBytes M.mem (fun i => .stack (M.rsp - 8 + i)) v 8 }

/-- Puts the result of an operation in a register. The flags are then not known. -/
def result (M : Machine) (r : Scratch) (v : Word) : Machine :=
  { M.setScratch r v with flags := none }

/-- The two words of the dividend hold one signed number. There is no step if the quotient does
not fit in a word. -/
def divide (M : Machine) (divisor : Word) : Option Machine :=
  let n := (M.rdx ++ M.rax).toInt
  let q := n.tdiv divisor.toInt
  if divisor = 0 ∨ (BitVec.ofInt 64 q).toInt ≠ q then none
  else some { M with
    rax := BitVec.ofInt 64 q
    rdx := BitVec.ofInt 64 (n.tmod divisor.toInt)
    flags := none }

end Machine

/-- The lines behind a label. -/
def textBehind (l : Label) : List Line → Option (List Line)
  | [] => none
  | line :: rest => if line = .label l then some rest else textBehind l rest

/-- How many words a routine takes from the stack: the parameters of the first function that
has its symbol. -/
def Arena.arity (arena : Arena) (f : String) : ℕ :=
  ((arena.toList.find? fun s => s.isFunction && functionSymbol s.name == f).map
    (·.params.length)).getD 0

/-- What a function runs in: the text of the unit, and all that callees may do. -/
structure Host where
  env : Setting
  unit : List Line
  leftover : Machine → Machine
  format : Word

namespace Host

variable (h : Host)

/-- The machine when a callee that was passed `args` bytes on the stack has returned. -/
def returned (M : Machine) (args : ℕ) (v : Word) (m : Memory) : Machine :=
  { h.leftover M with
    text := M.text
    rax := v
    rsp := M.rsp
    rbp := M.rbp
    mem := fun
      | .data x n => m (.data x n)
      | .stack a =>
        if M.rbp - h.env.frame ≤ a then m (.stack (a - (M.rbp - h.env.frame)).toNat)
        else if M.rsp + args ≤ a then M.mem (.stack a)
        else (h.leftover M).mem (.stack a) }

/-- The words that a routine takes off the stack. Only the one that prints takes its argument
in a register. -/
def taken (f : String) : ℕ := if f = printSymbol then 0 else h.env.arena.arity f

/-- The argument words of a call. -/
def arguments (f : String) (M : Machine) : List Word :=
  if f = printSymbol then [M.rdi] else wordsAt M.mem M.rsp (h.env.arena.arity f)

def call (f : String) (M : Machine) : Option Machine :=
  (h.env.oracle f (h.arguments f M) (M.view h.env.frame)).map fun r =>
    h.returned M (8 * h.taken f) r.1 r.2

def jump (l : Label) (M : Machine) : Option Machine :=
  (textBehind l h.unit).map fun text => { M with text }

def exec (M : Machine) : Instr → Option Machine
  | .push r => some (M.push (M.get r))
  | .pushZero => some (M.push 0)
  | .pop r => some ({ M with rsp := M.rsp + 8 }.set r (wordAt M.mem M.rsp))
  | .move .rbp .rsp => some { M with rbp := M.rsp }
  | .move t s => some (M.set t (M.get s))
  | .const t v => some (M.setScratch t v.toBitVec)
  | .load t o => some (M.setScratch t (loadBytes M.mem (o.address.cellAt M.rbp) o.width.bytes))
  | .store o s =>
    some { M with mem := storeBytes M.mem (o.address.cellAt M.rbp) (M.scratch s) o.width.bytes }
  | .loadFormat => some { M with rdi := h.format }
  | .add t s => some (M.result t (M.scratch t + M.scratch s))
  | .sub t s => some (M.result t (M.scratch t - M.scratch s))
  | .mul t s => some (M.result t (M.scratch t * M.scratch s))
  | .signExtend => some { M with rdx := if M.rax.msb then -1 else 0 }
  | .div s => M.divide (M.scratch s)
  | .compare l r => some { M with flags := some (.compare (M.scratch l) (M.scratch r)) }
  | .compareOne r => some { M with flags := some (.compare (M.scratch r) 1) }
  | .clearResult => some { M with rax := 0, flags := none }
  | .jump l => h.jump l M
  | .jumpIf c l => M.flags.bind fun f => if c.holds f then h.jump l M else some M
  | .call f => h.call f M
  | .lowerStack n => some { M with rsp := M.rsp - n, flags := none }
  | .raiseStack n => some { M with rsp := M.rsp + n, flags := none }
  | .alignStack => some { M with rsp := M.rsp / 16 * 16, flags := none }
  | .callExternal _ | .ret => none

def step (M : Machine) : Option Machine :=
  match M.text with
  | .instr i :: rest => h.exec { M with text := rest } i
  | .blank :: rest | .routine _ :: rest | .label _ :: rest => some { M with text := rest }
  | _ => none

/-- Some number of steps lead from one state to the other. -/
def Reaches : Machine → Machine → Prop := Relation.ReflTransGen fun M N => h.step M = some N

end Host

end TreeCompiler
