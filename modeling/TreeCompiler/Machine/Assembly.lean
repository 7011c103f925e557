import TreeCompiler.Tree.Expr
import TreeCompiler.Machine.Register

/-!
Assembly text for a 64-bit machine: operands, the instructions that are used, and the lines of
a unit with their exact layout.
-/

namespace TreeCompiler

/-- A place to jump to inside a function. -/
structure Label where
  id : Nat
deriving DecidableEq, Repr

def Label.name (l : Label) : String := ".L" ++ toString l.id

/-- The symbol of a function. Only the entry point keeps its name. -/
def functionSymbol (name : String) : String :=
  if name == entryName then name else "function_" ++ name

def globalSymbol (name : String) : String := "global_" ++ name

/-- The symbol of the routine that writes a number. -/
def printSymbol : String := "print"

/-- The symbol of the format with which a number is written. -/
def formatSymbol : String := "num_fmt"

inductive Address where
  | symbol (name : String) (offset : Nat)
  | frame (offset : Int)
deriving DecidableEq, Repr

def Address.text : Address → String
  | symbol x n => if n = 0 then x else x ++ " + " ++ toString n
  | frame n =>
    if n < 0 then "rbp - " ++ toString n.natAbs else "rbp + " ++ toString n.natAbs

/-- A place in memory together with the width of what is there. -/
structure Operand where
  width : Width
  address : Address
deriving DecidableEq, Repr

def Operand.text (o : Operand) : String := o.width.keyword ++ " [" ++ o.address.text ++ "]"

/-- The conditions of a jump. -/
inductive Cond where
  | e
  | ne
  | l
  | le
  | g
  | ge
deriving DecidableEq, Repr

def Cond.text : Cond → String
  | e => "e"
  | ne => "ne"
  | l => "l"
  | le => "le"
  | g => "g"
  | ge => "ge"

/-- The condition that holds when the relation does not. -/
def Rel.negated : Rel → Cond
  | eq => .ne
  | ne => .e
  | gt => .le
  | lt => .ge
  | ge => .l
  | le => .g

inductive Instr where
  | push (r : Reg)
  | pushZero
  | pop (r : Reg)
  | move (target source : Reg)
  | const (target : Scratch) (value : Int64)
  | load (target : Scratch) (source : Operand)
  | store (target : Operand) (source : Scratch)
  | loadFormat
  | add (target source : Scratch)
  | sub (target source : Scratch)
  | mul (target source : Scratch)
  | signExtend
  | div (divisor : Scratch)
  | compare (left right : Scratch)
  | compareOne (r : Scratch)
  | clearResult
  | jump (target : Label)
  | jumpIf (c : Cond) (target : Label)
  | call (symbol : String)
  | callExternal (symbol : String)
  | lowerStack (bytes : Nat)
  | raiseStack (bytes : Nat)
  | alignStack
  | ret
deriving DecidableEq, Repr

namespace Instr

/-- A value narrower than a word is extended with its sign. -/
def loadOpcode : Width → String
  | .qword => "mov"
  | .dword => "movsxd"
  | .word | .byte => "movsx"

def opcode : Instr → String
  | push _ | pushZero => "push"
  | pop _ => "pop"
  | move _ _ | const _ _ | store _ _ => "mov"
  | load _ o => loadOpcode o.width
  | loadFormat => "lea"
  | add _ _ | raiseStack _ => "add"
  | sub _ _ | lowerStack _ => "sub"
  | mul _ _ => "imul"
  | signExtend => "cqo"
  | div _ => "idiv"
  | compare _ _ | compareOne _ => "cmp"
  | clearResult => "xor"
  | jump _ => "jmp"
  | jumpIf c _ => "j" ++ c.text
  | call _ | callExternal _ => "call"
  | alignStack => "and"
  | ret => "ret"

def operands? : Instr → Option String
  | push r => some r.name
  | pushZero => some "qword 0"
  | pop r => some r.name
  | move t s => some (t.name ++ ", " ++ s.name)
  | const t v => some (t.name ++ ", " ++ toString v.toInt)
  | load t o => some (t.name ++ ", " ++ o.text)
  | store o s => some (o.text ++ ", " ++ s.part o.width)
  | loadFormat => some ("rdi, [" ++ formatSymbol ++ "]")
  | add t s => some (t.name ++ ", " ++ s.name)
  | sub t s => some (t.name ++ ", " ++ s.name)
  | mul t s => some (t.name ++ ", " ++ s.name)
  | signExtend => none
  | div s => some s.name
  | compare l r => some (l.name ++ ", " ++ r.name)
  | compareOne r => some (r.name ++ ", 1")
  | clearResult => some "eax, eax"
  | jump l => some l.name
  | jumpIf _ l => some l.name
  | call f => some f
  | callExternal f => some (f ++ " wrt ..plt")
  | lowerStack n => some ("rsp, " ++ toString n)
  | raiseStack n => some ("rsp, " ++ toString n)
  | alignStack => some "rsp, -16"
  | ret => none

/-- Operands start at the ninth column after the tab. -/
def text (i : Instr) : String :=
  match i.operands? with
  | some operands => i.opcode.pushn ' ' (8 - i.opcode.length) ++ operands
  | none => i.opcode

end Instr

inductive Line where
  | blank
  | segment (name : String)
  | relativeAddresses
  | external (symbol : String)
  | exported (symbol : String)
  | routine (symbol : String)
  | label (l : Label)
  | instr (i : Instr)
  | reserve (symbol : String) (bytes : Nat)
  | format
deriving DecidableEq, Repr

namespace Line

def text : Line → String
  | blank => ""
  | segment s => "section ." ++ s
  | relativeAddresses => "default rel"
  | external s => "extern " ++ s
  | exported s => "global " ++ s
  | routine s => s ++ ":"
  | label l => l.name ++ ":"
  | instr i => "\t" ++ i.text
  | reserve s n => s ++ ": resb " ++ toString n
  | format => formatSymbol ++ ": db \"%ld\", 10, 0"

def render (l : Line) : String := l.text ++ "\n"

def bytes (l : Line) : ByteArray := l.render.toUTF8

end Line

end TreeCompiler
