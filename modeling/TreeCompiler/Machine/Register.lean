import TreeCompiler.Tree.Ty

/-!
Registers and operand widths. Seven scratch registers hold the values of expressions; the
others have fixed roles.
-/

namespace TreeCompiler

inductive Width where
  | byte
  | word
  | dword
  | qword
deriving DecidableEq, Repr

namespace Width

/-- The width in which a value of that many bytes is moved. -/
def ofSize : Nat → Width
  | 1 => byte
  | 2 => word
  | 4 => dword
  | _ => qword

def keyword : Width → String
  | byte => "byte"
  | word => "word"
  | dword => "dword"
  | qword => "qword"

end Width

inductive Scratch where
  | rbx
  | r10
  | r11
  | r12
  | r13
  | r14
  | r15
deriving DecidableEq, Repr

namespace Scratch

/-- The scratch registers in the order in which they are handed out. -/
def all : List Scratch := [rbx, r10, r11, r12, r13, r14, r15]

def index : Scratch → Fin 7
  | rbx => 0
  | r10 => 1
  | r11 => 2
  | r12 => 3
  | r13 => 4
  | r14 => 5
  | r15 => 6

theorem index_injective {p q : Scratch} (h : p.index = q.index) : p = q := by
  cases p <;> cases q <;> first | rfl | exact absurd h (by decide)

theorem mem_all (r : Scratch) : r ∈ all := by
  cases r <;> decide

theorem nodup_all : all.Nodup := by decide

def name : Scratch → String
  | rbx => "rbx"
  | r10 => "r10"
  | r11 => "r11"
  | r12 => "r12"
  | r13 => "r13"
  | r14 => "r14"
  | r15 => "r15"

/-- The name of the low part of a register. -/
def part : Scratch → Width → String
  | r, .qword => r.name
  | rbx, .byte => "bl"
  | rbx, .word => "bx"
  | rbx, .dword => "ebx"
  | r, .byte => r.name ++ "b"
  | r, .word => r.name ++ "w"
  | r, .dword => r.name ++ "d"

end Scratch

inductive Reg where
  | rax
  | rdi
  | rsi
  | rsp
  | rbp
  | scratch (r : Scratch)
deriving DecidableEq, Repr

def Reg.name : Reg → String
  | rax => "rax"
  | rdi => "rdi"
  | rsi => "rsi"
  | rsp => "rsp"
  | rbp => "rbp"
  | scratch r => r.name

end TreeCompiler
