import TreeCompiler.Storage

/-!
Types: an element type, which is primitive or known by name only, taken as it is, behind a
pointer or as an array. A type is shown as it is written in a program.
-/

namespace TreeCompiler

inductive Primitive where
  | void
  | int8
  | int16
  | int32
  | int64
  | int
  | bool
  | char
deriving DecidableEq, Repr

namespace Primitive

def name : Primitive → String
  | void => "void"
  | int8 => "int8"
  | int16 => "int16"
  | int32 => "int32"
  | int64 => "int64"
  | int => "int"
  | bool => "bool"
  | char => "char"

def size : Primitive → Nat
  | void => 0
  | int8 | bool | char => 1
  | int16 => 2
  | int32 => 4
  | int64 | int => 8

def isNumeric : Primitive → Bool
  | int8 | int16 | int32 | int64 | int => true
  | void | bool | char => false

end Primitive

inductive Element where
  | prim (p : Primitive)
  | named (name : String)
deriving DecidableEq, Repr

namespace Element

def name : Element → String
  | prim p => p.name
  | named n => n

/-- A named type is handled through a word. -/
def size : Element → Nat
  | prim p => p.size
  | named _ => wordSize

def isNumeric : Element → Bool
  | prim p => p.isNumeric
  | named _ => false

end Element

inductive Shape where
  | plain
  | pointer
  | array (extents : List Nat)
deriving DecidableEq, Repr

/-- How the shape is written behind the element type. -/
def Shape.text : Shape → String
  | plain => ""
  | pointer => "*"
  | array extents => String.join (extents.map fun n => "[" ++ toString n ++ "]")

structure Ty where
  elem : Element
  shape : Shape := .plain
deriving DecidableEq, Repr

namespace Ty

def void : Ty := ⟨.prim .void, .plain⟩

def int : Ty := ⟨.prim .int, .plain⟩

def bool : Ty := ⟨.prim .bool, .plain⟩

/-- The type of one element: an index or a plain use drops the shape. -/
def element (t : Ty) : Ty := ⟨t.elem, .plain⟩

/-- Whether the element type is a number, whatever the shape. -/
def isNumeric (t : Ty) : Bool := t.elem.isNumeric

/-- Whether the element type is `bool`, whatever the shape. -/
def isBool (t : Ty) : Bool := t.elem == .prim .bool

def isPointer (t : Ty) : Bool := t.shape == .pointer

def elementSize (t : Ty) : Nat := t.elem.size

/-- The number of elements. The extents are multiplied from the first to the last, and every
product on the way has to be a size. -/
def elements? (t : Ty) : Option Nat :=
  match t.shape with
  | .array extents => extents.foldlM mulSize? 1
  | .plain | .pointer => some 1

/-- The bytes that a value takes. -/
def size? (t : Ty) : Option Nat := do
  let n ← t.elements?
  mulSize? n t.elementSize

def render (t : Ty) : String := t.elem.name ++ t.shape.text

/-- Whether a value of one type may stand where the other is expected: numbers of any width
mix, all else needs the same element type, and shapes do not matter. -/
def compatible (s t : Ty) : Bool := s.isNumeric && t.isNumeric || s.elem == t.elem

theorem element_element (t : Ty) : t.element.element = t.element := rfl

theorem compatible_self (t : Ty) : t.compatible t = true := by simp [compatible]

theorem compatible_comm (s t : Ty) : s.compatible t = t.compatible s := by
  simp only [compatible, Bool.and_comm s.isNumeric, BEq.comm (a := s.elem)]

end Ty

end TreeCompiler
