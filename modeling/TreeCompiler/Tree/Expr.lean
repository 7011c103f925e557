import TreeCompiler.Tree.Ty

/-!
Expressions. A name may select an array element by a literal offset, and carries the id of
the symbol it stands for once that is known. An expression is shown with every operation in
parentheses.
-/

namespace TreeCompiler

/-- The position of a symbol in the arena. An id is 32 bits wide: an arena is taken to hold fewer
than `2 ^ 32` symbols, so that no position wraps around. -/
abbrev SymbolId := Nat

structure Ident where
  name : String
  offset : Nat := 0
  symbol : Option SymbolId := none
deriving DecidableEq, Repr

/-- The name of the function at which a program starts. -/
def entryName : String := "main"

/-- The name of the built-in that writes a number. -/
def printName : String := "print"

def Ident.render (x : Ident) : String :=
  if x.offset = 0 then x.name else x.name ++ "[" ++ toString x.offset ++ "]"

inductive Arith where
  | add
  | sub
  | mul
  | div
deriving DecidableEq, Repr

inductive Rel where
  | eq
  | ne
  | gt
  | lt
  | ge
  | le
deriving DecidableEq, Repr

/-- Whether the relation needs an order, and not only an equality. -/
def Rel.isOrdering : Rel → Bool
  | eq | ne => false
  | gt | lt | ge | le => true

inductive BinOp where
  | arith (op : Arith)
  | compare (rel : Rel)
deriving DecidableEq, Repr

namespace BinOp

def text : BinOp → String
  | arith .add => "+"
  | arith .sub => "-"
  | arith .mul => "*"
  | arith .div => "/"
  | compare .eq => "=="
  | compare .ne => "!="
  | compare .gt => ">"
  | compare .lt => "<"
  | compare .ge => ">="
  | compare .le => "<="

def isComparison : BinOp → Bool
  | arith _ => false
  | compare _ => true

def isOrdering : BinOp → Bool
  | arith _ => false
  | compare rel => rel.isOrdering

end BinOp

inductive Expr where
  | int (value : Int64)
  | bool (value : Bool)
  | name (x : Ident)
  | binary (op : BinOp) (left right : Expr)
  | assign (target : Ident) (value : Expr)
  | call (callee : Ident) (args : List Expr)

namespace Expr

mutual

def render : Expr → String
  | int v => toString v.toInt
  | bool true => "true"
  | bool false => "false"
  | name x => x.render
  | binary op l r => "(" ++ l.render ++ " " ++ op.text ++ " " ++ r.render ++ ")"
  | assign x e => x.render ++ " = " ++ e.render
  | call f args => f.render ++ "(" ++ renderArgs args ++ ")"
termination_by structural e => e

def renderArgs : List Expr → String
  | [] => ""
  | e :: rest => e.render ++ renderMore rest
termination_by structural es => es

/-- The arguments after the first, each behind a comma. -/
def renderMore : List Expr → String
  | [] => ""
  | e :: rest => ", " ++ e.render ++ renderMore rest
termination_by structural es => es

end

end Expr

end TreeCompiler
