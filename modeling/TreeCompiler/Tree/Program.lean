import TreeCompiler.Tree.Expr

/-!
Statements, declarations and programs. A conditional is a chain of branches, each with its
condition, that ends with or without a final block; `elseIf` and `otherwise` build such a
chain at its far end.
-/

namespace TreeCompiler

structure Var where
  name : Ident
  ty : Ty
  value : Option Expr := none

structure Param where
  name : Ident
  ty : Ty
  fallback : Option Expr := none

mutual

inductive Stmt where
  | expr (e : Expr)
  | decl (d : Decl)
  | ret (value : Option Expr)
  | cond (branch : Branch)
  | whileLoop (condition : Expr) (body : List Stmt)
  | forLoop (start : Option Decl) (condition : Expr) (step : Option Expr) (body : List Stmt)

structure Branch where
  condition : Expr
  body : List Stmt
  tail : Tail

inductive Tail where
  | done
  | elseIf (next : Branch)
  | otherwise (body : List Stmt)

inductive Decl where
  | globalVar (v : Var)
  | localVar (v : Var)
  | function (f : FunDecl)

/-- A function, with the bytes that its variables and its parameters take once its names are
resolved. -/
structure FunDecl where
  name : Ident
  params : List Param
  returns : Option Ty
  body : List Stmt
  variableSize : Nat := 0
  parameterSize : Nat := 0

end

abbrev Program := List Decl

namespace Branch

/-- Puts `tail` at the end of the chain, in place of what ends it now. -/
def withTail (tail : Tail) : Branch → Branch
  | ⟨c, body, .elseIf next⟩ => ⟨c, body, .elseIf (next.withTail tail)⟩
  | ⟨c, body, .done⟩ => ⟨c, body, tail⟩
  | ⟨c, body, .otherwise _⟩ => ⟨c, body, tail⟩

def elseIf (b : Branch) (condition : Expr) (body : List Stmt) : Branch :=
  b.withTail (.elseIf ⟨condition, body, .done⟩)

def otherwise (b : Branch) (body : List Stmt) : Branch :=
  b.withTail (.otherwise body)

end Branch

namespace FunDecl

/-- The bytes by which the stack is lowered on entry. -/
def frameSize (f : FunDecl) : Nat := align16 f.variableSize

/-- The bytes of the result: none without a return type, or if its size is not representable. -/
def returnSize (f : FunDecl) : Nat := (f.returns.bind Ty.size?).getD 0

def isEntry (f : FunDecl) : Bool := f.name.name == entryName

end FunDecl

/-- The functions declared at the top level, in order. -/
def Program.functions (p : Program) : List FunDecl :=
  p.filterMap fun
    | .function f => some f
    | .globalVar _ | .localVar _ => none

/-- The variables declared at the top level, in order. -/
def Program.globals (p : Program) : List Var :=
  p.filterMap fun
    | .globalVar v | .localVar v => some v
    | .function _ => none

end TreeCompiler
