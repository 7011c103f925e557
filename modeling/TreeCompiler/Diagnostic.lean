import TreeCompiler.Tree.Expr

/-!
What analysis reports about a program, and how each report reads.
-/

namespace TreeCompiler

/-- An expression or a name as a report quotes it, with its type. -/
structure Quoted where
  text : String
  ty : Ty
deriving DecidableEq, Repr

def Quoted.render (q : Quoted) : String := q.text ++ " (" ++ q.ty.render ++ ")"

/-- A construct with a condition. -/
inductive Construct where
  | ifBranch
  | elseIfBranch
  | whileLoop
  | forLoop
deriving DecidableEq, Repr

def Construct.text : Construct → String
  | ifBranch => "if"
  | elseIfBranch => "elseif"
  | whileLoop => "while"
  | forLoop => "for"

inductive Mismatch where
  | arith (op : Arith) (left right : Quoted)
  | compare (left right : Quoted)
  | assign (value target : Quoted)
  | argument (function : String) (position : Nat) (value : Quoted) (expected : Ty)
  | arity (function : String) (expected found : Nat)
  | result (function : String) (value : Quoted) (expected : Ty)
  | condition (construct : Construct) (value : Quoted)
deriving DecidableEq, Repr

def Mismatch.message : Mismatch → String
  | arith .add l r => "cannot add " ++ l.render ++ " to " ++ r.render
  | arith .sub l r => "cannot subtract " ++ r.render ++ " from " ++ l.render
  | arith .mul l r => "cannot multiply " ++ l.render ++ " by " ++ r.render
  | arith .div l r => "cannot divide " ++ l.render ++ " by " ++ r.render
  | compare l r => "cannot compare " ++ l.render ++ " with " ++ r.render
  | assign v t => "cannot assign " ++ v.render ++ " to " ++ t.render
  | argument f n v ty =>
    "cannot pass " ++ v.render ++ " as argument " ++ toString n ++ " of '" ++ f ++
      "', expected " ++ ty.render
  | arity f n m =>
    "'" ++ f ++ "' expects " ++ toString n ++ " argument(s), found " ++ toString m
  | result f v ty =>
    "cannot return " ++ v.render ++ " from '" ++ f ++ "', which returns " ++ ty.render
  | condition c v => c.text ++ " condition must be bool, found " ++ v.render

inductive Diagnostic where
  | undefined (name : String)
  | mismatch (m : Mismatch)
  | missingReturnType (function : String)
  | redefinition (name : String)
  | unsupportedPointer (name : String)
  | nestedFunction (function : String)
  | notAVariable (name : String)
  | notAFunction (name : String)
  | storageTooLarge (name : String)
  | indexOutOfBounds (name : String) (index : Nat) (ty : Ty)
deriving DecidableEq, Repr

namespace Diagnostic

def message : Diagnostic → String
  | undefined x => "'" ++ x ++ "' is not defined"
  | mismatch m => m.message
  | missingReturnType f =>
    "function '" ++ f ++ "' must specify a return type, use 'void' if it returns nothing"
  | redefinition x => "redefinition of '" ++ x ++ "' in the same scope"
  | unsupportedPointer x => "pointer types are not supported, found in declaration of '" ++ x ++ "'"
  | nestedFunction f => "function '" ++ f ++ "' cannot be declared inside another function"
  | notAVariable x => "'" ++ x ++ "' is a function, not a variable"
  | notAFunction x => "'" ++ x ++ "' is not a function"
  | storageTooLarge x => "storage for '" ++ x ++ "' exceeds the addressable frame"
  | indexOutOfBounds x i ty =>
    "index " ++ toString i ++ " is out of bounds for '" ++ x ++ "' (" ++ ty.render ++ ")"

def isMismatch : Diagnostic → Bool
  | mismatch _ => true
  | _ => false

/-- The reports as they are printed, one to a line. -/
def listing (ds : List Diagnostic) : String :=
  String.join (ds.map fun d => "error: " ++ d.message ++ "\n")

end Diagnostic

end TreeCompiler
