import TreeCompiler.Tree.Program
import TreeCompiler.Lowering.Expr

/-!
Code for statements. Every construct leaves the bank as it found it. A `return` jumps to the
exit label of its function; a function declared inside another one has no code.
-/

namespace TreeCompiler

/-- Goes to `otherwise` unless the condition holds. -/
def Expr.lowerTest (arena : Arena) (condition : Expr) (otherwise : Label) : Gen Unit := do
  let r ← condition.lower arena
  Gen.instr (.compareOne r)
  Gen.instr (.jumpIf .ne otherwise)
  Gen.free r

/-- Stores the value that a variable starts with, if it has one. -/
def Var.lower (arena : Arena) (v : Var) : Gen Unit :=
  match v.value with
  | none => pure ()
  | some e => do
    let r ← e.lower arena
    v.name.store arena r
    Gen.free r

def Decl.lower (arena : Arena) : Decl → Gen Unit
  | .globalVar v | .localVar v => v.lower arena
  | .function _ => pure ()

def Decl.lowerOption (arena : Arena) : Option Decl → Gen Unit
  | none => pure ()
  | some d => d.lower arena

def Expr.lowerStep (arena : Arena) : Option Expr → Gen Unit
  | none => pure ()
  | some e => e.lowerDropped arena

def Expr.lowerReturned (arena : Arena) : Option Expr → Gen Unit
  | none => Gen.instr .clearResult
  | some e => do
    let r ← e.lower arena
    Gen.instr (.move .rax (.scratch r))
    Gen.free r

mutual

def Stmt.lower (arena : Arena) (exit : Label) : Stmt → Gen Unit
  | .expr e => e.lowerDropped arena
  | .decl d => d.lower arena
  | .ret value => do
    Expr.lowerReturned arena value
    Gen.instr (.jump exit)
  | .cond branch => do
    let stop ← Gen.freshLabel
    branch.lower arena exit stop
    Gen.emit (.label stop)
  | .whileLoop condition body => do
    let top ← Gen.freshLabel
    let bottom ← Gen.freshLabel
    Gen.emit (.label top)
    condition.lowerTest arena bottom
    Stmt.lowerAll arena exit body
    Gen.instr (.jump top)
    Gen.emit (.label bottom)
  | .forLoop start condition step body => do
    Decl.lowerOption arena start
    let top ← Gen.freshLabel
    let bottom ← Gen.freshLabel
    Gen.emit (.label top)
    condition.lowerTest arena bottom
    Stmt.lowerAll arena exit body
    Expr.lowerStep arena step
    Gen.instr (.jump top)
    Gen.emit (.label bottom)
termination_by structural s => s

def Stmt.lowerAll (arena : Arena) (exit : Label) : List Stmt → Gen Unit
  | [] => pure ()
  | s :: rest => do
    s.lower arena exit
    Stmt.lowerAll arena exit rest
termination_by structural ss => ss

/-- One branch and what follows it. Without anything after it a failed test goes straight to
the end of the chain. -/
def Branch.lower (arena : Arena) (exit stop : Label) : Branch → Gen Unit
  | ⟨condition, body, .done⟩ => do
    condition.lowerTest arena stop
    Stmt.lowerAll arena exit body
    Gen.instr (.jump stop)
  | ⟨condition, body, .elseIf next⟩ => do
    let skip ← Gen.freshLabel
    condition.lowerTest arena skip
    Stmt.lowerAll arena exit body
    Gen.instr (.jump stop)
    Gen.emit (.label skip)
    next.lower arena exit stop
  | ⟨condition, body, .otherwise last⟩ => do
    let skip ← Gen.freshLabel
    condition.lowerTest arena skip
    Stmt.lowerAll arena exit body
    Gen.instr (.jump stop)
    Gen.emit (.label skip)
    Stmt.lowerAll arena exit last
    Gen.instr (.jump stop)
termination_by structural b => b

end

end TreeCompiler
