import TreeCompiler.Tree.Program
import TreeCompiler.Proofs.Evaluation

/-!
What statements and functions do, said without any code.

A statement runs over the memory of its function, and either it comes to its end or it returns
a word. A condition holds if its value is 1. A function inside of a function does nothing where
it stands.
-/

namespace TreeCompiler

variable (env : Setting)

/-- Gives a variable the value it starts with, if it has one. -/
def Var.init (v : Var) (m : Memory) : Option Memory :=
  match v.value with
  | none => some m
  | some e => do
    let (w, m) ← e.eval env m
    let o ← v.name.place? env.arena
    return m.store env.frame o w

def Var.initAll : List Var → Memory → Option Memory
  | [], m => some m
  | v :: rest, m => do
    let m ← v.init env m
    Var.initAll rest m

def Decl.init : Decl → Memory → Option Memory
  | .globalVar v, m => v.init env m
  | .localVar v, m => v.init env m
  | .function _, m => some m

def Decl.initOption : Option Decl → Memory → Option Memory
  | none, m => some m
  | some d, m => d.init env m

/-- The memory after an expression whose value is dropped, if there is one. -/
def Expr.evalOption : Option Expr → Memory → Option Memory
  | none, m => some m
  | some e, m => (e.eval env m).map (·.2)

/-- How a statement ends. -/
inductive Ending where
  | normal
  | returned (v : Word)

/-- What can run: a statement, a block, a branch with what follows it in its chain, or a loop
from its test on. -/
inductive Phrase where
  | stmt (s : Stmt)
  | block (ss : List Stmt)
  | chain (b : Branch)
  | loop (condition : Expr) (step : Option Expr) (body : List Stmt)

/-- Running a phrase from one memory to another, with how it ends. -/
inductive Runs : Phrase → Memory → Ending → Memory → Prop
  | expr {e : Expr} {m m' : Memory} {v : Word} (he : e.eval env m = some (v, m')) :
    Runs (.stmt (.expr e)) m .normal m'
  | decl {d : Decl} {m m' : Memory} (hd : d.init env m = some m') :
    Runs (.stmt (.decl d)) m .normal m'
  | ret {e : Expr} {m m' : Memory} {v : Word} (he : e.eval env m = some (v, m')) :
    Runs (.stmt (.ret (some e))) m (.returned v) m'
  | retZero {m : Memory} : Runs (.stmt (.ret none)) m (.returned 0) m
  | cond {b : Branch} {m m' : Memory} {o : Ending} (hb : Runs (.chain b) m o m') :
    Runs (.stmt (.cond b)) m o m'
  | whileLoop {c : Expr} {body : List Stmt} {m m' : Memory} {o : Ending}
    (hloop : Runs (.loop c none body) m o m') : Runs (.stmt (.whileLoop c body)) m o m'
  | forLoop {start : Option Decl} {c : Expr} {step : Option Expr} {body : List Stmt}
    {m m₁ m' : Memory} {o : Ending} (hstart : Decl.initOption env start m = some m₁)
    (hloop : Runs (.loop c step body) m₁ o m') : Runs (.stmt (.forLoop start c step body)) m o m'
  | nil {m : Memory} : Runs (.block []) m .normal m
  | cons {s : Stmt} {rest : List Stmt} {m m₁ m' : Memory} {o : Ending}
    (hs : Runs (.stmt s) m .normal m₁) (hrest : Runs (.block rest) m₁ o m') :
    Runs (.block (s :: rest)) m o m'
  | leave {s : Stmt} {rest : List Stmt} {m m' : Memory} {v : Word}
    (hs : Runs (.stmt s) m (.returned v) m') : Runs (.block (s :: rest)) m (.returned v) m'
  | taken {c : Expr} {body : List Stmt} {tail : Tail} {m m₁ m' : Memory} {o : Ending}
    (hc : c.eval env m = some (1, m₁)) (hbody : Runs (.block body) m₁ o m') :
    Runs (.chain ⟨c, body, tail⟩) m o m'
  | done {c : Expr} {body : List Stmt} {m m' : Memory} {v : Word}
    (hc : c.eval env m = some (v, m')) (hv : v ≠ 1) : Runs (.chain ⟨c, body, .done⟩) m .normal m'
  | elseIf {c : Expr} {body : List Stmt} {next : Branch} {m m₁ m' : Memory} {v : Word}
    {o : Ending} (hc : c.eval env m = some (v, m₁)) (hv : v ≠ 1)
    (hnext : Runs (.chain next) m₁ o m') : Runs (.chain ⟨c, body, .elseIf next⟩) m o m'
  | otherwise {c : Expr} {body last : List Stmt} {m m₁ m' : Memory} {v : Word} {o : Ending}
    (hc : c.eval env m = some (v, m₁)) (hv : v ≠ 1) (hlast : Runs (.block last) m₁ o m') :
    Runs (.chain ⟨c, body, .otherwise last⟩) m o m'
  | stop {c : Expr} {step : Option Expr} {body : List Stmt} {m m' : Memory} {v : Word}
    (hc : c.eval env m = some (v, m')) (hv : v ≠ 1) : Runs (.loop c step body) m .normal m'
  | again {c : Expr} {step : Option Expr} {body : List Stmt} {m m₁ m₂ m₃ m' : Memory}
    {o : Ending} (hc : c.eval env m = some (1, m₁)) (hbody : Runs (.block body) m₁ .normal m₂)
    (hstep : Expr.evalOption env step m₂ = some m₃) (hloop : Runs (.loop c step body) m₃ o m') :
    Runs (.loop c step body) m o m'
  | leaveLoop {c : Expr} {step : Option Expr} {body : List Stmt} {m m₁ m' : Memory} {v : Word}
    (hc : c.eval env m = some (1, m₁)) (hbody : Runs (.block body) m₁ (.returned v) m') :
    Runs (.loop c step body) m (.returned v) m'

/-- The variables whose values a function sets before its body. -/
def FunDecl.preset (globals : List Var) (f : FunDecl) : List Var :=
  if f.isEntry then globals else []

/-- Running a function. -/
def FunDecl.Runs (globals : List Var) (f : FunDecl) (m : Memory) (o : Ending) (m' : Memory) :
    Prop :=
  ∃ m₁, Var.initAll env (f.preset globals) m = some m₁ ∧
    TreeCompiler.Runs env (.block f.body) m₁ o m'

/-- The result of a function, which has none if it comes to its end without a `return`. The entry
point then has 0. -/
def FunDecl.result? (f : FunDecl) : Ending → Option Word
  | .returned v => some v
  | .normal => if f.isEntry then some 0 else none

end TreeCompiler
