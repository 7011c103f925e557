import TreeCompiler.Tree.Program
import TreeCompiler.Symbol
import TreeCompiler.Analysis.Options

/-!
Type checking of a resolved program. Every expression gets a type, also one that is at fault,
so that checking goes on; a name without a symbol has type `void`. A report names the parts at
fault as they are written, with their types.
-/

namespace TreeCompiler

abbrev Check := StateT (List Diagnostic) (Except Dangling)

namespace Check

def unlessHalted (opts : Options) (act : Check Unit) : Check Unit := fun errors =>
  if opts.halts errors then .ok ((), errors) else act errors

def report (opts : Options) (d : Diagnostic) : Check Unit :=
  modify fun errors => opts.report errors d

/-- Reports a mismatch unless all is well. The report is not built before it is needed. -/
@[macro_inline] def require (opts : Options) (ok : Bool) (m : Mismatch) : Check Unit :=
  if ok then pure () else report opts (.mismatch m)

end Check

/-- What checking looks up: how to report, and the symbols. -/
structure CheckContext where
  opts : Options
  arena : Arena

/-- The function around a statement. -/
structure Enclosing where
  name : String
  returns : Ty
deriving DecidableEq, Repr

/-- The type of a name as a variable: that of one element. -/
def Ident.variableType (ctx : CheckContext) (x : Ident) : Check Ty :=
  match x.symbol with
  | none => pure .void
  | some id => do
    let symbol ← Arena.find ctx.arena id
    if symbol.isFunction then
      Check.report ctx.opts (.notAVariable x.name)
      return .void
    else
      return symbol.ty.element

/-- Whether the operator takes operands of these types: equality needs compatible types, all
else needs numbers. -/
def BinOp.accepts (op : BinOp) (left right : Ty) : Bool :=
  if op.isComparison && !op.isOrdering then left.compatible right
  else left.isNumeric && right.isNumeric

def BinOp.resultType : BinOp → Ty
  | .arith _ => .int
  | .compare _ => .bool

def BinOp.mismatch (left right : Quoted) : BinOp → Mismatch
  | .arith op => .arith op left right
  | .compare _ => .compare left right

/-- Compares arguments with parameters one by one, the first of them being the argument at
`position`. -/
def checkArgs (ctx : CheckContext) (function : String) (position : Nat) :
    List (Expr × Ty) → List SymbolId → Check Unit
  | (e, t) :: args, id :: ids => do
    let param ← Arena.find ctx.arena id
    Check.require ctx.opts (param.ty.compatible t)
      (.argument function position ⟨e.render, t⟩ param.ty)
    checkArgs ctx function (position + 1) args ids
  | [], _ => pure ()
  | _, [] => pure ()

/-- The type of a call with these arguments. -/
def Ident.callType (ctx : CheckContext) (f : Ident) (args : List (Expr × Ty)) : Check Ty :=
  if f.name == printName then do
    Check.require ctx.opts (args.length == 1) (.arity f.render 1 args.length)
    return .void
  else
    match f.symbol with
    | none => pure .void
    | some id => do
      let symbol ← Arena.find ctx.arena id
      if !symbol.isFunction then
        Check.report ctx.opts (.notAFunction f.render)
        return .void
      else if symbol.params.length ≠ args.length then
        Check.report ctx.opts (.mismatch (.arity f.render symbol.params.length args.length))
        return symbol.ty
      else
        checkArgs ctx f.render 1 args symbol.params
        return symbol.ty

mutual

/-- The type of an expression. -/
def Expr.infer (ctx : CheckContext) : Expr → Check Ty
  | .int _ => pure .int
  | .bool _ => pure .bool
  | .name x => x.variableType ctx
  | .binary op l r => do
    let lt ← l.infer ctx
    let rt ← r.infer ctx
    Check.require ctx.opts (op.accepts lt rt) (op.mismatch ⟨l.render, lt⟩ ⟨r.render, rt⟩)
    return op.resultType
  | .assign x e => do
    let xt ← x.variableType ctx
    let et ← e.infer ctx
    Check.require ctx.opts (xt.compatible et) (.assign ⟨e.render, et⟩ ⟨x.render, xt⟩)
    return et
  | .call f args => do
    let args ← Expr.inferAll ctx args
    f.callType ctx args
termination_by structural e => e

/-- Each expression with its type. -/
def Expr.inferAll (ctx : CheckContext) : List Expr → Check (List (Expr × Ty))
  | [] => pure []
  | e :: rest => do
    let t ← e.infer ctx
    let rest ← Expr.inferAll ctx rest
    return (e, t) :: rest
termination_by structural es => es

end

/-- Infers an expression whose type does not matter. -/
def Expr.check (ctx : CheckContext) (e : Expr) : Check Unit := do
  let _ ← e.infer ctx

def Expr.checkOption (ctx : CheckContext) : Option Expr → Check Unit
  | none => pure ()
  | some e => e.check ctx

/-- Checks the value that a declared name starts with. An array takes a value of its element
type. -/
def Expr.checkInitial (ctx : CheckContext) (x : Ident) (ty : Ty) : Option Expr → Check Unit
  | none => pure ()
  | some e => do
    let t ← e.infer ctx
    Check.require ctx.opts (ty.element.compatible t) (.assign ⟨e.render, t⟩ ⟨x.render, ty⟩)

def Expr.checkCondition (ctx : CheckContext) (construct : Construct) (e : Expr) : Check Unit := do
  let t ← e.infer ctx
  Check.require ctx.opts t.isBool (.condition construct ⟨e.render, t⟩)

/-- Checks a returned value. Outside of a function any value may be returned. -/
def checkReturn (ctx : CheckContext) (enclosing : Option Enclosing) (value : Option Expr) :
    Check Unit := do
  let returned : Quoted ← match value with
    | some e => do
      let t ← e.infer ctx
      pure ⟨e.render, t⟩
    | none => pure ⟨"nothing", .void⟩
  match enclosing with
  | none => pure ()
  | some f =>
    Check.require ctx.opts (f.returns.compatible returned.ty) (.result f.name returned f.returns)

def Var.check (ctx : CheckContext) (v : Var) : Check Unit :=
  Expr.checkInitial ctx v.name v.ty v.value

def Param.checkAll (ctx : CheckContext) : List Param → Check Unit
  | [] => pure ()
  | p :: rest => do
    Expr.checkInitial ctx p.name p.ty p.fallback
    Param.checkAll ctx rest

/-- The return type of a function, which must be given. -/
def checkReturnType (ctx : CheckContext) (name : Ident) : Option Ty → Check Ty
  | some ty => pure ty
  | none => do
    Check.report ctx.opts (.missingReturnType name.render)
    return .void

mutual

def Stmt.check (ctx : CheckContext) (enclosing : Option Enclosing) : Stmt → Check Unit
  | .expr e => Check.unlessHalted ctx.opts (e.check ctx)
  | .decl d => Check.unlessHalted ctx.opts (d.check ctx)
  | .ret value => Check.unlessHalted ctx.opts (checkReturn ctx enclosing value)
  | .cond b => Check.unlessHalted ctx.opts (b.check ctx enclosing .ifBranch)
  | .whileLoop c body => Check.unlessHalted ctx.opts do
    c.checkCondition ctx .whileLoop
    Stmt.checkAll ctx enclosing body
  | .forLoop start c step body => Check.unlessHalted ctx.opts do
    Decl.checkOption ctx start
    c.checkCondition ctx .forLoop
    Expr.checkOption ctx step
    Stmt.checkAll ctx enclosing body
termination_by structural s => s

def Stmt.checkAll (ctx : CheckContext) (enclosing : Option Enclosing) : List Stmt → Check Unit
  | [] => pure ()
  | s :: rest => do
    s.check ctx enclosing
    Stmt.checkAll ctx enclosing rest
termination_by structural ss => ss

def Branch.check (ctx : CheckContext) (enclosing : Option Enclosing) (construct : Construct) :
    Branch → Check Unit
  | ⟨c, body, tail⟩ => do
    c.checkCondition ctx construct
    Stmt.checkAll ctx enclosing body
    tail.check ctx enclosing
termination_by structural b => b

def Tail.check (ctx : CheckContext) (enclosing : Option Enclosing) : Tail → Check Unit
  | .done => pure ()
  | .elseIf next => next.check ctx enclosing .elseIfBranch
  | .otherwise body => Stmt.checkAll ctx enclosing body
termination_by structural t => t

def Decl.check (ctx : CheckContext) : Decl → Check Unit
  | .globalVar v => Check.unlessHalted ctx.opts (v.check ctx)
  | .localVar v => Check.unlessHalted ctx.opts (v.check ctx)
  | .function f => Check.unlessHalted ctx.opts (f.check ctx)
termination_by structural d => d

def Decl.checkOption (ctx : CheckContext) : Option Decl → Check Unit
  | none => pure ()
  | some d => d.check ctx
termination_by structural d => d

def FunDecl.check (ctx : CheckContext) : FunDecl → Check Unit
  | ⟨name, params, returns, body, _, _⟩ => do
    let returns ← checkReturnType ctx name returns
    Param.checkAll ctx params
    Stmt.checkAll ctx (some ⟨name.render, returns⟩) body
termination_by structural f => f

end

def Program.check (ctx : CheckContext) : Program → Check Unit
  | [] => pure ()
  | d :: rest => do
    d.check ctx
    Program.check ctx rest

end TreeCompiler
