import TreeCompiler.Tree.Program
import TreeCompiler.Scope
import TreeCompiler.Analysis.Options

/-!
Name resolution. One walk over the program declares every name as a symbol, gives each
variable its storage, and writes into each use of a name the symbol it stands for. The walk
opens a scope for the program, for a function, for each branch of a conditional and for a
loop, and one more for the body of a `for`. After the first report it does nothing more
unless it is told to keep going, but what it has opened is still closed.
-/

namespace TreeCompiler

/-- The bytes taken so far in the function that is being resolved. -/
structure Frame where
  variableSize : Nat := 0
  parameterSize : Nat := 0
deriving DecidableEq, Repr

structure Resolver where
  arena : Arena
  scopes : ScopeStack
  errors : List Diagnostic := []
  frame : Option Frame := none
  globals : Nat := 0

namespace Resolver

/-- The bytes that variables take so far: those of the function, or the globals. -/
def used (s : Resolver) : Nat :=
  match s.frame with
  | some f => f.variableSize
  | none => s.globals

def setUsed (s : Resolver) (n : Nat) : Resolver :=
  match s.frame with
  | some f => { s with frame := some { f with variableSize := n } }
  | none => { s with globals := n }

/-- The kind of a variable declared here: only the outermost scope declares globals. -/
def variableKind (s : Resolver) : SymbolKind :=
  match s.scopes.level? with
  | some (_ + 1) => .localVar
  | some 0 | none => .globalVar

end Resolver

abbrev Resolve := StateT Resolver (Except Dangling)

namespace Resolve

/-- Does `act`, or returns `a` untouched once the walk has halted. -/
def unlessHalted {α : Type} (opts : Options) (a : α) (act : Resolve α) : Resolve α := fun s =>
  if opts.halts s.errors then .ok (a, s) else act s

def report (opts : Options) (d : Diagnostic) : Resolve Unit :=
  modify fun s => { s with errors := opts.report s.errors d }

def enter : Resolve Unit := modify fun s => { s with scopes := s.scopes.enter }

def exit : Resolve Unit := modify fun s => { s with scopes := s.scopes.exit }

def inScope {α : Type} (act : Resolve α) : Resolve α := do
  enter
  let a ← act
  exit
  return a

/-- Declares the symbol that a name stands for in the innermost scope. -/
def bind (opts : Options) (x : Ident) (symbol : Symbol) : Resolve (Ident × Option SymbolId) := do
  let s ← get
  if !opts.allowRedeclaration && (s.scopes.lookupCurrent x.name).isSome then
    report opts (.redefinition x.render)
    return (x, none)
  else
    let id := s.arena.size
    set { s with arena := s.arena.push symbol, scopes := s.scopes.bind x.name id }
    return ({ x with symbol := some id }, some id)

/-- Takes storage for a variable, and returns its size and where it ends. If there is no room
it gets no bytes, but it is declared all the same. -/
def placeVariable (opts : Options) (x : Ident) (ty : Ty) : Resolve (Nat × Nat) := do
  let used := (← get).used
  match ty.size?.bind fun size => (storageEnd? used size).map (size, ·) with
  | some (size, stop) =>
    modify (·.setUsed stop)
    return (size, stop)
  | none =>
    report opts (.storageTooLarge x.render)
    return (0, used)

/-- Takes a slot for a parameter, and returns its size and where the slot starts. -/
def placeParameter (opts : Options) (x : Ident) (ty : Ty) : Resolve (Nat × Nat) := do
  let frame := (← get).frame.getD {}
  match ty.size?, storageEnd? frame.parameterSize wordSize with
  | some size, some stop =>
    modify fun s => { s with frame := some { frame with parameterSize := stop } }
    return (size, frame.parameterSize)
  | _, _ =>
    report opts (.storageTooLarge x.render)
    return (0, frame.parameterSize)

/-- Gives the symbol of a function its parameters, if the function was bound. -/
def setParams (id : Option SymbolId) (params : List SymbolId) : Resolve Unit :=
  match id with
  | none => pure ()
  | some id => do
    let _ ← Arena.find (← get).arena id
    modify fun s => { s with arena := Arena.setParams s.arena id params }

end Resolve

/-- Binds a use of a name, and checks that its offset is one of an element. -/
def Ident.resolve (opts : Options) (x : Ident) : Resolve Ident := do
  match (← get).scopes.lookup x.name with
  | none =>
    Resolve.report opts (.undefined x.name)
    return x
  | some id =>
    let symbol ← Arena.find (← get).arena id
    if !symbol.isFunction && symbol.ty.elements?.any (· ≤ x.offset) then
      Resolve.report opts (.indexOutOfBounds x.name x.offset symbol.ty)
    return { x with symbol := some id }

mutual

def Expr.resolve (opts : Options) : Expr → Resolve Expr
  | .int v => pure (.int v)
  | .bool b => pure (.bool b)
  | .name x => Resolve.unlessHalted opts (.name x) do
    let x ← x.resolve opts
    return .name x
  | .binary op l r => Resolve.unlessHalted opts (.binary op l r) do
    let l ← l.resolve opts
    let r ← r.resolve opts
    return .binary op l r
  | .assign x e => Resolve.unlessHalted opts (.assign x e) do
    let x ← x.resolve opts
    let e ← e.resolve opts
    return .assign x e
  | .call f args => Resolve.unlessHalted opts (.call f args) do
    let f ← if f.name == printName then pure f else f.resolve opts
    let args ← Expr.resolveAll opts args
    return .call f args
termination_by structural e => e

def Expr.resolveAll (opts : Options) : List Expr → Resolve (List Expr)
  | [] => pure []
  | e :: rest => do
    let e ← e.resolve opts
    let rest ← Expr.resolveAll opts rest
    return e :: rest
termination_by structural es => es

end

def Expr.resolveOption (opts : Options) : Option Expr → Resolve (Option Expr)
  | none => pure none
  | some e => do
    let e ← e.resolve opts
    return some e

/-- Declares a variable. Its value is resolved before it is bound, so the value does not see
it. -/
def Var.resolve (opts : Options) (v : Var) : Resolve Var := do
  if v.ty.isPointer then
    Resolve.report opts (.unsupportedPointer v.name.render)
    return v
  else
    let kind := (← get).variableKind
    let (size, position) ← Resolve.placeVariable opts v.name v.ty
    let value ← Expr.resolveOption opts v.value
    let (name, _) ← Resolve.bind opts v.name ⟨v.name.name, kind, v.ty, size, position, []⟩
    return ⟨name, v.ty, value⟩

/-- Declares a parameter. A later parameter's fallback sees it. -/
def Param.resolve (opts : Options) (p : Param) : Resolve (Param × Option SymbolId) :=
  Resolve.unlessHalted opts (p, none) do
    if p.ty.isPointer then
      Resolve.report opts (.unsupportedPointer p.name.render)
      return (p, none)
    else
      let (size, position) ← Resolve.placeParameter opts p.name p.ty
      let fallback ← Expr.resolveOption opts p.fallback
      let (name, id) ← Resolve.bind opts p.name ⟨p.name.name, .param, p.ty, size, position, []⟩
      return (⟨name, p.ty, fallback⟩, id)

/-- Declares parameters from left to right, and returns the ids of those that were bound. -/
def Param.resolveAll (opts : Options) : List Param → Resolve (List Param × List SymbolId)
  | [] => pure ([], [])
  | p :: rest => do
    let (p, id) ← p.resolve opts
    let (rest, ids) ← Param.resolveAll opts rest
    return (p :: rest, id.toList ++ ids)

mutual

def Stmt.resolve (opts : Options) : Stmt → Resolve Stmt
  | .expr e => Resolve.unlessHalted opts (.expr e) do
    let e ← e.resolve opts
    return .expr e
  | .decl d => Resolve.unlessHalted opts (.decl d) do
    let d ← d.resolve opts
    return .decl d
  | .ret value => Resolve.unlessHalted opts (.ret value) do
    let value ← Expr.resolveOption opts value
    return .ret value
  | .cond b => Resolve.unlessHalted opts (.cond b) do
    let b ← b.resolve opts
    return .cond b
  | .whileLoop c body => Resolve.unlessHalted opts (.whileLoop c body) <| Resolve.inScope do
    let c ← c.resolve opts
    let body ← Stmt.resolveAll opts body
    return .whileLoop c body
  | .forLoop start c step body =>
    Resolve.unlessHalted opts (.forLoop start c step body) <| Resolve.inScope do
      let start ← Decl.resolveOption opts start
      let c ← c.resolve opts
      let step ← Expr.resolveOption opts step
      let body ← Resolve.inScope (Stmt.resolveAll opts body)
      return .forLoop start c step body
termination_by structural s => s

def Stmt.resolveAll (opts : Options) : List Stmt → Resolve (List Stmt)
  | [] => pure []
  | s :: rest => do
    let s ← s.resolve opts
    let rest ← Stmt.resolveAll opts rest
    return s :: rest
termination_by structural ss => ss

def Branch.resolve (opts : Options) : Branch → Resolve Branch
  | ⟨c, body, tail⟩ => do
    let (c, body) ← Resolve.inScope do
      let c ← c.resolve opts
      let body ← Stmt.resolveAll opts body
      return (c, body)
    let tail ← tail.resolve opts
    return ⟨c, body, tail⟩
termination_by structural b => b

def Tail.resolve (opts : Options) : Tail → Resolve Tail
  | .done => pure .done
  | .elseIf next => do
    let next ← next.resolve opts
    return .elseIf next
  | .otherwise body => do
    let body ← Resolve.inScope (Stmt.resolveAll opts body)
    return .otherwise body
termination_by structural t => t

def Decl.resolve (opts : Options) : Decl → Resolve Decl
  | .globalVar v => Resolve.unlessHalted opts (.globalVar v) do
    let v ← v.resolve opts
    return .globalVar v
  | .localVar v => Resolve.unlessHalted opts (.localVar v) do
    let v ← v.resolve opts
    return .localVar v
  | .function f => Resolve.unlessHalted opts (.function f) do
    let f ← f.resolve opts
    return .function f
termination_by structural d => d

def Decl.resolveOption (opts : Options) : Option Decl → Resolve (Option Decl)
  | none => pure none
  | some d => do
    let d ← d.resolve opts
    return some d
termination_by structural d => d

/-- Declares a function. It is bound before its body is resolved, so it may call itself; its
parameters and its body share one scope. -/
def FunDecl.resolve (opts : Options) : FunDecl → Resolve FunDecl
  | ⟨name, params, returns, body, variableSize, parameterSize⟩ => do
    if (← get).frame.isSome then
      Resolve.report opts (.nestedFunction name.name)
      return ⟨name, params, returns, body, variableSize, parameterSize⟩
    else
      let (name, id) ← Resolve.bind opts name
        ⟨name.name, .function, returns.getD .void, 0, 0, []⟩
      modify fun s => { s with frame := some {} }
      let (params, ids, body) ← Resolve.inScope do
        let (params, ids) ← Param.resolveAll opts params
        let body ← Stmt.resolveAll opts body
        return (params, ids, body)
      let frame := (← get).frame.getD {}
      modify fun s => { s with frame := none }
      Resolve.setParams id ids
      return ⟨name, params, returns, body, frame.variableSize, frame.parameterSize⟩
termination_by structural f => f

end

def Decl.resolveAll (opts : Options) : List Decl → Resolve (List Decl)
  | [] => pure []
  | d :: rest => do
    let d ← d.resolve opts
    let rest ← Decl.resolveAll opts rest
    return d :: rest

/-- Resolves a program in the scope of its globals. -/
def Program.resolve (opts : Options) (p : Program) : Resolve Program :=
  Resolve.inScope (Decl.resolveAll opts p)

end TreeCompiler
