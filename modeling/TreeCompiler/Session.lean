import TreeCompiler.Analysis.Resolution
import TreeCompiler.Analysis.Typing
import TreeCompiler.Lowering.Unit
import TreeCompiler.Delivery

/-!
A compilation session holds what the phases share: the symbols, the scopes, the labels issued
and the register bank. Analysis and compilation start from a fresh session with the same
options; the single phases work on the session as it is. A phase that meets a symbol id which
is not in the arena has no result.
-/

namespace TreeCompiler

structure Session where
  options : Options := {}
  arena : Arena := #[]
  scopes : ScopeStack := {}
  labels : Nat := 0
  bank : Bank := {}

/-- A program after analysis, with what was reported about it. -/
structure Analysis where
  session : Session
  program : Program
  errors : List Diagnostic

/-- A unit as far as it was written. -/
structure Emission where
  session : Session
  output : ByteArray
  error : Option EmissionError

inductive CompileError where
  | semantic (errors : List Diagnostic)
  | codegen (e : EmissionError)
deriving DecidableEq, Repr

def CompileError.message : CompileError → String
  | semantic errors => "Semantic analysis failed with " ++ toString errors.length ++ " error(s)"
  | codegen _ => "Code generation failed"

structure Compilation where
  session : Session
  program : Program
  output : ByteArray
  error : Option CompileError

namespace Session

/-- Forgets all but the options. -/
def reset (s : Session) : Session := { options := s.options }

def declare (s : Session) (symbol : Symbol) : SymbolId × Session :=
  (s.arena.size, { s with arena := s.arena.push symbol })

def symbol (s : Session) (id : SymbolId) : Except Dangling Symbol := Arena.find s.arena id

def setParams (s : Session) (id : SymbolId) (params : List SymbolId) : Except Dangling Session := do
  let _ ← s.symbol id
  return { s with arena := Arena.setParams s.arena id params }

def enter (s : Session) : Session := { s with scopes := s.scopes.enter }

def exit (s : Session) : Session := { s with scopes := s.scopes.exit }

def bind (s : Session) (name : String) (id : SymbolId) : Session :=
  { s with scopes := s.scopes.bind name id }

/-- The next label, counted as `Gen.freshLabel` counts. -/
def freshLabel (s : Session) : Label × Session := (⟨s.labels⟩, { s with labels := s.labels + 1 })

def alloc (s : Session) : Except LoweringError (Scratch × Session) :=
  match s.bank.alloc? with
  | some (r, bank) => .ok (r, { s with bank })
  | none => .error .outOfRegisters

def claim (s : Session) (r : Scratch) : Session := { s with bank := s.bank.claim r }

def free (s : Session) (r : Scratch) : Session := { s with bank := s.bank.free r }

/-- Resolves the names of a program in the scopes that are open. -/
def resolve (s : Session) (p : Program) : Except Dangling Analysis := do
  let (program, r) ← (p.resolve s.options).run { arena := s.arena, scopes := s.scopes }
  return ⟨{ s with arena := r.arena, scopes := r.scopes }, program, r.errors⟩

/-- Reports the type errors of a program whose names are bound to the session's symbols. -/
def check (s : Session) (p : Program) : Except Dangling (List Diagnostic) := do
  let (_, errors) ← (p.check ⟨s.options, s.arena⟩).run []
  return errors

/-- Resolves names from a fresh start, and checks types if every name was resolved. -/
def analyze (s : Session) (p : Program) : Except Dangling Analysis := do
  let a ← s.reset.resolve p
  if a.errors.isEmpty then
    let errors ← a.session.check a.program
    return { a with errors }
  else
    return a

/-- Writes the code of a program to an output with that much room. If the output is full, the
labels and registers stay as they were at the line that did not fit.

A unit is lowered in full before its first line is written. To write each line as soon as it is
made would come to the same: a write that fails ends the unit at once, no step of the lowering
reads back what was written, and each line has with it the labels and the bank of its moment. -/
def emit (s : Session) (room : Option Nat) (p : Program) : Except Dangling Emission :=
  let unit := p.lower s.arena { labels := s.labels, bank := s.bank }
  match ({ room } : Sink).writeLines unit.code with
  | (sink, some l) =>
    .ok ⟨{ s with labels := l.labels, bank := l.bank }, sink.written, some .sinkFull⟩
  | (sink, none) =>
    let session := { s with labels := unit.state.labels, bank := unit.state.bank }
    match unit.result with
    | .ok () => .ok ⟨session, sink.written, none⟩
    | .error (.error e) => .ok ⟨session, sink.written, some (.lowering e)⟩
    | .error (.dangling d) => .error d

/-- Analyses a program and, if there is nothing to report, writes its code. -/
def compile (s : Session) (room : Option Nat) (p : Program) : Except Dangling Compilation := do
  let a ← s.analyze p
  if a.errors.isEmpty then
    let e ← a.session.emit room a.program
    return ⟨e.session, a.program, e.output, e.error.map .codegen⟩
  else
    return ⟨a.session, a.program, ByteArray.empty, some (.semantic a.errors)⟩

end Session

end TreeCompiler
