import TreeCompiler.Lowering.Stmt

/-!
Code for a whole program: the routine that prints, the functions, the storage of the globals
and the format of a number.
-/

namespace TreeCompiler

/-- The start of every unit, with the routine that writes the number it is given. -/
def preludeLines : List Line := [
  .segment "text",
  .relativeAddresses,
  .external "printf",
  .external "exit",
  .exported entryName,
  .blank,
  .routine printSymbol,
  .instr (.push .rbp),
  .instr (.move .rbp .rsp),
  .instr (.move .rsi .rdi),
  .instr .loadFormat,
  .instr .clearResult,
  .instr (.callExternal "printf"),
  .instr (.pop .rbp),
  .instr .ret]

/-- Storage for the globals of the arena. Each has at least one byte, so that each has an
address of its own. -/
def reserveLines (arena : Arena) : List Line :=
  match arena.toList.filter (·.kind == .globalVar) with
  | [] => []
  | globals =>
    [.blank, .segment "bss"] ++
      globals.map fun s => .reserve (globalSymbol s.name) (max s.size 1)

def dataLines : List Line := [.blank, .segment "data", .format]

def Var.lowerAll (arena : Arena) : List Var → Gen Unit
  | [] => pure ()
  | v :: rest => do
    v.lower arena
    Var.lowerAll arena rest

def openFrame (bytes : Nat) : List Line :=
  [.instr (.push .rbp), .instr (.move .rbp .rsp)] ++
    if bytes = 0 then [] else [.instr (.lowerStack bytes)]

def closeFrame (bytes : Nat) : List Line :=
  (if bytes = 0 then [] else [.instr (.raiseStack bytes)]) ++ [.instr (.pop .rbp)]

/-- Ends the process with the result of the entry point. -/
def leaveProcess : List Line :=
  [.instr (.move .rdi .rax), .instr .alignStack, .instr (.callExternal "exit")]

/-- One function. The entry point first gives the globals their values, and where it ends
without a `return` its result is 0. -/
def FunDecl.lower (arena : Arena) (globals : List Var) (f : FunDecl) : Gen Unit := do
  Gen.emitAll [.blank, .routine (functionSymbol f.name.name)]
  Gen.emitAll (openFrame f.frameSize)
  let exit ← Gen.freshLabel
  Gen.setDepth 0
  if f.isEntry then
    Var.lowerAll arena globals
    Stmt.lowerAll arena exit f.body
    Gen.instr .clearResult
  else
    Stmt.lowerAll arena exit f.body
  Gen.emit (.label exit)
  Gen.emitAll (closeFrame f.frameSize)
  Gen.emitAll (if f.isEntry then leaveProcess else [.instr .ret])

def FunDecl.lowerAll (arena : Arena) (globals : List Var) : List FunDecl → Gen Unit
  | [] => pure ()
  | f :: rest => do
    f.lower arena globals
    FunDecl.lowerAll arena globals rest

def Program.lower (arena : Arena) (p : Program) : Gen Unit := do
  Gen.emitAll preludeLines
  FunDecl.lowerAll arena p.globals p.functions
  Gen.emitAll (reserveLines arena)
  Gen.emitAll dataLines

end TreeCompiler
