import TreeCompiler.Lowering.Gen

/-!
Code for expressions. The value of an expression ends up in a scratch register that belongs to
the caller of the step. A call first saves every register in use, so that its arguments and
the callee have the whole bank.
-/

namespace TreeCompiler

/-- The bytes between the frame and the first argument: the caller's frame and the return
address. -/
def argumentBase : Nat := 2 * wordSize

/-- Where element `offset` of a variable is. -/
def Symbol.locate (s : Symbol) (offset : Nat) : Except LoweringError Operand :=
  match mulSize? offset s.ty.elementSize with
  | none => .error (.outOfBounds s.name offset)
  | some bias =>
    if bias ≠ 0 ∧ s.size ≤ bias then .error (.outOfBounds s.name offset)
    else
      let width := Width.ofSize s.ty.elementSize
      match s.kind with
      | .globalVar => .ok ⟨width, .symbol (globalSymbol s.name) bias⟩
      | .localVar => .ok ⟨width, .frame ((bias : Int) - s.position)⟩
      | .param => .ok ⟨width, .frame ((argumentBase : Int) + s.position + bias)⟩
      | .function => .error (.notAddressable s.name)

/-- The operand that a name stands for. -/
def Ident.operand (arena : Arena) (x : Ident) : Gen Operand :=
  match x.symbol with
  | none => Gen.stop (.unresolved x.render)
  | some id => do
    let symbol ← Gen.symbol arena id
    Gen.ofExcept (symbol.locate x.offset)

def Ident.load (arena : Arena) (x : Ident) : Gen Scratch := do
  let operand ← x.operand arena
  let r ← Gen.alloc
  Gen.instr (.load r operand)
  return r

def Ident.store (arena : Arena) (x : Ident) (r : Scratch) : Gen Unit := do
  let operand ← x.operand arena
  Gen.instr (.store operand r)

namespace Gen

def constant (value : Int64) : Gen Scratch := do
  let r ← alloc
  instr (.const r value)
  return r

/-- Combines two values into the register of the first, and gives up the second. -/
def arith (op : Arith) (l r : Scratch) : Gen Scratch := do
  match op with
  | .add => instr (.add l r)
  | .sub => instr (.sub l r)
  | .mul => instr (.mul l r)
  | .div =>
    instr (.move .rax (.scratch l))
    instr .signExtend
    instr (.div r)
    instr (.move (.scratch l) .rax)
  free r
  return l

/-- Compares two values, gives up both registers, and leaves 1 or 0 in the first free one. -/
def compare (rel : Rel) (l r : Scratch) : Gen Scratch := do
  instr (.compare l r)
  free r
  free l
  let result ← alloc
  let skip ← freshLabel
  instr (.const result 0)
  instr (.jumpIf rel.negated skip)
  instr (.const result 1)
  emit (.label skip)
  return result

def combine (op : BinOp) (l r : Scratch) : Gen Scratch :=
  match op with
  | .arith op => arith op l r
  | .compare rel => compare rel l r

def saveAll : List Scratch → Gen Unit
  | [] => pure ()
  | r :: rest => do
    push r
    free r
    saveAll rest

/-- Saves the registers in use on the stack, and returns them in the order of the bank. -/
def save : Gen (List Scratch) := do
  let live ← liveRegisters
  saveAll live
  return live

/-- Takes back saved registers, the last one first. -/
def restore : List Scratch → Gen Unit
  | [] => pure ()
  | r :: rest => do
    restore rest
    pop r
    claim r

/-- Takes the result of a call. -/
def takeResult : Gen Scratch := do
  let r ← alloc
  instr (.move (.scratch r) .rax)
  return r

end Gen

mutual

def Expr.lower (arena : Arena) : Expr → Gen Scratch
  | .int v => Gen.constant v
  | .bool true => Gen.constant 1
  | .bool false => Gen.constant 0
  | .name x => x.load arena
  | .assign x e => do
    let r ← e.lower arena
    x.store arena r
    return r
  | .binary op left right => do
    let l ← left.lower arena
    let r ← right.lower arena
    Gen.combine op l r
  | .call f args =>
    if f.name == printName then do
      let saved ← Gen.save
      let padding ← Gen.pad 0
      Expr.lowerPrinted arena args
      Gen.instr (.call printSymbol)
      Gen.dropWords padding
      Gen.restore saved
      Gen.takeResult
    else do
      let saved ← Gen.save
      let padding ← Gen.pad args.length
      Expr.lowerArgs arena args
      Gen.instr (.call (functionSymbol f.name))
      Gen.dropWords (args.length + padding)
      Gen.restore saved
      Gen.takeResult
termination_by structural e => e

/-- Pushes the arguments of a call, the last one first. -/
def Expr.lowerArgs (arena : Arena) : List Expr → Gen Unit
  | [] => pure ()
  | e :: rest => do
    Expr.lowerArgs arena rest
    let r ← e.lower arena
    Gen.push r
    Gen.free r
termination_by structural es => es

/-- Moves the value to print to where the routine takes it. -/
def Expr.lowerPrinted (arena : Arena) : List Expr → Gen Unit
  | [] => pure ()
  | e :: rest => do
    let r ← e.lower arena
    Gen.instr (.move .rdi (.scratch r))
    Gen.free r
    Expr.lowerPrinted arena rest
termination_by structural es => es

end

/-- Evaluates an expression and drops its value. -/
def Expr.lowerDropped (arena : Arena) (e : Expr) : Gen Unit := do
  let r ← e.lower arena
  Gen.free r

end TreeCompiler
