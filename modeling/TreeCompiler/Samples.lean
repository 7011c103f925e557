import TreeCompiler.Tree.Program

/-!
The programs that the command can compile.
-/

namespace TreeCompiler

inductive Sample where
  | sum
  | fibonacci
  | classify
deriving DecidableEq, Repr

namespace Sample

def name : Sample → String
  | sum => "sum"
  | fibonacci => "fibonacci"
  | classify => "classify"

def all : List Sample := [sum, fibonacci, classify]

def ofName? (name : String) : Option Sample := all.find? (·.name == name)

private def var (name : String) (offset : Nat) : Expr := .name ⟨name, offset, none⟩

private def use (name : String) : Expr := var name 0

private def plus (l r : Expr) : Expr := .binary (.arith .add) l r

private def minus (l r : Expr) : Expr := .binary (.arith .sub) l r

private def relate (rel : Rel) (l r : Expr) : Expr := .binary (.compare rel) l r

private def call (f : String) (arg : Expr) : Expr := .call ⟨f, 0, none⟩ [arg]

private def print (e : Expr) : Stmt := .expr (call printName e)

private def set (name : String) (offset : Nat) (e : Expr) : Stmt :=
  .expr (.assign ⟨name, offset, none⟩ e)

private def ret (e : Expr) : Stmt := .ret (some e)

private def function (name : String) (params : List String) (body : List Stmt) : Decl :=
  .function {
    name := ⟨name, 0, none⟩
    params := params.map fun p => ⟨⟨p, 0, none⟩, .int, none⟩
    returns := some .int
    body := body
  }

/-- Prints 2 + 3. -/
def sumProgram : Program := [
  function entryName [] [
    .decl (.localVar ⟨⟨"x", 0, none⟩, .int, some (plus (.int 2) (.int 3))⟩),
    print (use "x"),
    ret (.int 0)]]

/-- Prints the first ten Fibonacci numbers. -/
def fibonacciProgram : Program := [
  .globalVar ⟨⟨"count", 0, none⟩, ⟨.prim .int32, .plain⟩, some (.int 10)⟩,
  function "fibonacci" ["n"] [
    .cond ⟨relate .lt (use "n") (.int 2), [ret (use "n")], .done⟩,
    ret (plus (call "fibonacci" (minus (use "n") (.int 1)))
      (call "fibonacci" (minus (use "n") (.int 2))))],
  function entryName [] [
    .forLoop (some (.localVar ⟨⟨"i", 0, none⟩, .int, some (.int 0)⟩))
      (relate .lt (use "i") (use "count"))
      (some (.assign ⟨"i", 0, none⟩ (plus (use "i") (.int 1))))
      [print (call "fibonacci" (use "i"))],
    ret (.int 0)]]

/-- Prints the class of three numbers: below zero, zero, small or large. -/
def classifyProgram : Program :=
  let chain : Branch := ⟨relate .lt (use "value") (.int 0), [ret (.int (-1))], .done⟩
  let chain := chain.elseIf (relate .eq (use "value") (.int 0)) [ret (.int 0)]
  let chain := chain.elseIf (relate .gt (use "value") (.int 100)) [ret (.int 2)]
  let chain := chain.otherwise [ret (.int 1)]
  [
    function "classify" ["value"] [.cond chain, ret (.int 1)],
    function entryName [] [
      .decl (.localVar ⟨⟨"samples", 0, none⟩, ⟨.prim .int16, .array [3]⟩, none⟩),
      set "samples" 0 (.int (-7)),
      set "samples" 1 (.int 0),
      set "samples" 2 (.int 512),
      print (call "classify" (var "samples" 0)),
      print (call "classify" (var "samples" 1)),
      print (call "classify" (var "samples" 2)),
      ret (.int 0)]]

def program : Sample → Program
  | sum => sumProgram
  | fibonacci => fibonacciProgram
  | classify => classifyProgram

end Sample

end TreeCompiler
