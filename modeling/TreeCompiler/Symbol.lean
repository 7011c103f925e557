import TreeCompiler.Tree.Expr

/-!
Symbols and the arena that holds them. A symbol is known by its position in the arena, and a
position past the end is `Dangling`: trees can be bound by hand, so it can occur.
-/

namespace TreeCompiler

inductive SymbolKind where
  | localVar
  | param
  | globalVar
  | function
deriving DecidableEq, Repr

/-- What a declared name stands for. A variable has a size and a position in its storage: a
local ends `position` bytes below the frame, a parameter starts `position` bytes into the
arguments. A function has its parameters. -/
structure Symbol where
  name : String
  kind : SymbolKind
  ty : Ty
  size : Nat := 0
  position : Nat := 0
  params : List SymbolId := []
deriving DecidableEq, Repr

def Symbol.isFunction (s : Symbol) : Bool := s.kind == .function

abbrev Arena := Array Symbol

/-- A symbol id that is not in the arena. -/
structure Dangling where
  id : SymbolId
deriving DecidableEq, Repr

/-- The symbol with that id. -/
def Arena.find (arena : Arena) (id : SymbolId) : Except Dangling Symbol :=
  match arena[id]? with
  | some s => .ok s
  | none => .error ⟨id⟩

theorem Arena.find_eq_ok_iff {arena : Arena} {id : SymbolId} {s : Symbol} :
    Arena.find arena id = .ok s ↔ arena[id]? = some s := by
  unfold Arena.find
  cases arena[id]? <;> simp

theorem Arena.find_eq_error_iff {arena : Arena} {id : SymbolId} {d : Dangling} :
    Arena.find arena id = .error d ↔ arena.size ≤ id ∧ d = ⟨id⟩ := by
  unfold Arena.find
  rcases Nat.lt_or_ge id arena.size with h | h
  · simp [Array.getElem?_eq_getElem h, Nat.not_le_of_lt h]
  · simp [h, eq_comm]

/-- Gives the function with that id its parameters. -/
def Arena.setParams (arena : Arena) (id : SymbolId) (params : List SymbolId) : Arena :=
  arena.modify id fun s => { s with params }

end TreeCompiler
