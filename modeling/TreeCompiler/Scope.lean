import TreeCompiler.Symbol

/-!
Lexical scopes. A scope is a hash table with a fixed number of buckets; a name goes to the
end of its bucket, so the first binding of a name in a scope is the one that is found. Scopes
are stacked, and a look-up goes from the innermost scope outwards.
-/

namespace TreeCompiler

structure Binding where
  name : String
  symbol : SymbolId
deriving DecidableEq, Repr

def bucketCount : Nat := 256

/-- The bucket of a name: a polynomial in its UTF-8 bytes. -/
def bucketOf (name : String) : Fin bucketCount :=
  let h : UInt32 := name.toUTF8.foldl (fun h b => h * 31 + b.toUInt32) 0
  ⟨h.toNat % bucketCount, Nat.mod_lt _ (by decide)⟩

structure Scope where
  level : Nat
  buckets : Vector (List Binding) bucketCount

namespace Scope

def empty (level : Nat) : Scope := ⟨level, Vector.replicate bucketCount []⟩

def insert (s : Scope) (name : String) (id : SymbolId) : Scope :=
  let b := bucketOf name
  { s with buckets := s.buckets.set b (s.buckets[b] ++ [⟨name, id⟩]) }

def find? (s : Scope) (name : String) : Option SymbolId :=
  (s.buckets[bucketOf name].find? (·.name == name)).map (·.symbol)

@[simp] theorem find?_empty (level : Nat) (name : String) : (empty level).find? name = none := by
  simp [empty, find?]

/-- A binding that is there already stays the one that is found. -/
@[simp] theorem find?_insert (s : Scope) (x y : String) (id : SymbolId) :
    (s.insert x id).find? y = (s.find? y).or (if x = y then some id else none) := by
  by_cases h : bucketOf x = bucketOf y
  · simp only [insert, find?, h, Fin.getElem_fin, Vector.getElem_set_self, List.find?_append]
    by_cases hxy : x = y <;>
      cases s.buckets[(bucketOf y).val].find? (·.name == y) <;> simp [hxy]
  · have hxy : x ≠ y := fun e => h (e ▸ rfl)
    have hb : (bucketOf x).val ≠ (bucketOf y).val := fun e => h (Fin.ext e)
    simp [insert, find?, hxy, Vector.getElem_set_ne, hb]

@[simp] theorem level_insert (s : Scope) (x : String) (id : SymbolId) :
    (s.insert x id).level = s.level := rfl

end Scope

/-- The open scopes, innermost first. -/
structure ScopeStack where
  scopes : List Scope := []

namespace ScopeStack

/-- The level of the innermost scope. -/
def level? (st : ScopeStack) : Option Nat := st.scopes.head?.map (·.level)

def depth (st : ScopeStack) : Nat := st.scopes.length

def enter (st : ScopeStack) : ScopeStack :=
  let level := match st.level? with
    | some n => n + 1
    | none => 0
  ⟨.empty level :: st.scopes⟩

/-- Closes the innermost scope, if one is open. -/
def exit (st : ScopeStack) : ScopeStack := ⟨st.scopes.tail⟩

/-- Binds a name in the innermost scope. Without an open scope nothing is bound. -/
def bind (st : ScopeStack) (name : String) (id : SymbolId) : ScopeStack :=
  match st.scopes with
  | [] => st
  | s :: outer => ⟨s.insert name id :: outer⟩

def lookup (st : ScopeStack) (name : String) : Option SymbolId :=
  st.scopes.findSome? (·.find? name)

/-- Looks in the innermost scope only. -/
def lookupCurrent (st : ScopeStack) (name : String) : Option SymbolId :=
  st.scopes.head?.bind (·.find? name)

@[simp] theorem exit_enter (st : ScopeStack) : st.enter.exit = st := rfl

@[simp] theorem depth_enter (st : ScopeStack) : st.enter.depth = st.depth + 1 := rfl

@[simp] theorem lookup_enter (st : ScopeStack) (x : String) : st.enter.lookup x = st.lookup x := by
  simp [enter, lookup]

@[simp] theorem lookupCurrent_enter (st : ScopeStack) (x : String) :
    st.enter.lookupCurrent x = none := by
  simp [enter, lookupCurrent]

end ScopeStack

end TreeCompiler
