import TreeCompiler.Machine.Register

/-!
The bank of scratch registers: which ones hold a value, and how many did at most.
-/

namespace TreeCompiler

structure Bank where
  used : Vector Bool 7 := Vector.replicate 7 false
  highWater : Nat := 0
deriving DecidableEq, Repr

namespace Bank

def isLive (b : Bank) (r : Scratch) : Bool := b.used[r.index]

/-- The registers in use, in the order of the bank. -/
def live (b : Bank) : List Scratch := Scratch.all.filter b.isLive

def isClear (b : Bank) : Bool := b.live.isEmpty

def claim (b : Bank) (r : Scratch) : Bank :=
  let used := b.used.set r.index true
  { used, highWater := max b.highWater (used.count true) }

def free (b : Bank) (r : Scratch) : Bank := { b with used := b.used.set r.index false }

/-- Takes the first register that is not in use. -/
def alloc? (b : Bank) : Option (Scratch × Bank) :=
  (Scratch.all.find? (!b.isLive ·)).map fun r => (r, b.claim r)

@[simp] theorem isLive_claim (b : Bank) (r q : Scratch) :
    (b.claim r).isLive q = (decide (r = q) || b.isLive q) := by
  by_cases h : r = q
  · simp [claim, isLive, h]
  · have hi : r.index.val ≠ q.index.val := fun e => h (Scratch.index_injective (Fin.ext e))
    simp [claim, isLive, h, Vector.getElem_set_ne, hi]

@[simp] theorem isLive_free (b : Bank) (r q : Scratch) :
    (b.free r).isLive q = (!decide (r = q) && b.isLive q) := by
  by_cases h : r = q
  · simp [free, isLive, h]
  · have hi : r.index.val ≠ q.index.val := fun e => h (Scratch.index_injective (Fin.ext e))
    simp [free, isLive, h, Vector.getElem_set_ne, hi]

theorem mem_live {b : Bank} {r : Scratch} : r ∈ b.live ↔ b.isLive r = true := by
  simp [live, Scratch.mem_all]

/-- A register that is handed out was free. -/
theorem isLive_of_alloc? {b c : Bank} {r : Scratch} (h : b.alloc? = some (r, c)) :
    b.isLive r = false ∧ c = b.claim r := by
  obtain ⟨q, hq, e⟩ := Option.map_eq_some_iff.1 h
  obtain ⟨rfl, rfl⟩ := Prod.mk.inj e
  exact ⟨by simpa using List.find?_some hq, rfl⟩

theorem alloc?_eq_none_iff {b : Bank} : b.alloc? = none ↔ ∀ r, b.isLive r = true := by
  simp [alloc?, Scratch.mem_all]

end Bank

end TreeCompiler
