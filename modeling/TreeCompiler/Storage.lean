/-!
Byte counts. A size fits in 32 bits, and the storage of one frame, of one argument list or
of all globals together stays within `storageLimit`, so that rounding it up to 16 and
addressing any byte of it needs only a signed 32-bit displacement.
-/

namespace TreeCompiler

/-- The largest size there is. -/
def maxSize : Nat := 0xFFFFFFFF

/-- The most bytes that one block of storage may take. -/
def storageLimit : Nat := 0x7FFFFFF0

/-- The stack slot of a value: every parameter takes one, whatever its type. -/
def wordSize : Nat := 8

/-- The product of two sizes, if it is a size. -/
def mulSize? (m n : Nat) : Option Nat :=
  if m * n ≤ maxSize then some (m * n) else none

theorem mulSize?_eq_some_iff {m n k : Nat} :
    mulSize? m n = some k ↔ k = m * n ∧ m * n ≤ maxSize := by
  unfold mulSize?
  split <;> simp_all [eq_comm]

/-- Where storage of `size` bytes ends when `used` bytes are taken, if it fits. -/
def storageEnd? (used size : Nat) : Option Nat :=
  if used + size ≤ storageLimit then some (used + size) else none

theorem storageEnd?_eq_some_iff {used size stop : Nat} :
    storageEnd? used size = some stop ↔ stop = used + size ∧ used + size ≤ storageLimit := by
  unfold storageEnd?
  split <;> simp_all [eq_comm]

/-- The next multiple of 16, or the last one that is a size. -/
def align16 (n : Nat) : Nat := min (n + 15) maxSize / 16 * 16

theorem align16_mod (n : Nat) : align16 n % 16 = 0 := by
  unfold align16
  omega

theorem le_align16 {n : Nat} (h : n ≤ storageLimit) : n ≤ align16 n := by
  simp only [align16, storageLimit, maxSize] at *
  omega

end TreeCompiler
