import Mathlib.Logic.Function.Basic
import Mathlib.Tactic.Lemma
import Mathlib.Data.Nat.Notation
import TreeCompiler.Machine.Register

/-!
Words kept as bytes, the lowest byte first.

A memory is any map to bytes, and a value of `n` bytes stands at `n` places of it. Reading
extends the sign of what is there to a whole word; writing keeps the low bytes of a word.
The two facts that later parts live on: eight bytes read back are the word that was written,
and a map of places that confuses no two of them may be applied before or after a write.
-/

namespace TreeCompiler

abbrev Byte := BitVec 8

abbrev Word := BitVec 64

def Width.bytes : Width → ℕ
  | byte => 1
  | word => 2
  | dword => 4
  | qword => 8

variable {ι κ : Type}

/-- Byte `i` of a word, counted from the low end. -/
def byteOf (v : Word) (i : ℕ) : Byte := v.extractLsb' (8 * i) 8

/-- The `n` bytes at these places, put together. -/
def readBytes (m : ι → Byte) (place : ℕ → ι) : (n : ℕ) → BitVec (8 * n)
  | 0 => 0#0
  | n + 1 => readBytes m (fun i => place (i + 1)) n ++ m (place 0)

/-- The value of `n` bytes as a word, with its sign. -/
def loadBytes (m : ι → Byte) (place : ℕ → ι) (n : ℕ) : Word := (readBytes m place n).signExtend 64

/-- Puts the low `n` bytes of a word at these places. -/
def storeBytes [DecidableEq ι] (m : ι → Byte) (place : ℕ → ι) (v : Word) : ℕ → ι → Byte
  | 0 => m
  | n + 1 => Function.update (storeBytes m place v n) (place n) (byteOf v n)

lemma readBytes_congr {m : ι → Byte} {m' : κ → Byte} {place : ℕ → ι} {place' : ℕ → κ} {n : ℕ}
    (h : ∀ i < n, m (place i) = m' (place' i)) : readBytes m place n = readBytes m' place' n := by
  induction n generalizing place place' with
  | zero => rfl
  | succ n ih =>
    have hrest : readBytes m (fun i => place (i + 1)) n =
        readBytes m' (fun i => place' (i + 1)) n :=
      ih fun i hi => h (i + 1) (by omega)
    rw [readBytes, readBytes, h 0 (by omega), hrest]

lemma loadBytes_congr {m : ι → Byte} {m' : κ → Byte} {place : ℕ → ι} {place' : ℕ → κ} {n : ℕ}
    (h : ∀ i < n, m (place i) = m' (place' i)) : loadBytes m place n = loadBytes m' place' n := by
  rw [loadBytes, loadBytes, readBytes_congr h]

lemma getLsbD_readBytes (m : ι → Byte) (place : ℕ → ι) {n j : ℕ} (hj : j < 8 * n) :
    (readBytes m place n).getLsbD j = (m (place (j / 8))).getLsbD (j % 8) := by
  induction n generalizing place j with
  | zero => omega
  | succ n ih =>
    rw [readBytes, BitVec.getLsbD_append]
    split
    · next h => rw [show j / 8 = 0 by omega, Nat.mod_eq_of_lt h]
    · next h =>
      rw [ih (fun i => place (i + 1)) (by omega), show (j - 8) / 8 + 1 = j / 8 by omega,
        show (j - 8) % 8 = j % 8 by omega]

/-- Fewer bytes at the same places are the low end of the word. -/
lemma loadBytes_low (m : ι → Byte) (place : ℕ → ι) {n : ℕ} (hn : n ≤ 8) :
    loadBytes m place n = ((loadBytes m place 8).setWidth (8 * n)).signExtend 64 := by
  rw [loadBytes]
  congr 1
  apply BitVec.eq_of_getLsbD_eq
  intro j hj
  rw [getLsbD_readBytes _ _ hj, BitVec.getLsbD_setWidth, loadBytes, BitVec.getLsbD_signExtend,
    if_pos (by omega), getLsbD_readBytes _ _ (by omega)]
  simp [hj, show j < 64 by omega]

variable [DecidableEq ι] [DecidableEq κ]

lemma storeBytes_of_ne {m : ι → Byte} {place : ℕ → ι} {v : Word} {n : ℕ} {c : ι}
    (h : ∀ i < n, place i ≠ c) : storeBytes m place v n c = m c := by
  induction n with
  | zero => rfl
  | succ n ih =>
    rw [storeBytes, Function.update_of_ne (h n (by omega)).symm]
    exact ih fun i hi => h i (by omega)

lemma storeBytes_place {m : ι → Byte} {place : ℕ → ι} (hinj : place.Injective) (v : Word)
    {n i : ℕ} (hi : i < n) : storeBytes m place v n (place i) = byteOf v i := by
  induction n with
  | zero => omega
  | succ n ih =>
    rw [storeBytes]
    by_cases h : i = n
    · rw [h, Function.update_self]
    · rw [Function.update_of_ne fun e => h (hinj e)]
      exact ih (by omega)

/-- Eight bytes are a whole word: nothing is lost. -/
lemma loadBytes_storeBytes {m : ι → Byte} {place : ℕ → ι} (hinj : place.Injective) (v : Word) :
    loadBytes (storeBytes m place v 8) place 8 = v := by
  apply BitVec.eq_of_getLsbD_eq
  intro j hj
  rw [loadBytes, BitVec.getLsbD_signExtend, if_pos (by omega), getLsbD_readBytes _ _ (by omega),
    storeBytes_place hinj v (by omega), byteOf, BitVec.getLsbD_extractLsb',
    show 8 * (j / 8) + j % 8 = j by omega]
  simp [hj, show j % 8 < 8 by omega]

/-- A write seen through a map of places. -/
lemma storeBytes_comp {φ : ι → κ} (hinj : φ.Injective) (m : κ → Byte) (place : ℕ → ι) (v : Word)
    (n : ℕ) : storeBytes m (φ ∘ place) v n ∘ φ = storeBytes (m ∘ φ) place v n := by
  induction n with
  | zero => rfl
  | succ n ih =>
    rw [storeBytes, storeBytes, ← ih]
    exact Function.update_comp_eq_of_injective _ hinj _ _

end TreeCompiler
