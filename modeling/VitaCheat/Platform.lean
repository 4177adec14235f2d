import Mathlib.Algebra.Group.Nat.Defs
import VitaCheat.Lib.Region

/-!
# The memory interface of the portable core

Sizes and addresses are `size_t` and `uintptr_t` values of 32 or 64 bits, held
as naturals with explicit wrapping. Both C files guard their buffers with the
same multiplication and interval test.
-/
namespace VitaCheat

/-- The target: the width of `size_t` and the object sizes its ABI chooses. -/
structure Platform where
  sizeBits : Nat
  querySize : Nat
  lineSize : Nat
  cheatSize : Nat
  operationSize : Nat
  reportSize : Nat
  sizeBits_eq : sizeBits = 32 ∨ sizeBits = 64
  querySize_pos : 0 < querySize
  lineSize_pos : 0 < lineSize
  cheatSize_pos : 0 < cheatSize
  operationSize_pos : 0 < operationSize
  reportSize_pos : 0 < reportSize
  sizes_lt : ∀ n ∈ [querySize, lineSize, cheatSize, operationSize, reportSize], n < 2 ^ sizeBits

/-- The 32-bit target with four-byte enumerations. -/
def ilp32 : Platform where
  sizeBits := 32
  querySize := 16
  lineSize := 28
  cheatSize := 28
  operationSize := 28
  reportSize := 52
  sizeBits_eq := by decide
  querySize_pos := by decide
  lineSize_pos := by decide
  cheatSize_pos := by decide
  operationSize_pos := by decide
  reportSize_pos := by decide
  sizes_lt := by simp

/-- The 64-bit target with four-byte enumerations. -/
def lp64 : Platform where
  sizeBits := 64
  querySize := 16
  lineSize := 40
  cheatSize := 40
  operationSize := 40
  reportSize := 104
  sizeBits_eq := by decide
  querySize_pos := by decide
  lineSize_pos := by decide
  cheatSize_pos := by decide
  operationSize_pos := by decide
  reportSize_pos := by decide
  sizes_lt := by simp

/-- An object of the caller; the address zero is the null pointer. -/
structure Object (α : Type) where
  address : Nat
  value : α
  deriving DecidableEq, Repr

namespace Platform

variable (p : Platform)

/-- `SIZE_MAX`, which is also `UINTPTR_MAX`. -/
def sizeMax : Nat := 2 ^ p.sizeBits - 1

def add (a b : Nat) : Nat := (a + b) % 2 ^ p.sizeBits

def sub (a b : Nat) : Nat := (a + (2 ^ p.sizeBits - b)) % 2 ^ p.sizeBits

/-- Multiply two sizes, or refuse when the product does not fit. -/
def multiply (left right : Nat) : Option Nat :=
  if left ≠ 0 ∧ right > p.sizeMax / left then none
  else some (left * right % 2 ^ p.sizeBits)

/-- Do two buffers share a byte, or does one of them reach the last address? -/
def overlap (left leftSize right rightSize : Nat) : Bool :=
  if leftSize = 0 ∨ rightSize = 0 ∨ left = 0 ∨ right = 0 then false
  else if left > p.sub p.sizeMax leftSize ∨ right > p.sub p.sizeMax rightSize then true
  else decide (left < p.add right rightSize ∧ right < p.add left leftSize)

theorem sizeMax_ge : 2 ^ 32 - 1 ≤ p.sizeMax := by
  rcases p.sizeBits_eq with h | h
  · simp [sizeMax, h]
  · simp [sizeMax, h]

theorem lt_iff_le_sizeMax (n : Nat) : n < 2 ^ p.sizeBits ↔ n ≤ p.sizeMax := by
  have : 0 < 2 ^ p.sizeBits := Nat.two_pow_pos _
  rw [sizeMax]
  omega

theorem add_eq {a b : Nat} (h : a + b ≤ p.sizeMax) : p.add a b = a + b :=
  Nat.mod_eq_of_lt ((p.lt_iff_le_sizeMax _).mpr h)

theorem sub_eq {a b : Nat} (hb : b ≤ a) (ha : a ≤ p.sizeMax) : p.sub a b = a - b := by
  have hlt := (p.lt_iff_le_sizeMax a).mpr ha
  have hsum : a + (2 ^ p.sizeBits - b) = (a - b) + 2 ^ p.sizeBits := by omega
  rw [sub, hsum, Nat.add_mod_right, Nat.mod_eq_of_lt (by omega)]

theorem overlap_comm (left leftSize right rightSize : Nat) :
    p.overlap left leftSize right rightSize = p.overlap right rightSize left leftSize := by
  have hskip : (leftSize = 0 ∨ rightSize = 0 ∨ left = 0 ∨ right = 0) ↔
      (rightSize = 0 ∨ leftSize = 0 ∨ right = 0 ∨ left = 0) := by omega
  have hwrap := or_comm (a := left > p.sub p.sizeMax leftSize)
    (b := right > p.sub p.sizeMax rightSize)
  have hmeet := and_comm (a := left < p.add right rightSize) (b := right < p.add left leftSize)
  simp only [overlap, hskip, hwrap, hmeet]

/-- The interval test answers false exactly for two regions it lets through. -/
theorem overlap_eq_false {r s : Region} (hr : r.size ≤ p.sizeMax) (hs : s.size ≤ p.sizeMax)
    (hrnull : r.first = 0 → r.size = 0) (hsnull : s.first = 0 → s.size = 0) :
    p.overlap r.first r.size s.first s.size = false ↔ Region.Clear p.sizeMax r s := by
  rw [overlap, Region.Clear]
  split
  · next hskip =>
    simp only [true_iff]
    tauto
  · next hsizes =>
    rw [p.sub_eq hr (Nat.le_refl _), p.sub_eq hs (Nat.le_refl _)]
    split
    · next hwrap =>
      simp only [Bool.true_eq_false, false_iff]
      omega
    · next hfit =>
      rw [p.add_eq (by omega), p.add_eq (by omega), decide_eq_false_iff_not, Region.apart_iff]
      omega

/-- A product is delivered exactly when it fits, and then it is not wrapped. -/
theorem multiply_eq_some {a b n : Nat} :
    p.multiply a b = some n ↔ a * b ≤ p.sizeMax ∧ n = a * b := by
  have hfits : a * b ≤ p.sizeMax → a * b % 2 ^ p.sizeBits = a * b :=
    fun h => Nat.mod_eq_of_lt ((p.lt_iff_le_sizeMax _).mpr h)
  rw [multiply]
  split
  · next h =>
    have hbig : ¬ a * b ≤ p.sizeMax := by
      rw [Nat.mul_comm, ← Nat.le_div_iff_mul_le (Nat.pos_of_ne_zero h.1)]
      omega
    simp [hbig]
  · next h =>
    have hle : a * b ≤ p.sizeMax := by
      by_cases ha : a = 0
      · simp [ha]
      · rw [Nat.mul_comm, ← Nat.le_div_iff_mul_le (Nat.pos_of_ne_zero ha)]
        have := not_and.mp h ha
        omega
    simp [hfits hle, hle, eq_comm]

theorem querySize_le : p.querySize ≤ p.sizeMax :=
  (p.lt_iff_le_sizeMax _).mp (p.sizes_lt _ (by simp))

theorem reportSize_le : p.reportSize ≤ p.sizeMax :=
  (p.lt_iff_le_sizeMax _).mp (p.sizes_lt _ (by simp))

end Platform
end VitaCheat
