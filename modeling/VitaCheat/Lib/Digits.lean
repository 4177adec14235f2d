import Mathlib.Algebra.BigOperators.Group.Finset.Basic
import Mathlib.Algebra.Order.BigOperators.Group.Finset
import Mathlib.Data.Nat.Digits.Defs
import Mathlib.Tactic.Ring

/-!
# Numbers from digits

The value of a little-endian digit sequence, the word operation that appends a
digit to it, the two's complement reading of a value, and numbers written with
the most significant digit first.
-/
namespace Digits

/-- The first `n` digits in base `b`, least significant first. -/
def value (b : Nat) (digit : Nat → Nat) (n : Nat) : Nat :=
  ∑ i ∈ Finset.range n, digit i * b ^ i

@[simp] theorem value_zero (b : Nat) (digit : Nat → Nat) : value b digit 0 = 0 := rfl

theorem value_succ (b : Nat) (digit : Nat → Nat) (n : Nat) :
    value b digit (n + 1) = value b digit n + digit n * b ^ n :=
  Finset.sum_range_succ _ _

theorem value_lt {b : Nat} {digit : Nat → Nat} {n : Nat} (h : ∀ i, i < n → digit i < b) :
    value b digit n < b ^ n := by
  induction n with
  | zero => simp
  | succ n ih =>
    have hlow := ih (fun i hi => h i (by omega))
    have hdigit : digit n * b ^ n ≤ (b - 1) * b ^ n := by
      have := h n (by omega)
      exact Nat.mul_le_mul_right _ (by omega)
    have hsplit : (b - 1) * b ^ n + b ^ n = b ^ (n + 1) := by
      obtain ⟨c, hc⟩ : ∃ c, b = c + 1 := ⟨b - 1, by have := h n (by omega); omega⟩
      rw [hc, Nat.add_sub_cancel]
      ring
    rw [value_succ]
    omega

theorem value_congr {b : Nat} {digit digit' : Nat → Nat} {n : Nat}
    (h : ∀ i, i < n → digit i = digit' i) : value b digit n = value b digit' n := by
  induction n with
  | zero => rfl
  | succ n ih =>
    rw [value_succ, value_succ, ih fun i hi => h i (by omega), h n (by omega)]

/-- The digits of a number have its value modulo their range. -/
theorem value_digits (b v n : Nat) : value b (fun i => v / b ^ i % b) n = v % b ^ n := by
  induction n with
  | zero => simp [Nat.mod_one]
  | succ n ih => rw [value_succ, ih, Nat.pow_succ, Nat.mod_mul, Nat.mul_comm (b ^ n)]

/-- Or-ing a shifted word onto a smaller value adds it. -/
theorem toNat_or_shiftLeft {w : Nat} {a b : BitVec w} {k : Nat} (ha : a.toNat < 2 ^ k)
    (hb : b.toNat * 2 ^ k < 2 ^ w) : (a ||| (b <<< k)).toNat = a.toNat + b.toNat * 2 ^ k := by
  rw [BitVec.toNat_or, BitVec.toNat_shiftLeft, Nat.shiftLeft_eq, Nat.mod_eq_of_lt hb, Nat.or_comm,
    ← Nat.shiftLeft_eq, ← Nat.shiftLeft_add_eq_or_of_lt ha, Nat.shiftLeft_eq]
  omega

/-- The two's complement reading of an unsigned value of the given width. -/
def signed (bits n : Nat) : Int := if 2 ^ (bits - 1) ≤ n then (n : Int) - 2 ^ bits else n

/-- Different values of one width have different readings. -/
theorem signed_inj {bits m n : Nat} (hm : m < 2 ^ bits) (hn : n < 2 ^ bits)
    (h : signed bits m = signed bits n) : m = n := by
  have hm' : (m : Int) < 2 ^ bits := by exact_mod_cast hm
  have hn' : (n : Int) < 2 ^ bits := by exact_mod_cast hn
  unfold signed at h
  split at h <;> split at h <;> omega

/-- The value of digits written most significant first. -/
def written (b : Nat) (ds : List Nat) : Nat := Nat.ofDigits b ds.reverse

@[simp] theorem written_nil (b : Nat) : written b [] = 0 := rfl

theorem written_cons (b d : Nat) (ds : List Nat) :
    written b (d :: ds) = d * b ^ ds.length + written b ds := by
  rw [written, List.reverse_cons, Nat.ofDigits_append, Nat.ofDigits_singleton,
    List.length_reverse, written]
  ring

theorem written_concat (b : Nat) (ds : List Nat) (d : Nat) :
    written b (ds ++ [d]) = d + b * written b ds := by
  rw [written, List.reverse_append, List.reverse_singleton, List.singleton_append,
    Nat.ofDigits_cons, written]

/-- The last `n` digits of a number, most significant first. -/
def lastDigits (b : Nat) : Nat → Nat → List Nat
  | 0, _ => []
  | n + 1, v => lastDigits b n (v / b) ++ [v % b]

theorem lastDigits_length (b n v : Nat) : (lastDigits b n v).length = n := by
  induction n generalizing v with
  | zero => rfl
  | succ n ih => simp [lastDigits, ih]

theorem lastDigits_lt {b : Nat} (hb : 0 < b) (n v : Nat) : ∀ d ∈ lastDigits b n v, d < b := by
  induction n generalizing v with
  | zero => intro d hd; cases hd
  | succ n ih =>
    intro d hd
    rcases List.mem_append.mp hd with hd | hd
    · exact ih (v / b) d hd
    · rw [List.mem_singleton.mp hd]
      exact Nat.mod_lt v hb

theorem written_lastDigits (b n v : Nat) : written b (lastDigits b n v) = v % b ^ n := by
  induction n generalizing v with
  | zero => simp [lastDigits, Nat.mod_one]
  | succ n ih => rw [lastDigits, written_concat, ih, Nat.pow_succ', Nat.mod_mul]

end Digits
