import Mathlib.Data.List.DropRight

/-!
# Cursors over a list

Scanning loops move an index over a list and test the element under it. A read
outside the list is refused, so a loop that answers stayed inside. In terms of
the slice between two indices the loops are `takeWhile` and `dropWhile` from
either end.
-/
namespace Cursor

universe u

variable {α : Type u}

/-- The elements with indices from `i` up to but not including `j`. -/
def slice (xs : List α) (i j : Nat) : List α := (xs.drop i).take (j - i)

/-- The loop `while (i < limit && test(xs[i])) ++i`, with `limit - i` given. -/
def skipLoop (test : α → Bool) (xs : List α) : Nat → Nat → Option Nat
  | 0, i => some i
  | remaining + 1, i =>
    match xs[i]? with
    | none => none
    | some x => if test x then skipLoop test xs remaining (i + 1) else some i

def skipWhile (test : α → Bool) (xs : List α) (i limit : Nat) : Option Nat :=
  skipLoop test xs (limit - i) i

/-- The loop `while (j > i && test(xs[j - 1])) --j`, with `j - i` given. -/
def retreatLoop (test : α → Bool) (xs : List α) : Nat → Nat → Option Nat
  | 0, j => some j
  | remaining + 1, j =>
    match xs[j - 1]? with
    | none => none
    | some x => if test x then retreatLoop test xs remaining (j - 1) else some j

def retreatWhile (test : α → Bool) (xs : List α) (i j : Nat) : Option Nat :=
  retreatLoop test xs (j - i) j

theorem slice_length {xs : List α} {i j : Nat} (hj : j ≤ xs.length) :
    (slice xs i j).length = j - i := by
  simp only [slice, List.length_take, List.length_drop]
  omega

theorem slice_empty {xs : List α} {i j : Nat} (h : j ≤ i) : slice xs i j = [] := by
  simp [slice, Nat.sub_eq_zero_of_le h]

theorem slice_cons {xs : List α} {i j : Nat} (hij : i < j) (hi : i < xs.length) :
    slice xs i j = xs[i] :: slice xs (i + 1) j := by
  rw [slice, List.drop_eq_getElem_cons hi, show j - i = (j - (i + 1)) + 1 by omega,
    List.take_succ_cons, slice]

theorem slice_concat {xs : List α} {i j : Nat} (hij : i ≤ j) (hj : j < xs.length) :
    slice xs i (j + 1) = slice xs i j ++ [xs[j]] := by
  rw [slice, slice, Nat.succ_sub hij, List.take_add_one, List.getElem?_drop,
    Nat.add_sub_cancel' hij, List.getElem?_eq_getElem hj]
  rfl

theorem slice_drop (xs : List α) (i j n : Nat) : (slice xs i j).drop n = slice xs (i + n) j := by
  rw [slice, slice, List.drop_take, List.drop_drop, Nat.sub_sub]

theorem slice_take (xs : List α) {i j n : Nat} (h : i + n ≤ j) :
    (slice xs i j).take n = slice xs i (i + n) := by
  rw [slice, slice, List.take_take, Nat.add_sub_cancel_left, Nat.min_eq_left (by omega)]

theorem slice_getElem? (xs : List α) (i j n : Nat) :
    (slice xs i j)[n]? = if n < j - i then xs[i + n]? else none := by
  rw [slice, List.getElem?_take, List.getElem?_drop]

/-- What a forward loop leaves is the slice without its leading run. -/
theorem skipLoop_eq (test : α → Bool) (xs : List α) (remaining i : Nat)
    (h : i + remaining ≤ xs.length) :
    skipLoop test xs remaining i =
        some (i + ((slice xs i (i + remaining)).takeWhile test).length) := by
  induction remaining generalizing i with
  | zero => simp [skipLoop, slice_empty]
  | succ remaining ih =>
    have hi : i < xs.length := by omega
    rw [skipLoop, List.getElem?_eq_getElem hi, slice_cons (by omega) hi]
    cases htest : test xs[i] with
    | true =>
      simp only [htest, if_true, List.takeWhile_cons_of_pos, List.length_cons]
      rw [ih (i + 1) (by omega), show i + 1 + remaining = i + (remaining + 1) by omega]
      congr 1
      omega
    | false => simp [htest]

theorem skipWhile_eq (test : α → Bool) {xs : List α} {i j : Nat} (hij : i ≤ j)
    (hj : j ≤ xs.length) :
    skipWhile test xs i j = some (i + ((slice xs i j).takeWhile test).length) := by
  rw [skipWhile, skipLoop_eq test xs (j - i) i (by omega), Nat.add_sub_cancel' hij]

theorem length_takeWhile_le (test : α → Bool) (xs : List α) :
    (xs.takeWhile test).length ≤ xs.length :=
  (List.takeWhile_prefix test).length_le

theorem drop_takeWhile (test : α → Bool) (xs : List α) :
    xs.drop (xs.takeWhile test).length = xs.dropWhile test := by
  conv_lhs =>
    arg 2
    rw [← List.takeWhile_append_dropWhile (p := test) (l := xs)]
  rw [List.drop_left]

theorem slice_skipped (test : α → Bool) (xs : List α) (i j : Nat) :
    slice xs (i + ((slice xs i j).takeWhile test).length) j = (slice xs i j).dropWhile test := by
  rw [← slice_drop, drop_takeWhile]

/-- Nothing is dropped from the end before an element that fails the test. -/
theorem rdropWhile_append {test : α → Bool} {x : α} (hx : test x = false) (xs ys : List α) :
    (xs ++ x :: ys).rdropWhile test = xs ++ x :: ys.rdropWhile test := by
  induction ys using List.reverseRecOn with
  | nil => rw [List.rdropWhile_concat_neg _ _ _ (by simp [hx]), List.rdropWhile_nil]
  | append_singleton ys y ih =>
    rw [show xs ++ x :: (ys ++ [y]) = (xs ++ x :: ys) ++ [y] by simp, List.rdropWhile_concat,
      List.rdropWhile_concat, ih]
    split
    · rfl
    · simp

/-- What a backward loop leaves is the slice without its trailing run. -/
theorem retreatLoop_eq (test : α → Bool) (xs : List α) (i remaining : Nat)
    (h : i + remaining ≤ xs.length) :
    retreatLoop test xs remaining (i + remaining) =
      some (i + ((slice xs i (i + remaining)).rdropWhile test).length) := by
  induction remaining with
  | zero => simp [retreatLoop, slice_empty]
  | succ remaining ih =>
    have hlast : i + remaining < xs.length := by omega
    rw [retreatLoop, show i + (remaining + 1) - 1 = i + remaining by omega,
      List.getElem?_eq_getElem hlast, show i + (remaining + 1) = (i + remaining) + 1 by omega,
      slice_concat (by omega) hlast]
    cases htest : test xs[i + remaining] with
    | true =>
      simp only [htest, if_true]
      rw [ih (by omega), List.rdropWhile_concat_pos _ _ _ htest]
    | false =>
      simp only [htest, Bool.false_eq_true, if_false]
      rw [List.rdropWhile_concat_neg _ _ _ (by simp [htest]), List.length_append,
        slice_length (by omega)]
      simp
      omega

theorem retreatWhile_eq (test : α → Bool) {xs : List α} {i j : Nat} (hij : i ≤ j)
    (hj : j ≤ xs.length) :
    retreatWhile test xs i j = some (i + ((slice xs i j).rdropWhile test).length) := by
  have h := retreatLoop_eq test xs i (j - i) (by omega)
  rwa [Nat.add_sub_cancel' hij] at h

theorem slice_retreated (test : α → Bool) {xs : List α} {i j : Nat} (hij : i ≤ j)
    (hj : j ≤ xs.length) :
    slice xs i (i + ((slice xs i j).rdropWhile test).length) = (slice xs i j).rdropWhile test := by
  have hprefix := List.rdropWhile_prefix test (slice xs i j)
  have hle := hprefix.length_le
  rw [slice_length hj] at hle
  rw [← slice_take xs (show i + ((slice xs i j).rdropWhile test).length ≤ j by omega)]
  exact (List.prefix_iff_eq_take.mp hprefix).symm

end Cursor
