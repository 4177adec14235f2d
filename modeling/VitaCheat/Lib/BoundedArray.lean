import Mathlib.Logic.Function.Basic
import Mathlib.Data.List.Basic

/-!
# Arrays of bounded capacity that record a list

A producer emits a list of records into a caller-owned array and drops what
does not fit. The array then shows the list below the capacity and its initial
contents everywhere else; appending to or modifying the list is at most one
store into the array.
-/
namespace BoundedArray

universe u

variable {α : Type u}

/-- The array after the list has been recorded over the initial contents. -/
def view (capacity : Nat) (xs : List α) (init : Nat → α) : Nat → α :=
  fun i => if i < capacity then xs.getD i (init i) else init i

@[simp] theorem view_nil (capacity : Nat) (init : Nat → α) : view capacity [] init = init := by
  funext i
  simp [view]

theorem view_stored {capacity : Nat} {xs : List α} (init : Nat → α) {i : Nat} {x : α}
    (hc : i < capacity) (hx : xs[i]? = some x) : view capacity xs init i = x := by
  simp [view, hc, List.getD, hx]

theorem view_initial {capacity : Nat} {xs : List α} (init : Nat → α) {i : Nat}
    (h : min capacity xs.length ≤ i) : view capacity xs init i = init i := by
  rw [view]
  split
  · next hc =>
    have hl : xs.length ≤ i := by omega
    simp [List.getD, List.getElem?_eq_none hl]
  · rfl

/-- Appending a record is a store at the next index, while there is room. -/
theorem view_push (capacity : Nat) (xs : List α) (x : α) (init : Nat → α) :
    view capacity (xs ++ [x]) init =
      if xs.length < capacity then Function.update (view capacity xs init) xs.length x
      else view capacity xs init := by
  funext i
  rcases Nat.lt_trichotomy i xs.length with hi | hi | hi
  · have hget : (xs ++ [x]).getD i (init i) = xs.getD i (init i) := by
      simp [List.getD, List.getElem?_append_left hi]
    split
    · rw [Function.update_of_ne (by omega)]
      simp only [view, hget]
    · simp only [view, hget]
  · subst hi
    split
    · next hc => simp [view, hc, List.getD]
    · next hc => simp [view, hc]
  · have hview : ∀ ys : List α, ys.length ≤ i → view capacity ys init i = init i := by
      intro ys hys
      exact view_initial init (by omega)
    rw [hview _ (by simp; omega)]
    split
    · rw [Function.update_of_ne (by omega), hview xs (by omega)]
    · rw [hview xs (by omega)]

/-- Modifying a record of the list is a store at its index, if it was kept. -/
theorem view_modify (capacity : Nat) (xs : List α) (init : Nat → α) {k : Nat} (f : α → α)
    (hk : k < xs.length) :
    view capacity (xs.modify k f) init =
      if k < capacity then Function.update (view capacity xs init) k (f (view capacity xs init k))
      else view capacity xs init := by
  funext i
  have hget : xs.getD k (init k) = xs[k] := by simp [List.getD, hk]
  by_cases hi : i = k
  · subst hi
    split
    · next hc =>
      simp only [Function.update_self, view, hc, if_true, hget]
      simp [List.getD, hk]
    · next hc => simp [view, hc]
  · have hne : (xs.modify k f).getD i (init i) = xs.getD i (init i) := by
      simp [List.getD, Ne.symm hi]
    split
    · rw [Function.update_of_ne hi]
      simp only [view, hne]
    · simp only [view, hne]

end BoundedArray
