import Mathlib.Data.List.Induction
import VitaCheat.Lib.Tiling

/-!
# Increasing lists that were cut

An increasing list that was cut behind some entries is the part of the whole list below a
bound. A part of a part is a part again, and parts that meet at a bound are one part.
-/
namespace Prefixes

/-- The entries below a bound. -/
def below (bound : Nat) (xs : List Nat) : List Nat := xs.filter fun x => decide (x < bound)

/-- The entries from one bound on and below another. -/
def between (lo hi : Nat) (xs : List Nat) : List Nat :=
  xs.filter fun x => decide (lo ≤ x ∧ x < hi)

/-- One past the last entry. -/
def reach (xs : List Nat) : Nat := (xs.getLast?.map (· + 1)).getD 0

theorem below_sublist (bound : Nat) (xs : List Nat) : (below bound xs).Sublist xs :=
  List.filter_sublist

theorem below_all {bound : Nat} {xs : List Nat} (h : ∀ x ∈ xs, x < bound) : below bound xs = xs :=
  List.filter_eq_self.mpr fun x hx => decide_eq_true (h x hx)

theorem below_filter (bound : Nat) (keep : Nat → Bool) (xs : List Nat) :
    below bound (xs.filter keep) = (below bound xs).filter keep := by
  rw [below, below, List.filter_filter, List.filter_filter]
  apply List.filter_congr
  intro x _
  exact Bool.and_comm _ _

/-- The lower of two bounds counts. -/
theorem below_below {a b : Nat} (h : b ≤ a) (xs : List Nat) :
    below b (below a xs) = below b xs := by
  rw [below, below, below, List.filter_filter]
  apply List.filter_congr
  intro x _
  rw [← Bool.decide_and, decide_eq_decide]
  omega

theorem reach_concat (xs : List Nat) (x : Nat) : reach (xs ++ [x]) = x + 1 := by
  rw [reach, List.getLast?_concat]
  rfl

theorem reach_le {bound : Nat} {xs : List Nat} (h : ∀ x ∈ xs, x < bound) : reach xs ≤ bound := by
  cases xs using List.reverseRecOn with
  | nil => exact Nat.zero_le _
  | append_singleton xs x =>
    rw [reach_concat]
    exact h x (by simp)

/-- What is left of an increasing list is its part below one past the last entry. -/
theorem append_below {xs more : List Nat} (h : (xs ++ more).Pairwise (· < ·)) :
    below (reach xs) (xs ++ more) = xs := by
  obtain ⟨hxs, -, hcross⟩ := List.pairwise_append.mp h
  have hkept : below (reach xs) xs = xs := by
    apply below_all
    cases xs using List.reverseRecOn with
    | nil => simp
    | append_singleton xs last =>
      obtain ⟨-, -, hlast⟩ := List.pairwise_append.mp hxs
      rw [reach_concat]
      intro x hx
      rcases List.mem_append.mp hx with hx | hx
      · exact Nat.lt_succ_of_lt (hlast x hx last (by simp))
      · exact Nat.lt_succ_of_le (Nat.le_of_eq (List.mem_singleton.mp hx))
  have hdropped : below (reach xs) more = [] := by
    apply List.filter_eq_nil_iff.mpr
    intro y hy
    have hle : reach xs ≤ y := reach_le fun x hx => hcross x hx y hy
    simpa using hle
  rw [below, List.filter_append]
  exact (congrArg₂ (· ++ ·) hkept hdropped).trans (List.append_nil xs)

theorem take_below {xs : List Nat} (h : xs.Pairwise (· < ·)) (k : Nat) :
    below (reach (xs.take k)) xs = xs.take k := by
  have hwhole : xs.take k ++ xs.drop k = xs := List.take_append_drop k xs
  have hinc : (xs.take k ++ xs.drop k).Pairwise (· < ·) := hwhole.symm ▸ h
  calc below (reach (xs.take k)) xs
      = below (reach (xs.take k)) (xs.take k ++ xs.drop k) := by rw [hwhole]
    _ = xs.take k := append_below hinc

/-- What is cut off lies above what is left. -/
theorem take_lt {xs : List Nat} (h : xs.Pairwise (· < ·)) {k : Nat} (hk : k < xs.length) {x : Nat}
    (hx : x ∈ xs.take k) : x < xs[k] := by
  obtain ⟨i, hi, rfl⟩ := List.mem_iff_getElem.mp hx
  have hlt : i < k := by
    rw [List.length_take] at hi
    omega
  rw [List.getElem_take]
  exact List.pairwise_iff_getElem.mp h i k (by omega) hk hlt

theorem between_empty (lo : Nat) (xs : List Nat) : between lo lo xs = [] := by
  apply List.filter_eq_nil_iff.mpr
  intro x _
  simp only [decide_eq_true_eq]
  omega

theorem between_zero (hi : Nat) (xs : List Nat) : between 0 hi xs = below hi xs := by
  apply List.filter_congr
  intro x _
  rw [decide_eq_decide]
  omega

/-- Parts that meet are one part. -/
theorem between_append {lo mid hi : Nat} {xs : List Nat} (h : xs.Pairwise (· < ·))
    (hlo : lo ≤ mid) (hhi : mid ≤ hi) :
    between lo mid xs ++ between mid hi xs = between lo hi xs := by
  have hsplit := Tiling.filter_below (h.sublist List.filter_sublist : (between lo hi xs).Pairwise _)
    mid
  rw [← hsplit, between, between, between, List.filter_filter, List.filter_filter]
  congr 1
  · apply List.filter_congr
    intro x _
    rw [← Bool.decide_and, decide_eq_decide]
    omega
  · apply List.filter_congr
    intro x _
    rw [← Bool.decide_and, decide_eq_decide]
    omega

end Prefixes
