import Mathlib.Data.List.Basic

/-!
# Readings of a clock

A party that looks at a clock again and again, whose readings do not go back and are
never far apart. Such readings count how late it is, meet every window as long as a gap,
and see every state of a signal that lasts that long.
-/
namespace Polling

/-- Readings that do not go back and are never further apart than a gap. -/
def Spaced (gap : Nat) : Nat → List Nat → Prop
  | _, [] => True
  | last, reading :: rest => last ≤ reading ∧ reading ≤ last + gap ∧ Spaced gap reading rest

variable {gap last : Nat} {readings : List Nat}

theorem spaced_ge (h : Spaced gap last readings) : ∀ r ∈ readings, last ≤ r := by
  induction readings generalizing last with
  | nil => simp
  | cons reading rest ih =>
    intro r hr
    rcases List.mem_cons.mp hr with rfl | hr
    · exact h.1
    · exact Nat.le_trans h.1 (ih h.2.2 r hr)

/-- The readings from the deadline on are many if the last one is late. -/
theorem spaced_late {deadline bound : Nat} (h : Spaced gap last readings) (hlast : last < bound)
    (hbound : deadline ≤ bound) :
    readings.getLastD last < bound + gap * readings.countP fun r => deadline ≤ r := by
  induction readings generalizing last bound with
  | nil => simpa using hlast
  | cons reading rest ih =>
    obtain ⟨-, hgap, hrest⟩ := h
    rw [List.getLastD_cons]
    by_cases hlate : deadline ≤ reading
    · have hnear : reading < bound + gap := by omega
      have hmore := ih hrest hnear (by omega)
      rw [List.countP_cons_of_pos (p := fun r => decide (deadline ≤ r)) (decide_eq_true hlate),
        Nat.mul_add]
      omega
    · have hearly : reading < bound := by omega
      rw [List.countP_cons_of_neg (p := fun r => decide (deadline ≤ r)) (by simpa using hlate)]
      exact ih hrest hearly hbound

theorem spaced_mono (h : Spaced gap last readings) {i j r s : Nat} (hr : readings[i]? = some r)
    (hs : readings[j]? = some s) (hij : i ≤ j) : r ≤ s := by
  induction readings generalizing last i j with
  | nil => cases hr
  | cons reading rest ih =>
    cases i with
    | zero =>
      obtain rfl := Option.some.inj hr
      cases j with
      | zero => exact Nat.le_of_eq (Option.some.inj hs)
      | succ j => exact spaced_ge h.2.2 s (List.mem_of_getElem? hs)
    | succ i =>
      cases j with
      | zero => exact absurd hij (Nat.not_succ_le_zero i)
      | succ j => exact ih h.2.2 hr hs (Nat.le_of_succ_le_succ hij)

theorem spaced_index (h : Spaced gap last readings) {i j r s : Nat} (hr : readings[i]? = some r)
    (hs : readings[j]? = some s) (hlt : r < s) : i < j := by
  apply Nat.lt_of_not_le
  intro hji
  have := spaced_mono h hs hr hji
  omega

theorem spaced_next (h : Spaced gap last readings) {i r s : Nat} (hr : readings[i]? = some r)
    (hs : readings[i + 1]? = some s) : s ≤ r + gap := by
  induction readings generalizing last i with
  | nil => cases hr
  | cons reading rest ih =>
    cases i with
    | zero =>
      obtain rfl := Option.some.inj hr
      cases rest with
      | nil => cases hs
      | cons next rest =>
        obtain rfl := Option.some.inj hs
        exact h.2.2.2.1
    | succ i => exact ih h.2.2 hr hs

theorem spaced_last (h : Spaced gap last readings) {i r : Nat} (hr : readings[i]? = some r) :
    r ≤ readings.getLastD last := by
  induction readings generalizing last i r with
  | nil => cases hr
  | cons reading rest ih =>
    rw [List.getLastD_cons]
    cases i with
    | zero =>
      obtain rfl := Option.some.inj hr
      cases rest with
      | nil => exact Nat.le_refl _
      | cons next rest => exact Nat.le_trans h.2.2.1 (ih (i := 0) h.2.2 rfl)
    | succ i => exact ih h.2.2 hr

/-- The first reading from an instant on comes within a gap. -/
theorem spaced_hit {instant : Nat} (h : Spaced gap last readings) (hlast : last < instant)
    (hend : instant ≤ readings.getLastD last) :
    ∃ i r : Nat, readings[i]? = some r ∧ instant ≤ r ∧ r < instant + gap ∧
      ∀ (j s : Nat), j < i → readings[j]? = some s → s < instant := by
  induction readings generalizing last with
  | nil => exact absurd hend (Nat.not_le_of_lt hlast)
  | cons reading rest ih =>
    obtain ⟨-, hgap, hrest⟩ := h
    rw [List.getLastD_cons] at hend
    by_cases hreading : instant ≤ reading
    · exact ⟨0, reading, rfl, hreading, by omega, fun j s hj _ => absurd hj (Nat.not_lt_zero j)⟩
    · obtain ⟨i, r, hr, hle, hlt, hfirst⟩ := ih hrest (Nat.lt_of_not_le hreading) hend
      refine ⟨i + 1, r, hr, hle, hlt, ?_⟩
      intro j s hj hs
      cases j with
      | zero =>
        obtain rfl := Option.some.inj hs
        exact Nat.lt_of_not_le hreading
      | succ j => exact hfirst j s (Nat.lt_of_succ_lt_succ hj) hs

/-- Whenever the signal is low, it is low for as long as a gap. -/
def Settles (gap : Nat) (signal : Nat → Bool) : Prop :=
  ∀ t, signal t = false →
    ∃ first, first ≤ t ∧ t < first + gap ∧ ∀ r, first ≤ r → r < first + gap → signal r = false

/-- A low between two readings of a high is read. -/
theorem settles_read {signal : Nat → Bool} (h : Spaced gap last readings)
    (hsignal : Settles gap signal) {i k x y t : Nat} (hx : readings[i]? = some x)
    (hy : readings[k]? = some y) (hhigh : signal x = true) (hhigh' : signal y = true)
    (hxt : x ≤ t) (hty : t ≤ y) (ht : signal t = false) :
    ∃ j r : Nat, i < j ∧ j < k ∧ readings[j]? = some r ∧ signal r = false := by
  obtain ⟨first, hle, hlt, hlow⟩ := hsignal t ht
  have hstart : x < first := by
    apply Nat.lt_of_not_le
    intro hx'
    rw [hlow x hx' (by omega)] at hhigh
    cases hhigh
  have hstop : first + gap ≤ y := by
    apply Nat.le_of_not_lt
    intro hy'
    rw [hlow y (by omega) hy'] at hhigh'
    cases hhigh'
  have hfrom := spaced_ge h x (List.mem_of_getElem? hx)
  have hend := spaced_last h hy
  obtain ⟨j, r, hr, hge, hin, -⟩ := spaced_hit h (Nat.lt_of_le_of_lt hfrom hstart) (by omega)
  exact ⟨j, r, spaced_index h hx hr (by omega), spaced_index h hr hy (by omega), hr,
    hlow r hge hin⟩

end Polling
