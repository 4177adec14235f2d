import Mathlib.Data.List.Basic
import Mathlib.Data.List.Sort

/-!
# Ranges that tile an interval

Consecutive ranges that start at one bound of an interval and end at the other.
They are disjoint and cover the interval, and cutting a list at them loses
nothing.
-/
namespace Tiling

structure Range where
  first : Nat
  count : Nat
  deriving DecidableEq, Repr

def Range.Has (r : Range) (k : Nat) : Prop := r.first ≤ k ∧ k < r.first + r.count

/-- Each range starts where the one before it ends. -/
def Tiles : Nat → List Range → Nat → Prop
  | lo, [], hi => lo = hi
  | lo, r :: rest, hi => r.first = lo ∧ Tiles (lo + r.count) rest hi

variable {lo hi : Nat} {rs : List Range} {r : Range}

theorem tiles_append {left right : List Range} :
    Tiles lo (left ++ right) hi ↔ ∃ mid, Tiles lo left mid ∧ Tiles mid right hi := by
  induction left generalizing lo with
  | nil => simp [Tiles]
  | cons r rest ih =>
    simp only [List.cons_append, Tiles, ih]
    constructor
    · rintro ⟨hfirst, mid, hleft, hright⟩
      exact ⟨mid, ⟨hfirst, hleft⟩, hright⟩
    · rintro ⟨mid, ⟨hfirst, hleft⟩, hright⟩
      exact ⟨hfirst, mid, hleft, hright⟩

theorem tiles_le (h : Tiles lo rs hi) : lo ≤ hi := by
  induction rs generalizing lo with
  | nil => exact Nat.le_of_eq h
  | cons r rest ih =>
    have := ih h.2
    omega

theorem tiles_within (h : Tiles lo rs hi) {i : Nat} (hr : rs[i]? = some r) :
    lo ≤ r.first ∧ r.first + r.count ≤ hi := by
  induction rs generalizing lo i with
  | nil => cases hr
  | cons s rest ih =>
    obtain ⟨hfirst, hrest⟩ := h
    cases i with
    | zero =>
      obtain rfl := Option.some.inj hr
      have := tiles_le hrest
      omega
    | succ i =>
      have := ih hrest hr
      omega

theorem tiles_next (h : Tiles lo rs hi) {i : Nat} {s : Range} (hr : rs[i]? = some r)
    (hs : rs[i + 1]? = some s) : s.first = r.first + r.count := by
  induction rs generalizing lo i with
  | nil => cases hr
  | cons t rest ih =>
    obtain ⟨hfirst, hrest⟩ := h
    cases i with
    | zero =>
      obtain rfl := Option.some.inj hr
      cases rest with
      | nil => cases hs
      | cons u more =>
        obtain rfl := Option.some.inj hs
        rw [hfirst]
        exact hrest.1
    | succ i => exact ih hrest hr hs

theorem tiles_disjoint (h : Tiles lo rs hi) {i j : Nat} {s : Range} (hij : i < j)
    (hr : rs[i]? = some r) (hs : rs[j]? = some s) : r.first + r.count ≤ s.first := by
  induction rs generalizing lo i j with
  | nil => cases hr
  | cons t rest ih =>
    obtain ⟨hfirst, hrest⟩ := h
    cases j with
    | zero => omega
    | succ j =>
      cases i with
      | zero =>
        obtain rfl := Option.some.inj hr
        have := tiles_within hrest hs
        omega
      | succ i => exact ih hrest (by omega) hr hs

/-- A point lies in one range only. -/
theorem tiles_unique (h : Tiles lo rs hi) {i j k : Nat} {s : Range} (hr : rs[i]? = some r)
    (hs : rs[j]? = some s) (hk : r.Has k) (hk' : s.Has k) : i = j := by
  obtain ⟨hge, hlt⟩ := hk
  obtain ⟨hge', hlt'⟩ := hk'
  rcases Nat.lt_trichotomy i j with hij | hij | hij
  · have := tiles_disjoint h hij hr hs
    omega
  · exact hij
  · have := tiles_disjoint h hij hs hr
    omega

/-- An empty range opens at the end. -/
theorem tiles_open (h : Tiles lo rs hi) : Tiles lo (rs ++ [⟨hi, 0⟩]) hi :=
  tiles_append.mpr ⟨hi, h, rfl, rfl⟩

def Range.grow (r : Range) : Range := { r with count := r.count + 1 }

/-- The last range ends where the tiling does. -/
theorem tiles_last (h : Tiles lo rs hi) {i : Nat} (hr : rs[i]? = some r)
    (hi' : i + 1 = rs.length) : r.first + r.count = hi := by
  induction rs generalizing lo i with
  | nil => cases hr
  | cons s rest ih =>
    obtain ⟨hfirst, hrest⟩ := h
    cases i with
    | zero =>
      obtain rfl := Option.some.inj hr
      cases rest with
      | nil => rw [hfirst]; exact hrest
      | cons t more => simp at hi'
    | succ i => exact ih hrest hr (by simpa using hi')

/-- The last range takes one more point. -/
theorem tiles_grow (h : Tiles lo rs hi) {k : Nat} (hk : k + 1 = rs.length) :
    Tiles lo (rs.modify k Range.grow) (hi + 1) := by
  induction rs generalizing lo k with
  | nil => cases hk
  | cons s rest ih =>
    obtain ⟨hfirst, hrest⟩ := h
    cases k with
    | zero =>
      cases rest with
      | nil =>
        have hend : lo + s.count = hi := hrest
        exact ⟨hfirst, show lo + (s.count + 1) = hi + 1 by omega⟩
      | cons t more => simp at hk
    | succ k => exact ⟨hfirst, ih hrest (by simpa using hk)⟩

/-- Every point of the interval lies in a range. -/
theorem tiles_cover (h : Tiles lo rs hi) {k : Nat} (hlo : lo ≤ k) (hhi : k < hi) :
    ∃ (i : Nat) (r : Range), rs[i]? = some r ∧ r.Has k := by
  induction rs generalizing lo with
  | nil =>
    have hempty : lo = hi := h
    omega
  | cons s rest ih =>
    obtain ⟨hfirst, hrest⟩ := h
    by_cases hk : k < lo + s.count
    · exact ⟨0, s, rfl, by omega, by omega⟩
    · obtain ⟨i, r, hr, hhas⟩ := ih hrest (by omega)
      exact ⟨i + 1, r, hr, hhas⟩

/-- Cutting a list at the ranges loses nothing. -/
theorem flatMap_cut {α : Type} (xs : List α) (h : Tiles lo rs hi) (hend : hi = xs.length) :
    rs.flatMap (fun r => (xs.drop r.first).take r.count) = xs.drop lo := by
  induction rs generalizing lo with
  | nil =>
    rw [show lo = xs.length from h.trans hend, List.drop_length]
    rfl
  | cons r rest ih =>
    obtain ⟨hfirst, hrest⟩ := h
    rw [List.flatMap_cons, ih hrest, hfirst, ← List.drop_drop, List.take_append_drop]

/-- The part of a list in a range. -/
def slice {α : Type} (xs : List α) (r : Range) : List α := (xs.drop r.first).take r.count

/-- A range inside the list does not see what is appended. -/
theorem slice_append {α : Type} {xs : List α} {r : Range} (h : r.first + r.count ≤ xs.length)
    (more : List α) : slice (xs ++ more) r = slice xs r := by
  rw [slice, slice, List.drop_append_of_le_length (by omega), List.take_append_of_le_length]
  rw [List.length_drop]
  omega

/-- The range that ends where the list does takes the next entry. -/
theorem slice_grow {α : Type} {xs : List α} {r : Range} (h : r.first + r.count = xs.length)
    (x : α) : slice (xs ++ [x]) r.grow = slice xs r ++ [x] := by
  have hdrop : (xs ++ [x]).drop r.first = xs.drop r.first ++ [x] :=
    List.drop_append_of_le_length (by omega)
  have hlength : (xs.drop r.first).length = r.count := by
    rw [List.length_drop]
    omega
  show ((xs ++ [x]).drop r.first).take (r.count + 1) = (xs.drop r.first).take r.count ++ [x]
  rw [hdrop, List.take_of_length_le (by simp [hlength]), List.take_of_length_le (Nat.le_of_eq hlength)]

theorem slices_open {α : Type} (xs : List α) (rs : List Range) (first : Nat) :
    (rs ++ [(⟨first, 0⟩ : Range)]).map (slice xs) = rs.map (slice xs) ++ [[]] := by
  rw [List.map_append, List.map_singleton, slice, List.take_zero]

/-- Only the last slice takes an entry that is appended. -/
theorem slices_grow {α : Type} {xs : List α} (h : Tiles lo rs xs.length) (x : α) {k : Nat}
    (hk : k + 1 = rs.length) :
    (rs.modify k Range.grow).map (slice (xs ++ [x])) =
      (rs.map (slice xs)).modify k (· ++ [x]) := by
  apply List.ext_getElem?
  intro i
  rw [List.getElem?_map, List.getElem?_modify, List.getElem?_modify, List.getElem?_map]
  cases hr : rs[i]? with
  | none => rfl
  | some r =>
    by_cases hi : k = i
    · subst hi
      simp only [Option.map_eq_map, Option.map_some, if_true]
      rw [slice_grow (tiles_last h hr hk)]
    · simp only [Option.map_eq_map, Option.map_some, if_neg hi]
      rw [slice_append (tiles_within h hr).2]

/-- The `width` positions from `k` on lie in the range. -/
def Range.Holds (r : Range) (width k : Nat) : Prop := r.first ≤ k ∧ k + width ≤ r.first + r.count

instance (r : Range) (width k : Nat) : Decidable (r.Holds width k) :=
  inferInstanceAs (Decidable (_ ∧ _))

/-- An interval cut at some positions. Every range but the last goes on past its cut by
the overlap, as far as the interval goes. -/
def windows (overlap hi : Nat) : Nat → List Nat → List Range
  | lo, [] => [⟨lo, hi - lo⟩]
  | lo, cut :: cuts => ⟨lo, min (cut + overlap) hi - lo⟩ :: windows overlap hi cut cuts

theorem windows_first {overlap hi lo : Nat} {cuts : List Nat} (h : (lo :: cuts).Pairwise (· ≤ ·)) :
    ∀ r ∈ windows overlap hi lo cuts, lo ≤ r.first := by
  induction cuts generalizing lo with
  | nil => simp [windows]
  | cons cut cuts ih =>
    obtain ⟨hlo, hrest⟩ := List.pairwise_cons.mp h
    intro r hr
    rcases List.mem_cons.mp hr with rfl | hr
    · exact Nat.le_refl _
    · exact Nat.le_trans (hlo cut (List.mem_cons_self ..)) (ih hrest r hr)

/-- The windows start at the bound or at a cut, and stay in the interval. -/
theorem windows_inside {overlap hi lo : Nat} {cuts : List Nat} (h : ∀ cut ∈ lo :: cuts, cut ≤ hi) :
    ∀ r ∈ windows overlap hi lo cuts, r.first ∈ lo :: cuts ∧ r.first + r.count ≤ hi := by
  induction cuts generalizing lo with
  | nil =>
    have := h lo (List.mem_cons_self ..)
    simp only [windows, List.mem_singleton, forall_eq, true_and]
    omega
  | cons cut cuts ih =>
    have hlo := h lo (List.mem_cons_self ..)
    intro r hr
    rcases List.mem_cons.mp hr with rfl | hr
    · refine ⟨List.mem_cons_self .., ?_⟩
      show lo + (min (cut + overlap) hi - lo) ≤ hi
      omega
    · obtain ⟨hfirst, hcount⟩ := ih (fun c hc => h c (List.mem_cons_of_mem _ hc)) r hr
      exact ⟨List.mem_cons_of_mem _ hfirst, hcount⟩

/-- An increasing list is its part below a bound and then the rest. -/
theorem filter_below {xs : List Nat} (h : xs.Pairwise (· < ·)) (cut : Nat) :
    (xs.filter fun x => decide (x < cut)) ++ (xs.filter fun x => decide (cut ≤ x)) = xs := by
  apply List.Pairwise.eq_of_mem_iff _ h
  · intro x
    simp only [List.mem_append, List.mem_filter, decide_eq_true_eq, ← and_or_left]
    exact and_iff_left (Nat.lt_or_ge x cut)
  · rw [List.pairwise_append]
    refine ⟨h.sublist List.filter_sublist, h.sublist List.filter_sublist, fun x hx y hy => ?_⟩
    have hx := of_decide_eq_true (List.mem_filter.mp hx).2
    have hy := of_decide_eq_true (List.mem_filter.mp hy).2
    omega

/-- Positions that keep a width from the end lie in one window each, in order, when the
windows overlap by one position less than the width. -/
theorem windows_split {overlap hi lo : Nat} {cuts xs : List Nat}
    (h : (lo :: cuts).Pairwise (· ≤ ·)) (hxs : xs.Pairwise (· < ·))
    (hin : ∀ x ∈ xs, lo ≤ x ∧ x + (overlap + 1) ≤ hi) :
    ((windows overlap hi lo cuts).flatMap fun r =>
      xs.filter fun x => decide (r.Holds (overlap + 1) x)) = xs := by
  induction cuts generalizing lo xs with
  | nil =>
    rw [windows, List.flatMap_singleton, List.filter_eq_self]
    intro x hx
    have := hin x hx
    exact decide_eq_true ⟨this.1, by show _ ≤ lo + (hi - lo); omega⟩
  | cons cut cuts ih =>
    obtain ⟨hlo, hrest⟩ := List.pairwise_cons.mp h
    have hcut := hlo cut (List.mem_cons_self ..)
    have hbelow : (xs.filter fun x => decide
          ((⟨lo, min (cut + overlap) hi - lo⟩ : Range).Holds (overlap + 1) x)) =
        xs.filter fun x => decide (x < cut) := by
      apply List.filter_congr
      intro x hx
      have := hin x hx
      rw [decide_eq_decide]
      show lo ≤ x ∧ x + (overlap + 1) ≤ lo + (min (cut + overlap) hi - lo) ↔ x < cut
      omega
    have habove : ((windows overlap hi cut cuts).flatMap fun r =>
          xs.filter fun x => decide (r.Holds (overlap + 1) x)) =
        (windows overlap hi cut cuts).flatMap fun r =>
          (xs.filter fun x => decide (cut ≤ x)).filter fun x =>
            decide (r.Holds (overlap + 1) x) := by
      apply List.flatMap_congr
      intro r hr
      have hfirst := windows_first hrest r hr
      rw [List.filter_filter]
      apply List.filter_congr
      intro x _
      rw [← Bool.decide_and, decide_eq_decide]
      exact ⟨fun hx => ⟨hx, Nat.le_trans hfirst hx.1⟩, And.left⟩
    rw [windows, List.flatMap_cons, hbelow, habove,
      ih hrest (hxs.sublist List.filter_sublist) ?_, filter_below hxs]
    intro x hx
    obtain ⟨hmem, hle⟩ := List.mem_filter.mp hx
    exact ⟨of_decide_eq_true hle, (hin x hmem).2⟩

end Tiling
