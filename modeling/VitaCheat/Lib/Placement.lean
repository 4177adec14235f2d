import Mathlib.Data.List.Basic

/-!
# Records that name their places in a sequence

A sequence of entries, and a list of records that each name the place of one
entry. The records are in order-preserving bijection with the picked entries:
appending an entry that is not picked keeps this, and so does appending a picked
entry together with the record that names its place.
-/
namespace Placement

variable {α β : Type}

/-- Record `k` names a picked entry that links back to it, each picked entry is
named, and the places increase. -/
structure Placed (picked : α → Prop) (link : α → Nat → β → Prop) (place : β → Nat)
    (entries : List α) (records : List β) : Prop where
  target : ∀ k r, records[k]? = some r →
    ∃ a, entries[place r]? = some a ∧ picked a ∧ link a k r
  onto : ∀ i a, entries[i]? = some a → picked a → ∃ (k : Nat) (r : β), records[k]? = some r ∧ place r = i
  increasing : (records.map place).Pairwise (· < ·)

/-- The entries of a longer sequence. -/
theorem getElem?_concat {xs : List α} {x a : α} {i : Nat} (h : (xs ++ [x])[i]? = some a) :
    xs[i]? = some a ∨ (i = xs.length ∧ a = x) := by
  rcases Nat.lt_trichotomy i xs.length with hi | rfl | hi
  · exact Or.inl (by rwa [List.getElem?_append_left hi] at h)
  · rw [List.getElem?_concat_length] at h
    exact Or.inr ⟨rfl, (Option.some.inj h).symm⟩
  · rw [List.getElem?_eq_none (by rw [List.length_append, List.length_singleton]; omega)] at h
    cases h

theorem getElem?_keep {xs : List α} {a : α} {i : Nat} (h : xs[i]? = some a) (x : α) :
    (xs ++ [x])[i]? = some a := by
  rw [List.getElem?_append_left (List.getElem?_eq_some_iff.mp h).1, h]

variable {picked : α → Prop} {link : α → Nat → β → Prop} {place : β → Nat}
  {entries : List α} {records : List β}

theorem placed_nil : Placed picked link place [] [] where
  target := fun _ _ h => nomatch h
  onto := fun _ _ h => nomatch h
  increasing := List.Pairwise.nil

/-- A place lies before the end of the sequence. -/
theorem place_lt (h : Placed picked link place entries records) {k : Nat} {r : β}
    (hr : records[k]? = some r) : place r < entries.length := by
  obtain ⟨a, ha, -⟩ := h.target k r hr
  exact (List.getElem?_eq_some_iff.mp ha).1

/-- What holds of the images of records holds of the records. -/
theorem placed_map {γ : Type} {link : α → Nat → γ → Prop} {place : γ → Nat} {f : β → γ}
    (h : Placed picked link place entries (records.map f)) :
    Placed picked (fun a k r => link a k (f r)) (fun r => place (f r)) entries records where
  target k r hr := h.target k (f r) (by rw [List.getElem?_map, hr, Option.map_some])
  onto i a ha hpicked := by
    obtain ⟨k, s, hs, hi⟩ := h.onto i a ha hpicked
    rw [List.getElem?_map] at hs
    obtain ⟨r, hr, rfl⟩ := Option.map_eq_some_iff.mp hs
    exact ⟨k, r, hr, hi⟩
  increasing := by
    have := h.increasing
    rwa [List.map_map] at this

theorem placed_skip (h : Placed picked link place entries records) {a : α} (ha : ¬ picked a) :
    Placed picked link place (entries ++ [a]) records where
  target k r hr := by
    obtain ⟨b, hb, hlink⟩ := h.target k r hr
    exact ⟨b, getElem?_keep hb a, hlink⟩
  onto i b hb hpicked := by
    rcases getElem?_concat hb with hold | ⟨-, rfl⟩
    · exact h.onto i b hold hpicked
    · exact absurd hpicked ha
  increasing := h.increasing

theorem placed_push (h : Placed picked link place entries records) {a : α} {r : β}
    (hplace : place r = entries.length) (ha : picked a) (hlink : link a records.length r) :
    Placed picked link place (entries ++ [a]) (records ++ [r]) where
  target k s hs := by
    rcases getElem?_concat hs with hold | ⟨rfl, rfl⟩
    · obtain ⟨b, hb, hkeep⟩ := h.target k s hold
      exact ⟨b, getElem?_keep hb a, hkeep⟩
    · exact ⟨a, by rw [hplace, List.getElem?_concat_length], ha, hlink⟩
  onto i b hb hpicked := by
    rcases getElem?_concat hb with hold | ⟨rfl, -⟩
    · obtain ⟨k, s, hs, hi⟩ := h.onto i b hold hpicked
      exact ⟨k, s, getElem?_keep hs r, hi⟩
    · exact ⟨records.length, r, List.getElem?_concat_length, hplace⟩
  increasing := by
    rw [List.map_append, List.map_singleton, List.pairwise_append]
    refine ⟨h.increasing, List.pairwise_singleton _ _, ?_⟩
    intro i hi j hj
    obtain ⟨s, hs, rfl⟩ := List.mem_map.mp hi
    obtain ⟨k, hk⟩ := List.mem_iff_getElem?.mp hs
    rw [List.mem_singleton.mp hj, hplace]
    exact place_lt h hk

end Placement
