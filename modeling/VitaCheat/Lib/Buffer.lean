import VitaCheat.Lib.BoundedArray

/-!
# Checked output buffers

A buffer of the caller starts with contents of any kind. A store is refused past
the capacity, and a load is refused there and at a slot that nothing has been
stored to, so a computation that is never refused reads only what it wrote.
-/

/-- A slot still holds its initial contents or a stored record. -/
inductive Slot (β α : Type) where
  | initial (contents : β)
  | record (value : α)
  deriving DecidableEq, Repr

/-- The record in a slot. -/
def Slot.stored {β α : Type} : Slot β α → Option α
  | .initial _ => none
  | .record a => some a

structure Buffer (β α : Type) where
  capacity : Nat
  slots : Nat → Slot β α

namespace Buffer

variable {β α : Type}

def store (b : Buffer β α) (i : Nat) (a : α) : Option (Buffer β α) :=
  if i < b.capacity then some { b with slots := Function.update b.slots i (.record a) } else none

def load (b : Buffer β α) (i : Nat) : Option α :=
  if i < b.capacity then
    match b.slots i with
    | .initial _ => none
    | .record a => some a
  else none

/-- Load a record, change it and store it back. -/
def modify (b : Buffer β α) (i : Nat) (f : α → α) : Option (Buffer β α) :=
  match b.load i with
  | none => none
  | some a => b.store i (f a)

/-- Store one record to every slot below `n`. -/
def fill (b : Buffer β α) (n : Nat) (a : α) : Option (Buffer β α) :=
  if n ≤ b.capacity then
    some { b with slots := fun i => if i < n then .record a else b.slots i }
  else none

/-- The records in the slots below `n`. -/
def records (b : Buffer β α) (n : Nat) : List α :=
  (List.range n).filterMap fun i => (b.slots i).stored

/-- The buffer after a list of records has been recorded into it. -/
def showing (capacity : Nat) (contents : Nat → β) (xs : List α) : Buffer β α :=
  ⟨capacity, BoundedArray.view capacity (xs.map .record) fun i => .initial (contents i)⟩

variable {capacity : Nat} {contents : Nat → β} {xs : List α}

theorem showing_capacity : (showing capacity contents xs).capacity = capacity := rfl

theorem showing_slots : (showing capacity contents xs).slots =
    BoundedArray.view capacity (xs.map .record) fun i => .initial (contents i) := rfl

theorem showing_slots_record {i : Nat} {a : α} (hi : i < capacity) (ha : xs[i]? = some a) :
    (showing capacity contents xs).slots i = .record a := by
  rw [showing_slots]
  exact BoundedArray.view_stored _ hi (by simp [ha])

theorem showing_slots_initial {i : Nat} (h : min capacity xs.length ≤ i) :
    (showing capacity contents xs).slots i = .initial (contents i) := by
  rw [showing_slots]
  exact BoundedArray.view_initial _ (by simpa using h)

theorem showing_empty (h : min capacity xs.length = 0) :
    showing capacity contents xs = ⟨capacity, fun i => .initial (contents i)⟩ := by
  have hslots : (showing capacity contents xs).slots = fun i => .initial (contents i) :=
    funext fun i => showing_slots_initial (by omega)
  rw [← hslots]
  rfl

/-- Filling the recorded slots is recording as many copies. -/
theorem fill_showing (a : α) : (showing capacity contents xs).fill (min capacity xs.length) a =
    some (showing capacity contents (List.replicate xs.length a)) := by
  rw [fill, showing_capacity, if_pos (Nat.min_le_left _ _)]
  congr 2
  funext i
  by_cases hi : i < min capacity xs.length
  · rw [if_pos hi]
    exact (showing_slots_record (by omega) (List.getElem?_replicate_of_lt (by omega))).symm
  · rw [if_neg hi, showing_slots_initial (by omega)]
    exact (showing_slots_initial (by rw [List.length_replicate]; omega)).symm

theorem store_showing (a : α) (h : xs.length < capacity) :
    (showing capacity contents xs).store xs.length a =
      some (showing capacity contents (xs ++ [a])) := by
  have hpush := BoundedArray.view_push capacity (xs.map (Slot.record (β := β))) (.record a)
    fun i => .initial (contents i)
  rw [List.length_map, if_pos h] at hpush
  simp [store, showing, h, hpush]

theorem showing_full (a : α) (h : ¬ xs.length < capacity) :
    showing capacity contents (xs ++ [a]) = showing capacity contents xs := by
  have hpush := BoundedArray.view_push capacity (xs.map (Slot.record (β := β))) (.record a)
    fun i => .initial (contents i)
  rw [List.length_map, if_neg h] at hpush
  simp [showing, hpush]

theorem load_showing {i : Nat} (hi : i < capacity) (hx : i < xs.length) :
    (showing capacity contents xs).load i = some xs[i] := by
  rw [load, showing_capacity, if_pos hi,
    showing_slots_record hi (List.getElem?_eq_getElem hx)]

theorem map_modify_record (i : Nat) (f : α → α) :
    (xs.modify i f).map (Slot.record (β := β)) = (xs.map .record).modify i fun
      | .record a => .record (f a)
      | slot => slot := by
  apply List.ext_getElem?
  intro j
  simp only [List.getElem?_map, List.getElem?_modify]
  by_cases h : i = j
  · subst h
    cases xs[i]? <;> simp
  · simp [h]

theorem modify_showing (contents : Nat → β) {i : Nat} (f : α → α) (hi : i < capacity) (hx : i < xs.length) :
    (showing capacity contents xs).modify i f =
      some (showing capacity contents (xs.modify i f)) := by
  have hview := BoundedArray.view_modify capacity (xs.map (Slot.record (β := β)))
    (fun i => .initial (contents i)) (k := i) (fun
      | .record a => .record (f a)
      | slot => slot) (by simpa using hx)
  rw [if_pos hi, ← map_modify_record,
    BoundedArray.view_stored _ hi (by simp [hx] : (xs.map Slot.record)[i]? = some (.record xs[i]))]
    at hview
  rw [modify, load_showing hi hx]
  simp [store, showing, hi, hview]

theorem showing_modify_full {i : Nat} (f : α → α) (hi : ¬ i < capacity) (hx : i < xs.length) :
    showing capacity contents (xs.modify i f) = showing capacity contents xs := by
  have hview := BoundedArray.view_modify capacity (xs.map (Slot.record (β := β)))
    (fun i => .initial (contents i)) (k := i) (fun
      | .record a => .record (f a)
      | slot => slot) (by simpa using hx)
  rw [if_neg hi, ← map_modify_record] at hview
  simp [showing, hview]

/-- Slots that hold the records of a list are read as the list. -/
theorem records_eq {b : Buffer β α} {xs : List α}
    (h : ∀ i a, xs[i]? = some a → b.slots i = .record a) : b.records xs.length = xs := by
  have htake : ∀ n, n ≤ xs.length → b.records n = xs.take n := by
    intro n
    induction n with
    | zero => exact fun _ => rfl
    | succ n ih =>
      intro hn
      have hslot : b.slots n = .record xs[n] := h n xs[n] (List.getElem?_eq_getElem hn)
      have hinit := ih (by omega)
      rw [records] at hinit
      rw [records, List.range_succ, List.filterMap_append, hinit, List.filterMap_cons, hslot,
        List.take_add_one, List.getElem?_eq_getElem hn]
      rfl
  rw [htake xs.length (Nat.le_refl _), List.take_length]

end Buffer
