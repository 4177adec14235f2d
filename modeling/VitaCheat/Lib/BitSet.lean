import Mathlib.Data.List.Basic

/-!
# Machine words as finite sets of bit positions

A word of width `w` is read as the set of its set positions. The three word
operations are the usual shift-and-mask expressions, and each gets one lemma
about membership, so that no later proof looks at bits again.
-/
namespace BitSet

variable {w : Nat}

/-- The mask test `(word & (1 << i)) != 0`. -/
def mem (word : BitVec w) (i : Nat) : Bool := word &&& (1#w <<< i) != 0#w

/-- The mask update `word | (1 << i)`. -/
def insert (word : BitVec w) (i : Nat) : BitVec w := word ||| (1#w <<< i)

/-- The mask update `word & ~(1 << i)`. -/
def erase (word : BitVec w) (i : Nat) : BitVec w := word &&& ~~~(1#w <<< i)

theorem getLsbD_shifted_one (i j : Nat) :
    (1#w <<< i).getLsbD j = (decide (j < w) && decide (j = i)) := by
  rw [← BitVec.twoPow_eq, BitVec.getLsbD_twoPow]
  by_cases h : j = i
  · subst h; simp
  · simp [h, Ne.symm h]

theorem mem_eq_getLsbD (word : BitVec w) (i : Nat) : mem word i = word.getLsbD i := by
  by_cases hi : i < w
  · cases hb : word.getLsbD i with
    | false =>
      have hz : word &&& (1#w <<< i) = 0#w := by
        apply BitVec.eq_of_getLsbD_eq
        intro j hj
        rw [BitVec.getLsbD_and, getLsbD_shifted_one]
        by_cases h : j = i
        · subst h; simp [hb]
        · simp [h]
      simp [mem, hz]
    | true =>
      have hn : word &&& (1#w <<< i) ≠ 0#w := by
        intro hz
        have hbit := congrArg (fun v => v.getLsbD i) hz
        simp only [BitVec.getLsbD_and, getLsbD_shifted_one, hb, hi, decide_true, Bool.and_true,
          BitVec.getLsbD_zero, Bool.true_eq_false] at hbit
      simp [mem, hn]
  · have hs : 1#w <<< i = 0#w := by
      apply BitVec.eq_of_getLsbD_eq
      intro j hj
      rw [getLsbD_shifted_one]
      simp [show j ≠ i by omega]
    have hb : word.getLsbD i = false := BitVec.getLsbD_of_ge _ _ (by omega)
    simp [mem, hs, hb]

theorem mem_lt_width {word : BitVec w} {i : Nat} (h : mem word i = true) : i < w := by
  rw [mem_eq_getLsbD] at h
  exact BitVec.lt_of_getLsbD h

@[simp] theorem mem_zero (i : Nat) : mem (0#w) i = false := by simp [mem]

@[simp] theorem mem_insert (word : BitVec w) (i j : Nat) (hi : i < w) :
    mem (insert word i) j = (mem word j || decide (j = i)) := by
  simp only [mem_eq_getLsbD, insert, BitVec.getLsbD_or, getLsbD_shifted_one]
  by_cases h : j = i
  · subst h; simp [hi]
  · simp [h]

@[simp] theorem mem_erase (word : BitVec w) (i j : Nat) :
    mem (erase word i) j = (mem word j && decide (j ≠ i)) := by
  simp only [mem_eq_getLsbD, erase, BitVec.getLsbD_and, BitVec.getLsbD_not, getLsbD_shifted_one]
  by_cases hj : j < w
  · by_cases h : j = i <;> simp [h, hj]
  · have hb : word.getLsbD j = false := BitVec.getLsbD_of_ge _ _ (by omega)
    simp [hb]

/-- A word is zero exactly when it is empty as a set. -/
theorem eq_zero_iff (word : BitVec w) : word = 0#w ↔ ∀ i, mem word i = false := by
  constructor
  · intro h i
    rw [h, mem_zero]
  · intro h
    apply BitVec.eq_of_getLsbD_eq
    intro i hi
    have := h i
    rw [mem_eq_getLsbD] at this
    simpa using this

/-- The members below a bound, in increasing order. -/
def members (word : BitVec w) (bound : Nat) : List Nat := (List.range bound).filter (mem word)

@[simp] theorem members_zero (word : BitVec w) : members word 0 = [] := rfl

theorem members_succ (word : BitVec w) (n : Nat) :
    members word (n + 1) = members word n ++ if mem word n then [n] else [] := by
  rw [members, List.range_succ, List.filter_append]
  cases h : mem word n <;> simp [members, h]

@[simp] theorem mem_members {word : BitVec w} {bound i : Nat} :
    i ∈ members word bound ↔ i < bound ∧ mem word i = true := by
  simp [members]

/-- Positions at or above the bound do not matter. -/
theorem members_congr {u v : BitVec w} {bound : Nat}
    (h : ∀ i, i < bound → mem u i = mem v i) : members u bound = members v bound :=
  List.filter_congr (fun i hi => h i (List.mem_range.mp hi))

end BitSet
