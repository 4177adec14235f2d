import VitaCheat.Lib.BoundedArray
import VitaCheat.SearchValues

/-!
# What a scan records

Both loops collect the matching offsets in order. `Recorded` ties the running
memory and counters to the list collected so far; it is kept whether or not the
capacity has run out, and whether or not the candidates are the array written.
-/
namespace VitaCheat.Search

/-- The list has been collected into the output array of an initial memory. -/
structure Recorded (m : Memory) (out : Output) (xs : List U32) (r : Progress) : Prop where
  localWritten : r.localWritten = min out.capacity xs.length
  localTotal : r.localTotal = xs.length
  arrays : r.memory.arrays = Function.update m.arrays out.outOffsets
    (BoundedArray.view out.capacity xs (m.arrays out.outOffsets))
  sizes : r.memory.sizes = m.sizes

theorem recorded_init (m : Memory) (out : Output) : Recorded m out [] ⟨m, 0, 0⟩ where
  localWritten := by simp
  localTotal := rfl
  arrays := by simp
  sizes := rfl

theorem Recorded.collect {m : Memory} {out : Output} {xs : List U32} {r : Progress}
    (h : Recorded m out xs r) (value : U32) : Recorded m out (xs ++ [value]) (r.collect out value) := by
  have hw := h.localWritten
  have ht := h.localTotal
  rw [Progress.collect]
  split
  · next hroom =>
    have hlen : r.localWritten = xs.length := by omega
    refine ⟨?_, by simp [ht], ?_, h.sizes⟩
    · simp only [List.length_append, List.length_singleton]
      omega
    · rw [BoundedArray.view_push, if_pos (by omega)]
      simp only [Memory.store, h.arrays, Function.update_self, Function.update_idem, hlen]
  · next hfull =>
    refine ⟨?_, by simp [ht], ?_, h.sizes⟩
    · simp only [List.length_append, List.length_singleton]
      omega
    · rw [BoundedArray.view_push, if_neg (by omega)]
      exact h.arrays

/-- Collect a value if it passes a test. -/
theorem Recorded.collect_if {m : Memory} {out : Output} {xs : List U32} {r : Progress}
    (h : Recorded m out xs r) (value : U32) {test keep : Bool} (hk : test = keep) :
    Recorded m out (xs ++ if keep then [value] else [])
      (if test then r.collect out value else r) := by
  subst hk
  cases test with
  | true => simpa using h.collect value
  | false => simpa using h

/-- What a successful call leaves: the counters, the status and the array. -/
structure Delivered (m : Memory) (out : Output) (xs : List U32) (status : Status) (m' : Memory) :
    Prop where
  status : status = if xs.length > out.capacity then .truncated else .ok
  arrays : m'.arrays = Function.update m.arrays out.outOffsets
    (BoundedArray.view out.capacity xs (m.arrays out.outOffsets))
  sizes : m'.sizes = Function.update (Function.update m.sizes out.written
    (min out.capacity xs.length)) out.totalMatches xs.length

theorem Recorded.finish {m : Memory} {out : Output} {xs : List U32} {r : Progress}
    (h : Recorded m out xs r) : Delivered m out xs (r.finish out).1 (r.finish out).2 where
  status := by simp only [Progress.finish, h.localTotal]
  arrays := by simp only [Progress.finish, Memory.setSize, h.arrays]
  sizes := by simp only [Progress.finish, Memory.setSize, h.sizes, h.localWritten, h.localTotal]

/-- Between two neighbouring multiples of the stride nothing is kept. -/
theorem filter_range_stride {keep : Nat → Bool} {stride o t : Nat} (ho : stride ∣ o)
    (hkeep : ∀ x, keep x = true → stride ∣ x) (hot : o < t) (hts : t ≤ o + stride) :
    (List.range t).filter keep = (List.range o).filter keep ++ if keep o then [o] else [] := by
  induction t, hot using Nat.le_induction with
  | base => rw [List.range_succ, List.filter_append, List.filter_singleton, cond_eq_ite]
  | succ t hot ih =>
    have hskip : keep t = false := by
      by_contra hk
      obtain ⟨c, hc⟩ := (Nat.dvd_add_right ho).mp
        (show stride ∣ o + (t - o) by
          rw [Nat.add_sub_cancel' (by omega)]
          exact hkeep t (Bool.not_eq_false _ ▸ hk))
      have hpos : c ≠ 0 := by
        intro hz
        rw [hz] at hc
        omega
      have : stride ≤ stride * c := Nat.le_mul_of_pos_right _ (by omega)
      omega
    rw [List.range_succ, List.filter_append, ih (by omega), List.filter_singleton, hskip]
    simp

/-- A predicate that fails from `a` on selects nothing there. -/
theorem filter_range_extend {keep : Nat → Bool} {a b : Nat} (hab : a ≤ b)
    (hkeep : ∀ x, a ≤ x → keep x = false) :
    (List.range b).filter keep = (List.range a).filter keep := by
  induction b, hab using Nat.le_induction with
  | base => rfl
  | succ b hab ih =>
    rw [List.range_succ, List.filter_append, ih, List.filter_singleton, hkeep b hab]
    simp

/-- The scan loop visits every multiple of the stride up to the last window. -/
theorem scanLoop_recorded (p : Platform) (current : Snapshot) (lastOffset : Nat) (v : Validated)
    (out : Output) (m : Memory) (keep : Nat → Bool) (hwidth : v.width ≤ 4)
    (hin : lastOffset + v.width ≤ current.value.length) (hmax : lastOffset ≤ p.sizeMax)
    (hstride : 0 < v.query.stride.toNat)
    (hkeep : ∀ x, keep x = true → v.query.stride.toNat ∣ x)
    (htest : ∀ x value, x ≤ lastOffset → v.query.stride.toNat ∣ x →
      value.toNat = valueAt current.value x v.width →
        vcMatches v.query.type v.query.relation 0 value v.query.valueBits v.width = keep x)
    (fuel offset : Nat) (r : Progress) (hle : offset ≤ lastOffset)
    (hdvd : v.query.stride.toNat ∣ offset) (hfuel : lastOffset - offset < fuel)
    (h : Recorded m out (((List.range offset).filter keep).map (BitVec.ofNat 32)) r) :
    ∃ r', scanLoop p current lastOffset v out fuel offset r = some r' ∧
      Recorded m out (((List.range (lastOffset + 1)).filter keep).map (BitVec.ofNat 32)) r' := by
  induction fuel generalizing offset r with
  | zero => omega
  | succ fuel ih =>
    obtain ⟨value, hread, hval⟩ := readLittleEndian_value current.value offset v.width hwidth
      (by omega)
    have hrec := h.collect_if (BitVec.ofNat 32 offset) (htest offset value hle hdvd hval)
    have hnext : ∀ t, offset < t → t ≤ offset + v.query.stride.toNat →
        ((List.range offset).filter keep).map (BitVec.ofNat 32) ++
            (if keep offset then [BitVec.ofNat 32 offset] else []) =
          ((List.range t).filter keep).map (BitVec.ofNat 32) := by
      intro t hot hts
      rw [filter_range_stride hdvd hkeep hot hts, List.map_append]
      cases keep offset <;> rfl
    rw [scanLoop, hread]
    dsimp only
    rw [p.sub_eq hle hmax]
    split
    · next hstop =>
      refine ⟨_, rfl, ?_⟩
      rw [← hnext (lastOffset + 1) (by omega) (by omega)]
      exact hrec
    · next hgo =>
      rw [p.add_eq (by omega)]
      apply ih (offset + v.query.stride.toNat) _ (by omega) (Nat.dvd_add hdvd (Nat.dvd_refl _))
        (by omega)
      rw [← hnext _ (by omega) (Nat.le_refl _)]
      exact hrec

/-- The refine loop filters the candidates as they were before the call, also
when it overwrites them: the write cursor never passes the read cursor. -/
theorem refineLoop_recorded (previous current : Snapshot) (candidates : Nat) (v : Validated)
    (out : Output) (m : Memory) (keep : U32 → Bool) (count : Nat) (hwidth : v.width ≤ 4)
    (hprev : ∀ i, i < count →
      (m.arrays candidates i).toNat + v.width ≤ previous.value.length)
    (hcur : ∀ i, i < count → (m.arrays candidates i).toNat + v.width ≤ current.value.length)
    (htest : ∀ i before after, i < count →
      before.toNat = valueAt previous.value (m.arrays candidates i).toNat v.width →
      after.toNat = valueAt current.value (m.arrays candidates i).toNat v.width →
        vcMatches v.query.type v.query.relation before after v.query.valueBits v.width =
          keep (m.arrays candidates i))
    (remaining index : Nat) (r : Progress) (hle : index + remaining = count)
    (h : Recorded m out (((List.range index).map (m.arrays candidates)).filter keep) r) :
    ∃ r', refineLoop previous current candidates v out remaining index r = some r' ∧
      Recorded m out (((List.range count).map (m.arrays candidates)).filter keep) r' := by
  induction remaining generalizing index r with
  | zero =>
    have hcount : index = count := by omega
    exact ⟨r, rfl, hcount ▸ h⟩
  | succ remaining ih =>
    have hi : index < count := by omega
    have hcand : r.memory.arrays candidates index = m.arrays candidates index := by
      rw [h.arrays]
      by_cases hsame : candidates = out.outOffsets
      · rw [hsame, Function.update_self]
        apply BoundedArray.view_initial
        have := List.length_filter_le keep ((List.range index).map (m.arrays out.outOffsets))
        rw [List.length_map, List.length_range] at this
        omega
      · rw [Function.update_of_ne hsame]
    obtain ⟨before, hreadb, hvalb⟩ := readLittleEndian_value _ _ _ hwidth (hprev index hi)
    obtain ⟨after, hreada, hvala⟩ := readLittleEndian_value _ _ _ hwidth (hcur index hi)
    have hrec := h.collect_if (m.arrays candidates index) (htest index before after hi hvalb hvala)
    rw [refineLoop]
    simp only [hcand, hreadb, hreada]
    apply ih (index + 1) _ (by omega)
    rw [List.range_succ, List.map_append, List.filter_append]
    simpa [List.filter_singleton, cond_eq_ite] using hrec

end VitaCheat.Search
