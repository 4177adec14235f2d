import Mathlib.Data.List.Basic
import VitaCheat.Search

/-!
# The argument checks of the search calls

Each check is described by the condition it lets through. The overlap checks
come down to one statement about all buffers of a call: each ends by the last
address, and what is written meets nothing else.
-/
namespace VitaCheat.Search

open Region (Clear Separated)

/-- What the common validation demands besides its overlap checks. -/
structure CommonChecks (p : Platform) (current : Snapshot) (size : Nat) (query : Object Query)
    (out : Output) : Prop where
  written_ne : out.written ≠ 0
  totalMatches_ne : out.totalMatches ≠ 0
  query_ne : query.address ≠ 0
  current_ne : current.address = 0 → size = 0
  outOffsets_ne : out.outOffsets = 0 → out.capacity = 0
  representable : vcSizeIsRepresentable p size = true
  width_ne : vcScalarWidth query.value.type ≠ 0
  stride_ne : query.value.stride ≠ 0
  relation : vcRelationIsValid query.value.relation = true
  fits : out.capacity * offsetSize ≤ p.sizeMax

/-- The overlap checks of the common validation. -/
def commonOverlaps (p : Platform) (current : Snapshot) (size : Nat) (query : Object Query)
    (out : Output) (outputBytes : Nat) : Bool :=
  vcRangesOverlap p out.written (countSize p) out.totalMatches (countSize p) ||
    vcRangesOverlap p out.outOffsets outputBytes current.address size ||
    vcRangesOverlap p out.outOffsets outputBytes query.address p.querySize ||
    vcRangesOverlap p out.outOffsets outputBytes out.written (countSize p) ||
    vcRangesOverlap p out.outOffsets outputBytes out.totalMatches (countSize p) ||
    vcRangesOverlap p out.written (countSize p) current.address size ||
    vcRangesOverlap p out.totalMatches (countSize p) current.address size ||
    vcRangesOverlap p out.written (countSize p) query.address p.querySize ||
    vcRangesOverlap p out.totalMatches (countSize p) query.address p.querySize

variable {p : Platform} {current previous : Snapshot} {size : Nat} {query : Object Query}
  {out : Output}

/-- With the other checks passed the overlap checks decide. -/
theorem validateCommon_of_checks (h : CommonChecks p current size query out) :
    vcValidateCommon p current size query out =
      if commonOverlaps p current size query out (out.capacity * offsetSize) then
        .error .invalidArgument
      else .ok ⟨query.value, vcScalarWidth query.value.type, out.capacity * offsetSize⟩ := by
  have hbytes : vcMultiplySize p out.capacity offsetSize = some (out.capacity * offsetSize) :=
    p.multiply_eq_some.mpr ⟨h.fits, rfl⟩
  have hcounts : ¬ (decide (out.written = 0) || decide (out.totalMatches = 0)) = true := by
    simp [h.written_ne, h.totalMatches_ne]
  have hpointers : ¬ (decide (query.address = 0) || (decide (current.address = 0) && size != 0) ||
      (decide (out.outOffsets = 0) && out.capacity != 0) || !vcSizeIsRepresentable p size) =
        true := by
    simpa [h.query_ne, h.representable] using ⟨h.current_ne, h.outOffsets_ne⟩
  have hquery : ¬ (decide (vcScalarWidth query.value.type = 0) || decide (query.value.stride = 0) ||
      !vcRelationIsValid query.value.relation) = true := by
    simpa [h.width_ne, h.relation] using h.stride_ne
  rw [vcValidateCommon, if_neg hcounts, if_neg hpointers, if_neg hquery, hbytes]
  rfl

/-- The common validation passes only calls that meet all its checks. -/
theorem checks_of_validateCommon {v : Validated}
    (h : vcValidateCommon p current size query out = .ok v) :
    CommonChecks p current size query out := by
  unfold vcValidateCommon at h
  split at h
  · cases h
  · next hcounts =>
    split at h
    · cases h
    · next hpointers =>
      split at h
      · cases h
      · next hquery =>
        split at h
        · cases h
        · next outputBytes hbytes =>
          simp only [Bool.or_eq_true, decide_eq_true_eq, not_or] at hcounts
          simp only [Bool.or_eq_true, decide_eq_true_eq, Bool.and_eq_true, bne_iff_ne, ne_eq,
            Bool.not_eq_true', not_or, not_and, not_not, Bool.not_eq_false] at hpointers
          simp only [Bool.or_eq_true, decide_eq_true_eq, Bool.not_eq_true', not_or,
            Bool.not_eq_false] at hquery
          exact ⟨hcounts.1, hcounts.2, hpointers.1.1.1, hpointers.1.1.2, hpointers.1.2,
            hpointers.2, hquery.1.1, hquery.1.2, hquery.2, (p.multiply_eq_some.mp hbytes).1⟩

theorem validateCommon_iff {v : Validated} :
    vcValidateCommon p current size query out = .ok v ↔
      CommonChecks p current size query out ∧
        commonOverlaps p current size query out (out.capacity * offsetSize) = false ∧
        v = ⟨query.value, vcScalarWidth query.value.type, out.capacity * offsetSize⟩ := by
  constructor
  · intro h
    have hc := checks_of_validateCommon h
    rw [validateCommon_of_checks hc] at h
    split at h
    · cases h
    · next hclear => exact ⟨hc, Bool.eq_false_iff.mpr hclear, (Except.ok.inj h).symm⟩
  · rintro ⟨hc, hclear, rfl⟩
    rw [validateCommon_of_checks hc, hclear]
    rfl

theorem countSize_bounds (p : Platform) : countSize p ≠ 0 ∧ countSize p ≤ p.sizeMax := by
  rw [countSize, Platform.sizeMax]
  rcases p.sizeBits_eq with h | h <;> rw [h] <;> decide

inductive InitialBuffer where
  | current | query | outOffsets | written | totalMatches
  deriving DecidableEq, Repr

namespace InitialBuffer

def writes : InitialBuffer → Prop
  | .outOffsets | .written | .totalMatches => True
  | .current | .query => False

def region (p : Platform) (current : Snapshot) (size : Nat) (query : Object Query) (out : Output) :
    InitialBuffer → Region
  | .current => ⟨current.address, size⟩
  | .query => ⟨query.address, p.querySize⟩
  | .outOffsets => ⟨out.outOffsets, out.capacity * offsetSize⟩
  | .written => ⟨out.written, countSize p⟩
  | .totalMatches => ⟨out.totalMatches, countSize p⟩

end InitialBuffer

inductive RefineBuffer where
  | previous | current | candidates | query | outOffsets | written | totalMatches
  deriving DecidableEq, Repr

namespace RefineBuffer

def writes : RefineBuffer → Prop
  | .outOffsets | .written | .totalMatches => True
  | .previous | .current | .candidates | .query => False

def region (p : Platform) (previous current : Snapshot) (size candidates candidateCount : Nat)
    (query : Object Query) (out : Output) : RefineBuffer → Region
  | .previous => ⟨previous.address, size⟩
  | .current => ⟨current.address, size⟩
  | .candidates => ⟨candidates, candidateCount * offsetSize⟩
  | .query => ⟨query.address, p.querySize⟩
  | .outOffsets => ⟨out.outOffsets, out.capacity * offsetSize⟩
  | .written => ⟨out.written, countSize p⟩
  | .totalMatches => ⟨out.totalMatches, countSize p⟩

/-- Refining in place: the output starts where the candidates start. -/
def inPlace (candidates : Nat) (out : Output) (w b : RefineBuffer) : Prop :=
  w = .outOffsets ∧ b = .candidates ∧ out.outOffsets = candidates

end RefineBuffer

/-- The guard on a pair of buffers whose sizes are `size_t` values. -/
theorem rangesOverlap_clear {r s : Region} (hr : r.size ≤ p.sizeMax ∧ (r.first = 0 → r.size = 0))
    (hs : s.size ≤ p.sizeMax ∧ (s.first = 0 → s.size = 0)) :
    vcRangesOverlap p r.first r.size s.first s.size = false ↔ Clear p.sizeMax r s :=
  p.overlap_eq_false hr.1 hs.1 hr.2 hs.2

theorem initialRegion_bounds (h : CommonChecks p current size query out) (hsize : size ≤ p.sizeMax)
    (b : InitialBuffer) : (b.region p current size query out).size ≤ p.sizeMax ∧
      ((b.region p current size query out).first = 0 →
        (b.region p current size query out).size = 0) := by
  have hcount := countSize_bounds p
  have hquery := p.querySize_le
  cases b with
  | current => exact ⟨hsize, h.current_ne⟩
  | query => exact ⟨hquery, fun hz => absurd hz h.query_ne⟩
  | outOffsets => exact ⟨h.fits, fun hz => by simp [InitialBuffer.region, h.outOffsets_ne hz]⟩
  | written => exact ⟨hcount.2, fun hz => absurd hz h.written_ne⟩
  | totalMatches => exact ⟨hcount.2, fun hz => absurd hz h.totalMatches_ne⟩

/-- The pairs of the common validation. -/
def InitialBuffer.pairs : List (InitialBuffer × InitialBuffer) :=
  [(.written, .totalMatches), (.outOffsets, .current), (.outOffsets, .query),
    (.outOffsets, .written), (.outOffsets, .totalMatches), (.written, .current),
    (.totalMatches, .current), (.written, .query), (.totalMatches, .query)]

theorem InitialBuffer.pairs_cover :
    Region.Covers InitialBuffer.writes (fun _ _ => False) InitialBuffer.pairs where
  named := by
    intro w b hw hne _
    cases w <;> cases b <;>
      first
        | exact absurd hw not_false
        | exact absurd rfl hne
        | decide
  distinct := by decide
  needed := by simp [InitialBuffer.pairs, InitialBuffer.writes]

/-- The nine pairs of the common validation are all the pairs there are. -/
theorem commonOverlaps_separated (h : CommonChecks p current size query out)
    (hsize : size ≤ p.sizeMax) :
    commonOverlaps p current size query out (out.capacity * offsetSize) = false ↔
      Separated p.sizeMax (InitialBuffer.region p current size query out) InitialBuffer.writes
        (fun _ _ => False) := by
  have hcount := countSize_bounds p
  have hpair := fun a b => rangesOverlap_clear (initialRegion_bounds h hsize a)
    (initialRegion_bounds h hsize b)
  rw [Region.separated_iff .written .totalMatches trivial hcount.1
    (fun _ => not_false) (by decide) hcount.1, ← InitialBuffer.pairs_cover.clear_iff]
  simp only [← hpair, InitialBuffer.pairs, List.forall_mem_cons, commonOverlaps,
    Bool.or_eq_false_iff, and_assoc]
  simp [InitialBuffer.region]

/-- The candidates of a call, as they were before it. -/
def candidateList (m : Memory) (candidates candidateCount : Nat) : List U32 :=
  (List.range candidateCount).map (m.arrays candidates)

/-- Strictly increasing offsets with a whole window inside the snapshot. -/
structure ValidCandidates (size width : Nat) (cs : List U32) : Prop where
  increasing : (cs.map BitVec.toNat).Pairwise (· < ·)
  inside : ∀ c ∈ cs, c.toNat + width ≤ size

theorem candidateList_length (m : Memory) (candidates candidateCount : Nat) :
    (candidateList m candidates candidateCount).length = candidateCount := by
  simp [candidateList]

theorem mem_candidateList {m : Memory} {candidates candidateCount : Nat} {c : U32} :
    c ∈ candidateList m candidates candidateCount ↔
      ∃ i, i < candidateCount ∧ m.arrays candidates i = c := by
  simp [candidateList]

/-- Neighbours in order make a list in order. -/
theorem pairwise_neighbours {m : Memory} {candidates candidateCount : Nat} :
    ((candidateList m candidates candidateCount).map BitVec.toNat).Pairwise (· < ·) ↔
      ∀ i, i + 1 < candidateCount →
        (m.arrays candidates i).toNat < (m.arrays candidates (i + 1)).toNat := by
  rw [← List.isChain_iff_pairwise, List.isChain_iff_getElem]
  simp [candidateList]

/-- What the candidate loop tests at an index. -/
theorem candidate_test (m : Memory) {candidates size width : Nat} (hmax : size ≤ p.sizeMax)
    (i : Nat) :
    (((i != 0 && decide (m.arrays candidates (i - 1) ≥ m.arrays candidates i)) ||
        decide ((m.arrays candidates i).toNat > size)) ||
        decide (width > p.sub size (m.arrays candidates i).toNat)) = true ↔
      (i ≠ 0 ∧ (m.arrays candidates i).toNat ≤ (m.arrays candidates (i - 1)).toNat) ∨
        size < (m.arrays candidates i).toNat + width := by
  simp only [Bool.or_eq_true, Bool.and_eq_true, bne_iff_ne, decide_eq_true_eq, ge_iff_le,
    BitVec.le_def, or_assoc]
  refine or_congr_right ?_
  by_cases hle : (m.arrays candidates i).toNat ≤ size
  · rw [p.sub_eq hle hmax]
    omega
  · omega

/-- The candidate loop rejects a list exactly when it is not valid. -/
theorem validateCandidates_eq (m : Memory) {candidates candidateCount size : Nat} (width : Nat)
    (hmax : size ≤ p.sizeMax) (hnull : candidates = 0 → candidateCount = 0) :
    (ValidCandidates size width (candidateList m candidates candidateCount) ∧
        vcValidateCandidates p candidates candidateCount size width m = .ok) ∨
      (¬ ValidCandidates size width (candidateList m candidates candidateCount) ∧
        vcValidateCandidates p candidates candidateCount size width m = .invalidCandidates) := by
  have hgiven : ¬ (decide (candidates = 0) && candidateCount != 0) = true := by simpa using hnull
  rw [vcValidateCandidates]
  simp only [if_neg hgiven]
  split
  · next hany =>
    obtain ⟨i, hi, htest⟩ := List.any_eq_true.mp hany
    have hi := List.mem_range.mp hi
    refine Or.inr ⟨?_, rfl⟩
    rintro ⟨hinc, hin⟩
    rcases (candidate_test m hmax i).mp htest with ⟨hpos, hle⟩ | hout
    · have hlt := pairwise_neighbours.mp hinc (i - 1) (by omega)
      rw [Nat.sub_add_cancel (by omega)] at hlt
      omega
    · have hle := hin _ (mem_candidateList.mpr ⟨i, hi, rfl⟩)
      omega
  · next hnone =>
    have htest : ∀ i, i < candidateCount → ¬ ((i ≠ 0 ∧ (m.arrays candidates i).toNat ≤
        (m.arrays candidates (i - 1)).toNat) ∨ size < (m.arrays candidates i).toNat + width) :=
      fun i hi hbad => hnone (List.any_eq_true.mpr
        ⟨i, List.mem_range.mpr hi, (candidate_test m hmax i).mpr hbad⟩)
    refine Or.inl ⟨⟨?_, ?_⟩, rfl⟩
    · rw [pairwise_neighbours]
      intro i hi
      have hnext := (not_or.mp (htest (i + 1) hi)).1
      rw [Nat.add_sub_cancel] at hnext
      omega
    · intro c hc
      obtain ⟨i, hi, rfl⟩ := mem_candidateList.mp hc
      have hwindow := (not_or.mp (htest i hi)).2
      omega

theorem validateCandidates_iff (m : Memory) {candidates candidateCount size width : Nat}
    (hmax : size ≤ p.sizeMax) (hnull : candidates = 0 → candidateCount = 0) :
    vcValidateCandidates p candidates candidateCount size width m = .ok ↔
      ValidCandidates size width (candidateList m candidates candidateCount) := by
  rcases validateCandidates_eq m width hmax hnull with ⟨hvalid, hok⟩ | ⟨hbad, hbads⟩
  · simp [hvalid, hok]
  · simp [hbad, hbads]

theorem refineRegion_bounds {candidates candidateCount : Nat}
    (h : CommonChecks p current size query out) (hsize : size ≤ p.sizeMax)
    (hprevious : previous.address = 0 → size = 0) (hnull : candidates = 0 → candidateCount = 0)
    (hfits : candidateCount * offsetSize ≤ p.sizeMax) (b : RefineBuffer) :
    (b.region p previous current size candidates candidateCount query out).size ≤ p.sizeMax ∧
      ((b.region p previous current size candidates candidateCount query out).first = 0 →
        (b.region p previous current size candidates candidateCount query out).size = 0) := by
  have hcommon := initialRegion_bounds h hsize
  cases b with
  | previous => exact ⟨hsize, hprevious⟩
  | candidates => exact ⟨hfits, fun hz => by simp [RefineBuffer.region, hnull hz]⟩
  | current => exact hcommon .current
  | query => exact hcommon .query
  | outOffsets => exact hcommon .outOffsets
  | written => exact hcommon .written
  | totalMatches => exact hcommon .totalMatches

/-- The pairs of both functions together that every refine checks. -/
def RefineBuffer.common : List (RefineBuffer × RefineBuffer) :=
  [(.written, .totalMatches), (.outOffsets, .current), (.outOffsets, .query),
    (.outOffsets, .written), (.outOffsets, .totalMatches), (.written, .current),
    (.totalMatches, .current), (.written, .query), (.totalMatches, .query),
    (.previous, .outOffsets), (.written, .previous), (.totalMatches, .previous),
    (.written, .candidates), (.totalMatches, .candidates)]

/-- One more pair is checked if the output is not the candidates. -/
def RefineBuffer.pairs (candidates : Nat) (out : Output) : List (RefineBuffer × RefineBuffer) :=
  if out.outOffsets = candidates then common else common ++ [(.candidates, .outOffsets)]

theorem RefineBuffer.pairs_cover (candidates : Nat) (out : Output) :
    Region.Covers RefineBuffer.writes (RefineBuffer.inPlace candidates out)
      (RefineBuffer.pairs candidates out) := by
  by_cases hsame : out.outOffsets = candidates
  · rw [RefineBuffer.pairs, if_pos hsame]
    constructor
    · intro w b hw hne hs
      cases w <;> cases b <;>
        first
          | exact absurd hw not_false
          | exact absurd rfl hne
          | exact absurd ⟨rfl, rfl, hsame⟩ hs
          | decide
    · decide
    · simp [RefineBuffer.common, RefineBuffer.writes, RefineBuffer.inPlace]
  · rw [RefineBuffer.pairs, if_neg hsame]
    constructor
    · intro w b hw hne _
      cases w <;> cases b <;>
        first
          | exact absurd hw not_false
          | exact absurd rfl hne
          | decide
    · decide
    · simp [RefineBuffer.common, RefineBuffer.writes, RefineBuffer.inPlace, hsame]

/-- The pairs of both functions together are all the pairs of a refine. -/
theorem refineOverlaps_separated {candidates candidateCount : Nat}
    (h : CommonChecks p current size query out) (hsize : size ≤ p.sizeMax)
    (hprevious : previous.address = 0 → size = 0) (hnull : candidates = 0 → candidateCount = 0)
    (hfits : candidateCount * offsetSize ≤ p.sizeMax) :
    (commonOverlaps p current size query out (out.capacity * offsetSize) = false ∧
        refineOverlaps p previous size candidates (candidateCount * offsetSize)
          (out.capacity * offsetSize) out = false) ↔
      Separated p.sizeMax
        (RefineBuffer.region p previous current size candidates candidateCount query out)
        RefineBuffer.writes (RefineBuffer.inPlace candidates out) := by
  have hcount := countSize_bounds p
  have hpair := fun a b => rangesOverlap_clear
    (refineRegion_bounds h hsize hprevious hnull hfits a)
    (refineRegion_bounds h hsize hprevious hnull hfits b)
  rw [Region.separated_iff .written .totalMatches trivial hcount.1
    (fun b hshared => absurd hshared.1 (by decide)) (by decide) hcount.1,
    ← (RefineBuffer.pairs_cover candidates out).clear_iff]
  simp only [← hpair, RefineBuffer.pairs, RefineBuffer.common, commonOverlaps, refineOverlaps,
    Bool.or_eq_false_iff, Bool.and_eq_false_iff, bne_eq_false_iff_eq, and_assoc]
  by_cases hsame : out.outOffsets = candidates
  · simp [RefineBuffer.region, hsame]
  · simp [RefineBuffer.region, hsame]

end VitaCheat.Search
