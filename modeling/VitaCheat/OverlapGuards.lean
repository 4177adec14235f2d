import VitaCheat.Psv
import VitaCheat.SearchRefine

/-!
# The overlap guards are exact

The importer and both search calls let a call through exactly when each of its
buffers ends by the last address and what it writes meets nothing else. The one
pair that may meet is the output of a refine that starts at its candidates.
-/
namespace VitaCheat

open Region (Clear Separated)

namespace Psv

variable {β : Type} {p : Platform} {c : Call β}

/-- What the importer demands of its arguments besides the overlap checks. -/
structure ParseChecks (p : Platform) (c : Call β) : Prop where
  report_ne : c.report.address ≠ 0
  source_ne : c.source.address = 0 → c.source.value.length = 0
  lines_ne : c.lines.address = 0 → c.lines.capacity = 0
  cheats_ne : c.cheats.address = 0 → c.cheats.capacity = 0
  operations_ne : c.operations.address = 0 → c.operations.capacity = 0
  source_le : c.source.value.length ≤ maxSourceBytes
  lines_fit : c.lines.capacity * p.lineSize ≤ p.sizeMax
  cheats_fit : c.cheats.capacity * p.cheatSize ≤ p.sizeMax
  operations_fit : c.operations.capacity * p.operationSize ≤ p.sizeMax

inductive ParseBuffer where
  | source | lines | cheats | operations | report
  deriving DecidableEq, Repr

namespace ParseBuffer

def writes : ParseBuffer → Prop
  | .lines | .cheats | .operations | .report => True
  | .source => False

def region (p : Platform) (c : Call β) : ParseBuffer → Region
  | .source => ⟨c.source.address, c.source.value.length⟩
  | .lines => ⟨c.lines.address, c.lines.capacity * p.lineSize⟩
  | .cheats => ⟨c.cheats.address, c.cheats.capacity * p.cheatSize⟩
  | .operations => ⟨c.operations.address, c.operations.capacity * p.operationSize⟩
  | .report => ⟨c.report.address, p.reportSize⟩

end ParseBuffer

/-- The overlap checks of the importer. -/
def parseOverlaps (p : Platform) (c : Call β) (lineBytes cheatBytes operationBytes : Nat) : Bool :=
  let sourceSize := c.source.value.length
  rangesOverlap p c.source.address sourceSize c.lines.address lineBytes ||
    rangesOverlap p c.source.address sourceSize c.cheats.address cheatBytes ||
    rangesOverlap p c.source.address sourceSize c.operations.address operationBytes ||
    rangesOverlap p c.source.address sourceSize c.report.address p.reportSize ||
    rangesOverlap p c.lines.address lineBytes c.cheats.address cheatBytes ||
    rangesOverlap p c.lines.address lineBytes c.operations.address operationBytes ||
    rangesOverlap p c.lines.address lineBytes c.report.address p.reportSize ||
    rangesOverlap p c.cheats.address cheatBytes c.operations.address operationBytes ||
    rangesOverlap p c.cheats.address cheatBytes c.report.address p.reportSize ||
    rangesOverlap p c.operations.address operationBytes c.report.address p.reportSize

theorem checkArguments_of_checks (h : ParseChecks p c) :
    checkArguments p c =
      if parseOverlaps p c (c.lines.capacity * p.lineSize) (c.cheats.capacity * p.cheatSize)
          (c.operations.capacity * p.operationSize) then some .invalidArgument
      else none := by
  have hpointers : ¬ (decide (c.report.address = 0) ||
      (decide (c.source.address = 0) && c.source.value.length != 0) ||
      (decide (c.lines.address = 0) && c.lines.capacity != 0) ||
      (decide (c.cheats.address = 0) && c.cheats.capacity != 0) ||
      (decide (c.operations.address = 0) && c.operations.capacity != 0)) = true := by
    simpa [h.report_ne, and_assoc] using
      ⟨fun hz => List.eq_nil_of_length_eq_zero (h.source_ne hz), h.lines_ne, h.cheats_ne,
        h.operations_ne⟩
  have hbytes : ∀ {n size : Nat}, n * size ≤ p.sizeMax →
      multiplySize p n size = some (n * size) :=
    fun hfits => p.multiply_eq_some.mpr ⟨hfits, rfl⟩
  rw [checkArguments, if_neg hpointers, if_neg (Nat.not_lt.mpr h.source_le), hbytes h.lines_fit,
    hbytes h.cheats_fit, hbytes h.operations_fit]
  rfl

theorem parseRegion_bounds (h : ParseChecks p c) (b : ParseBuffer) :
    (b.region p c).size ≤ p.sizeMax ∧ ((b.region p c).first = 0 → (b.region p c).size = 0) := by
  have hmax := p.sizeMax_ge
  cases b with
  | source =>
    have hle : c.source.value.length ≤ 1024 * 1024 := h.source_le
    exact ⟨by simp only [ParseBuffer.region]; omega, h.source_ne⟩
  | lines => exact ⟨h.lines_fit, fun hz => by simp [ParseBuffer.region, h.lines_ne hz]⟩
  | cheats => exact ⟨h.cheats_fit, fun hz => by simp [ParseBuffer.region, h.cheats_ne hz]⟩
  | operations =>
    exact ⟨h.operations_fit, fun hz => by simp [ParseBuffer.region, h.operations_ne hz]⟩
  | report => exact ⟨p.reportSize_le, fun hz => absurd hz h.report_ne⟩

/-- The pairs that the importer checks. -/
def ParseBuffer.pairs : List (ParseBuffer × ParseBuffer) :=
  [(.source, .lines), (.source, .cheats), (.source, .operations), (.source, .report),
    (.lines, .cheats), (.lines, .operations), (.lines, .report), (.cheats, .operations),
    (.cheats, .report), (.operations, .report)]

theorem ParseBuffer.pairs_cover :
    Region.Covers ParseBuffer.writes (fun _ _ => False) ParseBuffer.pairs where
  named := by
    intro w b hw hne _
    cases w <;> cases b <;>
      first
        | exact absurd hw not_false
        | exact absurd rfl hne
        | decide
  distinct := by decide
  needed := by simp [ParseBuffer.pairs, ParseBuffer.writes]

/-- The ten pairs are all the pairs there are. -/
theorem parseOverlaps_separated (h : ParseChecks p c) {b : ParseBuffer}
    (hb : ParseBuffer.report ≠ b) (hsize : (b.region p c).size ≠ 0) :
    parseOverlaps p c (c.lines.capacity * p.lineSize) (c.cheats.capacity * p.cheatSize)
        (c.operations.capacity * p.operationSize) = false ↔
      Separated p.sizeMax (ParseBuffer.region p c) ParseBuffer.writes (fun _ _ => False) := by
  have hpair : ∀ a b : ParseBuffer, rangesOverlap p (a.region p c).first (a.region p c).size
      (b.region p c).first (b.region p c).size = false ↔
        Clear p.sizeMax (a.region p c) (b.region p c) := fun a b =>
    p.overlap_eq_false (parseRegion_bounds h a).1 (parseRegion_bounds h b).1
      (parseRegion_bounds h a).2 (parseRegion_bounds h b).2
  rw [Region.separated_iff .report _ trivial (Nat.ne_of_gt p.reportSize_pos)
    (fun _ => not_false) hb hsize, ← ParseBuffer.pairs_cover.clear_iff]
  simp only [← hpair, ParseBuffer.pairs, List.forall_mem_cons, parseOverlaps,
    Bool.or_eq_false_iff, and_assoc]
  simp [ParseBuffer.region]

/-- Past the other checks the importer reports INVALID_ARGUMENT for overlaps only. -/
theorem parse_guard (h : ParseChecks p c) {b : ParseBuffer} (hb : ParseBuffer.report ≠ b)
    (hsize : (b.region p c).size ≠ 0) :
    (vcPsvParse p c).map Prod.fst = some .invalidArgument ↔
      ¬ Separated p.sizeMax (ParseBuffer.region p c) ParseBuffer.writes (fun _ _ => False) := by
  rw [← parseOverlaps_separated h hb hsize, vcPsvParse, checkArguments_of_checks h]
  cases parseOverlaps p c (c.lines.capacity * p.lineSize) (c.cheats.capacity * p.cheatSize)
      (c.operations.capacity * p.operationSize) with
  | true => simp
  | false =>
    simp only [Bool.false_eq_true, if_false, not_true, iff_false]
    intro hstatus
    obtain ⟨answer, hrun, hst⟩ := Option.map_eq_some_iff.mp hstatus
    obtain ⟨s, -, hrun⟩ := Option.bind_eq_some_iff.mp hrun
    obtain ⟨s', -, hrun⟩ := Option.bind_eq_some_iff.mp hrun
    split at hrun
    · obtain ⟨s'', -, hrun⟩ := Option.bind_eq_some_iff.mp hrun
      cases hrun
      cases hst
    · cases hrun
      cases hst

end Psv

namespace Search

variable {p : Platform} {previous current : Snapshot} {size candidates candidateCount : Nat}
  {query : Object Query} {out : Output} {m : Memory}

theorem initial_guard (h : CommonChecks p current size query out) (hsize : size ≤ p.sizeMax)
    (hrel : query.value.relation = .equal ∨ query.value.relation = .notEqual) :
    (vcSearchInitial p current size query out m).map Prod.fst = some .invalidArgument ↔
      ¬ Separated p.sizeMax (InitialBuffer.region p current size query out) InitialBuffer.writes
        (fun _ _ => False) := by
  rw [← commonOverlaps_separated h hsize, vcSearchInitial, validateCommon_of_checks h]
  cases commonOverlaps p current size query out (out.capacity * offsetSize) with
  | true => simp
  | false =>
    have hgiven : ¬ (query.value.relation != .equal && query.value.relation != .notEqual) =
        true := by
      rcases hrel with hrel | hrel <;> rw [hrel] <;> decide
    simp only [Bool.false_eq_true, if_false, if_neg hgiven, not_true, iff_false]
    split
    · simp
    · exact finish_fst (by decide)

theorem refine_guard (h : CommonChecks p current size query out) (hsize : size ≤ p.sizeMax)
    (hprevious : previous.address = 0 → size = 0) (hnull : candidates = 0 → candidateCount = 0)
    (hvalid : ValidCandidates size (vcScalarWidth query.value.type)
      (candidateList m candidates candidateCount))
    (hfits : candidateCount * offsetSize ≤ p.sizeMax) :
    (vcSearchRefine p previous current size candidates candidateCount query out m).map Prod.fst =
        some .invalidArgument ↔
      ¬ Separated p.sizeMax
        (RefineBuffer.region p previous current size candidates candidateCount query out)
        RefineBuffer.writes (RefineBuffer.inPlace candidates out) := by
  rw [← refineOverlaps_separated h hsize hprevious hnull hfits, vcSearchRefine,
    validateCommon_of_checks h]
  cases commonOverlaps p current size query out (out.capacity * offsetSize) with
  | true => simp
  | false =>
    have hgiven : ¬ (decide (previous.address = 0) && size != 0) = true := by simpa using hprevious
    have hbytes : vcMultiplySize p candidateCount offsetSize = some (candidateCount * offsetSize) :=
      p.multiply_eq_some.mpr ⟨hfits, rfl⟩
    simp only [Bool.false_eq_true, if_false, if_neg hgiven, hbytes, true_and,
      (validateCandidates_iff m hsize hnull).mpr hvalid]
    cases refineOverlaps p previous size candidates (candidateCount * offsetSize)
        (out.capacity * offsetSize) out with
    | true => simp
    | false =>
      simp only [Bool.false_eq_true, if_false, not_true, iff_false]
      exact finish_fst (by decide)

end Search

/-- A call of each function that passes its other checks is refused exactly when
some buffer ends past the last address or something written meets another buffer.
The sizes of the buffers are exact products. -/
theorem overlap_guards (p : Platform) (β : Type) :
    (∀ (current : Search.Snapshot) (size : Nat) (query : Object Search.Query)
        (out : Search.Output) (m : Search.Memory), size ≤ p.sizeMax →
      Search.CommonChecks p current size query out →
      (query.value.relation = .equal ∨ query.value.relation = .notEqual) →
      ((Search.vcSearchInitial p current size query out m).map Prod.fst = some .invalidArgument ↔
        ¬ Separated p.sizeMax (Search.InitialBuffer.region p current size query out)
          Search.InitialBuffer.writes (fun _ _ => False))) ∧
    (∀ (previous current : Search.Snapshot) (size candidates candidateCount : Nat)
        (query : Object Search.Query) (out : Search.Output) (m : Search.Memory),
      size ≤ p.sizeMax → Search.CommonChecks p current size query out →
      (previous.address = 0 → size = 0) → (candidates = 0 → candidateCount = 0) →
      Search.ValidCandidates size (Search.vcScalarWidth query.value.type)
        (Search.candidateList m candidates candidateCount) →
      candidateCount * Search.offsetSize ≤ p.sizeMax →
      ((Search.vcSearchRefine p previous current size candidates candidateCount query out m).map
          Prod.fst = some .invalidArgument ↔
        ¬ Separated p.sizeMax
          (Search.RefineBuffer.region p previous current size candidates candidateCount query out)
          Search.RefineBuffer.writes (Search.RefineBuffer.inPlace candidates out))) ∧
    (∀ c : Psv.Call β, Psv.ParseChecks p c →
      (∃ a b : Psv.ParseBuffer, a ≠ b ∧ (a.region p c).size ≠ 0 ∧ (b.region p c).size ≠ 0) →
      ((Psv.vcPsvParse p c).map Prod.fst = some .invalidArgument ↔
        ¬ Separated p.sizeMax (Psv.ParseBuffer.region p c) Psv.ParseBuffer.writes
          (fun _ _ => False))) ∧
    ∀ count elementSize bytes, p.multiply count elementSize = some bytes ↔
      count * elementSize ≤ p.sizeMax ∧ bytes = count * elementSize := by
  refine ⟨?_, ?_, ?_, fun _ _ _ => p.multiply_eq_some⟩
  · intro current size query out m hsize h hrel
    exact Search.initial_guard h hsize hrel
  · intro previous current size candidates candidateCount query out m hsize h hprevious hnull
      hvalid hfits
    exact Search.refine_guard h hsize hprevious hnull hvalid hfits
  · rintro c h ⟨a, b, hab, ha, hb⟩
    by_cases hreport : Psv.ParseBuffer.report = a
    · exact Psv.parse_guard h (hreport ▸ hab) hb
    · exact Psv.parse_guard h hreport ha

/-- An output over the snapshot, a refine in place and lines over the source. -/
theorem overlap_guards_sample :
    ((Search.vcSearchInitial ilp32 ⟨0x4000, [2, 1]⟩ 2 ⟨0x3000, ⟨.u8, .equal, 2, 1⟩⟩
        Search.sampleOut Search.sampleMemory).map Prod.fst = some .invalidArgument ↔
      ¬ Separated ilp32.sizeMax
        (Search.InitialBuffer.region ilp32 ⟨0x4000, [2, 1]⟩ 2 ⟨0x3000, ⟨.u8, .equal, 2, 1⟩⟩
          Search.sampleOut) Search.InitialBuffer.writes (fun _ _ => False)) ∧
    ((Search.vcSearchRefine ilp32 Search.sampleBefore Search.sampleAfter 4 0x4000 4
        Search.sampleQuery Search.sampleOut Search.sampleMemory).map Prod.fst =
          some .invalidArgument ↔
      ¬ Separated ilp32.sizeMax
        (Search.RefineBuffer.region ilp32 Search.sampleBefore Search.sampleAfter 4 0x4000 4
          Search.sampleQuery Search.sampleOut) Search.RefineBuffer.writes
        (Search.RefineBuffer.inPlace 0x4000 Search.sampleOut)) ∧
    ((Psv.vcPsvParse ilp32 (⟨⟨0x1000, [0x23]⟩, ⟨0x1000, 1, fun _ => 0⟩, ⟨0, 0, fun _ => 0⟩,
        ⟨0, 0, fun _ => 0⟩, ⟨0x2000, .zero⟩⟩ : Psv.Call UInt8)).map Prod.fst =
          some .invalidArgument ↔
      ¬ Separated ilp32.sizeMax
        (Psv.ParseBuffer.region ilp32 (⟨⟨0x1000, [0x23]⟩, ⟨0x1000, 1, fun _ => 0⟩,
          ⟨0, 0, fun _ => 0⟩, ⟨0, 0, fun _ => 0⟩, ⟨0x2000, .zero⟩⟩ : Psv.Call UInt8))
        Psv.ParseBuffer.writes (fun _ _ => False)) := by
  obtain ⟨hinitial, hrefine, hparse, -⟩ := overlap_guards ilp32 UInt8
  refine ⟨?_, ?_, ?_⟩
  · apply hinitial ⟨0x4000, [2, 1]⟩ 2 ⟨0x3000, ⟨.u8, .equal, 2, 1⟩⟩ Search.sampleOut
      Search.sampleMemory (by decide) _ (Or.inl rfl)
    constructor <;> decide
  · apply hrefine Search.sampleBefore Search.sampleAfter 4 0x4000 4 Search.sampleQuery
      Search.sampleOut Search.sampleMemory (by decide) _ (by decide) (by decide)
      (Search.sample_accepted.valid (by decide)) (by decide)
    constructor <;> decide
  · apply hparse
    · constructor <;> decide
    · exact ⟨.source, .lines, by decide, by decide, by decide⟩

end VitaCheat
