import VitaCheat.SearchCallers
import VitaCheat.SearchStores
import VitaCheat.SelfTest

/-!
# The scanner checks of the self-test

`run_scanner_self_test` of `main.c` writes words into a snapshot of its own, scans
it and refines the result in four ways. Every check passes, wherever the objects
of the self-test are and whatever an earlier run has left in them.
-/
namespace VitaCheat.SelfTest

open Search (U32 Memory Output Query Status Relation writeU32Le copyArray candidateList Delivered)

def snapshotBytes : Nat := 64
def resultCapacity : Nat := 16

/-- `self_test_result`. -/
structure SelfTestResult where
  checks : Nat
  failures : Nat
  initialMatches : Nat
  changedMatches : Nat
  increasedMatches : Nat
  decreasedMatches : Nat
  unchangedMatches : Nat
  deriving DecidableEq, Repr

/-- What `memset` leaves. -/
def SelfTestResult.zero : SelfTestResult := ⟨0, 0, 0, 0, 0, 0, 0⟩

/-- The objects of the checks: four static arrays and the locals. -/
inductive Place where
  | previousSnapshot | currentSnapshot | candidates | refined | inPlace | query | refineQuery
  | decreasedQuery | written | total
  deriving DecidableEq, Repr

def Place.size (p : Platform) : Place → Nat
  | .previousSnapshot | .currentSnapshot => snapshotBytes
  | .candidates | .refined => resultCapacity * Search.offsetSize
  | .inPlace => 3 * Search.offsetSize
  | .query | .refineQuery | .decreasedQuery => p.querySize
  | .written | .total => Search.countSize p

def check (report : SelfTestResult) (passed : Bool) : SelfTestResult :=
  { report with
    checks := report.checks + 1
    failures := if !passed then report.failures + 1 else report.failures }

/-- The counts are compared first. -/
def offsetsEqual (actual : Nat → U32) (count : Nat) (expected : List U32) : Bool :=
  count == expected.length && (List.range count).all fun i => actual i == expected.getD i 0

section Checks

variable (p : Platform) (place : Place → Nat)

/-- An output with the two counters of the checks. -/
def output (array : Place) (capacity : Nat) : Output :=
  ⟨place array, capacity, place .written, place .total⟩

/-- `written = 0u; total = 0u`. -/
def zeroed (m : Memory) : Memory := (m.setSize (place .written) 0).setSize (place .total) 0

/-- A call has returned OK and found exactly the expected offsets. -/
def found (status : Status) (array : Place) (expected : List U32) (m : Memory) : Bool :=
  decide (status = .ok) && m.sizes (place .total) == expected.length &&
    offsetsEqual (m.arrays (place array)) (m.sizes (place .written)) expected

/-- The snapshots that the checks are about. -/
def writePrevious : Option (List UInt8) := do
  let bytes ← writeU32Le (List.replicate snapshotBytes 0) 4 100
  let bytes ← writeU32Le bytes 20 100
  writeU32Le bytes 36 100

def writeCurrent (previous : List UInt8) : Option (List UInt8) := do
  let bytes ← writeU32Le previous 4 120
  writeU32Le bytes 36 80

def initialQuery : Query := ⟨.u32, .equal, 100, 4⟩

def refine (previous current : List UInt8) (relation : Relation) (out : Output) (m : Memory) :
    Option (Status × Memory) :=
  Search.vcSearchRefine p ⟨place .previousSnapshot, previous⟩ ⟨place .currentSnapshot, current⟩
    snapshotBytes (place .candidates) 3 ⟨place .refineQuery, ⟨.u32, relation, 0, 4⟩⟩ out m

/-- The first check; the candidates stay for the refines. -/
def initialCheck (previous : List UInt8) (report : SelfTestResult) (m : Memory) :
    Option (SelfTestResult × Memory) := do
  let (status, m) ← Search.vcSearchInitial p ⟨place .previousSnapshot, previous⟩ snapshotBytes
    ⟨place .query, initialQuery⟩ (output place .candidates resultCapacity) (zeroed place m)
  let report := { report with initialMatches := m.sizes (place .total) }
  some (check report (decide (status = .ok) && m.sizes (place .total) == 3 &&
    m.sizes (place .written) == 3 &&
    offsetsEqual (m.arrays (place .candidates)) (m.sizes (place .written)) [4, 20, 36]), m)

/-- A refine into a separate array: the number of its matches and whether they are
the expected ones. -/
def refineCheck (previous current : List UInt8) (relation : Relation) (expected : List U32)
    (m : Memory) : Option (Nat × Bool × Memory) := do
  let (status, m) ← refine p place previous current relation
    (output place .refined resultCapacity) (zeroed place m)
  some (m.sizes (place .total), found place status .refined expected m, m)

/-- The same in place, on a copy of the candidates. -/
def inPlaceCheck (previous current : List UInt8) (expected : List U32) (m : Memory) :
    Option (Nat × Bool × Memory) := do
  let (status, m) ← Search.vcSearchRefine p ⟨place .previousSnapshot, previous⟩
    ⟨place .currentSnapshot, current⟩ snapshotBytes (place .inPlace) 3
    ⟨place .decreasedQuery, ⟨.u32, .decreased, 0, 4⟩⟩ (output place .inPlace 3)
    (zeroed place (copyArray m (place .inPlace) (place .candidates) 3))
  some (m.sizes (place .total), found place status .inPlace expected m, m)

/-- A scan that has room for two of its three matches. -/
def truncatedCheck (previous : List UInt8) (m : Memory) : Option (Bool × Memory) := do
  let (status, m) ← Search.vcSearchInitial p ⟨place .previousSnapshot, previous⟩ snapshotBytes
    ⟨place .query, initialQuery⟩ (output place .refined 2) (zeroed place m)
  some (decide (status = .truncated) && m.sizes (place .written) == 2 &&
    m.sizes (place .total) == 3 && m.arrays (place .refined) 0 == 4 &&
    m.arrays (place .refined) 1 == 20, m)

def runScannerSelfTest (m : Memory) : Option (SelfTestResult × Memory) := do
  let previous ← writePrevious
  let (report, m) ← initialCheck p place previous .zero m
  let current ← writeCurrent previous
  let (changed, passed, m) ← refineCheck p place previous current .changed [4, 36] m
  let report := check { report with changedMatches := changed } passed
  let (increased, passed, m) ← refineCheck p place previous current .increased [4] m
  let report := check { report with increasedMatches := increased } passed
  let (decreased, passed, m) ← inPlaceCheck p place previous current [36] m
  let report := check { report with decreasedMatches := decreased } passed
  let (unchanged, passed, m) ← refineCheck p place previous current .unchanged [20] m
  let report := check { report with unchangedMatches := unchanged } passed
  let (passed, m) ← truncatedCheck p place previous m
  some (check report passed, m)

end Checks

abbrev Placed (p : Platform) (place : Place → Nat) : Prop :=
  Region.Objects p.sizeMax (fun a => ⟨place a, Place.size p a⟩) fun _ _ => True

variable {p : Platform} {place : Place → Nat}

theorem size_ne (p : Platform) (a : Place) : a.size p ≠ 0 := by
  have hcount := (Search.countSize_bounds p).1
  have hquery := p.querySize_pos
  cases a <;>
    simp only [Place.size, snapshotBytes, resultCapacity, Search.offsetSize] <;> omega

theorem place_ne (h : Placed p place) {a b : Place} (hab : a ≠ b) : place a ≠ place b :=
  h.first_ne (size_ne p a) (size_ne p b) hab trivial

/-- The bytes of the two snapshots. -/
def previousBytes : List UInt8 :=
  List.replicate 4 0 ++ [100, 0, 0, 0] ++ List.replicate 12 0 ++ [100, 0, 0, 0] ++
    List.replicate 12 0 ++ [100, 0, 0, 0] ++ List.replicate 24 0

def currentBytes : List UInt8 :=
  List.replicate 4 0 ++ [120, 0, 0, 0] ++ List.replicate 12 0 ++ [100, 0, 0, 0] ++
    List.replicate 12 0 ++ [80, 0, 0, 0] ++ List.replicate 24 0

theorem writePrevious_eq : writePrevious = some previousBytes := by decide

theorem writeCurrent_eq : writeCurrent previousBytes = some currentBytes := by decide

theorem initial_found : Search.initialMatches initialQuery previousBytes snapshotBytes =
    [4, 20, 36] := by
  decide

theorem snapshotBytes_le (p : Platform) : snapshotBytes ≤ p.sizeMax := by
  have hmax := p.sizeMax_ge
  simp only [snapshotBytes]
  omega

theorem snapshot_representable (p : Platform) :
    Search.vcSizeIsRepresentable p snapshotBytes = true := by
  rw [Search.vcSizeIsRepresentable]
  split <;> rfl

theorem commonChecks (h : Placed p place) (bytes : List UInt8) (q : Query) {capacity : Nat}
    (current asked array : Place) (hwidth : Search.vcScalarWidth q.type ≠ 0)
    (hstride : q.stride ≠ 0) (hrel : Search.vcRelationIsValid q.relation = true)
    (hcapacity : capacity ≤ resultCapacity) :
    Search.CommonChecks p ⟨place current, bytes⟩ snapshotBytes ⟨place asked, q⟩
      (output place array capacity) where
  written_ne := h.nonnull .written
  totalMatches_ne := h.nonnull .total
  query_ne := h.nonnull asked
  current_ne := fun hnull => absurd hnull (h.nonnull current)
  outOffsets_ne := fun hnull => absurd hnull (h.nonnull array)
  representable := snapshot_representable p
  width_ne := hwidth
  stride_ne := hstride
  relation := hrel
  fits := by
    have hmax := p.sizeMax_ge
    simp only [resultCapacity] at hcapacity
    simp only [output, Search.offsetSize]
    omega

/-- The objects that hold the buffers of a scan. -/
def initialHome (current asked array : Place) : Search.InitialBuffer → Place
  | .current => current
  | .query => asked
  | .outOffsets => array
  | .written => .written
  | .totalMatches => .total

def refineHome (source asked array : Place) : Search.RefineBuffer → Place
  | .previous => .previousSnapshot
  | .current => .currentSnapshot
  | .candidates => source
  | .query => asked
  | .outOffsets => array
  | .written => .written
  | .totalMatches => .total

theorem initial_within (place : Place → Nat) (bytes : List UInt8) (q : Query) {capacity : Nat}
    (current asked array : Place) (hcurrent : current.size p = snapshotBytes)
    (hquery : asked.size p = p.querySize)
    (harray : capacity * Search.offsetSize ≤ array.size p) (b : Search.InitialBuffer) :
    (Search.InitialBuffer.region p ⟨place current, bytes⟩ snapshotBytes ⟨place asked, q⟩
      (output place array capacity) b).Within
        ⟨place (initialHome current asked array b),
          (initialHome current asked array b).size p⟩ := by
  cases b with
  | current => exact Region.within_of_le (Nat.le_of_eq hcurrent.symm)
  | query => exact Region.within_of_le (Nat.le_of_eq hquery.symm)
  | outOffsets => exact Region.within_of_le harray
  | written => exact Region.within_of_le (Nat.le_refl _)
  | totalMatches => exact Region.within_of_le (Nat.le_refl _)

/-- A scan of the first snapshot delivers the three offsets as far as there is room. -/
theorem initial_scan (h : Placed p place) (array : Place) (capacity : Nat)
    (harray : array = .candidates ∨ array = .refined) (hcapacity : capacity ≤ resultCapacity)
    (m : Memory) :
    ∃ status m', Search.vcSearchInitial p ⟨place .previousSnapshot, previousBytes⟩ snapshotBytes
        ⟨place .query, initialQuery⟩ (output place array capacity) m = some (status, m') ∧
      Delivered m (output place array capacity) [4, 20, 36] status m' := by
  have hsize : array.size p = resultCapacity * Search.offsetSize := by
    rcases harray with rfl | rfl <;> rfl
  have hchecks := commonChecks h previousBytes initialQuery .previousSnapshot .query array
    (by decide) (by decide) rfl hcapacity
  have hbytes : capacity * Search.offsetSize ≤ array.size p :=
    hsize ▸ Nat.mul_le_mul_right _ hcapacity
  obtain ⟨v, hv⟩ := Search.initial_accepted h hchecks (snapshotBytes_le p)
    (initialHome .previousSnapshot .query array)
    (initial_within place previousBytes initialQuery .previousSnapshot .query array rfl rfl hbytes)
    (by
      intro w b hw hne
      refine ⟨?_, trivial⟩
      rcases harray with rfl | rfl <;> cases w <;> cases b <;>
        first
          | exact absurd hw not_false
          | exact absurd rfl hne
          | decide)
  obtain ⟨status, m', hrun, hd⟩ :=
    Search.initial_delivered p m hv (.inl rfl) rfl (snapshotBytes_le p)
  have hfound : (Search.initialMatches initialQuery previousBytes snapshotBytes).map
      (BitVec.ofNat 32) = [4, 20, 36] := by
    rw [initial_found]
    rfl
  exact ⟨status, m', hrun, hfound ▸ hd⟩

/-- The candidates that the first check leaves to the refines. -/
def Kept (place : Place → Nat) (m : Memory) : Prop :=
  candidateList m (place .candidates) 3 = [4, 20, 36]

theorem offsets_valid : Search.ValidCandidates snapshotBytes 4 [4, 20, 36] := by
  constructor
  · decide
  · intro c hc
    simp only [List.mem_cons, List.not_mem_nil, or_false] at hc
    obtain rfl | rfl | rfl := hc <;> decide

/-- A refine of the three candidates in an array delivers what the snapshots say. -/
theorem refine_scan (h : Placed p place) (source asked array : Place) (capacity : Nat)
    (relation : Relation) (hrel : Search.vcRelationIsValid relation = true)
    (hcapacity : capacity ≤ resultCapacity) (hquery : asked.size p = p.querySize)
    (hsource : 3 * Search.offsetSize ≤ source.size p)
    (harray : capacity * Search.offsetSize ≤ array.size p)
    (hown : ∀ w b, Search.RefineBuffer.writes w → w ≠ b →
      ¬Search.RefineBuffer.inPlace (place source) (output place array capacity) w b →
      refineHome source asked array w ≠ refineHome source asked array b)
    {m : Memory} (hlist : candidateList m (place source) 3 = [4, 20, 36]) :
    ∃ status m', Search.vcSearchRefine p ⟨place .previousSnapshot, previousBytes⟩
        ⟨place .currentSnapshot, currentBytes⟩ snapshotBytes (place source) 3
        ⟨place asked, ⟨.u32, relation, 0, 4⟩⟩ (output place array capacity) m =
          some (status, m') ∧
      Delivered m (output place array capacity)
        (Search.refineMatches ⟨.u32, relation, 0, 4⟩ previousBytes currentBytes [4, 20, 36])
        status m' := by
  have hchecks := commonChecks h currentBytes ⟨.u32, relation, 0, 4⟩ .currentSnapshot asked array
    (show Search.vcScalarWidth .u32 ≠ 0 by decide) (show (4 : U32) ≠ 0 by decide) hrel hcapacity
  have hfits : 3 * Search.offsetSize ≤ p.sizeMax :=
    Nat.le_trans hsource (Nat.le_trans (Nat.le_add_left _ _) (h.fits source))
  obtain ⟨hcommon, hoverlaps⟩ : _ ∧ Search.refineOverlaps p
      ⟨place .previousSnapshot, previousBytes⟩ snapshotBytes (place source)
      (3 * Search.offsetSize) (capacity * Search.offsetSize) (output place array capacity) =
        false := Search.refine_apart h hchecks (snapshotBytes_le p)
    (fun hnull => absurd hnull (h.nonnull .previousSnapshot))
    (fun hnull => absurd hnull (h.nonnull source)) hfits (refineHome source asked array)
    (by
      intro b
      have hinitial := initial_within place currentBytes ⟨.u32, relation, 0, 4⟩ .currentSnapshot
        asked array rfl hquery harray
      cases b with
      | previous => exact Region.within_of_le (Nat.le_refl _)
      | candidates => exact Region.within_of_le hsource
      | current => exact hinitial .current
      | query => exact hinitial .query
      | outOffsets => exact hinitial .outOffsets
      | written => exact hinitial .written
      | totalMatches => exact hinitial .totalMatches)
    (fun w b hw hne hs => ⟨hown w b hw hne hs, trivial⟩)
  have hwindows : Search.vcValidateCandidates p (place source) 3 snapshotBytes
      (Search.vcScalarWidth .u32) m = .ok := by
    apply (Search.validateCandidates_iff m (snapshotBytes_le p)
      fun hnull => absurd hnull (h.nonnull source)).mpr
    rw [hlist]
    exact offsets_valid
  have haccepted : Search.Accepted p ⟨place .previousSnapshot, previousBytes⟩
      ⟨place .currentSnapshot, currentBytes⟩ snapshotBytes (place source) 3
      ⟨place asked, ⟨.u32, relation, 0, 4⟩⟩ (output place array capacity) m :=
    ⟨hcommon, fun hnull => absurd hnull (h.nonnull .previousSnapshot), hwindows, hfits, hoverlaps⟩
  obtain ⟨status, m', hrun, hd⟩ :=
    Search.refine_filtered haccepted (snapshotBytes_le p) rfl rfl
  rw [hlist] at hd
  exact ⟨status, m', hrun, hd⟩

/-- A list that is delivered in full is the expected one. -/
theorem found_delivered (h : Placed p place) {array : Place} {capacity : Nat} {xs : List U32}
    {status : Status} {m m' : Memory} (hd : Delivered m (output place array capacity) xs status m')
    (hroom : xs.length ≤ capacity) :
    found place status array xs m' = true ∧ m'.sizes (place .total) = xs.length ∧
      m'.sizes (place .written) = xs.length := by
  have hcounts : place .written ≠ place .total := place_ne h (by decide)
  have ho := hd.outcome hcounts
  have htotal : m'.sizes (place .total) = xs.length := by
    have ht := ho.totalMatches
    rwa [List.length_map] at ht
  have hwritten : m'.sizes (place .written) = xs.length := by
    have hw := ho.written
    rw [List.length_map] at hw
    exact hw.trans (Nat.min_eq_left hroom)
  have hentries : ((List.range xs.length).all fun i =>
      m'.arrays (place array) i == xs.getD i 0) = true := by
    apply List.all_eq_true.mpr
    intro i hi
    have hlt := List.mem_range.mp hi
    have hentry := ho.entries i (by
      rw [List.length_map]
      exact Nat.lt_min.mpr ⟨hlt, Nat.lt_of_lt_of_le hlt hroom⟩)
    rw [List.getElem?_map, List.getElem?_eq_getElem hlt, Option.map_some] at hentry
    rw [List.getD_eq_getElem?_getD, List.getElem?_eq_getElem hlt, Option.getD_some]
    exact beq_iff_eq.mpr (BitVec.eq_of_toNat_eq (Option.some.inj hentry)).symm
  refine ⟨?_, htotal, hwritten⟩
  rw [found, (Search.ok_iff hd).mpr hroom, htotal, hwritten, offsetsEqual, hentries]
  simp

/-- A delivery to another array leaves the candidates. -/
theorem kept_delivered (h : Placed p place) {array : Place} {capacity : Nat} {xs : List U32}
    {status : Status} {m m' : Memory} (hd : Delivered m (output place array capacity) xs status m')
    (harray : array ≠ .candidates) (hk : Kept place m) : Kept place m' := by
  have hbase : place .candidates ≠ place array := place_ne h harray.symm
  have hsame : m'.arrays (place .candidates) = m.arrays (place .candidates) :=
    (hd.outcome (place_ne h (by decide))).arrays _ hbase
  exact (Search.candidateList_congr fun i _ => congrFun hsame i).trans hk

theorem initialCheck_ok (h : Placed p place) (report : SelfTestResult) (m : Memory) :
    ∃ m', initialCheck p place previousBytes report m =
        some (check { report with initialMatches := 3 } true, m') ∧ Kept place m' := by
  obtain ⟨status, m', hrun, hd⟩ := initial_scan h .candidates resultCapacity (.inl rfl)
    (Nat.le_refl _) (zeroed place m)
  obtain ⟨hfound, htotal, hwritten⟩ := found_delivered h hd (by decide)
  rw [found, hwritten, Bool.and_eq_true, Bool.and_eq_true] at hfound
  obtain ⟨⟨hok, -⟩, hequal⟩ := hfound
  refine ⟨m', ?_, ?_⟩
  · simp only [initialCheck, hrun, Option.bind_eq_bind, Option.bind_some, hok, htotal, hwritten,
      hequal]
    rfl
  · have hlist : candidateList m' (place .candidates) (m'.sizes (place .written)) = _ :=
      hd.candidates (place_ne h (by decide))
    rw [hwritten] at hlist
    exact hlist

theorem refineCheck_ok (h : Placed p place) (relation : Relation) (expected : List U32)
    (hrel : Search.vcRelationIsValid relation = true)
    (hmatches : Search.refineMatches ⟨.u32, relation, 0, 4⟩ previousBytes currentBytes
      [4, 20, 36] = expected) {m : Memory} (hk : Kept place m) :
    ∃ m', refineCheck p place previousBytes currentBytes relation expected m =
        some (expected.length, true, m') ∧ Kept place m' := by
  have hlist : candidateList (zeroed place m) (place .candidates) 3 = [4, 20, 36] := hk
  obtain ⟨status, m', hrun, hd⟩ := refine_scan h .candidates .refineQuery .refined
    resultCapacity relation hrel (Nat.le_refl _) rfl
    (by simp only [Place.size, resultCapacity, Search.offsetSize]; decide) (Nat.le_refl _) (by
      intro w b hw hne _
      cases w <;> cases b <;>
        first
          | exact absurd hw not_false
          | exact absurd rfl hne
          | decide) hlist
  rw [hmatches] at hd
  have hroom : expected.length ≤ resultCapacity := by
    rw [← hmatches]
    exact Nat.le_trans (List.length_filter_le _ _) (by decide)
  obtain ⟨hfound, htotal, -⟩ := found_delivered h hd hroom
  refine ⟨m', ?_, kept_delivered h hd (by decide) hk⟩
  simp only [refineCheck, refine, hrun, Option.bind_eq_bind, Option.bind_some, hfound, htotal]

theorem inPlaceCheck_ok (h : Placed p place) {m : Memory} (hk : Kept place m) :
    ∃ m', inPlaceCheck p place previousBytes currentBytes [36] m = some (1, true, m') ∧
      Kept place m' := by
  let m₁ := copyArray m (place .inPlace) (place .candidates) 3
  have hk₁ : Kept place m₁ := by
    have hsame : m₁.arrays (place .candidates) = m.arrays (place .candidates) :=
      Search.copyArray_other m (place_ne h (by decide))
    exact (Search.candidateList_congr fun i _ => congrFun hsame i).trans hk
  have hlist : candidateList (zeroed place m₁) (place .inPlace) 3 = [4, 20, 36] :=
    (Search.copyArray_list m _ _ 3).trans hk
  obtain ⟨status, m', hrun, hd⟩ := refine_scan h .inPlace .decreasedQuery .inPlace 3
    .decreased rfl (by decide) rfl
    (Nat.le_refl _) (Nat.le_refl _) (by
      intro w b hw hne hshared
      cases w <;> cases b <;>
        first
          | exact absurd hw not_false
          | exact absurd rfl hne
          | exact absurd ⟨rfl, rfl, rfl⟩ hshared
          | decide) hlist
  have hmatches : Search.refineMatches ⟨.u32, .decreased, 0, 4⟩ previousBytes currentBytes
      [4, 20, 36] = [36] := by decide
  rw [hmatches] at hd
  obtain ⟨hfound, htotal, -⟩ := found_delivered h hd (by decide)
  refine ⟨m', ?_, kept_delivered h hd (by decide) hk₁⟩
  simp only [m₁] at hrun
  simp only [inPlaceCheck, hrun, Option.bind_eq_bind, Option.bind_some, hfound, htotal]
  rfl

theorem truncatedCheck_ok (h : Placed p place) (m : Memory) :
    ∃ m', truncatedCheck p place previousBytes m = some (true, m') := by
  have hcounts : place .written ≠ place .total := place_ne h (by decide)
  obtain ⟨status, m', hrun, hd⟩ := initial_scan h .refined 2 (.inr rfl) (by decide)
    (zeroed place m)
  have hstatus := (Search.truncated_iff hd).mpr (show 2 < 3 by decide)
  have hlist := hd.candidates hcounts
  have hwritten := (hd.outcome hcounts).written
  have htotal := (hd.outcome hcounts).totalMatches
  rw [hwritten] at hlist
  have hfirst : m'.arrays (place .refined) 0 = 4 := (List.cons.inj hlist).1
  have hsecond : m'.arrays (place .refined) 1 = 20 := (List.cons.inj (List.cons.inj hlist).2).1
  have hwritten' : m'.sizes (place .written) = 2 := hwritten
  have htotal' : m'.sizes (place .total) = 3 := htotal
  refine ⟨m', ?_⟩
  simp only [truncatedCheck, hrun, Option.bind_eq_bind, Option.bind_some, hstatus, hwritten',
    htotal', hfirst, hsecond]
  rfl

/-- Every check passes, wherever the objects are and whatever the memory holds. -/
theorem scanner_passes (h : Placed p place) (m : Memory) :
    ∃ m', runScannerSelfTest p place m = some (⟨6, 0, 3, 2, 1, 1, 1⟩, m') := by
  obtain ⟨m₁, hinitial, hk₁⟩ := initialCheck_ok h .zero m
  obtain ⟨m₂, hchanged, hk₂⟩ :=
    refineCheck_ok h .changed [4, 36] rfl (by decide) hk₁
  obtain ⟨m₃, hincreased, hk₃⟩ :=
    refineCheck_ok h .increased [4] rfl (by decide) hk₂
  obtain ⟨m₄, hdecreased, hk₄⟩ := inPlaceCheck_ok h hk₃
  obtain ⟨m₅, hunchanged, -⟩ :=
    refineCheck_ok h .unchanged [20] rfl (by decide) hk₄
  obtain ⟨m₆, htruncated⟩ := truncatedCheck_ok h m₅
  refine ⟨m₆, ?_⟩
  simp only [runScannerSelfTest, writePrevious_eq, writeCurrent_eq, hinitial, hchanged,
    hincreased, hdecreased, hunchanged, htruncated, Option.bind_eq_bind, Option.bind_some]
  rfl

end VitaCheat.SelfTest
