import VitaCheat.SearchCallers

/-!
# The fuzz target of the search engine

`fuzz_search.c` turns a byte string into snapshots and queries, makes five calls
and checks what they leave behind. A failed check aborts: that is `none` here, as
a fault of a call is. The array of a call is the one at its address.
-/
namespace VitaCheat.Search.Fuzz

def maxSnapshotSize : Nat := 256
def maxCandidates : Nat := 128

/-- The objects of the target: its input, its locals and their addresses. -/
inductive Place where
  | data | arbitraryQuery | seedQuery | refineQuery | candidates | inPlace | offsets
  | written | total | refineWritten | refineTotal | inPlaceWritten | inPlaceTotal
  | invalidWritten | invalidTotal
  deriving DecidableEq, Repr

/-- The enumerator of a value. -/
def scalarType : Nat → ScalarType
  | 0 => .u8
  | 1 => .s8
  | 2 => .u16
  | 3 => .s16
  | 4 => .u32
  | 5 => .s32
  | n + 6 => .other n

def relation : Nat → Relation
  | 0 => .equal
  | 1 => .notEqual
  | 2 => .changed
  | 3 => .unchanged
  | 4 => .increased
  | 5 => .decreased
  | n + 6 => .other n

/-- `abort` unless the condition holds. -/
def fuzzCheck (condition : Bool) : Option Unit := if condition then some () else none

def readU32 (bytes : List UInt8) (offset : Nat) : Option U32 := do
  let b0 ← bytes[offset]?
  let b1 ← bytes[offset + 1]?
  let b2 ← bytes[offset + 2]?
  let b3 ← bytes[offset + 3]?
  some (b0.toBitVec.setWidth 32 ||| b1.toBitVec.setWidth 32 <<< 8 |||
    b2.toBitVec.setWidth 32 <<< 16 ||| b3.toBitVec.setWidth 32 <<< 24)

/-- Ascending offsets with a whole window inside the snapshot. -/
def checkOffsets (p : Platform) (offsets : Nat → U32) (count snapshotSize width : Nat) :
    Option Unit := do
  fuzzCheck (count ≤ maxCandidates)
  fuzzCheck ((List.range count).all fun index =>
    let offset := (offsets index).toNat
    (index == 0 || decide (offsets (index - 1) < offsets index)) &&
      decide (offset ≤ snapshotSize) && decide (width ≤ p.sub snapshotSize offset))

/-- What the target reads from its input. -/
structure Input where
  previous : Snapshot
  current : Snapshot
  snapshotSize : Nat
  capacity : Nat
  arbitraryQuery : Query
  seedQuery : Query
  refineQuery : Query

/-- At least eight bytes; the snapshots lie behind them, one after the other. -/
def readInput (address : Nat) (data : List UInt8) : Option Input := do
  let half := (data.length - 8) / 2
  let snapshotSize := if half > maxSnapshotSize then maxSnapshotSize else half
  let b0 : UInt8 ← data[0]?
  let b1 : UInt8 ← data[1]?
  let b2 : UInt8 ← data[2]?
  let bits : U32 ← readU32 data 3
  let b7 : UInt8 ← data[7]?
  let seed : Query :=
    { type := scalarType (b0.toNat % 6)
      relation := if b1 &&& 1 != 0 then .equal else .notEqual
      valueBits := bits
      stride := BitVec.ofNat 32 (b2.toNat % 8) + 1 }
  some
    { previous := ⟨address + 8, (data.drop 8).take snapshotSize⟩
      current := ⟨address + 8 + snapshotSize, (data.drop (8 + snapshotSize)).take snapshotSize⟩
      snapshotSize := snapshotSize
      capacity := b7.toNat % (maxCandidates + 1)
      arbitraryQuery :=
        { type := scalarType (b0 &&& 7).toNat
          relation := relation (b1 &&& 7).toNat
          valueBits := bits
          stride := BitVec.ofNat 32 b2.toNat }
      seedQuery := seed
      refineQuery := { seed with relation := relation (b1.toNat % 6) } }

section Target

variable (p : Platform) (place : Place → Nat) (i : Input)

/-- The output of a call by the places of its three objects. -/
def output (capacity : Nat) (array count all : Place) : Output :=
  ⟨place array, capacity, place count, place all⟩

@[simp] theorem output_outOffsets (capacity : Nat) (array count all : Place) :
    (output place capacity array count all).outOffsets = place array := rfl
@[simp] theorem output_written (capacity : Nat) (array count all : Place) :
    (output place capacity array count all).written = place count := rfl
@[simp] theorem output_totalMatches (capacity : Nat) (array count all : Place) :
    (output place capacity array count all).totalMatches = place all := rfl

/-- The checks on the counters and the offsets that a call has written. -/
def checkResult (status : Status) (width : Nat) (out : Output) (m : Memory) : Option Unit := do
  fuzzCheck (m.sizes out.written ≤ out.capacity)
  fuzzCheck (m.sizes out.written ≤ m.sizes out.totalMatches)
  fuzzCheck (decide (status = .truncated) == decide (m.sizes out.totalMatches > out.capacity))
  checkOffsets p (m.arrays out.outOffsets) (m.sizes out.written) i.snapshotSize width

/-- The locals that are initialised. -/
def initialised (m : Memory) : Memory :=
  (((m.setSize (place .written) 0).setSize (place .total) 0).setSize (place .refineWritten)
    0).setSize (place .refineTotal) 0

/-- A scan for a query that may be invalid. -/
def arbitraryScan (m : Memory) : Option Memory := do
  let out := output place i.capacity .offsets .written .total
  let (status, m) ← vcSearchInitial p i.current i.snapshotSize
    ⟨place .arbitraryQuery, i.arbitraryQuery⟩ out m
  if status = .ok ∨ status = .truncated then
    let width := vcScalarWidth i.arbitraryQuery.type
    fuzzCheck (width != 0)
    checkResult p i status width out m
    some m
  else some m

/-- A scan for a valid query, whose offsets are the candidates of the refines. -/
def seedScan (m : Memory) : Option Memory := do
  let out := output place maxCandidates .candidates .written .total
  let (status, m) ← vcSearchInitial p i.previous i.snapshotSize ⟨place .seedQuery, i.seedQuery⟩
    out m
  fuzzCheck (decide (status = .ok ∨ status = .truncated))
  fuzzCheck (m.sizes out.written ≤ maxCandidates)
  checkOffsets p (m.arrays out.outOffsets) (m.sizes out.written) i.snapshotSize
    (vcScalarWidth i.seedQuery.type)
  some m

def refineScan (m : Memory) : Option (Status × Memory) := do
  let out := output place i.capacity .offsets .refineWritten .refineTotal
  let (status, m) ← vcSearchRefine p i.previous i.current i.snapshotSize (place .candidates)
    (m.sizes (place .written)) ⟨place .refineQuery, i.refineQuery⟩ out m
  fuzzCheck (decide (status = .ok ∨ status = .truncated))
  checkResult p i status (vcScalarWidth i.refineQuery.type) out m
  some (status, m)

/-- The same refine in place, on a copy of the candidates. -/
def inPlaceScan (status : Status) (m : Memory) : Option Memory := do
  let count := m.sizes (place .written)
  let m := copyArray m (place .inPlace) (place .candidates) count
  let m := (m.setSize (place .inPlaceWritten) 0).setSize (place .inPlaceTotal) 0
  let (inPlaceStatus, m) ← vcSearchRefine p i.previous i.current i.snapshotSize (place .inPlace)
    count ⟨place .refineQuery, i.refineQuery⟩
    (output place i.capacity .inPlace .inPlaceWritten .inPlaceTotal) m
  fuzzCheck (inPlaceStatus = status)
  fuzzCheck (m.sizes (place .inPlaceWritten) = m.sizes (place .refineWritten))
  fuzzCheck (m.sizes (place .inPlaceTotal) = m.sizes (place .refineTotal))
  fuzzCheck ((List.range (m.sizes (place .refineWritten))).all fun index =>
    m.arrays (place .inPlace) index == m.arrays (place .offsets) index)
  some m

/-- A refine of candidates that repeat the first one. -/
def invalidScan (m : Memory) : Option Memory :=
  let count := m.sizes (place .written)
  if count > 1 then do
    let m := (m.setSize (place .invalidWritten) 0).setSize (place .invalidTotal) 0
    let m := copyArray m (place .inPlace) (place .candidates) count
    let m := m.store (place .inPlace) 1 (m.arrays (place .inPlace) 0)
    let (status, m) ← vcSearchRefine p i.previous i.current i.snapshotSize (place .inPlace) count
      ⟨place .refineQuery, i.refineQuery⟩
      (output place i.capacity .offsets .invalidWritten .invalidTotal) m
    fuzzCheck (status = .invalidCandidates)
    some m
  else some m

end Target

/-- The target returns zero for every input that it gets through. -/
def llvmFuzzerTestOneInput (p : Platform) (place : Place → Nat) (data : List UInt8)
    (m : Memory) : Option Memory :=
  if data.length < 8 then some m
  else do
    let i ← readInput (place .data) data
    let m ← arbitraryScan p place i (initialised place m)
    let m ← seedScan p place i m
    let (status, m) ← refineScan p place i m
    let m ← inPlaceScan p place i status m
    invalidScan p place i m

def Place.size (p : Platform) (dataSize : Nat) : Place → Nat
  | .data => dataSize
  | .arbitraryQuery | .seedQuery | .refineQuery => p.querySize
  | .candidates | .inPlace | .offsets => maxCandidates * offsetSize
  | _ => countSize p

/-- The counters of the two inner blocks do not live at the same time. -/
def Place.block : Place → Nat
  | .inPlaceWritten | .inPlaceTotal => 1
  | .invalidWritten | .invalidTotal => 2
  | _ => 0

def Place.Together (a b : Place) : Prop := a.block = 0 ∨ b.block = 0 ∨ a.block = b.block

instance (a b : Place) : Decidable (a.Together b) := inferInstanceAs (Decidable (_ ∨ _))

def region (p : Platform) (place : Place → Nat) (dataSize : Nat) (a : Place) : Region :=
  ⟨place a, a.size p dataSize⟩

/-- The objects of the target are in order. -/
abbrev Placed (p : Platform) (place : Place → Nat) (dataSize : Nat) : Prop :=
  Region.Objects p.sizeMax (region p place dataSize) Place.Together

variable {p : Platform} {place : Place → Nat} {dataSize : Nat}

theorem size_ne (p : Platform) (hdata : dataSize ≠ 0) (a : Place) : a.size p dataSize ≠ 0 := by
  have hcount := (countSize_bounds p).1
  have hquery := p.querySize_pos
  cases a <;> simp only [Place.size, maxCandidates, offsetSize] <;> omega

theorem place_ne (h : Placed p place dataSize) (hdata : dataSize ≠ 0) {a b : Place}
    (hab : a ≠ b) (hlive : a.Together b) : place a ≠ place b :=
  h.first_ne (size_ne p hdata a) (size_ne p hdata b) hab hlive

theorem relation_valid {n : Nat} (h : n < 6) : vcRelationIsValid (relation n) = true := by
  have hcases : n = 0 ∨ n = 1 ∨ n = 2 ∨ n = 3 ∨ n = 4 ∨ n = 5 := by omega
  rcases hcases with rfl | rfl | rfl | rfl | rfl | rfl <;> rfl

theorem scalarType_width {n : Nat} (h : n < 6) : vcScalarWidth (scalarType n) ≠ 0 := by
  have hcases : n = 0 ∨ n = 1 ∨ n = 2 ∨ n = 3 ∨ n = 4 ∨ n = 5 := by omega
  rcases hcases with rfl | rfl | rfl | rfl | rfl | rfl <;> decide

theorem readU32_some (bytes : List UInt8) (offset : Nat) (h : offset + 4 ≤ bytes.length) :
    ∃ v, readU32 bytes offset = some v := by
  have hget : ∀ j, j < 4 → ∃ b, bytes[offset + j]? = some b := fun j hj =>
    ⟨_, List.getElem?_eq_getElem (by omega)⟩
  obtain ⟨b0, h0⟩ := hget 0 (by omega)
  obtain ⟨b1, h1⟩ := hget 1 (by omega)
  obtain ⟨b2, h2⟩ := hget 2 (by omega)
  obtain ⟨b3, h3⟩ := hget 3 (by omega)
  rw [Nat.add_zero] at h0
  simp only [readU32, h0, h1, h2, h3, Option.bind_eq_bind, Option.bind_some]
  exact ⟨_, rfl⟩

/-- The snapshots lie in the input and the queries made for a refine are valid. -/
structure Input.Sound (address dataSize : Nat) (i : Input) : Prop where
  snapshotSize_le : i.snapshotSize ≤ maxSnapshotSize
  room : 8 + 2 * i.snapshotSize ≤ dataSize
  previous_address : i.previous.address = address + 8
  current_address : i.current.address = address + 8 + i.snapshotSize
  previous_length : i.previous.value.length = i.snapshotSize
  current_length : i.current.value.length = i.snapshotSize
  capacity_le : i.capacity ≤ maxCandidates
  width_ne : vcScalarWidth i.seedQuery.type ≠ 0
  stride_ne : i.seedQuery.stride ≠ 0
  seed_relation : i.seedQuery.relation = .equal ∨ i.seedQuery.relation = .notEqual
  refine_query : i.refineQuery = { i.seedQuery with relation := i.refineQuery.relation }
  refine_relation : vcRelationIsValid i.refineQuery.relation = true

theorem readInput_sound (address : Nat) (data : List UInt8) (h : 8 ≤ data.length) :
    ∃ i, readInput address data = some i ∧ i.Sound address data.length := by
  have hget : ∀ j, j < 8 → ∃ b, data[j]? = some b := fun j hj =>
    ⟨_, List.getElem?_eq_getElem (by omega)⟩
  obtain ⟨b0, h0⟩ := hget 0 (by omega)
  obtain ⟨b1, h1⟩ := hget 1 (by omega)
  obtain ⟨b2, h2⟩ := hget 2 (by omega)
  obtain ⟨b7, h7⟩ := hget 7 (by omega)
  obtain ⟨bits, hbits⟩ := readU32_some data 3 (by omega)
  have hsize : (if (data.length - 8) / 2 > maxSnapshotSize then maxSnapshotSize
      else (data.length - 8) / 2) = min maxSnapshotSize ((data.length - 8) / 2) := by
    split <;> omega
  simp only [readInput, h0, h1, h2, h7, hbits, hsize, Option.bind_eq_bind, Option.bind_some]
  refine ⟨_, rfl, ?_⟩
  constructor
  · exact Nat.min_le_left _ _
  · dsimp only
    omega
  · rfl
  · rfl
  · simp only [List.length_take, List.length_drop]
    omega
  · simp only [List.length_take, List.length_drop]
    omega
  · dsimp only
    have hlt := Nat.mod_lt b7.toNat (show 0 < maxCandidates + 1 by decide)
    omega
  · exact scalarType_width (Nat.mod_lt _ (by decide))
  · intro hzero
    have hvalue := congrArg BitVec.toNat hzero
    have hone : (1 : U32).toNat = 1 := rfl
    have hnone : (0 : U32).toNat = 0 := rfl
    rw [BitVec.toNat_add, BitVec.toNat_ofNat, hone, hnone] at hvalue
    omega
  · dsimp only
    split
    · exact .inl rfl
    · exact .inr rfl
  · rfl
  · exact relation_valid (Nat.mod_lt _ (by decide))

/-- The objects that hold the buffers of a scan. -/
def initialHome (query array count all : Place) : InitialBuffer → Place
  | .current => .data
  | .query => query
  | .outOffsets => array
  | .written => count
  | .totalMatches => all

def refineHome (source query array count all : Place) : RefineBuffer → Place
  | .previous | .current => .data
  | .candidates => source
  | .query => query
  | .outOffsets => array
  | .written => count
  | .totalMatches => all

variable {i : Input} {query array count all source : Place} {capacity : Nat} {q : Query}

theorem snapshotSize_le_sizeMax (p : Platform) (hi : i.Sound (place .data) dataSize) :
    i.snapshotSize ≤ p.sizeMax := by
  have hmax := p.sizeMax_ge
  have hle := hi.snapshotSize_le
  rw [maxSnapshotSize] at hle
  omega

/-- Both snapshots lie in the input. -/
theorem snapshot_within (p : Platform) (hi : i.Sound (place .data) dataSize) {s : Snapshot}
    (hs : s = i.previous ∨ s = i.current) :
    Region.Within ⟨s.address, i.snapshotSize⟩ (region p place dataSize .data) := by
  have hprevious := hi.previous_address
  have hcurrent := hi.current_address
  have hroom := hi.room
  simp only [Region.Within, region, Place.size]
  rcases hs with rfl | rfl <;> omega

theorem commonChecks (h : Placed p place dataSize) (hi : i.Sound (place .data) dataSize)
    (query array count all : Place) {current : Snapshot}
    (hcurrent : current = i.previous ∨ current = i.current)
    (hwidth : vcScalarWidth q.type ≠ 0) (hstride : q.stride ≠ 0)
    (hrel : vcRelationIsValid q.relation = true) (hcapacity : capacity ≤ maxCandidates) :
    CommonChecks p current i.snapshotSize ⟨place query, q⟩
      (output place capacity array count all) where
  written_ne := h.nonnull count
  totalMatches_ne := h.nonnull all
  query_ne := h.nonnull query
  current_ne := by
    have hprevious := hi.previous_address
    have hlater := hi.current_address
    rcases hcurrent with rfl | rfl <;> omega
  outOffsets_ne := fun hnull => absurd hnull (h.nonnull array)
  representable := by
    have hle := hi.snapshotSize_le
    rw [maxSnapshotSize] at hle
    rw [vcSizeIsRepresentable]
    split
    · exact decide_eq_true (by omega)
    · rfl
  width_ne := hwidth
  stride_ne := hstride
  relation := hrel
  fits := by
    have hmax := p.sizeMax_ge
    rw [maxCandidates] at hcapacity
    simp only [output, offsetSize]
    omega

/-- The buffers of a scan lie in the objects that hold them. -/
theorem initial_within (p : Platform) (hi : i.Sound (place .data) dataSize) {current : Snapshot}
    (hcurrent : current = i.previous ∨ current = i.current) (hcapacity : capacity ≤ maxCandidates)
    (hquery : query.size p dataSize = p.querySize)
    (harray : array.size p dataSize = maxCandidates * offsetSize)
    (hcount : count.size p dataSize = countSize p) (hall : all.size p dataSize = countSize p)
    (b : InitialBuffer) :
    (InitialBuffer.region p current i.snapshotSize ⟨place query, q⟩
      (output place capacity array count all) b).Within
        (region p place dataSize (initialHome query array count all b)) := by
  have hbytes : capacity * offsetSize ≤ maxCandidates * offsetSize :=
    Nat.mul_le_mul_right _ hcapacity
  cases b with
  | current => exact snapshot_within p hi hcurrent
  | query => exact Region.within_of_le (Nat.le_of_eq hquery.symm)
  | outOffsets => exact Region.within_of_le (harray ▸ hbytes)
  | written => exact Region.within_of_le (Nat.le_of_eq hcount.symm)
  | totalMatches => exact Region.within_of_le (Nat.le_of_eq hall.symm)

theorem refine_within (p : Platform) (hi : i.Sound (place .data) dataSize) {n : Nat}
    (hn : n ≤ maxCandidates) (hcapacity : capacity ≤ maxCandidates)
    (hsource : source.size p dataSize = maxCandidates * offsetSize)
    (hquery : query.size p dataSize = p.querySize)
    (harray : array.size p dataSize = maxCandidates * offsetSize)
    (hcount : count.size p dataSize = countSize p) (hall : all.size p dataSize = countSize p)
    (b : RefineBuffer) :
    (RefineBuffer.region p i.previous i.current i.snapshotSize (place source) n ⟨place query, q⟩
      (output place capacity array count all) b).Within
        (region p place dataSize (refineHome source query array count all b)) := by
  have hinitial := initial_within (q := q) p hi (.inr rfl) hcapacity hquery harray hcount hall
  have hbytes : n * offsetSize ≤ maxCandidates * offsetSize := Nat.mul_le_mul_right _ hn
  cases b with
  | previous => exact snapshot_within p hi (.inl rfl)
  | candidates => exact Region.within_of_le (hsource ▸ hbytes)
  | current => exact hinitial .current
  | query => exact hinitial .query
  | outOffsets => exact hinitial .outOffsets
  | written => exact hinitial .written
  | totalMatches => exact hinitial .totalMatches

/-- A refine of the input's snapshots passes the overlap checks. -/
theorem target_refine_apart (h : Placed p place dataSize) (hi : i.Sound (place .data) dataSize)
    (source array count all : Place) {n : Nat} (hn : n ≤ maxCandidates)
    (hsource : source.size p dataSize = maxCandidates * offsetSize)
    (harray : array.size p dataSize = maxCandidates * offsetSize)
    (hcount : count.size p dataSize = countSize p) (hall : all.size p dataSize = countSize p)
    (hown : ∀ w b, RefineBuffer.writes w → w ≠ b →
      ¬RefineBuffer.inPlace (place source) (output place i.capacity array count all) w b →
      refineHome source .refineQuery array count all w ≠
          refineHome source .refineQuery array count all b ∧
        (refineHome source .refineQuery array count all w).Together
          (refineHome source .refineQuery array count all b)) :
    (∃ v, vcValidateCommon p i.current i.snapshotSize ⟨place .refineQuery, i.refineQuery⟩
        (output place i.capacity array count all) = .ok v) ∧
      refineOverlaps p i.previous i.snapshotSize (place source) (n * offsetSize)
        (i.capacity * offsetSize) (output place i.capacity array count all) = false ∧
      n * offsetSize ≤ p.sizeMax := by
  have hwidth : vcScalarWidth i.refineQuery.type ≠ 0 := by
    rw [hi.refine_query]
    exact hi.width_ne
  have hstride : i.refineQuery.stride ≠ 0 := by
    rw [hi.refine_query]
    exact hi.stride_ne
  have hc := commonChecks h hi .refineQuery array count all (.inr rfl) hwidth hstride
    hi.refine_relation hi.capacity_le
  have hfits : n * offsetSize ≤ p.sizeMax := by
    have hmax := p.sizeMax_ge
    rw [maxCandidates] at hn
    rw [offsetSize]
    omega
  have hprevious := hi.previous_address
  have hnull : i.previous.address = 0 → i.snapshotSize = 0 := fun hzero => by omega
  obtain ⟨hcommon, hoverlaps⟩ := refine_apart h hc (snapshotSize_le_sizeMax p hi) hnull
    (fun hzero => absurd hzero (h.nonnull source)) hfits
    (refineHome source .refineQuery array count all)
    (refine_within p hi hn hi.capacity_le hsource rfl harray hcount hall) hown
  exact ⟨hcommon, hoverlaps, hfits⟩

end VitaCheat.Search.Fuzz
