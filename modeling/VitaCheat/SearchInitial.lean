import VitaCheat.SearchGuards
import VitaCheat.SearchLoops

/-!
# The initial scan

The scan visits every multiple of the stride up to the last window and nothing
else. It stops without computing an offset past the end: the same scan with
arithmetic that refuses to wrap takes the same course.
-/
namespace VitaCheat.Search

/-- What the common validation guarantees. -/
structure Common (p : Platform) (current : Snapshot) (size : Nat) (query : Object Query)
    (out : Output) (v : Validated) : Prop where
  query_eq : v.query = query.value
  width_eq : v.width = vcScalarWidth query.value.type
  outputBytes_eq : v.outputBytes = out.capacity * offsetSize
  width_ne : vcScalarWidth query.value.type ≠ 0
  stride_pos : 0 < query.value.stride.toNat
  current_ne : current.address = 0 → size = 0
  out_ne : out.outOffsets = 0 → out.capacity = 0
  representable : vcSizeIsRepresentable p size = true
  fits : out.capacity * offsetSize ≤ p.sizeMax
  counts_ne : out.written ≠ out.totalMatches

/-- Two counters that the overlap checks let through are two objects. -/
theorem counts_apart {p : Platform} {out : Output} (hwritten : out.written ≠ 0)
    (htotal : out.totalMatches ≠ 0)
    (h : vcRangesOverlap p out.written (countSize p) out.totalMatches (countSize p) = false) :
    out.written ≠ out.totalMatches := by
  obtain ⟨hne, hle⟩ := countSize_bounds p
  have hclear := (rangesOverlap_clear (r := ⟨out.written, countSize p⟩)
    (s := ⟨out.totalMatches, countSize p⟩) ⟨hle, fun hz => absurd hz hwritten⟩
    ⟨hle, fun hz => absurd hz htotal⟩).mp h
  intro hsame
  refine hclear.apart out.written ⟨Nat.le_refl _, by dsimp only; omega⟩ ?_
  exact ⟨Nat.le_of_eq hsame.symm, by dsimp only; omega⟩

theorem validateCommon_ok {p : Platform} {current : Snapshot} {size : Nat} {query : Object Query}
    {out : Output} {v : Validated} (h : vcValidateCommon p current size query out = .ok v) :
    Common p current size query out v := by
  obtain ⟨hc, hoverlaps, rfl⟩ := validateCommon_iff.mp h
  have hstride : query.value.stride.toNat ≠ 0 := fun hz =>
    hc.stride_ne (BitVec.eq_of_toNat_eq hz)
  have hcounts : vcRangesOverlap p out.written (countSize p) out.totalMatches (countSize p) =
      false := by
    simp only [commonOverlaps, Bool.or_eq_false_iff] at hoverlaps
    exact hoverlaps.1.1.1.1.1.1.1.1
  exact ⟨rfl, rfl, rfl, hc.width_ne, Nat.pos_of_ne_zero hstride, hc.current_ne, hc.outOffsets_ne,
    hc.representable, hc.fits, counts_apart hc.written_ne hc.totalMatches_ne hcounts⟩

theorem representable_le {p : Platform} {size : Nat} (hmax : size ≤ p.sizeMax)
    (h : vcSizeIsRepresentable p size = true) : size ≤ 2 ^ 32 := by
  rw [vcSizeIsRepresentable] at h
  split at h
  · have hle : size ≤ 0xffffffff + 1 := by simpa using h
    omega
  · omega

/-- The offsets at which an initial scan finds a match. -/
def initialMatches (q : Query) (bytes : List UInt8) (size : Nat) : List Nat :=
  (List.range size).filter fun o =>
    decide (q.stride.toNat ∣ o ∧ o + vcScalarWidth q.type ≤ size ∧ q.Holds [] bytes o)

theorem initial_delivered (p : Platform) {current : Snapshot} {size : Nat} {query : Object Query}
    {out : Output} {v : Validated} (m : Memory)
    (hv : vcValidateCommon p current size query out = .ok v)
    (hrel : query.value.relation = .equal ∨ query.value.relation = .notEqual)
    (hlen : current.value.length = size) (hmax : size ≤ p.sizeMax) :
    ∃ status m', vcSearchInitial p current size query out m = some (status, m') ∧
      Delivered m out ((initialMatches query.value current.value size).map (BitVec.ofNat 32))
        status m' := by
  have hc := validateCommon_ok hv
  have hwidth := hc.width_eq
  have hquery := hc.query_eq
  have hle := scalarWidth_le query.value.type
  have hne := hc.width_ne
  rw [vcSearchInitial, hv]
  dsimp only
  rw [hquery, hwidth, if_neg (by rcases hrel with h | h <;> rw [h] <;> decide)]
  split
  · next hsmall =>
    have hnone : initialMatches query.value current.value size = [] := by
      apply List.filter_eq_nil_iff.mpr
      intro o _
      simp only [decide_eq_true_eq, not_and]
      omega
    refine ⟨_, _, rfl, ?_⟩
    rw [hnone]
    exact ⟨by simp, by simp [Memory.setSize], by simp [Memory.setSize]⟩
  · next hlarge =>
    rw [p.sub_eq (by omega) hmax]
    let keep : Nat → Bool := fun o => decide (query.value.stride.toNat ∣ o ∧
      o + vcScalarWidth query.value.type ≤ size ∧ query.value.Holds [] current.value o)
    have hkeep : ∀ x, keep x = true → v.query.stride.toNat ∣ x := by
      intro x hx
      rw [hquery]
      exact (of_decide_eq_true hx).1
    obtain ⟨r, hrun, hrec⟩ := scanLoop_recorded p current
      (size - vcScalarWidth query.value.type) v out m keep (by omega) (by omega) (by omega)
      (by rw [hquery]; exact hc.stride_pos) hkeep
      (by
        intro x value hx hdvd hval
        rw [hquery] at hdvd ⊢
        rw [hwidth] at hval ⊢
        rw [Bool.eq_iff_iff, matches_iff [] current.value hne
          (fun h1 h2 => by rcases hrel with h | h <;> contradiction) hval]
        simp only [keep, decide_eq_true_eq]
        constructor
        · intro hh
          exact ⟨hdvd, by omega, hh⟩
        · exact fun hh => hh.2.2)
      (size - vcScalarWidth query.value.type + 1) 0 ⟨m, 0, 0⟩ (by omega) (Nat.dvd_zero _)
      (by omega) (by simpa using recorded_init m out)
    rw [hrun]
    refine ⟨_, _, rfl, ?_⟩
    have hlist : initialMatches query.value current.value size =
        (List.range (size - vcScalarWidth query.value.type + 1)).filter keep := by
      apply filter_range_extend (by omega)
      intro x hx
      simp only [decide_eq_false_iff_not]
      intro hk
      omega
    rw [hlist]
    exact hrec.finish

theorem initialMatches_increasing (q : Query) (bytes : List UInt8) (size : Nat) :
    (initialMatches q bytes size).Pairwise (· < ·) :=
  List.pairwise_lt_range.sublist List.filter_sublist

/-- The list a call left in its output array. -/
def stored (m : Memory) (out : Output) : List Nat :=
  (List.range (m.sizes out.written)).map fun i => (m.arrays out.outOffsets i).toNat

theorem Delivered.stored {m m' : Memory} {out : Output} {xs : List U32} {status : Status}
    (h : Delivered m out xs status m') (hne : out.written ≠ out.totalMatches) :
    Search.stored m' out = (xs.map BitVec.toNat).take out.capacity := by
  have hsize : m'.sizes out.written = min out.capacity xs.length := by
    rw [h.sizes, Function.update_of_ne hne, Function.update_self]
  rw [Search.stored, hsize, h.arrays, Function.update_self]
  apply List.ext_getElem
  · simp
  · intro i hi hi'
    have hlt : i < min out.capacity xs.length := by simpa using hi
    have hx : xs[i]? = some (xs[i]) := List.getElem?_eq_getElem (by omega)
    have hview := BoundedArray.view_stored (m.arrays out.outOffsets)
      (show i < out.capacity by omega) hx
    simp [hview]

/-- Delivering a list without truncation stores all of it. -/
theorem Delivered.stored_of_ok {m m' : Memory} {out : Output} {xs : List U32} {status : Status}
    (h : Delivered m out xs status m') (hne : out.written ≠ out.totalMatches)
    (hok : status = .ok) : Search.stored m' out = xs.map BitVec.toNat := by
  rw [h.stored hne]
  apply List.take_of_length_le
  rw [List.length_map]
  by_contra hlong
  rw [h.status, if_pos (by omega)] at hok
  cases hok

theorem Delivered.status_cases {m m' : Memory} {out : Output} {xs : List U32} {status : Status}
    (h : Delivered m out xs status m') : status = .ok ∨ status = .truncated := by
  rw [h.status]
  split
  · exact Or.inr rfl
  · exact Or.inl rfl

/-- What an accepted call leaves, in terms of the list of all its matches. -/
structure Outcome (m : Memory) (out : Output) (xs : List Nat) (status : Status) (m' : Memory) :
    Prop where
  status : status = if xs.length > out.capacity then .truncated else .ok
  totalMatches : m'.sizes out.totalMatches = xs.length
  written : m'.sizes out.written = min xs.length out.capacity
  entries : ∀ i, i < min xs.length out.capacity →
    xs[i]? = some (m'.arrays out.outOffsets i).toNat
  kept : ∀ i, min xs.length out.capacity ≤ i →
    m'.arrays out.outOffsets i = m.arrays out.outOffsets i
  arrays : ∀ base, base ≠ out.outOffsets → m'.arrays base = m.arrays base
  sizes : ∀ address, address ≠ out.written → address ≠ out.totalMatches →
    m'.sizes address = m.sizes address

theorem Delivered.outcome {m m' : Memory} {out : Output} {xs : List U32} {status : Status}
    (h : Delivered m out xs status m') (hne : out.written ≠ out.totalMatches) :
    Outcome m out (xs.map BitVec.toNat) status m' where
  status := by rw [List.length_map]; exact h.status
  totalMatches := by rw [h.sizes, Function.update_self, List.length_map]
  written := by
    rw [h.sizes, Function.update_of_ne hne, Function.update_self, List.length_map, Nat.min_comm]
  entries := by
    intro i hi
    rw [List.length_map] at hi
    have hx : xs[i]? = some xs[i] := List.getElem?_eq_getElem (by omega)
    rw [h.arrays, Function.update_self, List.getElem?_map, hx,
      BoundedArray.view_stored _ (by omega) hx]
    rfl
  kept := by
    intro i hi
    rw [List.length_map] at hi
    rw [h.arrays, Function.update_self, BoundedArray.view_initial _ (by omega)]
  arrays := by
    intro base hbase
    rw [h.arrays, Function.update_of_ne hbase]
  sizes := by
    intro address hwritten htotal
    rw [h.sizes, Function.update_of_ne htotal, Function.update_of_ne hwritten]

def exactAdd (p : Platform) (a b : Nat) : Option Nat :=
  if a + b ≤ p.sizeMax then some (a + b) else none

def exactSub (a b : Nat) : Option Nat := if b ≤ a then some (a - b) else none

def exactMul (p : Platform) (a b : Nat) : Option Nat :=
  if a * b ≤ p.sizeMax then some (a * b) else none

/-- The cast of an offset, which must not lose bits. -/
def exactOffset (n : Nat) : Option U32 :=
  if n < 2 ^ 32 then some (BitVec.ofNat 32 n) else none

/-- The shift of a byte, which must not lose bits. -/
def exactShift (byte : UInt8) (bits : Nat) : Option U32 :=
  if byte.toNat * 2 ^ bits < 2 ^ 32 then some (byte.toBitVec.setWidth 32 <<< bits) else none

def exactReadLoop (p : Platform) (bytes : List UInt8) (offset : Nat) :
    Nat → Nat → U32 → Option U32
  | 0, _, value => some value
  | remaining + 1, index, value => do
    let byte ← bytes[offset + index]?
    let bits ← exactMul p index 8
    let shifted ← exactShift byte bits
    let next ← exactAdd p index 1
    exactReadLoop p bytes offset remaining next (value ||| shifted)

/-- Count a match and store it while there is room, with every operation exact. -/
def exactCollect (p : Platform) (out : Output) (test : Bool) (r : Progress) (offset : Nat) :
    Option Progress :=
  if test then do
    let total ← exactAdd p r.localTotal 1
    if r.localWritten < out.capacity then
      let value ← exactOffset offset
      let written ← exactAdd p r.localWritten 1
      some ⟨r.memory.store out.outOffsets r.localWritten value, written, total⟩
    else some ⟨r.memory, r.localWritten, total⟩
  else some r

def exactScanLoop (p : Platform) (current : Snapshot) (lastOffset : Nat) (v : Validated)
    (out : Output) : Nat → Nat → Progress → Option Progress
  | 0, _, _ => none
  | fuel + 1, offset, r => do
    let currentValue ← exactReadLoop p current.value offset v.width 0 0
    let r ← exactCollect p out
      (vcMatches v.query.type v.query.relation 0 currentValue v.query.valueBits v.width) r offset
    let room ← exactSub lastOffset offset
    if v.query.stride.toNat > room then some r
    else
      let next ← exactAdd p offset v.query.stride.toNat
      exactScanLoop p current lastOffset v out fuel next r

/-- The initial scan with arithmetic that refuses to wrap. -/
def exactSearchInitial (p : Platform) (current : Snapshot) (size : Nat) (query : Object Query)
    (out : Output) (m : Memory) : Option (Status × Memory) :=
  match vcValidateCommon p current size query out with
  | .error status => some (status, m)
  | .ok v =>
    if v.query.relation != .equal && v.query.relation != .notEqual then some (.invalidQuery, m)
    else if size < v.width then
      some (.ok, (m.setSize out.written 0).setSize out.totalMatches 0)
    else do
      let lastOffset ← exactSub size v.width
      let r ← exactScanLoop p current lastOffset v out (lastOffset + 1) 0 ⟨m, 0, 0⟩
      some (r.finish out)

theorem exactAdd_eq {p : Platform} {a b : Nat} (h : a + b ≤ p.sizeMax) :
    exactAdd p a b = some (a + b) := if_pos h

theorem exactSub_eq {a b : Nat} (h : b ≤ a) : exactSub a b = some (a - b) := if_pos h

theorem exactShift_eq (byte : UInt8) {bits : Nat} (h : bits ≤ 24) :
    exactShift byte bits = some (byte.toBitVec.setWidth 32 <<< bits) := by
  apply if_pos
  have hbyte : byte.toNat < 2 ^ 8 := byte.toNat_lt
  calc byte.toNat * 2 ^ bits < 2 ^ 8 * 2 ^ bits := by
        exact Nat.mul_lt_mul_of_pos_right hbyte (Nat.two_pow_pos _)
    _ = 2 ^ (8 + bits) := (Nat.pow_add 2 8 bits).symm
    _ ≤ 2 ^ 32 := Nat.pow_le_pow_right (by decide) (by omega)

/-- Four bytes at most are read, so no shift leaves the word. -/
theorem exactReadLoop_eq (p : Platform) (bytes : List UInt8) (offset remaining index : Nat)
    (value : U32) (h : index + remaining ≤ 4) :
    exactReadLoop p bytes offset remaining index value =
      readLoop bytes offset remaining index value := by
  have hmax := p.sizeMax_ge
  induction remaining generalizing index value with
  | zero => rfl
  | succ remaining ih =>
    have hmul : exactMul p index 8 = some (index * 8) := if_pos (by omega)
    rw [exactReadLoop, readLoop]
    cases bytes[offset + index]? with
    | none => rfl
    | some byte =>
      have hshift := exactShift_eq byte (show index * 8 ≤ 24 by omega)
      simp only [Option.bind_eq_bind, Option.bind_some, hmul, hshift,
        exactAdd_eq (p := p) (a := index) (b := 1) (by omega)]
      exact ih (index + 1) _ (by omega)

/-- The counters never exceed the number of offsets visited. -/
structure Counted (offset : Nat) (r : Progress) : Prop where
  written_le : r.localWritten ≤ r.localTotal
  total_le : r.localTotal ≤ offset

theorem exactCollect_eq {p : Platform} {out : Output} {r : Progress} {offset : Nat} (test : Bool)
    (hc : Counted offset r) (hcast : offset < 2 ^ 32) (hmax : offset + 1 ≤ p.sizeMax) :
    exactCollect p out test r offset =
      some (if test then r.collect out (BitVec.ofNat 32 offset) else r) := by
  have hle := hc.total_le
  have hwritten := hc.written_le
  have hoffset : exactOffset offset = some (BitVec.ofNat 32 offset) := if_pos hcast
  have hcount : exactAdd p r.localWritten 1 = some (r.localWritten + 1) :=
    exactAdd_eq (by omega)
  rw [exactCollect, Progress.collect, exactAdd_eq (by omega)]
  cases test with
  | false => rfl
  | true =>
    simp only [if_true, Option.bind_eq_bind, Option.bind_some, hoffset, hcount]
    split <;> rfl

theorem Counted.collect_if {offset next : Nat} {r : Progress} (hc : Counted offset r)
    (hnext : offset < next) (out : Output) (value : U32) (test : Bool) :
    Counted next (if test then r.collect out value else r) := by
  obtain ⟨hwritten, htotal⟩ := hc
  cases test with
  | false => exact ⟨hwritten, by simp only [Bool.false_eq_true, if_false]; omega⟩
  | true =>
    rw [if_pos rfl, Progress.collect]
    split
    · exact ⟨by dsimp only; omega, by dsimp only; omega⟩
    · exact ⟨by dsimp only; omega, by dsimp only; omega⟩

/-- The scan never leaves the 32-bit offsets and never counts past them. -/
theorem exactScanLoop_eq (p : Platform) (current : Snapshot) (lastOffset : Nat) (v : Validated)
    (out : Output) (hwidth : v.width ≤ 4) (hcast : lastOffset < 2 ^ 32)
    (hmax : lastOffset + 1 ≤ p.sizeMax) (hstride : 0 < v.query.stride.toNat) (fuel offset : Nat)
    (r : Progress) (hle : offset ≤ lastOffset) (hc : Counted offset r) :
    exactScanLoop p current lastOffset v out fuel offset r =
      scanLoop p current lastOffset v out fuel offset r := by
  induction fuel generalizing offset r with
  | zero => rfl
  | succ fuel ih =>
    rw [exactScanLoop, scanLoop, exactReadLoop_eq p _ _ _ _ _ (by omega), vcReadLittleEndian]
    cases readLoop current.value offset v.width 0 0 with
    | none => rfl
    | some value =>
      simp only [Option.bind_eq_bind, Option.bind_some, exactSub_eq hle,
        exactCollect_eq _ hc (Nat.lt_of_le_of_lt hle hcast)
          (Nat.le_trans (Nat.succ_le_succ hle) hmax), p.sub_eq hle (Nat.le_of_succ_le hmax)]
      split
      · rfl
      · next hgo =>
        rw [exactAdd_eq (by omega), p.add_eq (by omega), Option.bind_some]
        exact ih _ _ (by omega) (hc.collect_if (by omega) out _ _)

/-- An accepted initial scan performs no operation that wraps. -/
theorem exactSearchInitial_eq {p : Platform} {current : Snapshot} {size : Nat}
    {query : Object Query} {out : Output} {v : Validated} (m : Memory)
    (hv : vcValidateCommon p current size query out = .ok v) (hmax : size ≤ p.sizeMax) :
    exactSearchInitial p current size query out m = vcSearchInitial p current size query out m := by
  have hc := validateCommon_ok hv
  have hle := scalarWidth_le query.value.type
  have hne := hc.width_ne
  have hsize := representable_le hmax hc.representable
  have hwidth := hc.width_eq
  rw [exactSearchInitial, vcSearchInitial, hv]
  dsimp only
  split
  · rfl
  · split
    · rfl
    · next hlarge =>
      rw [exactSub_eq (by omega), p.sub_eq (by omega) hmax, Option.bind_eq_bind, Option.bind_some,
        exactScanLoop_eq p current _ v out (by omega) (by omega) (by omega)
          (by rw [hc.query_eq]; exact hc.stride_pos) _ _ _ (Nat.zero_le _)
          ⟨Nat.le_refl 0, Nat.le_refl 0⟩]
      cases scanLoop p current (size - v.width) v out (size - v.width + 1) 0 ⟨m, 0, 0⟩ <;> rfl

/-- The offsets an initial scan has to find, in ascending order: the multiples of
the stride with a whole window whose number is, or is not, the constant. -/
structure InitialSpec (q : Query) (bytes : List UInt8) (size : Nat) (xs : List Nat) : Prop where
  increasing : xs.Pairwise (· < ·)
  mem : ∀ o, o ∈ xs ↔ (∃ k, o = k * q.stride.toNat) ∧ o + vcScalarWidth q.type ≤ size ∧
    (valueAt bytes o (vcScalarWidth q.type) = q.valueBits.toNat % 256 ^ vcScalarWidth q.type ↔
      q.relation = .equal)

theorem initialMatches_spec {q : Query} (bytes : List UInt8) (size : Nat)
    (hw : vcScalarWidth q.type ≠ 0) (hrel : q.relation = .equal ∨ q.relation = .notEqual) :
    InitialSpec q bytes size (initialMatches q bytes size) where
  increasing := initialMatches_increasing q bytes size
  mem := by
    intro o
    have hholds : q.Holds [] bytes o ↔ (valueAt bytes o (vcScalarWidth q.type) =
        q.valueBits.toNat % 256 ^ vcScalarWidth q.type ↔ q.relation = .equal) := by
      rcases hrel with h | h <;> simp [Query.Holds, h, Relation.Holds]
    simp only [initialMatches, List.mem_filter, List.mem_range, decide_eq_true_eq,
      dvd_iff_exists_eq_mul_left, hholds]
    constructor
    · exact fun h => h.2
    · exact fun h => ⟨by omega, h⟩

/-- An accepted offset survives the cast to 32 bits. -/
theorem initialMatches_cast (q : Query) (bytes : List UInt8) {size : Nat} (hsize : size ≤ 2 ^ 32)
    (hw : vcScalarWidth q.type ≠ 0) :
    ((initialMatches q bytes size).map (BitVec.ofNat 32)).map BitVec.toNat =
      initialMatches q bytes size := by
  rw [List.map_map]
  refine (List.map_congr_left ?_).trans (List.map_id _)
  intro o ho
  have hwindow := (of_decide_eq_true (List.mem_filter.mp ho).2).2.1
  rw [Function.comp_apply, BitVec.toNat_ofNat, Nat.mod_eq_of_lt (by omega)]
  rfl

/-- Every accepted initial scan returns, without wrapping and within the snapshot,
and leaves exactly the specified offsets, as many as fit. -/
theorem search_initial_spec (p : Platform) (current : Snapshot) (size : Nat) (query : Object Query)
    (out : Output) (m : Memory) (v : Validated)
    (hv : vcValidateCommon p current size query out = .ok v)
    (hrel : query.value.relation = .equal ∨ query.value.relation = .notEqual)
    (hlen : current.value.length = size) (hmax : size ≤ p.sizeMax) :
    ∃ status m' xs, vcSearchInitial p current size query out m = some (status, m') ∧
      exactSearchInitial p current size query out m = some (status, m') ∧
      InitialSpec query.value current.value size xs ∧ Outcome m out xs status m' := by
  have hc := validateCommon_ok hv
  have hsize := representable_le hmax hc.representable
  obtain ⟨status, m', hrun, hd⟩ := initial_delivered p m hv hrel hlen hmax
  refine ⟨status, m', _, hrun, (exactSearchInitial_eq m hv hmax).trans hrun,
    initialMatches_spec current.value size hc.width_ne hrel, ?_⟩
  have hout := hd.outcome hc.counts_ne
  rwa [initialMatches_cast _ _ hsize hc.width_ne] at hout

/-- The byte 2 at the even offsets of four bytes, with room for one match. -/
theorem search_initial_spec_truncated :
    ∃ status m' xs,
      vcSearchInitial ilp32 ⟨0x1000, [2, 1, 2, 1]⟩ 4 ⟨0x3000, ⟨.u8, .equal, 2, 2⟩⟩
        ⟨0x4000, 1, 0x5000, 0x5008⟩ ⟨fun _ _ => 7, fun _ => 7⟩ = some (status, m') ∧
      exactSearchInitial ilp32 ⟨0x1000, [2, 1, 2, 1]⟩ 4 ⟨0x3000, ⟨.u8, .equal, 2, 2⟩⟩
        ⟨0x4000, 1, 0x5000, 0x5008⟩ ⟨fun _ _ => 7, fun _ => 7⟩ = some (status, m') ∧
      InitialSpec ⟨.u8, .equal, 2, 2⟩ [2, 1, 2, 1] 4 xs ∧
      Outcome ⟨fun _ _ => 7, fun _ => 7⟩ ⟨0x4000, 1, 0x5000, 0x5008⟩ xs status m' :=
  search_initial_spec ilp32 ⟨0x1000, [2, 1, 2, 1]⟩ 4 ⟨0x3000, ⟨.u8, .equal, 2, 2⟩⟩
    ⟨0x4000, 1, 0x5000, 0x5008⟩ ⟨fun _ _ => 7, fun _ => 7⟩ _ rfl (Or.inl rfl) rfl (by decide)

end VitaCheat.Search
