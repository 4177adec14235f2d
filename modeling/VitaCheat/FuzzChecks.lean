import VitaCheat.FuzzSearch

/-!
# The fuzz target never aborts

Every call of the target either reports an error that its checks expect or
delivers a list, and the lists that a call delivers pass the checks. The refine in
place delivers the list of the refine before it, and a repeated candidate is refused.
-/
namespace VitaCheat.Search.Fuzz

variable {p : Platform} {place : Place → Nat} {dataSize : Nat} {i : Input}

/-- The target goes on after a check that holds. -/
theorem fuzzCheck_then {α : Type} {condition : Bool} (h : condition = true)
    (next : Unit → Option α) : (fuzzCheck condition >>= next) = next () := by
  rw [fuzzCheck, if_pos h]
  rfl

/-- The offsets of a valid list pass. -/
theorem checkOffsets_ok {m : Memory} {base count size width : Nat} (hmax : size ≤ p.sizeMax)
    (hcount : count ≤ maxCandidates) (h : ValidCandidates size width (candidateList m base count)) :
    checkOffsets p (m.arrays base) count size width = some () := by
  have hall : ((List.range count).all fun index =>
      (index == 0 || decide (m.arrays base (index - 1) < m.arrays base index)) &&
        decide ((m.arrays base index).toNat ≤ size) &&
        decide (width ≤ p.sub size (m.arrays base index).toNat)) = true := by
    apply List.all_eq_true.mpr
    intro index hindex
    have hlt := List.mem_range.mp hindex
    have hwindow := h.inside _ (mem_candidateList.mpr ⟨index, hlt, rfl⟩)
    have hfirst : (index == 0 || decide (m.arrays base (index - 1) < m.arrays base index)) =
        true := by
      cases index with
      | zero => rfl
      | succ index =>
        have hstep := pairwise_neighbours.mp h.increasing index hlt
        simpa [BitVec.lt_def] using hstep
    rw [hfirst, p.sub_eq (by omega) hmax]
    simp only [Bool.true_and, Bool.and_eq_true, decide_eq_true_eq]
    omega
  rw [checkOffsets, fuzzCheck_then (decide_eq_true hcount)]
  exact if_pos hall

/-- What a call delivers passes the checks on its counters and offsets. -/
theorem checkResult_ok {m m' : Memory} {out : Output} {xs : List U32} {status : Status}
    {width : Nat} (h : Delivered m out xs status m') (hne : out.written ≠ out.totalMatches)
    (hmax : i.snapshotSize ≤ p.sizeMax) (hcapacity : out.capacity ≤ maxCandidates)
    (hvalid : ValidCandidates i.snapshotSize width xs) :
    checkResult p i status width out m' = some () := by
  have ho := h.outcome hne
  have hwritten := ho.written
  have htotal := ho.totalMatches
  rw [List.length_map] at hwritten htotal
  have hlist : ValidCandidates i.snapshotSize width
      (candidateList m' out.outOffsets (m'.sizes out.written)) := by
    rw [h.candidates hne]
    exact hvalid.sublist (List.take_sublist _ _)
  have hstatus : (decide (status = .truncated) ==
      decide (m'.sizes out.totalMatches > out.capacity)) = true := by
    rw [beq_iff_eq, decide_eq_decide, truncated_iff h, htotal]
  rw [checkResult, fuzzCheck_then (decide_eq_true (by omega)),
    fuzzCheck_then (decide_eq_true (by omega)), fuzzCheck_then hstatus]
  exact checkOffsets_ok hmax (by omega) hlist

theorem arbitraryScan_ok (hi : i.Sound (place .data) dataSize) (m : Memory) :
    ∃ m', arbitraryScan p place i m = some m' := by
  have hmax := snapshotSize_le_sizeMax p hi
  obtain ⟨status, m', hrun, hanswer⟩ := initial_answers p
    ⟨place .arbitraryQuery, i.arbitraryQuery⟩ (output place i.capacity .offsets .written .total)
    m hi.current_length hmax
  rw [arbitraryScan, hrun, Option.bind_eq_bind, Option.bind_some]
  rcases hanswer with herror | ⟨v, hv, hd⟩
  · refine ⟨m', if_neg ?_⟩
    rintro (rfl | rfl)
    · exact absurd herror (by decide)
    · exact absurd herror (by decide)
  · have hc := validateCommon_ok hv
    have hsize := representable_le hmax hc.representable
    have hchecks := checkResult_ok hd hc.counts_ne hmax hi.capacity_le
      (initialMatches_valid i.arbitraryQuery i.current.value hsize hc.width_ne)
    have hwidth : (vcScalarWidth i.arbitraryQuery.type != 0) = true := by
      simpa using hc.width_ne
    refine ⟨m', ?_⟩
    dsimp only
    rw [if_pos hd.status_cases, fuzzCheck_then hwidth, hchecks]
    rfl

/-- The candidates that the seed scan leaves to the refines. -/
structure Seeded (place : Place → Nat) (i : Input) (m : Memory) : Prop where
  count_le : m.sizes (place .written) ≤ maxCandidates
  valid : ValidCandidates i.snapshotSize (vcScalarWidth i.seedQuery.type)
    (candidateList m (place .candidates) (m.sizes (place .written)))

theorem seedScan_ok (h : Placed p place dataSize) (hi : i.Sound (place .data) dataSize)
    (m : Memory) : ∃ m', seedScan p place i m = some m' ∧ Seeded place i m' := by
  have hmax := snapshotSize_le_sizeMax p hi
  have hrel : vcRelationIsValid i.seedQuery.relation = true := by
    rcases hi.seed_relation with hr | hr <;> rw [hr] <;> rfl
  have hchecks := commonChecks h hi .seedQuery .candidates .written .total (.inl rfl)
    hi.width_ne hi.stride_ne hrel (Nat.le_refl maxCandidates)
  obtain ⟨v, hv⟩ := initial_accepted h hchecks hmax
    (initialHome .seedQuery .candidates .written .total)
    (initial_within p hi (.inl rfl) (Nat.le_refl _) rfl rfl rfl rfl) (by
      intro w b hw hne
      cases w <;> cases b <;>
        first
          | exact absurd hw not_false
          | exact absurd rfl hne
          | decide)
  have hc := validateCommon_ok hv
  obtain ⟨status, m', hrun, hd⟩ :=
    initial_delivered p m hv hi.seed_relation hi.previous_length hmax
  have hlist := hd.candidates hc.counts_ne
  have hcount := (hd.outcome hc.counts_ne).written
  have hvalid := initialMatches_valid i.seedQuery i.previous.value
    (representable_le hmax hc.representable) hi.width_ne
  have hseeded : Seeded place i m' := by
    constructor
    · exact hcount ▸ Nat.min_le_right _ _
    · have hpart := hvalid.sublist (List.take_sublist maxCandidates _)
      exact hlist ▸ hpart
  have hroom : m'.sizes (output place maxCandidates .candidates .written .total).written ≤
      maxCandidates := hseeded.count_le
  have hoffsets : checkOffsets p
      (m'.arrays (output place maxCandidates .candidates .written .total).outOffsets)
      (m'.sizes (output place maxCandidates .candidates .written .total).written) i.snapshotSize
      (vcScalarWidth i.seedQuery.type) = some () :=
    checkOffsets_ok hmax hroom hseeded.valid
  refine ⟨m', ?_, hseeded⟩
  rw [seedScan, hrun, Option.bind_eq_bind, Option.bind_some]
  dsimp only
  rw [fuzzCheck_then (decide_eq_true hd.status_cases), fuzzCheck_then (decide_eq_true hroom),
    hoffsets]
  rfl

theorem refine_type (hi : i.Sound (place .data) dataSize) :
    i.refineQuery.type = i.seedQuery.type := by
  rw [hi.refine_query]

/-- A refine of valid candidates in an array of the target is accepted. -/
theorem refine_accepted (h : Placed p place dataSize) (hi : i.Sound (place .data) dataSize)
    {m : Memory} {n : Nat} (source array count all : Place) (hn : n ≤ maxCandidates)
    (hvalid : ValidCandidates i.snapshotSize (vcScalarWidth i.seedQuery.type)
      (candidateList m (place source) n))
    (hsource : source.size p dataSize = maxCandidates * offsetSize)
    (harray : array.size p dataSize = maxCandidates * offsetSize)
    (hcount : count.size p dataSize = countSize p) (hall : all.size p dataSize = countSize p)
    (hown : ∀ w b, RefineBuffer.writes w → w ≠ b →
      ¬RefineBuffer.inPlace (place source) (output place i.capacity array count all) w b →
      refineHome source .refineQuery array count all w ≠
          refineHome source .refineQuery array count all b ∧
        (refineHome source .refineQuery array count all w).Together
          (refineHome source .refineQuery array count all b)) :
    Accepted p i.previous i.current i.snapshotSize (place source) n
      ⟨place .refineQuery, i.refineQuery⟩ (output place i.capacity array count all) m := by
  obtain ⟨hcommon, hoverlaps, hfits⟩ :=
    target_refine_apart h hi source array count all hn hsource harray hcount hall hown
  have hprevious := hi.previous_address
  refine ⟨hcommon, fun hnull => by omega, ?_, hfits, hoverlaps⟩
  apply (validateCandidates_iff m (snapshotSize_le_sizeMax p hi) ?_).mpr
  · dsimp only
    rwa [refine_type hi]
  · exact fun hnull => absurd hnull (h.nonnull source)

/-- The candidates that a refine of the target finds. -/
def refined (i : Input) (cs : List U32) : List U32 :=
  refineMatches i.refineQuery i.previous.value i.current.value cs

theorem refined_valid (hi : i.Sound (place .data) dataSize) {cs : List U32}
    (h : ValidCandidates i.snapshotSize (vcScalarWidth i.seedQuery.type) cs) :
    ValidCandidates i.snapshotSize (vcScalarWidth i.refineQuery.type) (refined i cs) := by
  rw [refine_type hi]
  exact h.sublist List.filter_sublist

theorem refineScan_ok (h : Placed p place dataSize) (hi : i.Sound (place .data) dataSize)
    {m : Memory} (hs : Seeded place i m) :
    ∃ status m', refineScan p place i m = some (status, m') ∧
      Delivered m (output place i.capacity .offsets .refineWritten .refineTotal)
        (refined i (candidateList m (place .candidates) (m.sizes (place .written)))) status m' := by
  have hmax := snapshotSize_le_sizeMax p hi
  have haccepted := refine_accepted h hi .candidates .offsets .refineWritten .refineTotal
    hs.count_le hs.valid rfl rfl rfl rfl (by
      intro w b hw hne _
      cases w <;> cases b <;>
        first
          | exact absurd hw not_false
          | exact absurd rfl hne
          | decide)
  obtain ⟨status, m', hrun, hd⟩ :=
    refine_filtered haccepted hmax hi.previous_length hi.current_length
  refine ⟨status, m', ?_, hd⟩
  rw [refineScan, hrun, Option.bind_eq_bind, Option.bind_some]
  dsimp only
  rw [fuzzCheck_then (decide_eq_true hd.status_cases),
    checkResult_ok hd haccepted.counts_ne hmax hi.capacity_le (refined_valid hi hs.valid)]
  rfl

/-- The scan in place finds what the refine before it has found, and leaves the
candidates to the last scan. -/
theorem inPlaceScan_ok (h : Placed p place dataSize) (hdata : dataSize ≠ 0)
    (hi : i.Sound (place .data) dataSize) {m m₁ : Memory} {status : Status}
    (hs : Seeded place i m)
    (hd : Delivered m (output place i.capacity .offsets .refineWritten .refineTotal)
      (refined i (candidateList m (place .candidates) (m.sizes (place .written)))) status m₁) :
    ∃ m', inPlaceScan p place i status m₁ = some m' ∧ Seeded place i m' := by
  have hne : ∀ {a b : Place}, a ≠ b → a.Together b → place a ≠ place b := place_ne h hdata
  have hcounts := hne (a := .refineWritten) (b := .refineTotal) (by decide) (by decide)
  have hcounts' := hne (a := .inPlaceWritten) (b := .inPlaceTotal) (by decide) (by decide)
  have hrefine := hd.outcome hcounts
  have hwritten : m₁.sizes (place .written) = m.sizes (place .written) :=
    hrefine.sizes _ (hne (by decide) (by decide)) (hne (by decide) (by decide))
  have hcandidates : m₁.arrays (place .candidates) = m.arrays (place .candidates) :=
    hrefine.arrays _ (hne (by decide) (by decide))
  -- the memory that the second refine starts from
  let m₂ := copyArray m₁ (place .inPlace) (place .candidates) (m.sizes (place .written))
  let m₃ := (m₂.setSize (place .inPlaceWritten) 0).setSize (place .inPlaceTotal) 0
  have hlist : candidateList m₃ (place .inPlace) (m.sizes (place .written)) =
      candidateList m (place .candidates) (m.sizes (place .written)) := by
    have hcopy := copyArray_list m₁ (place .inPlace) (place .candidates) (m.sizes (place .written))
    exact hcopy.trans (candidateList_congr fun j _ => congrFun hcandidates j)
  have haccepted := refine_accepted (m := m₃) h hi .inPlace .inPlace .inPlaceWritten
    .inPlaceTotal hs.count_le (hlist ▸ hs.valid) rfl rfl rfl rfl (by
      intro w b hw hne hshared
      cases w <;> cases b <;>
        first
          | exact absurd hw not_false
          | exact absurd rfl hne
          | exact absurd ⟨rfl, rfl, rfl⟩ hshared
          | decide)
  obtain ⟨status', m', hrun, hd'⟩ := refine_filtered haccepted (snapshotSize_le_sizeMax p hi)
    hi.previous_length hi.current_length
  rw [hlist] at hd'
  obtain ⟨hstatus, hsame, htotal, hentries⟩ := delivered_same hd hcounts hd' hcounts' rfl
  simp only [output_written, output_totalMatches, output_outOffsets] at hsame htotal hentries
  have hplace := hd'.outcome hcounts'
  have hsizes : ∀ a : Place, a.block = 0 → m'.sizes (place a) = m₁.sizes (place a) := by
    intro a ha
    have hlive : ∀ b, a.Together b := fun b => .inl ha
    have hw : a ≠ .inPlaceWritten := fun hab => absurd (hab ▸ ha) (by decide)
    have ht : a ≠ .inPlaceTotal := fun hab => absurd (hab ▸ ha) (by decide)
    have hkeep := hplace.sizes (place a) (hne hw (hlive _)) (hne ht (hlive _))
    rw [hkeep]
    simp only [m₃, m₂, Memory.setSize, copyArray]
    rw [Function.update_of_ne (hne ht (hlive _)), Function.update_of_ne (hne hw (hlive _))]
  have harrays : ∀ a : Place, a ≠ .inPlace → m'.arrays (place a) = m₁.arrays (place a) := by
    intro a ha
    have hbase : place a ≠ place .inPlace := hne ha (.inr (.inl rfl))
    rw [hplace.arrays _ hbase]
    exact copyArray_other m₁ hbase
  have hoffsets : ((List.range (m'.sizes (place .refineWritten))).all fun index =>
      m'.arrays (place .inPlace) index == m'.arrays (place .offsets) index) = true := by
    apply List.all_eq_true.mpr
    intro index hindex
    have hlt := List.mem_range.mp hindex
    rw [hsizes .refineWritten rfl] at hlt
    rw [harrays .offsets (by decide)]
    exact beq_iff_eq.mpr (hentries index hlt)
  refine ⟨m', ?_, ?_, ?_⟩
  · rw [inPlaceScan, hwritten]
    dsimp only
    rw [hrun, Option.bind_eq_bind, Option.bind_some]
    dsimp only
    rw [fuzzCheck_then (decide_eq_true hstatus), hsizes .refineWritten rfl,
      fuzzCheck_then (decide_eq_true hsame), hsizes .refineTotal rfl,
      fuzzCheck_then (decide_eq_true htotal)]
    rw [hsizes .refineWritten rfl] at hoffsets
    rw [fuzzCheck_then hoffsets]
  · rw [hsizes .written rfl, hwritten]
    exact hs.count_le
  · rw [hsizes .written rfl, hwritten]
    have hkeep : candidateList m' (place .candidates) (m.sizes (place .written)) =
        candidateList m (place .candidates) (m.sizes (place .written)) := by
      apply candidateList_congr
      intro j _
      rw [harrays .candidates (by decide), hcandidates]
    rw [hkeep]
    exact hs.valid

theorem repeated_invalid {m : Memory} {base n size width : Nat} (hn : 1 < n)
    (h : m.arrays base 1 = m.arrays base 0) :
    ¬ValidCandidates size width (candidateList m base n) := by
  intro hvalid
  have hlt := pairwise_neighbours.mp hvalid.increasing 0 hn
  rw [h] at hlt
  exact Nat.lt_irrefl _ hlt

theorem invalidScan_ok (h : Placed p place dataSize) (hi : i.Sound (place .data) dataSize)
    {m : Memory} (hs : Seeded place i m) : ∃ m', invalidScan p place i m = some m' := by
  rw [invalidScan]
  dsimp only
  split
  · next hmany =>
    let m₁ := copyArray ((m.setSize (place .invalidWritten) 0).setSize (place .invalidTotal) 0)
      (place .inPlace) (place .candidates) (m.sizes (place .written))
    let m₂ := m₁.store (place .inPlace) 1 (m₁.arrays (place .inPlace) 0)
    have hrepeat : m₂.arrays (place .inPlace) 1 = m₂.arrays (place .inPlace) 0 := by
      simp only [m₂, Memory.store, Function.update_self]
      rw [Function.update_of_ne (by decide)]
    obtain ⟨⟨v, hv⟩, -, -⟩ := target_refine_apart h hi .inPlace .offsets .invalidWritten
      .invalidTotal hs.count_le rfl rfl rfl rfl (by
        intro w b hw hne _
        cases w <;> cases b <;>
          first
            | exact absurd hw not_false
            | exact absurd rfl hne
            | decide)
    have hprevious := hi.previous_address
    have hanswer : (vcSearchRefine p i.previous i.current i.snapshotSize (place .inPlace)
        (m.sizes (place .written)) ⟨place .refineQuery, i.refineQuery⟩
        (output place i.capacity .offsets .invalidWritten .invalidTotal) m₂).map Prod.fst =
          some .invalidCandidates :=
      (refine_invalidCandidates hv (snapshotSize_le_sizeMax p hi) (fun hnull => by omega)
        fun hnull => absurd hnull (h.nonnull .inPlace)).mpr (repeated_invalid hmany hrepeat)
    obtain ⟨⟨status, m'⟩, hrun, hstatus⟩ := Option.map_eq_some_iff.mp hanswer
    refine ⟨m', ?_⟩
    rw [hrun, Option.bind_eq_bind, Option.bind_some]
    dsimp only
    rw [fuzzCheck_then (decide_eq_true hstatus)]
  · exact ⟨m, rfl⟩

/-- The fuzz target gets through every input, wherever its objects are and whatever
the memory holds: no check fails and no call faults. -/
theorem fuzz_never_aborts (p : Platform) (place : Place → Nat) (data : List UInt8) (m : Memory)
    (h : Placed p place data.length) : ∃ m', llvmFuzzerTestOneInput p place data m = some m' := by
  rw [llvmFuzzerTestOneInput]
  split
  · exact ⟨m, rfl⟩
  · next hlong =>
    obtain ⟨i, hread, hi⟩ := readInput_sound (place .data) data (by omega)
    obtain ⟨m₁, hfirst⟩ := arbitraryScan_ok (p := p) hi (initialised place m)
    obtain ⟨m₂, hseed, hs⟩ := seedScan_ok h hi m₁
    obtain ⟨status, m₃, hrefine, hd⟩ := refineScan_ok h hi hs
    obtain ⟨m₄, hplace, hs'⟩ := inPlaceScan_ok h (by omega) hi hs hd
    obtain ⟨m₅, hlast⟩ := invalidScan_ok h hi hs'
    refine ⟨m₅, ?_⟩
    simp only [hread, hfirst, hseed, hrefine, hplace, hlast, Option.bind_eq_bind,
      Option.bind_some]

/-- One page for each object. -/
def pages : Place → Nat
  | .data => 0x1000
  | .arbitraryQuery => 0x2000
  | .seedQuery => 0x3000
  | .refineQuery => 0x4000
  | .candidates => 0x5000
  | .inPlace => 0x6000
  | .offsets => 0x7000
  | .written => 0x8000
  | .total => 0x9000
  | .refineWritten => 0xa000
  | .refineTotal => 0xb000
  | .inPlaceWritten => 0xc000
  | .inPlaceTotal => 0xd000
  | .invalidWritten => 0xe000
  | .invalidTotal => 0xf000

theorem pages_spaced {a b : Place} (h : a ≠ b) :
    pages a + 0x1000 ≤ pages b ∨ pages b + 0x1000 ≤ pages a := by
  cases a <;> cases b <;>
    first
      | exact absurd rfl h
      | decide

theorem pages_placed {n : Nat} (hn : n ≤ 0x1000) : Placed ilp32 pages n := by
  refine Region.objects_spaced 0x1000 ?_ ?_ ?_ fun a b => pages_spaced
  · intro a
    show a.size ilp32 n ≤ 0x1000
    cases a <;> simp only [Place.size] <;> first | exact hn | decide
  · intro a
    show pages a ≠ 0
    cases a <;> decide
  · intro a
    have hmax := ilp32.sizeMax_ge
    have hpage : pages a ≤ 0xf000 := by cases a <;> decide
    show pages a + 0x1000 ≤ ilp32.sizeMax
    omega

/-- A search for the word 1 in two words, refined by what has changed. -/
def wordsInput : List UInt8 :=
  [4, 2, 3, 1, 0, 0, 0, 2] ++ [1, 0, 0, 0, 1, 0, 0, 0] ++ [1, 0, 0, 0, 2, 0, 0, 0]

theorem fuzz_never_aborts_words :
    ∃ m', llvmFuzzerTestOneInput ilp32 pages wordsInput ⟨fun _ _ => 7, fun _ => 7⟩ = some m' :=
  fuzz_never_aborts ilp32 pages wordsInput ⟨fun _ _ => 7, fun _ => 7⟩
    (pages_placed (show wordsInput.length ≤ 0x1000 by decide))

end VitaCheat.Search.Fuzz
