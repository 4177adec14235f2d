import VitaCheat.SearchIndependence

/-!
# Callers of the search engine

A caller that keeps the buffers of its calls in objects of their own passes the
overlap checks. Every call on whole snapshots then answers: it reports an error, or
it delivers its matches, which are valid candidates for the next one.
-/
namespace VitaCheat.Search

open Region (Objects Within)

section Objects

variable {κ : Type} {p : Platform} {object : κ → Region} {together : κ → κ → Prop}
  {current previous : Snapshot} {size : Nat} {query : Object Query} {out : Output}

/-- A scan whose buffers lie in objects of their own is accepted. -/
theorem initial_accepted (h : Objects p.sizeMax object together)
    (hc : CommonChecks p current size query out) (hsize : size ≤ p.sizeMax)
    (home : InitialBuffer → κ)
    (hin : ∀ b, (InitialBuffer.region p current size query out b).Within (object (home b)))
    (hown : ∀ w b, InitialBuffer.writes w → w ≠ b →
      home w ≠ home b ∧ together (home w) (home b)) :
    ∃ v, vcValidateCommon p current size query out = .ok v := by
  have hseparated : Region.Separated p.sizeMax (InitialBuffer.region p current size query out)
      InitialBuffer.writes (fun _ _ => False) :=
    h.separated home hin fun w b hw hne _ => hown w b hw hne
  exact ⟨_, validateCommon_iff.mpr ⟨hc, (commonOverlaps_separated hc hsize).mpr hseparated, rfl⟩⟩

/-- A refine whose buffers lie in objects of their own passes the overlap checks; an
output at the candidates may share their object. -/
theorem refine_apart (h : Objects p.sizeMax object together)
    (hc : CommonChecks p current size query out) (hsize : size ≤ p.sizeMax)
    {candidates candidateCount : Nat} (hprevious : previous.address = 0 → size = 0)
    (hnull : candidates = 0 → candidateCount = 0)
    (hfits : candidateCount * offsetSize ≤ p.sizeMax) (home : RefineBuffer → κ)
    (hin : ∀ b, (RefineBuffer.region p previous current size candidates candidateCount query out
      b).Within (object (home b)))
    (hown : ∀ w b, RefineBuffer.writes w → w ≠ b → ¬RefineBuffer.inPlace candidates out w b →
      home w ≠ home b ∧ together (home w) (home b)) :
    (∃ v, vcValidateCommon p current size query out = .ok v) ∧
      refineOverlaps p previous size candidates (candidateCount * offsetSize)
        (out.capacity * offsetSize) out = false := by
  have hseparated : Region.Separated p.sizeMax
      (RefineBuffer.region p previous current size candidates candidateCount query out)
      RefineBuffer.writes (RefineBuffer.inPlace candidates out) := h.separated home hin hown
  obtain ⟨hcommon, hrefine⟩ :=
    (refineOverlaps_separated hc hsize hprevious hnull hfits).mpr hseparated
  exact ⟨⟨_, validateCommon_iff.mpr ⟨hc, hcommon, rfl⟩⟩, hrefine⟩

end Objects

/-- The common validation fails with an error. -/
theorem validateCommon_error {p : Platform} {current : Snapshot} {size : Nat}
    {query : Object Query} {out : Output} {status : Status}
    (h : vcValidateCommon p current size query out = .error status) : status.code < 0 := by
  unfold vcValidateCommon at h
  split at h
  · obtain rfl := Except.error.inj h
    decide
  · split at h
    · obtain rfl := Except.error.inj h
      decide
    · split at h
      · obtain rfl := Except.error.inj h
        decide
      · split at h
        · obtain rfl := Except.error.inj h
          decide
        · split at h
          · obtain rfl := Except.error.inj h
            decide
          · cases h

/-- A scan of a whole snapshot reports an error or delivers its matches. -/
theorem initial_answers (p : Platform) {current : Snapshot} {size : Nat} (query : Object Query)
    (out : Output) (m : Memory) (hlen : current.value.length = size) (hmax : size ≤ p.sizeMax) :
    ∃ status m', vcSearchInitial p current size query out m = some (status, m') ∧
      (status.code < 0 ∨ ∃ v, vcValidateCommon p current size query out = .ok v ∧
        Delivered m out ((initialMatches query.value current.value size).map (BitVec.ofNat 32))
          status m') := by
  cases hv : vcValidateCommon p current size query out with
  | error status =>
    refine ⟨status, m, ?_, .inl (validateCommon_error hv)⟩
    rw [vcSearchInitial, hv]
  | ok v =>
    by_cases hrel : query.value.relation = .equal ∨ query.value.relation = .notEqual
    · obtain ⟨status, m', hrun, hd⟩ := initial_delivered p m hv hrel hlen hmax
      exact ⟨status, m', hrun, .inr ⟨v, rfl, hd⟩⟩
    · refine ⟨.invalidQuery, m, ?_, .inl (by decide)⟩
      have hother : (v.query.relation != .equal && v.query.relation != .notEqual) = true := by
        rw [(validateCommon_ok hv).query_eq]
        simpa [not_or] using hrel
      rw [vcSearchInitial, hv]
      exact if_pos hother

/-- The matches of a scan are valid candidates. -/
theorem initialMatches_valid (q : Query) (bytes : List UInt8) {size : Nat} (hsize : size ≤ 2 ^ 32)
    (hw : vcScalarWidth q.type ≠ 0) :
    ValidCandidates size (vcScalarWidth q.type)
      ((initialMatches q bytes size).map (BitVec.ofNat 32)) := by
  have hcast := initialMatches_cast q bytes hsize hw
  constructor
  · rw [hcast]
    exact initialMatches_increasing q bytes size
  · intro c hc
    have hmem : c.toNat ∈ initialMatches q bytes size := hcast ▸ List.mem_map_of_mem hc
    exact (of_decide_eq_true (List.mem_filter.mp hmem).2).2.1

/-- Part of a valid list is valid. -/
theorem ValidCandidates.sublist {size width : Nat} {xs ys : List U32}
    (h : ValidCandidates size width ys) (hxs : xs.Sublist ys) : ValidCandidates size width xs where
  increasing := h.increasing.sublist (hxs.map _)
  inside c hc := h.inside c (hxs.subset hc)

/-- A delivered list is stored as far as there is room. -/
theorem Delivered.candidates {m m' : Memory} {out : Output} {xs : List U32} {status : Status}
    (h : Delivered m out xs status m') (hne : out.written ≠ out.totalMatches) :
    candidateList m' out.outOffsets (m'.sizes out.written) = xs.take out.capacity := by
  have hinj : Function.Injective (List.map (BitVec.toNat (w := 32))) :=
    List.map_injective_iff.mpr fun a b hab => BitVec.eq_of_toNat_eq hab
  apply hinj
  rw [candidateList, List.map_map, List.map_take]
  exact h.stored hne

theorem candidateList_congr {m m' : Memory} {base base' n : Nat}
    (h : ∀ i, i < n → m'.arrays base' i = m.arrays base i) :
    candidateList m' base' n = candidateList m base n :=
  List.map_congr_left fun i hi => h i (List.mem_range.mp hi)

/-- `memcpy` between two arrays. -/
def copyArray (m : Memory) (target source count : Nat) : Memory :=
  { m with arrays := Function.update m.arrays target fun i =>
      if i < count then m.arrays source i else m.arrays target i }

theorem copyArray_list (m : Memory) (target source count : Nat) :
    candidateList (copyArray m target source count) target count =
      candidateList m source count := by
  apply candidateList_congr
  intro i hi
  simp only [copyArray, Function.update_self, if_pos hi]

theorem copyArray_other (m : Memory) {target source count base : Nat} (h : base ≠ target) :
    (copyArray m target source count).arrays base = m.arrays base := by
  simp only [copyArray, Function.update_of_ne h]

/-- Two deliveries of one list into the same capacity leave the same results. -/
theorem delivered_same {n m n' m' : Memory} {out out' : Output} {xs : List U32}
    {status status' : Status} (h : Delivered n out xs status m)
    (hne : out.written ≠ out.totalMatches) (h' : Delivered n' out' xs status' m')
    (hne' : out'.written ≠ out'.totalMatches) (hcapacity : out'.capacity = out.capacity) :
    status' = status ∧ m'.sizes out'.written = m.sizes out.written ∧
      m'.sizes out'.totalMatches = m.sizes out.totalMatches ∧
      ∀ i, i < m.sizes out.written → m'.arrays out'.outOffsets i = m.arrays out.outOffsets i := by
  have ho := h.outcome hne
  have ho' := h'.outcome hne'
  rw [ho.written, ho.totalMatches, ho'.written, ho'.totalMatches, hcapacity]
  refine ⟨?_, rfl, rfl, ?_⟩
  · rw [ho.status, ho'.status, hcapacity]
  · intro i hi
    have hfirst := ho.entries i hi
    have hsecond := ho'.entries i (by rw [hcapacity]; exact hi)
    exact BitVec.eq_of_toNat_eq (Option.some.inj (hsecond.symm.trans hfirst))

end VitaCheat.Search
