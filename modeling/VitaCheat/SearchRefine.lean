import VitaCheat.SearchInitial

/-!
# Refining a candidate list

An accepted refine is the order-preserving filter of its candidates by the
relation of the query, wherever its output goes.
-/
namespace VitaCheat.Search

/-- The code's argument checks accept the call. -/
structure Accepted (p : Platform) (previous current : Snapshot)
    (size candidates candidateCount : Nat) (query : Object Query) (out : Output) (m : Memory) :
    Prop where
  common : ∃ v, vcValidateCommon p current size query out = .ok v
  previous_ne : previous.address = 0 → size = 0
  windows : vcValidateCandidates p candidates candidateCount size
    (vcScalarWidth query.value.type) m = .ok
  fits : candidateCount * offsetSize ≤ p.sizeMax
  overlaps : refineOverlaps p previous size candidates (candidateCount * offsetSize)
    (out.capacity * offsetSize) out = false

/-- The candidates that satisfy the query between two snapshots. -/
def refineMatches (q : Query) (previous current : List UInt8) (cs : List U32) : List U32 :=
  cs.filter fun c => decide (q.Holds previous current c.toNat)

variable {p : Platform} {previous current : Snapshot} {size candidates candidateCount : Nat}
  {query : Object Query} {out : Output} {m : Memory}

theorem Accepted.valid (h : Accepted p previous current size candidates candidateCount query out m)
    (hmax : size ≤ p.sizeMax) : ValidCandidates size (vcScalarWidth query.value.type)
      (candidateList m candidates candidateCount) := by
  have hnull : candidates = 0 → candidateCount = 0 := by
    intro hz
    by_contra hne
    have hok := h.windows
    rw [vcValidateCandidates] at hok
    simp [hz, hne] at hok
  exact (validateCandidates_iff m hmax hnull).mp h.windows

/-- On valid candidates the loop stays inside both snapshots and collects the
matching ones, also when it overwrites the array it reads. -/
theorem refineLoop_filtered {v : Validated}
    (hv : vcValidateCommon p current size query out = .ok v)
    (hprevious : previous.value.length = size) (hcurrent : current.value.length = size)
    (hvalid : ValidCandidates size (vcScalarWidth query.value.type)
      (candidateList m candidates candidateCount)) :
    ∃ r, refineLoop previous current candidates v out candidateCount 0 ⟨m, 0, 0⟩ = some r ∧
      Recorded m out (refineMatches query.value previous.value current.value
        (candidateList m candidates candidateCount)) r := by
  have hc := validateCommon_ok hv
  have hin : ∀ i, i < candidateCount → (m.arrays candidates i).toNat + v.width ≤ size := by
    intro i hi
    rw [hc.width_eq]
    exact hvalid.inside _ (mem_candidateList.mpr ⟨i, hi, rfl⟩)
  apply refineLoop_recorded previous current candidates v out m
    (fun c => decide (query.value.Holds previous.value current.value c.toNat)) candidateCount
  · rw [hc.width_eq]
    exact scalarWidth_le _
  · rw [hprevious]
    exact hin
  · rw [hcurrent]
    exact hin
  · intro i before after hi hb haf
    rw [hc.width_eq] at hb haf ⊢
    rw [hc.query_eq, Bool.eq_iff_iff, decide_eq_true_iff]
    exact matches_iff _ _ hc.width_ne (fun _ _ => hb) haf
  · exact Nat.zero_add _
  · exact recorded_init m out

/-- An accepted refine delivers the matching candidates. -/
theorem refine_filtered (h : Accepted p previous current size candidates candidateCount query out m)
    (hmax : size ≤ p.sizeMax) (hprevious : previous.value.length = size)
    (hcurrent : current.value.length = size) :
    ∃ status m', vcSearchRefine p previous current size candidates candidateCount query out m =
        some (status, m') ∧
      Delivered m out (refineMatches query.value previous.value current.value
        (candidateList m candidates candidateCount)) status m' := by
  obtain ⟨v, hv⟩ := h.common
  have hc := validateCommon_ok hv
  have hbytes : vcMultiplySize p candidateCount offsetSize = some (candidateCount * offsetSize) :=
    p.multiply_eq_some.mpr ⟨h.fits, rfl⟩
  obtain ⟨r, hrun, hrec⟩ := refineLoop_filtered hv hprevious hcurrent (h.valid hmax)
  refine ⟨_, _, ?_, hrec.finish⟩
  have hgiven : ¬ (decide (previous.address = 0) && size != 0) = true := by
    simpa using h.previous_ne
  have hvalid := h.windows
  rw [← hc.width_eq] at hvalid
  rw [vcSearchRefine, hv]
  simp only [if_neg hgiven, hvalid, hbytes, hc.outputBytes_eq, h.overlaps, hrun]
  rfl

/-- Signed bytes before and after, and four candidates: 0, 1, 2, 3. -/
def sampleBefore : Snapshot := ⟨0x1000, [1, 2, 0xff, 4]⟩
def sampleAfter : Snapshot := ⟨0x2000, [1, 3, 1, 0]⟩
def sampleQuery : Object Query := ⟨0x3000, ⟨.s8, .increased, 0, 1⟩⟩
def sampleOut : Output := ⟨0x4000, 4, 0x5000, 0x5008⟩
def sampleMemory : Memory := ⟨fun _ i => BitVec.ofNat 32 i, fun _ => 0⟩

theorem sample_accepted :
    Accepted ilp32 sampleBefore sampleAfter 4 0x4000 4 sampleQuery sampleOut sampleMemory where
  common := ⟨_, rfl⟩
  previous_ne := by decide
  windows := by decide
  fits := by decide
  overlaps := by decide

theorem sample_accepted_separate :
    Accepted ilp32 sampleBefore sampleAfter 4 0x6000 4 sampleQuery sampleOut sampleMemory where
  common := ⟨_, rfl⟩
  previous_ne := by decide
  windows := by decide
  fits := by decide
  overlaps := by decide

/-- The same object with another query in it. -/
def asking (query : Object Query) (q : Query) : Object Query := ⟨query.address, q⟩

theorem CommonChecks.ask (h : CommonChecks p current size query out) {q : Query}
    (htype : q.type = query.value.type) (hstride : q.stride ≠ 0)
    (hrel : vcRelationIsValid q.relation = true) :
    CommonChecks p current size (asking query q) out where
  written_ne := h.written_ne
  totalMatches_ne := h.totalMatches_ne
  query_ne := h.query_ne
  current_ne := h.current_ne
  outOffsets_ne := h.outOffsets_ne
  representable := h.representable
  width_ne := by rw [asking, htype]; exact h.width_ne
  stride_ne := hstride
  relation := hrel
  fits := h.fits

/-- Acceptance looks at the type of the query only. -/
theorem Accepted.ask (h : Accepted p previous current size candidates candidateCount query out m)
    {q : Query} (htype : q.type = query.value.type) (hstride : q.stride ≠ 0)
    (hrel : vcRelationIsValid q.relation = true) :
    Accepted p previous current size candidates candidateCount (asking query q) out m where
  common := by
    obtain ⟨v, hv⟩ := h.common
    obtain ⟨hc, hoverlaps, -⟩ := validateCommon_iff.mp hv
    exact ⟨_, validateCommon_iff.mpr ⟨hc.ask htype hstride hrel, hoverlaps, rfl⟩⟩
  previous_ne := h.previous_ne
  windows := by rw [asking, htype]; exact h.windows
  fits := h.fits
  overlaps := h.overlaps

/-- Acceptance treats the two snapshots alike. -/
theorem Accepted.swap (h : Accepted p previous current size candidates candidateCount query out m) :
    Accepted p current previous size candidates candidateCount query out m := by
  obtain ⟨v, hv⟩ := h.common
  obtain ⟨hc, hcommon, -⟩ := validateCommon_iff.mp hv
  have hoverlaps := h.overlaps
  have hcomm : ∀ a b c d, vcRangesOverlap p a b c d = vcRangesOverlap p c d a b := p.overlap_comm
  simp only [commonOverlaps, refineOverlaps, Bool.or_eq_false_iff] at hcommon hoverlaps
  obtain ⟨⟨⟨⟨⟨⟨⟨⟨h1, h2⟩, h3⟩, h4⟩, h5⟩, h6⟩, h7⟩, h8⟩, h9⟩ := hcommon
  obtain ⟨⟨⟨⟨⟨h10, h11⟩, h12⟩, h13⟩, h14⟩, h15⟩ := hoverlaps
  refine ⟨⟨_, validateCommon_iff.mpr ⟨{ hc with current_ne := h.previous_ne }, ?_, rfl⟩⟩,
    hc.current_ne, h.windows, h.fits, ?_⟩
  · rw [hcomm] at h10
    simp only [commonOverlaps, h1, h10, h3, h4, h5, h11, h12, h8, h9, Bool.or_false]
  · rw [hcomm] at h2
    simp only [refineOverlaps, h2, h6, h7, h13, h14, h15, Bool.or_false]

/-- A list of matches settles the answer of a call. -/
theorem Delivered.unique {xs : List U32} {m₁ m₂ : Memory} {s₁ s₂ : Status}
    (h₁ : Delivered m out xs s₁ m₁) (h₂ : Delivered m out xs s₂ m₂) : (s₁, m₁) = (s₂, m₂) := by
  obtain ⟨arrays₁, sizes₁⟩ := m₁
  obtain ⟨arrays₂, sizes₂⟩ := m₂
  rw [Prod.mk.injEq, Memory.mk.injEq]
  exact ⟨h₁.status.trans h₂.status.symm, h₁.arrays.trans h₂.arrays.symm,
    h₁.sizes.trans h₂.sizes.symm⟩

/-- Two accepted queries with the same matches give the same answer. -/
theorem refine_congr (h : Accepted p previous current size candidates candidateCount query out m)
    {query' : Object Query}
    (h' : Accepted p previous current size candidates candidateCount query' out m)
    (hmax : size ≤ p.sizeMax) (hprevious : previous.value.length = size)
    (hcurrent : current.value.length = size)
    (hsame : refineMatches query.value previous.value current.value
        (candidateList m candidates candidateCount) =
      refineMatches query'.value previous.value current.value
        (candidateList m candidates candidateCount)) :
    vcSearchRefine p previous current size candidates candidateCount query out m =
      vcSearchRefine p previous current size candidates candidateCount query' out m := by
  obtain ⟨status, m₁, hrun, hd⟩ := refine_filtered h hmax hprevious hcurrent
  obtain ⟨status', m₂, hrun', hd'⟩ := refine_filtered h' hmax hprevious hcurrent
  rw [← hsame] at hd'
  rw [hrun, hrun', hd.unique hd']

theorem Accepted.counts_ne
    (h : Accepted p previous current size candidates candidateCount query out m) :
    out.written ≠ out.totalMatches := by
  obtain ⟨v, hv⟩ := h.common
  exact (validateCommon_ok hv).counts_ne

theorem Accepted.query_ok
    (h : Accepted p previous current size candidates candidateCount query out m) :
    query.value.stride ≠ 0 ∧ vcRelationIsValid query.value.relation = true := by
  obtain ⟨v, hv⟩ := h.common
  have hc := (validateCommon_iff.mp hv).1
  exact ⟨hc.stride_ne, hc.relation⟩

/-- Every accepted refine returns the matching candidates in their order, as
many as fit, and pays no attention to the stride of the query. -/
theorem search_refine_spec
    (h : Accepted p previous current size candidates candidateCount query out m)
    (hmax : size ≤ p.sizeMax) (hprevious : previous.value.length = size)
    (hcurrent : current.value.length = size) :
    (∃ status m', vcSearchRefine p previous current size candidates candidateCount query out m =
        some (status, m') ∧
      Outcome m out ((refineMatches query.value previous.value current.value
        (candidateList m candidates candidateCount)).map BitVec.toNat) status m') ∧
      ∀ stride : U32, stride ≠ 0 →
        vcSearchRefine p previous current size candidates candidateCount
            (asking query { query.value with stride := stride }) out m =
          vcSearchRefine p previous current size candidates candidateCount query out m := by
  constructor
  · obtain ⟨status, m', hrun, hd⟩ := refine_filtered h hmax hprevious hcurrent
    exact ⟨status, m', hrun, hd.outcome h.counts_ne⟩
  · intro stride hstride
    have hask := h.ask (q := { query.value with stride := stride }) rfl hstride h.query_ok.2
    exact refine_congr hask h hmax hprevious hcurrent rfl

theorem search_refine_spec_signed :
    (∃ status m', vcSearchRefine ilp32 sampleBefore sampleAfter 4 0x6000 4 sampleQuery
        sampleOut sampleMemory = some (status, m') ∧
      Outcome sampleMemory sampleOut [1, 2] status m') ∧
      ∀ stride : U32, stride ≠ 0 →
        vcSearchRefine ilp32 sampleBefore sampleAfter 4 0x6000 4
            (asking sampleQuery { sampleQuery.value with stride := stride }) sampleOut
            sampleMemory =
          vcSearchRefine ilp32 sampleBefore sampleAfter 4 0x6000 4 sampleQuery sampleOut
            sampleMemory :=
  search_refine_spec sample_accepted_separate (by decide) rfl rfl

/-- Compacting the candidates in place gives the answer of a separate output on
a copy of them, and keeps the slots past the written ones. -/
theorem refine_in_place {copies : Nat} {separate : Output} {m₂ : Memory}
    (hin : Accepted p previous current size candidates candidateCount query out m)
    (hplace : out.outOffsets = candidates)
    (hout : Accepted p previous current size copies candidateCount query separate m₂)
    (hseparate : separate.outOffsets ≠ copies) (hcapacity : separate.capacity = out.capacity)
    (hcopy : ∀ i, i < candidateCount → m₂.arrays copies i = m.arrays candidates i)
    (hmax : size ≤ p.sizeMax) (hprevious : previous.value.length = size)
    (hcurrent : current.value.length = size) :
    ∃ status m' m₂',
      vcSearchRefine p previous current size candidates candidateCount query out m =
        some (status, m') ∧
      vcSearchRefine p previous current size copies candidateCount query separate m₂ =
        some (status, m₂') ∧
      m'.sizes out.written = m₂'.sizes separate.written ∧
      m'.sizes out.totalMatches = m₂'.sizes separate.totalMatches ∧
      (∀ i, i < m'.sizes out.written →
        m'.arrays candidates i = m₂'.arrays separate.outOffsets i) ∧
      (∀ i, m'.sizes out.written ≤ i → m'.arrays candidates i = m.arrays candidates i) ∧
      m₂'.arrays copies = m₂.arrays copies := by
  obtain ⟨status, m', hrun, hd⟩ := refine_filtered hin hmax hprevious hcurrent
  obtain ⟨status₂, m₂', hrun₂, hd₂⟩ := refine_filtered hout hmax hprevious hcurrent
  have hlist : candidateList m₂ copies candidateCount = candidateList m candidates candidateCount :=
    List.map_congr_left fun i hi => hcopy i (List.mem_range.mp hi)
  rw [hlist] at hd₂
  have ho := hd.outcome hin.counts_ne
  have ho₂ := hd₂.outcome hout.counts_ne
  generalize (refineMatches query.value previous.value current.value
    (candidateList m candidates candidateCount)).map BitVec.toNat = xs at ho ho₂
  have hstatus : status₂ = status := by rw [ho₂.status, ho.status, hcapacity]
  refine ⟨status, m', m₂', hrun, hstatus ▸ hrun₂, ?_, ?_, ?_, ?_, ?_⟩
  · rw [ho.written, ho₂.written, hcapacity]
  · rw [ho.totalMatches, ho₂.totalMatches]
  · intro i hi
    rw [ho.written] at hi
    have hfirst := ho.entries i hi
    have hsecond := ho₂.entries i (by rw [hcapacity]; exact hi)
    rw [← hplace]
    exact BitVec.eq_of_toNat_eq (Option.some.inj (hfirst.symm.trans hsecond))
  · intro i hi
    rw [ho.written] at hi
    rw [← hplace]
    exact ho.kept i hi
  · exact ho₂.arrays copies hseparate.symm

theorem refine_in_place_signed :
    ∃ status m' m₂',
      vcSearchRefine ilp32 sampleBefore sampleAfter 4 0x4000 4 sampleQuery sampleOut sampleMemory =
        some (status, m') ∧
      vcSearchRefine ilp32 sampleBefore sampleAfter 4 0x6000 4 sampleQuery sampleOut sampleMemory =
        some (status, m₂') ∧
      m'.sizes sampleOut.written = m₂'.sizes sampleOut.written ∧
      m'.sizes sampleOut.totalMatches = m₂'.sizes sampleOut.totalMatches ∧
      (∀ i, i < m'.sizes sampleOut.written → m'.arrays 0x4000 i = m₂'.arrays 0x4000 i) ∧
      (∀ i, m'.sizes sampleOut.written ≤ i → m'.arrays 0x4000 i = sampleMemory.arrays 0x4000 i) ∧
      m₂'.arrays 0x6000 = sampleMemory.arrays 0x6000 :=
  refine_in_place sample_accepted rfl sample_accepted_separate (by decide) rfl
    (fun _ _ => rfl) (by decide) rfl rfl

/-- The value of a status in the interface. -/
def Status.code : Status → Int
  | .ok => 0
  | .truncated => 1
  | .invalidArgument => -1
  | .invalidQuery => -2
  | .invalidCandidates => -3

theorem finish_code (r : Progress) (out : Output) : ¬ (r.finish out).1.code < 0 := by
  rw [Progress.finish]
  dsimp only
  split
  · decide
  · decide

/-- The answer of a scan that was started is no error. -/
theorem finish_fst {r : Option Progress} {status : Status} (hneg : status.code < 0) :
    (r.map (·.finish out)).map Prod.fst ≠ some status := by
  intro h
  obtain ⟨answer, hanswer, rfl⟩ := Option.map_eq_some_iff.mp h
  obtain ⟨progress, -, rfl⟩ := Option.map_eq_some_iff.mp hanswer
  exact finish_code progress out hneg

/-- An initial scan that reports an error has stored nothing. -/
theorem initial_rejected {m' : Memory} {status : Status}
    (h : vcSearchInitial p current size query out m = some (status, m')) (hneg : status.code < 0) :
    m' = m := by
  unfold vcSearchInitial at h
  split at h
  · exact (Prod.mk.inj (Option.some.inj h)).2.symm
  · split at h
    · exact (Prod.mk.inj (Option.some.inj h)).2.symm
    · split at h
      · obtain ⟨rfl, -⟩ := Prod.mk.inj (Option.some.inj h)
        exact absurd hneg (by decide)
      · obtain ⟨r, -, hr⟩ := Option.map_eq_some_iff.mp h
        have hcode := finish_code r out
        rw [hr] at hcode
        exact absurd hneg hcode

/-- A refine that reports an error has stored nothing, in place or not. -/
theorem refine_rejected {m' : Memory} {status : Status}
    (h : vcSearchRefine p previous current size candidates candidateCount query out m =
      some (status, m')) (hneg : status.code < 0) : m' = m := by
  unfold vcSearchRefine at h
  split at h
  · exact (Prod.mk.inj (Option.some.inj h)).2.symm
  · split at h
    · exact (Prod.mk.inj (Option.some.inj h)).2.symm
    · split at h
      · split at h
        · exact (Prod.mk.inj (Option.some.inj h)).2.symm
        · split at h
          · exact (Prod.mk.inj (Option.some.inj h)).2.symm
          · obtain ⟨r, -, hr⟩ := Option.map_eq_some_iff.mp h
            have hcode := finish_code r out
            rw [hr] at hcode
            exact absurd hneg hcode
      · exact (Prod.mk.inj (Option.some.inj h)).2.symm

/-- With the checks before it passed, the candidate check alone decides about
INVALID_CANDIDATES. -/
theorem refine_invalidCandidates {v : Validated}
    (hv : vcValidateCommon p current size query out = .ok v) (hmax : size ≤ p.sizeMax)
    (hprevious : previous.address = 0 → size = 0) (hnull : candidates = 0 → candidateCount = 0) :
    (vcSearchRefine p previous current size candidates candidateCount query out m).map Prod.fst =
        some .invalidCandidates ↔
      ¬ ValidCandidates size (vcScalarWidth query.value.type)
        (candidateList m candidates candidateCount) := by
  have hgiven : ¬ (decide (previous.address = 0) && size != 0) = true := by simpa using hprevious
  rw [vcSearchRefine, hv]
  simp only [if_neg hgiven]
  rw [(validateCommon_ok hv).width_eq]
  rcases validateCandidates_eq m (vcScalarWidth query.value.type) hmax hnull with
    ⟨hvalid, hok⟩ | ⟨hbad, hinvalid⟩
  · simp only [hok, hvalid, not_true, iff_false]
    split
    · simp
    · split
      · simp
      · exact finish_fst (by decide)
  · simp [hinvalid, hbad]

/-- A refine reports INVALID_CANDIDATES exactly for lists that are not valid, and a
valid list keeps every byte the loop reads inside the snapshots. A call that
reports any error leaves the memory as it was. -/
theorem search_validation (p : Platform) :
    (∀ (previous current : Snapshot) (size candidates candidateCount : Nat) (query : Object Query)
        (out : Output) (m : Memory) (v : Validated), size ≤ p.sizeMax →
      vcValidateCommon p current size query out = .ok v →
      (previous.address = 0 → size = 0) → (candidates = 0 → candidateCount = 0) →
      ((vcSearchRefine p previous current size candidates candidateCount query out m).map Prod.fst =
          some .invalidCandidates ↔
        ¬ ValidCandidates size (vcScalarWidth query.value.type)
          (candidateList m candidates candidateCount)) ∧
      (ValidCandidates size (vcScalarWidth query.value.type)
          (candidateList m candidates candidateCount) →
        previous.value.length = size → current.value.length = size →
        ∃ r, refineLoop previous current candidates v out candidateCount 0 ⟨m, 0, 0⟩ = some r)) ∧
    (∀ (current : Snapshot) (size : Nat) (query : Object Query) (out : Output) (m m' : Memory)
        (status : Status),
      vcSearchInitial p current size query out m = some (status, m') → status.code < 0 → m' = m) ∧
    ∀ (previous current : Snapshot) (size candidates candidateCount : Nat) (query : Object Query)
        (out : Output) (m m' : Memory) (status : Status),
      vcSearchRefine p previous current size candidates candidateCount query out m =
        some (status, m') → status.code < 0 → m' = m := by
  refine ⟨?_, ?_, ?_⟩
  · intro previous current size candidates candidateCount query out m v hmax hv hprevious hnull
    refine ⟨refine_invalidCandidates hv hmax hprevious hnull, ?_⟩
    intro hvalid hlength hlength'
    obtain ⟨r, hrun, -⟩ := refineLoop_filtered hv hlength hlength' hvalid
    exact ⟨r, hrun⟩
  · intro current size query out m m' status h hneg
    exact initial_rejected h hneg
  · intro previous current size candidates candidateCount query out m m' status h hneg
    exact refine_rejected h hneg

/-- The candidates of the sample are valid for bytes and not for words. -/
theorem search_validation_windows :
    ((vcSearchRefine ilp32 sampleBefore sampleAfter 4 0x4000 4 sampleQuery sampleOut
        sampleMemory).map Prod.fst = some .invalidCandidates ↔
      ¬ ValidCandidates 4 1 (candidateList sampleMemory 0x4000 4)) ∧
      ((vcSearchRefine ilp32 sampleBefore sampleAfter 4 0x4000 4
          (asking sampleQuery ⟨.u32, .changed, 0, 1⟩) sampleOut sampleMemory).map Prod.fst =
            some .invalidCandidates ↔
        ¬ ValidCandidates 4 4 (candidateList sampleMemory 0x4000 4)) := by
  obtain ⟨hexact, -, -⟩ := search_validation ilp32
  exact ⟨(hexact sampleBefore sampleAfter 4 0x4000 4 sampleQuery sampleOut sampleMemory _
    (by decide) rfl (by decide) (by decide)).1,
    (hexact sampleBefore sampleAfter 4 0x4000 4 (asking sampleQuery ⟨.u32, .changed, 0, 1⟩)
      sampleOut sampleMemory _ (by decide) rfl (by decide) (by decide)).1⟩

end VitaCheat.Search
