import VitaCheat.SearchSession

/-!
# What a search answers does not depend on where it is stored

The offsets of a call are settled by the snapshots and the query. The platform,
the addresses, the capacity and the old contents of the memory decide only how
many of them are stored. A call whose list was cut tells the capacity that a
second call needs.
-/
namespace VitaCheat.Search

/-- The answers of two calls that find the same offsets. -/
structure Agree (out out' : Output) (status status' : Status) (m m' : Memory) : Prop where
  total : m.sizes out.totalMatches = m'.sizes out'.totalMatches
  truncated : status = .truncated ↔ out.capacity < m'.sizes out'.totalMatches
  first : out.capacity ≤ out'.capacity → stored m out = (stored m' out').take out.capacity
  whole : m.sizes out.totalMatches ≤ out'.capacity →
    status' = .ok ∧ (stored m' out').length = m.sizes out.totalMatches ∧
      stored m out <+: stored m' out'

theorem truncated_iff {m m' : Memory} {out : Output} {xs : List U32} {status : Status}
    (h : Delivered m out xs status m') : status = .truncated ↔ out.capacity < xs.length := by
  rw [h.status]
  by_cases hlong : out.capacity < xs.length
  · simp [hlong]
  · simp [hlong]

theorem ok_iff {m m' : Memory} {out : Output} {xs : List U32} {status : Status}
    (h : Delivered m out xs status m') : status = .ok ↔ xs.length ≤ out.capacity := by
  rw [h.status]
  by_cases hlong : out.capacity < xs.length
  · simp [hlong]
  · simp [hlong, Nat.not_lt.mp hlong]

/-- Two deliveries of one list agree, whatever they were delivered into. -/
theorem delivered_agree {n m n' m' : Memory} {out out' : Output} {xs : List U32}
    {status status' : Status} (h : Delivered n out xs status m)
    (hne : out.written ≠ out.totalMatches) (h' : Delivered n' out' xs status' m')
    (hne' : out'.written ≠ out'.totalMatches) : Agree out out' status status' m m' := by
  have htotal := (h.outcome hne).totalMatches
  have htotal' := (h'.outcome hne').totalMatches
  rw [List.length_map] at htotal htotal'
  have hlist := h.stored hne
  have hlist' := h'.stored hne'
  constructor
  · rw [htotal, htotal']
  · rw [htotal']
    exact truncated_iff h
  · intro hle
    rw [hlist, hlist', List.take_take, Nat.min_eq_left hle]
  · intro hroom
    rw [htotal] at hroom ⊢
    have hall : stored m' out' = xs.map BitVec.toNat := by
      rw [hlist']
      apply List.take_of_length_le
      rwa [List.length_map]
    rw [hall, List.length_map, hlist]
    exact ⟨(ok_iff h').mpr hroom, rfl, List.take_prefix _ _⟩

/-- Two scans of the same bytes for the same query agree. -/
theorem initial_agree {p p' : Platform} {current current' : Snapshot} {size : Nat}
    {query query' : Object Query} {out out' : Output} {v v' : Validated} (m m' : Memory)
    (hv : vcValidateCommon p current size query out = .ok v)
    (hv' : vcValidateCommon p' current' size query' out' = .ok v')
    (hrel : query.value.relation = .equal ∨ query.value.relation = .notEqual)
    (hquery : query'.value = query.value) (hbytes : current'.value = current.value)
    (hlen : current.value.length = size) (hmax : size ≤ p.sizeMax) (hmax' : size ≤ p'.sizeMax) :
    ∃ status status' n n', vcSearchInitial p current size query out m = some (status, n) ∧
      vcSearchInitial p' current' size query' out' m' = some (status', n') ∧
      Agree out out' status status' n n' := by
  obtain ⟨status, n, hrun, hd⟩ := initial_delivered p m hv hrel hlen hmax
  obtain ⟨status', n', hrun', hd'⟩ :=
    initial_delivered p' m' hv' (hquery ▸ hrel) (hbytes ▸ hlen) hmax'
  rw [hquery, hbytes] at hd'
  exact ⟨status, status', n, n', hrun, hrun',
    delivered_agree hd (validateCommon_ok hv).counts_ne hd' (validateCommon_ok hv').counts_ne⟩

/-- Two refines of the same candidates between the same bytes agree, in place or not. -/
theorem refine_agree {p p' : Platform} {previous current previous' current' : Snapshot}
    {size candidates candidates' candidateCount : Nat} {query query' : Object Query}
    {out out' : Output} {m m' : Memory}
    (h : Accepted p previous current size candidates candidateCount query out m)
    (h' : Accepted p' previous' current' size candidates' candidateCount query' out' m')
    (hquery : query'.value = query.value) (hbefore : previous'.value = previous.value)
    (hafter : current'.value = current.value)
    (hcandidates : ∀ i, i < candidateCount → m'.arrays candidates' i = m.arrays candidates i)
    (hprevious : previous.value.length = size) (hcurrent : current.value.length = size)
    (hmax : size ≤ p.sizeMax) (hmax' : size ≤ p'.sizeMax) :
    ∃ status status' n n',
      vcSearchRefine p previous current size candidates candidateCount query out m =
        some (status, n) ∧
      vcSearchRefine p' previous' current' size candidates' candidateCount query' out' m' =
        some (status', n') ∧
      Agree out out' status status' n n' := by
  obtain ⟨status, n, hrun, hd⟩ := refine_filtered h hmax hprevious hcurrent
  obtain ⟨status', n', hrun', hd'⟩ :=
    refine_filtered h' hmax' (hbefore ▸ hprevious) (hafter ▸ hcurrent)
  have hlist : candidateList m' candidates' candidateCount =
      candidateList m candidates candidateCount :=
    List.map_congr_left fun i hi => hcandidates i (List.mem_range.mp hi)
  rw [hquery, hbefore, hafter, hlist] at hd'
  exact ⟨status, status', n, n', hrun, hrun', delivered_agree hd h.counts_ne hd' h'.counts_ne⟩

/-- The same bytes searched for the same query, with results stored anywhere. -/
structure Scan.Same (s s' : Scan) : Prop where
  snapshot : s'.snapshot.value = s.snapshot.value
  query : s'.query.value = s.query.value

theorem refinedBy_same (o : Nat) {first first' : Scan} {rest rest' : List Scan}
    (hfirst : first.Same first') (hrest : List.Forall₂ Scan.Same rest rest') :
    RefinedBy o first' rest' ↔ RefinedBy o first rest := by
  induction hrest generalizing first first' with
  | nil => exact Iff.rfl
  | @cons s s' rest rest' hs _ ih =>
    rw [RefinedBy, RefinedBy, ih hs, hs.query, hs.snapshot, hfirst.snapshot]

/-- The surviving offsets are a matter of the scans alone. -/
theorem survivors_same (size : Nat) {first first' : Scan} {rest rest' : List Scan}
    (hfirst : first.Same first') (hrest : List.Forall₂ Scan.Same rest rest') :
    survivors size first' rest' = survivors size first rest := by
  unfold survivors
  rw [hfirst.query, hfirst.snapshot]
  congr 1
  funext o
  rw [decide_eq_decide]
  exact refinedBy_same o hfirst hrest

/-- The first query of a session is of a known type. -/
theorem Session.width_ne {p : Platform} {size : Nat} {m : Memory} {first : Scan}
    {rest : List Scan} (h : Session p size m first rest) :
    vcScalarWidth first.query.value.type ≠ 0 := by
  obtain ⟨v, hv⟩ := h.initial
  exact (validateCommon_ok hv).width_ne

/-- The last list of a session is part of the surviving offsets, and all of them if
no call truncated. -/
theorem session_survivors {p : Platform} {size : Nat} {m : Memory} {first : Scan}
    {rest : List Scan} (h : Session p size m first rest) :
    (Trace.final (refineStep p size) (firstStage p size m first) rest).stored.Sublist
        (survivors size first rest) ∧
      ((initialStep p size m first).1 = some .ok →
        (∀ e ∈ Trace.run (refineStep p size) (firstStage p size m first) rest,
          e.result = some .ok) →
        (Trace.final (refineStep p size) (firstStage p size m first) rest).stored =
          survivors size first rest) := by
  obtain ⟨status, hstatus, -, hscan, hready, hsub, hexact⟩ := initial_stored p h
  have hrun := refine_run p h.size_le rest (firstStage p size m first) hready
    (fun s hs => h.snapshots s (List.mem_cons_of_mem _ hs))
  rw [hscan] at hrun
  obtain ⟨-, -, hfsub, hfexact⟩ := hrun h.widths h.admitted
  constructor
  · exact hfsub.trans (hsub.filter _)
  · intro hok hall
    rw [hfexact hall, hexact (Option.some.inj (hstatus.symm.trans hok))]
    rfl

/-- A list that was cut is part of the list of a session that cut nothing. -/
theorem session_agree {p p' : Platform} {size : Nat} {m m' : Memory} {first first' : Scan}
    {rest rest' : List Scan} (h : Session p size m first rest)
    (h' : Session p' size m' first' rest') (hfirst : first.Same first')
    (hrest : List.Forall₂ Scan.Same rest rest')
    (hinitial : (initialStep p' size m' first').1 = some .ok)
    (hrun : ∀ e ∈ Trace.run (refineStep p' size) (firstStage p' size m' first') rest',
      e.result = some .ok) :
    (Trace.final (refineStep p size) (firstStage p size m first) rest).stored.Sublist
        (Trace.final (refineStep p' size) (firstStage p' size m' first') rest').stored ∧
      ((initialStep p size m first).1 = some .ok →
        (∀ e ∈ Trace.run (refineStep p size) (firstStage p size m first) rest,
          e.result = some .ok) →
        (Trace.final (refineStep p size) (firstStage p size m first) rest).stored =
          (Trace.final (refineStep p' size) (firstStage p' size m' first') rest').stored) := by
  have hall := (session_survivors h').2 hinitial hrun
  rw [survivors_same size hfirst hrest] at hall
  rw [hall]
  exact session_survivors h

/-- What the search calls answer is independent of the platform, the addresses, the
capacities and the old contents of the memory, for single calls and for sessions. -/
theorem search_independent (p p' : Platform) (size : Nat) (hmax : size ≤ p.sizeMax)
    (hmax' : size ≤ p'.sizeMax) :
    (∀ (current current' : Snapshot) (query query' : Object Query) (out out' : Output)
        (v v' : Validated) (m m' : Memory),
      vcValidateCommon p current size query out = .ok v →
      vcValidateCommon p' current' size query' out' = .ok v' →
      (query.value.relation = .equal ∨ query.value.relation = .notEqual) →
      query'.value = query.value → current'.value = current.value →
      current.value.length = size →
      ∃ status status' n n', vcSearchInitial p current size query out m = some (status, n) ∧
        vcSearchInitial p' current' size query' out' m' = some (status', n') ∧
        Agree out out' status status' n n') ∧
    (∀ (previous current previous' current' : Snapshot)
        (candidates candidates' candidateCount : Nat) (query query' : Object Query)
        (out out' : Output) (m m' : Memory),
      Accepted p previous current size candidates candidateCount query out m →
      Accepted p' previous' current' size candidates' candidateCount query' out' m' →
      query'.value = query.value → previous'.value = previous.value →
      current'.value = current.value →
      (∀ i, i < candidateCount → m'.arrays candidates' i = m.arrays candidates i) →
      previous.value.length = size → current.value.length = size →
      ∃ status status' n n',
        vcSearchRefine p previous current size candidates candidateCount query out m =
          some (status, n) ∧
        vcSearchRefine p' previous' current' size candidates' candidateCount query' out' m' =
          some (status', n') ∧
        Agree out out' status status' n n') ∧
    ∀ (m m' : Memory) (first first' : Scan) (rest rest' : List Scan),
      Session p size m first rest → Session p' size m' first' rest' → first.Same first' →
      List.Forall₂ Scan.Same rest rest' → (initialStep p' size m' first').1 = some .ok →
      (∀ e ∈ Trace.run (refineStep p' size) (firstStage p' size m' first') rest',
        e.result = some .ok) →
      (Trace.final (refineStep p size) (firstStage p size m first) rest).stored.Sublist
          (Trace.final (refineStep p' size) (firstStage p' size m' first') rest').stored ∧
        ((initialStep p size m first).1 = some .ok →
          (∀ e ∈ Trace.run (refineStep p size) (firstStage p size m first) rest,
            e.result = some .ok) →
          (Trace.final (refineStep p size) (firstStage p size m first) rest).stored =
            (Trace.final (refineStep p' size) (firstStage p' size m' first') rest').stored) := by
  refine ⟨?_, ?_, ?_⟩
  · intro current current' query query' out out' v v' m m' hv hv' hrel hquery hbytes hlen
    exact initial_agree m m' hv hv' hrel hquery hbytes hlen hmax hmax'
  · intro previous current previous' current' candidates candidates' candidateCount query query'
      out out' m m' h h' hquery hbefore hafter hcandidates hprevious hcurrent
    exact refine_agree h h' hquery hbefore hafter hcandidates hprevious hcurrent hmax hmax'
  · intro m m' first first' rest rest' h h' hfirst hrest hinitial hrun
    exact session_agree h h' hfirst hrest hinitial hrun

/-- The sample session on the 64-bit target, with its lists elsewhere. -/
def probe64 : Scan where
  snapshot := ⟨0x10001000, [1, 2, 1, 1]⟩
  query := ⟨0x10003000, ⟨.u8, .equal, 1, 1⟩⟩
  out := ⟨0x10004000, 8, 0x10005000, 0x10005008⟩

def narrow64 : Scan where
  snapshot := ⟨0x10002000, [1, 2, 3, 1]⟩
  query := ⟨0x10003000, ⟨.u8, .unchanged, 0, 1⟩⟩
  out := ⟨0x10006000, 8, 0x10005000, 0x10005008⟩

/-- Room for one offset on the 32-bit target. -/
def probeOne : Scan := { probe with out := ⟨0x4000, 1, 0x5000, 0x5008⟩ }

theorem search_independent_cut :
    (Trace.final (refineStep ilp32 4) (firstStage ilp32 4 blank probeOne) [narrow]).stored.Sublist
      (Trace.final (refineStep lp64 4) (firstStage lp64 4 blank probe64) [narrow64]).stored := by
  have hcut : Session ilp32 4 blank probeOne [narrow] :=
    { size_le := by decide
      snapshots := by decide
      relation := by decide
      widths := by decide
      initial := ⟨_, rfl⟩
      admitted := by
        simp only [Trace.run_cons, Trace.run_nil, List.mem_singleton, forall_eq]
        exact ⟨⟨_, rfl⟩, by decide⟩ }
  have hwhole : Session lp64 4 blank probe64 [narrow64] :=
    { size_le := by decide
      snapshots := by decide
      relation := by decide
      widths := by decide
      initial := ⟨_, rfl⟩
      admitted := by
        simp only [Trace.run_cons, Trace.run_nil, List.mem_singleton, forall_eq]
        exact ⟨⟨_, rfl⟩, by decide⟩ }
  obtain ⟨-, -, hsessions⟩ := search_independent ilp32 lp64 4 (by decide) (by decide)
  refine (hsessions blank blank probeOne probe64 [narrow] [narrow64] hcut hwhole ⟨rfl, rfl⟩
    (.cons ⟨rfl, rfl⟩ .nil) (by decide) ?_).1
  simp only [Trace.run_cons, Trace.run_nil, List.mem_singleton, forall_eq]
  decide

end VitaCheat.Search
