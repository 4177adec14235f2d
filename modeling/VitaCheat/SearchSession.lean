import VitaCheat.Lib.Trace
import VitaCheat.SearchRefine

/-!
# Search sessions

An initial scan followed by any number of refine steps, each on the list the
step before it wrote. The output contract of one call is the input contract of
the next, so the stored list is the initial list filtered by every query.
-/
namespace VitaCheat.Search

/-- One call of a session. -/
structure Scan where
  snapshot : Snapshot
  query : Object Query
  out : Output

/-- The last call made and the memory it left. -/
structure Stage where
  scan : Scan
  memory : Memory

def Stage.stored (st : Stage) : List Nat := Search.stored st.memory st.scan.out

/-- The number of candidates a stage hands on. -/
def Stage.count (st : Stage) : Nat := st.memory.sizes st.scan.out.written

/-- Refine the stored list against the next snapshot. -/
def refineStep (p : Platform) (size : Nat) (st : Stage) (s : Scan) : Option Status × Stage :=
  match vcSearchRefine p st.scan.snapshot s.snapshot size st.scan.out.outOffsets st.count s.query
    s.out st.memory with
  | some (status, m) => (some status, ⟨s, m⟩)
  | none => (none, ⟨s, st.memory⟩)

/-- The initial scan of a session. -/
def initialStep (p : Platform) (size : Nat) (m : Memory) (s : Scan) : Option Status × Stage :=
  match vcSearchInitial p s.snapshot size s.query s.out m with
  | some (status, m) => (some status, ⟨s, m⟩)
  | none => (none, ⟨s, m⟩)

/-- The code's argument checks accept the refine call. -/
structure Admitted (p : Platform) (size : Nat) (st : Stage) (s : Scan) : Prop where
  common : ∃ v, vcValidateCommon p s.snapshot size s.query s.out = .ok v
  overlaps : refineOverlaps p st.scan.snapshot size st.scan.out.outOffsets
    (st.count * offsetSize) (s.out.capacity * offsetSize) s.out = false

/-- What a stage promises the next call. -/
structure Ready (p : Platform) (size : Nat) (st : Stage) : Prop where
  snapshot_ne : st.scan.snapshot.address = 0 → size = 0
  out_ne : st.scan.out.outOffsets = 0 → st.scan.out.capacity = 0
  fits : st.scan.out.capacity * offsetSize ≤ p.sizeMax
  snapshot : st.scan.snapshot.value.length = size
  count_le : st.count ≤ st.scan.out.capacity
  increasing : st.stored.Pairwise (· < ·)
  inside : ∀ o ∈ st.stored, o + vcScalarWidth st.scan.query.value.type ≤ size

/-- A call that delivers an increasing list of windows leaves a ready stage. -/
theorem Delivered.ready {p : Platform} {size : Nat} {s : Scan} {v : Validated} {m m' : Memory}
    {xs : List U32} {status : Status} (h : Delivered m s.out xs status m')
    (hc : Common p s.snapshot size s.query s.out v) (hlen : s.snapshot.value.length = size)
    (hinc : (xs.map BitVec.toNat).Pairwise (· < ·))
    (hin : ∀ x ∈ xs, x.toNat + vcScalarWidth s.query.value.type ≤ size) :
    Ready p size ⟨s, m'⟩ where
  snapshot_ne := hc.current_ne
  out_ne := hc.out_ne
  fits := hc.fits
  snapshot := hlen
  count_le := by
    simp only [Stage.count, h.sizes]
    rw [Function.update_of_ne hc.counts_ne, Function.update_self]
    exact Nat.min_le_left _ _
  increasing := by
    rw [Stage.stored, h.stored hc.counts_ne]
    exact hinc.sublist (List.take_sublist _ _)
  inside := by
    rw [Stage.stored, h.stored hc.counts_ne]
    intro o ho
    obtain ⟨x, hx, rfl⟩ := List.mem_map.mp (List.mem_of_mem_take ho)
    exact hin x hx

/-- The candidates of a ready stage as 32-bit words. -/
def Stage.candidates (st : Stage) : List U32 :=
  (List.range st.count).map (st.memory.arrays st.scan.out.outOffsets)

theorem candidates_toNat (st : Stage) : st.candidates.map BitVec.toNat = st.stored := by
  rw [Stage.candidates, Stage.stored, Search.stored, List.map_map]
  rfl

/-- An admitted call on a ready stage is accepted. -/
theorem admitted_accepted (p : Platform) {size : Nat} {st : Stage} {s : Scan}
    (hmax : size ≤ p.sizeMax) (hr : Ready p size st)
    (hwidth : vcScalarWidth s.query.value.type ≤ vcScalarWidth st.scan.query.value.type)
    (ha : Admitted p size st s) :
    Accepted p st.scan.snapshot s.snapshot size st.scan.out.outOffsets st.count s.query s.out
      st.memory where
  common := ha.common
  previous_ne := hr.snapshot_ne
  windows := by
    apply (validateCandidates_iff st.memory hmax ?_).mpr
    · refine ⟨(candidates_toNat st).symm ▸ hr.increasing, ?_⟩
      intro c hc
      have hmem := hr.inside c.toNat (candidates_toNat st ▸ List.mem_map_of_mem hc)
      omega
    · intro hnull
      have := hr.count_le
      have := hr.out_ne hnull
      omega
  fits := Nat.le_trans (Nat.mul_le_mul_right _ hr.count_le) hr.fits
  overlaps := ha.overlaps

/-- An admitted refine filters the stored list and stores what fits. -/
theorem refine_delivered (p : Platform) {size : Nat} {st : Stage} {s : Scan}
    (hmax : size ≤ p.sizeMax) (hlen : s.snapshot.value.length = size) (hr : Ready p size st)
    (hwidth : vcScalarWidth s.query.value.type ≤ vcScalarWidth st.scan.query.value.type)
    (ha : Admitted p size st s) :
    ∃ status m', refineStep p size st s = (some status, ⟨s, m'⟩) ∧
      Delivered st.memory s.out (st.candidates.filter fun c =>
        decide (s.query.value.Holds st.scan.snapshot.value s.snapshot.value c.toNat)) status m' := by
  obtain ⟨status, m', hrun, hd⟩ :=
    refine_filtered (admitted_accepted p hmax hr hwidth ha) hmax hr.snapshot hlen
  exact ⟨status, m', by rw [refineStep, hrun], hd⟩

/-- The pairs of neighbouring snapshots satisfy the refine queries at an offset. -/
def RefinedBy (o : Nat) : Scan → List Scan → Prop
  | _, [] => True
  | previous, s :: rest =>
    s.query.value.Holds previous.snapshot.value s.snapshot.value o ∧ RefinedBy o s rest

instance RefinedBy.decidable (o : Nat) : (first : Scan) → (rest : List Scan) →
    Decidable (RefinedBy o first rest)
  | _, [] => inferInstanceAs (Decidable True)
  | previous, s :: rest =>
    have := RefinedBy.decidable o s rest
    inferInstanceAs (Decidable
      (s.query.value.Holds previous.snapshot.value s.snapshot.value o ∧ RefinedBy o s rest))

/-- One refine step on a ready stage. -/
theorem refineStep_stored (p : Platform) {size : Nat} {st : Stage} {s : Scan}
    (hmax : size ≤ p.sizeMax) (hlen : s.snapshot.value.length = size) (hr : Ready p size st)
    (hwidth : vcScalarWidth s.query.value.type ≤ vcScalarWidth st.scan.query.value.type)
    (ha : Admitted p size st s) :
    ∃ status m', refineStep p size st s = (some status, ⟨s, m'⟩) ∧
      (status = .ok ∨ status = .truncated) ∧ Ready p size ⟨s, m'⟩ ∧
      (Stage.stored ⟨s, m'⟩).Sublist (st.stored.filter fun o =>
        decide (s.query.value.Holds st.scan.snapshot.value s.snapshot.value o)) ∧
      (status = .ok → Stage.stored ⟨s, m'⟩ = st.stored.filter fun o =>
        decide (s.query.value.Holds st.scan.snapshot.value s.snapshot.value o)) := by
  obtain ⟨status, m', hrun, hd⟩ := refine_delivered p hmax hlen hr hwidth ha
  obtain ⟨v, hv⟩ := ha.common
  have hc := validateCommon_ok hv
  have hlist : (st.candidates.filter fun c => decide (s.query.value.Holds
        st.scan.snapshot.value s.snapshot.value c.toNat)).map BitVec.toNat =
      st.stored.filter fun o =>
        decide (s.query.value.Holds st.scan.snapshot.value s.snapshot.value o) := by
    rw [← candidates_toNat, List.filter_map]
    rfl
  refine ⟨status, m', hrun, hd.status_cases, ?_, ?_, ?_⟩
  · apply hd.ready hc hlen
    · rw [hlist]
      exact hr.increasing.sublist List.filter_sublist
    · intro x hx
      have hmem : x.toNat ∈ st.stored := by
        rw [← candidates_toNat]
        exact List.mem_map_of_mem (List.mem_of_mem_filter hx)
      have := hr.inside _ hmem
      omega
  · rw [Stage.stored, hd.stored hc.counts_ne, hlist]
    exact List.take_sublist _ _
  · intro hok
    rw [Stage.stored, hd.stored_of_ok hc.counts_ne hok, hlist]

/-- A run of refine steps filters the stored list by every query of the run. -/
theorem refine_run (p : Platform) {size : Nat} (hmax : size ≤ p.sizeMax) (rest : List Scan)
    (st : Stage) (hr : Ready p size st) (hlen : ∀ s ∈ rest, s.snapshot.value.length = size)
    (hwidths : (st.scan :: rest).Pairwise fun a b =>
      vcScalarWidth b.query.value.type ≤ vcScalarWidth a.query.value.type)
    (ha : ∀ e ∈ Trace.run (refineStep p size) st rest, Admitted p size e.before e.input) :
    (∀ e ∈ Trace.run (refineStep p size) st rest,
        e.result = some .ok ∨ e.result = some .truncated) ∧
      Ready p size (Trace.final (refineStep p size) st rest) ∧
      (Trace.final (refineStep p size) st rest).stored.Sublist
        (st.stored.filter fun o => decide (RefinedBy o st.scan rest)) ∧
      ((∀ e ∈ Trace.run (refineStep p size) st rest, e.result = some .ok) →
        (Trace.final (refineStep p size) st rest).stored =
          st.stored.filter fun o => decide (RefinedBy o st.scan rest)) := by
  induction rest generalizing st with
  | nil =>
    have hall : (st.stored.filter fun o => decide (RefinedBy o st.scan [])) = st.stored :=
      List.filter_eq_self.mpr fun o _ => decide_eq_true trivial
    simp only [Trace.run_nil, Trace.final_nil, hall]
    exact ⟨by simp, hr, List.Sublist.refl _, fun _ => trivial⟩
  | cons s rest ih =>
    simp only [Trace.run_cons, List.mem_cons, forall_eq_or_imp] at ha
    obtain ⟨hfirst, hothers⟩ := List.pairwise_cons.mp hwidths
    obtain ⟨status, m', hrun, hstatus, hready, hsub, hexact⟩ := refineStep_stored p hmax
      (hlen s (by simp)) hr (hfirst s (by simp)) ha.1
    have hstage : (refineStep p size st s).2 = ⟨s, m'⟩ := by rw [hrun]
    rw [hstage] at ha
    obtain ⟨hres, hfinal, hfsub, hfexact⟩ := ih ⟨s, m'⟩ hready
      (fun x hx => hlen x (by simp [hx])) hothers ha.2
    have hboth : (st.stored.filter fun o => decide
          (s.query.value.Holds st.scan.snapshot.value s.snapshot.value o)).filter
            (fun o => decide (RefinedBy o s rest)) =
        st.stored.filter fun o => decide (RefinedBy o st.scan (s :: rest)) := by
      rw [List.filter_filter]
      apply List.filter_congr
      intro o _
      rw [Bool.eq_iff_iff, Bool.and_eq_true, decide_eq_true_iff, decide_eq_true_iff,
        decide_eq_true_iff, and_comm]
      rfl
    simp only [Trace.run_cons, Trace.final_cons, List.mem_cons, forall_eq_or_imp,
      Trace.entry, hrun, Option.some.injEq]
    refine ⟨⟨hstatus, hres⟩, hfinal, ?_, ?_⟩
    · rw [← hboth]
      exact hfsub.trans (hsub.filter _)
    · rintro ⟨hok, hall⟩
      rw [← hboth, hfexact hall, hexact hok]

/-- The stage after the initial scan. -/
def firstStage (p : Platform) (size : Nat) (m : Memory) (first : Scan) : Stage :=
  (initialStep p size m first).2

/-- A session of accepted calls on snapshots of one size, with scalar widths
that never increase. -/
structure Session (p : Platform) (size : Nat) (m : Memory) (first : Scan) (rest : List Scan) :
    Prop where
  size_le : size ≤ p.sizeMax
  snapshots : ∀ s ∈ first :: rest, s.snapshot.value.length = size
  relation : first.query.value.relation = .equal ∨ first.query.value.relation = .notEqual
  widths : (first :: rest).Pairwise fun a b =>
    vcScalarWidth b.query.value.type ≤ vcScalarWidth a.query.value.type
  initial : ∃ v, vcValidateCommon p first.snapshot size first.query first.out = .ok v
  admitted : ∀ e ∈ Trace.run (refineStep p size) (firstStage p size m first) rest,
    Admitted p size e.before e.input

/-- An offset that satisfies every query of a session. -/
def Survives (size : Nat) (first : Scan) (rest : List Scan) (o : Nat) : Prop :=
  (∃ k, o = k * first.query.value.stride.toNat) ∧
    o + vcScalarWidth first.query.value.type ≤ size ∧
    first.query.value.Holds [] first.snapshot.value o ∧ RefinedBy o first rest

/-- The list is exactly the surviving offsets, in ascending order. -/
structure Exact (size : Nat) (first : Scan) (rest : List Scan) (xs : List Nat) : Prop where
  increasing : xs.Pairwise (· < ·)
  mem : ∀ o, o ∈ xs ↔ Survives size first rest o

/-- The initial matches that satisfy the refine queries. -/
def survivors (size : Nat) (first : Scan) (rest : List Scan) : List Nat :=
  (initialMatches first.query.value first.snapshot.value size).filter fun o =>
    decide (RefinedBy o first rest)

theorem survivors_exact {size : Nat} {first : Scan} {rest : List Scan}
    (hw : vcScalarWidth first.query.value.type ≠ 0) :
    Exact size first rest (survivors size first rest) where
  increasing := (initialMatches_increasing _ _ _).sublist List.filter_sublist
  mem := by
    intro o
    simp only [survivors, initialMatches, List.mem_filter, List.mem_range, decide_eq_true_eq,
      Survives, dvd_iff_exists_eq_mul_left]
    constructor
    · rintro ⟨⟨-, hd, hin, hh⟩, hr⟩
      exact ⟨hd, hin, hh, hr⟩
    · rintro ⟨hd, hin, hh, hr⟩
      exact ⟨⟨by omega, hd, hin, hh⟩, hr⟩

/-- The initial scan of a session leaves a ready stage. -/
theorem initial_stored (p : Platform) {size : Nat} {m : Memory} {first : Scan}
    {rest : List Scan} (h : Session p size m first rest) :
    ∃ status, (initialStep p size m first).1 = some status ∧
      (status = .ok ∨ status = .truncated) ∧ (firstStage p size m first).scan = first ∧
      Ready p size (firstStage p size m first) ∧
      (firstStage p size m first).stored.Sublist
        (initialMatches first.query.value first.snapshot.value size) ∧
      (status = .ok → (firstStage p size m first).stored =
        initialMatches first.query.value first.snapshot.value size) := by
  obtain ⟨v, hv⟩ := h.initial
  have hc := validateCommon_ok hv
  have hlen := h.snapshots first (by simp)
  obtain ⟨status, m', hrun, hd⟩ := initial_delivered p m hv h.relation hlen h.size_le
  have hsize := representable_le h.size_le hc.representable
  have hinside : ∀ o ∈ initialMatches first.query.value first.snapshot.value size,
      o + vcScalarWidth first.query.value.type ≤ size := by
    intro o ho
    exact (of_decide_eq_true (List.mem_filter.mp ho).2).2.1
  have hmap := initialMatches_cast first.query.value first.snapshot.value hsize
    hc.width_ne
  have hstep : initialStep p size m first = (some status, ⟨first, m'⟩) := by
    rw [initialStep, hrun]
  rw [firstStage, hstep]
  refine ⟨status, rfl, hd.status_cases, rfl, ?_, ?_, ?_⟩
  · apply hd.ready hc hlen
    · rw [hmap]
      exact initialMatches_increasing _ _ _
    · intro x hx
      exact hinside x.toNat (hmap ▸ List.mem_map_of_mem hx)
  · rw [Stage.stored, hd.stored hc.counts_ne, hmap]
    exact List.take_sublist _ _
  · intro hok
    rw [Stage.stored, hd.stored_of_ok hc.counts_ne hok, hmap]

/-- Every session terminates in bounds and never meets INVALID_CANDIDATES. Its
lists are increasing, sound for every query so far and part of the untruncated
result, and equal to it while nothing was truncated. -/
theorem search_session (p : Platform) (size : Nat) (m : Memory) (first : Scan) (rest : List Scan)
    (h : Session p size m first rest) :
    ((initialStep p size m first).1 = some .ok ∨
        (initialStep p size m first).1 = some .truncated) ∧
      (∀ e ∈ Trace.run (refineStep p size) (firstStage p size m first) rest,
        e.result = some .ok ∨ e.result = some .truncated) ∧
      ∀ done more, rest = done ++ more →
        ∃ untruncated, Exact size first done untruncated ∧
          (Trace.final (refineStep p size) (firstStage p size m first) done).stored.Sublist
            untruncated ∧
          ((initialStep p size m first).1 = some .ok →
            (∀ e ∈ Trace.run (refineStep p size) (firstStage p size m first) done,
              e.result = some .ok) →
            (Trace.final (refineStep p size) (firstStage p size m first) done).stored =
              untruncated) := by
  obtain ⟨status, hstatus, hcases, hscan, hready, hsub, hexact⟩ := initial_stored p h
  have hruns := fun done hlen hwidths =>
    refine_run p h.size_le done (firstStage p size m first) hready hlen hwidths
  rw [hscan] at hruns
  have hw : vcScalarWidth first.query.value.type ≠ 0 := by
    obtain ⟨v, hv⟩ := h.initial
    exact (validateCommon_ok hv).width_ne
  refine ⟨?_, ?_, ?_⟩
  · rw [hstatus, Option.some.injEq, Option.some.injEq]
    exact hcases
  · exact (hruns rest (fun s hs => h.snapshots s (by simp [hs])) h.widths h.admitted).1
  · intro done more hrest
    have hpart : (first :: done).Sublist (first :: rest) := by
      rw [hrest]
      exact (List.sublist_append_left done more).cons_cons first
    obtain ⟨-, -, hfsub, hfexact⟩ := hruns done
      (fun s hs => h.snapshots s (by simp [hrest, hs])) (h.widths.sublist hpart) (by
        intro e he
        apply h.admitted
        rw [hrest, Trace.run_append]
        exact List.mem_append_left _ he)
    refine ⟨survivors size first done, survivors_exact hw, hfsub.trans (hsub.filter _), ?_⟩
    intro hok hall
    rw [hfexact hall, hexact (Option.some.inj (hstatus.symm.trans hok))]
    rfl

/-- Find the byte 1 at every offset of four bytes. -/
def probe : Scan where
  snapshot := ⟨0x1000, [1, 2, 1, 1]⟩
  query := ⟨0x3000, ⟨.u8, .equal, 1, 1⟩⟩
  out := ⟨0x4000, 4, 0x5000, 0x5008⟩

/-- Keep in place what has not changed. -/
def narrow : Scan where
  snapshot := ⟨0x2000, [1, 2, 3, 1]⟩
  query := ⟨0x3000, ⟨.u8, .unchanged, 0, 1⟩⟩
  out := ⟨0x4000, 4, 0x5000, 0x5008⟩

def blank : Memory := ⟨fun _ _ => 0, fun _ => 0⟩

theorem search_session_narrowed :
    (firstStage ilp32 4 blank probe).stored = [0, 2, 3] ∧
      ∃ untruncated, Exact 4 probe [narrow] untruncated ∧
        (Trace.final (refineStep ilp32 4) (firstStage ilp32 4 blank probe) [narrow]).stored.Sublist
          untruncated := by
  have hsession : Session ilp32 4 blank probe [narrow] :=
    { size_le := by decide
      snapshots := by decide
      relation := by decide
      widths := by decide
      initial := ⟨_, rfl⟩
      admitted := by
        simp only [Trace.run_cons, Trace.run_nil, List.mem_singleton, forall_eq]
        exact ⟨⟨_, rfl⟩, by decide⟩ }
  obtain ⟨-, -, hlists⟩ := search_session ilp32 4 blank probe [narrow] hsession
  obtain ⟨untruncated, hexact, hsub, -⟩ := hlists [narrow] [] rfl
  exact ⟨by decide, untruncated, hexact, hsub⟩

end VitaCheat.Search
