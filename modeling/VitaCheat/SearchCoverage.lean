import VitaCheat.Lib.Prefixes
import VitaCheat.SearchWindows

/-!
# How far a search that was cut is complete

A call whose list does not fit keeps the lowest offsets. Below one past the last offset
that the last cut call stored, a session has found everything, so a second session over
the rest of the memory goes on where the first was cut.
-/
namespace VitaCheat.Search

open Prefixes (below reach)

/-- Up to where a list is complete behind a call. -/
def coverage (before : Nat) (status : Option Status) (st : Stage) : Nat :=
  if status = some .truncated then reach st.stored else before

/-- A list that is complete below a bound. Behind a call that truncated there is more. -/
structure Covers (whole : List Nat) (bound : Nat) (status : Option Status) (list : List Nat) :
    Prop where
  list_eq : list = below bound whole
  missing : status = some .truncated → ∃ o ∈ whole, bound ≤ o

/-- The coverage behind a run of refines. -/
def runCoverage (p : Platform) (size : Nat) (st : Stage) (rest : List Scan) (before : Nat) : Nat :=
  (Trace.run (refineStep p size) st rest).foldl (fun c e => coverage c e.result e.after) before

/-- The coverage of a session, as its caller can read it off the answers. -/
def covered (p : Platform) (size : Nat) (m : Memory) (first : Scan) (rest : List Scan) : Nat :=
  runCoverage p size (firstStage p size m first) rest
    (coverage size (initialStep p size m first).1 (firstStage p size m first))

/-- The answer of the last call. -/
def lastStatus (before : Option Status) (es : List (Trace.Entry Stage Scan (Option Status))) :
    Option Status :=
  es.foldl (fun _ e => e.result) before

/-- A delivered list is complete up to its coverage, if what was delivered was complete. -/
theorem Delivered.covers {m m' : Memory} {s : Scan} {xs : List U32} {status : Status}
    (h : Delivered m s.out xs status m') (hne : s.out.written ≠ s.out.totalMatches)
    {whole : List Nat} (hinc : whole.Pairwise (· < ·)) {before : Nat}
    (hxs : xs.map BitVec.toNat = below before whole) :
    Covers whole (coverage before (some status) ⟨s, m'⟩) (some status) (Stage.stored ⟨s, m'⟩) ∧
      coverage before (some status) ⟨s, m'⟩ ≤ before := by
  have hstored : Stage.stored ⟨s, m'⟩ = (below before whole).take s.out.capacity := by
    rw [← hxs]
    exact h.stored hne
  have hincreasing := hinc.sublist (Prefixes.below_sublist before whole)
  rcases h.status_cases with rfl | rfl
  · refine ⟨⟨?_, fun hcut => by cases hcut⟩, Nat.le_refl _⟩
    rw [Stage.stored, h.stored_of_ok hne rfl]
    exact hxs
  · have hbelow : ∀ x ∈ Stage.stored ⟨s, m'⟩, x < before := by
      intro x hx
      rw [hstored] at hx
      exact of_decide_eq_true (List.mem_filter.mp (List.mem_of_mem_take hx)).2
    have hreach := Prefixes.reach_le hbelow
    have hcut := Prefixes.take_below hincreasing s.out.capacity
    rw [← hstored, Prefixes.below_below hreach] at hcut
    refine ⟨⟨hcut.symm, fun _ => ?_⟩, hreach⟩
    -- the first entry that did not fit
    have hroom : s.out.capacity < (below before whole).length := by
      rw [← hxs, List.length_map]
      exact (truncated_iff h).mp rfl
    refine ⟨(below before whole)[s.out.capacity],
      List.mem_of_mem_filter (List.getElem_mem hroom), Prefixes.reach_le ?_⟩
    intro x hx
    rw [hstored] at hx
    exact Prefixes.take_lt hincreasing hroom hx

/-- One refine of a list that is complete below a bound. -/
theorem refineStep_covers (p : Platform) {size : Nat} {st : Stage} {s : Scan}
    (hmax : size ≤ p.sizeMax) (hlen : s.snapshot.value.length = size) (hr : Ready p size st)
    (hwidth : vcScalarWidth s.query.value.type ≤ vcScalarWidth st.scan.query.value.type)
    (ha : Admitted p size st s) {whole : List Nat} (hinc : whole.Pairwise (· < ·)) {before : Nat}
    (hstored : st.stored = below before whole) {status : Option Status} {st' : Stage}
    (hstep : refineStep p size st s = (status, st')) :
    Covers (whole.filter fun o =>
          decide (s.query.value.Holds st.scan.snapshot.value s.snapshot.value o))
        (coverage before status st') status st'.stored ∧
      coverage before status st' ≤ before := by
  obtain ⟨answer, m', hrun, hd⟩ := refine_delivered p hmax hlen hr hwidth ha
  obtain ⟨v, hv⟩ := ha.common
  obtain ⟨rfl, rfl⟩ := Prod.mk.inj (hstep.symm.trans hrun)
  apply hd.covers (validateCommon_ok hv).counts_ne (hinc.sublist List.filter_sublist)
  rw [Prefixes.below_filter, ← hstored, ← candidates_toNat, List.filter_map]
  rfl

/-- The queries of a session filter one after the other. -/
theorem filter_refinedBy (previous s : Scan) (rest : List Scan) (xs : List Nat) :
    (xs.filter fun o => decide (s.query.value.Holds previous.snapshot.value s.snapshot.value
        o)).filter (fun o => decide (RefinedBy o s rest)) =
      xs.filter fun o => decide (RefinedBy o previous (s :: rest)) := by
  rw [List.filter_filter]
  apply List.filter_congr
  intro o _
  rw [← Bool.decide_and, decide_eq_decide, and_comm]
  rfl

/-- A run of refines keeps its list complete below a bound that never rises. -/
theorem refine_covers (p : Platform) {size : Nat} (hmax : size ≤ p.sizeMax) (rest : List Scan)
    (st : Stage) (hr : Ready p size st) (hlen : ∀ s ∈ rest, s.snapshot.value.length = size)
    (hwidths : (st.scan :: rest).Pairwise fun a b =>
      vcScalarWidth b.query.value.type ≤ vcScalarWidth a.query.value.type)
    (ha : ∀ e ∈ Trace.run (refineStep p size) st rest, Admitted p size e.before e.input)
    {whole : List Nat} (hinc : whole.Pairwise (· < ·)) {before : Nat} {status : Option Status}
    (h : Covers whole before status st.stored) :
    Covers (whole.filter fun o => decide (RefinedBy o st.scan rest))
        (runCoverage p size st rest before)
        (lastStatus status (Trace.run (refineStep p size) st rest))
        (Trace.final (refineStep p size) st rest).stored ∧
      runCoverage p size st rest before ≤ before := by
  induction rest generalizing st whole before status with
  | nil =>
    have hall : (whole.filter fun o => decide (RefinedBy o st.scan [])) = whole :=
      List.filter_eq_self.mpr fun o _ => decide_eq_true trivial
    rw [hall]
    exact ⟨h, Nat.le_refl _⟩
  | cons s rest ih =>
    simp only [Trace.run_cons, List.mem_cons, forall_eq_or_imp] at ha
    obtain ⟨hfirst, hothers⟩ := List.pairwise_cons.mp hwidths
    obtain ⟨answer, m', hrun, -, hready, -, -⟩ :=
      refineStep_stored p hmax (hlen s (by simp)) hr (hfirst s (by simp)) ha.1
    obtain ⟨hstep, hlower⟩ := refineStep_covers p hmax (hlen s (by simp)) hr
      (hfirst s (by simp)) ha.1 hinc h.list_eq hrun
    rw [hrun] at ha
    obtain ⟨hfinal, hfinal_le⟩ := ih ⟨s, m'⟩ hready (fun x hx => hlen x (by simp [hx])) hothers
      ha.2 (hinc.sublist List.filter_sublist) hstep
    rw [runCoverage, lastStatus, Trace.run_cons, Trace.final_cons, List.foldl_cons,
      List.foldl_cons, Trace.entry, hrun, ← filter_refinedBy]
    exact ⟨hfinal, Nat.le_trans hfinal_le hlower⟩

/-- The answer of the last call of a session. -/
def sessionStatus (p : Platform) (size : Nat) (m : Memory) (first : Scan) (rest : List Scan) :
    Option Status :=
  lastStatus (initialStep p size m first).1
    (Trace.run (refineStep p size) (firstStage p size m first) rest)

/-- The list of a session is the survivors below its coverage. -/
theorem session_covers {p : Platform} {size : Nat} {m : Memory} {first : Scan}
    {rest : List Scan} (h : Session p size m first rest) :
    Covers (survivors size first rest) (covered p size m first rest)
        (sessionStatus p size m first rest)
        (Trace.final (refineStep p size) (firstStage p size m first) rest).stored ∧
      covered p size m first rest ≤ size := by
  obtain ⟨v, hv⟩ := h.initial
  have hc := validateCommon_ok hv
  have hlen := h.snapshots first (by simp)
  obtain ⟨status, m', hrun, hd⟩ := initial_delivered p m hv h.relation hlen h.size_le
  obtain ⟨-, -, -, -, hready, -, -⟩ := initial_stored p h
  have hstep : initialStep p size m first = (some status, ⟨first, m'⟩) := by
    rw [initialStep, hrun]
  have hinc := initialMatches_increasing first.query.value first.snapshot.value size
  have hall : below size (initialMatches first.query.value first.snapshot.value size) =
      initialMatches first.query.value first.snapshot.value size :=
    Prefixes.below_all fun o ho => List.mem_range.mp (List.mem_filter.mp ho).1
  obtain ⟨hfirst, hfirst_le⟩ := hd.covers hc.counts_ne hinc
    ((initialMatches_cast first.query.value first.snapshot.value
      (representable_le h.size_le hc.representable) hc.width_ne).trans hall.symm)
  have hadmitted := h.admitted
  rw [firstStage, hstep] at hready hadmitted
  obtain ⟨hfinal, hfinal_le⟩ := refine_covers p h.size_le rest ⟨first, m'⟩ hready
    (fun s hs => h.snapshots s (List.mem_cons_of_mem _ hs)) h.widths hadmitted hinc hfirst
  rw [covered, sessionStatus, firstStage, hstep]
  exact ⟨hfinal, Nat.le_trans hfinal_le hfirst_le⟩

/-- The calls up to any point of a session are a session. -/
theorem Session.part {p : Platform} {size : Nat} {m : Memory} {first : Scan}
    {done more : List Scan} (h : Session p size m first (done ++ more)) :
    Session p size m first done where
  size_le := h.size_le
  snapshots s hs := h.snapshots s (by
    rw [← List.cons_append]
    exact List.mem_append_left _ hs)
  relation := h.relation
  widths := h.widths.sublist ((List.sublist_append_left done more).cons_cons first)
  initial := h.initial
  admitted e he := h.admitted e (by
    rw [Trace.run_append]
    exact List.mem_append_left _ he)

theorem runCoverage_append (p : Platform) (size : Nat) (st : Stage) (done more : List Scan)
    (before : Nat) : runCoverage p size st (done ++ more) before =
      runCoverage p size (Trace.final (refineStep p size) st done) more
        (runCoverage p size st done before) := by
  rw [runCoverage, runCoverage, runCoverage, Trace.run_append, List.foldl_append]

theorem refineStep_scan (p : Platform) (size : Nat) (st : Stage) (s : Scan) :
    (refineStep p size st s).2.scan = s := by
  rw [refineStep]
  split <;> rfl

/-- The last query of a part of a session still bounds the widths of the later ones. -/
theorem final_pairwise {r : Scan → Scan → Prop} (p : Platform) (size : Nat) (st : Stage)
    (done more : List Scan) (h : (st.scan :: (done ++ more)).Pairwise r) :
    ((Trace.final (refineStep p size) st done).scan :: more).Pairwise r := by
  induction done generalizing st with
  | nil => exact h
  | cons s done ih =>
    rw [Trace.final_cons]
    apply ih
    rw [refineStep_scan]
    exact (List.pairwise_cons.mp h).2

/-- Later calls never raise the coverage. -/
theorem covered_later {p : Platform} {size : Nat} {m : Memory} {first : Scan}
    {done more : List Scan} (h : Session p size m first (done ++ more)) :
    covered p size m first (done ++ more) ≤ covered p size m first done := by
  obtain ⟨hcovers, -⟩ := session_covers h.part
  obtain ⟨-, -, -, hscan, hready, -, -⟩ := initial_stored p h.part
  have hadmitted := h.admitted
  rw [Trace.run_append] at hadmitted
  have hwidths := h.widths
  rw [← hscan] at hwidths
  obtain ⟨-, hlast, -, -⟩ := refine_run p h.size_le done (firstStage p size m first) hready
    (fun s hs => h.part.snapshots s (List.mem_cons_of_mem _ hs)) (hscan.symm ▸ h.part.widths)
    h.part.admitted
  obtain ⟨-, hle⟩ := refine_covers p h.size_le more _ hlast
    (fun s hs => h.snapshots s (by simp [hs]))
    (final_pairwise p size (firstStage p size m first) done more hwidths)
    (fun e he => hadmitted e (List.mem_append_right _ he))
    (survivors_exact h.width_ne).increasing hcovers
  rw [covered, runCoverage_append]
  exact hle

/-- Nothing is cut in a session none of whose calls truncates. -/
theorem covered_whole {p : Platform} {size : Nat} {m : Memory} {first : Scan} {rest : List Scan}
    (hfirst : (initialStep p size m first).1 ≠ some .truncated)
    (hrest : ∀ e ∈ Trace.run (refineStep p size) (firstStage p size m first) rest,
      e.result ≠ some .truncated) : covered p size m first rest = size := by
  rw [covered, coverage, if_neg hfirst, runCoverage]
  generalize Trace.run (refineStep p size) (firstStage p size m first) rest = es at hrest
  induction es with
  | nil => rfl
  | cons e es ih =>
    rw [List.foldl_cons, coverage, if_neg (hrest e (List.mem_cons_self ..))]
    exact ih fun e' he' => hrest e' (List.mem_cons_of_mem _ he')

/-- At every point of every session the list is exactly what an untruncated session would
have found below the coverage, which the caller reads off the answers: one past the last
offset that the last truncated call stored, or the size. The coverage never rises, and
behind a truncated call there is an offset left out. -/
theorem search_covered (p : Platform) (size : Nat) (m : Memory) (first : Scan)
    (rest : List Scan) (h : Session p size m first rest) :
    ∀ done more, rest = done ++ more →
      ∃ untruncated, Exact size first done untruncated ∧
        (Trace.final (refineStep p size) (firstStage p size m first) done).stored =
          untruncated.filter (fun o => decide (o < covered p size m first done)) ∧
        (sessionStatus p size m first done = some .truncated →
          ∃ o ∈ untruncated, covered p size m first done ≤ o) ∧
        covered p size m first rest ≤ covered p size m first done ∧
        covered p size m first done ≤ size ∧
        ((initialStep p size m first).1 ≠ some .truncated →
          (∀ e ∈ Trace.run (refineStep p size) (firstStage p size m first) done,
            e.result ≠ some .truncated) →
          covered p size m first done = size) := by
  rintro done more rfl
  obtain ⟨hcovers, hle⟩ := session_covers h.part
  exact ⟨survivors size first done, survivors_exact h.width_ne, hcovers.list_eq,
    hcovers.missing, covered_later h, hle, covered_whole⟩

theorem cut_session : Session ilp32 4 blank probeOne [narrow] where
  size_le := by decide
  snapshots := by decide
  relation := by decide
  widths := by decide
  initial := ⟨_, rfl⟩
  admitted := by
    simp only [Trace.run_cons, Trace.run_nil, List.mem_singleton, forall_eq]
    exact ⟨⟨_, rfl⟩, by decide⟩

theorem search_covered_cut :
    covered ilp32 4 blank probeOne [narrow] = 1 ∧
      ∃ untruncated, Exact 4 probeOne [narrow] untruncated ∧
        (Trace.final (refineStep ilp32 4) (firstStage ilp32 4 blank probeOne) [narrow]).stored =
          untruncated.filter (fun o => decide (o < 1)) := by
  have hcovered : covered ilp32 4 blank probeOne [narrow] = 1 := by decide
  obtain ⟨untruncated, hexact, hlist, -⟩ :=
    search_covered ilp32 4 blank probeOne [narrow] cut_session [narrow] [] rfl
  rw [hcovered] at hlist
  exact ⟨hcovered, untruncated, hexact, hlist⟩

end VitaCheat.Search
