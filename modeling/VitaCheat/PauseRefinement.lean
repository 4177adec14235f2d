import Mathlib.Data.List.TakeWhile
import VitaCheat.PauseAccount

/-!
# The pause transaction refines the holding

A state means what it holds: the slots whose owned bit is set, as a set of threads.
Every call of every run answers, and issues the callbacks, that the call on the
holding does, for some answers of its callbacks; so the retries of the holding are
those of the code.
-/
namespace VitaCheat.Pause

variable {ω : Type}

/-- The threads in the owned slots. -/
def State.ownedThreads (s : State) : Finset ThreadId := (s.ownedSlots.map s.threadId).toFinset

/-- What a state means. -/
def State.meaning (s : State) : Option Holding :=
  if s.active then holding s.targetGeneration s.startedMs s.deadlineMs s.ownedThreads else none

/-- What a call did, in terms of holdings. -/
def effect (m : Machine ω) (r : Status × Machine ω) : Effect :=
  ((r.1, traceOf m r.2), r.2.state.meaning)

theorem mem_ownedThreads {s : State} {t : ThreadId} :
    t ∈ s.ownedThreads ↔ ∃ i, s.owns i = true ∧ s.threadId i = t := by
  simp only [State.ownedThreads, List.mem_toFinset, List.mem_map, mem_ownedSlots]

/-- The threads of the meaning are those that are held. -/
theorem mem_meaning {s : State} {t : ThreadId} :
    t ∈ heldThreads s.meaning ↔ s.holds t = true := by
  rw [holds_iff, ← mem_ownedThreads, State.meaning]
  cases s.active with
  | false => simp [heldThreads]
  | true => simp [heldThreads_holding]

theorem meaning_armed {s : State} (h : Armed s) (hmask : s.ownedMask ≠ 0) :
    ∃ hd, s.meaning = some hd := by
  have hsome : s.ownedThreads.Nonempty := by
    by_contra hnone
    apply hmask
    refine (BitSet.eq_zero_iff _).mpr fun i => ?_
    rw [Bool.eq_false_iff]
    intro hi
    exact hnone ⟨s.threadId i, mem_ownedThreads.mpr ⟨i, hi, rfl⟩⟩
  exact ⟨⟨s.targetGeneration, s.startedMs, s.deadlineMs, s.ownedThreads, hsome⟩,
    by rw [State.meaning, h.active, if_pos rfl, holding, dif_pos hsome]⟩

theorem meaning_fields {s : State} {hd : Holding} (h : s.meaning = some hd) :
    hd.generation = s.targetGeneration ∧ hd.startedMs = s.startedMs ∧
      hd.deadlineMs = s.deadlineMs ∧ hd.held = s.ownedThreads := by
  unfold State.meaning holding at h
  split at h
  · split at h
    · obtain rfl := Option.some.inj h
      exact ⟨rfl, rfl, rfl, rfl⟩
    · cases h
  · cases h

/-- The answers that explain a clean-up: of the threads in the slots of a state, those
with outcome `ok`; the suspends succeed for the threads of a list. -/
def answersOf (suspended : List ThreadId) (s : State) (ok : Nat → Bool) : Answers
  | .suspend, t => decide (t ∈ suspended)
  | .resume, t => s.ownedSlots.any fun i => s.threadId i == t && ok i

theorem ownedSlots_decreasing (s : State) : s.ownedSlots.Pairwise (· > ·) := by
  rw [State.ownedSlots, List.pairwise_reverse]
  exact List.Pairwise.filter _ List.pairwise_lt_range

theorem ownedThreads_decreasing {s : State} (h : Armed s) :
    (s.ownedSlots.map s.threadId).Pairwise (· > ·) := by
  refine List.pairwise_map.mpr (List.Pairwise.imp_of_mem ?_ (ownedSlots_decreasing s))
  intro i j hi hj hij
  exact h.increasing j i hij (h.owned_lt i (mem_ownedSlots.mp hi))

/-- Resumed in decreasing order of the slots is resumed in decreasing order. -/
theorem ownedThreads_sort {s : State} (h : Armed s) :
    lastFirst s.ownedThreads = s.ownedSlots.map s.threadId := by
  have hgt := ownedThreads_decreasing h
  have hnodup : (s.ownedSlots.map s.threadId).Nodup := hgt.imp fun hlt => (Int.ne_of_lt hlt).symm
  exact (List.toFinset_sort _ hnodup).mpr (hgt.imp Int.le_of_lt)

theorem answersOf_resume {s : State} (h : Armed s) (suspended : List ThreadId) (ok : Nat → Bool)
    {i : Nat} (hi : s.owns i = true) :
    answersOf suspended s ok .resume (s.threadId i) = ok i := by
  rw [answersOf, Bool.eq_iff_iff, List.any_eq_true]
  constructor
  · rintro ⟨j, hj, hboth⟩
    rw [Bool.and_eq_true, beq_iff_eq] at hboth
    have hji : j = i :=
      h.threadId_inj (h.owned_lt j (mem_ownedSlots.mp hj)) (h.owned_lt i hi) hboth.1
    rw [← hji]
    exact hboth.2
  · intro hok
    exact ⟨i, mem_ownedSlots.mpr hi, by simp [hok]⟩

theorem mem_answersOf_kept {s : State} (h : Armed s) (suspended : List ThreadId)
    (ok : Nat → Bool) {t : ThreadId} :
    t ∈ (answersOf suspended s ok).kept s.ownedThreads ↔
      ∃ i, s.owns i = true ∧ s.threadId i = t ∧ ok i = false := by
  rw [mem_kept, mem_ownedThreads]
  constructor
  · rintro ⟨⟨i, hi, rfl⟩, hfailed⟩
    rw [answersOf_resume h suspended ok hi] at hfailed
    exact ⟨i, hi, rfl, hfailed⟩
  · rintro ⟨i, hi, rfl, hfailed⟩
    exact ⟨⟨i, hi, rfl⟩, by rwa [answersOf_resume h suspended ok hi]⟩

section Cleanup

variable {m : Machine ω} {n : Nat} {ok : Nat → Bool} {held : Nat → State} {done failed : Status}
  {r : Status × Machine ω} (hc : Cleaned m n ok held done failed r) (ha : Armed m.state)
  (suspended : List ThreadId)

include hc ha

theorem Cleaned.traced (hlt : ∀ i, m.state.owns i = true → i < n) (hn : n ≤ maxThreads) :
    traceOf m r.2 = (answersOf suspended m.state ok).resumes m.state.ownedThreads := by
  rw [traceOf_eq hc.log, attempt_attempts, ← ownedSlots_eq hn hlt, Answers.resumes,
    ownedThreads_sort ha, resumesOf, List.map_map]
  apply List.map_congr_left
  intro i hi
  exact congrArg (Attempt.mk .resume (m.state.threadId i))
    (answersOf_resume ha suspended ok (mem_ownedSlots.mp hi)).symm

/-- What failed is what the state means after, and the status tells whether any did. -/
theorem Cleaned.meant :
    r.1 = (if ((answersOf suspended m.state ok).kept m.state.ownedThreads).Nonempty then failed
      else done) ∧
    r.2.state.meaning = holding m.state.targetGeneration m.state.startedMs m.state.deadlineMs
      ((answersOf suspended m.state ok).kept m.state.ownedThreads) := by
  rcases hc.outcome with ⟨hst, hcleared, hall⟩ | ⟨hst, hs, hmask, ho⟩
  · have hnone : ¬((answersOf suspended m.state ok).kept m.state.ownedThreads).Nonempty := by
      rintro ⟨t, ht⟩
      obtain ⟨i, hi, -, hfailed⟩ := (mem_answersOf_kept ha suspended ok).mp ht
      rw [hall i hi] at hfailed
      cases hfailed
    rw [if_neg hnone, hcleared, holding, dif_neg hnone]
    exact ⟨hst, rfl⟩
  · have hsame : r.2.state.ownedThreads =
        (answersOf suspended m.state ok).kept m.state.ownedThreads := by
      ext t
      rw [mem_ownedThreads, mem_answersOf_kept ha]
      constructor
      · rintro ⟨i, hi, rfl⟩
        rw [ho, Bool.and_eq_true, Bool.not_eq_true'] at hi
        exact ⟨i, hi.1, (hs.threadId i).symm, hi.2⟩
      · rintro ⟨i, hi, rfl, hfailed⟩
        exact ⟨i, by rw [ho, hi, hfailed]; rfl, hs.threadId i⟩
    have harmed : Armed r.2.state := by
      apply ha.of_same hs
      intro i hi
      rw [ho, Bool.and_eq_true] at hi
      exact ha.owned_lt i hi.1
    obtain ⟨hd, hmeaning⟩ := meaning_armed harmed hmask
    have hsome : r.2.state.ownedThreads.Nonempty := by
      rw [← (meaning_fields hmeaning).2.2.2]
      exact hd.some_held
    rw [← hsame, if_pos hsome, State.meaning, harmed.active, if_pos rfl, hs.targetGeneration,
      hs.startedMs, hs.deadlineMs]
    exact ⟨hst, rfl⟩

end Cleanup

theorem traceOf_same (m : Machine ω) (s : State) : traceOf m (m.set s) = [] := by
  simp [traceOf]

/-- A call that changes nothing. -/
theorem effect_same (m : Machine ω) (status : Status) :
    effect m (status, m) = ((status, []), m.state.meaning) := by
  rw [effect, traceOf_eq (List.append_nil _).symm]
  rfl

theorem Valid.owned_lt {s : State} (h : Valid s) : ∀ i, s.owns i = true → i < s.threadCount := by
  rcases h with hc | ⟨ha, -⟩
  · intro i hi
    rw [hc, State.owns, show cleared.ownedMask = 0#64 from rfl, BitSet.mem_zero] at hi
    cases hi
  · exact ha.owned_lt

/-- The checks that end, tick and abandon share. -/
theorem owned_refines {m : Machine ω} (hv : Valid m.state) (usable : Bool) (generation : U64)
    {act : Holding → Effect} {live : Status × Machine ω}
    (hlive : ∀ hd, m.state.meaning = some hd → Armed m.state → act hd = effect m live) :
    owned usable generation m.state.meaning act =
      effect m (if (!usable || generation == 0) = true then (.invalidArgument, m)
        else if (!m.state.active) = true then (.notActive, m)
        else if (m.state.targetGeneration != generation) = true then (.staleTarget, m)
        else live) := by
  unfold owned
  by_cases husable : usable = true ∧ generation ≠ 0
  · have hargs : ¬(!usable || generation == 0) = true := by
      obtain ⟨hu, hg⟩ := husable
      simpa [hu] using hg
    rw [if_pos husable, if_neg hargs]
    rcases hv with hc | ⟨ha, hmask⟩
    · have hactive : (!m.state.active) = true := by rw [hc]; rfl
      have hnone : m.state.meaning = none := by rw [hc]; rfl
      rw [if_pos hactive, effect_same, hnone]
    · obtain ⟨hd, hmeaning⟩ := meaning_armed ha hmask
      have hgeneration := (meaning_fields hmeaning).1
      have hactive : ¬(!m.state.active) = true := by rw [ha.active]; decide
      rw [if_neg hactive, hmeaning]
      dsimp only
      rw [hgeneration]
      by_cases hg : m.state.targetGeneration = generation
      · rw [if_pos hg, if_neg (by simp [hg]), hlive hd hmeaning ha]
      · rw [if_neg hg, if_pos (by simpa using hg), effect_same, hmeaning]
  · have hargs : (!usable || generation == 0) = true := by
      rw [Bool.or_eq_true, Bool.not_eq_true', beq_iff_eq]
      by_contra hno
      push Not at hno
      exact husable ⟨by simpa using hno.1, hno.2⟩
    rw [if_neg husable, if_pos hargs, effect_same]

/-- Resuming everything is handing everything back. -/
theorem resumeOwned_refines (resume : ThreadOperation ω) {m : Machine ω} (hv : Valid m.state) :
    ∃ a : Answers, ∀ hd, m.state.meaning = some hd → Armed m.state →
      hd.release a .ok .resumeFailed = effect m (resumeOwned resume m) ∧
      hd.release a .expired .resumeFailed =
        effect m (expiry (resumeOwned resume m).1, (resumeOwned resume m).2) := by
  obtain ⟨ok, held, hc⟩ := resumeOwned_cleaned resume m hv.owned_lt
  refine ⟨answersOf [] m.state ok, ?_⟩
  intro hd hmeaning ha
  have htrace := hc.traced ha [] ha.owned_lt ha.count_le
  obtain ⟨hstatus, hmeant⟩ := hc.meant ha []
  obtain ⟨hgeneration, hstarted, hdeadline, hheld⟩ := meaning_fields hmeaning
  rw [Holding.release, Holding.release, effect, effect, hgeneration, hstarted, hdeadline, hheld,
    htrace, hmeant, hstatus]
  refine ⟨rfl, ?_⟩
  split <;> rfl

theorem end_refines {m : Machine ω} (hv : Valid m.state) (given : Bool) (generation : U64)
    (operations : Option (Operations ω)) :
    ∃ a : Answers, account m.state.meaning (a, .pauseEnd given generation operations) =
      effect m (vcPauseEnd given generation operations m) := by
  rcases operations with _ | ⟨suspend, _ | resume⟩
  · refine ⟨fun _ _ => true, ?_⟩
    simp [account, owned, canResume, vcPauseEnd, effect_same]
  · refine ⟨fun _ _ => true, ?_⟩
    simp [account, owned, canResume, vcPauseEnd, effect_same]
  · obtain ⟨a, hresumed⟩ := resumeOwned_refines resume hv
    have howned := owned_refines hv given generation
      fun hd hmeaning ha => (hresumed hd hmeaning ha).1
    refine ⟨a, ?_⟩
    simpa [account, canResume, vcPauseEnd] using howned

theorem inWindow_iff {s : State} {hd : Holding} {now : U64} (hstarted : hd.startedMs = s.startedMs)
    (hdeadline : hd.deadlineMs = s.deadlineMs) :
    (now ≥ s.startedMs && now < s.deadlineMs) = true ↔ hd.startedMs ≤ now ∧ now < hd.deadlineMs := by
  rw [Bool.and_eq_true, decide_eq_true_iff, decide_eq_true_iff, hstarted, hdeadline]

theorem tick_refines {m : Machine ω} (hv : Valid m.state) (given : Bool) (generation now : U64)
    (operations : Option (Operations ω)) :
    ∃ a : Answers, account m.state.meaning (a, .pauseTick given generation now operations) =
      effect m (vcPauseTick given generation now operations m) := by
  rcases operations with _ | ⟨suspend, _ | resume⟩
  · refine ⟨fun _ _ => true, ?_⟩
    simp [account, owned, canResume, vcPauseTick, effect_same]
  · refine ⟨fun _ _ => true, ?_⟩
    simp [account, owned, canResume, vcPauseTick, effect_same]
  · obtain ⟨a, hresumed⟩ := resumeOwned_refines resume hv
    refine ⟨a, ?_⟩
    have hlive : ∀ hd, m.state.meaning = some hd → Armed m.state →
        (if hd.startedMs ≤ now ∧ now < hd.deadlineMs then ((.ok, []), some hd)
          else hd.release a .expired .resumeFailed) =
        effect m (if m.state.inWindow now = true then (.ok, m)
          else (expiry (resumeOwned resume m).1, (resumeOwned resume m).2)) := by
      intro hd hmeaning ha
      have hfields := meaning_fields hmeaning
      by_cases hin : m.state.inWindow now = true
      · rw [if_pos hin, if_pos ((inWindow_iff hfields.2.1 hfields.2.2.1).mp hin), effect_same,
          hmeaning]
      · rw [if_neg hin, if_neg (fun h => hin ((inWindow_iff hfields.2.1 hfields.2.2.1).mpr h))]
        exact (hresumed hd hmeaning ha).2
    have hcode : vcPauseTick given generation now (some ⟨suspend, some resume⟩) m =
        if (!given || generation == 0) = true then (.invalidArgument, m)
        else if (!m.state.active) = true then (.notActive, m)
        else if (m.state.targetGeneration != generation) = true then (.staleTarget, m)
        else if m.state.inWindow now = true then (.ok, m)
        else (expiry (resumeOwned resume m).1, (resumeOwned resume m).2) := by
      simp only [vcPauseTick, vcPauseEnd, State.inWindow, expiry]
      split
      · rfl
      · split
        · rfl
        · split
          · rfl
          · rfl
    rw [hcode, ← owned_refines hv given generation hlive]
    simp [account, canResume]

theorem abandon_refines {m : Machine ω} (hv : Valid m.state) (given : Bool) (generation : U64) :
    ∃ a : Answers, account m.state.meaning (a, (.pauseAbandon given generation : Call ω)) =
      effect m (vcPauseAbandon given generation m) :=
  ⟨fun _ _ => true, owned_refines hv given generation fun _ _ _ => by
    rw [effect, Machine.clear, traceOf_same]
    rfl⟩

/-- The checks on the threads, said of their list. -/
theorem validateThreads_list {ids : Nat → ThreadId} {count : Nat} :
    vcPauseValidateThreads (some ids) count = .ok ↔
      (List.range count).map ids ≠ [] ∧ ((List.range count).map ids).length ≤ maxThreads ∧
        ((List.range count).map ids).Pairwise (· < ·) ∧ ∀ t ∈ (List.range count).map ids, 0 < t := by
  have hnil : (List.range count).map ids ≠ [] ↔ 0 < count := by
    rw [ne_eq, List.map_eq_nil_iff, List.range_eq_nil, Nat.pos_iff_ne_zero]
  have hlength : ((List.range count).map ids).length = count := by
    rw [List.length_map, List.length_range]
  rw [hnil, hlength, validateThreads_iff]
  constructor
  · rintro ⟨hpos, hle, hids, hinc⟩
    refine ⟨hpos, hle, ?_, ?_⟩
    · refine List.pairwise_map.mpr (List.Pairwise.imp_of_mem ?_ List.pairwise_lt_range)
      intro i j _ hj hij
      exact ids_increasing hinc i j hij (List.mem_range.mp hj)
    · rintro _ ht
      obtain ⟨i, hi, rfl⟩ := List.mem_map.mp ht
      exact hids i (List.mem_range.mp hi)
  · rintro ⟨hpos, hle, hinc, hids⟩
    refine ⟨hpos, hle, ?_, ?_⟩
    · intro i hi
      exact hids (ids i) (List.mem_map_of_mem (List.mem_range.mpr hi))
    · intro i hi
      have hlt := List.pairwise_iff_getElem.mp hinc i (i + 1) (by simp; omega) (by simpa using hi)
        (Nat.lt_succ_self i)
      simpa only [List.getElem_map, List.getElem_range] using hlt

/-- In a list without repetition the elements of a prefix are that prefix. -/
theorem prefix_cut {xs : List ThreadId} {t : ThreadId} (ht : t ∉ xs) (ys : List ThreadId) :
    (xs ++ t :: ys).takeWhile (· ∈ xs) = xs ∧ (xs ++ t :: ys).dropWhile (· ∈ xs) = t :: ys := by
  have hxs : ∀ u ∈ xs, decide (u ∈ xs) = true := fun u hu => decide_eq_true hu
  have htf : ¬(fun u => decide (u ∈ xs)) t = true := by simpa using ht
  rw [List.takeWhile_append_of_pos hxs, List.dropWhile_append_of_pos hxs,
    List.takeWhile_cons_of_neg (p := fun u => decide (u ∈ xs)) htf,
    List.dropWhile_cons_of_neg (p := fun u => decide (u ∈ xs)) htf, List.append_nil]
  exact ⟨rfl, rfl⟩

theorem prefix_all (xs : List ThreadId) :
    xs.takeWhile (· ∈ xs) = xs ∧ xs.dropWhile (· ∈ xs) = [] := by
  constructor
  · exact List.takeWhile_eq_self_iff.mpr fun t ht => decide_eq_true ht
  · exact List.dropWhile_eq_nil_iff.mpr fun t ht => decide_eq_true ht

theorem acquire_all (a : Answers) (generation startedMs deadlineMs : U64)
    {threads : List ThreadId} (ha : a .suspend = fun t => decide (t ∈ threads)) :
    acquire a generation startedMs deadlineMs threads =
      ((.ok, threads.map fun t => ⟨.suspend, t, true⟩),
        holding generation startedMs deadlineMs threads.toFinset) := by
  obtain ⟨htake, hdrop⟩ := prefix_all threads
  rw [acquire, ha, htake, hdrop]

theorem acquire_some (a : Answers) (generation startedMs deadlineMs : U64)
    {before after : List ThreadId} {t : ThreadId} (ht : t ∉ before)
    (ha : a .suspend = fun u => decide (u ∈ before)) :
    acquire a generation startedMs deadlineMs (before ++ t :: after) =
      ((if (a.kept before.toFinset).Nonempty then .rollbackFailed else .suspendFailed,
        (before.map fun u => ⟨.suspend, u, true⟩) ++
          ⟨.suspend, t, false⟩ :: a.resumes before.toFinset),
        holding generation startedMs deadlineMs (a.kept before.toFinset)) := by
  obtain ⟨htake, hdrop⟩ := prefix_cut ht after
  rw [acquire, ha, htake, hdrop]

section Accepted

variable {m mid : Machine ω} {generation now duration : U64} {ids : Nat → ThreadId}
  {count stop : Nat} {held : Nat → State}

/-- What a partly or fully suspended transaction owns. -/
theorem suspended_ownedThreads
    (hs : Suspended (m.set (armed generation now duration ids count)) 0 stop held mid)
    (hle : stop ≤ count) : mid.state.ownedThreads = ((List.range stop).map ids).toFinset := by
  ext t
  rw [mem_ownedThreads, List.mem_toFinset, List.mem_map]
  constructor
  · rintro ⟨i, hi, rfl⟩
    rw [hs.owns] at hi
    have hi : i < stop := of_decide_eq_true hi
    exact ⟨i, List.mem_range.mpr hi, (hs.named hle i hi).symm⟩
  · rintro ⟨i, hi, rfl⟩
    have hi := List.mem_range.mp hi
    exact ⟨i, by rw [hs.owns]; exact decide_eq_true hi, hs.named hle i hi⟩

theorem suspended_refines (hv : ValidBegin generation now duration ids count)
    (hs : Suspended (m.set (armed generation now duration ids count)) 0 count held mid) :
    acquire (answersOf ((List.range count).map ids) mid.state fun _ => true) generation now
        (now + duration) ((List.range count).map ids) =
      effect m (.ok, mid.setFailed 0) := by
  have hlog : (mid.setFailed 0).log =
      m.log ++ suspends (armed generation now duration ids count) 0 count held := hs.log
  have hsame : (mid.setFailed 0).state.meaning = mid.state.meaning := rfl
  have harmed := hs.isArmed hv (Nat.le_refl count)
  rw [acquire_all _ _ _ _ rfl, effect, traceOf_eq hlog, armed_suspends (Nat.le_refl count),
    hsame, State.meaning, harmed.active, if_pos rfl,
    suspended_ownedThreads hs (Nat.le_refl count), suspendsOf, List.map_map,
    show mid.state.targetGeneration = generation from hs.same.targetGeneration,
    show mid.state.startedMs = now from hs.same.startedMs,
    show mid.state.deadlineMs = now + duration from hs.same.deadlineMs]
  rfl

theorem rolledBack_refines {suspend : ThreadOperation ω} {ok : Nat → Bool} {held' : Nat → State}
    {r : Status × Machine ω} (hv : ValidBegin generation now duration ids count)
    (hs : Suspended (m.set (armed generation now duration ids count)) 0 stop held mid)
    (hlt : stop < count) (hfailed : (mid.issue .suspend suspend stop).1 = false)
    (hc : Cleaned (mid.issue .suspend suspend stop).2 stop ok held' .suspendFailed
      .rollbackFailed r) :
    acquire (answersOf ((List.range stop).map ids) mid.state ok) generation now (now + duration)
        ((List.range count).map ids) = effect m r := by
  have hle := Nat.le_of_lt hlt
  have harmed := hs.isArmed hv hle
  have hbefore : ids stop ∉ (List.range stop).map ids := by
    rintro hmem
    obtain ⟨i, hi, hid⟩ := List.mem_map.mp hmem
    have hinc := ids_increasing hv.increasing i stop (List.mem_range.mp hi) hlt
    rw [hid] at hinc
    exact Int.lt_irrefl _ hinc
  have hcut : (List.range count).map ids = (List.range stop).map ids ++
      ids stop :: (List.range' (stop + 1) (count - (stop + 1))).map ids := by
    obtain ⟨k, rfl⟩ := Nat.exists_eq_add_of_lt hlt
    rw [List.range_eq_range', List.range_eq_range',
      show stop + k + 1 = stop + (k + 1) by omega, ← List.range'_append_1, List.map_append,
      Nat.zero_add, List.range'_succ, List.map_cons,
      show stop + (k + 1) - (stop + 1) = k by omega]
  have htrace := hc.traced (m := (mid.issue .suspend suspend stop).2) harmed
    ((List.range stop).map ids) (fun i hi => (hs.issued_owns suspend i).mp hi)
    (Nat.le_trans hle hv.count_le)
  obtain ⟨hstatus, hmeant⟩ := hc.meant (m := (mid.issue .suspend suspend stop).2) harmed
    ((List.range stop).map ids)
  have hfail : mid.state.threadId stop = ids stop :=
    (hs.same.threadId stop).trans (armed_threadId_lt _ _ _ _ _ _ hlt)
  have htraced : traceOf m r.2 = suspendsOf ids stop ++ ⟨.suspend, ids stop, false⟩ ::
      (answersOf ((List.range stop).map ids) mid.state ok).resumes
        ((List.range stop).map ids).toFinset := by
    have hlog : mid.log =
        m.log ++ suspends (armed generation now duration ids count) 0 stop held := hs.log
    have hall := hc.log
    rw [traceOf_eq hc.log] at htrace
    rw [Machine.issue_log, hlog, List.append_assoc, List.append_assoc] at hall
    rw [traceOf_eq hall, List.map_append, List.map_append, armed_suspends hle, htrace,
      Machine.issue_state, suspended_ownedThreads hs hle, List.map_singleton, Event.attempt,
      hfailed, hfail]
    rfl
  rw [Machine.issue_state, suspended_ownedThreads hs hle] at hstatus hmeant
  rw [hcut, acquire_some _ _ _ _ hbefore rfl, effect, htraced, hmeant, hstatus, suspendsOf,
    List.map_map, show mid.state.targetGeneration = generation from hs.same.targetGeneration,
    show mid.state.startedMs = now from hs.same.startedMs,
    show mid.state.deadlineMs = now + duration from hs.same.deadlineMs]
  rfl

end Accepted

/-- A begin that passes its checks suspends as far as it gets. -/
theorem accepted_refines (suspend resume : ThreadOperation ω) (m : Machine ω)
    {generation now duration : U64} {ids : Nat → ThreadId} {count : Nat}
    (hv : ValidBegin generation now duration ids count) :
    ∃ a : Answers, acquire a generation now (now + duration) ((List.range count).map ids) =
      effect m
        (suspendLoop suspend resume count 0 (m.set (armed generation now duration ids count))) := by
  obtain ⟨stop, held, mid, hle, hs, hout⟩ := began_cases suspend resume m hv
  rcases hout with ⟨rfl, hr⟩ | ⟨hlt, hfailed, ok, held', hc⟩
  · rw [hr]
    exact ⟨_, suspended_refines hv hs⟩
  · exact ⟨_, rolledBack_refines hv hs hlt hfailed hc⟩

/-- A begin passes its first checks in a legal window. -/
theorem legal_iff {given : Bool} {generation now duration : U64} :
    (!given || generation == 0 || duration == 0 || duration > maxDurationMs ||
        now > BitVec.allOnes 64 - duration) = false ↔
      given = true ∧ generation ≠ 0 ∧ LegalWindow now duration := by
  rw [beginArguments_iff, LegalWindow, BitVec.le_def, maxDurationMs_toNat, BitVec.toNat_pos,
    BitVec.pos_iff_ne_zero]
  exact Iff.rfl

theorem begin_refines {m : Machine ω} (hv : Valid m.state) (given : Bool)
    (generation now duration : U64) (ids : Option (Nat → ThreadId)) (count : Nat)
    (operations : Option (Operations ω)) :
    ∃ a : Answers,
      account m.state.meaning
          (a, .pauseBegin given generation now duration ids count operations) =
        effect m (vcPauseBegin given generation now duration ids count operations m) := by
  rcases operations with _ | ⟨_ | suspend, _ | resume⟩
  · exact ⟨fun _ _ => true, by simp [account, canPause, vcPauseBegin, effect_same]⟩
  · exact ⟨fun _ _ => true, by simp [account, canPause, vcPauseBegin, effect_same]⟩
  · exact ⟨fun _ _ => true, by simp [account, canPause, vcPauseBegin, effect_same]⟩
  · exact ⟨fun _ _ => true, by simp [account, canPause, vcPauseBegin, effect_same]⟩
  · have husable : (given && canPause (some ⟨some suspend, some resume⟩ : Option (Operations ω))) =
        given := Bool.and_true given
    simp only [account, vcPauseBegin, husable]
    cases hguard : (!given || generation == 0 || duration == 0 || duration > maxDurationMs ||
        now > BitVec.allOnes 64 - duration) with
    | true =>
      have hillegal : ¬(given = true ∧ generation ≠ 0 ∧ LegalWindow now duration) := by
        intro hlegal
        rw [legal_iff.mpr hlegal] at hguard
        cases hguard
      refine ⟨fun _ _ => true, ?_⟩
      rw [if_neg hillegal, if_pos rfl, effect_same]
    | false =>
      have hlegal := legal_iff.mp hguard
      simp only [if_pos hlegal, Bool.false_eq_true, if_false]
      rcases hv with hcleared | ⟨ha, hmask⟩
      · have hnone : m.state.meaning = none := by rw [hcleared]; rfl
        have hidle : ¬(m.state.active || m.state.ownedMask != 0) = true := by
          rw [hcleared]
          decide
        rw [hnone, if_neg hidle]
        rcases validateThreads_cases ids count with hok | hbad
        · cases ids with
          | none => cases hok
          | some ids =>
            obtain ⟨-, hgen, hdur, hmax, hwrap⟩ := beginArguments_iff.mp hguard
            obtain ⟨hcount, hle, hids, hinc⟩ := validateThreads_iff.mp hok
            have hthreads : threadsOf (some ids) count = some ((List.range count).map ids) :=
              if_pos (validateThreads_list.mp hok)
            rw [hok, hthreads]
            exact accepted_refines suspend resume m
              ⟨hgen, hdur, hmax, hwrap, hcount, hle, hids, hinc⟩
        · have hthreads : threadsOf ids count = none := by
            cases ids with
            | none => rfl
            | some ids =>
              refine if_neg fun h => ?_
              rw [validateThreads_list.mpr h] at hbad
              cases hbad
          rw [hbad, hthreads]
          exact ⟨fun _ _ => true, by rw [effect_same, hnone]⟩
      · obtain ⟨hd, hmeaning⟩ := meaning_armed ha hmask
        have hbusy : (m.state.active || m.state.ownedMask != 0) = true := by
          rw [ha.active]
          rfl
        rw [hmeaning, if_pos hbusy]
        exact ⟨fun _ _ => true, by rw [effect_same, hmeaning]⟩

/-- Every call is a call on the holding, for some answers. -/
theorem call_refines {m : Machine ω} (hv : Valid m.state) (c : Call ω) :
    ∃ a : Answers, account m.state.meaning (a, c) = effect m (call m c) := by
  cases c with
  | pauseBegin given generation now duration ids count operations =>
    exact begin_refines hv given generation now duration ids count operations
  | pauseEnd given generation operations => exact end_refines hv given generation operations
  | pauseTick given generation now operations =>
    exact tick_refines hv given generation now operations
  | pauseAbandon given generation => exact abandon_refines hv given generation

/-- An entry of the code and one of the holding that say the same. -/
structure SameEntry (e : Entry ω)
    (e' : Trace.Entry (Option Holding) (Answers × Call ω) (Status × List Attempt)) : Prop where
  before : e'.before = e.before.state.meaning
  call : e'.input.2 = e.input
  status : e'.result.1 = e.result
  attempts : e'.result.2 = traceOf e.before e.after
  after : e'.after = e.after.state.meaning

theorem run_refines {m : Machine ω} (hv : Valid m.state) (calls : List (Call ω)) :
    ∃ inputs, List.Forall₂ SameEntry (Trace.run call m calls)
        (Trace.run account m.state.meaning inputs) ∧
      Trace.final account m.state.meaning inputs =
        (Trace.final call m calls).state.meaning := by
  refine Trace.run_refines (fun m : Machine ω => Valid m.state) (fun m => m.state.meaning)
    SameEntry (fun m c h => call_valid m c h) ?_ hv calls
  intro m c h
  obtain ⟨a, ha⟩ := call_refines h c
  have hresult : (account m.state.meaning (a, c)).1 = ((call m c).1, traceOf m (call m c).2) :=
    congrArg Prod.fst ha
  have hafter : (account m.state.meaning (a, c)).2 = (call m c).2.state.meaning :=
    congrArg Prod.snd ha
  exact ⟨(a, c), ⟨rfl, rfl, congrArg Prod.fst hresult, congrArg Prod.snd hresult, hafter⟩, hafter⟩

/-- Every run from an initialised state is a run of the holding, for some answers of
the callbacks of each call: the same calls with the same statuses and callbacks. -/
theorem pause_refines (world : ω) (calls : List (Call ω)) :
    ∃ inputs, List.Forall₂ SameEntry (Trace.run call (vcPauseStateInit world) calls)
        (Trace.run account none inputs) ∧
      Trace.final account none inputs =
        (Trace.final call (vcPauseStateInit world) calls).state.meaning :=
  run_refines (m := vcPauseStateInit world) (.inl rfl) calls

/-- Related entries that two readings take for the same are read as the same list. -/
theorem map_eq_of_forall₂ {α β γ : Type*} {R : α → β → Prop} {f : α → γ} {g : β → γ}
    {xs : List α} {ys : List β} (h : List.Forall₂ R xs ys) (hR : ∀ x y, R x y → f x = g y) :
    xs.map f = ys.map g := by
  rw [← List.forall₂_eq_eq_eq, List.forall₂_map_left_iff, List.forall₂_map_right_iff]
  exact h.imp hR

/-- The callbacks of each call of a run. -/
def traces (es : List (Entry ω)) : List (List Attempt) :=
  es.map fun e => traceOf e.before e.after

/-- How often a run issued a resume of a thread with a given outcome. -/
def resumed (t : ThreadId) (success : Bool) (es : List (Entry ω)) : Nat :=
  (traces es).flatten.count ⟨.resume, t, success⟩

/-- Over ends and ticks each thread is tried again in every round of callbacks until
it has been resumed. -/
structure RetryLaw (m : Machine ω) (es : List (Entry ω)) (m' : Machine ω) : Prop where
  held : ∀ t, m.state.holds t = true → m'.state.holds t = true →
    resumed t true es = 0 ∧ resumed t false es = rounds (traces es)
  released : ∀ t, m.state.holds t = true → m'.state.holds t = false →
    resumed t true es = 1 ∧ resumed t false es < rounds (traces es)
  others : ∀ t, m.state.holds t = false →
    m'.state.holds t = false ∧ resumed t true es = 0 ∧ resumed t false es = 0
  done : (∀ t, m.state.holds t = true → resumed t false es < rounds (traces es)) →
    m'.state = cleared

theorem not_mem_meaning {s : State} {t : ThreadId} :
    t ∉ heldThreads s.meaning ↔ s.holds t = false := by
  rw [mem_meaning, Bool.not_eq_true]

/-- A state that holds nothing is cleared. -/
theorem Valid.cleared_of_free {s : State} (h : Valid s) (hfree : ∀ t, s.holds t = false) :
    s = cleared := by
  rcases h with hc | ⟨ha, hmask⟩
  · exact hc
  · obtain ⟨hd, hmeaning⟩ := meaning_armed ha hmask
    obtain ⟨t, ht⟩ := hd.some_held
    have hno := not_mem_meaning.mpr (hfree t)
    rw [hmeaning] at hno
    exact absurd ht hno

/-- Ends and ticks are retries. -/
theorem run_retried {m : Machine ω} (hv : Valid m.state) (retries : List (Call ω))
    (hretries : ∀ c ∈ retries, c.isCleanup = true) :
    RetryLaw m (Trace.run call m retries) (Trace.final call m retries) := by
  obtain ⟨inputs, hsame, hfinal⟩ := run_refines hv retries
  have hcalls : inputs.map Prod.snd = retries := by
    have hinputs := map_eq_of_forall₂ (f := fun e => e.input) (g := fun e => e.input.2) hsame
      fun e e' h => h.call.symm
    rw [Trace.run_inputs] at hinputs
    rw [hinputs, ← Trace.run_inputs account m.state.meaning inputs, List.map_map,
      Trace.run_inputs]
    rfl
  have htraces : traces (Trace.run call m retries) =
      tracesOf (Trace.run account m.state.meaning inputs) :=
    map_eq_of_forall₂ hsame fun e e' h => h.attempts.symm
  have hlaw := account_retried inputs (by
    intro i hi
    apply hretries
    rw [← hcalls]
    exact List.mem_map_of_mem hi) m.state.meaning
  rw [hfinal, ← htraces] at hlaw
  have hv' : Valid (Trace.final call m retries).state :=
    Trace.invariant call (fun m => Valid m.state) (fun m c h => call_valid m c h) hv retries
  constructor
  · intro t ht ht'
    exact hlaw.held t (mem_meaning.mpr ht) (mem_meaning.mpr ht')
  · intro t ht ht'
    exact hlaw.released t (mem_meaning.mpr ht) (not_mem_meaning.mpr ht')
  · intro t ht
    obtain ⟨hgone, hcounts⟩ := hlaw.others t (not_mem_meaning.mpr ht)
    exact ⟨not_mem_meaning.mp hgone, hcounts⟩
  · intro hfew
    apply hv'.cleared_of_free
    intro t
    rw [Bool.eq_false_iff]
    intro ht'
    by_cases ht : m.state.holds t = true
    · have hall := (hlaw.held t (mem_meaning.mpr ht) (mem_meaning.mpr ht')).2
      exact Nat.lt_irrefl _ (hall ▸ hfew t ht)
    · have hgone := (hlaw.others t (not_mem_meaning.mpr (Bool.eq_false_iff.mpr ht))).1
      exact hgone (mem_meaning.mpr ht')

/-- In every reachable state, over any ends and ticks with any outcomes: a thread that is
still owned failed to resume in every round; one that is not was resumed once, after
fewer failures than rounds; and if no thread fails as often as there are rounds, the
transaction is over. -/
theorem pause_converges (world : ω) (calls retries : List (Call ω))
    (hretries : ∀ c ∈ retries, c.isCleanup = true) :
    RetryLaw (Trace.final call (vcPauseStateInit world) calls)
      (Trace.run call (Trace.final call (vcPauseStateInit world) calls) retries)
      (Trace.final call (Trace.final call (vcPauseStateInit world) calls) retries) :=
  run_retried (final_valid world calls) retries hretries

/-- Callbacks that fail as often as the world says. -/
def reluctant : ThreadOperation Nat := fun failures _ =>
  if failures = 0 then (0, 0) else (1, failures - 1)

def reluctantEnd : Call Nat := .pauseEnd true 17 (some ⟨none, some reluctant⟩)

/-- A begin for two threads; its suspends succeed. -/
def reluctantBegin : Call Nat :=
  .pauseBegin true 17 100 50 (some fun i => 10 * (i + 1)) 2
    (some ⟨some fun w _ => (0, w), some reluctant⟩)

theorem pause_converges_reluctant :
    let begun := Trace.final call (vcPauseStateInit 1) [reluctantBegin]
    let es := Trace.run call begun [reluctantEnd, reluctantEnd]
    let ended := Trace.final call begun [reluctantEnd, reluctantEnd]
    RetryLaw begun es ended ∧ rounds (traces es) = 2 ∧ resumed 20 false es = 1 ∧
      resumed 20 true es = 1 ∧ ended.state = cleared :=
  ⟨pause_converges 1 [reluctantBegin] [reluctantEnd, reluctantEnd] (by decide), by decide,
    by decide, by decide, by decide⟩

end VitaCheat.Pause
