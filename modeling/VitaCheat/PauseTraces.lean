import VitaCheat.PauseRejections

/-!
# The callbacks of begin and end

A begin suspends in order up to the first failure and then resumes everything it
has suspended, last first; an end resumes everything that is owned, last first.
Each attempt is made once whatever the others answer, and what is owned after is
what failed.
-/
namespace VitaCheat.Pause

variable {ω : Type}

/-- A callback that was issued, and whether it answered zero. -/
structure Attempt where
  action : Action
  thread : ThreadId
  success : Bool
  deriving DecidableEq, Repr

def Event.attempt (e : Event) : Attempt := ⟨e.action, e.thread, e.success⟩

/-- The callbacks between two machines of a run. -/
def traceOf (m m' : Machine ω) : List Attempt := (m'.log.drop m.log.length).map Event.attempt

def suspendsOf (ids : Nat → ThreadId) (n : Nat) : List Attempt :=
  (List.range n).map fun i => ⟨.suspend, ids i, true⟩

def resumesOf (ids : Nat → ThreadId) (slots : List Nat) (ok : Nat → Bool) : List Attempt :=
  slots.map fun i => ⟨.resume, ids i, ok i⟩

/-- After one attempt for each of the slots: cleared exactly if all of them
succeeded, and else owning exactly the threads whose resume failed. -/
structure Settles (ids : Nat → ThreadId) (slots : List Nat) (ok : Nat → Bool)
    (done failed : Status) (r : Status × Machine ω) : Prop where
  done_iff : (r.1 = done ∧ r.2.state = cleared) ↔ ∀ i ∈ slots, ok i = true
  failed : (∃ i ∈ slots, ok i = false) → r.1 = failed ∧
    ∀ t, r.2.state.holds t = true ↔ ∃ i ∈ slots, ids i = t ∧ ok i = false

/-- The two courses of a begin that passes its checks. -/
inductive Began (ids : Nat → ThreadId) (n : Nat) (m : Machine ω) (r : Status × Machine ω) : Prop
  | suspended (trace : traceOf m r.2 = suspendsOf ids n) (status : r.1 = .ok)
      (owned : ∀ t, r.2.state.holds t = true ↔ ∃ i < n, ids i = t) : Began ids n m r
  | rolledBack (f : Nat) (ok : Nat → Bool) (hf : f < n)
      (trace : traceOf m r.2 =
        suspendsOf ids f ++ ⟨.suspend, ids f, false⟩ :: resumesOf ids (List.range f).reverse ok)
      (settles : Settles ids (List.range f).reverse ok .suspendFailed .rollbackFailed r) :
      Began ids n m r

/-- The owned slots, last first. -/
def State.ownedSlots (s : State) : List Nat := ((List.range maxThreads).filter s.owns).reverse

/-- The course of an end of a live transaction. -/
structure Ended (m : Machine ω) (ok : Nat → Bool) (r : Status × Machine ω) : Prop where
  trace : traceOf m r.2 = resumesOf m.state.threadId m.state.ownedSlots ok
  settles : Settles m.state.threadId m.state.ownedSlots ok .ok .resumeFailed r
  first : (∃ i ∈ m.state.ownedSlots, ok i = false) →
    (m.state.ownedSlots.find? (!ok ·)).map m.state.threadId = some r.2.state.failedThreadId

theorem traceOf_eq {m m' : Machine ω} {events : List Event} (h : m'.log = m.log ++ events) :
    traceOf m m' = events.map Event.attempt := by
  rw [traceOf, h, List.drop_left]

theorem attempt_suspends (s : State) (n : Nat) (held : Nat → State) :
    (suspends s 0 n held).map Event.attempt = suspendsOf s.threadId n := by
  rw [suspends, suspendsOf, List.map_map, ← List.range_eq_range']
  rfl

theorem attempt_attempts (s : State) (n : Nat) (ok : Nat → Bool) (held : Nat → State) :
    (attempts s n ok held).map Event.attempt = resumesOf s.threadId (s.ownedBelow n).reverse ok := by
  rw [attempts, resumesOf, List.map_map]
  rfl

/-- A bound above every owned slot does not matter. -/
theorem ownedSlots_eq {s : State} {n : Nat} (hn : n ≤ maxThreads)
    (hlt : ∀ i, s.owns i = true → i < n) : s.ownedSlots = (s.ownedBelow n).reverse := by
  obtain ⟨k, hk⟩ := Nat.exists_eq_add_of_le hn
  have hnone : ((List.range k).map (n + ·)).filter s.owns = [] := by
    rw [List.filter_eq_nil_iff]
    intro i hi hown
    obtain ⟨j, -, rfl⟩ := List.mem_map.mp hi
    have := hlt _ hown
    omega
  rw [State.ownedSlots, hk, List.range_add, List.filter_append, hnone, List.append_nil]
  rfl

theorem mem_ownedSlots {s : State} {i : Nat} : i ∈ s.ownedSlots ↔ s.owns i = true := by
  simp only [State.ownedSlots, List.mem_reverse, List.mem_filter, List.mem_range,
    and_iff_right_iff_imp]
  exact BitSet.mem_lt_width

/-- A clean-up settles the slots that were owned. -/
theorem Cleaned.settles {m : Machine ω} {n : Nat} {ok : Nat → Bool} {held : Nat → State}
    {done failed : Status} {r : Status × Machine ω} (h : Cleaned m n ok held done failed r)
    (ha : m.state.active = true) {ids : Nat → ThreadId} {slots : List Nat}
    (hslots : ∀ i, i ∈ slots ↔ m.state.owns i = true)
    (hids : ∀ i ∈ slots, ids i = m.state.threadId i) : Settles ids slots ok done failed r := by
  rcases h.outcome with ⟨hst, hcleared, hall⟩ | ⟨hst, hs, hmask, ho⟩
  · have hok : ∀ i ∈ slots, ok i = true := fun i hi => hall i ((hslots i).mp hi)
    constructor
    · exact ⟨fun _ => hok, fun _ => ⟨hst, hcleared⟩⟩
    · rintro ⟨i, hi, hno⟩
      rw [hok i hi] at hno
      cases hno
  · have hactive : r.2.state.active = true := hs.active.trans ha
    constructor
    · constructor
      · rintro ⟨-, hcleared⟩
        rw [hcleared] at hactive
        cases hactive
      · intro hall
        refine absurd ((BitSet.eq_zero_iff _).mpr fun i => ?_) hmask
        have howns : r.2.state.owns i = (m.state.owns i && !ok i) := ho i
        cases hown : m.state.owns i with
        | false => rwa [hown] at howns
        | true => rwa [hall i ((hslots i).mpr hown), Bool.not_true, Bool.and_false] at howns
    · intro _
      refine ⟨hst, fun t => ?_⟩
      rw [holds_iff]
      constructor
      · rintro ⟨-, i, hi, hid⟩
        rw [ho, Bool.and_eq_true, Bool.not_eq_true'] at hi
        have hmem := (hslots i).mpr hi.1
        exact ⟨i, hmem, by rw [hids i hmem, ← hs.threadId, hid], hi.2⟩
      · rintro ⟨i, hmem, hid, hno⟩
        refine ⟨hactive, i, ?_, ?_⟩
        · rw [ho, (hslots i).mp hmem, hno]
          rfl
        · rw [hs.threadId, ← hids i hmem, hid]

theorem armed_ids {generation now duration : U64} {ids : Nat → ThreadId} {count n : Nat}
    (hn : n ≤ count) {i : Nat} (hi : i < n) :
    (armed generation now duration ids count).threadId i = ids i :=
  armed_threadId_lt _ _ _ _ _ _ (Nat.lt_of_lt_of_le hi hn)

section Courses

variable {m mid : Machine ω} {generation now duration : U64} {ids : Nat → ThreadId}
  {count stop : Nat} {held : Nat → State}

theorem Suspended.named
    (hs : Suspended (m.set (armed generation now duration ids count)) 0 stop held mid)
    (hle : stop ≤ count) : ∀ i, i < stop → mid.state.threadId i = ids i := by
  intro i hi
  exact (hs.same.threadId i).trans (armed_ids hle hi)

theorem armed_suspends (hle : stop ≤ count) :
    (suspends (armed generation now duration ids count) 0 stop held).map Event.attempt =
      suspendsOf ids stop := by
  rw [attempt_suspends]
  apply List.map_congr_left
  intro i hi
  rw [armed_ids hle (List.mem_range.mp hi)]

/-- Every thread was suspended. -/
theorem suspended_began (hv : ValidBegin generation now duration ids count)
    (hs : Suspended (m.set (armed generation now duration ids count)) 0 count held mid) :
    Began ids count m (.ok, mid.setFailed 0) := by
  have hids := hs.named (Nat.le_refl count)
  have hlog : (mid.setFailed 0).log =
      m.log ++ suspends (armed generation now duration ids count) 0 count held := hs.log
  refine .suspended ?_ rfl ?_
  · rw [traceOf_eq hlog, armed_suspends (Nat.le_refl count)]
  · intro t
    rw [holds_iff]
    constructor
    · rintro ⟨-, i, hi, hid⟩
      rw [setFailed_owns, hs.owns] at hi
      have hi : i < count := of_decide_eq_true hi
      exact ⟨i, hi, (hids i hi).symm.trans hid⟩
    · rintro ⟨i, hi, hid⟩
      refine ⟨(hs.isArmed hv (Nat.le_refl count)).active, i, ?_, (hids i hi).trans hid⟩
      rw [setFailed_owns, hs.owns]
      exact decide_eq_true hi

/-- A suspend failed, and what was suspended before it was rolled back. -/
theorem rolledBack_began {suspend : ThreadOperation ω} {ok : Nat → Bool} {held' : Nat → State}
    {r : Status × Machine ω} (hv : ValidBegin generation now duration ids count)
    (hs : Suspended (m.set (armed generation now duration ids count)) 0 stop held mid)
    (hlt : stop < count) (hfailed : (mid.issue .suspend suspend stop).1 = false)
    (hc : Cleaned (mid.issue .suspend suspend stop).2 stop ok held' .suspendFailed
      .rollbackFailed r) : Began ids count m r := by
  have hle := Nat.le_of_lt hlt
  have hids := hs.named hle
  have hlog : mid.log = m.log ++ suspends (armed generation now duration ids count) 0 stop held :=
    hs.log
  have hown : ∀ i, i ∈ (List.range stop).reverse ↔
      (mid.issue .suspend suspend stop).2.state.owns i = true := by
    intro i
    rw [hs.issued_owns, List.mem_reverse, List.mem_range]
  have hbelow : mid.state.ownedBelow stop = List.range stop := by
    refine List.filter_eq_self.mpr fun i hi => ?_
    exact (hown i).mp (List.mem_reverse.mpr hi)
  have hresumes : resumesOf mid.state.threadId (List.range stop).reverse ok =
      resumesOf ids (List.range stop).reverse ok := by
    apply List.map_congr_left
    intro i hi
    rw [hids i (List.mem_range.mp (List.mem_reverse.mp hi))]
  have hfail : mid.state.threadId stop = ids stop :=
    (hs.same.threadId stop).trans (armed_threadId_lt _ _ _ _ _ _ hlt)
  refine .rolledBack stop ok hlt ?_ (hc.settles (hs.isArmed hv hle).active hown ?_)
  · have hall := hc.log
    rw [Machine.issue_log, Machine.issue_state, hlog, hfailed, List.append_assoc,
      List.append_assoc] at hall
    rw [traceOf_eq hall, List.map_append, List.map_append, armed_suspends hle, attempt_attempts,
      hbelow, hresumes]
    simp [Event.attempt, hfail]
  · intro i hi
    exact (hids i (List.mem_range.mp (List.mem_reverse.mp hi))).symm

end Courses

/-- A begin that starts a transaction takes one of the two courses. -/
theorem suspendLoop_began (suspend resume : ThreadOperation ω) (m : Machine ω)
    {generation now duration : U64} {ids : Nat → ThreadId} {count : Nat}
    (hv : ValidBegin generation now duration ids count) :
    Began ids count m
      (suspendLoop suspend resume count 0 (m.set (armed generation now duration ids count))) := by
  obtain ⟨stop, held, mid, hle, hs, hout⟩ := began_cases suspend resume m hv
  rcases hout with ⟨rfl, hr⟩ | ⟨hlt, hfailed, ok, held', hc⟩
  · rw [hr]
    exact suspended_began hv hs
  · exact rolledBack_began hv hs hlt hfailed hc

/-- How a clean-up loop keeps its record along the callbacks it issues. -/
def noted (note : ThreadId → ThreadId → ThreadId) (old : ThreadId) (e : Event) : ThreadId :=
  if e.success then old else note old e.thread

/-- The recorded thread is a fold over the callbacks of the loop. -/
theorem resumeLoop_noted (resume : ThreadOperation ω) (note : ThreadId → ThreadId → ThreadId)
    (n : Nat) (failed : Bool) (m : Machine ω) :
    ∃ events, (resumeLoop resume note n failed m).2.log = m.log ++ events ∧
      (resumeLoop resume note n failed m).2.state.failedThreadId =
        events.foldl (noted note) m.state.failedThreadId := by
  induction n generalizing failed m with
  | zero => exact ⟨[], (List.append_nil _).symm, rfl⟩
  | succ n ih =>
    cases hn : m.state.owns n with
    | false =>
      rw [resumeLoop_free failed hn]
      exact ih failed m
    | true =>
      cases hb : (m.issue .resume resume n).1 with
      | true =>
        obtain ⟨events, hlog, hfold⟩ := ih failed ((m.issue .resume resume n).2.release n)
        rw [resumeLoop_released failed hn hb]
        refine ⟨⟨.resume, m.state.threadId n, true, m.state⟩ :: events, ?_, hfold⟩
        rw [hlog, Machine.release_log, Machine.issue_log, hb, List.append_assoc]
        rfl
      | false =>
        obtain ⟨events, hlog, hfold⟩ := ih true ((m.issue .resume resume n).2.setFailed
          (note m.state.failedThreadId (m.state.threadId n)))
        rw [resumeLoop_kept failed hn hb]
        refine ⟨⟨.resume, m.state.threadId n, false, m.state⟩ :: events, ?_, hfold⟩
        rw [hlog, Machine.setFailed_log, Machine.issue_log, hb, List.append_assoc]
        rfl

/-- Taking a thread only while none is recorded keeps the one that is. -/
theorem noted_keep (events : List Event) {t : ThreadId} (ht : t ≠ 0) :
    events.foldl (noted fun old thread => if old = 0 then thread else old) t = t := by
  induction events with
  | nil => rfl
  | cons e rest ih => simp [noted, ht, ih]

/-- From nothing recorded the first failure is taken. -/
theorem noted_first {events : List Event} (hpos : ∀ e ∈ events, e.thread ≠ 0) :
    events.foldl (noted fun old thread => if old = 0 then thread else old) 0 =
      ((events.find? (!·.success)).map Event.thread).getD 0 := by
  induction events with
  | nil => rfl
  | cons e rest ih =>
    have hrest := ih fun e he => hpos e (List.mem_cons_of_mem _ he)
    cases he : e.success with
    | true => simp [noted, he, hrest]
    | false => simp [noted, he, noted_keep rest (hpos e (List.mem_cons_self ..))]

/-- A resume that failed keeps the machine of the loop. -/
theorem resumeOwned_kept (resume : ThreadOperation ω) {m : Machine ω} {n : Nat} {ok : Nat → Bool}
    {held : Nat → State} (hc : Cleaned m n ok held .ok .resumeFailed (resumeOwned resume m))
    {i : Nat} (hi : m.state.owns i = true) (hno : ok i = false) :
    (resumeOwned resume m).2 = endLoop resume m.state.threadCount (m.setFailed 0) := by
  rw [resumeOwned]
  by_cases hmask : (endLoop resume m.state.threadCount (m.setFailed 0)).state.ownedMask = 0
  · rcases hc.outcome with ⟨-, -, hall⟩ | ⟨hst, -⟩
    · rw [hall i hi] at hno
      cases hno
    · rw [resumeOwned, if_neg (not_not.mpr hmask)] at hst
      cases hst
  · rw [if_pos hmask]

/-- An end that leaves something owned names its first failed resume. -/
theorem resumeOwned_first (resume : ThreadOperation ω) {m : Machine ω} (ha : Armed m.state)
    {ok : Nat → Bool} {held : Nat → State}
    (hc : Cleaned m m.state.threadCount ok held .ok .resumeFailed (resumeOwned resume m))
    (hfailed : ∃ i ∈ m.state.ownedSlots, ok i = false) :
    (m.state.ownedSlots.find? (!ok ·)).map m.state.threadId =
      some (resumeOwned resume m).2.state.failedThreadId := by
  obtain ⟨i, hi, hno⟩ := hfailed
  have hkept := resumeOwned_kept resume hc (mem_ownedSlots.mp hi) hno
  obtain ⟨events, hlog, hfold⟩ := resumeLoop_noted resume
    (fun old thread => if old = 0 then thread else old) m.state.threadCount false (m.setFailed 0)
  have hevents : events = attempts m.state m.state.threadCount ok held := by
    have hlog' := hc.log
    rw [hkept, endLoop, hlog] at hlog'
    exact List.append_cancel_left hlog'
  have hpos : ∀ e ∈ events, e.thread ≠ 0 := by
    rw [hevents]
    intro e he
    obtain ⟨j, hj, -, rfl⟩ := mem_attempts he
    exact Int.ne_of_gt (ha.positive j hj)
  have hslots := ownedSlots_eq ha.count_le ha.owned_lt
  have hfind : (events.find? (!·.success)).map Event.thread =
      (m.state.ownedSlots.find? (!ok ·)).map m.state.threadId := by
    rw [hevents, attempts, ← hslots, List.find?_map, Option.map_map]
    rfl
  have hsome : (m.state.ownedSlots.find? (!ok ·)).isSome = true := by
    rw [List.find?_isSome]
    exact ⟨i, hi, by rw [hno]; rfl⟩
  obtain ⟨j, hj⟩ := Option.isSome_iff_exists.mp hsome
  rw [hkept]
  show _ = some (endLoop resume m.state.threadCount (m.setFailed 0)).state.failedThreadId
  rw [endLoop, hfold]
  show _ = some (events.foldl _ 0)
  rw [noted_first hpos, hfind, hj]
  rfl

theorem resumeOwned_ended (resume : ThreadOperation ω) {m : Machine ω} (ha : Armed m.state) :
    ∃ ok, Ended m ok (resumeOwned resume m) := by
  obtain ⟨ok, held, hc⟩ := resumeOwned_cleaned resume m ha.owned_lt
  refine ⟨ok, ?_, ?_, resumeOwned_first resume ha hc⟩
  · rw [traceOf_eq hc.log, attempt_attempts, ← ownedSlots_eq ha.count_le ha.owned_lt]
  · exact hc.settles ha.active (fun i => mem_ownedSlots) fun _ _ => rfl

/-- A call that is no begin resumes only what it lets go of. -/
theorem call_resumed (t : ThreadId) (m : Machine ω) (c : Call ω) (hv : Valid m.state)
    (hc : c.isBegin = false) :
    succeeded .resume t (call m c).2.log + (call m c).2.state.outstanding t ≤
      succeeded .resume t m.log + m.state.outstanding t := by
  have hstep := call_step m c
  have harmed : m.state.active = true → Armed m.state := hv.armed
  generalize call m c = r at hstep
  cases hstep with
  | rejected _ status hr => exact Int.le_refl _
  | began suspend resume generation now duration ids count hvb hactive hmask => cases hc
  | ended suspend resume generation hactive hgen =>
    obtain ⟨ok, held, hcl⟩ := resumeOwned_cleaned resume m (harmed hactive).owned_lt
    exact Int.le_of_eq (hcl.balance (harmed hactive) (harmed hactive).owned_lt t).2
  | idled suspend resume generation now hactive hgen hin => exact Int.le_refl _
  | expired suspend resume generation now hactive hgen hout =>
    obtain ⟨ok, held, hcl⟩ := resumeOwned_cleaned resume m (harmed hactive).owned_lt
    exact Int.le_of_eq (hcl.balance (harmed hactive) (harmed hactive).owned_lt t).2
  | abandoned generation hactive hgen =>
    have hpos : 0 ≤ m.state.outstanding t := by
      rw [State.outstanding]
      split <;> decide
    simp only [Machine.clear_log, Machine.clear_state, State.outstanding, cleared_holds,
      Bool.false_eq_true, if_false] at hpos ⊢
    omega

theorem outstanding_range (s : State) (t : ThreadId) :
    0 ≤ s.outstanding t ∧ s.outstanding t ≤ 1 := by
  rw [State.outstanding]
  split <;> decide

/-- A begin resumes in its rollback at most what it has suspended. -/
theorem begin_resumed (t : ThreadId) (m : Machine ω) (c : Call ω) (hc : c.isBegin = true) :
    succeeded .resume t (call m c).2.log + (call m c).2.state.outstanding t ≤
      succeeded .resume t m.log + 1 := by
  have hstep := call_step m c
  generalize call m c = r at hstep
  cases hstep with
  | rejected _ status hr => exact Int.add_le_add_left (outstanding_range m.state t).2 _
  | began suspend resume generation now duration ids count hv hactive hmask =>
    obtain ⟨stop, held, mid, hle, hs, hout⟩ := began_cases suspend resume m hv
    obtain ⟨-, hresume⟩ := hs.balance hv hle t
    have hone := (outstanding_range mid.state t).2
    rcases hout with ⟨-, hr⟩ | ⟨-, hfailed, ok, held', hcl⟩
    · rw [hr]
      show succeeded .resume t mid.log + mid.state.outstanding t ≤ _
      rw [hresume]
      exact Int.add_le_add_left hone _
    · have hback := (hcl.balance (hs.isArmed hv hle) (fun i => (hs.issued_owns suspend i).mp) t).2
      rw [issue_failed_count hfailed, Machine.issue_state, hresume] at hback
      rw [hback]
      exact Int.add_le_add_left hone _
  | ended | idled | expired | abandoned => cases hc

/-- Over calls that are no begins a thread is resumed at most as often as it is held. -/
theorem run_resumed (t : ThreadId) (calls : List (Call ω))
    (hcalls : ∀ c ∈ calls, c.isBegin = false) (m : Machine ω) (hv : Valid m.state) :
    (succeeded .resume t (Trace.final call m calls).log : Int) ≤
      succeeded .resume t m.log + m.state.outstanding t := by
  induction calls generalizing m with
  | nil =>
    have hpos := (outstanding_range m.state t).1
    rw [Trace.final_nil]
    omega
  | cons c rest ih =>
    have hstep := call_resumed t m c hv (hcalls c (List.mem_cons_self ..))
    have hrest := ih (fun c hc => hcalls c (List.mem_cons_of_mem _ hc)) (call m c).2
      (call_valid m c hv)
    rw [Trace.final_cons]
    omega

/-- What the callbacks of begin, end and their retries look like in a state. -/
structure CallbackLaw (m : Machine ω) : Prop where
  accepts : ∀ given generation now duration threadIds count operations,
    (vcPauseBegin given generation now duration threadIds count operations m).1.rejects = false ↔
      m.state.active = false ∧ given = true ∧ ∃ ids suspend resume, threadIds = some ids ∧
        operations = some ⟨some suspend, some resume⟩ ∧
        ValidBegin generation now duration ids count
  begins : m.state.active = false → ∀ generation now duration ids count suspend resume,
    ValidBegin generation now duration ids count →
      Began ids count m (vcPauseBegin true generation now duration (some ids) count
        (some ⟨some suspend, some resume⟩) m)
  ends : m.state.active = true → ∀ suspend resume, ∃ ok,
    Ended m ok (vcPauseEnd true m.state.targetGeneration (some ⟨suspend, some resume⟩) m)
  retries : ∀ calls : List (Call ω), (∀ c ∈ calls, c.isBegin = false) → ∀ t,
    succeeded .resume t (Trace.final call m calls).log ≤
      succeeded .resume t m.log + if m.state.holds t then 1 else 0
  begun : ∀ (c : Call ω) (calls : List (Call ω)), c.isBegin = true →
    (∀ c ∈ calls, c.isBegin = false) → ∀ t,
      succeeded .resume t (Trace.final call m (c :: calls)).log ≤ succeeded .resume t m.log + 1

theorem vcPauseEnd_active {m : Machine ω} (ha : Armed m.state)
    (suspend : Option (ThreadOperation ω)) (resume : ThreadOperation ω) :
    vcPauseEnd true m.state.targetGeneration (some ⟨suspend, some resume⟩) m =
      resumeOwned resume m := by
  simp [vcPauseEnd, ha.generation, ha.active]

theorem Valid.inactive_mask {s : State} (h : Valid s) (hactive : s.active = false) :
    s.ownedMask = 0 := by
  rcases h with hcleared | ⟨ha, -⟩
  · rw [hcleared]
    rfl
  · rw [ha.active] at hactive
    cases hactive

/-- Begin accepts exactly what is in order, on an inactive state. -/
theorem begin_accepted {m : Machine ω} (hv : Valid m.state) {given : Bool}
    {generation now duration : U64} {threadIds : Option (Nat → ThreadId)} {count : Nat}
    {operations : Option (Operations ω)} :
    (vcPauseBegin given generation now duration threadIds count operations m).1.rejects = false ↔
      m.state.active = false ∧ given = true ∧ ∃ ids suspend resume, threadIds = some ids ∧
        operations = some ⟨some suspend, some resume⟩ ∧
        ValidBegin generation now duration ids count := by
  constructor
  · intro h
    have hstep := begin_step m given generation now duration threadIds count operations
    generalize vcPauseBegin given generation now duration threadIds count operations m = r
      at hstep h
    cases hstep with
    | rejected _ status hr =>
      have hno : status.rejects = false := h
      rw [hr] at hno
      cases hno
    | began suspend resume _ _ _ ids _ hvb hactive hmask =>
      exact ⟨hactive, rfl, ids, suspend, resume, rfl, rfl, hvb⟩
  · rintro ⟨hactive, rfl, ids, suspend, resume, rfl, rfl, hvb⟩
    rw [begin_valid hactive (hv.inactive_mask hactive) hvb]
    exact suspendLoop_rejects suspend resume m hvb

end VitaCheat.Pause
