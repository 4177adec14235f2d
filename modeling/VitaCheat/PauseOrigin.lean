import VitaCheat.PauseLedger

/-!
# Which begin a resume belongs to

History induction along a run: an active transaction was set up by one begin of
the past, with the generation that is still recorded, and nothing has been
suspended since. Every resume is therefore issued on behalf of that begin.
-/
namespace VitaCheat.Pause

variable {ω : Type}

def Call.isBegin : Call ω → Bool
  | .pauseBegin .. => true
  | _ => false

def Call.isCleanup : Call ω → Bool
  | .pauseEnd .. | .pauseTick .. => true
  | _ => false

def Call.generation : Call ω → U64
  | .pauseBegin _ generation _ _ _ _ _ => generation
  | .pauseEnd _ generation _ => generation
  | .pauseTick _ generation _ _ => generation
  | .pauseAbandon _ generation => generation

/-- The callbacks include a successful suspend of the thread. -/
def SuspendedIn (events : List Event) (t : ThreadId) : Prop :=
  ∃ s ∈ events, s.action = .suspend ∧ s.thread = t ∧ s.success = true

/-- The last entry of the past that suspended anything is a begin with this
generation, and it suspended the thread. -/
def SuspendedBy (past : List (Entry ω)) (generation : U64) (t : ThreadId) : Prop :=
  ∃ before b since, past = before ++ b :: since ∧ b.input.isBegin = true ∧
    b.input.generation = generation ∧ SuspendedIn (issued b) t ∧
    ∀ x ∈ since, ∀ s ∈ issued x, s.action ≠ .suspend

/-- A resume for an owned thread, in the rollback of the begin that suspended it
or in an end or tick with the generation of the begin that suspended it. -/
def Authorised (past : List (Entry ω)) (e : Entry ω) (earlier : List Event) (r : Event) : Prop :=
  r.held.holds r.thread = true ∧
    ((e.input.isBegin = true ∧ SuspendedIn earlier r.thread ∧
        ∃ f ∈ earlier, f.action = .suspend ∧ f.success = false) ∨
      (e.input.isCleanup = true ∧ SuspendedBy past e.input.generation r.thread))

/-- Every owned slot was suspended by the begin of the recorded generation. -/
def Origin (past : List (Entry ω)) (s : State) : Prop :=
  s.active = true → ∀ i, s.owns i = true → SuspendedBy past s.targetGeneration (s.threadId i)

theorem SuspendedBy.step {past : List (Entry ω)} {generation : U64} {t : ThreadId} {e : Entry ω}
    (h : SuspendedBy past generation t) (he : ∀ s ∈ issued e, s.action ≠ .suspend) :
    SuspendedBy (past ++ [e]) generation t := by
  obtain ⟨before, b, since, hp, hb, hg, ht, hs⟩ := h
  refine ⟨before, b, since ++ [e], by simp [hp], hb, hg, ht, ?_⟩
  intro x hx
  rcases List.mem_append.mp hx with hx | hx
  · exact hs x hx
  · rw [List.mem_singleton.mp hx]; exact he

/-- An element that is not in the first list lies in the second. -/
theorem split_right {α : Type} {xs ys earlier rest : List α} {a : α} (ha : a ∉ xs)
    (h : xs ++ ys = earlier ++ a :: rest) : ∃ l, earlier = xs ++ l ∧ ys = l ++ a :: rest := by
  rcases List.append_eq_append_iff.mp h with ⟨l, he, hy⟩ | ⟨l, hx, ht⟩
  · exact ⟨l, he, hy⟩
  · cases l with
    | nil => exact ⟨[], by simpa using hx.symm, by simpa using ht.symm⟩
    | cons b l =>
      have hb : a = b := (List.cons.inj ht).1
      exact absurd (by rw [hx, hb]; simp) ha

/-- Every attempt is made in a state that holds the thread. -/
theorem Cleaned.attempt_held {m : Machine ω} {n : Nat} {ok : Nat → Bool} {held : Nat → State}
    {done failed : Status} {r : Status × Machine ω} (h : Cleaned m n ok held done failed r)
    (ha : m.state.active = true) {e : Event} (he : e ∈ attempts m.state n ok held) :
    e.held.holds e.thread = true ∧ ∃ i, m.state.owns i = true ∧ e.thread = m.state.threadId i := by
  obtain ⟨i, hi, ho, rfl⟩ := mem_attempts he
  obtain ⟨hs, hh⟩ := h.held i hi ho
  exact ⟨holds_iff.mpr ⟨hs.active.trans ha, i, hh, hs.threadId i⟩, i, ho, rfl⟩

theorem mem_suspends {s : State} {stop i : Nat} (held : Nat → State) (hi : i < stop) :
    SuspendedIn (suspends s 0 stop held) (s.threadId i) := by
  refine ⟨⟨.suspend, s.threadId i, true, held i⟩, ?_, rfl, rfl, rfl⟩
  simp only [suspends, List.mem_map]
  exact ⟨i, by simpa [List.mem_range'_1] using hi, rfl⟩

theorem SuspendedIn.append {xs : List Event} {t : ThreadId} (h : SuspendedIn xs t)
    (ys : List Event) : SuspendedIn (xs ++ ys) t := by
  obtain ⟨s, hs, hp⟩ := h
  exact ⟨s, List.mem_append_left _ hs, hp⟩

theorem suspends_action {s : State} {n : Nat} {held : Nat → State} :
    ∀ x ∈ suspends s 0 n held, x.action = .suspend := by
  intro x hx
  simp only [suspends, List.mem_map] at hx
  obtain ⟨i, -, rfl⟩ := hx
  rfl

/-- What the events of a begin account for. -/
structure BeginEvents (m : Machine ω) (generation : U64) (r : Status × Machine ω)
    (events : List Event) : Prop where
  log : r.2.log = m.log ++ events
  owned : r.2.state.active = true → ∀ i, r.2.state.owns i = true →
    r.2.state.targetGeneration = generation ∧ SuspendedIn events (r.2.state.threadId i)
  resumed : ∀ earlier e rest, events = earlier ++ e :: rest → e.action = .resume →
    e.held.holds e.thread = true ∧ SuspendedIn earlier e.thread ∧
      ∃ f ∈ earlier, f.action = .suspend ∧ f.success = false

section Courses

variable {m mid : Machine ω} {generation now duration : U64} {ids : Nat → ThreadId}
  {count stop : Nat} {held : Nat → State}

/-- Suspends alone: everything that is owned is among them. -/
theorem suspended_events
    (hs : Suspended (m.set (armed generation now duration ids count)) 0 stop held mid) :
    BeginEvents m generation (.ok, mid.setFailed 0)
      (suspends (armed generation now duration ids count) 0 stop held) where
  log := hs.log
  owned := by
    intro _ i hi
    have hi' : i < stop := by
      rw [setFailed_owns, hs.owns] at hi
      simpa using hi
    have hid : (mid.setFailed 0).state.threadId i =
        (armed generation now duration ids count).threadId i := hs.same.threadId i
    refine ⟨hs.same.targetGeneration, ?_⟩
    rw [hid]
    exact mem_suspends held hi'
  resumed := by
    intro earlier e rest he ha
    have hsuspend := suspends_action e (by rw [he]; simp)
    rw [ha] at hsuspend
    cases hsuspend

/-- Suspends up to one that fails, and the attempts of the rollback. -/
theorem rolledBack_events {suspend : ThreadOperation ω} {ok : Nat → Bool} {held' : Nat → State}
    {r : Status × Machine ω} (hv : ValidBegin generation now duration ids count)
    (hle : stop ≤ count)
    (hs : Suspended (m.set (armed generation now duration ids count)) 0 stop held mid)
    (hb : (mid.issue .suspend suspend stop).1 = false)
    (hc : Cleaned (mid.issue .suspend suspend stop).2 stop ok held' .suspendFailed
      .rollbackFailed r) :
    BeginEvents m generation r ((suspends (armed generation now duration ids count) 0 stop held ++
      [⟨.suspend, mid.state.threadId stop, false, mid.state⟩]) ++
        attempts mid.state stop ok held') where
  log := by
    have hlog : mid.log =
        m.log ++ suspends (armed generation now duration ids count) 0 stop held := hs.log
    rw [hc.log, Machine.issue_log, Machine.issue_state, hlog, hb]
    simp
  owned := by
    intro ha i hi
    rcases hc.outcome with ⟨-, hcl, -⟩ | ⟨-, hsame, -, ho⟩
    · rw [hcl] at ha; cases ha
    · rw [ho, Bool.and_eq_true] at hi
      have hsame' := hsame.trans hs.same
      refine ⟨hsame'.targetGeneration, ?_⟩
      rw [hsame'.threadId i]
      exact ((mem_suspends held ((hs.issued_owns suspend i).mp hi.1)).append _).append _
  resumed := by
    intro earlier e rest he ha
    -- a resume can only stand among the attempts, after all suspends
    have hnot : e ∉ suspends (armed generation now duration ids count) 0 stop held ++
        [⟨.suspend, mid.state.threadId stop, false, mid.state⟩] := by
      intro hmem
      rcases List.mem_append.mp hmem with hmem | hmem
      · rw [suspends_action e hmem] at ha; cases ha
      · rw [List.mem_singleton.mp hmem] at ha; cases ha
    obtain ⟨l, hl, hatt⟩ := split_right hnot he
    have hactive : (mid.issue .suspend suspend stop).2.state.active = true :=
      (hs.isArmed hv hle).active
    have hmem : e ∈ attempts (mid.issue .suspend suspend stop).2.state stop ok held' := by
      rw [Machine.issue_state, hatt]; simp
    obtain ⟨hheld, i, ho, ht⟩ := hc.attempt_held hactive hmem
    have hid : mid.state.threadId i = (armed generation now duration ids count).threadId i :=
      hs.same.threadId i
    refine ⟨hheld, ?_, ⟨.suspend, mid.state.threadId stop, false, mid.state⟩, ?_, rfl, rfl⟩
    · rw [hl, ht, Machine.issue_state, hid]
      exact ((mem_suspends held ((hs.issued_owns suspend i).mp ho)).append _).append _
    · rw [hl]
      simp

end Courses

/-- The events of a begin: the suspends, and on failure the rollback. -/
theorem began_events (suspend resume : ThreadOperation ω) (m : Machine ω)
    {generation now duration : U64} {ids : Nat → ThreadId} {count : Nat}
    (hv : ValidBegin generation now duration ids count) :
    ∃ events, BeginEvents m generation (suspendLoop suspend resume count 0
      (m.set (armed generation now duration ids count))) events := by
  obtain ⟨stop, held, mid, hle, hs, hout⟩ := began_cases suspend resume m hv
  rcases hout with ⟨-, hr⟩ | ⟨-, hb, ok, held', hc⟩
  · rw [hr]
    exact ⟨_, suspended_events hs⟩
  · exact ⟨_, rolledBack_events hv hle hs hb hc⟩

/-- The entry of a call with a given answer. -/
def recorded (m : Machine ω) (c : Call ω) (r : Status × Machine ω) : Entry ω := ⟨m, c, r.1, r.2⟩

/-- A call keeps the origin of what is owned, and its resumes are authorised. -/
structure KeepsOrigin (past : List (Entry ω)) (m : Machine ω) (c : Call ω)
    (r : Status × Machine ω) : Prop where
  origin : Origin (past ++ [recorded m c r]) r.2.state
  authorised : ∀ earlier e rest, issued (recorded m c r) = earlier ++ e :: rest →
    e.action = .resume → Authorised past (recorded m c r) earlier e

theorem keepsOrigin_quiet {past : List (Entry ω)} {m : Machine ω} (c : Call ω) (status : Status)
    (h : Origin past m.state) : KeepsOrigin past m c (status, m) := by
  have hi : issued (recorded m c (status, m)) = [] :=
    issued_eq (by simp only [recorded, List.append_nil])
  constructor
  · intro ha i ho
    exact (h ha i ho).step (by rw [hi]; simp)
  · intro earlier e rest hs
    rw [hi] at hs
    simp at hs

theorem keepsOrigin_resume {past : List (Entry ω)} {m : Machine ω} {c : Call ω}
    {r : Status × Machine ω} (resume : ThreadOperation ω) (ha : Armed m.state)
    (h : Origin past m.state) (hc : c.isCleanup = true)
    (hg : m.state.targetGeneration = c.generation) (hr : r.2 = (resumeOwned resume m).2) :
    KeepsOrigin past m c r := by
  obtain ⟨ok, held, hcl⟩ := resumeOwned_cleaned resume m ha.owned_lt
  have hi : issued (recorded m c r) = attempts m.state m.state.threadCount ok held :=
    issued_eq (by simp only [recorded]; rw [hr]; exact hcl.log)
  constructor
  · rw [hr]
    intro hactive i ho
    rcases hcl.outcome with ⟨-, hcleared, -⟩ | ⟨-, hsame, -, howns⟩
    · rw [hcleared] at hactive; cases hactive
    · rw [howns, Bool.and_eq_true] at ho
      rw [hsame.targetGeneration, hsame.threadId]
      exact (h ha.active i ho.1).step (by rw [hi]; exact attempts_action)
  · intro earlier e rest hs _
    obtain ⟨hheld, i, ho, ht⟩ := hcl.attempt_held ha.active (e := e) (by rw [← hi, hs]; simp)
    refine ⟨hheld, Or.inr ⟨hc, ?_⟩⟩
    have := h ha.active i ho
    rw [hg] at this
    rw [ht]
    exact this

theorem keepsOrigin_began {past : List (Entry ω)} {m : Machine ω}
    (suspend resume : ThreadOperation ω) {generation now duration : U64} {ids : Nat → ThreadId}
    {count : Nat} (operations : Option (Operations ω))
    (hv : ValidBegin generation now duration ids count) :
    KeepsOrigin past m (.pauseBegin true generation now duration (some ids) count operations)
      (suspendLoop suspend resume count 0 (m.set (armed generation now duration ids count))) := by
  obtain ⟨events, hlog, horigin, hres⟩ := began_events suspend resume m hv
  have hi := issued_eq (e := recorded m
    (.pauseBegin true generation now duration (some ids) count operations) _) hlog
  constructor
  · intro hactive i ho
    obtain ⟨hg, ht⟩ := horigin hactive i ho
    rw [hg]
    exact ⟨past, _, [], rfl, rfl, rfl, by rw [hi]; exact ht, by simp⟩
  · intro earlier e rest hs ha
    rw [hi] at hs
    obtain ⟨hheld, hsus⟩ := hres earlier e rest hs ha
    exact ⟨hheld, Or.inl ⟨rfl, hsus⟩⟩

theorem call_origin (past : List (Entry ω)) (m : Machine ω) (c : Call ω) (hv : Valid m.state)
    (h : Origin past m.state) : KeepsOrigin past m c (call m c) := by
  have hstep := call_step m c
  generalize call m c = r at hstep
  have harmed : m.state.active = true → Armed m.state := hv.armed
  cases hstep with
  | rejected _ status _ => exact keepsOrigin_quiet c status h
  | began suspend resume generation now duration ids count hvb hactive hmask =>
    exact keepsOrigin_began suspend resume _ hvb
  | ended suspend resume generation hactive hgen =>
    exact keepsOrigin_resume resume (harmed hactive) h rfl hgen rfl
  | idled suspend resume generation now hactive hgen hin => exact keepsOrigin_quiet _ .ok h
  | expired suspend resume generation now hactive hgen hout =>
    exact keepsOrigin_resume resume (harmed hactive) h rfl hgen rfl
  | abandoned generation hactive hgen =>
    have hi : issued (recorded m (.pauseAbandon true generation) (.ok, m.clear)) = [] :=
      issued_eq (by simp only [recorded, Machine.clear_log, List.append_nil])
    constructor
    · intro ha
      cases ha
    · intro earlier e rest hs
      rw [hi] at hs
      simp at hs

/-- The invariant along a run: the state, the origin of what is owned, and the
ledger of each thread. -/
theorem run_exact (world : ω) (calls : List (Call ω)) :
    Valid (Trace.final call (vcPauseStateInit world) calls).state ∧
      Origin (Trace.run call (vcPauseStateInit world) calls)
        (Trace.final call (vcPauseStateInit world) calls).state ∧
      ∀ t, ledger t (Trace.run call (vcPauseStateInit world) calls)
        (Trace.final call (vcPauseStateInit world) calls) =
          (Trace.final call (vcPauseStateInit world) calls).state.outstanding t := by
  apply Trace.history_invariant call (fun past m => Valid m.state ∧ Origin past m.state ∧
    ∀ t, ledger t past m = m.state.outstanding t)
  · refine ⟨Or.inl rfl, ?_, fun t => rfl⟩
    intro ha
    cases ha
  · rintro past m c ⟨hv, ho, hl⟩
    exact ⟨call_valid m c hv, (call_origin past m c hv ho).origin,
      fun t => call_ledger t past m c hv (hl t)⟩

end VitaCheat.Pause
