import VitaCheat.PauseInvariant

/-!
# The watchdog

A watched transaction is one successful or half-rolled-back begin followed by
ticks and ends of its generation with non-null callbacks. A tick compares its
timestamp with the start and the deadline only; what follows from that for
whole timestamp histories is stated here, including where the code falls short
of the clock-rollback rule of `pause.h`.
-/
namespace VitaCheat.Pause

variable {ω : Type}

/-- A tick of the watched transaction with non-null callbacks. -/
structure Tick (ω : Type) where
  nowMs : U64
  suspend : Option (ThreadOperation ω)
  resume : ThreadOperation ω

def tick (generation : U64) (m : Machine ω) (t : Tick ω) : Status × Machine ω :=
  vcPauseTick true generation t.nowMs (some ⟨t.suspend, some t.resume⟩) m

/-- A tick or an end of the watched transaction. -/
inductive Watch (ω : Type) where
  | tick (t : Tick ω)
  | finish (suspend : Option (ThreadOperation ω)) (resume : ThreadOperation ω)

def watch (generation : U64) (m : Machine ω) : Watch ω → Status × Machine ω
  | .tick t => Pause.tick generation m t
  | .finish suspend resume => vcPauseEnd true generation (some ⟨suspend, some resume⟩) m

/-- The resumes of all owned threads in descending slot order. -/
def State.ownedResumes (s : State) : List (Action × ThreadId) :=
  (s.ownedBelow s.threadCount).reverse.map fun i => (.resume, s.threadId i)

/-- Exactly the owned threads are attempted, once each and in reverse order. -/
def ResumesOwned {α : Type} (e : Trace.Entry (Machine ω) α Status) : Prop :=
  (issued e).map (fun r => (r.action, r.thread)) = e.before.state.ownedResumes

/-- The owned threads after the entry are those whose resume failed in it. -/
def KeepsFailed {α : Type} (e : Trace.Entry (Machine ω) α Status) : Prop :=
  ∀ t, e.after.state.holds t = true ↔ ∃ r ∈ issued e, r.thread = t ∧ r.success = false

/-- An entry that runs the resume loop attempts what is owned; either all
succeed and the state is cleared, or the failed threads stay owned. -/
theorem resumed_entry {α : Type} (m : Machine ω) (a : α) (status : Status)
    (resume : ThreadOperation ω) (ha : Armed m.state) {e : Trace.Entry (Machine ω) α Status}
    (he : e = ⟨m, a, status, (resumeOwned resume m).2⟩) :
    ResumesOwned e ∧
      (((∀ r ∈ issued e, r.success = true) ∧ (resumeOwned resume m).1 = .ok ∧
          e.after.state = cleared) ∨
        ((∃ r ∈ issued e, r.success = false) ∧ (resumeOwned resume m).1 = .resumeFailed ∧
          e.after.state.active = true ∧ KeepsFailed e)) := by
  subst he
  obtain ⟨ok, held, hc⟩ := resumeOwned_cleaned resume m ha.owned_lt
  have hi : issued (⟨m, a, status, (resumeOwned resume m).2⟩ : Trace.Entry _ α _) =
      attempts m.state m.state.threadCount ok held := issued_eq hc.log
  refine ⟨?_, ?_⟩
  · rw [ResumesOwned, hi, attempts, List.map_map]
    rfl
  · rw [hi]
    rcases hc.outcome with ⟨hok, hcl, hall⟩ | ⟨hf, hsame, hz, ho⟩
    · refine Or.inl ⟨?_, hok, hcl⟩
      intro r hr
      obtain ⟨i, -, hown, rfl⟩ := mem_attempts hr
      exact hall i hown
    · -- a slot that is still owned names a failed attempt, and conversely
      have hkeep : ∀ i, (resumeOwned resume m).2.state.owns i = true ↔
          m.state.owns i = true ∧ ok i = false := by
        intro i
        rw [ho]
        simp
      have hactive := hsame.active.trans ha.active
      have hmem : ∀ i, m.state.owns i = true → (⟨.resume, m.state.threadId i, ok i, held i⟩ : Event) ∈
          attempts m.state m.state.threadCount ok held := by
        intro i hown
        simp only [attempts, List.mem_map, List.mem_reverse]
        exact ⟨i, mem_ownedBelow.mpr ⟨ha.owned_lt i hown, hown⟩, rfl⟩
      refine Or.inr ⟨?_, hf, hactive, ?_⟩
      · obtain ⟨i, hown⟩ : ∃ i, (resumeOwned resume m).2.state.owns i = true := by
          by_contra hno
          push Not at hno
          exact hz ((BitSet.eq_zero_iff _).mpr (fun i => by simpa [State.owns] using hno i))
        obtain ⟨hown', hk⟩ := (hkeep i).mp hown
        exact ⟨_, hmem i hown', hk⟩
      · intro t
        rw [hi, holds_iff]
        constructor
        · rintro ⟨-, i, hown, ht⟩
          obtain ⟨hown', hk⟩ := (hkeep i).mp hown
          exact ⟨_, hmem i hown', (hsame.threadId i).symm.trans ht, hk⟩
        · rintro ⟨r, hr, ht, hk⟩
          obtain ⟨i, -, hown, rfl⟩ := mem_attempts hr
          exact ⟨hactive, i, (hkeep i).mpr ⟨hown, hk⟩, (hsame.threadId i).trans ht⟩

/-- A tick of the recorded generation on an armed state, inside the window. -/
theorem tick_inside {m : Machine ω} (ha : Armed m.state) (t : Tick ω)
    (hin : m.state.inWindow t.nowMs = true) :
    tick m.state.targetGeneration m t = (.ok, m) := by
  have hin' : (t.nowMs ≥ m.state.startedMs && t.nowMs < m.state.deadlineMs) = true := hin
  simp [tick, vcPauseTick, ha.generation, ha.active, hin']

/-- A tick of the recorded generation on an armed state, outside the window. -/
theorem tick_outside {m : Machine ω} (ha : Armed m.state) (t : Tick ω)
    (hout : m.state.inWindow t.nowMs = false) :
    tick m.state.targetGeneration m t =
      (expiry (resumeOwned t.resume m).1, (resumeOwned t.resume m).2) := by
  have hout' : (t.nowMs ≥ m.state.startedMs && t.nowMs < m.state.deadlineMs) = false := hout
  simp only [tick, vcPauseTick, vcPauseEnd, ha.active, hout', expiry]
  simp [ha.generation]

theorem finish_live {m : Machine ω} (ha : Armed m.state) (suspend : Option (ThreadOperation ω))
    (resume : ThreadOperation ω) :
    watch m.state.targetGeneration m (.finish suspend resume) = resumeOwned resume m := by
  simp [watch, vcPauseEnd, ha.generation, ha.active]

theorem watch_inactive {m : Machine ω} (h : m.state.active = false) {generation : U64}
    (hg : generation ≠ 0#64) (c : Watch ω) : watch generation m c = (.notActive, m) := by
  cases c <;> simp [watch, tick, vcPauseTick, vcPauseEnd, hg, h]

/-- Outside the window means before the start or at or past the deadline. -/
theorem not_inWindow {s : State} {now : U64} :
    s.inWindow now = false ↔ now < s.startedMs ∨ s.deadlineMs ≤ now := by
  rw [State.inWindow, Bool.and_eq_false_iff, decide_eq_false_iff_not, decide_eq_false_iff_not]
  simp only [BitVec.lt_def, BitVec.le_def, ge_iff_le, Nat.not_le, Nat.not_lt]

/-- The transaction of `s₀` is either still the recorded one or over. -/
def Watched (s₀ s : State) : Prop := s.active = false ∨ (Armed s ∧ SameTransaction s s₀)

theorem resumeOwned_watched {m : Machine ω} (ha : Armed m.state) (resume : ThreadOperation ω) :
    Watched m.state (resumeOwned resume m).2.state := by
  obtain ⟨ok, held, hc⟩ := resumeOwned_cleaned resume m ha.owned_lt
  rcases hc.outcome with ⟨-, hcl, -⟩ | ⟨-, hsame, -, ho⟩
  · exact Or.inl (by rw [hcl, cleared_active])
  · refine Or.inr ⟨ha.of_same hsame ?_, hsame⟩
    intro i hi
    rw [ho, Bool.and_eq_true] at hi
    exact ha.owned_lt i hi.1

theorem Watched.trans {s t u : State} (h : Watched t u) (hst : SameTransaction t s) :
    Watched s u := by
  rcases h with hu | ⟨ha, hs⟩
  · exact Or.inl hu
  · exact Or.inr ⟨ha, hs.trans hst⟩

theorem watch_watched {s₀ : State} {m : Machine ω} (h₀ : Armed s₀) (h : Watched s₀ m.state)
    (c : Watch ω) : Watched s₀ (watch s₀.targetGeneration m c).2.state := by
  rcases h with hi | ⟨ha, hs⟩
  · rw [watch_inactive hi h₀.generation]
    exact Or.inl hi
  · rw [← hs.targetGeneration]
    cases c with
    | tick t =>
      cases hin : m.state.inWindow t.nowMs with
      | true =>
        rw [watch, tick_inside ha t hin]
        exact Or.inr ⟨ha, hs⟩
      | false =>
        rw [watch, tick_outside ha t hin]
        exact (resumeOwned_watched ha t.resume).trans hs
    | finish suspend resume =>
      rw [finish_live ha suspend resume]
      exact (resumeOwned_watched ha resume).trans hs

/-- Once the transaction is over, every later call of its generation says so. -/
theorem inactive_run {m : Machine ω} (h : m.state.active = false) {generation : U64}
    (hg : generation ≠ 0#64) (calls : List (Watch ω)) :
    ∀ f ∈ Trace.run (watch generation) m calls, f.result = .notActive := by
  induction calls with
  | nil => simp
  | cons c calls ih =>
    intro f hf
    rw [Trace.run_cons, List.mem_cons, watch_inactive h hg c] at hf
    rcases hf with rfl | hf
    · rw [Trace.entry, watch_inactive h hg c]
    · exact ih f hf

/-- What begin leaves when it returns OK or ROLLBACK_FAILED. -/
theorem begin_watched {given : Bool} {m : Machine ω} {generation t₀ duration : U64}
    {ids : Option (Nat → ThreadId)} {count : Nat} {operations : Option (Operations ω)}
    (h : (vcPauseBegin given generation t₀ duration ids count operations m).1 = .ok ∨
      (vcPauseBegin given generation t₀ duration ids count operations m).1 = .rollbackFailed) :
    let s := (vcPauseBegin given generation t₀ duration ids count operations m).2.state
    Armed s ∧ s.targetGeneration = generation ∧ s.startedMs = t₀ ∧
      s.deadlineMs.toNat = t₀.toNat + duration.toNat ∧
      0 < duration.toNat ∧ duration.toNat ≤ 600000 ∧ t₀.toNat + duration.toNat < 2 ^ 64 := by
  have hstep := begin_step m given generation t₀ duration ids count operations
  generalize vcPauseBegin given generation t₀ duration ids count operations m = r at hstep h
  cases hstep with
  | rejected _ status hr => rcases h with rfl | rfl <;> cases hr
  | began suspend resume _ _ _ ids _ hv hactive hmask =>
    obtain ⟨stop, held, mid, hle, hs, hout⟩ := began_cases suspend resume m hv
    rcases hout with ⟨-, hr⟩ | ⟨-, -, ok, held', hc⟩
    · rw [hr]
      have ha : Armed (mid.setFailed 0).state :=
        (hs.isArmed hv hle).of_same (same_setFailed mid 0)
          (fun i hi => (hs.isArmed hv hle).owned_lt i hi)
      exact ⟨ha, hs.same.targetGeneration, hs.same.startedMs,
        (congrArg BitVec.toNat hs.same.deadlineMs).trans (armed_deadline hv), hv.duration_pos,
        hv.duration_le, hv.no_wrap⟩
    · rcases hc.outcome with ⟨hst, -, -⟩ | ⟨-, hsame, hz, ho⟩
      · rw [hst] at h
        rcases h with h | h <;> cases h
      · have hsame' := hsame.trans hs.same
        have ha := (hs.isArmed hv hle).of_same hsame (by
          intro i hi
          rw [ho, Bool.and_eq_true] at hi
          exact (hs.isArmed hv hle).owned_lt i hi.1)
        exact ⟨ha, hsame'.targetGeneration, hsame'.startedMs,
          (congrArg BitVec.toNat hsame'.deadlineMs).trans (armed_deadline hv), hv.duration_pos,
          hv.duration_le, hv.no_wrap⟩

/-- Every entry of a watched run starts in a watched state. -/
theorem watched_entry {s₀ : State} {m : Machine ω} (h₀ : Armed s₀) (h : Watched s₀ m.state)
    {calls : List (Watch ω)} {past later : List (Trace.Entry (Machine ω) (Watch ω) Status)}
    {e : Trace.Entry (Machine ω) (Watch ω) Status}
    (hrun : Trace.run (watch s₀.targetGeneration) m calls = past ++ e :: later) :
    Watched s₀ e.before.state ∧ e = Trace.entry (watch s₀.targetGeneration) e.before e.input ∧
      ∃ rest, later = Trace.run (watch s₀.targetGeneration) e.after rest := by
  obtain ⟨before, rest, -, -, he, hl⟩ := Trace.run_split hrun
  have hw := Trace.invariant (watch s₀.targetGeneration) (fun m => Watched s₀ m.state)
    (fun m c hm => watch_watched h₀ hm c) h before
  rw [he]
  exact ⟨hw, rfl, rest, hl⟩

/-- A tick at or past the deadline on a live transaction: everything owned is
attempted, and the answer tells whether all of it succeeded. -/
structure DueTick {α : Type} (e : Trace.Entry (Machine ω) α Status) : Prop where
  resumes : ResumesOwned e
  complete : (∀ r ∈ issued e, r.success = true) → e.result = .expired ∧ e.after.state = cleared
  incomplete : (∃ r ∈ issued e, r.success = false) → e.result = .resumeFailed ∧ KeepsFailed e

theorem tick_outside_due {α : Type} {m : Machine ω} (ha : Armed m.state) (t : Tick ω) (a : α)
    (hout : m.state.inWindow t.nowMs = false) {e : Trace.Entry (Machine ω) α Status}
    (he : e = ⟨m, a, (tick m.state.targetGeneration m t).1, (tick m.state.targetGeneration m t).2⟩) :
    DueTick e ∧ (e.result = .expired ∨ e.result = .resumeFailed) ∧
      (e.result = .expired → e.after.state.active = false) := by
  rw [tick_outside ha t hout] at he
  obtain ⟨hres, hcase⟩ := resumed_entry m a _ t.resume ha he
  have hstatus : e.result = expiry (resumeOwned t.resume m).1 := by rw [he]
  rcases hcase with ⟨hall, hok, hcl⟩ | ⟨hex, hf, -, hk⟩
  · have hexp : e.result = .expired := by rw [hstatus, hok]; rfl
    refine ⟨⟨hres, fun _ => ⟨hexp, hcl⟩, ?_⟩, Or.inl hexp, fun _ => by rw [hcl, cleared_active]⟩
    rintro ⟨r, hr, hs⟩
    rw [hall r hr] at hs
    cases hs
  · have hfail : e.result = .resumeFailed := by rw [hstatus, hf]; rfl
    refine ⟨⟨hres, ?_, fun _ => ⟨hfail, hk⟩⟩, Or.inr hfail, fun hx => by rw [hfail] at hx; cases hx⟩
    intro hall
    obtain ⟨r, hr, hs⟩ := hex
    rw [hall r hr] at hs
    cases hs

end VitaCheat.Pause
