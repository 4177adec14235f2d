import Mathlib.Data.List.Induction
import VitaCheat.PauseWatchdog

/-!
# The clock laws

The deadline holds for every clock that stays at or past the start. The two
further laws of `pause.h`, that a clock rollback is treated as expiry and that
an expired pause stays expired until its cleanup completes, fail inside the
window: the state keeps neither the last reading nor the fact of having
expired. Each is proved to hold exactly when no such reading lies in the window.
-/
namespace VitaCheat.Pause

variable {ω : Type}

/-- A tick on a transaction that is over. -/
theorem tick_inactive {m : Machine ω} (h : m.state.active = false) {generation : U64}
    (hg : generation ≠ 0#64) (t : Tick ω) : tick generation m t = (.notActive, m) :=
  watch_inactive h hg (.tick t)

/-- A tick returns OK only inside the window of a live transaction. -/
theorem tick_ok {s₀ : State} {m : Machine ω} (h₀ : Armed s₀) (hw : Watched s₀ m.state)
    {t : Tick ω} (hok : (tick s₀.targetGeneration m t).1 = .ok) :
    m.state.active = true ∧ m.state.inWindow t.nowMs = true := by
  rcases hw with hi | ⟨ha, hs⟩
  · rw [tick_inactive hi h₀.generation] at hok
    cases hok
  · refine ⟨ha.active, ?_⟩
    by_contra hout
    rw [← hs.targetGeneration, tick_outside ha t (Bool.eq_false_iff.mpr hout)] at hok
    by_cases h : (resumeOwned t.resume m).1 = .ok
    · rw [h] at hok; cases hok
    · simp only [expiry, if_neg h] at hok
      exact h hok

/-- The window test on the numbers of the transaction. -/
theorem inWindow_eq_false {s₀ s : State} (hs : SameTransaction s s₀) (now : U64) :
    s.inWindow now = false ↔
      now.toNat < s₀.startedMs.toNat ∨ s₀.deadlineMs.toNat ≤ now.toNat := by
  rw [not_inWindow, hs.startedMs, hs.deadlineMs, BitVec.lt_def, BitVec.le_def]

/-- Callbacks that always succeed. -/
def obliging : ThreadOperation Unit := fun w _ => (0, w)

/-- Threads 10 and 20. -/
def pair : Option (Nat → ThreadId) := some fun i => 10 * (i + 1)

/-- A tick with an earlier reading than the begin or some earlier tick. -/
def RolledBack (t₀ : U64) (past : List (Trace.Entry (Machine ω) (Tick ω) Status))
    (e : Trace.Entry (Machine ω) (Tick ω) Status) : Prop :=
  ∃ x ∈ t₀ :: past.map (fun p => p.input.nowMs), e.input.nowMs < x

/-- Every rolled-back tick on the live transaction is treated as expiry, and
ticks keep returning OK only along non-decreasing readings. -/
structure RollbackLaw (t₀ : U64) (entries : List (Trace.Entry (Machine ω) (Tick ω) Status)) :
    Prop where
  expires : ∀ past e later, entries = past ++ e :: later → e.before.state.active = true →
    RolledBack t₀ past e → ResumesOwned e ∧ e.result ≠ .ok
  monotone : ∀ past later, entries = past ++ later → (∀ e ∈ past, e.result = .ok) →
    (t₀ :: past.map fun p => p.input.nowMs).Pairwise (· ≤ ·)

/-- No rolled-back reading on the live transaction falls inside the window. -/
def NoRollbackIntoWindow (t₀ duration : U64)
    (entries : List (Trace.Entry (Machine ω) (Tick ω) Status)) : Prop :=
  ∀ past e later, entries = past ++ e :: later → e.before.state.active = true →
    RolledBack t₀ past e →
      e.input.nowMs.toNat < t₀.toNat ∨ t₀.toNat + duration.toNat ≤ e.input.nowMs.toNat

theorem tick_entry {s₀ : State} {m : Machine ω} (h₀ : Armed s₀) (h : Watched s₀ m.state)
    {ticks : List (Tick ω)} {past later : List (Trace.Entry (Machine ω) (Tick ω) Status)}
    {e : Trace.Entry (Machine ω) (Tick ω) Status}
    (hrun : Trace.run (tick s₀.targetGeneration) m ticks = past ++ e :: later) :
    Watched s₀ e.before.state ∧ e = Trace.entry (tick s₀.targetGeneration) e.before e.input := by
  obtain ⟨before, rest, -, -, he, -⟩ := Trace.run_split hrun
  have hw := Trace.invariant (tick s₀.targetGeneration) (fun m => Watched s₀ m.state)
    (fun m t hm => watch_watched h₀ hm (.tick t)) h before
  rw [he]
  exact ⟨hw, rfl⟩

/-- One more reading that is not rolled back keeps the readings sorted. -/
theorem pairwise_concat {xs : List U64} {x : U64} (h : xs.Pairwise (· ≤ ·))
    (hx : ¬ ∃ y ∈ xs, x < y) : (xs ++ [x]).Pairwise (· ≤ ·) := by
  rw [List.pairwise_append]
  refine ⟨h, List.pairwise_singleton _ _, ?_⟩
  intro y hy z hz
  rw [List.mem_singleton.mp hz]
  exact BitVec.not_lt.mp (fun hlt => hx ⟨y, hy, hlt⟩)

/-- A tick of the live transaction with a reading outside its window resumes what
is owned. -/
theorem outside_expires {s₀ : State} {e : Trace.Entry (Machine ω) (Tick ω) Status}
    (hw : Watched s₀ e.before.state)
    (he : e = Trace.entry (tick s₀.targetGeneration) e.before e.input)
    (hactive : e.before.state.active = true)
    (hout : e.before.state.inWindow e.input.nowMs = false) :
    ResumesOwned e ∧ e.result ≠ .ok := by
  rcases hw with hi | ⟨ha, hs⟩
  · rw [hi] at hactive
    cases hactive
  · have hentry : e = ⟨e.before, e.input, (tick e.before.state.targetGeneration e.before
        e.input).1, (tick e.before.state.targetGeneration e.before e.input).2⟩ := by
      rw [hs.targetGeneration]
      exact he
    obtain ⟨hdue, hres, -⟩ := tick_outside_due ha e.input e.input hout hentry
    refine ⟨hdue.resumes, ?_⟩
    rcases hres with h | h <;> rw [h] <;> decide

/-- Where every rolled-back tick fails, ticks that return OK have sorted readings. -/
theorem readings_sorted {s₀ : State} (h₀ : Armed s₀) {m : Machine ω} (h : Watched s₀ m.state)
    {t₀ : U64} {ticks : List (Tick ω)}
    (hexpires : ∀ past e later, Trace.run (tick s₀.targetGeneration) m ticks = past ++ e :: later →
      e.before.state.active = true → RolledBack t₀ past e → e.result ≠ .ok)
    (past later : List (Trace.Entry (Machine ω) (Tick ω) Status))
    (hrun : Trace.run (tick s₀.targetGeneration) m ticks = past ++ later)
    (hok : ∀ e ∈ past, e.result = .ok) :
    (t₀ :: past.map fun p => p.input.nowMs).Pairwise (· ≤ ·) := by
  induction past using List.reverseRecOn generalizing later with
  | nil => simp
  | append_singleton past e ih =>
    have hrun' : Trace.run (tick s₀.targetGeneration) m ticks = past ++ e :: later := by
      rw [hrun]; simp
    have hsorted := ih (e :: later) hrun' fun x hx => hok x (by simp [hx])
    have heok : e.result = .ok := hok e (by simp)
    obtain ⟨hw, he⟩ := tick_entry h₀ h hrun'
    have hactive : e.before.state.active = true :=
      (tick_ok (t := e.input) h₀ hw (by rw [he] at heok; exact heok)).1
    have hnot : ¬ RolledBack t₀ past e := fun hback => hexpires past e later hrun' hactive hback heok
    have := pairwise_concat hsorted hnot
    simpa using this

/-- The rollback law holds along a transaction exactly when no rolled-back
reading falls inside its window. -/
theorem pause_rollback {given : Bool} {m : Machine ω} {generation t₀ duration : U64}
    {ids : Option (Nat → ThreadId)} {count : Nat} {operations : Option (Operations ω)}
    (hbegin : (vcPauseBegin given generation t₀ duration ids count operations m).1 = .ok)
    (ticks : List (Tick ω)) :
    RollbackLaw t₀ (Trace.run (tick generation)
        (vcPauseBegin given generation t₀ duration ids count operations m).2 ticks) ↔
      NoRollbackIntoWindow t₀ duration (Trace.run (tick generation)
        (vcPauseBegin given generation t₀ duration ids count operations m).2 ticks) := by
  obtain ⟨ha₀, hgen, hstart, hdead, -, -, -⟩ := begin_watched (Or.inl hbegin)
  generalize (vcPauseBegin given generation t₀ duration ids count operations m).2 = m₀ at *
  subst hgen
  have hwindow : ∀ {s : State}, SameTransaction s m₀.state → ∀ now : U64,
      s.inWindow now = false ↔
        now.toNat < t₀.toNat ∨ t₀.toNat + duration.toNat ≤ now.toNat := by
    intro s hs now
    rw [inWindow_eq_false hs, hstart, hdead]
  constructor
  · intro hlaw past e later hrun hactive hback
    obtain ⟨hw, he⟩ := tick_entry ha₀ (Or.inr ⟨ha₀, .refl _⟩) hrun
    rcases hw with hi | ⟨ha, hs⟩
    · rw [hi] at hactive; cases hactive
    · rw [← hwindow hs]
      by_contra hin
      apply (hlaw.expires past e later hrun hactive hback).2
      rw [he, Trace.entry, ← hs.targetGeneration]
      exact congrArg Prod.fst (tick_inside ha e.input (Bool.not_eq_false _ ▸ hin))
  · intro hout
    have hexpires : ∀ past e later, Trace.run (tick m₀.state.targetGeneration) m₀ ticks =
        past ++ e :: later → e.before.state.active = true → RolledBack t₀ past e →
        ResumesOwned e ∧ e.result ≠ .ok := by
      intro past e later hrun hactive hback
      obtain ⟨hw, he⟩ := tick_entry ha₀ (Or.inr ⟨ha₀, .refl _⟩) hrun
      refine outside_expires hw he hactive ?_
      rcases hw with hi | ⟨-, hs⟩
      · rw [hi] at hactive
        cases hactive
      · exact (hwindow hs _).mpr (hout past e later hrun hactive hback)
    refine ⟨hexpires, readings_sorted ha₀ (Or.inr ⟨ha₀, .refl _⟩) ?_⟩
    intro past e later hrun hactive hback
    exact (hexpires past e later hrun hactive hback).2

theorem pause_rollback_kept :
    (vcPauseBegin true 17 100 50 pair 2 (some ⟨some obliging, some obliging⟩)
        (vcPauseStateInit ())).1 = .ok ∧
      (RollbackLaw 100 (Trace.run (tick 17)
          (vcPauseBegin true 17 100 50 pair 2 (some ⟨some obliging, some obliging⟩)
            (vcPauseStateInit ())).2 [⟨120, none, obliging⟩, ⟨99, none, obliging⟩]) ↔
        NoRollbackIntoWindow 100 50 (Trace.run (tick 17)
          (vcPauseBegin true 17 100 50 pair 2 (some ⟨some obliging, some obliging⟩)
            (vcPauseStateInit ())).2 [⟨120, none, obliging⟩, ⟨99, none, obliging⟩])) :=
  ⟨by decide, pause_rollback (by decide) _⟩

/-- Readings 140 and then 120 in the window from 100 to 150. -/
theorem pause_rollback_missed :
    (vcPauseBegin true 17 100 50 pair 2 (some ⟨some obliging, some obliging⟩)
        (vcPauseStateInit ())).1 = .ok ∧
      ¬ RollbackLaw 100 (Trace.run (tick 17)
        (vcPauseBegin true 17 100 50 pair 2 (some ⟨some obliging, some obliging⟩)
          (vcPauseStateInit ())).2 [⟨140, none, obliging⟩, ⟨120, none, obliging⟩]) := by
  refine ⟨by decide, fun hlaw => ?_⟩
  have h := hlaw.monotone _ [] (List.append_nil _).symm (by decide)
  revert h
  decide

/-- While a transaction stays active, every call keeps it. -/
theorem call_same (m : Machine ω) (c : Call ω) (hv : Valid m.state)
    (hm : m.state.active = true) (hr : (call m c).2.state.active = true) :
    SameTransaction (call m c).2.state m.state := by
  have hstep := call_step m c
  have hkept : ∀ resume : ThreadOperation ω, (resumeOwned resume m).2.state.active = true →
      SameTransaction (resumeOwned resume m).2.state m.state := by
    intro resume hact
    rcases resumeOwned_watched (hv.armed hm) resume with hi | ⟨-, hs⟩
    · rw [hi] at hact; cases hact
    · exact hs
  generalize call m c = r at hstep hr
  cases hstep with
  | rejected _ status _ => exact .refl _
  | began suspend resume generation now duration ids count hvb hactive hmask =>
    rw [hm] at hactive
    cases hactive
  | ended suspend resume generation hactive hgen => exact hkept resume hr
  | idled suspend resume generation now hactive hgen hin => exact .refl _
  | expired suspend resume generation now hactive hgen hout => exact hkept resume hr
  | abandoned generation hactive hgen => cases hr

/-- A run that never leaves the active state stays in one transaction. -/
theorem run_same {m : Machine ω} (calls : List (Call ω)) (hv : Valid m.state)
    (hm : m.state.active = true)
    (hall : ∀ x ∈ Trace.run call m calls, x.after.state.active = true) :
    SameTransaction (Trace.final call m calls).state m.state ∧
      Valid (Trace.final call m calls).state := by
  induction calls generalizing m with
  | nil => exact ⟨.refl _, hv⟩
  | cons c calls ih =>
    simp only [Trace.run_cons, List.mem_cons, forall_eq_or_imp] at hall
    have hc : (call m c).2.state.active = true := hall.1
    obtain ⟨hs, hv'⟩ := ih (call_valid m c hv) hc hall.2
    exact ⟨hs.trans (call_same m c hv hm hc), hv'⟩

/-- A forced cleanup failed, the transaction stayed active through the calls
since, and `f` is a tick of the same generation with non-null callbacks. -/
structure Retry (entries : List (Entry ω)) (f : Entry ω) (nowMs : U64) : Prop where
  occurs : ∃ past e between later given generation forcedMs operations suspend resume,
    entries = past ++ e :: (between ++ f :: later) ∧
      e.input = .pauseTick given generation forcedMs operations ∧ e.result = .resumeFailed ∧
      (∀ x ∈ between, x.after.state.active = true) ∧
      f.input = .pauseTick true generation nowMs (some ⟨suspend, some resume⟩)
  active : f.before.state.active = true

/-- Every retry attempts all owned threads again and never returns OK. -/
def Sticky (entries : List (Entry ω)) : Prop :=
  ∀ f nowMs, Retry entries f nowMs →
    ResumesOwned f ∧ (f.result = .expired ∨ f.result = .resumeFailed)

/-- Every retry carries a reading outside the window again. -/
def StaysOutside (entries : List (Entry ω)) : Prop :=
  ∀ f nowMs, Retry entries f nowMs →
    nowMs < f.before.state.startedMs ∨ f.before.state.deadlineMs ≤ nowMs

/-- A tick that fails to resume leaves the transaction of its generation. -/
theorem resumeFailed_armed {m : Machine ω} {given : Bool} {generation now : U64}
    {operations : Option (Operations ω)} (hv : Valid m.state)
    (h : (call m (.pauseTick given generation now operations)).1 = .resumeFailed) :
    let s := (call m (.pauseTick given generation now operations)).2.state
    s.active = true ∧ s.targetGeneration = generation ∧ Valid s := by
  have hvalid := call_valid m (.pauseTick given generation now operations) hv
  have hstep := call_step m (.pauseTick given generation now operations)
  generalize call m (.pauseTick given generation now operations) = r at hstep h hvalid
  cases hstep with
  | rejected _ status hr =>
    have hs : status = .resumeFailed := h
    rw [hs] at hr
    cases hr
  | idled suspend resume _ _ hactive hgen hin => cases h
  | expired suspend resume _ _ hactive hgen hout =>
    obtain ⟨ok, held, hc⟩ := resumeOwned_cleaned resume m (hv.armed hactive).owned_lt
    rcases hc.outcome with ⟨hok, -, -⟩ | ⟨-, hs, -, -⟩
    · simp [expiry, hok] at h
    · exact ⟨hs.active.trans hactive, hs.targetGeneration.trans hgen, hvalid⟩

/-- A retry is a tick of the recorded generation on an armed state. -/
theorem retry_tick {world : ω} {calls : List (Call ω)} {f : Entry ω} {now : U64}
    (h : Retry (Trace.run call (vcPauseStateInit world) calls) f now) :
    Armed f.before.state ∧ ∃ t : Tick ω, t.nowMs = now ∧
      f = ⟨f.before, f.input, (tick f.before.state.targetGeneration f.before t).1,
        (tick f.before.state.targetGeneration f.before t).2⟩ := by
  obtain ⟨⟨past, e, between, later, given, generation, forced, operations, suspend, resume, hrun,
    hein, hfail, hact, hfin⟩, hactive⟩ := h
  obtain ⟨earlier, rest, -, -, he, hrest⟩ := Trace.run_split hrun
  obtain ⟨mid, after, -, hbetween, hf, -⟩ := Trace.run_split hrest.symm
  have hv := final_valid world earlier
  generalize Trace.final call (vcPauseStateInit world) earlier = m at *
  rw [hein] at he hbetween hf
  have hforced : (call m (.pauseTick given generation forced operations)).1 = .resumeFailed := by
    rw [he] at hfail
    exact hfail
  obtain ⟨ha', hg', hv'⟩ := resumeFailed_armed hv hforced
  rw [hbetween] at hact
  obtain ⟨hsame, hvf⟩ := run_same mid hv' ha' hact
  have hfb : f.before = Trace.final call
      (call m (.pauseTick given generation forced operations)).2 mid := by
    rw [hf]
    rfl
  rw [← hfb] at hsame hvf
  refine ⟨hvf.armed hactive, ⟨now, suspend, resume⟩, rfl, ?_⟩
  rw [hsame.targetGeneration, hg', tick]
  conv_lhs => rw [hf, hfin, ← hfb]
  rw [hfin]
  rfl

/-- After a failed forced cleanup the transaction stays expired exactly when
every later reading falls outside the window again. -/
theorem pause_expiry_sticky (world : ω) (calls : List (Call ω)) :
    Sticky (Trace.run call (vcPauseStateInit world) calls) ↔
      StaysOutside (Trace.run call (vcPauseStateInit world) calls) := by
  constructor
  · intro hsticky f now hretry
    obtain ⟨ha, t, ht, hf⟩ := retry_tick hretry
    rw [← not_inWindow, ← ht]
    by_contra hin
    obtain ⟨-, hres⟩ := hsticky f now hretry
    rw [hf, tick_inside ha t (Bool.not_eq_false _ ▸ hin)] at hres
    rcases hres with h | h <;> cases h
  · intro hout f now hretry
    obtain ⟨ha, t, ht, hf⟩ := retry_tick hretry
    have hoff : f.before.state.inWindow t.nowMs = false := by
      rw [not_inWindow, ht]
      exact hout f now hretry
    obtain ⟨hdue, hres, -⟩ := tick_outside_due ha t f.input hoff hf
    exact ⟨hdue.resumes, hres⟩

/-- A resume callback that fails once for thread 20. -/
def stubborn : ThreadOperation Bool := fun failed t =>
  if t = 20 ∧ failed = false then (1, true) else (0, failed)

/-- Begin at 100 for 50 ms, a forced cleanup at 99 that fails for thread 20,
and a tick at 120. -/
def relapse : List (Call Bool) :=
  let operations := some ⟨some fun w _ => (0, w), some stubborn⟩
  [.pauseBegin true 17 100 50 pair 2 operations, .pauseTick true 17 99 operations,
    .pauseTick true 17 120 operations]

theorem pause_expiry_forgotten : ¬ Sticky (Trace.run call (vcPauseStateInit false) relapse) := by
  intro hsticky
  let m₁ := (call (vcPauseStateInit false) relapse[0]).2
  let m₂ := (call m₁ relapse[1]).2
  have hretry : Retry (Trace.run call (vcPauseStateInit false) relapse)
      (Trace.entry call m₂ relapse[2]) 120 :=
    ⟨⟨[Trace.entry call (vcPauseStateInit false) relapse[0]], Trace.entry call m₁ relapse[1], [], [],
      _, _, _, _, _, _, rfl, rfl, by decide, by simp, rfl⟩, by decide⟩
  obtain ⟨-, hres⟩ := hsticky _ _ hretry
  revert hres
  decide

end VitaCheat.Pause
