import VitaCheat.Lib.Polling
import VitaCheat.PauseWatchdog
import VitaCheat.PauseRefinement

/-!
# How long threads stay suspended

A watchdog that reads a clock which never goes back, at least every so often, releases
everything: with resumes that fail a bounded number of times, the transaction is over
once the readings have passed the deadline by as many gaps.
-/
namespace VitaCheat.Pause

open Polling (Spaced spaced_late)

variable {ω : Type}

/-- The call of a tick. -/
def Tick.asCall (generation : U64) (t : Tick ω) : Call ω :=
  .pauseTick true generation t.nowMs (some ⟨t.suspend, some t.resume⟩)

theorem call_asCall (m : Machine ω) (generation : U64) (t : Tick ω) :
    call m (t.asCall generation) = tick generation m t := rfl

theorem inactive_ticks {m : Machine ω} (h : m.state.active = false) {generation : U64}
    (hg : generation ≠ 0#64) (ticks : List (Tick ω)) :
    Trace.final call m (ticks.map (Tick.asCall generation)) = m := by
  induction ticks with
  | nil => rfl
  | cons t rest ih =>
    have hstep : call m (t.asCall generation) = (.notActive, m) := watch_inactive h hg (.tick t)
    rw [List.map_cons, Trace.final_cons, hstep]
    exact ih

/-- A tick from the deadline on that leaves the transaction active issues callbacks. -/
theorem late_round {s₀ : State} {m : Machine ω} (ha : Armed m.state)
    (hs : SameTransaction m.state s₀) (t : Tick ω) (hlate : s₀.deadlineMs.toNat ≤ t.nowMs.toNat)
    (hactive : (tick s₀.targetGeneration m t).2.state.active = true) :
    traceOf m (tick s₀.targetGeneration m t).2 ≠ [] := by
  have hout : m.state.inWindow t.nowMs = false :=
    not_inWindow.mpr (.inr (BitVec.le_def.mpr (hs.deadlineMs ▸ hlate)))
  have hstep := tick_outside ha t hout
  rw [hs.targetGeneration] at hstep
  rw [hstep] at hactive ⊢
  obtain ⟨-, hcase⟩ := resumed_entry m t .ok t.resume ha rfl
  rcases hcase with ⟨-, -, hcleared⟩ | ⟨⟨r, hr, -⟩, -⟩
  · have hover : (resumeOwned t.resume m).2.state = cleared := hcleared
    rw [hover] at hactive
    cases hactive
  · exact List.ne_nil_of_mem (List.mem_map_of_mem hr)

/-- While the transaction lasts, every tick from the deadline on is a round. -/
theorem late_rounds {s₀ : State} (h₀ : Armed s₀) (ticks : List (Tick ω)) {m : Machine ω}
    (h : Watched s₀ m.state)
    (hactive : (Trace.final call m
      (ticks.map (Tick.asCall s₀.targetGeneration))).state.active = true) :
    (ticks.map fun t => t.nowMs.toNat).countP (fun r => s₀.deadlineMs.toNat ≤ r) ≤
      rounds (traces (Trace.run call m (ticks.map (Tick.asCall s₀.targetGeneration)))) := by
  induction ticks generalizing m with
  | nil => exact Nat.le_refl 0
  | cons t rest ih =>
    rcases h with hi | ⟨ha, hs⟩
    · rw [inactive_ticks hi h₀.generation, hi] at hactive
      cases hactive
    · have hnext := watch_watched h₀ (.inr ⟨ha, hs⟩) (.tick t)
      have hmore := ih hnext hactive
      have htraces : traces (Trace.run call m
          ((t :: rest).map (Tick.asCall s₀.targetGeneration))) =
          traceOf m (tick s₀.targetGeneration m t).2 ::
            traces (Trace.run call (tick s₀.targetGeneration m t).2
              (rest.map (Tick.asCall s₀.targetGeneration))) := rfl
      rw [htraces, List.map_cons]
      by_cases hlate : s₀.deadlineMs.toNat ≤ t.nowMs.toNat
      · have hafter : (tick s₀.targetGeneration m t).2.state.active = true := by
          by_contra hover
          rw [Bool.not_eq_true] at hover
          have hend := inactive_ticks hover h₀.generation rest
          rw [List.map_cons, Trace.final_cons, call_asCall, hend, hover] at hactive
          cases hactive
        rw [List.countP_cons_of_pos (p := fun r => decide (s₀.deadlineMs.toNat ≤ r))
          (decide_eq_true hlate), rounds_tried (late_round ha hs t hlate hafter)]
        exact Nat.succ_le_succ hmore
      · rw [List.countP_cons_of_neg (p := fun r => decide (s₀.deadlineMs.toNat ≤ r))
          (by simpa using hlate)]
        exact Nat.le_trans hmore (rounds_le _ _)

/-- For every begin that starts a transaction and every watchdog whose readings do not go
back and are at most a gap apart: if no resume of a thread fails more than `failures`
times and the readings have passed the deadline by that many gaps, the transaction is
over and every thread that it owned has been resumed once. -/
theorem pause_released (world : ω) (calls : List (Call ω)) (given : Bool)
    (generation t₀ duration : U64) (ids : Option (Nat → ThreadId)) (count : Nat)
    (operations : Option (Operations ω)) (m : Machine ω) (status : Status)
    (hbegin : vcPauseBegin given generation t₀ duration ids count operations
      (Trace.final call (vcPauseStateInit world) calls) = (status, m))
    (hstatus : status = .ok ∨ status = .rollbackFailed) (ticks : List (Tick ω))
    (gap failures : Nat) (hspaced : Spaced gap t₀.toNat (ticks.map fun t => t.nowMs.toNat))
    (hlate : t₀.toNat + duration.toNat + gap * failures ≤
      (ticks.map fun t => t.nowMs.toNat).getLastD t₀.toNat)
    (hfailures : ∀ t, resumed t false
      (Trace.run call m (ticks.map (Tick.asCall generation))) ≤ failures) :
    (Trace.final call m (ticks.map (Tick.asCall generation))).state = cleared ∧
      ∀ t, m.state.holds t = true →
        resumed t true (Trace.run call m (ticks.map (Tick.asCall generation))) = 1 := by
  have hv : Valid m.state := by
    have hcall := call_valid _ (.pauseBegin given generation t₀ duration ids count operations)
      (final_valid world calls)
    rw [call, hbegin] at hcall
    exact hcall
  have hwatched := @begin_watched ω given (Trace.final call (vcPauseStateInit world) calls)
    generation t₀ duration ids count operations (by rw [hbegin]; exact hstatus)
  rw [hbegin] at hwatched
  obtain ⟨ha, rfl, -, hdeadline, hduration, -, -⟩ := hwatched
  have hretried := run_retried hv (ticks.map (Tick.asCall m.state.targetGeneration)) (by
    intro c hc
    obtain ⟨t, -, rfl⟩ := List.mem_map.mp hc
    rfl)
  have hmany := spaced_late hspaced
    (show t₀.toNat < t₀.toNat + duration.toNat by omega) (Nat.le_refl _)
  have hover : (Trace.final call m
      (ticks.map (Tick.asCall m.state.targetGeneration))).state = cleared := by
    have hv' : Valid (Trace.final call m
        (ticks.map (Tick.asCall m.state.targetGeneration))).state :=
      Trace.invariant call (fun m => Valid m.state) (fun m c h => call_valid m c h) hv _
    rcases hv' with hcleared | ⟨ha', -⟩
    · exact hcleared
    · have hrounds := late_rounds ha ticks (.inr ⟨ha, .refl _⟩) ha'.active
      rw [hdeadline] at hrounds
      apply hretried.done
      intro t _
      have hfew := hfailures t
      have hrange : gap * failures < gap * (ticks.map fun t => t.nowMs.toNat).countP fun r =>
          t₀.toNat + duration.toNat ≤ r := by omega
      exact Nat.lt_of_le_of_lt hfew (Nat.lt_of_lt_of_le (Nat.lt_of_mul_lt_mul_left hrange) hrounds)
  refine ⟨hover, fun t ht => ?_⟩
  have hfree : (Trace.final call m
      (ticks.map (Tick.asCall m.state.targetGeneration))).state.holds t = false := by
    rw [hover]
    rfl
  exact (hretried.released t ht hfree).1

/-- A watchdog that reads the clock every 40 ms, at worst. -/
def watchdogTicks : List (Tick Nat) :=
  [⟨140, none, reluctant⟩, ⟨155, none, reluctant⟩, ⟨190, none, reluctant⟩]

def reluctantStart : Status × Machine Nat := call (vcPauseStateInit 1) reluctantBegin

def watchdogRun : List (Entry Nat) :=
  Trace.run call reluctantStart.2 (watchdogTicks.map (Tick.asCall 17))

theorem watchdogRun_traces : traces watchdogRun =
    [[], [⟨.resume, 20, false⟩, ⟨.resume, 10, true⟩], [⟨.resume, 20, true⟩]] := by decide

theorem pause_released_reluctant :
    reluctantStart.2.state.holds 20 = true ∧ resumed 20 false watchdogRun = 1 ∧
      (Trace.final call reluctantStart.2 (watchdogTicks.map (Tick.asCall 17))).state = cleared ∧
      ∀ t, reluctantStart.2.state.holds t = true → resumed t true watchdogRun = 1 := by
  have hspaced : Spaced 40 (100 : U64).toNat (watchdogTicks.map fun t => t.nowMs.toNat) := by
    simp [Spaced, watchdogTicks]
  have hfailures : ∀ t, resumed t false watchdogRun ≤ 1 := by
    intro t
    rw [resumed, watchdogRun_traces]
    by_cases h : t = 20
    · rw [h]
      decide
    · have hother : ¬(20 : Int) = t := fun h' => h h'.symm
      simp [hother]
  have hreleased := pause_released 1 [] true 17 100 50 (some fun i => 10 * (i + 1)) 2
    (some ⟨some fun w _ => (0, w), some reluctant⟩) reluctantStart.2 reluctantStart.1 rfl
    (.inl (by decide)) watchdogTicks 40 1 hspaced (by decide) hfailures
  exact ⟨by decide, by decide, hreleased⟩

end VitaCheat.Pause
