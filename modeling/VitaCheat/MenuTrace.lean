import VitaCheat.MenuActivation

/-!
# The activation law over whole runs

Presses and holds are read off the samples alone: a press is a maximal block of
held samples, and a hold is what remains of it since the last clock rollback. The
four fields of the state summarise the history up to the last sample, which gives
the samples that trigger.
-/
namespace VitaCheat.Menu

/-- The button is held at sample `i`. -/
def Down (xs : List Sample) (i : Nat) : Prop := ∃ x, xs[i]? = some x ∧ x.down = true

/-- The clock reading of sample `i`. -/
def clock (xs : List Sample) (i : Nat) : Nat := ((xs[i]?).map (·.nowMs.toNat)).getD 0

/-- `p` is the first index of the maximal block of held samples around `i`. -/
structure PressStart (xs : List Sample) (i p : Nat) : Prop where
  le : p ≤ i
  down : ∀ j, p ≤ j → j ≤ i → Down xs j
  first : p = 0 ∨ ¬Down xs (p - 1)

/-- `b` is the largest index from `p` to `i` that is `p` or a clock rollback. -/
structure HoldStart (xs : List Sample) (i p b : Nat) : Prop where
  ge : p ≤ b
  le : b ≤ i
  start : b = p ∨ clock xs b < clock xs (b - 1)
  last : ∀ j, b < j → j ≤ i → ¬clock xs j < clock xs (j - 1)

/-- The update at sample `i` of the run after a reset of `s` returns the event. -/
def Triggered (s : State) (xs : List Sample) (i : Nat) : Prop :=
  (events s xs)[i]? = some .triggered

theorem clock_eq {xs : List Sample} {i : Nat} {x : Sample} (h : xs[i]? = some x) :
    clock xs i = x.nowMs.toNat := by
  simp [clock, h]

theorem down_iff {xs : List Sample} {i : Nat} {x : Sample} (h : xs[i]? = some x) :
    Down xs i ↔ x.down = true := by
  simp [Down, h]

theorem PressStart.unique {xs : List Sample} {i p q : Nat} (hp : PressStart xs i p)
    (hq : PressStart xs i q) : p = q := by
  have hle : ∀ {p q : Nat}, PressStart xs i p → PressStart xs i q → q ≤ p := by
    intro p q hp hq
    apply Nat.le_of_not_lt
    intro hlt
    rcases hq.first with h0 | hup
    · omega
    · exact hup (hp.down (q - 1) (by omega) (by have := hq.le; omega))
  exact Nat.le_antisymm (hle hq hp) (hle hp hq)

theorem HoldStart.unique {xs : List Sample} {i p b c : Nat} (hb : HoldStart xs i p b)
    (hc : HoldStart xs i p c) : b = c := by
  have hle : ∀ {b c : Nat}, HoldStart xs i p b → HoldStart xs i p c → c ≤ b := by
    intro b c hb hc
    apply Nat.le_of_not_lt
    intro hlt
    rcases hc.start with rfl | hfall
    · exact absurd hb.ge (by omega)
    · exact hb.last c hlt hc.le hfall
  exact Nat.le_antisymm (hle hc hb) (hle hb hc)

/-- A press starts where the button was up just before. -/
theorem pressStart_new {xs : List Sample} {i : Nat} (hi : Down xs i)
    (hup : i = 0 ∨ ¬Down xs (i - 1)) : PressStart xs i i where
  le := Nat.le_refl i
  down _ hle hge := by rwa [Nat.le_antisymm hge hle]
  first := hup

/-- A further held sample belongs to the same press. -/
theorem PressStart.extend {xs : List Sample} {i p : Nat} (hp : PressStart xs i p)
    (hi : Down xs (i + 1)) : PressStart xs (i + 1) p where
  le := Nat.le_succ_of_le hp.le
  down j hle hge := by
    rcases Nat.eq_or_lt_of_le hge with rfl | hlt
    · exact hi
    · exact hp.down j hle (Nat.le_of_lt_succ hlt)
  first := hp.first

/-- An interval restarts at the press and at a rollback. -/
theorem holdStart_new {xs : List Sample} {i p : Nat} (hp : p ≤ i)
    (hstart : i = p ∨ clock xs i < clock xs (i - 1)) : HoldStart xs i p i where
  ge := hp
  le := Nat.le_refl i
  start := hstart
  last _ hlt hle := absurd hlt (Nat.not_lt.mpr hle)

/-- A sample whose clock did not fall continues the interval. -/
theorem HoldStart.extend {xs : List Sample} {i p b : Nat} (hb : HoldStart xs i p b)
    (hi : ¬clock xs (i + 1) < clock xs i) : HoldStart xs (i + 1) p b where
  ge := hb.ge
  le := Nat.le_succ_of_le hb.le
  start := hb.start
  last j hlt hle := by
    rcases Nat.eq_or_lt_of_le hle with rfl | hle
    · simpa using hi
    · exact hb.last j hlt (Nat.le_of_lt_succ hle)

/-- The clock does not fall within a hold. -/
theorem HoldStart.clock_mono {xs : List Sample} {i p b : Nat} (hb : HoldStart xs i p b)
    {j k : Nat} (hj : b ≤ j) (hjk : j ≤ k) (hk : k ≤ i) : clock xs j ≤ clock xs k := by
  induction hjk with
  | refl => exact Nat.le_refl _
  | @step k hjk ih =>
    have hstep := hb.last (k + 1) (Nat.lt_succ_of_le (Nat.le_trans hj hjk)) hk
    have hprev := ih (Nat.le_of_succ_le hk)
    simp only [Nat.add_sub_cancel] at hstep
    exact Nat.le_trans hprev (Nat.le_of_not_lt hstep)

/-- A reset forgets the state it overwrites. -/
theorem events_eq (s : State) (xs : List Sample) :
    events s xs = (Trace.run step cleared xs).map (·.result) := by
  have h := Trace.run_embed call some call_some cleared xs
  simp only [events, vcMenuActivationReset, Option.map_some, h, List.map_map]
  rfl

theorem triggered_iff_step (s : State) {xs : List Sample} {i : Nat} {x : Sample}
    (h : xs[i]? = some x) :
    Triggered s xs i ↔ (step (Trace.final step cleared (xs.take i)) x).1 = .triggered := by
  simp [Triggered, events_eq, Trace.run_getElem?, h, Trace.entry]

/-- What the state after noting sample `i` says of the history: `T` are the
samples that triggered, up to but not including `n`. -/
structure Summary (T : Nat → Prop) (xs : List Sample) (i n : Nat) (s : State) : Prop where
  pressed : s.pressed = true
  last : s.lastTimestampMs.toNat = clock xs i
  starts : ∃ p b, PressStart xs i p ∧ HoldStart xs i p b ∧
    (s.latched = true ↔ ∃ j, p ≤ j ∧ j < n ∧ T j) ∧
    (s.latched = false → s.pressedSinceMs.toNat = clock xs b)

/-- What the state before sample `i` says of the history. -/
inductive Ready (T : Nat → Prop) (xs : List Sample) : Nat → State → Prop
  | idle {i : Nat} {s : State} (hs : s.pressed = false) (hi : i = 0 ∨ ¬Down xs (i - 1)) :
      Ready T xs i s
  | holding {i : Nat} {s : State} (hs : Summary T xs i (i + 1) s) : Ready T xs (i + 1) s

/-- Noting a held sample extends the summary by that sample. -/
theorem Ready.held {T : Nat → Prop} {xs : List Sample} {i : Nat} {s : State}
    (hs : Ready T xs i s) {x : Sample} (hx : xs[i]? = some x) (hd : x.down = true) :
    Summary T xs i i (s.held x.nowMs) := by
  have hi : Down xs i := (down_iff hx).mpr hd
  have hnow : x.nowMs.toNat = clock xs i := (clock_eq hx).symm
  cases hs with
  | idle hp hup =>
    rw [held_press hp]
    refine ⟨rfl, hnow, i, i, pressStart_new hi hup, holdStart_new (Nat.le_refl i) (.inl rfl), ?_,
      fun _ => hnow⟩
    constructor
    · intro h
      cases h
    · rintro ⟨j, hle, hlt, -⟩
      omega
  | @holding i s hs =>
    obtain ⟨hp, hlast, p, b, hpress, hhold, hlatch, hsince⟩ := hs
    have hlt : x.nowMs < s.lastTimestampMs ↔ clock xs (i + 1) < clock xs i := by
      rw [BitVec.lt_def, hnow, hlast]
    have hstart : ∃ b', HoldStart xs (i + 1) p b' ∧ (s.latched = false →
        (s.held x.nowMs).pressedSinceMs.toNat = clock xs b') := by
      by_cases hfall : clock xs (i + 1) < clock xs i
      · refine ⟨i + 1, holdStart_new (Nat.le_succ_of_le hpress.le) (.inr hfall), ?_⟩
        intro hl
        rw [held_pressedSinceMs hp hl, if_pos (hlt.mpr hfall), hnow]
      · refine ⟨b, hhold.extend hfall, ?_⟩
        intro hl
        rw [held_pressedSinceMs hp hl, if_neg (mt hlt.mp hfall), hsince hl]
    obtain ⟨b', hhold', hsince'⟩ := hstart
    refine ⟨held_pressed s x.nowMs, hnow, p, b', hpress.extend hi, hhold', ?_, ?_⟩
    · rw [held_latched hp]
      exact hlatch
    · rw [held_latched hp]
      exact hsince'

/-- While unlatched the interval started no later than now, so the elapsed time
does not wrap. -/
theorem Summary.since_le {T : Nat → Prop} {xs : List Sample} {i n : Nat} {s : State}
    (hs : Summary T xs i n s) (hl : s.latched = false) {x : Sample} (hx : xs[i]? = some x) :
    s.pressedSinceMs ≤ x.nowMs := by
  obtain ⟨p, b, hpress, hhold, -, hsince⟩ := hs.starts
  rw [BitVec.le_def, hsince hl, ← clock_eq hx]
  exact hhold.clock_mono (Nat.le_refl b) hhold.le (Nat.le_refl i)

/-- The latch test reads the law off the summary. -/
theorem Summary.due_iff {T : Nat → Prop} {xs : List Sample} {i n : Nat} {s : State}
    (hs : Summary T xs i n s) {x : Sample} (hx : xs[i]? = some x) :
    s.due x.nowMs = true ↔ ∃ p b, PressStart xs i p ∧ HoldStart xs i p b ∧
      clock xs b + 5000 ≤ clock xs i ∧ ∀ j, p ≤ j → j < n → ¬T j := by
  obtain ⟨p, b, hpress, hhold, hlatch, hsince⟩ := hs.starts
  have hdue : s.due x.nowMs = true ↔
      s.latched = false ∧ clock xs b + 5000 ≤ clock xs i := by
    simp only [State.due, Bool.and_eq_true, Bool.not_eq_true', decide_eq_true_eq]
    refine and_congr_right fun hl => ?_
    have hle := hs.since_le hl hx
    rw [BitVec.le_def, BitVec.toNat_sub_of_le hle, hsince hl, ← clock_eq hx]
    have h5000 : menuSelectHoldMs.toNat = 5000 := rfl
    have hbi := hhold.clock_mono (Nat.le_refl b) hhold.le (Nat.le_refl i)
    omega
  have hunlatched : s.latched = false ↔ ∀ j, p ≤ j → j < n → ¬T j := by
    rw [← Bool.not_eq_true, hlatch]
    simp
  rw [hdue, hunlatched]
  constructor
  · rintro ⟨hfree, hlong⟩
    exact ⟨p, b, hpress, hhold, hlong, hfree⟩
  · rintro ⟨p', b', hpress', hhold', hlong, hfree⟩
    obtain rfl := hpress.unique hpress'
    obtain rfl := hhold.unique hhold'
    exact ⟨hfree, hlong⟩

/-- A latched state whose last sample is counted stays a summary. -/
theorem Summary.count {T : Nat → Prop} {xs : List Sample} {i : Nat} {s t : State}
    (hs : Summary T xs i i s) (ht : t = { s with latched := t.latched })
    (hl : t.latched = true ↔ s.latched = true ∨ T i) : Summary T xs i (i + 1) t := by
  obtain ⟨hp, hlast, p, b, hpress, hhold, hlatch, hsince⟩ := hs
  rw [ht]
  refine ⟨hp, hlast, p, b, hpress, hhold, ?_, ?_⟩
  · show t.latched = true ↔ _
    rw [hl, hlatch]
    constructor
    · rintro (⟨j, hle, hlt, hT⟩ | hT)
      · exact ⟨j, hle, Nat.lt_succ_of_lt hlt, hT⟩
      · exact ⟨i, hpress.le, Nat.lt_succ_self i, hT⟩
    · rintro ⟨j, hle, hlt, hT⟩
      rcases Nat.eq_or_lt_of_le (Nat.le_of_lt_succ hlt) with rfl | hlt
      · exact .inr hT
      · exact .inl ⟨j, hle, hlt, hT⟩
  · show t.latched = false → _
    intro h
    refine hsince (Bool.eq_false_iff.mpr fun hlt => ?_)
    rw [hl.mpr (.inl hlt)] at h
    cases h

/-- One update, when `T` tells which samples trigger. -/
theorem Ready.step {T : Nat → Prop} {xs : List Sample} {i : Nat} {s : State}
    (hs : Ready T xs i s) {x : Sample} (hx : xs[i]? = some x)
    (hT : T i ↔ (step s x).1 = .triggered) : Ready T xs (i + 1) (step s x).2 := by
  cases hd : x.down with
  | false =>
    rw [step_released s hd]
    refine .idle rfl (.inr ?_)
    rw [Nat.add_sub_cancel, down_iff hx, hd]
    exact Bool.false_ne_true
  | true =>
    have hheld := hs.held hx hd
    cases hdue : (s.held x.nowMs).due x.nowMs with
    | true =>
      rw [step_due hd hdue] at hT ⊢
      refine .holding (hheld.count rfl ?_)
      simp only [true_iff]
      exact .inr (hT.mpr rfl)
    | false =>
      rw [step_waiting hd hdue] at hT ⊢
      refine .holding (hheld.count rfl ?_)
      simp [hT]

/-- The run invariant: before every sample the state summarises the samples so far. -/
theorem ready_run (s : State) (xs : List Sample) {i : Nat} (hi : i ≤ xs.length) :
    Ready (Triggered s xs) xs i (Trace.final step cleared (xs.take i)) := by
  induction i with
  | zero => exact .idle rfl (.inl rfl)
  | succ i ih =>
    have hx : xs[i]? = some xs[i] := List.getElem?_eq_getElem hi
    rw [Trace.final_take_succ step cleared hx]
    exact (ih (Nat.le_of_succ_le hi)).step hx (triggered_iff_step s hx)

theorem summary_run (s : State) {xs : List Sample} {i : Nat} {x : Sample} (hx : xs[i]? = some x)
    (hd : x.down = true) : Summary (Triggered s xs) xs i i
      ((Trace.final step cleared (xs.take i)).held x.nowMs) := by
  obtain ⟨hi, -⟩ := List.getElem?_eq_some_iff.mp hx
  exact (ready_run s xs (Nat.le_of_lt hi)).held hx hd

/-- A sample triggers exactly when it is held, its hold lasts five seconds and
its press has not triggered before. -/
theorem triggered_iff (s : State) (xs : List Sample) (i : Nat) :
    Triggered s xs i ↔ Down xs i ∧ ∃ p b, PressStart xs i p ∧ HoldStart xs i p b ∧
      clock xs b + 5000 ≤ clock xs i ∧ ∀ j, p ≤ j → j < i → ¬Triggered s xs j := by
  cases hx : xs[i]? with
  | none =>
    simp [Triggered, events_eq, Trace.run_getElem?, Down, hx]
  | some x =>
    rw [triggered_iff_step s hx, down_iff hx]
    cases hd : x.down with
    | false => simp [step_released _ hd]
    | true =>
      have hlaw := (summary_run s hx hd).due_iff hx
      rw [← hlaw]
      cases hdue : ((Trace.final step cleared (xs.take i)).held x.nowMs).due x.nowMs with
      | true => simp [step_due hd hdue]
      | false => simp [step_waiting hd hdue]

/-- Two events of one press are one event. -/
theorem triggered_once (s : State) (xs : List Sample) {p i j : Nat} (hi : PressStart xs i p)
    (hj : PressStart xs j p) (hti : Triggered s xs i) (htj : Triggered s xs j) : i = j := by
  have hle : ∀ {i j : Nat}, PressStart xs i p → PressStart xs j p → Triggered s xs i →
      Triggered s xs j → j ≤ i := by
    intro i j hi hj hti htj
    apply Nat.le_of_not_lt
    intro hlt
    obtain ⟨-, q, b, hq, -, -, hfree⟩ := (triggered_iff s xs j).mp htj
    obtain rfl := hj.unique hq
    exact hfree i hi.le hlt hti
  exact Nat.le_antisymm (hle hj hi htj hti) (hle hi hj hti htj)

/-- Every state before a call of the run is a valid pointer, and where the call
reads the elapsed time the interval started no later than now. -/
theorem run_no_wrap (s : State) (xs : List Sample)
    (e : Trace.Entry (Option State) Sample Event)
    (he : e ∈ Trace.run call (vcMenuActivationReset (some s)) xs) :
    ∃ t, e.before = some t ∧ (e.input.down = true → (t.held e.input.nowMs).latched = false →
      (t.held e.input.nowMs).pressedSinceMs ≤ e.input.nowMs) := by
  rw [vcMenuActivationReset, Option.map_some,
    Trace.run_embed call some call_some cleared xs] at he
  obtain ⟨e', he', rfl⟩ := List.mem_map.mp he
  refine ⟨e'.before, rfl, ?_⟩
  intro hd hl
  obtain ⟨i, hi⟩ := List.mem_iff_getElem?.mp he'
  rw [Trace.run_getElem?] at hi
  cases hx : xs[i]? with
  | none => simp [hx] at hi
  | some x =>
    rw [hx, Option.map_some, Option.some.injEq] at hi
    subst hi
    exact (summary_run s hx hd).since_le hl hx

/-- The activation trace law, for every sequence of samples after a reset: which
samples trigger, at most one event for each press, none without five seconds of
held and non-decreasing clock, and no wrap where the elapsed time is read. -/
theorem menu_activation_trace (s : State) (xs : List Sample) :
    (∀ i, Triggered s xs i ↔ Down xs i ∧ ∃ p b, PressStart xs i p ∧ HoldStart xs i p b ∧
      clock xs b + 5000 ≤ clock xs i ∧ ∀ j, p ≤ j → j < i → ¬Triggered s xs j) ∧
    (∀ p i j, PressStart xs i p → PressStart xs j p → Triggered s xs i → Triggered s xs j →
      i = j) ∧
    (∀ i, Triggered s xs i → ∃ p b, PressStart xs i p ∧ HoldStart xs i p b ∧
      (∀ j, b ≤ j → j ≤ i → Down xs j) ∧
      (∀ j k, b ≤ j → j ≤ k → k ≤ i → clock xs j ≤ clock xs k) ∧
      clock xs b + 5000 ≤ clock xs i) ∧
    ∀ e ∈ Trace.run call (vcMenuActivationReset (some s)) xs,
      ∃ t, e.before = some t ∧ (e.input.down = true → (t.held e.input.nowMs).latched = false →
        (t.held e.input.nowMs).pressedSinceMs ≤ e.input.nowMs) := by
  refine ⟨triggered_iff s xs, fun p i j => triggered_once s xs, ?_, run_no_wrap s xs⟩
  intro i hi
  obtain ⟨-, p, b, hpress, hhold, hlong, -⟩ := (triggered_iff s xs i).mp hi
  refine ⟨p, b, hpress, hhold, ?_, ?_, hlong⟩
  · intro j hb hj
    exact hpress.down j (Nat.le_trans hhold.ge hb) hj
  · intro j k hb hjk hk
    exact hhold.clock_mono hb hjk hk

/-- A rollback restarts an unlatched hold. -/
example : events cleared [⟨true, 2000⟩, ⟨true, 6000⟩, ⟨true, 1500⟩, ⟨true, 6499⟩, ⟨true, 6500⟩] =
    [.none, .none, .none, .none, .triggered] := rfl

end VitaCheat.Menu
