import VitaCheat.SelfTest

/-!
# The gate of the self-test's menu

The menu opens only at the end of a hold that was watched on the home screen from
its start, and not twice for one press. Away from the home screen the activation
is released or spent, so nothing that happens there counts towards a hold.
-/
namespace VitaCheat.SelfTest

open Menu (Timestamp)

/-- Nothing is being timed: the button is up, or its press has been spent. -/
def Quiet (a : Menu.State) : Prop := a.pressed = false ∨ a.latched = true

/-- The press has had its event. -/
def Spent (a : Menu.State) : Prop := a.pressed = true ∧ a.latched = true

theorem not_quiet {a : Menu.State} : ¬Quiet a ↔ a.pressed = true ∧ a.latched = false := by
  simp [Quiet]

theorem update_up (a : Menu.State) (now : Timestamp) :
    a.update false now = (.none, Menu.released now) := rfl

/-- A press that was spent stays spent. -/
theorem update_spent {a : Menu.State} (h : Spent a) (now : Timestamp) :
    (a.update true now).1 = .none ∧ Spent (a.update true now).2 := by
  have hlatched : (a.held now).latched = true := (Menu.held_latched h.1 now).trans h.2
  have hdue : (a.held now).due now = false := by simp [Menu.State.due, hlatched]
  have hstep := Menu.step_waiting (s := a) (x := ⟨true, now⟩) rfl hdue
  rw [Menu.step] at hstep
  rw [hstep]
  exact ⟨rfl, Menu.held_pressed a now, hlatched⟩

/-- Otherwise the sample is timed, and triggers exactly when that takes long enough. -/
theorem update_timed {a : Menu.State} (h : ¬Spent a) (now : Timestamp) :
    ((a.update true now).1 = .triggered ↔
        Menu.menuSelectHoldMs ≤ now - (a.held now).pressedSinceMs) ∧
      (a.update true now).2 =
        { a.held now with latched := decide ((a.update true now).1 = .triggered) } := by
  have hlatched : (a.held now).latched = false := by
    cases hp : a.pressed with
    | false => rw [Menu.held_press hp]
    | true =>
      rw [Menu.held_latched hp]
      cases hl : a.latched with
      | false => rfl
      | true => exact absurd ⟨hp, hl⟩ h
  have hdue : (a.held now).due now =
      decide (Menu.menuSelectHoldMs ≤ now - (a.held now).pressedSinceMs) := by
    rw [Menu.State.due, hlatched, Bool.not_false, Bool.true_and]
  by_cases hlong : Menu.menuSelectHoldMs ≤ now - (a.held now).pressedSinceMs
  · have hstep : a.update true now = _ :=
      Menu.step_due (x := ⟨true, now⟩) rfl (hdue.trans (decide_eq_true hlong))
    rw [hstep]
    exact ⟨⟨fun _ => hlong, fun _ => rfl⟩, rfl⟩
  · have hstep : a.update true now = _ :=
      Menu.step_waiting (x := ⟨true, now⟩) rfl (hdue.trans (decide_eq_false hlong))
    rw [hstep]
    refine ⟨⟨fun h => (nomatch h), fun h => absurd h hlong⟩, ?_⟩
    show a.held now = { a.held now with latched := false }
    rw [← hlatched]

variable {pad : Pad} {s : State} {f : Frame}

theorem redraw_state (s : State) (now : Timestamp) :
    (s.redraw now).2.activation = s.activation ∧ (s.redraw now).2.screen = s.screen := by
  unfold State.redraw
  dsimp only
  split
  · exact ⟨rfl, rfl⟩
  · exact ⟨rfl, rfl⟩

theorem rearm_screen (s : State) (down : Bool) (now : Timestamp) :
    (s.rearm down now).screen = s.screen := by
  unfold State.rearm
  split <;> rfl

theorem rearm_home (h : s.screen = .home) (down : Bool) (now : Timestamp) :
    s.rearm down now = s := by
  rw [State.rearm, if_neg (by simp [h])]

theorem rearm_away (h : s.screen ≠ .home) (down : Bool) (now : Timestamp) :
    (s.rearm down now).activation =
      if down = false ∧ s.activation.pressed = true then Menu.released now
      else s.activation := by
  have hcond : (s.screen != .home && !down && s.activation.pressed) = true ↔
      down = false ∧ s.activation.pressed = true := by simp [h]
  rw [State.rearm]
  by_cases hc : down = false ∧ s.activation.pressed = true
  · rw [if_pos hc, if_pos (hcond.mpr hc)]
    rfl
  · rw [if_neg hc, if_neg (mt hcond.mp hc)]

theorem screenFrame_home (h : s.screen = .home) (down : Bool) (pressed : Buttons)
    (now : Timestamp) :
    s.screenFrame pad down pressed now = s.homeFrame pad down pressed now := by
  rw [State.screenFrame, h]

/-- Away from the home screen a frame moves between screens only. -/
theorem screenFrame_away (h : s.screen ≠ .home) (down : Bool) (pressed : Buttons)
    (now : Timestamp) : (s.screenFrame pad down pressed now).2.activation = s.activation := by
  unfold State.screenFrame
  split
  · next hs => exact absurd hs h
  · unfold State.menuFrame
    split
    · rfl
    · split
      · rfl
      · split <;> rfl
  · unfold State.resultFrame
    split
    · rfl
    · split <;> rfl

theorem homeFrame_state (pad : Pad) (s : State) (down : Bool) (pressed : Buttons)
    (now : Timestamp) :
    (s.homeFrame pad down pressed now).2.activation = (s.activation.update down now).2 ∧
      (s.homeFrame pad down pressed now).2.screen =
        if (s.activation.update down now).1 = .triggered then .menu else s.screen := by
  obtain ⟨hactivation, hscreen⟩ :=
    redraw_state { s with activation := (s.activation.update down now).2 } now
  unfold State.homeFrame
  dsimp only
  split
  · exact ⟨hactivation, rfl⟩
  · split
    · exact ⟨hactivation, hscreen⟩
    · exact ⟨hactivation, hscreen⟩

theorem step_over (h : s.exitRequested = true) : step pad s f = ([], s) := by
  rw [step, if_pos h]

theorem step_none (pad : Pad) (h : s.exitRequested = false) (hf : f.buttons = none) :
    step pad s f = s.missed := by
  rw [step, if_neg (by rw [h]; decide), hf]

/-- A missing read leaves the screen, and leaves the activation quiet or as it was. -/
theorem step_missed (pad : Pad) (h : s.exitRequested = false) (hf : f.buttons = none) :
    (step pad s f).2.screen = s.screen ∧ (step pad s f).2.exitRequested = false ∧
      (((step pad s f).2.activation = s.activation ∧ (s.screen = .home → Quiet s.activation)) ∨
        ((step pad s f).2.activation = Menu.cleared ∧ ¬Quiet s.activation)) := by
  have hstep : step pad s f = s.missed := by
    rw [step, if_neg (by rw [h]; decide), hf]
  rw [hstep, State.missed]
  split
  · next hc =>
    simp only [Bool.and_eq_true, decide_eq_true_eq, Bool.not_eq_true'] at hc
    refine ⟨rfl, h, .inr ⟨rfl, ?_⟩⟩
    rintro (hp | hl)
    · rw [hp] at hc
      cases hc.1.2
    · rw [hl] at hc
      cases hc.2
  · next hc =>
    refine ⟨rfl, h, .inl ⟨rfl, ?_⟩⟩
    intro hs
    cases hp : s.activation.pressed with
    | false => exact .inl hp
    | true =>
      cases hl : s.activation.latched with
      | true => exact .inr hl
      | false =>
        rw [hs, hp, hl] at hc
        exact absurd rfl hc

theorem step_read {buttons : Buttons} (h : s.exitRequested = false)
    (hf : f.buttons = some buttons) : step pad s f = s.readFrame pad buttons f.nowMs := by
  rw [step, if_neg (by rw [h]; decide), hf]

/-- On the home screen the sample goes to the activation, and only an event
leaves for the menu. -/
theorem step_home (pad : Pad) {buttons : Buttons} (h : s.exitRequested = false)
    (hs : s.screen = .home) (hf : f.buttons = some buttons) :
    (step pad s f).2.activation =
        (s.activation.update (pad.selectDown buttons) f.nowMs).2 ∧
      (step pad s f).2.screen =
        if (s.activation.update (pad.selectDown buttons) f.nowMs).1 = .triggered then .menu
        else .home := by
  let t : State := { s with previousButtons := buttons }
  have ht : t.screen = .home := hs
  have hframe : step pad s f = (t.rearm (pad.selectDown buttons) f.nowMs).screenFrame pad
      (pad.selectDown buttons) (buttons &&& ~~~s.previousButtons) f.nowMs := step_read h hf
  have hstate := homeFrame_state pad t (pad.selectDown buttons)
    (buttons &&& ~~~s.previousButtons) f.nowMs
  rw [hframe, rearm_home ht, screenFrame_home ht]
  rw [ht] at hstate
  exact hstate

/-- Away from the home screen only a release reaches the activation. -/
theorem step_away (pad : Pad) {buttons : Buttons} (h : s.exitRequested = false)
    (hs : s.screen ≠ .home) (hf : f.buttons = some buttons) :
    (step pad s f).2.activation =
      if pad.selectDown buttons = false ∧ s.activation.pressed = true then
        Menu.released f.nowMs
      else s.activation := by
  let t : State := { s with previousButtons := buttons }
  have ht : t.screen ≠ .home := hs
  have hframe : step pad s f = (t.rearm (pad.selectDown buttons) f.nowMs).screenFrame pad
      (pad.selectDown buttons) (buttons &&& ~~~s.previousButtons) f.nowMs := step_read h hf
  rw [hframe, screenFrame_away (by rwa [rearm_screen])]
  exact rearm_away ht _ _

section Run

variable (pad : Pad) (frames : Nat → Frame)

/-- The locals before the frame of an index. -/
def stateAt (i : Nat) : State := Trace.final (step pad) start ((List.range i).map frames)

def clockAt (i : Nat) : Timestamp := (frames i).nowMs

/-- The frame is processed on the home screen and reads Select down. -/
def HeldAt (i : Nat) : Prop :=
  (stateAt pad frames i).exitRequested = false ∧ (stateAt pad frames i).screen = .home ∧
    ∃ buttons, (frames i).buttons = some buttons ∧ pad.selectDown buttons = true

/-- The frame is processed on some screen and reads Select up. -/
def ReleasedAt (i : Nat) : Prop :=
  (stateAt pad frames i).exitRequested = false ∧
    ∃ buttons, (frames i).buttons = some buttons ∧ pad.selectDown buttons = false

/-- The frame moves the screen from home to the menu. -/
def OpensAt (i : Nat) : Prop :=
  (stateAt pad frames i).screen = .home ∧ (stateAt pad frames (i + 1)).screen = .menu

/-- A hold from frame `j` to frame `i` that nothing interrupts. -/
structure Hold (j i : Nat) : Prop where
  le : j ≤ i
  held : ∀ m, j ≤ m → m ≤ i → HeldAt pad frames m
  clock : ∀ m n, j ≤ m → m ≤ n → n ≤ i → clockAt frames m ≤ clockAt frames n

/-- What the locals before frame `i` remember of the frames so far. -/
structure Gate (i : Nat) : Prop where
  away : (stateAt pad frames i).screen ≠ .home → Quiet (stateAt pad frames i).activation
  timed : (stateAt pad frames i).exitRequested = false →
    ¬Quiet (stateAt pad frames i).activation → ∃ j n, i = n + 1 ∧ Hold pad frames j n ∧
      (stateAt pad frames i).activation.pressedSinceMs = clockAt frames j ∧
      (stateAt pad frames i).activation.lastTimestampMs = clockAt frames n
  spent : ∀ k, k < i → OpensAt pad frames k →
    (∃ m, k < m ∧ m < i ∧ ReleasedAt pad frames m) ∨
      Spent (stateAt pad frames i).activation

end Run

variable {frames : Nat → Frame} {i : Nat}

theorem stateAt_succ (pad : Pad) (frames : Nat → Frame) (i : Nat) :
    stateAt pad frames (i + 1) = (step pad (stateAt pad frames i) (frames i)).2 := by
  rw [stateAt, List.range_succ, List.map_append, Trace.final_append]
  rfl

theorem hold_single (h : HeldAt pad frames i) : Hold pad frames i i where
  le := Nat.le_refl i
  held m h₁ h₂ := by rwa [Nat.le_antisymm h₂ h₁]
  clock m n h₁ h₂ h₃ := by
    rw [Nat.le_antisymm (Nat.le_trans h₂ h₃) h₁, Nat.le_antisymm h₃ (Nat.le_trans h₁ h₂)]
    exact BitVec.le_refl _

/-- A hold goes on with a held frame whose clock has not fallen. -/
theorem Hold.snoc {j : Nat} (h : Hold pad frames j i) (hi : HeldAt pad frames (i + 1))
    (hclock : clockAt frames i ≤ clockAt frames (i + 1)) : Hold pad frames j (i + 1) where
  le := Nat.le_succ_of_le h.le
  held m h₁ h₂ := by
    rcases Nat.le_or_eq_of_le_succ h₂ with hm | hm
    · exact h.held m h₁ hm
    · rwa [hm]
  clock m n h₁ h₂ h₃ := by
    rcases Nat.le_or_eq_of_le_succ h₃ with hn | hn
    · exact h.clock m n h₁ h₂ hn
    · subst hn
      rcases Nat.le_or_eq_of_le_succ h₂ with hm | hm
      · exact BitVec.le_trans (h.clock m i h₁ hm (Nat.le_refl i)) hclock
      · rw [hm]
        exact BitVec.le_refl _

/-- A sample that is timed belongs to a hold that started when its interval did. -/
theorem Gate.sampled (g : Gate pad frames i) (hi : HeldAt pad frames i)
    (ht : ¬Spent (stateAt pad frames i).activation) :
    ∃ j, Hold pad frames j i ∧
      ((stateAt pad frames i).activation.held (clockAt frames i)).pressedSinceMs =
        clockAt frames j := by
  cases hp : (stateAt pad frames i).activation.pressed with
  | false => exact ⟨i, hold_single hi, by rw [Menu.held_press hp]⟩
  | true =>
    have hl : (stateAt pad frames i).activation.latched = false := by
      cases hl : (stateAt pad frames i).activation.latched with
      | false => rfl
      | true => exact absurd ⟨hp, hl⟩ ht
    obtain ⟨j, n, rfl, hold, hsince, hlast⟩ := g.timed hi.1 (not_quiet.mpr ⟨hp, hl⟩)
    rw [Menu.held_pressedSinceMs hp hl, hlast]
    by_cases hfall : clockAt frames (n + 1) < clockAt frames n
    · exact ⟨n + 1, hold_single hi, if_pos hfall⟩
    · exact ⟨j, hold.snoc hi (BitVec.not_lt.mp hfall), (if_neg hfall).trans hsince⟩

/-- A frame that opens nothing keeps the account of the earlier openings. -/
theorem Gate.carried (g : Gate pad frames i) (hopen : ¬OpensAt pad frames i)
    (hkeep : Spent (stateAt pad frames i).activation →
      ReleasedAt pad frames i ∨ Spent (stateAt pad frames (i + 1)).activation) :
    ∀ k, k < i + 1 → OpensAt pad frames k →
      (∃ m, k < m ∧ m < i + 1 ∧ ReleasedAt pad frames m) ∨
        Spent (stateAt pad frames (i + 1)).activation := by
  intro k hk hopens
  rcases Nat.lt_succ_iff_lt_or_eq.mp hk with hk | rfl
  · rcases g.spent k hk hopens with ⟨m, h₁, h₂, hm⟩ | hspent
    · exact .inl ⟨m, h₁, Nat.lt_succ_of_lt h₂, hm⟩
    · rcases hkeep hspent with hr | hr
      · exact .inl ⟨i, hk, Nat.lt_succ_self i, hr⟩
      · exact .inr hr
  · exact absurd hopens hopen

/-- A frame that keeps the screen opens nothing. -/
theorem not_opens (h : (stateAt pad frames (i + 1)).screen = (stateAt pad frames i).screen) :
    ¬OpensAt pad frames i := by
  rintro ⟨hhome, hmenu⟩
  rw [h, hhome] at hmenu
  cases hmenu

/-- After a frame that leaves the activation quiet nothing is timed. -/
theorem gate_quiet (hquiet : Quiet (stateAt pad frames (i + 1)).activation)
    (hspent : ∀ k, k < i + 1 → OpensAt pad frames k →
      (∃ m, k < m ∧ m < i + 1 ∧ ReleasedAt pad frames m) ∨
        Spent (stateAt pad frames (i + 1)).activation) : Gate pad frames (i + 1) where
  away _ := hquiet
  timed _ hn := absurd hquiet hn
  spent := hspent

theorem gate_over (h : (stateAt pad frames i).exitRequested = true) (g : Gate pad frames i) :
    Gate pad frames (i + 1) := by
  have hs : stateAt pad frames (i + 1) = stateAt pad frames i := by
    rw [stateAt_succ, step_over h]
  refine ⟨?_, ?_, g.carried (not_opens (by rw [hs])) fun hspent => .inr (by rwa [hs])⟩
  · rw [hs]
    exact g.away
  · rw [hs, h]
    intro hfalse
    cases hfalse

theorem gate_missed (h : (stateAt pad frames i).exitRequested = false)
    (hf : (frames i).buttons = none) (g : Gate pad frames i) : Gate pad frames (i + 1) := by
  obtain ⟨hscreen, -, hactivation⟩ := step_missed pad h hf
  rw [← stateAt_succ] at hscreen hactivation
  have hquiet : Quiet (stateAt pad frames (i + 1)).activation := by
    rcases hactivation with ⟨hsame, hhome⟩ | ⟨hclear, -⟩
    · rw [hsame]
      by_cases hs : (stateAt pad frames i).screen = .home
      · exact hhome hs
      · exact g.away hs
    · rw [hclear]
      exact .inl rfl
  refine gate_quiet hquiet (g.carried (not_opens hscreen) ?_)
  intro hspent
  rcases hactivation with ⟨hsame, -⟩ | ⟨-, hn⟩
  · exact .inr (by rwa [hsame])
  · exact absurd (.inr hspent.2) hn

theorem gate_away {buttons : Buttons} (h : (stateAt pad frames i).exitRequested = false)
    (hs : (stateAt pad frames i).screen ≠ .home) (hf : (frames i).buttons = some buttons)
    (g : Gate pad frames i) : Gate pad frames (i + 1) := by
  have hactivation := step_away pad h hs hf
  rw [← stateAt_succ] at hactivation
  have hquiet : Quiet (stateAt pad frames (i + 1)).activation := by
    rw [hactivation]
    split
    · exact .inl rfl
    · exact g.away hs
  refine gate_quiet hquiet (g.carried (fun ho => hs ho.1) ?_)
  intro hspent
  cases hdown : pad.selectDown buttons with
  | false => exact .inl ⟨h, buttons, hf, hdown⟩
  | true =>
    rw [hactivation, hdown, if_neg (by simp)]
    exact .inr hspent

theorem gate_up {buttons : Buttons} (h : (stateAt pad frames i).exitRequested = false)
    (hs : (stateAt pad frames i).screen = .home) (hf : (frames i).buttons = some buttons)
    (hup : pad.selectDown buttons = false) (g : Gate pad frames i) :
    Gate pad frames (i + 1) := by
  obtain ⟨hactivation, hscreen⟩ := step_home pad h hs hf
  rw [← stateAt_succ, hup, update_up] at hactivation hscreen
  have hhome : (stateAt pad frames (i + 1)).screen = .home := hscreen
  have hquiet : Quiet (stateAt pad frames (i + 1)).activation := by
    rw [hactivation]
    exact .inl rfl
  refine gate_quiet hquiet (g.carried (not_opens (by rw [hhome, hs])) ?_)
  intro _
  exact .inl ⟨h, buttons, hf, hup⟩

/-- A held frame either belongs to a press that was spent, or is timed. -/
theorem gate_down (hi : HeldAt pad frames i) (g : Gate pad frames i) :
    Gate pad frames (i + 1) := by
  obtain ⟨h, hs, buttons, hf, hdown⟩ := hi
  obtain ⟨hactivation, hscreen⟩ := step_home pad h hs hf
  rw [← stateAt_succ, hdown] at hactivation hscreen
  by_cases hspent : Spent (stateAt pad frames i).activation
  · obtain ⟨hnone, hstill⟩ := update_spent hspent (frames i).nowMs
    rw [← hactivation] at hstill
    rw [hnone, if_neg (by decide), ← hs] at hscreen
    exact gate_quiet (.inr hstill.2) (g.carried (not_opens hscreen) fun _ => .inr hstill)
  · obtain ⟨j, hold, hsince⟩ := g.sampled ⟨h, hs, buttons, hf, hdown⟩ hspent
    have htimed := (update_timed hspent (frames i).nowMs).2
    rw [← hactivation] at htimed
    by_cases htriggered : ((stateAt pad frames i).activation.update true
        (frames i).nowMs).1 = .triggered
    · have hstill : Spent (stateAt pad frames (i + 1)).activation := by
        rw [htimed, decide_eq_true htriggered]
        exact ⟨Menu.held_pressed _ _, rfl⟩
      exact gate_quiet (.inr hstill.2) fun _ _ _ => .inr hstill
    · rw [decide_eq_false htriggered] at htimed
      rw [if_neg htriggered] at hscreen
      refine ⟨fun hn => absurd hscreen hn, fun _ _ => ⟨j, i, rfl, hold, ?_, ?_⟩,
        g.carried (not_opens (hscreen.trans hs.symm)) fun hn => absurd hn hspent⟩
      · rw [htimed]
        exact hsince
      · rw [htimed]
        rfl

theorem gate_step (g : Gate pad frames i) : Gate pad frames (i + 1) := by
  cases hexit : (stateAt pad frames i).exitRequested with
  | true => exact gate_over hexit g
  | false =>
    cases hf : (frames i).buttons with
    | none => exact gate_missed hexit hf g
    | some buttons =>
      by_cases hs : (stateAt pad frames i).screen = .home
      · cases hdown : pad.selectDown buttons with
        | false => exact gate_up hexit hs hf hdown g
        | true => exact gate_down ⟨hexit, hs, buttons, hf, hdown⟩ g
      · exact gate_away hexit hs hf g

/-- The account is true before every frame of every run. -/
theorem gate (pad : Pad) (frames : Nat → Frame) (i : Nat) : Gate pad frames i := by
  induction i with
  | zero =>
    exact ⟨fun hn => absurd rfl hn, fun _ hn => absurd (.inl rfl) hn,
      fun k hk => absurd hk (Nat.not_lt_zero k)⟩
  | succ i ih => exact gate_step ih

/-- A frame that opens the menu is a held one, and its sample is the event. -/
theorem opens_held (h : OpensAt pad frames i) :
    HeldAt pad frames i ∧
      ((stateAt pad frames i).activation.update true (clockAt frames i)).1 = .triggered := by
  obtain ⟨hs, hmenu⟩ := h
  rw [stateAt_succ] at hmenu
  cases hexit : (stateAt pad frames i).exitRequested with
  | true =>
    rw [step_over hexit, hs] at hmenu
    cases hmenu
  | false =>
    cases hf : (frames i).buttons with
    | none =>
      rw [(step_missed pad hexit hf).1, hs] at hmenu
      cases hmenu
    | some buttons =>
      rw [(step_home pad hexit hs hf).2] at hmenu
      split at hmenu
      · next htriggered =>
        cases hdown : pad.selectDown buttons with
        | false =>
          rw [hdown, update_up] at htriggered
          cases htriggered
        | true =>
          rw [hdown] at htriggered
          exact ⟨⟨hexit, hs, buttons, hf, hdown⟩, htriggered⟩
      · cases hmenu

/-- The menu opens at the end of a hold of five seconds that was watched frame by
frame on the home screen, two openings have a release between them, and away from
the home screen nothing is timed. -/
theorem self_test_gate (pad : Pad) (frames : Nat → Frame) :
    (∀ k, OpensAt pad frames k → ∃ j, j < k ∧
      (∀ m, j ≤ m → m ≤ k → HeldAt pad frames m) ∧
      (∀ m n, j ≤ m → m ≤ n → n ≤ k → clockAt frames m ≤ clockAt frames n) ∧
      (clockAt frames j).toNat + 5000 ≤ (clockAt frames k).toNat) ∧
    (∀ k l, k < l → OpensAt pad frames k → OpensAt pad frames l →
      ∃ m, k < m ∧ m < l ∧ ReleasedAt pad frames m) ∧
    ∀ i, (stateAt pad frames i).screen ≠ .home →
      (stateAt pad frames i).activation.pressed = false ∨
        (stateAt pad frames i).activation.latched = true := by
  have hfresh : ∀ k, OpensAt pad frames k → ¬Spent (stateAt pad frames k).activation := by
    intro k hk hspent
    have hnone := (update_spent hspent (clockAt frames k)).1
    rw [(opens_held hk).2] at hnone
    cases hnone
  refine ⟨?_, ?_, fun i => (gate pad frames i).away⟩
  · intro k hk
    obtain ⟨hheld, htriggered⟩ := opens_held hk
    obtain ⟨j, hold, hsince⟩ := (gate pad frames k).sampled hheld (hfresh k hk)
    have hlong := ((update_timed (hfresh k hk) (clockAt frames k)).1).mp htriggered
    rw [hsince, BitVec.le_def, BitVec.toNat_sub_of_le
      (hold.clock j k (Nat.le_refl j) hold.le (Nat.le_refl k))] at hlong
    have hms : Menu.menuSelectHoldMs.toNat = 5000 := rfl
    have hjk : (clockAt frames j).toNat + 5000 ≤ (clockAt frames k).toNat := by omega
    refine ⟨j, ?_, hold.held, hold.clock, hjk⟩
    rcases Nat.lt_or_eq_of_le hold.le with hlt | rfl
    · exact hlt
    · omega
  · intro k l hkl hk hl
    rcases (gate pad frames l).spent k hkl hk with hreleased | hspent
    · exact hreleased
    · exact absurd hspent (hfresh l hl)

example : OpensAt ⟨1, 2, 4, 8⟩ (fun i => ⟨BitVec.ofNat 64 (5000000 * i), some 1⟩) 1 :=
  ⟨by decide, by decide⟩

end VitaCheat.SelfTest
