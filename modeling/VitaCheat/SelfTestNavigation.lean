import Mathlib.Order.Nat
import VitaCheat.SelfTestGate

/-!
# Moving between the screens of the self-test

The loop keeps the buttons of the last frame that was read to tell a press from a
button that stays down. Said of the frames alone: the screens follow the presses,
and the menu opens exactly at the end of a full hold that is not the rest of a
press which has already opened it.
-/
namespace VitaCheat.SelfTest

open Menu (Timestamp)

/-- The buttons of the last frame before an index that was read. -/
def lastRead (frames : Nat → Frame) : Nat → Buttons
  | 0 => 0
  | i + 1 => (frames i).buttons.getD (lastRead frames i)

/-- The button of a bit is down in this frame and was up in the last one that was read. -/
def PressedAt (frames : Nat → Frame) (bit i : Nat) : Prop :=
  ∃ buttons, (frames i).buttons = some buttons ∧ buttons.getLsbD bit = true ∧
    (lastRead frames i).getLsbD bit = false

/-- A button of the mask is pressed. -/
def EdgeAt (frames : Nat → Frame) (mask : Buttons) (i : Nat) : Prop :=
  ∃ bit, mask.getLsbD bit = true ∧ PressedAt frames bit i

theorem ne_zero_iff (x : Buttons) : (x != 0) = true ↔ ∃ bit, x.getLsbD bit = true := by
  rw [bne_iff_ne]
  constructor
  · intro hne
    by_contra hnone
    apply hne
    apply BitVec.eq_of_getLsbD_eq
    intro bit _
    show x.getLsbD bit = (0#32).getLsbD bit
    rw [BitVec.getLsbD_zero]
    exact Bool.eq_false_iff.mpr fun hbit => hnone ⟨bit, hbit⟩
  · intro ⟨bit, hbit⟩ hzero
    subst hzero
    exact absurd hbit (Bool.eq_false_iff.mp BitVec.getLsbD_zero)

/-- The test of the loop finds the presses. -/
theorem pressed_iff {frames : Nat → Frame} {i : Nat} {buttons : Buttons} (mask : Buttons)
    (hf : (frames i).buttons = some buttons) :
    (buttons &&& ~~~lastRead frames i &&& mask != 0) = true ↔ EdgeAt frames mask i := by
  rw [ne_zero_iff]
  apply exists_congr
  intro bit
  by_cases hbit : bit < 32
  · simp only [BitVec.getLsbD_and, BitVec.getLsbD_not, hbit, decide_true, Bool.true_and,
      Bool.and_eq_true, Bool.not_eq_true', PressedAt, hf, Option.some.injEq, exists_eq_left']
    exact and_comm
  · simp only [BitVec.getLsbD_and, BitVec.getLsbD_of_ge mask bit (Nat.not_lt.mp hbit),
      Bool.and_false, Bool.false_eq_true, false_and]

theorem not_edge {frames : Nat → Frame} {i : Nat} (mask : Buttons)
    (hf : (frames i).buttons = none) : ¬EdgeAt frames mask i := by
  intro ⟨_, _, buttons, hsome, _⟩
  rw [hf] at hsome
  cases hsome

instance (frames : Nat → Frame) (mask : Buttons) (i : Nat) : Decidable (EdgeAt frames mask i) :=
  match hf : (frames i).buttons with
  | none => isFalse (not_edge mask hf)
  | some _ => decidable_of_iff _ (pressed_iff mask hf)

/-- Between two presses of one button it was seen up. -/
theorem pressed_twice {frames : Nat → Frame} {bit i j : Nat} (hij : i < j)
    (hi : PressedAt frames bit i) (hj : PressedAt frames bit j) :
    ∃ m, i < m ∧ m < j ∧ ∃ buttons, (frames m).buttons = some buttons ∧
      buttons.getLsbD bit = false := by
  have hlast : (lastRead frames j).getLsbD bit = false := by
    obtain ⟨_, _, _, hlast⟩ := hj
    exact hlast
  clear hj
  induction j, hij using Nat.le_induction with
  | base =>
    obtain ⟨buttons, hread, hdown, -⟩ := hi
    rw [lastRead, hread, Option.getD_some, hdown] at hlast
    cases hlast
  | succ j hij ih =>
    cases hread : (frames j).buttons with
    | none =>
      rw [lastRead, hread, Option.getD_none] at hlast
      obtain ⟨m, hm, hmj, hup⟩ := ih hlast
      exact ⟨m, hm, Nat.lt_succ_of_lt hmj, hup⟩
    | some buttons =>
      rw [lastRead, hread, Option.getD_some] at hlast
      exact ⟨j, hij, Nat.lt_succ_self j, buttons, hread, hlast⟩

/-- The screen, unless the loop has ended. -/
def State.leads (s : State) : Option Screen := if s.exitRequested then none else some s.screen

section Navigation

variable (pad : Pad) (frames : Nat → Frame)

/-- The screen before a frame; none after an exit. -/
def screenAt (i : Nat) : Option Screen := (stateAt pad frames i).leads

/-- Where the presses of a frame lead from a screen; none is the exit. -/
def navigate (i : Nat) : Screen → Option Screen
  | .home => if EdgeAt frames pad.circle i then none else some .home
  | .menu =>
    if EdgeAt frames pad.cross i then some .result
    else if EdgeAt frames pad.circle i then some .home
    else if EdgeAt frames pad.triangle i then none
    else some .menu
  | .result =>
    if EdgeAt frames pad.circle i then some .menu
    else if EdgeAt frames pad.triangle i then none
    else some .result

end Navigation

variable {pad : Pad} {frames : Nat → Frame} {i : Nat}

theorem redraw_locals (s : State) (now : Timestamp) :
    (s.redraw now).2.previousButtons = s.previousButtons ∧
      (s.redraw now).2.exitRequested = s.exitRequested := by
  unfold State.redraw
  dsimp only
  split
  · exact ⟨rfl, rfl⟩
  · exact ⟨rfl, rfl⟩

theorem rearm_locals (s : State) (down : Bool) (now : Timestamp) :
    (s.rearm down now).previousButtons = s.previousButtons ∧
      (s.rearm down now).exitRequested = s.exitRequested := by
  unfold State.rearm
  split
  · exact ⟨rfl, rfl⟩
  · exact ⟨rfl, rfl⟩

theorem screenFrame_buttons (pad : Pad) (s : State) (down : Bool) (pressed : Buttons)
    (now : Timestamp) :
    (s.screenFrame pad down pressed now).2.previousButtons = s.previousButtons := by
  unfold State.screenFrame
  split
  · have hredraw := (redraw_locals { s with activation := (s.activation.update down now).2 } now).1
    unfold State.homeFrame
    dsimp only
    split
    · exact hredraw
    · split
      · exact hredraw
      · exact hredraw
  · unfold State.menuFrame
    split
    · rfl
    · split
      · rfl
      · split <;> rfl
  · unfold State.resultFrame
    split
    · rfl
    · split <;> rfl

/-- What the loop remembers are the last buttons that were read. -/
theorem previousButtons_eq (pad : Pad) (frames : Nat → Frame) (i : Nat) :
    (stateAt pad frames i).exitRequested = false →
      (stateAt pad frames i).previousButtons = lastRead frames i := by
  induction i with
  | zero => exact fun _ => rfl
  | succ i ih =>
    intro hnext
    rw [stateAt_succ] at hnext ⊢
    cases hexit : (stateAt pad frames i).exitRequested with
    | true =>
      rw [step_over hexit, hexit] at hnext
      cases hnext
    | false =>
      cases hf : (frames i).buttons with
      | none =>
        have hstep := step_none pad hexit hf
        have hkeep : (stateAt pad frames i).missed.2.previousButtons =
            (stateAt pad frames i).previousButtons := by
          unfold State.missed
          split <;> rfl
        rw [hstep, hkeep, lastRead, hf, Option.getD_none]
        exact ih hexit
      | some buttons =>
        rw [step_read hexit hf, State.readFrame, screenFrame_buttons, (rearm_locals _ _ _).1,
          lastRead, hf, Option.getD_some]

section Frames

variable {s : State} (pad : Pad) (pressed : Buttons)

/-- A home frame leaves by an event of the activation, or by Circle. -/
theorem homeFrame_leads (hexit : s.exitRequested = false) (hs : s.screen = .home) (down : Bool)
    (now : Timestamp) :
    (s.homeFrame pad down pressed now).2.leads =
      if (s.activation.update down now).1 = .triggered then some .menu
      else if pressed &&& pad.circle != 0 then none else some .home := by
  let t : State := { s with activation := (s.activation.update down now).2 }
  have hredraw : (t.redraw now).2.exitRequested = false := (redraw_locals t now).2.trans hexit
  have hscreen : (t.redraw now).2.screen = .home := (redraw_state t now).2.trans hs
  unfold State.homeFrame
  dsimp only
  split
  · show (if (t.redraw now).2.exitRequested then none else some Screen.menu) = some .menu
    rw [hredraw]
    rfl
  · split
    · rfl
    · show (t.redraw now).2.leads = some .home
      rw [State.leads, hredraw, hscreen]
      rfl

theorem menuFrame_leads (hexit : s.exitRequested = false) (hs : s.screen = .menu) :
    (s.menuFrame pad pressed).2.leads =
      if pressed &&& pad.cross != 0 then some .result
      else if pressed &&& pad.circle != 0 then some .home
      else if pressed &&& pad.triangle != 0 then none else some .menu := by
  have hkeep : ∀ screen, State.leads { s with screen := screen } = some screen := by
    intro screen
    rw [State.leads, hexit]
    rfl
  unfold State.menuFrame
  split
  · exact hkeep .result
  · split
    · exact hkeep .home
    · split
      · rfl
      · exact hs ▸ hkeep s.screen

theorem resultFrame_leads (hexit : s.exitRequested = false) (hs : s.screen = .result) :
    (s.resultFrame pad pressed).2.leads =
      if pressed &&& pad.circle != 0 then some .menu
      else if pressed &&& pad.triangle != 0 then none else some .result := by
  have hkeep : ∀ screen, State.leads { s with screen := screen } = some screen := by
    intro screen
    rw [State.leads, hexit]
    rfl
  unfold State.resultFrame
  split
  · exact hkeep .menu
  · split
    · rfl
    · exact hs ▸ hkeep s.screen

end Frames

theorem screenAt_some {screen : Screen} (h : screenAt pad frames i = some screen) :
    (stateAt pad frames i).exitRequested = false ∧ (stateAt pad frames i).screen = screen := by
  rw [screenAt, State.leads] at h
  split at h
  · cases h
  · next hexit => exact ⟨Bool.eq_false_iff.mpr hexit, Option.some.inj h⟩

theorem screenAt_none (h : screenAt pad frames i = none) :
    screenAt pad frames (i + 1) = none := by
  have hexit : (stateAt pad frames i).exitRequested = true := by
    rw [screenAt, State.leads] at h
    split at h
    · assumption
    · cases h
  rw [screenAt, stateAt_succ, step_over hexit]
  exact h

/-- A frame that is missed does not open the menu and leaves the screen. -/
theorem screenAt_missed (hf : (frames i).buttons = none) :
    ¬OpensAt pad frames i ∧ screenAt pad frames (i + 1) = screenAt pad frames i := by
  cases hexit : (stateAt pad frames i).exitRequested with
  | true =>
    have hsame : stateAt pad frames (i + 1) = stateAt pad frames i := by
      rw [stateAt_succ, step_over hexit]
    exact ⟨not_opens (congrArg State.screen hsame), congrArg State.leads hsame⟩
  | false =>
    obtain ⟨hscreen, hnext, -⟩ := step_missed pad hexit hf
    rw [← stateAt_succ] at hscreen hnext
    refine ⟨not_opens hscreen, ?_⟩
    rw [screenAt, State.leads, hnext, hscreen, screenAt, State.leads, hexit]

/-- It has no presses. -/
theorem navigate_missed (hf : (frames i).buttons = none) (screen : Screen) :
    navigate pad frames i screen = some screen := by
  cases screen with
  | home => rw [navigate, if_neg (not_edge _ hf)]
  | menu => rw [navigate, if_neg (not_edge _ hf), if_neg (not_edge _ hf), if_neg (not_edge _ hf)]
  | result => rw [navigate, if_neg (not_edge _ hf), if_neg (not_edge _ hf)]

/-- On the home screen an opening goes first. -/
theorem screenAt_home {buttons : Buttons} (hs : screenAt pad frames i = some .home)
    (hf : (frames i).buttons = some buttons) :
    (OpensAt pad frames i → screenAt pad frames (i + 1) = some .menu) ∧
      (¬OpensAt pad frames i → screenAt pad frames (i + 1) = navigate pad frames i .home) := by
  obtain ⟨hexit, hscreen⟩ := screenAt_some hs
  let t : State := { stateAt pad frames i with previousButtons := buttons }
  have hnext := homeFrame_leads (s := t) pad (buttons &&& ~~~(stateAt pad frames i).previousButtons)
    hexit hscreen (pad.selectDown buttons) (frames i).nowMs
  have hframe : screenAt pad frames (i + 1) = (t.homeFrame pad (pad.selectDown buttons)
      (buttons &&& ~~~(stateAt pad frames i).previousButtons) (frames i).nowMs).2.leads := by
    rw [screenAt, stateAt_succ, step_read hexit hf, State.readFrame]
    rw [rearm_home (s := t) hscreen, screenFrame_home (s := t) hscreen]
  have hmenu := (step_home pad hexit hscreen hf).2
  rw [← stateAt_succ] at hmenu
  rw [hframe, hnext]
  constructor
  · intro ⟨_, hopen⟩
    rw [hopen] at hmenu
    split at hmenu
    · next htriggered => exact if_pos htriggered
    · cases hmenu
  · intro hopen
    have hquiet : (t.activation.update (pad.selectDown buttons) (frames i).nowMs).1 ≠ .triggered :=
      fun htriggered => hopen ⟨hscreen, hmenu.trans (if_pos htriggered)⟩
    rw [if_neg hquiet, navigate, previousButtons_eq pad frames i hexit]
    exact if_congr (pressed_iff pad.circle hf) rfl rfl

/-- Away from it the presses lead. -/
theorem screenAt_away {buttons : Buttons} {screen : Screen}
    (hs : screenAt pad frames i = some screen) (haway : screen ≠ .home)
    (hf : (frames i).buttons = some buttons) :
    screenAt pad frames (i + 1) = navigate pad frames i screen := by
  obtain ⟨hexit, hscreen⟩ := screenAt_some hs
  let t : State := { stateAt pad frames i with previousButtons := buttons }
  let r : State := t.rearm (pad.selectDown buttons) (frames i).nowMs
  have hrexit : r.exitRequested = false := (rearm_locals t _ _).2.trans hexit
  have hrscreen : r.screen = screen := (rearm_screen t _ _).trans hscreen
  have hframe : screenAt pad frames (i + 1) = (r.screenFrame pad (pad.selectDown buttons)
      (buttons &&& ~~~lastRead frames i) (frames i).nowMs).2.leads := by
    rw [screenAt, stateAt_succ, step_read hexit hf, State.readFrame,
      previousButtons_eq pad frames i hexit]
  have hcross := pressed_iff pad.cross hf
  have hcircle := pressed_iff pad.circle hf
  have htriangle := pressed_iff pad.triangle hf
  rw [hframe, State.screenFrame, hrscreen]
  cases screen with
  | home => exact absurd rfl haway
  | menu =>
    rw [navigate]
    exact (menuFrame_leads pad _ hrexit hrscreen).trans
      (if_congr hcross rfl (if_congr hcircle rfl (if_congr htriangle rfl rfl)))
  | result =>
    rw [navigate]
    exact (resultFrame_leads pad _ hrexit hrscreen).trans
      (if_congr hcircle rfl (if_congr htriangle rfl rfl))

/-- The screens follow the presses: a frame leads where its presses say, an opening
of the menu goes first, a missed frame leads nowhere, nothing follows an exit, and a
button that is pressed twice was seen up in between, however many frames were missed. -/
theorem self_test_navigation (pad : Pad) (frames : Nat → Frame) :
    (∀ i, (screenAt pad frames i = none → screenAt pad frames (i + 1) = none) ∧
      ((frames i).buttons = none →
        ¬OpensAt pad frames i ∧ screenAt pad frames (i + 1) = screenAt pad frames i) ∧
      ∀ screen, screenAt pad frames i = some screen →
        (OpensAt pad frames i → screenAt pad frames (i + 1) = some .menu) ∧
        (¬OpensAt pad frames i →
          screenAt pad frames (i + 1) = navigate pad frames i screen)) ∧
    ∀ bit i j, i < j → PressedAt frames bit i → PressedAt frames bit j →
      ∃ m, i < m ∧ m < j ∧ ∃ buttons, (frames m).buttons = some buttons ∧
        buttons.getLsbD bit = false := by
  refine ⟨fun i => ⟨screenAt_none, screenAt_missed, ?_⟩, fun bit i j => pressed_twice⟩
  intro screen hs
  cases hf : (frames i).buttons with
  | none =>
    obtain ⟨hopen, hsame⟩ : ¬OpensAt pad frames i ∧ _ := screenAt_missed hf
    refine ⟨fun h => absurd h hopen, fun _ => ?_⟩
    rw [hsame, hs, navigate_missed hf]
  | some buttons =>
    by_cases hhome : screen = .home
    · subst hhome
      exact screenAt_home hs hf
    · have haway : ¬OpensAt pad frames i := fun h => hhome ((screenAt_some hs).2.symm.trans h.1)
      exact ⟨fun h => absurd h haway, fun _ => screenAt_away hs hhome hf⟩

/-- A press that was spent has opened the menu and was not released since. -/
theorem spent_opened (pad : Pad) (frames : Nat → Frame) (i : Nat) :
    Spent (stateAt pad frames i).activation →
      ∃ l, l < i ∧ OpensAt pad frames l ∧ ∀ m, l < m → m < i → ¬ReleasedAt pad frames m := by
  induction i with
  | zero => exact fun hspent => absurd hspent.1 (show ¬Menu.cleared.pressed = true by decide)
  | succ i ih =>
    intro hspent
    -- a frame that is no release extends the account
    have hextend : Spent (stateAt pad frames i).activation → ¬ReleasedAt pad frames i →
        ∃ l, l < i + 1 ∧ OpensAt pad frames l ∧
          ∀ m, l < m → m < i + 1 → ¬ReleasedAt pad frames m := by
      intro hbefore hup
      obtain ⟨l, hl, hopens, hkept⟩ := ih hbefore
      refine ⟨l, Nat.lt_succ_of_lt hl, hopens, fun m hlm hm => ?_⟩
      rcases Nat.lt_succ_iff_lt_or_eq.mp hm with hm | rfl
      · exact hkept m hlm hm
      · exact hup
    rw [stateAt_succ] at hspent
    cases hexit : (stateAt pad frames i).exitRequested with
    | true =>
      rw [step_over hexit] at hspent
      refine hextend hspent fun hup => ?_
      have hrunning := hup.1
      rw [hexit] at hrunning
      cases hrunning
    | false =>
      cases hf : (frames i).buttons with
      | none =>
        have hup : ¬ReleasedAt pad frames i := by
          intro ⟨_, buttons, hread, _⟩
          rw [hf] at hread
          cases hread
        obtain ⟨-, -, ⟨hsame, -⟩ | ⟨hclear, -⟩⟩ := step_missed pad hexit hf
        · exact hextend (hsame ▸ hspent) hup
        · rw [hclear] at hspent
          cases hspent.1
      | some buttons =>
        have hup : pad.selectDown buttons = true → ¬ReleasedAt pad frames i := by
          intro hdown ⟨_, _, hread, hreleased⟩
          rw [hf] at hread
          rw [← Option.some.inj hread, hdown] at hreleased
          cases hreleased
        by_cases hs : (stateAt pad frames i).screen = .home
        · obtain ⟨hactivation, hscreen⟩ := step_home pad hexit hs hf
          rw [hactivation] at hspent
          cases hdown : pad.selectDown buttons with
          | false =>
            rw [hdown, update_up] at hspent
            cases hspent.1
          | true =>
            rw [hdown] at hspent hscreen
            by_cases hbefore : Spent (stateAt pad frames i).activation
            · exact hextend hbefore (hup hdown)
            · have htimed := (update_timed hbefore (frames i).nowMs).2
              rw [htimed] at hspent
              have htriggered := of_decide_eq_true hspent.2
              rw [if_pos htriggered, ← stateAt_succ] at hscreen
              exact ⟨i, Nat.lt_succ_self i, ⟨hs, hscreen⟩,
                fun m hlm hm => absurd (Nat.lt_of_lt_of_le hlm (Nat.le_of_lt_succ hm))
                  (Nat.lt_irrefl _)⟩
        · have hactivation := step_away pad hexit hs hf
          rw [hactivation] at hspent
          split at hspent
          · cases hspent.1
          · next hkeep =>
            refine hextend hspent ?_
            cases hdown : pad.selectDown buttons with
            | false => exact absurd ⟨hdown, hspent.1⟩ hkeep
            | true => exact hup hdown

/-- A sample that is noted while its press is not spent is unlatched. -/
theorem held_unspent {a : Menu.State} (h : ¬Spent a) (now : Timestamp) :
    (a.held now).latched = false := by
  cases hp : a.pressed with
  | false => rw [Menu.held_press hp]
  | true =>
    rw [Menu.held_latched hp]
    exact Bool.eq_false_iff.mpr fun hl => h ⟨hp, hl⟩

/-- A held frame keeps a press that was spent. -/
theorem spent_held (hi : HeldAt pad frames i) (hspent : Spent (stateAt pad frames i).activation) :
    Spent (stateAt pad frames (i + 1)).activation := by
  obtain ⟨hexit, hs, buttons, hf, hdown⟩ := hi
  rw [stateAt_succ, (step_home pad hexit hs hf).1, hdown]
  exact (update_spent hspent (frames i).nowMs).2

/-- A held frame that opens nothing goes on timing from where it did. -/
theorem held_timing (hi : HeldAt pad frames i) (hnext : HeldAt pad frames (i + 1))
    (hspent : ¬Spent (stateAt pad frames i).activation) :
    (stateAt pad frames (i + 1)).activation =
      (stateAt pad frames i).activation.held (clockAt frames i) := by
  obtain ⟨hexit, hs, buttons, hf, hdown⟩ := hi
  obtain ⟨hactivation, hscreen⟩ := step_home pad hexit hs hf
  rw [← stateAt_succ, hdown] at hactivation hscreen
  have hquiet : ((stateAt pad frames i).activation.update true (frames i).nowMs).1 ≠
      .triggered := by
    intro htriggered
    rw [if_pos htriggered, hnext.2.1] at hscreen
    cases hscreen
  have htimed := (update_timed hspent (frames i).nowMs).2
  have hlatched := held_unspent hspent (frames i).nowMs
  rw [hactivation, htimed, decide_eq_false hquiet, ← hlatched]
  rfl

/-- Throughout a hold the time runs since its start, or since earlier. -/
theorem Hold.since {j k : Nat} (hold : Hold pad frames j k)
    (hfresh : ∀ m, j ≤ m → m ≤ k → ¬Spent (stateAt pad frames m).activation) (m : Nat)
    (hjm : j ≤ m) :
    m ≤ k → ((stateAt pad frames m).activation.held (clockAt frames m)).pressedSinceMs ≤
      clockAt frames j := by
  induction m, hjm using Nat.le_induction with
  | base =>
    intro hjk
    obtain ⟨l, hearlier, hsince⟩ := (gate pad frames j).sampled
      (hold.held j (Nat.le_refl j) hjk) (hfresh j (Nat.le_refl j) hjk)
    rw [hsince]
    exact hearlier.clock l j (Nat.le_refl l) hearlier.le (Nat.le_refl j)
  | succ m hjm ih =>
    intro hmk
    have hm := Nat.le_of_succ_le hmk
    have hpressed := Menu.held_pressed (stateAt pad frames m).activation (clockAt frames m)
    have hlatched := held_unspent (hfresh m hjm hm) (clockAt frames m)
    have hclock : ¬clockAt frames (m + 1) < clockAt frames m := BitVec.not_lt.mpr
      (hold.clock m (m + 1) hjm (Nat.le_succ m) hmk)
    rw [held_timing (hold.held m hjm hm) (hold.held (m + 1) (Nat.le_succ_of_le hjm) hmk)
      (hfresh m hjm hm), Menu.held_pressedSinceMs hpressed hlatched]
    have hlast : ((stateAt pad frames m).activation.held (clockAt frames m)).lastTimestampMs =
        clockAt frames m := rfl
    rw [hlast, if_neg hclock]
    exact ih hm

/-- The menu opens exactly at the frames that end a hold of five seconds on the
home screen, under a clock that does not fall, whose press has not yet opened it. -/
theorem self_test_opens (pad : Pad) (frames : Nat → Frame) (k : Nat) :
    OpensAt pad frames k ↔
      (∃ j, Hold pad frames j k ∧
        (clockAt frames j).toNat + 5000 ≤ (clockAt frames k).toNat) ∧
      ∀ l, l < k → OpensAt pad frames l → ∃ m, l < m ∧ m < k ∧ ReleasedAt pad frames m := by
  have hms : Menu.menuSelectHoldMs.toNat = 5000 := rfl
  constructor
  · intro hopens
    obtain ⟨hheld, htriggered⟩ := opens_held hopens
    have hfresh : ¬Spent (stateAt pad frames k).activation := by
      intro hspent
      rw [(update_spent hspent (clockAt frames k)).1] at htriggered
      cases htriggered
    obtain ⟨j, hold, hsince⟩ := (gate pad frames k).sampled hheld hfresh
    have hlong := ((update_timed hfresh (clockAt frames k)).1).mp htriggered
    have hclock := hold.clock j k (Nat.le_refl j) hold.le (Nat.le_refl k)
    rw [hsince, BitVec.le_def, BitVec.toNat_sub_of_le hclock] at hlong
    rw [BitVec.le_def] at hclock
    refine ⟨⟨j, hold, by omega⟩, fun l hl hearlier => ?_⟩
    rcases (gate pad frames k).spent l hl hearlier with hreleased | hspent
    · exact hreleased
    · exact absurd hspent hfresh
  · intro ⟨⟨j, hold, hlong⟩, hreleased⟩
    have hlast : ¬Spent (stateAt pad frames k).activation := by
      intro hspent
      obtain ⟨l, hl, hearlier, hkept⟩ := spent_opened pad frames k hspent
      obtain ⟨m, hlm, hmk, hup⟩ := hreleased l hl hearlier
      exact hkept m hlm hmk hup
    have hfresh : ∀ m, j ≤ m → m ≤ k → ¬Spent (stateAt pad frames m).activation := by
      intro m hjm hmk
      induction hmk using Nat.decreasingInduction with
      | self => exact hlast
      | of_succ m hmk ih =>
        exact fun hspent => ih (Nat.le_succ_of_le hjm)
          (spent_held (hold.held m hjm (Nat.le_of_lt hmk)) hspent)
    have hsince := hold.since hfresh k hold.le (Nat.le_refl k)
    obtain ⟨hexit, hs, buttons, hf, hdown⟩ := hold.held k hold.le (Nat.le_refl k)
    have htriggered : ((stateAt pad frames k).activation.update true (frames k).nowMs).1 =
        .triggered := by
      apply (update_timed hlast (clockAt frames k)).1.mpr
      have hclock := hold.clock j k (Nat.le_refl j) hold.le (Nat.le_refl k)
      rw [BitVec.le_def, BitVec.toNat_sub_of_le (BitVec.le_trans hsince hclock)]
      rw [BitVec.le_def] at hsince
      omega
    have hscreen := (step_home pad hexit hs hf).2
    rw [← stateAt_succ, hdown, if_pos htriggered] at hscreen
    exact ⟨hs, hscreen⟩

end VitaCheat.SelfTest
