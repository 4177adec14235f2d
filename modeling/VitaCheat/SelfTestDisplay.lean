import VitaCheat.SelfTestMain

/-!
# The display of the self-test

The loop draws the home screen only when its text moves to another tenth of a
second. A viewer cannot tell: after every frame the text on the screen is the one
that a loop would have left which draws the home screen in every frame.
-/
namespace VitaCheat.SelfTest

open Menu (Timestamp menuSelectHoldMs)

/-- The drawings of a frame that draws the home screen in any case. -/
def State.drawnAnyway (pad : Pad) (s : State) (f : Frame) : List Drawing :=
  match s.exitRequested, s.screen, f.buttons with
  | false, .home, some buttons =>
    let updated := s.activation.update (pad.selectDown buttons) f.nowMs
    .home ({ s with activation := updated.2 }.heldMs f.nowMs) ::
      if updated.1 = .triggered then [.menu] else []
  | _, _, _ => (step pad s f).1

/-- Only a home screen that is read is drawn in any case. -/
theorem drawnAnyway_other {pad : Pad} {s : State} {f : Frame}
    (h : s.exitRequested = true ∨ s.screen ≠ .home ∨ f.buttons = none) :
    s.drawnAnyway pad f = (step pad s f).1 := by
  unfold State.drawnAnyway
  split
  · next hexit hs hf =>
    rw [hexit, hs, hf] at h
    simp at h
  · rfl

theorem drawnAnyway_home (pad : Pad) {s : State} {f : Frame} {buttons : Buttons}
    (hexit : s.exitRequested = false) (hs : s.screen = .home) (hf : f.buttons = some buttons) :
    s.drawnAnyway pad f =
      .home ({ s with activation :=
          (s.activation.update (pad.selectDown buttons) f.nowMs).2 }.heldMs f.nowMs) ::
        if (s.activation.update (pad.selectDown buttons) f.nowMs).1 = .triggered then [.menu]
        else [] := by
  unfold State.drawnAnyway
  rw [hexit, hs, hf]

/-- The loop with these drawings. -/
def plainStep (pad : Pad) (s : State) (f : Frame) : List Drawing × State :=
  (s.drawnAnyway pad f, (step pad s f).2)

def plainDrawings (pad : Pad) (s : State) (fs : List Frame) : List Drawing :=
  (Trace.run (plainStep pad) s fs).flatMap (·.result)

theorem plainDrawings_cons (pad : Pad) (s : State) (f : Frame) (fs : List Frame) :
    plainDrawings pad s (f :: fs) = s.drawnAnyway pad f ++
      plainDrawings pad (step pad s f).2 fs := rfl

/-- What is on the screen: the last drawing, or what was there before. -/
def onScreen (before : Drawing) (ds : List Drawing) : Drawing := ds.getLast?.getD before

@[simp] theorem onScreen_nil (d : Drawing) : onScreen d [] = d := rfl
@[simp] theorem onScreen_singleton (d e : Drawing) : onScreen d [e] = e := rfl
@[simp] theorem onScreen_concat (d e : Drawing) (ds : List Drawing) :
    onScreen d (ds ++ [e]) = e := by
  simp [onScreen]

theorem onScreen_append (d : Drawing) (ds es : List Drawing) :
    onScreen d (ds ++ es) = onScreen (onScreen d ds) es := by
  cases es using List.reverseRecOn with
  | nil => simp
  | append_singleton es e => rw [← List.append_assoc, onScreen_concat, onScreen_concat]

theorem capped_le (held : Timestamp) :
    (if held > menuSelectHoldMs then menuSelectHoldMs else held) ≤ menuSelectHoldMs := by
  split
  · exact BitVec.le_refl _
  · next h => exact BitVec.not_lt.mp h

theorem heldMs_le (s : State) (now : Timestamp) : s.heldMs now ≤ menuSelectHoldMs := capped_le _

/-- A tenth of a second within the hold is no forced redraw. -/
theorem tenth_ne {h : Timestamp} (hle : h ≤ menuSelectHoldMs) : h / 100 ≠ BitVec.allOnes 64 := by
  intro hsame
  have hvalue := congrArg BitVec.toNat hsame
  rw [BitVec.toNat_udiv] at hvalue
  have hhundred : (100 : Timestamp).toNat = 100 := rfl
  have hones : (BitVec.allOnes 64).toNat = 18446744073709551615 := by decide
  have hhold : h.toNat ≤ 5000 := BitVec.le_def.mp hle
  rw [hhundred, hones] at hvalue
  omega

/-- The text shows the tenths. -/
theorem drawHome_congr {h h' : Timestamp} (hsame : h / 100 = h' / 100) :
    drawHome h = drawHome h' := by
  have hvalue := congrArg BitVec.toNat hsame
  have hhundred : (100 : Timestamp).toNat = 100 := rfl
  have hthousand : (1000 : Timestamp).toNat = 1000 := rfl
  rw [BitVec.toNat_udiv, BitVec.toNat_udiv, hhundred] at hvalue
  have hseconds : (h / 1000).toNat = (h' / 1000).toNat := by
    rw [BitVec.toNat_udiv, BitVec.toNat_udiv, hthousand]
    omega
  have htenths : (h % 1000 / 100).toNat = (h' % 1000 / 100).toNat := by
    rw [BitVec.toNat_udiv, BitVec.toNat_udiv, BitVec.toNat_umod, BitVec.toNat_umod, hhundred,
      hthousand]
    omega
  rw [drawHome, drawHome, hseconds, htenths]

/-- Two drawings that read the same. -/
inductive Alike : Drawing → Drawing → Prop
  | home {h h' : Timestamp} : h / 100 = h' / 100 → Alike (.home h) (.home h')
  | menu : Alike .menu .menu
  | result : Alike .result .result

theorem Alike.refl (d : Drawing) : Alike d d := by
  cases d with
  | home h => exact .home rfl
  | menu => exact .menu
  | result => exact .result

theorem Alike.render {d d' : Drawing} (h : Alike d d') (report : SelfTestResult) :
    render report d = render report d' := by
  cases h with
  | home hsame => exact drawHome_congr hsame
  | menu => rfl
  | result => rfl

/-- The drawing belongs to the screen of the state, and to its tenth unless the
next frame redraws in any case. -/
inductive Shows (s : State) : Drawing → Prop
  | home {h : Timestamp} : s.screen = .home → h ≤ menuSelectHoldMs →
      (s.lastDrawBucket = h / 100 ∨ s.lastDrawBucket = BitVec.allOnes 64) → Shows s (.home h)
  | menu : s.screen = .menu → Shows s .menu
  | result : s.screen = .result → Shows s .result

/-- Only the screen and the tenth matter. -/
theorem Shows.congr {s t : State} {d : Drawing} (h : Shows s d) (hscreen : t.screen = s.screen)
    (hbucket : t.lastDrawBucket = s.lastDrawBucket) : Shows t d := by
  cases h with
  | home hs hle hb => exact .home (hscreen.trans hs) hle (hbucket ▸ hb)
  | menu hs => exact .menu (hscreen.trans hs)
  | result hs => exact .result (hscreen.trans hs)

theorem shows_forced {s : State} (hs : s.screen = .home)
    (hb : s.lastDrawBucket = BitVec.allOnes 64) : Shows s (.home 0) :=
  .home hs (by decide) (.inr hb)

variable {pad : Pad} {s : State} {d d' : Drawing}

/-- Both loops leave drawings that read the same and belong to the state. -/
structure Displayed (t : State) (d d' : Drawing) : Prop where
  belongs : Shows t d
  alike : Alike d d'

theorem Displayed.same {t : State} (h : Shows t d) : Displayed t d d := ⟨h, .refl d⟩

/-- The home screen shows the progress after a redraw that may be skipped. -/
theorem redraw_shows (hshows : Shows s d) (hs : s.screen = .home) (now : Timestamp) :
    Displayed (s.redraw now).2 (onScreen d (s.redraw now).1) (.home (s.heldMs now)) := by
  have hle := heldMs_le s now
  unfold State.redraw
  dsimp only
  split
  · exact ⟨.home hs hle (.inl rfl), .refl _⟩
  · next hkeep =>
    have hbucket : s.heldMs now / 100 = s.lastDrawBucket := by simpa using hkeep
    cases hshows with
    | home _ hle' hb =>
      rcases hb with hb | hforced
      · exact ⟨.home hs hle' (.inl hb), .home (hb.symm.trans hbucket.symm)⟩
      · exact absurd (hbucket.trans hforced) (tenth_ne hle)
    | menu hmenu => rw [hs] at hmenu; cases hmenu
    | result hresult => rw [hs] at hresult; cases hresult

theorem homeFrame_kept (hshows : Shows s d) (hs : s.screen = .home) (down : Bool)
    (pressed : Buttons) (now : Timestamp) :
    Displayed (s.homeFrame pad down pressed now).2
      (onScreen d (s.homeFrame pad down pressed now).1)
      (onScreen d' (.home ({ s with activation := (s.activation.update down now).2 }.heldMs now) ::
        if (s.activation.update down now).1 = .triggered then [.menu] else [])) := by
  let t : State := { s with activation := (s.activation.update down now).2 }
  have hredraw : Displayed (t.redraw now).2 (onScreen d (t.redraw now).1) (.home (t.heldMs now)) :=
    redraw_shows (s := t) (hshows.congr rfl rfl) hs now
  unfold State.homeFrame
  dsimp only
  split
  · rw [onScreen_concat]
    exact .same (.menu rfl)
  · split
    · exact ⟨hredraw.belongs.congr rfl rfl, hredraw.alike⟩
    · exact hredraw

theorem menuFrame_shows (hshows : Shows s d) (pressed : Buttons) :
    Shows (s.menuFrame pad pressed).2 (onScreen d (s.menuFrame pad pressed).1) := by
  unfold State.menuFrame
  split
  · exact .result rfl
  · split
    · exact shows_forced rfl rfl
    · split
      · exact hshows.congr rfl rfl
      · exact hshows

theorem resultFrame_shows (hshows : Shows s d) (pressed : Buttons) :
    Shows (s.resultFrame pad pressed).2 (onScreen d (s.resultFrame pad pressed).1) := by
  unfold State.resultFrame
  split
  · exact .menu rfl
  · split
    · exact hshows.congr rfl rfl
    · exact hshows

theorem missed_shows (hshows : Shows s d) : Shows s.missed.2 (onScreen d s.missed.1) := by
  unfold State.missed
  split
  · next hc =>
    simp only [Bool.and_eq_true, decide_eq_true_eq] at hc
    exact shows_forced hc.1.1 rfl
  · exact hshows

theorem rearm_bucket (s : State) (down : Bool) (now : Timestamp) :
    (s.rearm down now).lastDrawBucket = s.lastDrawBucket := by
  unfold State.rearm
  split <;> rfl

/-- Where the loop draws what it would draw anyway, the screens stay alike. -/
theorem kept_drawn {t : State} {ds : List Drawing} (halike : Alike d d')
    (hshows : Shows t (onScreen d ds)) : Displayed t (onScreen d ds) (onScreen d' ds) := by
  refine ⟨hshows, ?_⟩
  cases ds using List.reverseRecOn with
  | nil => exact halike
  | append_singleton ds e =>
    rw [onScreen_concat, onScreen_concat]
    exact .refl e

/-- One frame of both loops. -/
theorem step_kept (pad : Pad) (h : Displayed s d d') (f : Frame) :
    Displayed (step pad s f).2 (onScreen d (step pad s f).1)
      (onScreen d' (s.drawnAnyway pad f)) := by
  cases hexit : s.exitRequested with
  | true =>
    rw [drawnAnyway_other (.inl hexit), step_over hexit]
    exact h
  | false =>
    cases hf : f.buttons with
    | none =>
      rw [drawnAnyway_other (.inr (.inr hf)), step_none pad hexit hf]
      exact kept_drawn h.alike (missed_shows h.belongs)
    | some buttons =>
      let down := pad.selectDown buttons
      let pressed := buttons &&& ~~~s.previousButtons
      let t : State := { s with previousButtons := buttons }
      have hstep : step pad s f = (t.rearm down f.nowMs).screenFrame pad down pressed f.nowMs :=
        step_read hexit hf
      have hshows : Shows (t.rearm down f.nowMs) d :=
        h.belongs.congr (rearm_screen t down f.nowMs) (rearm_bucket t down f.nowMs)
      cases hs : s.screen with
      | home =>
        have ht : t.screen = .home := hs
        rw [rearm_home ht] at hstep hshows
        rw [drawnAnyway_home pad hexit hs hf, hstep, screenFrame_home ht]
        exact homeFrame_kept hshows ht down pressed f.nowMs
      | menu =>
        rw [drawnAnyway_other (.inr (.inl (by rw [hs]; decide)))]
        apply kept_drawn h.alike
        rw [hstep, State.screenFrame, rearm_screen, show t.screen = .menu from hs]
        exact menuFrame_shows hshows pressed
      | result =>
        rw [drawnAnyway_other (.inr (.inl (by rw [hs]; decide)))]
        apply kept_drawn h.alike
        rw [hstep, State.screenFrame, rearm_screen, show t.screen = .result from hs]
        exact resultFrame_shows hshows pressed

theorem run_kept (pad : Pad) (fs : List Frame) :
    ∀ (s : State) (d d' : Drawing), Displayed s d d' →
      Displayed (Trace.final (step pad) s fs) (onScreen d (drawings pad s fs))
        (onScreen d' (plainDrawings pad s fs)) := by
  induction fs with
  | nil => exact fun s d d' h => h
  | cons f fs ih =>
    intro s d d' h
    rw [drawings_cons, plainDrawings_cons, onScreen_append, onScreen_append]
    exact ih _ _ _ (step_kept pad h f)

/-- After every frame the screen reads as if the home screen were drawn in every
frame; it belongs to the screen that the loop is on, and the progress stays
within the hold. -/
theorem self_test_display (pad : Pad) (fs : List Frame) :
    render passed (onScreen (.home 0) (drawings pad start fs)) =
        render passed (onScreen (.home 0) (plainDrawings pad start fs)) ∧
      match (Trace.final (step pad) start fs).screen with
      | .home => ∃ heldMs, onScreen (.home 0) (drawings pad start fs) = .home heldMs ∧
          heldMs.toNat ≤ 5000
      | .menu => onScreen (.home 0) (drawings pad start fs) = .menu
      | .result => onScreen (.home 0) (drawings pad start fs) = .result := by
  have hstart : Displayed start (.home 0) (.home 0) := .same (shows_forced rfl rfl)
  obtain ⟨hshows, halike⟩ := run_kept pad fs _ _ _ hstart
  refine ⟨halike.render passed, ?_⟩
  generalize onScreen (.home 0) (drawings pad start fs) = d at hshows
  cases hshows with
  | home hs hle _ =>
    rw [hs]
    exact ⟨_, rfl, BitVec.le_def.mp hle⟩
  | menu hs => rw [hs]
  | result hs => rw [hs]

end VitaCheat.SelfTest
