import VitaCheat.Lib.Polling
import VitaCheat.MenuTrace

/-!
# The button between the samples

The update sees the button only when it is called. With a clock that does not go back,
calls that are at most a gap apart and a button that is never released for less than a
gap, what it reports is about the button itself: an event means five seconds without a
release, no two events come without a release in between, and a press of five seconds and
two gaps is never missed.
-/
namespace VitaCheat.Menu

open Polling (Spaced Settles)

/-- The samples that calls at the given times take of a button. -/
def polled (button : Nat → Bool) (times : List Nat) : List Sample :=
  times.map fun t => ⟨button t, BitVec.ofNat 64 t⟩

section Polled

variable {button : Nat → Bool} {start gap : Nat} {times : List Nat} (s : State)

theorem polled_get {i t : Nat} (ht : times[i]? = some t) :
    (polled button times)[i]? = some ⟨button t, BitVec.ofNat 64 t⟩ := by
  rw [polled, List.getElem?_map, ht, Option.map_some]

theorem polled_down {i : Nat} : Down (polled button times) i ↔
    ∃ t, times[i]? = some t ∧ button t = true := by
  constructor
  · rintro ⟨x, hx, hdown⟩
    rw [polled, List.getElem?_map] at hx
    obtain ⟨t, ht, rfl⟩ := Option.map_eq_some_iff.mp hx
    exact ⟨t, ht, hdown⟩
  · rintro ⟨t, ht, hdown⟩
    exact ⟨_, polled_get ht, hdown⟩

theorem polled_clock (hrange : ∀ t ∈ times, t < 2 ^ 64) {i t : Nat} (ht : times[i]? = some t) :
    clock (polled button times) i = t := by
  rw [clock_eq (polled_get ht), BitVec.toNat_ofNat]
  exact Nat.mod_eq_of_lt (hrange t (List.mem_of_getElem? ht))

/-- On a clock that does not go back a press is one hold. -/
theorem polled_hold (hspaced : Spaced gap start times) (hrange : ∀ t ∈ times, t < 2 ^ 64)
    {i p : Nat} (hp : PressStart (polled button times) i p) :
    HoldStart (polled button times) i p p where
  ge := Nat.le_refl p
  le := hp.le
  start := .inl rfl
  last := by
    intro j hpj hji
    obtain ⟨t, ht, -⟩ := polled_down.mp (hp.down j (Nat.le_of_lt hpj) hji)
    obtain ⟨t', ht', -⟩ := polled_down.mp (hp.down (j - 1) (by omega) (by omega))
    rw [polled_clock hrange ht, polled_clock hrange ht', Nat.not_lt]
    exact Polling.spaced_mono hspaced ht' ht (Nat.sub_le j 1)

/-- A sample triggers if its press was first sampled five seconds earlier and has not
triggered yet. -/
theorem polled_triggered (hspaced : Spaced gap start times) (hrange : ∀ t ∈ times, t < 2 ^ 64)
    (i : Nat) : Triggered s (polled button times) i ↔
      ∃ p t₀ t, PressStart (polled button times) i p ∧ times[p]? = some t₀ ∧
        times[i]? = some t ∧ t₀ + 5000 ≤ t ∧
        ∀ j, p ≤ j → j < i → ¬Triggered s (polled button times) j := by
  rw [triggered_iff]
  constructor
  · rintro ⟨hdown, p, b, hp, hb, hlong, hfirst⟩
    obtain rfl : p = b := (polled_hold hspaced hrange hp).unique hb
    obtain ⟨t, ht, -⟩ := polled_down.mp hdown
    obtain ⟨t₀, ht₀, -⟩ := polled_down.mp (hp.down p (Nat.le_refl p) hp.le)
    rw [polled_clock hrange ht, polled_clock hrange ht₀] at hlong
    exact ⟨p, t₀, t, hp, ht₀, ht, hlong, hfirst⟩
  · rintro ⟨p, t₀, t, hp, ht₀, ht, hlong, hfirst⟩
    refine ⟨hp.down i hp.le (Nat.le_refl i), p, p, hp, polled_hold hspaced hrange hp, ?_, hfirst⟩
    rw [polled_clock hrange ht, polled_clock hrange ht₀]
    exact hlong

/-- The button has been down for five seconds when a sample triggers. -/
theorem polled_sound (hspaced : Spaced gap start times) (hrange : ∀ t ∈ times, t < 2 ^ 64)
    (hbutton : Settles gap button) {i t : Nat} (ht : times[i]? = some t)
    (htrigger : Triggered s (polled button times) i) :
    start + 5000 ≤ t ∧ ∀ r, t ≤ r + 5000 → r ≤ t → button r = true := by
  obtain ⟨p, t₀, t', hp, ht₀, ht', hlong, -⟩ := (polled_triggered s hspaced hrange i).mp htrigger
  obtain rfl := Option.some.inj (ht.symm.trans ht')
  have hfrom := Polling.spaced_ge hspaced t₀ (List.mem_of_getElem? ht₀)
  refine ⟨by omega, ?_⟩
  intro r hr hrt
  rw [← Bool.not_eq_false]
  intro hup
  obtain ⟨x, hx, hdown⟩ := polled_down.mp (hp.down p (Nat.le_refl p) hp.le)
  obtain ⟨y, hy, hdown'⟩ := polled_down.mp (hp.down i hp.le (Nat.le_refl i))
  obtain rfl := Option.some.inj (ht₀.symm.trans hx)
  obtain rfl := Option.some.inj (ht.symm.trans hy)
  obtain ⟨j, r', hpj, hji, hr', hlow⟩ := Polling.settles_read hspaced hbutton ht₀ ht hdown hdown'
    (by omega) hrt hup
  obtain ⟨r'', hr'', hhigh⟩ := polled_down.mp (hp.down j (Nat.le_of_lt hpj) (Nat.le_of_lt hji))
  obtain rfl := Option.some.inj (hr'.symm.trans hr'')
  rw [hlow] at hhigh
  cases hhigh

/-- Between two samples that trigger the button is released. -/
theorem polled_once (hspaced : Spaced gap start times) (hrange : ∀ t ∈ times, t < 2 ^ 64)
    {i j t t' : Nat} (hij : i < j) (ht : times[i]? = some t) (ht' : times[j]? = some t')
    (hi : Triggered s (polled button times) i) (hj : Triggered s (polled button times) j) :
    ∃ r, t < r ∧ r < t' ∧ button r = false := by
  obtain ⟨p, -, -, hp, -, -, -, hfirst⟩ := (polled_triggered s hspaced hrange j).mp hj
  obtain ⟨x, hx, hdown⟩ := polled_down.mp ((triggered_iff _ _ i).mp hi).1
  obtain ⟨y, hy, hdown'⟩ := polled_down.mp ((triggered_iff _ _ j).mp hj).1
  obtain rfl := Option.some.inj (ht.symm.trans hx)
  obtain rfl := Option.some.inj (ht'.symm.trans hy)
  have hlater : i < p := by
    apply Nat.lt_of_not_le
    intro hpi
    exact hfirst i hpi hij hi
  obtain ⟨r, hr⟩ : ∃ r, times[p - 1]? = some r := by
    obtain ⟨hlt, -⟩ := List.getElem?_eq_some_iff.mp ht'
    exact ⟨_, List.getElem?_eq_getElem (by have := hp.le; omega)⟩
  have hup : button r = false := by
    rcases hp.first with rfl | hup
    · exact absurd hlater (Nat.not_lt_zero i)
    · rw [← Bool.not_eq_true]
      exact fun hdown => hup (polled_down.mpr ⟨r, hr, hdown⟩)
  have hlow := Polling.spaced_mono hspaced ht hr (by omega)
  have hhigh := Polling.spaced_mono hspaced hr ht' (by have := hp.le; omega)
  refine ⟨r, Nat.lt_of_le_of_ne hlow ?_, Nat.lt_of_le_of_ne hhigh ?_, hup⟩
  · rintro rfl
    rw [hup] at hdown
    cases hdown
  · rintro rfl
    rw [hup] at hdown'
    cases hdown'

/-- The first sample of a press that begins after a release of a gap. -/
theorem polled_press (hspaced : Spaced gap start times) (hbutton : Settles gap button)
    {u p t₀ : Nat} (hup : button (u - 1) = false) (hu : 0 < u) (hdown : button u = true)
    (ht₀ : times[p]? = some t₀) (hle : u ≤ t₀)
    (hfirst : ∀ j r, j < p → times[j]? = some r → r < u) :
    p = 0 ∨ ¬Down (polled button times) (p - 1) := by
  cases p with
  | zero => exact .inl rfl
  | succ p =>
    right
    rw [Nat.add_sub_cancel, polled_down]
    rintro ⟨r, hr, hhigh⟩
    have hbefore := hfirst p r (Nat.lt_succ_self p) hr
    have hnear := Polling.spaced_next hspaced hr ht₀
    obtain ⟨first, hfrom, hto, hlow⟩ := hbutton (u - 1) hup
    have hend : first + gap ≤ u := by
      apply Nat.le_of_not_lt
      intro hin
      rw [hlow u (by omega) hin] at hdown
      cases hdown
    rw [hlow r (by omega) (by omega)] at hhigh
    cases hhigh

/-- A press of five seconds and two gaps triggers within it. -/
theorem polled_complete (hspaced : Spaced gap start times) (hrange : ∀ t ∈ times, t < 2 ^ 64)
    (hbutton : Settles gap button) {u : Nat} (hu : start < u) (hup : button (u - 1) = false)
    (hdown : ∀ r, u ≤ r → r < u + 5000 + 2 * gap → button r = true)
    (hend : u + 5000 + 2 * gap ≤ times.getLastD start) :
    ∃ i t, times[i]? = some t ∧ Triggered s (polled button times) i ∧ u + 5000 ≤ t ∧
      t < u + 5000 + 2 * gap := by
  obtain ⟨p, t₀, ht₀, hle, hlt, hfirst⟩ := Polling.spaced_hit hspaced hu (by omega)
  obtain ⟨i, t, ht, hle', hlt', hfirst'⟩ :=
    Polling.spaced_hit hspaced (show start < t₀ + 5000 by omega) (by omega)
  have hpi : p ≤ i := Nat.le_of_lt (Polling.spaced_index hspaced ht₀ ht (by omega))
  have hpress : PressStart (polled button times) i p := by
    refine ⟨hpi, ?_, polled_press hspaced hbutton hup (by omega) (hdown u (Nat.le_refl u)
      (by omega)) ht₀ hle hfirst⟩
    intro j hpj hji
    obtain ⟨r, hr⟩ : ∃ r, times[j]? = some r := by
      obtain ⟨hlength, -⟩ := List.getElem?_eq_some_iff.mp ht
      exact ⟨_, List.getElem?_eq_getElem (by omega)⟩
    have hlow := Polling.spaced_mono hspaced ht₀ hr hpj
    have hhigh := Polling.spaced_mono hspaced hr ht hji
    exact polled_down.mpr ⟨r, hr, hdown r (by omega) (by omega)⟩
  refine ⟨i, t, ht, (polled_triggered s hspaced hrange i).mpr ⟨p, t₀, t, hpress, ht₀, ht, hle', ?_⟩,
    by omega, by omega⟩
  -- an earlier event of the press would come five seconds after its first sample, too
  intro j hpj hji htrigger
  obtain ⟨q, x, y, hq, hx, hy, hlong, -⟩ := (polled_triggered s hspaced hrange j).mp htrigger
  have hsame : PressStart (polled button times) j p :=
    ⟨hpj, fun k hpk hkj => hpress.down k hpk (by omega), hpress.first⟩
  obtain rfl := hq.unique hsame
  obtain rfl := Option.some.inj (ht₀.symm.trans hx)
  have hearly := hfirst' j y hji hy
  omega

end Polled

/-- For every button, every clock that does not go back and every calling times at most a
gap apart, where a release of the button lasts a gap: an event comes only after five
seconds without a release, two events never without a release between them, and every
press of five seconds and two gaps has its event in it, at most two gaps late. -/
theorem menu_activation_polled (s : State) (button : Nat → Bool) (start gap : Nat)
    (times : List Nat) (hspaced : Spaced gap start times) (hrange : ∀ t ∈ times, t < 2 ^ 64)
    (hbutton : Settles gap button) :
    (∀ i t, times[i]? = some t → Triggered s (polled button times) i →
      start + 5000 ≤ t ∧ ∀ r, t ≤ r + 5000 → r ≤ t → button r = true) ∧
    (∀ i j t t', i < j → times[i]? = some t → times[j]? = some t' →
      Triggered s (polled button times) i → Triggered s (polled button times) j →
      ∃ r, t < r ∧ r < t' ∧ button r = false) ∧
    ∀ u, start < u → button (u - 1) = false →
      (∀ r, u ≤ r → r < u + 5000 + 2 * gap → button r = true) →
      u + 5000 + 2 * gap ≤ times.getLastD start →
      ∃ i t, times[i]? = some t ∧ Triggered s (polled button times) i ∧ u + 5000 ≤ t ∧
        t < u + 5000 + 2 * gap := by
  refine ⟨?_, ?_, ?_⟩
  · intro i t ht htrigger
    exact polled_sound s hspaced hrange hbutton ht htrigger
  · intro i j t t' hij ht ht' hi hj
    exact polled_once s hspaced hrange hij ht ht' hi hj
  · intro u hu hup hdown hend
    exact polled_complete s hspaced hrange hbutton hu hup hdown hend

/-- Down from 1500 ms until 9000 ms, sampled once a second. -/
def heldButton (t : Nat) : Bool := decide (1500 ≤ t) && decide (t < 9000)

def seconds : List Nat := (List.range 11).map (1000 * ·)

theorem menu_activation_polled_seconds :
    events cleared (polled heldButton seconds) =
      [.none, .none, .none, .none, .none, .none, .none, .triggered, .none, .none, .none] ∧
      ∃ i t, seconds[i]? = some t ∧ Triggered cleared (polled heldButton seconds) i ∧ 6500 ≤ t ∧
        t < 8500 := by
  have hspaced : Spaced 1000 0 seconds := by simp [Spaced, seconds, List.range, List.range.loop]
  have hbutton : Settles 1000 heldButton := by
    intro t ht
    simp only [heldButton, Bool.and_eq_false_iff, decide_eq_false_iff_not, Nat.not_le,
      Nat.not_lt] at ht ⊢
    by_cases hearly : t < 1500
    · exact ⟨min t 500, by omega, by omega, fun r _ hr => .inl (by omega)⟩
    · exact ⟨t, by omega, by omega, fun r hr _ => .inr (by omega)⟩
  obtain ⟨-, -, hcomplete⟩ := menu_activation_polled cleared heldButton 0 1000 seconds hspaced
    (by decide) hbutton
  refine ⟨by decide, hcomplete 1500 (by decide) (by decide) ?_ (by decide)⟩
  intro r hr hr'
  simp only [heldButton, Bool.and_eq_true, decide_eq_true_eq]
  omega

end VitaCheat.Menu
