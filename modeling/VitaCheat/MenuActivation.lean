import Mathlib.Algebra.Group.Nat.Defs
import VitaCheat.Lib.Trace

/-!
# The held Select button

`menu_activation.c`: one event after an uninterrupted hold of five seconds. The
update first notes a held sample and then tests the latch, so that the state the
elapsed time is read from can be spoken of.
-/
namespace VitaCheat.Menu

/-- `uint64_t` milliseconds, with wrapping subtraction. -/
abbrev Timestamp := BitVec 64

def menuSelectHoldMs : Timestamp := 5000

inductive Event where
  | none | triggered
  deriving DecidableEq, Repr

structure State where
  pressedSinceMs : Timestamp
  lastTimestampMs : Timestamp
  pressed : Bool
  latched : Bool
  deriving DecidableEq, Repr

/-- The all-zero state that `memset` leaves. -/
def cleared : State := ⟨0, 0, false, false⟩

/-- A null pointer is `none`; any other state is overwritten. -/
def vcMenuActivationReset (state : Option State) : Option State := state.map fun _ => cleared

/-- A released sample forgets the press and its latch. -/
def released (nowMs : Timestamp) : State := ⟨0, nowMs, false, false⟩

/-- A held sample before the latch test: a press or an unlatched clock rollback
restarts the interval. -/
def State.held (s : State) (nowMs : Timestamp) : State :=
  let s :=
    if !s.pressed then { s with pressedSinceMs := nowMs, pressed := true, latched := false }
    else if decide (nowMs < s.lastTimestampMs) && !s.latched then
      { s with pressedSinceMs := nowMs }
    else s
  { s with lastTimestampMs := nowMs }

/-- The condition under which a noted sample latches; `&&` reads the elapsed
time only while unlatched. -/
def State.due (s : State) (nowMs : Timestamp) : Bool :=
  !s.latched && decide (menuSelectHoldMs ≤ nowMs - s.pressedSinceMs)

def State.update (s : State) (selectDown : Bool) (nowMs : Timestamp) : Event × State :=
  if !selectDown then (.none, released nowMs)
  else
    let s := s.held nowMs
    if s.due nowMs then (.triggered, { s with latched := true }) else (.none, s)

def vcMenuActivationUpdate (state : Option State) (selectDown : Bool) (nowMs : Timestamp) :
    Event × Option State :=
  match state with
  | none => (.none, none)
  | some s => ((s.update selectDown nowMs).1, some (s.update selectDown nowMs).2)

/-- One reading of the button and the clock. -/
structure Sample where
  down : Bool
  nowMs : Timestamp
  deriving DecidableEq, Repr

/-- One call of the update on a valid state. -/
def step (s : State) (x : Sample) : Event × State := s.update x.down x.nowMs

/-- One call of the update through the pointer. -/
def call (state : Option State) (x : Sample) : Event × Option State :=
  vcMenuActivationUpdate state x.down x.nowMs

/-- The events of a sequence of samples fed after a reset. -/
def events (s : State) (xs : List Sample) : List Event :=
  (Trace.run call (vcMenuActivationReset (some s)) xs).map (·.result)

theorem held_pressed (s : State) (nowMs : Timestamp) : (s.held nowMs).pressed = true := by
  cases hp : s.pressed with
  | false => simp [State.held, hp]
  | true =>
    simp only [State.held, hp, Bool.not_true, Bool.false_eq_true, if_false]
    split <;> simp [hp]

/-- The first held sample of a press starts its interval. -/
theorem held_press {s : State} (hp : s.pressed = false) (nowMs : Timestamp) :
    s.held nowMs = ⟨nowMs, nowMs, true, false⟩ := by
  simp [State.held, hp]

/-- Noting a further held sample does not touch the latch. -/
theorem held_latched {s : State} (hp : s.pressed = true) (nowMs : Timestamp) :
    (s.held nowMs).latched = s.latched := by
  simp only [State.held, hp, Bool.not_true, Bool.false_eq_true, if_false]
  split <;> rfl

/-- While unlatched a further held sample keeps the start unless the clock fell. -/
theorem held_pressedSinceMs {s : State} (hp : s.pressed = true) (hl : s.latched = false)
    (nowMs : Timestamp) :
    (s.held nowMs).pressedSinceMs =
      if nowMs < s.lastTimestampMs then nowMs else s.pressedSinceMs := by
  by_cases hlt : nowMs < s.lastTimestampMs <;> simp [State.held, hp, hl, hlt]

theorem step_released (s : State) {x : Sample} (hx : x.down = false) :
    step s x = (.none, released x.nowMs) := by
  simp [step, State.update, hx]

theorem step_due {s : State} {x : Sample} (hx : x.down = true)
    (hd : (s.held x.nowMs).due x.nowMs = true) :
    step s x = (.triggered, { s.held x.nowMs with latched := true }) := by
  simp [step, State.update, hx, hd]

theorem step_waiting {s : State} {x : Sample} (hx : x.down = true)
    (hd : (s.held x.nowMs).due x.nowMs = false) :
    step s x = (.none, s.held x.nowMs) := by
  simp [step, State.update, hx, hd]

/-- Through a valid pointer the call is the step. -/
theorem call_some (s : State) (x : Sample) :
    call (some s) x = ((step s x).1, some (step s x).2) := rfl

end VitaCheat.Menu
