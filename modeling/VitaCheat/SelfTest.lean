import VitaCheat.MenuActivation

/-!
# The frame loop of the self-test

The loop of `main.c`: one frame reads the clock and the buttons, feeds the menu
activation and moves between three screens. A failed read is a frame without
buttons. What the screens show is recorded by its kind; the report of the
scanner checks is only printed and is left out.
-/
namespace VitaCheat.SelfTest

open Menu (Timestamp menuSelectHoldMs)

abbrev Buttons := BitVec 32

/-- The `SCE_CTRL` masks that the loop tests, which are the platform's. -/
structure Pad where
  select : Buttons
  circle : Buttons
  cross : Buttons
  triangle : Buttons

/-- `(buttons & SCE_CTRL_SELECT) != 0`. -/
def Pad.selectDown (pad : Pad) (buttons : Buttons) : Bool := buttons &&& pad.select != 0

inductive Screen where
  | home | menu | result
  deriving DecidableEq, Repr

/-- A call of `draw_home`, `draw_menu` or `draw_result`. -/
inductive Drawing where
  | home (heldMs : Timestamp)
  | menu
  | result
  deriving DecidableEq, Repr

/-- The locals that live across frames. -/
structure State where
  activation : Menu.State
  screen : Screen
  previousButtons : Buttons
  lastDrawBucket : Timestamp
  exitRequested : Bool
  deriving DecidableEq, Repr

/-- What a frame finds: no buttons where the read fails. -/
structure Frame where
  systemTime : BitVec 64
  buttons : Option Buttons
  deriving DecidableEq, Repr

def Frame.nowMs (f : Frame) : Timestamp := f.systemTime / 1000

/-- The locals before the first frame. -/
def start : State where
  activation := Menu.cleared
  screen := .home
  previousButtons := 0
  lastDrawBucket := BitVec.allOnes 64
  exitRequested := false

namespace State

/-- A missing read restarts an unlatched hold on the home screen. -/
def missed (s : State) : List Drawing × State :=
  if s.screen = .home && s.activation.pressed && !s.activation.latched then
    ([.home 0],
      { s with activation := Menu.cleared, lastDrawBucket := BitVec.allOnes 64 })
  else ([], s)

/-- A release away from the home screen rearms the latch. -/
def rearm (s : State) (selectDown : Bool) (nowMs : Timestamp) : State :=
  if s.screen != .home && !selectDown && s.activation.pressed then
    { s with activation := (s.activation.update false nowMs).2 }
  else s

/-- The progress that the home screen shows, capped at the full hold. -/
def heldMs (s : State) (nowMs : Timestamp) : Timestamp :=
  let held :=
    if s.activation.pressed && nowMs ≥ s.activation.pressedSinceMs then
      nowMs - s.activation.pressedSinceMs
    else 0
  if held > menuSelectHoldMs then menuSelectHoldMs else held

/-- Redraw the home screen when the progress has moved to another tenth. -/
def redraw (s : State) (nowMs : Timestamp) : List Drawing × State :=
  let bucket := s.heldMs nowMs / 100
  if bucket != s.lastDrawBucket then
    ([.home (s.heldMs nowMs)], { s with lastDrawBucket := bucket })
  else ([], s)

def homeFrame (pad : Pad) (s : State) (selectDown : Bool) (pressed : Buttons)
    (nowMs : Timestamp) : List Drawing × State :=
  let updated := s.activation.update selectDown nowMs
  let drawn := redraw { s with activation := updated.2 } nowMs
  if updated.1 = .triggered then (drawn.1 ++ [.menu], { drawn.2 with screen := .menu })
  else if pressed &&& pad.circle != 0 then (drawn.1, { drawn.2 with exitRequested := true })
  else drawn

def menuFrame (pad : Pad) (s : State) (pressed : Buttons) : List Drawing × State :=
  if pressed &&& pad.cross != 0 then ([.result], { s with screen := .result })
  else if pressed &&& pad.circle != 0 then
    ([.home 0], { s with lastDrawBucket := BitVec.allOnes 64, screen := .home })
  else if pressed &&& pad.triangle != 0 then ([], { s with exitRequested := true })
  else ([], s)

def resultFrame (pad : Pad) (s : State) (pressed : Buttons) : List Drawing × State :=
  if pressed &&& pad.circle != 0 then ([.menu], { s with screen := .menu })
  else if pressed &&& pad.triangle != 0 then ([], { s with exitRequested := true })
  else ([], s)

def screenFrame (pad : Pad) (s : State) (selectDown : Bool) (pressed : Buttons)
    (nowMs : Timestamp) : List Drawing × State :=
  match s.screen with
  | .home => s.homeFrame pad selectDown pressed nowMs
  | .menu => s.menuFrame pad pressed
  | .result => s.resultFrame pad pressed

/-- A frame whose buttons were read. -/
def readFrame (pad : Pad) (s : State) (buttons : Buttons) (nowMs : Timestamp) :
    List Drawing × State :=
  let pressed := buttons &&& ~~~s.previousButtons
  let s := { s with previousButtons := buttons }.rearm (pad.selectDown buttons) nowMs
  s.screenFrame pad (pad.selectDown buttons) pressed nowMs

end State

/-- One round of the loop; after an exit was requested there is none. -/
def step (pad : Pad) (s : State) (f : Frame) : List Drawing × State :=
  if s.exitRequested then ([], s)
  else
    match f.buttons with
    | none => s.missed
    | some buttons => s.readFrame pad buttons f.nowMs

end VitaCheat.SelfTest
