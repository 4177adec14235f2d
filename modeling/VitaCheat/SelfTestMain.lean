import VitaCheat.SelfTestGate
import VitaCheat.SelfTestScanner

/-!
# The self-test as a process

`main` of `main.c` with the texts that it prints: the screens are drawn from the
locals, and the frame that opens the result screen runs the scanner checks first.
A run is given by what the debug screen and the frames return.
-/
namespace VitaCheat.SelfTest

open Menu (Timestamp)
open Search (Memory)

def clearScreen : String := "\x1b[H\x1b[2J"

/-- Both numbers are narrowed to `unsigned int`. -/
def drawHome (heldMs : Timestamp) : String :=
  let seconds := (heldMs / 1000).toNat % 2 ^ 32
  let tenths := (heldMs % 1000 / 100).toNat % 2 ^ 32
  clearScreen ++ "VitaCheat safe self-test\n" ++
    "Ordinary user mode - no privileged or game access\n\n" ++
    "Hold SELECT for 5 seconds to open the menu.\n" ++
    s!"Hold progress: {seconds}.{tenths} / 5.0 seconds\n\n" ++
    "Circle: exit safely\n"

def drawMenu : String :=
  clearScreen ++ "VitaCheat test menu\n\n" ++
    "X       Run owned-buffer scanner checks\n" ++
    "Circle  Close menu\n" ++
    "Triangle Exit safely\n\n" ++
    "This build cannot inspect or write another app.\n"

/-- The counts are narrowed to `unsigned int`. -/
def drawResult (report : SelfTestResult) : String :=
  let verdict := if report.failures = 0 then "PASS" else "FAIL"
  let checks := report.checks
  let failures := report.failures
  let initial := report.initialMatches % 2 ^ 32
  let changed := report.changedMatches % 2 ^ 32
  let increased := report.increasedMatches % 2 ^ 32
  let decreased := report.decreasedMatches % 2 ^ 32
  let unchanged := report.unchangedMatches % 2 ^ 32
  clearScreen ++ "VitaCheat scanner self-test\n\n" ++
    s!"[{verdict}] {checks} checks, {failures} failures\n\n" ++
    s!"Initial exact matches : {initial} (expected 3)\n" ++
    s!"Changed refinements   : {changed} (expected 2)\n" ++
    s!"Increased refinements : {increased} (expected 1)\n" ++
    s!"Decreased refinements : {decreased} (expected 1)\n" ++
    s!"Unchanged refinements : {unchanged} (expected 1)\n\n" ++
    "Circle: return to menu    Triangle: exit\n"

/-- The text of a drawing under a report. -/
def render (report : SelfTestResult) : Drawing → String
  | .home heldMs => drawHome heldMs
  | .menu => drawMenu
  | .result => drawResult report

/-- The locals of `main` and what its objects hold. -/
structure Process where
  state : State
  result : SelfTestResult
  memory : Memory

/-- What a run has shown, and its exit status if it is over. -/
structure Run where
  shown : List String
  status : Option Nat
  deriving DecidableEq, Repr

section Process

variable (p : Platform) (place : Place → Nat) (pad : Pad)

/-- `result = run_scanner_self_test()` comes before the result is drawn. -/
def draw (s : Process) : Drawing → Option (String × Process)
  | .result => do
    let (result, m) ← runScannerSelfTest p place s.memory
    some (drawResult result, { s with result := result, memory := m })
  | d => some (render s.result d, s)

def drawAll (s : Process) : List Drawing → Option (List String × Process)
  | [] => some ([], s)
  | d :: ds => do
    let (text, s) ← draw p place s d
    let (texts, s) ← drawAll s ds
    some (text :: texts, s)

def frame (s : Process) (f : Frame) : Option (List String × Process) :=
  let stepped := step pad s.state f
  drawAll p place { s with state := stepped.2 } stepped.1

def loop (s : Process) : List Frame → Option (List String × Process)
  | [] => some ([], s)
  | f :: fs => do
    let (texts, s) ← frame p place pad s f
    let (later, s) ← loop s fs
    some (texts ++ later, s)

/-- `sceKernelExitProcess` after the loop has ended. -/
def exitStatus (s : Process) : Option Nat :=
  if s.state.exitRequested then some (if s.result.failures = 0 then 0 else 1) else none

def main (debugScreenInit : Int) (m : Memory) (fs : List Frame) : Option Run :=
  if debugScreenInit < 0 then some ⟨[], some 1⟩
  else do
    let (texts, s) ← loop p place pad ⟨start, .zero, m⟩ fs
    some ⟨drawHome 0 :: texts, exitStatus s⟩

end Process

/-- What the checks report. -/
def passed : SelfTestResult := ⟨6, 0, 3, 2, 1, 1, 1⟩

/-- The drawings of the frames from a state on. -/
def drawings (pad : Pad) (s : State) (fs : List Frame) : List Drawing :=
  (Trace.run (step pad) s fs).flatMap (·.result)

theorem drawings_cons (pad : Pad) (s : State) (f : Frame) (fs : List Frame) :
    drawings pad s (f :: fs) = (step pad s f).1 ++ drawings pad (step pad s f).2 fs := rfl

variable {p : Platform} {place : Place → Nat} {pad : Pad}

/-- A drawing shows its text under the report of the checks and leaves a result
without failures. -/
theorem draw_passed (h : Placed p place) {s : Process} (hs : s.result.failures = 0)
    (d : Drawing) :
    ∃ s', draw p place s d = some (render passed d, s') ∧ s'.state = s.state ∧
      s'.result.failures = 0 := by
  cases d with
  | home heldMs => exact ⟨s, rfl, rfl, hs⟩
  | menu => exact ⟨s, rfl, rfl, hs⟩
  | result =>
    obtain ⟨m', hrun⟩ := scanner_passes h s.memory
    refine ⟨{ s with result := passed, memory := m' }, ?_, rfl, rfl⟩
    rw [draw, hrun]
    rfl

theorem drawAll_passed (h : Placed p place) (ds : List Drawing) :
    ∀ s : Process, s.result.failures = 0 →
      ∃ s', drawAll p place s ds = some (ds.map (render passed), s') ∧ s'.state = s.state ∧
        s'.result.failures = 0 := by
  induction ds with
  | nil => exact fun s hs => ⟨s, rfl, rfl, hs⟩
  | cons d ds ih =>
    intro s hs
    obtain ⟨s₁, hdraw, hstate, hs₁⟩ := draw_passed h hs d
    obtain ⟨s₂, hlater, hstate', hs₂⟩ := ih s₁ hs₁
    refine ⟨s₂, ?_, hstate'.trans hstate, hs₂⟩
    simp only [drawAll, hdraw, hlater, Option.bind_eq_bind, Option.bind_some, List.map_cons]

theorem loop_passed (h : Placed p place) (pad : Pad) (fs : List Frame) :
    ∀ s : Process, s.result.failures = 0 →
      ∃ s', loop p place pad s fs = some ((drawings pad s.state fs).map (render passed), s') ∧
        s'.state = Trace.final (step pad) s.state fs ∧ s'.result.failures = 0 := by
  induction fs with
  | nil => exact fun s hs => ⟨s, rfl, rfl, hs⟩
  | cons f fs ih =>
    intro s hs
    obtain ⟨s₁, hframe, hstate, hs₁⟩ :=
      drawAll_passed h (step pad s.state f).1 { s with state := (step pad s.state f).2 } hs
    obtain ⟨s₂, hlater, hstate', hs₂⟩ := ih s₁ hs₁
    rw [hstate] at hlater hstate'
    refine ⟨s₂, ?_, hstate', hs₂⟩
    simp only [loop, frame, hframe, hlater, Option.bind_eq_bind, Option.bind_some, drawings_cons,
      List.map_append]

/-- Every run shows the screens of its frames, with a passing report on every
result screen, and a run that ends reports success; without a debug screen it
shows nothing and fails. -/
theorem self_test_passes (p : Platform) (place : Place → Nat) (pad : Pad) (debugScreenInit : Int)
    (m : Memory) (fs : List Frame) (h : Placed p place) :
    main p place pad debugScreenInit m fs =
      if debugScreenInit < 0 then some ⟨[], some 1⟩
      else some ⟨drawHome 0 :: (drawings pad start fs).map (render passed),
        if (Trace.final (step pad) start fs).exitRequested then some 0 else none⟩ := by
  obtain ⟨s, hloop, hstate, hresult⟩ := loop_passed h pad fs ⟨start, .zero, m⟩ rfl
  rw [main]
  split
  · rfl
  · simp only [hloop, Option.bind_eq_bind, Option.bind_some, exitStatus, hstate, hresult,
      if_true]

/-- One page for each object. -/
def pages : Place → Nat
  | .previousSnapshot => 0x1000
  | .currentSnapshot => 0x2000
  | .candidates => 0x3000
  | .refined => 0x4000
  | .inPlace => 0x5000
  | .query => 0x6000
  | .refineQuery => 0x7000
  | .decreasedQuery => 0x8000
  | .written => 0x9000
  | .total => 0xa000

theorem pages_placed : Placed ilp32 pages := by
  refine Region.objects_spaced 0x1000 ?_ ?_ ?_ ?_
  · intro a
    show a.size ilp32 ≤ 0x1000
    cases a <;> decide
  · intro a
    show pages a ≠ 0
    cases a <;> decide
  · intro a
    have hmax := ilp32.sizeMax_ge
    have hpage : pages a ≤ 0xa000 := by cases a <;> decide
    show pages a + 0x1000 ≤ ilp32.sizeMax
    omega
  · intro a b hab
    show pages a + 0x1000 ≤ pages b ∨ pages b + 0x1000 ≤ pages a
    cases a <;> cases b <;>
      first
        | exact absurd rfl hab
        | decide

/-- Select held for five seconds, X, and Triangle. -/
def visit : List Frame :=
  [⟨1000000, some 1⟩, ⟨6000000, some 1⟩, ⟨6016000, some 4⟩, ⟨6032000, none⟩, ⟨6048000, some 8⟩]

theorem self_test_passes_visit :
    main ilp32 pages ⟨1, 2, 4, 8⟩ 0 ⟨fun _ _ => 7, fun _ => 7⟩ visit =
      some ⟨[drawHome 0, drawHome 0, drawHome 5000, drawMenu, drawResult passed], some 0⟩ :=
  self_test_passes ilp32 pages ⟨1, 2, 4, 8⟩ 0 ⟨fun _ _ => 7, fun _ => 7⟩ visit pages_placed

end VitaCheat.SelfTest
