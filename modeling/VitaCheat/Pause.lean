import Mathlib.Algebra.Group.Nat.Defs
import VitaCheat.Lib.BitSet
import VitaCheat.Lib.Trace

/-!
# The pause-ownership transaction

The four operations of `pause.c`, each with its checks in source order. The
adapter's callbacks are arbitrary functions of an adapter world: a callback may
answer any integer and change the world in any way, but cannot see the pause
state, which is the no-reentry rule of `pause.h`. Every issued callback is
recorded in a ghost log with its outcome and the pause state it was issued in.
-/
namespace VitaCheat.Pause

abbrev ThreadId := Int

/-- `uint64_t`, with wrapping addition. -/
abbrev U64 := BitVec 64

def maxThreads : Nat := 64
def maxDurationMs : U64 := 600000

inductive Status where
  | ok | expired | invalidArgument | invalidThreads | alreadyActive | notActive
  | staleTarget | suspendFailed | rollbackFailed | resumeFailed
  deriving DecidableEq, Repr

/-- A suspend or resume callback with its context: zero means success. -/
abbrev ThreadOperation (ω : Type) := ω → ThreadId → Int × ω

/-- `vc_pause_operations`; a null function pointer is `none`. -/
structure Operations (ω : Type) where
  suspendThread : Option (ThreadOperation ω)
  resumeThread : Option (ThreadOperation ω)

structure State where
  targetGeneration : U64
  startedMs : U64
  deadlineMs : U64
  ownedMask : BitVec 64
  threadIds : List ThreadId
  threadCount : Nat
  failedThreadId : ThreadId
  active : Bool
  deriving DecidableEq, Repr

/-- The all-zero state that `memset` leaves. -/
def cleared : State where
  targetGeneration := 0
  startedMs := 0
  deadlineMs := 0
  ownedMask := 0
  threadIds := List.replicate maxThreads 0
  threadCount := 0
  failedThreadId := 0
  active := false

def State.threadId (s : State) (index : Nat) : ThreadId := s.threadIds.getD index 0

/-- The ownership test `(owned_mask & (1 << index)) != 0`. -/
def State.owns (s : State) (index : Nat) : Bool := BitSet.mem s.ownedMask index

inductive Action where
  | suspend | resume
  deriving DecidableEq, Repr

/-- One issued callback. -/
structure Event where
  action : Action
  thread : ThreadId
  success : Bool
  held : State
  deriving DecidableEq, Repr

/-- The pause state, the adapter world and the ghost log of callbacks. -/
structure Machine (ω : Type) where
  state : State
  world : ω
  log : List Event

variable {ω : Type}

namespace Machine

def set (m : Machine ω) (s : State) : Machine ω := { m with state := s }

def clear (m : Machine ω) : Machine ω := m.set cleared

/-- `owned_mask |= UINT64_C(1) << index`. -/
def own (m : Machine ω) (index : Nat) : Machine ω :=
  m.set { m.state with ownedMask := BitSet.insert m.state.ownedMask index }

/-- `owned_mask &= ~(UINT64_C(1) << index)`. -/
def release (m : Machine ω) (index : Nat) : Machine ω :=
  m.set { m.state with ownedMask := BitSet.erase m.state.ownedMask index }

def setFailed (m : Machine ω) (thread : ThreadId) : Machine ω :=
  m.set { m.state with failedThreadId := thread }

/-- Issue a callback for the thread in a slot: did it answer zero? -/
def issue (m : Machine ω) (action : Action) (op : ThreadOperation ω) (index : Nat) :
    Bool × Machine ω :=
  let answer := op m.world (m.state.threadId index)
  let success := decide (answer.1 = 0)
  (success, ⟨m.state, answer.2, m.log ++ [⟨action, m.state.threadId index, success, m.state⟩]⟩)

end Machine

/-- The descending resume loop shared by rollback and end. Every owned slot
below `index` is attempted once; `note old failed` is the recorded failed
thread after a failure, and the flag tells whether any attempt failed. -/
def resumeLoop (resume : ThreadOperation ω) (note : ThreadId → ThreadId → ThreadId) :
    Nat → Bool → Machine ω → Bool × Machine ω
  | 0, failed, m => (failed, m)
  | index + 1, failed, m =>
    if !m.state.owns index then resumeLoop resume note index failed m
    else
      let attempt := m.issue .resume resume index
      if attempt.1 then resumeLoop resume note index failed (attempt.2.release index)
      else resumeLoop resume note index true
        (attempt.2.setFailed (note m.state.failedThreadId (m.state.threadId index)))

/-- Rollback records the last failed resume. -/
def rollbackLoop (resume : ThreadOperation ω) (index : Nat) (m : Machine ω) : Bool × Machine ω :=
  resumeLoop resume (fun _ thread => thread) index false m

/-- End records the first failed resume and keeps no flag. -/
def endLoop (resume : ThreadOperation ω) (index : Nat) (m : Machine ω) : Machine ω :=
  (resumeLoop resume (fun old thread => if old = 0 then thread else old) index false m).2

/-- What begin does after a failed suspend at `index`. -/
def rollback (resume : ThreadOperation ω) (index : Nat) (m : Machine ω) : Status × Machine ω :=
  let swept := rollbackLoop resume index (m.setFailed (m.state.threadId index))
  if swept.2.state.ownedMask = 0 then (.suspendFailed, swept.2.clear)
  else (if swept.1 then .rollbackFailed else .suspendFailed, swept.2)

/-- The ascending suspend loop of begin, with the number of slots left. -/
def suspendLoop (suspend resume : ThreadOperation ω) :
    Nat → Nat → Machine ω → Status × Machine ω
  | 0, _, m => (.ok, m.setFailed 0)
  | remaining + 1, index, m =>
    let attempt := m.issue .suspend suspend index
    if attempt.1 then suspendLoop suspend resume remaining (index + 1) (attempt.2.own index)
    else rollback resume index attempt.2

/-- `thread_ids` is null or an array read below `thread_count`. -/
def vcPauseValidateThreads (threadIds : Option (Nat → ThreadId)) (threadCount : Nat) : Status :=
  match threadIds with
  | none => .invalidThreads
  | some ids =>
    if threadCount = 0 ∨ maxThreads < threadCount then .invalidThreads
    else if (List.range threadCount).any
        (fun index => ids index ≤ 0 || (index != 0 && ids (index - 1) ≥ ids index)) then
      .invalidThreads
    else .ok

/-- The state begin sets up before its first callback. -/
def armed (targetGeneration nowMs maxPauseMs : U64) (ids : Nat → ThreadId) (threadCount : Nat) :
    State :=
  { cleared with
    threadIds := (List.range threadCount).map ids ++ List.replicate (maxThreads - threadCount) 0
    targetGeneration := targetGeneration
    startedMs := nowMs
    deadlineMs := nowMs + maxPauseMs
    threadCount := threadCount
    active := true }

/-- `given` says whether the state pointer is non-null. -/
def vcPauseBegin (given : Bool) (targetGeneration nowMs maxPauseMs : U64)
    (threadIds : Option (Nat → ThreadId)) (threadCount : Nat)
    (operations : Option (Operations ω)) (m : Machine ω) : Status × Machine ω :=
  match operations with
  | some ⟨some suspend, some resume⟩ =>
    if !given || targetGeneration == 0 || maxPauseMs == 0 || maxPauseMs > maxDurationMs ||
        nowMs > BitVec.allOnes 64 - maxPauseMs then (.invalidArgument, m)
    else if m.state.active || m.state.ownedMask != 0 then (.alreadyActive, m)
    else
      match vcPauseValidateThreads threadIds threadCount, threadIds with
      | .ok, some ids =>
        suspendLoop suspend resume threadCount 0
          (m.set (armed targetGeneration nowMs maxPauseMs ids threadCount))
      | status, _ => (status, m)
  | _ => (.invalidArgument, m)

/-- The part of end after its checks. -/
def resumeOwned (resume : ThreadOperation ω) (m : Machine ω) : Status × Machine ω :=
  let swept := endLoop resume m.state.threadCount (m.setFailed 0)
  if swept.state.ownedMask ≠ 0 then (.resumeFailed, swept) else (.ok, swept.clear)

def vcPauseEnd (given : Bool) (targetGeneration : U64) (operations : Option (Operations ω))
    (m : Machine ω) : Status × Machine ω :=
  match operations with
  | some ⟨_, some resume⟩ =>
    if !given || targetGeneration == 0 then (.invalidArgument, m)
    else if !m.state.active then (.notActive, m)
    else if m.state.targetGeneration != targetGeneration then (.staleTarget, m)
    else resumeOwned resume m
  | _ => (.invalidArgument, m)

def vcPauseTick (given : Bool) (targetGeneration nowMs : U64) (operations : Option (Operations ω))
    (m : Machine ω) : Status × Machine ω :=
  match operations with
  | some ⟨_, some _⟩ =>
    if !given || targetGeneration == 0 then (.invalidArgument, m)
    else if !m.state.active then (.notActive, m)
    else if m.state.targetGeneration != targetGeneration then (.staleTarget, m)
    else if nowMs ≥ m.state.startedMs && nowMs < m.state.deadlineMs then (.ok, m)
    else
      let ended := vcPauseEnd given targetGeneration operations m
      (if ended.1 = .ok then .expired else ended.1, ended.2)
  | _ => (.invalidArgument, m)

def vcPauseAbandon (given : Bool) (targetGeneration : U64) (m : Machine ω) : Status × Machine ω :=
  if !given || targetGeneration == 0 then (.invalidArgument, m)
  else if !m.state.active then (.notActive, m)
  else if m.state.targetGeneration != targetGeneration then (.staleTarget, m)
  else (.ok, m.clear)

/-- A call of the interface with all its arguments. -/
inductive Call (ω : Type) where
  | pauseBegin (given : Bool) (targetGeneration nowMs maxPauseMs : U64)
      (threadIds : Option (Nat → ThreadId)) (threadCount : Nat)
      (operations : Option (Operations ω))
  | pauseEnd (given : Bool) (targetGeneration : U64) (operations : Option (Operations ω))
  | pauseTick (given : Bool) (targetGeneration nowMs : U64) (operations : Option (Operations ω))
  | pauseAbandon (given : Bool) (targetGeneration : U64)

def call (m : Machine ω) : Call ω → Status × Machine ω
  | .pauseBegin given generation now duration ids count operations =>
    vcPauseBegin given generation now duration ids count operations m
  | .pauseEnd given generation operations => vcPauseEnd given generation operations m
  | .pauseTick given generation now operations => vcPauseTick given generation now operations m
  | .pauseAbandon given generation => vcPauseAbandon given generation m

/-- `vc_pause_state_init`, in an adapter world and with nothing recorded. -/
def vcPauseStateInit (world : ω) : Machine ω := ⟨cleared, world, []⟩

abbrev Entry (ω : Type) := Trace.Entry (Machine ω) (Call ω) Status

/-- The callbacks issued by one call. -/
def issued (e : Trace.Entry (Machine ω) α Status) : List Event :=
  e.after.log.drop e.before.log.length

end VitaCheat.Pause
