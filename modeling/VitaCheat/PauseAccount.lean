import Mathlib.Data.Finset.Sort
import VitaCheat.PauseTraces

/-!
# A pause in its own terms

What the transaction is for, without slots, masks and padding: one owner holds a set
of suspended threads for a window of time and hands all of them back. Which callbacks
succeed is an input of every call. Over retries a thread is resumed in every round
until it has been handed back.
-/
namespace VitaCheat.Pause

variable {ω : Type}

/-- Who pauses, in which window, and the threads that have to be handed back. -/
structure Holding where
  generation : U64
  startedMs : U64
  deadlineMs : U64
  held : Finset ThreadId
  some_held : held.Nonempty

/-- Nothing is held, or a nonempty set. -/
def holding (generation startedMs deadlineMs : U64) (held : Finset ThreadId) : Option Holding :=
  if h : held.Nonempty then some ⟨generation, startedMs, deadlineMs, held, h⟩ else none

/-- A set of threads, the last one first. -/
def lastFirst (held : Finset ThreadId) : List ThreadId := held.sort (· ≥ ·)

/-- Which callbacks succeed during a call. -/
abbrev Answers := Action → ThreadId → Bool

namespace Answers

/-- One resume for each thread of a set, the last one first. -/
def resumes (a : Answers) (held : Finset ThreadId) : List Attempt :=
  (lastFirst held).map fun t => ⟨.resume, t, a .resume t⟩

/-- The threads whose resume fails. -/
def kept (a : Answers) (held : Finset ThreadId) : Finset ThreadId :=
  held.filter fun t => a .resume t = false

end Answers

/-- A status with the callbacks that were issued, and what is held after. -/
abbrev Effect := (Status × List Attempt) × Option Holding

/-- Hand everything back. -/
def Holding.release (h : Holding) (a : Answers) (done failed : Status) : Effect :=
  ((if (a.kept h.held).Nonempty then failed else done, a.resumes h.held),
    holding h.generation h.startedMs h.deadlineMs (a.kept h.held))

/-- Suspend the threads in order; after a failure hand back what has been suspended. -/
def acquire (a : Answers) (generation startedMs deadlineMs : U64) (threads : List ThreadId) :
    Effect :=
  let suspended := threads.takeWhile (a .suspend)
  let attempts := suspended.map fun t => ⟨.suspend, t, true⟩
  match threads.dropWhile (a .suspend) with
  | [] => ((.ok, attempts), holding generation startedMs deadlineMs suspended.toFinset)
  | t :: _ =>
    let kept := a.kept suspended.toFinset
    ((if kept.Nonempty then .rollbackFailed else .suspendFailed,
      attempts ++ ⟨.suspend, t, false⟩ :: a.resumes suspended.toFinset),
      holding generation startedMs deadlineMs kept)

/-- The threads that a begin asks for, if it may: positive, in order and not too many. -/
def threadsOf (threadIds : Option (Nat → ThreadId)) (threadCount : Nat) :
    Option (List ThreadId) :=
  match threadIds with
  | none => none
  | some ids =>
    let threads := (List.range threadCount).map ids
    if threads ≠ [] ∧ threads.length ≤ maxThreads ∧ threads.Pairwise (· < ·) ∧
        ∀ t ∈ threads, 0 < t then some threads
    else none

def canResume : Option (Operations ω) → Bool
  | none => false
  | some operations => operations.resumeThread.isSome

def canPause : Option (Operations ω) → Bool
  | none => false
  | some operations => operations.suspendThread.isSome && operations.resumeThread.isSome

/-- A window that is not empty, not too long and ends before the clock wraps. -/
def LegalWindow (nowMs maxPauseMs : U64) : Prop :=
  maxPauseMs ≠ 0 ∧ maxPauseMs ≤ maxDurationMs ∧ nowMs.toNat + maxPauseMs.toNat < 2 ^ 64

instance (nowMs maxPauseMs : U64) : Decidable (LegalWindow nowMs maxPauseMs) :=
  inferInstanceAs (Decidable (maxPauseMs ≠ 0 ∧ maxPauseMs ≤ maxDurationMs ∧
    nowMs.toNat + maxPauseMs.toNat < 2 ^ 64))

/-- Only the owner acts on what is held. -/
def owned (usable : Bool) (generation : U64) (s : Option Holding) (act : Holding → Effect) :
    Effect :=
  if usable = true ∧ generation ≠ 0 then
    match s with
    | none => ((.notActive, []), s)
    | some h => if h.generation = generation then act h else ((.staleTarget, []), s)
  else ((.invalidArgument, []), s)

/-- A call and the answers of its callbacks. -/
def account (s : Option Holding) : Answers × Call ω → Effect
  | (a, .pauseBegin given generation now duration ids count operations) =>
    if (given && canPause operations) = true ∧ generation ≠ 0 ∧ LegalWindow now duration then
      match s, threadsOf ids count with
      | some h, _ => ((.alreadyActive, []), some h)
      | none, none => ((.invalidThreads, []), none)
      | none, some threads => acquire a generation now (now + duration) threads
    else ((.invalidArgument, []), s)
  | (a, .pauseEnd given generation operations) =>
    owned (given && canResume operations) generation s fun h => h.release a .ok .resumeFailed
  | (a, .pauseTick given generation now operations) =>
    owned (given && canResume operations) generation s fun h =>
      if h.startedMs ≤ now ∧ now < h.deadlineMs then ((.ok, []), some h)
      else h.release a .expired .resumeFailed
  | (_, .pauseAbandon given generation) =>
    owned given generation s fun _ => ((.ok, []), none)

/-- The threads that are held. -/
def heldThreads : Option Holding → Finset ThreadId
  | none => ∅
  | some h => h.held

theorem heldThreads_holding (generation startedMs deadlineMs : U64) (held : Finset ThreadId) :
    heldThreads (holding generation startedMs deadlineMs held) = held := by
  unfold holding
  split
  · rfl
  · next h => exact (Finset.not_nonempty_iff_eq_empty.mp h).symm

theorem mem_lastFirst {held : Finset ThreadId} {t : ThreadId} : t ∈ lastFirst held ↔ t ∈ held :=
  Finset.mem_sort _

theorem mem_kept {a : Answers} {held : Finset ThreadId} {t : ThreadId} :
    t ∈ a.kept held ↔ t ∈ held ∧ a .resume t = false := Finset.mem_filter

theorem resumes_count (a : Answers) (held : Finset ThreadId) (t : ThreadId) (success : Bool) :
    (a.resumes held).count ⟨.resume, t, success⟩ =
      if t ∈ held ∧ a .resume t = success then 1 else 0 := by
  have hnodup : (a.resumes held).Nodup := by
    refine List.Nodup.map ?_ (Finset.sort_nodup held _)
    intro t u htu
    exact (Attempt.mk.inj htu).2.1
  have hmem : ⟨.resume, t, success⟩ ∈ a.resumes held ↔ t ∈ held ∧ a .resume t = success := by
    rw [Answers.resumes, List.mem_map]
    constructor
    · rintro ⟨u, hu, hattempt⟩
      obtain ⟨-, rfl, rfl⟩ := Attempt.mk.inj hattempt
      exact ⟨mem_lastFirst.mp hu, rfl⟩
    · rintro ⟨ht, rfl⟩
      exact ⟨t, mem_lastFirst.mpr ht, rfl⟩
  rw [hnodup.count]
  exact if_congr hmem rfl rfl

/-- One round of a retry: everything that is held is resumed once. -/
structure Round (s : Option Holding) (trace : List Attempt) (s' : Option Holding) : Prop where
  some_tried : trace ≠ []
  once : ∀ t, trace.count ⟨.resume, t, true⟩ + trace.count ⟨.resume, t, false⟩ =
    if t ∈ heldThreads s then 1 else 0
  kept : ∀ t, t ∈ heldThreads s' ↔ trace.count ⟨.resume, t, false⟩ = 1

theorem release_trace (h : Holding) (a : Answers) (done failed : Status) :
    (h.release a done failed).1.2 = a.resumes h.held := rfl

theorem release_held (h : Holding) (a : Answers) (done failed : Status) :
    heldThreads (h.release a done failed).2 = a.kept h.held := heldThreads_holding _ _ _ _

theorem release_round (h : Holding) (a : Answers) (done failed : Status) :
    Round (some h) (h.release a done failed).1.2 (h.release a done failed).2 where
  some_tried := by
    intro hnil
    have hsort : lastFirst h.held = [] := List.map_eq_nil_iff.mp hnil
    obtain ⟨t, ht⟩ := h.some_held
    have hmem := mem_lastFirst.mpr ht
    rw [hsort] at hmem
    cases hmem
  once := by
    intro t
    have hheld : t ∈ heldThreads (some h) ↔ t ∈ h.held := Iff.rfl
    rw [release_trace, resumes_count, resumes_count, if_congr hheld rfl rfl]
    cases a .resume t <;> simp
  kept := by
    intro t
    rw [release_trace, release_held, mem_kept, resumes_count]
    by_cases h : t ∈ h.held ∧ a .resume t = false
    · simp [h]
    · simp [h]

/-- An end or a tick does nothing, or is a round. -/
theorem cleanup_round (s : Option Holding) (a : Answers) {c : Call ω}
    (hc : c.isCleanup = true) :
    ((account s (a, c)).1.2 = [] ∧ (account s (a, c)).2 = s) ∨
      Round s (account s (a, c)).1.2 (account s (a, c)).2 := by
  have howned : ∀ (usable : Bool) (generation : U64) (act : Holding → Effect),
      (∀ h, ((act h).1.2 = [] ∧ (act h).2 = some h) ∨ Round (some h) (act h).1.2 (act h).2) →
      ((owned usable generation s act).1.2 = [] ∧ (owned usable generation s act).2 = s) ∨
        Round s (owned usable generation s act).1.2 (owned usable generation s act).2 := by
    intro usable generation act hact
    unfold owned
    split
    · cases s with
      | none => exact .inl ⟨rfl, rfl⟩
      | some h =>
        dsimp only
        split
        · exact hact h
        · exact .inl ⟨rfl, rfl⟩
    · exact .inl ⟨rfl, rfl⟩
  cases c with
  | pauseBegin | pauseAbandon => cases hc
  | pauseEnd given generation operations =>
    exact howned _ _ _ fun h => .inr (release_round h a .ok .resumeFailed)
  | pauseTick given generation now operations =>
    refine howned _ _ _ fun h => ?_
    split
    · exact .inl ⟨rfl, rfl⟩
    · exact .inr (release_round h a .expired .resumeFailed)

/-- The callbacks of a run, one list for each call. -/
def tracesOf (es : List (Trace.Entry (Option Holding) (Answers × Call ω)
    (Status × List Attempt))) : List (List Attempt) := es.map fun e => e.result.2

/-- The calls of a run that issued callbacks. -/
def rounds (traces : List (List Attempt)) : Nat := traces.countP fun trace => trace ≠ []

theorem rounds_idle (traces : List (List Attempt)) : rounds ([] :: traces) = rounds traces := rfl

theorem rounds_tried {trace : List Attempt} (h : trace ≠ []) (traces : List (List Attempt)) :
    rounds (trace :: traces) = rounds traces + 1 :=
  List.countP_cons_of_pos (decide_eq_true h)

theorem rounds_le (trace : List Attempt) (traces : List (List Attempt)) :
    rounds traces ≤ rounds (trace :: traces) := by
  rw [rounds, rounds, List.countP_cons]
  exact Nat.le_add_right _ _

/-- Over retries a thread is resumed in every round until it has been handed back. -/
structure Retried (s : Option Holding) (traces : List (List Attempt)) (s' : Option Holding) :
    Prop where
  held : ∀ t, t ∈ heldThreads s → t ∈ heldThreads s' →
    traces.flatten.count ⟨.resume, t, true⟩ = 0 ∧
      traces.flatten.count ⟨.resume, t, false⟩ = rounds traces
  released : ∀ t, t ∈ heldThreads s → t ∉ heldThreads s' →
    traces.flatten.count ⟨.resume, t, true⟩ = 1 ∧
      traces.flatten.count ⟨.resume, t, false⟩ < rounds traces
  others : ∀ t, t ∉ heldThreads s → t ∉ heldThreads s' ∧
    traces.flatten.count ⟨.resume, t, true⟩ = 0 ∧ traces.flatten.count ⟨.resume, t, false⟩ = 0

theorem retried_nil (s : Option Holding) : Retried s [] s where
  held := fun _ _ _ => ⟨rfl, rfl⟩
  released := fun _ h h' => absurd h h'
  others := fun _ h => ⟨h, rfl, rfl⟩

theorem retried_idle {s s' : Option Holding} {traces : List (List Attempt)}
    (h : Retried s traces s') : Retried s ([] :: traces) s' := by
  constructor
  · rw [rounds_idle]
    exact h.held
  · rw [rounds_idle]
    exact h.released
  · exact h.others

theorem retried_round {s mid s' : Option Holding} {trace : List Attempt}
    {traces : List (List Attempt)} (hround : Round s trace mid) (h : Retried mid traces s') :
    Retried s (trace :: traces) s' := by
  have hrounds := rounds_tried hround.some_tried traces
  constructor
  · intro t ht ht'
    have hmid : t ∈ heldThreads mid := by
      by_contra hmid
      exact (h.others t hmid).1 ht'
    have honce := hround.once t
    have hfailed := (hround.kept t).mp hmid
    obtain ⟨hsucceeded, hmore⟩ := h.held t hmid ht'
    rw [if_pos ht] at honce
    rw [hrounds, List.flatten_cons, List.count_append, List.count_append]
    omega
  · intro t ht ht'
    have honce := hround.once t
    rw [if_pos ht] at honce
    rw [hrounds, List.flatten_cons, List.count_append, List.count_append]
    by_cases hmid : t ∈ heldThreads mid
    · have hfailed := (hround.kept t).mp hmid
      obtain ⟨hsucceeded, hmore⟩ := h.released t hmid ht'
      omega
    · have hfailed : trace.count ⟨.resume, t, false⟩ ≠ 1 := fun hf => hmid ((hround.kept t).mpr hf)
      obtain ⟨-, hsucceeded, hmore⟩ := h.others t hmid
      omega
  · intro t ht
    have honce := hround.once t
    rw [if_neg ht] at honce
    have hmid : t ∉ heldThreads mid := by
      intro hmid
      have hfailed := (hround.kept t).mp hmid
      omega
    obtain ⟨hs', hsucceeded, hmore⟩ := h.others t hmid
    rw [List.flatten_cons, List.count_append, List.count_append]
    exact ⟨hs', by omega, by omega⟩

/-- Every run of ends and ticks is a series of retries. -/
theorem account_retried (inputs : List (Answers × Call ω))
    (hinputs : ∀ i ∈ inputs, i.2.isCleanup = true) (s : Option Holding) :
    Retried s (tracesOf (Trace.run account s inputs)) (Trace.final account s inputs) := by
  induction inputs generalizing s with
  | nil => exact retried_nil s
  | cons i rest ih =>
    obtain ⟨hi, hrest⟩ := List.forall_mem_cons.mp hinputs
    have hmore := ih hrest (account s i).2
    have htraces : tracesOf (Trace.run account s (i :: rest)) =
        (account s i).1.2 :: tracesOf (Trace.run account (account s i).2 rest) := rfl
    rw [htraces, Trace.final_cons]
    rcases cleanup_round s i.1 hi with ⟨hnil, hsame⟩ | hround
    · rw [hnil]
      rw [hsame] at hmore ⊢
      exact retried_idle hmore
    · exact retried_round hround hmore

end VitaCheat.Pause
