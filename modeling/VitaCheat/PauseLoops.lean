import VitaCheat.Pause

/-!
# The suspend and resume loops

Each loop is described once by its effect on ownership and on the log: which
callbacks it issues, in which order and state, and which slots are owned after.
Later proofs use these descriptions and never unfold the loops.
-/
namespace VitaCheat.Pause

variable {ω : Type}

namespace Machine

@[simp] theorem set_state (m : Machine ω) (s : State) : (m.set s).state = s := rfl
@[simp] theorem set_log (m : Machine ω) (s : State) : (m.set s).log = m.log := rfl
@[simp] theorem clear_state (m : Machine ω) : m.clear.state = cleared := rfl
@[simp] theorem clear_log (m : Machine ω) : m.clear.log = m.log := rfl
@[simp] theorem setFailed_state (m : Machine ω) (t : ThreadId) :
    (m.setFailed t).state = { m.state with failedThreadId := t } := rfl
@[simp] theorem setFailed_log (m : Machine ω) (t : ThreadId) : (m.setFailed t).log = m.log := rfl
@[simp] theorem own_log (m : Machine ω) (i : Nat) : (m.own i).log = m.log := rfl
@[simp] theorem release_log (m : Machine ω) (i : Nat) : (m.release i).log = m.log := rfl

@[simp] theorem issue_state (m : Machine ω) (a : Action) (op : ThreadOperation ω) (i : Nat) :
    (m.issue a op i).2.state = m.state := rfl
@[simp] theorem issue_log (m : Machine ω) (a : Action) (op : ThreadOperation ω) (i : Nat) :
    (m.issue a op i).2.log =
      m.log ++ [⟨a, m.state.threadId i, (m.issue a op i).1, m.state⟩] := rfl

end Machine

@[simp] theorem cleared_active : cleared.active = false := rfl

/-- Everything but the owned mask and the recorded failure is the same. -/
structure SameTransaction (s t : State) : Prop where
  targetGeneration : s.targetGeneration = t.targetGeneration
  startedMs : s.startedMs = t.startedMs
  deadlineMs : s.deadlineMs = t.deadlineMs
  threadIds : s.threadIds = t.threadIds
  threadCount : s.threadCount = t.threadCount
  active : s.active = t.active

theorem SameTransaction.refl (s : State) : SameTransaction s s := ⟨rfl, rfl, rfl, rfl, rfl, rfl⟩

theorem SameTransaction.trans {s t u : State} (h : SameTransaction s t)
    (h' : SameTransaction t u) : SameTransaction s u :=
  ⟨h.1.trans h'.1, h.2.trans h'.2, h.3.trans h'.3, h.4.trans h'.4, h.5.trans h'.5, h.6.trans h'.6⟩

theorem SameTransaction.threadId {s t : State} (h : SameTransaction s t) (i : Nat) :
    s.threadId i = t.threadId i := by
  simp only [State.threadId, h.threadIds]

theorem same_setFailed (m : Machine ω) (t : ThreadId) :
    SameTransaction (m.setFailed t).state m.state := ⟨rfl, rfl, rfl, rfl, rfl, rfl⟩

theorem same_own (m : Machine ω) (i : Nat) : SameTransaction (m.own i).state m.state :=
  ⟨rfl, rfl, rfl, rfl, rfl, rfl⟩

theorem same_release (m : Machine ω) (i : Nat) : SameTransaction (m.release i).state m.state :=
  ⟨rfl, rfl, rfl, rfl, rfl, rfl⟩

@[simp] theorem setFailed_owns (m : Machine ω) (t : ThreadId) (i : Nat) :
    (m.setFailed t).state.owns i = m.state.owns i := rfl

@[simp] theorem own_owns (m : Machine ω) (i j : Nat) (hi : i < maxThreads) :
    (m.own i).state.owns j = (m.state.owns j || decide (j = i)) := BitSet.mem_insert _ i j hi

@[simp] theorem release_owns (m : Machine ω) (i j : Nat) :
    (m.release i).state.owns j = (m.state.owns j && decide (j ≠ i)) := BitSet.mem_erase _ i j

/-- The owned slots below a bound, in increasing order. -/
def State.ownedBelow (s : State) (bound : Nat) : List Nat := BitSet.members s.ownedMask bound

@[simp] theorem mem_ownedBelow {s : State} {bound i : Nat} :
    i ∈ s.ownedBelow bound ↔ i < bound ∧ s.owns i = true := BitSet.mem_members

/-- Slots the loop has not reached keep their place in the list. -/
theorem ownedBelow_congr {s t : State} {bound : Nat}
    (h : ∀ i, i < bound → s.owns i = t.owns i) : s.ownedBelow bound = t.ownedBelow bound :=
  BitSet.members_congr h

/-- One resume attempt for each owned slot below `bound`, in descending order,
with outcome `ok` and issued in the states `held`. -/
def attempts (s : State) (bound : Nat) (ok : Nat → Bool) (held : Nat → State) : List Event :=
  (s.ownedBelow bound).reverse.map fun i => ⟨.resume, s.threadId i, ok i, held i⟩

theorem attempts_succ_owned (s : State) (n : Nat) (ok : Nat → Bool) (held : Nat → State)
    (h : s.owns n = true) :
    attempts s (n + 1) ok held =
      ⟨.resume, s.threadId n, ok n, held n⟩ :: attempts s n ok held := by
  have hm : BitSet.mem s.ownedMask n = true := h
  simp [attempts, State.ownedBelow, BitSet.members_succ, hm]

theorem attempts_succ_free (s : State) (n : Nat) (ok : Nat → Bool) (held : Nat → State)
    (h : s.owns n = false) : attempts s (n + 1) ok held = attempts s n ok held := by
  have hm : BitSet.mem s.ownedMask n = false := h
  simp [attempts, State.ownedBelow, BitSet.members_succ, hm]

/-- The attempts depend on the slots below the bound only. -/
theorem attempts_congr {s t : State} {bound : Nat} {ok ok' : Nat → Bool} {held held' : Nat → State}
    (ho : ∀ i, i < bound → s.owns i = t.owns i) (hid : ∀ i, s.threadId i = t.threadId i)
    (hok : ∀ i, i < bound → ok i = ok' i) (hh : ∀ i, i < bound → held i = held' i) :
    attempts s bound ok held = attempts t bound ok' held' := by
  rw [attempts, attempts, ownedBelow_congr ho]
  apply List.map_congr_left
  intro i hi
  have hlt := (mem_ownedBelow.mp (List.mem_reverse.mp hi)).1
  rw [hid i, hok i hlt, hh i hlt]

/-- What the attempts of a clean-up contain. -/
theorem mem_attempts {s : State} {n : Nat} {ok : Nat → Bool} {held : Nat → State} {r : Event}
    (h : r ∈ attempts s n ok held) :
    ∃ i, i < n ∧ s.owns i = true ∧ r = ⟨.resume, s.threadId i, ok i, held i⟩ := by
  simp only [attempts, List.mem_map, List.mem_reverse] at h
  obtain ⟨i, hi, hr⟩ := h
  exact ⟨i, (mem_ownedBelow.mp hi).1, (mem_ownedBelow.mp hi).2, hr.symm⟩

theorem attempts_action {s : State} {n : Nat} {ok : Nat → Bool} {held : Nat → State} :
    ∀ r ∈ attempts s n ok held, r.action ≠ .suspend := by
  intro r hr
  obtain ⟨i, -, -, rfl⟩ := mem_attempts hr
  simp

/-- The effect of a descending loop over the slots below `bound`: one attempt
for each owned slot, and exactly the successful ones are released. -/
structure Swept (m : Machine ω) (bound : Nat) (ok : Nat → Bool) (held : Nat → State)
    (r : Machine ω) : Prop where
  same : SameTransaction r.state m.state
  owns : ∀ i, r.state.owns i = (m.state.owns i && !(decide (i < bound) && ok i))
  log : r.log = m.log ++ attempts m.state bound ok held
  held : ∀ i, i < bound → m.state.owns i = true →
    SameTransaction (held i) m.state ∧ (held i).owns i = true

/-- Prepend the attempt for slot `n` to a loop over the slots below it. -/
theorem swept_cons {m m' r : Machine ω} {n : Nat} {b : Bool} {ok : Nat → Bool} {held : Nat → State}
    (hn : m.state.owns n = true) (hs : SameTransaction m'.state m.state)
    (ho : ∀ i, m'.state.owns i = (m.state.owns i && !(decide (i = n) && b)))
    (hl : m'.log = m.log ++ [⟨.resume, m.state.threadId n, b, m.state⟩])
    (h : Swept m' n ok held r) :
    Swept m (n + 1) (Function.update ok n b) (Function.update held n m.state) r where
  same := h.same.trans hs
  owns := by
    intro i
    rw [h.owns, ho]
    by_cases hi : i = n
    · subst hi; simp
    · have hlt : i < n + 1 ↔ i < n := by omega
      simp [hi, hlt]
  log := by
    have hc : attempts m'.state n ok held =
        attempts m.state n (Function.update ok n b) (Function.update held n m.state) := by
      apply attempts_congr
      · intro i hi; rw [ho]; simp [show i ≠ n by omega]
      · exact hs.threadId
      · intro i hi; rw [Function.update_of_ne (by omega)]
      · intro i hi; rw [Function.update_of_ne (by omega)]
    rw [h.log, hl, hc, attempts_succ_owned _ _ _ _ hn, List.append_assoc]
    simp
  held := by
    intro i hi hoi
    by_cases hin : i = n
    · subst hin; simpa using ⟨SameTransaction.refl _, hoi⟩
    · rw [Function.update_of_ne hin]
      have hm' : m'.state.owns i = true := by rw [ho]; simp [hoi, hin]
      obtain ⟨h₁, h₂⟩ := h.held i (by omega) hm'
      exact ⟨h₁.trans hs, h₂⟩

/-- A slot that is not owned is passed over. -/
theorem swept_free {m r : Machine ω} {n : Nat} {ok : Nat → Bool} {held : Nat → State}
    (hn : m.state.owns n = false) (h : Swept m n ok held r) : Swept m (n + 1) ok held r where
  same := h.same
  owns := by
    intro i
    rw [h.owns]
    by_cases hi : i = n
    · subst hi; simp [hn]
    · have hlt : i < n + 1 ↔ i < n := by omega
      simp [hlt]
  log := by rw [h.log, attempts_succ_free _ _ _ _ hn]
  held := by
    intro i hi hoi
    have hin : i ≠ n := by
      rintro rfl
      rw [hn] at hoi
      cases hoi
    exact h.held i (by omega) hoi

/-- A slot below `n` whose attempt fails. -/
def Failing (s : State) (n : Nat) (ok : Nat → Bool) : Prop :=
  ∃ i < n, s.owns i = true ∧ ok i = false

theorem failing_free {s : State} {n : Nat} {ok : Nat → Bool} (hn : s.owns n = false) :
    Failing s n ok ↔ Failing s (n + 1) ok := by
  constructor
  · rintro ⟨i, hi, hoi, hk⟩
    exact ⟨i, by omega, hoi, hk⟩
  · rintro ⟨i, hi, hoi, hk⟩
    have hin : i ≠ n := by
      rintro rfl
      rw [hn] at hoi
      cases hoi
    exact ⟨i, by omega, hoi, hk⟩

/-- An attempt that succeeds adds no failing slot. -/
theorem failing_released {s s' : State} {n : Nat} {ok : Nat → Bool}
    (ho : ∀ i, s'.owns i = (s.owns i && !(decide (i = n) && true))) :
    Failing s' n ok ↔ Failing s (n + 1) (Function.update ok n true) := by
  constructor
  · rintro ⟨i, hi, hoi, hk⟩
    have hin : i ≠ n := by omega
    rw [ho] at hoi
    exact ⟨i, by omega, by simpa [hin] using hoi, by rwa [Function.update_of_ne hin]⟩
  · rintro ⟨i, hi, hoi, hk⟩
    by_cases hin : i = n
    · subst hin; simp at hk
    · rw [Function.update_of_ne hin] at hk
      exact ⟨i, by omega, by rw [ho]; simp [hoi, hin], hk⟩

/-- The three ways the loop passes a slot. -/
theorem resumeLoop_free {resume : ThreadOperation ω} {note : ThreadId → ThreadId → ThreadId}
    {n : Nat} {m : Machine ω} (failed : Bool) (hn : m.state.owns n = false) :
    resumeLoop resume note (n + 1) failed m = resumeLoop resume note n failed m := by
  simp [resumeLoop, hn]

theorem resumeLoop_released {resume : ThreadOperation ω} {note : ThreadId → ThreadId → ThreadId}
    {n : Nat} {m : Machine ω} (failed : Bool) (hn : m.state.owns n = true)
    (hb : (m.issue .resume resume n).1 = true) :
    resumeLoop resume note (n + 1) failed m =
      resumeLoop resume note n failed ((m.issue .resume resume n).2.release n) := by
  simp [resumeLoop, hn, hb]

theorem resumeLoop_kept {resume : ThreadOperation ω} {note : ThreadId → ThreadId → ThreadId}
    {n : Nat} {m : Machine ω} (failed : Bool) (hn : m.state.owns n = true)
    (hb : (m.issue .resume resume n).1 = false) :
    resumeLoop resume note (n + 1) failed m =
      resumeLoop resume note n true ((m.issue .resume resume n).2.setFailed
        (note m.state.failedThreadId (m.state.threadId n))) := by
  simp [resumeLoop, hn, hb]

/-- The loop sweeps the slots below its index; the flag is raised by failures. -/
theorem resumeLoop_swept (resume : ThreadOperation ω) (note : ThreadId → ThreadId → ThreadId)
    (n : Nat) (failed : Bool) (m : Machine ω) :
    ∃ ok held, Swept m n ok held (resumeLoop resume note n failed m).2 ∧
      ((resumeLoop resume note n failed m).1 = true ↔ failed = true ∨ Failing m.state n ok) := by
  induction n generalizing failed m with
  | zero =>
    refine ⟨fun _ => true, fun _ => m.state, ⟨.refl _, ?_, ?_, ?_⟩, ?_⟩
    · intro i; simp [resumeLoop]
    · simp [resumeLoop, attempts, State.ownedBelow]
    · intro i hi; omega
    · simp [resumeLoop, Failing]
  | succ n ih =>
    cases hn : m.state.owns n with
    | false =>
      obtain ⟨ok, held, h, hf⟩ := ih failed m
      rw [resumeLoop_free failed hn]
      exact ⟨ok, held, swept_free hn h, hf.trans (or_congr_right (failing_free hn))⟩
    | true =>
      cases hb : (m.issue .resume resume n).1 with
      | true =>
        obtain ⟨ok, held, h, hf⟩ := ih failed ((m.issue .resume resume n).2.release n)
        have hown : ∀ i, ((m.issue .resume resume n).2.release n).state.owns i =
            (m.state.owns i && !(decide (i = n) && true)) := by
          intro i; simp
        have hsame : SameTransaction ((m.issue .resume resume n).2.release n).state m.state :=
          same_release _ n
        have hlog : ((m.issue .resume resume n).2.release n).log =
            m.log ++ [⟨.resume, m.state.threadId n, true, m.state⟩] := by
          simp [hb]
        rw [resumeLoop_released failed hn hb]
        exact ⟨_, _, swept_cons hn hsame hown hlog h,
          hf.trans (or_congr_right (failing_released hown))⟩
      | false =>
        obtain ⟨ok, held, h, hf⟩ := ih true ((m.issue .resume resume n).2.setFailed
          (note m.state.failedThreadId (m.state.threadId n)))
        have hown : ∀ i, ((m.issue .resume resume n).2.setFailed
            (note m.state.failedThreadId (m.state.threadId n))).state.owns i =
            (m.state.owns i && !(decide (i = n) && false)) := by
          intro i; simp [State.owns]
        have hsame : SameTransaction ((m.issue .resume resume n).2.setFailed
            (note m.state.failedThreadId (m.state.threadId n))).state m.state :=
          same_setFailed (m.issue .resume resume n).2 _
        have hlog : ((m.issue .resume resume n).2.setFailed
            (note m.state.failedThreadId (m.state.threadId n))).log =
            m.log ++ [⟨.resume, m.state.threadId n, false, m.state⟩] := by
          simp [hb]
        rw [resumeLoop_kept failed hn hb]
        refine ⟨_, _, swept_cons hn hsame hown hlog h, ?_⟩
        rw [hf]
        simp only [true_or, true_iff]
        exact Or.inr ⟨n, by omega, hn, by simp⟩

/-- A complete clean-up of the slots below `n`: all attempts are logged, and
either every resume succeeded and the state is cleared, or exactly the failed
slots stay owned. -/
structure Cleaned (m : Machine ω) (n : Nat) (ok : Nat → Bool) (held : Nat → State)
    (done failed : Status) (r : Status × Machine ω) : Prop where
  log : r.2.log = m.log ++ attempts m.state n ok held
  held : ∀ i, i < n → m.state.owns i = true →
    SameTransaction (held i) m.state ∧ (held i).owns i = true
  outcome : (r.1 = done ∧ r.2.state = cleared ∧ ∀ i, m.state.owns i = true → ok i = true) ∨
    (r.1 = failed ∧ SameTransaction r.2.state m.state ∧ r.2.state.ownedMask ≠ 0 ∧
      ∀ i, r.2.state.owns i = (m.state.owns i && !ok i))

/-- The owned mask is zero after a sweep exactly when every attempt succeeded. -/
theorem swept_mask {m r : Machine ω} {n : Nat} {ok : Nat → Bool} {held : Nat → State}
    (h : Swept m n ok held r) (hlt : ∀ i, m.state.owns i = true → i < n) :
    r.state.ownedMask = 0 ↔ ∀ i, m.state.owns i = true → ok i = true := by
  have hz : r.state.ownedMask = 0 ↔ ∀ i, r.state.owns i = false := BitSet.eq_zero_iff _
  rw [hz]
  constructor
  · intro hf i hi
    have := hf i
    rw [h.owns, hi] at this
    simpa [hlt i hi] using this
  · intro hk i
    rw [h.owns]
    cases hi : m.state.owns i with
    | false => rfl
    | true => simp [hlt i hi, hk i hi]

theorem swept_owns {m r : Machine ω} {n : Nat} {ok : Nat → Bool} {held : Nat → State}
    (h : Swept m n ok held r) (hlt : ∀ i, m.state.owns i = true → i < n) (i : Nat) :
    r.state.owns i = (m.state.owns i && !ok i) := by
  rw [h.owns]
  cases hi : m.state.owns i with
  | false => rfl
  | true => simp [hlt i hi]

/-- The recorded failure plays no part in a sweep. -/
theorem swept_of_setFailed {m r : Machine ω} {t : ThreadId} {n : Nat} {ok : Nat → Bool}
    {held : Nat → State} (h : Swept (m.setFailed t) n ok held r) : Swept m n ok held r where
  same := h.same.trans (same_setFailed m t)
  owns := h.owns
  log := h.log
  held := by
    intro i hi ho
    obtain ⟨hs, hh⟩ := h.held i hi ho
    exact ⟨hs.trans (same_setFailed m t), hh⟩

/-- Clear the state if nothing is owned any more, keep it otherwise. -/
def settle (done failed : Status) (r : Machine ω) : Status × Machine ω :=
  if r.state.ownedMask = 0 then (done, r.clear) else (failed, r)

theorem settle_cleaned {m r : Machine ω} {n : Nat} {ok : Nat → Bool} {held : Nat → State}
    (done failed : Status) (h : Swept m n ok held r) (hlt : ∀ i, m.state.owns i = true → i < n) :
    Cleaned m n ok held done failed (settle done failed r) := by
  by_cases hz : r.state.ownedMask = 0
  · have hs : settle done failed r = (done, r.clear) := if_pos hz
    rw [hs]
    exact ⟨h.log, h.held, Or.inl ⟨rfl, rfl, (swept_mask h hlt).mp hz⟩⟩
  · have hs : settle done failed r = (failed, r) := if_neg hz
    rw [hs]
    exact ⟨h.log, h.held, Or.inr ⟨rfl, h.same, hz, swept_owns h hlt⟩⟩

theorem resumeOwned_cleaned (resume : ThreadOperation ω) (m : Machine ω)
    (hlt : ∀ i, m.state.owns i = true → i < m.state.threadCount) :
    ∃ ok held, Cleaned m m.state.threadCount ok held .ok .resumeFailed (resumeOwned resume m) := by
  obtain ⟨ok, held, h, -⟩ := resumeLoop_swept resume
    (fun old thread => if old = 0 then thread else old) m.state.threadCount false (m.setFailed 0)
  have hr : resumeOwned resume m = settle .ok .resumeFailed
      (endLoop resume m.state.threadCount (m.setFailed 0)) := by
    simp only [resumeOwned, settle, ite_not]
  rw [hr]
  exact ⟨ok, held, settle_cleaned _ _ (swept_of_setFailed h) hlt⟩

/-- The fallback of begin, a failed suspend with ownership retained and no
failed resume, is never reached. -/
theorem rollback_cleaned (resume : ThreadOperation ω) (n : Nat) (m : Machine ω)
    (hlt : ∀ i, m.state.owns i = true → i < n) :
    ∃ ok held, Cleaned m n ok held .suspendFailed .rollbackFailed (rollback resume n m) := by
  obtain ⟨ok, held, h', hf⟩ := resumeLoop_swept resume (fun _ thread => thread) n false
    (m.setFailed (m.state.threadId n))
  have h := swept_of_setFailed h'
  have hr : rollback resume n m = settle .suspendFailed .rollbackFailed
      (rollbackLoop resume n (m.setFailed (m.state.threadId n))).2 := by
    simp only [rollback, settle]
    split
    · rfl
    · next hz =>
      obtain ⟨i, hi, hk⟩ : ∃ i, m.state.owns i = true ∧ ok i = false := by
        by_contra hno
        push Not at hno
        exact hz ((swept_mask h hlt).mpr (fun i hi => by simpa using hno i hi))
      rw [rollbackLoop, if_pos (hf.mpr (Or.inr ⟨i, hlt i hi, hi, hk⟩))]
  rw [hr]
  exact ⟨ok, held, settle_cleaned _ _ h hlt⟩

/-- The successful suspends of `count` slots from `index` on. -/
def suspends (s : State) (index count : Nat) (held : Nat → State) : List Event :=
  (List.range' index count).map fun i => ⟨.suspend, s.threadId i, true, held i⟩

/-- Slots below `stop` are owned, and those from `index` on were suspended here. -/
structure Suspended (m : Machine ω) (index stop : Nat) (held : Nat → State) (r : Machine ω) :
    Prop where
  same : SameTransaction r.state m.state
  owns : ∀ i, r.state.owns i = decide (i < stop)
  log : r.log = m.log ++ suspends m.state index (stop - index) held

/-- A suspend that fails leaves exactly the slots before it owned. -/
theorem Suspended.issued_owns {m r : Machine ω} {index stop : Nat} {held : Nat → State}
    (h : Suspended m index stop held r) (suspend : ThreadOperation ω) (i : Nat) :
    (r.issue .suspend suspend stop).2.state.owns i = true ↔ i < stop := by
  rw [Machine.issue_state, h.owns, decide_eq_true_iff]

/-- The ascending loop suspends up to the end or to the first failure, where it
hands over to rollback. -/
theorem suspendLoop_suspended (suspend resume : ThreadOperation ω) (remaining index : Nat)
    (m : Machine ω) (hfull : ∀ i, m.state.owns i = decide (i < index))
    (hmax : index + remaining ≤ maxThreads) :
    ∃ stop held mid, index ≤ stop ∧ stop ≤ index + remaining ∧ Suspended m index stop held mid ∧
      ((stop = index + remaining ∧
          suspendLoop suspend resume remaining index m = (.ok, mid.setFailed 0)) ∨
        (stop < index + remaining ∧ (mid.issue .suspend suspend stop).1 = false ∧
          suspendLoop suspend resume remaining index m =
            rollback resume stop (mid.issue .suspend suspend stop).2)) := by
  induction remaining generalizing index m with
  | zero =>
    refine ⟨index, fun _ => m.state, m, by omega, by omega, ⟨.refl _, hfull, ?_⟩, Or.inl ⟨rfl, rfl⟩⟩
    simp [suspends]
  | succ remaining ih =>
    cases hb : (m.issue .suspend suspend index).1 with
    | false =>
      refine ⟨index, fun _ => m.state, m, by omega, by omega, ⟨.refl _, hfull, ?_⟩,
        Or.inr ⟨by omega, hb, ?_⟩⟩
      · simp [suspends]
      · simp [suspendLoop, hb]
    | true =>
      have hnext : ∀ i, ((m.issue .suspend suspend index).2.own index).state.owns i =
          decide (i < index + 1) := by
        intro i
        rw [own_owns _ _ _ (by omega), Machine.issue_state, hfull]
        by_cases h : i = index
        · simp [h]
        · have hlt : i < index + 1 ↔ i < index := by omega
          simp [h, hlt]
      have hstep : suspendLoop suspend resume (remaining + 1) index m =
          suspendLoop suspend resume remaining (index + 1)
            ((m.issue .suspend suspend index).2.own index) := by
        simp [suspendLoop, hb]
      obtain ⟨stop, held, mid, hle, hge, h, hout⟩ := ih (index + 1) _ hnext (by omega)
      have hsame : SameTransaction ((m.issue .suspend suspend index).2.own index).state m.state :=
        same_own (m.issue .suspend suspend index).2 index
      refine ⟨stop, Function.update held index m.state, mid, by omega, by omega,
        ⟨h.same.trans hsame, h.owns, ?_⟩, ?_⟩
      · have hrange : stop - index = (stop - (index + 1)) + 1 := by omega
        have htail : suspends ((m.issue .suspend suspend index).2.own index).state (index + 1)
            (stop - (index + 1)) held = suspends m.state (index + 1) (stop - (index + 1))
              (Function.update held index m.state) := by
          apply List.map_congr_left
          intro i hi
          have hlt := (List.mem_range'_1.mp hi).1
          rw [hsame.threadId, Function.update_of_ne (by omega)]
        rw [h.log, htail, hrange, suspends, suspends, List.range'_succ, List.map_cons]
        simp [hb]
      · rw [hstep]
        rcases hout with ⟨he, hr⟩ | ⟨hlt, hf, hr⟩
        · exact Or.inl ⟨by omega, hr⟩
        · exact Or.inr ⟨by omega, hf, hr⟩

end VitaCheat.Pause
