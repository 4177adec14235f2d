import VitaCheat.PauseInvariant

/-!
# The thread that a failed clean-up names

Rollback records the last failed resume and end the first one. Under either rule
the loop ends with the starting value and nothing owned, or with the thread of a
slot that is still owned. With this the invariant covers every field.
-/
namespace VitaCheat.Pause

variable {ω : Type}

/-- After the slots from `n` on have been passed: nothing was kept and the
recorded thread is the starting one, or it is the thread of a kept slot. -/
def Blames (start : ThreadId) (n : Nat) (s : State) : Prop :=
  (s.failedThreadId = start ∧ ∀ i, n ≤ i → s.owns i = false) ∨
    ∃ i, n ≤ i ∧ s.owns i = true ∧ s.threadId i = s.failedThreadId

/-- A slot still owned holds the recorded thread. -/
def State.Named (s : State) : Prop := ∃ i, s.owns i = true ∧ s.threadId i = s.failedThreadId

theorem blames_free {start : ThreadId} {n : Nat} {s : State} (h : Blames start (n + 1) s)
    (hn : s.owns n = false) : Blames start n s := by
  rcases h with ⟨hstart, hfree⟩ | ⟨i, hi, hown, hid⟩
  · refine Or.inl ⟨hstart, ?_⟩
    intro i hi
    rcases Nat.eq_or_lt_of_le hi with rfl | hlt
    · exact hn
    · exact hfree i hlt
  · exact Or.inr ⟨i, Nat.le_of_succ_le hi, hown, hid⟩

theorem blames_released {start : ThreadId} {n : Nat} {m : Machine ω}
    (h : Blames start (n + 1) m.state) : Blames start n (m.release n).state := by
  apply blames_free
  · rcases h with ⟨hstart, hfree⟩ | ⟨i, hi, hown, hid⟩
    · refine Or.inl ⟨hstart, ?_⟩
      intro i hi
      rw [release_owns, hfree i hi, Bool.false_and]
    · refine Or.inr ⟨i, hi, ?_, hid⟩
      rw [release_owns, hown]
      simp only [Bool.true_and, decide_eq_true_eq]
      omega
  · simp

/-- A rule that keeps the record or takes the failed thread, and always takes
the first failure, names a kept slot. -/
theorem blames_kept {start : ThreadId} {note : ThreadId → ThreadId → ThreadId}
    (hfirst : ∀ t, note start t = t) (hnote : ∀ old t, note old t = old ∨ note old t = t)
    {n : Nat} {m : Machine ω} (h : Blames start (n + 1) m.state) (hn : m.state.owns n = true) :
    Blames start n (m.setFailed (note m.state.failedThreadId (m.state.threadId n))).state := by
  have hnew : note m.state.failedThreadId (m.state.threadId n) = m.state.threadId n →
      Blames start n (m.setFailed (note m.state.failedThreadId (m.state.threadId n))).state :=
    fun hid => Or.inr ⟨n, Nat.le_refl n, hn, hid.symm⟩
  rcases h with ⟨hstart, -⟩ | ⟨i, hi, hown, hid⟩
  · exact hnew (by rw [hstart, hfirst])
  · rcases hnote m.state.failedThreadId (m.state.threadId n) with hold | htaken
    · exact Or.inr ⟨i, Nat.le_of_succ_le hi, hown, hid.trans hold.symm⟩
    · exact hnew htaken

theorem resumeLoop_blames (resume : ThreadOperation ω) (start : ThreadId)
    (note : ThreadId → ThreadId → ThreadId) (hfirst : ∀ t, note start t = t)
    (hnote : ∀ old t, note old t = old ∨ note old t = t) (n : Nat) (failed : Bool)
    (m : Machine ω) (h : Blames start n m.state) :
    Blames start 0 (resumeLoop resume note n failed m).2.state := by
  induction n generalizing failed m with
  | zero => exact h
  | succ n ih =>
    cases hn : m.state.owns n with
    | false =>
      rw [resumeLoop_free failed hn]
      exact ih failed m (blames_free h hn)
    | true =>
      cases hb : (m.issue .resume resume n).1 with
      | true =>
        rw [resumeLoop_released failed hn hb]
        exact ih failed _ (blames_released h)
      | false =>
        rw [resumeLoop_kept failed hn hb]
        exact ih true _ (blames_kept hfirst hnote (m := (m.issue .resume resume n).2) h hn)

theorem blames_named {start : ThreadId} {s : State} (h : Blames start 0 s)
    (hmask : s.ownedMask ≠ 0) : s.Named := by
  rcases h with ⟨-, hfree⟩ | ⟨i, -, hown, hid⟩
  · exact absurd ((BitSet.eq_zero_iff s.ownedMask).mpr fun i => hfree i (Nat.zero_le i)) hmask
  · exact ⟨i, hown, hid⟩

theorem blames_start {n : Nat} {s : State} (hlt : ∀ i, s.owns i = true → i < n) (t : ThreadId) :
    Blames t n { s with failedThreadId := t } := by
  refine Or.inl ⟨rfl, ?_⟩
  intro i hi
  cases hown : s.owns i with
  | false => exact hown
  | true => exact absurd (hlt i hown) (Nat.not_lt.mpr hi)

theorem resumeOwned_named (resume : ThreadOperation ω) (m : Machine ω)
    (hlt : ∀ i, m.state.owns i = true → i < m.state.threadCount)
    (hmask : (resumeOwned resume m).2.state.ownedMask ≠ 0) :
    (resumeOwned resume m).2.state.Named := by
  have hblames := resumeLoop_blames resume 0
    (fun old thread => if old = 0 then thread else old) (fun t => if_pos rfl)
    (fun old t => by by_cases h : old = 0 <;> simp [h]) m.state.threadCount false (m.setFailed 0)
    (blames_start hlt 0)
  rw [resumeOwned] at hmask ⊢
  by_cases hkept : (endLoop resume m.state.threadCount (m.setFailed 0)).state.ownedMask = 0
  · rw [if_neg (not_not.mpr hkept)] at hmask
    exact absurd rfl hmask
  · rw [if_pos hkept]
    exact blames_named hblames hkept

theorem rollback_named (resume : ThreadOperation ω) (n : Nat) (m : Machine ω)
    (hlt : ∀ i, m.state.owns i = true → i < n)
    (hmask : (rollback resume n m).2.state.ownedMask ≠ 0) :
    (rollback resume n m).2.state.Named := by
  have hblames := resumeLoop_blames resume (m.state.threadId n)
    (fun _ thread => thread) (fun _ => rfl) (fun _ _ => Or.inr rfl) n false
    (m.setFailed (m.state.threadId n)) (blames_start hlt _)
  rw [rollback] at hmask ⊢
  by_cases hkept :
      (rollbackLoop resume n (m.setFailed (m.state.threadId n))).2.state.ownedMask = 0
  · rw [if_pos hkept] at hmask
    exact absurd rfl hmask
  · rw [if_neg hkept]
    exact blames_named hblames hkept

/-- Begin succeeds, or whatever its rollback keeps is named. -/
theorem suspendLoop_named (suspend resume : ThreadOperation ω) (remaining index : Nat)
    (m : Machine ω) (hfull : ∀ i, m.state.owns i = decide (i < index))
    (hmax : index + remaining ≤ maxThreads) :
    (suspendLoop suspend resume remaining index m).1 = .ok ∨
      ((suspendLoop suspend resume remaining index m).2.state.ownedMask ≠ 0 →
        (suspendLoop suspend resume remaining index m).2.state.Named) := by
  obtain ⟨stop, held, mid, -, -, hs, hout⟩ :=
    suspendLoop_suspended suspend resume remaining index m hfull hmax
  rcases hout with ⟨-, hr⟩ | ⟨-, -, hr⟩
  · exact Or.inl (by rw [hr])
  · refine Or.inr ?_
    rw [hr]
    apply rollback_named
    intro i hi
    rw [Machine.issue_state, hs.owns] at hi
    exact of_decide_eq_true hi

/-- A transaction in progress, with every field accounted for. -/
structure Represented (s : State) : Prop extends Armed s where
  slots : s.threadIds.length = maxThreads
  owned : s.ownedMask ≠ 0
  failed : (s.failedThreadId = 0 ∧ ∀ i, i < s.threadCount → s.owns i = true) ∨ s.Named

/-- All zero, or a transaction in progress. -/
def Represents (s : State) : Prop := s = cleared ∨ Represented s

theorem Represents.armed {s : State} (h : Represents s) (ha : s.active = true) : Represented s := by
  rcases h with hc | hr
  · rw [hc] at ha
    cases ha
  · exact hr

theorem armed_slots {generation now duration : U64} {ids : Nat → ThreadId} {count : Nat}
    (h : count ≤ maxThreads) :
    (armed generation now duration ids count).threadIds.length = maxThreads := by
  simp only [armed, List.length_append, List.length_map, List.length_range, List.length_replicate]
  omega

/-- A clean-up that keeps something names what it kept. -/
theorem Cleaned.represents {m : Machine ω} {n : Nat} {ok : Nat → Bool} {held : Nat → State}
    {done failed : Status} {r : Status × Machine ω} (h : Cleaned m n ok held done failed r)
    (ha : Armed m.state) (hslots : m.state.threadIds.length = maxThreads)
    (hnamed : r.2.state.ownedMask ≠ 0 → r.2.state.Named) : Represents r.2.state := by
  rcases h.outcome with ⟨-, hc, -⟩ | ⟨-, hs, hz, ho⟩
  · exact Or.inl hc
  · have harmed : Armed r.2.state := by
      apply ha.of_same hs
      intro i hi
      rw [ho, Bool.and_eq_true] at hi
      exact ha.owned_lt i hi.1
    exact Or.inr ⟨harmed, by rw [hs.threadIds]; exact hslots, hz, Or.inr (hnamed hz)⟩

/-- A begin that suspends everything owns every slot and blames nobody. -/
theorem began_represents {m mid : Machine ω} {generation now duration : U64}
    {ids : Nat → ThreadId} {count : Nat} {held : Nat → State}
    (hv : ValidBegin generation now duration ids count)
    (hs : Suspended (m.set (armed generation now duration ids count)) 0 count held mid) :
    Represented (mid.setFailed 0).state := by
  have harmed := hs.isArmed hv (Nat.le_refl count)
  have hcount : mid.state.threadCount = count := hs.same.threadCount
  have hown : ∀ i, i < count → mid.state.owns i = true := by
    intro i hi
    rw [hs.owns]
    exact decide_eq_true hi
  refine ⟨harmed.of_same (same_setFailed mid 0) harmed.owned_lt, ?_, ?_, Or.inl ⟨rfl, ?_⟩⟩
  · exact (congrArg List.length hs.same.threadIds).trans (armed_slots hv.count_le)
  · exact mask_ne_zero (hown 0 hv.count_pos)
  · intro i hi
    exact hown i (hcount ▸ hi)

theorem call_represents (m : Machine ω) (c : Call ω) (h : Represents m.state) :
    Represents (call m c).2.state := by
  have hstep := call_step m c
  have harmed : m.state.active = true → Represented m.state := h.armed
  generalize call m c = r at hstep
  cases hstep with
  | rejected _ status hr => exact h
  | began suspend resume generation now duration ids count hv hactive hmask =>
    obtain ⟨stop, held, mid, hle, hs, hout⟩ := began_cases suspend resume m hv
    rcases hout with ⟨rfl, hr⟩ | ⟨hlt, hfailed, ok, held', hc⟩
    · rw [hr]
      exact Or.inr (began_represents hv hs)
    · have harm := hs.isArmed hv hle
      have hslots : mid.state.threadIds.length = maxThreads :=
        (congrArg List.length hs.same.threadIds).trans (armed_slots hv.count_le)
      refine hc.represents (m := (mid.issue .suspend suspend stop).2) harm hslots ?_
      have hnamed := suspendLoop_named suspend resume count 0
        (m.set (armed generation now duration ids count))
        (fun i => by rw [Machine.set_state, armed_owns]; simp) (by have := hv.count_le; omega)
      rcases hnamed with hok | hnamed
      · rcases hc.outcome with ⟨hst, -⟩ | ⟨hst, -⟩
        · rw [hst] at hok
          cases hok
        · rw [hst] at hok
          cases hok
      · exact hnamed
  | ended suspend resume generation hactive hgen =>
    have hr := harmed hactive
    obtain ⟨ok, held, hc⟩ := resumeOwned_cleaned resume m hr.owned_lt
    exact hc.represents hr.toArmed hr.slots (resumeOwned_named resume m hr.owned_lt)
  | idled suspend resume generation now hactive hgen hin => exact h
  | expired suspend resume generation now hactive hgen hout =>
    have hr := harmed hactive
    obtain ⟨ok, held, hc⟩ := resumeOwned_cleaned resume m hr.owned_lt
    exact hc.represents hr.toArmed hr.slots (resumeOwned_named resume m hr.owned_lt)
  | abandoned generation hactive hgen => exact Or.inl rfl

/-- A begin that reports a failed suspend has handed everything back. -/
theorem begin_suspendFailed (m : Machine ω) (given : Bool) (generation now duration : U64)
    (threadIds : Option (Nat → ThreadId)) (count : Nat) (operations : Option (Operations ω))
    (h : (vcPauseBegin given generation now duration threadIds count operations m).1 =
      .suspendFailed) :
    (vcPauseBegin given generation now duration threadIds count operations m).2.state =
      cleared := by
  have hstep := begin_step m given generation now duration threadIds count operations
  generalize vcPauseBegin given generation now duration threadIds count operations m = r
    at hstep h
  cases hstep with
  | rejected _ status hr =>
    have hst : status = .suspendFailed := h
    rw [hst] at hr
    cases hr
  | began suspend resume _ _ _ ids _ hv hactive hmask =>
    obtain ⟨stop, held, mid, -, -, hout⟩ := began_cases suspend resume m hv
    rcases hout with ⟨-, hr⟩ | ⟨-, -, ok, held', hc⟩
    · rw [hr] at h
      cases h
    · rcases hc.outcome with ⟨-, hcleared, -⟩ | ⟨hst, -⟩
      · exact hcleared
      · rw [hst] at h
        cases h

/-- After any calls with any arguments and outcomes the state is all zero or a
transaction in progress, and no begin fails with ownership retained. -/
theorem pause_representation (world : ω) (calls : List (Call ω)) :
    Represents (Trace.final call (vcPauseStateInit world) calls).state ∧
      ∀ given generation now duration threadIds count operations,
        (vcPauseBegin given generation now duration threadIds count operations
            (Trace.final call (vcPauseStateInit world) calls)).1 = .suspendFailed →
          (vcPauseBegin given generation now duration threadIds count operations
            (Trace.final call (vcPauseStateInit world) calls)).2.state = cleared :=
  ⟨Trace.invariant call (fun m => Represents m.state) call_represents (Or.inl rfl) calls,
    fun _ _ _ _ _ _ _ h => begin_suspendFailed _ _ _ _ _ _ _ _ h⟩

end VitaCheat.Pause
