import VitaCheat.PauseSteps

/-!
# The representation invariant of the pause state

A reachable state is either all zero or an armed transaction that owns at least
one slot. The invariant is read off the six cases of a call.
-/
namespace VitaCheat.Pause

variable {ω : Type}

/-- A transaction in progress, as begin sets it up and cleanup keeps it. -/
structure Armed (s : State) : Prop where
  active : s.active = true
  generation : s.targetGeneration ≠ 0#64
  count_pos : 0 < s.threadCount
  count_le : s.threadCount ≤ maxThreads
  positive : ∀ i, i < s.threadCount → 0 < s.threadId i
  increasing : ∀ i j, i < j → j < s.threadCount → s.threadId i < s.threadId j
  padding : ∀ i, s.threadCount ≤ i → s.threadId i = 0
  owned_lt : ∀ i, s.owns i = true → i < s.threadCount
  started_lt : s.startedMs.toNat < s.deadlineMs.toNat
  deadline_le : s.deadlineMs.toNat ≤ s.startedMs.toNat + 600000

def Valid (s : State) : Prop := s = cleared ∨ (Armed s ∧ s.ownedMask ≠ 0)

/-- The state is active and the thread is in a slot whose owned bit is set. -/
def State.holds (s : State) (t : ThreadId) : Bool :=
  s.active && (List.range maxThreads).any fun j => s.owns j && s.threadId j == t

theorem holds_iff {s : State} {t : ThreadId} :
    s.holds t = true ↔ s.active = true ∧ ∃ j, s.owns j = true ∧ s.threadId j = t := by
  simp only [State.holds, Bool.and_eq_true, List.any_eq_true, List.mem_range, beq_iff_eq]
  refine and_congr_right fun _ => ⟨?_, ?_⟩
  · rintro ⟨j, -, hj⟩
    exact ⟨j, hj⟩
  · rintro ⟨j, hj, ht⟩
    exact ⟨j, BitSet.mem_lt_width hj, hj, ht⟩

@[simp] theorem cleared_holds (t : ThreadId) : cleared.holds t = false := rfl

theorem inactive_holds {s : State} (h : s.active = false) (t : ThreadId) : s.holds t = false := by
  simp [State.holds, h]

theorem Valid.armed {s : State} (h : Valid s) (ha : s.active = true) : Armed s := by
  rcases h with hc | ⟨hA, -⟩
  · rw [hc] at ha; cases ha
  · exact hA

theorem Armed.of_same {s t : State} (h : Armed t) (hs : SameTransaction s t)
    (ho : ∀ i, s.owns i = true → i < t.threadCount) : Armed s where
  active := hs.active.trans h.active
  generation := hs.targetGeneration ▸ h.generation
  count_pos := hs.threadCount ▸ h.count_pos
  count_le := hs.threadCount ▸ h.count_le
  positive := by
    intro i hi
    rw [hs.threadId]
    exact h.positive i (hs.threadCount ▸ hi)
  increasing := by
    intro i j hij hj
    rw [hs.threadId, hs.threadId]
    exact h.increasing i j hij (hs.threadCount ▸ hj)
  padding := by
    intro i hi
    rw [hs.threadId]
    exact h.padding i (hs.threadCount ▸ hi)
  owned_lt := by
    intro i hi
    rw [hs.threadCount]
    exact ho i hi
  started_lt := by rw [hs.startedMs, hs.deadlineMs]; exact h.started_lt
  deadline_le := by rw [hs.startedMs, hs.deadlineMs]; exact h.deadline_le

/-- Different slots of a transaction hold different threads. -/
theorem Armed.threadId_inj {s : State} (h : Armed s) {i j : Nat} (hi : i < s.threadCount)
    (hj : j < s.threadCount) (he : s.threadId i = s.threadId j) : i = j := by
  rcases Nat.lt_trichotomy i j with hlt | heq | hgt
  · exact absurd he (Int.ne_of_lt (h.increasing i j hlt hj))
  · exact heq
  · exact absurd he.symm (Int.ne_of_lt (h.increasing j i hgt hi))

theorem ids_increasing {ids : Nat → ThreadId} {count : Nat}
    (h : ∀ i, i + 1 < count → ids i < ids (i + 1)) (i j : Nat) (hij : i < j) (hj : j < count) :
    ids i < ids j := by
  induction j with
  | zero => omega
  | succ j ih =>
    have hstep := h j hj
    by_cases he : i = j
    · subst he; exact hstep
    · exact Int.lt_trans (ih (by omega) (by omega)) hstep

theorem armed_threadId_lt (generation now duration : U64) (ids : Nat → ThreadId) (count i : Nat)
    (hi : i < count) : (armed generation now duration ids count).threadId i = ids i := by
  simp [armed, State.threadId, List.getD, List.getElem?_append_left, hi]

theorem armed_threadId_ge (generation now duration : U64) (ids : Nat → ThreadId) (count i : Nat)
    (hi : count ≤ i) : (armed generation now duration ids count).threadId i = 0 := by
  simp only [armed, State.threadId, List.getD]
  rw [List.getElem?_append_right (by simpa using hi)]
  simp only [List.getElem?_replicate]
  split <;> rfl

theorem armed_owns (generation now duration : U64) (ids : Nat → ThreadId) (count i : Nat) :
    (armed generation now duration ids count).owns i = false := BitSet.mem_zero i

/-- The deadline sum does not wrap. -/
theorem armed_deadline {generation now duration : U64} {ids : Nat → ThreadId} {count : Nat}
    (h : ValidBegin generation now duration ids count) :
    (armed generation now duration ids count).deadlineMs.toNat = now.toNat + duration.toNat := by
  have := h.no_wrap
  simp only [armed, BitVec.toNat_add]
  omega

theorem armed_armed {generation now duration : U64} {ids : Nat → ThreadId} {count : Nat}
    (h : ValidBegin generation now duration ids count) :
    Armed (armed generation now duration ids count) where
  active := rfl
  generation := h.generation
  count_pos := h.count_pos
  count_le := h.count_le
  positive := by
    intro i hi
    have hi' : i < count := hi
    rw [armed_threadId_lt _ _ _ _ _ _ hi']
    exact h.positive i hi'
  increasing := by
    intro i j hij hj
    have hj' : j < count := hj
    rw [armed_threadId_lt _ _ _ _ _ _ (by omega), armed_threadId_lt _ _ _ _ _ _ hj']
    exact ids_increasing h.increasing i j hij hj'
  padding := fun i hi => armed_threadId_ge _ _ _ _ _ _ hi
  owned_lt := by
    intro i hi
    rw [armed_owns] at hi
    cases hi
  started_lt := by
    have := h.duration_pos
    rw [armed_deadline h]
    simp only [armed]
    omega
  deadline_le := by
    have := h.duration_le
    rw [armed_deadline h]
    simp only [armed]
    omega

/-- Cleanup keeps the transaction or clears the state. -/
theorem Cleaned.valid {m : Machine ω} {n : Nat} {ok : Nat → Bool} {held : Nat → State}
    {done failed : Status} {r : Status × Machine ω} (h : Cleaned m n ok held done failed r)
    (ha : Armed m.state) : Valid r.2.state := by
  rcases h.outcome with ⟨-, hc, -⟩ | ⟨-, hs, hz, ho⟩
  · exact Or.inl hc
  · refine Or.inr ⟨ha.of_same hs ?_, hz⟩
    intro i hi
    rw [ho, Bool.and_eq_true] at hi
    exact ha.owned_lt i hi.1

/-- Begin either suspends every thread, or stops at the first failed suspend
and cleans up the slots before it. -/
theorem began_cases (suspend resume : ThreadOperation ω) (m : Machine ω)
    {generation now duration : U64} {ids : Nat → ThreadId} {count : Nat}
    (hv : ValidBegin generation now duration ids count) :
    ∃ stop held mid, stop ≤ count ∧
      Suspended (m.set (armed generation now duration ids count)) 0 stop held mid ∧
      ((stop = count ∧ suspendLoop suspend resume count 0
          (m.set (armed generation now duration ids count)) = (.ok, mid.setFailed 0)) ∨
        (stop < count ∧ (mid.issue .suspend suspend stop).1 = false ∧ ∃ ok held',
          Cleaned (mid.issue .suspend suspend stop).2 stop ok held' .suspendFailed .rollbackFailed
            (suspendLoop suspend resume count 0
              (m.set (armed generation now duration ids count))))) := by
  have hfull : ∀ i, (m.set (armed generation now duration ids count)).state.owns i =
      decide (i < 0) := by
    intro i
    rw [Machine.set_state, armed_owns]
    simp
  obtain ⟨stop, held, mid, -, hle, h, hout⟩ := suspendLoop_suspended suspend resume count 0
    (m.set (armed generation now duration ids count)) hfull (by have := hv.count_le; omega)
  refine ⟨stop, held, mid, by omega, h, ?_⟩
  rcases hout with ⟨he, hr⟩ | ⟨hlt, hf, hr⟩
  · exact Or.inl ⟨by omega, hr⟩
  · obtain ⟨ok, held', hc⟩ := rollback_cleaned resume stop _ fun i => (h.issued_owns suspend i).mp
    exact Or.inr ⟨by omega, hf, ok, held', hr ▸ hc⟩

/-- A partly or fully suspended transaction is armed. -/
theorem Suspended.isArmed {m mid : Machine ω} {generation now duration : U64}
    {ids : Nat → ThreadId} {count stop : Nat} {held : Nat → State}
    (h : Suspended (m.set (armed generation now duration ids count)) 0 stop held mid)
    (hv : ValidBegin generation now duration ids count) (hle : stop ≤ count) :
    Armed mid.state := by
  apply (armed_armed hv).of_same h.same
  intro i hi
  rw [h.owns] at hi
  have : i < stop := by simpa using hi
  exact Nat.lt_of_lt_of_le this hle

/-- Suspending at least one thread sets a bit of the mask. -/
theorem mask_ne_zero {s : State} {i : Nat} (h : s.owns i = true) : s.ownedMask ≠ 0 := by
  intro hz
  have := (BitSet.eq_zero_iff s.ownedMask).mp hz i
  rw [State.owns, this] at h
  cases h

theorem call_valid (m : Machine ω) (c : Call ω) (h : Valid m.state) :
    Valid (call m c).2.state := by
  have hstep := call_step m c
  have harmed : m.state.active = true → Armed m.state := h.armed
  generalize call m c = r at hstep
  cases hstep with
  | rejected _ status hr => exact h
  | began suspend resume generation now duration ids count hv hactive hmask =>
    obtain ⟨stop, held, mid, hle, hs, hout⟩ := began_cases suspend resume m hv
    rcases hout with ⟨he, hr⟩ | ⟨hlt, -, ok, held', hc⟩
    · rw [hr]
      have hown : mid.state.owns 0 = true := by
        rw [hs.owns]
        have := hv.count_pos
        simp [he, this]
      refine Or.inr ⟨(hs.isArmed hv hle).of_same (same_setFailed mid 0) ?_, mask_ne_zero hown⟩
      exact fun i hi => (hs.isArmed hv hle).owned_lt i hi
    · exact hc.valid (hs.isArmed hv hle)
  | ended suspend resume generation hactive hgen =>
    obtain ⟨ok, held, hc⟩ := resumeOwned_cleaned resume m (harmed hactive).owned_lt
    exact hc.valid (harmed hactive)
  | idled suspend resume generation now hactive hgen hin => exact h
  | expired suspend resume generation now hactive hgen hout =>
    obtain ⟨ok, held, hc⟩ := resumeOwned_cleaned resume m (harmed hactive).owned_lt
    exact hc.valid (harmed hactive)
  | abandoned generation hactive hgen => exact Or.inl rfl

theorem final_valid (world : ω) (calls : List (Call ω)) :
    Valid (Trace.final call (vcPauseStateInit world) calls).state :=
  Trace.invariant call (fun m => Valid m.state) call_valid (Or.inl rfl) calls

end VitaCheat.Pause
