import VitaCheat.PauseLoops

/-!
# What one pause call can do

Every call falls under one of six cases: it is rejected and changes nothing, it
starts a transaction, it resumes what is owned (end, or a tick outside the
window), it is a tick inside the window, or it abandons. From these cases come
the representation invariant and the callbacks each call issues.
-/
namespace VitaCheat.Pause

variable {ω : Type}

/-- The statuses with which a call refuses to do anything. -/
def Status.rejects : Status → Bool
  | .invalidArgument | .invalidThreads | .alreadyActive | .notActive | .staleTarget => true
  | _ => false

/-- What begin demands of its arguments. -/
structure ValidBegin (targetGeneration nowMs maxPauseMs : U64) (ids : Nat → ThreadId)
    (threadCount : Nat) : Prop where
  generation : targetGeneration ≠ 0#64
  duration_pos : 0 < maxPauseMs.toNat
  duration_le : maxPauseMs.toNat ≤ 600000
  no_wrap : nowMs.toNat + maxPauseMs.toNat < 2 ^ 64
  count_pos : 0 < threadCount
  count_le : threadCount ≤ maxThreads
  positive : ∀ i, i < threadCount → 0 < ids i
  increasing : ∀ i, i + 1 < threadCount → ids i < ids (i + 1)

/-- The tick window: a tick inside it does nothing. -/
def State.inWindow (s : State) (nowMs : U64) : Bool := nowMs ≥ s.startedMs && nowMs < s.deadlineMs

/-- A tick reports a complete clean-up as expiry. -/
def expiry (status : Status) : Status := if status = .ok then .expired else status

inductive Step (m : Machine ω) : Call ω → Status × Machine ω → Prop where
  | rejected (c : Call ω) (status : Status) (h : status.rejects = true) : Step m c (status, m)
  | began (suspend resume : ThreadOperation ω) (generation now duration : U64)
      (ids : Nat → ThreadId) (count : Nat) (hvalid : ValidBegin generation now duration ids count)
      (hactive : m.state.active = false) (hmask : m.state.ownedMask = 0) :
      Step m
        (.pauseBegin true generation now duration (some ids) count (some ⟨some suspend, some resume⟩))
        (suspendLoop suspend resume count 0 (m.set (armed generation now duration ids count)))
  | ended (suspend : Option (ThreadOperation ω)) (resume : ThreadOperation ω) (generation : U64)
      (hactive : m.state.active = true) (hgen : m.state.targetGeneration = generation) :
      Step m (.pauseEnd true generation (some ⟨suspend, some resume⟩)) (resumeOwned resume m)
  | idled (suspend : Option (ThreadOperation ω)) (resume : ThreadOperation ω) (generation now : U64)
      (hactive : m.state.active = true) (hgen : m.state.targetGeneration = generation)
      (hin : m.state.inWindow now = true) :
      Step m (.pauseTick true generation now (some ⟨suspend, some resume⟩)) (.ok, m)
  | expired (suspend : Option (ThreadOperation ω)) (resume : ThreadOperation ω)
      (generation now : U64) (hactive : m.state.active = true)
      (hgen : m.state.targetGeneration = generation) (hout : m.state.inWindow now = false) :
      Step m (.pauseTick true generation now (some ⟨suspend, some resume⟩))
        (expiry (resumeOwned resume m).1, (resumeOwned resume m).2)
  | abandoned (generation : U64) (hactive : m.state.active = true)
      (hgen : m.state.targetGeneration = generation) :
      Step m (.pauseAbandon true generation) (.ok, m.clear)

theorem validateThreads_iff {ids : Nat → ThreadId} {count : Nat} :
    vcPauseValidateThreads (some ids) count = .ok ↔
      0 < count ∧ count ≤ maxThreads ∧ (∀ i, i < count → 0 < ids i) ∧
        ∀ i, i + 1 < count → ids i < ids (i + 1) := by
  simp only [vcPauseValidateThreads]
  split
  · next hcount =>
    constructor
    · intro h
      cases h
    · rintro ⟨hpos, hle, -⟩
      omega
  · next hcount =>
    split
    · next hany =>
      simp only [List.any_eq_true, List.mem_range, Bool.or_eq_true, decide_eq_true_eq,
        Bool.and_eq_true, bne_iff_ne, ne_eq] at hany
      obtain ⟨i, hi, hbad⟩ := hany
      constructor
      · intro h
        cases h
      · rintro ⟨-, -, hids, hinc⟩
        rcases hbad with hbad | ⟨hne, hbad⟩
        · exact absurd (hids i hi) (Int.not_lt.mpr hbad)
        · have hstep := hinc (i - 1) (by omega)
          rw [Nat.sub_add_cancel (Nat.pos_of_ne_zero hne)] at hstep
          exact absurd hstep (Int.not_lt.mpr hbad)
    · next hany =>
      simp only [List.any_eq_true, List.mem_range, Bool.or_eq_true, decide_eq_true_eq,
        Bool.and_eq_true, bne_iff_ne, ne_eq, not_exists, not_and, not_or] at hany
      refine iff_of_true rfl ⟨by omega, by omega, ?_, ?_⟩
      · intro i hi
        exact Int.not_le.mp (hany i hi).1
      · intro i hi
        have := (hany (i + 1) hi).2 (by omega)
        simpa using this

theorem validateThreads_cases (threadIds : Option (Nat → ThreadId)) (count : Nat) :
    vcPauseValidateThreads threadIds count = .ok ∨
      vcPauseValidateThreads threadIds count = .invalidThreads := by
  unfold vcPauseValidateThreads
  cases threadIds with
  | none => exact Or.inr rfl
  | some ids =>
    dsimp only
    split
    · exact Or.inr rfl
    · split
      · exact Or.inr rfl
      · exact Or.inl rfl

theorem maxDurationMs_toNat : maxDurationMs.toNat = 600000 := rfl

/-- The guard of begin on the deadline excludes 64-bit wrap-around. -/
theorem no_wrap_iff {now duration : U64} :
    now > BitVec.allOnes 64 - duration ↔ ¬now.toNat + duration.toNat < 2 ^ 64 := by
  rw [BitVec.allOnes_sub_eq_not, gt_iff_lt, BitVec.lt_def, BitVec.toNat_not]
  have := duration.isLt
  omega

/-- The first checks of begin, said of numbers. -/
theorem beginArguments_iff {given : Bool} {generation now duration : U64} :
    (!given || generation == 0 || duration == 0 || duration > maxDurationMs ||
        now > BitVec.allOnes 64 - duration) = false ↔
      given = true ∧ generation ≠ 0 ∧ 0 < duration.toNat ∧ duration.toNat ≤ 600000 ∧
        now.toNat + duration.toNat < 2 ^ 64 := by
  have hzero : duration ≠ 0 ↔ 0 < duration.toNat :=
    (BitVec.pos_iff_ne_zero duration).symm.trans (BitVec.toNat_pos duration).symm
  have hmax : decide (duration > maxDurationMs) = false ↔ duration.toNat ≤ 600000 := by
    rw [decide_eq_false_iff_not, gt_iff_lt, BitVec.lt_def, maxDurationMs_toNat, Nat.not_lt]
  have hwrap : decide (now > BitVec.allOnes 64 - duration) = false ↔
      now.toNat + duration.toNat < 2 ^ 64 := by
    rw [decide_eq_false_iff_not, no_wrap_iff, not_not]
  simp only [Bool.or_eq_false_iff, Bool.not_eq_false', beq_eq_false_iff_ne, hzero, hmax, hwrap,
    and_assoc]

theorem begin_step (m : Machine ω) (given : Bool) (generation now duration : U64)
    (threadIds : Option (Nat → ThreadId)) (count : Nat) (operations : Option (Operations ω)) :
    Step m (.pauseBegin given generation now duration threadIds count operations)
      (vcPauseBegin given generation now duration threadIds count operations m) := by
  unfold vcPauseBegin
  split
  · next suspend resume =>
    split
    · exact .rejected _ _ rfl
    · next hargs =>
      obtain ⟨hgiven, hgen, hdur, hmax, hwrap⟩ :=
        beginArguments_iff.mp (Bool.eq_false_iff.mpr hargs)
      split
      · exact .rejected _ _ rfl
      · next hidle =>
        simp only [Bool.or_eq_true, bne_iff_ne, ne_eq, not_or, Bool.not_eq_true, not_not] at hidle
        rcases validateThreads_cases threadIds count with hok | hbad
        · cases threadIds with
          | none => simp [vcPauseValidateThreads] at hok
          | some ids =>
            obtain ⟨hpos, hle, hids, hinc⟩ := validateThreads_iff.mp hok
            subst hgiven
            simp only [hok]
            exact .began suspend resume generation now duration ids count
              ⟨hgen, hdur, hmax, hwrap, hpos, hle, hids, hinc⟩ hidle.1 hidle.2
        · simp only [hbad]
          exact .rejected _ _ rfl
  · exact .rejected _ _ rfl

/-- A begin that is in order sets up its transaction and runs the suspend loop. -/
theorem begin_valid {m : Machine ω} (hactive : m.state.active = false)
    (hmask : m.state.ownedMask = 0) {generation now duration : U64} {ids : Nat → ThreadId}
    {count : Nat} (hv : ValidBegin generation now duration ids count)
    (suspend resume : ThreadOperation ω) :
    vcPauseBegin true generation now duration (some ids) count (some ⟨some suspend, some resume⟩) m =
      suspendLoop suspend resume count 0 (m.set (armed generation now duration ids count)) := by
  have hargs := beginArguments_iff.mpr
    ⟨rfl, hv.generation, hv.duration_pos, hv.duration_le, hv.no_wrap⟩
  have hidle : (m.state.active || m.state.ownedMask != 0) = false := by
    rw [hactive, hmask]
    rfl
  have hthreads : vcPauseValidateThreads (some ids) count = .ok :=
    validateThreads_iff.mpr ⟨hv.count_pos, hv.count_le, hv.positive, hv.increasing⟩
  simp only [vcPauseBegin, hargs, hidle, hthreads, Bool.false_eq_true, if_false]

/-- The checks that end, tick and abandon share. -/
theorem guard_cases {given : Bool} {generation : U64} {s : State}
    (hargs : ¬ (!given || generation == 0) = true) (hactive : ¬ (!s.active) = true)
    (hstale : ¬ (s.targetGeneration != generation) = true) :
    given = true ∧ s.active = true ∧ s.targetGeneration = generation := by
  simp only [Bool.or_eq_true, Bool.not_eq_true', not_or, Bool.not_eq_false] at hargs hactive
  exact ⟨hargs.1, hactive, by simpa using hstale⟩

theorem end_step (m : Machine ω) (given : Bool) (generation : U64)
    (operations : Option (Operations ω)) :
    Step m (.pauseEnd given generation operations) (vcPauseEnd given generation operations m) := by
  unfold vcPauseEnd
  split
  · next suspend resume =>
    split
    · exact .rejected _ _ rfl
    · next hargs =>
      split
      · exact .rejected _ _ rfl
      · next hactive =>
        split
        · exact .rejected _ _ rfl
        · next hstale =>
          obtain ⟨rfl, ha, hg⟩ := guard_cases hargs hactive hstale
          exact .ended suspend resume generation ha hg
  · exact .rejected _ _ rfl

theorem tick_step (m : Machine ω) (given : Bool) (generation now : U64)
    (operations : Option (Operations ω)) :
    Step m (.pauseTick given generation now operations)
      (vcPauseTick given generation now operations m) := by
  unfold vcPauseTick
  split
  · next suspend resume =>
    split
    · exact .rejected _ _ rfl
    · next hargs =>
      split
      · exact .rejected _ _ rfl
      · next hactive =>
        split
        · exact .rejected _ _ rfl
        · next hstale =>
          obtain ⟨rfl, ha, hg⟩ := guard_cases hargs hactive hstale
          split
          · next hin => exact .idled suspend resume generation now ha hg hin
          · next hout =>
            -- the nested end repeats the same checks, so it runs the resume loop
            have hend : vcPauseEnd true generation (some ⟨suspend, some resume⟩) m =
                resumeOwned resume m := by
              simp only [vcPauseEnd, if_neg hargs, if_neg hactive, if_neg hstale]
            simp only [hend]
            exact .expired suspend resume generation now ha hg (Bool.eq_false_iff.mpr hout)
  · exact .rejected _ _ rfl

theorem abandon_step (m : Machine ω) (given : Bool) (generation : U64) :
    Step m (.pauseAbandon given generation) (vcPauseAbandon given generation m) := by
  unfold vcPauseAbandon
  split
  · exact .rejected _ _ rfl
  · next hargs =>
    split
    · exact .rejected _ _ rfl
    · next hactive =>
      split
      · exact .rejected _ _ rfl
      · next hstale =>
        obtain ⟨rfl, ha, hg⟩ := guard_cases hargs hactive hstale
        exact .abandoned generation ha hg

theorem issued_eq {α : Type} {e : Trace.Entry (Machine ω) α Status} {events : List Event}
    (h : e.after.log = e.before.log ++ events) : issued e = events := by
  rw [issued, h, List.drop_left]

theorem call_step (m : Machine ω) (c : Call ω) : Step m c (call m c) := by
  cases c with
  | pauseBegin given generation now duration ids count operations =>
    exact begin_step m given generation now duration ids count operations
  | pauseEnd given generation operations => exact end_step m given generation operations
  | pauseTick given generation now operations => exact tick_step m given generation now operations
  | pauseAbandon given generation => exact abandon_step m given generation

end VitaCheat.Pause
