import VitaCheat.PauseTraces

/-!
# The pause among other owners

A thread can be suspended by several owners at once; the kernel keeps one count for
it. The other owners act at any time, between the calls and during the callbacks. At
every moment the transaction accounts for exactly one count of every thread it owns
and for none of any other thread, so no resume ever takes away the suspension of
another owner, and none of its own is lost.
-/
namespace VitaCheat.Pause

variable {ω : Type}

/-- The suspend counts, the part of them that other owners hold, and whether a resume
was ever issued for a thread of which the pause holds nothing. -/
structure Kernel (ω : Type) where
  count : ω → ThreadId → Nat
  others : ω → ThreadId → Nat
  alarm : ω → Bool

/-- The part of a count that the pause holds. -/
def Kernel.own (k : Kernel ω) (w : ω) (t : ThreadId) : Int := k.count w t - k.others w t

/-- A suspend that succeeds acquires one count of its thread; one that fails, nothing. -/
structure Acquires (k : Kernel ω) (op : ThreadOperation ω) : Prop where
  succeeded : ∀ w t, (op w t).1 = 0 → ∀ u,
    k.own (op w t).2 u = k.own w u + if u = t then 1 else 0
  failed : ∀ w t, (op w t).1 ≠ 0 → ∀ u, k.own (op w t).2 u = k.own w u
  alarm : ∀ w t, k.alarm (op w t).2 = k.alarm w

/-- A resume that succeeds releases one count of its thread; one that fails, nothing. -/
structure Releases (k : Kernel ω) (op : ThreadOperation ω) : Prop where
  succeeded : ∀ w t, (op w t).1 = 0 → ∀ u,
    k.own (op w t).2 u = k.own w u - if u = t then 1 else 0
  failed : ∀ w t, (op w t).1 ≠ 0 → ∀ u, k.own (op w t).2 u = k.own w u
  alarm : ∀ w t, k.alarm (op w t).2 = (k.alarm w || decide (k.own w t < 1))

/-- The callbacks of a call keep the contract. -/
structure Operations.Lawful (k : Kernel ω) (o : Operations ω) : Prop where
  suspend : ∀ op ∈ o.suspendThread, Acquires k op
  resume : ∀ op ∈ o.resumeThread, Releases k op

def Call.operations : Call ω → Option (Operations ω)
  | .pauseBegin _ _ _ _ _ _ operations => operations
  | .pauseEnd _ _ operations => operations
  | .pauseTick _ _ _ operations => operations
  | .pauseAbandon _ _ => none

/-- A call, or a step of the other owners. -/
inductive Turn (ω : Type) where
  | call (c : Call ω)
  | others (act : ω → ω)

def Turn.Lawful (k : Kernel ω) : Turn ω → Prop
  | .call c => ∀ o ∈ c.operations, o.Lawful k
  | .others act => ∀ w, k.alarm (act w) = k.alarm w ∧ ∀ u, k.own (act w) u = k.own w u

def turn (m : Machine ω) : Turn ω → Option Status × Machine ω
  | .call c => (some (call m c).1, (call m c).2)
  | .others act => (none, { m with world := act m.world })

/-- The pause holds what its state says it owns, on top of a base, and no resume went
too far. -/
structure Backed (k : Kernel ω) (base : ThreadId → Int) (m : Machine ω) : Prop where
  own : ∀ t, k.own m.world t = base t + m.state.outstanding t
  quiet : k.alarm m.world = false

/-- Owning one more slot holds one more thread. -/
theorem outstanding_own {m : Machine ω} (ha : Armed m.state) {i : Nat}
    (hi : i < m.state.threadCount) (hfree : m.state.owns i = false) (t : ThreadId) :
    (m.own i).state.outstanding t =
      m.state.outstanding t + if t = m.state.threadId i then 1 else 0 := by
  have hmax : i < maxThreads := Nat.lt_of_lt_of_le hi ha.count_le
  have hsame := same_own m i
  have hown : (m.own i).state.holds t = true ↔
      m.state.holds t = true ∨ t = m.state.threadId i := by
    rw [holds_iff, holds_iff, hsame.active]
    constructor
    · rintro ⟨hactive, j, hj, rfl⟩
      rw [own_owns m i j hmax, Bool.or_eq_true, decide_eq_true_iff] at hj
      rcases hj with hj | rfl
      · exact .inl ⟨hactive, j, hj, (hsame.threadId j).symm⟩
      · exact .inr (hsame.threadId j)
    · rintro (⟨hactive, j, hj, rfl⟩ | rfl)
      · exact ⟨hactive, j, by rw [own_owns m i j hmax, hj]; rfl, hsame.threadId j⟩
      · exact ⟨ha.active, i, by rw [own_owns m i i hmax]; simp, hsame.threadId i⟩
  by_cases ht : t = m.state.threadId i
  · have hno : ¬m.state.holds t = true := by
      rw [holds_iff]
      rintro ⟨-, j, hj, hid⟩
      have hji : j = i := ha.threadId_inj (ha.owned_lt j hj) hi (hid.trans ht)
      rw [hji, hfree] at hj
      cases hj
    rw [State.outstanding, State.outstanding, if_pos (hown.mpr (.inr ht)), if_neg hno, if_pos ht]
    rfl
  · have hsame : (m.own i).state.holds t = true ↔ m.state.holds t = true := by
      rw [hown]
      simp [ht]
    rw [State.outstanding, State.outstanding, if_congr hsame rfl rfl, if_neg ht, Int.add_zero]

/-- Releasing a slot lets go of its thread. -/
theorem outstanding_release {m : Machine ω} (ha : Armed m.state) {i : Nat}
    (hi : m.state.owns i = true) (t : ThreadId) :
    (m.release i).state.outstanding t =
      m.state.outstanding t - if t = m.state.threadId i then 1 else 0 := by
  have hsame := same_release m i
  have hrel : (m.release i).state.holds t = true ↔
      m.state.holds t = true ∧ t ≠ m.state.threadId i := by
    rw [holds_iff, holds_iff, hsame.active]
    constructor
    · rintro ⟨hactive, j, hj, rfl⟩
      rw [release_owns, Bool.and_eq_true, decide_eq_true_iff] at hj
      refine ⟨⟨hactive, j, hj.1, (hsame.threadId j).symm⟩, ?_⟩
      intro hid
      rw [hsame.threadId] at hid
      exact hj.2 (ha.threadId_inj (ha.owned_lt j hj.1) (ha.owned_lt i hi) hid)
    · rintro ⟨⟨hactive, j, hj, rfl⟩, hne⟩
      have hji : j ≠ i := fun h => hne (congrArg m.state.threadId h)
      exact ⟨hactive, j, by rw [release_owns, hj]; simp [hji], hsame.threadId j⟩
  by_cases ht : t = m.state.threadId i
  · have hyes : m.state.holds t = true := holds_iff.mpr ⟨ha.active, i, hi, ht.symm⟩
    rw [State.outstanding, State.outstanding, if_neg (fun h => (hrel.mp h).2 ht), if_pos hyes,
      if_pos ht]
    rfl
  · have hsame : (m.release i).state.holds t = true ↔ m.state.holds t = true := by
      rw [hrel]
      simp [ht]
    rw [State.outstanding, State.outstanding, if_congr hsame rfl rfl, if_neg ht, Int.sub_zero]

theorem armed_release {m : Machine ω} (ha : Armed m.state) (i : Nat) :
    Armed (m.release i).state := by
  apply ha.of_same (same_release m i)
  intro j hj
  rw [release_owns, Bool.and_eq_true] at hj
  exact ha.owned_lt j hj.1

theorem armed_own {m : Machine ω} (ha : Armed m.state) {i : Nat}
    (hi : i < m.state.threadCount) : Armed (m.own i).state := by
  apply ha.of_same (same_own m i)
  intro j hj
  rw [own_owns m i j (Nat.lt_of_lt_of_le hi ha.count_le), Bool.or_eq_true,
    decide_eq_true_iff] at hj
  rcases hj with hj | rfl
  · exact ha.owned_lt j hj
  · exact hi

/-- A state that owns no slot holds nothing. -/
theorem outstanding_free {s : State} (h : ∀ i, s.owns i = false) (t : ThreadId) :
    s.outstanding t = 0 := by
  refine if_neg fun ht => ?_
  obtain ⟨-, i, hi, -⟩ := holds_iff.mp ht
  rw [h i] at hi
  cases hi

section Loops

variable {k : Kernel ω} {base : ThreadId → Int} {m : Machine ω}
  {suspend resume : ThreadOperation ω}

theorem Backed.setFailed (h : Backed k base m) (t : ThreadId) : Backed k base (m.setFailed t) :=
  ⟨h.own, h.quiet⟩

/-- Clearing a state that owns nothing loses no count. -/
theorem Backed.clear (h : Backed k base m) (hmask : m.state.ownedMask = 0) :
    Backed k base m.clear := by
  refine ⟨fun t => ?_, h.quiet⟩
  have hfree := outstanding_free (fun i => (BitSet.eq_zero_iff _).mp hmask i) t
  have hown := h.own t
  rw [hfree] at hown
  exact hown

/-- A callback that fails leaves everything as it was. -/
theorem issue_failed_backed {action : Action} {op : ThreadOperation ω} (h : Backed k base m)
    {i : Nat} (hb : (m.issue action op i).1 = false)
    (hop : ∀ u, (op m.world (m.state.threadId i)).1 ≠ 0 →
      k.own (op m.world (m.state.threadId i)).2 u = k.own m.world u)
    (hquiet : k.alarm (op m.world (m.state.threadId i)).2 = false) :
    Backed k base (m.issue action op i).2 := by
  have hne : (op m.world (m.state.threadId i)).1 ≠ 0 := of_decide_eq_false hb
  exact ⟨fun t => (hop t hne).trans (h.own t), hquiet⟩

theorem suspend_backed (hop : Acquires k suspend) (h : Backed k base m) (ha : Armed m.state)
    {i : Nat} (hi : i < m.state.threadCount) (hfree : m.state.owns i = false)
    (hb : (m.issue .suspend suspend i).1 = true) :
    Backed k base ((m.issue .suspend suspend i).2.own i) := by
  have hzero : (suspend m.world (m.state.threadId i)).1 = 0 := of_decide_eq_true hb
  refine ⟨fun t => ?_, (hop.alarm _ _).trans h.quiet⟩
  have hout : ((m.issue .suspend suspend i).2.own i).state.outstanding t =
      m.state.outstanding t + if t = m.state.threadId i then 1 else 0 :=
    outstanding_own ha hi hfree t
  rw [hout, ← Int.add_assoc, ← h.own t]
  exact hop.succeeded m.world (m.state.threadId i) hzero t

/-- A resume of an owned thread releases a count that the pause holds. -/
theorem resume_quiet (hop : Releases k resume) (h : Backed k base m) (hbase : ∀ t, 0 ≤ base t)
    (ha : Armed m.state) {i : Nat} (hi : m.state.owns i = true) :
    k.alarm (resume m.world (m.state.threadId i)).2 = false := by
  have hheld : m.state.holds (m.state.threadId i) = true := holds_iff.mpr ⟨ha.active, i, hi, rfl⟩
  have hown := h.own (m.state.threadId i)
  have hpos := hbase (m.state.threadId i)
  rw [State.outstanding, if_pos hheld] at hown
  rw [hop.alarm, h.quiet, Bool.false_or, decide_eq_false_iff_not]
  omega

theorem resume_backed (hop : Releases k resume) (h : Backed k base m) (hbase : ∀ t, 0 ≤ base t)
    (ha : Armed m.state) {i : Nat} (hi : m.state.owns i = true)
    (hb : (m.issue .resume resume i).1 = true) :
    Backed k base ((m.issue .resume resume i).2.release i) := by
  have hzero : (resume m.world (m.state.threadId i)).1 = 0 := of_decide_eq_true hb
  refine ⟨fun t => ?_, resume_quiet hop h hbase ha hi⟩
  have hout : ((m.issue .resume resume i).2.release i).state.outstanding t =
      m.state.outstanding t - if t = m.state.threadId i then 1 else 0 :=
    outstanding_release ha hi t
  have hown := hop.succeeded m.world (m.state.threadId i) hzero t
  rw [h.own t] at hown
  rw [hout]
  refine hown.trans ?_
  omega

/-- The resume loop keeps the accounts, whatever its callbacks answer. -/
theorem resumeLoop_backed (hop : Releases k resume) (hbase : ∀ t, 0 ≤ base t)
    (note : ThreadId → ThreadId → ThreadId) (n : Nat) (failed : Bool) (m : Machine ω)
    (ha : Armed m.state) (h : Backed k base m) :
    Backed k base (resumeLoop resume note n failed m).2 := by
  induction n generalizing failed m with
  | zero => exact h
  | succ n ih =>
    cases hn : m.state.owns n with
    | false =>
      rw [resumeLoop_free failed hn]
      exact ih failed m ha h
    | true =>
      cases hb : (m.issue .resume resume n).1 with
      | true =>
        rw [resumeLoop_released failed hn hb]
        exact ih failed _ (armed_release (m := (m.issue .resume resume n).2) ha n)
          (resume_backed hop h hbase ha hn hb)
      | false =>
        rw [resumeLoop_kept failed hn hb]
        have hkept := issue_failed_backed h hb (fun u hne => hop.failed _ _ hne u)
          (resume_quiet hop h hbase ha hn)
        refine ih true _ (ha.of_same ?_ ha.owned_lt) (hkept.setFailed _)
        exact same_setFailed (m.issue .resume resume n).2 _

theorem resumeOwned_backed (hop : Releases k resume) (hbase : ∀ t, 0 ≤ base t)
    (ha : Armed m.state) (h : Backed k base m) : Backed k base (resumeOwned resume m).2 := by
  have hloop : Backed k base (endLoop resume m.state.threadCount (m.setFailed 0)) :=
    resumeLoop_backed hop hbase _ _ _ (m.setFailed 0) (ha.of_same (same_setFailed m 0) ha.owned_lt)
      (h.setFailed 0)
  unfold resumeOwned
  dsimp only
  split
  · exact hloop
  · next hmask => exact hloop.clear (not_not.mp hmask)

theorem rollback_backed (hop : Releases k resume) (hbase : ∀ t, 0 ≤ base t)
    (ha : Armed m.state) (h : Backed k base m) (n : Nat) :
    Backed k base (rollback resume n m).2 := by
  have hloop : Backed k base
      (rollbackLoop resume n (m.setFailed (m.state.threadId n))).2 :=
    resumeLoop_backed hop hbase _ _ _ _ (ha.of_same (same_setFailed m _) ha.owned_lt)
      (h.setFailed _)
  unfold rollback
  dsimp only
  split
  · next hmask => exact hloop.clear hmask
  · exact hloop

/-- The suspend loop keeps the accounts, and so does the rollback it may end in. -/
theorem suspendLoop_backed (hsuspend : Acquires k suspend) (hresume : Releases k resume)
    (hbase : ∀ t, 0 ≤ base t) (remaining index : Nat) (m : Machine ω) (ha : Armed m.state)
    (hfull : ∀ i, m.state.owns i = decide (i < index))
    (hcount : index + remaining = m.state.threadCount) (h : Backed k base m) :
    Backed k base (suspendLoop suspend resume remaining index m).2 := by
  induction remaining generalizing index m with
  | zero => exact h.setFailed 0
  | succ remaining ih =>
    have hi : index < m.state.threadCount := by omega
    have hfree : m.state.owns index = false := by
      rw [hfull]
      exact decide_eq_false (Nat.lt_irrefl index)
    cases hb : (m.issue .suspend suspend index).1 with
    | true =>
      have hstep : suspendLoop suspend resume (remaining + 1) index m =
          suspendLoop suspend resume remaining (index + 1)
            ((m.issue .suspend suspend index).2.own index) := by
        simp [suspendLoop, hb]
      rw [hstep]
      refine ih (index + 1) _ (armed_own (m := (m.issue .suspend suspend index).2) ha hi) ?_ ?_
        (suspend_backed hsuspend h ha hi hfree hb)
      · intro i
        rw [own_owns _ _ _ (Nat.lt_of_lt_of_le hi ha.count_le), Machine.issue_state, hfull,
          Bool.eq_iff_iff, Bool.or_eq_true, decide_eq_true_iff, decide_eq_true_iff,
          decide_eq_true_iff]
        omega
      · show index + 1 + remaining = m.state.threadCount
        omega
    | false =>
      have hstep : suspendLoop suspend resume (remaining + 1) index m =
          rollback resume index (m.issue .suspend suspend index).2 := by
        simp [suspendLoop, hb]
      have hkept := issue_failed_backed h hb (fun u hne => hsuspend.failed _ _ hne u)
        ((hsuspend.alarm _ _).trans h.quiet)
      rw [hstep]
      exact rollback_backed (m := (m.issue .suspend suspend index).2) hresume hbase ha hkept index

end Loops

/-- What a turn gives up: an abandon leaves the counts of the owned threads behind. -/
def Turn.abandons (t : ThreadId) (m : Machine ω) : Turn ω → Bool
  | .call c => abandonsHeld t m.state (Pause.call m c).1 c
  | .others _ => false

/-- How often a thread was abandoned during a run. -/
def abandoned (t : ThreadId) (es : List (Trace.Entry (Machine ω) (Turn ω) (Option Status))) :
    Nat := es.countP fun e => e.input.abandons t e.before

theorem call_backed {k : Kernel ω} {base : ThreadId → Int} {m : Machine ω}
    (hbase : ∀ t, 0 ≤ base t) (hv : Valid m.state) (h : Backed k base m) {c : Call ω}
    (hc : (Turn.call c).Lawful k) :
    Backed k (fun t => base t + if (Turn.call c).abandons t m then 1 else 0) (call m c).2 := by
  have hstep := call_step m c
  have harmed : m.state.active = true → Armed m.state := hv.armed
  have habandons : ∀ t, (Turn.call c).abandons t m = abandonsHeld t m.state (call m c).1 c :=
    fun _ => rfl
  simp only [habandons]
  generalize call m c = r at hstep
  cases hstep with
  | rejected _ status hr =>
    have hno : ∀ t, abandonsHeld t m.state status c = false := by
      intro t
      cases c with
      | pauseAbandon given generation =>
        have hne : status ≠ .ok := by
          rintro rfl
          cases hr
        simp [abandonsHeld, hne]
      | _ => rfl
    simpa [hno] using h
  | began suspend resume generation now duration ids count hvb hactive hmask =>
    have hops := hc _ rfl
    have hset : Backed k base (m.set (armed generation now duration ids count)) := by
      refine ⟨fun t => ?_, h.quiet⟩
      have hown := h.own t
      rw [State.outstanding, inactive_holds hactive] at hown
      rw [Machine.set_state, outstanding_free (armed_owns generation now duration ids count)]
      exact hown
    have hloop := suspendLoop_backed (hops.suspend suspend rfl) (hops.resume resume rfl) hbase
      count 0 _ (armed_armed hvb)
      (fun i => by rw [Machine.set_state, armed_owns]; simp) (Nat.zero_add count) hset
    simpa [abandonsHeld] using hloop
  | ended suspend resume generation hactive hgen =>
    have hops := hc _ rfl
    have hloop := resumeOwned_backed (hops.resume resume rfl) hbase (harmed hactive) h
    simpa [abandonsHeld] using hloop
  | idled suspend resume generation now hactive hgen hin => simpa [abandonsHeld] using h
  | expired suspend resume generation now hactive hgen hout =>
    have hops := hc _ rfl
    have hloop := resumeOwned_backed (hops.resume resume rfl) hbase (harmed hactive) h
    simpa [abandonsHeld] using hloop
  | abandoned generation hactive hgen =>
    refine ⟨fun t => ?_, h.quiet⟩
    have hown := h.own t
    have hzero : cleared.outstanding t = 0 := rfl
    rw [State.outstanding] at hown
    simp only [Machine.clear_state, hzero, abandonsHeld, decide_true, Bool.true_and, Int.add_zero]
    exact hown

theorem turn_backed {k : Kernel ω} {base : ThreadId → Int} {m : Machine ω}
    (hbase : ∀ t, 0 ≤ base t) (hv : Valid m.state) (h : Backed k base m) {u : Turn ω}
    (hu : u.Lawful k) :
    Valid (turn m u).2.state ∧
      Backed k (fun t => base t + if u.abandons t m then 1 else 0) (turn m u).2 := by
  cases u with
  | call c => exact ⟨call_valid m c hv, call_backed hbase hv h hu⟩
  | others act =>
    obtain ⟨halarm, hown⟩ := hu m.world
    refine ⟨hv, fun t => ?_, halarm.trans h.quiet⟩
    simp only [Turn.abandons, Bool.false_eq_true, if_false, Int.add_zero]
    exact (hown t).trans (h.own t)

/-- Over any turns the base grows by what was abandoned. -/
theorem run_backed {k : Kernel ω} (turns : List (Turn ω)) (hturns : ∀ u ∈ turns, u.Lawful k)
    {base : ThreadId → Int} {m : Machine ω} (hbase : ∀ t, 0 ≤ base t) (hv : Valid m.state)
    (h : Backed k base m) :
    Backed k (fun t => base t + abandoned t (Trace.run turn m turns))
      (Trace.final turn m turns) := by
  induction turns generalizing base m with
  | nil => simpa [abandoned] using h
  | cons u rest ih =>
    obtain ⟨hu, hrest⟩ := List.forall_mem_cons.mp hturns
    obtain ⟨hv', h'⟩ := turn_backed hbase hv h hu
    have hbase' : ∀ t, 0 ≤ base t + if u.abandons t m then 1 else 0 := by
      intro t
      have hpos := hbase t
      split <;> omega
    have hmore := ih hrest hbase' hv' h'
    refine ⟨fun t => (hmore.own t).trans ?_, hmore.quiet⟩
    rw [Trace.final_cons, Trace.run_cons, abandoned, abandoned, List.countP_cons, Trace.entry]
    cases u.abandons t m with
    | true =>
      rw [if_pos rfl, if_pos rfl]
      omega
    | false =>
      rw [if_neg Bool.false_ne_true, if_neg Bool.false_ne_true]
      omega

/-- A kernel that counts, with the part of the other owners beside it. -/
structure Counts where
  count : ThreadId → Nat
  others : ThreadId → Nat
  alarm : Bool

namespace Counts

def kernel : Kernel Counts := ⟨count, others, alarm⟩

def suspendThread : ThreadOperation Counts := fun w t =>
  (0, { w with count := Function.update w.count t (w.count t + 1) })

/-- A thread that nobody has suspended cannot be resumed. -/
def resumeThread : ThreadOperation Counts := fun w t =>
  let alarm := w.alarm || decide (kernel.own w t < 1)
  if w.count t = 0 then (1, { w with alarm := alarm })
  else (0, { w with count := Function.update w.count t (w.count t - 1), alarm := alarm })

/-- Another owner suspends a thread. -/
def otherSuspends (t : ThreadId) (w : Counts) : Counts :=
  { w with
    count := Function.update w.count t (w.count t + 1)
    others := Function.update w.others t (w.others t + 1) }

theorem suspendThread_acquires : Acquires kernel suspendThread where
  succeeded := by
    intro w t _ u
    by_cases h : u = t
    · subst h
      simp [kernel, Kernel.own, suspendThread]
      omega
    · simp [kernel, Kernel.own, suspendThread, h]
  failed := fun w t h => absurd rfl h
  alarm := fun w t => rfl

theorem resumeThread_releases : Releases kernel resumeThread where
  succeeded := by
    intro w t hzero u
    unfold resumeThread at hzero ⊢
    dsimp only at hzero ⊢
    split at hzero
    · cases hzero
    · next hpos =>
      rw [if_neg hpos]
      by_cases h : u = t
      · subst h
        simp [kernel, Kernel.own]
        omega
      · simp [kernel, Kernel.own, h]
  failed := by
    intro w t hne u
    unfold resumeThread at hne ⊢
    dsimp only at hne ⊢
    split at hne
    · next hzero => rw [if_pos hzero]; rfl
    · exact absurd rfl hne
  alarm := by
    intro w t
    unfold resumeThread
    dsimp only
    split <;> rfl

theorem otherSuspends_lawful (t : ThreadId) :
    (Turn.others (otherSuspends t)).Lawful kernel := by
  intro w
  refine ⟨rfl, fun u => ?_⟩
  by_cases h : u = t
  · have hsum : ((w.count u + 1 : Nat) : Int) - (w.others u + 1 : Nat) =
        w.count u - w.others u := by omega
    subst h
    simpa only [kernel, Kernel.own, otherSuspends, Function.update_self] using hsum
  · simp [kernel, Kernel.own, otherSuspends, h]

end Counts

/-- Whatever the other owners do at any time, and whatever the callbacks answer: no
resume is ever issued for a thread of which the pause holds no count, and the count of
every thread is that of the other owners, plus one while the transaction owns the thread,
plus one for every time it was abandoned. -/
theorem pause_counts (k : Kernel ω) (world : ω) (turns : List (Turn ω))
    (hturns : ∀ u ∈ turns, u.Lawful k) (hcount : ∀ t, k.count world t = k.others world t)
    (hquiet : k.alarm world = false) :
    k.alarm (Trace.final turn (vcPauseStateInit world) turns).world = false ∧
      ∀ t, (k.count (Trace.final turn (vcPauseStateInit world) turns).world t : Int) =
        k.others (Trace.final turn (vcPauseStateInit world) turns).world t +
          (Trace.final turn (vcPauseStateInit world) turns).state.outstanding t +
          abandoned t (Trace.run turn (vcPauseStateInit world) turns) := by
  have hinit : Backed k (fun _ => 0) (vcPauseStateInit world) := by
    refine ⟨fun t => ?_, hquiet⟩
    have hzero : cleared.outstanding t = 0 := rfl
    show k.own world t = 0 + cleared.outstanding t
    rw [hzero, Kernel.own, hcount t]
    omega
  have hrun := run_backed turns hturns (fun _ => Int.le_refl 0) (.inl rfl) hinit
  refine ⟨hrun.quiet, fun t => ?_⟩
  have hown := hrun.own t
  rw [Kernel.own] at hown
  omega

/-- Two threads are paused and resumed while another owner suspends each of them. -/
def sharedTurns : List (Turn Counts) :=
  let operations := some ⟨some Counts.suspendThread, some Counts.resumeThread⟩
  [.others (Counts.otherSuspends 20),
    .call (.pauseBegin true 17 100 50 (some fun i => 10 * (i + 1)) 2 operations),
    .others (Counts.otherSuspends 10), .call (.pauseEnd true 17 operations)]

theorem pause_counts_shared :
    let m := Trace.final turn (vcPauseStateInit ⟨fun _ => 0, fun _ => 0, false⟩) sharedTurns
    m.world.alarm = false ∧ m.state = cleared ∧ m.world.count 20 = 1 ∧ m.world.count 10 = 1 ∧
      ∀ t, (m.world.count t : Int) = m.world.others t + m.state.outstanding t +
        abandoned t (Trace.run turn (vcPauseStateInit ⟨fun _ => 0, fun _ => 0, false⟩)
          sharedTurns) := by
  have hlawful : ∀ o ∈ some (⟨some Counts.suspendThread, some Counts.resumeThread⟩ :
      Operations Counts), o.Lawful Counts.kernel := by
    rintro o ho
    obtain rfl := Option.some.inj ho
    refine ⟨?_, ?_⟩
    · rintro op hop
      obtain rfl := Option.some.inj hop
      exact Counts.suspendThread_acquires
    · rintro op hop
      obtain rfl := Option.some.inj hop
      exact Counts.resumeThread_releases
  have hturns : ∀ u ∈ sharedTurns, u.Lawful Counts.kernel := by
    intro u hu
    simp only [sharedTurns, List.mem_cons, List.not_mem_nil, or_false] at hu
    rcases hu with rfl | rfl | rfl | rfl
    · exact Counts.otherSuspends_lawful 20
    · exact hlawful
    · exact Counts.otherSuspends_lawful 10
    · exact hlawful
  obtain ⟨hquiet, hcounts⟩ := pause_counts Counts.kernel ⟨fun _ => 0, fun _ => 0, false⟩
    sharedTurns hturns (fun _ => rfl) rfl
  exact ⟨hquiet, by decide, by decide, by decide, hcounts⟩

end VitaCheat.Pause
