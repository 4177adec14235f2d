import Mathlib.Data.List.Nodup
import VitaCheat.PauseInvariant

/-!
# The suspension ledger

Counting the successful callbacks of a run gives, for every thread, exactly one
outstanding suspension while the transaction owns it and none otherwise. Every
resume is issued for a thread owned at that moment, on behalf of the begin that
suspended it.
-/
namespace VitaCheat.Pause

variable {ω : Type}

/-- Successful callbacks of one kind for one thread. -/
def succeeded (action : Action) (t : ThreadId) (log : List Event) : Nat :=
  log.countP fun e => decide (e.action = action) && e.thread == t && e.success

/-- A successful abandon while the thread was owned. -/
def abandonsHeld (t : ThreadId) (s : State) (status : Status) : Call ω → Bool
  | .pauseAbandon _ _ => decide (status = .ok) && s.holds t
  | _ => false

def Entry.abandons (t : ThreadId) (e : Entry ω) : Bool :=
  abandonsHeld t e.before.state e.result e.input

/-- Suspends minus resumes minus abandoned suspensions. -/
def ledger (t : ThreadId) (past : List (Entry ω)) (m : Machine ω) : Int :=
  succeeded .suspend t m.log - succeeded .resume t m.log - past.countP (Entry.abandons t)

theorem succeeded_append (a : Action) (t : ThreadId) (xs ys : List Event) :
    succeeded a t (xs ++ ys) = succeeded a t xs + succeeded a t ys := List.countP_append

/-- In a list without repetition a predicate with one solution counts at most one. -/
theorem countP_unique {α : Type} {l : List α} {p : α → Bool} (hn : l.Nodup)
    (hu : ∀ a ∈ l, ∀ b ∈ l, p a = true → p b = true → a = b) :
    l.countP p = 0 ∧ (∀ a ∈ l, p a = false) ∨ l.countP p = 1 ∧ ∃ a ∈ l, p a = true := by
  induction l with
  | nil => exact Or.inl ⟨rfl, by simp⟩
  | cons x l ih =>
    obtain ⟨hx, hl⟩ := List.nodup_cons.mp hn
    have ih' := ih hl (fun a ha b hb => hu a (by simp [ha]) b (by simp [hb]))
    cases hp : p x with
    | false =>
      rw [List.countP_cons_of_neg (by simp [hp])]
      rcases ih' with ⟨hc, hall⟩ | ⟨hc, a, ha, hpa⟩
      · exact Or.inl ⟨hc, by simpa [hp] using hall⟩
      · exact Or.inr ⟨hc, a, by simp [ha], hpa⟩
    | true =>
      rw [List.countP_cons_of_pos hp]
      have hnone : l.countP p = 0 := by
        rw [List.countP_eq_zero]
        intro a ha hpa
        have := hu x (by simp) a (by simp [ha]) hp hpa
        exact hx (this ▸ ha)
      exact Or.inr ⟨by omega, x, by simp, hp⟩

/-- A suspended run of slots counts a thread once, if it is in one of them. -/
theorem suspends_count {s : State} (h : Armed s) {n : Nat} (hn : n ≤ s.threadCount)
    (held : Nat → State) (t : ThreadId) :
    succeeded .suspend t (suspends s 0 n held) = 0 ∧ (∀ i, i < n → s.threadId i ≠ t) ∨
      succeeded .suspend t (suspends s 0 n held) = 1 ∧ ∃ i < n, s.threadId i = t := by
  have hc : succeeded .suspend t (suspends s 0 n held) =
      (List.range n).countP fun i => s.threadId i == t := by
    rw [succeeded, suspends, List.countP_map, ← List.range_eq_range']
    apply List.countP_congr
    intro i hi
    simp
  rw [hc]
  have hu := countP_unique (p := fun i => s.threadId i == t) (List.nodup_range (n := n))
    (fun a ha b hb hpa hpb => h.threadId_inj
      (Nat.lt_of_lt_of_le (List.mem_range.mp ha) hn) (Nat.lt_of_lt_of_le (List.mem_range.mp hb) hn)
      ((beq_iff_eq.mp hpa).trans (beq_iff_eq.mp hpb).symm))
  rcases hu with ⟨h0, hall⟩ | ⟨h1, i, hi, ht⟩
  · exact Or.inl ⟨h0, fun i hi => by simpa using hall i (List.mem_range.mpr hi)⟩
  · exact Or.inr ⟨h1, i, List.mem_range.mp hi, by simpa using ht⟩

@[simp] theorem suspends_no_resume (s : State) (i n : Nat) (held : Nat → State) (t : ThreadId) :
    succeeded .resume t (suspends s i n held) = 0 := by
  simp [succeeded, suspends, List.countP_map, List.countP_eq_zero]

@[simp] theorem attempts_no_suspend (s : State) (n : Nat) (ok : Nat → Bool) (held : Nat → State)
    (t : ThreadId) : succeeded .suspend t (attempts s n ok held) = 0 := by
  simp [succeeded, attempts, List.countP_map, List.countP_eq_zero]

/-- The attempts count a thread once, if it is owned and its resume succeeds. -/
theorem attempts_count {s : State} (h : Armed s) {n : Nat} (hlt : ∀ i, s.owns i = true → i < n)
    (ok : Nat → Bool) (held : Nat → State) (t : ThreadId) :
    succeeded .resume t (attempts s n ok held) = 0 ∧
        (∀ i, s.owns i = true → s.threadId i = t → ok i = false) ∨
      succeeded .resume t (attempts s n ok held) = 1 ∧
        ∃ i, s.owns i = true ∧ s.threadId i = t ∧ ok i = true := by
  have hc : succeeded .resume t (attempts s n ok held) =
      (s.ownedBelow n).countP fun i => s.threadId i == t && ok i := by
    rw [succeeded, attempts, List.countP_map, List.countP_reverse]
    apply List.countP_congr
    intro i hi
    simp
  have hn : (s.ownedBelow n).Nodup := List.Nodup.filter _ List.nodup_range
  have hu := countP_unique (p := fun i => s.threadId i == t && ok i) hn (by
    intro a ha b hb hpa hpb
    simp only [Bool.and_eq_true, beq_iff_eq] at hpa hpb
    exact h.threadId_inj (h.owned_lt a (mem_ownedBelow.mp ha).2)
      (h.owned_lt b (mem_ownedBelow.mp hb).2) (hpa.1.trans hpb.1.symm))
  rw [hc]
  rcases hu with ⟨h0, hall⟩ | ⟨h1, i, hi, hp⟩
  · refine Or.inl ⟨h0, ?_⟩
    intro i hi ht
    have := hall i (mem_ownedBelow.mpr ⟨hlt i hi, hi⟩)
    simpa [ht] using this
  · simp only [Bool.and_eq_true, beq_iff_eq] at hp
    exact Or.inr ⟨h1, i, (mem_ownedBelow.mp hi).2, hp.1, hp.2⟩

/-- One outstanding suspension if the thread is held, none otherwise. -/
def State.outstanding (s : State) (t : ThreadId) : Int := if s.holds t then 1 else 0

/-- Cleanup resumes a thread at most once, and exactly when it lets go of it. -/
theorem Cleaned.balance {m : Machine ω} {n : Nat} {ok : Nat → Bool} {held : Nat → State}
    {done failed : Status} {r : Status × Machine ω} (h : Cleaned m n ok held done failed r)
    (ha : Armed m.state) (hlt : ∀ i, m.state.owns i = true → i < n) (t : ThreadId) :
    succeeded .suspend t r.2.log = succeeded .suspend t m.log ∧
      succeeded .resume t r.2.log + r.2.state.outstanding t =
        succeeded .resume t m.log + m.state.outstanding t := by
  rw [h.log, succeeded_append, succeeded_append, attempts_no_suspend]
  refine ⟨rfl, ?_⟩
  rcases attempts_count ha hlt ok held t with ⟨h0, hno⟩ | ⟨h1, i, hi, ht, hk⟩
  · have hsame : r.2.state.holds t = m.state.holds t := by
      rcases h.outcome with ⟨-, hc, hall⟩ | ⟨-, hs, -, ho⟩
      · rw [hc, cleared_holds, eq_comm, Bool.eq_false_iff]
        intro hm
        obtain ⟨-, j, hj, hjt⟩ := holds_iff.mp hm
        have := hno j hj hjt
        rw [hall j hj] at this
        cases this
      · rw [Bool.eq_iff_iff, holds_iff, holds_iff, hs.active]
        refine and_congr_right fun _ => exists_congr fun j => ?_
        rw [ho, hs.threadId, Bool.and_eq_true]
        constructor
        · rintro ⟨⟨hj, -⟩, hjt⟩
          exact ⟨hj, hjt⟩
        · rintro ⟨hj, hjt⟩
          exact ⟨⟨hj, by simp [hno j hj hjt]⟩, hjt⟩
    simp only [State.outstanding, hsame, h0]
    omega
  · have hm : m.state.holds t = true := holds_iff.mpr ⟨ha.active, i, hi, ht⟩
    have hr : r.2.state.holds t = false := by
      rcases h.outcome with ⟨-, hc, -⟩ | ⟨-, hs, -, ho⟩
      · rw [hc, cleared_holds]
      · rw [Bool.eq_false_iff]
        intro hr
        obtain ⟨-, j, hj, hjt⟩ := holds_iff.mp hr
        rw [ho, Bool.and_eq_true] at hj
        rw [hs.threadId] at hjt
        have hij := ha.threadId_inj (ha.owned_lt j hj.1) (ha.owned_lt i hi) (hjt.trans ht.symm)
        rw [hij, hk] at hj
        simp at hj
    simp only [State.outstanding, hm, hr, h1]
    simp

/-- The threads a begin has suspended so far are exactly the ones it holds. -/
theorem Suspended.balance {m mid : Machine ω} {generation now duration : U64}
    {ids : Nat → ThreadId} {count stop : Nat} {held : Nat → State}
    (h : Suspended (m.set (armed generation now duration ids count)) 0 stop held mid)
    (hv : ValidBegin generation now duration ids count) (hle : stop ≤ count) (t : ThreadId) :
    succeeded .suspend t mid.log = succeeded .suspend t m.log + mid.state.outstanding t ∧
      succeeded .resume t mid.log = succeeded .resume t m.log := by
  rw [h.log, succeeded_append, succeeded_append, suspends_no_resume, Nat.sub_zero]
  refine ⟨?_, rfl⟩
  have ha := h.isArmed hv hle
  have hown : mid.state.holds t = true ↔
      ∃ i < stop, (armed generation now duration ids count).threadId i = t := by
    rw [holds_iff]
    constructor
    · rintro ⟨-, j, hj, hjt⟩
      rw [h.owns] at hj
      exact ⟨j, by simpa using hj, (h.same.threadId j).symm.trans hjt⟩
    · rintro ⟨j, hj, hjt⟩
      exact ⟨ha.active, j, by rw [h.owns]; simpa using hj, (h.same.threadId j).trans hjt⟩
  rcases suspends_count (armed_armed hv) (n := stop) hle held t with ⟨h0, hno⟩ | ⟨h1, hex⟩
  · have hf : mid.state.holds t = false := by
      rw [Bool.eq_false_iff]
      intro hm
      obtain ⟨i, hi, ht⟩ := hown.mp hm
      exact hno i hi ht
    simp only [Machine.set_state, Machine.set_log, State.outstanding, hf, h0]
    simp
  · simp only [Machine.set_state, Machine.set_log, State.outstanding, hown.mpr hex, h1]
    simp

/-- A failed callback changes nobody's count. -/
theorem issue_failed_count {m : Machine ω} {action : Action} {op : ThreadOperation ω} {i : Nat}
    (hb : (m.issue action op i).1 = false) (a : Action) (t : ThreadId) :
    succeeded a t (m.issue action op i).2.log = succeeded a t m.log := by
  rw [Machine.issue_log, succeeded_append, hb]
  simp [succeeded]

/-- A call that is no successful abandon leaves the number of abandons. -/
theorem call_ledger (t : ThreadId) (past : List (Entry ω)) (m : Machine ω) (c : Call ω)
    (hv : Valid m.state) (h : ledger t past m = m.state.outstanding t) :
    ledger t (past ++ [Trace.entry call m c]) (call m c).2 =
      (call m c).2.state.outstanding t := by
  have hstep := call_step m c
  have harmed : m.state.active = true → Armed m.state := hv.armed
  have hab : Entry.abandons t (Trace.entry call m c) =
      abandonsHeld t m.state (call m c).1 c := rfl
  simp only [ledger, List.countP_append, List.countP_singleton, hab] at h ⊢
  clear hab
  generalize call m c = r at hstep
  cases hstep with
  | rejected _ status hr =>
    have hne : status ≠ .ok := by intro he; subst he; cases hr
    have hno : abandonsHeld t m.state status c = false := by cases c <;> simp [abandonsHeld, hne]
    simp only [hno, Bool.false_eq_true, if_false]
    omega
  | began suspend resume generation now duration ids count hvb hactive hmask =>
    have h0 : m.state.outstanding t = 0 := by
      simp [State.outstanding, inactive_holds hactive]
    obtain ⟨stop, held, mid, hle, hs, hout⟩ := began_cases suspend resume m hvb
    obtain ⟨hsus, hres⟩ := hs.balance hvb hle t
    rcases hout with ⟨-, hr⟩ | ⟨-, hb, ok, held', hc⟩
    · have hsame : (mid.setFailed 0).state.outstanding t = mid.state.outstanding t := rfl
      rw [hr]
      simp only [Machine.setFailed_log, hsame, abandonsHeld, Bool.false_eq_true, if_false]
      omega
    · obtain ⟨hcs, hcr⟩ :=
        hc.balance (hs.isArmed hvb hle) (fun i => (hs.issued_owns suspend i).mp) t
      rw [issue_failed_count hb] at hcs hcr
      rw [Machine.issue_state] at hcr
      simp only [abandonsHeld, Bool.false_eq_true, if_false]
      omega
  | ended suspend resume generation hactive hgen =>
    obtain ⟨ok, held, hc⟩ := resumeOwned_cleaned resume m (harmed hactive).owned_lt
    obtain ⟨hcs, hcr⟩ := hc.balance (harmed hactive) (harmed hactive).owned_lt t
    simp only [abandonsHeld, Bool.false_eq_true, if_false]
    omega
  | idled suspend resume generation now hactive hgen hin =>
    simp only [abandonsHeld, Bool.false_eq_true, if_false]
    omega
  | expired suspend resume generation now hactive hgen hout =>
    obtain ⟨ok, held, hc⟩ := resumeOwned_cleaned resume m (harmed hactive).owned_lt
    obtain ⟨hcs, hcr⟩ := hc.balance (harmed hactive) (harmed hactive).owned_lt t
    simp only [abandonsHeld, Bool.false_eq_true, if_false]
    omega
  | abandoned generation hactive hgen =>
    simp only [Machine.clear_log, Machine.clear_state, State.outstanding, cleared_holds,
      abandonsHeld, decide_true, Bool.true_and] at h ⊢
    cases hm : m.state.holds t <;> simp [hm] at h ⊢ <;> omega

end VitaCheat.Pause
