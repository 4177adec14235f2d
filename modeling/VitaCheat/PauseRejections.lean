import VitaCheat.PauseOrigin
import VitaCheat.PauseRepresentation

/-!
# Refused calls do nothing

A call that refuses answers with the machine it was given, so that it can be
left out of a run. A begin that fails to suspend has handed everything back.
-/
namespace VitaCheat.Pause

variable {ω : Type}

theorem suspendLoop_rejects (suspend resume : ThreadOperation ω) (m : Machine ω)
    {generation now duration : U64} {ids : Nat → ThreadId} {count : Nat}
    (hv : ValidBegin generation now duration ids count) :
    (suspendLoop suspend resume count 0
      (m.set (armed generation now duration ids count))).1.rejects = false := by
  obtain ⟨stop, held, mid, -, -, hout⟩ := began_cases suspend resume m hv
  rcases hout with ⟨-, hr⟩ | ⟨-, -, ok, held', hc⟩
  · rw [hr]
    rfl
  · rcases hc.outcome with ⟨hst, -⟩ | ⟨hst, -⟩
    · rw [hst]
      rfl
    · rw [hst]
      rfl

theorem resumeOwned_rejects (resume : ThreadOperation ω) (m : Machine ω) :
    (resumeOwned resume m).1.rejects = false ∧
      (expiry (resumeOwned resume m).1).rejects = false := by
  rw [resumeOwned]
  split
  · exact ⟨rfl, rfl⟩
  · exact ⟨rfl, rfl⟩

/-- Only a call that does nothing answers with a refusal. -/
theorem call_rejected (m : Machine ω) (c : Call ω) (h : (call m c).1.rejects = true) :
    (call m c).2 = m := by
  have hstep := call_step m c
  generalize call m c = r at hstep h
  cases hstep with
  | rejected _ status hr => rfl
  | began suspend resume generation now duration ids count hv hactive hmask =>
    rw [suspendLoop_rejects suspend resume m hv] at h
    cases h
  | ended suspend resume generation hactive hgen =>
    rw [(resumeOwned_rejects resume m).1] at h
    cases h
  | idled suspend resume generation now hactive hgen hin => cases h
  | expired suspend resume generation now hactive hgen hout =>
    have hr : (expiry (resumeOwned resume m).1).rejects = true := h
    rw [(resumeOwned_rejects resume m).2] at hr
    cases hr
  | abandoned generation hactive hgen => cases h

/-- A call for another generation is refused. -/
theorem stale_rejected (m : Machine ω) (c : Call ω) (hc : c.isBegin = false)
    (hg : m.state.active = true → m.state.targetGeneration ≠ c.generation) :
    (call m c).1.rejects = true := by
  have hstep := call_step m c
  generalize call m c = r at hstep
  cases hstep with
  | rejected _ status hr => exact hr
  | began suspend resume generation now duration ids count hv hactive hmask => cases hc
  | ended suspend resume generation hactive hgen => exact absurd hgen (hg hactive)
  | idled suspend resume generation now hactive hgen hin => exact absurd hgen (hg hactive)
  | expired suspend resume generation now hactive hgen hout => exact absurd hgen (hg hactive)
  | abandoned generation hactive hgen => exact absurd hgen (hg hactive)

/-- A begin during a transaction is refused. -/
theorem nested_rejected (m : Machine ω) (c : Call ω) (hc : c.isBegin = true)
    (hactive : m.state.active = true) : (call m c).1.rejects = true := by
  have hstep := call_step m c
  generalize call m c = r at hstep
  cases hstep with
  | rejected _ status hr => exact hr
  | began suspend resume generation now duration ids count hv hidle hmask =>
    rw [hactive] at hidle
    cases hidle
  | ended | idled | expired | abandoned => cases hc

/-- Suspends minus resumes that succeeded, whoever asked for them. -/
def netSuspends (t : ThreadId) (m : Machine ω) : Int :=
  succeeded .suspend t m.log - succeeded .resume t m.log

/-- What a call must leave alone, by the status that it answers. -/
structure Refuses (m : Machine ω) (c : Call ω) : Prop where
  rejected : (call m c).1.rejects = true →
    issued (Trace.entry call m c) = [] ∧ (call m c).2.state = m.state
  suspendFailed : c.isBegin = true → (call m c).1 = .suspendFailed →
    (call m c).2.state = m.state ∧ ∀ t, netSuspends t (call m c).2 = netSuspends t m
  stale : c.isBegin = false → m.state.active = true →
    m.state.targetGeneration ≠ c.generation → (call m c).1.rejects = true
  nested : c.isBegin = true → m.state.active = true → (call m c).1.rejects = true

/-- A failed begin starts from the cleared state and returns to it. -/
theorem suspendFailed_same {past : List (Entry ω)} {m : Machine ω} (hv : Valid m.state)
    (hledger : ∀ t, ledger t past m = m.state.outstanding t) (c : Call ω)
    (hc : c.isBegin = true) (h : (call m c).1 = .suspendFailed) :
    (call m c).2.state = m.state ∧ ∀ t, netSuspends t (call m c).2 = netSuspends t m := by
  have hidle : m.state = cleared := by
    rcases hv with hcleared | ⟨harmed, -⟩
    · exact hcleared
    · have hrejects := nested_rejected m c hc harmed.active
      rw [h] at hrejects
      cases hrejects
  have hback : (call m c).2.state = cleared := by
    cases c with
    | pauseBegin => exact begin_suspendFailed _ _ _ _ _ _ _ _ h
    | _ => cases hc
  refine ⟨hback.trans hidle.symm, ?_⟩
  intro t
  have hafter := call_ledger t past m c hv (hledger t)
  have hbefore := hledger t
  have hno : Entry.abandons t (Trace.entry call m c) = false := by
    cases c with
    | pauseBegin => rfl
    | _ => cases hc
  rw [hback] at hafter
  rw [hidle] at hbefore
  simp only [ledger, List.countP_append, List.countP_singleton, hno, Bool.false_eq_true,
    if_false] at hafter hbefore
  simp only [netSuspends]
  omega

/-- In every reachable state a refused call issues nothing and changes nothing,
and a failed begin hands everything back; and a run without its refused calls is
the run with their entries left out, to the same end. -/
theorem pause_rejections (world : ω) (calls : List (Call ω)) :
    (∀ c, Refuses (Trace.final call (vcPauseStateInit world) calls) c) ∧
      Trace.run call (vcPauseStateInit world)
          ((Trace.busy Status.rejects (Trace.run call (vcPauseStateInit world) calls)).map
            (·.input)) =
        Trace.busy Status.rejects (Trace.run call (vcPauseStateInit world) calls) ∧
      Trace.final call (vcPauseStateInit world)
          ((Trace.busy Status.rejects (Trace.run call (vcPauseStateInit world) calls)).map
            (·.input)) =
        Trace.final call (vcPauseStateInit world) calls := by
  refine ⟨?_, Trace.run_busy call_rejected _ calls⟩
  intro c
  obtain ⟨hv, -, hledger⟩ := run_exact world calls
  generalize Trace.run call (vcPauseStateInit world) calls = past at hledger
  generalize Trace.final call (vcPauseStateInit world) calls = m at hv hledger
  constructor
  · intro h
    have hsame := call_rejected m c h
    refine ⟨issued_eq ?_, congrArg Machine.state hsame⟩
    show (call m c).2.log = m.log ++ []
    rw [hsame, List.append_nil]
  · exact fun hc h => suspendFailed_same hv hledger c hc h
  · exact fun hc _ hg => stale_rejected m c hc fun _ => hg
  · exact fun hc ha => nested_rejected m c hc ha

end VitaCheat.Pause
