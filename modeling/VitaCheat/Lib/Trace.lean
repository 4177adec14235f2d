import Mathlib.Data.List.Basic

/-!
# Recorded runs of a deterministic component

A component takes inputs one at a time, answers each and moves to a new state.
A run is the list of its entries, each with the state before, the input, the
answer and the state after. The rules below reason about every entry of every
run together with the entries before it.
-/
namespace Trace

universe u v r

variable {σ : Type u} {α : Type v} {ρ : Type r}

structure Entry (σ : Type u) (α : Type v) (ρ : Type r) where
  before : σ
  input : α
  result : ρ
  after : σ

/-- The entry of one input from a given state. -/
def entry (step : σ → α → ρ × σ) (s : σ) (a : α) : Entry σ α ρ :=
  ⟨s, a, (step s a).1, (step s a).2⟩

def run (step : σ → α → ρ × σ) : σ → List α → List (Entry σ α ρ)
  | _, [] => []
  | s, a :: as => entry step s a :: run step (step s a).2 as

def final (step : σ → α → ρ × σ) : σ → List α → σ
  | s, [] => s
  | s, a :: as => final step (step s a).2 as

@[simp] theorem run_nil (step : σ → α → ρ × σ) (s : σ) : run step s [] = [] := rfl
@[simp] theorem run_cons (step : σ → α → ρ × σ) (s : σ) (a : α) (as : List α) :
    run step s (a :: as) = entry step s a :: run step (step s a).2 as := rfl
@[simp] theorem final_nil (step : σ → α → ρ × σ) (s : σ) : final step s [] = s := rfl
@[simp] theorem final_cons (step : σ → α → ρ × σ) (s : σ) (a : α) (as : List α) :
    final step s (a :: as) = final step (step s a).2 as := rfl

theorem run_append (step : σ → α → ρ × σ) (s : σ) (as bs : List α) :
    run step s (as ++ bs) = run step s as ++ run step (final step s as) bs := by
  induction as generalizing s with
  | nil => rfl
  | cons a as ih => simp only [List.cons_append, run_cons, final_cons, ih]

theorem final_append (step : σ → α → ρ × σ) (s : σ) (as bs : List α) :
    final step s (as ++ bs) = final step (final step s as) bs := by
  induction as generalizing s with
  | nil => rfl
  | cons a as ih => simp only [List.cons_append, final_cons, ih]

/-- The entry at a place is the step of its input from the state before it. -/
theorem run_getElem? (step : σ → α → ρ × σ) (s : σ) (as : List α) (i : Nat) :
    (run step s as)[i]? = as[i]?.map (entry step (final step s (as.take i))) := by
  induction as generalizing s i with
  | nil => simp
  | cons a as ih =>
    cases i with
    | zero => simp
    | succ i => simpa using ih (step s a).2 i

theorem final_take_succ (step : σ → α → ρ × σ) (s : σ) {as : List α} {i : Nat} {a : α}
    (h : as[i]? = some a) :
    final step s (as.take (i + 1)) = (step (final step s (as.take i)) a).2 := by
  rw [List.take_add_one, h, final_append]
  rfl

/-- A component seen through an embedding of its states has the same runs. -/
theorem run_embed {τ : Type u} {step : σ → α → ρ × σ} (step' : τ → α → ρ × τ) (f : σ → τ)
    (h : ∀ s a, step' (f s) a = ((step s a).1, f (step s a).2)) (s : σ) (as : List α) :
    run step' (f s) as =
      (run step s as).map fun e => ⟨f e.before, e.input, e.result, f e.after⟩ := by
  induction as generalizing s with
  | nil => rfl
  | cons a as ih => simp only [run_cons, List.map_cons, entry, h, ih]

theorem run_inputs (step : σ → α → ρ × σ) (s : σ) (as : List α) :
    (run step s as).map (·.input) = as := by
  induction as generalizing s with
  | nil => rfl
  | cons a as ih => rw [run_cons, List.map_cons, ih, entry]

/-- Where every step is one of another component, seen through a function and with an
input chosen for it, every run is a run of the other. -/
theorem run_refines {τ : Type*} {β : Type*} {χ : Type*} {step : σ → α → ρ × σ}
    {step' : τ → β → χ × τ} (P : σ → Prop) (f : σ → τ)
    (link : Entry σ α ρ → Entry τ β χ → Prop) (hkeep : ∀ s a, P s → P (step s a).2)
    (hstep : ∀ s a, P s → ∃ b, link (entry step s a) (entry step' (f s) b) ∧
      (step' (f s) b).2 = f (step s a).2) {s : σ} (h : P s) (as : List α) :
    ∃ bs, List.Forall₂ link (run step s as) (run step' (f s) bs) ∧
      final step' (f s) bs = f (final step s as) := by
  induction as generalizing s with
  | nil => exact ⟨[], .nil, rfl⟩
  | cons a as ih =>
    obtain ⟨b, hlink, hnext⟩ := hstep s a h
    obtain ⟨bs, hlinks, hfinal⟩ := ih (hkeep s a h)
    refine ⟨b :: bs, ?_, ?_⟩
    · rw [run_cons, run_cons, hnext]
      exact .cons hlink hlinks
    · rw [final_cons, final_cons, hnext]
      exact hfinal

/-- Every entry of a run is a step from the state its past inputs lead to. -/
theorem run_split {step : σ → α → ρ × σ} {s : σ} {as : List α}
    {past : List (Entry σ α ρ)} {e : Entry σ α ρ} {later : List (Entry σ α ρ)}
    (h : run step s as = past ++ e :: later) :
    ∃ earlier rest, as = earlier ++ e.input :: rest ∧ past = run step s earlier ∧
      e = entry step (final step s earlier) e.input ∧
      later = run step (step (final step s earlier) e.input).2 rest := by
  induction past generalizing s as with
  | nil =>
    cases as with
    | nil => simp at h
    | cons a as =>
      simp only [run_cons, List.nil_append, List.cons.injEq] at h
      obtain ⟨he, hl⟩ := h
      subst he
      exact ⟨[], as, rfl, rfl, rfl, hl.symm⟩
  | cons p past ih =>
    cases as with
    | nil => simp at h
    | cons a as =>
      simp only [run_cons, List.cons_append, List.cons.injEq] at h
      obtain ⟨hp, ht⟩ := h
      obtain ⟨earlier, rest, has, hpast, he, hl⟩ := ih ht
      exact ⟨a :: earlier, rest, by rw [has]; rfl, by rw [run_cons, hp, hpast], he, hl⟩

/-- History induction: a relation between the past entries and the current
state that every step extends holds at every point of every run. -/
theorem history_invariant (step : σ → α → ρ × σ) (P : List (Entry σ α ρ) → σ → Prop)
    {s : σ} (h0 : P [] s)
    (hstep : ∀ past t a, P past t → P (past ++ [entry step t a]) (step t a).2)
    (as : List α) : P (run step s as) (final step s as) := by
  suffices h : ∀ (bs : List α) (past : List (Entry σ α ρ)) (t : σ), P past t →
      P (past ++ run step t bs) (final step t bs) by simpa using h as [] s h0
  intro bs
  induction bs with
  | nil => intro past t ht; simpa using ht
  | cons b bs ih =>
    intro past t ht
    have h := ih (past ++ [entry step t b]) (step t b).2 (hstep past t b ht)
    simpa using h

/-- The ordinary invariant rule, for facts about the state alone. -/
theorem invariant (step : σ → α → ρ × σ) (P : σ → Prop)
    (hstep : ∀ t a, P t → P (step t a).2) {s : σ} (h0 : P s) (as : List α) :
    P (final step s as) :=
  history_invariant step (fun _ t => P t) h0 (fun _ t a ht => hstep t a ht) as

/-- The entries of a run whose answer is not idle. -/
def busy (idle : ρ → Bool) (es : List (Entry σ α ρ)) : List (Entry σ α ρ) :=
  es.filter fun e => !idle e.result

/-- Inputs that are answered idly and change nothing can be left out of a run. -/
theorem run_busy {step : σ → α → ρ × σ} {idle : ρ → Bool}
    (h : ∀ s a, idle (step s a).1 = true → (step s a).2 = s) (s : σ) (as : List α) :
    run step s ((busy idle (run step s as)).map (·.input)) = busy idle (run step s as) ∧
      final step s ((busy idle (run step s as)).map (·.input)) = final step s as := by
  induction as generalizing s with
  | nil => exact ⟨rfl, rfl⟩
  | cons a as ih =>
    have ih := ih (step s a).2
    rw [run_cons, final_cons]
    cases hi : idle (step s a).1 with
    | true =>
      have hskip : busy idle (entry step s a :: run step (step s a).2 as) =
          busy idle (run step (step s a).2 as) := by
        simp [busy, entry, hi]
      rw [hskip]
      rw [h s a hi] at ih ⊢
      exact ih
    | false =>
      have hkeep : busy idle (entry step s a :: run step (step s a).2 as) =
          entry step s a :: busy idle (run step (step s a).2 as) := by
        simp [busy, entry, hi]
      rw [hkeep, List.map_cons, run_cons, final_cons]
      exact ⟨congrArg (entry step s a :: ·) ih.1, ih.2⟩

end Trace
