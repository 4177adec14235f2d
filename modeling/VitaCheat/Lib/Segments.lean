import Mathlib.Data.List.Induction

/-!
# Lists cut into segments

Some items open a segment, some close the open one, and all others belong to the segment
that is open, if one is. Each segment is folded to a result by itself, so that the items
inside one segment have no say in the results of the others.
-/
namespace Segments

inductive Mark where
  | opens | closes | inner
  deriving DecidableEq, Repr

/-- How items are marked, and how a segment is folded. -/
structure Cutter (α σ ρ : Type) where
  mark : α → Mark
  start : α → σ
  step : σ → α → σ
  settle : σ → ρ
  close : σ → ρ

/-- The results of the segments that have ended, and the one that is open. -/
structure State (σ ρ : Type) where
  ended : List ρ
  current : Option σ
  deriving DecidableEq, Repr

namespace Cutter

variable {α σ ρ : Type} (cut : Cutter α σ ρ)

/-- The results if the list ended here. -/
def results (s : State σ ρ) : List ρ := s.ended ++ (s.current.map cut.settle).toList

def next (s : State σ ρ) (a : α) : State σ ρ :=
  match cut.mark a with
  | .opens => ⟨cut.results s, some (cut.start a)⟩
  | .closes => ⟨s.ended ++ (s.current.map cut.close).toList, none⟩
  | .inner => { s with current := s.current.map (cut.step · a) }

def run (items : List α) : State σ ρ := items.foldl cut.next ⟨[], none⟩

/-- Is a segment open behind the items? -/
def isOpen (items : List α) : Bool :=
  items.foldl (fun o a => match cut.mark a with
    | .opens => true
    | .closes => false
    | .inner => o) false

/-- The number of segments that the items open. -/
def opened (items : List α) : Nat := items.countP fun a => cut.mark a = .opens

theorem run_concat (items : List α) (a : α) :
    cut.run (items ++ [a]) = cut.next (cut.run items) a := by
  rw [run, List.foldl_append]
  rfl

theorem isOpen_concat (items : List α) (a : α) : cut.isOpen (items ++ [a]) =
    match cut.mark a with
    | .opens => true
    | .closes => false
    | .inner => cut.isOpen items := by
  rw [isOpen, List.foldl_append]
  rfl

theorem opened_concat (items : List α) (a : α) :
    cut.opened (items ++ [a]) = cut.opened items + if cut.mark a = .opens then 1 else 0 := by
  rw [opened, opened, List.countP_append, List.countP_singleton]
  simp

theorem run_current (items : List α) : (cut.run items).current.isSome = cut.isOpen items := by
  induction items using List.reverseRecOn with
  | nil => rfl
  | append_singleton items a ih =>
    rw [run_concat, isOpen_concat, next]
    cases cut.mark a with
    | opens => rfl
    | closes => rfl
    | inner => rw [Option.isSome_map, ih]

/-- Every segment that was opened has ended or is open. -/
theorem run_length (items : List α) : (cut.results (cut.run items)).length = cut.opened items := by
  induction items using List.reverseRecOn with
  | nil => rfl
  | append_singleton items a ih =>
    rw [run_concat, opened_concat, ← ih]
    cases hmark : cut.mark a with
    | opens => simp [next, hmark, results, Nat.add_assoc]
    | closes => cases hcurrent : (cut.run items).current <;> simp [next, hmark, results, hcurrent]
    | inner => cases hcurrent : (cut.run items).current <;> simp [next, hmark, results, hcurrent]

/-- The lists differ at one place at most. -/
def AgreeBut (k : Nat) (xs ys : List ρ) : Prop :=
  xs.length = ys.length ∧ ∀ i, i ≠ k → xs[i]? = ys[i]?

theorem agreeBut_last (xs : List ρ) (x y : ρ) : AgreeBut xs.length (xs ++ [x]) (xs ++ [y]) := by
  refine ⟨by rw [List.length_append, List.length_append]; rfl, ?_⟩
  intro i hi
  rcases Nat.lt_or_gt_of_ne hi with hlt | hgt
  · rw [List.getElem?_append_left hlt, List.getElem?_append_left hlt]
  · rw [List.getElem?_eq_none (by simp; omega), List.getElem?_eq_none (by simp; omega)]

theorem AgreeBut.append {k : Nat} {xs ys : List ρ} (h : AgreeBut k xs ys) (zs : List ρ) :
    AgreeBut k (xs ++ zs) (ys ++ zs) := by
  refine ⟨by rw [List.length_append, List.length_append, h.1], ?_⟩
  intro i hi
  rcases Nat.lt_or_ge i xs.length with hlt | hge
  · rw [List.getElem?_append_left hlt, List.getElem?_append_left (h.1 ▸ hlt)]
    exact h.2 i hi
  · rw [List.getElem?_append_right hge, List.getElem?_append_right (h.1 ▸ hge), h.1]

/-- Two runs whose segment `k` may differ: it is still open in both, or has ended. -/
inductive Beside (k : Nat) : State σ ρ → State σ ρ → Prop
  | within {ended : List ρ} {x y : σ} (hk : ended.length = k) :
      Beside k ⟨ended, some x⟩ ⟨ended, some y⟩
  | behind {ended ended' : List ρ} {current : Option σ} (h : AgreeBut k ended ended') :
      Beside k ⟨ended, current⟩ ⟨ended', current⟩

theorem Beside.results {k : Nat} {s t : State σ ρ} (h : Beside k s t) :
    AgreeBut k (cut.results s) (cut.results t) := by
  cases h with
  | within hk =>
    subst hk
    exact agreeBut_last _ _ _
  | behind h => exact h.append _

theorem Beside.next {k : Nat} {s t : State σ ρ} (h : Beside k s t) (a : α) :
    Beside k (cut.next s a) (cut.next t a) := by
  have hresults := h.results cut
  unfold Cutter.next
  cases cut.mark a with
  | opens => exact .behind hresults
  | closes =>
    cases h with
    | within hk =>
      subst hk
      exact .behind (agreeBut_last _ _ _)
    | behind h => exact .behind (h.append _)
  | inner =>
    cases h with
    | within hk => exact .within hk
    | behind h => exact .behind h

theorem Beside.run {k : Nat} {s t : State σ ρ} (h : Beside k s t) (items : List α) :
    Beside k (items.foldl cut.next s) (items.foldl cut.next t) := by
  induction items generalizing s t with
  | nil => exact h
  | cons a rest ih => exact ih (h.next cut a)

/-- Inner items change the open segment only. -/
theorem foldl_inner {items : List α} (h : ∀ a ∈ items, cut.mark a = .inner) (s : State σ ρ) :
    items.foldl cut.next s =
      ⟨s.ended, s.current.map fun x => items.foldl cut.step x⟩ := by
  induction items generalizing s with
  | nil => cases s with | mk ended current => cases current <;> rfl
  | cons a rest ih =>
    have ha := h a (List.mem_cons_self ..)
    rw [List.foldl_cons, ih fun b hb => h b (List.mem_cons_of_mem _ hb), Cutter.next, ha]
    cases s.current <;> rfl

/-- Inner items in the place of others change the result of the segment they are in, and
nothing if no segment is open there. -/
theorem results_replace (before : List α) {middle middle' : List α} (after : List α)
    (h : ∀ a ∈ middle, cut.mark a = .inner) (h' : ∀ a ∈ middle', cut.mark a = .inner) :
    AgreeBut (cut.opened before - 1) (cut.results (cut.run (before ++ middle ++ after)))
        (cut.results (cut.run (before ++ middle' ++ after))) ∧
      (cut.isOpen before = false → cut.results (cut.run (before ++ middle ++ after)) =
        cut.results (cut.run (before ++ middle' ++ after))) := by
  have hlength := cut.run_length before
  have hcurrent := cut.run_current before
  have hrun : ∀ {items : List α}, (∀ a ∈ items, cut.mark a = .inner) →
      cut.run (before ++ items ++ after) = after.foldl cut.next
        ⟨(cut.run before).ended, (cut.run before).current.map fun x => items.foldl cut.step x⟩ := by
    intro items hitems
    rw [Cutter.run, List.foldl_append, List.foldl_append, cut.foldl_inner hitems]
    rfl
  rw [hrun h, hrun h']
  generalize cut.run before = s at *
  obtain ⟨ended, current⟩ := s
  cases current with
  | none => exact ⟨⟨rfl, fun _ _ => rfl⟩, fun _ => rfl⟩
  | some x =>
    have hk : ended.length = cut.opened before - 1 := by
      rw [← hlength]
      simp [Cutter.results]
    refine ⟨((Beside.within hk).run cut after).results cut, fun hclosed => ?_⟩
    rw [hclosed] at hcurrent
    cases hcurrent

end Cutter
end Segments
