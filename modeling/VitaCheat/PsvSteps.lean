import VitaCheat.PsvDocument

/-!
# What one line does to the document

A line appends one line record and at most one cheat or operation, and moves the
active cheat. Each list of the document gets one equation, by the class of the
line, and the invariants of the document are read off these.
-/
namespace VitaCheat.Psv

/-- The part of a cheat record that taints leave alone. -/
structure Frame where
  headerLineIndex : Nat
  firstOperationIndex : Nat
  operationCount : Nat
  deriving DecidableEq, Repr

def Cheat.frame (c : Cheat) : Frame :=
  ⟨c.headerLineIndex, c.firstOperationIndex, c.operationCount⟩

def Frame.count (f : Frame) : Frame := { f with operationCount := f.operationCount + 1 }

@[simp] theorem raise_frame (state : TranslationState) (c : Cheat) :
    (c.raise state).frame = c.frame := by
  unfold Cheat.raise
  split <;> rfl

theorem map_modify_of {α γ : Type} {g : α → γ} {f : α → α} {h : γ → γ}
    (hfg : ∀ a, g (f a) = h (g a)) (xs : List α) (k : Nat) :
    (xs.modify k f).map g = (xs.map g).modify k h := by
  apply List.ext_getElem?
  intro j
  simp only [List.getElem?_map, List.getElem?_modify]
  by_cases hj : k = j
  · subst hj
    cases xs[k]? <;> simp [hfg]
  · simp [hj]

theorem map_modify_same {α γ : Type} {g : α → γ} {f : α → α} (hfg : ∀ a, g (f a) = g a)
    (xs : List α) (k : Nat) : (xs.modify k f).map g = xs.map g := by
  rw [map_modify_of (h := id) hfg, List.modify_id]

theorem modify_concat {α : Type} (xs : List α) (a : α) (f : α → α) :
    (xs ++ [a]).modify xs.length f = xs ++ [f a] := by
  apply List.ext_getElem?
  intro j
  rw [List.getElem?_modify]
  rcases Nat.lt_trichotomy j xs.length with hj | hj | hj
  · rw [List.getElem?_append_left hj, List.getElem?_append_left hj]
    simp [show xs.length ≠ j by omega]
  · subst hj
    simp
  · rw [List.getElem?_eq_none (by simp; omega), List.getElem?_eq_none (by simp; omega)]
    rfl

namespace Document

def frames (d : Document) : List Frame := d.cheats.map Cheat.frame

section Unraised

variable {γ : Type} {g : Cheat → γ} (hg : ∀ state c, g (c.raise state) = g c)

include hg

/-- A part of the cheats that no taint changes. -/
theorem taint_map (d : Document) (state : TranslationState) :
    (d.taint state).cheats.map g = d.cheats.map g := by
  unfold taint
  split
  · rfl
  · exact map_modify_same (hg state) _ _

theorem finalize_map (d : Document) : d.finalize.cheats.map g = d.cheats.map g := by
  unfold finalize
  split
  · exact taint_map hg _ _
  · rfl

theorem applyKind_map (d : Document) (c : Code) :
    (d.applyKind c).cheats.map g = d.cheats.map g := by
  unfold applyKind selectModule
  split
  · split
    · exact taint_map hg _ _
    · exact taint_map hg _ _
  · exact taint_map hg _ _
  all_goals
    split <;> rfl

end Unraised

@[simp] theorem taint_frames (d : Document) (state : TranslationState) :
    (d.taint state).frames = d.frames := taint_map raise_frame d state

@[simp] theorem finalize_frames (d : Document) : d.finalize.frames = d.frames :=
  finalize_map raise_frame d

@[simp] theorem applyKind_frames (d : Document) (c : Code) : (d.applyKind c).frames = d.frames :=
  applyKind_map raise_frame d c

variable (p : Platform)

/-- The record that a line leaves. -/
def lineRecord (d : Document) (t : LineText) : Line :=
  match classify t.text, d.active with
  | .blank, _ => ⟨t.bounds.raw, t.bounds.content, .blank, noIndex p, noIndex p⟩
  | .comment, _ => ⟨t.bounds.raw, t.bounds.content, .comment, noIndex p, noIndex p⟩
  | .header _ _, _ =>
    ⟨t.bounds.raw, t.bounds.content, .cheatHeader, d.cheats.length, noIndex p⟩
  | .code _, some k => ⟨t.bounds.raw, t.bounds.content, .code, k, d.operations.length⟩
  | .opaqueLine, _ => ⟨t.bounds.raw, t.bounds.content, .opaqueLine, d.activeIndex p, noIndex p⟩
  | .badHeader, _ | .badCode, _ | .code _, none =>
    ⟨t.bounds.raw, t.bounds.content, .malformed, noIndex p, noIndex p⟩

theorem markLast_lines {d : Document} {ls : List Line} {l : Line} (h : d.lines = ls ++ [l])
    (f : Line → Line) : (d.markLast f).lines = ls ++ [f l] := by
  rw [markLast, h, List.length_append, List.length_singleton, Nat.add_sub_cancel, modify_concat]

theorem addLine_lines (d : Document) (b : Bounds) : (d.addLine p b).lines =
    d.lines ++ [⟨b.raw, b.content, .opaqueLine, noIndex p, noIndex p⟩] := rfl

theorem malformedCode_lines {d : Document} {ls : List Line} {l : Line} (h : d.lines = ls ++ [l]) :
    d.malformedCode.lines = ls ++ [{ l with kind := .malformed }] := by
  rw [malformedCode, taint_lines]
  exact markLast_lines h _

theorem step_lines (d : Document) (t : LineText) :
    (d.step p t).lines = d.lines ++ [d.lineRecord p t] := by
  have hadd := addLine_lines p d t.bounds
  have hfin : (d.addLine p t.bounds).finalize.lines = _ := (finalize_lines _).trans hadd
  unfold step lineRecord
  cases hclass : classify t.text with
  | blank => exact markLast_lines hadd _
  | comment => exact markLast_lines hadd _
  | header activation description =>
    simp only [openCheat, activate]
    exact (markLast_lines (d := { (d.addLine p t.bounds).finalize with
      cheats := _, legacy := _ }) hfin _).trans (by rw [finalize_cheats_length]; rfl)
  | badHeader =>
    simp only [closeMalformed, activate, taint_lines, countMalformed]
    exact markLast_lines hfin _
  | badCode => exact malformedCode_lines hadd
  | opaqueLine =>
    simp only [taint_lines]
    exact markLast_lines hadd _
  | code c =>
    have hactive : (d.addLine p t.bounds).active = d.active := rfl
    simp only [hactive]
    cases d.active with
    | none => exact malformedCode_lines hadd
    | some k =>
      simp only [addOperation, countOperation]
      exact markLast_lines (d := { (d.addLine p t.bounds).applyKind c with operations := _ })
        ((applyKind_lines _ c).trans hadd) _

/-- The operation that a line appends, if any. -/
def lineOperation (d : Document) (t : LineText) : Option Operation :=
  match classify t.text, d.active with
  | .code c, some k => some { d.record k c with lineIndex := d.lines.length }
  | _, _ => none

theorem step_operations (d : Document) (t : LineText) :
    (d.step p t).operations = d.operations ++ (d.lineOperation t).toList := by
  unfold step lineOperation
  cases hclass : classify t.text with
  | code c =>
    have hactive : (d.addLine p t.bounds).active = d.active := rfl
    simp only [hactive]
    cases d.active with
    | none => simp [malformedCode, countMalformed, markLast, addLine]
    | some k =>
      simp [addOperation, countOperation, markLast, addLine, record, addressMode]
      rfl
  | _ =>
    simp [openCheat, closeMalformed, malformedCode, activate, countMalformed, markLast, addLine]

theorem step_active (d : Document) (t : LineText) :
    (d.step p t).active =
      match classify t.text with
      | .header _ _ => some d.cheats.length
      | .badHeader => none
      | _ => d.active := by
  unfold step
  cases hclass : classify t.text with
  | code c =>
    have hactive : (d.addLine p t.bounds).active = d.active := rfl
    simp only [hactive]
    cases hd : d.active with
    | none => simp [malformedCode, countMalformed, markLast, addLine, hd]
    | some k => simp [addOperation, countOperation, markLast, addLine, hd]
  | _ =>
    simp [openCheat, closeMalformed, malformedCode, activate, countMalformed, markLast, addLine]

theorem step_frames (d : Document) (t : LineText) :
    (d.step p t).frames =
      match classify t.text, d.active with
      | .header _ _, _ => d.frames ++ [⟨d.lines.length, d.operations.length, 0⟩]
      | .code _, some k => d.frames.modify k Frame.count
      | _, _ => d.frames := by
  have hadd : (d.addLine p t.bounds).frames = d.frames := rfl
  unfold step
  cases hclass : classify t.text with
  | code c =>
    have hactive : (d.addLine p t.bounds).active = d.active := rfl
    simp only [hactive]
    cases d.active with
    | none => exact (taint_frames _ _).trans hadd
    | some k =>
      have hkind : ((d.addLine p t.bounds).applyKind c).frames = d.frames :=
        (applyKind_frames _ c).trans hadd
      simp only [addOperation, countOperation, markLast, frames] at hkind ⊢
      rw [map_modify_of (g := Cheat.frame) (h := Frame.count) (fun _ => rfl), hkind]
  | header activation description =>
    have hfin : (d.addLine p t.bounds).finalize.frames = d.frames :=
      (finalize_frames _).trans hadd
    simp only [openCheat, activate, markLast, frames, List.map_append, List.map_singleton] at hfin ⊢
    rw [hfin]
    simp [Cheat.frame, addLine]
  | badHeader =>
    simp only [closeMalformed]
    exact (taint_frames _ _).trans ((finalize_frames _).trans hadd)
  | badCode => exact (taint_frames _ _).trans hadd
  | opaqueLine => exact (taint_frames _ _).trans hadd
  | blank => rfl
  | comment => rfl

/-- Only a header adds a header line. -/
theorem step_headers (d : Document) (t : LineText) :
    (d.step p t).frames.map Frame.headerLineIndex = d.frames.map Frame.headerLineIndex ++
      match classify t.text with
      | .header _ _ => [d.lines.length]
      | _ => [] := by
  rw [step_frames]
  cases classify t.text with
  | header activation description => exact List.map_append
  | code c =>
    cases d.active with
    | none => exact (List.append_nil _).symm
    | some k =>
      exact (map_modify_same (f := Frame.count) (fun _ => rfl) _ _).trans (List.append_nil _).symm
  | _ => exact (List.append_nil _).symm

theorem frames_length (d : Document) : d.frames.length = d.cheats.length := List.length_map _

theorem step_lines_length (d : Document) (t : LineText) :
    (d.step p t).lines.length = d.lines.length + 1 := by
  rw [step_lines, List.length_append, List.length_singleton]

theorem foldl_step_lines_length (ts : List LineText) (d : Document) :
    (ts.foldl (step p) d).lines.length = d.lines.length + ts.length := by
  induction ts generalizing d with
  | nil => rfl
  | cons t rest ih =>
    rw [List.foldl_cons, ih, step_lines_length, List.length_cons]
    omega

theorem step_cheats_length (d : Document) (t : LineText) :
    (d.step p t).cheats.length =
      match classify t.text with
      | .header _ _ => d.cheats.length + 1
      | _ => d.cheats.length := by
  rw [← frames_length, step_frames, ← frames_length]
  cases classify t.text with
  | header activation description => exact List.length_append
  | code c =>
    cases d.active with
    | none => rfl
    | some k => exact List.length_modify _ _ _
  | _ => rfl

/-- The active cheat is the last one, and every cheat has a header line. -/
structure Current (d : Document) : Prop where
  active : ∀ k, d.active = some k → k + 1 = d.cheats.length
  few : d.cheats.length ≤ d.lines.length

theorem current_empty : Current .empty where
  active := fun _ h => nomatch h
  few := Nat.le_refl 0

theorem current_step {d : Document} (hd : d.Current) (t : LineText) : (d.step p t).Current := by
  have hfew := hd.few
  constructor
  · intro k
    rw [step_active, step_cheats_length]
    cases classify t.text with
    | header activation description => exact fun h => congrArg (· + 1) (Option.some.inj h).symm
    | badHeader => exact fun h => nomatch h
    | _ => exact hd.active k
  · rw [step_lines_length, step_cheats_length]
    cases classify t.text with
    | header activation description => exact Nat.succ_le_succ hfew
    | _ => exact Nat.le_succ_of_le hfew

end Document
end VitaCheat.Psv
