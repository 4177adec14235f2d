import VitaCheat.PsvGrammar
import VitaCheat.PsvImport

/-!
# A document after another

Appending a document to another moves its spans by the bytes before them and its
indices by the records before them. Every operation of the importer on the
appended document is the operation on the second document alone, so nothing of
the first reaches into it.
-/
namespace VitaCheat.Psv

/-- How far records move. -/
structure Shift where
  bytes : Nat
  lines : Nat
  cheats : Nat
  operations : Nat

def Span.shift (n : Nat) (s : Span) : Span := ⟨s.offset + BitVec.ofNat 32 n, s.length⟩

/-- An index moves unless it is `VC_PSV_NO_INDEX`. -/
def shiftIndex (p : Platform) (n i : Nat) : Nat := if i = noIndex p then i else i + n

def Line.shift (p : Platform) (σ : Shift) (l : Line) : Line where
  raw := l.raw.shift σ.bytes
  content := l.content.shift σ.bytes
  kind := l.kind
  cheatIndex := shiftIndex p σ.cheats l.cheatIndex
  operationIndex := shiftIndex p σ.operations l.operationIndex

def Cheat.shift (σ : Shift) (c : Cheat) : Cheat :=
  { c with
    description := c.description.shift σ.bytes
    headerLineIndex := c.headerLineIndex + σ.lines
    firstOperationIndex := c.firstOperationIndex + σ.operations }

def Operation.shift (σ : Shift) (o : Operation) : Operation :=
  { o with cheatIndex := o.cheatIndex + σ.cheats, lineIndex := o.lineIndex + σ.lines }

def Bounds.shift (n : Nat) (b : Bounds) : Bounds :=
  ⟨b.rawBegin + n, b.rawEnd + n, b.contentBegin + n, b.contentEnd + n⟩

def LineText.shift (n : Nat) (t : LineText) : LineText :=
  ⟨t.bounds.shift n, t.trimmedBegin + n, t.text⟩

/-- The violation that a source with too many cheats counts once. -/
def overLimit (cheats : Nat) : Nat := if cheats > legacyMaxCheats then 1 else 0

theorem overLimit_succ (n : Nat) :
    overLimit (n + 1) = overLimit n + if n + 1 = legacyMaxCheats + 1 then 1 else 0 := by
  simp only [overLimit]
  split <;> split <;> split <;> omega

@[simp] theorem shiftIndex_none (p : Platform) (n : Nat) :
    shiftIndex p n (noIndex p) = noIndex p := if_pos rfl

theorem shiftIndex_some {p : Platform} {i : Nat} (h : i < noIndex p) (n : Nat) :
    shiftIndex p n i = i + n := if_neg (Nat.ne_of_lt h)

@[simp] theorem shift_raw (n : Nat) (b : Bounds) : (b.shift n).raw = b.raw.shift n := by
  simp [Bounds.raw, Bounds.shift, Span.shift, BitVec.ofNat_add, Nat.add_sub_add_right]

@[simp] theorem shift_content (n : Nat) (b : Bounds) :
    (b.shift n).content = b.content.shift n := by
  simp [Bounds.content, Bounds.shift, Span.shift, BitVec.ofNat_add, Nat.add_sub_add_right]

@[simp] theorem raise_shift (σ : Shift) (state : TranslationState) (c : Cheat) :
    (c.shift σ).raise state = (c.raise state).shift σ := by
  unfold Cheat.raise Cheat.shift
  split <;> rfl

/-- Changing a record of the second part. -/
theorem modify_append_map {α γ : Type} {s : γ → α} {f : α → α} {g : γ → γ}
    (hfg : ∀ c, s (g c) = f (s c)) (xs : List α) (ys : List γ) (k : Nat) :
    (xs ++ ys.map s).modify (k + xs.length) f = xs ++ (ys.modify k g).map s := by
  rw [map_modify_of hfg]
  apply List.ext_getElem?
  intro j
  rw [List.getElem?_modify]
  by_cases hj : j < xs.length
  · rw [List.getElem?_append_left hj, List.getElem?_append_left hj]
    simp [show k + xs.length ≠ j by omega]
  · have hj : xs.length ≤ j := Nat.le_of_not_lt hj
    rw [List.getElem?_append_right hj, List.getElem?_append_right hj, List.getElem?_modify]
    simp only [show k + xs.length = j ↔ k = j - xs.length by omega]

namespace Document

variable (p : Platform) (n : Nat)

/-- How far the records of a document move behind `n` bytes with the records of `a`. -/
def shift (a : Document) : Shift := ⟨n, a.lines.length, a.cheats.length, a.operations.length⟩

/-- The violations without the one for too many cheats. -/
def perCheat (d : Document) : Nat := d.legacy - overLimit d.cheats.length

/-- The document `b` behind `n` bytes of the document `a`, whose scope is closed. -/
def append (a b : Document) : Document where
  lines := a.lines ++ b.lines.map (Line.shift p (a.shift n))
  cheats := a.cheats ++ b.cheats.map (Cheat.shift (a.shift n))
  operations := a.operations ++ b.operations.map (Operation.shift (a.shift n))
  unsupported := a.unsupported + b.unsupported
  nonDirect := a.nonDirect + b.nonDirect
  invalid := a.invalid + b.invalid
  malformed := a.malformed + b.malformed
  legacy := a.perCheat + b.perCheat + overLimit (a.cheats.length + b.cheats.length)
  active := b.active.map (· + a.cheats.length)
  count := b.count
  tainted := b.tainted
  base := b.base
  write := b.write

variable {p n} {a b : Document}

theorem append_addLine (bounds : Bounds) :
    (append p n a b).addLine p (bounds.shift n) = append p n a (b.addLine p bounds) := by
  simp [append, addLine, perCheat, Line.shift, shift]

theorem append_markLast {f g : Line → Line}
    (hfg : ∀ l, (g l).shift p (a.shift n) = f (l.shift p (a.shift n))) (hb : b.lines ≠ []) :
    (append p n a b).markLast f = append p n a (b.markLast g) := by
  have hlast : (a.lines ++ b.lines.map (Line.shift p (a.shift n))).length - 1 =
      b.lines.length - 1 + a.lines.length := by
    have := List.length_pos_of_ne_nil hb
    rw [List.length_append, List.length_map]
    omega
  have hmodify := modify_append_map hfg a.lines b.lines (b.lines.length - 1)
  simp only [append, markLast, perCheat, hlast, hmodify]

theorem append_markKind (kind : LineKind) (hb : b.lines ≠ []) :
    (append p n a b).markLast (fun l => { l with kind := kind }) =
      append p n a (b.markLast fun l => { l with kind := kind }) :=
  append_markLast (fun _ => rfl) hb

theorem append_markCheat (kind : LineKind) {i : Nat} (hb : b.lines ≠ []) :
    (append p n a b).markLast
        (fun l => { l with kind := kind, cheatIndex := shiftIndex p a.cheats.length i }) =
      append p n a (b.markLast fun l => { l with kind := kind, cheatIndex := i }) :=
  append_markLast (fun _ => rfl) hb

theorem append_taint (state : TranslationState) :
    (append p n a b).taint state = append p n a (b.taint state) := by
  cases hb : b.active with
  | none => simp [append, taint, hb]
  | some k =>
    have hmodify := modify_append_map (f := (·.raise state)) (g := (·.raise state))
      (fun c => (raise_shift (a.shift n) state c).symm) a.cheats b.cheats k
    have hcount : (if b.tainted then a.nonDirect + b.nonDirect
        else a.nonDirect + b.nonDirect + 1) =
        a.nonDirect + if b.tainted then b.nonDirect else b.nonDirect + 1 := by
      split <;> rfl
    simp only [append, taint, perCheat, hb, Option.map_some, hmodify, hcount, List.length_modify]

theorem append_countInvalid :
    (append p n a b).countInvalid = append p n a b.countInvalid := rfl

theorem append_countMalformed :
    (append p n a b).countMalformed = append p n a b.countMalformed := rfl

theorem append_finalize : (append p n a b).finalize = append p n a b.finalize := by
  have hcond : ((append p n a b).active.isSome && (append p n a b).base &&
      !(append p n a b).write) = (b.active.isSome && b.base && !b.write) := by
    simp [append]
  rw [finalize, finalize, hcond, append_countInvalid, append_taint]
  split <;> rfl

theorem append_activate_none :
    (append p n a b).activate none = append p n a (b.activate none) := rfl

/-- The violations of too many cheats stay apart from those of each cheat. -/
def Legal (d : Document) : Prop := overLimit d.cheats.length ≤ d.legacy

theorem append_last (hb : b.lines ≠ []) :
    (append p n a b).lines.length - 1 = b.lines.length - 1 + a.lines.length := by
  have := List.length_pos_of_ne_nil hb
  simp only [append, List.length_append, List.length_map]
  omega

theorem append_cheats_length :
    (append p n a b).cheats.length = b.cheats.length + a.cheats.length := by
  simp only [append, List.length_append, List.length_map, Nat.add_comm]

theorem append_operations_length :
    (append p n a b).operations.length = b.operations.length + a.operations.length := by
  simp only [append, List.length_append, List.length_map, Nat.add_comm]

/-- The violations of each cheat add up. -/
theorem append_perCheat : (append p n a b).perCheat = a.perCheat + b.perCheat := by
  rw [perCheat, append_cheats_length, Nat.add_comm b.cheats.length]
  show a.perCheat + b.perCheat + overLimit _ - overLimit _ = _
  exact Nat.add_sub_cancel _ _

theorem append_activate (k : Nat) :
    (append p n a b).activate (some (k + a.cheats.length)) =
      append p n a (b.activate (some k)) := rfl

/-- A further cheat counts the violation of too many cheats where the sum crosses it. -/
theorem append_legacy_cheat (hlegal : b.Legal) (long : Nat) :
    (append p n a b).legacy + long +
        (if (append p n a b).cheats.length + 1 = legacyMaxCheats + 1 then 1 else 0) =
      a.perCheat + (b.legacy + long +
        (if b.cheats.length + 1 = legacyMaxCheats + 1 then 1 else 0) -
          overLimit (b.cheats.length + 1)) +
        overLimit (a.cheats.length + (b.cheats.length + 1)) := by
  have hb := overLimit_succ b.cheats.length
  have hab := overLimit_succ (a.cheats.length + b.cheats.length)
  rw [Legal] at hlegal
  rw [append_cheats_length, ← Nat.add_assoc, Nat.add_comm b.cheats.length a.cheats.length]
  have hlegacy : (append p n a b).legacy = a.perCheat + (b.legacy - overLimit b.cheats.length) +
      overLimit (a.cheats.length + b.cheats.length) := rfl
  omega

theorem append_openCheat (hb : b.lines ≠ []) (hlegal : b.Legal)
    (hfew : b.cheats.length < noIndex p) (activation : Activation) (first size : Nat) :
    (append p n a b).openCheat activation (first + n) size =
      append p n a (b.openCheat activation first size) := by
  have hlegacy := append_legacy_cheat (p := p) (n := n) (a := a) hlegal
    (if size > legacyMaxDescriptionBytes then 1 else 0)
  have hpush : ∀ legacy legacy' : Nat, legacy = a.perCheat +
        (legacy' - overLimit (b.cheats.length + 1)) +
        overLimit (a.cheats.length + (b.cheats.length + 1)) →
      { append p n a b with
        cheats := (append p n a b).cheats ++
          [⟨activation, .directOnly, ⟨BitVec.ofNat 32 (first + n), BitVec.ofNat 32 size⟩,
            (append p n a b).lines.length - 1, (append p n a b).operations.length, 0⟩]
        legacy := legacy } =
      append p n a { b with
        cheats := b.cheats ++ [⟨activation, .directOnly,
          ⟨BitVec.ofNat 32 first, BitVec.ofNat 32 size⟩, b.lines.length - 1,
            b.operations.length, 0⟩]
        legacy := legacy' } := by
    rintro legacy legacy' rfl
    rw [append_last hb, append_operations_length]
    simp [append, perCheat, Cheat.shift, Span.shift, shift, BitVec.ofNat_add]
  simp only [openCheat]
  rw [hpush _ _ hlegacy, append_cheats_length, ← append_activate, ← shiftIndex_some hfew,
    append_markCheat]
  exact hb

theorem append_closeMalformed (hb : b.lines ≠ []) :
    (append p n a b).closeMalformed = append p n a b.closeMalformed := by
  simp only [closeMalformed]
  rw [append_markKind .malformed hb, append_countMalformed, append_taint, append_activate_none]

theorem append_malformedCode (hb : b.lines ≠ []) :
    (append p n a b).malformedCode = append p n a b.malformedCode := by
  simp only [malformedCode]
  rw [append_markKind .malformed hb, append_countMalformed, append_taint]

theorem append_applyKind (c : Code) :
    (append p n a b).applyKind c = append p n a (b.applyKind c) := by
  unfold applyKind
  split
  · have haccepts : (append p n a b).acceptsSelector c = b.acceptsSelector c := rfl
    rw [selectModule, selectModule, haccepts, append_countInvalid]
    split
    · exact append_taint (b := { b with base := true, write := false }) _
    · exact append_taint _
  · exact append_taint (b := { b with unsupported := b.unsupported + 1 }) _
  all_goals
    have hbase : (append p n a b).base = b.base := rfl
    rw [hbase]
    split <;> rfl

theorem append_record (hb : b.lines ≠ []) (k : Nat) (c : Code) :
    (append p n a b).record (k + a.cheats.length) c = (b.record k c).shift (a.shift n) := by
  simp only [record, append_last hb, Operation.shift, shift]
  rfl

theorem append_countOperation (hlegal : b.Legal) (k : Nat) :
    (append p n a b).countOperation (k + a.cheats.length) = append p n a (b.countOperation k) := by
  have hmodify := modify_append_map (s := Cheat.shift (a.shift n))
    (f := fun cheat => { cheat with operationCount := cheat.operationCount + 1 })
    (g := fun cheat => { cheat with operationCount := cheat.operationCount + 1 })
    (fun _ => rfl) a.cheats b.cheats k
  have hlegacy : (if b.count + 1 = legacyMaxCodesPerCheat + 1 then (append p n a b).legacy + 1
      else (append p n a b).legacy) = a.perCheat +
        ((if b.count + 1 = legacyMaxCodesPerCheat + 1 then b.legacy + 1 else b.legacy) -
          overLimit b.cheats.length) + overLimit (a.cheats.length + b.cheats.length) := by
    have hdef : (append p n a b).legacy = a.perCheat + (b.legacy - overLimit b.cheats.length) +
        overLimit (a.cheats.length + b.cheats.length) := rfl
    rw [Legal] at hlegal
    split <;> omega
  have hcount : (append p n a b).count = b.count := rfl
  have hcheats : (append p n a b).cheats = a.cheats ++ b.cheats.map (Cheat.shift (a.shift n)) := rfl
  simp only [countOperation]
  rw [hcount, hlegacy, hcheats, hmodify]
  simp only [append, perCheat, List.length_modify]

theorem taint_legacy (d : Document) (state : TranslationState) :
    (d.taint state).legacy = d.legacy := by
  unfold taint
  split <;> rfl

theorem finalize_legacy (d : Document) : d.finalize.legacy = d.legacy := by
  unfold finalize
  split
  · exact taint_legacy _ _
  · rfl

theorem applyKind_legacy (d : Document) (c : Code) : (d.applyKind c).legacy = d.legacy := by
  unfold applyKind selectModule
  split
  · split
    · exact taint_legacy _ _
    · exact taint_legacy _ _
  · exact taint_legacy _ _
  all_goals
    split <;> rfl

theorem legal_taint {d : Document} (h : d.Legal) (state : TranslationState) :
    (d.taint state).Legal := by
  rw [Legal, taint_cheats_length, taint_legacy]
  exact h

theorem legal_finalize {d : Document} (h : d.Legal) : d.finalize.Legal := by
  rw [Legal, finalize_cheats_length, finalize_legacy]
  exact h

theorem legal_applyKind {d : Document} (h : d.Legal) (c : Code) : (d.applyKind c).Legal := by
  rw [Legal, applyKind_cheats_length, applyKind_legacy]
  exact h

theorem legal_openCheat {d : Document} (h : d.Legal) (activation : Activation)
    (first size : Nat) : (d.openCheat activation first size).Legal := by
  have hsucc := overLimit_succ d.cheats.length
  simp only [Legal] at h
  simp only [Legal, openCheat, activate, markLast, List.length_append, List.length_singleton]
  omega

theorem legal_countOperation {d : Document} (h : d.Legal) (k : Nat) :
    (d.countOperation k).Legal := by
  simp only [Legal] at h
  simp only [Legal, countOperation, List.length_modify]
  split <;> omega

theorem legal_step {d : Document} (h : d.Legal) (t : LineText) : (d.step p t).Legal := by
  have hadd : (d.addLine p t.bounds).Legal := h
  unfold step
  cases classify t.text with
  | blank => exact hadd
  | comment => exact hadd
  | header activation description => exact legal_openCheat (legal_finalize hadd) _ _ _
  | badHeader =>
    exact legal_taint (d := ((d.addLine p t.bounds).finalize.markLast _).countMalformed)
      (legal_finalize hadd) _
  | badCode => exact legal_taint (d := ((d.addLine p t.bounds).markLast _).countMalformed) hadd _
  | opaqueLine => exact legal_taint (d := (d.addLine p t.bounds).markLast _) hadd _
  | code c =>
    dsimp only
    cases (d.addLine p t.bounds).active with
    | none =>
      exact legal_taint (d := ((d.addLine p t.bounds).markLast _).countMalformed) hadd _
    | some k => exact legal_countOperation (legal_applyKind hadd c) k

theorem append_addOperation (hb : b.lines ≠ []) (hlegal : b.Legal) {k : Nat}
    (hk : k < noIndex p) (hfew : b.operations.length < noIndex p) (c : Code) :
    (append p n a b).addOperation (k + a.cheats.length) c =
      append p n a (b.addOperation k c) := by
  have hpush : { append p n a (b.applyKind c) with
        operations := (append p n a b).operations ++ [(b.record k c).shift (a.shift n)] } =
      append p n a { b.applyKind c with operations := b.operations ++ [b.record k c] } := by
    simp [append, perCheat]
  have hmark : ∀ l : Line, Line.shift p (a.shift n)
        { l with kind := .code, cheatIndex := k, operationIndex := b.operations.length } =
      { l.shift p (a.shift n) with
        kind := .code
        cheatIndex := k + a.cheats.length
        operationIndex := b.operations.length + a.operations.length } := by
    intro l
    simp only [Line.shift, shift, shiftIndex_some hk, shiftIndex_some hfew]
  have hlines : { b.applyKind c with operations := b.operations ++ [b.record k c] }.lines ≠ [] := by
    rw [← applyKind_lines b c] at hb
    exact hb
  simp only [addOperation]
  rw [append_applyKind, append_record hb, hpush, append_operations_length,
    append_markLast hmark hlines, append_countOperation]
  exact legal_applyKind hlegal c

/-- Cheat and operation indices that are told apart from `VC_PSV_NO_INDEX`. -/
structure Indexed (p : Platform) (d : Document) : Prop where
  fits : d.Fits p
  operations : d.operations.length < noIndex p

theorem append_activeIndex (hb : b.Indexed p) :
    (append p n a b).activeIndex p = shiftIndex p a.cheats.length (b.activeIndex p) := by
  have hactive : (append p n a b).active = b.active.map (· + a.cheats.length) := rfl
  cases hk : b.active with
  | none =>
    rw [hk] at hactive
    rw [activeIndex_none hk, activeIndex_none hactive, shiftIndex_none]
  | some k =>
    rw [hk] at hactive
    rw [activeIndex_some hk, activeIndex_some hactive, shiftIndex_some]
    exact Nat.lt_trans (hb.fits.active k hk) hb.fits.few

/-- A line of the second part acts on the second part alone. -/
theorem append_step (hlegal : b.Legal) (hb : b.Indexed p) (t : LineText) :
    (append p n a b).step p (t.shift n) = append p n a (b.step p t) := by
  have hadd := append_addLine (p := p) (n := n) (a := a) (b := b) t.bounds
  have hlines : (b.addLine p t.bounds).lines ≠ [] := by simp [addLine]
  have htext : (t.shift n).text = t.text := rfl
  have hbounds : (t.shift n).bounds = t.bounds.shift n := rfl
  have hbegin : (t.shift n).trimmedBegin = t.trimmedBegin + n := rfl
  rw [step, step, htext, hbounds, hbegin, hadd]
  cases hclass : classify t.text with
  | blank => exact append_markKind .blank hlines
  | comment => exact append_markKind .comment hlines
  | header activation description =>
    have hsize : description.length ≤ t.text.length := by
      obtain ⟨s, hs, -, hd⟩ := classify_header hclass
      have hlength := s.description_length
      rw [hs, hd] at hlength
      omega
    have hlegal' : (b.addLine p t.bounds).Legal := hlegal
    dsimp only
    rw [append_finalize, show t.trimmedBegin + n + t.text.length - description.length =
      t.trimmedBegin + t.text.length - description.length + n by omega]
    refine append_openCheat ?_ (legal_finalize hlegal') ?_ activation _ _
    · rw [finalize_lines]
      exact hlines
    · rw [finalize_cheats_length]
      exact hb.fits.few
  | badHeader =>
    dsimp only
    rw [append_finalize]
    exact append_closeMalformed (by rwa [finalize_lines])
  | badCode => exact append_malformedCode hlines
  | opaqueLine =>
    dsimp only
    rw [append_activeIndex (b := b.addLine p t.bounds) ⟨⟨hb.fits.few, hb.fits.active⟩, hb.operations⟩,
      append_markCheat .opaqueLine hlines, append_taint]
  | code c =>
    have hactive : (append p n a (b.addLine p t.bounds)).active =
        b.active.map (· + a.cheats.length) := rfl
    have hactive' : (b.addLine p t.bounds).active = b.active := rfl
    dsimp only
    rw [hactive, hactive']
    cases hk : b.active with
    | none => exact append_malformedCode hlines
    | some k =>
      exact append_addOperation hlines hlegal
        (Nat.lt_trans (hb.fits.active k hk) hb.fits.few) hb.operations c

end Document
end VitaCheat.Psv
