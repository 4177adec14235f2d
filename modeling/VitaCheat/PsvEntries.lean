import VitaCheat.PsvSelectors
import VitaCheat.PsvInert

/-!
# The entries of a file

What a file says, apart from how it is laid out: a list of entries, each with the
codes of its scope. The records of an import hold exactly the entries of its source,
and sources whose lines have the same classes are imported alike.
-/
namespace VitaCheat.Psv

open Tiling (slice)

variable {β γ : Type}

/-- What one cheat of a file says. -/
structure Entry where
  activation : Activation
  description : List UInt8
  codes : List Code
  deriving DecidableEq, Repr

def Entry.push (c : Code) (e : Entry) : Entry := { e with codes := e.codes ++ [c] }

/-- The entries so far, and whether the scope of the last one is open. -/
structure Reading where
  entries : List Entry
  active : Bool
  deriving DecidableEq, Repr

namespace Reading

def empty : Reading := ⟨[], false⟩

def step (r : Reading) : LineClass → Reading
  | .header activation description => ⟨r.entries ++ [⟨activation, description, []⟩], true⟩
  | .badHeader => { r with active := false }
  | .code c =>
    if r.active then
      { r with entries := r.entries.modify (r.entries.length - 1) (Entry.push c) }
    else r
  | .blank | .comment | .badCode | .opaqueLine => r

end Reading

def entriesOf (classes : List LineClass) : List Entry :=
  (classes.foldl Reading.step .empty).entries

/-- The classes of the lines of a source that are not blank and no comments. -/
def sourceClasses (source : List UInt8) : List LineClass :=
  ((sourceTexts source).filter visible).map classify

/-- The entry that a cheat record and its range of operations hold. -/
def Cheat.entry (source : List UInt8) (operations : List Operation) (k : Cheat) : Entry where
  activation := k.activation
  description := k.description.bytes source
  codes := (slice operations k.range).map Operation.code

namespace Document

variable {p : Platform} {d : Document} {r : Reading}

/-- The codes of the cheats, by their ranges. -/
def codes (d : Document) : List (List Code) :=
  ((d.frames.map Frame.range).map (slice d.operations)).map (List.map Operation.code)

/-- The document holds what was read, apart from the descriptions. -/
structure Holds (d : Document) (r : Reading) : Prop where
  activations : d.titles.map Title.activation = r.entries.map Entry.activation
  codes : d.codes = r.entries.map Entry.codes
  active : d.active.isSome = r.active

theorem holds_empty : Holds .empty .empty := ⟨rfl, rfl, rfl⟩

theorem push_activations (es : List Entry) (i : Nat) (c : Code) :
    (es.modify i (Entry.push c)).map Entry.activation = es.map Entry.activation :=
  map_modify_same (f := Entry.push c) (fun _ => rfl) es i

theorem push_descriptions (es : List Entry) (i : Nat) (c : Code) :
    (es.modify i (Entry.push c)).map Entry.description = es.map Entry.description :=
  map_modify_same (f := Entry.push c) (fun _ => rfl) es i

theorem push_codes (es : List Entry) (i : Nat) (c : Code) :
    (es.modify i (Entry.push c)).map Entry.codes = (es.map Entry.codes).modify i (· ++ [c]) :=
  map_modify_of (g := Entry.codes) (f := Entry.push c) (fun _ => rfl) es i

theorem holds_length (h : d.Holds r) : r.entries.length = d.frames.length := by
  have hlength := congrArg List.length h.codes
  simpa [codes] using hlength.symm

/-- A line that leaves the cheats, the operations and the scope. -/
theorem holds_same {e : Document} (h : d.Holds r) (htitles : e.titles = d.titles)
    (hframes : e.frames = d.frames) (hoperations : e.operations = d.operations)
    (hactive : e.active = d.active) : e.Holds r where
  activations := by rw [htitles]; exact h.activations
  codes := by rw [codes, hframes, hoperations]; exact h.codes
  active := by rw [hactive]; exact h.active

theorem holds_step (hd : d.Current) (hgraph : d.Graph p) (h : d.Holds r) (t : LineText) :
    (d.step p t).Holds (r.step (classify t.text)) := by
  have hoperations := step_operations p d t
  have hframes := step_frames p d t
  have htitles := step_titles p d t
  have hactive := step_active p d t
  rw [lineOperation] at hoperations
  cases hclass : classify t.text with
  | blank | comment | badCode | opaqueLine =>
    simp only [hclass, Option.toList_none, List.append_nil] at hoperations hframes htitles hactive
    exact holds_same h htitles hframes hoperations hactive
  | badHeader =>
    simp only [hclass, Option.toList_none, List.append_nil] at hoperations hframes htitles hactive
    exact ⟨by rw [htitles]; exact h.activations, by rw [codes, hframes, hoperations]; exact h.codes,
      by rw [hactive]; rfl⟩
  | header activation description =>
    simp only [hclass, Option.toList_none, List.append_nil] at hoperations hframes htitles hactive
    constructor
    · rw [htitles, List.map_append, h.activations, Reading.step, List.map_append]
      rfl
    · have hopen := Tiling.slices_open d.operations (d.frames.map Frame.range) d.operations.length
      have hcodes : (d.step p t).codes = d.codes ++ [[]] := by
        rw [codes, codes, hframes, hoperations, List.map_append, List.map_singleton, Frame.range,
          hopen, List.map_append]
        rfl
      rw [hcodes, h.codes, Reading.step, List.map_append]
      rfl
    · rw [hactive]
      rfl
  | code c =>
    cases hd' : d.active with
    | none =>
      simp only [hclass, hd', Option.toList_none, List.append_nil]
        at hoperations hframes htitles hactive
      have hclosed : r.active = false := by rw [← h.active, hd']; rfl
      rw [Reading.step, hclosed]
      exact holds_same h htitles hframes hoperations (hactive.trans hd'.symm)
    | some k =>
      simp only [hclass, hd', Option.toList_some, List.append_nil]
        at hoperations hframes htitles hactive
      have hopen : r.active = true := by rw [← h.active, hd']; rfl
      have hk : k + 1 = d.frames.length := by
        rw [frames_length]
        exact hd.active k hd'
      have hlast : r.entries.length - 1 = k := by
        rw [holds_length h]
        omega
      have hranges : (d.frames.modify k Frame.count).map Frame.range =
          (d.frames.map Frame.range).modify k Tiling.Range.grow :=
        map_modify_of (g := Frame.range) (f := Frame.count) (fun _ => rfl) _ _
      rw [Reading.step, hopen, if_pos rfl]
      constructor
      · rw [htitles, push_activations]
        exact h.activations
      · rw [codes, hframes, hoperations, hranges, Tiling.slices_grow hgraph.tiles _
          (by rwa [List.length_map]), push_codes, hlast, ← h.codes, codes]
        exact map_modify_of (fun _ => List.map_append) _ _
      · rw [hactive]
        rfl

theorem holds_foldl (ts : List LineText) (d : Document) (r : Reading) (hd : d.Current)
    (hgraph : d.Graph p) (h : d.Holds r) :
    (ts.foldl (step p) d).Holds ((ts.map fun t => classify t.text).foldl Reading.step r) := by
  induction ts generalizing d r with
  | nil => exact h
  | cons t rest ih =>
    exact ih _ _ (current_step p hd t) (graph_step hd hgraph t) (holds_step hd hgraph h t)

end Document

/-- The descriptions that were read are those of the headers. -/
theorem reading_descriptions (texts : List (List UInt8)) (r : Reading) :
    ((texts.map classify).foldl Reading.step r).entries.map Entry.description =
      r.entries.map Entry.description ++ texts.filterMap descriptionOf := by
  induction texts generalizing r with
  | nil => exact (List.append_nil _).symm
  | cons text rest ih =>
    rw [List.map_cons, List.foldl_cons, ih, List.filterMap_cons, descriptionOf]
    cases classify text with
    | header activation description =>
      simp only [Reading.step, List.map_append, List.map_singleton, List.append_assoc,
        List.singleton_append]
    | code c =>
      rw [Reading.step]
      split
      · rw [Document.push_descriptions]
      · rfl
    | _ => rfl

/-- Lists of entries with the same parts are the same. -/
theorem entries_ext {es es' : List Entry}
    (hactivation : es.map Entry.activation = es'.map Entry.activation)
    (hdescription : es.map Entry.description = es'.map Entry.description)
    (hcodes : es.map Entry.codes = es'.map Entry.codes) : es = es' := by
  induction es generalizing es' with
  | nil => exact (List.map_eq_nil_iff.mp hcodes.symm).symm
  | cons e rest ih =>
    cases es' with
    | nil => cases hcodes
    | cons e' rest' =>
      obtain ⟨ha, hactivations⟩ := List.cons.inj hactivation
      obtain ⟨hd, hdescriptions⟩ := List.cons.inj hdescription
      obtain ⟨hc, hlists⟩ := List.cons.inj hcodes
      have he : e = e' := by
        obtain ⟨a, d, cs⟩ := e
        obtain rfl : a = e'.activation := ha
        obtain rfl : d = e'.description := hd
        obtain rfl : cs = e'.codes := hc
        rfl
      rw [he, ih hactivations hdescriptions hlists]

/-- The records of a document hold the entries of its source. -/
theorem document_entries (p : Platform) {source : List UInt8} (hmax : source.length < 2 ^ 32) :
    (parseDocument p source).cheats.map (Cheat.entry source (parseDocument p source).operations) =
      entriesOf ((sourceTexts source).map classify) := by
  have hholds := Document.holds_foldl (p := p) (sourceLines source) .empty .empty
    Document.current_empty Document.graph_empty Document.holds_empty
  have hclasses : (sourceLines source).map (fun t => classify t.text) =
      (sourceTexts source).map classify := by
    rw [sourceTexts, List.map_map]
    rfl
  rw [hclasses] at hholds
  apply entries_ext
  · have htitles := Document.finalize_map raise_title
      ((sourceLines source).foldl (Document.step p) .empty)
    have hactivations := hholds.activations
    rw [Document.titles, ← htitles, List.map_map] at hactivations
    rw [List.map_map]
    exact hactivations
  · have hread := reading_descriptions (sourceTexts source) .empty
    rw [List.map_map]
    exact (document_descriptions p hmax).trans hread.symm
  · have hcodes := hholds.codes
    rw [Document.codes, ← Document.finalize_frames, ← Document.finalize_operations] at hcodes
    rw [List.map_map]
    simp only [Document.frames, List.map_map] at hcodes
    exact hcodes

/-- A fold that blank lines and comments do not change sees the visible texts only. -/
theorem foldl_visible {α : Type} {step : α → LineClass → α} (hblank : ∀ a, step a .blank = a)
    (hcomment : ∀ a, step a .comment = a) (texts : List (List UInt8)) (a : α) :
    (texts.map classify).foldl step a =
      ((texts.filter visible).map classify).foldl step a := by
  induction texts generalizing a with
  | nil => rfl
  | cons text rest ih =>
    cases hvisible : visible text with
    | true =>
      rw [List.filter_cons_of_pos hvisible, List.map_cons, List.map_cons, List.foldl_cons,
        List.foldl_cons, ih]
    | false =>
      rw [List.filter_cons_of_neg (by simp [hvisible]), List.map_cons, List.foldl_cons, ih]
      unfold visible at hvisible
      cases hclass : classify text <;> simp [hclass, hblank, hcomment] at hvisible ⊢

/-- Blank lines and comments say nothing. -/
theorem entriesOf_visible (texts : List (List UInt8)) (r : Reading) :
    (texts.map classify).foldl Reading.step r =
      ((texts.filter visible).map classify).foldl Reading.step r :=
  foldl_visible (fun _ => rfl) (fun _ => rfl) texts r

theorem sourceEntries_visible (source : List UInt8) :
    entriesOf ((sourceTexts source).map classify) = entriesOf (sourceClasses source) :=
  congrArg Reading.entries (entriesOf_visible (sourceTexts source) .empty)

namespace Document

/-- What a line of a class does where nothing has a place. -/
def obey (d : Document) : LineClass → Document
  | .blank | .comment => d
  | .header activation description => d.finalize.openCheat activation 0 description.length
  | .badHeader => d.finalize.closeMalformed
  | .code c =>
    match d.active with
    | none => d.malformedCode
    | some k => d.addOperation k c
  | .badCode => d.malformedCode
  | .opaqueLine => d.taint .requiresUnsupported

theorem read_obey (d : Document) (text : List UInt8) : d.read text = d.obey (classify text) := by
  unfold read obey
  cases classify text <;> rfl

end Document

/-- Apart from places a document is what the classes of its lines say. -/
theorem document_obeyed (p : Platform) (source : List UInt8) :
    (parseDocument p source).unplaced =
      ((sourceClasses source).foldl Document.obey .empty).finalize := by
  have hread : Document.read = fun d text => d.obey (classify text) := by
    funext d text
    exact Document.read_obey d text
  rw [document_unplaced, sourceClasses, List.foldl_map, hread]

theorem classes_descriptions (texts : List (List UInt8)) :
    texts.filterMap descriptionOf = (texts.map classify).filterMap fun
      | .header _ description => some description
      | _ => none := by
  rw [List.filterMap_map]
  rfl

namespace Outputs

def lineRecords (out : Outputs β) : List Line := out.lines.records out.report.storedLines

def cheatRecords (out : Outputs β) : List Cheat := out.cheats.records out.report.storedCheats

def operationRecords (out : Outputs β) : List Operation :=
  out.operations.records out.report.storedOperations

/-- The entries that the records hold. -/
def entries (source : List UInt8) (out : Outputs β) : List Entry :=
  out.cheatRecords.map (Cheat.entry source out.operationRecords)

end Outputs

section Published

variable {p p' : Platform} {c : Call β} {c' : Call γ} {out : Outputs β} {out' : Outputs γ}

/-- The records after a call that returns OK are those of the document. -/
theorem ok_records (h : vcPsvParse p c = some (.ok, out)) :
    out.lineRecords = (parseDocument p c.source.value).lines ∧
      out.cheatRecords = (parseDocument p c.source.value).cheats ∧
      out.operationRecords = (parseDocument p c.source.value).operations := by
  obtain ⟨-, -, himported⟩ := ok_imported h
  have hstored := ok_stored h
  refine ⟨?_, ?_, ?_⟩
  · rw [Outputs.lineRecords, hstored.lines, himported.total_lines]
    exact Buffer.records_eq himported.line
  · rw [Outputs.cheatRecords, hstored.cheats, himported.total_cheats]
    exact Buffer.records_eq himported.cheat
  · rw [Outputs.operationRecords, hstored.operations, himported.total_operations]
    exact Buffer.records_eq himported.operation

/-- The records hold what the classes of the lines say. -/
theorem ok_entries (h : vcPsvParse p c = some (.ok, out)) :
    out.entries c.source.value = entriesOf (sourceClasses c.source.value) := by
  obtain ⟨hsize, -, -⟩ := ok_imported h
  obtain ⟨-, hcheats, hoperations⟩ := ok_records h
  have hmax : c.source.value.length < 2 ^ 32 := Nat.lt_of_le_of_lt hsize (by decide)
  rw [Outputs.entries, hcheats, hoperations, document_entries p hmax, sourceEntries_visible]

/-- Imports of sources whose lines have the same classes differ in places only. -/
theorem classes_import (h : vcPsvParse p c = some (.ok, out))
    (h' : vcPsvParse p' c' = some (.ok, out'))
    (hclasses : sourceClasses c.source.value = sourceClasses c'.source.value) :
    SameImport c.source.value c'.source.value out out' out.cheatRecords out'.cheatRecords
      out.operationRecords out'.operationRecords := by
  obtain ⟨hsize, hreport, -⟩ := ok_imported h
  obtain ⟨hsize', hreport', -⟩ := ok_imported h'
  obtain ⟨-, hcheats, hoperations⟩ := ok_records h
  obtain ⟨-, hcheats', hoperations'⟩ := ok_records h'
  have hstored := ok_stored h
  have hstored' := ok_stored h'
  have hmax : maxSourceBytes < 2 ^ 32 := by decide
  have hdescriptions : (parseDocument p c.source.value).cheats.map
        (fun k => k.description.bytes c.source.value) =
      (parseDocument p' c'.source.value).cheats.map
        (fun k => k.description.bytes c'.source.value) := by
    rw [document_descriptions p (Nat.lt_of_le_of_lt hsize hmax),
      document_descriptions p' (Nat.lt_of_le_of_lt hsize' hmax), visible_descriptions,
      visible_descriptions (sourceTexts c'.source.value), classes_descriptions,
      classes_descriptions]
    exact congrArg _ hclasses
  have hdocument : (parseDocument p c.source.value).unplaced =
      (parseDocument p' c'.source.value).unplaced := by
    rw [document_obeyed, document_obeyed, hclasses]
  rw [hreport] at hstored
  rw [hreport'] at hstored'
  rw [hcheats, hcheats', hoperations, hoperations']
  refine ⟨same_cheats (congrArg Document.cheats hdocument) hdescriptions,
    congrArg Document.operations hdocument, ?_⟩
  rw [hreport, hreport']
  exact unplaced_report c c' hdocument hstored hstored'

end Published

/-- What the lines of a file say is all that its import depends on, on every platform:
the records hold the entries that are read from the classes, and two files whose lines
have the same classes are imported alike, up to places. -/
theorem import_classes (p p' : Platform) (c : Call β) (c' : Call γ)
    (hclasses : sourceClasses c.source.value = sourceClasses c'.source.value)
    (hcheck : checkArguments p c = none) (hcheck' : checkArguments p' c' = none) :
    ∃ status out status' out', vcPsvParse p c = some (status, out) ∧
      vcPsvParse p' c' = some (status', out') ∧
      (out.report.FitsIn c → status = .ok) ∧ (out'.report.FitsIn c' → status' = .ok) ∧
      (status = .ok →
        out.entries c.source.value = entriesOf (sourceClasses c.source.value)) ∧
      (status = .ok → status' = .ok →
        SameImport c.source.value c'.source.value out out' out.cheatRecords out'.cheatRecords
          out.operationRecords out'.operationRecords) := by
  obtain ⟨status, out, hrun⟩ := parse_returns p hcheck
  obtain ⟨status', out', hrun'⟩ := parse_returns p' hcheck'
  refine ⟨status, out, status', out', hrun, hrun', fits_ok hrun hcheck, fits_ok hrun' hcheck',
    ?_, ?_⟩
  · rintro rfl
    exact ok_entries hrun
  · rintro rfl rfl
    exact classes_import hrun hrun' hclasses

/-- The sample in another layout: a comment, a tab and CR LF endings. -/
def respelledCall : Call UInt8 where
  source := ⟨0x1000, [0x23, 0x0d, 0x0a, 0x09, 0x5f, 0x56, 0x30, 0x09, 0x20, 0x61, 0x20, 0x0d, 0x0a] ++
    sample.drop 6⟩
  lines := ⟨0x3000, 3, fun _ => 0xa5⟩
  cheats := ⟨0x4000, 1, fun _ => 0xa5⟩
  operations := ⟨0x5000, 1, fun _ => 0xa5⟩
  report := ⟨0x2000, .zero⟩

theorem import_classes_respelled :
    ∃ out out', vcPsvParse ilp32 sampleCall = some (.ok, out) ∧
      vcPsvParse lp64 respelledCall = some (.ok, out') ∧
      out.report.totalLines = 2 ∧ out'.report.totalLines = 3 ∧
      out.entries sample = [⟨.manual, [0x61], [⟨0x0000, 0x10, 1⟩]⟩] ∧
      SameImport sample respelledCall.source.value out out' out.cheatRecords out'.cheatRecords
        out.operationRecords out'.operationRecords := by
  obtain ⟨status, out, status', out', hrun, hrun', -, -, hentries, hsame⟩ :=
    import_classes ilp32 lp64 sampleCall respelledCall (by decide) (by decide) (by decide)
  have hshape : (vcPsvParse ilp32 sampleCall).map (fun r => (r.1, r.2.report.totalLines)) =
      some (.ok, 2) := by decide
  have hshape' : (vcPsvParse lp64 respelledCall).map (fun r => (r.1, r.2.report.totalLines)) =
      some (.ok, 3) := by decide
  rw [hrun, Option.map_some, Option.some.injEq, Prod.mk.injEq] at hshape
  rw [hrun', Option.map_some, Option.some.injEq, Prod.mk.injEq] at hshape'
  obtain ⟨rfl, hlines⟩ := hshape
  obtain ⟨rfl, hlines'⟩ := hshape'
  have hread : entriesOf (sourceClasses sampleCall.source.value) =
      [⟨.manual, [0x61], [⟨0x0000, 0x10, 1⟩]⟩] := by decide
  exact ⟨out, out', hrun, hrun', hlines, hlines', (hentries rfl).trans hread, hsame rfl rfl⟩

end VitaCheat.Psv
