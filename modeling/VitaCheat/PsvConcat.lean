import VitaCheat.PsvLossless
import VitaCheat.PsvShift

/-!
# Cheats are independent

A source that begins with a header, put behind complete lines of another source,
imports as it does alone. The header closes the scope before it just as the end
of the first source does and starts from a clean one.
-/
namespace VitaCheat.Psv

open TextLines (cr lf isBreak RawLine)

theorem lineText_shift (n offset : Nat) (first : Bool) (l : RawLine) :
    lineText (offset + n) first l = (lineText offset first l).shift n := by
  simp only [lineText, LineText.shift, Bounds.shift, Nat.add_right_comm offset n,
    Nat.add_right_comm (offset + markLength first l.content) n]

theorem lineTexts_shift (n offset : Nat) (first : Bool) (ls : List RawLine) :
    lineTexts (offset + n) first ls = (lineTexts offset first ls).map (LineText.shift n) := by
  induction ls generalizing offset first with
  | nil => rfl
  | cons l rest ih =>
    rw [lineTexts, lineText_shift, Nat.add_right_comm, ih]
    rfl

theorem lineTexts_append (offset : Nat) (first : Bool) (ls more : List RawLine) :
    lineTexts offset first (ls ++ more) = lineTexts offset first ls ++
      lineTexts (offset + (ls.flatMap RawLine.bytes).length) (first && ls.isEmpty) more := by
  induction ls generalizing offset first with
  | nil => simp [lineTexts]
  | cons l rest ih =>
    rw [List.cons_append, lineTexts, lineTexts, ih, List.flatMap_cons, List.length_append,
      Nat.add_assoc]
    simp

/-- Being the first line matters only to a line with a byte order mark. -/
theorem lineTexts_unmarked (offset : Nat) (first : Bool) {ls : List RawLine}
    (h : ∀ l ∈ ls.head?, l.content.take 3 ≠ byteOrderMark) :
    lineTexts offset first ls = lineTexts offset true ls := by
  cases ls with
  | nil => rfl
  | cons l rest =>
    have hmark : ∀ first, markLength first l.content = 0 := by
      intro first
      rw [markLength, if_neg]
      rintro ⟨-, htake⟩
      exact h l rfl htake
    simp only [lineTexts, lineText, hmark]

/-- Spaces and a valid header stand at the very beginning. -/
def LeadsWithHeader (source : List UInt8) : Prop :=
  ∃ spaces digit rest, source = spaces ++ 0x5f :: 0x56 :: digit :: rest ∧
    (∀ b ∈ spaces, asciiSpace b = true) ∧ (digit = 0x30 ∨ digit = 0x31) ∧
    ∀ b ∈ rest.head?, asciiSpace b = true ∨ isBreak b = true

theorem space_no_break {b : UInt8} (h : asciiSpace b = true) : isBreak b = false := by
  simp only [asciiSpace, Bool.or_eq_true, beq_iff_eq] at h
  rcases h with rfl | rfl <;> decide

theorem digit_facts {digit : UInt8} (h : digit = 0x30 ∨ digit = 0x31) :
    isBreak digit = false ∧ asciiSpace digit = false := by
  rcases h with rfl | rfl <;> decide

/-- The first line of such a source is a header without a byte order mark. -/
theorem leadsWithHeader_split {source : List UInt8} (h : LeadsWithHeader source) :
    ∃ l rest, TextLines.split source = l :: rest ∧ l.content.take 3 ≠ byteOrderMark ∧
      SpellsHeader (trim l.content) := by
  obtain ⟨spaces, digit, rest, rfl, hspaces, hdigit, hrest⟩ := h
  obtain ⟨hbreak, hspace⟩ := digit_facts hdigit
  have hcontent : (spaces ++ 0x5f :: 0x56 :: digit :: rest).takeWhile (!isBreak ·) =
      spaces ++ 0x5f :: 0x56 :: digit :: rest.takeWhile (!isBreak ·) := by
    rw [List.takeWhile_append_of_pos (fun b hb => by rw [space_no_break (hspaces b hb)]; rfl)]
    have h5f : isBreak 0x5f = false := by decide
    have h56 : isBreak 0x56 = false := by decide
    simp [h5f, h56, hbreak]
  refine ⟨_, _, TextLines.split_cut (by simp), ?_, ?_⟩
  · rw [hcontent]
    cases spaces with
    | nil => simp [byteOrderMark]
    | cons b more =>
      have hb := hspaces b (List.mem_cons_self ..)
      rintro htake
      simp only [List.cons_append, List.take_succ_cons, byteOrderMark, List.cons.injEq] at htake
      rw [htake.1] at hb
      exact absurd hb (by decide)
  · have htrim : trim (spaces ++ 0x5f :: 0x56 :: digit :: rest.takeWhile (!isBreak ·)) =
        0x5f :: 0x56 :: digit :: (rest.takeWhile (!isBreak ·)).rdropWhile asciiSpace := by
      rw [trim, List.dropWhile_append_of_pos hspaces, List.dropWhile_cons_of_neg (by decide)]
      exact Cursor.rdropWhile_append hspace [0x5f, 0x56] _
    have hspaced : ∀ b ∈ ((rest.takeWhile (!isBreak ·)).rdropWhile asciiSpace).head?,
        asciiSpace b = true := by
      intro b hb
      obtain ⟨dropped, hdropped⟩ :=
        List.rdropWhile_prefix asciiSpace (rest.takeWhile (!isBreak ·))
      have hhead : (rest.takeWhile (!isBreak ·)).head? = some b := by
        rw [← hdropped, List.head?_append, hb]
        rfl
      rw [List.head?_takeWhile, Option.filter_eq_some_iff] at hhead
      rcases hrest b hhead.1 with hspace | hbreak
      · exact hspace
      · simp [hbreak] at hhead
    rw [hcontent, htrim]
    exact ⟨⟨digit, _, hdigit, hspaced⟩, rfl⟩

theorem sourceLines_append {first second : List UInt8} (hfirst : TextLines.Complete first)
    (hsecond : LeadsWithHeader second) : sourceLines (first ++ second) =
      sourceLines first ++ (sourceLines second).map (LineText.shift first.length) := by
  obtain ⟨l, rest, hsplit, hmark, -⟩ := leadsWithHeader_split hsecond
  have hlf : first.getLast? = some cr → second.head? ≠ some lf := by
    intro _ hlf
    obtain ⟨spaces, digit, rest, rfl, hspaces, -⟩ := hsecond
    cases spaces with
    | nil => cases hlf
    | cons b more =>
      have hb := hspaces b (List.mem_cons_self ..)
      rw [Option.some.inj hlf] at hb
      cases hb
  have hunmarked : ∀ first, lineTexts 0 first (TextLines.split second) =
      lineTexts 0 true (TextLines.split second) := fun first =>
    lineTexts_unmarked 0 first (by rw [hsplit]; simpa using hmark)
  rw [sourceLines, TextLines.split_append hfirst hlf, lineTexts_append, TextLines.flatMap_split,
    lineTexts_shift, hunmarked]
  rfl

namespace Document

variable {p : Platform} {n : Nat} {a : Document}

theorem legal_empty : Legal .empty := Nat.le_refl 0

theorem legal_foldl {d : Document} (h : d.Legal) (ts : List LineText) :
    (ts.foldl (step p) d).Legal :=
  List.foldlRecOn _ _ h fun _ hd t _ => legal_step hd t

theorem step_operations_length (d : Document) (t : LineText) :
    (d.step p t).operations.length ≤ d.operations.length + 1 := by
  rw [step_operations, List.length_append]
  exact Nat.add_le_add_left (Option.length_toList_le) _

/-- The second part is read as it is alone. -/
theorem append_foldl (ts : List LineText) {b : Document} (hlegal : b.Legal) (hb : b.Current)
    (hops : b.operations.length ≤ b.lines.length)
    (hlines : b.lines.length + ts.length ≤ maxSourceBytes) :
    (ts.map (LineText.shift n)).foldl (step p) (append p n a b) =
      append p n a (ts.foldl (step p) b) := by
  induction ts generalizing b with
  | nil => rfl
  | cons t rest ih =>
    have hmax := maxSourceBytes_lt_noIndex p
    have hstep := step_operations_length (p := p) b t
    rw [List.length_cons] at hlines
    have hindexed : b.Indexed p := ⟨current_fits p hb (by omega), by omega⟩
    rw [List.map_cons, List.foldl_cons, List.foldl_cons, append_step hlegal hindexed t]
    refine ih (legal_step hlegal t) (current_step p hb t) ?_ ?_
    · rw [step_lines_length]
      omega
    · rw [step_lines_length]
      omega

theorem append_empty (hlegal : a.Legal) : append p n a .empty = a.activate none := by
  have hlegacy : a.legacy - overLimit a.cheats.length + overLimit a.cheats.length = a.legacy :=
    Nat.sub_add_cancel hlegal
  simp [append, empty, perCheat, activate, hlegacy]

theorem finalize_addLine (d : Document) (bounds : Bounds) :
    (d.addLine p bounds).finalize = d.finalize.addLine p bounds := by
  have hcond : ((d.addLine p bounds).active.isSome && (d.addLine p bounds).base &&
      !(d.addLine p bounds).write) = (d.active.isSome && d.base && !d.write) := rfl
  rw [finalize, finalize, hcond]
  split
  · simp only [taint, addLine, countInvalid]
    cases d.active <;> rfl
  · rfl

/-- A header forgets the scope before it. -/
theorem step_header {d : Document} (hlegal : d.Legal) {t : LineText} {activation : Activation}
    {description : List UInt8} (hclass : classify t.text = .header activation description) :
    d.step p t = (append p n d.finalize .empty).step p t := by
  rw [append_empty (legal_finalize hlegal), step, step, hclass]
  dsimp only
  rw [finalize_addLine]
  rfl

end Document

/-- The first line of such a source opens a cheat. -/
theorem sourceLines_header {source : List UInt8} (h : LeadsWithHeader source) :
    ∃ t ts activation description, sourceLines source = t :: ts ∧
      classify t.text = .header activation description := by
  obtain ⟨l, rest, hsplit, hmark, hspells⟩ := leadsWithHeader_split h
  have htext : (lineText 0 true l).text = trim l.content := by
    simp [lineText, markLength, hmark]
  rw [← htext] at hspells
  rcases classify_attempted hspells.attempts with ⟨s, -, hclass⟩ | ⟨hno, -⟩
  · exact ⟨_, _, _, _, by rw [sourceLines, hsplit, lineTexts], hclass⟩
  · exact absurd hspells hno

/-- The document of a source behind complete lines of another. -/
theorem parse_concat (p : Platform) {first second : List UInt8}
    (hfirst : TextLines.Complete first) (hsecond : LeadsWithHeader second)
    (hsize : (first ++ second).length ≤ maxSourceBytes) :
    parseDocument p (first ++ second) =
      (parseDocument p first).append p first.length (parseDocument p second) := by
  obtain ⟨t, ts, activation, description, hlines, hclass⟩ := sourceLines_header hsecond
  have hlegal : ((sourceLines first).foldl (Document.step p) .empty).Legal :=
    Document.legal_foldl Document.legal_empty _
  have hstep := Document.step_header (p := p) (n := first.length) hlegal
    (t := t.shift first.length) hclass
  have hcount : (sourceLines second).length ≤ maxSourceBytes := by
    have := sourceLines_length_le second
    rw [List.length_append] at hsize
    omega
  have hfold := Document.append_foldl (p := p) (n := first.length)
    (a := ((sourceLines first).foldl (Document.step p) .empty).finalize) (sourceLines second)
    Document.legal_empty Document.current_empty (Nat.le_refl 0)
    (by rw [show Document.empty.lines.length = 0 from rfl]; omega)
  rw [parseDocument, parseDocument, parseDocument, sourceLines_append hfirst hsecond,
    List.foldl_append, ← Document.append_finalize, ← hfold, hlines, List.map_cons,
    List.foldl_cons, List.foldl_cons, hstep]

variable {β γ δ : Type}

/-- The violations of a report without the one for too many cheats. -/
def Report.perCheat (r : Report) : Int := r.legacyLimitViolations - overLimit r.totalCheats

/-- The counters of a report are the sums of those of two others. -/
structure ReportSum (first second sum : Report) : Prop where
  schemaVersion : sum.schemaVersion = first.schemaVersion ∧
    sum.schemaVersion = second.schemaVersion
  sourceSize : sum.sourceSize = first.sourceSize + second.sourceSize
  totalLines : sum.totalLines = first.totalLines + second.totalLines
  storedLines : sum.storedLines = first.storedLines + second.storedLines
  totalCheats : sum.totalCheats = first.totalCheats + second.totalCheats
  storedCheats : sum.storedCheats = first.storedCheats + second.storedCheats
  totalOperations : sum.totalOperations = first.totalOperations + second.totalOperations
  storedOperations : sum.storedOperations = first.storedOperations + second.storedOperations
  unsupportedOperations : sum.unsupportedOperations =
    first.unsupportedOperations + second.unsupportedOperations
  nonDirectCheats : sum.nonDirectCheats = first.nonDirectCheats + second.nonDirectCheats
  invalidOperationSequences : sum.invalidOperationSequences =
    first.invalidOperationSequences + second.invalidOperationSequences
  malformedLines : sum.malformedLines = first.malformedLines + second.malformedLines
  perCheat : sum.perCheat = first.perCheat + second.perCheat

theorem legal_document (p : Platform) (source : List UInt8) : (parseDocument p source).Legal :=
  Document.legal_finalize (Document.legal_foldl Document.legal_empty _)

/-- Everything that was found was stored. -/
structure Report.Stored (r : Report) : Prop where
  lines : r.storedLines = r.totalLines
  cheats : r.storedCheats = r.totalCheats
  operations : r.storedOperations = r.totalOperations

theorem ok_stored {p : Platform} {c : Call β} {out : Outputs β}
    (h : vcPsvParse p c = some (.ok, out)) : out.report.Stored := by
  obtain ⟨hcheck, hd, rfl⟩ := ok_published h
  obtain ⟨hlines, hcheats, hoperations⟩ := (published_all p c hcheck hd).stored rfl
  exact ⟨hlines, hcheats, hoperations⟩

theorem report_perCheat {d : Document} (hd : d.Legal) (c : Call β) :
    (d.report c).perCheat = d.perCheat := by
  rw [Document.Legal] at hd
  simp only [Report.perCheat, Document.report, Document.perCheat]
  omega

/-- The report of two sources, where each report is of a stored document. -/
theorem append_report {p : Platform} {a b : Document} (first : Call β) (second : Call γ)
    (c : Call δ) (hsize : c.source.value.length =
      first.source.value.length + second.source.value.length)
    (ha : a.Legal) (hb : b.Legal) (hab : (a.append p first.source.value.length b).Legal)
    (hfirst : (a.report first).Stored) (hsecond : (b.report second).Stored)
    (hstored : ((a.append p first.source.value.length b).report c).Stored) :
    ReportSum (a.report first) (b.report second)
      ((a.append p first.source.value.length b).report c) := by
  have hlines : ((a.append p first.source.value.length b).report c).totalLines =
      (a.report first).totalLines + (b.report second).totalLines := by
    simp only [Document.report, Document.append, List.length_append, List.length_map]
  have hcheats : ((a.append p first.source.value.length b).report c).totalCheats =
      (a.report first).totalCheats + (b.report second).totalCheats := by
    simp only [Document.report, Document.append, List.length_append, List.length_map]
  have hoperations : ((a.append p first.source.value.length b).report c).totalOperations =
      (a.report first).totalOperations + (b.report second).totalOperations := by
    simp only [Document.report, Document.append, List.length_append, List.length_map]
  exact
    { schemaVersion := ⟨rfl, rfl⟩
      sourceSize := hsize
      totalLines := hlines
      storedLines := by rw [hstored.lines, hfirst.lines, hsecond.lines, hlines]
      totalCheats := hcheats
      storedCheats := by rw [hstored.cheats, hfirst.cheats, hsecond.cheats, hcheats]
      totalOperations := hoperations
      storedOperations := by
        rw [hstored.operations, hfirst.operations, hsecond.operations, hoperations]
      unsupportedOperations := rfl
      nonDirectCheats := rfl
      invalidOperationSequences := rfl
      malformedLines := rfl
      perCheat := by
        rw [report_perCheat hab, report_perCheat ha, report_perCheat hb, Document.append_perCheat]
        rfl }

/-- Importing a source that begins with a header behind complete lines of
another: the records of both, the second moved, and the sums of the counters. -/
theorem import_concat (p : Platform) (first : Call β) (second : Call γ) (c : Call δ)
    (outFirst : Outputs β) (outSecond : Outputs γ)
    (hsource : c.source.value = first.source.value ++ second.source.value)
    (hfirst : TextLines.Complete first.source.value)
    (hsecond : LeadsWithHeader second.source.value)
    (hrunFirst : vcPsvParse p first = some (.ok, outFirst))
    (hrunSecond : vcPsvParse p second = some (.ok, outSecond))
    (hcheck : checkArguments p c = none)
    (hlines : outFirst.report.totalLines + outSecond.report.totalLines ≤ c.lines.capacity)
    (hcheats : outFirst.report.totalCheats + outSecond.report.totalCheats ≤ c.cheats.capacity)
    (hoperations : outFirst.report.totalOperations + outSecond.report.totalOperations ≤
      c.operations.capacity) :
    ∃ out lines cheats operations lines' cheats' operations',
      vcPsvParse p c = some (.ok, out) ∧
      Imported outFirst lines cheats operations ∧
      Imported outSecond lines' cheats' operations' ∧
      (let σ : Shift := ⟨first.source.value.length, outFirst.report.totalLines,
        outFirst.report.totalCheats, outFirst.report.totalOperations⟩
      Imported out (lines ++ lines'.map (Line.shift p σ)) (cheats ++ cheats'.map (Cheat.shift σ))
        (operations ++ operations'.map (Operation.shift σ))) ∧
      ReportSum outFirst.report outSecond.report out.report := by
  obtain ⟨-, hreport, himported⟩ := ok_imported hrunFirst
  obtain ⟨-, hreport', himported'⟩ := ok_imported hrunSecond
  have hstored := ok_stored hrunFirst
  have hstored' := ok_stored hrunSecond
  have hlegal := legal_document p first.source.value
  have hlegal' := legal_document p second.source.value
  have hsize := checkArguments_size p c hcheck
  rw [hsource] at hsize
  have hdocument := parse_concat p hfirst hsecond hsize
  rw [← hsource] at hdocument
  rw [hreport] at hlines hcheats hoperations hstored ⊢
  rw [hreport'] at hlines hcheats hoperations hstored' ⊢
  generalize parseDocument p first.source.value = a at *
  generalize parseDocument p second.source.value = b at *
  have hfits : (parseDocument p c.source.value).fitsIn c = true := by
    rw [hdocument, fitsIn_iff, Document.append_cheats_length, Document.append_operations_length,
      Nat.add_comm b.cheats.length, Nat.add_comm b.operations.length]
    refine ⟨?_, hcheats, hoperations⟩
    simp only [Document.append, List.length_append, List.length_map]
    exact hlines
  have hrun := vcPsvParse_document p c hcheck
  rw [Document.outcome, if_pos hfits] at hrun
  obtain ⟨-, hreportSum, himportedSum⟩ := ok_imported hrun
  have hstoredSum := ok_stored hrun
  have hlegalSum := legal_document p c.source.value
  refine ⟨_, _, _, _, _, _, _, hrun, himported, himported', ?_, ?_⟩
  · rw [hdocument] at himportedSum ⊢
    exact himportedSum
  · rw [hreportSum, hdocument] at hstoredSum
    rw [hdocument] at hlegalSum
    rw [hreportSum, hdocument]
    exact append_report first second c (by rw [hsource, List.length_append]) hlegal hlegal'
      hlegalSum hstored hstored' hstoredSum

/-- `_V0`, LF, `$B200 00000001 00000000`, LF: the end of the source closes the scope. -/
def openedCall : Call UInt8 where
  source := ⟨0x1000, [0x5f, 0x56, 0x30, 0x0a, 0x24, 0x42, 0x32, 0x30, 0x30, 0x20, 0x30, 0x30, 0x30,
    0x30, 0x30, 0x30, 0x30, 0x31, 0x20, 0x30, 0x30, 0x30, 0x30, 0x30, 0x30, 0x30, 0x30, 0x0a]⟩
  lines := ⟨0x3000, 2, fun _ => 0xa5⟩
  cheats := ⟨0x4000, 1, fun _ => 0xa5⟩
  operations := ⟨0x5000, 1, fun _ => 0xa5⟩
  report := ⟨0x2000, .zero⟩

/-- The sample behind it, where the header of the sample closes the scope. -/
def closedCall : Call UInt8 where
  source := ⟨0x1000, openedCall.source.value ++ sample⟩
  lines := ⟨0x3000, 4, fun _ => 0xa5⟩
  cheats := ⟨0x4000, 2, fun _ => 0xa5⟩
  operations := ⟨0x5000, 2, fun _ => 0xa5⟩
  report := ⟨0x2000, .zero⟩

theorem import_concat_selector :
    ∃ first second out, vcPsvParse ilp32 openedCall = some (.ok, first) ∧
      vcPsvParse ilp32 sampleCall = some (.ok, second) ∧
      vcPsvParse ilp32 closedCall = some (.ok, out) ∧
      first.report.invalidOperationSequences = 1 ∧ out.report.invalidOperationSequences = 1 ∧
      ReportSum first.report second.report out.report := by
  obtain ⟨⟨status, first⟩, hfirst, hshape⟩ := Option.map_eq_some_iff.mp
    (show (vcPsvParse ilp32 openedCall).map (fun r => (r.1, r.2.report.totalLines,
      r.2.report.totalCheats, r.2.report.totalOperations, r.2.report.invalidOperationSequences)) =
        some (.ok, 2, 1, 1, 1) by decide)
  obtain ⟨⟨status', second⟩, hsecond, hshape'⟩ := Option.map_eq_some_iff.mp
    (show (vcPsvParse ilp32 sampleCall).map (fun r => (r.1, r.2.report.totalLines,
      r.2.report.totalCheats, r.2.report.totalOperations, r.2.report.invalidOperationSequences)) =
        some (.ok, 2, 1, 1, 0) by decide)
  simp only [Prod.mk.injEq] at hshape hshape'
  obtain ⟨rfl, hlines, hcheats, hoperations, hinvalid⟩ := hshape
  obtain ⟨rfl, hlines', hcheats', hoperations', hinvalid'⟩ := hshape'
  have hcomplete : TextLines.Complete openedCall.source.value := by
    intro b hb
    obtain rfl := Option.some.inj hb
    decide
  have hleads : LeadsWithHeader sample := by
    refine ⟨[], 0x30, sample.drop 3, rfl, by simp, .inl rfl, ?_⟩
    intro b hb
    obtain rfl := Option.some.inj hb
    decide
  obtain ⟨out, -, -, -, -, -, -, hrun, -, -, -, hsum⟩ :=
    import_concat ilp32 openedCall sampleCall closedCall first second rfl hcomplete hleads
      hfirst hsecond (by decide) (by rw [hlines, hlines']; decide)
      (by rw [hcheats, hcheats']; decide) (by rw [hoperations, hoperations']; decide)
  refine ⟨first, second, out, hfirst, hsecond, hrun, hinvalid, ?_, hsum⟩
  rw [hsum.invalidOperationSequences, hinvalid, hinvalid']

end VitaCheat.Psv
