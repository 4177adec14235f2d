import VitaCheat.Lib.Trace
import VitaCheat.PsvGrammar
import VitaCheat.PsvGraph

/-!
# The kinds of the lines of an import

The same text is a code line or a malformed one, by the lines before it. The
active cheat of the document is the one of the last attempt at a header, if that
was a valid one, so every line record has the kind that its text denotes there.
-/
namespace VitaCheat.Psv

variable {β : Type}

/-- The content of a line without the spaces around it. -/
def Line.text (source : List UInt8) (l : Line) : List UInt8 := trim (l.content.bytes source)

/-- Where this text begins in the source. -/
def Line.textBegin (source : List UInt8) (l : Line) : Nat :=
  l.content.offset.toNat + ((l.content.bytes source).takeWhile asciiSpace).length

/-- Line `h` is the last attempt at a header before line `i`, and it is a header. -/
structure ActiveAt (texts : List (List UInt8)) (i h : Nat) : Prop where
  before : h < i
  header : ∃ text, texts[h]? = some text ∧ SpellsHeader text
  last : ∀ j text, h < j → j < i → texts[j]? = some text → ¬AttemptsHeader text

section History

variable {texts : List (List UInt8)} {i h : Nat} {text : List UInt8}

theorem ActiveAt.unique {h' : Nat} (hh : ActiveAt texts i h) (hh' : ActiveAt texts i h') :
    h = h' := by
  have hle : ∀ {h h' : Nat}, ActiveAt texts i h → ActiveAt texts i h' → h' ≤ h := by
    intro h h' hh hh'
    obtain ⟨text, htext, hspells⟩ := hh'.header
    apply Nat.le_of_not_lt
    intro hlt
    exact hh.last h' text hlt hh'.before htext hspells.attempts
  exact Nat.le_antisymm (hle hh' hh) (hle hh hh')

theorem not_activeAt_zero : ¬ActiveAt texts 0 h := fun hh => Nat.not_lt_zero h hh.before

/-- A header is active right after its line. -/
theorem activeAt_header (hi : texts[i]? = some text) (hs : SpellsHeader text) :
    ActiveAt texts (i + 1) i where
  before := Nat.lt_succ_self i
  header := ⟨text, hi, hs⟩
  last _ _ hlt hle := absurd hlt (Nat.not_lt.mpr (Nat.le_of_lt_succ hle))

/-- A line that is no attempt keeps what is active. -/
theorem activeAt_skip (hi : texts[i]? = some text) (hno : ¬AttemptsHeader text) :
    ActiveAt texts (i + 1) h ↔ ActiveAt texts i h := by
  constructor
  · rintro ⟨hbefore, hheader, hlast⟩
    refine ⟨?_, hheader, fun j t hj hji => hlast j t hj (Nat.lt_succ_of_lt hji)⟩
    rcases Nat.eq_or_lt_of_le (Nat.le_of_lt_succ hbefore) with rfl | hlt
    · obtain ⟨t, ht, hs⟩ := hheader
      obtain rfl := Option.some.inj (hi.symm.trans ht)
      exact absurd hs.attempts hno
    · exact hlt
  · rintro ⟨hbefore, hheader, hlast⟩
    refine ⟨Nat.lt_succ_of_lt hbefore, hheader, ?_⟩
    intro j t hj hji ht
    rcases Nat.eq_or_lt_of_le (Nat.le_of_lt_succ hji) with rfl | hlt
    · obtain rfl := Option.some.inj (hi.symm.trans ht)
      exact hno
    · exact hlast j t hj hlt ht

/-- After an attempt that is no header nothing is active. -/
theorem not_activeAt_attempt (hi : texts[i]? = some text) (ha : AttemptsHeader text)
    (hno : ¬SpellsHeader text) : ¬ActiveAt texts (i + 1) h := by
  intro hh
  rcases Nat.eq_or_lt_of_le (Nat.le_of_lt_succ hh.before) with rfl | hlt
  · obtain ⟨t, ht, hs⟩ := hh.header
    obtain rfl := Option.some.inj (hi.symm.trans ht)
    exact hno hs
  · exact hh.last i text hlt (Nat.lt_succ_self i) hi ha

end History

namespace Document

variable (p : Platform)

/-- One line, with the record that it leaves. -/
def lineStep (d : Document) (t : LineText) : Line × Document := (d.lineRecord p t, d.step p t)

theorem final_lineStep (d : Document) (ts : List LineText) :
    Trace.final (lineStep p) d ts = ts.foldl (step p) d := by
  induction ts generalizing d with
  | nil => rfl
  | cons t rest ih => exact ih (d.step p t)

theorem foldl_lines (d : Document) (ts : List LineText) :
    (ts.foldl (step p) d).lines = d.lines ++ (Trace.run (lineStep p) d ts).map (·.result) := by
  induction ts generalizing d with
  | nil => simp
  | cons t rest ih =>
    rw [List.foldl_cons, ih, step_lines, Trace.run_cons, List.map_cons, List.append_assoc]
    rfl

/-- The document before line `i`. -/
def before (ts : List LineText) (i : Nat) : Document := (ts.take i).foldl (step p) .empty

theorem before_succ {ts : List LineText} {i : Nat} {t : LineText} (h : ts[i]? = some t) :
    before p ts (i + 1) = (before p ts i).step p t := by
  rw [before, List.take_add_one, h, List.foldl_append]
  rfl

/-- The record of line `i` is the one its text leaves in the document before it. -/
theorem foldl_lines_get (ts : List LineText) (i : Nat) :
    (ts.foldl (step p) .empty).lines[i]? =
      ts[i]?.map fun t => (before p ts i).lineRecord p t := by
  rw [foldl_lines, show empty.lines = [] from rfl, List.nil_append, List.getElem?_map,
    Trace.run_getElem?, Option.map_map, final_lineStep]
  rfl

/-- An invariant of the document and the number of lines before it. -/
theorem before_invariant {ts : List LineText} (P : Nat → Document → Prop) (h0 : P 0 .empty)
    (hstep : ∀ i t d, ts[i]? = some t → P i d → P (i + 1) (d.step p t)) {i : Nat}
    (hi : i ≤ ts.length) : P i (before p ts i) := by
  induction i with
  | zero => exact h0
  | succ i ih =>
    have ht : ts[i]? = some ts[i] := List.getElem?_eq_getElem hi
    rw [before_succ p ht]
    exact hstep i _ _ ht (ih (Nat.le_of_succ_le hi))

theorem before_all (ts : List LineText) : before p ts ts.length = ts.foldl (step p) .empty := by
  rw [before, List.take_length]

theorem lineRecord_kind (d : Document) (t : LineText) :
    (d.lineRecord p t).kind = (classify t.text).kind d.active.isSome := by
  unfold lineRecord
  cases hclass : classify t.text with
  | code c => cases d.active <;> rfl
  | _ => rfl

theorem lineRecord_owner {d : Document} {t : LineText} (h : (d.lineRecord p t).kind = .code) :
    d.active = some (d.lineRecord p t).cheatIndex := by
  rw [lineRecord_kind] at h
  unfold lineRecord
  cases hclass : classify t.text with
  | code c =>
    rw [hclass] at h
    cases hactive : d.active with
    | none =>
      rw [hactive] at h
      cases h
    | some k => rfl
  | _ =>
    rw [hclass] at h
    cases h

/-- The active cheat is the one of the header that the history says is active. -/
def Active (texts : List (List UInt8)) (i : Nat) (d : Document) : Prop :=
  match d.active with
  | none => ∀ h, ¬ActiveAt texts i h
  | some k => ∃ h, ActiveAt texts i h ∧ (d.frames.map Frame.headerLineIndex)[k]? = some h

theorem Active.isSome {texts : List (List UInt8)} {i : Nat} {d : Document}
    (h : d.Active texts i) : d.active.isSome = true ↔ ∃ j, ActiveAt texts i j := by
  unfold Active at h
  cases hd : d.active with
  | none =>
    rw [hd] at h
    simpa using h
  | some k =>
    rw [hd] at h
    obtain ⟨j, hj, -⟩ := h
    simp only [Option.isSome_some, true_iff]
    exact ⟨j, hj⟩

theorem active_step {texts : List (List UInt8)} {i : Nat} {d : Document} {t : LineText}
    (hlines : d.lines.length = i) (ht : texts[i]? = some t.text) (h : d.Active texts i) :
    (d.step p t).Active texts (i + 1) := by
  have hactive := step_active p d t
  have hheaders := step_headers p d t
  by_cases hattempt : AttemptsHeader t.text
  · rcases classify_attempted hattempt with ⟨s, hs, hclass⟩ | ⟨hno, hclass⟩
    · rw [hclass] at hactive hheaders
      rw [Active, hactive]
      refine ⟨i, activeAt_header ht ⟨s, hs⟩, ?_⟩
      rw [hheaders, hlines, ← frames_length, List.getElem?_append_right (by simp)]
      simp
    · rw [hclass] at hactive
      rw [Active, hactive]
      exact fun _ => not_activeAt_attempt ht hattempt hno
  · have hkeep : (d.step p t).active = d.active ∧ (d.step p t).frames.map Frame.headerLineIndex =
        d.frames.map Frame.headerLineIndex := by
      obtain ⟨hbad, hheader⟩ := classify_other (headerAttempt_false hattempt)
      cases hclass : classify t.text with
      | header activation description => exact absurd hclass (hheader _ _)
      | badHeader => exact absurd hclass hbad
      | _ =>
        rw [hclass] at hactive hheaders
        exact ⟨hactive, hheaders.trans (List.append_nil _)⟩
    unfold Active
    rw [hkeep.1, hkeep.2]
    simp only [activeAt_skip ht hattempt]
    exact h

theorem active_before {ts : List LineText} {i : Nat} (hi : i ≤ ts.length) :
    (before p ts i).Active (ts.map (·.text)) i := by
  refine (before_invariant p (fun i d => d.lines.length = i ∧ d.Active (ts.map (·.text)) i)
    ⟨rfl, fun _ => not_activeAt_zero⟩ ?_ hi).2
  rintro i t d ht ⟨hlines, hactive⟩
  refine ⟨by rw [step_lines_length, hlines], active_step p hlines ?_ hactive⟩
  rw [List.getElem?_map, ht]
  rfl

/-- Header lines are only added. -/
theorem headers_before {ts : List LineText} (i : Nat) {k h : Nat}
    (hk : ((before p ts i).frames.map Frame.headerLineIndex)[k]? = some h) :
    ((ts.foldl (step p) .empty).frames.map Frame.headerLineIndex)[k]? = some h := by
  have hall : ts.foldl (step p) .empty = (ts.drop i).foldl (step p) (before p ts i) := by
    rw [before, ← List.foldl_append, List.take_append_drop]
  rw [hall]
  refine List.foldlRecOn (motive := fun d : Document =>
    (d.frames.map Frame.headerLineIndex)[k]? = some h) _ _ hk ?_
  intro d hd t _
  rw [step_headers, List.getElem?_append_left (List.getElem?_eq_some_iff.mp hd).1, hd]

end Document

/-- The part of a cheat record that its header line fixes. -/
structure Title where
  activation : Activation
  description : Span
  headerLineIndex : Nat

def Cheat.title (c : Cheat) : Title := ⟨c.activation, c.description, c.headerLineIndex⟩

theorem raise_title (state : TranslationState) (c : Cheat) : (c.raise state).title = c.title := by
  unfold Cheat.raise
  split <;> rfl

/-- The title that a header line gives. -/
def LineText.title (t : LineText) (i : Nat) (s : HeaderShape) : Title where
  activation := s.activation
  description := ⟨BitVec.ofNat 32 (t.trimmedBegin + t.text.length - s.description.length),
    BitVec.ofNat 32 s.description.length⟩
  headerLineIndex := i

namespace Document

variable (p : Platform)

def titles (d : Document) : List Title := d.cheats.map Cheat.title

theorem step_titles (d : Document) (t : LineText) :
    (d.step p t).titles = d.titles ++
      match classify t.text with
      | .header activation description =>
        [⟨activation, ⟨BitVec.ofNat 32 (t.trimmedBegin + t.text.length - description.length),
          BitVec.ofNat 32 description.length⟩, d.lines.length⟩]
      | _ => [] := by
  have hfin := finalize_map raise_title (d.addLine p t.bounds)
  have hkeep : ∀ e : Document, e.titles = d.titles → e.titles = d.titles ++ [] := by
    intro e he
    rw [he, List.append_nil]
  unfold step
  cases hclass : classify t.text with
  | header activation description =>
    simp only [titles, openCheat, activate, markLast, List.map_append, hfin]
    simp [addLine, Cheat.title]
  | badHeader => exact hkeep _ ((taint_map raise_title _ _).trans hfin)
  | code c =>
    have hactive : (d.addLine p t.bounds).active = d.active := rfl
    simp only [hactive]
    cases d.active with
    | none => exact hkeep _ (taint_map raise_title _ _)
    | some k =>
      refine hkeep _ ?_
      simp only [titles, addOperation, countOperation, markLast]
      refine Eq.trans (map_modify_same ?_ _ _) (applyKind_map raise_title _ c)
      exact fun _ => rfl
  | badCode => exact hkeep _ (taint_map raise_title _ _)
  | opaqueLine => exact hkeep _ (taint_map raise_title _ _)
  | blank => exact hkeep _ rfl
  | comment => exact hkeep _ rfl

/-- Every title is the one of its header line. -/
theorem titles_all {ts : List LineText} : ∀ τ ∈ (ts.foldl (step p) .empty).titles,
    ∃ (i : Nat) (t : LineText) (s : HeaderShape), ts[i]? = some t ∧ s.text = t.text ∧
      τ = t.title i s := by
  rw [← before_all]
  refine (before_invariant p (fun i d => d.lines.length = i ∧ ∀ τ ∈ d.titles,
    ∃ (i : Nat) (t : LineText) (s : HeaderShape), ts[i]? = some t ∧ s.text = t.text ∧
      τ = t.title i s) ⟨rfl, fun _ h => nomatch h⟩ ?_ (Nat.le_refl _)).2
  rintro i t d ht ⟨hlines, htitles⟩
  refine ⟨by rw [step_lines_length, hlines], ?_⟩
  rw [step_titles]
  intro τ hτ
  rcases List.mem_append.mp hτ with hold | hlast
  · exact htitles τ hold
  · cases hclass : classify t.text with
    | header activation description =>
      rw [hclass] at hlast
      obtain ⟨s, hs, rfl, rfl⟩ := classify_header hclass
      exact ⟨i, t, s, ht, hs, by rw [List.mem_singleton.mp hlast, hlines]; rfl⟩
    | _ =>
      rw [hclass] at hlast
      cases hlast

end Document

variable {source : List UInt8}

theorem slice_bytes (source : List UInt8) {i j : Nat} (hij : i ≤ j) (hj : j < 2 ^ 32) :
    Span.bytes source ⟨BitVec.ofNat 32 i, BitVec.ofNat 32 (j - i)⟩ = Cursor.slice source i j := by
  rw [Span.bytes, toNat_ofNat_32 (Nat.lt_of_le_of_lt hij hj), toNat_ofNat_32 (by omega)]
  rfl

/-- The content span of a line covers its content without the byte order mark. -/
theorem lineText_content {k : Nat} (first : Bool) (hk : k < source.length)
    (hmax : source.length < 2 ^ 32) :
    (lineText k first (nextLine source k)).bounds.content.bytes source =
      (nextLine source k).content.drop (markLength first (nextLine source k).content) := by
  have hmark := markLength_le first (nextLine source k).content
  have hle := nextLine_length_le (Nat.le_of_lt hk)
  have hbytes : (nextLine source k).bytes.length =
      (nextLine source k).content.length + (nextLine source k).terminator.length :=
    List.length_append
  have hslice := slice_bytes source
    (i := k + markLength first (nextLine source k).content)
    (j := k + (nextLine source k).content.length) (by omega) (by omega)
  rw [← Cursor.slice_drop, content_slice (Nat.le_of_lt hk)] at hslice
  exact hslice

/-- The record of a line shows its trimmed text. -/
theorem record_text (p : Platform) (hmax : source.length < 2 ^ 32) (d : Document) {i : Nat}
    {t : LineText} (ht : (sourceLines source)[i]? = some t) :
    (d.lineRecord p t).text source = t.text ∧
      (d.lineRecord p t).textBegin source = t.trimmedBegin := by
  obtain ⟨k, hk, rfl⟩ := sourceLines_get ht
  have hcontent := lineText_content (decide (i = 0)) hk hmax
  have hmark := markLength_le (decide (i = 0)) (nextLine source k).content
  have hle := nextLine_length_le (Nat.le_of_lt hk)
  have hbytes : (nextLine source k).bytes.length =
      (nextLine source k).content.length + (nextLine source k).terminator.length :=
    List.length_append
  rw [Line.text, Line.textBegin, (lineRecord_spans p d _).2, hcontent]
  refine ⟨rfl, ?_⟩
  simp only [Bounds.content, lineText]
  rw [toNat_ofNat_32 (by omega)]

/-- The trimmed text of a line lies in the source. -/
theorem lineText_slice {i : Nat} {t : LineText} (ht : (sourceLines source)[i]? = some t) :
    t.trimmedBegin + t.text.length ≤ source.length ∧
      Cursor.slice source t.trimmedBegin (t.trimmedBegin + t.text.length) = t.text := by
  obtain ⟨k, hk, rfl⟩ := sourceLines_get ht
  exact (lineText_trim hk rfl).2

/-- The description of a cheat is what its header spells after the spaces. -/
theorem title_description (hmax : source.length < 2 ^ 32) {i : Nat} {t : LineText}
    (ht : (sourceLines source)[i]? = some t) {s : HeaderShape} (hs : s.text = t.text) :
    (t.title i s).description.bytes source = s.description ∧
      (t.title i s).description.offset.toNat =
        t.trimmedBegin + 3 + (s.rest.takeWhile asciiSpace).length ∧
      (t.title i s).description.length.toNat = s.description.length := by
  obtain ⟨hle, hslice⟩ := lineText_slice ht
  have hlength := s.description_length
  have hdrop := s.description_eq
  rw [hs] at hlength hdrop
  have hbegin : t.trimmedBegin + t.text.length - s.description.length =
      t.trimmedBegin + (3 + (s.rest.takeWhile asciiSpace).length) := by omega
  have hsize : s.description.length = t.trimmedBegin + t.text.length -
      (t.trimmedBegin + (3 + (s.rest.takeWhile asciiSpace).length)) := by omega
  refine ⟨?_, ?_, ?_⟩
  · have hbytes := slice_bytes source
      (i := t.trimmedBegin + (3 + (s.rest.takeWhile asciiSpace).length))
      (j := t.trimmedBegin + t.text.length) (by omega) (by omega)
    rw [← hsize, ← hbegin, hbegin, ← Cursor.slice_drop, hslice, hdrop] at hbytes
    rw [LineText.title, hbegin]
    exact hbytes
  · simp only [LineText.title]
    rw [hbegin, toNat_ofNat_32 (by omega)]
    omega
  · simp only [LineText.title]
    rw [toNat_ofNat_32 (by omega)]

/-- Each line has the kind that its text denotes there, each code line belongs to
the cheat of the active header, and each cheat is what its header line spells. -/
structure LineGrammar (source : List UInt8) (lines : List Line) (cheats : List Cheat) :
    Prop where
  kinds : ∀ i l, lines[i]? = some l → ∀ kind, l.kind = kind ↔
    Denotes (∃ h, ActiveAt (lines.map (Line.text source)) i h) (l.text source) kind
  owner : ∀ i l, lines[i]? = some l → l.kind = .code →
    ∀ h, ActiveAt (lines.map (Line.text source)) i h →
      ∃ c : Cheat, cheats[l.cheatIndex]? = some c ∧ c.headerLineIndex = h
  headers : ∀ (k : Nat) (c : Cheat), cheats[k]? = some c → ∃ (l : Line) (s : HeaderShape),
    lines[c.headerLineIndex]? = some l ∧ l.kind = .cheatHeader ∧ l.cheatIndex = k ∧
      s.text = l.text source ∧ c.activation = s.activation ∧
      c.description.bytes source = s.description ∧
      c.description.offset.toNat =
        l.textBegin source + 3 + (s.rest.takeWhile asciiSpace).length ∧
      c.description.length.toNat = s.description.length

variable (p : Platform)

/-- A line record of the document is the one its text leaves. -/
theorem document_line_record {i : Nat} {l : Line}
    (h : (parseDocument p source).lines[i]? = some l) :
    ∃ t, (sourceLines source)[i]? = some t ∧
      l = (Document.before p (sourceLines source) i).lineRecord p t := by
  rw [parseDocument, Document.finalize_lines, Document.foldl_lines_get] at h
  obtain ⟨t, ht, hl⟩ := Option.map_eq_some_iff.mp h
  exact ⟨t, ht, hl.symm⟩

theorem document_texts (hmax : source.length < 2 ^ 32) :
    (parseDocument p source).lines.map (Line.text source) =
      (sourceLines source).map (·.text) := by
  apply List.ext_getElem?
  intro i
  rw [List.getElem?_map, List.getElem?_map, parseDocument, Document.finalize_lines,
    Document.foldl_lines_get, Option.map_map]
  cases ht : (sourceLines source)[i]? with
  | none => rfl
  | some t => exact congrArg some (record_text p hmax _ ht).1

theorem document_grammar (hmax : source.length < 2 ^ 32) :
    LineGrammar source (parseDocument p source).lines (parseDocument p source).cheats := by
  have htexts := document_texts p hmax
  have hactive : ∀ {i : Nat} {t : LineText}, (sourceLines source)[i]? = some t →
      (Document.before p (sourceLines source) i).Active ((sourceLines source).map (·.text)) i :=
    fun ht => Document.active_before p (Nat.le_of_lt (List.getElem?_eq_some_iff.mp ht).1)
  constructor
  · intro i l hl kind
    obtain ⟨t, ht, rfl⟩ := document_line_record p hl
    have htext := (record_text p hmax (Document.before p (sourceLines source) i) ht).1
    obtain ⟨k, -, hk⟩ := sourceLines_get ht
    have hclosed : Closed t.text := by
      rw [hk]
      exact closed_trim _
    have hdenotes := denotes_classify
      (Document.before p (sourceLines source) i).active.isSome hclosed
    rw [← Document.lineRecord_kind p, propext (hactive ht).isSome] at hdenotes
    rw [htexts, htext]
    constructor
    · rintro rfl
      exact hdenotes
    · exact denotes_unique hdenotes
  · intro i l hl hcode h hh
    rw [htexts] at hh
    obtain ⟨t, ht, rfl⟩ := document_line_record p hl
    have hcheat := Document.lineRecord_owner p hcode
    have hhistory := hactive ht
    rw [Document.Active, hcheat] at hhistory
    obtain ⟨h', hat, hframe⟩ := hhistory
    obtain rfl := hat.unique hh
    have hlast := Document.headers_before p i hframe
    rw [← Document.finalize_frames] at hlast
    rw [List.getElem?_map, Document.frames, List.getElem?_map, Option.map_map] at hlast
    obtain ⟨c, hc, hheader⟩ := Option.map_eq_some_iff.mp hlast
    exact ⟨c, hc, hheader⟩
  · intro k c hc
    obtain ⟨l, hl, hkind, hlink, -⟩ := (graph_closed (document_graph p source)).headers.target k c hc
    have htitle : c.title ∈ ((sourceLines source).foldl (Document.step p) .empty).titles := by
      rw [Document.titles, ← Document.finalize_map raise_title]
      exact List.mem_map_of_mem (List.mem_of_getElem? hc)
    obtain ⟨i, t, s, ht, hs, hτ⟩ := Document.titles_all p _ htitle
    have hindex : c.headerLineIndex = i := congrArg Title.headerLineIndex hτ
    have hdescription : c.description = (t.title i s).description :=
      congrArg Title.description hτ
    obtain ⟨t', ht', hrecord⟩ := document_line_record p (hindex ▸ hl)
    obtain rfl := Option.some.inj (ht.symm.trans ht')
    obtain ⟨htext, hbegin⟩ := record_text p hmax (Document.before p (sourceLines source) i) ht
    rw [← hrecord] at htext hbegin
    have hspan := title_description hmax ht hs
    rw [← hdescription, ← hbegin] at hspan
    exact ⟨l, s, hl, hkind, hlink, hs.trans htext.symm, congrArg Title.activation hτ, hspan⟩

/-- The line grammar of every import that returns OK. -/
theorem import_line_grammar (c : Call β) (out : Outputs β)
    (h : vcPsvParse p c = some (.ok, out)) :
    ∃ lines cheats operations, Imported out lines cheats operations ∧
      LineGrammar c.source.value lines cheats := by
  obtain ⟨hsize, -, himported⟩ := ok_imported h
  rw [maxSourceBytes] at hsize
  exact ⟨_, _, _, himported, document_grammar p (by omega)⟩

/-- The code of the sample before its header and after it. -/
def contextCall : Call UInt8 where
  source := ⟨0x1000, sample.drop 6 ++ 0x0a :: sample⟩
  lines := ⟨0x3000, 3, fun _ => 0xa5⟩
  cheats := ⟨0x4000, 1, fun _ => 0xa5⟩
  operations := ⟨0x5000, 1, fun _ => 0xa5⟩
  report := ⟨0x2000, .zero⟩

theorem import_line_grammar_context :
    ∃ out, vcPsvParse ilp32 contextCall = some (.ok, out) ∧ out.report.malformedLines = 1 ∧
      out.report.totalOperations = 1 ∧
      ∃ lines cheats operations, Imported out lines cheats operations ∧
        LineGrammar contextCall.source.value lines cheats := by
  obtain ⟨⟨status, out⟩, hrun, hshape⟩ := Option.map_eq_some_iff.mp
    (show (vcPsvParse ilp32 contextCall).map (fun r => (r.1, r.2.report.malformedLines,
      r.2.report.totalOperations)) = some (.ok, 1, 1) by decide)
  obtain ⟨rfl, hcounts⟩ := Prod.mk.inj hshape
  obtain ⟨hmalformed, htotal⟩ := Prod.mk.inj hcounts
  exact ⟨out, hrun, hmalformed, htotal, import_line_grammar ilp32 contextCall out hrun⟩

end VitaCheat.Psv
