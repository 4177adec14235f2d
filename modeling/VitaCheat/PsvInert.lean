import VitaCheat.PsvConcat
import VitaCheat.PsvHistory
import VitaCheat.PsvScopes

/-!
# Blank and comment lines are inert

A line of spaces or a comment leaves a record of itself and nothing else. Apart from
line indices and offsets an import depends on the texts of the other lines only, and
a line put between two lines keeps these, even where its end pairs up with the line
breaks around it.
-/
namespace VitaCheat.Psv

open TextLines (cr lf isBreak RawLine Complete solid)

variable {β γ : Type}

/-- Neither blank nor a comment. -/
def visible (text : List UInt8) : Bool := classify text ≠ .blank && classify text ≠ .comment

/-- A source without the byte order mark that it begins with. -/
def unmark (source : List UInt8) : List UInt8 :=
  if source.take 3 = byteOrderMark then source.drop 3 else source

/-- Spaces, perhaps a comment, and the end of the line. -/
def InertLine (line : List UInt8) : Prop :=
  ∃ spaces comment ending, line = spaces ++ comment ++ ending ∧
    (∀ b ∈ spaces, asciiSpace b = true) ∧
    (comment = [] ∨ ∃ rest, comment = 0x23 :: rest ∧ ∀ b ∈ rest, isBreak b = false) ∧
    (ending = [lf] ∨ ending = [cr] ∨ ending = [cr, lf])

/-- Empty contents are blank. -/
theorem visible_contents (contents : List (List UInt8)) :
    (contents.map trim).filter visible =
      ((contents.filter (!·.isEmpty)).map trim).filter visible := by
  induction contents with
  | nil => rfl
  | cons content rest ih =>
    cases content with
    | nil =>
      have hblank : visible (trim []) = false := rfl
      rw [List.map_cons, List.filter_cons, hblank, ih]
      rfl
    | cons b more =>
      rw [List.map_cons, List.filter_cons, ih]
      simp only [List.isEmpty_cons, Bool.not_false, List.filter_cons_of_pos, List.map_cons]
      rw [List.filter_cons]

theorem lineTexts_later (offset : Nat) (ls : List RawLine) :
    (lineTexts offset false ls).map (·.text) = (ls.map RawLine.content).map trim := by
  induction ls generalizing offset with
  | nil => rfl
  | cons l rest ih =>
    rw [lineTexts, List.map_cons, ih]
    rfl

theorem sourceTexts_unmarked {source : List UInt8} (h : source.take 3 ≠ byteOrderMark) :
    sourceTexts source = ((TextLines.split source).map RawLine.content).map trim := by
  rw [sourceTexts, sourceLines, ← lineTexts_later 0]
  refine congrArg (List.map _) (lineTexts_unmarked 0 false ?_).symm
  intro l hl
  cases hsplit : TextLines.split source with
  | nil =>
    rw [hsplit] at hl
    cases hl
  | cons first rest =>
    rw [hsplit] at hl
    obtain rfl := Option.some.inj hl
    intro hmark
    have hbytes := TextLines.flatMap_split source
    rw [hsplit, List.flatMap_cons, RawLine.bytes, List.append_assoc] at hbytes
    have hlength : 3 ≤ first.content.length := by
      have := congrArg List.length hmark
      simp only [List.length_take, byteOrderMark, List.length_cons, List.length_nil] at this
      omega
    rw [← hbytes, List.take_append_of_le_length hlength] at h
    exact h hmark

theorem sourceTexts_marked (rest : List UInt8) :
    (sourceTexts (byteOrderMark ++ rest)).filter visible =
      (((TextLines.split rest).map RawLine.content).map trim).filter visible := by
  have hsplit : TextLines.split (byteOrderMark ++ rest) =
      TextLines.extend 0xef (TextLines.extend 0xbb (TextLines.extend 0xbf
        (TextLines.split rest))) := by
    rw [← TextLines.split_extend (by decide), ← TextLines.split_extend (by decide),
      ← TextLines.split_extend (by decide)]
    rfl
  rw [sourceTexts, sourceLines, hsplit]
  cases TextLines.split rest with
  | nil => rfl
  | cons l ls =>
    simp only [TextLines.extend, lineTexts, List.map_cons, lineTexts_later]
    rfl

/-- Apart from blank lines the texts are the pieces between the line breaks. -/
theorem visible_texts (source : List UInt8) :
    (sourceTexts source).filter visible = ((solid (unmark source)).map trim).filter visible := by
  rw [solid, ← visible_contents, unmark]
  split
  · next h =>
    have hsource : byteOrderMark ++ source.drop 3 = source := by
      rw [← h, List.take_append_drop]
    rw [← sourceTexts_marked, hsource]
  · next h => rw [sourceTexts_unmarked h]

theorem complete_drop {bytes : List UInt8} (h : Complete bytes) (n : Nat) :
    Complete (bytes.drop n) := by
  intro b hb
  rw [List.getLast?_drop] at hb
  split at hb
  · cases hb
  · exact h b hb

/-- Complete lines keep their mark whatever follows, and give none to it. -/
theorem unmark_append {bytes more : List UInt8} (h : Complete bytes)
    (hmore : bytes = [] → more.take 3 ≠ byteOrderMark) :
    unmark (bytes ++ more) = unmark bytes ++ more := by
  rcases List.eq_nil_or_concat bytes with rfl | ⟨init, b, rfl⟩
  · exact if_neg (hmore rfl)
  · have hb : isBreak b = true := h b (by simp)
    rw [List.concat_eq_append] at h ⊢
    by_cases hlong : 3 ≤ (init ++ [b]).length
    · rw [unmark, unmark, List.take_append_of_le_length hlong]
      split
      · rw [List.drop_append_of_le_length hlong]
      · rfl
    · have hplain : ∀ more, ((init ++ [b]) ++ more).take 3 ≠ byteOrderMark := by
        -- The break would lie in the mark.
        intro more hmark
        have hmem : b ∈ ((init ++ [b]) ++ more).take 3 := by
          rw [List.take_append, List.take_of_length_le (by omega)]
          simp
        rw [hmark] at hmem
        have hno := byteOrderMark_no_break b hmem
        rw [hb] at hno
        cases hno
      have halone := hplain []
      rw [List.append_nil] at halone
      rw [unmark, if_neg (hplain more), unmark, if_neg halone]

theorem complete_unmark {bytes : List UInt8} (h : Complete bytes) : Complete (unmark bytes) := by
  unfold unmark
  split
  · exact complete_drop h 3
  · exact h

theorem ending_breaks {ending : List UInt8}
    (h : ending = [lf] ∨ ending = [cr] ∨ ending = [cr, lf]) :
    ending ≠ [] ∧ ∀ b ∈ ending, isBreak b = true := by
  rcases h with rfl | rfl | rfl <;> simp [isBreak, cr, lf]

theorem inert_complete {line : List UInt8} (h : InertLine line) : Complete line := by
  obtain ⟨spaces, comment, ending, rfl, -, -, hending⟩ := h
  obtain ⟨hne, hbreaks⟩ := ending_breaks hending
  intro b hb
  rw [List.getLast?_append_of_ne_nil _ hne] at hb
  exact hbreaks b (List.mem_of_getLast? hb)

/-- An inert line does not begin with the first byte of a mark. -/
theorem inert_unmarked {line : List UInt8} (h : InertLine line) (more : List UInt8) :
    (line ++ more).take 3 ≠ byteOrderMark := by
  obtain ⟨spaces, comment, ending, rfl, hspaces, hcomment, hending⟩ := h
  intro hmark
  have hfirst : ((spaces ++ comment ++ ending) ++ more).head? = some 0xef := by
    have htake : (((spaces ++ comment ++ ending) ++ more).take 3).head? =
        ((spaces ++ comment ++ ending) ++ more).head? := List.head?_take
    rw [← htake, hmark]
    rfl
  cases spaces with
  | cons b rest =>
    have hb := hspaces b (List.mem_cons_self ..)
    obtain rfl := Option.some.inj hfirst
    exact absurd hb (by decide)
  | nil =>
    rcases hcomment with rfl | ⟨rest, rfl, -⟩
    · rcases hending with rfl | rfl | rfl <;> cases hfirst
    · cases hfirst

theorem inert_invisible {spaces comment : List UInt8}
    (hspaces : ∀ b ∈ spaces, asciiSpace b = true)
    (hcomment : comment = [] ∨ ∃ rest, comment = 0x23 :: rest ∧ ∀ b ∈ rest, isBreak b = false) :
    visible (trim (spaces ++ comment)) = false := by
  rw [trim, List.dropWhile_append_of_pos hspaces]
  rcases hcomment with rfl | ⟨rest, rfl, -⟩
  · rfl
  · rw [List.dropWhile_cons_of_neg (by decide)]
    have hhash : asciiSpace 0x23 = false := rfl
    have hkeep := Cursor.rdropWhile_append hhash [] rest
    rw [List.nil_append, List.nil_append] at hkeep
    rw [hkeep]
    rfl

/-- Nothing of an inert line is visible. -/
theorem inert_solid {line : List UInt8} (h : InertLine line) :
    ((solid line).map trim).filter visible = [] := by
  obtain ⟨spaces, comment, ending, rfl, hspaces, hcomment, hending⟩ := h
  have hcontent : ∀ b ∈ spaces ++ comment, isBreak b = false := by
    intro b hb
    rcases List.mem_append.mp hb with hb | hb
    · exact space_no_break (hspaces b hb)
    · rcases hcomment with rfl | ⟨rest, rfl, hrest⟩
      · cases hb
      · rcases List.mem_cons.mp hb with rfl | hb
        · decide
        · exact hrest b hb
  rw [TextLines.solid_line hcontent (ending_breaks hending).2]
  have hinvisible := inert_invisible hspaces hcomment
  cases hempty : (spaces ++ comment).isEmpty with
  | true => simp [hempty]
  | false => simp [hempty, hinvisible]

/-- An inert line behind complete lines leaves the visible texts as they are. -/
theorem visible_insert {before line after : List UInt8} (hbefore : Complete before)
    (hline : InertLine line) (hafter : before = [] → after.take 3 ≠ byteOrderMark) :
    (sourceTexts (before ++ line ++ after)).filter visible =
      (sourceTexts (before ++ after)).filter visible := by
  have hcomplete := complete_unmark hbefore
  rw [visible_texts, visible_texts, List.append_assoc,
    unmark_append hbefore (fun _ => inert_unmarked hline after), unmark_append hbefore hafter,
    TextLines.solid_append hcomplete, TextLines.solid_append hcomplete,
    TextLines.solid_append (inert_complete hline)]
  simp only [List.map_append, List.filter_append, inert_solid hline, List.nil_append]

/-- A cheat without the place of its header. -/
def Cheat.unplaced (c : Cheat) : Cheat :=
  { c with description := ⟨0, c.description.length⟩, headerLineIndex := 0 }

/-- An operation without the place of its line. -/
def Operation.unplaced (o : Operation) : Operation := { o with lineIndex := 0 }

theorem raise_unplaced (state : TranslationState) (c : Cheat) :
    (c.raise state).unplaced = c.unplaced.raise state := by
  unfold Cheat.raise
  split
  · next h => exact (if_pos h).symm
  · next h => exact (if_neg h).symm

namespace Document

/-- The document without line records and places. -/
def unplaced (d : Document) : Document :=
  { d with
    lines := []
    cheats := d.cheats.map Cheat.unplaced
    operations := d.operations.map Operation.unplaced }

/-- What a text does where nothing has a place. -/
def read (d : Document) (text : List UInt8) : Document :=
  match classify text with
  | .blank | .comment => d
  | .header activation description => d.finalize.openCheat activation 0 description.length
  | .badHeader => d.finalize.closeMalformed
  | .code c =>
    match d.active with
    | none => d.malformedCode
    | some k => d.addOperation k c
  | .badCode => d.malformedCode
  | .opaqueLine => d.taint .requiresUnsupported

variable {p : Platform} (d : Document)

theorem markLast_empty {d : Document} (h : d.lines = []) (f : Line → Line) : d.markLast f = d := by
  cases d
  cases h
  rfl

@[simp] theorem unplaced_addLine (bounds : Bounds) :
    (d.addLine p bounds).unplaced = d.unplaced := rfl

@[simp] theorem unplaced_markLast (f : Line → Line) : (d.markLast f).unplaced = d.unplaced := rfl

@[simp] theorem unplaced_activate (active : Option Nat) :
    (d.activate active).unplaced = d.unplaced.activate active := rfl

@[simp] theorem unplaced_countInvalid : d.countInvalid.unplaced = d.unplaced.countInvalid := rfl

@[simp] theorem unplaced_countMalformed :
    d.countMalformed.unplaced = d.unplaced.countMalformed := rfl

@[simp] theorem unplaced_taint (state : TranslationState) :
    (d.taint state).unplaced = d.unplaced.taint state := by
  cases hd : d.active with
  | none => simp [taint, hd, unplaced]
  | some k =>
    have hmodify := map_modify_of (g := Cheat.unplaced) (f := Cheat.raise state)
      (h := Cheat.raise state) (raise_unplaced state) d.cheats k
    simp only [taint, hd, unplaced, hmodify]

@[simp] theorem unplaced_finalize : d.finalize.unplaced = d.unplaced.finalize := by
  unfold finalize
  by_cases hunused : (d.active.isSome && d.base && !d.write) = true
  · rw [if_pos hunused, unplaced_taint, unplaced_countInvalid]
    exact (if_pos hunused).symm
  · rw [if_neg hunused]
    exact (if_neg hunused).symm

theorem unplaced_openCheat (activation : Activation) (first size : Nat) :
    (d.openCheat activation first size).unplaced = d.unplaced.openCheat activation 0 size := by
  simp only [openCheat]
  rw [unplaced_activate, unplaced_markLast, markLast_empty]
  · simp [unplaced, Cheat.unplaced]
  · rfl

theorem unplaced_closeMalformed : d.closeMalformed.unplaced = d.unplaced.closeMalformed := by
  have hmark : ∀ f, d.unplaced.markLast f = d.unplaced := markLast_empty rfl
  rw [closeMalformed, closeMalformed, hmark]
  simp

theorem unplaced_malformedCode : d.malformedCode.unplaced = d.unplaced.malformedCode := by
  have hmark : ∀ f, d.unplaced.markLast f = d.unplaced := markLast_empty rfl
  rw [malformedCode, malformedCode, hmark]
  simp

theorem unplaced_applyKind (c : Code) :
    (d.applyKind c).unplaced = d.unplaced.applyKind c := by
  unfold applyKind
  cases operationKind c.code with
  | selectModuleBase =>
    have haccepts : d.unplaced.acceptsSelector c = d.acceptsSelector c := rfl
    simp only [selectModule, haccepts]
    split
    · exact unplaced_taint _ _
    · exact unplaced_taint _ _
  | opaqueOperation => exact unplaced_taint _ _
  | writeU8 | writeU16 | writeU32 =>
    have hbase : d.unplaced.base = d.base := rfl
    simp only [hbase]
    split <;> rfl

theorem unplaced_countOperation (k : Nat) :
    (d.countOperation k).unplaced = d.unplaced.countOperation k := by
  have hmodify := map_modify_of (g := Cheat.unplaced)
    (h := fun cheat => { cheat with operationCount := cheat.operationCount + 1 })
    (f := fun cheat => { cheat with operationCount := cheat.operationCount + 1 })
    (fun _ => rfl) d.cheats k
  simp only [countOperation, unplaced, hmodify]
  rfl

theorem unplaced_addOperation (k : Nat) (c : Code) :
    (d.addOperation k c).unplaced = d.unplaced.addOperation k c := by
  have hrecord : (d.record k c).unplaced = d.unplaced.record k c := rfl
  have hkind := unplaced_applyKind d c
  have hpush : { d.applyKind c with operations := d.operations ++ [d.record k c] }.unplaced =
      { d.unplaced.applyKind c with
        operations := d.unplaced.operations ++ [d.unplaced.record k c] } := by
    rw [← hkind, ← hrecord]
    simp [unplaced]
  have hlines : (d.unplaced.applyKind c).lines = [] := applyKind_lines _ _
  simp only [addOperation]
  rw [unplaced_countOperation, unplaced_markLast, hpush, markLast_empty]
  exact hlines

/-- What a line does apart from its place depends on its text only. -/
theorem unplaced_step (t : LineText) : (d.step p t).unplaced = d.unplaced.read t.text := by
  unfold step read
  cases classify t.text with
  | blank => rfl
  | comment => rfl
  | header activation description =>
    dsimp only
    rw [unplaced_openCheat, unplaced_finalize, unplaced_addLine]
  | badHeader =>
    dsimp only
    rw [unplaced_closeMalformed, unplaced_finalize, unplaced_addLine]
  | code c =>
    have hactive : (d.addLine p t.bounds).active = d.active := rfl
    have hactive' : d.unplaced.active = d.active := rfl
    simp only [hactive, hactive']
    cases d.active with
    | none => exact unplaced_malformedCode _
    | some k => exact unplaced_addOperation _ k c
  | badCode => exact unplaced_malformedCode _
  | opaqueLine => exact unplaced_taint _ _

theorem read_invisible {text : List UInt8} (h : visible text = false) : d.read text = d := by
  unfold visible at h
  unfold read
  cases hclass : classify text <;> simp [hclass] at h ⊢

theorem unplaced_foldl (ts : List LineText) :
    (ts.foldl (step p) d).unplaced = (ts.map (·.text)).foldl read d.unplaced := by
  induction ts generalizing d with
  | nil => rfl
  | cons t rest ih => rw [List.foldl_cons, ih, unplaced_step, List.map_cons, List.foldl_cons]

/-- Only the visible texts are read. -/
theorem read_visible (texts : List (List UInt8)) :
    texts.foldl read d = (texts.filter visible).foldl read d := by
  induction texts generalizing d with
  | nil => rfl
  | cons text rest ih =>
    cases hvisible : visible text with
    | true => rw [List.filter_cons_of_pos hvisible, List.foldl_cons, List.foldl_cons, ih]
    | false =>
      rw [List.filter_cons_of_neg (by simp [hvisible]), List.foldl_cons,
        read_invisible d hvisible, ih]

end Document

/-- Apart from places a document is what its visible texts say. -/
theorem document_unplaced (p : Platform) (source : List UInt8) :
    (parseDocument p source).unplaced =
      (((sourceTexts source).filter visible).foldl Document.read .empty).finalize := by
  rw [parseDocument, Document.unplaced_finalize, Document.unplaced_foldl, ← Document.read_visible]
  rfl

/-- The description that a header text spells. -/
def descriptionOf (text : List UInt8) : Option (List UInt8) :=
  match classify text with
  | .header _ description => some description
  | _ => none

theorem descriptionOf_invisible {text : List UInt8} (h : visible text = false) :
    descriptionOf text = none := by
  unfold visible at h
  unfold descriptionOf
  cases hclass : classify text <;> simp [hclass] at h ⊢

/-- The descriptions of the cheats are those of the header texts. -/
theorem document_descriptions (p : Platform) {source : List UInt8}
    (hmax : source.length < 2 ^ 32) :
    (parseDocument p source).cheats.map (fun k => k.description.bytes source) =
      (sourceTexts source).filterMap descriptionOf := by
  have htitles : (parseDocument p source).titles =
      (Document.before p (sourceLines source) (sourceLines source).length).titles := by
    rw [Document.before_all]
    exact Document.finalize_map raise_title _
  have hbefore : (Document.before p (sourceLines source) (sourceLines source).length).titles.map
        (fun τ => τ.description.bytes source) =
      (((sourceLines source).take (sourceLines source).length).map (·.text)).filterMap
        descriptionOf := by
    refine Document.before_invariant p (fun i d =>
      d.titles.map (fun τ => τ.description.bytes source) =
        (((sourceLines source).take i).map (·.text)).filterMap descriptionOf) rfl ?_
      (Nat.le_refl _)
    intro i t d ht hd
    rw [Document.step_titles, List.map_append, hd, List.take_add_one, ht, Option.toList_some,
      List.map_append, List.filterMap_append, List.map_singleton, List.filterMap_cons,
      List.filterMap_nil, descriptionOf]
    cases hclass : classify t.text with
    | header activation description =>
      obtain ⟨s, hs, -, rfl⟩ := classify_header hclass
      exact congrArg (_ ++ [·]) (title_description hmax ht hs).1
    | _ => rfl
  rw [← htitles, List.take_length, Document.titles, List.map_map] at hbefore
  exact hbefore

theorem visible_descriptions (texts : List (List UInt8)) :
    texts.filterMap descriptionOf = (texts.filter visible).filterMap descriptionOf := by
  rw [List.filterMap_filter]
  congr 1
  funext text
  cases hvisible : visible text with
  | true => rfl
  | false => exact descriptionOf_invisible hvisible

/-- Two cheats that differ in places only. -/
structure SameCheat (source source' : List UInt8) (k k' : Cheat) : Prop where
  activation : k.activation = k'.activation
  translationState : k.translationState = k'.translationState
  description : k.description.bytes source = k'.description.bytes source'
  firstOperationIndex : k.firstOperationIndex = k'.firstOperationIndex
  operationCount : k.operationCount = k'.operationCount

/-- A report without the counters of bytes and lines. -/
def Report.unplaced (r : Report) : Report :=
  { r with sourceSize := 0, totalLines := 0, storedLines := 0 }

/-- Everything that was found has room. -/
structure Report.FitsIn (c : Call β) (r : Report) : Prop where
  lines : r.totalLines ≤ c.lines.capacity
  cheats : r.totalCheats ≤ c.cheats.capacity
  operations : r.totalOperations ≤ c.operations.capacity

/-- Two imports whose records differ in places only. -/
structure SameImport (source source' : List UInt8) (out : Outputs β) (out' : Outputs γ)
    (cheats cheats' : List Cheat) (operations operations' : List Operation) : Prop where
  cheats : List.Forall₂ (SameCheat source source') cheats cheats'
  operations : operations.map Operation.unplaced = operations'.map Operation.unplaced
  report : out.report.unplaced = out'.report.unplaced

theorem same_cheats {source source' : List UInt8} {cheats cheats' : List Cheat}
    (hunplaced : cheats.map Cheat.unplaced = cheats'.map Cheat.unplaced)
    (hdescription : cheats.map (fun k => k.description.bytes source) =
      cheats'.map (fun k => k.description.bytes source')) :
    List.Forall₂ (SameCheat source source') cheats cheats' := by
  induction cheats generalizing cheats' with
  | nil =>
    rw [List.map_eq_nil_iff.mp hunplaced.symm]
    exact .nil
  | cons k rest ih =>
    cases cheats' with
    | nil => cases hunplaced
    | cons k' rest' =>
      obtain ⟨hk, hrest⟩ := List.cons.inj hunplaced
      obtain ⟨hbytes, hrestBytes⟩ := List.cons.inj hdescription
      obtain ⟨hactivation, hstate, -, -, hfirst, hcount⟩ := Cheat.mk.inj hk
      exact .cons ⟨hactivation, hstate, hbytes, hfirst, hcount⟩ (ih hrest hrestBytes)

/-- A call with room for what it finds returns OK. -/
theorem fits_ok {p : Platform} {c : Call β} {status : Status} {out : Outputs β}
    (h : vcPsvParse p c = some (status, out)) (hcheck : checkArguments p c = none)
    (hfits : out.report.FitsIn c) : status = .ok := by
  rw [vcPsvParse_document p c hcheck, Document.outcome] at h
  split at h
  · exact (Prod.mk.inj (Option.some.inj h)).1.symm
  · next hd =>
    obtain ⟨-, rfl⟩ := Prod.mk.inj (Option.some.inj h)
    exact absurd ((fitsIn_iff c _).mpr ⟨hfits.lines, hfits.cheats, hfits.operations⟩) hd

/-- The reports of two documents that differ in places, where everything was stored. -/
theorem unplaced_report {d e : Document} (c : Call β) (c' : Call γ)
    (h : d.unplaced = e.unplaced) (hd : (d.report c).Stored) (he : (e.report c').Stored) :
    (d.report c).unplaced = (e.report c').unplaced := by
  have hcheats : d.cheats.length = e.cheats.length := by
    simpa [Document.unplaced] using congrArg (·.cheats.length) h
  have hoperations : d.operations.length = e.operations.length := by
    simpa [Document.unplaced] using congrArg (·.operations.length) h
  have hstoredCheats : (d.report c).storedCheats = (e.report c').storedCheats :=
    hd.cheats.trans (hcheats.trans he.cheats.symm)
  have hstoredOperations : (d.report c).storedOperations = (e.report c').storedOperations :=
    hd.operations.trans (hoperations.trans he.operations.symm)
  obtain ⟨-, -, -, hunsupported, hnonDirect, hinvalid, hmalformed, hlegacy, -⟩ :=
    Document.mk.inj h
  rw [Report.unplaced, Report.unplaced, Report.mk.injEq]
  exact ⟨rfl, rfl, rfl, rfl, hcheats, hstoredCheats, hoperations, hstoredOperations, hunsupported,
    hnonDirect, hinvalid, hmalformed, hlegacy⟩

/-- Imports of sources with the same visible texts differ in places only. -/
theorem visible_import {p : Platform} {c : Call β} {c' : Call γ} {out : Outputs β}
    {out' : Outputs γ} (h : vcPsvParse p c = some (.ok, out))
    (h' : vcPsvParse p c' = some (.ok, out'))
    (hvisible : (sourceTexts c.source.value).filter visible =
      (sourceTexts c'.source.value).filter visible) :
    SameImport c.source.value c'.source.value out out'
      (parseDocument p c.source.value).cheats (parseDocument p c'.source.value).cheats
      (parseDocument p c.source.value).operations
      (parseDocument p c'.source.value).operations := by
  obtain ⟨hsize, hreport, -⟩ := ok_imported h
  obtain ⟨hsize', hreport', -⟩ := ok_imported h'
  have hstored := ok_stored h
  have hstored' := ok_stored h'
  have hmax : maxSourceBytes < 2 ^ 32 := by decide
  have hdescriptions := document_descriptions p (Nat.lt_of_le_of_lt hsize hmax)
  have hdescriptions' := document_descriptions p (Nat.lt_of_le_of_lt hsize' hmax)
  rw [visible_descriptions, hvisible, ← visible_descriptions, ← hdescriptions'] at hdescriptions
  have hdocument := document_unplaced p c.source.value
  rw [hvisible, ← document_unplaced] at hdocument
  rw [hreport] at hstored
  rw [hreport'] at hstored'
  refine ⟨same_cheats (congrArg Document.cheats hdocument) hdescriptions,
    congrArg Document.operations hdocument, ?_⟩
  rw [hreport, hreport']
  exact unplaced_report c c' hdocument hstored hstored'

/-- A blank or comment line put between two lines changes the places of the records
and the counters of bytes and lines, and nothing else. -/
theorem import_inert (p : Platform) (c : Call β) (c' : Call γ) (before line after : List UInt8)
    (hsource : c.source.value = before ++ after)
    (hsource' : c'.source.value = before ++ line ++ after)
    (hbefore : Complete before) (hline : InertLine line)
    (hmark : before = [] → after.take 3 ≠ byteOrderMark)
    (hcheck : checkArguments p c = none) (hcheck' : checkArguments p c' = none) :
    ∃ status out status' out', vcPsvParse p c = some (status, out) ∧
      vcPsvParse p c' = some (status', out') ∧
      (out.report.FitsIn c → status = .ok) ∧ (out'.report.FitsIn c' → status' = .ok) ∧
      (status = .ok → status' = .ok →
        ∃ lines lines' cheats cheats' operations operations',
          Imported out lines cheats operations ∧ Imported out' lines' cheats' operations' ∧
          SameImport c.source.value c'.source.value out out' cheats cheats' operations
            operations') := by
  obtain ⟨status, out, hrun⟩ := parse_returns p hcheck
  obtain ⟨status', out', hrun'⟩ := parse_returns p hcheck'
  refine ⟨status, out, status', out', hrun, hrun', fits_ok hrun hcheck, fits_ok hrun' hcheck', ?_⟩
  rintro rfl rfl
  obtain ⟨-, -, himported⟩ := ok_imported hrun
  obtain ⟨-, -, himported'⟩ := ok_imported hrun'
  have hvisible := visible_insert hbefore hline hmark
  rw [← hsource, ← hsource'] at hvisible
  exact ⟨_, _, _, _, _, _, himported, himported', visible_import hrun hrun' hvisible.symm⟩

/-- The sample with a blank line in it. -/
def blankCall : Call UInt8 where
  source := ⟨0x1000, sample.take 6 ++ 0x0a :: sample.drop 6⟩
  lines := ⟨0x3000, 3, fun _ => 0xa5⟩
  cheats := ⟨0x4000, 1, fun _ => 0xa5⟩
  operations := ⟨0x5000, 1, fun _ => 0xa5⟩
  report := ⟨0x2000, .zero⟩

/-- A comment before the blank line, whose CR takes the LF of that line. -/
def commentCall : Call UInt8 where
  source := ⟨0x1000, sample.take 6 ++ [0x09, 0x23, 0x0d] ++ 0x0a :: sample.drop 6⟩
  lines := ⟨0x3000, 3, fun _ => 0xa5⟩
  cheats := ⟨0x4000, 1, fun _ => 0xa5⟩
  operations := ⟨0x5000, 1, fun _ => 0xa5⟩
  report := ⟨0x2000, .zero⟩

theorem import_inert_comment :
    ∃ out out', vcPsvParse ilp32 blankCall = some (.ok, out) ∧
      vcPsvParse ilp32 commentCall = some (.ok, out') ∧
      out.report.totalLines = 3 ∧ out'.report.totalLines = 3 ∧
      ∃ cheats cheats' operations operations',
        SameImport blankCall.source.value commentCall.source.value out out' cheats cheats'
          operations operations' := by
  have hcomplete : Complete (sample.take 6) := by
    intro b hb
    obtain rfl := Option.some.inj hb
    decide
  have hinert : InertLine [0x09, 0x23, 0x0d] :=
    ⟨[0x09], [0x23], [cr], rfl, by simp [asciiSpace], .inr ⟨[], rfl, by simp⟩, .inr (.inl rfl)⟩
  obtain ⟨status, out, status', out', hrun, hrun', -, -, hsame⟩ :=
    import_inert ilp32 blankCall commentCall (sample.take 6) [0x09, 0x23, 0x0d]
      (0x0a :: sample.drop 6) rfl rfl hcomplete hinert (fun h => absurd h (by decide))
      (by decide) (by decide)
  have hshape : (vcPsvParse ilp32 blankCall).map (fun r => (r.1, r.2.report.totalLines)) =
      some (.ok, 3) := by decide
  have hshape' : (vcPsvParse ilp32 commentCall).map (fun r => (r.1, r.2.report.totalLines)) =
      some (.ok, 3) := by decide
  rw [hrun, Option.map_some, Option.some.injEq, Prod.mk.injEq] at hshape
  rw [hrun', Option.map_some, Option.some.injEq, Prod.mk.injEq] at hshape'
  obtain ⟨rfl, hlines⟩ := hshape
  obtain ⟨rfl, hlines'⟩ := hshape'
  obtain ⟨-, -, cheats, cheats', operations, operations', -, -, hsame⟩ := hsame rfl rfl
  exact ⟨out, out', hrun, hrun', hlines, hlines', cheats, cheats', operations, operations', hsame⟩

end VitaCheat.Psv
