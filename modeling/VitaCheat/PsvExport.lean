import VitaCheat.PsvCode
import VitaCheat.PsvEntries

/-!
# Writing entries out

A file can be written from entries in many layouts: with indentation, comments and
blank lines, either case of every digit, any gaps and any line endings. Its import
gives the entries back; and an import without rejected lines can be written out and
imported again with nothing lost.
-/
namespace VitaCheat.Psv

open TextLines (cr lf isBreak Complete solid)

variable {β γ : Type}

/-- How a line is laid out. -/
structure Layout where
  inert : List (List UInt8)
  indent : List UInt8
  gap : List UInt8
  style : Style
  trailing : List UInt8
  ending : List UInt8
  inert_lines : ∀ line ∈ inert, InertLine line
  indent_spaces : ∀ b ∈ indent, asciiSpace b = true
  gap_spaces : Gap gap
  trailing_spaces : ∀ b ∈ trailing, asciiSpace b = true
  ending_break : ending = [lf] ∨ ending = [cr] ∨ ending = [cr, lf]

/-- A text that neither starts nor ends with a space. -/
def Trimmed (text : List UInt8) : Prop :=
  (∀ b ∈ text.head?, asciiSpace b = false) ∧ Closed text

/-- What one line of the file says. -/
inductive Item where
  | header (activation : Activation) (description : List UInt8)
  | code (c : Code)
  deriving DecidableEq, Repr

def Activation.digit : Activation → UInt8
  | .manual => 0x30
  | .autostart => 0x31

namespace Item

def text (l : Layout) : Item → List UInt8
  | header activation description =>
    0x5f :: 0x56 :: activation.digit ::
      if description.isEmpty then [] else l.gap ++ description
  | code c => (l.style.shape c).text

def lineClass : Item → LineClass
  | header activation description => .header activation description
  | code c => .code c

/-- A description fits on a line and is what the importer would trim it to. -/
def Writable : Item → Prop
  | header _ description => (∀ b ∈ description, isBreak b = false) ∧ Trimmed description
  | code _ => True

end Item

def Entry.items (e : Entry) : List Item :=
  .header e.activation e.description :: e.codes.map .code

def Entry.Writable (e : Entry) : Prop :=
  (∀ b ∈ e.description, isBreak b = false) ∧ Trimmed e.description

def Layout.line (l : Layout) (x : Item) : List UInt8 :=
  l.inert.flatten ++ (l.indent ++ (x.text l ++ l.trailing) ++ l.ending)

def exportItems (layout : Nat → Layout) : Nat → List Item → List UInt8
  | _, [] => []
  | n, x :: rest => (layout n).line x ++ exportItems layout (n + 1) rest

/-- The file, with a byte order mark if asked for. -/
def exportFile (mark : Bool) (layout : Nat → Layout) (es : List Entry) : List UInt8 :=
  (if mark then byteOrderMark else []) ++ exportItems layout 0 (es.flatMap Entry.items)

theorem trimmed_trim (text : List UInt8) : Trimmed (trim text) := by
  refine ⟨?_, closed_trim text⟩
  intro b hb
  obtain ⟨more, hmore⟩ := List.rdropWhile_prefix asciiSpace (text.dropWhile asciiSpace)
  have hfirst : ((text.dropWhile asciiSpace).rdropWhile asciiSpace).head? = some b := hb
  have hhead : (text.dropWhile asciiSpace).head? = some b := by
    rw [← hmore, List.head?_append, hfirst]
    rfl
  have hnot := List.head?_dropWhile_not asciiSpace text
  rw [hhead] at hnot
  simpa using hnot

theorem rdropWhile_spaces (text : List UInt8) {after : List UInt8}
    (hafter : ∀ b ∈ after, asciiSpace b = true) :
    (text ++ after).rdropWhile asciiSpace = text.rdropWhile asciiSpace := by
  induction after using List.reverseRecOn with
  | nil => rw [List.append_nil]
  | append_singleton init b ih =>
    have hb := hafter b (by simp)
    rw [← List.append_assoc, List.rdropWhile_concat_pos _ _ _ hb]
    exact ih fun c hc => hafter c (by simp [hc])

/-- The spaces around a trimmed text are what is trimmed. -/
theorem trim_spaced {before text after : List UInt8} (hbefore : ∀ b ∈ before, asciiSpace b = true)
    (hafter : ∀ b ∈ after, asciiSpace b = true) (h : Trimmed text) :
    trim (before ++ (text ++ after)) = text := by
  rw [trim, List.dropWhile_append_of_pos hbefore]
  cases text with
  | nil =>
    have hnone : after.dropWhile asciiSpace = [] := List.dropWhile_eq_nil_iff.mpr hafter
    rw [List.nil_append, hnone, List.rdropWhile_nil]
  | cons b rest =>
    have hb : asciiSpace b = false := h.1 b rfl
    rw [List.cons_append, List.dropWhile_cons_of_neg (by rw [hb]; decide), ← List.cons_append,
      rdropWhile_spaces (b :: rest) hafter]
    apply List.rdropWhile_eq_self_iff.mpr
    intro hne
    rw [h.2 _ (List.getLast?_eq_some_getLast hne)]
    decide

variable {l : Layout} {x : Item}

theorem hexDigit_no_break {b : UInt8} (h : isHexDigit b = true) : isBreak b = false := by
  rw [Bool.eq_false_iff]
  intro hbreak
  simp only [isBreak, Bool.or_eq_true, beq_iff_eq] at hbreak
  rcases hbreak with rfl | rfl <;> exact absurd h (by decide)

theorem digit_known (a : Activation) : a.digit = 0x30 ∨ a.digit = 0x31 := by
  cases a with
  | manual => exact .inl rfl
  | autostart => exact .inr rfl

theorem shape_no_break (s : CodeShape) : ∀ b ∈ s.text, isBreak b = false := by
  intro b hb
  rw [CodeShape.text] at hb
  simp only [List.mem_cons, List.mem_append] at hb
  rcases hb with rfl | hb | hb | hb | hb | hb
  · decide
  · exact hexDigit_no_break (s.code_digits.2 b hb)
  · exact space_no_break (s.gap_spaces.2 b hb)
  · exact hexDigit_no_break (s.address_digits.2 b hb)
  · exact space_no_break (s.gap'_spaces.2 b hb)
  · exact hexDigit_no_break (s.value_digits.2 b hb)

theorem text_no_break (l : Layout) (hx : x.Writable) : ∀ b ∈ x.text l, isBreak b = false := by
  cases x with
  | code c => exact shape_no_break _
  | header activation description =>
    intro b hb
    simp only [Item.text, List.mem_cons] at hb
    rcases hb with rfl | rfl | rfl | hb
    · decide
    · decide
    · exact (digit_facts (digit_known activation)).1
    · split at hb
      · cases hb
      · rcases List.mem_append.mp hb with hb | hb
        · exact space_no_break (l.gap_spaces.2 b hb)
        · exact hx.1 b hb

theorem shape_trimmed (s : CodeShape) : Trimmed s.text := by
  constructor
  · intro b hb
    obtain rfl := Option.some.inj hb
    decide
  · intro b hb
    have hne : s.value ≠ [] := by
      intro hnil
      have hlength := s.value_digits.1
      rw [hnil] at hlength
      cases hlength
    have hlast : s.text.getLast? = s.value.getLast? := by
      rw [CodeShape.text, ← List.singleton_append]
      simp only [← List.append_assoc]
      exact List.getLast?_append_of_ne_nil _ hne
    rw [hlast] at hb
    exact hexDigit_no_space (s.value_digits.2 b (List.mem_of_getLast? hb))

theorem text_trimmed (l : Layout) (hx : x.Writable) : Trimmed (x.text l) := by
  cases x with
  | code c => exact shape_trimmed _
  | header activation description =>
    constructor
    · intro b hb
      obtain rfl := Option.some.inj hb
      decide
    · intro b hb
      cases description with
      | nil =>
        obtain rfl := Option.some.inj hb
        exact (digit_facts (digit_known activation)).2
      | cons d ds =>
        have hlast : (Item.text l (.header activation (d :: ds))).getLast? = (d :: ds).getLast? := by
          show ([0x5f, 0x56, activation.digit] ++ (l.gap ++ (d :: ds))).getLast? = _
          rw [← List.append_assoc]
          exact List.getLast?_append_of_ne_nil _ (List.cons_ne_nil d ds)
        rw [hlast] at hb
        exact hx.2.2 b hb

/-- The header that an item is written as. -/
def headerShape (l : Layout) (activation : Activation) (description : List UInt8) :
    HeaderShape where
  digit := activation.digit
  rest := if description.isEmpty then [] else l.gap ++ description
  digit_known := digit_known activation
  rest_spaced := by
    intro b hb
    split at hb
    · cases hb
    · cases hgap : l.gap with
      | nil => exact absurd hgap l.gap_spaces.1
      | cons g gs =>
        rw [hgap] at hb
        obtain rfl := Option.some.inj hb
        exact l.gap_spaces.2 g (by rw [hgap]; exact List.mem_cons_self ..)

theorem headerShape_description (l : Layout) (activation : Activation) {description : List UInt8}
    (h : Trimmed description) : (headerShape l activation description).description = description := by
  rw [HeaderShape.description, headerShape]
  cases description with
  | nil => rfl
  | cons d ds =>
    have hd : asciiSpace d = false := h.1 d rfl
    show (l.gap ++ (d :: ds)).dropWhile asciiSpace = d :: ds
    rw [List.dropWhile_append_of_pos l.gap_spaces.2,
      List.dropWhile_cons_of_neg (by rw [hd]; decide)]

/-- A written item is read as what it says. -/
theorem classify_item (l : Layout) (hx : x.Writable) : classify (x.text l) = x.lineClass := by
  cases x with
  | header activation description =>
    let s := headerShape l activation description
    have hspells : SpellsHeader (Item.text l (.header activation description)) := ⟨s, rfl⟩
    rcases classify_attempted hspells.attempts with ⟨s', hs', hclass⟩ | ⟨hno, -⟩
    · have htext : s'.text = s.text := hs'
      simp only [HeaderShape.text, List.cons.injEq, true_and] at htext
      have hactivation : s'.activation = activation := by
        rw [HeaderShape.activation, htext.1]
        cases activation <;> rfl
      have hdescription : s'.description = description := by
        rw [HeaderShape.description, htext.2]
        exact headerShape_description l activation hx.2
      rw [hclass, hactivation, hdescription]
      rfl
    · exact absurd hspells hno
  | code c =>
    have hhead : (Item.text l (.code c)).head? = some 0x24 := rfl
    have hplain : ¬AttemptsHeader (Item.text l (.code c)) := by
      intro hattempt
      have h5f := attempts_head hattempt
      rw [hhead] at h5f
      exact absurd h5f (by decide)
    have hcode : codeText (Item.text l (.code c)) = some c := codeText_rendered l.style c
    rcases classify_plain hplain with ⟨hnil, -⟩ | ⟨hcomment, -⟩ | ⟨-, c', hc', hclass⟩ |
      ⟨-, hnone, -⟩ | ⟨-, -, hother, -⟩
    · rw [hnil] at hhead
      cases hhead
    · rw [hhead] at hcomment
      exact absurd hcomment (by decide)
    · rw [hcode] at hc'
      rw [hclass, ← Option.some.inj hc']
      rfl
    · rw [hcode] at hnone
      cases hnone
    · exact absurd hhead hother

theorem item_visible (x : Item) : (x.lineClass ≠ .blank ∧ x.lineClass ≠ .comment) := by
  cases x with
  | header activation description => exact ⟨by simp [Item.lineClass], by simp [Item.lineClass]⟩
  | code c => exact ⟨by simp [Item.lineClass], by simp [Item.lineClass]⟩

theorem inert_flatten_complete {lines : List (List UInt8)} (h : ∀ line ∈ lines, InertLine line) :
    Complete lines.flatten := by
  induction lines with
  | nil => exact fun b hb => absurd hb (by simp)
  | cons line rest ih =>
    obtain ⟨hline, hrest⟩ := List.forall_mem_cons.mp h
    intro b hb
    rw [List.flatten_cons, List.getLast?_append] at hb
    cases hlast : rest.flatten.getLast? with
    | none =>
      rw [hlast] at hb
      exact inert_complete hline b hb
    | some c =>
      rw [hlast] at hb
      obtain rfl := Option.some.inj hb
      exact ih hrest _ hlast

/-- Nothing of the lines before an item is visible. -/
theorem inert_flatten_solid {lines : List (List UInt8)} (h : ∀ line ∈ lines, InertLine line) :
    ((solid lines.flatten).map trim).filter visible = [] := by
  induction lines with
  | nil => rfl
  | cons line rest ih =>
    obtain ⟨hline, hrest⟩ := List.forall_mem_cons.mp h
    rw [List.flatten_cons, TextLines.solid_append (inert_complete hline), List.map_append,
      List.filter_append, inert_solid hline, ih hrest]
    rfl

theorem line_complete (l : Layout) (x : Item) : Complete (l.line x) := by
  intro b hb
  obtain ⟨hne, hbreaks⟩ := ending_breaks l.ending_break
  rw [Layout.line, ← List.append_assoc, List.getLast?_append_of_ne_nil _ hne] at hb
  exact hbreaks b (List.mem_of_getLast? hb)

/-- The visible text of a written line is the one of its item. -/
theorem line_solid (l : Layout) (hx : x.Writable) :
    ((solid (l.line x)).map trim).filter visible = [x.text l] := by
  have hcontent : ∀ b ∈ l.indent ++ (x.text l ++ l.trailing), isBreak b = false := by
    intro b hb
    simp only [List.mem_append] at hb
    rcases hb with hb | hb | hb
    · exact space_no_break (l.indent_spaces b hb)
    · exact text_no_break l hx b hb
    · exact space_no_break (l.trailing_spaces b hb)
  have htrim := trim_spaced l.indent_spaces l.trailing_spaces (text_trimmed l hx)
  have hvisible : visible (x.text l) = true := by
    obtain ⟨hblank, hcomment⟩ := item_visible x
    rw [visible, classify_item l hx, decide_eq_true hblank, decide_eq_true hcomment]
    rfl
  have hsolid : (l.indent ++ (x.text l ++ l.trailing)).isEmpty = false := by
    cases x with
    | header activation description => simp [Item.text]
    | code c => simp [Item.text, CodeShape.text]
  rw [Layout.line, TextLines.solid_append (inert_flatten_complete l.inert_lines), List.map_append,
    List.filter_append, inert_flatten_solid l.inert_lines,
    TextLines.solid_line hcontent (ending_breaks l.ending_break).2]
  simp only [hsolid, Bool.not_false, List.filter_cons_of_pos, List.filter_nil, List.map_cons,
    List.map_nil, htrim, hvisible, List.nil_append]

theorem exportItems_solid (layout : Nat → Layout) {xs : List Item} (h : ∀ x ∈ xs, x.Writable) :
    ∀ n, (((solid (exportItems layout n xs)).map trim).filter visible).map classify =
      xs.map Item.lineClass := by
  induction xs with
  | nil => exact fun _ => rfl
  | cons x rest ih =>
    intro n
    obtain ⟨hx, hrest⟩ := List.forall_mem_cons.mp h
    rw [exportItems, TextLines.solid_append (line_complete _ x), List.map_append,
      List.filter_append, line_solid _ hx, List.map_append, ih hrest (n + 1), List.map_singleton,
      classify_item _ hx]
    rfl

/-- A written line does not begin with the first byte of a mark. -/
theorem line_unmarked (l : Layout) (x : Item) (more : List UInt8) :
    (l.line x ++ more).take 3 ≠ byteOrderMark := by
  cases hinert : l.inert with
  | cons line rest =>
    have hline := l.inert_lines line (by rw [hinert]; exact List.mem_cons_self ..)
    rw [Layout.line, hinert, List.flatten_cons, List.append_assoc, List.append_assoc]
    exact inert_unmarked hline _
  | nil =>
    intro hmark
    have hfirst : (l.line x ++ more).head? = some 0xef := by
      have htake : ((l.line x ++ more).take 3).head? = (l.line x ++ more).head? := List.head?_take
      rw [← htake, hmark]
      rfl
    rw [Layout.line, hinert] at hfirst
    cases hindent : l.indent with
    | cons b rest =>
      rw [hindent] at hfirst
      obtain rfl := Option.some.inj hfirst
      have hspace := l.indent_spaces 0xef (by rw [hindent]; exact List.mem_cons_self ..)
      exact absurd hspace (by decide)
    | nil =>
      rw [hindent] at hfirst
      cases x with
      | header activation description => cases hfirst
      | code c => cases hfirst

/-- The classes of an exported file are what its items say. -/
theorem export_classes (mark : Bool) (layout : Nat → Layout) {es : List Entry}
    (h : ∀ e ∈ es, e.Writable) :
    sourceClasses (exportFile mark layout es) = (es.flatMap Entry.items).map Item.lineClass := by
  have hitems : ∀ x ∈ es.flatMap Entry.items, x.Writable := by
    intro x hx
    obtain ⟨e, he, hxe⟩ := List.mem_flatMap.mp hx
    rcases List.mem_cons.mp hxe with rfl | hcode
    · exact h e he
    · obtain ⟨c, -, rfl⟩ := List.mem_map.mp hcode
      exact trivial
  have hunmark : unmark (exportFile mark layout es) =
      exportItems layout 0 (es.flatMap Entry.items) := by
    cases mark with
    | true => rfl
    | false =>
      refine if_neg ?_
      cases hxs : es.flatMap Entry.items with
      | nil => simp [exportFile, hxs, exportItems, byteOrderMark]
      | cons x rest =>
        rw [exportFile, hxs]
        exact line_unmarked (layout 0) x _
  rw [sourceClasses, visible_texts, hunmark, exportItems_solid layout hitems]

theorem codes_foldl (cs : List Code) (es : List Entry) (e : Entry) :
    ((cs.map Item.code).map Item.lineClass).foldl Reading.step ⟨es ++ [e], true⟩ =
      ⟨es ++ [{ e with codes := e.codes ++ cs }], true⟩ := by
  induction cs generalizing e with
  | nil => simp
  | cons c rest ih =>
    have hpush : (es ++ [e]).modify ((es ++ [e]).length - 1) (Entry.push c) =
        es ++ [e.push c] := by
      rw [List.length_append, List.length_singleton, Nat.add_sub_cancel, modify_concat]
    rw [List.map_cons, List.map_cons, List.foldl_cons, Item.lineClass, Reading.step, if_pos rfl,
      hpush, ih]
    simp [Entry.push]

theorem entries_foldl (es : List Entry) (r : Reading) :
    (((es.flatMap Entry.items).map Item.lineClass).foldl Reading.step r).entries =
      r.entries ++ es := by
  induction es generalizing r with
  | nil => exact (List.append_nil _).symm
  | cons e rest ih =>
    rw [List.flatMap_cons, List.map_append, List.foldl_append, ih, Entry.items, List.map_cons,
      List.foldl_cons, Item.lineClass, Reading.step, codes_foldl]
    simp

/-- An exported file holds the entries that it was written from. -/
theorem export_entries (mark : Bool) (layout : Nat → Layout) {es : List Entry}
    (h : ∀ e ∈ es, e.Writable) :
    entriesOf ((sourceTexts (exportFile mark layout es)).map classify) = es := by
  rw [sourceEntries_visible, export_classes mark layout h, entriesOf, entries_foldl]
  rfl

/-- Is a cheat active after a line, given whether one was before it? -/
def LineClass.leaves (active : Bool) : LineClass → Bool
  | .header _ _ => true
  | .badHeader => false
  | _ => active

/-- The kinds of the records of lines. -/
def kindsOf : Bool → List LineClass → List LineKind
  | _, [] => []
  | active, cls :: rest => cls.kind active :: kindsOf (cls.leaves active) rest

/-- A line that is read as part of an entry, or as nothing. -/
def LineKind.Accepted (kind : LineKind) : Prop := kind ≠ .malformed ∧ kind ≠ .opaqueLine

instance (kind : LineKind) : Decidable kind.Accepted :=
  inferInstanceAs (Decidable (kind ≠ .malformed ∧ kind ≠ .opaqueLine))

def Accepted (active : Bool) (classes : List LineClass) : Prop :=
  ∀ kind ∈ kindsOf active classes, kind.Accepted

theorem accepted_cons {active : Bool} {cls : LineClass} {rest : List LineClass} :
    Accepted active (cls :: rest) ↔
      (cls.kind active).Accepted ∧ Accepted (cls.leaves active) rest := List.forall_mem_cons

theorem accepted_visible (texts : List (List UInt8)) (active : Bool) :
    Accepted active (texts.map classify) ↔
      Accepted active ((texts.filter visible).map classify) := by
  induction texts generalizing active with
  | nil => exact Iff.rfl
  | cons text rest ih =>
    cases hvisible : visible text with
    | true =>
      rw [List.filter_cons_of_pos hvisible, List.map_cons, List.map_cons, accepted_cons,
        accepted_cons, ih]
    | false =>
      rw [List.filter_cons_of_neg (by simp [hvisible]), List.map_cons, accepted_cons, ih]
      unfold visible at hvisible
      cases hclass : classify text <;>
        simp [hclass, LineKind.Accepted, LineClass.kind, LineClass.leaves] at hvisible ⊢

theorem foldl_kinds (p : Platform) (ts : List LineText) (d : Document) :
    (ts.foldl (Document.step p) d).lines.map Line.kind =
      d.lines.map Line.kind ++ kindsOf d.active.isSome (ts.map fun t => classify t.text) := by
  induction ts generalizing d with
  | nil => exact (List.append_nil _).symm
  | cons t rest ih =>
    have hactive : (d.step p t).active.isSome = (classify t.text).leaves d.active.isSome := by
      rw [Document.step_active]
      cases classify t.text <;> rfl
    rw [List.foldl_cons, ih, Document.step_lines, List.map_append, List.map_singleton,
      Document.lineRecord_kind, hactive, List.map_cons, kindsOf, List.append_assoc]
    rfl

/-- The kinds of the line records are those of the classes. -/
theorem document_kinds (p : Platform) (source : List UInt8) :
    (parseDocument p source).lines.map Line.kind =
      kindsOf false ((sourceTexts source).map classify) := by
  rw [parseDocument, Document.finalize_lines, foldl_kinds, sourceTexts, List.map_map]
  rfl

theorem document_accepted (p : Platform) (source : List UInt8) :
    (∀ line ∈ (parseDocument p source).lines, line.kind.Accepted) ↔
      Accepted false (sourceClasses source) := by
  rw [sourceClasses, ← accepted_visible, Accepted, ← document_kinds p]
  exact List.forall_mem_map.symm

theorem codes_accepted (cs : List Code) {rest : List LineClass} (h : Accepted true rest) :
    Accepted true ((cs.map Item.code).map Item.lineClass ++ rest) := by
  induction cs with
  | nil => exact h
  | cons c more ih =>
    refine accepted_cons.mpr ⟨⟨?_, ?_⟩, ih⟩
    · simp [Item.lineClass, LineClass.kind]
    · simp [Item.lineClass, LineClass.kind]

theorem entries_accepted (es : List Entry) (active : Bool) :
    Accepted active ((es.flatMap Entry.items).map Item.lineClass) := by
  induction es generalizing active with
  | nil => exact fun kind hkind => absurd hkind (by simp [kindsOf])
  | cons e rest ih =>
    rw [List.flatMap_cons, List.map_append, Entry.items, List.map_cons, List.cons_append]
    refine accepted_cons.mpr ⟨⟨?_, ?_⟩, codes_accepted e.codes (ih true)⟩
    · simp [Item.lineClass, LineClass.kind]
    · simp [Item.lineClass, LineClass.kind]

def itemClasses (es : List Entry) : List LineClass := (es.flatMap Entry.items).map Item.lineClass

theorem itemClasses_append (es more : List Entry) :
    itemClasses (es ++ more) = itemClasses es ++ itemClasses more := by
  rw [itemClasses, List.flatMap_append, List.map_append]
  rfl

theorem itemClasses_push (es : List Entry) (e : Entry) (c : Code) :
    itemClasses (es ++ [e.push c]) = itemClasses (es ++ [e]) ++ [.code c] := by
  rw [itemClasses_append, itemClasses_append, List.append_assoc]
  simp [itemClasses, Entry.items, Entry.push, Item.lineClass]

/-- Accepted lines are the items of the entries that are read from them. -/
theorem accepted_items (classes : List LineClass) :
    ∀ r : Reading, (r.active = true → r.entries ≠ []) → Accepted r.active classes →
      (∀ cls ∈ classes, cls ≠ .blank ∧ cls ≠ .comment) →
      itemClasses (classes.foldl Reading.step r).entries = itemClasses r.entries ++ classes := by
  induction classes with
  | nil => exact fun _ _ _ _ => (List.append_nil _).symm
  | cons cls rest ih =>
    intro r hopen haccepted hplain
    obtain ⟨hkind, hrest⟩ := accepted_cons.mp haccepted
    obtain ⟨hcls, hmore⟩ := List.forall_mem_cons.mp hplain
    rw [List.foldl_cons]
    cases cls with
    | blank => exact absurd rfl hcls.1
    | comment => exact absurd rfl hcls.2
    | badHeader => exact absurd rfl hkind.1
    | badCode => exact absurd rfl hkind.1
    | opaqueLine => exact absurd rfl hkind.2
    | header activation description =>
      have hread := ih ⟨r.entries ++ [⟨activation, description, []⟩], true⟩ (fun _ => by simp) hrest
        hmore
      rw [Reading.step, hread, itemClasses_append, List.append_assoc]
      rfl
    | code c =>
      cases hactive : r.active with
      | false =>
        rw [hactive] at hkind
        exact absurd rfl hkind.1
      | true =>
        rcases List.eq_nil_or_concat r.entries with hnil | ⟨es, e, hentries⟩
        · exact absurd hnil (hopen hactive)
        · rw [List.concat_eq_append] at hentries
          have hstep : r.step (.code c) = ⟨es ++ [e.push c], true⟩ := by
            rw [Reading.step, hactive, if_pos rfl, hentries, List.length_append,
              List.length_singleton, Nat.add_sub_cancel, modify_concat]
          have hscope : Accepted r.active rest := hrest
          rw [hactive] at hscope
          rw [hstep, ih ⟨es ++ [e.push c], true⟩ (fun _ => by simp) hscope hmore,
            itemClasses_push, hentries, List.append_assoc]
          rfl

/-- A text of a source is trimmed and holds no line break. -/
theorem visible_text {source text : List UInt8} (h : text ∈ sourceTexts source)
    (hvisible : visible text = true) :
    (∀ b ∈ text, isBreak b = false) ∧ Trimmed text := by
  have hmem : text ∈ (sourceTexts source).filter visible := List.mem_filter.mpr ⟨h, hvisible⟩
  rw [visible_texts] at hmem
  obtain ⟨piece, hpiece, rfl⟩ := List.mem_map.mp (List.mem_filter.mp hmem).1
  obtain ⟨l, hl, rfl⟩ := List.mem_map.mp (List.mem_filter.mp hpiece).1
  refine ⟨?_, trimmed_trim _⟩
  intro b hb
  have hfirst := (List.rdropWhile_prefix asciiSpace (l.content.dropWhile asciiSpace)).subset hb
  exact TextLines.content_no_break _ l hl b
    ((List.dropWhile_suffix (l := l.content) asciiSpace).subset hfirst)

/-- The descriptions of a source can be written out. -/
theorem entries_writable (source : List UInt8) :
    ∀ e ∈ entriesOf ((sourceTexts source).map classify), e.Writable := by
  intro e he
  have hmem : e.description ∈ (entriesOf ((sourceTexts source).map classify)).map
      Entry.description := List.mem_map_of_mem he
  rw [entriesOf, reading_descriptions] at hmem
  obtain ⟨text, htext, hdescription⟩ := List.mem_filterMap.mp hmem
  rw [descriptionOf] at hdescription
  cases hclass : classify text with
  | header activation description =>
    rw [hclass] at hdescription
    obtain rfl := Option.some.inj hdescription
    have hvisible : visible text = true := by simp [visible, hclass]
    obtain ⟨hbreaks, -, hclosed⟩ := visible_text htext hvisible
    obtain ⟨s, rfl, -, hs⟩ := classify_header hclass
    have hsuffix : s.description <:+ s.text :=
      (List.dropWhile_suffix asciiSpace).trans (List.suffix_append [0x5f, 0x56, s.digit] s.rest)
    rw [hs] at hsuffix
    refine ⟨fun b hb => hbreaks b (hsuffix.subset hb), ?_, ?_⟩
    · intro b hb
      have hnot := List.head?_dropWhile_not asciiSpace s.rest
      rw [← hs, HeaderShape.description] at hb
      rw [hb] at hnot
      simpa using hnot
    · intro b hb
      obtain ⟨before, hbefore⟩ := hsuffix
      apply hclosed b
      rw [← hbefore, List.getLast?_append, hb]
      rfl
  | _ =>
    rw [hclass] at hdescription
    cases hdescription

/-- What was written out and what it was read from have the same classes. -/
theorem reexport_classes (mark : Bool) (layout : Nat → Layout) {source : List UInt8}
    (h : Accepted false (sourceClasses source)) :
    sourceClasses (exportFile mark layout (entriesOf ((sourceTexts source).map classify))) =
      sourceClasses source := by
  rw [export_classes mark layout (entries_writable source), sourceEntries_visible]
  refine accepted_items (sourceClasses source) .empty (fun hactive => by cases hactive) h ?_
  intro cls hcls
  obtain ⟨text, htext, rfl⟩ := List.mem_map.mp hcls
  have hvisible := (List.mem_filter.mp htext).2
  simpa [visible] using hvisible

/-- Entries that are written out in any layout are what the import of the file holds,
and no line of it is rejected. -/
theorem import_export (p : Platform) (c : Call β) (mark : Bool) (layout : Nat → Layout)
    (es : List Entry) (hsource : c.source.value = exportFile mark layout es)
    (hes : ∀ e ∈ es, e.Writable) (hcheck : checkArguments p c = none) :
    ∃ status out, vcPsvParse p c = some (status, out) ∧ (out.report.FitsIn c → status = .ok) ∧
      (status = .ok → out.entries c.source.value = es ∧
        ∀ line ∈ out.lineRecords, line.kind.Accepted) := by
  obtain ⟨status, out, hrun⟩ := parse_returns p hcheck
  refine ⟨status, out, hrun, fits_ok hrun hcheck, ?_⟩
  rintro rfl
  obtain ⟨hlines, -, -⟩ := ok_records hrun
  constructor
  · rw [ok_entries hrun, ← sourceEntries_visible, hsource]
    exact export_entries mark layout hes
  · rw [hlines, document_accepted, hsource, export_classes mark layout hes]
    exact entries_accepted es false

/-- A layout with a comment before every line, indented lines and CR LF endings. -/
def sampleLayout : Layout where
  inert := [[0x23, 0x20, 0x78, lf]]
  indent := [0x09]
  gap := [0x20, 0x09]
  style := ⟨fun _ => true, fun _ => false, fun _ => true, [0x20], [0x09, 0x20],
    by simp [Gap, asciiSpace], by simp [Gap, asciiSpace]⟩
  trailing := [0x20]
  ending := [cr, lf]
  inert_lines := by
    intro line hline
    obtain rfl := List.mem_singleton.mp hline
    exact ⟨[], [0x23, 0x20, 0x78], [lf], rfl, by simp,
      .inr ⟨[0x20, 0x78], rfl, by simp [isBreak, cr, lf]⟩, .inl rfl⟩
  indent_spaces := by simp [asciiSpace]
  gap_spaces := by simp [Gap, asciiSpace]
  trailing_spaces := by simp [asciiSpace]
  ending_break := .inr (.inr rfl)

def sampleEntries : List Entry :=
  [⟨.autostart, [0x48, 0x50], [⟨0x0200, 0x8100abcd, 7⟩, ⟨0xa101, 0, 0xffffffff⟩]⟩,
    ⟨.manual, [], []⟩]

theorem sampleEntries_writable : ∀ e ∈ sampleEntries, e.Writable := by
  intro e he
  simp only [sampleEntries, List.mem_cons, List.not_mem_nil, or_false] at he
  rcases he with rfl | rfl
  · simp [Entry.Writable, Trimmed, Closed, isBreak, cr, lf, asciiSpace]
  · simp [Entry.Writable, Trimmed, Closed]

def exportedCall : Call UInt8 where
  source := ⟨0x1000, exportFile true (fun _ => sampleLayout) sampleEntries⟩
  lines := ⟨0x3000, 8, fun _ => 0xa5⟩
  cheats := ⟨0x4000, 2, fun _ => 0xa5⟩
  operations := ⟨0x5000, 2, fun _ => 0xa5⟩
  report := ⟨0x2000, .zero⟩

theorem import_export_sample :
    ∃ out, vcPsvParse ilp32 exportedCall = some (.ok, out) ∧
      out.entries exportedCall.source.value = sampleEntries ∧
      ∀ line ∈ out.lineRecords, line.kind.Accepted := by
  obtain ⟨status, out, hrun, -, hok⟩ :=
    import_export ilp32 exportedCall true (fun _ => sampleLayout) sampleEntries rfl
      sampleEntries_writable (by decide)
  have hstatus : (vcPsvParse ilp32 exportedCall).map Prod.fst = some .ok := by decide
  rw [hrun, Option.map_some] at hstatus
  obtain rfl : status = .ok := Option.some.inj hstatus
  obtain ⟨hentries, haccepted⟩ := hok rfl
  exact ⟨out, hrun, hentries, haccepted⟩

/-- The entries of an import without rejected lines, written out in any layout, are
imported with the same records and counters on every platform, up to places. -/
theorem import_reexport (p p' : Platform) (c : Call β) (c' : Call γ) (out : Outputs β)
    (mark : Bool) (layout : Nat → Layout) (hrun : vcPsvParse p c = some (.ok, out))
    (haccepted : ∀ line ∈ out.lineRecords, line.kind.Accepted)
    (hsource : c'.source.value = exportFile mark layout (out.entries c.source.value))
    (hcheck : checkArguments p' c' = none) :
    ∃ status out', vcPsvParse p' c' = some (status, out') ∧
      (out'.report.FitsIn c' → status = .ok) ∧
      (status = .ok →
        SameImport c.source.value c'.source.value out out' out.cheatRecords out'.cheatRecords
          out.operationRecords out'.operationRecords) := by
  obtain ⟨status, out', hrun'⟩ := parse_returns p' hcheck
  refine ⟨status, out', hrun', fits_ok hrun' hcheck, ?_⟩
  rintro rfl
  obtain ⟨hlines, -, -⟩ := ok_records hrun
  rw [hlines] at haccepted
  apply classes_import hrun hrun'
  rw [hsource, ok_entries hrun, ← sourceEntries_visible]
  exact (reexport_classes mark layout ((document_accepted p _).mp haccepted)).symm

/-- The sample written out again in another layout. -/
def reexportedCall : Call UInt8 where
  source := ⟨0x1000, exportFile false (fun _ => sampleLayout)
    [⟨.manual, [0x61], [⟨0x0000, 0x10, 1⟩]⟩]⟩
  lines := ⟨0x3000, 4, fun _ => 0xa5⟩
  cheats := ⟨0x4000, 1, fun _ => 0xa5⟩
  operations := ⟨0x5000, 1, fun _ => 0xa5⟩
  report := ⟨0x2000, .zero⟩

theorem import_reexport_sample :
    ∃ out out', vcPsvParse ilp32 sampleCall = some (.ok, out) ∧
      vcPsvParse lp64 reexportedCall = some (.ok, out') ∧
      SameImport sample reexportedCall.source.value out out' out.cheatRecords out'.cheatRecords
        out.operationRecords out'.operationRecords := by
  have hread : (vcPsvParse ilp32 sampleCall).map (fun r =>
      (r.1, r.2.entries sample, decide (∀ line ∈ r.2.lineRecords, line.kind.Accepted))) =
      some (.ok, [⟨.manual, [0x61], [⟨0x0000, 0x10, 1⟩]⟩], true) := by decide
  obtain ⟨⟨status, out⟩, hrun, hread⟩ := Option.map_eq_some_iff.mp hread
  simp only [Prod.mk.injEq, decide_eq_true_eq] at hread
  obtain ⟨rfl, hentries, haccepted⟩ := hread
  have hsource : reexportedCall.source.value =
      exportFile false (fun _ => sampleLayout) (out.entries sample) := by
    rw [hentries]
    rfl
  obtain ⟨status, out', hrun', -, hok⟩ :=
    import_reexport ilp32 lp64 sampleCall reexportedCall out false (fun _ => sampleLayout) hrun
      haccepted hsource (by decide)
  have hstatus : (vcPsvParse lp64 reexportedCall).map Prod.fst = some .ok := by decide
  rw [hrun', Option.map_some] at hstatus
  obtain rfl : status = .ok := Option.some.inj hstatus
  exact ⟨out, out', hrun, hrun', hok rfl⟩

end VitaCheat.Psv
