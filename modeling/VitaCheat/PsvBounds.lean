import VitaCheat.PsvHistory

/-!
# The importer stays in bounds

No call faults, whatever the bytes of its source and the sizes of its arrays: the
main loop ends after at most one round for each byte, and the spans of a complete import
lie inside each other.
-/
namespace VitaCheat.Psv

variable {β : Type}

/-- The bytes of a span lie within those of another one. -/
def Span.Within (inner outer : Span) : Prop :=
  outer.offset.toNat ≤ inner.offset.toNat ∧
    inner.offset.toNat + inner.length.toNat ≤ outer.offset.toNat + outer.length.toNat

/-- The spans of a complete import. -/
structure Nested (source : List UInt8) (lines : List Line) (cheats : List Cheat) : Prop where
  raw : ∀ l ∈ lines, l.raw.offset.toNat + l.raw.length.toNat ≤ source.length
  content : ∀ l ∈ lines, l.content.Within l.raw
  description : ∀ c ∈ cheats, ∃ l : Line, lines[c.headerLineIndex]? = some l ∧
    c.description.Within l.content

/-- The spaces before a trimmed text and the text fit into the whole. -/
theorem trim_length_le (text : List UInt8) :
    (text.takeWhile asciiSpace).length + (trim text).length ≤ text.length := by
  have hsplit := congrArg List.length
    (List.takeWhile_append_dropWhile (p := asciiSpace) (l := text))
  have hle := (List.rdropWhile_prefix asciiSpace (text.dropWhile asciiSpace)).length_le
  rw [List.length_append] at hsplit
  rw [trim]
  omega

theorem bytes_length_le (source : List UInt8) (s : Span) :
    (s.bytes source).length ≤ s.length.toNat := by
  rw [Span.bytes, List.length_take]
  exact Nat.min_le_left _ _

variable {source : List UInt8}

/-- The spans of a line of the source, as they are stored. -/
theorem lineText_spans (hmax : source.length < 2 ^ 32) {i : Nat} {t : LineText}
    (ht : (sourceLines source)[i]? = some t) :
    t.bounds.raw.offset.toNat + t.bounds.raw.length.toNat ≤ source.length ∧
      t.bounds.content.Within t.bounds.raw := by
  obtain ⟨k, hk, rfl⟩ := sourceLines_get ht
  have hmark := markLength_le (decide (i = 0)) (nextLine source k).content
  have hle := nextLine_length_le (Nat.le_of_lt hk)
  have hbytes : (nextLine source k).bytes.length =
      (nextLine source k).content.length + (nextLine source k).terminator.length :=
    List.length_append
  simp only [Span.Within, Bounds.raw, Bounds.content, lineText]
  rw [toNat_ofNat_32 (by omega), toNat_ofNat_32 (by omega), toNat_ofNat_32 (by omega),
    toNat_ofNat_32 (by omega)]
  omega

theorem document_nested (p : Platform) (hmax : source.length < 2 ^ 32) :
    Nested source (parseDocument p source).lines (parseDocument p source).cheats := by
  have hline : ∀ l ∈ (parseDocument p source).lines,
      l.raw.offset.toNat + l.raw.length.toNat ≤ source.length ∧ l.content.Within l.raw := by
    intro l hl
    obtain ⟨i, hi⟩ := List.mem_iff_getElem?.mp hl
    obtain ⟨t, ht, hraw, hcontent⟩ := document_line p hi
    rw [hraw, hcontent]
    exact lineText_spans hmax ht
  refine ⟨fun l hl => (hline l hl).1, fun l hl => (hline l hl).2, ?_⟩
  intro c hc
  obtain ⟨k, hk⟩ := List.mem_iff_getElem?.mp hc
  obtain ⟨l, s, hl, -, -, hs, -, -, hoffset, hlength⟩ := (document_grammar p hmax).headers k c hk
  refine ⟨l, hl, ?_⟩
  have hspell := s.description_length
  have htrim := trim_length_le (l.content.bytes source)
  have hbytes := bytes_length_le source l.content
  rw [hs, Line.text] at hspell
  rw [Line.textBegin] at hoffset
  constructor
  · omega
  · omega

/-- No call faults. The main loop reaches the end of the source, with no more lines
than bytes, however many rounds it is given beyond that. The spans of an import that
returns OK are nested. -/
theorem parser_bounds (p : Platform) (c : Call β) :
    (∃ status out, vcPsvParse p c = some (status, out)) ∧
      (c.source.value.length ≤ maxSourceBytes →
        ∃ s, s.position = c.source.value.length ∧
          s.result.totalLines ≤ c.source.value.length ∧
          ∀ fuel, c.source.value.length < fuel →
            parseLoop p c.source.value fuel (Parse.start p c) = some s) ∧
      ∀ out, vcPsvParse p c = some (.ok, out) →
        ∃ lines cheats operations, Imported out lines cheats operations ∧
          Nested c.source.value lines cheats := by
  refine ⟨?_, ?_, ?_⟩
  · cases hcheck : checkArguments p c with
    | some s => exact ⟨s, _, by rw [vcPsvParse, hcheck]⟩
    | none => exact ⟨_, _, vcPsvParse_document p c hcheck⟩
  · intro hsize
    have hlines := sourceLines_length_le c.source.value
    refine ⟨((sourceLines c.source.value).foldl (Document.step p) .empty).parse p c
      c.source.value.length, rfl, ?_, ?_⟩
    · exact (Document.foldl_step_lines_length p _ _).trans_le
        ((Nat.zero_add _).trans_le hlines)
    · intro fuel hfuel
      rw [start_parse, parseLoop_parse p c hsize Document.current_empty (Nat.le_refl 0)
        (Nat.zero_le _) (by omega), List.drop_zero]
      rfl
  · intro out hout
    obtain ⟨hsize, -, himported⟩ := ok_imported hout
    rw [maxSourceBytes] at hsize
    exact ⟨_, _, _, himported, document_nested p (by omega)⟩

end VitaCheat.Psv
