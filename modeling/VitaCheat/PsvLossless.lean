import VitaCheat.Lib.Tiling
import VitaCheat.PsvImport

/-!
# The import loses no byte

The raw spans of an import tile the source, and each of them is a byte order
mark, a content and a terminator in one way only.
-/
namespace VitaCheat.Psv

open TextLines (cr lf isBreak RawLine)

variable {β : Type}

def Span.range (s : Span) : Tiling.Range := ⟨s.offset.toNat, s.length.toNat⟩

def Span.bytes (source : List UInt8) (s : Span) : List UInt8 :=
  (source.drop s.offset.toNat).take s.length.toNat

/-- The records that an import has stored, as lists. -/
structure Imported (out : Outputs β) (lines : List Line) (cheats : List Cheat)
    (operations : List Operation) : Prop where
  total_lines : out.report.totalLines = lines.length
  line : ∀ i l, lines[i]? = some l → out.lines.slots i = .record l
  total_cheats : out.report.totalCheats = cheats.length
  cheat : ∀ i k, cheats[i]? = some k → out.cheats.slots i = .record k
  total_operations : out.report.totalOperations = operations.length
  operation : ∀ i o, operations[i]? = some o → out.operations.slots i = .record o

/-- A slot that an import has filled holds the record of the list. -/
theorem imported_get {α : Type} {slots : Nat → Slot β α} {xs : List α} {n i : Nat} {x : α}
    (htotal : n = xs.length) (hslots : ∀ i a, xs[i]? = some a → slots i = .record a) (hi : i < n)
    (hx : slots i = .record x) : xs[i]? = some x := by
  have hget := List.getElem?_eq_getElem (htotal ▸ hi)
  have hrecord := hslots i _ hget
  rw [hx] at hrecord
  rw [hget, Slot.record.inj hrecord]

/-- A call that returns OK has stored the document of its source. -/
theorem ok_imported {p : Platform} {c : Call β} {out : Outputs β}
    (h : vcPsvParse p c = some (.ok, out)) :
    c.source.value.length ≤ maxSourceBytes ∧
      out.report = (parseDocument p c.source.value).report c ∧
      Imported out (parseDocument p c.source.value).lines (parseDocument p c.source.value).cheats
        (parseDocument p c.source.value).operations := by
  obtain ⟨hcheck, hd, rfl⟩ := ok_published h
  obtain ⟨hlines, hcheats, hoperations⟩ := (fitsIn_iff c _).mp hd
  have hin : ∀ {α : Type} {xs : List α} {i : Nat} {x : α}, xs[i]? = some x → i < xs.length :=
    fun hx => (List.getElem?_eq_some_iff.mp hx).1
  refine ⟨checkArguments_size p c hcheck, rfl, ?_⟩
  exact
    { total_lines := rfl
      line := fun i l hl => Buffer.showing_slots_record (Nat.lt_of_lt_of_le (hin hl) hlines) hl
      total_cheats := rfl
      cheat := fun i k hk => Buffer.showing_slots_record (Nat.lt_of_lt_of_le (hin hk) hcheats) hk
      total_operations := rfl
      operation := fun i o ho =>
        Buffer.showing_slots_record (Nat.lt_of_lt_of_le (hin ho) hoperations) ho }

theorem lineRecord_spans (p : Platform) (d : Document) (t : LineText) :
    (d.lineRecord p t).raw = t.bounds.raw ∧ (d.lineRecord p t).content = t.bounds.content := by
  unfold Document.lineRecord
  split <;> exact ⟨rfl, rfl⟩

theorem foldl_lines_spans (p : Platform) (ts : List LineText) (d : Document) :
    (ts.foldl (Document.step p) d).lines.map (fun l => (l.raw, l.content)) =
      d.lines.map (fun l => (l.raw, l.content)) ++
        ts.map (fun t => (t.bounds.raw, t.bounds.content)) := by
  induction ts generalizing d with
  | nil => simp
  | cons t rest ih =>
    obtain ⟨hraw, hcontent⟩ := lineRecord_spans p d t
    rw [List.foldl_cons, ih, Document.step_lines]
    simp [hraw, hcontent]

theorem document_spans (p : Platform) (source : List UInt8) :
    (parseDocument p source).lines.map (fun l => (l.raw, l.content)) =
      (sourceLines source).map (fun t => (t.bounds.raw, t.bounds.content)) := by
  rw [parseDocument, Document.finalize_lines, foldl_lines_spans]
  rfl

theorem document_line (p : Platform) {source : List UInt8} {i : Nat} {l : Line}
    (h : (parseDocument p source).lines[i]? = some l) :
    ∃ t, (sourceLines source)[i]? = some t ∧ l.raw = t.bounds.raw ∧ l.content = t.bounds.content := by
  have hspans := congrArg (·[i]?) (document_spans p source)
  simp only [List.getElem?_map, h, Option.map_some] at hspans
  obtain ⟨t, ht, hpair⟩ := Option.map_eq_some_iff.mp hspans.symm
  obtain ⟨hraw, hcontent⟩ := Prod.mk.inj hpair
  exact ⟨t, ht, hraw.symm, hcontent.symm⟩

theorem toNat_ofNat_32 {n : Nat} (h : n < 2 ^ 32) : (BitVec.ofNat 32 n).toNat = n := by
  rw [BitVec.toNat_ofNat, Nat.mod_eq_of_lt h]

variable {source : List UInt8}

theorem lineText_range {q : Nat} (first : Bool) (hq : q < source.length)
    (hmax : source.length < 2 ^ 32) :
    (lineText q first (nextLine source q)).bounds.raw.range =
      ⟨q, (nextLine source q).bytes.length⟩ := by
  have hle := nextLine_length_le (Nat.le_of_lt hq)
  simp only [Span.range, Bounds.raw, lineText, Nat.add_sub_cancel_left]
  rw [toNat_ofNat_32 (by omega), toNat_ofNat_32 (by omega)]

theorem split_nil {q : Nat} (h : TextLines.split (source.drop q) = []) : source.length ≤ q := by
  by_contra hlt
  rw [split_nextLine (by omega)] at h
  cases h

theorem split_cons {q : Nat} {l : RawLine} {rest : List RawLine}
    (h : TextLines.split (source.drop q) = l :: rest) :
    q < source.length ∧ l = nextLine source q ∧
      TextLines.split (source.drop (q + (nextLine source q).bytes.length)) = rest := by
  have hq : q < source.length := by
    by_contra hge
    rw [List.drop_of_length_le (by omega)] at h
    cases h
  rw [split_nextLine hq] at h
  obtain ⟨hl, hrest⟩ := List.cons.inj h
  exact ⟨hq, hl.symm, hrest⟩

/-- From a line start the raw spans tile the rest of the source. -/
theorem lineTexts_tiles {ls : List RawLine} {q : Nat} (first : Bool)
    (h : TextLines.split (source.drop q) = ls) (hq : q ≤ source.length)
    (hmax : source.length < 2 ^ 32) :
    Tiling.Tiles q ((lineTexts q first ls).map (·.bounds.raw.range)) source.length := by
  induction ls generalizing q first with
  | nil => exact Nat.le_antisymm hq (split_nil h)
  | cons l rest ih =>
    obtain ⟨hlt, rfl, hrest⟩ := split_cons h
    rw [lineTexts, List.map_cons, lineText_range first hlt hmax]
    exact ⟨rfl, ih false hrest (nextLine_length_le hq)⟩

theorem lineTexts_get {ls : List RawLine} {q i : Nat} {first : Bool} {t : LineText}
    (h : TextLines.split (source.drop q) = ls) (ht : (lineTexts q first ls)[i]? = some t) :
    ∃ k, k < source.length ∧ t = lineText k (decide (i = 0) && first) (nextLine source k) := by
  induction ls generalizing q i first with
  | nil => cases ht
  | cons l rest ih =>
    obtain ⟨hlt, rfl, hrest⟩ := split_cons h
    cases i with
    | zero =>
      obtain rfl := Option.some.inj ht
      exact ⟨q, hlt, rfl⟩
    | succ i =>
      obtain ⟨k, hk, rfl⟩ := ih hrest ht
      exact ⟨k, hk, by simp⟩

theorem sourceLines_tiles (hmax : source.length < 2 ^ 32) :
    Tiling.Tiles 0 ((sourceLines source).map (·.bounds.raw.range)) source.length :=
  lineTexts_tiles true rfl (Nat.zero_le _) hmax

theorem sourceLines_get {i : Nat} {t : LineText} (h : (sourceLines source)[i]? = some t) :
    ∃ k, k < source.length ∧ t = lineText k (decide (i = 0)) (nextLine source k) := by
  obtain ⟨k, hk, ht⟩ := lineTexts_get (q := 0) rfl h
  exact ⟨k, hk, by rw [ht, Bool.and_true]⟩

/-- A byte order mark, a content and a terminator. -/
structure Parts where
  mark : List UInt8
  content : List UInt8
  terminator : List UInt8
  deriving DecidableEq, Repr

/-- How the raw line `i` of `count` lines comes apart. -/
structure Parts.Split (source : List UInt8) (count i : Nat) (raw : Span) (parts : Parts) :
    Prop where
  concat : parts.mark ++ parts.content ++ parts.terminator = raw.bytes source
  content : ∀ b ∈ parts.content, b ≠ cr ∧ b ≠ lf
  mark : parts.mark =
    if i = 0 ∧ (parts.mark ++ parts.content).take 3 = byteOrderMark then byteOrderMark else []
  terminator : parts.terminator = [cr, lf] ∨
    (parts.terminator = [cr] ∧ source[raw.offset.toNat + raw.length.toNat]? ≠ some lf) ∨
    parts.terminator = [lf] ∨ (parts.terminator = [] ∧ i + 1 = count)

theorem isBreak_eq_false {b : UInt8} : isBreak b = false ↔ b ≠ cr ∧ b ≠ lf := by
  simp [isBreak]

theorem byteOrderMark_no_break : ∀ b ∈ byteOrderMark, isBreak b = false := by
  simp [byteOrderMark, isBreak, cr, lf]

variable {count i : Nat} {raw : Span} {parts other : Parts}

/-- The bytes before the terminator are those before the first line break. -/
theorem split_head (h : Parts.Split source count i raw parts) :
    parts.mark ++ parts.content = (raw.bytes source).takeWhile (!isBreak ·) := by
  have hmark : ∀ b ∈ parts.mark, isBreak b = false := by
    rw [h.mark]
    split
    · exact byteOrderMark_no_break
    · exact fun _ hb => nomatch hb
  have hhead : ∀ b ∈ parts.mark ++ parts.content, isBreak b = false := by
    intro b hb
    rcases List.mem_append.mp hb with hb | hb
    · exact hmark b hb
    · exact isBreak_eq_false.mpr (h.content b hb)
  have hending : ∀ b ∈ parts.terminator.head?, isBreak b = true := by
    rcases h.terminator with ht | ⟨ht, -⟩ | ht | ⟨ht, -⟩ <;> rw [ht] <;> simp [isBreak]
  rw [← h.concat, TextLines.takeWhile_line hhead hending]

theorem split_unique (h : Parts.Split source count i raw parts)
    (h' : Parts.Split source count i raw other) : other = parts := by
  have hhead : other.mark ++ other.content = parts.mark ++ parts.content :=
    (split_head h').trans (split_head h).symm
  have hmark : other.mark = parts.mark := by rw [h'.mark, h.mark, hhead]
  have hcontent : other.content = parts.content := by
    rw [hmark] at hhead
    exact List.append_cancel_left hhead
  have hterminator : other.terminator = parts.terminator := by
    have hconcat := h'.concat.trans h.concat.symm
    rw [hhead] at hconcat
    exact List.append_cancel_left hconcat
  cases other
  cases parts
  simp_all

theorem take_markLength (first : Bool) (content : List UInt8) :
    content.take (markLength first content) =
      if first = true ∧ content.take 3 = byteOrderMark then byteOrderMark else [] := by
  rw [markLength]
  split
  · next h => exact h.2
  · rfl

/-- The parts of the line at `k`. -/
def lineParts (first : Bool) (l : RawLine) : Parts where
  mark := l.content.take (markLength first l.content)
  content := l.content.drop (markLength first l.content)
  terminator := l.terminator

theorem nextLine_bytes (source : List UInt8) (k : Nat) :
    (source.drop k).take (nextLine source k).bytes.length = (nextLine source k).bytes :=
  (List.prefix_iff_eq_take.mp (nextLine_isPrefix source k)).symm

theorem nextLine_terminator (source : List UInt8) (k : Nat) :
    (nextLine source k).terminator = [cr, lf] ∨
      ((nextLine source k).terminator = [cr] ∧
        source[k + (nextLine source k).bytes.length]? ≠ some lf) ∨
      (nextLine source k).terminator = [lf] ∨
      ((nextLine source k).terminator = [] ∧
        source.length ≤ k + (nextLine source k).bytes.length) := by
  have hdrop : source.drop (k + (nextLine source k).content.length) =
      (source.drop k).dropWhile (!isBreak ·) := by
    rw [← List.drop_drop]
    exact Cursor.drop_takeWhile _ _
  have hbreak : ∀ b ∈ ((source.drop k).dropWhile (!isBreak ·)).head?, isBreak b = true := by
    intro b hb
    have := List.head?_dropWhile_not (!isBreak ·) (source.drop k)
    rw [hb] at this
    simpa using this
  have hcases := TextLines.terminator_cases hbreak
  have hlength : (nextLine source k).bytes.length =
      (nextLine source k).content.length + (nextLine source k).terminator.length :=
    List.length_append
  rw [← hdrop] at hcases
  rw [hlength]
  rcases hcases with ht | ⟨ht, hnext⟩ | ht | ⟨ht, hend⟩
  all_goals
    rw [hdrop] at ht
  · exact Or.inl ht
  · refine Or.inr (Or.inl ⟨ht, ?_⟩)
    rw [List.getElem?_drop] at hnext
    rwa [show (nextLine source k).terminator = [cr] from ht]
  · exact Or.inr (Or.inr (Or.inl ht))
  · refine Or.inr (Or.inr (Or.inr ⟨ht, ?_⟩))
    have := List.drop_eq_nil_iff.mp hend
    omega

/-- The line records hold all of the source. -/
structure Lossless (source : List UInt8) (lines : List Line) : Prop where
  tiles : Tiling.Tiles 0 (lines.map (·.raw.range)) source.length
  nonempty : ∀ l ∈ lines, l.raw.length.toNat ≠ 0
  concat : lines.flatMap (·.raw.bytes source) = source
  split : ∀ i l, lines[i]? = some l → ∃ parts, Parts.Split source lines.length i l.raw parts ∧
    l.content.offset.toNat = l.raw.offset.toNat + parts.mark.length ∧
    l.content.length.toNat = parts.content.length ∧
    ∀ other, Parts.Split source lines.length i l.raw other → other = parts

/-- Only the last line reaches the end of the source. -/
theorem last_of_end {rs : List Tiling.Range} {hi : Nat} {r : Tiling.Range}
    (h : Tiling.Tiles 0 rs hi) (hpos : ∀ r ∈ rs, r.count ≠ 0) (hr : rs[i]? = some r)
    (hend : hi ≤ r.first + r.count) : i + 1 = rs.length := by
  have hi := (List.getElem?_eq_some_iff.mp hr).1
  by_contra hmore
  have hs : i + 1 < rs.length := by omega
  have hnext := Tiling.tiles_next h hr (List.getElem?_eq_getElem hs)
  have hwithin := Tiling.tiles_within h (List.getElem?_eq_getElem hs)
  have hcount := hpos _ (List.getElem_mem hs)
  omega

theorem lineParts_split {k : Nat} (hk : k < source.length) (hmax : source.length < 2 ^ 32)
    (hlast : source.length ≤ k + (nextLine source k).bytes.length → i + 1 = count) :
    Parts.Split source count i
      (lineText k (decide (i = 0)) (nextLine source k)).bounds.raw
      (lineParts (decide (i = 0)) (nextLine source k)) := by
  have hrange := lineText_range (decide (i = 0)) hk hmax
  have hfirst := congrArg Tiling.Range.first hrange
  have hcount := congrArg Tiling.Range.count hrange
  simp only [Span.range] at hfirst hcount
  constructor
  · rw [Span.bytes, hfirst, hcount, nextLine_bytes, lineParts, List.take_append_drop]
    rfl
  · intro b hb
    have hmem := List.mem_takeWhile_imp (List.mem_of_mem_drop hb)
    exact isBreak_eq_false.mp (by simpa using hmem)
  · rw [lineParts, List.take_append_drop, take_markLength]
    simp only [decide_eq_true_iff]
  · rw [hfirst, hcount]
    rcases nextLine_terminator source k with ht | ht | ht | ⟨ht, hend⟩
    · exact Or.inl ht
    · exact Or.inr (Or.inl ht)
    · exact Or.inr (Or.inr (Or.inl ht))
    · exact Or.inr (Or.inr (Or.inr ⟨ht, hlast hend⟩))

theorem document_lossless (p : Platform) (hmax : source.length < 2 ^ 32) :
    Lossless source (parseDocument p source).lines := by
  have hranges : (parseDocument p source).lines.map (·.raw.range) =
      (sourceLines source).map (·.bounds.raw.range) := by
    have := congrArg (List.map fun s => s.1.range) (document_spans p source)
    simpa [Function.comp_def] using this
  have htiles : Tiling.Tiles 0 ((parseDocument p source).lines.map (·.raw.range)) source.length := by
    rw [hranges]
    exact sourceLines_tiles hmax
  have hpos : ∀ l ∈ (parseDocument p source).lines, l.raw.range.count ≠ 0 := by
    intro l hl
    obtain ⟨i, hi⟩ := List.mem_iff_getElem?.mp hl
    obtain ⟨t, ht, hraw, -⟩ := document_line p hi
    obtain ⟨k, hk, rfl⟩ := sourceLines_get ht
    have := nextLine_length_pos hk
    rw [hraw, lineText_range _ hk hmax]
    dsimp only
    omega
  refine ⟨htiles, hpos, ?_, ?_⟩
  · have hcut := Tiling.flatMap_cut source htiles rfl
    rw [List.flatMap_map] at hcut
    exact hcut
  · intro i l hl
    obtain ⟨t, ht, hraw, hcontent⟩ := document_line p hl
    obtain ⟨k, hk, rfl⟩ := sourceLines_get ht
    have hrange := lineText_range (decide (i = 0)) hk hmax
    have hlast : source.length ≤ k + (nextLine source k).bytes.length →
        i + 1 = (parseDocument p source).lines.length := by
      intro hend
      have hget : ((parseDocument p source).lines.map (·.raw.range))[i]? =
          some ⟨k, (nextLine source k).bytes.length⟩ := by
        rw [List.getElem?_map, hl, Option.map_some, hraw, hrange]
      have := last_of_end htiles (by simpa using hpos) hget hend
      rwa [List.length_map] at this
    have hsplit := lineParts_split hk hmax hlast
    have hmark := markLength_le (decide (i = 0)) (nextLine source k).content
    have hle := nextLine_length_le (Nat.le_of_lt hk)
    have hbytes : (nextLine source k).bytes.length =
        (nextLine source k).content.length + (nextLine source k).terminator.length :=
      List.length_append
    rw [hraw, hcontent]
    refine ⟨_, hsplit, ?_, ?_, fun other h => split_unique hsplit h⟩
    · rw [show (lineText k (decide (i = 0)) (nextLine source k)).bounds.raw.offset.toNat = k from
        congrArg Tiling.Range.first hrange, lineParts, List.length_take]
      simp only [Bounds.content, lineText]
      rw [toNat_ofNat_32 (by omega)]
      omega
    · simp only [Bounds.content, lineText, lineParts, List.length_drop]
      rw [toNat_ofNat_32 (by omega)]
      omega

/-- An import that returns OK has lost no byte. -/
theorem import_lossless (p : Platform) (c : Call β) (out : Outputs β)
    (h : vcPsvParse p c = some (.ok, out)) :
    ∃ lines cheats operations, Imported out lines cheats operations ∧
      Lossless c.source.value lines := by
  obtain ⟨hsize, -, himported⟩ := ok_imported h
  rw [maxSourceBytes] at hsize
  exact ⟨_, _, _, himported, document_lossless p (by omega)⟩

/-- A mark before CR LF, a lone CR before CR LF, and an unterminated line. -/
def mixedCall : Call UInt8 where
  source := ⟨0x1000, [0xef, 0xbb, 0xbf, 0x0d, 0x0a, 0x61, 0x0d, 0x0a, 0x62, 0x0d, 0x0d, 0x0a, 0x63]⟩
  lines := ⟨0x3000, 8, fun _ => 0xa5⟩
  cheats := ⟨0x4000, 1, fun _ => 0xa5⟩
  operations := ⟨0x5000, 1, fun _ => 0xa5⟩
  report := ⟨0x2000, .zero⟩

theorem import_lossless_mixed :
    ∃ out, vcPsvParse ilp32 mixedCall = some (.ok, out) ∧ out.report.totalLines = 5 ∧
      ∃ lines cheats operations, Imported out lines cheats operations ∧
        Lossless mixedCall.source.value lines := by
  obtain ⟨⟨status, out⟩, hrun, hshape⟩ := Option.map_eq_some_iff.mp
    (show (vcPsvParse ilp32 mixedCall).map (fun r => (r.1, r.2.report.totalLines)) =
      some (.ok, 5) by decide)
  obtain ⟨rfl, htotal⟩ := Prod.mk.inj hshape
  exact ⟨out, hrun, htotal, import_lossless ilp32 mixedCall out hrun⟩

end VitaCheat.Psv
