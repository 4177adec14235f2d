import VitaCheat.Psv

/-!
# The text of a line

What the index arithmetic of the importer reads, stated on byte lists: the
bounds and the trimmed text of each line of a source, the class of a text and
the code grammar. Every reader of `Psv` answers what the list function says and
never faults on a span of the source.
-/
namespace VitaCheat.Psv

open TextLines (cr lf isBreak RawLine)

def byteOrderMark : List UInt8 := [0xef, 0xbb, 0xbf]

/-- The bytes of a byte order mark at the start of the first line. -/
def markLength (first : Bool) (content : List UInt8) : Nat :=
  if first = true ∧ content.take 3 = byteOrderMark then 3 else 0

def trim (text : List UInt8) : List UInt8 := (text.dropWhile asciiSpace).rdropWhile asciiSpace

def hexText : U32 → List UInt8 → Option U32
  | parsed, [] => some parsed
  | parsed, b :: rest =>
    if hexValue b < 0 then none
    else hexText (parsed <<< 4 ||| BitVec.ofInt 32 (hexValue b)) rest

/-- A field of hex digits and the text after it. -/
def hexPart (digits : Nat) (text : List UInt8) : Option (U32 × List UInt8) :=
  if text.length < digits then none
  else (hexText 0 (text.take digits)).map fun value => (value, text.drop digits)

/-- The text after one or more spaces. -/
def gapPart : List UInt8 → Option (List UInt8)
  | [] => none
  | b :: rest => if asciiSpace b then some (rest.dropWhile asciiSpace) else none

/-- The code grammar. -/
def codeText : List UInt8 → Option Code
  | [] => none
  | b :: rest =>
    if b ≠ 0x24 then none
    else do
      let (code, rest) ← hexPart 4 rest
      let rest ← gapPart rest
      let (address, rest) ← hexPart 8 rest
      let rest ← gapPart rest
      let (value, rest) ← hexPart 8 rest
      if rest.dropWhile asciiSpace ≠ [] then none
      else some ⟨code.setWidth 16, address, value⟩

/-- What a trimmed text is, by itself. -/
inductive LineClass where
  | blank
  | comment
  | header (activation : Activation) (description : List UInt8)
  | badHeader
  | code (c : Code)
  | badCode
  | opaqueLine
  deriving DecidableEq, Repr

/-- `_V` followed by at least one byte. -/
def headerAttempt : List UInt8 → Bool
  | b0 :: b1 :: _ :: _ => b0 == 0x5f && b1 == 0x56
  | _ => false

/-- An activation digit that a space or the end of the text follows. -/
def goodHeader (activation : UInt8) (rest : List UInt8) : Bool :=
  (activation == 0x30 || activation == 0x31) && rest.head?.all asciiSpace

/-- The part of a header line after `_V`. -/
def headerClass : List UInt8 → LineClass
  | [] => .badHeader
  | activation :: rest =>
    if goodHeader activation rest then
      .header (if activation = 0x31 then .autostart else .manual) (rest.dropWhile asciiSpace)
    else .badHeader

theorem headerClass_cases (text : List UInt8) :
    headerClass text = .badHeader ∨
      ∃ activation description, headerClass text = .header activation description := by
  unfold headerClass
  split
  · exact Or.inl rfl
  · split
    · exact Or.inr ⟨_, _, rfl⟩
    · exact Or.inl rfl

def classify : List UInt8 → LineClass
  | [] => .blank
  | first :: rest =>
    if first = 0x23 then .comment
    else if headerAttempt (first :: rest) then headerClass ((first :: rest).drop 2)
    else if first = 0x24 then
      match codeText (first :: rest) with
      | some c => .code c
      | none => .badCode
    else .opaqueLine

/-- The bounds of a line in the source, and its trimmed text. -/
structure LineText where
  bounds : Bounds
  trimmedBegin : Nat
  text : List UInt8
  deriving DecidableEq, Repr

def lineText (offset : Nat) (first : Bool) (l : RawLine) : LineText where
  bounds :=
    { rawBegin := offset
      rawEnd := offset + l.bytes.length
      contentBegin := offset + markLength first l.content
      contentEnd := offset + l.content.length }
  trimmedBegin := offset + markLength first l.content +
    ((l.content.drop (markLength first l.content)).takeWhile asciiSpace).length
  text := trim (l.content.drop (markLength first l.content))

def lineTexts : Nat → Bool → List RawLine → List LineText
  | _, _, [] => []
  | offset, first, l :: rest =>
    lineText offset first l :: lineTexts (offset + l.bytes.length) false rest

def sourceLines (source : List UInt8) : List LineText :=
  lineTexts 0 true (TextLines.split source)

theorem lineTexts_length (offset : Nat) (first : Bool) (ls : List RawLine) :
    (lineTexts offset first ls).length = ls.length := by
  induction ls generalizing offset first with
  | nil => rfl
  | cons l rest ih => exact congrArg (· + 1) (ih _ _)

theorem sourceLines_length_le (source : List UInt8) :
    (sourceLines source).length ≤ source.length := by
  rw [sourceLines, lineTexts_length]
  exact TextLines.length_split_le source

variable {source : List UInt8}

theorem checkedSub_eq {a b : Nat} (h : b ≤ a) : checkedSub a b = some (a - b) := if_pos h

theorem checkedSpan_eq {first last : Nat} (h : first ≤ last) (hmax : last < 2 ^ 32) :
    checkedSpan first last =
      some ⟨BitVec.ofNat 32 first, BitVec.ofNat 32 (last - first)⟩ := by
  have hfirst : checkedU32 first = some (BitVec.ofNat 32 first) := if_pos (by omega)
  have hsize : checkedU32 (last - first) = some (BitVec.ofNat 32 (last - first)) :=
    if_pos (by omega)
  simp [checkedSpan, hfirst, checkedSub_eq h, hsize]

theorem hexLoop_eq (n i : Nat) (parsed : U32) (h : i + n ≤ source.length) :
    hexLoop source n i parsed = some (hexText parsed (Cursor.slice source i (i + n))) := by
  induction n generalizing i parsed with
  | zero => simp [hexLoop, Cursor.slice_empty, hexText]
  | succ n ih =>
    have hi : i < source.length := by omega
    rw [hexLoop, List.getElem?_eq_getElem hi, Cursor.slice_cons (by omega) hi, hexText]
    dsimp only
    split
    · rfl
    · rw [ih (i + 1) _ (by omega), show i + 1 + n = i + (n + 1) by omega]

/-- A hex field either fails or moves the cursor over its digits. -/
theorem hexField_cases {i j : Nat} (n : Nat) (hij : i ≤ j) (hj : j ≤ source.length) :
    (hexPart n (Cursor.slice source i j) = none ∧ hexField source i j n = some none) ∨
      ∃ value, i + n ≤ j ∧ hexField source i j n = some (some (value, i + n)) ∧
        hexPart n (Cursor.slice source i j) =
          some (value, Cursor.slice source (i + n) j) := by
  rw [hexPart, Cursor.slice_length hj, hexField, checkedSub_eq hij]
  simp only [Option.bind_eq_bind, Option.bind_some]
  by_cases hn : j - i < n
  · exact Or.inl (by simp [hn])
  · have hle : i + n ≤ j := by omega
    simp only [if_neg hn]
    rw [parseHexExact, hexLoop_eq n i 0 (by omega), Cursor.slice_take source hle, Cursor.slice_drop]
    cases hexText 0 (Cursor.slice source i (i + n)) with
    | none => exact Or.inl ⟨rfl, rfl⟩
    | some value => exact Or.inr ⟨value, hle, rfl, rfl⟩

/-- A gap either fails or moves the cursor over its spaces. -/
theorem gap_cases {i j : Nat} (hij : i ≤ j) (hj : j ≤ source.length) :
    (gapPart (Cursor.slice source i j) = none ∧ gap source i j = some none) ∨
      ∃ k, k ≤ j ∧ gap source i j = some (some k) ∧
        gapPart (Cursor.slice source i j) = some (Cursor.slice source k j) := by
  by_cases he : i = j
  · exact Or.inl (by simp [gap, he, Cursor.slice_empty, gapPart])
  · have hi : i < source.length := by omega
    have hskip := Cursor.skipWhile_eq asciiSpace hij hj
    have hslice := Cursor.slice_cons (show i < j by omega) hi
    rw [gap, if_neg he, List.getElem?_eq_getElem hi, hslice]
    simp only [Option.bind_eq_bind, Option.bind_some, gapPart]
    cases hb : asciiSpace source[i] with
    | false => exact Or.inl (by simp)
    | true =>
      have hle := Cursor.length_takeWhile_le asciiSpace (Cursor.slice source i j)
      rw [Cursor.slice_length hj] at hle
      refine Or.inr ⟨i + ((Cursor.slice source i j).takeWhile asciiSpace).length, by omega,
        by simp [hskip], ?_⟩
      rw [Cursor.slice_skipped, hslice]
      simp [hb]

theorem hexPart_length {n : Nat} {text rest : List UInt8} {value : U32}
    (h : hexPart n text = some (value, rest)) : text.length = n + rest.length := by
  rw [hexPart] at h
  split at h
  · cases h
  · obtain ⟨v, -, hv⟩ := Option.map_eq_some_iff.mp h
    rw [← (Prod.mk.inj hv).2, List.length_drop]
    omega

theorem gapPart_length {text rest : List UInt8} (h : gapPart text = some rest) :
    rest.length + 1 ≤ text.length := by
  unfold gapPart at h
  split at h
  · cases h
  · next b tail =>
    split at h
    · have hle := (List.dropWhile_suffix (l := tail) asciiSpace).length_le
      rw [Option.some.inj h] at hle
      rw [List.length_cons]
      omega
    · cases h

/-- A code line has at least the 23 bytes that the importer checks for first. -/
theorem codeText_length {text : List UInt8} {c : Code} (h : codeText text = some c) :
    23 ≤ text.length := by
  unfold codeText at h
  split at h
  · cases h
  · next b rest =>
    split at h
    · cases h
    · simp only [Option.bind_eq_bind, Option.bind_eq_some_iff, Prod.exists] at h
      obtain ⟨code, r1, h1, r2, h2, address, r3, h3, r4, h4, value, r5, h5, -⟩ := h
      have := hexPart_length h1
      have := gapPart_length h2
      have := hexPart_length h3
      have := gapPart_length h4
      have := hexPart_length h5
      rw [List.length_cons]
      omega

/-- The cursor parser computes the code grammar. -/
theorem parseCode_eq {i j : Nat} (hij : i ≤ j) (hj : j ≤ source.length) :
    parseCode source i j = some (codeText (Cursor.slice source i j)) := by
  rw [parseCode, checkedSub_eq hij]
  simp only [Option.bind_eq_bind, Option.bind_some]
  by_cases hsmall : j - i < 1 + 4 + 1 + 8 + 1 + 8
  · rw [if_pos hsmall]
    cases htext : codeText (Cursor.slice source i j) with
    | none => rfl
    | some c =>
      have := codeText_length htext
      rw [Cursor.slice_length hj] at this
      omega
  · have hi : i < source.length := by omega
    rw [if_neg hsmall, List.getElem?_eq_getElem hi, Cursor.slice_cons (by omega) hi]
    simp only [Option.bind_some, codeText, Option.bind_eq_bind]
    by_cases hdollar : source[i] = 0x24
    · simp only [hdollar, ne_eq, not_true, if_false]
      rcases hexField_cases 4 (show i + 1 ≤ j by omega) hj with ⟨ht, hr⟩ | ⟨code, hle, hr, ht⟩
      · simp [accept, ht, hr]
      rcases gap_cases hle hj with ⟨ht', hr'⟩ | ⟨k, hk, hr', ht'⟩
      · simp [accept, ht, hr, ht', hr']
      simp only [accept, ht, hr, ht', hr', Option.bind_some]
      rcases hexField_cases 8 hk hj with ⟨ht, hr⟩ | ⟨address, hle, hr, ht⟩
      · simp [ht, hr]
      rcases gap_cases hle hj with ⟨ht', hr'⟩ | ⟨k', hk', hr', ht'⟩
      · simp [ht, hr, ht', hr']
      simp only [ht, hr, ht', hr', Option.bind_some]
      rcases hexField_cases 8 hk' hj with ⟨ht, hr⟩ | ⟨value, hle, hr, ht⟩
      · simp [ht, hr]
      simp only [ht, hr, Option.bind_some, Cursor.skipWhile_eq asciiSpace hle hj]
      have hlen := Cursor.slice_skipped asciiSpace source (k' + 8) j
      have hnil : (Cursor.slice source (k' + 8) j).dropWhile asciiSpace = [] ↔
          k' + 8 + ((Cursor.slice source (k' + 8) j).takeWhile asciiSpace).length = j := by
        rw [← hlen, ← List.length_eq_zero_iff, Cursor.slice_length hj]
        have := Cursor.length_takeWhile_le asciiSpace (Cursor.slice source (k' + 8) j)
        rw [Cursor.slice_length hj] at this
        omega
      simp only [hnil]
      split <;> rfl
    · simp [hdollar]

end VitaCheat.Psv
