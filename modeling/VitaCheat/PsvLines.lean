import VitaCheat.PsvText

/-!
# Reading the lines of a source

The line scanner, the trimmer and the header tests answer what `sourceLines`
and `classify` say, at every line start of the source.
-/
namespace VitaCheat.Psv

open TextLines (cr lf isBreak RawLine)

variable {source : List UInt8}

theorem slice_to_end (source : List UInt8) (i : Nat) :
    Cursor.slice source i source.length = source.drop i := by
  rw [Cursor.slice, List.take_of_length_le (by simp)]

/-- At a line break the terminator of the rest of the source is skipped. -/
theorem skipTerminator_eq (source : List UInt8) {k : Nat}
    (h : ∀ b ∈ (source.drop k).head?, isBreak b = true) :
    skipTerminator source k = some (k + (TextLines.terminator (source.drop k)).length) := by
  have hget : ∀ n, source[k + n]? = (source.drop k)[n]? := fun n => by rw [List.getElem?_drop]
  have hlen : (source.drop k).length = source.length - k := List.length_drop
  have h0 := hget 0
  have h1 := hget 1
  rw [skipTerminator]
  generalize source.drop k = rest at *
  match rest with
  | [] =>
    rw [if_neg (by simp at hlen; omega)]
    rfl
  | [b] =>
    simp only [List.length_singleton] at hlen
    simp only [List.head?_cons, Option.mem_some_iff, forall_eq', isBreak, Bool.or_eq_true,
      beq_iff_eq] at h
    rw [Nat.add_zero] at h0
    rw [if_pos (by omega), h0]
    simp only [List.getElem?_cons_zero, Option.bind_eq_bind, Option.bind_some]
    by_cases hb : b = cr
    · rw [if_pos hb, if_neg (by omega)]
      rfl
    · rw [if_neg hb, if_pos (by rcases h with h | h; exact absurd h hb; exact h)]
      rfl
  | b :: c :: tail =>
    simp only [List.length_cons] at hlen
    simp only [List.head?_cons, Option.mem_some_iff, forall_eq', isBreak, Bool.or_eq_true,
      beq_iff_eq] at h
    rw [Nat.add_zero] at h0
    rw [if_pos (by omega), h0]
    simp only [List.getElem?_cons_zero, Option.bind_eq_bind, Option.bind_some]
    by_cases hb : b = cr
    · rw [if_pos hb, if_pos (by omega), h1]
      simp only [List.getElem?_cons_succ, List.getElem?_cons_zero, Option.bind_some,
        TextLines.terminator, hb, true_and]
      split <;> rfl
    · rw [if_neg hb, if_pos (by rcases h with h | h; exact absurd h hb; exact h)]
      simp [TextLines.terminator, hb]

theorem take_three (text : List UInt8) (a b c : UInt8) :
    text.take 3 = [a, b, c] ↔ text[0]? = some a ∧ text[1]? = some b ∧ text[2]? = some c := by
  match text with
  | [] => simp
  | [x] => simp
  | [x, y] => simp
  | x :: y :: z :: rest => simp

theorem skipMark_eq (source : List UInt8) {i j : Nat} (lineIndex : Nat) (hij : i ≤ j) (hj : j ≤ source.length) :
    skipMark source lineIndex i j =
      some (i + markLength (decide (lineIndex = 0)) (Cursor.slice source i j)) := by
  rw [skipMark, markLength]
  by_cases hfirst : lineIndex = 0
  · simp only [hfirst, if_true, checkedSub_eq hij, Option.bind_eq_bind, Option.bind_some,
      decide_true, true_and, byteOrderMark, take_three, Cursor.slice_getElem?]
    by_cases hsize : j - i ≥ 3
    · have h0 : i < source.length := by omega
      have h1 : i + 1 < source.length := by omega
      have h2 : i + 2 < source.length := by omega
      have e0 : 0 < j - i := by omega
      have e1 : 1 < j - i := by omega
      have e2 : 2 < j - i := by omega
      simp only [hsize, e0, e1, e2, if_true, Nat.add_zero, List.getElem?_eq_getElem h0,
        List.getElem?_eq_getElem h1, List.getElem?_eq_getElem h2, Option.bind_some,
        Option.some.injEq]
      split <;> rfl
    · rw [if_neg hsize, if_neg (by simp; omega)]
      rfl
  · simp [hfirst]

theorem markLength_le (first : Bool) (content : List UInt8) :
    markLength first content ≤ content.length := by
  rw [markLength]
  split
  · next h =>
    have hlen := congrArg List.length h.2
    simp only [List.length_take, byteOrderMark, List.length_cons, List.length_nil] at hlen
    omega
  · omega

/-- The next line of the source from a line start. -/
def nextLine (source : List UInt8) (position : Nat) : RawLine where
  content := (source.drop position).takeWhile (!isBreak ·)
  terminator := TextLines.terminator ((source.drop position).dropWhile (!isBreak ·))

theorem nextLine_bytes_length (source : List UInt8) (position : Nat) :
    (nextLine source position).bytes.length =
      ((source.drop position).takeWhile (!isBreak ·)).length +
        (TextLines.terminator ((source.drop position).dropWhile (!isBreak ·))).length :=
  List.length_append

theorem split_nextLine {position : Nat} (h : position < source.length) :
    TextLines.split (source.drop position) = nextLine source position ::
      TextLines.split (source.drop (position + (nextLine source position).bytes.length)) := by
  have hne : source.drop position ≠ [] := by
    intro hnil
    have := congrArg List.length hnil
    simp at this
    omega
  rw [TextLines.split_cut hne]
  congr 1
  rw [nextLine_bytes_length, ← Nat.add_assoc, ← List.drop_drop, ← List.drop_drop,
    Cursor.drop_takeWhile]

theorem nextLine_isPrefix (source : List UInt8) (position : Nat) :
    (nextLine source position).bytes <+: source.drop position := by
  conv_rhs => rw [← List.takeWhile_append_dropWhile (p := (!isBreak ·))
    (l := source.drop position)]
  exact (List.prefix_append_right_inj _).mpr (TextLines.terminator_isPrefix _)

theorem nextLine_length_le {position : Nat} (h : position ≤ source.length) :
    position + (nextLine source position).bytes.length ≤ source.length := by
  have := (nextLine_isPrefix source position).length_le
  rw [List.length_drop] at this
  omega

theorem nextLine_length_pos {position : Nat} (h : position < source.length) :
    0 < (nextLine source position).bytes.length := by
  have hne : source.drop position ≠ [] := by
    intro hnil
    have := congrArg List.length hnil
    simp at this
    omega
  rw [nextLine_bytes_length]
  cases hcontent : (source.drop position).takeWhile (!isBreak ·) with
  | cons b rest =>
    rw [List.length_cons]
    omega
  | nil =>
    have hdrop : (source.drop position).dropWhile (!isBreak ·) = source.drop position := by
      rw [← Cursor.drop_takeWhile, hcontent]
      rfl
    have := List.length_pos_of_ne_nil (TextLines.terminator_ne_nil hne)
    rw [hdrop]
    omega

theorem content_slice {position : Nat} (h : position ≤ source.length) :
    Cursor.slice source position (position + (nextLine source position).content.length) =
      (nextLine source position).content := by
  have hle := Cursor.length_takeWhile_le (!isBreak ·) (source.drop position)
  rw [List.length_drop] at hle
  have hto : position + ((source.drop position).takeWhile (!isBreak ·)).length ≤ source.length := by
    omega
  rw [nextLine, ← Cursor.slice_take source hto, slice_to_end]
  exact (List.prefix_iff_eq_take.mp (List.takeWhile_prefix _)).symm

theorem scanLine_eq {position : Nat} (lineIndex : Nat) (h : position ≤ source.length) :
    scanLine source position lineIndex =
      some (lineText position (decide (lineIndex = 0)) (nextLine source position)).bounds := by
  have hle := Cursor.length_takeWhile_le (!isBreak ·) (source.drop position)
  rw [List.length_drop] at hle
  have hskip := Cursor.skipWhile_eq (!isBreak ·) h (Nat.le_refl source.length)
  rw [slice_to_end] at hskip
  have hdrop : source.drop (position + ((source.drop position).takeWhile (!isBreak ·)).length) =
      (source.drop position).dropWhile (!isBreak ·) := by
    rw [← List.drop_drop, Cursor.drop_takeWhile]
  have hbreak : ∀ b ∈ ((source.drop position).dropWhile (!isBreak ·)).head?, isBreak b = true := by
    intro b hb
    have := List.head?_dropWhile_not (!isBreak ·) (source.drop position)
    rw [hb] at this
    simpa using this
  have hterm := skipTerminator_eq source
    (k := position + ((source.drop position).takeWhile (!isBreak ·)).length) (by rwa [hdrop])
  rw [hdrop] at hterm
  have hmark := skipMark_eq source (i := position)
    (j := position + ((source.drop position).takeWhile (!isBreak ·)).length) lineIndex (by omega)
    (by omega)
  have hslice := content_slice h
  simp only [nextLine] at hslice
  rw [hslice] at hmark
  rw [scanLine, hskip]
  simp only [Option.bind_eq_bind, Option.bind_some, hterm, hmark, lineText, nextLine,
    RawLine.bytes, List.length_append, Nat.add_assoc]

/-- Trimming moves both cursors to the trimmed text. -/
theorem trimSpan_eq (source : List UInt8) {i j : Nat} (hij : i ≤ j) (hj : j ≤ source.length) :
    ∃ tb, tb = i + ((Cursor.slice source i j).takeWhile asciiSpace).length ∧
      trimSpan source i j = some (tb, tb + (trim (Cursor.slice source i j)).length) ∧
      tb + (trim (Cursor.slice source i j)).length ≤ j ∧
      Cursor.slice source tb (tb + (trim (Cursor.slice source i j)).length) =
        trim (Cursor.slice source i j) := by
  have hle := Cursor.length_takeWhile_le asciiSpace (Cursor.slice source i j)
  rw [Cursor.slice_length hj] at hle
  have htb : i + ((Cursor.slice source i j).takeWhile asciiSpace).length ≤ j := by omega
  have hback := Cursor.retreatWhile_eq asciiSpace htb hj
  have hslice := Cursor.slice_retreated asciiSpace htb hj
  have hlen := (List.rdropWhile_prefix asciiSpace (Cursor.slice source
    (i + ((Cursor.slice source i j).takeWhile asciiSpace).length) j)).length_le
  rw [Cursor.slice_length hj] at hlen
  rw [Cursor.slice_skipped] at hback hslice hlen
  refine ⟨_, rfl, ?_, ?_, hslice⟩
  · rw [trimSpan, Cursor.skipWhile_eq asciiSpace hij hj]
    simp only [Option.bind_eq_bind, Option.bind_some, hback]
    rfl
  · rw [trim]
    omega

/-- Trimming the content of the next line gives its text and where that begins. -/
theorem lineText_trim {first : Bool} {position : Nat} (h : position < source.length) {t : LineText}
    (ht : lineText position first (nextLine source position) = t) :
    trimSpan source t.bounds.contentBegin t.bounds.contentEnd =
        some (t.trimmedBegin, t.trimmedBegin + t.text.length) ∧
      t.trimmedBegin + t.text.length ≤ source.length ∧
      Cursor.slice source t.trimmedBegin (t.trimmedBegin + t.text.length) = t.text := by
  have hmark := markLength_le first (nextLine source position).content
  have hle := nextLine_length_le (Nat.le_of_lt h)
  have hbytes : (nextLine source position).bytes.length =
      (nextLine source position).content.length + (nextLine source position).terminator.length :=
    List.length_append
  have htrim := trimSpan_eq source
    (i := position + markLength first (nextLine source position).content)
    (j := position + (nextLine source position).content.length) (by omega) (by omega)
  rw [← Cursor.slice_drop, content_slice (Nat.le_of_lt h)] at htrim
  obtain ⟨tb, rfl, htrim, hend, hslice⟩ := htrim
  subst ht
  exact ⟨htrim, Nat.le_trans hend (by omega), hslice⟩

theorem startsHeader_eq {i j : Nat} (hij : i ≤ j) (hj : j ≤ source.length) :
    startsHeader source i j = some (headerAttempt (Cursor.slice source i j)) := by
  rw [startsHeader, checkedSub_eq hij]
  simp only [Option.bind_eq_bind, Option.bind_some]
  by_cases hsize : j - i ≥ 3
  · have h0 : i < source.length := by omega
    have h1 : i + 1 < source.length := by omega
    have h2 : i + 2 < source.length := by omega
    rw [if_pos hsize, List.getElem?_eq_getElem h0, List.getElem?_eq_getElem h1,
      Cursor.slice_cons (by omega) h0, Cursor.slice_cons (by omega) h1,
      Cursor.slice_cons (by omega) h2]
    rfl
  · rw [if_neg hsize]
    have hlen := Cursor.slice_length (i := i) hj
    generalize Cursor.slice source i j = text at *
    match text with
    | [] => rfl
    | [_] => rfl
    | [_, _] => rfl
    | _ :: _ :: _ :: _ =>
      simp only [List.length_cons] at hlen
      omega

/-- A header attempt has an activation byte and a rest. -/
theorem headerAttempt_cases {i j : Nat} (hj : j ≤ source.length)
    (h : headerAttempt (Cursor.slice source i j) = true) :
    ∃ activation, i + 3 ≤ j ∧ source[i + 2]? = some activation ∧
      (Cursor.slice source i j).drop 2 = activation :: Cursor.slice source (i + 3) j := by
  have hsize : 3 ≤ j - i := by
    have hlen := Cursor.slice_length (i := i) hj
    generalize Cursor.slice source i j = text at *
    match text with
    | [] => simp [headerAttempt] at h
    | [_] => simp [headerAttempt] at h
    | [_, _] => simp [headerAttempt] at h
    | _ :: _ :: _ :: _ =>
      simp only [List.length_cons] at hlen
      omega
  have h2 : i + 2 < source.length := by omega
  refine ⟨source[i + 2], by omega, List.getElem?_eq_getElem h2, ?_⟩
  rw [Cursor.slice_drop, Cursor.slice_cons (by omega) h2]

theorem badHeader_eq {i j : Nat} (activation : UInt8) (hj : j ≤ source.length) :
    badHeader source activation i j = some (!goodHeader activation (Cursor.slice source i j)) := by
  rw [badHeader, goodHeader]
  by_cases hdigit : activation ≠ 0x30 ∧ activation ≠ 0x31
  · simp [hdigit]
  · have hdigit' : (activation == 0x30 || activation == 0x31) = true := by
      rw [not_and_or, not_not, not_not] at hdigit
      simpa using hdigit
    rw [if_neg hdigit, hdigit', Bool.true_and]
    by_cases hmore : i < j
    · have hi : i < source.length := by omega
      simp [hmore, List.getElem?_eq_getElem hi, Cursor.slice_cons hmore hi]
    · simp [hmore, Cursor.slice_empty (Nat.le_of_not_lt hmore)]

end VitaCheat.Psv
