import Mathlib.Data.List.Basic

/-!
# Splitting text into lines

A line is its content followed by a terminator, which is CR LF, a CR that no LF
follows, LF, or nothing at the end of the text. Splitting cuts off one content
and one terminator at a time. The contents that are not empty are the pieces between
the line breaks, so they do not depend on how the breaks pair up.
-/
namespace TextLines

def lf : UInt8 := 0x0a
def cr : UInt8 := 0x0d

def isBreak (b : UInt8) : Bool := b == cr || b == lf

structure RawLine where
  content : List UInt8
  terminator : List UInt8
  deriving DecidableEq, Repr

def RawLine.bytes (l : RawLine) : List UInt8 := l.content ++ l.terminator

/-- Put a byte before the first line. -/
def extend (b : UInt8) : List RawLine → List RawLine
  | [] => [⟨[b], []⟩]
  | l :: rest => ⟨b :: l.content, l.terminator⟩ :: rest

def split : List UInt8 → List RawLine
  | [] => []
  | [b] => if isBreak b then [⟨[], [b]⟩] else [⟨[b], []⟩]
  | b :: c :: rest =>
    if b = cr ∧ c = lf then ⟨[], [cr, lf]⟩ :: split rest
    else if isBreak b then ⟨[], [b]⟩ :: split (c :: rest)
    else extend b (split (c :: rest))

/-- The terminator at the head of a text that does not continue a line. -/
def terminator : List UInt8 → List UInt8
  | [] => []
  | [b] => [b]
  | b :: c :: _ => if b = cr ∧ c = lf then [cr, lf] else [b]

theorem terminator_isPrefix (bytes : List UInt8) : terminator bytes <+: bytes := by
  unfold terminator
  split
  · exact List.prefix_rfl
  · exact List.prefix_rfl
  · next b c rest =>
    split
    · next h =>
      obtain ⟨rfl, rfl⟩ := h
      exact ⟨rest, rfl⟩
    · exact ⟨c :: rest, rfl⟩

theorem terminator_ne_nil {bytes : List UInt8} (h : bytes ≠ []) : terminator bytes ≠ [] := by
  unfold terminator
  split
  · exact absurd rfl h
  · simp
  · split <;> simp

/-- The four ways in which a line ends. -/
theorem terminator_cases {bytes : List UInt8} (h : ∀ b ∈ bytes.head?, isBreak b = true) :
    terminator bytes = [cr, lf] ∨ (terminator bytes = [cr] ∧ bytes[1]? ≠ some lf) ∨
      terminator bytes = [lf] ∨ (terminator bytes = [] ∧ bytes = []) := by
  have hbreak : ∀ b, isBreak b = true → b = cr ∨ b = lf := fun b hb => by
    simpa [isBreak] using hb
  unfold terminator
  split
  · exact Or.inr (Or.inr (Or.inr ⟨rfl, rfl⟩))
  · next b =>
    rcases hbreak b (h b rfl) with rfl | rfl
    · exact Or.inr (Or.inl ⟨rfl, by simp⟩)
    · exact Or.inr (Or.inr (Or.inl rfl))
  · next b c rest =>
    split
    · exact Or.inl rfl
    · next hcrlf =>
      rcases hbreak b (h b rfl) with rfl | rfl
      · exact Or.inr (Or.inl ⟨rfl, by simpa using hcrlf⟩)
      · exact Or.inr (Or.inr (Or.inl rfl))

/-- The content of a line is what precedes its first line break. -/
theorem takeWhile_line {content ending : List UInt8} (hcontent : ∀ b ∈ content, isBreak b = false)
    (hending : ∀ b ∈ ending.head?, isBreak b = true) :
    (content ++ ending).takeWhile (!isBreak ·) = content := by
  rw [List.takeWhile_append_of_pos (fun b hb => by rw [hcontent b hb]; rfl)]
  cases ending with
  | nil => exact List.append_nil content
  | cons b rest =>
    rw [List.takeWhile_cons_of_neg (by rw [hending b rfl]; decide), List.append_nil]

/-- The first line is the text up to its first line break and what ends it. -/
theorem split_cut {bytes : List UInt8} (h : bytes ≠ []) :
    split bytes = ⟨bytes.takeWhile (!isBreak ·), terminator (bytes.dropWhile (!isBreak ·))⟩ ::
      split ((bytes.dropWhile (!isBreak ·)).drop
        (terminator (bytes.dropWhile (!isBreak ·))).length) := by
  induction bytes using split.induct with
  | case1 => exact absurd rfl h
  | case2 b hb => simp [split, hb, terminator]
  | case3 b hb => simp [split, hb, terminator]
  | case4 b c rest hcrlf ih => simp [split, hcrlf, terminator, isBreak]
  | case5 b c rest hcrlf hb ih => simp [split, hcrlf, hb, terminator]
  | case6 b c rest hcrlf hb ih =>
    have hb' : isBreak b = false := by simpa using hb
    rw [split, if_neg hcrlf, if_neg hb, ih (by simp), extend]
    simp only [List.takeWhile_cons, List.dropWhile_cons, hb', Bool.not_false, if_true]

/-- A byte that is no line break extends the first line. -/
theorem split_extend {b : UInt8} (h : isBreak b = false) (rest : List UInt8) :
    split (b :: rest) = extend b (split rest) := by
  have hcr : b ≠ cr := by
    rintro rfl
    cases h
  cases rest with
  | nil => simp [split, h, extend]
  | cons c rest => simp [split, h, hcr]

theorem extend_length {b : UInt8} {ls : List RawLine} (h : ls ≠ []) :
    (extend b ls).length = ls.length := by
  cases ls with
  | nil => exact absurd rfl h
  | cons l rest => rfl

theorem extend_flatMap (b : UInt8) (ls : List RawLine) :
    (extend b ls).flatMap RawLine.bytes = b :: ls.flatMap RawLine.bytes := by
  cases ls <;> rfl

/-- Splitting loses nothing. -/
theorem flatMap_split (bytes : List UInt8) : (split bytes).flatMap RawLine.bytes = bytes := by
  induction bytes using split.induct with
  | case1 => rfl
  | case2 b hb => simp [split, hb, RawLine.bytes]
  | case3 b hb => simp [split, hb, RawLine.bytes]
  | case4 b c rest hcrlf ih =>
    obtain ⟨rfl, rfl⟩ := hcrlf
    rw [split, if_pos ⟨rfl, rfl⟩, List.flatMap_cons, ih]
    rfl
  | case5 b c rest hcrlf hb ih =>
    rw [split, if_neg hcrlf, if_pos hb, List.flatMap_cons, ih]
    rfl
  | case6 b c rest hcrlf hb ih => rw [split, if_neg hcrlf, if_neg hb, extend_flatMap, ih]

/-- A text that is empty or ends with a line break. -/
def Complete (bytes : List UInt8) : Prop := ∀ b ∈ bytes.getLast?, isBreak b = true

theorem complete_tail {b c : UInt8} {rest : List UInt8} (h : Complete (b :: c :: rest)) :
    Complete (c :: rest) := by
  rwa [Complete, List.getLast?_cons_cons] at h

theorem extend_append {b : UInt8} {ls : List RawLine} (h : ls ≠ []) (more : List RawLine) :
    extend b (ls ++ more) = extend b ls ++ more := by
  cases ls with
  | nil => exact absurd rfl h
  | cons l rest => rfl

/-- Complete lines do not depend on what follows, unless that continues a CR LF. -/
theorem split_append {bytes more : List UInt8} (h : Complete bytes)
    (hmore : bytes.getLast? = some cr → more.head? ≠ some lf) :
    split (bytes ++ more) = split bytes ++ split more := by
  induction bytes using split.induct with
  | case1 => rfl
  | case2 b hb =>
    cases more with
    | nil => simp [split]
    | cons c rest =>
      have hcrlf : ¬(b = cr ∧ c = lf) := by
        rintro ⟨rfl, rfl⟩
        exact hmore rfl rfl
      simp [split, hcrlf, hb]
  | case3 b hb => exact absurd (h b rfl) hb
  | case4 b c rest hcrlf ih =>
    have hrest : Complete rest ∧ (rest.getLast? = some cr → more.head? ≠ some lf) := by
      cases rest with
      | nil => exact ⟨fun _ h => (nomatch h), fun h => (nomatch h)⟩
      | cons d tail =>
        exact ⟨complete_tail (complete_tail h), by
          rwa [List.getLast?_cons_cons, List.getLast?_cons_cons] at hmore⟩
    rw [List.cons_append, List.cons_append, split, if_pos hcrlf, ih hrest.1 hrest.2, split,
      if_pos hcrlf, List.cons_append]
  | case5 b c rest hcrlf hb ih =>
    rw [List.getLast?_cons_cons] at hmore
    have hrest := ih (complete_tail h) hmore
    rw [List.cons_append] at hrest
    rw [List.cons_append, List.cons_append, split, if_neg hcrlf, if_pos hb, hrest, split,
      if_neg hcrlf, if_pos hb, List.cons_append]
  | case6 b c rest hcrlf hb ih =>
    rw [List.getLast?_cons_cons] at hmore
    have hrest := ih (complete_tail h) hmore
    rw [List.cons_append] at hrest
    rw [List.cons_append, List.cons_append, split, if_neg hcrlf, if_neg hb, hrest, split,
      if_neg hcrlf, if_neg hb, extend_append (by rw [split_cut (by simp)]; simp)]

/-- Every line takes at least one byte. -/
theorem length_split_le (bytes : List UInt8) : (split bytes).length ≤ bytes.length := by
  induction bytes using split.induct with
  | case1 => exact Nat.le_refl 0
  | case2 b hb => simp [split, hb]
  | case3 b hb => simp [split, hb]
  | case4 b c rest hcrlf ih =>
    rw [split, if_pos hcrlf]
    simp only [List.length_cons]
    omega
  | case5 b c rest hcrlf hb ih =>
    rw [split, if_neg hcrlf, if_pos hb]
    simp only [List.length_cons] at ih ⊢
    omega
  | case6 b c rest hcrlf hb ih =>
    rw [split, if_neg hcrlf, if_neg hb, extend_length (by rw [split_cut (by simp)]; simp)]
    exact Nat.le_succ_of_le ih

/-- No content holds a line break. -/
theorem content_no_break (bytes : List UInt8) :
    ∀ l ∈ split bytes, ∀ b ∈ l.content, isBreak b = false := by
  induction bytes using split.induct with
  | case1 => simp [split]
  | case2 b hb => simp [split, hb]
  | case3 b hb => simp [split, hb]
  | case4 b c rest hcrlf ih =>
    rw [split, if_pos hcrlf]
    simpa using ih
  | case5 b c rest hcrlf hb ih =>
    rw [split, if_neg hcrlf, if_pos hb]
    simpa using ih
  | case6 b c rest hcrlf hb ih =>
    rw [split, if_neg hcrlf, if_neg hb]
    cases hls : split (c :: rest) with
    | nil => simpa [extend] using hb
    | cons l ls =>
      rw [hls] at ih
      obtain ⟨hl, hrest⟩ := List.forall_mem_cons.mp ih
      refine List.forall_mem_cons.mpr ⟨List.forall_mem_cons.mpr ⟨?_, hl⟩, hrest⟩
      simpa using hb

/-- The contents of the lines that have any. -/
def solid (bytes : List UInt8) : List (List UInt8) :=
  ((split bytes).map RawLine.content).filter (!·.isEmpty)

/-- The pieces between all line breaks that are not empty. -/
def pieces (bytes : List UInt8) : List (List UInt8) :=
  (bytes.splitOnP isBreak).filter (!·.isEmpty)

theorem extend_contents {b : UInt8} {ls : List RawLine} (h : ls ≠ []) :
    (extend b ls).map RawLine.content = (ls.map RawLine.content).modifyHead (b :: ·) := by
  cases ls with
  | nil => exact absurd rfl h
  | cons l rest => rfl

/-- Lists that agree at the head and in the tail where not empty. -/
theorem filter_parts {contents more : List (List UInt8)} {first : List UInt8}
    (hhead : contents.headD [] = first)
    (htail : contents.tail.filter (!·.isEmpty) = more.filter (!·.isEmpty)) :
    contents.filter (!·.isEmpty) = (first :: more).filter (!·.isEmpty) := by
  subst hhead
  cases contents with
  | nil => exact htail
  | cons l rest =>
    rw [List.filter_cons, List.filter_cons, ← htail]
    rfl

/-- The first content is the first piece, and the others agree where not empty. -/
theorem split_pieces (bytes : List UInt8) : ∃ first more,
    bytes.splitOnP isBreak = first :: more ∧
      ((split bytes).map RawLine.content).headD [] = first ∧
      ((split bytes).map RawLine.content).tail.filter (!·.isEmpty) =
        more.filter (!·.isEmpty) := by
  induction bytes using split.induct with
  | case1 => exact ⟨[], [], rfl, rfl, rfl⟩
  | case2 b hb =>
    exact ⟨[], [[]], by simp [List.splitOnP_cons_eq_if_modifyHead, hb], by simp [split, hb],
      by simp [split, hb]⟩
  | case3 b hb =>
    exact ⟨[b], [], by simp [List.splitOnP_cons_eq_if_modifyHead, hb], by simp [split, hb],
      by simp [split, hb]⟩
  | case4 b c rest hcrlf ih =>
    obtain ⟨first, more, hpieces, hhead, htail⟩ := ih
    obtain ⟨rfl, rfl⟩ := hcrlf
    refine ⟨[], [] :: first :: more, ?_, by simp [split], ?_⟩
    · rw [List.splitOnP_cons_eq_if_modifyHead, List.splitOnP_cons_eq_if_modifyHead, hpieces]
      rfl
    · have hparts := filter_parts hhead htail
      rw [split, if_pos ⟨rfl, rfl⟩]
      exact hparts
  | case5 b c rest hcrlf hb ih =>
    obtain ⟨first, more, hpieces, hhead, htail⟩ := ih
    refine ⟨[], first :: more, ?_, by simp [split, hcrlf, hb], ?_⟩
    · rw [List.splitOnP_cons_eq_if_modifyHead, if_pos hb, hpieces]
    · rw [split, if_neg hcrlf, if_pos hb]
      exact filter_parts hhead htail
  | case6 b c rest hcrlf hb ih =>
    obtain ⟨first, more, hpieces, hhead, htail⟩ := ih
    have hne : split (c :: rest) ≠ [] := by
      rw [split_cut (by simp)]
      simp
    refine ⟨b :: first, more, ?_, ?_, ?_⟩
    · rw [List.splitOnP_cons_eq_if_modifyHead, if_neg hb, hpieces]
      rfl
    · rw [split, if_neg hcrlf, if_neg hb, extend_contents hne, ← hhead]
      cases hls : split (c :: rest) with
      | nil => exact absurd hls hne
      | cons l ls => rfl
    · rw [split, if_neg hcrlf, if_neg hb, extend_contents hne, ← htail]
      cases split (c :: rest) <;> rfl

theorem solid_pieces (bytes : List UInt8) : solid bytes = pieces bytes := by
  obtain ⟨first, more, hpieces, hhead, htail⟩ := split_pieces bytes
  rw [solid, pieces, hpieces]
  exact filter_parts hhead htail

/-- Behind complete lines the contents are those of both parts, even where a CR LF
is cut or comes about. -/
theorem solid_append {bytes : List UInt8} (h : Complete bytes) (more : List UInt8) :
    solid (bytes ++ more) = solid bytes ++ solid more := by
  simp only [solid_pieces, pieces]
  rcases List.eq_nil_or_concat bytes with rfl | ⟨init, b, rfl⟩
  · simp [List.splitOnP_nil]
  · have hb : isBreak b = true := h b (by simp)
    rw [List.concat_eq_append, List.append_assoc, List.singleton_append,
      List.splitOnP_append_cons _ _ hb, List.splitOnP_append_cons _ _ hb, List.splitOnP_nil]
    simp

/-- A line with its terminator has the one content. -/
theorem solid_line {content ending : List UInt8} (hcontent : ∀ b ∈ content, isBreak b = false)
    (hending : ∀ b ∈ ending, isBreak b = true) :
    solid (content ++ ending) = [content].filter (!·.isEmpty) := by
  have hbreaks : solid ending = [] := by
    induction ending with
    | nil => rfl
    | cons b more ih =>
      obtain ⟨hb, hmore⟩ := List.forall_mem_cons.mp hending
      have ih := ih hmore
      rw [solid_pieces, pieces] at ih ⊢
      rw [List.splitOnP_cons_eq_if_modifyHead, if_pos hb]
      exact ih
  rw [solid_pieces, pieces] at hbreaks ⊢
  cases ending with
  | nil => rw [List.append_nil, List.splitOnP_eq_singleton hcontent]
  | cons b more =>
    obtain ⟨hb, -⟩ := List.forall_mem_cons.mp hending
    rw [List.splitOnP_cons_eq_if_modifyHead, if_pos hb] at hbreaks
    have hmore : (more.splitOnP isBreak).filter (!·.isEmpty) = [] := hbreaks
    rw [List.splitOnP_append_cons_of_forall_mem hcontent b hb, List.filter_cons, hmore,
      List.filter_cons, List.filter_nil]

end TextLines
