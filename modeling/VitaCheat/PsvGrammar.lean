import VitaCheat.PsvText

/-!
# The grammar of a line

What the lines of a source look like, without reference to how they are read: the
spelling of a code, of a header and of an attempt at one, and the kind that each
text denotes where a cheat is active or not. The classes of `PsvText` decide it.
-/
namespace VitaCheat.Psv

def isHexDigit (b : UInt8) : Bool :=
  (0x30 ≤ b && b ≤ 0x39) || (0x61 ≤ b && b ≤ 0x66) || (0x41 ≤ b && b ≤ 0x46)

/-- Exactly `n` hex digits of either case. -/
def HexDigits (n : Nat) (digits : List UInt8) : Prop :=
  digits.length = n ∧ ∀ b ∈ digits, isHexDigit b = true

/-- One or more spaces and tabs. -/
def Gap (spaces : List UInt8) : Prop := spaces ≠ [] ∧ ∀ b ∈ spaces, asciiSpace b = true

/-- A `$` and three groups of hex digits with gaps between them. -/
structure CodeShape where
  code : List UInt8
  gap : List UInt8
  address : List UInt8
  gap' : List UInt8
  value : List UInt8
  code_digits : HexDigits 4 code
  gap_spaces : Gap gap
  address_digits : HexDigits 8 address
  gap'_spaces : Gap gap'
  value_digits : HexDigits 8 value

def CodeShape.text (s : CodeShape) : List UInt8 :=
  0x24 :: (s.code ++ (s.gap ++ (s.address ++ (s.gap' ++ s.value))))

def SpellsCode (text : List UInt8) : Prop := ∃ s : CodeShape, s.text = text

/-- `_V`, a digit 0 or 1, and then the end of the text or a space. -/
structure HeaderShape where
  digit : UInt8
  rest : List UInt8
  digit_known : digit = 0x30 ∨ digit = 0x31
  rest_spaced : ∀ b ∈ rest.head?, asciiSpace b = true

def HeaderShape.text (s : HeaderShape) : List UInt8 := 0x5f :: 0x56 :: s.digit :: s.rest

def HeaderShape.activation (s : HeaderShape) : Activation :=
  if s.digit = 0x31 then .autostart else .manual

/-- The text without its first three bytes and the spaces after them. -/
def HeaderShape.description (s : HeaderShape) : List UInt8 := s.rest.dropWhile asciiSpace

def SpellsHeader (text : List UInt8) : Prop := ∃ s : HeaderShape, s.text = text

/-- `_V` and at least one byte more. -/
def AttemptsHeader (text : List UInt8) : Prop := ∃ b rest, text = 0x5f :: 0x56 :: b :: rest

/-- The kind of a line, from its trimmed text and whether a cheat is active there. -/
def Denotes (active : Prop) (text : List UInt8) : LineKind → Prop
  | .blank => text = []
  | .comment => text.head? = some 0x23
  | .cheatHeader => SpellsHeader text
  | .malformed => (AttemptsHeader text ∧ ¬SpellsHeader text) ∨
      (text.head? = some 0x24 ∧ (¬SpellsCode text ∨ ¬active))
  | .code => text.head? = some 0x24 ∧ SpellsCode text ∧ active
  | .opaqueLine => text ≠ [] ∧ text.head? ≠ some 0x23 ∧ ¬AttemptsHeader text ∧
      text.head? ≠ some 0x24

theorem hexValue_neg (b : UInt8) : hexValue b < 0 ↔ isHexDigit b = false := by
  have hto : ∀ n : UInt8, n ≤ b → n.toNat ≤ b.toNat := fun n h => UInt8.le_iff_toNat_le.mp h
  unfold hexValue isHexDigit
  by_cases h0 : (0x30 : UInt8) ≤ b ∧ b ≤ 0x39
  · have := hto 0x30 h0.1
    simp only [UInt8.reduceToNat] at this
    simp [h0]
    omega
  by_cases ha : (0x61 : UInt8) ≤ b ∧ b ≤ 0x66
  · have := hto 0x61 ha.1
    simp only [UInt8.reduceToNat] at this
    simp [h0, ha]
    omega
  by_cases hA : (0x41 : UInt8) ≤ b ∧ b ≤ 0x46
  · have := hto 0x41 hA.1
    simp only [UInt8.reduceToNat] at this
    simp [h0, ha, hA]
    omega
  · simp only [h0, ha, hA, if_false]
    simp_all

theorem hexDigit_no_space {b : UInt8} (h : isHexDigit b = true) : asciiSpace b = false := by
  rw [Bool.eq_false_iff]
  intro hs
  simp only [asciiSpace, Bool.or_eq_true, beq_iff_eq] at hs
  rcases hs with rfl | rfl <;> exact absurd h (by decide)

theorem hexText_isSome (parsed : U32) (digits : List UInt8) :
    (hexText parsed digits).isSome = true ↔ ∀ b ∈ digits, isHexDigit b = true := by
  induction digits generalizing parsed with
  | nil => simp [hexText]
  | cons b rest ih =>
    rw [hexText, List.forall_mem_cons]
    by_cases hb : hexValue b < 0
    · simp [hb, (hexValue_neg b).mp hb]
    · have hdigit : isHexDigit b = true := by simpa using mt (hexValue_neg b).mpr hb
      rw [if_neg hb, ih]
      simp [hdigit]

theorem hexPart_append {n : Nat} {digits : List UInt8} (h : digits.length = n) {value : U32}
    (hvalue : hexText 0 digits = some value) (rest : List UInt8) :
    hexPart n (digits ++ rest) = some (value, rest) := by
  subst h
  rw [hexPart, if_neg (by simp), List.take_left, List.drop_left, hvalue]
  rfl

theorem hexPart_digits {n : Nat} {text rest : List UInt8} {value : U32}
    (h : hexPart n text = some (value, rest)) :
    ∃ digits, HexDigits n digits ∧ text = digits ++ rest := by
  rw [hexPart] at h
  split at h
  · cases h
  · next hlong =>
    obtain ⟨v, hv, hpair⟩ := Option.map_eq_some_iff.mp h
    refine ⟨text.take n, ⟨List.length_take_of_le (by omega), ?_⟩, ?_⟩
    · exact (hexText_isSome 0 _).mp (by rw [hv]; rfl)
    · rw [← (Prod.mk.inj hpair).2, List.take_append_drop]

theorem gapPart_append {spaces : List UInt8} (h : Gap spaces) {rest : List UInt8}
    (hrest : ∀ b ∈ rest.head?, asciiSpace b = false) : gapPart (spaces ++ rest) = some rest := by
  obtain ⟨hne, hspaces⟩ := h
  cases spaces with
  | nil => exact absurd rfl hne
  | cons b more =>
    obtain ⟨hb, hmore⟩ := List.forall_mem_cons.mp hspaces
    rw [List.cons_append, gapPart, if_pos hb, List.dropWhile_append_of_pos hmore]
    cases rest with
    | nil => rfl
    | cons c tail => rw [List.dropWhile_cons_of_neg (by simp [hrest c rfl])]

theorem gapPart_gap {text rest : List UInt8} (h : gapPart text = some rest) :
    ∃ spaces, Gap spaces ∧ text = spaces ++ rest := by
  unfold gapPart at h
  split at h
  · cases h
  · next b tail =>
    split at h
    · next hb =>
      refine ⟨b :: tail.takeWhile asciiSpace, ⟨List.cons_ne_nil _ _, ?_⟩, ?_⟩
      · exact List.forall_mem_cons.mpr ⟨hb, fun _ hc => List.mem_takeWhile_imp hc⟩
      · rw [← Option.some.inj h, List.cons_append, List.takeWhile_append_dropWhile]
    · cases h

theorem hexDigits_head {n : Nat} {digits : List UInt8} (h : HexDigits (n + 1) digits)
    (rest : List UInt8) : ∀ b ∈ (digits ++ rest).head?, asciiSpace b = false := by
  obtain ⟨hlength, hdigits⟩ := h
  cases digits with
  | nil => cases hlength
  | cons c tail =>
    intro b hb
    obtain rfl := Option.some.inj hb
    exact hexDigit_no_space (hdigits _ (List.mem_cons_self ..))

/-- A text that does not end in a space. -/
def Closed (text : List UInt8) : Prop := ∀ b ∈ text.getLast?, asciiSpace b = false

theorem closed_trim (text : List UInt8) : Closed (trim text) := by
  intro b hb
  obtain ⟨hne, rfl⟩ := List.mem_getLast?_eq_getLast hb
  exact Bool.eq_false_iff.mpr (List.rdropWhile_last_not asciiSpace _ hne)

/-- Spaces that a closed text ends with are none. -/
theorem closed_append (text : List UInt8) {spaces : List UInt8} (h : Closed (text ++ spaces))
    (hspaces : ∀ b ∈ spaces, asciiSpace b = true) : spaces = [] := by
  by_contra hne
  have hlast : (text ++ spaces).getLast? = some (spaces.getLast hne) := by
    rw [List.getLast?_append_of_ne_nil text hne, List.getLast?_eq_some_getLast hne]
  have hspace := hspaces _ (List.getLast_mem hne)
  rw [h _ hlast] at hspace
  cases hspace

/-- A spelling of a code is read as the numbers of its digit groups. -/
theorem codeText_text (s : CodeShape) {code address value : U32}
    (hcode : hexText 0 s.code = some code) (haddress : hexText 0 s.address = some address)
    (hvalue : hexText 0 s.value = some value) :
    codeText s.text = some ⟨code.setWidth 16, address, value⟩ := by
  have hcode := hexPart_append s.code_digits.1 hcode (s.gap ++ (s.address ++ (s.gap' ++ s.value)))
  have haddress := hexPart_append s.address_digits.1 haddress (s.gap' ++ s.value)
  have hvalue := hexPart_append s.value_digits.1 hvalue []
  have hgap := gapPart_append s.gap_spaces (hexDigits_head s.address_digits (s.gap' ++ s.value))
  have hgap' := gapPart_append s.gap'_spaces (hexDigits_head s.value_digits [])
  rw [List.append_nil] at hvalue hgap'
  simp [CodeShape.text, codeText, hcode, hgap, haddress, hgap', hvalue]

/-- Every spelling of a code is accepted. -/
theorem codeText_spelled (s : CodeShape) : ∃ c, codeText s.text = some c := by
  have hread : ∀ {n digits}, HexDigits n digits → ∃ value, hexText 0 digits = some value :=
    fun h => Option.isSome_iff_exists.mp ((hexText_isSome 0 _).mpr h.2)
  obtain ⟨code, hcode⟩ := hread s.code_digits
  obtain ⟨address, haddress⟩ := hread s.address_digits
  obtain ⟨value, hvalue⟩ := hread s.value_digits
  exact ⟨_, codeText_text s hcode haddress hvalue⟩

/-- What the reader accepts is a spelling of a code. -/
theorem codeText_spells {text : List UInt8} (hclosed : Closed text) {c : Code}
    (h : codeText text = some c) : SpellsCode text := by
  unfold codeText at h
  split at h
  · cases h
  · next b rest =>
    split at h
    · cases h
    · next hb =>
      obtain rfl := not_not.mp hb
      simp only [Option.bind_eq_bind, Option.bind_eq_some_iff, Prod.exists] at h
      obtain ⟨code, r1, h1, r2, h2, address, r3, h3, r4, h4, value, r5, h5, hend⟩ := h
      obtain ⟨ds1, hds1, rfl⟩ := hexPart_digits h1
      obtain ⟨g1, hg1, rfl⟩ := gapPart_gap h2
      obtain ⟨ds2, hds2, rfl⟩ := hexPart_digits h3
      obtain ⟨g2, hg2, rfl⟩ := gapPart_gap h4
      obtain ⟨ds3, hds3, rfl⟩ := hexPart_digits h5
      have hspaces : ∀ b ∈ r5, asciiSpace b = true := by
        split at hend
        · cases hend
        · next hnil => exact List.dropWhile_eq_nil_iff.mp (not_not.mp hnil)
      have hr5 : r5 = [] := by
        refine closed_append (0x24 :: (ds1 ++ (g1 ++ (ds2 ++ (g2 ++ ds3))))) ?_ hspaces
        simpa using hclosed
      subst hr5
      exact ⟨⟨ds1, g1, ds2, g2, ds3, hds1, hg1, hds2, hg2, hds3⟩, by simp [CodeShape.text]⟩

theorem spellsCode_iff {text : List UInt8} (hclosed : Closed text) :
    SpellsCode text ↔ ∃ c, codeText text = some c := by
  constructor
  · rintro ⟨s, rfl⟩
    exact codeText_spelled s
  · rintro ⟨c, hc⟩
    exact codeText_spells hclosed hc

theorem attemptsHeader_iff (text : List UInt8) :
    AttemptsHeader text ↔ headerAttempt text = true := by
  constructor
  · rintro ⟨b, rest, rfl⟩
    rfl
  · intro h
    match text with
    | [] => cases h
    | [_] => cases h
    | [_, _] => cases h
    | b0 :: b1 :: b2 :: rest =>
      simp only [headerAttempt, Bool.and_eq_true, beq_iff_eq] at h
      obtain ⟨rfl, rfl⟩ := h
      exact ⟨b2, rest, rfl⟩

theorem goodHeader_iff (digit : UInt8) (rest : List UInt8) :
    goodHeader digit rest = true ↔
      (digit = 0x30 ∨ digit = 0x31) ∧ ∀ b ∈ rest.head?, asciiSpace b = true := by
  simp only [goodHeader, Bool.and_eq_true, Bool.or_eq_true, beq_iff_eq, Option.all_eq_true,
    Option.mem_def]

theorem SpellsHeader.attempts {text : List UInt8} (h : SpellsHeader text) :
    AttemptsHeader text := by
  obtain ⟨s, rfl⟩ := h
  exact ⟨s.digit, s.rest, rfl⟩

/-- An attempt at a header is read as the header it spells, or as malformed. -/
theorem classify_attempted {text : List UInt8} (h : AttemptsHeader text) :
    (∃ s : HeaderShape, s.text = text ∧ classify text = .header s.activation s.description) ∨
      (¬SpellsHeader text ∧ classify text = .badHeader) := by
  obtain ⟨digit, rest, rfl⟩ := h
  have hattempt : headerAttempt (0x5f :: 0x56 :: digit :: rest) = true := rfl
  have hclass : classify (0x5f :: 0x56 :: digit :: rest) = headerClass (digit :: rest) := by
    rw [classify, if_neg (by decide), if_pos hattempt]
    rfl
  rw [hclass, headerClass]
  cases hgood : goodHeader digit rest with
  | true =>
    obtain ⟨hdigit, hrest⟩ := (goodHeader_iff digit rest).mp hgood
    exact .inl ⟨⟨digit, rest, hdigit, hrest⟩, rfl, rfl⟩
  | false =>
    refine .inr ⟨?_, rfl⟩
    rintro ⟨s, hs⟩
    simp only [HeaderShape.text, List.cons.injEq, true_and] at hs
    obtain ⟨rfl, rfl⟩ := hs
    rw [(goodHeader_iff _ _).mpr ⟨s.digit_known, s.rest_spaced⟩] at hgood
    cases hgood

theorem HeaderShape.description_length (s : HeaderShape) : s.text.length =
    3 + (s.rest.takeWhile asciiSpace).length + s.description.length := by
  have hrest := congrArg List.length
    (List.takeWhile_append_dropWhile (p := asciiSpace) (l := s.rest))
  rw [List.length_append] at hrest
  simp only [HeaderShape.text, HeaderShape.description, List.length_cons]
  omega

theorem HeaderShape.description_eq (s : HeaderShape) :
    s.text.drop (3 + (s.rest.takeWhile asciiSpace).length) = s.description := by
  rw [← List.drop_drop]
  exact Cursor.drop_takeWhile asciiSpace s.rest

theorem classify_plain {text : List UInt8} (h : ¬AttemptsHeader text) :
    (text = [] ∧ classify text = .blank) ∨
      (text.head? = some 0x23 ∧ classify text = .comment) ∨
      (text.head? = some 0x24 ∧ ∃ c, codeText text = some c ∧ classify text = .code c) ∨
      (text.head? = some 0x24 ∧ codeText text = none ∧ classify text = .badCode) ∨
      (text ≠ [] ∧ text.head? ≠ some 0x23 ∧ text.head? ≠ some 0x24 ∧
        classify text = .opaqueLine) := by
  rw [attemptsHeader_iff] at h
  cases text with
  | nil => exact .inl ⟨rfl, rfl⟩
  | cons first rest =>
    rw [classify, if_neg h]
    by_cases hcomment : first = 0x23
    · exact .inr (.inl ⟨by rw [hcomment]; rfl, by rw [if_pos hcomment]⟩)
    rw [if_neg hcomment]
    by_cases hdollar : first = 0x24
    · have hhead : (first :: rest).head? = some 0x24 := by rw [hdollar]; rfl
      rw [if_pos hdollar]
      cases hcode : codeText (first :: rest) with
      | some c => exact .inr (.inr (.inl ⟨hhead, c, rfl, rfl⟩))
      | none => exact .inr (.inr (.inr (.inl ⟨hhead, rfl, rfl⟩)))
    · refine .inr (.inr (.inr (.inr ⟨List.cons_ne_nil _ _, ?_, ?_, by rw [if_neg hdollar]⟩)))
      · simpa using hcomment
      · simpa using hdollar

/-- Only header attempts are read as header lines. -/
theorem classify_attempt (text : List UInt8) :
    headerAttempt text = true ↔
      classify text = .badHeader ∨ ∃ activation description,
        classify text = .header activation description := by
  rw [← attemptsHeader_iff]
  constructor
  · intro h
    rcases classify_attempted h with ⟨s, -, hclass⟩ | ⟨-, hclass⟩
    · exact .inr ⟨_, _, hclass⟩
    · exact .inl hclass
  · intro h
    by_contra hno
    rcases classify_plain hno with ⟨-, hclass⟩ | ⟨-, hclass⟩ | ⟨-, c, -, hclass⟩ |
      ⟨-, -, hclass⟩ | ⟨-, -, -, hclass⟩ <;> simp [hclass] at h

theorem classify_other {text : List UInt8} (h : headerAttempt text = false) :
    classify text ≠ .badHeader ∧
      ∀ activation description, classify text ≠ .header activation description := by
  have hattempt := classify_attempt text
  rw [h] at hattempt
  exact ⟨fun hclass => Bool.false_ne_true (hattempt.mpr (Or.inl hclass)),
    fun _ _ hclass => Bool.false_ne_true (hattempt.mpr (Or.inr ⟨_, _, hclass⟩))⟩

theorem headerAttempt_false {text : List UInt8} (h : ¬AttemptsHeader text) :
    headerAttempt text = false := Bool.eq_false_iff.mpr (mt (attemptsHeader_iff text).mpr h)

/-- Only spellings of a header are read as one. -/
theorem classify_header {text description : List UInt8} {activation : Activation}
    (h : classify text = .header activation description) :
    ∃ s : HeaderShape, s.text = text ∧ s.activation = activation ∧ s.description = description := by
  have hattempt := (attemptsHeader_iff text).mpr ((classify_attempt text).mpr (.inr ⟨_, _, h⟩))
  rcases classify_attempted hattempt with ⟨s, hs, hclass⟩ | ⟨-, hclass⟩
  · obtain ⟨ha, hd⟩ := LineClass.header.inj (hclass.symm.trans h)
    exact ⟨s, hs, ha, hd⟩
  · cases hclass.symm.trans h

/-- The kind of the record that a line of a class leaves. -/
def LineClass.kind (active : Bool) : LineClass → LineKind
  | .blank => .blank
  | .comment => .comment
  | .header _ _ => .cheatHeader
  | .badHeader | .badCode => .malformed
  | .code _ => if active then .code else .malformed
  | .opaqueLine => .opaqueLine

theorem attempts_head {text : List UInt8} (h : AttemptsHeader text) :
    text.head? = some 0x5f := by
  obtain ⟨b, rest, rfl⟩ := h
  rfl

/-- A text denotes one kind. -/
theorem denotes_unique {active : Prop} {text : List UInt8} {kind kind' : LineKind}
    (h : Denotes active text kind) (h' : Denotes active text kind') : kind = kind' := by
  have hheader : SpellsHeader text → AttemptsHeader text := SpellsHeader.attempts
  have hattempt : AttemptsHeader text → text.head? = some 0x5f := attempts_head
  have hnil : text = [] → text.head? = none := fun h => by rw [h]; rfl
  cases kind <;> cases kind' <;> simp only [Denotes] at h h' <;> grind

theorem denotes_classify (active : Bool) {text : List UInt8} (hclosed : Closed text) :
    Denotes (active = true) text ((classify text).kind active) := by
  by_cases hattempt : AttemptsHeader text
  · rcases classify_attempted hattempt with ⟨s, hs, hclass⟩ | ⟨hno, hclass⟩
    · rw [hclass]
      exact ⟨s, hs⟩
    · rw [hclass]
      exact .inl ⟨hattempt, hno⟩
  · have hcode := spellsCode_iff hclosed
    rcases classify_plain hattempt with ⟨ht, hclass⟩ | ⟨hhead, hclass⟩ | ⟨hhead, c, hc, hclass⟩ |
      ⟨hhead, hnone, hclass⟩ | ⟨hne, hhash, hdollar, hclass⟩
    · rw [hclass]
      exact ht
    · rw [hclass]
      exact hhead
    · have hspells := hcode.mpr ⟨c, hc⟩
      rw [hclass]
      cases active with
      | true => exact ⟨hhead, hspells, rfl⟩
      | false => exact .inr ⟨hhead, .inr Bool.false_ne_true⟩
    · rw [hclass]
      refine .inr ⟨hhead, .inl ?_⟩
      rw [hcode]
      rintro ⟨c, hc⟩
      cases hnone.symm.trans hc
    · rw [hclass]
      exact ⟨hne, hhash, hattempt, hdollar⟩

end VitaCheat.Psv
