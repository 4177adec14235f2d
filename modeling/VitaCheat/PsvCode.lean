import VitaCheat.Lib.Digits
import VitaCheat.PsvGrammar

/-!
# The numbers of a code line

The cursor parser reads exactly the spellings of a code, and the numbers it reads
are the base-16 numbers of the three digit groups; so every way of writing a code
down is read back as that code. It never looks past the end of its span.
-/
namespace VitaCheat.Psv

/-- The digit that a byte stands for, in either case. -/
def digitValue (b : UInt8) : Nat :=
  if b ≤ 0x39 then b.toNat - 0x30 else if b ≤ 0x46 then b.toNat - 0x37 else b.toNat - 0x57

def hexNumber (digits : List UInt8) : Nat := Digits.written 16 (digits.map digitValue)

/-- The byte of a digit in the chosen case. -/
def hexDigit (upper : Bool) (digit : Nat) : UInt8 :=
  UInt8.ofNat (if digit < 10 then 0x30 + digit else if upper then 0x37 + digit else 0x57 + digit)

/-- A number written with `n` digits, the case of each chosen by its place. -/
def renderHex (upper : Nat → Bool) (n value : Nat) : List UInt8 :=
  (Digits.lastDigits 16 n value).mapIdx fun i digit => hexDigit (upper i) digit

theorem hexValue_digit {b : UInt8} (h : isHexDigit b = true) :
    hexValue b = digitValue b ∧ digitValue b < 16 := by
  have hto : ∀ n : UInt8, n ≤ b ↔ n.toNat ≤ b.toNat := fun n => UInt8.le_iff_toNat_le
  have hto' : ∀ n : UInt8, b ≤ n ↔ b.toNat ≤ n.toNat := fun n => UInt8.le_iff_toNat_le
  simp only [isHexDigit, Bool.or_eq_true, Bool.and_eq_true, decide_eq_true_eq, hto, hto',
    UInt8.reduceToNat] at h
  simp only [hexValue, digitValue, hto, hto', UInt8.reduceToNat]
  split_ifs <;> omega

theorem hexDigit_digit : ∀ digit, digit < 16 → ∀ upper,
    isHexDigit (hexDigit upper digit) = true ∧ digitValue (hexDigit upper digit) = digit := by
  decide

theorem renderHex_length (upper : Nat → Bool) (n value : Nat) :
    (renderHex upper n value).length = n := by
  rw [renderHex, List.length_mapIdx, Digits.lastDigits_length]

theorem renderHex_digits (upper : Nat → Bool) (n value : Nat) :
    HexDigits n (renderHex upper n value) := by
  refine ⟨renderHex_length upper n value, ?_⟩
  intro b hb
  obtain ⟨i, hi, rfl⟩ := List.mem_mapIdx.mp hb
  exact (hexDigit_digit _ (Digits.lastDigits_lt (by decide) n value _
    (List.getElem_mem hi)) (upper i)).1

/-- Reading a written number gives it back, where it fits. -/
theorem hexNumber_renderHex (upper : Nat → Bool) {n value : Nat} (h : value < 16 ^ n) :
    hexNumber (renderHex upper n value) = value := by
  have hmap : (renderHex upper n value).map digitValue = Digits.lastDigits 16 n value := by
    apply List.ext_getElem
    · rw [List.length_map, renderHex_length, Digits.lastDigits_length]
    · intro i h₁ h₂
      rw [List.getElem_map]
      simp only [renderHex, List.getElem_mapIdx]
      exact (hexDigit_digit _ (Digits.lastDigits_lt (by decide) n value _
        (List.getElem_mem h₂)) (upper i)).2
  rw [hexNumber, hmap, Digits.written_lastDigits, Nat.mod_eq_of_lt h]

theorem hexNumber_cons (b : UInt8) (digits : List UInt8) :
    hexNumber (b :: digits) = digitValue b * 16 ^ digits.length + hexNumber digits := by
  rw [hexNumber, List.map_cons, Digits.written_cons, List.length_map, hexNumber]

theorem hexNumber_lt {n : Nat} {digits : List UInt8} (h : HexDigits n digits) :
    hexNumber digits < 16 ^ n := by
  have hsmall : ∀ d ∈ (digits.map digitValue).reverse, d < 16 := by
    intro d hd
    obtain ⟨b, hb, rfl⟩ := List.mem_map.mp (List.mem_reverse.mp hd)
    exact (hexValue_digit (h.2 b hb)).2
  have hlt := Nat.ofDigits_lt_base_pow_length (by decide : 1 < 16) hsmall
  rwa [List.length_reverse, List.length_map, h.1] at hlt

/-- One round of the hex loop appends a digit. -/
theorem hexRound {b : UInt8} (h : isHexDigit b = true) {parsed : U32}
    (hp : parsed.toNat * 2 ^ 4 < 2 ^ 32) :
    (parsed <<< 4 ||| BitVec.ofInt 32 (hexValue b)).toNat = digitValue b + parsed.toNat * 2 ^ 4 := by
  obtain ⟨hvalue, hsmall⟩ := hexValue_digit h
  have hdigit : (BitVec.ofInt 32 (hexValue b)).toNat = digitValue b := by
    rw [hvalue, BitVec.ofInt_natCast, BitVec.toNat_ofNat, Nat.mod_eq_of_lt (by omega)]
  rw [BitVec.or_comm, ← hdigit]
  exact Digits.toNat_or_shiftLeft (by rw [hdigit]; exact hsmall) hp

/-- The hex loop computes the number of its digits while the word has room for them. -/
theorem hexText_number {digits : List UInt8} (hdigits : ∀ b ∈ digits, isHexDigit b = true)
    {parsed : U32} (hroom : (parsed.toNat + 1) * 16 ^ digits.length ≤ 2 ^ 32) :
    ∃ value, hexText parsed digits = some value ∧
      value.toNat = parsed.toNat * 16 ^ digits.length + hexNumber digits := by
  induction digits generalizing parsed with
  | nil => exact ⟨parsed, rfl, by simp [hexNumber]⟩
  | cons b rest ih =>
    obtain ⟨hb, hrest⟩ := List.forall_mem_cons.mp hdigits
    have hpow : 0 < 16 ^ rest.length := Nat.pow_pos (by decide)
    have hroom : (parsed.toNat + 1) * 16 * 16 ^ rest.length ≤ 2 ^ 32 := by
      rwa [List.length_cons, Nat.pow_succ', ← Nat.mul_assoc] at hroom
    have hword : (parsed.toNat + 1) * 16 ≤ 2 ^ 32 :=
      (Nat.le_mul_of_pos_right _ hpow).trans hroom
    have hsmall : parsed.toNat * 2 ^ 4 < 2 ^ 32 := by omega
    have hround := hexRound hb hsmall
    have hnext : ((parsed <<< 4 ||| BitVec.ofInt 32 (hexValue b)).toNat + 1) * 16 ^ rest.length ≤
        2 ^ 32 := by
      have hsmall := (hexValue_digit hb).2
      exact (Nat.mul_le_mul_right _ (by omega)).trans hroom
    obtain ⟨value, htext, hvalue⟩ := ih hrest hnext
    refine ⟨value, ?_, ?_⟩
    · have hpos : ¬hexValue b < 0 := by
        rw [hexValue_neg, hb]
        decide
      rw [hexText, if_neg hpos, htext]
    · rw [hvalue, hround, hexNumber_cons, List.length_cons, Nat.pow_succ']
      ring

/-- Up to eight digits are read as their number. -/
theorem hexText_digits {n : Nat} {digits : List UInt8} (h : HexDigits n digits) (hn : n ≤ 8) :
    ∃ value, hexText 0 digits = some value ∧ value.toNat = hexNumber digits := by
  have hroom : ((0 : U32).toNat + 1) * 16 ^ digits.length ≤ 2 ^ 32 := by
    have hpow : 16 ^ digits.length ≤ 16 ^ 8 :=
      Nat.pow_le_pow_right (by decide) (by rw [h.1]; exact hn)
    simpa using hpow
  obtain ⟨value, htext, hvalue⟩ := hexText_number h.2 hroom
  exact ⟨value, htext, by simpa using hvalue⟩

/-- The code whose numbers a spelling writes. -/
def CodeShape.Means (s : CodeShape) (c : Code) : Prop :=
  c.code.toNat = hexNumber s.code ∧ c.address.toNat = hexNumber s.address ∧
    c.value.toNat = hexNumber s.value

theorem codeText_means (s : CodeShape) : ∃ c, codeText s.text = some c ∧ s.Means c := by
  obtain ⟨code, hcode, hcodeNumber⟩ := hexText_digits s.code_digits (by decide)
  obtain ⟨address, haddress, haddressNumber⟩ := hexText_digits s.address_digits (by decide)
  obtain ⟨value, hvalue, hvalueNumber⟩ := hexText_digits s.value_digits (by decide)
  refine ⟨_, codeText_text s hcode haddress hvalue, ?_, haddressNumber, hvalueNumber⟩
  have hsmall := hexNumber_lt s.code_digits
  rw [BitVec.toNat_setWidth, hcodeNumber]
  exact Nat.mod_eq_of_lt (by omega)

/-- The numbers of a spelling are those of one code. -/
theorem means_unique {s : CodeShape} {c c' : Code} (h : s.Means c) (h' : s.Means c') : c = c' := by
  obtain ⟨code, address, value⟩ := c
  obtain ⟨code', address', value'⟩ := c'
  have hcode : code = code' := BitVec.eq_of_toNat_eq (h.1.trans h'.1.symm)
  have haddress : address = address' := BitVec.eq_of_toNat_eq (h.2.1.trans h'.2.1.symm)
  have hvalue : value = value' := BitVec.eq_of_toNat_eq (h.2.2.trans h'.2.2.symm)
  rw [hcode, haddress, hvalue]

/-- A way of writing codes: the case of every digit, and the gaps. -/
structure Style where
  codeUpper : Nat → Bool
  addressUpper : Nat → Bool
  valueUpper : Nat → Bool
  gap : List UInt8
  gap' : List UInt8
  gap_spaces : Gap gap
  gap'_spaces : Gap gap'

def Style.shape (style : Style) (c : Code) : CodeShape where
  code := renderHex style.codeUpper 4 c.code.toNat
  gap := style.gap
  address := renderHex style.addressUpper 8 c.address.toNat
  gap' := style.gap'
  value := renderHex style.valueUpper 8 c.value.toNat
  code_digits := renderHex_digits _ _ _
  gap_spaces := style.gap_spaces
  address_digits := renderHex_digits _ _ _
  gap'_spaces := style.gap'_spaces
  value_digits := renderHex_digits _ _ _

theorem Style.means (style : Style) (c : Code) : (style.shape c).Means c := by
  refine ⟨?_, ?_, ?_⟩
  · have hlt := c.code.isLt
    exact (hexNumber_renderHex _ (by omega)).symm
  · have hlt := c.address.isLt
    exact (hexNumber_renderHex _ (by omega)).symm
  · have hlt := c.value.isLt
    exact (hexNumber_renderHex _ (by omega)).symm

/-- Every way of writing a code down is read back as that code. -/
theorem codeText_rendered (style : Style) (c : Code) :
    codeText (style.shape c).text = some c := by
  obtain ⟨c', htext, hmeans⟩ := codeText_means (style.shape c)
  rw [htext, means_unique hmeans (style.means c)]

/-- The part of a source before an index has the same slices up to there. -/
theorem slice_cut (source : List UInt8) (i j : Nat) :
    Cursor.slice (source.take j) i j = Cursor.slice source i j := by
  rw [Cursor.slice, Cursor.slice, List.drop_take, List.take_take, Nat.min_self]

/-- On every span the parser answers, and as if the source ended with the span; on
a span that does not end in a space it accepts exactly the spellings of a code and
reads their numbers; and it reads every way of writing a code down as that code. -/
theorem parse_code {source : List UInt8} {i j : Nat} (hij : i ≤ j) (hj : j ≤ source.length) :
    ((parseCode source i j).isSome = true ∧
        parseCode (source.take j) i j = parseCode source i j) ∧
      (Closed (Cursor.slice source i j) →
        ((∃ c, parseCode source i j = some (some c)) ↔ SpellsCode (Cursor.slice source i j)) ∧
        ∀ c, parseCode source i j = some (some c) →
          ∀ s : CodeShape, s.text = Cursor.slice source i j → s.Means c) ∧
      ∀ (style : Style) (c : Code), (style.shape c).text = Cursor.slice source i j →
        parseCode source i j = some (some c) := by
  have hparse := parseCode_eq hij hj
  have hcut : parseCode (source.take j) i j = parseCode source i j := by
    rw [hparse, parseCode_eq hij (by rw [List.length_take_of_le hj]), slice_cut]
  refine ⟨⟨by rw [hparse]; rfl, hcut⟩, ?_, ?_⟩
  · intro hclosed
    rw [hparse]
    constructor
    · rw [spellsCode_iff hclosed]
      simp only [Option.some.injEq]
    · intro c hc s hs
      obtain ⟨c', htext, hmeans⟩ := codeText_means s
      rw [hs, Option.some.inj hc] at htext
      rwa [Option.some.inj htext]
  · intro style c hs
    rw [hparse, ← hs, codeText_rendered]

/-- A selector in lower case, after a space and before a line feed. -/
theorem parse_code_selector :
    parseCode [0x20, 0x24, 0x62, 0x32, 0x30, 0x30, 0x09, 0x30, 0x30, 0x30, 0x30, 0x30, 0x30,
      0x30, 0x31, 0x20, 0x20, 0x30, 0x30, 0x30, 0x30, 0x30, 0x30, 0x30, 0x30, 0x0a] 1 25 =
      some (some ⟨0xb200, 1, 0⟩) :=
  (parse_code (by decide) (by decide)).2.2
    ⟨fun _ => false, fun _ => false, fun _ => false, [0x09], [0x20, 0x20],
      ⟨by simp, by simp [asciiSpace]⟩, ⟨by simp, by simp [asciiSpace]⟩⟩
    ⟨0xb200, 1, 0⟩ (by decide)

end VitaCheat.Psv
