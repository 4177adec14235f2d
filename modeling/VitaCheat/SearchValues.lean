import VitaCheat.Lib.BitSet
import VitaCheat.Lib.Digits
import VitaCheat.Search

/-!
# Relations on mathematical values

A query compares the little-endian numbers at an offset, read as two's
complement for the signed types. The masks and the 64-bit negation of the
source compute exactly that.
-/
namespace VitaCheat.Search

/-- The unsigned number of the `width` bytes from `offset` on. -/
def valueAt (bytes : List UInt8) (offset width : Nat) : Nat :=
  Digits.value 256 (fun i => (bytes.getD (offset + i) 0).toNat) width

/-- The number as the type reads it. -/
def ScalarType.read (type : ScalarType) (n : Nat) : Int :=
  if vcTypeIsSigned type then Digits.signed (8 * vcScalarWidth type) n else n

/-- A relation between two numbers, or between the later one and a constant. -/
def Relation.Holds (relation : Relation) (read : Nat → Int) (constant before after : Nat) : Prop :=
  match relation with
  | .equal => after = constant
  | .notEqual => after ≠ constant
  | .changed => after ≠ before
  | .unchanged => after = before
  | .increased => read before < read after
  | .decreased => read after < read before
  | .other _ => False

instance (relation : Relation) (read : Nat → Int) (constant before after : Nat) :
    Decidable (relation.Holds read constant before after) :=
  match relation with
  | .equal => inferInstanceAs (Decidable (after = constant))
  | .notEqual => inferInstanceAs (Decidable (after ≠ constant))
  | .changed => inferInstanceAs (Decidable (after ≠ before))
  | .unchanged => inferInstanceAs (Decidable (after = before))
  | .increased => inferInstanceAs (Decidable (read before < read after))
  | .decreased => inferInstanceAs (Decidable (read after < read before))
  | .other _ => inferInstanceAs (Decidable False)

/-- The relation of a query between two snapshots at an offset. -/
def Query.Holds (q : Query) (previous current : List UInt8) (offset : Nat) : Prop :=
  q.relation.Holds q.type.read (q.valueBits.toNat % 256 ^ vcScalarWidth q.type)
    (valueAt previous offset (vcScalarWidth q.type)) (valueAt current offset (vcScalarWidth q.type))

instance (q : Query) (previous current : List UInt8) (offset : Nat) :
    Decidable (q.Holds previous current offset) :=
  inferInstanceAs (Decidable (q.relation.Holds _ _ _ _))

theorem valueAt_lt (bytes : List UInt8) (offset width : Nat) :
    valueAt bytes offset width < 256 ^ width :=
  Digits.value_lt fun i _ => (bytes.getD (offset + i) 0).toNat_lt

theorem scalarWidth_cases (type : ScalarType) (h : vcScalarWidth type ≠ 0) :
    vcScalarWidth type = 1 ∨ vcScalarWidth type = 2 ∨ vcScalarWidth type = 4 := by
  cases type <;> simp_all [vcScalarWidth]

theorem scalarWidth_le (type : ScalarType) : vcScalarWidth type ≤ 4 := by
  cases type <;> simp [vcScalarWidth]

/-- The read loop appends one byte above the value read so far. -/
theorem readLoop_value (bytes : List UInt8) (offset remaining index : Nat) (value : U32)
    (hwidth : index + remaining ≤ 4) (hin : offset + (index + remaining) ≤ bytes.length)
    (hv : value.toNat = valueAt bytes offset index) :
    ∃ v, readLoop bytes offset remaining index value = some v ∧
      v.toNat = valueAt bytes offset (index + remaining) := by
  induction remaining generalizing index value with
  | zero => exact ⟨value, rfl, hv⟩
  | succ remaining ih =>
    have hi : offset + index < bytes.length := by omega
    have hbyte : bytes[offset + index].toNat < 2 ^ 8 := bytes[offset + index].toNat_lt
    have hpow : (256 : Nat) ^ index = 2 ^ (index * 8) := by
      rw [Nat.mul_comm, Nat.pow_mul]
    have hroom : 2 ^ (index * 8) * 2 ^ 8 ≤ 2 ^ 32 := by
      rw [← Nat.pow_add]
      exact Nat.pow_le_pow_right (by decide) (by omega)
    have hset : (bytes[offset + index].toBitVec.setWidth 32).toNat =
        bytes[offset + index].toNat := by
      rw [BitVec.toNat_setWidth, UInt8.toNat_toBitVec]
      exact Nat.mod_eq_of_lt (Nat.lt_trans hbyte (by decide))
    have hlow : value.toNat < 2 ^ (index * 8) := by
      rw [hv, ← hpow]
      exact valueAt_lt bytes offset index
    have hhigh : (bytes[offset + index].toBitVec.setWidth 32).toNat * 2 ^ (index * 8) < 2 ^ 32 := by
      rw [hset, Nat.mul_comm]
      exact Nat.lt_of_lt_of_le
        (Nat.mul_lt_mul_of_pos_left hbyte (Nat.two_pow_pos _)) hroom
    have hnext : (value ||| (bytes[offset + index].toBitVec.setWidth 32 <<< (index * 8))).toNat =
        valueAt bytes offset (index + 1) := by
      rw [Digits.toNat_or_shiftLeft hlow hhigh, hset, hv, valueAt, valueAt, Digits.value_succ, hpow]
      simp [List.getD, hi]
    obtain ⟨v, hrun, hval⟩ := ih (index + 1) _ (by omega) (by omega) hnext
    refine ⟨v, ?_, ?_⟩
    · rw [readLoop, List.getElem?_eq_getElem hi]
      exact hrun
    · rw [hval]
      congr 1
      omega

/-- A read inside the snapshot succeeds and yields the number there. -/
theorem readLittleEndian_value (bytes : List UInt8) (offset width : Nat) (hwidth : width ≤ 4)
    (hin : offset + width ≤ bytes.length) :
    ∃ v, vcReadLittleEndian bytes offset width = some v ∧ v.toNat = valueAt bytes offset width := by
  obtain ⟨v, hrun, hval⟩ :=
    readLoop_value bytes offset width 0 0 (by omega) (by omega) (by simp [valueAt])
  exact ⟨v, hrun, by rw [hval, Nat.zero_add]⟩

/-- Masking keeps the value modulo the width. -/
theorem masked_toNat {width : Nat} (hw : width = 1 ∨ width = 2 ∨ width = 4) (v : U32) :
    (v &&& vcWidthMask width).toNat = v.toNat % 256 ^ width := by
  rw [BitVec.toNat_and]
  rcases hw with rfl | rfl | rfl
  · exact Nat.and_two_pow_sub_one_eq_mod v.toNat 8
  · exact Nat.and_two_pow_sub_one_eq_mod v.toNat 16
  · exact Nat.and_two_pow_sub_one_eq_mod v.toNat 32

theorem mask_toNat {width : Nat} (hw : width = 1 ∨ width = 2 ∨ width = 4) :
    ((vcWidthMask width).setWidth 64).toNat = 2 ^ (width * 8) - 1 := by
  rcases hw with rfl | rfl | rfl <;> rfl

/-- The top bit of a value of `k + 1` bits. -/
theorem top_bit {k : Nat} {v : BitVec 64} (hv : v.toNat < 2 ^ (k + 1)) :
    v &&& (1#64 <<< k) ≠ 0#64 ↔ 2 ^ k ≤ v.toNat := by
  have hmem : v &&& (1#64 <<< k) ≠ 0#64 ↔ BitSet.mem v k = true := by
    simp [BitSet.mem]
  rw [hmem, BitSet.mem_eq_getLsbD, BitVec.getLsbD, Nat.testBit_eq_decide_div_mod_eq,
    decide_eq_true_iff]
  have hsucc : 2 ^ (k + 1) = 2 * 2 ^ k := by rw [Nat.pow_succ]; omega
  constructor
  · intro hbit
    by_contra hlt
    rw [Nat.div_eq_of_lt (by omega)] at hbit
    omega
  · intro hle
    have : v.toNat / 2 ^ k = 1 := by
      apply Nat.div_eq_of_lt_le <;> omega
    rw [this]

/-- The signed value of masked bits is their two's complement reading. -/
theorem signedValue_eq {width : Nat} (hw : width = 1 ∨ width = 2 ∨ width = 4) {bits : U32}
    (hb : bits.toNat < 256 ^ width) :
    vcSignedValue bits width = Digits.signed (8 * width) bits.toNat := by
  have hpow : (256 : Nat) ^ width = 2 ^ (width * 8) := by
    rw [Nat.mul_comm, Nat.pow_mul]
  have hle : 2 ^ (width * 8) ≤ 2 ^ 32 := Nat.pow_le_pow_right (by decide) (by omega)
  rw [hpow] at hb
  have hmask := mask_toNat hw
  have hvalue : (bits.setWidth 64 &&& (vcWidthMask width).setWidth 64).toNat = bits.toNat := by
    rw [BitVec.toNat_and, hmask, Nat.and_two_pow_sub_one_eq_mod, BitVec.toNat_setWidth,
      Nat.mod_eq_of_lt (Nat.lt_trans bits.isLt (by decide)), Nat.mod_eq_of_lt hb]
  have htop := top_bit (k := width * 8 - 1)
    (v := bits.setWidth 64 &&& (vcWidthMask width).setWidth 64) (by
      rw [hvalue, Nat.sub_add_cancel (by omega)]
      exact hb)
  rw [hvalue] at htop
  rw [Nat.mul_comm 8 width]
  unfold vcSignedValue Digits.signed
  simp only [htop]
  split
  · next hneg =>
    have hsum : (((vcWidthMask width).setWidth 64 -
        (bits.setWidth 64 &&& (vcWidthMask width).setWidth 64)) + 1).toNat =
          2 ^ (width * 8) - bits.toNat := by
      rw [BitVec.toNat_add, BitVec.toNat_sub, hmask, hvalue]
      have hone : (1 : BitVec 64).toNat = 1 := rfl
      rw [hone]
      omega
    rw [BitVec.toInt_eq_toNat_of_lt (by rw [hsum]; omega), hsum, Int.natCast_sub (Nat.le_of_lt hb)]
    push_cast
    ring
  · rw [BitVec.toInt_eq_toNat_of_lt (by rw [hvalue]; omega), hvalue]

/-- The code's relation test agrees with the relation on the numbers there. -/
theorem matches_iff {q : Query} (previous current : List UInt8) {offset : Nat} {before after : U32}
    (hw : vcScalarWidth q.type ≠ 0)
    (hbefore : q.relation ≠ .equal → q.relation ≠ .notEqual →
      before.toNat = valueAt previous offset (vcScalarWidth q.type))
    (hafter : after.toNat = valueAt current offset (vcScalarWidth q.type)) :
    vcMatches q.type q.relation before after q.valueBits (vcScalarWidth q.type) = true ↔
      q.Holds previous current offset := by
  obtain ⟨type, relation, constant, stride⟩ := q
  dsimp only at *
  have hcases := scalarWidth_cases type hw
  have hmasked : ∀ {v : U32} {bytes : List UInt8},
      v.toNat = valueAt bytes offset (vcScalarWidth type) →
        v &&& vcWidthMask (vcScalarWidth type) = v := by
    intro v bytes hv
    apply BitVec.eq_of_toNat_eq
    rw [masked_toNat hcases, hv, Nat.mod_eq_of_lt (valueAt_lt _ _ _)]
  have hread : ∀ {v : U32} {bytes : List UInt8},
      v.toNat = valueAt bytes offset (vcScalarWidth type) →
        type.read (valueAt bytes offset (vcScalarWidth type)) =
          if vcTypeIsSigned type then vcSignedValue v (vcScalarWidth type) else v.toNat := by
    intro v bytes hv
    have hlt := valueAt_lt bytes offset (vcScalarWidth type)
    rw [← hv] at hlt ⊢
    rw [ScalarType.read, signedValue_eq hcases hlt]
  unfold vcMatches Query.Holds Relation.Holds
  simp only [hmasked hafter]
  cases relation with
  | equal =>
    simp only [beq_iff_eq]
    rw [← BitVec.toNat_inj, masked_toNat hcases, hafter]
  | notEqual =>
    simp only [bne_iff_ne, ne_eq]
    rw [← BitVec.toNat_inj, masked_toNat hcases, hafter]
  | changed =>
    have hb := hbefore (by simp) (by simp)
    simp only [hmasked hb, bne_iff_ne, ne_eq]
    rw [← BitVec.toNat_inj, hafter, hb]
  | unchanged =>
    have hb := hbefore (by simp) (by simp)
    simp only [hmasked hb, beq_iff_eq]
    rw [← BitVec.toNat_inj, hafter, hb]
  | increased =>
    have hb := hbefore (by simp) (by simp)
    simp only [hmasked hb, hread hafter, hread hb]
    split <;> simp [BitVec.lt_def]
  | decreased =>
    have hb := hbefore (by simp) (by simp)
    simp only [hmasked hb, hread hafter, hread hb]
    split <;> simp [BitVec.lt_def]
  | other excess => simp

end VitaCheat.Search
