import Mathlib.Data.List.Sort
import VitaCheat.SearchIndependence

/-!
# Searching a memory that is written to

The snapshots of a session are taken from a memory that changes by stores. Seen
as 32-bit words such a memory is a map that a store updates, and a session finds
the words whose history satisfies its queries. The stores are those of
`write_u32_le` in `main.c`.
-/
namespace VitaCheat.Search

/-- A store of one byte, which must lie in the buffer. -/
def storeByte (bytes : List UInt8) (offset : Nat) (value : UInt8) : Option (List UInt8) :=
  if offset < bytes.length then some (bytes.set offset value) else none

/-- The cast `(uint8_t)(value >> shift)`. -/
def byteOf (value : U32) (shift : Nat) : UInt8 := UInt8.ofBitVec ((value >>> shift).setWidth 8)

def writeU32Le (bytes : List UInt8) (offset : Nat) (value : U32) : Option (List UInt8) := do
  let bytes ← storeByte bytes offset (byteOf value 0)
  let bytes ← storeByte bytes (offset + 1) (byteOf value 8)
  let bytes ← storeByte bytes (offset + 2) (byteOf value 16)
  storeByte bytes (offset + 3) (byteOf value 24)

theorem byteOf_toNat (value : U32) (i : Nat) :
    (byteOf value (8 * i)).toNat = value.toNat / 256 ^ i % 256 := by
  have hpow : (256 : Nat) ^ i = 2 ^ (8 * i) := (Nat.pow_mul 2 8 i).symm
  rw [byteOf, UInt8.toNat_ofBitVec, BitVec.toNat_setWidth, BitVec.toNat_ushiftRight,
    Nat.shiftRight_eq_div_pow, hpow]

/-- The bytes after a store of a word. -/
def withWord (bytes : List UInt8) (offset : Nat) (value : U32) : List UInt8 :=
  (((bytes.set offset (byteOf value 0)).set (offset + 1) (byteOf value 8)).set (offset + 2)
    (byteOf value 16)).set (offset + 3) (byteOf value 24)

@[simp] theorem withWord_length (bytes : List UInt8) (offset : Nat) (value : U32) :
    (withWord bytes offset value).length = bytes.length := by
  simp [withWord]

theorem storeByte_eq {bytes : List UInt8} {offset : Nat} (value : UInt8)
    (h : offset < bytes.length) : storeByte bytes offset value = some (bytes.set offset value) :=
  if_pos h

theorem writeU32Le_eq {bytes : List UInt8} {offset : Nat} (value : U32)
    (h : offset + 4 ≤ bytes.length) :
    writeU32Le bytes offset value = some (withWord bytes offset value) := by
  have h0 : offset < bytes.length := by omega
  have h1 : offset + 1 < (bytes.set offset (byteOf value 0)).length := by
    rw [List.length_set]
    omega
  have h2 : offset + 2 < ((bytes.set offset (byteOf value 0)).set (offset + 1)
      (byteOf value 8)).length := by
    rw [List.length_set, List.length_set]
    omega
  have h3 : offset + 3 < (((bytes.set offset (byteOf value 0)).set (offset + 1)
      (byteOf value 8)).set (offset + 2) (byteOf value 16)).length := by
    rw [List.length_set, List.length_set, List.length_set]
    omega
  simp only [writeU32Le, storeByte_eq _ h0, storeByte_eq _ h1, storeByte_eq _ h2,
    storeByte_eq _ h3, Option.bind_eq_bind, Option.bind_some]
  rfl

/-- The four bytes of the word are stored in ascending order. -/
theorem withWord_inside {bytes : List UInt8} {offset : Nat} (value : U32)
    (h : offset + 4 ≤ bytes.length) {i : Nat} (hi : i < 4) :
    ((withWord bytes offset value).getD (offset + i) 0).toNat = value.toNat / 256 ^ i % 256 := by
  rw [← byteOf_toNat]
  have hcases : i = 0 ∨ i = 1 ∨ i = 2 ∨ i = 3 := by omega
  have h0 : offset < bytes.length := by omega
  have h1 : offset + 1 < bytes.length := by omega
  have h2 : offset + 2 < bytes.length := by omega
  have h3 : offset + 3 < bytes.length := by omega
  rcases hcases with rfl | rfl | rfl | rfl
  · simp [withWord, h0]
  · simp [withWord, h1]
  · simp [withWord, h2]
  · simp [withWord, h3]

theorem withWord_outside (bytes : List UInt8) {offset : Nat} (value : U32) {j : Nat}
    (hj : j < offset ∨ offset + 4 ≤ j) :
    (withWord bytes offset value).getD j 0 = bytes.getD j 0 := by
  have hne : offset ≠ j ∧ offset + 1 ≠ j ∧ offset + 2 ≠ j ∧ offset + 3 ≠ j := by omega
  obtain ⟨h0, h1, h2, h3⟩ := hne
  simp only [withWord, List.getD_eq_getElem?_getD, List.getElem?_set_ne h3, List.getElem?_set_ne h2,
    List.getElem?_set_ne h1, List.getElem?_set_ne h0]

/-- A stored word reads back. -/
theorem valueAt_withWord {bytes : List UInt8} {offset : Nat} (value : U32)
    (h : offset + 4 ≤ bytes.length) :
    valueAt (withWord bytes offset value) offset 4 = value.toNat := by
  have hdigits : valueAt (withWord bytes offset value) offset 4 =
      Digits.value 256 (fun i => value.toNat / 256 ^ i % 256) 4 :=
    Digits.value_congr fun i hi => withWord_inside value h hi
  rw [hdigits, Digits.value_digits]
  exact Nat.mod_eq_of_lt value.isLt

/-- Other windows read what they did. -/
theorem valueAt_frame (bytes : List UInt8) {offset : Nat} (value : U32) {o width : Nat}
    (ho : o + width ≤ offset ∨ offset + 4 ≤ o) :
    valueAt (withWord bytes offset value) o width = valueAt bytes o width := by
  apply Digits.value_congr
  intro i hi
  rw [withWord_outside bytes value (by omega)]

/-- The aligned word of an index, zero past the end. -/
def wordAt (bytes : List UInt8) (k : Nat) : U32 := BitVec.ofNat 32 (valueAt bytes (4 * k) 4)

theorem wordAt_toNat (bytes : List UInt8) (k : Nat) :
    (wordAt bytes k).toNat = valueAt bytes (4 * k) 4 := by
  rw [wordAt, BitVec.toNat_ofNat]
  exact Nat.mod_eq_of_lt (valueAt_lt bytes (4 * k) 4)

/-- A store of a word at the index of the word. -/
structure Store where
  index : Nat
  value : U32
  deriving DecidableEq, Repr

/-- What a store does to a memory of words. -/
def Store.apply (w : Nat → U32) (s : Store) : Nat → U32 := Function.update w s.index s.value

/-- The calls of `write_u32_le` for a list of stores. -/
def writeStores (bytes : List UInt8) (stores : List Store) : Option (List UInt8) :=
  stores.foldlM (fun bytes s => writeU32Le bytes (4 * s.index) s.value) bytes

theorem wordAt_withWord {bytes : List UInt8} {s : Store} (h : 4 * s.index + 4 ≤ bytes.length) :
    wordAt (withWord bytes (4 * s.index) s.value) = s.apply (wordAt bytes) := by
  funext k
  by_cases hk : k = s.index
  · subst hk
    rw [Store.apply, Function.update_self, wordAt, valueAt_withWord s.value h]
    rw [BitVec.ofNat_toNat, BitVec.setWidth_eq]
  · rw [Store.apply, Function.update_of_ne hk, wordAt, wordAt, valueAt_frame _ _ (by omega)]

/-- Stores inside a memory succeed, and on words they are updates. -/
theorem writeStores_words {bytes : List UInt8} {stores : List Store}
    (h : ∀ s ∈ stores, 4 * s.index + 4 ≤ bytes.length) :
    ∃ bytes', writeStores bytes stores = some bytes' ∧ bytes'.length = bytes.length ∧
      wordAt bytes' = stores.foldl Store.apply (wordAt bytes) := by
  induction stores generalizing bytes with
  | nil => exact ⟨bytes, rfl, rfl, rfl⟩
  | cons s rest ih =>
    have hfirst := h s (List.mem_cons_self ..)
    have hlater : ∀ x ∈ rest,
        4 * x.index + 4 ≤ (withWord bytes (4 * s.index) s.value).length := by
      intro x hx
      rw [withWord_length]
      exact h x (List.mem_cons_of_mem _ hx)
    obtain ⟨bytes', hrun, hlength, hwords⟩ := ih hlater
    refine ⟨bytes', ?_, ?_, ?_⟩
    · rw [writeStores, List.foldlM_cons, writeU32Le_eq s.value hfirst]
      exact hrun
    · rw [hlength, withWord_length]
    · rw [hwords, wordAt_withWord hfirst, List.foldl_cons]

/-- A word that no store names keeps its value. -/
theorem stores_untouched {stores : List Store} {w : Nat → U32} {k : Nat}
    (h : ∀ s ∈ stores, s.index ≠ k) : stores.foldl Store.apply w k = w k := by
  induction stores generalizing w with
  | nil => rfl
  | cons s rest ih =>
    rw [List.foldl_cons, ih fun x hx => h x (List.mem_cons_of_mem _ hx), Store.apply,
      Function.update_of_ne (h s (List.mem_cons_self ..)).symm]

theorem storeByte_some {bytes bytes' : List UInt8} {offset : Nat} {value : UInt8}
    (h : storeByte bytes offset value = some bytes') :
    offset < bytes.length ∧ bytes'.length = bytes.length := by
  rw [storeByte] at h
  split at h
  · next hlt =>
    obtain rfl := Option.some.inj h
    exact ⟨hlt, List.length_set⟩
  · cases h

/-- A store of a word that succeeds lies in the buffer. -/
theorem writeU32Le_some {bytes bytes' : List UInt8} {offset : Nat} {value : U32}
    (h : writeU32Le bytes offset value = some bytes') :
    offset + 4 ≤ bytes.length ∧ bytes' = withWord bytes offset value := by
  have hroom : offset + 4 ≤ bytes.length := by
    obtain ⟨b1, h1, h⟩ := Option.bind_eq_some_iff.mp h
    obtain ⟨b2, h2, h⟩ := Option.bind_eq_some_iff.mp h
    obtain ⟨b3, h3, h4⟩ := Option.bind_eq_some_iff.mp h
    have hlength := (storeByte_some h1).2
    have hlength' := (storeByte_some h2).2
    have hlength'' := (storeByte_some h3).2
    have hlast := (storeByte_some h4).1
    omega
  refine ⟨hroom, ?_⟩
  rw [writeU32Le_eq value hroom] at h
  exact (Option.some.inj h).symm

/-- Stores that succeed lie in the buffer. -/
theorem writeStores_inside {bytes bytes' : List UInt8} {stores : List Store}
    (h : writeStores bytes stores = some bytes') :
    ∀ s ∈ stores, 4 * s.index + 4 ≤ bytes.length := by
  induction stores generalizing bytes with
  | nil => intro s hs; cases hs
  | cons x rest ih =>
    rw [writeStores, List.foldlM_cons] at h
    obtain ⟨middle, hx, hrest⟩ := Option.bind_eq_some_iff.mp h
    obtain ⟨hroom, rfl⟩ := writeU32Le_some hx
    intro s hs
    rcases List.mem_cons.mp hs with rfl | hs
    · exact hroom
    · have hlater := ih hrest s hs
      rwa [withWord_length] at hlater

/-- Each snapshot is the one before it after a batch of stores. -/
inductive Evolves : Scan → List Scan → List (List Store) → Prop
  | last {s : Scan} : Evolves s [] []
  | next {s t : Scan} {rest : List Scan} {stores : List Store} {batches : List (List Store)}
      (hstores : writeStores s.snapshot.value stores = some t.snapshot.value)
      (hrest : Evolves t rest batches) : Evolves s (t :: rest) (stores :: batches)

/-- The relation of a query between two values of a word. -/
def Query.HoldsWord (q : Query) (before after : U32) : Prop :=
  q.relation.Holds q.type.read q.valueBits.toNat before.toNat after.toNat

instance (q : Query) (before after : U32) : Decidable (q.HoldsWord before after) :=
  inferInstanceAs (Decidable (q.relation.Holds _ _ _ _))

/-- The history of a word under batches of stores satisfies the queries. -/
def WordRefined (k : Nat) : (Nat → U32) → List Query → List (List Store) → Prop
  | w, q :: queries, stores :: batches =>
    q.HoldsWord (w k) (stores.foldl Store.apply w k) ∧
      WordRefined k (stores.foldl Store.apply w) queries batches
  | _, _, _ => True

instance WordRefined.decidable (k : Nat) :
    (w : Nat → U32) → (queries : List Query) → (batches : List (List Store)) →
      Decidable (WordRefined k w queries batches)
  | w, q :: queries, stores :: batches =>
    have := WordRefined.decidable k (stores.foldl Store.apply w) queries batches
    inferInstanceAs (Decidable (q.HoldsWord (w k) (stores.foldl Store.apply w k) ∧
      WordRefined k (stores.foldl Store.apply w) queries batches))
  | _, [], _ => inferInstanceAs (Decidable True)
  | _, _ :: _, [] => inferInstanceAs (Decidable True)

/-- The offsets of the words that a session has to find. -/
def foundWords (size : Nat) (q : Query) (w : Nat → U32) (queries : List Query)
    (batches : List (List Store)) : List Nat :=
  ((List.range (size / 4)).filter fun k =>
    decide (q.stride.toNat ∣ 4 * k ∧ q.HoldsWord 0 (w k) ∧ WordRefined k w queries batches)).map
      (4 * ·)

/-- On aligned words a query compares words. -/
theorem holds_word {q : Query} (hw : vcScalarWidth q.type = 4) (previous current : List UInt8)
    (k : Nat) :
    q.Holds previous current (4 * k) ↔ q.HoldsWord (wordAt previous k) (wordAt current k) := by
  have hbits : q.valueBits.toNat % 256 ^ 4 = q.valueBits.toNat :=
    Nat.mod_eq_of_lt q.valueBits.isLt
  rw [Query.Holds, Query.HoldsWord, hw, hbits, wordAt_toNat, wordAt_toNat]

theorem wordAt_nil (k : Nat) : wordAt [] k = 0 := by
  simp [wordAt, valueAt, Digits.value]

/-- The refine queries of a session read the history of the words. -/
theorem refinedBy_words {first : Scan} {rest : List Scan} {batches : List (List Store)}
    (h : Evolves first rest batches) (hw : ∀ s ∈ rest, vcScalarWidth s.query.value.type = 4)
    (k : Nat) :
    RefinedBy (4 * k) first rest ↔
      WordRefined k (wordAt first.snapshot.value) (rest.map (·.query.value)) batches := by
  induction h with
  | last => exact Iff.rfl
  | @next s t rest stores batches hstores _ ih =>
    obtain ⟨bytes, hrun, -, hwords⟩ := writeStores_words (writeStores_inside hstores)
    obtain rfl := Option.some.inj (hstores.symm.trans hrun)
    rw [RefinedBy, List.map_cons, WordRefined, ← hwords,
      holds_word (hw t (List.mem_cons_self ..)),
      ih fun x hx => hw x (List.mem_cons_of_mem _ hx)]

/-- On a memory of words the surviving offsets are those of the words found. -/
theorem survivors_words {size : Nat} {first : Scan} {rest : List Scan}
    {batches : List (List Store)} (h : Evolves first rest batches)
    (hw : ∀ s ∈ first :: rest, vcScalarWidth s.query.value.type = 4)
    (hstride : 4 ∣ first.query.value.stride.toNat) :
    survivors size first rest = foundWords size first.query.value
      (wordAt first.snapshot.value) (rest.map (·.query.value)) batches := by
  have hfirst := hw first (List.mem_cons_self ..)
  have hrest := refinedBy_words h fun s hs => hw s (List.mem_cons_of_mem _ hs)
  have hincreasing : (foundWords size first.query.value (wordAt first.snapshot.value)
      (rest.map (·.query.value)) batches).Pairwise (· < ·) := by
    apply (List.pairwise_lt_range.sublist List.filter_sublist).map
    intro a b hab
    omega
  apply ((initialMatches_increasing _ _ _).sublist List.filter_sublist).eq_of_mem_iff hincreasing
  intro o
  simp only [initialMatches, foundWords, List.mem_map, List.mem_filter, List.mem_range,
    decide_eq_true_eq, hfirst]
  constructor
  · rintro ⟨⟨-, hdvd, hroom, hholds⟩, hrefined⟩
    obtain ⟨k, rfl⟩ := hstride.trans hdvd
    rw [holds_word hfirst, wordAt_nil] at hholds
    exact ⟨k, ⟨by omega, hdvd, hholds, (hrest k).mp hrefined⟩, rfl⟩
  · rintro ⟨k, ⟨hk, hdvd, hholds, hrefined⟩, rfl⟩
    rw [holds_word hfirst, wordAt_nil]
    exact ⟨⟨by omega, hdvd, by omega, hholds⟩, (hrest k).mpr hrefined⟩

/-- A query that a word can only pass by changing. -/
def Relation.moves : Relation → Bool
  | .changed | .increased | .decreased => true
  | _ => false

theorem not_moved {q : Query} (h : q.relation.moves = true) (v : U32) : ¬q.HoldsWord v v := by
  unfold Query.HoldsWord Relation.Holds
  cases hrel : q.relation <;> simp [hrel, Relation.moves] at h ⊢

/-- A word that passes such a query was stored to in the batch before it. -/
theorem refined_stored {k : Nat} {w : Nat → U32} {queries : List Query}
    {batches : List (List Store)} (h : WordRefined k w queries batches) {i : Nat} {q : Query}
    {stores : List Store} (hq : queries[i]? = some q) (hb : batches[i]? = some stores)
    (hmoves : q.relation.moves = true) : ∃ s ∈ stores, s.index = k := by
  induction queries generalizing w batches i with
  | nil => cases hq
  | cons q₀ queries ih =>
    cases batches with
    | nil => cases hb
    | cons stores₀ batches =>
      rw [WordRefined] at h
      cases i with
      | zero =>
        obtain rfl := Option.some.inj hq
        obtain rfl := Option.some.inj hb
        by_contra hnone
        have hsame := stores_untouched (w := w) fun s hs heq => hnone ⟨s, hs, heq⟩
        rw [hsame] at h
        exact not_moved hmoves _ h.1
      | succ i => exact ih h.2 hq hb

/-- A session of word queries over a memory that changes by stores finds the words
whose history satisfies the queries, and reports as changed only what was stored to. -/
theorem search_stores (p : Platform) (size : Nat) (m : Memory) (first : Scan) (rest : List Scan)
    (batches : List (List Store)) (h : Session p size m first rest)
    (hmemory : Evolves first rest batches)
    (hw : ∀ s ∈ first :: rest, vcScalarWidth s.query.value.type = 4)
    (hstride : 4 ∣ first.query.value.stride.toNat) :
    (Trace.final (refineStep p size) (firstStage p size m first) rest).stored.Sublist
        (foundWords size first.query.value (wordAt first.snapshot.value)
          (rest.map (·.query.value)) batches) ∧
      ((initialStep p size m first).1 = some .ok →
        (∀ e ∈ Trace.run (refineStep p size) (firstStage p size m first) rest,
          e.result = some .ok) →
        (Trace.final (refineStep p size) (firstStage p size m first) rest).stored =
          foundWords size first.query.value (wordAt first.snapshot.value)
            (rest.map (·.query.value)) batches) ∧
      ∀ o ∈ (Trace.final (refineStep p size) (firstStage p size m first) rest).stored,
        ∀ (i : Nat) (s : Scan) (stores : List Store), rest[i]? = some s →
          batches[i]? = some stores → s.query.value.relation.moves = true →
            ∃ x ∈ stores, 4 * x.index = o := by
  have hsession := session_survivors h
  rw [survivors_words hmemory hw hstride] at hsession
  refine ⟨hsession.1, hsession.2, ?_⟩
  intro o ho i s stores hs hb hmoves
  obtain ⟨k, hk, rfl⟩ := List.mem_map.mp (hsession.1.subset ho)
  obtain ⟨-, -, hrefined⟩ := of_decide_eq_true (List.mem_filter.mp hk).2
  have hq : (rest.map (·.query.value))[i]? = some s.query.value := by
    rw [List.getElem?_map, hs]
    rfl
  obtain ⟨x, hx, rfl⟩ := refined_stored hrefined hq hb hmoves
  exact ⟨x, hx, rfl⟩

/-- Two words of which one is doubled, and a scan for what has grown. -/
def wordsProbe : Scan where
  snapshot := ⟨0x1000, [5, 0, 0, 0, 5, 0, 0, 0]⟩
  query := ⟨0x3000, ⟨.s32, .equal, 5, 4⟩⟩
  out := ⟨0x4000, 2, 0x5000, 0x5008⟩

def wordsGrown : Scan where
  snapshot := ⟨0x2000, [5, 0, 0, 0, 10, 0, 0, 0]⟩
  query := ⟨0x3000, ⟨.s32, .increased, 0, 4⟩⟩
  out := ⟨0x4000, 2, 0x5000, 0x5008⟩

theorem search_stores_doubled :
    (Trace.final (refineStep ilp32 8) (firstStage ilp32 8 blank wordsProbe) [wordsGrown]).stored =
      [4] := by
  have hsession : Session ilp32 8 blank wordsProbe [wordsGrown] :=
    { size_le := by decide
      snapshots := by decide
      relation := by decide
      widths := by decide
      initial := ⟨_, rfl⟩
      admitted := by
        simp only [Trace.run_cons, Trace.run_nil, List.mem_singleton, forall_eq]
        exact ⟨⟨_, rfl⟩, by decide⟩ }
  have hmemory : Evolves wordsProbe [wordsGrown] [[⟨1, 10⟩]] := .next (by decide) .last
  obtain ⟨-, hall, -⟩ := search_stores ilp32 8 blank wordsProbe [wordsGrown] [[⟨1, 10⟩]] hsession
    hmemory (by decide) (by decide)
  rw [hall (by decide) (by
    simp only [Trace.run_cons, Trace.run_nil, List.mem_singleton, forall_eq]
    decide)]
  decide

end VitaCheat.Search
