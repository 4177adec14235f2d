import VitaCheat.SearchRefine

/-!
# The relations among refine results

The ordered relations compare readings of a type, the equality relations compare
the unsigned numbers. Reading is injective at every width, so the two agree on
what is equal and the results of the relations partition the candidates.
-/
namespace VitaCheat.Search

theorem read_inj {type : ScalarType} {m n : Nat} (hm : m < 256 ^ vcScalarWidth type)
    (hn : n < 256 ^ vcScalarWidth type) (h : type.read m = type.read n) : m = n := by
  have hpow : (256 : Nat) ^ vcScalarWidth type = 2 ^ (8 * vcScalarWidth type) :=
    (Nat.pow_mul 2 8 _).symm
  rw [hpow] at hm hn
  unfold ScalarType.read at h
  split at h
  · exact Digits.signed_inj hm hn h
  · exact Int.ofNat.inj h

/-- A query with another relation and constant. -/
def Query.ask (q : Query) (relation : Relation) (bits : U32) : Query :=
  { q with relation := relation, valueBits := bits }

variable {q : Query} {previous current : List UInt8} {offset : Nat} {bits : U32}

theorem increased_iff : (q.ask .increased bits).Holds previous current offset ↔
    q.type.read (valueAt previous offset (vcScalarWidth q.type)) <
      q.type.read (valueAt current offset (vcScalarWidth q.type)) := Iff.rfl

theorem decreased_iff : (q.ask .decreased bits).Holds previous current offset ↔
    q.type.read (valueAt current offset (vcScalarWidth q.type)) <
      q.type.read (valueAt previous offset (vcScalarWidth q.type)) := Iff.rfl

/-- An unchanged number is one that reads the same. -/
theorem unchanged_iff : (q.ask .unchanged bits).Holds previous current offset ↔
    q.type.read (valueAt current offset (vcScalarWidth q.type)) =
      q.type.read (valueAt previous offset (vcScalarWidth q.type)) := by
  constructor
  · intro h
    have heq : valueAt current offset (vcScalarWidth q.type) =
        valueAt previous offset (vcScalarWidth q.type) := h
    rw [heq]
  · exact read_inj (valueAt_lt _ _ _) (valueAt_lt _ _ _)

theorem changed_iff : (q.ask .changed bits).Holds previous current offset ↔
    ¬ (q.ask .unchanged bits).Holds previous current offset := Iff.rfl

theorem notEqual_iff : (q.ask .notEqual bits).Holds previous current offset ↔
    ¬ (q.ask .equal bits).Holds previous current offset := Iff.rfl

theorem unchanged_swap : (q.ask .unchanged bits).Holds previous current offset ↔
    (q.ask .unchanged bits).Holds current previous offset := eq_comm

theorem changed_swap : (q.ask .changed bits).Holds previous current offset ↔
    (q.ask .changed bits).Holds current previous offset := ne_comm

/-- The constant counts modulo the width of the type. -/
theorem holds_congr (relation : Relation) {bits bits' : U32}
    (h : bits.toNat % 256 ^ vcScalarWidth q.type = bits'.toNat % 256 ^ vcScalarWidth q.type) :
    (q.ask relation bits).Holds previous current offset ↔
      (q.ask relation bits').Holds previous current offset := by
  unfold Query.Holds Query.ask
  rw [h]

/-- The offsets that a refine with the relation and constant leaves. -/
def resultList (q : Query) (previous current : List UInt8) (cs : List U32) (relation : Relation)
    (bits : U32) : List Nat :=
  (refineMatches (q.ask relation bits) previous current cs).map BitVec.toNat

theorem mem_resultList {cs : List U32} {relation : Relation} {o : Nat} :
    o ∈ resultList q previous current cs relation bits ↔
      o ∈ cs.map BitVec.toNat ∧ (q.ask relation bits).Holds previous current o := by
  simp only [resultList, refineMatches, List.mem_map, List.mem_filter, decide_eq_true_eq]
  constructor
  · rintro ⟨c, ⟨hc, hh⟩, rfl⟩
    exact ⟨⟨c, hc, rfl⟩, hh⟩
  · rintro ⟨⟨c, hc, rfl⟩, hh⟩
    exact ⟨c, ⟨hc, hh⟩, rfl⟩

/-- Relations that hold at the same offsets leave the same list. -/
theorem resultList_congr {cs : List U32} {relation relation' : Relation} {bits' : U32}
    {previous' current' : List UInt8}
    (h : ∀ o, (q.ask relation bits).Holds previous current o ↔
      (q.ask relation' bits').Holds previous' current' o) :
    resultList q previous current cs relation bits =
      resultList q previous' current' cs relation' bits' := by
  unfold resultList refineMatches
  congr 1
  apply List.filter_congr
  intro c _
  rw [decide_eq_decide]
  exact h c.toNat

/-- How the results of the six relations fit together, for every constant, and
what exchanging the snapshots does to them. -/
structure RelationAlgebra (cs : List Nat) (lists swapped : Relation → U32 → List Nat) : Prop where
  sublist : ∀ relation bits, (lists relation bits).Sublist cs
  cover : ∀ bits o, o ∈ cs ↔ o ∈ lists .increased bits ∨ o ∈ lists .decreased bits ∨
    o ∈ lists .unchanged bits
  increased_decreased : ∀ bits, (lists .increased bits).Disjoint (lists .decreased bits)
  increased_unchanged : ∀ bits, (lists .increased bits).Disjoint (lists .unchanged bits)
  decreased_unchanged : ∀ bits, (lists .decreased bits).Disjoint (lists .unchanged bits)
  changed : ∀ bits o, o ∈ lists .changed bits ↔
    o ∈ lists .increased bits ∨ o ∈ lists .decreased bits
  equal_cover : ∀ bits o, o ∈ cs ↔ o ∈ lists .equal bits ∨ o ∈ lists .notEqual bits
  equal_notEqual : ∀ bits, (lists .equal bits).Disjoint (lists .notEqual bits)
  swap_increased : ∀ bits, swapped .increased bits = lists .decreased bits
  swap_decreased : ∀ bits, swapped .decreased bits = lists .increased bits
  swap_changed : ∀ bits, swapped .changed bits = lists .changed bits
  swap_unchanged : ∀ bits, swapped .unchanged bits = lists .unchanged bits

theorem resultList_algebra (q : Query) (previous current : List UInt8) (cs : List U32) :
    RelationAlgebra (cs.map BitVec.toNat) (resultList q previous current cs)
      (resultList q current previous cs) where
  sublist := fun _ _ => List.filter_sublist.map _
  cover := by
    intro bits o
    simp only [mem_resultList, increased_iff, decreased_iff, unchanged_iff]
    have htri := Int.lt_trichotomy
      (q.type.read (valueAt previous o (vcScalarWidth q.type)))
      (q.type.read (valueAt current o (vcScalarWidth q.type)))
    tauto
  increased_decreased := by
    intro bits o hinc hdec
    have hlt := increased_iff.mp (mem_resultList.mp hinc).2
    have hgt := decreased_iff.mp (mem_resultList.mp hdec).2
    omega
  increased_unchanged := by
    intro bits o hinc hsame
    have hlt := increased_iff.mp (mem_resultList.mp hinc).2
    have heq := unchanged_iff.mp (mem_resultList.mp hsame).2
    omega
  decreased_unchanged := by
    intro bits o hdec hsame
    have hgt := decreased_iff.mp (mem_resultList.mp hdec).2
    have heq := unchanged_iff.mp (mem_resultList.mp hsame).2
    omega
  changed := by
    intro bits o
    simp only [mem_resultList, changed_iff, increased_iff, decreased_iff, unchanged_iff]
    have hne : ∀ a b : Int, ¬ a = b ↔ b < a ∨ a < b := by omega
    rw [hne]
    tauto
  equal_cover := by
    intro bits o
    simp only [mem_resultList, notEqual_iff]
    tauto
  equal_notEqual := by
    intro bits o heq hne
    exact notEqual_iff.mp (mem_resultList.mp hne).2 (mem_resultList.mp heq).2
  swap_increased := fun _ => resultList_congr fun _ => Iff.rfl
  swap_decreased := fun _ => resultList_congr fun _ => Iff.rfl
  swap_changed := fun _ => resultList_congr fun _ => changed_swap
  swap_unchanged := fun _ => resultList_congr fun _ => unchanged_swap

/-- With room for every candidate a refine leaves the whole result. -/
theorem refine_complete {p : Platform} {previous current : Snapshot}
    {size candidates candidateCount : Nat} {query : Object Query} {out : Output} {m : Memory}
    (h : Accepted p previous current size candidates candidateCount query out m)
    (hmax : size ≤ p.sizeMax) (hprevious : previous.value.length = size)
    (hcurrent : current.value.length = size) (hroom : candidateCount ≤ out.capacity)
    {relation : Relation} (hrel : vcRelationIsValid relation = true) (bits : U32) :
    ∃ m', vcSearchRefine p previous current size candidates candidateCount
        (asking query (query.value.ask relation bits)) out m = some (.ok, m') ∧
      stored m' out = resultList query.value previous.value current.value
        (candidateList m candidates candidateCount) relation bits := by
  have hask := h.ask (q := query.value.ask relation bits) rfl h.query_ok.1 hrel
  obtain ⟨status, m', hrun, hd⟩ := refine_filtered hask hmax hprevious hcurrent
  have hlength : (refineMatches (query.value.ask relation bits) previous.value current.value
      (candidateList m candidates candidateCount)).length ≤ out.capacity := by
    refine Nat.le_trans (List.length_filter_le _ _) ?_
    rwa [candidateList_length]
  have hok : status = .ok := hd.status.trans (if_neg (Nat.not_lt.mpr hlength))
  exact ⟨m', hok ▸ hrun, hd.stored_of_ok h.counts_ne hok⟩

/-- The relation algebra of refine, for every type, pair of snapshots, accepted
candidate list and capacity with room for it. -/
theorem refine_relations (p : Platform) (previous current : Snapshot)
    (size candidates candidateCount : Nat) (query : Object Query) (out : Output) (m : Memory)
    (h : Accepted p previous current size candidates candidateCount query out m)
    (hmax : size ≤ p.sizeMax) (hprevious : previous.value.length = size)
    (hcurrent : current.value.length = size) (hroom : candidateCount ≤ out.capacity) :
    ∃ lists swapped : Relation → U32 → List Nat,
      (∀ relation bits, vcRelationIsValid relation = true →
        ∃ m', vcSearchRefine p previous current size candidates candidateCount
            (asking query (query.value.ask relation bits)) out m = some (.ok, m') ∧
          stored m' out = lists relation bits) ∧
      (∀ relation bits, vcRelationIsValid relation = true →
        ∃ m', vcSearchRefine p current previous size candidates candidateCount
            (asking query (query.value.ask relation bits)) out m = some (.ok, m') ∧
          stored m' out = swapped relation bits) ∧
      RelationAlgebra ((candidateList m candidates candidateCount).map BitVec.toNat) lists swapped ∧
      ∀ relation (bits bits' : U32), vcRelationIsValid relation = true →
        bits.toNat % 256 ^ vcScalarWidth query.value.type =
            bits'.toNat % 256 ^ vcScalarWidth query.value.type →
          vcSearchRefine p previous current size candidates candidateCount
              (asking query (query.value.ask relation bits)) out m =
            vcSearchRefine p previous current size candidates candidateCount
              (asking query (query.value.ask relation bits')) out m := by
  refine ⟨_, _, ?_, ?_, resultList_algebra query.value previous.value current.value
    (candidateList m candidates candidateCount), ?_⟩
  · intro relation bits hrel
    exact refine_complete h hmax hprevious hcurrent hroom hrel bits
  · intro relation bits hrel
    exact refine_complete h.swap hmax hcurrent hprevious hroom hrel bits
  · intro relation bits bits' hrel hbits
    have hask := fun b => h.ask (q := query.value.ask relation b) rfl h.query_ok.1 hrel
    apply refine_congr (hask bits) (hask bits') hmax hprevious hcurrent
    apply List.filter_congr
    intro c _
    rw [decide_eq_decide]
    exact holds_congr relation hbits

/-- Signed bytes that stay, grow, grow through zero and shrink. -/
theorem refine_relations_signed :
    ∃ lists swapped : Relation → U32 → List Nat,
      RelationAlgebra [0, 1, 2, 3] lists swapped ∧ lists .increased 0 = [1, 2] := by
  obtain ⟨lists, swapped, hlists, -, halgebra, -⟩ :=
    refine_relations ilp32 sampleBefore sampleAfter 4 0x4000 4 sampleQuery sampleOut sampleMemory
      sample_accepted (by decide) rfl rfl (by decide)
  refine ⟨lists, swapped, halgebra, ?_⟩
  obtain ⟨m', hrun, hstored⟩ := hlists .increased 0 rfl
  rw [← hstored]
  obtain ⟨m'', hrun', hstored'⟩ := refine_complete sample_accepted (by decide) rfl rfl (by decide)
    (show vcRelationIsValid .increased = true from rfl) 0
  have hsame := (Prod.mk.inj (Option.some.inj (hrun.symm.trans hrun'))).2
  rw [hsame, hstored']
  decide

end VitaCheat.Search
