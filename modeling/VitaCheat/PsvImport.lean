import VitaCheat.PsvRefinement
import VitaCheat.PsvSteps

/-!
# The outcome of an import

A call that passes the argument checks runs through all lines of its source and
publishes the document of the source if everything fits, and cleared prefixes
otherwise. The importer never faults.
-/
namespace VitaCheat.Psv

variable {β : Type} (p : Platform) (c : Call β)

theorem maxSourceBytes_lt_noIndex : maxSourceBytes < noIndex p := by
  rw [noIndex, Platform.sizeMax]
  rcases p.sizeBits_eq with h | h <;> rw [h] <;> decide

theorem current_fits {d : Document} (hd : d.Current) (hfew : d.lines.length ≤ maxSourceBytes) :
    d.Fits p := by
  have := hd.few
  have := maxSourceBytes_lt_noIndex p
  refine ⟨by omega, ?_⟩
  intro k hk
  have := hd.active k hk
  omega

/-- From a line start the loop runs through the remaining lines. -/
theorem parseLoop_parse {source : List UInt8} (hsize : source.length ≤ maxSourceBytes) {fuel : Nat}
    {d : Document} {position : Nat} (hd : d.Current) (hlines : d.lines.length ≤ position)
    (hposition : position ≤ source.length) (hfuel : source.length - position < fuel) :
    parseLoop p source fuel (d.parse p c position) =
      some (((lineTexts position (decide (d.lines.length = 0))
        (TextLines.split (source.drop position))).foldl (Document.step p) d).parse p c
          source.length) := by
  induction fuel generalizing d position with
  | zero => omega
  | succ fuel ih =>
    have hread : (d.parse p c position).position = position := rfl
    rw [parseLoop, hread]
    by_cases hmore : position < source.length
    · have hpos := nextLine_length_pos hmore
      have hle := nextLine_length_le hposition
      have hmax : source.length < 2 ^ 32 := by
        rw [maxSourceBytes] at hsize
        omega
      have hfirst : decide ((d.step p (lineText position (decide (d.lines.length = 0))
          (nextLine source position))).lines.length = 0) = false := by
        rw [Document.step_lines_length]
        simp
      rw [if_pos hmore, parseLine_parse p c position (current_fits p hd (by omega)) hmore hmax,
        split_nextLine hmore, lineTexts, List.foldl_cons]
      dsimp only
      rw [ih (Document.current_step p hd _) (by rw [Document.step_lines_length]; omega) hle
        (by omega), hfirst]
    · have hend : position = source.length := by omega
      rw [if_neg hmore, hend, List.drop_length]
      rfl

theorem checkArguments_size (h : checkArguments p c = none) :
    c.source.value.length ≤ maxSourceBytes := by
  rw [checkArguments] at h
  split at h
  · cases h
  · split at h
    · cases h
    · omega

theorem start_parse : Parse.start p c = Document.empty.parse p c 0 := by
  simp [Parse.start, Document.parse, Document.report, Document.activeIndex, Document.empty,
    Report.zero, Storage.fresh, Buffer.showing]

theorem parseLoop_source (h : c.source.value.length ≤ maxSourceBytes) :
    parseLoop p c.source.value (c.source.value.length + 1) (Parse.start p c) =
      some (((sourceLines c.source.value).foldl (Document.step p) .empty).parse p c
        c.source.value.length) := by
  rw [start_parse, parseLoop_parse p c h Document.current_empty (Nat.le_refl 0) (Nat.zero_le _)
    (by omega), List.drop_zero]
  rfl

theorem current_lines (source : List UInt8) :
    ((sourceLines source).foldl (Document.step p) .empty).Current :=
  List.foldlRecOn _ _ Document.current_empty fun _ hd t _ => Document.current_step p hd t

theorem lines_few {source : List UInt8} (h : source.length ≤ maxSourceBytes) :
    ((sourceLines source).foldl (Document.step p) .empty).lines.length ≤ maxSourceBytes := by
  rw [Document.foldl_step_lines_length]
  have := sourceLines_length_le source
  exact (Nat.zero_add _).trans_le (by omega)

/-- The records that a call stores, all of them or none. -/
def Document.fitsIn (c : Call β) (d : Document) : Bool :=
  decide (d.lines.length ≤ c.lines.capacity ∧ d.cheats.length ≤ c.cheats.capacity ∧
    d.operations.length ≤ c.operations.capacity)

def Document.published (c : Call β) (d : Document) : Outputs β where
  lines := .showing c.lines.capacity c.lines.contents d.lines
  cheats := .showing c.cheats.capacity c.cheats.contents d.cheats
  operations := .showing c.operations.capacity c.operations.contents d.operations
  report := d.report c

def Document.discarded (c : Call β) (d : Document) : Outputs β where
  lines := .showing c.lines.capacity c.lines.contents (.replicate d.lines.length .zero)
  cheats := .showing c.cheats.capacity c.cheats.contents (.replicate d.cheats.length .zero)
  operations :=
    .showing c.operations.capacity c.operations.contents (.replicate d.operations.length .zero)
  report := { d.report c with storedLines := 0, storedCheats := 0, storedOperations := 0 }

def Document.outcome (c : Call β) (d : Document) : Status × Outputs β :=
  if d.fitsIn c then (.ok, d.published c) else (.truncated, d.discarded c)

theorem clearStored_showing {α : Type} (a : Storage β) (xs : List α) (zero : α) :
    clearStored (.showing a.capacity a.contents xs) (min a.capacity xs.length) zero =
      some (.showing a.capacity a.contents (.replicate xs.length zero)) := by
  rw [clearStored]
  split
  · exact Buffer.fill_showing zero
  · next h =>
    rw [Buffer.showing_empty (by omega), Buffer.showing_empty (by rw [List.length_replicate]; omega)]

theorem discard_parse (d : Document) (position : Nat) :
    (discardPartialOutputs (d.parse p c position)).map Parse.outputs = some (d.discarded c) := by
  have hlines := clearStored_showing c.lines d.lines .zero
  have hcheats := clearStored_showing c.cheats d.cheats .zero
  have hoperations := clearStored_showing c.operations d.operations .zero
  simp only [discardPartialOutputs, Document.parse, Document.report, hlines, hcheats, hoperations,
    Option.bind_eq_bind, Option.bind_some, Option.map_some]
  rfl

/-- The importer's own test for a truncated import. -/
theorem stored_ne_total (d : Document) : ((d.report c).storedLines ≠ (d.report c).totalLines ∨
    (d.report c).storedCheats ≠ (d.report c).totalCheats ∨
    (d.report c).storedOperations ≠ (d.report c).totalOperations) ↔ d.fitsIn c = false := by
  simp only [Document.report, Document.fitsIn, decide_eq_false_iff_not]
  omega

/-- A call that passes the checks publishes its document, or discards it. -/
theorem vcPsvParse_document (h : checkArguments p c = none) :
    vcPsvParse p c = some ((parseDocument p c.source.value).outcome c) := by
  have hsize := checkArguments_size p c h
  rw [vcPsvParse, h, Document.outcome]
  simp only [parseLoop_source p c hsize, Option.bind_eq_bind, Option.bind_some]
  rw [finalize_parse p c _ (current_fits p (current_lines p _) (lines_few p hsize)),
    Option.bind_some]
  have hstored := stored_ne_total c (parseDocument p c.source.value)
  cases hfits : (parseDocument p c.source.value).fitsIn c with
  | true =>
    refine (if_neg fun hne => ?_).trans rfl
    rw [hstored.mp hne] at hfits
    cases hfits
  | false =>
    obtain ⟨s, hs, hout⟩ := Option.map_eq_some_iff.mp
      (discard_parse p c (parseDocument p c.source.value) c.source.value.length)
    refine (if_pos (hstored.mpr hfits)).trans ?_
    refine (congrArg (Option.bind · fun s => some (Status.truncated, s.outputs)) hs).trans ?_
    rw [Option.bind_some, hout]
    rfl

theorem checkArguments_code {s : Status} (h : checkArguments p c = some s) : s.code < 0 := by
  unfold checkArguments at h
  split at h
  · obtain rfl := Option.some.inj h
    decide
  · split at h
    · obtain rfl := Option.some.inj h
      decide
    · split at h
      · dsimp only at h
        split at h
        · obtain rfl := Option.some.inj h
          decide
        · cases h
      · obtain rfl := Option.some.inj h
        decide

theorem fitsIn_iff (d : Document) : d.fitsIn c = true ↔
    d.lines.length ≤ c.lines.capacity ∧ d.cheats.length ≤ c.cheats.capacity ∧
      d.operations.length ≤ c.operations.capacity := by
  rw [Document.fitsIn, decide_eq_true_iff]

/-- The slots of an array after a parse of `total` records has been undone. -/
structure Cleared {α : Type} (before : Storage β) (after : Buffer β α) (total : Nat) (zero : α) :
    Prop where
  zeroed : ∀ i, i < min before.capacity total → after.slots i = .record zero
  kept : ∀ i, min before.capacity total ≤ i → after.slots i = .initial (before.contents i)

theorem cleared_showing {α : Type} (a : Storage β) (total : Nat) (zero : α) :
    Cleared a (.showing a.capacity a.contents (.replicate total zero)) total zero where
  zeroed i hi :=
    Buffer.showing_slots_record (by omega) (List.getElem?_replicate_of_lt (by omega))
  kept i hi := Buffer.showing_slots_initial (by rwa [List.length_replicate])

/-- What a call leaves, by its status; the totals are those of its source. -/
structure AllOrNothing (p : Platform) (c : Call β) (status : Status) (out : Outputs β) : Prop where
  totals : checkArguments p c = none →
    out.report.totalLines = (parseDocument p c.source.value).lines.length ∧
    out.report.totalCheats = (parseDocument p c.source.value).cheats.length ∧
    out.report.totalOperations = (parseDocument p c.source.value).operations.length
  ok_iff : checkArguments p c = none →
    (status = .ok ↔ out.report.totalLines ≤ c.lines.capacity ∧
      out.report.totalCheats ≤ c.cheats.capacity ∧
      out.report.totalOperations ≤ c.operations.capacity)
  or_truncated : checkArguments p c = none → status = .ok ∨ status = .truncated
  refused : ∀ s, checkArguments p c = some s → status = s
  stored : status = .ok → out.report.storedLines = out.report.totalLines ∧
    out.report.storedCheats = out.report.totalCheats ∧
    out.report.storedOperations = out.report.totalOperations
  past_total : status = .ok →
    (∀ i, out.report.totalLines ≤ i → out.lines.slots i = .initial (c.lines.contents i)) ∧
    (∀ i, out.report.totalCheats ≤ i → out.cheats.slots i = .initial (c.cheats.contents i)) ∧
    (∀ i, out.report.totalOperations ≤ i →
      out.operations.slots i = .initial (c.operations.contents i))
  nothing_stored : status = .truncated → out.report.storedLines = 0 ∧
    out.report.storedCheats = 0 ∧ out.report.storedOperations = 0
  cleared : status = .truncated →
    Cleared c.lines out.lines out.report.totalLines .zero ∧
    Cleared c.cheats out.cheats out.report.totalCheats .zero ∧
    Cleared c.operations out.operations out.report.totalOperations .zero
  untouched : status.code < 0 → out = c.untouched

theorem published_all (hcheck : checkArguments p c = none)
    (hd : (parseDocument p c.source.value).fitsIn c = true) :
    AllOrNothing p c .ok ((parseDocument p c.source.value).published c) := by
  obtain ⟨hlines, hcheats, hoperations⟩ := (fitsIn_iff c _).mp hd
  exact
    { totals := fun _ => ⟨rfl, rfl, rfl⟩
      ok_iff := fun _ => ⟨fun _ => ⟨hlines, hcheats, hoperations⟩, fun _ => rfl⟩
      or_truncated := fun _ => Or.inl rfl
      refused := fun s hs => nomatch hcheck.symm.trans hs
      stored := fun _ => ⟨Nat.min_eq_right hlines, Nat.min_eq_right hcheats,
        Nat.min_eq_right hoperations⟩
      past_total := fun _ => ⟨fun _ hi => Buffer.showing_slots_initial (Nat.le_trans (Nat.min_le_right _ _) hi),
        fun _ hi => Buffer.showing_slots_initial (Nat.le_trans (Nat.min_le_right _ _) hi),
        fun _ hi => Buffer.showing_slots_initial (Nat.le_trans (Nat.min_le_right _ _) hi)⟩
      nothing_stored := fun h => nomatch h
      cleared := fun h => nomatch h
      untouched := fun h => absurd h (by decide) }

theorem discarded_nothing (hcheck : checkArguments p c = none)
    (hd : (parseDocument p c.source.value).fitsIn c = false) :
    AllOrNothing p c .truncated ((parseDocument p c.source.value).discarded c) where
  totals _ := ⟨rfl, rfl, rfl⟩
  ok_iff _ := by
    refine ⟨fun h => (nomatch h), fun h => ?_⟩
    rw [(fitsIn_iff c _).mpr h] at hd
    cases hd
  or_truncated _ := Or.inr rfl
  refused s hs := nomatch hcheck.symm.trans hs
  stored h := nomatch h
  past_total h := nomatch h
  nothing_stored _ := ⟨rfl, rfl, rfl⟩
  cleared _ := ⟨cleared_showing _ _ _, cleared_showing _ _ _, cleared_showing _ _ _⟩
  untouched h := absurd h (by decide)

theorem refused_untouched {s : Status} (hcheck : checkArguments p c = some s) :
    AllOrNothing p c s c.untouched where
  totals h := nomatch hcheck.symm.trans h
  ok_iff h := nomatch hcheck.symm.trans h
  or_truncated h := nomatch hcheck.symm.trans h
  refused s' hs' := Option.some.inj (hcheck.symm.trans hs')
  stored h := absurd (checkArguments_code p c hcheck) (by rw [h]; decide)
  past_total h := absurd (checkArguments_code p c hcheck) (by rw [h]; decide)
  nothing_stored h := absurd (checkArguments_code p c hcheck) (by rw [h]; decide)
  cleared h := absurd (checkArguments_code p c hcheck) (by rw [h]; decide)
  untouched _ := rfl

/-- Every call ends, with the complete graph, with cleared prefixes or with
nothing changed. -/
theorem import_all_or_nothing :
    ∃ status out, vcPsvParse p c = some (status, out) ∧ AllOrNothing p c status out := by
  cases hcheck : checkArguments p c with
  | some s => exact ⟨s, _, by rw [vcPsvParse, hcheck], refused_untouched p c hcheck⟩
  | none =>
    have hdocument := vcPsvParse_document p c hcheck
    rw [Document.outcome] at hdocument
    cases hd : (parseDocument p c.source.value).fitsIn c with
    | true =>
      rw [hd, if_pos rfl] at hdocument
      exact ⟨_, _, hdocument, published_all p c hcheck hd⟩
    | false =>
      rw [hd, if_neg Bool.false_ne_true] at hdocument
      exact ⟨_, _, hdocument, discarded_nothing p c hcheck hd⟩

/-- A report without the three fields that depend on the capacities. -/
def Report.content (r : Report) : Report :=
  { r with storedLines := 0, storedCheats := 0, storedOperations := 0 }

/-- Every record of one call is the record of the other. -/
structure SameRecords {γ : Type} (first : Outputs β) (second : Outputs γ) : Prop where
  lines : ∀ i, i < first.report.totalLines →
    ∃ l, first.lines.slots i = .record l ∧ second.lines.slots i = .record l
  cheats : ∀ i, i < first.report.totalCheats →
    ∃ k, first.cheats.slots i = .record k ∧ second.cheats.slots i = .record k
  operations : ∀ i, i < first.report.totalOperations →
    ∃ o, first.operations.slots i = .record o ∧ second.operations.slots i = .record o

variable {c} {γ : Type} {c' : Call γ} {d : Document}

theorem outcome_content : (d.outcome c).2.report.content = (d.report c).content := by
  rw [Document.outcome]
  split <;> rfl

theorem outcome_ok (h : (d.outcome c).1 = .ok) :
    d.fitsIn c = true ∧ (d.outcome c).2 = d.published c := by
  rw [Document.outcome] at h ⊢
  split at h
  · next hd => exact ⟨hd, by rw [if_pos hd]⟩
  · cases h

/-- A call that returns OK has published the document of its source. -/
theorem ok_published {p : Platform} {out : Outputs β} (h : vcPsvParse p c = some (.ok, out)) :
    checkArguments p c = none ∧ (parseDocument p c.source.value).fitsIn c = true ∧
      out = (parseDocument p c.source.value).published c := by
  cases hcheck : checkArguments p c with
  | some s =>
    have hcode := checkArguments_code p c hcheck
    rw [vcPsvParse, hcheck] at h
    obtain ⟨rfl, -⟩ := Prod.mk.inj (Option.some.inj h)
    exact absurd hcode (by decide)
  | none =>
    rw [vcPsvParse_document p c hcheck] at h
    have hpair := Option.some.inj h
    obtain ⟨hd, hout⟩ := outcome_ok (congrArg Prod.fst hpair)
    rw [hpair] at hout
    exact ⟨rfl, hd, hout⟩

theorem parse_returns (p : Platform) (h : checkArguments p c = none) :
    ∃ status out, vcPsvParse p c = some (status, out) :=
  ⟨_, _, vcPsvParse_document p c h⟩

theorem showing_same {α δ : Type} {a : Storage β} {b : Storage δ} {xs : List α} {i : Nat}
    (hi : i < xs.length) (ha : xs.length ≤ a.capacity) (hb : xs.length ≤ b.capacity) :
    ∃ x, (Buffer.showing a.capacity a.contents xs).slots i = .record x ∧
      (Buffer.showing b.capacity b.contents xs).slots i = .record x :=
  ⟨xs[i], Buffer.showing_slots_record (by omega) (List.getElem?_eq_getElem hi),
    Buffer.showing_slots_record (by omega) (List.getElem?_eq_getElem hi)⟩

theorem published_same (h : d.fitsIn c = true) (h' : d.fitsIn c' = true) :
    SameRecords (d.published c) (d.published c') := by
  obtain ⟨hlines, hcheats, hoperations⟩ := (fitsIn_iff c d).mp h
  obtain ⟨hlines', hcheats', hoperations'⟩ := (fitsIn_iff c' d).mp h'
  exact
    { lines := fun _ hi => showing_same hi hlines hlines'
      cheats := fun _ hi => showing_same hi hcheats hcheats'
      operations := fun _ hi => showing_same hi hoperations hoperations' }

/-- Two calls on one source report the same document, whatever their capacities
and buffers, and the totals of the first are room enough for the second. -/
theorem import_independent (p : Platform) (c : Call β) (c' : Call γ)
    (hsource : c.source.value = c'.source.value) (h : checkArguments p c = none)
    (h' : checkArguments p c' = none) :
    ∃ status out status' out', vcPsvParse p c = some (status, out) ∧
      vcPsvParse p c' = some (status', out') ∧
      out.report.content = out'.report.content ∧
      (status = .ok → status' = .ok → SameRecords out out') ∧
      (c'.lines.capacity = out.report.totalLines → c'.cheats.capacity = out.report.totalCheats →
        c'.operations.capacity = out.report.totalOperations → status' = .ok) := by
  have hrun := vcPsvParse_document p c h
  have hrun' := vcPsvParse_document p c' h'
  rw [← hsource] at hrun'
  generalize parseDocument p c.source.value = d at hrun hrun'
  have hcontent := outcome_content (c := c) (d := d)
  refine ⟨(d.outcome c).1, (d.outcome c).2, (d.outcome c').1, (d.outcome c').2, hrun, hrun',
    ?_, ?_, ?_⟩
  · rw [hcontent, outcome_content, Document.report, Document.report, hsource]
    rfl
  · intro hok hok'
    obtain ⟨hd, hout⟩ := outcome_ok hok
    obtain ⟨hd', hout'⟩ := outcome_ok hok'
    rw [hout, hout']
    exact published_same hd hd'
  · intro hlines hcheats hoperations
    have hfits : d.fitsIn c' = true := by
      rw [fitsIn_iff, hlines, hcheats, hoperations]
      exact ⟨Nat.le_of_eq (congrArg Report.totalLines hcontent).symm,
        Nat.le_of_eq (congrArg Report.totalCheats hcontent).symm,
        Nat.le_of_eq (congrArg Report.totalOperations hcontent).symm⟩
    rw [Document.outcome, if_pos hfits]

/-- `_V0 a`, LF, `$0000 00000010 00000001`. -/
def sample : List UInt8 :=
  [0x5f, 0x56, 0x30, 0x20, 0x61, 0x0a, 0x24, 0x30, 0x30, 0x30, 0x30, 0x20, 0x30, 0x30, 0x30, 0x30,
    0x30, 0x30, 0x31, 0x30, 0x20, 0x30, 0x30, 0x30, 0x30, 0x30, 0x30, 0x30, 0x31]

/-- A first pass that asks for the totals only. -/
def sizingCall : Call UInt8 where
  source := ⟨0x1000, sample⟩
  lines := ⟨0, 0, fun _ => 0⟩
  cheats := ⟨0, 0, fun _ => 0⟩
  operations := ⟨0, 0, fun _ => 0⟩
  report := ⟨0x2000, .zero⟩

def sampleCall : Call UInt8 where
  source := ⟨0x1000, sample⟩
  lines := ⟨0x3000, 2, fun _ => 0xa5⟩
  cheats := ⟨0x4000, 1, fun _ => 0xa5⟩
  operations := ⟨0x5000, 1, fun _ => 0xa5⟩
  report := ⟨0x2000, .zero⟩

theorem import_two_passes :
    ∃ status out out', vcPsvParse ilp32 sizingCall = some (status, out) ∧
      vcPsvParse ilp32 sampleCall = some (.ok, out') ∧
      out.report.content = out'.report.content := by
  obtain ⟨status, out, status', out', hrun, hrun', hcontent, -, hroom⟩ :=
    import_independent ilp32 sizingCall sampleCall rfl (by decide) (by decide)
  have htotals : (vcPsvParse ilp32 sizingCall).map (fun r => (r.2.report.totalLines,
      r.2.report.totalCheats, r.2.report.totalOperations)) = some (2, 1, 1) := by decide
  rw [hrun] at htotals
  simp only [Option.map_some, Option.some.injEq, Prod.mk.injEq] at htotals
  obtain ⟨hlines, hcheats, hoperations⟩ := htotals
  have hok := hroom hlines.symm hcheats.symm hoperations.symm
  exact ⟨status, out, out', hrun, hok ▸ hrun', hcontent⟩

end VitaCheat.Psv
