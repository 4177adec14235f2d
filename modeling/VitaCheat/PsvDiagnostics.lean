import VitaCheat.PsvHistory
import VitaCheat.PsvSelectors
import VitaCheat.PsvShift

/-!
# The counters of a report

The importer bumps its diagnostic counters line by line, some at the line where a
limit is crossed and one only when a scope ends. What they amount to can be counted
in the records: each counter is the number of the records that it is about.
-/
namespace VitaCheat.Psv

variable {β : Type}

/-- The counters of a document apart from the one for cheats that are not direct. -/
structure Counters where
  unsupported : Nat
  invalid : Nat
  malformed : Nat
  legacy : Nat
  deriving DecidableEq, Repr

def Counters.add (a b : Counters) : Counters :=
  ⟨a.unsupported + b.unsupported, a.invalid + b.invalid, a.malformed + b.malformed,
    a.legacy + b.legacy⟩

theorem Counters.add_assoc (a b c : Counters) : (a.add b).add c = a.add (b.add c) := by
  simp only [Counters.add, Nat.add_assoc]

/-- One for a test that holds. -/
def bump (b : Bool) : Nat := if b then 1 else 0

theorem bump_decide (P : Prop) [Decidable P] : bump (decide P) = if P then 1 else 0 := by
  by_cases h : P <;> simp [bump, h]

namespace Document

variable (p : Platform) (d : Document) (t : LineText)

def counters : Counters := ⟨d.unsupported, d.invalid, d.malformed, d.legacy⟩

/-- What is still to be counted when the active scope ends. -/
def unused : Nat := bump (d.active.isSome && d.base && !d.write)

/-- What a line adds to the counters. -/
def lineCounts : Counters :=
  match classify t.text, d.active with
  | .header _ description, _ =>
    ⟨0, d.unused, 0, bump (decide (description.length > legacyMaxDescriptionBytes)) +
      bump (decide (d.cheats.length + 1 = legacyMaxCheats + 1))⟩
  | .badHeader, _ => ⟨0, d.unused, 1, 0⟩
  | .badCode, _ | .code _, none => ⟨0, 0, 1, 0⟩
  | .code c, some _ =>
    ⟨bump (c.kind = .opaqueOperation), bump (c.isSelector && !d.acceptsSelector c), 0,
      bump (decide (d.count + 1 = legacyMaxCodesPerCheat + 1))⟩
  | .blank, _ | .comment, _ | .opaqueLine, _ => ⟨0, 0, 0, 0⟩

theorem taint_counters (state : TranslationState) : (d.taint state).counters = d.counters := by
  unfold taint
  split <;> rfl

theorem finalize_counters :
    d.finalize.counters = d.counters.add ⟨0, d.unused, 0, 0⟩ := by
  unfold finalize unused
  split
  · next h =>
    rw [taint_counters, h]
    rfl
  · next h =>
    rw [Bool.not_eq_true] at h
    rw [h]
    rfl

theorem applyKind_counters (c : Code) : (d.applyKind c).counters =
    d.counters.add ⟨bump (c.kind = .opaqueOperation),
      bump (c.isSelector && !d.acceptsSelector c), 0, 0⟩ := by
  rw [applyKind, Code.isSelector, Code.kind]
  cases operationKind c.code with
  | selectModuleBase =>
    dsimp only
    rw [selectModule]
    split
    · next h =>
      rw [taint_counters, h]
      rfl
    · next h =>
      rw [Bool.not_eq_true] at h
      rw [taint_counters, h]
      rfl
  | opaqueOperation => exact taint_counters _ _
  | _ =>
    dsimp only
    split <;> rfl

theorem openCheat_counters (activation : Activation) (first size : Nat) :
    (d.openCheat activation first size).counters =
      d.counters.add ⟨0, 0, 0, bump (decide (size > legacyMaxDescriptionBytes)) +
        bump (decide (d.cheats.length + 1 = legacyMaxCheats + 1))⟩ := by
  simp [openCheat, activate, markLast, counters, Counters.add, bump, Nat.add_assoc]

theorem malformedCode_counters : d.malformedCode.counters = d.counters.add ⟨0, 0, 1, 0⟩ := by
  rw [malformedCode, taint_counters]
  rfl

theorem closeMalformed_counters : d.closeMalformed.counters = d.counters.add ⟨0, 0, 1, 0⟩ :=
  malformedCode_counters d

theorem countOperation_counters (k : Nat) : (d.countOperation k).counters =
    d.counters.add ⟨0, 0, 0, bump (decide (d.count + 1 = legacyMaxCodesPerCheat + 1))⟩ := by
  by_cases hcross : d.count = legacyMaxCodesPerCheat
  · simp [countOperation, counters, Counters.add, bump, hcross]
  · simp [countOperation, counters, Counters.add, bump, hcross]

theorem addOperation_counters (k : Nat) (c : Code) : (d.addOperation k c).counters =
    d.counters.add ⟨bump (c.kind = .opaqueOperation),
      bump (c.isSelector && !d.acceptsSelector c), 0,
      bump (decide (d.count + 1 = legacyMaxCodesPerCheat + 1))⟩ := by
  have hcounted : (d.addOperation k c).counters = (d.applyKind c).counters.add ⟨0, 0, 0,
      bump (decide ((d.applyKind c).count + 1 = legacyMaxCodesPerCheat + 1))⟩ :=
    countOperation_counters _ k
  rw [hcounted, applyKind_counters, applyKind_count, Counters.add_assoc]
  simp [Counters.add]

theorem step_counters : (d.step p t).counters = d.counters.add (d.lineCounts t) := by
  have hfin : (d.addLine p t.bounds).finalize.counters = d.counters.add ⟨0, d.unused, 0, 0⟩ :=
    finalize_counters _
  unfold step lineCounts
  cases hclass : classify t.text with
  | blank => rfl
  | comment => rfl
  | header activation description =>
    dsimp only
    rw [openCheat_counters, hfin, Counters.add_assoc, finalize_cheats_length]
    simp [Counters.add, addLine]
  | badHeader =>
    dsimp only
    rw [closeMalformed_counters, hfin, Counters.add_assoc]
    simp [Counters.add]
  | badCode => exact malformedCode_counters _
  | opaqueLine => exact taint_counters _ _
  | code c =>
    have hactive : (d.addLine p t.bounds).active = d.active := rfl
    simp only [hactive]
    cases d.active with
    | none => exact malformedCode_counters _
    | some k => exact addOperation_counters _ k c

end Document

/-- A selector after another operation of its cheat, or out of range. -/
def Operation.rejected (earlier : List Operation) (o : Operation) : Bool :=
  o.kind = .selectModuleBase &&
    (earlier.any (fun e => e.cheatIndex == o.cheatIndex) || !o.code.inRange)

/-- The number of rejected selectors. -/
def rejections (operations : List Operation) : Nat :=
  (List.range operations.length).countP fun i =>
    operations[i]?.any fun o => o.rejected (operations.take i)

/-- The cheat has an accepted selector and no typed write. -/
def idle (operations : List Operation) (k : Nat) : Bool :=
  accepted (codesOf operations k) && !writes (codesOf operations k)

def idleCheats (operations : List Operation) (cheats : Nat) : Nat :=
  (List.range cheats).countP (idle operations)

def Title.long (τ : Title) : Bool := decide (τ.description.length.toNat > legacyMaxDescriptionBytes)

def Frame.crowded (f : Frame) : Bool := decide (f.operationCount > legacyMaxCodesPerCheat)

theorem rejections_concat (operations : List Operation) (o : Operation) :
    rejections (operations ++ [o]) = rejections operations + bump (o.rejected operations) := by
  rw [rejections, List.length_append, List.length_singleton, List.range_succ, List.countP_append,
    List.countP_singleton]
  have hold : ∀ i ∈ List.range operations.length,
      ((operations ++ [o])[i]?.any fun o' => o'.rejected ((operations ++ [o]).take i)) = true ↔
        (operations[i]?.any fun o' => o'.rejected (operations.take i)) = true := by
    intro i hi
    have hlt := List.mem_range.mp hi
    rw [List.getElem?_append_left hlt, List.take_append_of_le_length (Nat.le_of_lt hlt)]
  rw [List.countP_congr hold, List.getElem?_concat_length, List.take_left]
  rfl

theorem countP_concat {α : Type} (test : α → Bool) (xs : List α) (x : α) :
    (xs ++ [x]).countP test = xs.countP test + bump (test x) := by
  rw [List.countP_append, List.countP_singleton, bump]

theorem any_codesOf (operations : List Operation) (k : Nat) :
    (operations.any fun e => e.cheatIndex == k) = ((codesOf operations k).length != 0) := by
  induction operations using List.reverseRecOn with
  | nil => rfl
  | append_singleton operations o ih =>
    rw [List.any_append, ih, codesOf_concat]
    by_cases hk : o.cheatIndex = k <;> simp [hk]

/-- The idle cheats before one are not affected by its operations. -/
theorem idleCheats_concat (operations : List Operation) {o : Operation} {n : Nat}
    (h : n ≤ o.cheatIndex) : idleCheats (operations ++ [o]) n = idleCheats operations n := by
  refine List.countP_congr ?_
  intro k hk
  have hlt := List.mem_range.mp hk
  rw [idle, codesOf_concat, if_neg (by omega)]
  rfl

theorem idleCheats_succ (operations : List Operation) (n : Nat) :
    idleCheats operations (n + 1) = idleCheats operations n + bump (idle operations n) := by
  rw [idleCheats, List.range_succ, countP_concat]
  rfl

/-- One more operation in the last cheat makes it crowded if it crosses the limit. -/
theorem crowded_modify {fs : List Frame} {k n : Nat} (hlast : k + 1 = fs.length)
    (hcount : ∀ f, fs[k]? = some f → f.operationCount = n) :
    (fs.modify k Frame.count).countP Frame.crowded =
      fs.countP Frame.crowded + bump (decide (n + 1 = legacyMaxCodesPerCheat + 1)) := by
  rcases List.eq_nil_or_concat fs with rfl | ⟨init, f, rfl⟩
  · cases hlast
  · rw [List.concat_eq_append] at hcount hlast ⊢
    obtain rfl : k = init.length := by simpa using hlast
    have hf : f.operationCount = n := hcount f List.getElem?_concat_length
    have hcrowded : bump f.count.crowded = bump f.crowded +
        bump (decide (n + 1 = legacyMaxCodesPerCheat + 1)) := by
      simp only [Frame.crowded, Frame.count, bump_decide, hf]
      split <;> split <;> split <;> omega
    rw [modify_concat, countP_concat, countP_concat, hcrowded, Nat.add_assoc]

namespace Document

/-- Each counter is the number of the records that it is about, with the idle
cheats counted when they are closed. -/
structure Tallied (m : Scopes) (d : Document) : Prop where
  headers : d.cheats.length = d.lines.countP (fun l => l.kind = .cheatHeader)
  codes : d.operations.length = d.lines.countP (fun l => l.kind = .code)
  malformed : d.malformed = d.lines.countP (fun l => l.kind = .malformed)
  unsupported : d.unsupported = d.operations.countP (fun o => o.kind = .opaqueOperation)
  invalid : d.invalid = rejections d.operations + idleCheats d.operations m.closed.length
  legacy : d.legacy = d.titles.countP Title.long + d.frames.countP Frame.crowded +
    overLimit d.cheats.length
  counted : ∀ k f, d.frames[k]? = some f → f.operationCount = (codesOf d.operations k).length

variable {p : Platform} {d e : Document} {t : LineText} {m m' : Scopes} {s : Scan} {l : Line}

theorem tallied_empty : Tallied .empty .empty where
  headers := rfl
  codes := rfl
  malformed := rfl
  unsupported := rfl
  invalid := rfl
  legacy := rfl
  counted := fun _ _ h => nomatch h

/-- The operations of the active cheat are those that have been counted. -/
theorem active_count (hshows : d.Shows m) (hseq : d.Sequenced m) (hs : m.current = some s) :
    d.count = (codesOf d.operations m.closed.length).length ∧
      d.base = accepted (codesOf d.operations m.closed.length) ∧
      d.write = (accepted (codesOf d.operations m.closed.length) &&
        writes (codesOf d.operations m.closed.length)) := by
  obtain ⟨texts, hscan, hcodes⟩ := hseq.current s hs
  obtain ⟨hcount, hbase, hwrite, -⟩ := hshows.scan s hs
  rw [← hcodes]
  exact ⟨hcount.trans hscan.count, hbase.trans hscan.base, hwrite.trans hscan.write⟩

/-- What is counted at the end of the active scope is whether its cheat is idle. -/
theorem idleCheats_unused (hshows : d.Shows m) (hseq : d.Sequenced m) :
    idleCheats d.operations m.states.length =
      idleCheats d.operations m.closed.length + d.unused := by
  obtain ⟨closed, current⟩ := m
  cases current with
  | none =>
    have hactive : d.active = none := hshows.active
    rw [unused, hactive]
    simp [Scopes.states, bump]
  | some s =>
    have hactive : d.active = some closed.length := hshows.active
    obtain ⟨-, hbase, hwrite⟩ := active_count hshows hseq rfl
    have hlength : (Scopes.states ⟨closed, some s⟩).length = closed.length + 1 := by
      simp [Scopes.states]
    rw [hlength, idleCheats_succ, unused, hactive, hbase, hwrite, idle]
    cases accepted (codesOf d.operations closed.length) <;> rfl

/-- A line that adds no cheat and no operation. -/
theorem tallied_plain (h : d.Tallied m) (hlines : e.lines = d.lines ++ [l])
    (hheader : l.kind ≠ .cheatHeader) (hcode : l.kind ≠ .code)
    (hoperations : e.operations = d.operations) (hframes : e.frames = d.frames)
    (htitles : e.titles = d.titles) {x : Nat}
    (hcounters : e.counters = d.counters.add ⟨0, x, bump (l.kind = .malformed), 0⟩)
    (hidle : idleCheats d.operations m'.closed.length =
      idleCheats d.operations m.closed.length + x) : e.Tallied m' := by
  have hcheats : e.cheats.length = d.cheats.length := by
    rw [← frames_length, hframes, frames_length]
  have hinvalid : e.invalid = d.invalid + x := congrArg Counters.invalid hcounters
  constructor
  · rw [hcheats, hlines, countP_concat, decide_eq_false hheader, h.headers]
    rfl
  · rw [hoperations, hlines, countP_concat, decide_eq_false hcode, h.codes]
    rfl
  · rw [hlines, countP_concat, ← h.malformed]
    exact congrArg Counters.malformed hcounters
  · rw [hoperations, ← h.unsupported]
    exact congrArg Counters.unsupported hcounters
  · rw [hinvalid, hoperations, h.invalid, hidle, Nat.add_assoc]
  · rw [hcheats, hframes, htitles, ← h.legacy]
    exact congrArg Counters.legacy hcounters
  · rw [hframes, hoperations]
    exact h.counted

/-- A valid header line. -/
theorem tallied_header (h : d.Tallied m) (hlines : e.lines = d.lines ++ [l])
    (hkind : l.kind = .cheatHeader) (hoperations : e.operations = d.operations)
    (howned : ∀ o ∈ d.operations, o.cheatIndex < d.cheats.length) {first line : Nat} {τ : Title}
    (hframes : e.frames = d.frames ++ [⟨line, first, 0⟩]) (htitles : e.titles = d.titles ++ [τ])
    {x : Nat} (hcounters : e.counters = d.counters.add ⟨0, x, 0, bump τ.long +
      bump (decide (d.cheats.length + 1 = legacyMaxCheats + 1))⟩)
    (hidle : idleCheats d.operations m'.closed.length =
      idleCheats d.operations m.closed.length + x) : e.Tallied m' := by
  have hcheats : e.cheats.length = d.cheats.length + 1 := by
    rw [← frames_length, hframes, List.length_append, frames_length]
    rfl
  have hinvalid : e.invalid = d.invalid + x := congrArg Counters.invalid hcounters
  have hlegacy : e.legacy = d.legacy + (bump τ.long +
      bump (decide (d.cheats.length + 1 = legacyMaxCheats + 1))) :=
    congrArg Counters.legacy hcounters
  constructor
  · rw [hcheats, hlines, countP_concat, hkind, h.headers]
    rfl
  · rw [hoperations, hlines, countP_concat, hkind, h.codes]
    rfl
  · rw [hlines, countP_concat, hkind, ← h.malformed]
    exact congrArg Counters.malformed hcounters
  · rw [hoperations, ← h.unsupported]
    exact congrArg Counters.unsupported hcounters
  · rw [hinvalid, hoperations, h.invalid, hidle, Nat.add_assoc]
  · rw [hcheats, overLimit_succ, hframes, htitles, countP_concat, countP_concat, hlegacy, h.legacy,
      bump_decide]
    have hempty : bump (Frame.crowded ⟨line, first, 0⟩) = 0 := rfl
    omega
  · rw [hframes, hoperations]
    intro k f hf
    rcases Placement.getElem?_concat hf with hold | ⟨rfl, rfl⟩
    · exact h.counted k f hold
    · rw [frames_length, codesOf_new howned]
      rfl

/-- A selector is rejected unless it is the first operation and in range. -/
theorem rejected_eq {o : Operation} (hkind : o.kind = o.code.kind) {c : Code} (hc : o.code = c)
    (hcount : d.count = (codesOf d.operations o.cheatIndex).length)
    (hbase : d.base = accepted (codesOf d.operations o.cheatIndex)) :
    o.rejected d.operations = (c.isSelector && !d.acceptsSelector c) := by
  have hrange : c.inRange = !(decide (c.address > 0xff) || decide (c.value > 1)) := rfl
  have hsel : c.isSelector = decide (o.kind = .selectModuleBase) := by
    rw [hkind, hc]
    rfl
  rw [Operation.rejected, any_codesOf, hc, acceptsSelector, hcount, hbase, hsel, hrange]
  cases codesOf d.operations o.cheatIndex with
  | nil => simp
  | cons first rest => simp

/-- A code line of the active cheat. -/
theorem tallied_code (h : d.Tallied m) (hlines : e.lines = d.lines ++ [l])
    (hkind : l.kind = .code) {o : Operation} (hoperations : e.operations = d.operations ++ [o])
    {k : Nat} (hcheat : o.cheatIndex = k) (hlast : k + 1 = d.frames.length)
    (hclosed : m'.closed.length = k) (hclosed' : m.closed.length = k)
    (hframes : e.frames = d.frames.modify k Frame.count) (htitles : e.titles = d.titles)
    (hcount : d.count = (codesOf d.operations k).length)
    (hcounters : e.counters = d.counters.add ⟨bump (o.kind = .opaqueOperation),
      bump (o.rejected d.operations), 0,
      bump (decide (d.count + 1 = legacyMaxCodesPerCheat + 1))⟩) : e.Tallied m' := by
  have hcheats : e.cheats.length = d.cheats.length := by
    rw [← frames_length, hframes, List.length_modify, frames_length]
  have hinvalid : e.invalid = d.invalid + bump (o.rejected d.operations) :=
    congrArg Counters.invalid hcounters
  have hlegacy : e.legacy = d.legacy + bump (decide (d.count + 1 = legacyMaxCodesPerCheat + 1)) :=
    congrArg Counters.legacy hcounters
  constructor
  · rw [hcheats, hlines, countP_concat, hkind, h.headers]
    rfl
  · rw [hoperations, List.length_append, hlines, countP_concat, hkind, h.codes]
    rfl
  · rw [hlines, countP_concat, hkind, ← h.malformed]
    exact congrArg Counters.malformed hcounters
  · rw [hoperations, countP_concat, ← h.unsupported]
    exact congrArg Counters.unsupported hcounters
  · rw [hinvalid, hoperations, rejections_concat, hclosed,
      idleCheats_concat _ (Nat.le_of_eq hcheat.symm), h.invalid, hclosed']
    omega
  · have hcrowded := crowded_modify hlast fun f hf => (h.counted k f hf).trans hcount.symm
    rw [hcheats, hlegacy, htitles, h.legacy, hframes, hcrowded]
    omega
  · rw [hframes, hoperations]
    intro j f' hf'
    rw [List.getElem?_modify] at hf'
    obtain ⟨f, hf, rfl⟩ := Option.map_eq_some_iff.mp hf'
    have hold := h.counted j f hf
    rw [codesOf_concat, hcheat]
    by_cases hj : k = j
    · rw [if_pos hj, if_pos hj, List.length_append, ← hold]
      rfl
    · rw [if_neg hj, if_neg hj]
      exact hold

theorem shows_length (hshows : d.Shows m) : m.states.length = d.cheats.length := by
  rw [← hshows.states, List.length_map]

/-- A line that is no attempt at a header leaves the closed scopes. -/
theorem read_closed {text : List UInt8} (h : headerAttempt text = false) (m : Scopes) :
    (m.read text).closed = m.closed := by
  rw [Scopes.read_other h]
  rfl

theorem tallied_step (hcurrent : d.Current) (hshows : d.Shows m) (hseq : d.Sequenced m)
    (hsmall : t.text.length < 2 ^ 32) (h : d.Tallied m) :
    (d.step p t).Tallied (m.read t.text) := by
  have hlines := step_lines p d t
  have hoperations := step_operations p d t
  have hframes := step_frames p d t
  have htitles := step_titles p d t
  have hcounters := step_counters p d t
  have hunused := idleCheats_unused hshows hseq
  rw [lineRecord] at hlines
  rw [lineOperation] at hoperations
  rw [lineCounts] at hcounters
  have hattempt : headerAttempt t.text = true ↔ classify t.text = .badHeader ∨
      ∃ activation description, classify t.text = .header activation description :=
    classify_attempt t.text
  cases hclass : classify t.text with
  | blank | comment | opaqueLine | badCode =>
    have hno : headerAttempt t.text = false := by simpa [hclass] using hattempt
    simp only [hclass, Option.toList_none, List.append_nil]
      at hlines hoperations hframes htitles hcounters
    exact tallied_plain h hlines (by simp) (by simp) hoperations hframes htitles hcounters
      (by rw [read_closed hno]; rfl)
  | badHeader =>
    simp only [hclass, Option.toList_none, List.append_nil]
      at hlines hoperations hframes htitles hcounters
    refine tallied_plain h hlines (by simp) (by simp) hoperations hframes htitles hcounters ?_
    rw [← hunused, ← settled_length m, Scopes.read, hclass]
    obtain ⟨closed, current⟩ := m
    cases current <;> simp [Scopes.step, Scopes.change, Scopes.states]
  | header activation description =>
    have hlong : description.length < 2 ^ 32 := by
      obtain ⟨s, hs, -, rfl⟩ := classify_header hclass
      have hlength := s.description_length
      rw [hs] at hlength
      omega
    simp only [hclass, Option.toList_none, List.append_nil]
      at hlines hoperations hframes htitles hcounters
    refine tallied_header h hlines rfl hoperations ?_ hframes htitles ?_ ?_ (x := d.unused)
    · intro o ho
      rw [← shows_length hshows]
      exact hseq.owned o ho
    · rw [hcounters, Title.long, toNat_ofNat_32 hlong]
    · rw [← hunused, ← settled_length m, Scopes.read, hclass]
      rfl
  | code c =>
    have hno : headerAttempt t.text = false := by simpa [hclass] using hattempt
    cases hactive : d.active with
    | none =>
      simp only [hclass, hactive, Option.toList_none, List.append_nil]
        at hlines hoperations hframes htitles hcounters
      exact tallied_plain h hlines (by simp) (by simp) hoperations hframes htitles hcounters
        (by rw [read_closed hno]; rfl)
    | some k =>
      have hmap := hshows.active
      rw [hactive] at hmap
      obtain ⟨s, hs, hk⟩ := Option.map_eq_some_iff.mp hmap.symm
      have hk : m.closed.length = k := hk
      obtain ⟨hcount, hbase, -⟩ := active_count hshows hseq hs
      rw [hk] at hcount hbase
      simp only [hclass, hactive, Option.toList_some, List.append_nil]
        at hlines hoperations hframes htitles hcounters
      refine tallied_code h hlines rfl hoperations rfl ?_ ?_ hk hframes htitles hcount ?_
      · rw [frames_length]
        exact hcurrent.active k hactive
      · exact (congrArg List.length (read_closed hno m)).trans hk
      · rw [hcounters, rejected_eq (o := { d.record k c with lineIndex := d.lines.length }) rfl rfl
          hcount hbase]
        rfl

end Document

/-- The document, the machine and the counts along a source. -/
structure Document.Audited (m : Scopes) (d : Document) : Prop where
  current : d.Current
  shows : d.Shows m
  sequenced : d.Sequenced m
  tallied : d.Tallied m

theorem foldl_audited (p : Platform) (ts : List LineText)
    (hsmall : ∀ t ∈ ts, t.text.length < 2 ^ 32) {d : Document} {m : Scopes} (h : d.Audited m) :
    (ts.foldl (Document.step p) d).Audited ((ts.map (·.text)).foldl Scopes.read m) := by
  induction ts generalizing d m with
  | nil => exact h
  | cons t rest ih =>
    obtain ⟨ht, hrest⟩ := List.forall_mem_cons.mp hsmall
    exact ih hrest
      { current := Document.current_step p h.current t
        shows := Document.shows_step p h.shows t
        sequenced := Document.sequenced_step h.shows h.sequenced t
        tallied := Document.tallied_step h.current h.shows h.sequenced ht h.tallied }

/-- Each counter of the report is the number of the records that it is about. -/
structure Diagnosed (report : Report) (lines : List Line) (cheats : List Cheat)
    (operations : List Operation) : Prop where
  totalCheats : report.totalCheats = lines.countP fun l => l.kind = .cheatHeader
  totalOperations : report.totalOperations = lines.countP fun l => l.kind = .code
  malformedLines : report.malformedLines = lines.countP fun l => l.kind = .malformed
  unsupportedOperations :
    report.unsupportedOperations = operations.countP fun o => o.kind = .opaqueOperation
  invalidOperationSequences : report.invalidOperationSequences =
    rejections operations + idleCheats operations cheats.length
  legacyLimitViolations : report.legacyLimitViolations =
    cheats.countP (fun c => 65 < c.description.length.toNat) +
      cheats.countP (fun c => 200 < c.operationCount) + if 50 < cheats.length then 1 else 0
  operationCounts : ∀ (k : Nat) (c : Cheat), cheats[k]? = some c →
    c.operationCount = operations.countP fun o => o.cheatIndex = k

theorem codesOf_length (operations : List Operation) (k : Nat) :
    (codesOf operations k).length = operations.countP fun o => o.cheatIndex = k := by
  rw [codesOf, List.length_map, List.countP_eq_length_filter]
  rfl

/-- At the end of the source the last scope is closed too. -/
theorem Document.Audited.diagnosed {d : Document} {m : Scopes} (h : d.Audited m) (c : Call β) :
    Diagnosed (d.finalize.report c) d.finalize.lines d.finalize.cheats d.finalize.operations := by
  obtain ⟨-, hshows, hseq, htallied⟩ := h
  have hcounters := Document.finalize_counters d
  have hframes : d.finalize.cheats.map Cheat.frame = d.frames := Document.finalize_frames d
  have htitles : d.finalize.cheats.map Cheat.title = d.titles := Document.finalize_map raise_title d
  have hcheats : d.finalize.cheats.length = d.cheats.length := Document.finalize_cheats_length d
  have hunused := Document.idleCheats_unused hshows hseq
  rw [Document.shows_length hshows] at hunused
  constructor
  case totalCheats =>
    rw [Document.finalize_lines, ← htallied.headers]
    exact hcheats
  case totalOperations =>
    rw [Document.finalize_lines, ← htallied.codes]
    exact congrArg List.length (Document.finalize_operations d)
  case malformedLines =>
    rw [Document.finalize_lines, ← htallied.malformed]
    exact congrArg Counters.malformed hcounters
  case unsupportedOperations =>
    rw [Document.finalize_operations, ← htallied.unsupported]
    exact congrArg Counters.unsupported hcounters
  case invalidOperationSequences =>
    have hinvalid : d.finalize.invalid = d.invalid + d.unused := congrArg Counters.invalid hcounters
    show d.finalize.invalid = _
    rw [Document.finalize_operations, hcheats, hunused, hinvalid, htallied.invalid, Nat.add_assoc]
  case legacyLimitViolations =>
    have hlegacy : d.finalize.legacy = d.legacy := congrArg Counters.legacy hcounters
    have hlegacy := hlegacy.trans htallied.legacy
    rw [← hframes, ← htitles, List.countP_map, List.countP_map, ← hcheats] at hlegacy
    exact hlegacy
  case operationCounts =>
    intro k c hc
    rw [Document.finalize_operations, ← codesOf_length]
    refine htallied.counted k c.frame ?_
    rw [← hframes, List.getElem?_map, hc, Option.map_some]

/-- The counters of an import that returns OK agree with its records. -/
theorem import_diagnostics (p : Platform) (c : Call β) (out : Outputs β)
    (h : vcPsvParse p c = some (.ok, out)) :
    ∃ lines cheats operations, Imported out lines cheats operations ∧
      Diagnosed out.report lines cheats operations := by
  obtain ⟨hsize, hreport, himported⟩ := ok_imported h
  have hsmall : ∀ t ∈ sourceLines c.source.value, t.text.length < 2 ^ 32 := by
    intro t ht
    obtain ⟨i, hi⟩ := List.mem_iff_getElem?.mp ht
    have hle := (lineText_slice hi).1
    rw [maxSourceBytes] at hsize
    omega
  have haudit := foldl_audited p (sourceLines c.source.value) hsmall
    { current := Document.current_empty
      shows := Document.shows_empty
      sequenced := Document.sequenced_empty
      tallied := Document.tallied_empty }
  refine ⟨_, _, _, himported, ?_⟩
  rw [hreport]
  exact haudit.diagnosed c

theorem import_diagnostics_unused :
    ∃ out, vcPsvParse ilp32 selectorCall = some (.ok, out) ∧
      out.report.invalidOperationSequences = 1 ∧
      ∃ lines cheats operations, Imported out lines cheats operations ∧
        Diagnosed out.report lines cheats operations := by
  obtain ⟨⟨status, out⟩, hrun, hshape⟩ := Option.map_eq_some_iff.mp
    (show (vcPsvParse ilp32 selectorCall).map
      (fun r => (r.1, r.2.report.invalidOperationSequences)) = some (.ok, 1) by decide)
  obtain ⟨rfl, hinvalid⟩ := Prod.mk.inj hshape
  exact ⟨out, hrun, hinvalid, import_diagnostics ilp32 selectorCall out hrun⟩

end VitaCheat.Psv
