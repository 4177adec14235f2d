import VitaCheat.PsvDocument
import VitaCheat.PsvLines

/-!
# The importer computes the document

The importer's locals and arrays after some lines are a function of the document
of these lines: each array shows the records that fit and each counter is the
document's. Every branch of the main loop takes this picture of one document to
the picture of the next, so the loop never faults and ends at the document of
the whole source.
-/
namespace VitaCheat.Psv

variable {β : Type}

/-- The report on a document, with what was stored of it. -/
def Document.report (c : Call β) (d : Document) : Report where
  schemaVersion := importSchemaVersion
  sourceSize := c.source.value.length
  totalLines := d.lines.length
  storedLines := min c.lines.capacity d.lines.length
  totalCheats := d.cheats.length
  storedCheats := min c.cheats.capacity d.cheats.length
  totalOperations := d.operations.length
  storedOperations := min c.operations.capacity d.operations.length
  unsupportedOperations := d.unsupported
  nonDirectCheats := d.nonDirect
  invalidOperationSequences := d.invalid
  malformedLines := d.malformed
  legacyLimitViolations := d.legacy

/-- The state of the importer at a position, after the lines of a document. -/
def Document.parse (p : Platform) (c : Call β) (position : Nat) (d : Document) : Parse β where
  position := position
  activeCheat := d.activeIndex p
  activeCheatOperationCount := d.count
  activeCheatTainted := d.tainted
  relativeBaseActive := d.base
  relativeWriteSeen := d.write
  result := d.report c
  lines := .showing c.lines.capacity c.lines.contents d.lines
  cheats := .showing c.cheats.capacity c.cheats.contents d.cheats
  operations := .showing c.operations.capacity c.operations.contents d.operations

/-- Cheat indices are real indices, told apart from `VC_PSV_NO_INDEX`. -/
structure Document.Fits (p : Platform) (d : Document) : Prop where
  few : d.cheats.length < noIndex p
  active : ∀ k, d.active = some k → k < d.cheats.length

theorem activeIndex_none {p : Platform} {d : Document} (h : d.active = none) :
    d.activeIndex p = noIndex p := by
  rw [Document.activeIndex, h]
  rfl

theorem activeIndex_some {p : Platform} {d : Document} {k : Nat} (h : d.active = some k) :
    d.activeIndex p = k := by
  rw [Document.activeIndex, h]
  rfl

theorem markLine_showing {s : Parse β} {capacity : Nat} {contents : Nat → β} (ls : List Line)
    (h : s.lines = .showing capacity contents ls) {i : Nat} (hi : i < ls.length) (f : Line → Line) :
    s.markLine i f = some { s with lines := .showing capacity contents (ls.modify i f) } := by
  rw [Parse.markLine, h, Buffer.showing_capacity]
  split
  · next hcap => rw [Buffer.modify_showing contents f hcap hi]; rfl
  · next hcap => rw [Buffer.showing_modify_full f hcap hi, ← h]

theorem modify_id {α : Type} {xs : List α} {k : Nat} {f : α → α} (hk : k < xs.length)
    (h : f xs[k] = xs[k]) : xs.modify k f = xs := by
  apply List.ext_getElem?
  intro j
  rw [List.getElem?_modify]
  by_cases hj : k = j
  · subst hj
    simp [hk, h]
  · simp [hj]

theorem taint_showing (p : Platform) {s : Parse β} {capacity : Nat} {contents : Nat → β}
    (cs : List Cheat) (state : TranslationState) (hactive : s.activeCheat ≠ noIndex p)
    (h : s.cheats = .showing capacity contents cs) (hk : s.activeCheat < cs.length) :
    taintActiveCheat p state s = some { s.countTaint with
      cheats := .showing capacity contents (cs.modify s.activeCheat (·.raise state)) } := by
  have hcheats : s.countTaint.cheats = .showing capacity contents cs := by
    rw [Parse.countTaint]
    split <;> exact h
  have hindex : s.countTaint.activeCheat = s.activeCheat := by
    rw [Parse.countTaint]
    split <;> rfl
  rw [taintActiveCheat, if_neg hactive]
  dsimp only
  rw [hcheats, hindex, Buffer.showing_capacity]
  split
  · next hcap =>
    rw [Buffer.load_showing hcap hk]
    simp only [Option.bind_eq_bind, Option.bind_some]
    split
    · next hgt =>
      have hmod := Buffer.modify_showing contents (·.raise state) hcap hk
      rw [Buffer.modify, Buffer.load_showing hcap hk] at hmod
      have hraise : cs[s.activeCheat].raise state =
          { cs[s.activeCheat] with translationState := state } := if_pos hgt
      simp only [hraise] at hmod
      rw [hmod]
      rfl
    · next hle =>
      rw [modify_id hk (show cs[s.activeCheat].raise state = cs[s.activeCheat] from if_neg hle),
        ← hcheats, ← hindex]
  · next hcap => rw [Buffer.showing_modify_full _ hcap hk, ← hcheats, ← hindex]

variable (p : Platform) (c : Call β) (position : Nat)

theorem taint_parse {d : Document} (hd : d.Fits p) (state : TranslationState) :
    taintActiveCheat p state (d.parse p c position) = some ((d.taint state).parse p c position) := by
  cases hactive : d.active with
  | none =>
    have hindex : (d.parse p c position).activeCheat = noIndex p := activeIndex_none hactive
    rw [taintActiveCheat, if_pos hindex, Document.taint, hactive]
  | some k =>
    have hk := hd.active k hactive
    have hindex : (d.parse p c position).activeCheat = k := activeIndex_some hactive
    have hne : (d.parse p c position).activeCheat ≠ noIndex p := by
      have := hd.few
      omega
    rw [taint_showing p d.cheats state hne rfl (by rw [hindex]; exact hk), hindex, Document.taint, hactive]
    simp only [Parse.countTaint, Document.parse, Document.report, Document.activeIndex, hactive,
      List.length_modify]
    cases d.tainted <;> rfl

theorem fits_taint {d : Document} (hd : d.Fits p) (state : TranslationState) :
    (d.taint state).Fits p := by
  rw [Document.taint]
  split
  · exact hd
  · next k hk =>
    refine ⟨?_, ?_⟩
    · rw [List.length_modify]
      exact hd.few
    · intro j hj
      rw [List.length_modify]
      exact hd.active j hj

theorem markLine_parse {d : Document} {i : Nat} (hi : d.lines.length = i + 1) (f : Line → Line) :
    (d.parse p c position).markLine i f = some ((d.markLast f).parse p c position) := by
  rw [markLine_showing (s := d.parse p c position) d.lines rfl (by omega), Document.markLast,
    show d.lines.length - 1 = i by omega]
  simp only [Document.parse, Document.report, Document.activeIndex, List.length_modify]

theorem finalize_parse {d : Document} (hd : d.Fits p) :
    finalizeActiveCheat p (d.parse p c position) = some (d.finalize.parse p c position) := by
  have hactive : (decide ((d.parse p c position).activeCheat ≠ noIndex p)) = d.active.isSome := by
    cases hactive : d.active with
    | none =>
      have : (d.parse p c position).activeCheat = noIndex p := activeIndex_none hactive
      simp [this]
    | some k =>
      have : (d.parse p c position).activeCheat = k := activeIndex_some hactive
      have := hd.active k hactive
      have := hd.few
      simp
      omega
  rw [finalizeActiveCheat, hactive, Document.finalize]
  simp only [show (d.parse p c position).relativeBaseActive = d.base from rfl,
    show (d.parse p c position).relativeWriteSeen = d.write from rfl]
  split
  · exact taint_parse p c position (d := d.countInvalid) ⟨hd.few, hd.active⟩ .malformed
  · rfl

theorem fits_finalize {d : Document} (hd : d.Fits p) : d.finalize.Fits p := by
  rw [Document.finalize]
  split
  · exact fits_taint p (d := d.countInvalid) ⟨hd.few, hd.active⟩ .malformed
  · exact hd

theorem min_succ (a n : Nat) :
    (if n < a then min a n + 1 else min a n) = min a (n + 1) := by
  split <;> omega

theorem malformedHeader_parse {d : Document} (hd : d.Fits p) {i : Nat}
    (hi : d.lines.length = i + 1) :
    malformedHeader p i (d.parse p c position) = some (d.closeMalformed.parse p c position) := by
  have htaint := taint_parse p c position
    (d := (d.markLast fun l => { l with kind := .malformed }).countMalformed)
    ⟨hd.few, hd.active⟩ .malformed
  rw [malformedHeader, markLine_parse p c position hi, Option.bind_eq_bind, Option.bind_some]
  exact (congrArg (Option.bind · fun s => some (s.activate (noIndex p))) htaint).trans rfl

theorem malformedCode_parse {d : Document} (hd : d.Fits p) {i : Nat}
    (hi : d.lines.length = i + 1) :
    malformedCode p i (d.parse p c position) = some (d.malformedCode.parse p c position) := by
  rw [malformedCode, markLine_parse p c position hi]
  exact taint_parse p c position
    (d := (d.markLast fun l => { l with kind := .malformed }).countMalformed) ⟨hd.few, hd.active⟩ _

theorem opaqueLine_parse {d : Document} (hd : d.Fits p) {i : Nat} (hi : d.lines.length = i + 1) :
    opaqueLine p i (d.parse p c position) = some ((Document.taint .requiresUnsupported
      (d.markLast fun l => { l with kind := .opaqueLine, cheatIndex := d.activeIndex p })).parse
        p c position) := by
  rw [opaqueLine, markLine_parse p c position hi]
  exact taint_parse p c position (d := d.markLast _) ⟨hd.few, hd.active⟩ _

/-- The record of a new cheat is appended, and stored while there is room. -/
theorem storeCheat_parse (d : Document) {i descriptionBegin trimmedEnd : Nat} (activation : UInt8)
    (hle : descriptionBegin ≤ trimmedEnd) (hmax : trimmedEnd < 2 ^ 32) :
    (d.parse p c position).storeCheat d.cheats.length i activation descriptionBegin trimmedEnd =
      some { d.parse p c position with
        cheats := .showing c.cheats.capacity c.cheats.contents (d.cheats ++
          [{ activation := if activation = 0x31 then .autostart else .manual
             translationState := .directOnly
             description := ⟨BitVec.ofNat 32 descriptionBegin,
              BitVec.ofNat 32 (trimmedEnd - descriptionBegin)⟩
             headerLineIndex := i
             firstOperationIndex := d.operations.length
             operationCount := 0 }])
        result :=
          { d.report c with storedCheats := min c.cheats.capacity (d.cheats.length + 1) } } := by
  rw [Parse.storeCheat, ← min_succ]
  by_cases hroom : d.cheats.length < c.cheats.capacity
  · simp only [Document.parse, Buffer.showing_capacity, hroom, if_true, checkedSpan_eq hle hmax,
      Option.bind_eq_bind, Option.bind_some, Buffer.store_showing _ hroom]
    rfl
  · simp only [Document.parse, Buffer.showing_capacity, hroom, if_false,
      Buffer.showing_full _ hroom]
    rfl

theorem openCheat_parse (d : Document) {i trimmedEnd : Nat} (descriptionBegin : Nat)
    (activation : UInt8) (hi : d.lines.length = i + 1) (hle : descriptionBegin ≤ trimmedEnd)
    (hmax : trimmedEnd < 2 ^ 32) :
    (((d.parse p c position).storeCheat d.cheats.length i activation descriptionBegin
          trimmedEnd).bind fun s =>
        (s.markLine i fun l =>
          { l with kind := .cheatHeader, cheatIndex := d.cheats.length }).bind fun s =>
        some ((s.countHeader (trimmedEnd - descriptionBegin)).activate d.cheats.length)) =
      some ((d.openCheat (if activation = 0x31 then .autostart else .manual) descriptionBegin
        (trimmedEnd - descriptionBegin)).parse p c position) := by
  rw [storeCheat_parse p c position d activation hle hmax, Option.bind_some,
    markLine_showing d.lines rfl (by omega), Option.bind_some]
  simp only [Document.openCheat, Document.markLast, Document.activate, Document.parse,
    Document.report, Document.activeIndex, Parse.activate, Parse.countHeader, Parse.countLegacy,
    List.length_modify, List.length_append, List.length_singleton, hi, Nat.add_sub_cancel,
    Option.getD_some, Option.some.injEq]
  by_cases hlong : trimmedEnd - descriptionBegin > legacyMaxDescriptionBytes <;>
    by_cases hmany : d.cheats.length + 1 = legacyMaxCheats + 1 <;>
    simp only [hlong, hmany, if_true, if_false]
  all_goals rfl

/-- The effect of a header line, valid or not. -/
def Document.header (d : Document) (trimmedEnd : Nat) : LineClass → Document
  | .header activation description =>
    d.finalize.openCheat activation (trimmedEnd - description.length) description.length
  | _ => d.finalize.closeMalformed

theorem headerLine_parse {source : List UInt8} {d : Document} (hd : d.Fits p) {i : Nat}
    (tb te : Nat)
    (hi : d.lines.length = i + 1) (hte : te ≤ source.length) (hmax : te < 2 ^ 32)
    (h : headerAttempt (Cursor.slice source tb te) = true) :
    headerLine p source i tb te (d.parse p c position) =
      some ((d.header te (headerClass ((Cursor.slice source tb te).drop 2))).parse p c position) := by
  obtain ⟨activation, hle, hread, hdrop⟩ := headerAttempt_cases hte h
  have hcheats : (d.parse p c position).result.totalCheats = d.finalize.cheats.length :=
    (Document.finalize_cheats_length d).symm
  have hlines : d.finalize.lines.length = i + 1 := by rw [Document.finalize_lines, hi]
  rw [headerLine, hread, hdrop, headerClass, hcheats]
  simp only [Option.bind_eq_bind, Option.bind_some, finalize_parse p c position hd,
    badHeader_eq activation hte]
  cases hgood : goodHeader activation (Cursor.slice source (tb + 3) te) with
  | true =>
    have hskip := Cursor.skipWhile_eq asciiSpace hle hte
    have hsplit : ((Cursor.slice source (tb + 3) te).takeWhile asciiSpace).length +
        ((Cursor.slice source (tb + 3) te).dropWhile asciiSpace).length = te - (tb + 3) := by
      rw [← List.length_append, List.takeWhile_append_dropWhile, Cursor.slice_length hte]
    have hopen := openCheat_parse p c position d.finalize (i := i)
      (tb + 3 + ((Cursor.slice source (tb + 3) te).takeWhile asciiSpace).length)
      activation hlines (by omega) hmax
    have hbegin : te - ((Cursor.slice source (tb + 3) te).dropWhile asciiSpace).length =
        tb + 3 + ((Cursor.slice source (tb + 3) te).takeWhile asciiSpace).length := by omega
    have hsize : ((Cursor.slice source (tb + 3) te).dropWhile asciiSpace).length =
        te - (tb + 3 + ((Cursor.slice source (tb + 3) te).takeWhile asciiSpace).length) := by omega
    simp only [Bool.not_true, Bool.false_eq_true, if_false, if_true, hskip, Option.bind_some,
      Document.header]
    rw [checkedSub_eq (by omega), hbegin, hsize]
    exact hopen
  | false =>
    simp only [Bool.not_false, Bool.false_eq_true, if_true, if_false, Document.header]
    exact malformedHeader_parse p c position (fits_finalize p hd) hlines

theorem countOperation_showing {s : Parse β} {capacity : Nat} {contents : Nat → β}
    (cs : List Cheat) (h : s.cheats = .showing capacity contents cs)
    (hk : s.activeCheat < cs.length) :
    s.countOperation =
      some (let s := { s with
              result := { s.result with totalOperations := s.result.totalOperations + 1 }
              activeCheatOperationCount := s.activeCheatOperationCount + 1
              cheats := .showing capacity contents (cs.modify s.activeCheat fun cheat =>
                { cheat with operationCount := cheat.operationCount + 1 }) }
            if s.activeCheatOperationCount = legacyMaxCodesPerCheat + 1 then s.countLegacy
            else s) := by
  rw [Parse.countOperation]
  simp only [h, Buffer.showing_capacity]
  by_cases hcap : s.activeCheat < capacity
  · simp only [hcap, if_true, Buffer.modify_showing contents _ hcap hk, Option.bind_eq_bind,
      Option.bind_some]
  · simp only [hcap, if_false, Buffer.showing_modify_full _ hcap hk, Option.bind_eq_bind,
      Option.bind_some]

/-- The record of an operation is appended, and stored while there is room. -/
theorem storeOperation_parse (d : Document) (o : Operation) :
    (d.parse p c position).storeOperation d.operations.length o =
      some { d.parse p c position with
        operations := .showing c.operations.capacity c.operations.contents (d.operations ++ [o])
        result := { d.report c with
          storedOperations := min c.operations.capacity (d.operations.length + 1) } } := by
  rw [Parse.storeOperation, ← min_succ]
  by_cases hroom : d.operations.length < c.operations.capacity
  · simp only [Document.parse, Buffer.showing_capacity, hroom, if_true, Option.bind_eq_bind,
      Option.bind_some, Buffer.store_showing _ hroom]
    rfl
  · simp only [Document.parse, Buffer.showing_capacity, hroom, if_false,
      Buffer.showing_full _ hroom]
    rfl

theorem selectModule_parse {d : Document} (hd : d.Fits p) (code : Code) :
    selectModule p code (d.parse p c position) =
      some ((d.selectModule code).parse p c position) := by
  rw [selectModule, Document.selectModule]
  split
  · next hbad =>
    have hrejects : d.acceptsSelector code = false := congrArg (!·) hbad
    rw [if_neg (by simp [hrejects])]
    exact taint_parse p c position (d := d.countInvalid) ⟨hd.few, hd.active⟩ _
  · next hgood =>
    have haccepts : d.acceptsSelector code = true := congrArg (!·) (Bool.eq_false_iff.mpr hgood)
    rw [if_pos haccepts]
    exact taint_parse p c position (d := { d with base := true, write := false })
      ⟨hd.few, hd.active⟩ _

theorem noteWrite_parse (d : Document) :
    (if (d.parse p c position).relativeBaseActive then
        { d.parse p c position with relativeWriteSeen := true }
      else d.parse p c position) =
      (if d.base then { d with write := true } else d).parse p c position := by
  rw [apply_ite (Document.parse p c position)]
  rfl

/-- An operation that is no opaque one acts on the relative base at once. -/
theorem applyKind_parse {d : Document} (hd : d.Fits p) (code : Code)
    (h : operationKind code.code ≠ .opaqueOperation) :
    applyKind p (operationKind code.code) code (d.parse p c position) =
      some ((d.applyKind code).parse p c position) := by
  rw [applyKind, Document.applyKind]
  cases hkind : operationKind code.code with
  | selectModuleBase => exact selectModule_parse p c position hd code
  | opaqueOperation => exact absurd hkind h
  | writeU8 => exact congrArg some (noteWrite_parse p c position d)
  | writeU16 => exact congrArg some (noteWrite_parse p c position d)
  | writeU32 => exact congrArg some (noteWrite_parse p c position d)

/-- The record that the importer stores is the document's. -/
theorem record_eq {d e : Document} {i k : Nat} (code : Code) (hi : d.lines.length = i + 1)
    (hk : e.active = some k)
    (hmode : e.addressMode (operationKind code.code) = d.addressMode (operationKind code.code)) :
    ({ kind := operationKind code.code
       addressMode := (e.parse p c position).addressMode (operationKind code.code)
       legacyCode := code.code
       address := code.address
       value := code.value
       cheatIndex := (e.parse p c position).activeCheat
       lineIndex := i } : Operation) = d.record k code := by
  have hmode' : (e.parse p c position).addressMode (operationKind code.code) =
      e.addressMode (operationKind code.code) := rfl
  have hindex : (e.parse p c position).activeCheat = k := activeIndex_some hk
  rw [Document.record, hmode', hmode, hindex, hi]
  rfl

/-- The importer between storing an operation and counting it. -/
def Document.pending (e : Document) (o : Operation) (f : Line → Line) : Parse β :=
  { e.parse p c position with
    lines := .showing c.lines.capacity c.lines.contents (e.markLast f).lines
    operations := .showing c.operations.capacity c.operations.contents (e.operations ++ [o])
    result := { e.report c with
      storedOperations := min c.operations.capacity (e.operations.length + 1) } }

theorem pending_parse (e : Document) {i : Nat} (hi : e.lines.length = i + 1) (o : Operation)
    (f : Nat → Line → Line) :
    (((e.parse p c position).storeOperation e.operations.length o).bind fun s =>
        s.markLine i (f s.activeCheat)) =
      some (e.pending p c position o (f (e.activeIndex p))) := by
  rw [storeOperation_parse, Option.bind_some, markLine_showing e.lines rfl (by omega),
    Document.pending, Document.markLast, hi]
  rfl

theorem taint_pending {d : Document} (hd : d.Fits p) {k : Nat} (hk : d.active = some k)
    (o : Operation) (f : Line → Line) :
    taintActiveCheat p .requiresUnsupported (d.pending p c position o f).countUnsupported =
      some (((Document.taint .requiresUnsupported
        { d with unsupported := d.unsupported + 1 }).pending p c position o f)) := by
  have hindex : (d.pending p c position o f).countUnsupported.activeCheat = k := activeIndex_some hk
  have hlt := hd.active k hk
  have hfew := hd.few
  rw [taint_showing p d.cheats .requiresUnsupported (by omega) rfl (by omega), hindex,
    Document.taint]
  simp only [hk, Document.pending, Parse.countTaint, Parse.countUnsupported, Document.parse,
    Document.report, Document.activeIndex, Document.markLast, List.length_modify]
  cases d.tainted <;> rfl

theorem count_pending {e : Document} (he : e.Fits p) {k : Nat} (hk : e.active = some k)
    (o : Operation) (f : Line → Line) :
    (e.pending p c position o f).countOperation =
      some ((((Document.markLast f { e with operations := e.operations ++ [o] }).countOperation
        k)).parse p c position) := by
  have hindex : (e.pending p c position o f).activeCheat = k := activeIndex_some hk
  have hlt := he.active k hk
  rw [countOperation_showing e.cheats rfl (by omega), hindex]
  simp only [Document.pending, Document.markLast, Document.countOperation, Document.parse,
    Document.report, Document.activeIndex, hk, Option.getD_some, List.length_modify,
    List.length_append, List.length_singleton, Parse.countLegacy, Option.some.injEq]
  split <;> rfl

theorem fits_applyKind {d : Document} (hd : d.Fits p) (code : Code) : (d.applyKind code).Fits p := by
  refine ⟨?_, ?_⟩
  · rw [Document.applyKind_cheats_length]
    exact hd.few
  · intro k hk
    rw [Document.applyKind_cheats_length]
    rw [Document.applyKind_active] at hk
    exact hd.active k hk

/-- The effect of a line that starts with a dollar sign. -/
def Document.codeLine (d : Document) : Option Code → Document
  | none => d.malformedCode
  | some code =>
    match d.active with
    | none => d.malformedCode
    | some k => d.addOperation k code

theorem codeLine_parse {source : List UInt8} {d : Document} (hd : d.Fits p) {i : Nat}
    (tb te : Nat)
    (hi : d.lines.length = i + 1) (hle : tb ≤ te) (hte : te ≤ source.length) :
    codeLine p source i tb te (d.parse p c position) =
      some ((d.codeLine (codeText (Cursor.slice source tb te))).parse p c position) := by
  rw [codeLine]
  cases hactive : d.active with
  | none =>
    have hindex : (d.parse p c position).activeCheat = noIndex p := activeIndex_none hactive
    rw [if_pos hindex, malformedCode_parse p c position hd hi]
    cases codeText (Cursor.slice source tb te) with
    | none => rfl
    | some code => simp only [Document.codeLine, hactive]
  | some k =>
    have hindex : (d.parse p c position).activeCheat = k := activeIndex_some hactive
    have hlt := hd.active k hactive
    have hfew := hd.few
    rw [if_neg (by omega), parseCode_eq hle hte]
    simp only [Option.bind_eq_bind, Option.bind_some]
    cases codeText (Cursor.slice source tb te) with
    | none => exact malformedCode_parse p c position hd hi
    | some code =>
      have he := fits_applyKind p hd code
      have hke : (d.applyKind code).active = some k := by rw [Document.applyKind_active, hactive]
      have hie : (d.applyKind code).lines.length = i + 1 := by
        rw [Document.applyKind_lines, hi]
      have htotal : (d.parse p c position).result.totalOperations = d.operations.length := rfl
      simp only [Document.codeLine, hactive, htotal]
      by_cases hother : operationKind code.code = .opaqueOperation
      · have happly : applyKind p (operationKind code.code) code (d.parse p c position) =
            some (d.parse p c position) := by simp [applyKind, hother]
        have hdoc : d.applyKind code = Document.taint .requiresUnsupported
            { d with unsupported := d.unsupported + 1 } := by simp [Document.applyKind, hother]
        rw [happly, Option.bind_some, record_eq p c position code hi hactive rfl, ← Option.bind_assoc,
          pending_parse p c position d hi (d.record k code) fun active l => { l with
            kind := .code, cheatIndex := active, operationIndex := d.operations.length }]
        simp only [Option.bind_some, hother, if_true, activeIndex_some hactive]
        rw [taint_pending p c position hd hactive, Option.bind_some, ← hdoc,
          count_pending p c position he hke]
        simp only [Document.addOperation, Document.markLast, Document.applyKind_lines,
          Document.applyKind_operations]
      · rw [applyKind_parse p c position hd code hother, Option.bind_some,
          record_eq p c position code hi hke (Document.applyKind_addressMode d code),
          ← Document.applyKind_operations d code, ← Option.bind_assoc,
          pending_parse p c position (d.applyKind code) hie (d.record k code) fun active l => { l with
            kind := .code, cheatIndex := active, operationIndex := (d.applyKind code).operations.length }]
        simp only [Option.bind_some, hother, if_false, activeIndex_some hke]
        rw [count_pending p c position he hke]
        simp only [Document.addOperation, Document.markLast, Document.applyKind_lines,
          Document.applyKind_operations]

/-- Bounds of a line that fit 32 bits. -/
structure Bounds.Ordered (b : Bounds) : Prop where
  raw : b.rawBegin ≤ b.rawEnd
  content : b.contentBegin ≤ b.contentEnd
  raw_lt : b.rawEnd < 2 ^ 32
  content_lt : b.contentEnd < 2 ^ 32

theorem storeLine_showing (capacity : Nat) (contents : Nat → β) (ls : List Line) {b : Bounds}
    (hb : b.Ordered) :
    storeLine p (.showing capacity contents ls) ls.length b = some (.showing capacity contents
      (ls ++ [⟨b.raw, b.content, .opaqueLine, noIndex p, noIndex p⟩])) := by
  rw [storeLine, Buffer.showing_capacity]
  split
  · next hfull => rw [Buffer.showing_full _ (by omega)]
  · next hroom =>
    rw [checkedSpan_eq hb.raw hb.raw_lt, checkedSpan_eq hb.content hb.content_lt]
    exact Buffer.store_showing _ (by omega)

theorem enterLine_parse (d : Document) {b : Bounds} (hb : b.Ordered) :
    enterLine p b (d.parse p c position) = some ((d.addLine p b).parse p c b.rawEnd) := by
  have hstore := storeLine_showing p c.lines.capacity c.lines.contents d.lines hb
  rw [enterLine]
  simp only [Document.parse, Document.report, Document.addLine, Document.activeIndex, hstore,
    Option.bind_eq_bind, Option.bind_some, Buffer.showing_capacity, List.length_append,
    List.length_singleton]
  rw [← min_succ]
  rfl

/-- The bounds of a line of the source are in order. -/
theorem lineText_ordered {source : List UInt8} {position : Nat} (first : Bool)
    (h : position ≤ source.length) (hmax : source.length < 2 ^ 32) :
    (lineText position first (nextLine source position)).bounds.Ordered := by
  have hmark := markLength_le first (nextLine source position).content
  have hraw := nextLine_length_le h
  have hcontent : (nextLine source position).content.length ≤
      (nextLine source position).bytes.length := by
    rw [TextLines.RawLine.bytes, List.length_append]
    omega
  constructor <;> simp only [lineText] <;> omega

/-- What a step does, by the first bytes of the trimmed text. -/
theorem step_cases (d : Document) (t : LineText) :
    d.step p t =
      match t.text with
      | [] => (d.addLine p t.bounds).markLast fun l => { l with kind := .blank }
      | first :: rest =>
        if first = 0x23 then (d.addLine p t.bounds).markLast fun l => { l with kind := .comment }
        else if headerAttempt (first :: rest) then
          (d.addLine p t.bounds).header (t.trimmedBegin + t.text.length)
            (headerClass ((first :: rest).drop 2))
        else if first = 0x24 then (d.addLine p t.bounds).codeLine (codeText (first :: rest))
        else Document.taint .requiresUnsupported ((d.addLine p t.bounds).markLast fun l =>
          { l with kind := .opaqueLine, cheatIndex := (d.addLine p t.bounds).activeIndex p }) := by
  rw [Document.step]
  cases htext : t.text with
  | nil => rfl
  | cons first rest =>
    rw [classify]
    by_cases hcomment : first = 0x23
    · simp only [if_pos hcomment]
    · by_cases hheader : headerAttempt (first :: rest) = true
      · simp only [if_neg hcomment, if_pos hheader]
        rcases headerClass_cases ((first :: rest).drop 2) with h | ⟨activation, description, h⟩
        · rw [h]
          rfl
        · rw [h]
          rfl
      · by_cases hdollar : first = 0x24
        · simp only [if_neg hcomment, if_neg hheader, if_pos hdollar]
          cases codeText (first :: rest) <;> rfl
        · simp only [if_neg hcomment, if_neg hheader, if_neg hdollar]

theorem parseLine_parse {source : List UInt8} {d : Document} (hd : d.Fits p)
    (h : position < source.length) (hmax : source.length < 2 ^ 32) :
    parseLine p source (d.parse p c position) =
      some ((d.step p (lineText position (decide (d.lines.length = 0))
        (nextLine source position))).parse p c
          (position + (nextLine source position).bytes.length)) := by
  have hordered := lineText_ordered (decide (d.lines.length = 0)) (Nat.le_of_lt h) hmax
  have htotal : (d.parse p c position).result.totalLines = d.lines.length := rfl
  have hposition : (d.parse p c position).position = position := rfl
  rw [parseLine, htotal, hposition, scanLine_eq _ (Nat.le_of_lt h), step_cases]
  simp only [Option.bind_eq_bind, Option.bind_some]
  rw [enterLine_parse p c position d hordered, Option.bind_some]
  have hr : (lineText position (decide (d.lines.length = 0))
      (nextLine source position)).bounds.rawEnd =
        position + (nextLine source position).bytes.length := rfl
  generalize ht : lineText position (decide (d.lines.length = 0)) (nextLine source position) = t
    at hr
  obtain ⟨htrim, hte, htext⟩ := lineText_trim h ht
  rw [htrim, hr]
  have hlines : (d.addLine p t.bounds).lines.length = d.lines.length + 1 := by
    simp [Document.addLine]
  have hfits : (d.addLine p t.bounds).Fits p := ⟨hd.few, hd.active⟩
  simp only [Option.bind_some]
  cases hcase : t.text with
  | nil =>
    simp only [List.length_nil, Nat.add_zero, if_true]
    exact markLine_parse p c _ hlines _
  | cons first rest =>
    rw [hcase] at htext hte
    have hlen : t.trimmedBegin < t.trimmedBegin + (first :: rest).length := by
      rw [List.length_cons]
      omega
    have hin : t.trimmedBegin < source.length := by omega
    have hend_lt : t.trimmedBegin + (first :: rest).length < 2 ^ 32 := by omega
    have hfirst : source[t.trimmedBegin] = first := by
      have := Cursor.slice_cons hlen hin
      rw [htext] at this
      exact (List.cons.inj this).1.symm
    rw [if_neg (by omega), List.getElem?_eq_getElem hin, hfirst, Option.bind_some]
    dsimp only
    split
    · exact markLine_parse p c _ hlines _
    · rw [startsHeader_eq (Nat.le_of_lt hlen) hte, htext, Option.bind_some]
      split
      · next hheader =>
        have hline := headerLine_parse p c (position + (nextLine source position).bytes.length)
          hfits t.trimmedBegin (t.trimmedBegin + (first :: rest).length) hlines hte hend_lt
          (by rw [htext]; exact hheader)
        rw [htext] at hline
        exact hline
      · split
        · have hline := codeLine_parse p c (position + (nextLine source position).bytes.length)
            hfits t.trimmedBegin (t.trimmedBegin + (first :: rest).length) hlines
            (Nat.le_of_lt hlen) hte
          rw [htext] at hline
          exact hline
        · exact opaqueLine_parse p c _ hfits hlines

end VitaCheat.Psv
