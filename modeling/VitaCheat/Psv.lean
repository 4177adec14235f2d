import VitaCheat.Lib.Buffer
import VitaCheat.Lib.Cursor
import VitaCheat.Lib.TextLines
import VitaCheat.Platform

/-!
# The legacy importer

The functions of `legacy_psv.c`. The answer `none` is a fault: a read outside
the source, a store or load outside an output array, a load of a record that was
not stored before, a subtraction of positions below zero, a lossy cast to 32
bits, or a main loop that runs out of fuel. The size counters of the report stay
far below `SIZE_MAX` and are plain naturals.
-/
namespace VitaCheat.Psv

open TextLines (cr lf isBreak)

abbrev U16 := BitVec 16
abbrev U32 := BitVec 32

def importSchemaVersion : U32 := 2
def maxSourceBytes : Nat := 1024 * 1024

/-- `VC_PSV_NO_INDEX`. -/
def noIndex (p : Platform) : Nat := p.sizeMax

def legacyMaxCheats : Nat := 50
def legacyMaxCodesPerCheat : Nat := 200
def legacyMaxDescriptionBytes : Nat := 65

inductive Status where
  | ok | truncated | invalidArgument | sourceTooLarge
  deriving DecidableEq, Repr

def Status.code : Status → Int
  | .ok => 0
  | .truncated => 1
  | .invalidArgument => -1
  | .sourceTooLarge => -2

inductive LineKind where
  | blank | comment | cheatHeader | code | opaqueLine | malformed
  deriving DecidableEq, Repr

inductive Activation where
  | manual | autostart
  deriving DecidableEq, Repr

inductive OperationKind where
  | opaqueOperation | writeU8 | writeU16 | writeU32 | selectModuleBase
  deriving DecidableEq, Repr

inductive TranslationState where
  | directOnly | moduleRelative | requiresUnsupported | malformed
  deriving DecidableEq, Repr

inductive AddressMode where
  | notApplicable | absolute | selectedModuleRelative
  deriving DecidableEq, Repr

/-- The integer value of a translation state. -/
def TranslationState.code : TranslationState → Nat
  | .directOnly => 0
  | .moduleRelative => 1
  | .requiresUnsupported => 2
  | .malformed => 3

structure Span where
  offset : U32
  length : U32
  deriving DecidableEq, Repr

structure Line where
  raw : Span
  content : Span
  kind : LineKind
  cheatIndex : Nat
  operationIndex : Nat
  deriving DecidableEq, Repr

structure Cheat where
  activation : Activation
  translationState : TranslationState
  description : Span
  headerLineIndex : Nat
  firstOperationIndex : Nat
  operationCount : Nat
  deriving DecidableEq, Repr

structure Operation where
  kind : OperationKind
  addressMode : AddressMode
  legacyCode : U16
  address : U32
  value : U32
  cheatIndex : Nat
  lineIndex : Nat
  deriving DecidableEq, Repr

structure Report where
  schemaVersion : U32
  sourceSize : Nat
  totalLines : Nat
  storedLines : Nat
  totalCheats : Nat
  storedCheats : Nat
  totalOperations : Nat
  storedOperations : Nat
  unsupportedOperations : Nat
  nonDirectCheats : Nat
  invalidOperationSequences : Nat
  malformedLines : Nat
  legacyLimitViolations : Nat
  deriving DecidableEq, Repr

/-- The records that `memset` leaves. -/
def Line.zero : Line := ⟨⟨0, 0⟩, ⟨0, 0⟩, .blank, 0, 0⟩
def Cheat.zero : Cheat := ⟨.manual, .directOnly, ⟨0, 0⟩, 0, 0, 0⟩
def Operation.zero : Operation := ⟨.opaqueOperation, .notApplicable, 0, 0, 0, 0, 0⟩
def Report.zero : Report := ⟨0, 0, 0, 0, 0, 0, 0, 0, 0, 0, 0, 0, 0⟩

/-- An output array of the caller, with contents of any kind. -/
structure Storage (β : Type) where
  address : Nat
  capacity : Nat
  contents : Nat → β

def Storage.fresh {β : Type} (α : Type) (a : Storage β) : Buffer β α :=
  ⟨a.capacity, fun i => .initial (a.contents i)⟩

/-- The arguments of a call. -/
structure Call (β : Type) where
  source : Object (List UInt8)
  lines : Storage β
  cheats : Storage β
  operations : Storage β
  report : Object Report

/-- What a call leaves in the caller's memory. -/
structure Outputs (β : Type) where
  lines : Buffer β Line
  cheats : Buffer β Cheat
  operations : Buffer β Operation
  report : Report

variable {β : Type}

def Call.untouched (c : Call β) : Outputs β :=
  ⟨c.lines.fresh Line, c.cheats.fresh Cheat, c.operations.fresh Operation, c.report.value⟩

/-- A subtraction that must not go below zero. -/
def checkedSub (a b : Nat) : Option Nat := if b ≤ a then some (a - b) else none

/-- A cast to `uint32_t` that must not lose bits. -/
def checkedU32 (n : Nat) : Option U32 := if n < 2 ^ 32 then some (BitVec.ofNat 32 n) else none

def checkedSpan (first last : Nat) : Option Span := do
  let offset ← checkedU32 first
  let size ← checkedSub last first
  let length ← checkedU32 size
  some ⟨offset, length⟩

def asciiSpace (value : UInt8) : Bool := value == 0x20 || value == 0x09

def multiplySize (p : Platform) (left right : Nat) : Option Nat := p.multiply left right

def rangesOverlap (p : Platform) (left leftSize right rightSize : Nat) : Bool :=
  p.overlap left leftSize right rightSize

/-- Bytes from 0x80 on are no digits, whatever the sign of `char`. -/
def hexValue (value : UInt8) : Int :=
  if 0x30 ≤ value ∧ value ≤ 0x39 then value.toNat - 0x30
  else if 0x61 ≤ value ∧ value ≤ 0x66 then value.toNat - 0x61 + 10
  else if 0x41 ≤ value ∧ value ≤ 0x46 then value.toNat - 0x41 + 10
  else -1

def hexLoop (source : List UInt8) : Nat → Nat → U32 → Option (Option U32)
  | 0, _, parsed => some (some parsed)
  | remaining + 1, offset, parsed =>
    match source[offset]? with
    | none => none
    | some b =>
      if hexValue b < 0 then some none
      else hexLoop source remaining (offset + 1) (parsed <<< 4 ||| BitVec.ofInt 32 (hexValue b))

/-- The inner `none` is the answer `false`. -/
def parseHexExact (source : List UInt8) (offset digits : Nat) : Option (Option U32) :=
  hexLoop source digits offset 0

def operationKind (code : U16) : OperationKind :=
  if code = 0x0000 then .writeU8
  else if code = 0x0100 then .writeU16
  else if code = 0x0200 then .writeU32
  else if code = 0xb200 then .selectModuleBase
  else .opaqueOperation

def trimSpan (source : List UInt8) (first last : Nat) : Option (Nat × Nat) := do
  let first ← Cursor.skipWhile asciiSpace source first last
  let last ← Cursor.retreatWhile asciiSpace source first last
  some (first, last)

structure Code where
  code : U16
  address : U32
  value : U32
  deriving DecidableEq, Repr

/-- Go on unless a step of the code grammar has failed. -/
def accept {α γ : Type} (r : Option (Option α)) (f : α → Option (Option γ)) : Option (Option γ) :=
  match r with
  | none => none
  | some none => some none
  | some (some a) => f a

/-- A field of exactly `digits` hex digits, and the cursor after it. -/
def hexField (source : List UInt8) (first last digits : Nat) : Option (Option (U32 × Nat)) := do
  let size ← checkedSub last first
  if size < digits then some none
  else accept (parseHexExact source first digits) fun value => some (some (value, first + digits))

/-- One or more spaces, and the cursor after them. -/
def gap (source : List UInt8) (first last : Nat) : Option (Option Nat) := do
  if first = last then some none
  else
    let b ← source[first]?
    if !asciiSpace b then some none
    else
      let first ← Cursor.skipWhile asciiSpace source first last
      some (some first)

def parseCode (source : List UInt8) (first last : Nat) : Option (Option Code) := do
  let size ← checkedSub last first
  if size < 1 + 4 + 1 + 8 + 1 + 8 then some none
  else
    let b ← source[first]?
    if b ≠ 0x24 then some none
    else
      accept (hexField source (first + 1) last 4) fun (code, first) =>
      accept (gap source first last) fun first =>
      accept (hexField source first last 8) fun (address, first) =>
      accept (gap source first last) fun first =>
      accept (hexField source first last 8) fun (value, first) => do
        let first ← Cursor.skipWhile asciiSpace source first last
        if first ≠ last then some none
        else some (some ⟨code.setWidth 16, address, value⟩)

/-- The locals of `vc_psv_parse` and the output arrays. -/
structure Parse (β : Type) where
  position : Nat
  activeCheat : Nat
  activeCheatOperationCount : Nat
  activeCheatTainted : Bool
  relativeBaseActive : Bool
  relativeWriteSeen : Bool
  result : Report
  lines : Buffer β Line
  cheats : Buffer β Cheat
  operations : Buffer β Operation

/-- The bounds of a line. -/
structure Bounds where
  rawBegin : Nat
  rawEnd : Nat
  contentBegin : Nat
  contentEnd : Nat
  deriving DecidableEq, Repr

def storeLine (p : Platform) (lines : Buffer β Line) (index : Nat) (b : Bounds) :
    Option (Buffer β Line) :=
  if index ≥ lines.capacity then some lines
  else do
    let raw ← checkedSpan b.rawBegin b.rawEnd
    let content ← checkedSpan b.contentBegin b.contentEnd
    lines.store index ⟨raw, content, .opaqueLine, noIndex p, noIndex p⟩

/-- `++report->non_direct_cheats` for a cheat that was untainted. -/
def Parse.countTaint (s : Parse β) : Parse β :=
  if s.activeCheatTainted then s
  else
    { s with
      activeCheatTainted := true
      result := { s.result with nonDirectCheats := s.result.nonDirectCheats + 1 } }

def taintActiveCheat (p : Platform) (state : TranslationState) (s : Parse β) : Option (Parse β) :=
  if s.activeCheat = noIndex p then some s
  else
    let s := s.countTaint
    if s.activeCheat < s.cheats.capacity then do
      let cheat ← s.cheats.load s.activeCheat
      if state.code > cheat.translationState.code then
        let cheats ← s.cheats.store s.activeCheat { cheat with translationState := state }
        some { s with cheats := cheats }
      else some s
    else some s

def Parse.countInvalid (s : Parse β) : Parse β :=
  { s with result :=
    { s.result with invalidOperationSequences := s.result.invalidOperationSequences + 1 } }

def Parse.countMalformed (s : Parse β) : Parse β :=
  { s with result := { s.result with malformedLines := s.result.malformedLines + 1 } }

def Parse.countUnsupported (s : Parse β) : Parse β :=
  { s with result :=
    { s.result with unsupportedOperations := s.result.unsupportedOperations + 1 } }

def Parse.countLegacy (s : Parse β) : Parse β :=
  { s with result :=
    { s.result with legacyLimitViolations := s.result.legacyLimitViolations + 1 } }

def finalizeActiveCheat (p : Platform) (s : Parse β) : Option (Parse β) :=
  if s.activeCheat ≠ noIndex p && s.relativeBaseActive && !s.relativeWriteSeen then
    taintActiveCheat p .malformed s.countInvalid
  else some s

/-- Move past CR LF, a lone CR or LF. -/
def skipTerminator (source : List UInt8) (position : Nat) : Option Nat :=
  if position < source.length then do
    let b ← source[position]?
    if b = cr then
      if position + 1 < source.length then
        let c ← source[position + 1]?
        if c = lf then some (position + 2) else some (position + 1)
      else some (position + 1)
    else if b = lf then some (position + 1)
    else some position
  else some position

/-- Move past a UTF-8 byte order mark at the start of the first line. -/
def skipMark (source : List UInt8) (lineIndex contentBegin contentEnd : Nat) : Option Nat :=
  if lineIndex = 0 then do
    let size ← checkedSub contentEnd contentBegin
    if size ≥ 3 then
      let b0 ← source[contentBegin]?
      let b1 ← source[contentBegin + 1]?
      let b2 ← source[contentBegin + 2]?
      if b0 = 0xef ∧ b1 = 0xbb ∧ b2 = 0xbf then some (contentBegin + 3) else some contentBegin
    else some contentBegin
  else some contentBegin

def scanLine (source : List UInt8) (position lineIndex : Nat) : Option Bounds := do
  let contentEnd ← Cursor.skipWhile (!isBreak ·) source position source.length
  let rawEnd ← skipTerminator source contentEnd
  let contentBegin ← skipMark source lineIndex position contentEnd
  some ⟨position, rawEnd, contentBegin, contentEnd⟩

/-- An assignment through `stored_line`, which is null past the capacity. -/
def Parse.markLine (s : Parse β) (lineIndex : Nat) (f : Line → Line) : Option (Parse β) :=
  if lineIndex < s.lines.capacity then do
    let lines ← s.lines.modify lineIndex f
    some { s with lines := lines }
  else some s

/-- Forget the active cheat, or make another one active. -/
def Parse.activate (s : Parse β) (cheat : Nat) : Parse β :=
  { s with
    activeCheat := cheat
    activeCheatOperationCount := 0
    activeCheatTainted := false
    relativeBaseActive := false
    relativeWriteSeen := false }

/-- Three bytes or more that start with `_V`. -/
def startsHeader (source : List UInt8) (trimmedBegin trimmedEnd : Nat) : Option Bool := do
  let size ← checkedSub trimmedEnd trimmedBegin
  if size ≥ 3 then
    let b0 ← source[trimmedBegin]?
    let b1 ← source[trimmedBegin + 1]?
    some (b0 == 0x5f && b1 == 0x56)
  else some false

/-- The activation digit is wrong or something other than a space follows it. -/
def badHeader (source : List UInt8) (activation : UInt8) (descriptionBegin trimmedEnd : Nat) :
    Option Bool :=
  if activation ≠ 0x30 ∧ activation ≠ 0x31 then some true
  else if descriptionBegin < trimmedEnd then do
    let b ← source[descriptionBegin]?
    some (!asciiSpace b)
  else some false

/-- The record of a new cheat, while there is room for it. -/
def Parse.storeCheat (s : Parse β) (cheatIndex lineIndex : Nat) (activation : UInt8)
    (descriptionBegin trimmedEnd : Nat) : Option (Parse β) :=
  if cheatIndex < s.cheats.capacity then do
    let description ← checkedSpan descriptionBegin trimmedEnd
    let cheats ← s.cheats.store cheatIndex
      { activation := if activation = 0x31 then .autostart else .manual
        translationState := .directOnly
        description := description
        headerLineIndex := lineIndex
        firstOperationIndex := s.result.totalOperations
        operationCount := 0 }
    some { s with
      cheats := cheats
      result := { s.result with storedCheats := s.result.storedCheats + 1 } }
  else some s

def malformedHeader (p : Platform) (lineIndex : Nat) (s : Parse β) : Option (Parse β) := do
  let s ← s.markLine lineIndex fun l => { l with kind := .malformed }
  let s ← taintActiveCheat p .malformed s.countMalformed
  some (s.activate (noIndex p))

/-- The two limits that a header can cross. -/
def Parse.countHeader (s : Parse β) (descriptionSize : Nat) : Parse β :=
  let s := if descriptionSize > legacyMaxDescriptionBytes then s.countLegacy else s
  let s := { s with result := { s.result with totalCheats := s.result.totalCheats + 1 } }
  if s.result.totalCheats = legacyMaxCheats + 1 then s.countLegacy else s

def headerLine (p : Platform) (source : List UInt8) (lineIndex trimmedBegin trimmedEnd : Nat)
    (s : Parse β) : Option (Parse β) := do
  let activation ← source[trimmedBegin + 2]?
  let cheatIndex := s.result.totalCheats
  let s ← finalizeActiveCheat p s
  let bad ← badHeader source activation (trimmedBegin + 3) trimmedEnd
  if bad then malformedHeader p lineIndex s
  else
    let descriptionBegin ← Cursor.skipWhile asciiSpace source (trimmedBegin + 3) trimmedEnd
    let s ← s.storeCheat cheatIndex lineIndex activation descriptionBegin trimmedEnd
    let s ← s.markLine lineIndex fun l => { l with kind := .cheatHeader, cheatIndex := cheatIndex }
    let descriptionSize ← checkedSub trimmedEnd descriptionBegin
    some ((s.countHeader descriptionSize).activate cheatIndex)

def malformedCode (p : Platform) (lineIndex : Nat) (s : Parse β) : Option (Parse β) := do
  let s ← s.markLine lineIndex fun l => { l with kind := .malformed }
  taintActiveCheat p .malformed s.countMalformed

/-- The `$B200` rules: the first operation, a serial up to 255, segment 0 or 1. -/
def selectModule (p : Platform) (c : Code) (s : Parse β) : Option (Parse β) :=
  if s.activeCheatOperationCount ≠ 0 || s.relativeBaseActive || c.address > 0xff || c.value > 1 then
    taintActiveCheat p .malformed s.countInvalid
  else
    taintActiveCheat p .moduleRelative
      { s with relativeBaseActive := true, relativeWriteSeen := false }

/-- The address mode of an operation, which only a typed write has. -/
def Parse.addressMode (s : Parse β) (kind : OperationKind) : AddressMode :=
  if kind = .selectModuleBase ∨ kind = .opaqueOperation then .notApplicable
  else if s.relativeBaseActive then .selectedModuleRelative
  else .absolute

/-- The effect of an operation's kind on the relative base. -/
def applyKind (p : Platform) (kind : OperationKind) (c : Code) (s : Parse β) : Option (Parse β) :=
  if kind = .selectModuleBase then selectModule p c s
  else if kind ≠ .opaqueOperation then
    some (if s.relativeBaseActive then { s with relativeWriteSeen := true } else s)
  else some s

def Parse.storeOperation (s : Parse β) (operationIndex : Nat) (o : Operation) : Option (Parse β) :=
  if operationIndex < s.operations.capacity then do
    let operations ← s.operations.store operationIndex o
    some { s with
      operations := operations
      result := { s.result with storedOperations := s.result.storedOperations + 1 } }
  else some s

/-- The counters after an operation, in the report and in its cheat. -/
def Parse.countOperation (s : Parse β) : Option (Parse β) := do
  let s := { s with
    result := { s.result with totalOperations := s.result.totalOperations + 1 }
    activeCheatOperationCount := s.activeCheatOperationCount + 1 }
  let s ←
    if s.activeCheat < s.cheats.capacity then do
      let cheats ← s.cheats.modify s.activeCheat fun cheat =>
        { cheat with operationCount := cheat.operationCount + 1 }
      some { s with cheats := cheats }
    else some s
  some (if s.activeCheatOperationCount = legacyMaxCodesPerCheat + 1 then s.countLegacy else s)

def codeLine (p : Platform) (source : List UInt8) (lineIndex trimmedBegin trimmedEnd : Nat)
    (s : Parse β) : Option (Parse β) := do
  let operationIndex := s.result.totalOperations
  if s.activeCheat = noIndex p then malformedCode p lineIndex s
  else
    let parsed ← parseCode source trimmedBegin trimmedEnd
    match parsed with
    | none => malformedCode p lineIndex s
    | some c =>
      let kind := operationKind c.code
      let s ← applyKind p kind c s
      let s ← s.storeOperation operationIndex
        { kind := kind
          addressMode := s.addressMode kind
          legacyCode := c.code
          address := c.address
          value := c.value
          cheatIndex := s.activeCheat
          lineIndex := lineIndex }
      let activeCheat := s.activeCheat
      let s ← s.markLine lineIndex fun l =>
        { l with kind := .code, cheatIndex := activeCheat, operationIndex := operationIndex }
      let s ←
        if kind = .opaqueOperation then taintActiveCheat p .requiresUnsupported s.countUnsupported
        else some s
      s.countOperation

def opaqueLine (p : Platform) (lineIndex : Nat) (s : Parse β) : Option (Parse β) := do
  let activeCheat := s.activeCheat
  let s ← s.markLine lineIndex fun l => { l with kind := .opaqueLine, cheatIndex := activeCheat }
  taintActiveCheat p .requiresUnsupported s

/-- Record the bounds of the next line and move past it. -/
def enterLine (p : Platform) (b : Bounds) (s : Parse β) : Option (Parse β) := do
  let lineIndex := s.result.totalLines
  let lines ← storeLine p s.lines lineIndex b
  some { s with
    position := b.rawEnd
    lines := lines
    result :=
      { s.result with
        storedLines :=
          if lineIndex < s.lines.capacity then s.result.storedLines + 1 else s.result.storedLines
        totalLines := s.result.totalLines + 1 } }

/-- The body of the main loop. -/
def parseLine (p : Platform) (source : List UInt8) (s : Parse β) : Option (Parse β) := do
  let lineIndex := s.result.totalLines
  let b ← scanLine source s.position lineIndex
  let s ← enterLine p b s
  let (trimmedBegin, trimmedEnd) ← trimSpan source b.contentBegin b.contentEnd
  if trimmedBegin = trimmedEnd then s.markLine lineIndex fun l => { l with kind := .blank }
  else
    let first ← source[trimmedBegin]?
    if first = 0x23 then s.markLine lineIndex fun l => { l with kind := .comment }
    else
      let header ← startsHeader source trimmedBegin trimmedEnd
      if header then headerLine p source lineIndex trimmedBegin trimmedEnd s
      else if first = 0x24 then codeLine p source lineIndex trimmedBegin trimmedEnd s
      else opaqueLine p lineIndex s

def parseLoop (p : Platform) (source : List UInt8) : Nat → Parse β → Option (Parse β)
  | 0, _ => none
  | fuel + 1, s =>
    if s.position < source.length then
      match parseLine p source s with
      | none => none
      | some s => parseLoop p source fuel s
    else some s

/-- The part of `memset` that an output array needs, if any. -/
def clearStored {α : Type} (buffer : Buffer β α) (stored : Nat) (zero : α) :
    Option (Buffer β α) :=
  if stored ≠ 0 then buffer.fill stored zero else some buffer

def discardPartialOutputs (s : Parse β) : Option (Parse β) := do
  let lines ← clearStored s.lines s.result.storedLines .zero
  let cheats ← clearStored s.cheats s.result.storedCheats .zero
  let operations ← clearStored s.operations s.result.storedOperations .zero
  some { s with
    lines := lines
    cheats := cheats
    operations := operations
    result := { s.result with storedLines := 0, storedCheats := 0, storedOperations := 0 } }

/-- The checks before any output is written; `none` lets the call proceed. -/
def checkArguments (p : Platform) (c : Call β) : Option Status :=
  if c.report.address = 0 || (c.source.address = 0 && c.source.value.length != 0) ||
      (c.lines.address = 0 && c.lines.capacity != 0) ||
      (c.cheats.address = 0 && c.cheats.capacity != 0) ||
      (c.operations.address = 0 && c.operations.capacity != 0) then some .invalidArgument
  else if c.source.value.length > maxSourceBytes then some .sourceTooLarge
  else
    match multiplySize p c.lines.capacity p.lineSize,
      multiplySize p c.cheats.capacity p.cheatSize,
      multiplySize p c.operations.capacity p.operationSize with
    | some lineBytes, some cheatBytes, some operationBytes =>
      let sourceSize := c.source.value.length
      if rangesOverlap p c.source.address sourceSize c.lines.address lineBytes ||
          rangesOverlap p c.source.address sourceSize c.cheats.address cheatBytes ||
          rangesOverlap p c.source.address sourceSize c.operations.address operationBytes ||
          rangesOverlap p c.source.address sourceSize c.report.address p.reportSize ||
          rangesOverlap p c.lines.address lineBytes c.cheats.address cheatBytes ||
          rangesOverlap p c.lines.address lineBytes c.operations.address operationBytes ||
          rangesOverlap p c.lines.address lineBytes c.report.address p.reportSize ||
          rangesOverlap p c.cheats.address cheatBytes c.operations.address operationBytes ||
          rangesOverlap p c.cheats.address cheatBytes c.report.address p.reportSize ||
          rangesOverlap p c.operations.address operationBytes c.report.address p.reportSize then
        some .invalidArgument
      else none
    | _, _, _ => some .invalidArgument

/-- The locals before the first line. -/
def Parse.start (p : Platform) (c : Call β) : Parse β where
  position := 0
  activeCheat := noIndex p
  activeCheatOperationCount := 0
  activeCheatTainted := false
  relativeBaseActive := false
  relativeWriteSeen := false
  result := { Report.zero with
    schemaVersion := importSchemaVersion
    sourceSize := c.source.value.length }
  lines := c.lines.fresh Line
  cheats := c.cheats.fresh Cheat
  operations := c.operations.fresh Operation

def Parse.outputs (s : Parse β) : Outputs β := ⟨s.lines, s.cheats, s.operations, s.result⟩

/-- Every line takes at least one byte of the source. -/
def vcPsvParse (p : Platform) (c : Call β) : Option (Status × Outputs β) :=
  match checkArguments p c with
  | some status => some (status, c.untouched)
  | none => do
    let s ← parseLoop p c.source.value (c.source.value.length + 1) (Parse.start p c)
    let s ← finalizeActiveCheat p s
    if s.result.storedLines ≠ s.result.totalLines ∨ s.result.storedCheats ≠ s.result.totalCheats ∨
        s.result.storedOperations ≠ s.result.totalOperations then
      let s ← discardPartialOutputs s
      some (.truncated, s.outputs)
    else some (.ok, s.outputs)

end VitaCheat.Psv
