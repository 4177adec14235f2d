import VitaCheat.PsvText

/-!
# The imported document

What a source means to the importer, without capacities, buffers or positions:
the complete lists of records and the counters, built line by line from the
classified texts. The importer is shown to compute this document and to publish
as much of it as fits.
-/
namespace VitaCheat.Psv

def Bounds.raw (b : Bounds) : Span :=
  ⟨BitVec.ofNat 32 b.rawBegin, BitVec.ofNat 32 (b.rawEnd - b.rawBegin)⟩

def Bounds.content (b : Bounds) : Span :=
  ⟨BitVec.ofNat 32 b.contentBegin, BitVec.ofNat 32 (b.contentEnd - b.contentBegin)⟩

/-- Raise a translation state, never lower it. -/
def Cheat.raise (state : TranslationState) (c : Cheat) : Cheat :=
  if state.code > c.translationState.code then { c with translationState := state } else c

/-- The records so far, the diagnostic counters and the active cheat with what
has been seen in its scope. -/
structure Document where
  lines : List Line
  cheats : List Cheat
  operations : List Operation
  unsupported : Nat
  nonDirect : Nat
  invalid : Nat
  malformed : Nat
  legacy : Nat
  active : Option Nat
  count : Nat
  tainted : Bool
  base : Bool
  write : Bool
  deriving DecidableEq, Repr

namespace Document

def empty : Document where
  lines := []
  cheats := []
  operations := []
  unsupported := 0
  nonDirect := 0
  invalid := 0
  malformed := 0
  legacy := 0
  active := none
  count := 0
  tainted := false
  base := false
  write := false

variable (p : Platform)

/-- The index of the active cheat as the records hold it. -/
def activeIndex (d : Document) : Nat := d.active.getD (noIndex p)

def addLine (b : Bounds) (d : Document) : Document :=
  { d with lines := d.lines ++ [⟨b.raw, b.content, .opaqueLine, noIndex p, noIndex p⟩] }

/-- Change the line added last. -/
def markLast (f : Line → Line) (d : Document) : Document :=
  { d with lines := d.lines.modify (d.lines.length - 1) f }

def taint (state : TranslationState) (d : Document) : Document :=
  match d.active with
  | none => d
  | some k =>
    { d with
      cheats := d.cheats.modify k (·.raise state)
      nonDirect := if d.tainted then d.nonDirect else d.nonDirect + 1
      tainted := true }

def countInvalid (d : Document) : Document := { d with invalid := d.invalid + 1 }

def countMalformed (d : Document) : Document := { d with malformed := d.malformed + 1 }

/-- The deferred check at the end of a scope: a selector that nothing used. -/
def finalize (d : Document) : Document :=
  if d.active.isSome && d.base && !d.write then d.countInvalid.taint .malformed else d

def activate (active : Option Nat) (d : Document) : Document :=
  { d with active := active, count := 0, tainted := false, base := false, write := false }

def openCheat (activation : Activation) (descriptionBegin descriptionSize : Nat) (d : Document) :
    Document :=
  let cheat : Cheat :=
    { activation := activation
      translationState := .directOnly
      description := ⟨BitVec.ofNat 32 descriptionBegin, BitVec.ofNat 32 descriptionSize⟩
      headerLineIndex := d.lines.length - 1
      firstOperationIndex := d.operations.length
      operationCount := 0 }
  let long := if descriptionSize > legacyMaxDescriptionBytes then 1 else 0
  let many := if d.cheats.length + 1 = legacyMaxCheats + 1 then 1 else 0
  let index := d.cheats.length
  ({ d with cheats := d.cheats ++ [cheat], legacy := d.legacy + long + many }.markLast
    fun l => { l with kind := .cheatHeader, cheatIndex := index }).activate (some index)

def closeMalformed (d : Document) : Document :=
  ((d.markLast fun l => { l with kind := .malformed }).countMalformed.taint .malformed).activate none

def malformedCode (d : Document) : Document :=
  (d.markLast fun l => { l with kind := .malformed }).countMalformed.taint .malformed

/-- Is the selector the first operation, with fields in range? -/
def acceptsSelector (c : Code) (d : Document) : Bool :=
  !(d.count ≠ 0 || d.base || c.address > 0xff || c.value > 1)

def selectModule (c : Code) (d : Document) : Document :=
  if d.acceptsSelector c then taint .moduleRelative { d with base := true, write := false }
  else d.countInvalid.taint .malformed

def addressMode (kind : OperationKind) (d : Document) : AddressMode :=
  if kind = .selectModuleBase ∨ kind = .opaqueOperation then .notApplicable
  else if d.base then .selectedModuleRelative
  else .absolute

def applyKind (c : Code) (d : Document) : Document :=
  match operationKind c.code with
  | .selectModuleBase => d.selectModule c
  | .opaqueOperation => taint .requiresUnsupported { d with unsupported := d.unsupported + 1 }
  | .writeU8 | .writeU16 | .writeU32 => if d.base then { d with write := true } else d

/-- The record of a code line of the active cheat `k`. -/
def record (k : Nat) (c : Code) (d : Document) : Operation where
  kind := operationKind c.code
  addressMode := d.addressMode (operationKind c.code)
  legacyCode := c.code
  address := c.address
  value := c.value
  cheatIndex := k
  lineIndex := d.lines.length - 1

def countOperation (k : Nat) (d : Document) : Document :=
  { d with
    cheats := d.cheats.modify k fun cheat => { cheat with operationCount := cheat.operationCount + 1 }
    count := d.count + 1
    legacy := if d.count + 1 = legacyMaxCodesPerCheat + 1 then d.legacy + 1 else d.legacy }

def addOperation (k : Nat) (c : Code) (d : Document) : Document :=
  let index := d.operations.length
  ({ d.applyKind c with operations := d.operations ++ [d.record k c] }.markLast
    fun l => { l with kind := .code, cheatIndex := k, operationIndex := index }).countOperation k

/-- One line: its bounds are recorded, then its class takes effect. -/
def step (d : Document) (t : LineText) : Document :=
  let d := d.addLine p t.bounds
  match classify t.text with
  | .blank => d.markLast fun l => { l with kind := .blank }
  | .comment => d.markLast fun l => { l with kind := .comment }
  | .header activation description =>
    d.finalize.openCheat activation (t.trimmedBegin + t.text.length - description.length)
      description.length
  | .badHeader => d.finalize.closeMalformed
  | .code c =>
    match d.active with
    | none => d.malformedCode
    | some k => d.addOperation k c
  | .badCode => d.malformedCode
  | .opaqueLine =>
    taint .requiresUnsupported
      (d.markLast fun l => { l with kind := .opaqueLine, cheatIndex := d.activeIndex p })

section Frame

variable (d : Document) (state : TranslationState) (c : Code)

@[simp] theorem taint_lines : (d.taint state).lines = d.lines := by
  unfold taint
  split <;> rfl

@[simp] theorem taint_operations : (d.taint state).operations = d.operations := by
  unfold taint
  split <;> rfl

@[simp] theorem taint_active : (d.taint state).active = d.active := by
  unfold taint
  split <;> rfl

@[simp] theorem taint_count : (d.taint state).count = d.count := by
  unfold taint
  split <;> rfl

@[simp] theorem taint_cheats_length : (d.taint state).cheats.length = d.cheats.length := by
  unfold taint
  split
  · rfl
  · exact List.length_modify _ _ _

@[simp] theorem finalize_lines : d.finalize.lines = d.lines := by
  unfold finalize
  split <;> simp [countInvalid]

@[simp] theorem finalize_operations : d.finalize.operations = d.operations := by
  unfold finalize
  split <;> simp [countInvalid]

@[simp] theorem finalize_active : d.finalize.active = d.active := by
  unfold finalize
  split <;> simp [countInvalid]

@[simp] theorem finalize_cheats_length : d.finalize.cheats.length = d.cheats.length := by
  unfold finalize
  split <;> simp [countInvalid]

@[simp] theorem applyKind_lines : (d.applyKind c).lines = d.lines := by
  unfold applyKind selectModule
  split <;> (try split) <;> simp [countInvalid]

@[simp] theorem applyKind_operations : (d.applyKind c).operations = d.operations := by
  unfold applyKind selectModule
  split <;> (try split) <;> simp [countInvalid]

@[simp] theorem applyKind_active : (d.applyKind c).active = d.active := by
  unfold applyKind selectModule
  split <;> (try split) <;> simp [countInvalid]

@[simp] theorem applyKind_count : (d.applyKind c).count = d.count := by
  unfold applyKind selectModule
  split <;> (try split) <;> simp [countInvalid]

@[simp] theorem applyKind_cheats_length : (d.applyKind c).cheats.length = d.cheats.length := by
  unfold applyKind selectModule
  split <;> (try split) <;> simp [countInvalid]

/-- Only a selector changes the relative base, and it has no address mode. -/
@[simp] theorem applyKind_addressMode :
    (d.applyKind c).addressMode (operationKind c.code) = d.addressMode (operationKind c.code) := by
  unfold applyKind addressMode
  cases operationKind c.code <;> simp <;> split <;> simp_all

end Frame

end Document

/-- The document of a source. -/
def parseDocument (p : Platform) (source : List UInt8) : Document :=
  ((sourceLines source).foldl (Document.step p) .empty).finalize

end VitaCheat.Psv
