import Mathlib.Logic.Function.Basic
import VitaCheat.Platform

/-!
# The search engine

The functions of `search.c`. A read outside a snapshot and a loop that runs out
of fuel both answer `none`, so an answer certifies that neither happened. Arrays
of the caller are held per base address: two different bases are different
arrays, which the overlap checks of the source guarantee before its first store,
and equal bases are one shared array.
-/
namespace VitaCheat.Search

abbrev U32 := BitVec 32

/-- `vc_scalar_type`; a value outside the enumeration is `other`. -/
inductive ScalarType where
  | u8 | s8 | u16 | s16 | u32 | s32
  | other (excess : Nat)
  deriving DecidableEq, Repr

/-- `vc_relation`; `other n` is the unsigned value `6 + n`. -/
inductive Relation where
  | equal | notEqual | changed | unchanged | increased | decreased
  | other (excess : Nat)
  deriving DecidableEq, Repr

inductive Status where
  | ok | truncated | invalidArgument | invalidQuery | invalidCandidates
  deriving DecidableEq, Repr

structure Query where
  type : ScalarType
  relation : Relation
  valueBits : U32
  stride : U32
  deriving DecidableEq, Repr

abbrev Snapshot := Object (List UInt8)

/-- Where a call puts its results: four addresses and sizes. -/
structure Output where
  outOffsets : Nat
  capacity : Nat
  written : Nat
  totalMatches : Nat
  deriving DecidableEq, Repr

/-- The `uint32_t` arrays by base address and the `size_t` objects by address. -/
structure Memory where
  arrays : Nat → Nat → U32
  sizes : Nat → Nat

def Memory.store (m : Memory) (base index : Nat) (value : U32) : Memory :=
  { m with arrays := Function.update m.arrays base (Function.update (m.arrays base) index value) }

def Memory.setSize (m : Memory) (address value : Nat) : Memory :=
  { m with sizes := Function.update m.sizes address value }

def vcTypeIsSigned (type : ScalarType) : Bool :=
  type = .s8 ∨ type = .s16 ∨ type = .s32

def vcScalarWidth : ScalarType → Nat
  | .u8 | .s8 => 1
  | .u16 | .s16 => 2
  | .u32 | .s32 => 4
  | .other _ => 0

/-- The unsigned value of a relation. -/
def Relation.code : Relation → Nat
  | .equal => 0
  | .notEqual => 1
  | .changed => 2
  | .unchanged => 3
  | .increased => 4
  | .decreased => 5
  | .other excess => 6 + excess

def vcRelationIsValid (relation : Relation) : Bool := relation.code ≤ Relation.decreased.code

def vcWidthMask : Nat → U32
  | 1 => 0xff
  | 2 => 0xffff
  | _ => BitVec.allOnes 32

def readLoop (bytes : List UInt8) (offset : Nat) : Nat → Nat → U32 → Option U32
  | 0, _, value => some value
  | remaining + 1, index, value =>
    match bytes[offset + index]? with
    | none => none
    | some byte =>
      readLoop bytes offset remaining (index + 1)
        (value ||| (byte.toBitVec.setWidth 32 <<< (index * 8)))

/-- The bytes are read from `offset` on. -/
def vcReadLittleEndian (bytes : List UInt8) (offset width : Nat) : Option U32 :=
  readLoop bytes offset width 0 0

/-- The intermediate values are `uint64_t`, the result is an `int64_t`. -/
def vcSignedValue (bits : U32) (width : Nat) : Int :=
  let mask : BitVec 64 := (vcWidthMask width).setWidth 64
  let value : BitVec 64 := bits.setWidth 64 &&& mask
  let signBit := 1#64 <<< (width * 8 - 1)
  if value &&& signBit ≠ 0#64 then -((mask - value) + 1).toInt else value.toInt

def vcMatches (type : ScalarType) (relation : Relation) (previous current constant : U32)
    (width : Nat) : Bool :=
  let mask := vcWidthMask width
  let previous := previous &&& mask
  let current := current &&& mask
  let constant := constant &&& mask
  match relation with
  | .equal => current == constant
  | .notEqual => current != constant
  | .changed => current != previous
  | .unchanged => current == previous
  | .increased =>
    if vcTypeIsSigned type then vcSignedValue current width > vcSignedValue previous width
    else current > previous
  | .decreased =>
    if vcTypeIsSigned type then vcSignedValue current width < vcSignedValue previous width
    else current < previous
  | .other _ => false

def vcSizeIsRepresentable (p : Platform) (size : Nat) : Bool :=
  if p.sizeMax > 0xffffffff then size ≤ 0xffffffff + 1 else true

def vcMultiplySize (p : Platform) (left right : Nat) : Option Nat := p.multiply left right

def vcRangesOverlap (p : Platform) (left leftSize right rightSize : Nat) : Bool :=
  p.overlap left leftSize right rightSize

/-- `sizeof(uint32_t)`. -/
def offsetSize : Nat := 4

/-- `sizeof(size_t)`. -/
def countSize (p : Platform) : Nat := p.sizeBits / 8

structure Validated where
  query : Query
  width : Nat
  outputBytes : Nat
  deriving DecidableEq, Repr

/-- The null checks on the caller's locals are left out. A `size_t` narrower
than 32 bits does not occur, and with it the second stride check. -/
def vcValidateCommon (p : Platform) (current : Snapshot) (size : Nat) (query : Object Query)
    (out : Output) : Except Status Validated :=
  if out.written = 0 || out.totalMatches = 0 then .error .invalidArgument
  else if query.address = 0 || (current.address = 0 && size != 0) ||
      (out.outOffsets = 0 && out.capacity != 0) || !vcSizeIsRepresentable p size then
    .error .invalidArgument
  else if vcScalarWidth query.value.type = 0 || query.value.stride = 0 ||
      !vcRelationIsValid query.value.relation then
    .error .invalidQuery
  else
    match vcMultiplySize p out.capacity offsetSize with
    | none => .error .invalidArgument
    | some outputBytes =>
      if vcRangesOverlap p out.written (countSize p) out.totalMatches (countSize p) ||
          vcRangesOverlap p out.outOffsets outputBytes current.address size ||
          vcRangesOverlap p out.outOffsets outputBytes query.address p.querySize ||
          vcRangesOverlap p out.outOffsets outputBytes out.written (countSize p) ||
          vcRangesOverlap p out.outOffsets outputBytes out.totalMatches (countSize p) ||
          vcRangesOverlap p out.written (countSize p) current.address size ||
          vcRangesOverlap p out.totalMatches (countSize p) current.address size ||
          vcRangesOverlap p out.written (countSize p) query.address p.querySize ||
          vcRangesOverlap p out.totalMatches (countSize p) query.address p.querySize then
        .error .invalidArgument
      else .ok ⟨query.value, vcScalarWidth query.value.type, outputBytes⟩

/-- The memory and the two local counters of a running scan. -/
structure Progress where
  memory : Memory
  localWritten : Nat
  localTotal : Nat

/-- Count a match and store it while there is room. -/
def Progress.collect (r : Progress) (out : Output) (value : U32) : Progress :=
  if r.localWritten < out.capacity then
    ⟨r.memory.store out.outOffsets r.localWritten value, r.localWritten + 1, r.localTotal + 1⟩
  else ⟨r.memory, r.localWritten, r.localTotal + 1⟩

/-- The two final stores and the status. -/
def Progress.finish (r : Progress) (out : Output) : Status × Memory :=
  (if r.localTotal > out.capacity then .truncated else .ok,
    (r.memory.setSize out.written r.localWritten).setSize out.totalMatches r.localTotal)

def scanLoop (p : Platform) (current : Snapshot) (lastOffset : Nat) (v : Validated)
    (out : Output) : Nat → Nat → Progress → Option Progress
  | 0, _, _ => none
  | fuel + 1, offset, r =>
    match vcReadLittleEndian current.value offset v.width with
    | none => none
    | some currentValue =>
      let r :=
        if vcMatches v.query.type v.query.relation 0 currentValue v.query.valueBits v.width then
          r.collect out (BitVec.ofNat 32 offset)
        else r
      if v.query.stride.toNat > p.sub lastOffset offset then some r
      else scanLoop p current lastOffset v out fuel (p.add offset v.query.stride.toNat) r

/-- The loop visits at most `last_offset + 1` offsets. -/
def vcSearchInitial (p : Platform) (current : Snapshot) (size : Nat) (query : Object Query)
    (out : Output) (m : Memory) : Option (Status × Memory) :=
  match vcValidateCommon p current size query out with
  | .error status => some (status, m)
  | .ok v =>
    if v.query.relation != .equal && v.query.relation != .notEqual then some (.invalidQuery, m)
    else if size < v.width then
      some (.ok, (m.setSize out.written 0).setSize out.totalMatches 0)
    else
      let lastOffset := p.sub size v.width
      (scanLoop p current lastOffset v out (lastOffset + 1) 0 ⟨m, 0, 0⟩).map (·.finish out)

def vcValidateCandidates (p : Platform) (candidates candidateCount size width : Nat)
    (m : Memory) : Status :=
  let candidate := m.arrays candidates
  if candidates = 0 && candidateCount != 0 then .invalidArgument
  else if (List.range candidateCount).any fun index =>
      (index != 0 && candidate (index - 1) ≥ candidate index) ||
        (candidate index).toNat > size || width > p.sub size (candidate index).toNat then
    .invalidCandidates
  else .ok

/-- The overlap checks that only refine makes. -/
def refineOverlaps (p : Platform) (previous : Snapshot)
    (size candidates candidateBytes outputBytes : Nat) (out : Output) : Bool :=
  vcRangesOverlap p previous.address size out.outOffsets outputBytes ||
    vcRangesOverlap p out.written (countSize p) previous.address size ||
    vcRangesOverlap p out.totalMatches (countSize p) previous.address size ||
    vcRangesOverlap p out.written (countSize p) candidates candidateBytes ||
    vcRangesOverlap p out.totalMatches (countSize p) candidates candidateBytes ||
    (out.outOffsets != candidates &&
      vcRangesOverlap p candidates candidateBytes out.outOffsets outputBytes)

/-- The candidate is read from memory again in each round, so refining in place
reads the array it compacts. The first argument counts the rounds left. -/
def refineLoop (previous current : Snapshot) (candidates : Nat) (v : Validated) (out : Output) :
    Nat → Nat → Progress → Option Progress
  | 0, _, r => some r
  | remaining + 1, index, r =>
    let candidate := r.memory.arrays candidates index
    match vcReadLittleEndian previous.value candidate.toNat v.width,
      vcReadLittleEndian current.value candidate.toNat v.width with
    | some previousValue, some currentValue =>
      let r :=
        if vcMatches v.query.type v.query.relation previousValue currentValue v.query.valueBits
            v.width then
          r.collect out candidate
        else r
      refineLoop previous current candidates v out remaining (index + 1) r
    | _, _ => none

def vcSearchRefine (p : Platform) (previous current : Snapshot)
    (size candidates candidateCount : Nat) (query : Object Query) (out : Output) (m : Memory) :
    Option (Status × Memory) :=
  match vcValidateCommon p current size query out with
  | .error status => some (status, m)
  | .ok v =>
    if previous.address = 0 && size != 0 then some (.invalidArgument, m)
    else
      match vcValidateCandidates p candidates candidateCount size v.width m with
      | .ok =>
        match vcMultiplySize p candidateCount offsetSize with
        | none => some (.invalidArgument, m)
        | some candidateBytes =>
          if refineOverlaps p previous size candidates candidateBytes v.outputBytes out then
            some (.invalidArgument, m)
          else
            (refineLoop previous current candidates v out candidateCount 0 ⟨m, 0, 0⟩).map
              (·.finish out)
      | status => some (status, m)

end VitaCheat.Search
