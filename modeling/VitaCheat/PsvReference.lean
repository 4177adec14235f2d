import VitaCheat.PsvGrammar

/-!
# The translation state of a scope

What the state of a cheat should be, read off the texts of its scope, and a
scanner that computes it in one pass. The scanner raises a state line by line and
defers the check for an unused selector to the end of the scope.
-/
namespace VitaCheat.Psv

def OperationKind.isWrite : OperationKind → Bool
  | .writeU8 | .writeU16 | .writeU32 => true
  | .selectModuleBase | .opaqueOperation => false

namespace Code

def kind (c : Code) : OperationKind := operationKind c.code

def isSelector (c : Code) : Bool := c.kind = .selectModuleBase

/-- A module serial up to 255 and a segment 0 or 1. -/
def inRange (c : Code) : Bool := !(c.address > 0xff || c.value > 1)

end Code

def codeOf (text : List UInt8) : Option Code :=
  match classify text with
  | .code c => some c
  | _ => none

def operationsOf (texts : List (List UInt8)) : List Code := texts.filterMap codeOf

/-- The texts after a header line up to the one that closes its scope. -/
structure Scope where
  texts : List (List UInt8)
  closer : Option (List UInt8)
  deriving DecidableEq, Repr

/-- The scope at the head of the texts that follow a header line. -/
def scopeOf (texts : List (List UInt8)) : Scope where
  texts := texts.takeWhile (!headerAttempt ·)
  closer := (texts.dropWhile (!headerAttempt ·)).head?

def badCode (texts : List (List UInt8)) : Bool := texts.any (classify · = .badCode)

/-- A selector that is not the first operation, or not in range. -/
def misplaced (operations : List Code) : Bool :=
  operations.zipIdx.any fun (c, i) => c.isSelector && (i != 0 || !c.inRange)

/-- The first operation is a selector in range. -/
def accepted (operations : List Code) : Bool :=
  operations.head?.any fun c => c.isSelector && c.inRange

def unsupported (texts : List (List UInt8)) : Bool :=
  texts.any (classify · = .opaqueLine) ||
    (operationsOf texts).any fun c => c.kind = .opaqueOperation

def relative (operations : List Code) : Bool := operations.any Code.isSelector

def writes (operations : List Code) : Bool := operations.any fun c => c.kind.isWrite

namespace Scope

def operations (s : Scope) : List Code := operationsOf s.texts

def malformed (s : Scope) : Bool :=
  badCode s.texts || misplaced s.operations ||
    (accepted s.operations && !writes s.operations) || s.closer.any (classify · = .badHeader)

def state (s : Scope) : TranslationState :=
  if s.malformed then .malformed
  else if unsupported s.texts then .requiresUnsupported
  else if relative s.operations then .moduleRelative
  else .directOnly

end Scope

/-- The valid header lines among some texts, each with the state of its scope. -/
def references : Nat → List (List UInt8) → List (Nat × TranslationState)
  | _, [] => []
  | i, text :: rest =>
    match classify text with
    | .header _ _ => (i, (scopeOf rest).state) :: references (i + 1) rest
    | _ => references (i + 1) rest

/-- The higher of two states. -/
def TranslationState.raised (old state : TranslationState) : TranslationState :=
  if state.code > old.code then state else old

theorem raised_malformed (old : TranslationState) : old.raised .malformed = .malformed := by
  cases old <;> rfl

theorem raised_direct (old : TranslationState) {state : TranslationState} (h : state ≠ .directOnly) :
    old.raised state ≠ .directOnly := by
  revert h
  cases old <;> cases state <;> decide

/-- What has been seen in a scope so far. -/
structure Scan where
  count : Nat
  base : Bool
  write : Bool
  state : TranslationState
  deriving DecidableEq, Repr

namespace Scan

def start : Scan := ⟨0, false, false, .directOnly⟩

def raise (state : TranslationState) (s : Scan) : Scan :=
  { s with state := s.state.raised state }

def accepts (c : Code) (s : Scan) : Bool :=
  !(s.count ≠ 0 || s.base || c.address > 0xff || c.value > 1)

def select (c : Code) (s : Scan) : Scan :=
  if s.accepts c then raise .moduleRelative { s with base := true, write := false }
  else s.raise .malformed

def applyKind (c : Code) (s : Scan) : Scan :=
  match c.kind with
  | .selectModuleBase => s.select c
  | .opaqueOperation => s.raise .requiresUnsupported
  | .writeU8 | .writeU16 | .writeU32 => if s.base then { s with write := true } else s

def next (s : Scan) : Scan := { s with count := s.count + 1 }

def step (s : Scan) : LineClass → Scan
  | .code c => (s.applyKind c).next
  | .badCode => s.raise .malformed
  | .opaqueLine => s.raise .requiresUnsupported
  | .blank | .comment | .header _ _ | .badHeader => s

/-- The deferred check at the end of the scope. -/
def settled (s : Scan) : Scan := if s.base && !s.write then s.raise .malformed else s

def read (s : Scan) (text : List UInt8) : Scan := s.step (classify text)

/-- The state when the scope ends, at a malformed header or otherwise. -/
def ending (closer : Option (List UInt8)) (s : Scan) : TranslationState :=
  if closer.any (classify · = .badHeader) then .malformed else s.settled.state

end Scan

/-- The state that three findings amount to. -/
def level (malformed unsupported relative : Bool) : TranslationState :=
  if malformed then .malformed
  else if unsupported then .requiresUnsupported
  else if relative then .moduleRelative
  else .directOnly

section Level

variable (m u r : Bool)

@[simp] theorem level_malformed : level true u r = .malformed := rfl

theorem raised_unsupported : (level m u r).raised .requiresUnsupported = level m true r := by
  revert m u r
  decide

theorem raised_relative : (level m u r).raised .moduleRelative = level m u true := by
  revert m u r
  decide

end Level

/-- The scanner's fields after the texts of a scope. -/
structure Scanned (texts : List (List UInt8)) (s : Scan) : Prop where
  count : s.count = (operationsOf texts).length
  base : s.base = accepted (operationsOf texts)
  write : s.write = (accepted (operationsOf texts) && writes (operationsOf texts))
  state : s.state = level (badCode texts || misplaced (operationsOf texts)) (unsupported texts)
    (relative (operationsOf texts))

theorem operationsOf_concat (texts : List (List UInt8)) (text : List UInt8) :
    operationsOf (texts ++ [text]) = operationsOf texts ++ (codeOf text).toList := by
  rw [operationsOf, List.filterMap_append]
  cases h : codeOf text <;> simp [operationsOf, h]

theorem misplaced_concat (cs : List Code) (c : Code) :
    misplaced (cs ++ [c]) =
      (misplaced cs || c.isSelector && (cs.length != 0 || !c.inRange)) := by
  simp [misplaced, List.zipIdx_append]

theorem accepted_concat (cs : List Code) (c : Code) :
    accepted (cs ++ [c]) = if cs.length = 0 then c.isSelector && c.inRange else accepted cs := by
  cases cs <;> simp [accepted]

@[simp] theorem accepted_nil : accepted [] = false := rfl

theorem writes_concat (cs : List Code) (c : Code) :
    writes (cs ++ [c]) = (writes cs || c.kind.isWrite) := by simp [writes]

theorem relative_concat (cs : List Code) (c : Code) :
    relative (cs ++ [c]) = (relative cs || c.isSelector) := by simp [relative]

theorem accepts_eq {texts : List (List UInt8)} {s : Scan} (h : Scanned texts s) (c : Code) :
    s.accepts c = ((operationsOf texts).length == 0 && c.inRange) := by
  have hbase := h.base
  rw [Scan.accepts, h.count, Code.inRange]
  cases hops : operationsOf texts with
  | nil =>
    rw [hops] at hbase
    simp [hbase, accepted]
  | cons first rest => simp

theorem badCode_concat (texts : List (List UInt8)) (text : List UInt8) :
    badCode (texts ++ [text]) = (badCode texts || decide (classify text = .badCode)) := by
  simp [badCode]

theorem unsupported_concat (texts : List (List UInt8)) (text : List UInt8) :
    unsupported (texts ++ [text]) = (unsupported texts || (decide (classify text = .opaqueLine) ||
      (codeOf text).any fun c => c.kind = .opaqueOperation)) := by
  rw [unsupported, operationsOf_concat, unsupported]
  cases codeOf text <;> simp [Bool.or_assoc, Bool.or_comm, Bool.or_left_comm]

theorem scanned_start : Scanned [] .start where
  count := rfl
  base := rfl
  write := rfl
  state := rfl

/-- A text that holds no operation. -/
theorem scanned_other {texts : List (List UInt8)} {text : List UInt8} {s : Scan}
    (h : Scanned texts s) (htext : codeOf text = none) {state : TranslationState}
    (hstate : state = level
      (badCode texts || decide (classify text = .badCode) || misplaced (operationsOf texts))
      (unsupported texts || decide (classify text = .opaqueLine)) (relative (operationsOf texts))) :
    Scanned (texts ++ [text]) { s with state := state } := by
  have hops : operationsOf (texts ++ [text]) = operationsOf texts := by
    rw [operationsOf_concat, htext, Option.toList_none, List.append_nil]
  constructor
  · rw [hops]
    exact h.count
  · rw [hops]
    exact h.base
  · rw [hops]
    exact h.write
  · rw [hops, badCode_concat, unsupported_concat, htext, Option.any_none, Bool.or_false]
    exact hstate

/-- An accepted selector, a rejected one, a write or any other operation. -/
theorem scanned_code {texts : List (List UInt8)} {text : List UInt8} {s : Scan} {c : Code}
    (h : Scanned texts s) (hclass : classify text = .code c) :
    Scanned (texts ++ [text]) (s.step (.code c)) := by
  have hcode : codeOf text = some c := by rw [codeOf, hclass]
  have hops : operationsOf (texts ++ [text]) = operationsOf texts ++ [c] := by
    rw [operationsOf_concat, hcode, Option.toList_some]
  have hbad : badCode (texts ++ [text]) = badCode texts := by
    rw [badCode_concat, hclass]
    simp
  have hunsupported : unsupported (texts ++ [text]) =
      (unsupported texts || decide (c.kind = .opaqueOperation)) := by
    rw [unsupported_concat, hcode, hclass]
    simp
  have haccepts := accepts_eq h c
  obtain ⟨hcount, hbase, hwrite, hstate⟩ := h
  generalize operationsOf texts = ops at hops hcount hbase hwrite hstate haccepts
  rw [← hcount] at haccepts
  suffices hfields : (s.step (.code c)).count = s.count + 1 ∧
      (s.step (.code c)).base = accepted (ops ++ [c]) ∧
      (s.step (.code c)).write = (accepted (ops ++ [c]) && writes (ops ++ [c])) ∧
      (s.step (.code c)).state = level (badCode texts || misplaced (ops ++ [c]))
        (unsupported texts || decide (c.kind = .opaqueOperation)) (relative (ops ++ [c])) by
    obtain ⟨h1, h2, h3, h4⟩ := hfields
    constructor
    · rw [h1, hops, List.length_append, hcount, List.length_singleton]
    · rw [h2, hops]
    · rw [h3, hops]
    · rw [h4, hops, hbad, hunsupported]
  rw [writes_concat, relative_concat, misplaced_concat, accepted_concat, ← hcount, Scan.step,
    Scan.applyKind, Code.isSelector]
  cases hkind : c.kind with
  | selectModuleBase =>
    cases ops with
    | nil =>
      cases hr : c.inRange <;>
        simp_all [Scan.select, Scan.next, Scan.raise, OperationKind.isWrite, raised_malformed,
          raised_relative, writes]
    | cons first rest =>
      simp_all [Scan.select, Scan.next, Scan.raise, OperationKind.isWrite, raised_malformed]
  | opaqueOperation =>
    cases ops <;> simp_all [Scan.next, Scan.raise, OperationKind.isWrite, raised_unsupported]
  | _ =>
    cases ops with
    | nil => simp_all [Scan.next, OperationKind.isWrite]
    | cons first rest =>
      cases hb : accepted (first :: rest) <;> simp_all [Scan.next, OperationKind.isWrite]

theorem scanned_read {texts : List (List UInt8)} {text : List UInt8} {s : Scan}
    (h : Scanned texts s) (htext : headerAttempt text = false) :
    Scanned (texts ++ [text]) (s.read text) := by
  have hattempt := classify_attempt text
  rw [htext] at hattempt
  rw [Scan.read]
  cases hclass : classify text with
  | blank => exact scanned_other h (by rw [codeOf, hclass]) (by simp [hclass, h.state])
  | comment => exact scanned_other h (by rw [codeOf, hclass]) (by simp [hclass, h.state])
  | header activation description =>
    exact absurd (hattempt.mpr (Or.inr ⟨activation, description, hclass⟩)) Bool.false_ne_true
  | badHeader => exact absurd (hattempt.mpr (Or.inl hclass)) Bool.false_ne_true
  | code c => exact scanned_code h hclass
  | badCode =>
    refine scanned_other h (by rw [codeOf, hclass]) ?_
    rw [h.state, raised_malformed, hclass]
    simp [level]
  | opaqueLine =>
    refine scanned_other h (by rw [codeOf, hclass]) ?_
    rw [h.state, raised_unsupported, hclass]
    simp

theorem scanned_foldl {texts : List (List UInt8)} (h : ∀ text ∈ texts, headerAttempt text = false) :
    Scanned texts (texts.foldl Scan.read .start) := by
  induction texts using List.reverseRecOn with
  | nil => exact scanned_start
  | append_singleton texts text ih =>
    rw [List.foldl_append]
    exact scanned_read (ih fun t ht => h t (List.mem_append_left _ ht))
      (h text (List.mem_append_right _ (List.mem_singleton_self text)))

/-- One pass over a scope gives the state of the scope. -/
theorem ending_scope (texts : List (List UInt8)) :
    ((scopeOf texts).texts.foldl Scan.read .start).ending (scopeOf texts).closer =
      (scopeOf texts).state := by
  have hinner : ∀ text ∈ (scopeOf texts).texts, headerAttempt text = false := by
    intro text htext
    simpa using List.mem_takeWhile_imp htext
  have hscan := scanned_foldl hinner
  generalize (scopeOf texts).texts.foldl Scan.read .start = s at hscan
  obtain ⟨-, hbase, hwrite, hstate⟩ := hscan
  rw [Scan.ending, Scope.state, Scope.malformed, Scope.operations]
  cases hcloser : (scopeOf texts).closer.any (classify · = .badHeader) with
  | true => simp
  | false =>
    rw [Scan.settled, hbase, hwrite]
    cases haccepted : accepted (operationsOf (scopeOf texts).texts) with
    | false => simp [hstate, level]
    | true =>
      cases hwrites : writes (operationsOf (scopeOf texts).texts) with
      | false => simp [Scan.raise, hstate, raised_malformed]
      | true => simp [hstate, level]

end VitaCheat.Psv
