import VitaCheat.PsvScopes

/-!
# The scope of a selector

The operations that refer to a cheat are the codes of its scope, in order. What
the importer remembers of a scope is therefore a matter of these operations: a
write is relative to a module exactly if the first of them is a selector in range.
-/
namespace VitaCheat.Psv

variable {β : Type}

def Operation.code (o : Operation) : Code := ⟨o.legacyCode, o.address, o.value⟩

/-- The codes of the operations of one cheat. -/
def codesOf (operations : List Operation) (k : Nat) : List Code :=
  (operations.filter fun o => o.cheatIndex == k).map Operation.code

/-- The mode of an operation, by its kind and whether a base is selected. -/
def OperationKind.mode (selected : Bool) : OperationKind → AddressMode
  | .selectModuleBase | .opaqueOperation => .notApplicable
  | .writeU8 | .writeU16 | .writeU32 => if selected then .selectedModuleRelative else .absolute

theorem codesOf_concat (operations : List Operation) (o : Operation) (k : Nat) :
    codesOf (operations ++ [o]) k =
      if o.cheatIndex = k then codesOf operations k ++ [o.code] else codesOf operations k := by
  rw [codesOf, List.filter_append, List.map_append, codesOf]
  by_cases hk : o.cheatIndex = k <;> simp [hk]

/-- A cheat that no operation refers to has no codes. -/
theorem codesOf_new {operations : List Operation} {k : Nat}
    (h : ∀ o ∈ operations, o.cheatIndex < k) : codesOf operations k = [] := by
  rw [codesOf, List.map_eq_nil_iff, List.filter_eq_nil_iff]
  intro o ho
  have hlt := h o ho
  simp only [beq_iff_eq]
  omega

theorem codesOf_ne_nil {operations : List Operation} {o : Operation} (h : o ∈ operations) :
    codesOf operations o.cheatIndex ≠ [] := by
  rw [codesOf, Ne, List.map_eq_nil_iff, List.filter_eq_nil_iff]
  intro hnone
  exact hnone o h (by simp)

/-- A further code changes nothing about the first one. -/
theorem accepted_keep {cs : List Code} (h : cs ≠ []) (c : Code) :
    accepted (cs ++ [c]) = accepted cs := by
  rw [accepted_concat, if_neg (by simpa using h)]

/-- A first code that is no selector is not accepted. -/
theorem accepted_plain (cs : List Code) {c : Code} (h : c.isSelector = false) :
    accepted (cs ++ [c]) = accepted cs := by
  rw [accepted_concat, h]
  cases cs <;> rfl

/-- The state of a scope that holds these codes, when it has ended. -/
def ClosedAs (cs : List Code) (state : TranslationState) : Prop :=
  ∃ bad unsupported, state =
    level (bad || misplaced cs || (accepted cs && !writes cs)) unsupported (relative cs)

/-- The texts of the active scope, and the codes of its operations. -/
def OpenAs (cs : List Code) (s : Scan) : Prop := ∃ texts, Scanned texts s ∧ operationsOf texts = cs

theorem OpenAs.settled {cs : List Code} {s : Scan} (h : OpenAs cs s) :
    ClosedAs cs s.settled.state := by
  obtain ⟨texts, ⟨-, hbase, hwrite, hstate⟩, rfl⟩ := h
  refine ⟨badCode texts, Psv.unsupported texts, ?_⟩
  rw [Scan.settled, hbase, hwrite]
  cases accepted (operationsOf texts) with
  | false => simpa using hstate
  | true =>
    cases writes (operationsOf texts) with
    | false => simp [Scan.raise, hstate, raised_malformed]
    | true => simpa using hstate

theorem closedAs_malformed (cs : List Code) : ClosedAs cs .malformed := ⟨true, false, rfl⟩

/-- The operations belong to the cheats that the machine holds, and their codes
are what it has read. -/
structure Document.Sequenced (m : Scopes) (d : Document) : Prop where
  kinds : ∀ o ∈ d.operations, o.kind = o.code.kind
  owned : ∀ o ∈ d.operations, o.cheatIndex < m.states.length
  modes : ∀ o ∈ d.operations,
    o.addressMode = o.kind.mode (accepted (codesOf d.operations o.cheatIndex))
  closed : ∀ k state, m.closed[k]? = some state → ClosedAs (codesOf d.operations k) state
  current : ∀ s, m.current = some s → OpenAs (codesOf d.operations m.closed.length) s

namespace Document

variable {p : Platform} {d e : Document} {m m' : Scopes} {s : Scan}

theorem sequenced_empty : Sequenced .empty .empty where
  kinds := fun _ h => nomatch h
  owned := fun _ h => nomatch h
  modes := fun _ h => nomatch h
  closed := fun _ _ h => nomatch h
  current := fun _ h => nomatch h

/-- When the active scope ends every cheat is closed. -/
theorem Sequenced.settled (h : d.Sequenced m) : ∀ k state,
    (m.change Scan.settled).states[k]? = some state → ClosedAs (codesOf d.operations k) state := by
  obtain ⟨closed, current⟩ := m
  intro k state hk
  cases current with
  | none => exact h.closed k state (by simpa [Scopes.change, Scopes.states] using hk)
  | some s =>
    have hk : (closed ++ [s.settled.state])[k]? = some state := hk
    rcases Placement.getElem?_concat hk with hold | ⟨rfl, rfl⟩
    · exact h.closed k state hold
    · exact (h.current s rfl).settled

theorem settled_length (m : Scopes) :
    (m.change Scan.settled).states.length = m.states.length := by
  obtain ⟨closed, current⟩ := m
  cases current <;> simp [Scopes.change, Scopes.states]

/-- Without a further operation only the scopes of the machine matter. -/
theorem sequenced_move (h : d.Sequenced m) (hops : e.operations = d.operations)
    (hlength : m.states.length ≤ m'.states.length)
    (hclosed : ∀ k state, m'.closed[k]? = some state → ClosedAs (codesOf d.operations k) state)
    (hcurrent : ∀ s, m'.current = some s → OpenAs (codesOf d.operations m'.closed.length) s) :
    e.Sequenced m' := by
  refine ⟨?_, ?_, ?_, ?_, ?_⟩
  all_goals rw [hops]
  · exact h.kinds
  · exact fun o ho => Nat.lt_of_lt_of_le (h.owned o ho) hlength
  · exact h.modes
  · exact hclosed
  · exact hcurrent

theorem sequenced_keep (h : d.Sequenced m) (hops : e.operations = d.operations) :
    e.Sequenced m :=
  sequenced_move h hops (Nat.le_refl _) h.closed h.current

/-- A line without an operation that stays in the active scope. -/
theorem sequenced_other (h : d.Sequenced m) (hops : e.operations = d.operations)
    {text : List UInt8} (htext : headerAttempt text = false) (hcode : codeOf text = none) :
    e.Sequenced (m.change (Scan.read · text)) := by
  obtain ⟨closed, current⟩ := m
  cases current with
  | none => exact sequenced_keep h hops
  | some s =>
    refine sequenced_move h hops (by simp [Scopes.change, Scopes.states]) h.closed ?_
    rintro _ ⟨⟩
    obtain ⟨texts, hscan, hcodes⟩ := h.current s rfl
    refine ⟨texts ++ [text], scanned_read hscan htext, ?_⟩
    rw [operationsOf_concat, hcode, Option.toList_none, List.append_nil]
    exact hcodes

/-- A code line of the active cheat. -/
theorem sequenced_code (h : d.Sequenced m) (hs : m.current = some s) {o : Operation}
    (hops : e.operations = d.operations ++ [o]) (hcheat : o.cheatIndex = m.closed.length)
    (hkind : o.kind = o.code.kind) (hmode : o.addressMode = o.kind.mode s.base)
    {text : List UInt8} (hclass : classify text = .code o.code) :
    e.Sequenced { m with current := some (s.step (.code o.code)) } := by
  obtain ⟨closed, current⟩ := m
  obtain rfl : current = some s := hs
  obtain ⟨texts, hscan, hcodes⟩ := h.current s rfl
  have hcheat : o.cheatIndex = closed.length := hcheat
  have hbase : s.base = accepted (codesOf d.operations closed.length) := by rw [hscan.base, hcodes]
  have hlast : codesOf e.operations closed.length =
      codesOf d.operations closed.length ++ [o.code] := by
    rw [hops, codesOf_concat, if_pos hcheat]
  have hother : ∀ k, k ≠ closed.length → codesOf e.operations k = codesOf d.operations k := by
    intro k hk
    rw [hops, codesOf_concat, if_neg (by omega)]
  refine ⟨?_, ?_, ?_, ?_, ?_⟩
  · rw [hops]
    intro o' ho'
    rcases List.mem_append.mp ho' with hold | hnew
    · exact h.kinds o' hold
    · rw [List.mem_singleton.mp hnew]
      exact hkind
  · rw [hops]
    intro o' ho'
    rcases List.mem_append.mp ho' with hold | hnew
    · exact (h.owned o' hold).trans_eq (by simp [Scopes.states])
    · rw [List.mem_singleton.mp hnew, hcheat]
      simp [Scopes.states]
  · intro o' ho'
    rw [hops] at ho'
    rcases List.mem_append.mp ho' with hold | hnew
    · rw [h.modes o' hold]
      by_cases hk : o'.cheatIndex = closed.length
      · have hne := codesOf_ne_nil hold
        rw [hk] at hne ⊢
        rw [hlast, accepted_keep hne]
      · rw [hother _ hk]
    · rw [List.mem_singleton.mp hnew, hcheat, hlast, hmode, hbase]
      -- the mode of a write does not depend on whether it is the first operation
      cases hsel : o.code.isSelector with
      | false => rw [accepted_plain _ hsel]
      | true =>
        have hselector : o.kind = .selectModuleBase :=
          hkind.trans (by simpa [Code.isSelector] using hsel)
        rw [hselector]
        rfl
  · intro k state hk
    have hlt : k < closed.length := (List.getElem?_eq_some_iff.mp hk).1
    rw [hother k (by omega)]
    exact h.closed k state hk
  · rintro _ ⟨⟩
    have hattempt : headerAttempt text = false := by
      rw [Bool.eq_false_iff, Ne, classify_attempt, hclass]
      simp
    have hread := scanned_read hscan hattempt
    rw [Scan.read, hclass] at hread
    refine ⟨texts ++ [text], hread, ?_⟩
    have hcode : codeOf text = some o.code := by rw [codeOf, hclass]
    rw [hlast, operationsOf_concat, hcode, hcodes]
    rfl

/-- A header line closes the active cheat and opens one without operations. -/
theorem sequenced_header (h : d.Sequenced m) (hops : e.operations = d.operations) :
    e.Sequenced ⟨(m.change Scan.settled).states, some .start⟩ := by
  have hlength := settled_length m
  refine sequenced_move h hops ?_ h.settled ?_
  · rw [← hlength]
    simp [Scopes.states]
  · rintro _ ⟨⟩
    refine ⟨[], scanned_start, ?_⟩
    rw [codesOf_new fun o ho => (h.owned o ho).trans_eq hlength.symm]
    rfl

/-- A malformed header closes the active cheat as malformed. -/
theorem sequenced_badHeader (h : d.Sequenced m) (hops : e.operations = d.operations) :
    e.Sequenced ⟨((m.change Scan.settled).change (Scan.raise .malformed)).states, none⟩ := by
  obtain ⟨closed, current⟩ := m
  refine sequenced_move h hops ?_ ?_ fun _ hs => nomatch hs
  · cases current <;> simp [Scopes.change, Scopes.states]
  · intro k state hk
    cases current with
    | none => exact h.closed k state (by simpa [Scopes.change, Scopes.states] using hk)
    | some s =>
      have hk : (closed ++ [(s.settled.raise .malformed).state])[k]? = some state := hk
      rcases Placement.getElem?_concat hk with hold | ⟨rfl, rfl⟩
      · exact h.closed k state hold
      · rw [show (s.settled.raise .malformed).state = .malformed from raised_malformed _]
        exact closedAs_malformed _

theorem addressMode_eq (d : Document) (kind : OperationKind) :
    d.addressMode kind = kind.mode d.base := by
  cases kind <;> rfl

theorem sequenced_step (hshows : d.Shows m) (h : d.Sequenced m) (t : LineText) :
    (d.step p t).Sequenced (m.read t.text) := by
  have hops := step_operations p d t
  rw [lineOperation] at hops
  by_cases hattempt : headerAttempt t.text = true
  · rcases (classify_attempt t.text).mp hattempt with hclass | ⟨activation, description, hclass⟩
    · rw [hclass, Option.toList_none, List.append_nil] at hops
      rw [Scopes.read, hclass]
      exact sequenced_badHeader h hops
    · rw [hclass, Option.toList_none, List.append_nil] at hops
      rw [Scopes.read, hclass]
      exact sequenced_header h hops
  · have hno : headerAttempt t.text = false := by simpa using hattempt
    have hread := Scopes.read_other hno m
    rw [hread]
    cases hclass : classify t.text with
    | code c =>
      rw [hclass] at hops
      obtain ⟨closed, current⟩ := m
      have hactive := hshows.active
      cases current with
      | none =>
        rw [hactive] at hops
        exact sequenced_keep h (hops.trans (List.append_nil _))
      | some s =>
        have hbase := (hshows.scan s rfl).2.1
        rw [hactive] at hops
        have hscan : (⟨closed, some s⟩ : Scopes).change (Scan.read · t.text) =
            ⟨closed, some (s.step (.code c))⟩ := by simp [Scopes.change, Scan.read, hclass]
        rw [hscan]
        exact sequenced_code h rfl hops rfl rfl (by rw [← hbase]; exact addressMode_eq d _) hclass
    | _ =>
      have hcode : codeOf t.text = none := by rw [codeOf, hclass]
      rw [hclass, Option.toList_none, List.append_nil] at hops
      exact sequenced_other h hops hno hcode

end Document

theorem foldl_sequenced (p : Platform) (ts : List LineText) {d : Document} {m : Scopes}
    (hshows : d.Shows m) (h : d.Sequenced m) :
    (ts.foldl (Document.step p) d).Sequenced ((ts.map (·.text)).foldl Scopes.read m) := by
  induction ts generalizing d m with
  | nil => exact h
  | cons t rest ih =>
    exact ih (Document.shows_step p hshows t) (Document.sequenced_step hshows h t)

/-- The operations of a complete import. -/
structure Ordered (cheats : List Cheat) (operations : List Operation) : Prop where
  kinds : ∀ o ∈ operations, o.kind = o.code.kind
  modes : ∀ o ∈ operations,
    o.addressMode = o.kind.mode (accepted (codesOf operations o.cheatIndex))
  states : ∀ (k : Nat) (c : Cheat), cheats[k]? = some c →
    ClosedAs (codesOf operations k) c.translationState

theorem document_ordered (p : Platform) (source : List UInt8) :
    Ordered (parseDocument p source).cheats (parseDocument p source).operations := by
  have hseq := foldl_sequenced p (sourceLines source) Document.shows_empty
    Document.sequenced_empty
  have hshows := document_shows p source
  rw [parseDocument, Document.finalize_operations]
  refine ⟨hseq.kinds, hseq.modes, ?_⟩
  intro k c hk
  refine hseq.settled k _ ?_
  rw [← sourceTexts, ← hshows.states, List.getElem?_map, parseDocument, hk, Option.map_some]

/-- The first operation of the cheat is a selector in range. -/
def Selected (operations : List Operation) (k : Nat) : Prop :=
  ∃ o, operations.find? (fun o => o.cheatIndex == k) = some o ∧
    o.kind = .selectModuleBase ∧ o.address ≤ 0xff ∧ o.value ≤ 1

theorem inRange_iff (c : Code) : c.inRange = true ↔ c.address ≤ 0xff ∧ c.value ≤ 1 := by
  simp [Code.inRange]

theorem selected_iff {operations : List Operation} (hkinds : ∀ o ∈ operations, o.kind = o.code.kind)
    (k : Nat) : Selected operations k ↔ accepted (codesOf operations k) = true := by
  have hhead : (codesOf operations k).head? =
      (operations.find? fun o => o.cheatIndex == k).map Operation.code := by
    rw [codesOf, List.head?_map, List.head?_filter]
  rw [accepted, hhead, Selected]
  cases hfind : operations.find? fun o => o.cheatIndex == k with
  | none => simp
  | some o =>
    have hkind := hkinds o (List.mem_of_find?_eq_some hfind)
    have hsel : o.code.isSelector = true ↔ o.kind = .selectModuleBase := by
      rw [Code.isSelector, ← hkind, decide_eq_true_iff]
    rw [Option.map_some, Option.any_some, Bool.and_eq_true, hsel, inRange_iff]
    simp [Operation.code]

/-- Where no selector is misplaced, every selector is an accepted one. -/
theorem accepted_relative {cs : List Code} (h : misplaced cs = false) :
    accepted cs = relative cs := by
  induction cs using List.reverseRecOn with
  | nil => rfl
  | append_singleton cs c ih =>
    rw [misplaced_concat, Bool.or_eq_false_iff] at h
    have ih := ih h.1
    rw [accepted_concat, relative_concat, ← ih]
    cases cs with
    | nil => cases hsel : c.isSelector <;> simp_all [accepted]
    | cons first rest => cases hsel : c.isSelector <;> simp_all

theorem accepted_le {cs : List Code} (h : accepted cs = true) : relative cs = true := by
  cases cs with
  | nil => cases h
  | cons c rest =>
    simp only [accepted, List.head?_cons, Option.any_some, Bool.and_eq_true] at h
    simp [relative, h.1]

theorem misplaced_middle {before after : List Code} {c : Code} (hc : c.isSelector = true)
    (h : before ≠ [] ∨ c.inRange = false) : misplaced (before ++ c :: after) = true := by
  have hmem : (c, before.length) ∈ (before ++ c :: after).zipIdx := by
    simp [List.mk_mem_zipIdx_iff_getElem?]
  rw [misplaced, List.any_eq_true]
  refine ⟨(c, before.length), hmem, ?_⟩
  simp only [hc, Bool.true_and, Bool.or_eq_true, bne_iff_ne, Bool.not_eq_true']
  exact h.imp_left fun hne hlength => hne (List.length_eq_zero_iff.mp hlength)

theorem ClosedAs.moduleRelative {cs : List Code} (h : ClosedAs cs .moduleRelative) :
    accepted cs = true := by
  obtain ⟨bad, unsupported, hstate⟩ := h
  cases hm : misplaced cs with
  | true => simp [level, hm] at hstate
  | false =>
    rw [accepted_relative hm]
    cases hr : relative cs with
    | true => rfl
    | false =>
      rw [hr, level] at hstate
      split at hstate
      · cases hstate
      · split at hstate <;> cases hstate

theorem ClosedAs.directOnly {cs : List Code} (h : ClosedAs cs .directOnly) :
    accepted cs = false := by
  obtain ⟨bad, unsupported, hstate⟩ := h
  rw [Bool.eq_false_iff]
  intro ha
  rw [accepted_le ha, level] at hstate
  split at hstate
  · cases hstate
  · split at hstate <;> cases hstate

theorem ClosedAs.misplaced {cs : List Code} {state : TranslationState} (h : ClosedAs cs state)
    (hm : Psv.misplaced cs = true) : state = .malformed := by
  obtain ⟨bad, unsupported, hstate⟩ := h
  rw [hstate, hm]
  simp

theorem mode_write {kind : OperationKind} (h : kind.isWrite = true) (selected : Bool) :
    kind.mode selected = if selected then .selectedModuleRelative else .absolute := by
  cases kind with
  | selectModuleBase => cases h
  | opaqueOperation => cases h
  | _ => rfl

/-- Which operations a selector reaches, and what the states promise about it. -/
structure SelectorScopes (cheats : List Cheat) (operations : List Operation) : Prop where
  kinds : ∀ o ∈ operations, o.kind = operationKind o.legacyCode
  notApplicable : ∀ o ∈ operations, o.addressMode = .notApplicable ↔
    o.kind = .selectModuleBase ∨ o.kind = .opaqueOperation
  relative : ∀ o ∈ operations, o.kind.isWrite = true →
    (o.addressMode = .selectedModuleRelative ↔ Selected operations o.cheatIndex)
  absolute : ∀ o ∈ operations, o.kind.isWrite = true →
    (o.addressMode = .absolute ↔ ¬Selected operations o.cheatIndex)
  unmixed : ∀ o ∈ operations, ∀ o' ∈ operations, o.kind.isWrite = true → o'.kind.isWrite = true →
    o.cheatIndex = o'.cheatIndex → o.addressMode = o'.addressMode
  own : ∀ k, Selected (operations.filter fun o => o.cheatIndex == k) k ↔ Selected operations k
  directOnly : ∀ o ∈ operations, o.kind.isWrite = true → ∀ c : Cheat,
    cheats[o.cheatIndex]? = some c → c.translationState = .directOnly → o.addressMode = .absolute
  moduleRelative : ∀ o ∈ operations, o.kind.isWrite = true → ∀ c : Cheat,
    cheats[o.cheatIndex]? = some c → c.translationState = .moduleRelative →
      o.addressMode = .selectedModuleRelative
  rejected : ∀ earlier o later, operations = earlier ++ o :: later → o.kind = .selectModuleBase →
    ((∃ e ∈ earlier, e.cheatIndex = o.cheatIndex) ∨ ¬(o.address ≤ 0xff ∧ o.value ≤ 1)) →
    ∀ c : Cheat, cheats[o.cheatIndex]? = some c →
      c.translationState ≠ .directOnly ∧ c.translationState ≠ .moduleRelative
  late : ∀ earlier o later, operations = earlier ++ o :: later → o.kind = .selectModuleBase →
    ∀ e ∈ earlier, e.cheatIndex = o.cheatIndex → e.kind.isWrite = true →
    ∀ c : Cheat, cheats[o.cheatIndex]? = some c →
      c.translationState ≠ .directOnly ∧ c.translationState ≠ .moduleRelative

section Ordered

variable {cheats : List Cheat} {operations : List Operation}

theorem Ordered.write_mode (h : Ordered cheats operations) :
    ∀ o ∈ operations, o.kind.isWrite = true → o.addressMode =
      if accepted (codesOf operations o.cheatIndex) then .selectedModuleRelative
      else .absolute := by
  intro o ho hw
  rw [h.modes o ho, mode_write hw]

/-- A selector that is not first or out of range makes its cheat malformed. -/
theorem Ordered.rejected (h : Ordered cheats operations) {earlier later : List Operation}
    {o : Operation} (hsplit : operations = earlier ++ o :: later)
    (hkind : o.kind = .selectModuleBase)
    (hwhy : (∃ e ∈ earlier, e.cheatIndex = o.cheatIndex) ∨ ¬(o.address ≤ 0xff ∧ o.value ≤ 1))
    {c : Cheat} (hc : cheats[o.cheatIndex]? = some c) : c.translationState = .malformed := by
  have hmem : o ∈ operations := by
    rw [hsplit]
    exact List.mem_append_right _ (List.mem_cons_self ..)
  have hcodes : codesOf operations o.cheatIndex =
      codesOf earlier o.cheatIndex ++ o.code :: codesOf later o.cheatIndex := by
    rw [hsplit, codesOf, List.filter_append, List.map_append, List.filter_cons_of_pos (by simp)]
    rfl
  have hsel : o.code.isSelector = true := by
    rw [Code.isSelector, ← h.kinds o hmem, hkind]
    rfl
  refine (h.states _ c hc).misplaced ?_
  rw [hcodes]
  refine misplaced_middle hsel ?_
  rcases hwhy with ⟨e, he, hsame⟩ | hrange
  · left
    rw [← hsame]
    exact codesOf_ne_nil he
  · right
    rwa [Bool.eq_false_iff, Ne, inRange_iff]

theorem Ordered.selectorScopes (h : Ordered cheats operations) :
    SelectorScopes cheats operations := by
  have hselected := selected_iff h.kinds
  have hwrite := h.write_mode
  constructor
  case kinds => exact h.kinds
  case notApplicable =>
    intro o ho
    rw [h.modes o ho]
    cases o.kind <;> simp [OperationKind.mode] <;> split <;> decide
  case relative =>
    intro o ho hw
    rw [hselected, hwrite o ho hw]
    cases accepted (codesOf operations o.cheatIndex) <;> simp
  case absolute =>
    intro o ho hw
    rw [hselected, hwrite o ho hw]
    cases accepted (codesOf operations o.cheatIndex) <;> simp
  case unmixed =>
    intro o ho o' ho' hw hw' hsame
    rw [hwrite o ho hw, hwrite o' ho' hw', hsame]
  case own =>
    intro k
    have hfind : (operations.filter fun o => o.cheatIndex == k).find? (fun o => o.cheatIndex == k) =
        operations.find? fun o => o.cheatIndex == k := by
      rw [List.find?_filter]
      simp only [and_self, Bool.decide_eq_true]
    rw [Selected, hfind, Selected]
  case directOnly =>
    intro o ho hw c hc hstate
    have hclosed := h.states _ c hc
    rw [hstate] at hclosed
    rw [hwrite o ho hw, hclosed.directOnly]
    rfl
  case moduleRelative =>
    intro o ho hw c hc hstate
    have hclosed := h.states _ c hc
    rw [hstate] at hclosed
    rw [hwrite o ho hw, hclosed.moduleRelative]
    rfl
  case rejected =>
    intro earlier o later hsplit hkind hwhy c hc
    rw [h.rejected hsplit hkind hwhy hc]
    decide
  case late =>
    intro earlier o later hsplit hkind e he hsame _ c hc
    rw [h.rejected hsplit hkind (.inl ⟨e, he, hsame⟩) hc]
    decide

end Ordered

/-- An import that returns OK keeps every selector to its own cheat. -/
theorem import_selectors (p : Platform) (c : Call β) (out : Outputs β)
    (h : vcPsvParse p c = some (.ok, out)) :
    ∃ lines cheats operations, Imported out lines cheats operations ∧
      SelectorScopes cheats operations := by
  obtain ⟨-, -, himported⟩ := ok_imported h
  exact ⟨_, _, _, himported, (document_ordered p c.source.value).selectorScopes⟩

/-- `_V0`, LF, `$B200 00000001 00000000`, LF, `$0200 00000010 00000001`. -/
def relativeCall : Call UInt8 where
  source := ⟨0x1000, [0x5f, 0x56, 0x30, 0x0a, 0x24, 0x42, 0x32, 0x30, 0x30, 0x20, 0x30, 0x30, 0x30,
    0x30, 0x30, 0x30, 0x30, 0x31, 0x20, 0x30, 0x30, 0x30, 0x30, 0x30, 0x30, 0x30, 0x30, 0x0a, 0x24,
    0x30, 0x32, 0x30, 0x30, 0x20, 0x30, 0x30, 0x30, 0x30, 0x30, 0x30, 0x31, 0x30, 0x20, 0x30, 0x30,
    0x30, 0x30, 0x30, 0x30, 0x30, 0x31]⟩
  lines := ⟨0x3000, 3, fun _ => 0xa5⟩
  cheats := ⟨0x4000, 1, fun _ => 0xa5⟩
  operations := ⟨0x5000, 2, fun _ => 0xa5⟩
  report := ⟨0x2000, .zero⟩

/-- The selector of the second line makes the write of the third relative. -/
theorem import_selectors_relative :
    ∃ out, vcPsvParse ilp32 relativeCall = some (.ok, out) ∧
      ∃ lines cheats operations, Imported out lines cheats operations ∧
        SelectorScopes cheats operations ∧
        operations = [⟨.selectModuleBase, .notApplicable, 0xb200, 1, 0, 0, 1⟩,
          ⟨.writeU32, .selectedModuleRelative, 0x0200, 0x10, 1, 0, 2⟩] := by
  obtain ⟨⟨status, out⟩, hrun, hshape⟩ := Option.map_eq_some_iff.mp
    (show (vcPsvParse ilp32 relativeCall).map (fun r => (r.1, r.2.report.totalOperations)) =
      some (.ok, 2) by decide)
  have hfirst : (vcPsvParse ilp32 relativeCall).map (fun r => r.2.operations.slots 0) =
      some (.record ⟨.selectModuleBase, .notApplicable, 0xb200, 1, 0, 0, 1⟩) := by decide
  have hsecond : (vcPsvParse ilp32 relativeCall).map (fun r => r.2.operations.slots 1) =
      some (.record ⟨.writeU32, .selectedModuleRelative, 0x0200, 0x10, 1, 0, 2⟩) := by decide
  simp only [hrun, Option.map_some, Option.some.injEq, Prod.mk.injEq] at hshape hfirst hsecond
  obtain ⟨rfl, htotal⟩ := hshape
  obtain ⟨lines, cheats, operations, himported, hscopes⟩ :=
    import_selectors ilp32 relativeCall out hrun
  have hselector :=
    imported_get himported.total_operations himported.operation (by omega) hfirst
  have hwrite := imported_get himported.total_operations himported.operation (by omega) hsecond
  obtain ⟨first, second, rfl⟩ :=
    List.length_eq_two.mp (himported.total_operations.symm.trans htotal)
  obtain rfl := Option.some.inj hselector
  obtain rfl := Option.some.inj hwrite
  exact ⟨out, hrun, lines, cheats, _, himported, hscopes, rfl⟩

end VitaCheat.Psv
