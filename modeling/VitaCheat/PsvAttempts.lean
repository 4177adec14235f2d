import VitaCheat.PsvHistory
import VitaCheat.PsvScopes

/-!
# Attempts at a header

A line that begins like a header but is none closes the scope before it, except
for the bare two bytes `_V`: these are too short for the importer's test, are read
as an extension line, and leave the scope open. Without such a line no operation
crosses an attempt at a header.
-/
namespace VitaCheat.Psv

variable {β : Type}

/-- `_V`, with anything after it or nothing. -/
def BeginsHeader (text : List UInt8) : Prop := ∃ rest, text = 0x5f :: 0x56 :: rest

def bareMark : List UInt8 := [0x5f, 0x56]

/-- Only the bare mark begins like a header without being read as an attempt. -/
theorem beginsHeader_iff (text : List UInt8) :
    BeginsHeader text ↔ AttemptsHeader text ∨ text = bareMark := by
  constructor
  · rintro ⟨rest, rfl⟩
    cases rest with
    | nil => exact .inr rfl
    | cons b rest => exact .inl ⟨b, rest, rfl⟩
  · rintro (⟨b, rest, rfl⟩ | rfl)
    · exact ⟨b :: rest, rfl⟩
    · exact ⟨[], rfl⟩

/-- The bare mark is no malformed line anywhere. -/
theorem bareMark_kind (active : Prop) : ¬Denotes active bareMark .malformed := by
  rintro (⟨⟨b, rest, h⟩, -⟩ | ⟨h, -⟩)
  · cases h
  · cases h

/-- The first attempt after a header line closes its scope. -/
theorem scopeOf_closer {texts : List (List UInt8)} {i : Nat} {text : List UInt8}
    (hi : texts[i]? = some text) (hattempt : headerAttempt text = true)
    (hbefore : ∀ j t, j < i → texts[j]? = some t → headerAttempt t = false) :
    (scopeOf texts).closer = some text := by
  induction texts generalizing i with
  | nil => cases hi
  | cons first rest ih =>
    cases i with
    | zero =>
      obtain rfl : first = text := Option.some.inj hi
      rw [scopeOf_close hattempt]
    | succ i =>
      rw [scopeOf_skip (hbefore 0 first (Nat.succ_pos i) rfl)]
      exact ih hi fun j t hj ht => hbefore (j + 1) t (Nat.succ_lt_succ hj) ht

theorem state_malformed {s : Scope} {text : List UInt8} (hcloser : s.closer = some text)
    (hclass : classify text = .badHeader) : s.state = .malformed := by
  simp [Scope.state, Scope.malformed, hcloser, hclass]

/-- What the lines that begin like a header do to the operations around them. -/
structure HeaderAttempts (source : List UInt8) (lines : List Line) (cheats : List Cheat)
    (operations : List Operation) : Prop where
  between : ∀ o ∈ operations, ∀ c : Cheat, cheats[o.cheatIndex]? = some c →
    ∀ (i : Nat) (l : Line), lines[i]? = some l → c.headerLineIndex < i → i < o.lineIndex →
      ¬BeginsHeader (l.text source)
  malformed : ∀ (i : Nat) (l : Line), lines[i]? = some l → BeginsHeader (l.text source) →
    ¬SpellsHeader (l.text source) → l.kind = .malformed
  tainted : ∀ (i : Nat) (l : Line), lines[i]? = some l → BeginsHeader (l.text source) →
    ¬SpellsHeader (l.text source) → ∀ c ∈ cheats, c.headerLineIndex < i →
      (∀ (j : Nat) (l' : Line), lines[j]? = some l' → c.headerLineIndex < j → j < i →
        ¬BeginsHeader (l'.text source)) → c.translationState = .malformed
  closed : ∀ (i : Nat) (l : Line), lines[i]? = some l → BeginsHeader (l.text source) →
    ¬SpellsHeader (l.text source) → ∀ o ∈ operations, i < o.lineIndex →
      ∀ c : Cheat, cheats[o.cheatIndex]? = some c → i < c.headerLineIndex

/-- The header of an operation's cheat is the one that is active at its line. -/
theorem operation_active {source : List UInt8} {p : Platform} {lines : List Line}
    {cheats : List Cheat} {operations : List Operation} (hgrammar : LineGrammar source lines cheats)
    (hgraph : ClosedGraph p lines cheats operations) {o : Operation} (ho : o ∈ operations)
    {c : Cheat} (hc : cheats[o.cheatIndex]? = some c) :
    ActiveAt (lines.map (Line.text source)) o.lineIndex c.headerLineIndex := by
  obtain ⟨k, hk⟩ := List.mem_iff_getElem?.mp ho
  obtain ⟨l, hl, hkind, -, hcheat⟩ := hgraph.codes.target k o hk
  obtain ⟨-, -, h, hactive⟩ := (hgrammar.kinds _ l hl .code).mp hkind
  obtain ⟨c', hc', hheader⟩ := hgrammar.owner _ l hl hkind h hactive
  rw [hcheat, hc] at hc'
  obtain rfl := Option.some.inj hc'
  rwa [hheader]

variable {source : List UInt8} {p : Platform} {lines : List Line} {cheats : List Cheat}
  {operations : List Operation}

/-- Without a bare mark every line that begins like a header is an attempt at one. -/
theorem headerAttempts_plain (hgrammar : LineGrammar source lines cheats)
    (hgraph : ClosedGraph p lines cheats operations)
    (htexts : lines.map (Line.text source) = sourceTexts source)
    (hscope : ∀ c ∈ cheats, c.translationState =
      (scopeOf ((sourceTexts source).drop (c.headerLineIndex + 1))).state)
    (hplain : ∀ text ∈ sourceTexts source, text ≠ bareMark) :
    HeaderAttempts source lines cheats operations := by
  have hget : ∀ {i : Nat} {l : Line}, lines[i]? = some l →
      (lines.map (Line.text source))[i]? = some (l.text source) := by
    intro i l hl
    rw [List.getElem?_map, hl, Option.map_some]
  have hattempt : ∀ {i : Nat} {l : Line}, lines[i]? = some l → BeginsHeader (l.text source) →
      AttemptsHeader (l.text source) := by
    intro i l hl hbegins
    refine ((beginsHeader_iff _).mp hbegins).resolve_right (hplain _ ?_)
    rw [← htexts]
    exact List.mem_map_of_mem (List.mem_of_getElem? hl)
  constructor
  case between =>
    intro o ho c hc i l hl hafter hbefore hbegins
    have hactive := operation_active hgrammar hgraph ho hc
    exact hactive.last i _ hafter hbefore (hget hl) (hattempt hl hbegins)
  case malformed =>
    intro i l hl hbegins hno
    exact (hgrammar.kinds i l hl .malformed).mpr (.inl ⟨hattempt hl hbegins, hno⟩)
  case tainted =>
    intro i l hl hbegins hno c hc hbefore hbetween
    have hclass : classify (l.text source) = .badHeader := by
      rcases classify_attempted (hattempt hl hbegins) with ⟨s, hs, -⟩ | ⟨-, hclass⟩
      · exact absurd ⟨s, hs⟩ hno
      · exact hclass
    rw [hscope c hc, ← htexts]
    refine state_malformed (scopeOf_closer (i := i - (c.headerLineIndex + 1)) ?_ ?_ ?_) hclass
    · rw [List.getElem?_drop,
        show c.headerLineIndex + 1 + (i - (c.headerLineIndex + 1)) = i by omega]
      exact hget hl
    · exact (attemptsHeader_iff _).mp (hattempt hl hbegins)
    · intro j text hj htext
      rw [List.getElem?_drop, List.getElem?_map] at htext
      obtain ⟨l', hl', rfl⟩ := Option.map_eq_some_iff.mp htext
      have hnone := hbetween _ l' hl' (by omega) (by omega)
      exact headerAttempt_false fun h => hnone ((beginsHeader_iff _).mpr (.inl h))
  case closed =>
    intro i l hl hbegins hno o ho hlt c hc
    have hactive := operation_active hgrammar hgraph ho hc
    rcases Nat.lt_trichotomy i c.headerLineIndex with hbefore | rfl | hafter
    · exact hbefore
    · obtain ⟨text, htext, hspells⟩ := hactive.header
      rw [hget hl] at htext
      exact absurd (Option.some.inj htext ▸ hspells) hno
    · exact absurd (hattempt hl hbegins) (hactive.last i _ hafter hlt (hget hl))

/-- In an import that returns OK no operation crosses a line that begins like a
header, and every such line that is no header is malformed and closes the scope
before it, if and only if no line is the bare mark. -/
theorem import_attempts (p : Platform) (c : Call β) (out : Outputs β)
    (h : vcPsvParse p c = some (.ok, out)) :
    ∃ lines cheats operations, Imported out lines cheats operations ∧
      (HeaderAttempts c.source.value lines cheats operations ↔
        ∀ text ∈ sourceTexts c.source.value, text ≠ [0x5f, 0x56]) := by
  obtain ⟨hsize, -, himported⟩ := ok_imported h
  have hmax : c.source.value.length < 2 ^ 32 := Nat.lt_of_le_of_lt hsize (by decide)
  have hgrammar := document_grammar p hmax
  have hgraph := graph_closed (document_graph p c.source.value)
  have htexts := document_texts p hmax
  refine ⟨_, _, _, himported, ?_, headerAttempts_plain hgrammar hgraph htexts (document_scope p _)⟩
  rintro hattempts text htext rfl
  rw [sourceTexts, ← htexts] at htext
  obtain ⟨l, hmem, hbare⟩ := List.mem_map.mp htext
  obtain ⟨i, hl⟩ := List.mem_iff_getElem?.mp hmem
  have hbegins : BeginsHeader (l.text c.source.value) := (beginsHeader_iff _).mpr (.inr hbare)
  have hno : ¬SpellsHeader (l.text c.source.value) := by
    rw [hbare]
    intro hspells
    obtain ⟨b, rest, hmark⟩ := hspells.attempts
    cases hmark
  have hdenotes := (hgrammar.kinds i l hl .malformed).mp (hattempts.malformed i l hl hbegins hno)
  rw [hbare] at hdenotes
  exact bareMark_kind _ hdenotes

theorem import_attempts_sample :
    ∃ out, vcPsvParse ilp32 sampleCall = some (.ok, out) ∧
      ∃ lines cheats operations, Imported out lines cheats operations ∧
        (HeaderAttempts sampleCall.source.value lines cheats operations ↔
          ∀ text ∈ sourceTexts sampleCall.source.value, text ≠ [0x5f, 0x56]) := by
  obtain ⟨⟨status, out⟩, hrun, hstatus⟩ := Option.map_eq_some_iff.mp
    (show (vcPsvParse ilp32 sampleCall).map (·.1) = some .ok by decide)
  obtain rfl : status = .ok := hstatus
  exact ⟨out, hrun, import_attempts ilp32 sampleCall out hrun⟩

/-- `_V0`, LF, `_V`, LF, `$0000 00000000 00000000`. -/
def bareCall : Call UInt8 where
  source := ⟨0x1000, [0x5f, 0x56, 0x30, 0x0a, 0x5f, 0x56, 0x0a, 0x24, 0x30, 0x30, 0x30, 0x30, 0x20,
    0x30, 0x30, 0x30, 0x30, 0x30, 0x30, 0x30, 0x30, 0x20, 0x30, 0x30, 0x30, 0x30, 0x30, 0x30, 0x30,
    0x30]⟩
  lines := ⟨0x3000, 3, fun _ => 0xa5⟩
  cheats := ⟨0x4000, 1, fun _ => 0xa5⟩
  operations := ⟨0x5000, 1, fun _ => 0xa5⟩
  report := ⟨0x2000, .zero⟩

/-- The write on the third line belongs to the cheat of the first line, across the
bare mark. -/
theorem bareCall_crosses :
    ∃ out, vcPsvParse ilp32 bareCall = some (.ok, out) ∧
      ∀ lines cheats operations, Imported out lines cheats operations →
        ¬HeaderAttempts bareCall.source.value lines cheats operations := by
  obtain ⟨⟨status, out⟩, hrun, hshape⟩ := Option.map_eq_some_iff.mp
    (show (vcPsvParse ilp32 bareCall).map (fun r => (r.1, r.2.report.totalLines,
      r.2.report.totalCheats, r.2.report.totalOperations)) = some (.ok, 3, 1, 1) by decide)
  have hline : (vcPsvParse ilp32 bareCall).map (fun r => r.2.lines.slots 1) =
      some (.record ⟨⟨4, 3⟩, ⟨4, 2⟩, .opaqueLine, 0, noIndex ilp32⟩) := by decide
  have hcheat : (vcPsvParse ilp32 bareCall).map (fun r => r.2.cheats.slots 0) =
      some (.record ⟨.manual, .requiresUnsupported, ⟨3, 0⟩, 0, 0, 1⟩) := by decide
  have hoperation : (vcPsvParse ilp32 bareCall).map (fun r => r.2.operations.slots 0) =
      some (.record ⟨.writeU8, .absolute, 0, 0, 0, 0, 2⟩) := by decide
  simp only [hrun, Option.map_some, Option.some.injEq, Prod.mk.injEq]
    at hshape hline hcheat hoperation
  obtain ⟨rfl, hlines, hcheats, hoperations⟩ := hshape
  refine ⟨out, hrun, ?_⟩
  intro lines cheats operations himported hattempts
  have hl := imported_get himported.total_lines himported.line (by omega) hline
  have hc := imported_get himported.total_cheats himported.cheat (by omega) hcheat
  have ho := imported_get himported.total_operations himported.operation (by omega) hoperation
  exact hattempts.between _ (List.mem_of_getElem? ho) _ hc 1 _ hl (by decide) (by decide)
    ⟨[], by decide⟩

end VitaCheat.Psv
