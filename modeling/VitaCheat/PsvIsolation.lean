import VitaCheat.Lib.Segments
import VitaCheat.PsvEntries

/-!
# Damage stays in its cheat

Lines that begin with `_V` cut a file into scopes. What an import says about a cheat is
computed in its scope alone: whatever becomes of the other lines of one scope, all other
cheats are imported as before.
-/
namespace VitaCheat.Psv

open Segments (Cutter Mark)

variable {β γ : Type}

/-- Headers, valid or not, bound the scopes. -/
def LineClass.mark : LineClass → Mark
  | .header _ _ => .opens
  | .badHeader => .closes
  | .blank | .comment | .code _ | .badCode | .opaqueLine => .inner

/-- The states of the cheats, scope by scope. -/
def stateCutter : Cutter LineClass Scan TranslationState where
  mark := LineClass.mark
  start _ := .start
  step := Scan.step
  settle s := s.settled.state
  close s := (s.settled.raise .malformed).state

/-- The entries, scope by scope. -/
def entryCutter : Cutter LineClass Entry Entry where
  mark := LineClass.mark
  start
    | .header activation description => ⟨activation, description, []⟩
    | _ => ⟨.manual, [], []⟩
  step
    | e, .code c => e.push c
    | e, _ => e
  settle e := e
  close e := e

def Scopes.segments (m : Scopes) : Segments.State Scan TranslationState := ⟨m.closed, m.current⟩

theorem scopes_results (m : Scopes) :
    stateCutter.results m.segments = (m.change Scan.settled).states := by
  obtain ⟨closed, current⟩ := m
  cases current <;> rfl

theorem scopes_step (m : Scopes) (cls : LineClass) :
    (m.step cls).segments = stateCutter.next m.segments cls := by
  obtain ⟨closed, current⟩ := m
  cases cls with
  | header activation description => cases current <;> rfl
  | badHeader => cases current <;> rfl
  | _ => rfl

theorem scopes_foldl (texts : List (List UInt8)) (m : Scopes) :
    (texts.foldl Scopes.read m).segments =
      (texts.map classify).foldl stateCutter.next m.segments := by
  induction texts generalizing m with
  | nil => rfl
  | cons text rest ih =>
    rw [List.foldl_cons, ih, Scopes.read, scopes_step]
    rfl

theorem state_inert (s : Segments.State Scan TranslationState) {cls : LineClass}
    (h : cls = .blank ∨ cls = .comment) : stateCutter.next s cls = s := by
  obtain ⟨ended, current⟩ := s
  rcases h with rfl | rfl
  · cases current <;> rfl
  · cases current <;> rfl

/-- The states of a document, scope by scope. -/
theorem document_segments (p : Platform) (source : List UInt8) :
    (parseDocument p source).cheats.map Cheat.translationState =
      stateCutter.results (stateCutter.run (sourceClasses source)) := by
  rw [(document_shows p source).states, ← scopes_results, scopes_foldl,
    foldl_visible (fun s => state_inert s (.inl rfl)) fun s => state_inert s (.inr rfl)]
  rfl

def readingOf (s : Segments.State Entry Entry) : Reading :=
  ⟨entryCutter.results s, s.current.isSome⟩

/-- An inner line that is no code changes nothing. -/
theorem entry_other (s : Segments.State Entry Entry) {cls : LineClass} (hmark : cls.mark = .inner)
    (hcode : ∀ c, cls ≠ .code c) : entryCutter.next s cls = s ∧ ∀ r : Reading, r.step cls = r := by
  obtain ⟨ended, current⟩ := s
  cases cls with
  | header activation description => cases hmark
  | badHeader => cases hmark
  | code c => exact absurd rfl (hcode c)
  | _ => exact ⟨by cases current <;> rfl, fun _ => rfl⟩

theorem reading_step (s : Segments.State Entry Entry) (cls : LineClass) :
    readingOf (entryCutter.next s cls) = (readingOf s).step cls := by
  cases hmark : cls.mark with
  | opens =>
    cases cls with
    | header activation description => rfl
    | _ => cases hmark
  | closes =>
    obtain ⟨ended, current⟩ := s
    cases cls with
    | badHeader => cases current <;> simp [readingOf, Reading.step, Cutter.results, Cutter.next,
        entryCutter, LineClass.mark]
    | _ => cases hmark
  | inner =>
    obtain ⟨ended, current⟩ := s
    cases cls with
    | code c =>
      cases current with
      | none => rfl
      | some e =>
        have hlast : (ended ++ [e]).modify ((ended ++ [e]).length - 1) (Entry.push c) =
            ended ++ [e.push c] := by
          rw [List.length_append, List.length_singleton, Nat.add_sub_cancel, modify_concat]
        exact congrArg (fun es => (⟨es, true⟩ : Reading)) hlast.symm
    | _ =>
      obtain ⟨hnext, hread⟩ := entry_other ⟨ended, current⟩ hmark (fun _ h => by cases h)
      rw [hnext, hread]

theorem reading_foldl (classes : List LineClass) (s : Segments.State Entry Entry) :
    classes.foldl Reading.step (readingOf s) = readingOf (classes.foldl entryCutter.next s) := by
  induction classes generalizing s with
  | nil => rfl
  | cons cls rest ih => rw [List.foldl_cons, ← reading_step, ih, List.foldl_cons]

theorem entries_segments (classes : List LineClass) :
    entriesOf classes = entryCutter.results (entryCutter.run classes) :=
  congrArg Reading.entries (reading_foldl classes ⟨[], none⟩)

/-- The cheat whose scope is open behind the lines. -/
def openScope (classes : List LineClass) : Option Nat :=
  if entryCutter.isOpen classes then some (entryCutter.opened classes - 1) else none

/-- Inner lines in the place of others change nothing for other cheats. -/
theorem results_other {σ ρ : Type} (cut : Cutter LineClass σ ρ) (hcut : cut.mark = LineClass.mark)
    (before : List LineClass) {middle middle' : List LineClass} (after : List LineClass)
    (h : ∀ cls ∈ middle, cls.mark = .inner) (h' : ∀ cls ∈ middle', cls.mark = .inner) :
    (cut.results (cut.run (before ++ middle ++ after))).length =
        (cut.results (cut.run (before ++ middle' ++ after))).length ∧
      ∀ k, openScope before ≠ some k →
        (cut.results (cut.run (before ++ middle ++ after)))[k]? =
          (cut.results (cut.run (before ++ middle' ++ after)))[k]? := by
  obtain ⟨⟨hlength, hagree⟩, hclosed⟩ := cut.results_replace before after (hcut ▸ h)
    (hcut ▸ h')
  refine ⟨hlength, fun k hk => ?_⟩
  have hopen : cut.isOpen before = entryCutter.isOpen before := by
    unfold Cutter.isOpen
    rw [hcut]
    rfl
  have hopened : cut.opened before = entryCutter.opened before := by
    unfold Cutter.opened
    rw [hcut]
    rfl
  rw [openScope, ← hopen, ← hopened] at hk
  cases hscope : cut.isOpen before with
  | false => rw [hclosed hscope]
  | true =>
    rw [hscope, if_pos rfl] at hk
    exact hagree k fun heq => hk (congrArg some heq.symm)

/-- For all sources and whatever lines stand in the place of others, as long as neither
begin with `_V`: if both files are imported they have as many cheats, and every cheat but
the one whose scope the lines are in has the same entry and the same state. -/
theorem import_isolated (p p' : Platform) (c : Call β) (c' : Call γ) (out : Outputs β)
    (out' : Outputs γ) (before middle middle' after : List LineClass)
    (hclasses : sourceClasses c.source.value = before ++ middle ++ after)
    (hclasses' : sourceClasses c'.source.value = before ++ middle' ++ after)
    (hmiddle : ∀ cls ∈ middle, cls.mark = .inner) (hmiddle' : ∀ cls ∈ middle', cls.mark = .inner)
    (hrun : vcPsvParse p c = some (.ok, out)) (hrun' : vcPsvParse p' c' = some (.ok, out')) :
    out.cheatRecords.length = out'.cheatRecords.length ∧
      ∀ k, openScope before ≠ some k →
        (out.entries c.source.value)[k]? = (out'.entries c'.source.value)[k]? ∧
        (out.cheatRecords.map Cheat.translationState)[k]? =
          (out'.cheatRecords.map Cheat.translationState)[k]? := by
  obtain ⟨-, hcheats, -⟩ := ok_records hrun
  obtain ⟨-, hcheats', -⟩ := ok_records hrun'
  have hstates := document_segments p c.source.value
  have hstates' := document_segments p' c'.source.value
  have hentries := (ok_entries hrun).trans (entries_segments _)
  have hentries' := (ok_entries hrun').trans (entries_segments _)
  rw [← hcheats, hclasses] at hstates
  rw [← hcheats', hclasses'] at hstates'
  rw [hclasses] at hentries
  rw [hclasses'] at hentries'
  obtain ⟨-, hother⟩ := results_other entryCutter rfl before after hmiddle hmiddle'
  obtain ⟨hlength, hother'⟩ := results_other stateCutter rfl before after hmiddle hmiddle'
  rw [← hstates, ← hstates', List.length_map, List.length_map] at hlength
  refine ⟨hlength, fun k hk => ?_⟩
  rw [hentries, hentries', hstates, hstates']
  exact ⟨hother k hk, hother' k hk⟩

/-- The sample twice, one line after the other. -/
def pairCall : Call UInt8 where
  source := ⟨0x1000, sample ++ 0x0a :: sample⟩
  lines := ⟨0x3000, 4, fun _ => 0xa5⟩
  cheats := ⟨0x4000, 2, fun _ => 0xa5⟩
  operations := ⟨0x5000, 2, fun _ => 0xa5⟩
  report := ⟨0x2000, .zero⟩

/-- The same with `$0G` for the first code line. -/
def damagedCall : Call UInt8 :=
  { pairCall with source := ⟨0x1000, sample.take 6 ++ 0x24 :: 0x30 :: 0x47 :: 0x0a :: sample⟩ }

theorem import_isolated_damage :
    ∃ out out', vcPsvParse ilp32 pairCall = some (.ok, out) ∧
      vcPsvParse ilp32 damagedCall = some (.ok, out') ∧
      out.cheatRecords.map Cheat.translationState = [.directOnly, .directOnly] ∧
      out'.cheatRecords.map Cheat.translationState = [.malformed, .directOnly] ∧
      (out.entries pairCall.source.value)[1]? = (out'.entries damagedCall.source.value)[1]? := by
  obtain ⟨⟨status, out⟩, hrun, hshape⟩ := Option.map_eq_some_iff.mp
    (show (vcPsvParse ilp32 pairCall).map
      (fun r => (r.1, r.2.cheatRecords.map Cheat.translationState)) =
        some (.ok, [.directOnly, .directOnly]) by decide)
  obtain ⟨⟨status', out'⟩, hrun', hshape'⟩ := Option.map_eq_some_iff.mp
    (show (vcPsvParse ilp32 damagedCall).map
      (fun r => (r.1, r.2.cheatRecords.map Cheat.translationState)) =
        some (.ok, [.malformed, .directOnly]) by decide)
  obtain ⟨rfl, hstate⟩ := Prod.mk.inj hshape
  obtain ⟨rfl, hstate'⟩ := Prod.mk.inj hshape'
  obtain ⟨-, hother⟩ := import_isolated ilp32 ilp32 pairCall damagedCall out out'
    [.header .manual [0x61]] [.code ⟨0x0000, 0x10, 1⟩] [.badCode]
    [.header .manual [0x61], .code ⟨0x0000, 0x10, 1⟩] (by decide) (by decide)
    (by simp [LineClass.mark]) (by simp [LineClass.mark]) hrun hrun'
  exact ⟨out, out', hrun, hrun', hstate, hstate', (hother 1 (by decide)).1⟩

end VitaCheat.Psv
