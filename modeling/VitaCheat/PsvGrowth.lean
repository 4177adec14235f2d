import VitaCheat.PsvDiagnostics
import VitaCheat.PsvEntries

/-!
# What is put behind a file

An import never looks ahead: lines put behind complete lines of a source leave the
records of these as they are. Only the last cheat may still grow. Its state can only
rise, except that a selector which had no write may find one.
-/
namespace VitaCheat.Psv

open TextLines (cr lf Complete)

variable {β γ : Type}

/-- The same cheat with possibly more operations. -/
structure Cheat.Extends (c c' : Cheat) : Prop where
  activation : c'.activation = c.activation
  description : c'.description = c.description
  headerLineIndex : c'.headerLineIndex = c.headerLineIndex
  firstOperationIndex : c'.firstOperationIndex = c.firstOperationIndex
  operationCount : c.operationCount ≤ c'.operationCount

theorem Cheat.Extends.refl (c : Cheat) : c.Extends c := ⟨rfl, rfl, rfl, rfl, Nat.le_refl _⟩

theorem Cheat.Extends.trans {a b c : Cheat} (h : a.Extends b) (h' : b.Extends c) : a.Extends c where
  activation := h'.activation.trans h.activation
  description := h'.description.trans h.description
  headerLineIndex := h'.headerLineIndex.trans h.headerLineIndex
  firstOperationIndex := h'.firstOperationIndex.trans h.firstOperationIndex
  operationCount := Nat.le_trans h.operationCount h'.operationCount

/-- A cheat that has only grown: more operations and no lower state. -/
structure Cheat.Grows (c c' : Cheat) : Prop extends c.Extends c' where
  translationState : c.translationState.code ≤ c'.translationState.code

theorem Cheat.Grows.refl (c : Cheat) : c.Grows c := ⟨.refl c, Nat.le_refl _⟩

theorem Cheat.Grows.trans {a b c : Cheat} (h : a.Grows b) (h' : b.Grows c) : a.Grows c :=
  ⟨h.toExtends.trans h'.toExtends, Nat.le_trans h.translationState h'.translationState⟩

theorem raise_extends (state : TranslationState) (c : Cheat) :
    c.Extends (c.raise state) ∧ (c.raise state).Extends c := by
  unfold Cheat.raise
  split
  · exact ⟨⟨rfl, rfl, rfl, rfl, Nat.le_refl _⟩, ⟨rfl, rfl, rfl, rfl, Nat.le_refl _⟩⟩
  · exact ⟨.refl c, .refl c⟩

theorem raise_grows (state : TranslationState) (c : Cheat) : c.Grows (c.raise state) := by
  refine ⟨(raise_extends state c).1, ?_⟩
  unfold Cheat.raise
  split
  · next h => exact Nat.le_of_lt h
  · exact Nat.le_refl _

namespace Document

variable {p : Platform} {d e f : Document}

/-- What further lines may do to the cheats: the active one grows, the others stay. -/
structure Later (d e : Document) : Prop where
  kept : ∀ (k : Nat) (c : Cheat), d.cheats[k]? = some c → d.active ≠ some k → e.cheats[k]? = some c
  grown : ∀ (k : Nat) (c : Cheat), d.cheats[k]? = some c → ∃ c', e.cheats[k]? = some c' ∧ c.Grows c'
  active : ∀ k, k < d.cheats.length → e.active = some k → d.active = some k

theorem later_same (hcheats : e.cheats = d.cheats)
    (hactive : e.active = d.active ∨ e.active = none) : d.Later e where
  kept := fun k c hc _ => hcheats ▸ hc
  grown := fun k c hc => ⟨c, hcheats ▸ hc, .refl c⟩
  active := by
    intro k _ hk
    rcases hactive with hsame | hnone
    · exact hsame ▸ hk
    · rw [hnone] at hk
      cases hk

theorem Later.trans (h : d.Later e) (h' : e.Later f) : d.Later f where
  kept := by
    intro k c hc hk
    have hlt := (List.getElem?_eq_some_iff.mp hc).1
    exact h'.kept k c (h.kept k c hc hk) fun he => hk (h.active k hlt he)
  grown := by
    intro k c hc
    obtain ⟨c', hc', hgrows⟩ := h.grown k c hc
    obtain ⟨c'', hc'', hgrows'⟩ := h'.grown k c' hc'
    exact ⟨c'', hc'', hgrows.trans hgrows'⟩
  active := by
    intro k hk hf
    obtain ⟨c', hc', -⟩ := h.grown k _ (List.getElem?_eq_getElem hk)
    have hlt := (List.getElem?_eq_some_iff.mp hc').1
    exact h.active k hk (h'.active k hlt hf)

/-- A start that differs in nothing that matters here. -/
theorem Later.start (h : e.Later f) (hcheats : e.cheats = d.cheats)
    (hactive : e.active = d.active) : d.Later f :=
  (later_same hcheats (.inl hactive)).trans h

/-- A change of the active cheat that lets it grow. -/
theorem later_modify {k : Nat} {g : Cheat → Cheat} (hactive : d.active = some k)
    (hcheats : e.cheats = d.cheats.modify k g) (hsame : e.active = d.active)
    (hg : ∀ c, Cheat.Grows c (g c)) : d.Later e where
  kept := by
    intro i c hc hi
    have hne : k ≠ i := fun h => hi (h ▸ hactive)
    rw [hcheats, List.getElem?_modify_ne _ _ hne]
    exact hc
  grown := by
    intro i c hc
    rw [hcheats]
    by_cases hi : k = i
    · subst hi
      rw [List.getElem?_modify_eq, hc]
      exact ⟨g c, rfl, hg c⟩
    · rw [List.getElem?_modify_ne _ _ hi]
      exact ⟨c, hc, .refl c⟩
  active := fun i _ hi => hsame ▸ hi

theorem later_taint (d : Document) (state : TranslationState) : d.Later (d.taint state) := by
  cases hactive : d.active with
  | none =>
    rw [taint, hactive]
    exact later_same rfl (.inl rfl)
  | some k =>
    apply later_modify hactive _ (taint_active d state) (raise_grows state)
    rw [taint, hactive]

theorem later_finalize (d : Document) : d.Later d.finalize := by
  unfold finalize
  split
  · exact (later_taint d.countInvalid _).start rfl rfl
  · exact later_same rfl (.inl rfl)

theorem later_malformedCode (d : Document) : d.Later d.malformedCode :=
  (later_taint (d.markLast fun l => { l with kind := .malformed }).countMalformed _).start rfl rfl

theorem later_closeMalformed (d : Document) : d.Later d.closeMalformed :=
  (later_malformedCode d).trans (later_same rfl (.inr rfl))

theorem later_openCheat (d : Document) (activation : Activation) (first size : Nat) :
    d.Later (d.openCheat activation first size) where
  kept := fun k c hc _ => Placement.getElem?_keep hc _
  grown := fun k c hc => ⟨c, Placement.getElem?_keep hc _, .refl c⟩
  active := by
    rintro k hk ⟨⟩
    exact absurd hk (Nat.lt_irrefl _)

theorem later_applyKind (d : Document) (c : Code) : d.Later (d.applyKind c) := by
  unfold applyKind selectModule
  cases operationKind c.code with
  | selectModuleBase =>
    dsimp only
    split
    · exact (later_taint { d with base := true, write := false } _).start rfl rfl
    · exact (later_taint d.countInvalid _).start rfl rfl
  | opaqueOperation =>
    exact (later_taint { d with unsupported := d.unsupported + 1 } _).start rfl rfl
  | _ =>
    dsimp only
    split
    · exact later_same rfl (.inl rfl)
    · exact later_same rfl (.inl rfl)

theorem later_addOperation {k : Nat} (hactive : d.active = some k) (c : Code) :
    d.Later (d.addOperation k c) := by
  have hkind := later_applyKind d c
  refine hkind.trans (later_modify ((applyKind_active d c).trans hactive) rfl rfl ?_)
  exact fun cheat => ⟨⟨rfl, rfl, rfl, rfl, Nat.le_succ _⟩, Nat.le_refl _⟩

theorem later_step (d : Document) (t : LineText) : d.Later (d.step p t) := by
  have hadd : d.Later (d.addLine p t.bounds) := later_same rfl (.inl rfl)
  unfold step
  cases classify t.text with
  | blank => exact later_same rfl (.inl rfl)
  | comment => exact later_same rfl (.inl rfl)
  | header activation description =>
    exact (hadd.trans (later_finalize _)).trans (later_openCheat _ _ _ _)
  | badHeader => exact (hadd.trans (later_finalize _)).trans (later_closeMalformed _)
  | badCode => exact hadd.trans (later_malformedCode _)
  | opaqueLine => exact (later_taint (markLast _ (d.addLine p t.bounds)) _).start rfl rfl
  | code c =>
    have hsame : (d.addLine p t.bounds).active = d.active := rfl
    dsimp only
    cases hactive : (d.addLine p t.bounds).active with
    | none => exact hadd.trans (later_malformedCode _)
    | some k => exact hadd.trans (later_addOperation hactive c)

/-- Further lines only append lines and operations, and only add to the counters. -/
structure Continues (d e : Document) : Prop extends d.Later e where
  lines : d.lines <+: e.lines
  operations : d.operations <+: e.operations
  counters : ∃ more, e.counters = d.counters.add more

theorem continues_foldl (p : Platform) (ts : List LineText) (d : Document) :
    d.Continues (ts.foldl (step p) d) := by
  induction ts generalizing d with
  | nil =>
    exact ⟨later_same rfl (.inl rfl), List.prefix_refl _, List.prefix_refl _, ⟨⟨0, 0, 0, 0⟩, rfl⟩⟩
  | cons t rest ih =>
    obtain ⟨hlater, hlines, hoperations, more, hmore⟩ := ih (d.step p t)
    refine ⟨(later_step d t).trans hlater, ?_, ?_, (d.lineCounts t).add more, ?_⟩
    · refine List.IsPrefix.trans ?_ hlines
      rw [step_lines]
      exact List.prefix_append _ _
    · refine List.IsPrefix.trans ?_ hoperations
      rw [step_operations]
      exact List.prefix_append _ _
    · rw [← Counters.add_assoc, ← step_counters p d t]
      exact hmore

/-- At the end of the source the active cheat is marked if its selector had no write. -/
theorem finalize_get {k : Nat} {c : Cheat} (h : d.finalize.cheats[k]? = some c) :
    ∃ c₀, d.cheats[k]? = some c₀ ∧ (c = c₀ ∨ c = c₀.raise .malformed ∧
      d.active = some k ∧ d.base = true ∧ d.write = false) := by
  rw [finalize] at h
  split at h
  · next hopen =>
    simp only [Bool.and_eq_true, Bool.not_eq_true', Option.isSome_iff_exists] at hopen
    obtain ⟨⟨⟨i, hi⟩, hbase⟩, hwrite⟩ := hopen
    have hcheats : (d.countInvalid.taint .malformed).cheats =
        d.cheats.modify i (·.raise .malformed) := by
      rw [taint, show d.countInvalid.active = some i from hi]
      rfl
    rw [hcheats] at h
    by_cases hk : i = k
    · subst hk
      rw [List.getElem?_modify_eq] at h
      obtain ⟨c₀, hc₀, rfl⟩ := Option.map_eq_some_iff.mp h
      exact ⟨c₀, hc₀, .inr ⟨rfl, hi, hbase, hwrite⟩⟩
    · rw [List.getElem?_modify_ne _ _ hk] at h
      exact ⟨c, h, .inl rfl⟩
  · exact ⟨c, h, .inl rfl⟩

/-- The active cheat is idle as long as its selector has no write. -/
theorem idle_active {m : Scopes} (hshows : d.Shows m) (hseq : d.Sequenced m) {k : Nat}
    (hactive : d.active = some k) (hbase : d.base = true) (hwrite : d.write = false) :
    idle d.operations k = true := by
  cases hs : m.current with
  | none =>
    rw [hshows.active, hs] at hactive
    cases hactive
  | some s =>
    obtain ⟨-, haccepted, hwrites⟩ := active_count hshows hseq hs
    rw [hshows.active, hs] at hactive
    obtain rfl := Option.some.inj hactive
    rw [hbase] at haccepted
    rw [hwrite, ← haccepted, Bool.true_and] at hwrites
    rw [idle, ← haccepted, ← hwrites]
    rfl

/-- What is counted at the end of the source is whether the last cheat is idle. -/
theorem unused_le {m : Scopes} (hshows : d.Shows m) (hseq : d.Sequenced m) (hd : d.Current) :
    d.unused ≤ bump (idle d.operations (d.cheats.length - 1)) := by
  rw [unused]
  cases hopen : d.active.isSome && d.base && !d.write with
  | false => exact Nat.zero_le _
  | true =>
    simp only [Bool.and_eq_true, Bool.not_eq_true', Option.isSome_iff_exists] at hopen
    obtain ⟨⟨⟨k, hk⟩, hbase⟩, hwrite⟩ := hopen
    have hlast : d.cheats.length - 1 = k := by
      rw [← hd.active k hk]
      rfl
    rw [hlast, idle_active hshows hseq hk hbase hwrite]

/-- A cheat of the shorter source and what the longer one makes of it. -/
theorem finalize_grows {m : Scopes} (h : d.Continues e) (hshows : d.Shows m)
    (hseq : d.Sequenced m) {k : Nat} {c : Cheat} (hc : d.finalize.cheats[k]? = some c) :
    ∃ c', e.finalize.cheats[k]? = some c' ∧ c.Extends c' ∧
      (idle d.operations k = false → c.translationState.code ≤ c'.translationState.code) := by
  obtain ⟨c₀, hc₀, hcase⟩ := finalize_get hc
  obtain ⟨c', hc', hgrows⟩ := (h.toLater.trans (later_finalize e)).grown k c₀ hc₀
  refine ⟨c', hc', ?_⟩
  rcases hcase with rfl | ⟨rfl, hactive, hbase, hwrite⟩
  · exact ⟨hgrows.toExtends, fun _ => hgrows.translationState⟩
  · refine ⟨(raise_extends _ _).2.trans hgrows.toExtends, fun hidle => ?_⟩
    rw [idle_active hshows hseq hactive hbase hwrite] at hidle
    cases hidle

/-- All cheats of the shorter source but the last are those of the longer one. -/
theorem finalize_kept (h : d.Continues e) (hd : d.Current) :
    d.finalize.cheats.dropLast <+: e.finalize.cheats := by
  rw [List.prefix_iff_getElem?]
  intro k hk
  rw [List.length_dropLast, finalize_cheats_length] at hk
  have hlt : k < d.cheats.length := by omega
  have hother : d.active ≠ some k := by
    intro hactive
    have := hd.active k hactive
    omega
  have hshort := (later_finalize d).kept k _ (List.getElem?_eq_getElem hlt) hother
  have hlong := (h.toLater.trans (later_finalize e)).kept k _ (List.getElem?_eq_getElem hlt) hother
  rw [hlong, List.getElem_dropLast, ← hshort, List.getElem?_eq_getElem]

end Document

/-- Complete lines are the first lines of a longer source. -/
theorem sourceLines_prefix {source more : List UInt8} (h : Complete source)
    (hcut : source.getLast? = some cr → more.head? ≠ some lf) :
    ∃ later, sourceLines (source ++ more) = sourceLines source ++ later := by
  rw [sourceLines, TextLines.split_append h hcut, lineTexts_append]
  exact ⟨_, rfl⟩

/-- The longer source is read on from where the shorter one ends. -/
theorem document_append (p : Platform) {source more : List UInt8} (h : Complete source)
    (hcut : source.getLast? = some cr → more.head? ≠ some lf) :
    ∃ (d e : Document) (m : Scopes), parseDocument p source = d.finalize ∧
      parseDocument p (source ++ more) = e.finalize ∧ d.Continues e ∧ d.Current ∧ d.Shows m ∧
      d.Sequenced m := by
  obtain ⟨later, hlater⟩ := sourceLines_prefix h hcut
  have hcontinues := Document.continues_foldl p later
    ((sourceLines source).foldl (Document.step p) .empty)
  rw [← List.foldl_append, ← hlater] at hcontinues
  exact ⟨_, _, _, rfl, rfl, hcontinues, current_lines p source,
    shows_foldl p (sourceLines source) Document.shows_empty,
    foldl_sequenced p (sourceLines source) Document.shows_empty Document.sequenced_empty⟩

theorem codesOf_append (operations more : List Operation) (k : Nat) :
    codesOf (operations ++ more) k = codesOf operations k ++ codesOf more k := by
  rw [codesOf, List.filter_append, List.map_append]
  rfl

theorem accepted_append {cs : List Code} (h : accepted cs = true) (more : List Code) :
    relative (cs ++ more) = true := by
  cases cs with
  | nil => cases h
  | cons c rest =>
    simp only [accepted, List.head?_cons, Option.any_some, Bool.and_eq_true] at h
    simp [relative, h.1]

theorem level_relative (malformed unsupported : Bool) :
    level malformed unsupported true ≠ .directOnly := by
  revert malformed unsupported
  decide

/-- An idle cheat is malformed, and is not direct whatever follows. -/
theorem idle_closed {cheats cheats' : List Cheat} {operations more : List Operation}
    (h : Ordered cheats operations) (h' : Ordered cheats' (operations ++ more)) {k : Nat}
    {c c' : Cheat} (hc : cheats[k]? = some c) (hc' : cheats'[k]? = some c')
    (hidle : idle operations k = true) :
    c.translationState = .malformed ∧ c'.translationState ≠ .directOnly := by
  obtain ⟨bad, unsupported, hstate⟩ := h.states k c hc
  obtain ⟨bad', unsupported', hstate'⟩ := h'.states k c' hc'
  have haccepted : accepted (codesOf operations k) = true := (Bool.and_eq_true _ _ ▸ hidle).1
  rw [idle] at hidle
  rw [hidle, Bool.or_true] at hstate
  rw [codesOf_append, accepted_append haccepted] at hstate'
  refine ⟨hstate, ?_⟩
  rw [hstate']
  exact level_relative _ _

/-- Where entries with a property keep it, there are no fewer of them. -/
theorem countP_le_of_get {α : Type} (test : α → Bool) {xs ys : List α}
    (h : ∀ (k : Nat) (x : α), xs[k]? = some x →
      ∃ y, ys[k]? = some y ∧ (test x = true → test y = true)) :
    xs.countP test ≤ ys.countP test := by
  induction xs generalizing ys with
  | nil => exact Nat.zero_le _
  | cons x rest ih =>
    obtain ⟨y, hy, hkeep⟩ := h 0 x rfl
    cases ys with
    | nil => cases hy
    | cons y' rest' =>
      obtain rfl : y' = y := Option.some.inj hy
      have hrest := ih fun k z hz => h (k + 1) z hz
      rw [List.countP_cons, List.countP_cons]
      cases hx : test x with
      | false => exact Nat.le_trans hrest (Nat.le_add_right _ _)
      | true =>
        rw [hkeep hx]
        exact Nat.add_le_add_right hrest 1

theorem document_nonDirect (p : Platform) (source : List UInt8) :
    (parseDocument p source).nonDirect =
      (parseDocument p source).cheats.countP fun c => c.translationState ≠ .directOnly := by
  have hshows := document_shows p source
  rw [hshows.nonDirect, ← hshows.states, List.countP_map]
  rfl

/-- The records of an import of complete lines, and of an import with more lines behind. -/
structure Appended (out : Outputs β) (out' : Outputs γ) : Prop where
  lines : out.lineRecords <+: out'.lineRecords
  operations : out.operationRecords <+: out'.operationRecords
  earlier : out.cheatRecords.dropLast <+: out'.cheatRecords
  cheats : ∀ (k : Nat) (c : Cheat), out.cheatRecords[k]? = some c →
    ∃ c', out'.cheatRecords[k]? = some c' ∧ c.Extends c' ∧
      (idle out.operationRecords k = false →
        c.translationState.code ≤ c'.translationState.code) ∧
      (idle out.operationRecords k = true →
        c.translationState = .malformed ∧ c'.translationState ≠ .directOnly)
  malformedLines : out.report.malformedLines ≤ out'.report.malformedLines
  unsupportedOperations : out.report.unsupportedOperations ≤ out'.report.unsupportedOperations
  nonDirectCheats : out.report.nonDirectCheats ≤ out'.report.nonDirectCheats
  legacyLimitViolations : out.report.legacyLimitViolations ≤ out'.report.legacyLimitViolations
  invalidOperationSequences : out.report.invalidOperationSequences ≤
    out'.report.invalidOperationSequences +
      bump (idle out.operationRecords (out.report.totalCheats - 1))

/-- A cheat that is not direct stays so. -/
theorem state_kept {c c' : Cheat} {waiting : Bool}
    (hsettled : waiting = false → c.translationState.code ≤ c'.translationState.code)
    (hwaiting : waiting = true → c.translationState = .malformed ∧
      c'.translationState ≠ .directOnly) :
    c.translationState ≠ .directOnly → c'.translationState ≠ .directOnly := by
  intro hc hc'
  cases waiting with
  | true => exact (hwaiting rfl).2 hc'
  | false =>
    have hle := hsettled rfl
    rw [hc'] at hle
    revert hc hle
    cases c.translationState <;> decide

/-- Whatever lines are put behind a source of complete lines, its lines, operations and
cheats but the last are imported as before, the last cheat only grows, and the counters
do not fall. The exception is a selector that was the last cheat's only use: its cheat is
malformed at the end of the shorter source, and need not be in the longer one. -/
theorem import_append (p : Platform) (c : Call β) (c' : Call γ) (out : Outputs β)
    (out' : Outputs γ) (more : List UInt8)
    (hsource : c'.source.value = c.source.value ++ more)
    (hcomplete : Complete c.source.value)
    (hcut : c.source.value.getLast? = some cr → more.head? ≠ some lf)
    (hrun : vcPsvParse p c = some (.ok, out)) (hrun' : vcPsvParse p c' = some (.ok, out')) :
    Appended out out' := by
  obtain ⟨-, hreport, -⟩ := ok_imported hrun
  obtain ⟨-, hreport', -⟩ := ok_imported hrun'
  obtain ⟨hlines, hcheats, hoperations⟩ := ok_records hrun
  obtain ⟨hlines', hcheats', hoperations'⟩ := ok_records hrun'
  have hordered := document_ordered p c.source.value
  have hordered' := document_ordered p c'.source.value
  have hnonDirect := document_nonDirect p c.source.value
  have hnonDirect' := document_nonDirect p c'.source.value
  obtain ⟨d, e, m, hdoc, hdoc', hcontinues, hd, hshows, hseq⟩ := document_append p hcomplete hcut
  rw [← hsource] at hdoc'
  rw [hdoc] at hreport hlines hcheats hoperations hordered hnonDirect
  rw [hdoc'] at hreport' hlines' hcheats' hoperations' hordered' hnonDirect'
  rw [Document.finalize_operations] at hoperations hoperations' hordered hordered'
  obtain ⟨rest, hrest⟩ := hcontinues.operations
  rw [← hrest] at hordered'
  have hgrown : ∀ (k : Nat) (x : Cheat), d.finalize.cheats[k]? = some x →
      ∃ y, e.finalize.cheats[k]? = some y ∧ x.Extends y ∧
        (idle d.operations k = false → x.translationState.code ≤ y.translationState.code) ∧
        (idle d.operations k = true →
          x.translationState = .malformed ∧ y.translationState ≠ .directOnly) := by
    intro k x hx
    obtain ⟨y, hy, hextends, hsettled⟩ := Document.finalize_grows hcontinues hshows hseq hx
    exact ⟨y, hy, hextends, hsettled, idle_closed hordered hordered' hx hy⟩
  obtain ⟨added, hadded⟩ := hcontinues.counters
  have hcounters := Document.finalize_counters d
  have hcounters' := Document.finalize_counters e
  have hunused := Document.unused_le hshows hseq hd
  simp only [Document.counters, Counters.add, Counters.mk.injEq] at hadded hcounters hcounters'
  constructor
  case lines =>
    rw [hlines, hlines', Document.finalize_lines, Document.finalize_lines]
    exact hcontinues.lines
  case operations =>
    rw [hoperations, hoperations']
    exact hcontinues.operations
  case earlier =>
    rw [hcheats, hcheats']
    exact Document.finalize_kept hcontinues hd
  case cheats =>
    rw [hcheats, hcheats', hoperations]
    exact hgrown
  case nonDirectCheats =>
    rw [hreport, hreport']
    show d.finalize.nonDirect ≤ e.finalize.nonDirect
    rw [hnonDirect, hnonDirect']
    apply countP_le_of_get
    intro k x hx
    obtain ⟨y, hy, -, hsettled, hwaiting⟩ := hgrown k x hx
    refine ⟨y, hy, fun hstate => ?_⟩
    rw [decide_eq_true_eq] at hstate ⊢
    exact state_kept hsettled hwaiting hstate
  case invalidOperationSequences =>
    rw [hreport, hreport', hoperations]
    show d.finalize.invalid ≤
      e.finalize.invalid + bump (idle d.operations (d.finalize.cheats.length - 1))
    rw [Document.finalize_cheats_length]
    omega
  all_goals
    rw [hreport, hreport']
    simp only [Document.report]
    omega

/-- `$0200 00000010 00000001`, LF: the write that the selector waits for. -/
def writeLine : List UInt8 :=
  [0x24, 0x30, 0x32, 0x30, 0x30, 0x20, 0x30, 0x30, 0x30, 0x30, 0x30, 0x30, 0x31, 0x30, 0x20, 0x30,
    0x30, 0x30, 0x30, 0x30, 0x30, 0x30, 0x31, 0x0a]

def writtenCall : Call UInt8 where
  source := ⟨0x1000, openedCall.source.value ++ writeLine⟩
  lines := ⟨0x3000, 3, fun _ => 0xa5⟩
  cheats := ⟨0x4000, 1, fun _ => 0xa5⟩
  operations := ⟨0x5000, 2, fun _ => 0xa5⟩
  report := ⟨0x2000, .zero⟩

theorem import_append_write :
    ∃ out out', vcPsvParse ilp32 openedCall = some (.ok, out) ∧
      vcPsvParse ilp32 writtenCall = some (.ok, out') ∧
      out.cheatRecords.map Cheat.translationState = [.malformed] ∧
      out'.cheatRecords.map Cheat.translationState = [.moduleRelative] ∧ Appended out out' := by
  obtain ⟨⟨status, out⟩, hrun, hshape⟩ := Option.map_eq_some_iff.mp
    (show (vcPsvParse ilp32 openedCall).map
      (fun r => (r.1, r.2.cheatRecords.map Cheat.translationState)) =
        some (.ok, [.malformed]) by decide)
  obtain ⟨⟨status', out'⟩, hrun', hshape'⟩ := Option.map_eq_some_iff.mp
    (show (vcPsvParse ilp32 writtenCall).map
      (fun r => (r.1, r.2.cheatRecords.map Cheat.translationState)) =
        some (.ok, [.moduleRelative]) by decide)
  obtain ⟨rfl, hstate⟩ := Prod.mk.inj hshape
  obtain ⟨rfl, hstate'⟩ := Prod.mk.inj hshape'
  have hcomplete : Complete openedCall.source.value := by
    simp [Complete, openedCall, TextLines.isBreak, lf]
  exact ⟨out, out', hrun, hrun', hstate, hstate',
    import_append ilp32 openedCall writtenCall out out' writeLine rfl hcomplete (by decide) hrun
      hrun'⟩

end VitaCheat.Psv
