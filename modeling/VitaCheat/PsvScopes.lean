import VitaCheat.PsvGraph
import VitaCheat.PsvReference

/-!
# Every cheat has the state of its scope

The document and a machine that scans one scope after the other go through the
lines together. The machine's states are the reference of each scope, so the
states of an import that returns OK are, and its counters agree with them.
-/
namespace VitaCheat.Psv

variable {β : Type}

/-- The states of the closed cheats, and the scan of the active one. -/
structure Scopes where
  closed : List TranslationState
  current : Option Scan
  deriving DecidableEq, Repr

namespace Scopes

def empty : Scopes := ⟨[], none⟩

def states (m : Scopes) : List TranslationState := m.closed ++ (m.current.map Scan.state).toList

def change (f : Scan → Scan) (m : Scopes) : Scopes := { m with current := m.current.map f }

def step (m : Scopes) : LineClass → Scopes
  | .header _ _ => ⟨(m.change Scan.settled).states, some .start⟩
  | .badHeader => ⟨((m.change Scan.settled).change (Scan.raise .malformed)).states, none⟩
  | cls => m.change (Scan.step · cls)

end Scopes

/-- The document holds what the machine holds. -/
structure Document.Shows (m : Scopes) (d : Document) : Prop where
  active : d.active = m.current.map fun _ => m.closed.length
  states : d.cheats.map Cheat.translationState = m.states
  scan : ∀ s, m.current = some s → d.count = s.count ∧ d.base = s.base ∧ d.write = s.write ∧
    d.tainted = decide (s.state ≠ .directOnly)
  nonDirect : d.nonDirect = m.states.countP fun state => state ≠ .directOnly

namespace Document

variable {d : Document} {m : Scopes} {s : Scan}

theorem shows_empty : Shows .empty .empty where
  active := rfl
  states := rfl
  scan := fun _ h => nomatch h
  nonDirect := rfl

theorem raise_translationState (state : TranslationState) (c : Cheat) :
    (c.raise state).translationState = c.translationState.raised state := by
  unfold Cheat.raise TranslationState.raised
  split <;> rfl

/-- What a document with an active cheat has to hold. -/
theorem shows_active {closed : List TranslationState} (hactive : d.active = some closed.length)
    (hstates : d.cheats.map Cheat.translationState = closed ++ [s.state])
    (hcount : d.count = s.count) (hbase : d.base = s.base) (hwrite : d.write = s.write)
    (htainted : d.tainted = decide (s.state ≠ .directOnly))
    (hnonDirect : d.nonDirect = (closed ++ [s.state]).countP fun state => state ≠ .directOnly) :
    d.Shows ⟨closed, some s⟩ where
  active := hactive
  states := hstates
  scan := by
    rintro _ ⟨⟩
    exact ⟨hcount, hbase, hwrite, htainted⟩
  nonDirect := hnonDirect

theorem shows_taint (h : d.Shows m) (state : TranslationState) (hstate : state ≠ .directOnly) :
    (d.taint state).Shows (m.change (Scan.raise state)) := by
  obtain ⟨closed, current⟩ := m
  cases current with
  | none =>
    rw [taint, show d.active = none from h.active]
    exact h
  | some s =>
    obtain ⟨hcount, hbase, hwrite, htainted⟩ := h.scan s rfl
    have hactive : d.active = some closed.length := h.active
    have hstates : d.cheats.map Cheat.translationState = closed ++ [s.state] := h.states
    have hnon : d.nonDirect = (closed ++ [s.state]).countP fun state => state ≠ .directOnly :=
      h.nonDirect
    have hraised := raised_direct s.state hstate
    have hmodify := map_modify_of (g := Cheat.translationState)
      (h := fun old => old.raised state) (raise_translationState state) d.cheats closed.length
    rw [hstates, modify_concat] at hmodify
    rw [taint, hactive]
    refine shows_active rfl hmodify hcount hbase hwrite (decide_eq_true hraised).symm ?_
    dsimp only [Scan.raise]
    rw [htainted, hnon]
    simp only [List.countP_append, List.countP_singleton]
    cases decide (s.state ≠ .directOnly) <;> simpa using hraised

theorem shows_finalize (h : d.Shows m) : d.finalize.Shows (m.change Scan.settled) := by
  obtain ⟨closed, current⟩ := m
  have hactive := h.active
  rw [finalize, hactive]
  cases current with
  | none => exact h
  | some s =>
    obtain ⟨hcount, hbase, hwrite, htainted⟩ := h.scan s rfl
    have hinvalid : d.countInvalid.Shows ⟨closed, some s⟩ :=
      ⟨h.active, h.states, h.scan, h.nonDirect⟩
    rw [hbase, hwrite]
    simp only [Scopes.change, Option.map_some, Option.isSome_some, Bool.true_and, Scan.settled]
    split
    · exact shows_taint hinvalid _ (by decide)
    · exact h

theorem shows_openCheat (h : d.Shows m) (activation : Activation) (first size : Nat) :
    (d.openCheat activation first size).Shows ⟨m.states, some .start⟩ := by
  have hlength : d.cheats.length = m.states.length := by rw [← h.states, List.length_map]
  refine shows_active (congrArg some hlength) ?_ rfl rfl rfl rfl ?_
  · refine List.map_append.trans ?_
    rw [h.states]
    rfl
  · refine h.nonDirect.trans ?_
    simp [Scan.start]

theorem shows_closeMalformed (h : d.Shows m) :
    d.closeMalformed.Shows ⟨(m.change (Scan.raise .malformed)).states, none⟩ := by
  have hmarked : (d.markLast fun l => { l with kind := .malformed }).countMalformed.Shows m :=
    ⟨h.active, h.states, h.scan, h.nonDirect⟩
  have htaint := shows_taint hmarked .malformed (by decide)
  constructor
  · rfl
  · rw [Scopes.states, Option.map_none, Option.toList_none, List.append_nil]
    exact htaint.states
  · exact fun _ h => nomatch h
  · rw [Scopes.states, Option.map_none, Option.toList_none, List.append_nil]
    exact htaint.nonDirect

theorem shows_malformedCode (h : d.Shows m) :
    d.malformedCode.Shows (m.change (Scan.raise .malformed)) := by
  have hmarked : (d.markLast fun l => { l with kind := .malformed }).countMalformed.Shows m :=
    ⟨h.active, h.states, h.scan, h.nonDirect⟩
  exact shows_taint hmarked _ (by decide)

theorem shows_select (h : d.Shows m) (hm : m.current = some s) (c : Code) :
    (d.selectModule c).Shows { m with current := some (s.select c) } := by
  obtain ⟨closed, current⟩ := m
  obtain rfl : current = some s := hm
  obtain ⟨hcount, hbase, hwrite, htainted⟩ := h.scan s rfl
  have haccepts : d.acceptsSelector c = s.accepts c := by
    rw [acceptsSelector, Scan.accepts, hcount, hbase]
  rw [selectModule, Scan.select, haccepts]
  split
  · have hbased : Shows ⟨closed, some { s with base := true, write := false }⟩
        { d with base := true, write := false } :=
      shows_active h.active h.states hcount rfl rfl htainted h.nonDirect
    exact shows_taint hbased _ (by decide)
  · have hinvalid : d.countInvalid.Shows ⟨closed, some s⟩ :=
      ⟨h.active, h.states, h.scan, h.nonDirect⟩
    exact shows_taint hinvalid _ (by decide)

theorem shows_applyKind (h : d.Shows m) (hm : m.current = some s) (c : Code) :
    (d.applyKind c).Shows { m with current := some (s.applyKind c) } := by
  have hsame : ({ m with current := some s } : Scopes) = m := by rw [← hm]
  rw [applyKind, Scan.applyKind, Code.kind]
  cases operationKind c.code with
  | selectModuleBase => exact shows_select h hm c
  | opaqueOperation =>
    have hcounted : Shows m { d with unsupported := d.unsupported + 1 } :=
      ⟨h.active, h.states, h.scan, h.nonDirect⟩
    have htaint := shows_taint hcounted .requiresUnsupported (by decide)
    rwa [Scopes.change, hm] at htaint
  | _ =>
    obtain ⟨hcount, hbase, hwrite, htainted⟩ := h.scan s hm
    have hstates := h.states
    have hnon := h.nonDirect
    rw [Scopes.states, hm] at hstates hnon
    simp only [hbase]
    split
    · exact shows_active (by rw [h.active, hm]; rfl) hstates hcount rfl rfl htainted hnon
    · rw [hsame]
      exact h

theorem shows_addOperation (h : d.Shows m) (hm : m.current = some s) (c : Code) (k : Nat) :
    (d.addOperation k c).Shows { m with current := some (s.step (.code c)) } := by
  have hkind := shows_applyKind h hm c
  obtain ⟨hcount, hbase, hwrite, htainted⟩ := hkind.scan _ rfl
  have hsame : ((d.applyKind c).cheats.modify k fun cheat =>
      { cheat with operationCount := cheat.operationCount + 1 }).map Cheat.translationState =
        (d.applyKind c).cheats.map Cheat.translationState :=
    map_modify_same
      (f := fun cheat : Cheat => { cheat with operationCount := cheat.operationCount + 1 })
      (fun _ => rfl) _ _
  exact shows_active hkind.active (hsame.trans hkind.states) (congrArg (· + 1) hcount) hbase hwrite
    htainted hkind.nonDirect

/-- The document and the machine take each line together. -/
theorem shows_step (p : Platform) (h : d.Shows m) (t : LineText) :
    (d.step p t).Shows (m.step (classify t.text)) := by
  have hadd : (d.addLine p t.bounds).Shows m := ⟨h.active, h.states, h.scan, h.nonDirect⟩
  have hmark : ∀ f, ((d.addLine p t.bounds).markLast f).Shows m :=
    fun _ => ⟨h.active, h.states, h.scan, h.nonDirect⟩
  have hsame : m.change (fun s => s) = m := by
    obtain ⟨closed, current⟩ := m
    cases current <;> rfl
  unfold step
  cases classify t.text with
  | blank | comment =>
    show Shows (m.change fun s => s) _
    rw [hsame]
    exact hmark _
  | header activation description => exact shows_openCheat (shows_finalize hadd) _ _ _
  | badHeader => exact shows_closeMalformed (shows_finalize hadd)
  | badCode => exact shows_malformedCode hadd
  | opaqueLine => exact shows_taint (hmark _) _ (by decide)
  | code c =>
    have hactive := hadd.active
    obtain ⟨closed, current⟩ := m
    simp only [hactive]
    cases current with
    | none => exact shows_malformedCode hadd
    | some s => exact shows_addOperation hadd rfl c _

end Document
theorem scopeOf_skip {text : List UInt8} (h : headerAttempt text = false)
    (rest : List (List UInt8)) :
    scopeOf (text :: rest) = ⟨text :: (scopeOf rest).texts, (scopeOf rest).closer⟩ := by
  simp [scopeOf, h]

theorem scopeOf_close {text : List UInt8} (h : headerAttempt text = true)
    (rest : List (List UInt8)) : scopeOf (text :: rest) = ⟨[], some text⟩ := by
  simp [scopeOf, h]

theorem references_other {text : List UInt8} (h : headerAttempt text = false) (i : Nat)
    (rest : List (List UInt8)) : references i (text :: rest) = references (i + 1) rest := by
  have hheader := (classify_other h).2
  rw [references]
  cases hclass : classify text with
  | header activation description => exact absurd hclass (hheader _ _)
  | _ => rfl

namespace Scopes

def read (m : Scopes) (text : List UInt8) : Scopes := m.step (classify text)

theorem read_other {text : List UInt8} (h : headerAttempt text = false) (m : Scopes) :
    m.read text = m.change (Scan.read · text) := by
  obtain ⟨hbad, hheader⟩ := classify_other h
  unfold read Scan.read
  cases hclass : classify text with
  | header activation description => exact absurd hclass (hheader _ _)
  | badHeader => exact absurd hclass hbad
  | _ => rfl

/-- The closed states stay, the open scope gets its ending, and every later
header line gets its reference. -/
theorem states_run (texts : List (List UInt8)) (i : Nat) (m : Scopes) :
    ((texts.foldl read m).change Scan.settled).states =
      m.closed ++ (m.current.map fun s =>
        ((scopeOf texts).texts.foldl Scan.read s).ending (scopeOf texts).closer).toList ++
          (references i texts).map Prod.snd := by
  induction texts generalizing i m with
  | nil =>
    obtain ⟨closed, current⟩ := m
    cases current <;> simp [change, states, scopeOf, references, Scan.ending]
  | cons text rest ih =>
    rw [List.foldl_cons, ih (i + 1)]
    cases hattempt : headerAttempt text with
    | false =>
      rw [read_other hattempt, scopeOf_skip hattempt, references_other hattempt]
      obtain ⟨closed, current⟩ := m
      cases current <;> rfl
    | true =>
      rw [scopeOf_close hattempt, references, read]
      obtain ⟨closed, current⟩ := m
      rcases (classify_attempt text).mp hattempt with hclass | ⟨activation, description, hclass⟩
      · cases current <;>
          simp [hclass, step, states, change, Scan.ending, Scan.raise, raised_malformed]
      · cases current <;> simp [hclass, step, states, change, Scan.ending] <;>
          exact ending_scope rest

end Scopes

def sourceTexts (source : List UInt8) : List (List UInt8) := (sourceLines source).map (·.text)

theorem shows_foldl (p : Platform) (ts : List LineText) {d : Document} {m : Scopes}
    (h : d.Shows m) :
    (ts.foldl (Document.step p) d).Shows ((ts.map (·.text)).foldl Scopes.read m) := by
  induction ts generalizing d m with
  | nil => exact h
  | cons t rest ih => exact ih (Document.shows_step p h t)

theorem document_shows (p : Platform) (source : List UInt8) :
    (parseDocument p source).Shows
      (((sourceTexts source).foldl Scopes.read .empty).change Scan.settled) :=
  Document.shows_finalize (shows_foldl p (sourceLines source) Document.shows_empty)

theorem document_states (p : Platform) (source : List UInt8) :
    (parseDocument p source).cheats.map Cheat.translationState =
      (references 0 (sourceTexts source)).map Prod.snd := by
  rw [(document_shows p source).states, Scopes.states_run _ 0]
  simp [Scopes.empty]

theorem foldl_headers (p : Platform) (ts : List LineText) (d : Document) :
    (ts.foldl (Document.step p) d).frames.map Frame.headerLineIndex =
      d.frames.map Frame.headerLineIndex ++
        (references d.lines.length (ts.map (·.text))).map Prod.fst := by
  induction ts generalizing d with
  | nil => simp [references]
  | cons t rest ih =>
    rw [List.foldl_cons, ih, Document.step_lines_length, Document.step_headers, List.append_assoc,
      List.map_cons, references]
    cases classify t.text <;> rfl

theorem document_headers (p : Platform) (source : List UInt8) :
    (parseDocument p source).cheats.map Cheat.headerLineIndex =
      (references 0 (sourceTexts source)).map Prod.fst := by
  have hframes := foldl_headers p (sourceLines source) .empty
  rw [← Document.finalize_frames] at hframes
  rw [Document.frames, List.map_map] at hframes
  exact hframes

/-- A selected base rules out the state of direct writes. -/
def Scan.Sound (s : Scan) : Prop := s.base = true → s.state ≠ .directOnly

def Scopes.Sound (m : Scopes) : Prop := ∀ s, m.current = some s → s.Sound

theorem raise_sound (s : Scan) {state : TranslationState} (hstate : state ≠ .directOnly) :
    (s.raise state).Sound :=
  fun _ => raised_direct _ hstate

theorem applyKind_sound {s : Scan} (h : s.Sound) (c : Code) : (s.applyKind c).Sound := by
  unfold Scan.applyKind Scan.select
  cases c.kind with
  | selectModuleBase =>
    dsimp only
    split
    · exact raise_sound _ (by decide)
    · exact raise_sound _ (by decide)
  | opaqueOperation => exact raise_sound _ (by decide)
  | _ =>
    dsimp only
    split
    · exact h
    · exact h

theorem step_sound {s : Scan} (h : s.Sound) (cls : LineClass) : (s.step cls).Sound := by
  cases cls with
  | code c => exact applyKind_sound h c
  | badCode => exact raise_sound _ (by decide)
  | opaqueLine => exact raise_sound _ (by decide)
  | _ => exact h

/-- Only a typed write leaves a scope at direct writes. -/
theorem step_code_direct {s : Scan} {c : Code} (h : (s.step (.code c)).state = .directOnly) :
    c.kind.isWrite = true ∧ s.state = .directOnly := by
  have hkind : (s.applyKind c).state = .directOnly := h
  rw [Scan.applyKind, Scan.select] at hkind
  cases hc : c.kind with
  | selectModuleBase =>
    rw [hc] at hkind
    dsimp only at hkind
    split at hkind <;> exact absurd hkind (raised_direct _ (by decide))
  | opaqueOperation =>
    rw [hc] at hkind
    exact absurd hkind (raised_direct _ (by decide))
  | _ =>
    rw [hc] at hkind
    dsimp only at hkind
    split at hkind
    · exact ⟨rfl, hkind⟩
    · exact ⟨rfl, hkind⟩

theorem step_direct {s : Scan} {cls : LineClass} (h : (s.step cls).state = .directOnly) :
    s.state = .directOnly := by
  cases cls with
  | code c => exact (step_code_direct h).2
  | badCode => exact absurd h (raised_direct _ (by decide))
  | opaqueLine => exact absurd h (raised_direct _ (by decide))
  | _ => exact h

theorem settled_direct {s : Scan} (h : s.settled.state = .directOnly) : s.state = .directOnly := by
  rw [Scan.settled] at h
  split at h
  · exact absurd h (raised_direct _ (by decide))
  · exact h

namespace Scopes

theorem step_sound {m : Scopes} (h : m.Sound) (cls : LineClass) : (m.step cls).Sound := by
  obtain ⟨closed, current⟩ := m
  have hchange : ∀ cls, (change (Scan.step · cls) ⟨closed, current⟩).Sound := by
    intro cls s' hs'
    obtain ⟨s, hs, rfl⟩ := Option.map_eq_some_iff.mp hs'
    exact Psv.step_sound (h s hs) cls
  cases cls with
  | header activation description =>
    rintro _ ⟨⟩ hbase
    cases hbase
  | badHeader => exact fun _ hs => nomatch hs
  | _ => exact hchange _

theorem change_direct {f : Scan → Scan} (hf : ∀ s, (f s).state = .directOnly → s.state = .directOnly)
    {m : Scopes} {i : Nat} (h : (m.change f).states[i]? = some .directOnly) :
    m.states[i]? = some .directOnly := by
  obtain ⟨closed, current⟩ := m
  cases current with
  | none => exact h
  | some s =>
    have hget : (closed ++ [(f s).state])[i]? = some .directOnly := h
    show (closed ++ [s.state])[i]? = some .directOnly
    rcases Placement.getElem?_concat hget with hold | ⟨rfl, hlast⟩
    · exact Placement.getElem?_keep hold _
    · rw [List.getElem?_concat_length, hf s hlast.symm]

/-- No line takes a cheat back to direct writes. -/
theorem states_direct {m : Scopes} {cls : LineClass} {i : Nat} (hi : i < m.states.length)
    (h : (m.step cls).states[i]? = some .directOnly) : m.states[i]? = some .directOnly := by
  have hlength : (m.change Scan.settled).states.length = m.states.length := by
    obtain ⟨closed, current⟩ := m
    cases current <;> simp [change, states]
  cases cls with
  | header activation description =>
    have hget : ((m.change Scan.settled).states ++ [TranslationState.directOnly])[i]? =
        some .directOnly := h
    rw [List.getElem?_append_left (by omega)] at hget
    exact change_direct (fun _ => settled_direct) hget
  | badHeader =>
    have hget : (((m.change Scan.settled).change (Scan.raise .malformed)).states ++ [])[i]? =
        some .directOnly := h
    rw [List.append_nil] at hget
    exact change_direct (fun _ => settled_direct)
      (change_direct (fun _ hs => absurd hs (raised_direct _ (by decide))) hget)
  | _ => exact change_direct (fun _ => step_direct) h

end Scopes

namespace Document

/-- The operations of a cheat with direct writes only are typed absolute writes. -/
def Honest (d : Document) : Prop :=
  ∀ o ∈ d.operations, (d.cheats.map Cheat.translationState)[o.cheatIndex]? = some .directOnly →
    o.kind.isWrite = true ∧ o.addressMode = .absolute

theorem honest_step {p : Platform} {d : Document} {m : Scopes} (hgraph : d.Graph p)
    (hshows : d.Shows m) (hsound : m.Sound) (h : d.Honest) (t : LineText) :
    (d.step p t).Honest := by
  have hnext := (shows_step p hshows t).states
  intro o ho hstate
  rw [hnext] at hstate
  rw [step_operations, List.mem_append] at ho
  rcases ho with ho | ho
  · obtain ⟨k, hk⟩ := List.mem_iff_getElem?.mp ho
    obtain ⟨f, hf, -⟩ := hgraph.owned k o hk
    have hlt : o.cheatIndex < m.states.length := by
      rw [← hshows.states, List.length_map, ← frames_length]
      exact (List.getElem?_eq_some_iff.mp hf).1
    refine h o ho ?_
    rw [hshows.states]
    exact Scopes.states_direct hlt hstate
  · rw [lineOperation] at ho
    cases hclass : classify t.text with
    | code c =>
      obtain ⟨closed, current⟩ := m
      have hactive := hshows.active
      rw [hclass, hactive] at ho
      rw [hclass] at hstate
      cases current with
      | none => simp at ho
      | some s =>
        simp only [Option.map_some, Option.toList_some, List.mem_singleton] at ho
        obtain rfl := ho
        have hget : (closed ++ [(s.step (.code c)).state])[closed.length]? = some .directOnly :=
          hstate
        rw [List.getElem?_concat_length] at hget
        obtain ⟨hwrite, hdirect⟩ := step_code_direct (Option.some.inj hget)
        have hbase : d.base = false := by
          rw [(hshows.scan s rfl).2.1]
          cases hb : s.base with
          | false => rfl
          | true => exact absurd hdirect (hsound s rfl hb)
        refine ⟨hwrite, ?_⟩
        rw [Code.kind] at hwrite
        show d.addressMode (operationKind c.code) = .absolute
        rw [addressMode, hbase]
        cases hkind : operationKind c.code <;> simp_all [OperationKind.isWrite]
    | _ =>
      rw [hclass] at ho
      simp at ho

end Document

theorem foldl_honest (p : Platform) (ts : List LineText) {d : Document} {m : Scopes}
    (hcurrent : d.Current) (hgraph : d.Graph p) (hshows : d.Shows m) (hsound : m.Sound)
    (h : d.Honest) : (ts.foldl (Document.step p) d).Honest := by
  induction ts generalizing d m with
  | nil => exact h
  | cons t rest ih =>
    exact ih (Document.current_step p hcurrent t) (Document.graph_step hcurrent hgraph t)
      (Document.shows_step p hshows t) (Scopes.step_sound hsound _)
      (Document.honest_step hgraph hshows hsound h t)

theorem document_honest (p : Platform) (source : List UInt8) : (parseDocument p source).Honest := by
  have hrun := foldl_honest p (sourceLines source) Document.current_empty Document.graph_empty
    Document.shows_empty (fun _ h => nomatch h) (fun _ h => nomatch h)
  have hshows := shows_foldl p (sourceLines source) Document.shows_empty
  intro o ho hstate
  rw [parseDocument, (Document.shows_finalize hshows).states] at hstate
  rw [parseDocument, Document.finalize_operations] at ho
  refine hrun o ho ?_
  rw [hshows.states]
  exact Scopes.change_direct (fun _ => settled_direct) hstate

theorem references_mem {texts : List (List UInt8)} {i j : Nat} {state : TranslationState}
    (h : (j, state) ∈ references i texts) :
    i ≤ j ∧ state = (scopeOf (texts.drop (j - i + 1))).state := by
  induction texts generalizing i with
  | nil => cases h
  | cons text rest ih =>
    have hlater : (j, state) ∈ references (i + 1) rest →
        i ≤ j ∧ state = (scopeOf ((text :: rest).drop (j - i + 1))).state := by
      intro hmem
      obtain ⟨hle, hstate⟩ := ih hmem
      refine ⟨by omega, ?_⟩
      rw [List.drop_succ_cons, show j - i = j - (i + 1) + 1 by omega]
      exact hstate
    rw [references] at h
    cases hclass : classify text with
    | header activation description =>
      rw [hclass] at h
      rcases List.mem_cons.mp h with hfirst | hmem
      · obtain ⟨rfl, rfl⟩ := Prod.mk.inj hfirst
        exact ⟨Nat.le_refl _, by rw [Nat.sub_self]; rfl⟩
      · exact hlater hmem
    | _ =>
      rw [hclass] at h
      exact hlater h

theorem map_pair {α γ δ : Type} {f : α → γ} {g : α → δ} {xs : List α} {rs : List (γ × δ)}
    (hf : xs.map f = rs.map Prod.fst) (hg : xs.map g = rs.map Prod.snd) :
    xs.map (fun x => (f x, g x)) = rs := by
  induction xs generalizing rs with
  | nil => exact (List.map_eq_nil_iff.mp hf.symm).symm
  | cons x rest ih =>
    cases rs with
    | nil => cases hf
    | cons r more =>
      obtain ⟨hfx, hf⟩ := List.cons.inj hf
      obtain ⟨hgx, hg⟩ := List.cons.inj hg
      rw [List.map_cons, ih hf hg, hfx, hgx]

/-- The cheats have the states of their scopes, and the counter agrees. -/
structure Translated (source : List UInt8) (report : Report) (cheats : List Cheat)
    (operations : List Operation) : Prop where
  headers : cheats.map (fun k => (k.headerLineIndex, k.translationState)) =
    references 0 (sourceTexts source)
  scope : ∀ k ∈ cheats, k.translationState =
    (scopeOf ((sourceTexts source).drop (k.headerLineIndex + 1))).state
  direct : ∀ o ∈ operations, ∀ k : Cheat, cheats[o.cheatIndex]? = some k →
    k.translationState = .directOnly → o.kind.isWrite = true ∧ o.addressMode = .absolute
  nonDirect : report.nonDirectCheats =
    cheats.countP fun k => k.translationState ≠ .directOnly

/-- Every cheat of a source has the state of its scope. -/
theorem document_scope (p : Platform) (source : List UInt8) :
    ∀ k ∈ (parseDocument p source).cheats, k.translationState =
      (scopeOf ((sourceTexts source).drop (k.headerLineIndex + 1))).state := by
  intro k hk
  have hmem := List.mem_map_of_mem (f := fun k => (k.headerLineIndex, k.translationState)) hk
  rw [map_pair (document_headers p source) (document_states p source)] at hmem
  exact (references_mem hmem).2

/-- An import that returns OK has given every cheat the state of its scope. -/
theorem import_states (p : Platform) (c : Call β) (out : Outputs β)
    (h : vcPsvParse p c = some (.ok, out)) :
    ∃ lines cheats operations, Imported out lines cheats operations ∧
      Translated c.source.value out.report cheats operations := by
  obtain ⟨-, hreport, himported⟩ := ok_imported h
  have hpairs := map_pair (document_headers p c.source.value) (document_states p c.source.value)
  refine ⟨_, _, _, himported, hpairs, document_scope p c.source.value, ?_, ?_⟩
  · intro o ho k hk hdirect
    refine document_honest p c.source.value o ho ?_
    rw [List.getElem?_map, hk, Option.map_some, hdirect]
  · rw [hreport]
    have hshows := document_shows p c.source.value
    have hcount := hshows.nonDirect
    rw [← hshows.states, List.countP_map] at hcount
    exact hcount

/-- `_V0`, LF, `$B200 00000001 00000000`, LF, `_V1`: a selector that nothing uses. -/
def selectorCall : Call UInt8 where
  source := ⟨0x1000, [0x5f, 0x56, 0x30, 0x0a, 0x24, 0x42, 0x32, 0x30, 0x30, 0x20, 0x30, 0x30, 0x30,
    0x30, 0x30, 0x30, 0x30, 0x31, 0x20, 0x30, 0x30, 0x30, 0x30, 0x30, 0x30, 0x30, 0x30, 0x0a, 0x5f,
    0x56, 0x31]⟩
  lines := ⟨0x3000, 3, fun _ => 0xa5⟩
  cheats := ⟨0x4000, 2, fun _ => 0xa5⟩
  operations := ⟨0x5000, 1, fun _ => 0xa5⟩
  report := ⟨0x2000, .zero⟩

theorem import_states_unused :
    ∃ out, vcPsvParse ilp32 selectorCall = some (.ok, out) ∧ out.report.nonDirectCheats = 1 ∧
      references 0 (sourceTexts selectorCall.source.value) = [(0, .malformed), (2, .directOnly)] ∧
      ∃ lines cheats operations, Imported out lines cheats operations ∧
        Translated selectorCall.source.value out.report cheats operations := by
  obtain ⟨⟨status, out⟩, hrun, hshape⟩ := Option.map_eq_some_iff.mp
    (show (vcPsvParse ilp32 selectorCall).map (fun r => (r.1, r.2.report.nonDirectCheats)) =
      some (.ok, 1) by decide)
  obtain ⟨rfl, htotal⟩ := Prod.mk.inj hshape
  exact ⟨out, hrun, htotal, by decide, import_states ilp32 selectorCall out hrun⟩

end VitaCheat.Psv
