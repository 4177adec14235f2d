import VitaCheat.Lib.Placement
import VitaCheat.PsvLossless

/-!
# The object graph is closed

Lines, cheats and operations refer to each other by index. Every line added to a
document keeps the references in step, whatever its class, so they are in step
in every import that returns OK.
-/
namespace VitaCheat.Psv

open Placement (Placed getElem?_concat getElem?_keep)

variable {β : Type}

def Frame.range (f : Frame) : Tiling.Range := ⟨f.firstOperationIndex, f.operationCount⟩

def Cheat.range (c : Cheat) : Tiling.Range := ⟨c.firstOperationIndex, c.operationCount⟩

def Line.IsCode (l : Line) : Prop := l.kind = .code

def Line.IsHeader (l : Line) : Prop := l.kind = .cheatHeader

/-- Blank, comment and malformed lines refer to nothing. -/
def Line.IsBare (l : Line) : Prop := l.kind = .blank ∨ l.kind = .comment ∨ l.kind = .malformed

def CodeLink (l : Line) (k : Nat) (o : Operation) : Prop :=
  l.operationIndex = k ∧ l.cheatIndex = o.cheatIndex

def HeaderLink (p : Platform) (l : Line) (k : Nat) : Prop :=
  l.cheatIndex = k ∧ l.operationIndex = noIndex p

/-- An operation lies in the range of its cheat and between two header lines. -/
def Owned (frames : List Frame) (k : Nat) (o : Operation) : Prop :=
  ∃ f, frames[o.cheatIndex]? = some f ∧ f.range.Has k ∧ f.headerLineIndex < o.lineIndex ∧
    ∀ g, frames[o.cheatIndex + 1]? = some g → o.lineIndex < g.headerLineIndex

/-- An opaque line belongs to no cheat, or to one whose header precedes it. -/
def Follows (p : Platform) (frames : List Frame) (i : Nat) (l : Line) : Prop :=
  l.cheatIndex = noIndex p ∨ ∃ f, frames[l.cheatIndex]? = some f ∧ f.headerLineIndex < i

namespace Document

structure Graph (p : Platform) (d : Document) : Prop where
  codes : Placed Line.IsCode CodeLink Operation.lineIndex d.lines d.operations
  headers : Placed Line.IsHeader (fun l k _ => HeaderLink p l k) id d.lines
    (d.frames.map Frame.headerLineIndex)
  tiles : Tiling.Tiles 0 (d.frames.map Frame.range) d.operations.length
  owned : ∀ k o, d.operations[k]? = some o → Owned d.frames k o
  bare : ∀ l ∈ d.lines, l.IsBare → l.cheatIndex = noIndex p ∧ l.operationIndex = noIndex p
  opaqueLines : ∀ i l, d.lines[i]? = some l → l.kind = .opaqueLine → Follows p d.frames i l

variable {p : Platform} {d e : Document} {l : Line}

theorem graph_empty : Graph p .empty where
  codes := Placement.placed_nil
  headers := Placement.placed_nil
  tiles := rfl
  owned := fun _ _ h => nomatch h
  bare := fun _ h => nomatch h
  opaqueLines := fun _ _ h => nomatch h

theorem header_lt (h : d.Graph p) {k : Nat} {f : Frame} (hf : d.frames[k]? = some f) :
    f.headerLineIndex < d.lines.length :=
  Placement.place_lt h.headers (by rw [List.getElem?_map, hf, Option.map_some] :
    (d.frames.map Frame.headerLineIndex)[k]? = some f.headerLineIndex)

theorem bare_concat (h : d.Graph p) (hlines : e.lines = d.lines ++ [l])
    (hbare : l.IsBare → l.cheatIndex = noIndex p ∧ l.operationIndex = noIndex p) :
    ∀ m ∈ e.lines, m.IsBare → m.cheatIndex = noIndex p ∧ m.operationIndex = noIndex p := by
  rw [hlines]
  intro m hm
  rcases List.mem_append.mp hm with hm | hm
  · exact h.bare m hm
  · rw [List.mem_singleton.mp hm]
    exact hbare

/-- Opaque lines keep their cheat while the header lines of the cheats stay. -/
theorem opaque_concat (h : d.Graph p) (hlines : e.lines = d.lines ++ [l])
    (hkeep : ∀ (j : Nat) (f : Frame), d.frames[j]? = some f →
      ∃ f', e.frames[j]? = some f' ∧ f'.headerLineIndex = f.headerLineIndex)
    (hloose : l.kind = .opaqueLine → Follows p e.frames d.lines.length l) :
    ∀ i m, e.lines[i]? = some m → m.kind = .opaqueLine → Follows p e.frames i m := by
  rw [hlines]
  intro i m hm hkind
  rcases getElem?_concat hm with hm | ⟨rfl, rfl⟩
  · rcases h.opaqueLines i m hm hkind with hnone | ⟨f, hf, hlt⟩
    · exact Or.inl hnone
    · obtain ⟨f', hf', hheader⟩ := hkeep _ f hf
      exact Or.inr ⟨f', hf', by rwa [hheader]⟩
  · exact hloose hkind

/-- A line that is no code line and no header. -/
theorem graph_plain (h : d.Graph p) (hlines : e.lines = d.lines ++ [l])
    (hframes : e.frames = d.frames) (hoperations : e.operations = d.operations)
    (hcode : ¬ l.IsCode) (hheader : ¬ l.IsHeader)
    (hbare : l.IsBare → l.cheatIndex = noIndex p ∧ l.operationIndex = noIndex p)
    (hloose : l.kind = .opaqueLine → Follows p d.frames d.lines.length l) : e.Graph p := by
  constructor
  · rw [hlines, hoperations]
    exact Placement.placed_skip h.codes hcode
  · rw [hlines, hframes]
    exact Placement.placed_skip h.headers hheader
  · rw [hframes, hoperations]
    exact h.tiles
  · rw [hframes, hoperations]
    exact h.owned
  · exact bare_concat h hlines hbare
  · rw [← hframes] at hloose
    exact opaque_concat h hlines (fun _ f hf => ⟨f, by rwa [hframes], rfl⟩) hloose

theorem graph_bare (h : d.Graph p) {raw content : Span} {kind : LineKind}
    (hlines : e.lines = d.lines ++ [⟨raw, content, kind, noIndex p, noIndex p⟩])
    (hframes : e.frames = d.frames) (hoperations : e.operations = d.operations)
    (hkind : kind = .blank ∨ kind = .comment ∨ kind = .malformed) : e.Graph p := by
  refine graph_plain h hlines hframes hoperations ?_ ?_ (fun _ => ⟨rfl, rfl⟩) ?_
  all_goals
    rcases hkind with rfl | rfl | rfl <;> exact fun hk => nomatch hk

theorem active_follows (hd : d.Current) (h : d.Graph p) (hl : l.cheatIndex = d.activeIndex p) :
    Follows p d.frames d.lines.length l := by
  cases hactive : d.active with
  | none => exact Or.inl (hl.trans (activeIndex_none hactive))
  | some k =>
    have hk : k < d.frames.length := by
      rw [frames_length, ← hd.active k hactive]
      exact Nat.lt_succ_self k
    have hf := List.getElem?_eq_getElem hk
    exact Or.inr ⟨d.frames[k], by rw [hl, activeIndex_some hactive, hf], header_lt h hf⟩

/-- A valid header line opens a cheat with an empty range. -/
theorem graph_header (h : d.Graph p) (hlines : e.lines = d.lines ++ [l])
    (hframes : e.frames = d.frames ++ [⟨d.lines.length, d.operations.length, 0⟩])
    (hoperations : e.operations = d.operations) (hkind : l.kind = .cheatHeader)
    (hlink : HeaderLink p l d.frames.length) : e.Graph p := by
  constructor
  · rw [hlines, hoperations]
    exact Placement.placed_skip h.codes (by rw [Line.IsCode, hkind]; decide)
  · rw [hlines, hframes, List.map_append]
    refine Placement.placed_push h.headers rfl hkind ?_
    rw [List.length_map]
    exact hlink
  · rw [hframes, hoperations, List.map_append]
    exact Tiling.tiles_open h.tiles
  · rw [hframes, hoperations]
    intro k o ho
    obtain ⟨f, hf, hhas, hlt, hnext⟩ := h.owned k o ho
    refine ⟨f, getElem?_keep hf _, hhas, hlt, ?_⟩
    intro g hg
    rcases getElem?_concat hg with hg | ⟨-, rfl⟩
    · exact hnext g hg
    · exact Placement.place_lt h.codes ho
  · exact bare_concat h hlines (by simp [Line.IsBare, hkind])
  · exact opaque_concat h hlines (fun _ f hf => ⟨f, by rw [hframes, getElem?_keep hf _], rfl⟩)
      (by simp [hkind])

theorem count_get {frames : List Frame} {j k : Nat} {f : Frame} (h : frames[j]? = some f) :
    ∃ f', (frames.modify k Frame.count)[j]? = some f' ∧
      f'.headerLineIndex = f.headerLineIndex ∧ ∀ m, f.range.Has m → f'.range.Has m := by
  rw [List.getElem?_modify, h]
  by_cases hk : k = j
  · refine ⟨f.count, by simp [hk], rfl, ?_⟩
    rintro m ⟨hge, hlt⟩
    exact ⟨hge, Nat.lt_succ_of_lt hlt⟩
  · exact ⟨f, by simp [hk], rfl, fun _ hm => hm⟩

theorem get_of_count {frames : List Frame} {j k : Nat} {f' : Frame}
    (h : (frames.modify k Frame.count)[j]? = some f') :
    ∃ f, frames[j]? = some f ∧ f'.headerLineIndex = f.headerLineIndex := by
  rw [List.getElem?_modify] at h
  obtain ⟨f, hf, rfl⟩ := Option.map_eq_some_iff.mp h
  refine ⟨f, hf, ?_⟩
  split <;> rfl

/-- A code line of the last cheat adds one operation to its range. -/
theorem graph_code (h : d.Graph p) {k : Nat} {o : Operation} (hk : k + 1 = d.frames.length)
    (hlines : e.lines = d.lines ++ [l]) (hframes : e.frames = d.frames.modify k Frame.count)
    (hoperations : e.operations = d.operations ++ [o]) (hkind : l.kind = .code)
    (hlink : CodeLink l d.operations.length o) (hcheat : o.cheatIndex = k)
    (hline : o.lineIndex = d.lines.length) : e.Graph p := by
  have hlast : k < d.frames.length := by omega
  have hranges : (d.frames.modify k Frame.count).map Frame.range =
      (d.frames.map Frame.range).modify k Tiling.Range.grow :=
    map_modify_of (g := Frame.range) (f := Frame.count) (fun _ => rfl) _ _
  have hheaders : (d.frames.modify k Frame.count).map Frame.headerLineIndex =
      d.frames.map Frame.headerLineIndex :=
    map_modify_same (f := Frame.count) (fun _ => rfl) _ _
  constructor
  · rw [hlines, hoperations]
    exact Placement.placed_push h.codes hline hkind hlink
  · rw [hlines, hframes, hheaders]
    exact Placement.placed_skip h.headers (by rw [Line.IsHeader, hkind]; decide)
  · rw [hframes, hoperations, hranges, List.length_append, List.length_singleton]
    exact Tiling.tiles_grow h.tiles (by rwa [List.length_map])
  · rw [hframes, hoperations]
    intro j o' ho'
    rcases getElem?_concat ho' with hold | ⟨rfl, rfl⟩
    · obtain ⟨f, hf, hhas, hlt, hnext⟩ := h.owned j o' hold
      obtain ⟨f', hf', hheader, hkeep⟩ := count_get (k := k) hf
      refine ⟨f', hf', hkeep j hhas, by rwa [hheader], ?_⟩
      intro g' hg'
      obtain ⟨g, hg, hsame⟩ := get_of_count hg'
      rw [hsame]
      exact hnext g hg
    · have hf := List.getElem?_eq_getElem hlast
      have hend := Tiling.tiles_last h.tiles (r := (d.frames[k]).range)
        (by rw [List.getElem?_map, hf, Option.map_some]) (by rwa [List.length_map])
      refine ⟨(d.frames[k]).count, by rw [hcheat, List.getElem?_modify, hf]; simp, ⟨?_, ?_⟩, ?_, ?_⟩
      · rw [← hend]
        exact Nat.le_add_right _ _
      · rw [← hend]
        exact Nat.lt_succ_self _
      · have hlt := header_lt h hf
        rw [hline]
        exact hlt
      · intro g hg
        rw [hcheat, hk, List.getElem?_eq_none (by rw [List.length_modify])] at hg
        cases hg
  · exact bare_concat h hlines (by simp [Line.IsBare, hkind])
  · refine opaque_concat h hlines ?_ (by simp [hkind])
    intro j f hf
    obtain ⟨f', hf', hheader, -⟩ := count_get (k := k) hf
    exact ⟨f', by rwa [hframes], hheader⟩

theorem finalize_graph (h : d.Graph p) : d.finalize.Graph p where
  codes := by rw [finalize_lines, finalize_operations]; exact h.codes
  headers := by rw [finalize_lines, finalize_frames]; exact h.headers
  tiles := by rw [finalize_operations, finalize_frames]; exact h.tiles
  owned := by rw [finalize_operations, finalize_frames]; exact h.owned
  bare := by rw [finalize_lines]; exact h.bare
  opaqueLines := by rw [finalize_lines, finalize_frames]; exact h.opaqueLines

theorem graph_step (hd : d.Current) (h : d.Graph p) (t : LineText) : (d.step p t).Graph p := by
  have hlines := step_lines p d t
  have hoperations := step_operations p d t
  have hframes := step_frames p d t
  rw [lineRecord] at hlines
  rw [lineOperation] at hoperations
  cases hclass : classify t.text with
  | blank | comment | badHeader | badCode =>
    simp only [hclass, Option.toList_none, List.append_nil] at hlines hoperations hframes
    exact graph_bare h hlines hframes hoperations (by decide)
  | opaqueLine =>
    simp only [hclass, Option.toList_none, List.append_nil] at hlines hoperations hframes
    exact graph_plain h hlines hframes hoperations (by simp [Line.IsCode])
      (by simp [Line.IsHeader]) (by simp [Line.IsBare]) (fun _ => active_follows hd h rfl)
  | header activation description =>
    simp only [hclass, Option.toList_none, List.append_nil] at hlines hoperations hframes
    exact graph_header h hlines hframes hoperations rfl ⟨(frames_length d).symm, rfl⟩
  | code c =>
    cases hactive : d.active with
    | none =>
      simp only [hclass, hactive, Option.toList_none, List.append_nil]
        at hlines hoperations hframes
      exact graph_bare h hlines hframes hoperations (by decide)
    | some k =>
      simp only [hclass, hactive, Option.toList_some] at hlines hoperations hframes
      exact graph_code h (by rw [frames_length]; exact hd.active k hactive) hlines hframes
        hoperations rfl ⟨rfl, rfl⟩ rfl rfl

end Document

/-- The graph of every source, before and after the last scope ends. -/
theorem document_graph (p : Platform) (source : List UInt8) : (parseDocument p source).Graph p := by
  have hrun : ((sourceLines source).foldl (Document.step p) .empty).Current ∧
      ((sourceLines source).foldl (Document.step p) .empty).Graph p :=
    List.foldlRecOn (motive := fun d : Document => d.Current ∧ d.Graph p) _ _
      ⟨Document.current_empty, Document.graph_empty⟩ fun _ hd t _ =>
        ⟨Document.current_step p hd.1 t, Document.graph_step hd.1 hd.2 t⟩
  exact Document.finalize_graph hrun.2

/-- The references among the stored records. -/
structure ClosedGraph (p : Platform) (lines : List Line) (cheats : List Cheat)
    (operations : List Operation) : Prop where
  codes : Placed Line.IsCode CodeLink Operation.lineIndex lines operations
  headers : Placed Line.IsHeader (fun l k _ => HeaderLink p l k) Cheat.headerLineIndex lines cheats
  ranges : Tiling.Tiles 0 (cheats.map Cheat.range) operations.length
  disjoint : ∀ (i j k : Nat) (c c' : Cheat), cheats[i]? = some c → cheats[j]? = some c' →
    c.range.Has k → c'.range.Has k → i = j
  cover : ∀ k, k < operations.length ↔
    ∃ (i : Nat) (c : Cheat), cheats[i]? = some c ∧ c.range.Has k
  owned : ∀ (k i : Nat) (o : Operation) (c : Cheat), operations[k]? = some o →
    cheats[i]? = some c → (c.range.Has k ↔ o.cheatIndex = i)
  between : ∀ (k : Nat) (o : Operation), operations[k]? = some o →
    ∃ c : Cheat, cheats[o.cheatIndex]? = some c ∧ c.headerLineIndex < o.lineIndex ∧
      ∀ c' : Cheat, cheats[o.cheatIndex + 1]? = some c' → o.lineIndex < c'.headerLineIndex
  bare : ∀ l ∈ lines, l.IsBare → l.cheatIndex = noIndex p ∧ l.operationIndex = noIndex p
  opaqueLines : ∀ (i : Nat) (l : Line), lines[i]? = some l → l.kind = .opaqueLine →
    l.cheatIndex = noIndex p ∨
      ∃ c : Cheat, cheats[l.cheatIndex]? = some c ∧ c.headerLineIndex < i

theorem graph_closed {p : Platform} {d : Document} (h : d.Graph p) :
    ClosedGraph p d.lines d.cheats d.operations := by
  have htiles : Tiling.Tiles 0 (d.cheats.map Cheat.range) d.operations.length := by
    have := h.tiles
    rwa [Document.frames, List.map_map] at this
  have hget : ∀ {i : Nat} {c : Cheat}, d.cheats[i]? = some c →
      (d.cheats.map Cheat.range)[i]? = some c.range := fun hc => by
    rw [List.getElem?_map, hc, Option.map_some]
  have hframe : ∀ {i : Nat} {f : Frame}, d.frames[i]? = some f →
      ∃ c, d.cheats[i]? = some c ∧ c.frame = f := fun hf => by
    rw [Document.frames, List.getElem?_map] at hf
    exact Option.map_eq_some_iff.mp hf
  have hunique : ∀ (i j k : Nat) (c c' : Cheat), d.cheats[i]? = some c →
      d.cheats[j]? = some c' → c.range.Has k → c'.range.Has k → i = j :=
    fun _ _ _ _ _ hc hc' hk hk' => Tiling.tiles_unique htiles (hget hc) (hget hc') hk hk'
  constructor
  case codes => exact h.codes
  case headers =>
    have hheaders := h.headers
    rw [Document.frames, List.map_map] at hheaders
    exact Placement.placed_map hheaders
  case ranges => exact htiles
  case disjoint => exact hunique
  case cover =>
    intro k
    constructor
    · intro hk
      obtain ⟨i, r, hr, hhas⟩ := Tiling.tiles_cover htiles (Nat.zero_le k) hk
      rw [List.getElem?_map] at hr
      obtain ⟨c, hc, rfl⟩ := Option.map_eq_some_iff.mp hr
      exact ⟨i, c, hc, hhas⟩
    · rintro ⟨i, c, hc, -, hlt⟩
      exact Nat.lt_of_lt_of_le hlt (Tiling.tiles_within htiles (hget hc)).2
  case owned =>
    intro k i o c ho hc
    obtain ⟨f, hf, hhas, -⟩ := h.owned k o ho
    obtain ⟨c', hc', rfl⟩ := hframe hf
    constructor
    · intro hk
      exact hunique _ _ k c' c hc' hc hhas hk
    · rintro rfl
      obtain rfl := Option.some.inj (hc'.symm.trans hc)
      exact hhas
  case between =>
    intro k o ho
    obtain ⟨f, hf, -, hlt, hnext⟩ := h.owned k o ho
    obtain ⟨c, hc, rfl⟩ := hframe hf
    refine ⟨c, hc, hlt, ?_⟩
    intro c' hc'
    exact hnext c'.frame (by rw [Document.frames, List.getElem?_map, hc', Option.map_some])
  case bare => exact h.bare
  case opaqueLines =>
    intro i l hl hkind
    rcases h.opaqueLines i l hl hkind with hnone | ⟨f, hf, hlt⟩
    · exact Or.inl hnone
    · obtain ⟨c, hc, rfl⟩ := hframe hf
      exact Or.inr ⟨c, hc, hlt⟩

/-- An import that returns OK has stored a closed object graph. -/
theorem import_closed (p : Platform) (c : Call β) (out : Outputs β)
    (h : vcPsvParse p c = some (.ok, out)) :
    ∃ lines cheats operations, Imported out lines cheats operations ∧
      ClosedGraph p lines cheats operations := by
  obtain ⟨-, -, himported⟩ := ok_imported h
  exact ⟨_, _, _, himported, graph_closed (document_graph p c.source.value)⟩

theorem import_closed_sample :
    ∃ out, vcPsvParse ilp32 sampleCall = some (.ok, out) ∧ out.report.totalOperations = 1 ∧
      ∃ lines cheats operations, Imported out lines cheats operations ∧
        ClosedGraph ilp32 lines cheats operations := by
  obtain ⟨⟨status, out⟩, hrun, hshape⟩ := Option.map_eq_some_iff.mp
    (show (vcPsvParse ilp32 sampleCall).map (fun r => (r.1, r.2.report.totalOperations)) =
      some (.ok, 1) by decide)
  obtain ⟨rfl, htotal⟩ := Prod.mk.inj hshape
  exact ⟨out, hrun, htotal, import_closed ilp32 sampleCall out hrun⟩

end VitaCheat.Psv
