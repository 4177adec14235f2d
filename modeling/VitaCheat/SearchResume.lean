import VitaCheat.SearchCoverage

/-!
# Going on where a search was cut

A session that truncated leaves the rest of the memory to a second one, which starts at
the first multiple of the stride that the first has not covered. The lists of such
sessions, one after the other, are the list of one session that truncates nothing.
-/
namespace VitaCheat.Search

open Prefixes (below between)
open Tiling (Range)

/-- Up to where a piece is searched, as an offset of the whole. -/
def Piece.covered (p : Platform) (piece : Piece) : Nat :=
  piece.range.first + Search.covered p piece.range.count piece.memory piece.first piece.rest

/-- Every piece is what is left of the memory, from the first multiple of the stride that
the pieces before it have not covered. -/
def Resumes (p : Platform) (size stride : Nat) : Nat → List Piece → Prop
  | _, [] => True
  | done, piece :: later =>
    stride ∣ piece.range.first ∧ done ≤ piece.range.first ∧ piece.range.first < done + stride ∧
      piece.range.first + piece.range.count = size ∧ Resumes p size stride (piece.covered p) later

/-- Up to where the pieces are searched. -/
def reached (p : Platform) : Nat → List Piece → Nat
  | done, [] => done
  | _, piece :: later => reached p (piece.covered p) later

variable {p : Platform} {size : Nat} {first : Scan} {rest : List Scan}

theorem reached_ge {stride done : Nat} {pieces : List Piece}
    (h : Resumes p size stride done pieces) : done ≤ reached p done pieces := by
  induction pieces generalizing done with
  | nil => exact Nat.le_refl _
  | cons piece later ih =>
    obtain ⟨-, hfirst, -, -, hlater⟩ := h
    exact Nat.le_trans hfirst (Nat.le_trans (Nat.le_add_right _ _) (ih hlater))

theorem reached_last {pieces : List Piece} {last : Piece} (done : Nat)
    (h : pieces.getLast? = some last) : reached p done pieces = last.covered p := by
  induction pieces generalizing done with
  | nil => cases h
  | cons piece later ih =>
    cases later with
    | nil =>
      obtain rfl := Option.some.inj h
      rfl
    | cons next later => exact ih (piece.covered p) h

theorem Piece.covered_complete {piece : Piece} (h : piece.Complete p) :
    piece.covered p = piece.range.first + piece.range.count := by
  obtain ⟨hstart, hcalls⟩ := h
  have hfirst : (initialStep p piece.range.count piece.memory piece.first).1 ≠
      some .truncated := by
    intro hcut
    rw [Piece.start, hcut] at hstart
    cases hstart
  rw [Piece.covered, covered_whole hfirst]
  intro e he hcut
  have hok := hcalls e he
  rw [hcut] at hok
  cases hok

/-- No multiple lies between a bound and the first multiple behind it. -/
theorem multiple_ge {stride done next o : Nat} (hnext : stride ∣ next) (hlt : next < done + stride)
    (ho : stride ∣ o) (hge : done ≤ o) : next ≤ o := by
  obtain ⟨a, rfl⟩ := hnext
  obtain ⟨b, rfl⟩ := ho
  have hab : stride * a < stride * (b + 1) := by
    rw [Nat.mul_succ]
    omega
  exact Nat.mul_le_mul_left _ (Nat.lt_succ_iff.mp (Nat.lt_of_mul_lt_mul_left hab))

/-- A piece that goes on to the end finds the survivors up to its coverage. -/
theorem piece_between {piece : Piece} {done : Nat} (h : piece.Searches p first rest)
    (hstride : first.query.value.stride.toNat ∣ piece.range.first)
    (hge : done ≤ piece.range.first)
    (hlt : piece.range.first < done + first.query.value.stride.toNat)
    (hend : piece.range.first + piece.range.count = size) :
    (piece.found p).map (piece.range.first + ·) =
      between done (piece.covered p) (survivors size first rest) := by
  have hw := h.width_ne
  have hfound : piece.found p =
      below (Search.covered p piece.range.count piece.memory piece.first piece.rest)
        (survivors piece.range.count piece.first piece.rest) :=
    (session_covers h.session).1.list_eq
  have hexact : Exact size first rest (survivors size first rest) := survivors_exact hw
  have hpart := survivors_part (Nat.le_of_eq hend) h.first h.rest
    (sliced_widths h.first h.rest h.session.widths) hw hstride
  have hmoved : (piece.found p).map (piece.range.first + ·) = below (piece.covered p)
      ((survivors piece.range.count piece.first piece.rest).map (piece.range.first + ·)) := by
    rw [hfound, below, below, List.filter_map]
    congr 1
    apply List.filter_congr
    intro o _
    rw [Function.comp_apply, decide_eq_decide, Piece.covered]
    omega
  rw [hmoved, hpart, below, between, List.filter_filter]
  apply List.filter_congr
  intro o ho
  obtain ⟨⟨k, hk⟩, hroom, -⟩ := (hexact.mem o).mp ho
  have hmultiple : done ≤ o → piece.range.first ≤ o :=
    multiple_ge hstride hlt ⟨k, by rw [hk, Nat.mul_comm]⟩
  rw [← Bool.decide_and, decide_eq_decide, Range.Holds]
  constructor
  · rintro ⟨hbelow, hfirst, -⟩
    exact ⟨Nat.le_trans hge hfirst, hbelow⟩
  · rintro ⟨hdone, hbelow⟩
    exact ⟨hbelow, hmultiple hdone, by omega⟩

/-- Pieces that go on one after the other find the survivors between their bounds. -/
theorem located_between {pieces : List Piece} {done : Nat}
    (hresumes : Resumes p size first.query.value.stride.toNat done pieces)
    (hsearch : ∀ piece ∈ pieces, piece.Searches p first rest) :
    located p pieces = between done (reached p done pieces) (survivors size first rest) := by
  induction pieces generalizing done with
  | nil => exact (Prefixes.between_empty _ _).symm
  | cons piece later ih =>
    have hpiece := hsearch piece (List.mem_cons_self ..)
    obtain ⟨hstride, hge, hlt, hend, hlater⟩ := hresumes
    have hincreasing : (survivors size first rest).Pairwise (· < ·) :=
      (initialMatches_increasing _ _ _).sublist List.filter_sublist
    have hfirst := piece_between hpiece hstride hge hlt hend
    have hrest := ih hlater fun q hq => hsearch q (List.mem_cons_of_mem _ hq)
    have hmeet : done ≤ piece.covered p := Nat.le_trans hge (Nat.le_add_right _ _)
    rw [located] at hrest
    rw [located, List.flatMap_cons, hrest, hfirst, reached,
      Prefixes.between_append hincreasing hmeet (reached_ge hlater)]

/-- Every piece ends where the memory does. -/
theorem resumes_end {stride done : Nat} {pieces : List Piece}
    (h : Resumes p size stride done pieces) {piece : Piece} (hmem : piece ∈ pieces) :
    piece.range.first + piece.range.count = size := by
  induction pieces generalizing done with
  | nil => cases hmem
  | cons q later ih =>
    obtain ⟨-, -, -, hend, hlater⟩ := h
    rcases List.mem_cons.mp hmem with rfl | hmem
    · exact hend
    · exact ih hlater hmem

theorem pieces_le {pieces : List Piece} (h : ∀ piece ∈ pieces, piece.found p ≠ []) :
    pieces.length ≤ (located p pieces).length := by
  induction pieces with
  | nil => exact Nat.zero_le _
  | cons piece later ih =>
    have hpiece := List.length_pos_of_ne_nil (h piece (List.mem_cons_self ..))
    have hlater := ih fun q hq => h q (List.mem_cons_of_mem _ hq)
    rw [located] at hlater
    rw [located, List.flatMap_cons, List.length_append, List.length_map, List.length_cons]
    omega

/-- Sessions that go on one after the other where the one before was cut: their lists, one
after the other, are exactly what an untruncated session over the whole memory would have
found up to the last coverage, without a gap and without a repeat, and all of it when the
last session truncates nothing. If every session stores an offset they are at most as many
as there are offsets to find. -/
theorem search_resumed (p : Platform) (size : Nat) (first : Scan) (rest : List Scan)
    (pieces : List Piece) (last : Piece) (hlast : pieces.getLast? = some last)
    (hresumes : Resumes p size first.query.value.stride.toNat 0 pieces)
    (hsearch : ∀ piece ∈ pieces, piece.Searches p first rest) :
    ∃ untruncated, Exact size first rest untruncated ∧
      located p pieces = untruncated.filter (fun o => decide (o < last.covered p)) ∧
      (last.Complete p → located p pieces = untruncated) ∧
      ((∀ piece ∈ pieces, piece.found p ≠ []) → pieces.length ≤ untruncated.length) := by
  have hmem : last ∈ pieces := List.mem_of_getLast? hlast
  have hw := (hsearch last hmem).width_ne
  have hexact : Exact size first rest (survivors size first rest) := survivors_exact hw
  have hlist : located p pieces = below (last.covered p) (survivors size first rest) := by
    rw [located_between hresumes hsearch, Prefixes.between_zero, reached_last 0 hlast]
  refine ⟨survivors size first rest, hexact, hlist, ?_, ?_⟩
  · intro hcomplete
    rw [hlist, Piece.covered_complete hcomplete, resumes_end hresumes hmem]
    apply Prefixes.below_all
    intro o ho
    have hroom := ((hexact.mem o).mp ho).2.1
    omega
  · intro hfound
    exact Nat.le_trans (pieces_le hfound) (hlist ▸ (Prefixes.below_sublist _ _).length_le)

/-- What is left of the sample behind its first offset. -/
def cutRange : Range := ⟨1, 3⟩

/-- The sample session with room for one offset, and a second one behind that offset. -/
def cutPieces : List Piece :=
  [⟨⟨0, 4⟩, blank, probeOne, [narrow]⟩,
    ⟨cutRange, blank, probe.piece cutRange, [narrow.piece cutRange]⟩]

theorem cutPieces_search : ∀ piece ∈ cutPieces, piece.Searches ilp32 probe [narrow] := by
  simp only [cutPieces, List.mem_cons, List.not_mem_nil, or_false, forall_eq_or_imp, forall_eq]
  constructor
  · exact ⟨cut_session, ⟨rfl, rfl⟩, .cons ⟨rfl, rfl⟩ .nil⟩
  · refine ⟨?_, ⟨rfl, rfl⟩, .cons ⟨rfl, rfl⟩ .nil⟩
    exact
      { size_le := by decide
        snapshots := by decide
        relation := by decide
        widths := by decide
        initial := ⟨_, rfl⟩
        admitted := by
          simp only [Trace.run_cons, Trace.run_nil, List.mem_singleton, forall_eq]
          exact ⟨⟨_, rfl⟩, by decide⟩ }

theorem search_resumed_behind :
    located ilp32 cutPieces = [0, 3] ∧
      ∃ untruncated, Exact 4 probe [narrow] untruncated ∧
        located ilp32 cutPieces = untruncated := by
  have hresumes : Resumes ilp32 4 probe.query.value.stride.toNat 0 cutPieces := by
    simp only [cutPieces, Resumes]
    decide
  have hcomplete : Piece.Complete ilp32
      ⟨cutRange, blank, probe.piece cutRange, [narrow.piece cutRange]⟩ := by
    simp only [Piece.Complete, Piece.calls, Trace.run_cons, Trace.run_nil]
    decide
  obtain ⟨untruncated, hexact, -, hall, -⟩ :=
    search_resumed ilp32 4 probe [narrow] cutPieces _ rfl hresumes cutPieces_search
  exact ⟨by decide, untruncated, hexact, hall hcomplete⟩

end VitaCheat.Search
