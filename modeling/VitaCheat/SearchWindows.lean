import Mathlib.Data.List.Flatten
import VitaCheat.Lib.Tiling
import VitaCheat.SearchIndependence

/-!
# Searching a memory piece by piece

A session over a part of a memory finds what a session over all of it finds
there. Cut at multiples of the stride, with the parts overlapping by one byte
less than the scalar, a memory of any size is searched by sessions over its
parts: their lists one after the other are the list of the whole.
-/
namespace VitaCheat.Search

open Tiling (Range windows slice)

theorem valueAt_slice (bytes : List UInt8) {r : Range} {o width : Nat} (h : o + width ≤ r.count) :
    valueAt (slice bytes r) o width = valueAt bytes (r.first + o) width := by
  apply Digits.value_congr
  intro i hi
  have hlt : o + i < r.count := by omega
  rw [slice, List.getD_eq_getElem?_getD, List.getElem?_take_of_lt hlt, List.getElem?_drop,
    ← List.getD_eq_getElem?_getD, Nat.add_assoc]

/-- A query sees in a slice what it sees in the whole. -/
theorem holds_slice (q : Query) (previous current : List UInt8) {r : Range} {o : Nat}
    (h : o + vcScalarWidth q.type ≤ r.count) :
    q.Holds (slice previous r) (slice current r) o ↔ q.Holds previous current (r.first + o) := by
  rw [Query.Holds, Query.Holds, valueAt_slice _ h, valueAt_slice _ h]

/-- An initial query reads no earlier snapshot. -/
theorem holds_slice_initial (q : Query) (current : List UInt8) {r : Range} {o : Nat}
    (h : o + vcScalarWidth q.type ≤ r.count) :
    q.Holds [] (slice current r) o ↔ q.Holds [] current (r.first + o) := by
  have hnil : slice ([] : List UInt8) r = [] := by
    rw [slice, List.drop_nil, List.take_nil]
  rw [← holds_slice q [] current h, hnil]

/-- The part of a scan: the slice of its snapshot, searched for the same query. -/
structure Scan.Sliced (r : Range) (whole part : Scan) : Prop where
  snapshot : part.snapshot.value = slice whole.snapshot.value r
  query : part.query.value = whole.query.value

theorem refinedBy_part {r : Range} {first first' : Scan} {rest rest' : List Scan}
    (hfirst : first.Sliced r first') (hrest : List.Forall₂ (Scan.Sliced r) rest rest') {o : Nat}
    (h : ∀ s ∈ rest, o + vcScalarWidth s.query.value.type ≤ r.count) :
    RefinedBy o first' rest' ↔ RefinedBy (r.first + o) first rest := by
  induction hrest generalizing first first' with
  | nil => exact Iff.rfl
  | @cons s s' rest rest' hs _ ih =>
    rw [RefinedBy, RefinedBy, ih hs fun x hx => h x (List.mem_cons_of_mem _ hx), hs.query,
      hs.snapshot, hfirst.snapshot, holds_slice _ _ _ (h s (List.mem_cons_self ..))]

/-- An offset survives in a part if it survives in the whole and its window lies there. -/
theorem survives_part {size : Nat} {r : Range} (hr : r.first + r.count ≤ size)
    {first first' : Scan} {rest rest' : List Scan} (hfirst : first.Sliced r first')
    (hrest : List.Forall₂ (Scan.Sliced r) rest rest')
    (hwidths : ∀ s ∈ rest, vcScalarWidth s.query.value.type ≤ vcScalarWidth first.query.value.type)
    (hstride : first.query.value.stride.toNat ∣ r.first) (o : Nat) :
    Survives r.count first' rest' o ↔
      Survives size first rest (r.first + o) ∧
        r.Holds (vcScalarWidth first.query.value.type) (r.first + o) := by
  rw [Survives, Survives, hfirst.query, hfirst.snapshot]
  have hmultiple : (∃ k, o = k * first.query.value.stride.toNat) ↔
      ∃ k, r.first + o = k * first.query.value.stride.toNat := by
    rw [← dvd_iff_exists_eq_mul_left, ← dvd_iff_exists_eq_mul_left, Nat.dvd_add_right hstride]
  constructor
  · rintro ⟨hk, hroom, hholds, hrefined⟩
    have hlater := refinedBy_part hfirst hrest fun s hs =>
      Nat.le_trans (Nat.add_le_add_left (hwidths s hs) o) hroom
    exact ⟨⟨hmultiple.mp hk, by omega, (holds_slice_initial _ _ hroom).mp hholds,
      hlater.mp hrefined⟩, Nat.le_add_right _ _, by omega⟩
  · rintro ⟨⟨hk, -, hholds, hlast⟩, -, hinside⟩
    have hroom : o + vcScalarWidth first.query.value.type ≤ r.count := by omega
    have hlater := refinedBy_part hfirst hrest fun s hs =>
      Nat.le_trans (Nat.add_le_add_left (hwidths s hs) o) hroom
    exact ⟨hmultiple.mpr hk, hroom, (holds_slice_initial _ _ hroom).mpr hholds,
      hlater.mpr hlast⟩

/-- The survivors of a part are those of the whole whose windows lie in it. -/
theorem survivors_part {size : Nat} {r : Range} (hr : r.first + r.count ≤ size)
    {first first' : Scan} {rest rest' : List Scan} (hfirst : first.Sliced r first')
    (hrest : List.Forall₂ (Scan.Sliced r) rest rest')
    (hwidths : ∀ s ∈ rest, vcScalarWidth s.query.value.type ≤ vcScalarWidth first.query.value.type)
    (hw : vcScalarWidth first.query.value.type ≠ 0)
    (hstride : first.query.value.stride.toNat ∣ r.first) :
    (survivors r.count first' rest').map (r.first + ·) =
      (survivors size first rest).filter fun o =>
        decide (r.Holds (vcScalarWidth first.query.value.type) o) := by
  have hpart : Exact r.count first' rest' (survivors r.count first' rest') :=
    survivors_exact (by rwa [hfirst.query])
  have hwhole : Exact size first rest (survivors size first rest) := survivors_exact hw
  have hincreasing : ((survivors r.count first' rest').map (r.first + ·)).Pairwise (· < ·) := by
    apply hpart.increasing.map
    intro a b hab
    omega
  apply hincreasing.eq_of_mem_iff (hwhole.increasing.sublist List.filter_sublist)
  intro o
  rw [List.mem_filter, decide_eq_true_eq, List.mem_map, hwhole.mem]
  have hlocal := survives_part hr hfirst hrest hwidths hstride
  constructor
  · rintro ⟨k, hk, rfl⟩
    exact (hlocal k).mp ((hpart.mem k).mp hk)
  · rintro ⟨hsurvives, hholds⟩
    obtain ⟨k, rfl⟩ := Nat.exists_eq_add_of_le hholds.1
    exact ⟨k, (hpart.mem k).mpr ((hlocal k).mpr ⟨hsurvives, hholds⟩), rfl⟩

/-- A session over a range of the memory. -/
structure Piece where
  range : Range
  memory : Memory
  first : Scan
  rest : List Scan

namespace Piece

variable (p : Platform) (first : Scan) (rest : List Scan) (piece : Piece)

def start : Option Status × Stage :=
  initialStep p piece.range.count piece.memory piece.first

/-- The calls of the session after the initial scan. -/
def calls : List (Trace.Entry Stage Scan (Option Status)) :=
  Trace.run (refineStep p piece.range.count) (piece.start p).2 piece.rest

/-- The offsets that the session stored last. -/
def found : List Nat :=
  (Trace.final (refineStep p piece.range.count) (piece.start p).2 piece.rest).stored

/-- No call of the session truncated. -/
def Complete : Prop := (piece.start p).1 = some .ok ∧ ∀ e ∈ piece.calls p, e.result = some .ok

/-- The session searches its range of the snapshots for the queries. -/
structure Searches : Prop where
  session : Session p piece.range.count piece.memory piece.first piece.rest
  first : first.Sliced piece.range piece.first
  rest : List.Forall₂ (Scan.Sliced piece.range) rest piece.rest

end Piece

theorem Piece.Searches.width_ne {p : Platform} {first : Scan} {rest : List Scan} {piece : Piece}
    (h : piece.Searches p first rest) : vcScalarWidth first.query.value.type ≠ 0 :=
  h.first.query ▸ h.session.width_ne

/-- The lists of the pieces one after the other, as offsets of the whole. -/
def located (p : Platform) (pieces : List Piece) : List Nat :=
  pieces.flatMap fun piece => (piece.found p).map (piece.range.first + ·)

theorem sliced_widths {r : Range} {first first' : Scan} {rest rest' : List Scan}
    (hfirst : first.Sliced r first') (hrest : List.Forall₂ (Scan.Sliced r) rest rest')
    (h : (first' :: rest').Pairwise fun a b =>
      vcScalarWidth b.query.value.type ≤ vcScalarWidth a.query.value.type) :
    ∀ s ∈ rest, vcScalarWidth s.query.value.type ≤ vcScalarWidth first.query.value.type := by
  have hall := (List.pairwise_cons.mp h).1
  clear h
  induction hrest with
  | nil => simp
  | @cons s s' rest rest' hs _ ih =>
    simp only [List.mem_cons, forall_eq_or_imp, hs.query, hfirst.query] at hall ⊢
    exact ⟨hall.1, ih (hfirst.query ▸ hall.2)⟩

/-- A session over a piece finds part of what the whole has there, and all of it when no
call truncated. -/
theorem piece_found {p : Platform} {size : Nat} {first : Scan} {rest : List Scan} {piece : Piece}
    (h : piece.Searches p first rest) (hr : piece.range.first + piece.range.count ≤ size)
    (hstride : first.query.value.stride.toNat ∣ piece.range.first) :
    ((piece.found p).map (piece.range.first + ·)).Sublist
        ((survivors size first rest).filter fun o =>
          decide (piece.range.Holds (vcScalarWidth first.query.value.type) o)) ∧
      (piece.Complete p → (piece.found p).map (piece.range.first + ·) =
        (survivors size first rest).filter fun o =>
          decide (piece.range.Holds (vcScalarWidth first.query.value.type) o)) := by
  have hw := h.width_ne
  obtain ⟨hsub, hall⟩ := session_survivors h.session
  rw [← survivors_part hr h.first h.rest (sliced_widths h.first h.rest h.session.widths) hw hstride]
  exact ⟨hsub.map _, fun hcomplete => congrArg _ (hall hcomplete.1 hcomplete.2)⟩

/-- For every cutting of a memory of any size at multiples of the stride into ranges that
overlap by one byte less than the scalar, and any sessions that search the ranges for the
same queries: their lists, one after the other, are part of the list that the queries
demand of the whole memory, and are that list when no call truncated. A session over the
whole memory that truncates nothing stores the same list. -/
theorem search_windows (p : Platform) (size : Nat) (first : Scan) (rest : List Scan)
    (cuts : List Nat) (hcuts : cuts.Pairwise (· ≤ ·))
    (haligned : ∀ cut ∈ cuts, cut ≤ size ∧ first.query.value.stride.toNat ∣ cut)
    (pieces : List Piece) (hranges : pieces.map Piece.range =
      windows (vcScalarWidth first.query.value.type - 1) size 0 cuts)
    (hsearch : ∀ piece ∈ pieces, piece.Searches p first rest) :
    ∃ untruncated, Exact size first rest untruncated ∧
      (located p pieces).Sublist untruncated ∧
      ((∀ piece ∈ pieces, piece.Complete p) → located p pieces = untruncated) ∧
      ∀ m, Session p size m first rest → (initialStep p size m first).1 = some .ok →
        (∀ e ∈ Trace.run (refineStep p size) (firstStage p size m first) rest,
          e.result = some .ok) →
        (Trace.final (refineStep p size) (firstStage p size m first) rest).stored =
          untruncated := by
  have hranged : ∀ piece ∈ pieces, piece.range.first + piece.range.count ≤ size ∧
      first.query.value.stride.toNat ∣ piece.range.first := by
    intro piece hpiece
    have hmem : piece.range ∈ windows (vcScalarWidth first.query.value.type - 1) size 0 cuts :=
      hranges ▸ List.mem_map_of_mem hpiece
    have hbounds : ∀ cut ∈ 0 :: cuts, cut ≤ size := by
      simpa using fun cut hcut => (haligned cut hcut).1
    obtain ⟨hfirst, hroom⟩ := Tiling.windows_inside hbounds _ hmem
    refine ⟨hroom, ?_⟩
    rcases List.mem_cons.mp hfirst with hzero | hcut
    · rw [hzero]
      exact Nat.dvd_zero _
    · exact (haligned _ hcut).2
  have hw : vcScalarWidth first.query.value.type ≠ 0 := by
    cases pieces with
    | nil => cases cuts <;> cases hranges
    | cons piece pieces => exact (hsearch piece (List.mem_cons_self ..)).width_ne
  have hexact : Exact size first rest (survivors size first rest) := survivors_exact hw
  have hpieces : (pieces.flatMap fun piece => (survivors size first rest).filter fun o =>
      decide (piece.range.Holds (vcScalarWidth first.query.value.type) o)) =
        survivors size first rest := by
    have hroom : ∀ o ∈ survivors size first rest,
        0 ≤ o ∧ o + (vcScalarWidth first.query.value.type - 1 + 1) ≤ size := by
      intro o ho
      have := ((hexact.mem o).mp ho).2.1
      omega
    have hsplit := Tiling.windows_split (List.pairwise_cons.mpr ⟨by simp, hcuts⟩)
      hexact.increasing hroom
    rw [← hranges, List.flatMap_map, Nat.sub_add_cancel (by omega)] at hsplit
    exact hsplit
  refine ⟨survivors size first rest, hexact, ?_, ?_, ?_⟩
  · rw [← hpieces]
    exact List.Sublist.flatMap_right _ fun piece hpiece =>
      (piece_found (hsearch piece hpiece) (hranged piece hpiece).1 (hranged piece hpiece).2).1
  · intro hcomplete
    rw [← hpieces]
    exact List.flatMap_congr fun piece hpiece =>
      (piece_found (hsearch piece hpiece) (hranged piece hpiece).1 (hranged piece hpiece).2).2
        (hcomplete piece hpiece)
  · intro m hsession hok hall
    exact (session_survivors hsession).2 hok hall

/-- Six bytes with the half-word 0x0201 at 0, 2 and 4. -/
def evenImage : Scan where
  snapshot := ⟨0x1000, [1, 2, 1, 2, 1, 2]⟩
  query := ⟨0x3000, ⟨.u16, .equal, 0x0201, 1⟩⟩
  out := ⟨0x4000, 4, 0x5000, 0x5008⟩

def evenLater : Scan where
  snapshot := ⟨0x2000, [1, 2, 1, 2, 1, 3]⟩
  query := ⟨0x3000, ⟨.u16, .unchanged, 0, 1⟩⟩
  out := ⟨0x4000, 4, 0x5000, 0x5008⟩

def Scan.piece (s : Scan) (r : Range) : Scan :=
  { s with snapshot := ⟨s.snapshot.address, slice s.snapshot.value r⟩ }

def evenPiece (r : Range) : Piece := ⟨r, blank, evenImage.piece r, [evenLater.piece r]⟩

/-- The image cut at 3: the half-word at 2 lies across the cut. -/
def evenPieces : List Piece := [evenPiece ⟨0, 4⟩, evenPiece ⟨3, 3⟩]

theorem evenPiece_searches {r : Range}
    (hlength : (slice evenImage.snapshot.value r).length = r.count)
    (hlength' : (slice evenLater.snapshot.value r).length = r.count)
    (hsize : r.count ≤ ilp32.sizeMax)
    (hinitial : ∃ v, vcValidateCommon ilp32 (evenImage.piece r).snapshot r.count evenImage.query
      evenImage.out = .ok v)
    (hadmitted : Admitted ilp32 r.count
      (firstStage ilp32 r.count blank (evenImage.piece r)) (evenLater.piece r)) :
    (evenPiece r).Searches ilp32 evenImage [evenLater] where
  session :=
    { size_le := hsize
      snapshots := by simpa [evenPiece, Scan.piece] using ⟨hlength, hlength'⟩
      relation := .inl rfl
      widths := by simp [evenPiece, Scan.piece, evenImage, evenLater, vcScalarWidth]
      initial := hinitial
      admitted := by simpa [evenPiece, Trace.entry] using hadmitted }
  first := ⟨rfl, rfl⟩
  rest := .cons ⟨rfl, rfl⟩ .nil

theorem search_windows_across :
    located ilp32 evenPieces = [0, 2] ∧
      ∃ untruncated, Exact 6 evenImage [evenLater] untruncated ∧
        located ilp32 evenPieces = untruncated := by
  have hsearch : ∀ piece ∈ evenPieces, piece.Searches ilp32 evenImage [evenLater] := by
    simp only [evenPieces, List.mem_cons, List.not_mem_nil, or_false, forall_eq_or_imp, forall_eq]
    constructor
    · exact evenPiece_searches rfl rfl (by decide) ⟨_, rfl⟩ ⟨⟨_, rfl⟩, by decide⟩
    · exact evenPiece_searches rfl rfl (by decide) ⟨_, rfl⟩ ⟨⟨_, rfl⟩, by decide⟩
  have hcomplete : ∀ piece ∈ evenPieces, piece.Complete ilp32 := by
    simp only [evenPieces, evenPiece, List.mem_cons, List.not_mem_nil, or_false, forall_eq_or_imp,
      forall_eq, Piece.Complete, Piece.calls, Trace.run_cons, Trace.run_nil]
    decide
  obtain ⟨untruncated, hexact, -, hall, -⟩ := search_windows ilp32 6 evenImage [evenLater] [3]
    (by decide) (by decide) evenPieces rfl hsearch
  exact ⟨by decide, untruncated, hexact, hall hcomplete⟩

end VitaCheat.Search
