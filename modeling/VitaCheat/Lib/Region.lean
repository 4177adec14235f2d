import Mathlib.Tactic.ByContra
import Mathlib.Tactic.Tauto

/-!
# Address regions

A buffer occupies a half-open interval of addresses. A call with several buffers
is safe when each ends by the last address and no buffer it writes meets another
one. Checking the pairs with a written buffer is enough, as soon as one written
buffer and some other one are not empty.
-/
structure Region where
  first : Nat
  size : Nat
  deriving DecidableEq, Repr

namespace Region

universe u

def Has (r : Region) (a : Nat) : Prop := r.first ≤ a ∧ a < r.first + r.size

def Apart (r s : Region) : Prop := ∀ a, r.Has a → ¬ s.Has a

/-- A region that is not empty ends by the last address. -/
def Fits (last : Nat) (r : Region) : Prop := r.size ≠ 0 → r.first + r.size ≤ last

/-- What the guard on a pair of regions lets through. -/
def Clear (last : Nat) (r s : Region) : Prop :=
  r.size = 0 ∨ s.size = 0 ∨
    (r.first + r.size ≤ last ∧ s.first + s.size ≤ last ∧ r.Apart s)

theorem apart_comm {r s : Region} : r.Apart s ↔ s.Apart r :=
  ⟨fun h a hs hr => h a hr hs, fun h a hr hs => h a hs hr⟩

theorem clear_comm {last : Nat} {r s : Region} : Clear last r s ↔ Clear last s r := by
  unfold Clear
  rw [apart_comm]
  tauto

/-- Two regions are apart when one is empty or ends before the other starts. -/
theorem apart_iff {r s : Region} :
    r.Apart s ↔ r.size = 0 ∨ s.size = 0 ∨ r.first + r.size ≤ s.first ∨
      s.first + s.size ≤ r.first := by
  constructor
  · intro h
    by_contra hno
    have hmeet := h (max r.first s.first)
    simp only [Has] at hmeet
    omega
  · intro h a hr hs
    simp only [Has] at hr hs
    omega

theorem apart_of_empty {r s : Region} (h : r.size = 0 ∨ s.size = 0) : r.Apart s := by
  rw [apart_iff]
  tauto

variable {ι : Type u}

/-- The buffers of a call are in order; `shared` names the pairs that may meet. -/
structure Separated (last : Nat) (region : ι → Region) (writes : ι → Prop)
    (shared : ι → ι → Prop) : Prop where
  fits : ∀ b, (region b).Fits last
  apart : ∀ w b, writes w → w ≠ b → ¬ shared w b → (region w).Apart (region b)

variable {last : Nat} {region : ι → Region} {writes : ι → Prop} {shared : ι → ι → Prop}

theorem Separated.clear (h : Separated last region writes shared) {w b : ι} (hw : writes w)
    (hne : w ≠ b) (hs : ¬ shared w b) : Clear last (region w) (region b) := by
  by_cases hempty : (region w).size = 0 ∨ (region b).size = 0
  · exact hempty.imp_right Or.inl
  · obtain ⟨hfirst, hsecond⟩ := not_or.mp hempty
    exact Or.inr (Or.inr ⟨h.fits w hfirst, h.fits b hsecond, h.apart w b hw hne hs⟩)

theorem Clear.apart {r s : Region} (h : Clear last r s) : r.Apart s := by
  rcases h with h | h | ⟨-, -, h⟩
  · exact apart_of_empty (Or.inl h)
  · exact apart_of_empty (Or.inr h)
  · exact h

theorem Clear.fits {r s : Region} (h : Clear last r s) (hr : r.size ≠ 0) : s.Fits last := by
  intro hs
  rcases h with h | h | ⟨-, h, -⟩
  · exact absurd h hr
  · exact absurd h hs
  · exact h

/-- One written buffer that is checked against every other one settles which
buffers end by the last address. -/
theorem separated_iff (hub other : ι) (hwrites : writes hub) (hsize : (region hub).size ≠ 0)
    (hshared : ∀ b, ¬ shared hub b) (hne : hub ≠ other) (hother : (region other).size ≠ 0) :
    Separated last region writes shared ↔
      ∀ w b, writes w → w ≠ b → ¬ shared w b → Clear last (region w) (region b) := by
  constructor
  · intro h w b hw hwb hs
    exact h.clear hw hwb hs
  · intro h
    refine ⟨?_, fun w b hw hwb hs => (h w b hw hwb hs).apart⟩
    intro b
    by_cases hb : hub = b
    · subst hb
      exact (clear_comm.mp (h hub other hwrites hne (hshared other))).fits hother
    · exact (h hub b hwrites hb (hshared b)).fits hsize

/-- A table of checked pairs that names each pair with a written buffer, in one
order or the other, and no further ones. -/
structure Covers (writes : ι → Prop) (shared : ι → ι → Prop) (pairs : List (ι × ι)) : Prop where
  named : ∀ w b, writes w → w ≠ b → ¬ shared w b → (w, b) ∈ pairs ∨ (b, w) ∈ pairs
  distinct : ∀ x ∈ pairs, x.1 ≠ x.2
  needed : ∀ x ∈ pairs, (writes x.1 ∧ ¬ shared x.1 x.2) ∨ (writes x.2 ∧ ¬ shared x.2 x.1)

/-- Checking the pairs of a covering table is checking all of them. -/
theorem Covers.clear_iff {pairs : List (ι × ι)} (h : Covers writes shared pairs) :
    (∀ x ∈ pairs, Clear last (region x.1) (region x.2)) ↔
      ∀ w b, writes w → w ≠ b → ¬ shared w b → Clear last (region w) (region b) := by
  constructor
  · intro hall w b hw hne hs
    rcases h.named w b hw hne hs with hmem | hmem
    · exact hall _ hmem
    · exact clear_comm.mp (hall _ hmem)
  · intro hall x hx
    have hne := h.distinct x hx
    rcases h.needed x hx with ⟨hw, hs⟩ | ⟨hw, hs⟩
    · exact hall x.1 x.2 hw hne hs
    · exact clear_comm.mp (hall x.2 x.1 hw hne.symm hs)

/-- Every byte of the first region is in the second one. -/
def Within (r s : Region) : Prop := s.first ≤ r.first ∧ r.first + r.size ≤ s.first + s.size

theorem Within.has {r s : Region} (h : r.Within s) {a : Nat} (ha : r.Has a) : s.Has a :=
  ⟨Nat.le_trans h.1 ha.1, Nat.lt_of_lt_of_le ha.2 h.2⟩

theorem Apart.within {r s r' s' : Region} (h : r.Apart s) (hr : r'.Within r) (hs : s'.Within s) :
    r'.Apart s' :=
  fun a ha ha' => h a (hr.has ha) (hs.has ha')

/-- A shorter region at the same place. -/
theorem within_of_le {first size size' : Nat} (h : size ≤ size') :
    Within ⟨first, size⟩ ⟨first, size'⟩ :=
  ⟨Nat.le_refl first, Nat.add_le_add_left h first⟩

/-- Objects in memory: none is at the null address or reaches the last one, and
those that live together share no byte. -/
structure Objects {κ : Type u} (last : Nat) (object : κ → Region) (together : κ → κ → Prop) :
    Prop where
  nonnull : ∀ a, (object a).first ≠ 0
  fits : ∀ a, (object a).first + (object a).size ≤ last
  apart : ∀ a b, a ≠ b → together a b → (object a).Apart (object b)

variable {κ : Type u} {object : κ → Region} {together : κ → κ → Prop}

/-- Different objects with a byte of their own have different addresses. -/
theorem Objects.first_ne (h : Objects last object together) {a b : κ} (ha : (object a).size ≠ 0)
    (hb : (object b).size ≠ 0) (hab : a ≠ b) (hlive : together a b) :
    (object a).first ≠ (object b).first := by
  intro hsame
  refine h.apart a b hab hlive (object a).first ?_ ?_
  · exact ⟨Nat.le_refl _, Nat.lt_add_of_pos_right (Nat.pos_of_ne_zero ha)⟩
  · rw [hsame]
    exact ⟨Nat.le_refl _, Nat.lt_add_of_pos_right (Nat.pos_of_ne_zero hb)⟩

/-- Objects of at most `gap` bytes at addresses that far apart are in order. -/
theorem objects_spaced (gap : Nat) (hsize : ∀ a, (object a).size ≤ gap)
    (hfirst : ∀ a, (object a).first ≠ 0) (hlast : ∀ a, (object a).first + gap ≤ last)
    (hgap : ∀ a b, a ≠ b → (object a).first + gap ≤ (object b).first ∨
      (object b).first + gap ≤ (object a).first) : Objects last object together where
  nonnull := hfirst
  fits a := Nat.le_trans (Nat.add_le_add_left (hsize a) _) (hlast a)
  apart a b hne _ := by
    intro x ha hb
    have hspaced := hgap a b hne
    have hsa := hsize a
    have hsb := hsize b
    have hla := ha.1
    have hua := ha.2
    have hlb := hb.1
    have hub := hb.2
    omega

/-- Buffers in objects are separated when what is written has an object of its own. -/
theorem Objects.separated (h : Objects last object together) (home : ι → κ)
    (hin : ∀ b, (region b).Within (object (home b)))
    (hown : ∀ w b, writes w → w ≠ b → ¬shared w b →
      home w ≠ home b ∧ together (home w) (home b)) :
    Separated last region writes shared where
  fits b _ := Nat.le_trans (hin b).2 (h.fits (home b))
  apart w b hw hne hs :=
    (h.apart _ _ (hown w b hw hne hs).1 (hown w b hw hne hs).2).within (hin w) (hin b)

end Region
