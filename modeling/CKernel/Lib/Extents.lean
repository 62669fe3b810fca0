/-
# `CKernel.Lib.Extents` — lists of pieces of disjoint regions

Half-open ranges of addresses.  The regions are pairwise apart; a list of pieces
is *arranged* in them when every piece lies within one region and the pieces of
one region come in address order, whatever stands between them in the list.

Such a list survives the exchange of some consecutive pieces of one region for
others inside their hull (`Arranged.replace`), and nothing else of the list is
inside that hull (`Hull.off`).

Pieces *tile* a range when they lie end to end from its one bound to the other;
some of them may be exchanged for others that tile the same (`Tiles.replace`).
-/
import Mathlib

namespace CKernel

structure Extent where
  lo : Nat
  hi : Nat
  deriving DecidableEq, Repr

namespace Extent

def Proper (i : Extent) : Prop := i.lo < i.hi

def Within (i r : Extent) : Prop := r.lo ≤ i.lo ∧ i.hi ≤ r.hi

def Apart (i j : Extent) : Prop := i.hi ≤ j.lo ∨ j.hi ≤ i.lo

instance (i r : Extent) : Decidable (i.Within r) := inferInstanceAs (Decidable (_ ∧ _))

instance (i j : Extent) : Decidable (i.Apart j) := inferInstanceAs (Decidable (_ ∨ _))

variable {i j r r' : Extent}

theorem Within.trans (h : i.Within j) (h' : j.Within r) : i.Within r :=
  ⟨Nat.le_trans h'.1 h.1, Nat.le_trans h.2 h'.2⟩

instance : Std.Symm Apart := ⟨fun _ _ h => Or.symm h⟩

/-- Two regions that share a proper piece are not apart. -/
theorem not_apart_of_within (hi : i.Proper) (h : i.Within r) (h' : i.Within r') : ¬ r.Apart r' := by
  intro hapart
  have hproper : i.lo < i.hi := hi
  obtain ⟨hlo, hhi⟩ := h
  obtain ⟨hlo', hhi'⟩ := h'
  rcases hapart with hle | hle
  · omega
  · omega

end Extent

open Extent

/-- Every piece lies in a region, and those of one region are in order. -/
structure Arranged (rs is : List Extent) : Prop where
  within : ∀ i ∈ is, ∃ r ∈ rs, i.Within r
  order : is.Pairwise fun i j => ∀ r ∈ rs, i.Within r → j.Within r → i.hi ≤ j.lo

/-- The hull of consecutive pieces in a region, seen from the rest of the list. -/
structure Hull (rs pre post : List Extent) (r hull : Extent) : Prop where
  mem : r ∈ rs
  within : hull.Within r
  before : ∀ z ∈ pre, z.Within r → z.hi ≤ hull.lo
  after : ∀ z ∈ post, z.Within r → hull.hi ≤ z.lo

variable {rs pre mid mid' post is : List Extent} {r x y hull : Extent}

theorem arranged_nil (rs : List Extent) : Arranged rs [] :=
  ⟨fun _ h => absurd h List.not_mem_nil, List.Pairwise.nil⟩

theorem Arranged.hull_one (h : Arranged rs (pre ++ x :: post)) (hr : r ∈ rs) (hx : x.Within r) :
    Hull rs pre post r x := by
  obtain ⟨-, hrest, hcross⟩ := List.pairwise_append.mp h.order
  obtain ⟨hafter, -⟩ := List.pairwise_cons.mp hrest
  refine ⟨hr, hx, fun z hz hzr => ?_, fun z hz hzr => ?_⟩
  · exact hcross z hz x List.mem_cons_self r hr hzr hx
  · exact hafter z hz r hr hx hzr

theorem Arranged.hull_two (h : Arranged rs (pre ++ x :: y :: post)) (hr : r ∈ rs)
    (hx : x.Within r) (hy : y.Within r) : Hull rs pre post r ⟨x.lo, y.hi⟩ := by
  obtain ⟨-, hrest, hcross⟩ := List.pairwise_append.mp h.order
  obtain ⟨-, hrest⟩ := List.pairwise_cons.mp hrest
  obtain ⟨hafter, -⟩ := List.pairwise_cons.mp hrest
  refine ⟨hr, ⟨hx.1, hy.2⟩, fun z hz hzr => ?_, fun z hz hzr => ?_⟩
  · exact hcross z hz x List.mem_cons_self r hr hzr hx
  · exact hafter z hz r hr hy hzr

/-- Two neighbours in one region are in order. -/
theorem Arranged.le_of_two (h : Arranged rs (pre ++ x :: y :: post)) (hr : r ∈ rs)
    (hx : x.Within r) (hy : y.Within r) : x.hi ≤ y.lo := by
  obtain ⟨-, hrest, -⟩ := List.pairwise_append.mp h.order
  exact (List.pairwise_cons.mp hrest).1 y List.mem_cons_self r hr hx hy

section Apart
variable (hrs : rs.Pairwise Extent.Apart)
include hrs

/-- The region of a proper piece is the only one. -/
theorem region_unique {i r' : Extent} (hi : i.Proper) (hr : r ∈ rs) (hr' : r' ∈ rs)
    (h : i.Within r) (h' : i.Within r') : r = r' := by
  by_contra hne
  exact not_apart_of_within hi h h' (hrs.forall hr hr' hne)

/-- Nothing else of the list is inside the hull. -/
theorem Hull.off (hhull : Hull rs pre post r hull)
    (hwithin : ∀ z ∈ pre ++ post, ∃ r ∈ rs, z.Within r) :
    ∀ z ∈ pre ++ post, z.Apart hull := by
  intro z hz
  obtain ⟨r', hr', hzr'⟩ := hwithin z hz
  by_cases heq : r' = r
  · subst heq
    rcases List.mem_append.mp hz with hz | hz
    · exact .inl (hhull.before z hz hzr')
    · exact .inr (hhull.after z hz hzr')
  · obtain ⟨hlo, hhi⟩ := hhull.within
    obtain ⟨hlo', hhi'⟩ := hzr'
    rcases hrs.forall hr' hhull.mem heq with hle | hle
    · left
      omega
    · right
      omega

/-- Other pieces inside the hull, in order, in place of those that made it. -/
theorem Arranged.replace (h : Arranged rs (pre ++ (mid ++ post)))
    (hhull : Hull rs pre post r hull) (hmid : ∀ y ∈ mid', y.Proper ∧ y.Within hull)
    (horder : mid'.Pairwise fun x y => x.hi ≤ y.lo) : Arranged rs (pre ++ (mid' ++ post)) := by
  have honly : ∀ y ∈ mid', ∀ r' ∈ rs, y.Within r' → r' = r := fun y hy r' hr' hyr' =>
    region_unique hrs (hmid y hy).1 hr' hhull.mem hyr' ((hmid y hy).2.trans hhull.within)
  obtain ⟨hpre, hrest, hcross⟩ := List.pairwise_append.mp h.order
  obtain ⟨-, hpost, -⟩ := List.pairwise_append.mp hrest
  refine ⟨fun z hz => ?_, List.pairwise_append.mpr ⟨hpre,
    List.pairwise_append.mpr ⟨?_, hpost, ?_⟩, ?_⟩⟩
  · rcases List.mem_append.mp hz with hz | hz
    · exact h.within z (List.mem_append_left _ hz)
    · rcases List.mem_append.mp hz with hz | hz
      · exact ⟨r, hhull.mem, (hmid z hz).2.trans hhull.within⟩
      · exact h.within z (List.mem_append_right _ (List.mem_append_right _ hz))
  · exact horder.imp fun hle _ _ _ _ => hle
  · intro y hy z hz r' hr' hyr' hzr'
    obtain rfl := honly y hy r' hr' hyr'
    exact Nat.le_trans (hmid y hy).2.2 (hhull.after z hz hzr')
  · intro z hz y hy r' hr' hzr' hyr'
    rcases List.mem_append.mp hy with hy | hy
    · obtain rfl := honly y hy r' hr' hyr'
      exact Nat.le_trans (hhull.before z hz hzr') (hmid y hy).2.1
    · exact hcross z hz y (List.mem_append_right _ hy) r' hr' hzr' hyr'

/-- Arranged pieces are pairwise apart. -/
theorem Arranged.pairwise_apart (h : Arranged rs is) : is.Pairwise Extent.Apart := by
  refine h.order.imp_of_mem fun {i j} hi hj hle => ?_
  obtain ⟨r, hr, hir⟩ := h.within i hi
  obtain ⟨r', hr', hjr'⟩ := h.within j hj
  by_cases heq : r = r'
  · subst heq
    exact .inl (hle r hr hir hjr')
  · obtain ⟨hlo, hhi⟩ := hir
    obtain ⟨hlo', hhi'⟩ := hjr'
    rcases hrs.forall hr hr' heq with hle | hle
    · left
      omega
    · right
      omega

/-- There is room for as many pieces as the regions have addresses. -/
theorem Arranged.length_le (h : Arranged rs is) (hproper : ∀ i ∈ is, i.Proper) :
    is.length ≤ (rs.map fun r => r.hi - r.lo).sum := by
  have hnodup : (is.map Extent.lo).Nodup := by
    refine List.Pairwise.map _ ?_ ((h.pairwise_apart hrs).imp_of_mem ?_) (S := (· ≠ ·))
      (R := fun i j => i.lo ≠ j.lo)
    · exact fun _ _ hne => hne
    · intro i j hi hj hapart heq
      have hi' : i.lo < i.hi := hproper i hi
      have hj' : j.lo < j.hi := hproper j hj
      rcases hapart with hle | hle
      · omega
      · omega
  have hsub : is.map Extent.lo ⊆ rs.flatMap fun r => List.range' r.lo (r.hi - r.lo) := by
    intro a ha
    obtain ⟨i, hi, rfl⟩ := List.mem_map.mp ha
    obtain ⟨r, hr, hlo, hhi⟩ := h.within i hi
    have hi' : i.lo < i.hi := hproper i hi
    refine List.mem_flatMap.mpr ⟨r, hr, List.mem_range'_1.mpr ?_⟩
    omega
  have hle := (List.subperm_of_subset hnodup hsub).length_le
  simpa [List.length_flatMap] using hle

end Apart

/-- A new region with pieces of its own, behind the others. -/
theorem Arranged.append (h : Arranged rs is) (hproper : ∀ i ∈ is, i.Proper)
    (hr : ∀ r' ∈ rs, r'.Apart r) (hmid : ∀ y ∈ mid, y.Proper ∧ y.Within r)
    (horder : mid.Pairwise fun x y => x.hi ≤ y.lo) : Arranged (rs ++ [r]) (is ++ mid) := by
  have hold : ∀ i ∈ is, ∀ r' ∈ rs ++ [r], i.Within r' → r' ∈ rs := by
    intro i hi r' hr' hir'
    rcases List.mem_append.mp hr' with hr' | hr'
    · exact hr'
    · obtain rfl := List.mem_singleton.mp hr'
      obtain ⟨r₀, hr₀, hir₀⟩ := h.within i hi
      exact absurd (hr r₀ hr₀) (not_apart_of_within (hproper i hi) hir₀ hir')
  refine ⟨fun i hi => ?_, List.pairwise_append.mpr ⟨?_, ?_, ?_⟩⟩
  · rcases List.mem_append.mp hi with hi | hi
    · obtain ⟨r', hr', hir'⟩ := h.within i hi
      exact ⟨r', List.mem_append_left _ hr', hir'⟩
    · exact ⟨r, List.mem_append_right _ (List.mem_singleton.mpr rfl), (hmid i hi).2⟩
  · exact h.order.imp_of_mem fun {i j} hi _ hle r' hr' hir' hjr' =>
      hle r' (hold i hi r' hr' hir') hir' hjr'
  · exact horder.imp fun hle _ _ _ _ => hle
  · intro i hi j hj r' hr' hir' hjr'
    have hr'' := hold i hi r' hr' hir'
    exact absurd (hr r' hr'') (not_apart_of_within (hmid j hj).1 hjr' (hmid j hj).2)

/-! ## Tilings -/

/-- The pieces lie end to end from `lo` to `hi`. -/
def Tiles (lo : Nat) : List Extent → Nat → Prop
  | [], hi => lo = hi
  | i :: is, hi => i.lo = lo ∧ Tiles i.hi is hi

instance decidableTiles : (lo : Nat) → (is : List Extent) → (hi : Nat) → Decidable (Tiles lo is hi)
  | lo, [], hi => inferInstanceAs (Decidable (lo = hi))
  | _, i :: is, hi =>
      have := decidableTiles i.hi is hi
      inferInstanceAs (Decidable (_ ∧ _))

variable {lo hi : Nat}

theorem tiles_append :
    Tiles lo (is ++ mid) hi ↔ ∃ cut, Tiles lo is cut ∧ Tiles cut mid hi := by
  induction is generalizing lo with
  | nil =>
      constructor
      · intro h
        exact ⟨lo, rfl, h⟩
      · rintro ⟨cut, rfl, h⟩
        exact h
  | cons i is ih =>
      rw [List.cons_append, Tiles, ih]
      constructor
      · rintro ⟨hlo, cut, his, h⟩
        exact ⟨cut, ⟨hlo, his⟩, h⟩
      · rintro ⟨cut, ⟨hlo, his⟩, h⟩
        exact ⟨hlo, cut, his, h⟩

theorem Tiles.le (h : Tiles lo is hi) (hproper : ∀ i ∈ is, i.Proper) : lo ≤ hi := by
  induction is generalizing lo with
  | nil => exact Nat.le_of_eq h
  | cons i is ih =>
      obtain ⟨rfl, hrest⟩ := h
      have hlt : i.lo < i.hi := hproper i List.mem_cons_self
      exact Nat.le_trans (Nat.le_of_lt hlt) (ih hrest fun j hj => hproper j (List.mem_cons_of_mem _ hj))

/-- Every piece lies in the range. -/
theorem Tiles.within (h : Tiles lo is hi) (hproper : ∀ i ∈ is, i.Proper) :
    ∀ i ∈ is, i.Within ⟨lo, hi⟩ := by
  intro i hmem
  obtain ⟨pre, post, rfl⟩ := List.append_of_mem hmem
  obtain ⟨cut, hpre, rfl, hpost⟩ := tiles_append.mp h
  have hlow : lo ≤ i.lo := hpre.le fun j hj => hproper j (List.mem_append_left _ hj)
  have hhigh : i.hi ≤ hi := hpost.le fun j hj =>
    hproper j (List.mem_append_right _ (List.mem_cons_of_mem _ hj))
  exact ⟨hlow, hhigh⟩

/-- The pieces come in address order. -/
theorem Tiles.pairwise (h : Tiles lo is hi) (hproper : ∀ i ∈ is, i.Proper) :
    is.Pairwise fun i j => i.hi ≤ j.lo := by
  induction is generalizing lo with
  | nil => exact List.Pairwise.nil
  | cons i is ih =>
      obtain ⟨rfl, hrest⟩ := h
      have hproper' : ∀ j ∈ is, j.Proper := fun j hj => hproper j (List.mem_cons_of_mem _ hj)
      exact List.pairwise_cons.mpr
        ⟨fun j hj => (hrest.within hproper' j hj).1, ih hrest hproper'⟩

/-- Pieces are exchanged for others that tile the same range. -/
theorem Tiles.replace (h : Tiles lo (pre ++ (mid ++ post)) hi)
    (hmid : ∀ a b, Tiles a mid b → Tiles a mid' b) : Tiles lo (pre ++ (mid' ++ post)) hi := by
  obtain ⟨a, hpre, hrest⟩ := tiles_append.mp h
  obtain ⟨b, hold, hpost⟩ := tiles_append.mp hrest
  exact tiles_append.mpr ⟨a, hpre, tiles_append.mpr ⟨b, hmid a b hold, hpost⟩⟩

end CKernel
