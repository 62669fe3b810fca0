/-
# `CKernel.Malloc.ReallocSize` — requests of `my_malloc` near `SIZE_MAX`

Three sums are rounded and can wrap: the request up to 16, the header added to it,
that up to a page.  A request above `2^64 - 16` becomes 0, so any free block will
do and is split to nothing; one above `2^64 - 32` stays large, but the region
asked for it is one page.  In between the region's length wraps to 0, and `mmap`
refuses that.

    rounded requests that do not wrap get a region that holds them  (`sized_of_le`)
    a result is large enough ⟺ the request is at most `2^64 - 32`,
      or there is nothing to be had                                  (`myMalloc_enough_iff`)
-/
import CKernel.Malloc.ReallocRuns

namespace CKernel.Malloc.Realloc

variable {s s' : State} {bs pre post : List Blk} {b : Blk} {live : List Nat} {n size lo : Nat}
  {os : Option Nat}

/-! ## The three roundings -/

theorem alignUp_alignment_mod (n : Nat) :
    alignUp n alignment = 16 * ((n + 15) % 2 ^ 64 / 16) :=
  alignUp_mod (n := n) (k := 4) (by decide)

theorem regionSize_mod (size : Nat) :
    regionSize size = 4096 * (((32 + size) % 2 ^ 64 + 4095) % 2 ^ 64 / 4096) :=
  alignUp_mod (n := Word.add 64 headerSize size) (k := 12) (by decide)

/-- The request is rounded up to something that is not smaller. -/
theorem le_alignUp (hn : n ≤ 2 ^ 64 - 16) : n ≤ alignUp n alignment := by
  rw [alignUp_alignment_mod]
  omega

theorem alignUp_of_gt (hlt : n < 2 ^ 64) (hn : 2 ^ 64 - 16 < n) : alignUp n alignment = 0 := by
  rw [alignUp_alignment_mod]
  omega

theorem regionSize_zero : regionSize 0 = mmapThresholed := by decide

/-- A region that is mapped holds the block it is mapped for. -/
theorem sized_of_le (hdvd : 16 ∣ size) (hle : size ≤ 2 ^ 64 - 32) (hpos : regionSize size ≠ 0) :
    Sized size (regionSize size) := by
  rw [regionSize_mod] at hpos ⊢
  refine ⟨hdvd, Nat.dvd_trans (by decide : 16 ∣ 4096) (Nat.dvd_mul_right _ _), ?_, ?_⟩
  · rw [headerSize]
    omega
  · omega

theorem sized_zero : Sized 0 (regionSize 0) := by
  rw [regionSize_zero]
  exact ⟨by decide, by decide, by decide, by decide⟩

/-! ## What a result has to be -/

/-- The block of a pointer that is not null has at least `n` bytes, and it and its
header lie in one mapping. -/
def Enough (s' : State) (p n : Nat) : Prop :=
  p ≠ 0 → n ≤ sizeOf s'.mem (p - headerSize) ∧
    ∃ r ∈ s'.regions, r.lo ≤ p - headerSize ∧ p + n ≤ r.hi

theorem enough_null (s' : State) (n : Nat) : Enough s' 0 n := fun h => absurd rfl h

/-- A block of the list serves every request up to its size. -/
theorem Inv.enough (h : Inv s' (pre ++ b :: post) live) (hle : n ≤ b.size) :
    Enough s' (b.addr + headerSize) n := by
  intro _
  rw [Nat.add_sub_cancel, h.chain.header.1.size]
  obtain ⟨r, hr, hlo, hhi⟩ := h.geo.region (b := b) (by simp)
  refine ⟨hle, r, hr, hlo, Nat.le_trans ?_ hhi⟩
  exact Nat.add_le_add_left hle _

/-- What was split off for a request of `size` bytes. -/
theorem Inv.enough_split (h : Inv s' (pre ++ (splitL b size ++ post)) live) (hle : size ≤ b.size)
    (hn : n ≤ size) : Enough s' (b.addr + headerSize) n := by
  obtain ⟨c, rest, hsplit, hc, hsize⟩ := mem_splitL_head hle
  rw [hsplit, List.cons_append] at h
  rw [← hc]
  exact h.enough (Nat.le_trans hn hsize)

/-- A block split to nothing serves no large request. -/
theorem Inv.not_enough_split (h : Inv s' (pre ++ (splitL b 0 ++ post)) live)
    (hn : headerSize + alignment < n) : ¬ Enough s' (b.addr + headerSize) n := by
  intro henough
  have hsize := (henough (payload_ne_zero b.addr)).1
  rw [Nat.add_sub_cancel] at hsize
  rw [splitL] at h
  split at h
  case isTrue => 
    have hzero : sizeOf s'.mem b.addr = 0 := h.chain.header.1.size
    omega
  case isFalse hsmall =>
    have hb : sizeOf s'.mem b.addr = b.size := h.chain.header.1.size
    omega

theorem firstFree_eq_zero (haddr : ∀ b ∈ bs, b.addr ≠ 0) :
    firstFree size bs = 0 ↔ ∀ b ∈ bs, b.free = true → b.size < size := by
  induction bs with
  | nil => exact ⟨fun _ _ hb => absurd hb List.not_mem_nil, fun _ => rfl⟩
  | cons b bs ih =>
      have hrest := ih fun c hc => haddr c (List.mem_cons_of_mem _ hc)
      rw [firstFree, List.forall_mem_cons]
      split
      case isTrue hfit =>
        have hb : b.addr ≠ 0 := haddr b List.mem_cons_self
        exact ⟨fun hzero => absurd hzero hb,
          fun hall => absurd hfit.2 (Nat.not_le_of_lt (hall.1 hfit.1))⟩
      case isFalse hfit =>
        rw [hrest]
        exact ⟨fun hall => ⟨fun hb => Nat.lt_of_not_le fun hle => hfit ⟨hb, hle⟩, hall⟩, And.right⟩

/-! ## Every request -/

section Malloc
variable (h : Inv s bs live)
include h

/-- The rounded request has not wrapped, nor the region for it. -/
theorem myMalloc_enough (hpos : 0 < n) (hn : n ≤ 2 ^ 64 - 32)
    (hos : Mmap s (regionSize (alignUp n alignment)) os)
    (hzero : regionSize (alignUp n alignment) = 0 → os = none) :
    ∃ s' p, myMalloc s n os = some (s', p) ∧ Enough s' p n := by
  have hdvd := alignUp_dvd n
  have hle := le_alignUp (n := n) (by omega)
  have hmax : alignUp n alignment ≤ 2 ^ 64 - 32 := by
    rw [alignUp_alignment_mod]
    omega
  generalize hsize : alignUp n alignment = size at *
  by_cases hmiss : firstFree size bs = 0
  · cases os with
    | none => exact ⟨s, 0, myMalloc_none h (Nat.ne_of_gt hpos) hsize hmiss, enough_null s n⟩
    | some lo =>
        have hsized := sized_of_le hdvd hmax fun hz => Option.some_ne_none lo (hzero hz)
        obtain ⟨s', hcode, -, -, -, hinv⟩ :=
          myMalloc_new h (Nat.ne_of_gt hpos) hsize hmiss hsized hos
        refine ⟨s', _, hcode, ?_⟩
        rw [← List.append_nil (splitL _ _)] at hinv
        exact hinv.enough_split (b := ⟨lo, regionSize size - headerSize, false⟩)
          (Nat.le_sub_of_add_le' hsized.fits) hle
  · obtain ⟨pre, b, post, rfl, hb, hbs, -, hcode⟩ :=
      myMalloc_fit h (Nat.ne_of_gt hpos) hsize hmiss
    refine ⟨_, _, hcode os, ?_⟩
    exact (take_ok h hb hbs hdvd).enough_split (b := ⟨b.addr, b.size, false⟩) hbs hle

/-- The region for such a request is one page, as if nothing had been asked for. -/
theorem myMalloc_page (hlow : 2 ^ 64 - 32 < n) (hhigh : n ≤ 2 ^ 64 - 16)
    (hos : Mmap s (regionSize (alignUp n alignment)) (some lo)) :
    ∃ s' p, myMalloc s n (some lo) = some (s', p) ∧ ¬ Enough s' p n := by
  have hsize : alignUp n alignment = 2 ^ 64 - 16 := by
    rw [alignUp_alignment_mod]
    omega
  have hpage : regionSize (2 ^ 64 - 16) = regionSize 0 := by decide +kernel
  have hmiss : firstFree (2 ^ 64 - 16) bs = 0 := by
    refine (firstFree_eq_zero h.addr_ne_zero).mpr fun b hb _ => ?_
    have hb := h.geo.bound hb
    rw [headerSize] at hb
    omega
  generalize 2 ^ 64 - 16 = size at hsize hpage hmiss
  rw [hsize, hpage] at hos
  obtain ⟨s₁, hinit, hregions, hinv⟩ := initNewRegion_ok hos sized_zero h
  have hinit' : initNewRegion s size (some lo) = some (s₁, lo) := by
    rw [← hinit, initNewRegion, initNewRegion, hpage]
  refine ⟨(take s₁ lo size).1, lo + headerSize, ?_, ?_⟩
  · rw [myMalloc_eq h (by omega) hsize, if_neg (not_not.mpr hmiss), hinit', Option.bind_some]
    exact if_neg (Nat.ne_of_gt hos.1)
  · intro henough
    obtain ⟨-, r, hr, -, hhi⟩ := henough (payload_ne_zero lo)
    have hbound := (hinv.geo.regions.bound r hr).2
    have hlo := hos.1
    rw [headerSize] at hhi
    omega

/-- A request that has wrapped to 0 takes a block and splits it to nothing. -/
theorem myMalloc_nothing (hlt : n < 2 ^ 64) (hn : 2 ^ 64 - 16 < n)
    (hos : Mmap s (regionSize (alignUp n alignment)) os)
    (hsome : os ≠ none ∨ ∃ b ∈ bs, b.free = true) :
    ∃ s' p, myMalloc s n os = some (s', p) ∧ ¬ Enough s' p n := by
  have hsize := alignUp_of_gt hlt hn
  have hbig : headerSize + alignment < n := Nat.lt_trans (by decide) hn
  have hn0 : n ≠ 0 := Nat.ne_of_gt (Nat.lt_trans (by decide) hn)
  rw [hsize] at hos
  by_cases hmiss : firstFree 0 bs = 0
  · have hused := (firstFree_eq_zero h.addr_ne_zero).mp hmiss
    obtain ⟨lo, rfl⟩ : ∃ lo, os = some lo := by
      refine Option.ne_none_iff_exists'.mp (hsome.resolve_right ?_)
      rintro ⟨b, hb, hfree⟩
      exact Nat.not_lt_zero _ (hused b hb hfree)
    obtain ⟨s', hcode, -, -, -, hinv⟩ := myMalloc_new h hn0 hsize hmiss sized_zero hos
    refine ⟨s', _, hcode, ?_⟩
    rw [← List.append_nil (splitL _ _)] at hinv
    exact hinv.not_enough_split (b := ⟨lo, regionSize 0 - headerSize, false⟩) hbig
  · obtain ⟨pre, b, post, rfl, hb, -, -, hcode⟩ := myMalloc_fit h hn0 hsize hmiss
    refine ⟨_, _, hcode os, ?_⟩
    exact (take_ok h hb (Nat.zero_le _) (Nat.dvd_zero 16)).not_enough_split
      (b := ⟨b.addr, b.size, false⟩) hbig

end Malloc

/-- **How much `my_malloc` returns, exactly.**  `mmap` fails when it is asked for
nothing. -/
theorem myMalloc_enough_iff (h : Inv s bs live) (hpos : 0 < n) (hlt : n < 2 ^ 64)
    (hos : Mmap s (regionSize (alignUp n alignment)) os)
    (hzero : regionSize (alignUp n alignment) = 0 → os = none) :
    ∃ s' p, myMalloc s n os = some (s', p) ∧
      (Enough s' p n ↔ n ≤ 2 ^ 64 - 32 ∨
        os = none ∧ (n ≤ 2 ^ 64 - 16 ∨ ∀ b ∈ bs, b.free = false)) := by
  by_cases hsmall : n ≤ 2 ^ 64 - 32
  · obtain ⟨s', p, hcode, henough⟩ := myMalloc_enough h hpos hsmall hos hzero
    exact ⟨s', p, hcode, iff_of_true henough (.inl hsmall)⟩
  · by_cases hnull : os = none ∧ (n ≤ 2 ^ 64 - 16 ∨ ∀ b ∈ bs, b.free = false)
    · obtain ⟨rfl, hmax⟩ := hnull
      have hmiss : firstFree (alignUp n alignment) bs = 0 := by
        refine (firstFree_eq_zero h.addr_ne_zero).mpr fun b hb hfree => ?_
        rcases hmax with hle | hused
        · have hbound := h.geo.bound hb
          have hsize := le_alignUp hle
          rw [headerSize] at hbound
          omega
        · exact absurd ((hused b hb).symm.trans hfree) Bool.false_ne_true
      exact ⟨s, 0, myMalloc_none h (Nat.ne_of_gt hpos) rfl hmiss,
        iff_of_true (enough_null s n) (.inr ⟨rfl, hmax⟩)⟩
    · have hbad : ∃ s' p, myMalloc s n os = some (s', p) ∧ ¬ Enough s' p n := by
        by_cases hn : n ≤ 2 ^ 64 - 16
        · obtain ⟨lo, rfl⟩ : ∃ lo, os = some lo :=
            Option.ne_none_iff_exists'.mp fun hnone => hnull ⟨hnone, .inl hn⟩
          exact myMalloc_page h (Nat.lt_of_not_le hsmall) hn hos
        · refine myMalloc_nothing h hlt (Nat.lt_of_not_le hn) hos ?_
          by_contra hnot
          rw [not_or, not_not] at hnot
          refine hnull ⟨hnot.1, .inr fun b hb => ?_⟩
          exact Bool.eq_false_iff.mpr fun hfree => hnot.2 ⟨b, hb, hfree⟩
      obtain ⟨s', p, hcode, hnot⟩ := hbad
      exact ⟨s', p, hcode, iff_of_false hnot (not_or.mpr ⟨hsmall, hnull⟩)⟩

/-- `my_malloc(100)` and `my_malloc(SIZE_MAX)` on an empty list. -/
theorem myMalloc_enough_iff_empty :
    (∃ s' p, myMalloc (make fun _ => 0) 100 (some 0x10000) = some (s', p) ∧
      (Enough s' p 100 ↔ 100 ≤ 2 ^ 64 - 32 ∨ some 0x10000 = none ∧
        (100 ≤ 2 ^ 64 - 16 ∨ ∀ b ∈ ([] : List Blk), b.free = false))) ∧
    ∃ s' p, myMalloc (make fun _ => 0) (2 ^ 64 - 1) (some 0x10000) = some (s', p) ∧
      (Enough s' p (2 ^ 64 - 1) ↔ 2 ^ 64 - 1 ≤ 2 ^ 64 - 32 ∨ some 0x10000 = none ∧
        (2 ^ 64 - 1 ≤ 2 ^ 64 - 16 ∨ ∀ b ∈ ([] : List Blk), b.free = false)) :=
  ⟨myMalloc_enough_iff (inv_make _) (by decide) (by decide) (by decide +kernel) (by decide +kernel),
    myMalloc_enough_iff (inv_make _) (by decide) (by decide) (by decide +kernel)
      (by decide +kernel)⟩

/-- `my_malloc(SIZE_MAX)` returns a block of size 0. -/
theorem myMalloc_returns_nothing :
    ¬ ∀ (s : State) (bs : List Blk) (live : List Nat) (n : Nat) (os : Option Nat), Inv s bs live →
      0 < n → n < 2 ^ 64 → Mmap s (regionSize (alignUp n alignment)) os →
      (regionSize (alignUp n alignment) = 0 → os = none) →
      ∃ s' p, myMalloc s n os = some (s', p) ∧ Enough s' p n := by
  intro hall
  have hos : Mmap (make fun _ => 0) (regionSize (alignUp (2 ^ 64 - 1) alignment)) (some 0x10000) := by
    decide +kernel
  obtain ⟨s', p, hcode, henough⟩ := hall (make fun _ => 0) [] [] (2 ^ 64 - 1) (some 0x10000)
    (inv_make _) (by decide) (by decide) hos (by decide +kernel)
  obtain ⟨s₁, p₁, hcode₁, hnot⟩ := myMalloc_nothing (inv_make fun _ => 0) (by decide) (by decide)
    hos (.inl (Option.some_ne_none _))
  cases hcode.symm.trans hcode₁
  exact hnot henough

end CKernel.Malloc.Realloc
