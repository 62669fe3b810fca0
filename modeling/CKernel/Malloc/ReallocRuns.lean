/-
# `CKernel.Malloc.ReallocRuns` — runs of `my_malloc`, `my_free` and `my_realloc`

Two places of the code take a block's successor in the list for its neighbour in
memory: `coalesce`, and the in-place growth of `my_realloc`.  `Spared` says, from
the state before a call alone, that the call does neither across two regions and
that an in-place growth does not write over the link it is about to read.

    calls keep the list inside the mappings, when spared     (`step_good`)
    so does every run of spared calls                         (`blocks_stay_mapped`)
    two regions freed one after the other: not spared, and
      the first block then reaches beyond its mapping         (`coalesce_leaves_mapping`)
-/
import CKernel.Lib.Run
import CKernel.Malloc.ReallocHeap

namespace CKernel.Malloc.Realloc

open Run

/-! ## What the results say -/

/-- The blocks reachable from `g_heap_head` lie each in one mapping, header and
payload, and are pairwise disjoint. -/
def Mapped (s : State) : Prop :=
  ∃ bs, walk s.mem (fuel s) s.head = some bs ∧
    (∀ b ∈ bs, ∃ r ∈ s.regions, b.extent.Within r) ∧
    bs.Pairwise fun x y => x.extent.Apart y.extent

/-- The list with the block at `a` counted as used, and split for `needed` bytes
if that leaves enough. -/
def carve (a needed : Nat) (bs : List Blk) : List Blk :=
  bs.flatMap fun b => if b.addr = a then splitL { b with free := false } needed else [b]

/-- The list from `g_heap_head`. -/
def blocks (s : State) : List Blk := (walk s.mem (fuel s) s.head).getD []

/-- `block->next` as a block. -/
def blkAt (m : Mem) (a : Nat) : Blk := ⟨a, sizeOf m a, isFree m a⟩

/-- The condition on a `my_realloc` that has to find more room: where it grows in
place, and where it allocates, copies and frees. -/
def ReallocSpared (s : State) (block newSize : Nat) (os : Option Nat) : Prop :=
  (sizeOf s.mem block < newSize → canGrow s.mem block newSize = true →
    SameRegion s.regions (blkAt s.mem block) (blkAt s.mem (nextOf s.mem block)) ∧
      ¬ Clobbers (blkAt s.mem block) (blkAt s.mem (nextOf s.mem block)) newSize) ∧
  (sizeOf s.mem block < newSize → canGrow s.mem block newSize = false →
    if findFreeBlock s newSize = some 0 then
      os ≠ none → CoalesceSafe s.regions (mark block (blocks s))
    else ∀ found ∈ findFreeBlock s newSize,
      CoalesceSafe s.regions (mark block (carve found newSize (blocks s))))

/-- The condition on a call, in the state before it. -/
def Spared (s : State × List Nat) : Op → Prop
  | .malloc _ _ => True
  | .free ptr => ptr ≠ 0 → CoalesceSafe s.1.regions (mark (ptr - headerSize) (blocks s.1))
  | .realloc ptr size os => ptr ≠ 0 →
      if size = 0 then CoalesceSafe s.1.regions (mark (ptr - headerSize) (blocks s.1))
      else ReallocSpared s.1 (ptr - headerSize) (alignUp size alignment) os

variable {m : Mem} {rs : List Extent} {bs pre post : List Blk} {x y b : Blk} {s s' : State}
  {live : List Nat}

theorem Inv.blocks_eq (h : Inv s bs live) : blocks s = bs := by
  rw [blocks, h.walk_eq, Option.getD_some]

theorem Inv.mapped (h : Inv s bs live) : Mapped s := by
  refine ⟨bs, h.walk_eq, fun b hb => h.geo.region hb, ?_⟩
  exact List.pairwise_map.mp (h.geo.arranged.pairwise_apart h.geo.regions.apart)


/-! ### The conditions are decidable -/

instance (size : Nat) : Decidable (NoWrap size) := inferInstanceAs (Decidable (_ < _))

instance (s : State) (len : Nat) : (os : Option Nat) → Decidable (Mmap s len os)
  | none => isTrue trivial
  | some _ => inferInstanceAs (Decidable (_ ∧ _))

instance (s : State × List Nat) : (op : Op) → Decidable (Allowed s op)
  | .malloc _ _ => inferInstanceAs (Decidable (_ ∧ _))
  | .free _ => inferInstanceAs (Decidable (_ ∨ _))
  | .realloc _ _ _ => inferInstanceAs (Decidable (_ ∧ _))

instance (rs : List Extent) (x y : Blk) : Decidable (SameRegion rs x y) :=
  inferInstanceAs (Decidable (∃ r ∈ rs, x.extent.Within r ∧ y.extent.Within r))

instance (rs : List Extent) (bs : List Blk) : Decidable (CoalesceSafe rs bs) :=
  inferInstanceAs (Decidable (bs.IsChain _))

instance (s : State) (block newSize : Nat) (os : Option Nat) :
    Decidable (ReallocSpared s block newSize os) :=
  inferInstanceAs (Decidable (_ ∧ _))

instance (s : State × List Nat) : (op : Op) → Decidable (Spared s op)
  | .malloc _ _ => isTrue trivial
  | .free _ => inferInstanceAs (Decidable (_ → _))
  | .realloc _ _ _ => inferInstanceAs (Decidable (_ → _))

/-! ## In-place growth -/

theorem used_growL {newSize : Nat} (hy : y.free = true) :
    used (growL x y newSize) = used [x, y] := by
  have hhead : used [x, y] = used [⟨x.addr, newSize, x.free⟩] := by
    cases hx : x.free with
    | true => rw [used_cons_free hx, used_cons_free hy, used_cons_free rfl]
    | false =>
        rw [used_cons_used hx, used_cons_free hy, used_cons_used rfl]
        rfl
  rw [hhead, growL]
  split
  · rw [← List.singleton_append, used_append]
    exact List.append_nil _
  · rfl

theorem Geo.grow {newSize : Nat} (h : Geo rs (pre ++ x :: y :: post)) (hsame : SameRegion rs x y)
    (hnew : 16 ∣ newSize) (hle : newSize ≤ x.size + headerSize + y.size) :
    Geo rs (pre ++ (growL x y newSize ++ post)) := by
  obtain ⟨r, hr, hxr, hyr⟩ := hsame
  obtain ⟨hxa, hxs⟩ := h.aligned x (by simp)
  obtain ⟨hya, hys⟩ := h.aligned y (by simp)
  have hxy := h.le_of_two hr hxr hyr
  have h32 : headerSize = 32 := rfl
  have hfst : (⟨x.addr, newSize, x.free⟩ : Blk).extent.Within
      ⟨x.addr, y.addr + headerSize + y.size⟩ := by
    refine ⟨Nat.le_refl _, ?_⟩
    show x.addr + headerSize + newSize ≤ y.addr + headerSize + y.size
    omega
  have hgeo : Geo rs (pre ++ ([x, y] ++ post)) := h
  rw [growL]
  split
  case isTrue hbig =>
    refine hgeo.replace (h.hull_two hr hxr hyr) ?_ (List.pairwise_pair.mpr (Nat.le_refl _))
    intro z hz
    rcases List.mem_cons.mp hz with rfl | hz
    · exact ⟨hfst, hxa, hnew⟩
    · obtain rfl := List.mem_singleton.mp hz
      refine ⟨⟨?_, ?_⟩, ?_, ?_⟩
      · show x.addr ≤ x.addr + headerSize + newSize
        omega
      · show x.addr + headerSize + newSize + headerSize +
          (x.size + headerSize + y.size - newSize - headerSize) ≤ y.addr + headerSize + y.size
        omega
      · show 16 ∣ x.addr + headerSize + newSize
        omega
      · show 16 ∣ x.size + headerSize + y.size - newSize - headerSize
        omega
  case isFalse =>
    refine hgeo.replace (h.hull_two hr hxr hyr) ?_ (List.pairwise_singleton _ _)
    intro z hz
    obtain rfl := List.mem_singleton.mp hz
    exact ⟨hfst, hxa, hnew⟩

theorem HeaderAt.blkAt_eq (h : HeaderAt m b) : blkAt m b.addr = b := by
  rw [blkAt, h.size, h.free]

/-- A block that can grow has a free successor. -/
theorem Chain.successor {newSize : Nat} (h : Chain m 0 (pre ++ x :: post))
    (hgrow : canGrow m x.addr newSize = true) :
    ∃ y rest, post = y :: rest ∧ y.free = true ∧ newSize ≤ combined m x.addr ∧
      blkAt m x.addr = x ∧ blkAt m (nextOf m x.addr) = y := by
  obtain ⟨hx, hnext⟩ := h.header
  rw [canGrow, Bool.and_eq_true, Bool.and_eq_true, bne_iff_ne, decide_eq_true_iff] at hgrow
  obtain ⟨⟨hne, hfree⟩, hle⟩ := hgrow
  cases post with
  | nil => exact absurd hnext hne
  | cons y rest =>
      have hy := (chain_append.mp h).2.2.2.1
      have hnext' : nextOf m x.addr = y.addr := hnext
      rw [hnext', hy.free] at hfree
      rw [hnext']
      exact ⟨y, rest, rfl, hfree, hle, hx.blkAt_eq, hy.blkAt_eq⟩

theorem grow_inv {newSize : Nat} (h : Inv s (pre ++ x :: y :: post) live) (hy : y.free = true)
    (hlt : x.size < newSize) (hle : newSize ≤ combined s.mem x.addr) (hnew : 16 ∣ newSize)
    (hsame : SameRegion s.regions x y) (hgood : ¬ Clobbers x y newSize) :
    Inv { s with mem := grow s.mem x.addr newSize } (pre ++ (growL x y newSize ++ post)) live := by
  have hpost : Geo s.regions ((pre ++ [x, y]) ++ post) := by simpa using h.geo
  obtain ⟨hxa, -⟩ := h.geo.aligned x (by simp)
  obtain ⟨hya, -⟩ := h.geo.aligned y (by simp)
  have hend := (h.geo.bound (b := y) (by simp)).2
  obtain ⟨r, hr, hxr, hyr⟩ := id hsame
  have hxy := h.geo.le_of_two hr hxr hyr
  have hrest := (show Geo s.regions (pre ++ ([x, y] ++ post)) from h.geo).off
    (h.geo.hull_two hr hxr hyr)
  rw [combined_eq h.chain hxy hend] at hle
  refine ⟨?_, ?_, h.geo.grow hsame hnew hle, ?_⟩
  · have hhead := h.head
    rw [headPtr_append] at hhead ⊢
    rw [headPtr_append, headPtr_growL]
    exact hhead
  · refine (grow_ok h.chain hxy hend hlt hle hpost.headPtr_lt (fun hbig => ?_) hrest).1
    -- 16-byte alignment leaves one way to overlap, the one excluded
    have hne : x.addr + headerSize + newSize ≠ y.addr + 16 := fun heq => hgood ⟨heq, hbig⟩
    rw [headerSize] at hne ⊢
    omega
  · have hlive := h.live
    rw [used_append] at hlive
    rw [used_append, used_append, used_growL hy, ← used_append]
    exact hlive

/-! ## The remaining case: allocate, copy, free -/

theorem mem_splitL_head {needed : Nat} (hle : needed ≤ b.size) :
    ∃ c rest, splitL b needed = c :: rest ∧ c.addr = b.addr ∧ needed ≤ c.size := by
  rw [splitL]
  split
  · exact ⟨_, _, rfl, rfl, Nat.le_refl _⟩
  · exact ⟨_, _, rfl, rfl, hle⟩

theorem payload_ne_zero (a : Nat) : a + headerSize ≠ 0 := by
  rw [headerSize]
  omega

/-- A copy into the payload of a block leaves the headers alone. -/
theorem copy_inv {src n : Nat} (h : Inv s (pre ++ b :: post) live) (hle : n ≤ b.size) :
    Inv { s with mem := s.mem.copy (b.addr + headerSize) src n } (pre ++ b :: post) live := by
  obtain ⟨r, hr, hbr⟩ := h.geo.region (b := b) (by simp)
  have hoff := (show Geo s.regions (pre ++ ([b] ++ post)) from h.geo).off (h.geo.hull_one hr hbr)
  refine ⟨h.head, h.chain.congr fun c hc => ?_, h.geo, h.live⟩
  refine sameHeader_of_eqOff Mem.eqOff_copy ?_
  have hc' : c = b ∨ c ∈ pre ++ post := by
    simp only [List.mem_append, List.mem_cons] at hc ⊢
    tauto
  rcases hc' with rfl | hc'
  · exact .inl (Nat.le_refl _)
  · rcases hoff c hc' with hlo | hhi
    · exact .inl (Nat.le_trans hlo (Nat.le_add_right _ _))
    · exact .inr (Nat.le_trans (Nat.add_le_add_left hle _) hhi)

theorem carve_eq {needed : Nat} (h : Geo rs (pre ++ b :: post)) :
    carve b.addr needed (pre ++ b :: post) =
      pre ++ (splitL ⟨b.addr, b.size, false⟩ needed ++ post) := by
  have hne := h.addr_ne
  have hself : ∀ bs : List Blk, (∀ c ∈ bs, c.addr ≠ b.addr) → carve b.addr needed bs = bs := by
    intro bs hbs
    have heach : ∀ c ∈ bs,
        (if c.addr = b.addr then splitL { c with free := false } needed else [c]) = [c] :=
      fun c hc => if_neg (hbs c hc)
    rw [carve, List.flatMap_congr heach, List.flatMap_singleton']
  have hpre := hself pre fun c hc => hne c (List.mem_append_left _ hc)
  have hpost := hself post fun c hc => hne c (List.mem_append_right _ hc)
  rw [carve] at hpre hpost
  rw [carve, List.flatMap_append, List.flatMap_cons, if_pos rfl, hpre, hpost]

theorem SameRegion.mono {rs' : List Extent} (h : SameRegion rs x y) (hsub : rs ⊆ rs') :
    SameRegion rs' x y := by
  obtain ⟨r, hr, hxr, hyr⟩ := h
  exact ⟨r, hsub hr, hxr, hyr⟩

/-- A used block and its remainder behind the list make no merge possible. -/
theorem CoalesceSafe.append_splitL {rs' : List Extent} (h : CoalesceSafe rs bs) (needed : Nat)
    (hsub : rs ⊆ rs') (hb : b.free = false) : CoalesceSafe rs' (bs ++ splitL b needed) := by
  have hused : ∀ {c : Blk} {size : Nat},
      (⟨b.addr, size, b.free⟩ : Blk).free = true → c.free = true →
        SameRegion rs' ⟨b.addr, size, b.free⟩ c :=
    fun hfree => absurd (hb.symm.trans hfree) Bool.false_ne_true
  refine List.IsChain.append (h.imp fun x y hxy hx hy => (hxy hx hy).mono hsub) ?_ ?_
  · rw [splitL]
    split
    · exact List.isChain_pair.mpr hused
    · exact List.isChain_singleton _
  · intro x _ y hy _ hfree
    rw [splitL] at hy
    split at hy
    · obtain rfl := Option.mem_some_iff.mp hy
      exact absurd (hb.symm.trans hfree) Bool.false_ne_true
    · obtain rfl := Option.mem_some_iff.mp hy
      exact absurd (hb.symm.trans hfree) Bool.false_ne_true

theorem erase_cons_perm {ptr ret : Nat} (h : ptr ∈ live) :
    ((ret :: live).erase ptr).Perm (ret :: live.erase ptr) := by
  by_cases heq : ret = ptr
  · rw [heq, List.erase_cons_head]
    exact List.perm_cons_erase h
  · rw [List.erase_cons_tail (by simpa using heq)]

theorem Inv.perm {live' : List Nat} (h : Inv s bs live) (hperm : live'.Perm live) :
    Inv s bs live' :=
  ⟨h.head, h.chain, h.geo, hperm.trans h.live⟩

/-- The copy and the `my_free` that follow a successful `my_malloc`. -/
theorem copy_free_ok {ptr n : Nat} (h : Inv s (pre ++ b :: post) ((b.addr + headerSize) :: live))
    (hptr : ptr ∈ live) (hle : n ≤ b.size)
    (hsafe : CoalesceSafe s.regions (mark (ptr - headerSize) (pre ++ b :: post))) :
    ∃ s' bs', myFree { s with mem := s.mem.copy (b.addr + headerSize) ptr n } ptr = some s' ∧
      Inv s' bs' ((b.addr + headerSize) :: live.erase ptr) := by
  obtain ⟨s', bs', hfree, hinv⟩ :=
    myFree_ok (copy_inv h hle) (List.mem_cons_of_mem _ hptr) hsafe
  exact ⟨s', bs', hfree, hinv.perm (erase_cons_perm hptr).symm⟩

section Move
variable {ptr newSize : Nat} {os : Option Nat} (h : Inv s bs live) (hptr : ptr ∈ live)
include h hptr

/-- The block found by `my_malloc` is in the list. -/
theorem copy_free_fit {ret n : Nat} (hfit : TakesFit s s' bs live newSize ret) (hle : n ≤ newSize)
    (hsafe : ∀ found ≠ 0, findFreeBlock s newSize = some found →
      CoalesceSafe s.regions (mark (ptr - headerSize) (carve found newSize bs))) :
    ret ≠ 0 ∧ ∃ s₁ bs₁, myFree { s' with mem := s'.mem.copy ret ptr n } ptr = some s₁ ∧
      Inv s₁ bs₁ (ret :: live.erase ptr) := by
  obtain ⟨⟨pre, b, post, rfl, hb, rfl, hfound, hinv⟩, hregions⟩ := hfit
  have hsafe' := hsafe b.addr (Nat.ne_of_gt (h.geo.bound (b := b) (by simp)).1) hfound
  rw [carve_eq h.geo, ← hregions] at hsafe'
  obtain ⟨c, rest, hsplit, hc, hcle⟩ := mem_splitL_head (b := ⟨b.addr, b.size, false⟩) hb
  have hc' : c.addr = b.addr := hc
  rw [hsplit, List.cons_append] at hinv hsafe'
  rw [← hc'] at hinv ⊢
  refine ⟨payload_ne_zero c.addr, ?_⟩
  exact copy_free_ok hinv hptr (Nat.le_trans hle hcle) hsafe'

/-- The block comes from a new region, behind the list. -/
theorem copy_free_new {lo ret n : Nat} (hnew : TakesNew s s' bs live newSize lo ret)
    (hsize : Sized newSize (regionSize newSize)) (hle : n ≤ newSize)
    (hsafe : CoalesceSafe s.regions (mark (ptr - headerSize) bs)) :
    ret ≠ 0 ∧ ∃ s₁ bs₁, myFree { s' with mem := s'.mem.copy ret ptr n } ptr = some s₁ ∧
      Inv s₁ bs₁ (ret :: live.erase ptr) := by
  obtain ⟨-, rfl, hregions, hinv⟩ := hnew
  obtain ⟨pre, x, post, rfl, -, rfl⟩ := exists_of_mem_used (h.live.mem_iff.mp hptr)
  have hsub : s.regions ⊆ s'.regions := by
    rw [hregions]
    exact List.subset_append_left _ _
  have hgeo := hinv.geo
  have hsafe' := hsafe
  rw [Nat.add_sub_cancel, mark_eq h.geo] at hsafe'
  have hmarked := hsafe'.append_splitL (b := ⟨lo, regionSize newSize - headerSize, false⟩) newSize
    hsub rfl
  rw [List.append_assoc, List.cons_append] at hgeo hmarked hinv
  rw [← mark_eq hgeo] at hmarked
  have hfits : newSize ≤ regionSize newSize - headerSize := Nat.le_sub_of_add_le' hsize.fits
  obtain ⟨c, rest, hsplit, hc, hcle⟩ :=
    mem_splitL_head (b := ⟨lo, regionSize newSize - headerSize, false⟩) hfits
  have hc' : c.addr = lo := hc
  rw [hsplit, ← List.cons_append, ← List.append_assoc] at hinv hmarked
  rw [← hc'] at hinv ⊢
  refine ⟨payload_ne_zero c.addr, ?_⟩
  refine copy_free_ok hinv hptr (Nat.le_trans hle hcle) ?_
  rwa [Nat.add_sub_cancel]

end Move

/-! ## `my_realloc` -/

theorem alignUp_ne_zero {n : Nat} (h : NoWrap n) (hn : n ≠ 0) : alignUp n alignment ≠ 0 := by
  rw [alignUp_alignment h]
  omega

/-- A pointer that stays where it is. -/
theorem relive_self {ptr : Nat} (h : ptr ∈ live) (hne : ptr ≠ 0) :
    (relive live ptr ptr).Perm live := by
  rw [relive, if_neg hne]
  exact (List.perm_cons_erase h).symm

theorem split_inv {needed : Nat} (h : Inv s (pre ++ b :: post) live) (hle : needed ≤ b.size)
    (hneeded : 16 ∣ needed) :
    Inv { s with mem := splitBlock s.mem b.addr needed } (pre ++ (splitL b needed ++ post)) live := by
  refine ⟨?_, split_ok h.chain h.geo hle, h.geo.split hneeded, ?_⟩
  · have hhead := h.head
    rw [headPtr_append] at hhead ⊢
    rw [headPtr_append, headPtr_splitL]
    exact hhead
  · have hlive := h.live
    rw [used_append] at hlive
    rw [used_append, used_append, used_splitL, ← used_append]
    exact hlive

section Realloc
variable {ptr n : Nat} {os : Option Nat} (h : Inv s bs live) (hptr : ptr ∈ live) (hn : n ≠ 0)
  (hwrap : NoWrap n) (hos : Mmap s (regionSize (alignUp n alignment)) os)
include h hptr hn hwrap hos

/-- The last case of `my_realloc`: the block cannot stay. -/
theorem move_ok (hlt : sizeOf s.mem (ptr - headerSize) < alignUp n alignment)
    (hgrow : canGrow s.mem (ptr - headerSize) (alignUp n alignment) = false)
    (hspared : ReallocSpared s (ptr - headerSize) (alignUp n alignment) os) :
    ∃ s' ret bs', (myMalloc s (alignUp n alignment) os).bind (fun r =>
        if r.2 = 0 then some (r.1, 0)
        else (myFree { r.1 with mem := r.1.mem.copy r.2 ptr (sizeOf s.mem (ptr - headerSize)) }
          ptr).bind fun s' => some (s', r.2)) = some (s', ret) ∧
      Inv s' bs' (relive live ptr ret) := by
  obtain ⟨s₁, ret, hmalloc, hcases⟩ :=
    myMalloc_ok h (alignUp_ne_zero hwrap hn) (alignUp_alignUp hwrap) hwrap.sized hos
  have hcond := hspared.2 hlt hgrow
  rw [h.blocks_eq] at hcond
  rw [hmalloc, Option.bind_some]
  rcases hcases with hfit | ⟨lo, rfl, hnew⟩ | ⟨rfl, rfl⟩
  · have hsafe : ∀ found ≠ 0, findFreeBlock s (alignUp n alignment) = some found →
        CoalesceSafe s.regions (mark (ptr - headerSize) (carve found (alignUp n alignment) bs)) := by
      intro found hne hfound
      rw [hfound, if_neg fun heq => hne (Option.some.inj heq)] at hcond
      exact hcond found rfl
    obtain ⟨hne, s', bs', hfree, hinv⟩ := copy_free_fit h hptr hfit (Nat.le_of_lt hlt) hsafe
    refine ⟨s', ret, bs', ?_, ?_⟩
    · rw [if_neg hne, hfree]
      rfl
    · rwa [relive, if_neg hne]
  · rw [if_pos hnew.miss] at hcond
    obtain ⟨hne, s', bs', hfree, hinv⟩ :=
      copy_free_new h hptr hnew hwrap.sized (Nat.le_of_lt hlt) (hcond (Option.some_ne_none lo))
    refine ⟨s', ret, bs', ?_, ?_⟩
    · rw [if_neg hne, hfree]
      rfl
    · rwa [relive, if_neg hne]
  · exact ⟨s₁, 0, bs, rfl, h⟩

theorem myRealloc_ok
    (hspared : ReallocSpared s (ptr - headerSize) (alignUp n alignment) os) :
    ∃ s' ret bs', myRealloc s ptr n os = some (s', ret) ∧ Inv s' bs' (relive live ptr ret) := by
  obtain ⟨pre, b, post, rfl, -, rfl⟩ := exists_of_mem_used (h.live.mem_iff.mp hptr)
  have hne := payload_ne_zero b.addr
  have hmove := move_ok h hptr hn hwrap hos
  rw [Nat.add_sub_cancel] at hspared hmove
  simp only [myRealloc]
  rw [if_neg hn, if_neg hne, Nat.add_sub_cancel]
  have hsize : sizeOf s.mem b.addr = b.size := h.chain.header.1.size
  by_cases hshrink : alignUp n alignment ≤ sizeOf s.mem b.addr
  · rw [if_pos hshrink]
    rw [hsize] at hshrink
    refine ⟨_, _, _, rfl, (split_inv h hshrink hwrap.sized.aligned).perm (relive_self hptr hne)⟩
  · have hlt : sizeOf s.mem b.addr < alignUp n alignment := Nat.lt_of_not_le hshrink
    rw [if_neg hshrink]
    cases hgrow : canGrow s.mem b.addr (alignUp n alignment) with
    | true =>
        obtain ⟨y, rest, rfl, hy, hle, hb, hnext⟩ := h.chain.successor hgrow
        obtain ⟨hsame, hgood⟩ := hspared.1 hlt hgrow
        rw [hb, hnext] at hsame hgood
        rw [hsize] at hlt
        rw [if_pos rfl]
        have hinv := grow_inv h hy hlt hle hwrap.sized.aligned hsame hgood
        exact ⟨_, _, _, rfl, hinv.perm (relive_self hptr hne)⟩
    | false =>
        rw [if_neg Bool.false_ne_true]
        exact hmove hlt hgrow hspared

end Realloc

/-! ## Runs -/

/-- The invariant, with the list left open. -/
def Good (s : State × List Nat) : Prop := ∃ bs, Inv s.1 bs s.2

theorem inv_make (m : Mem) : Inv (make m) [] [] :=
  ⟨rfl, trivial, ⟨⟨List.Pairwise.nil, fun _ h => absurd h List.not_mem_nil⟩,
    arranged_nil [], fun _ h => absurd h List.not_mem_nil⟩, List.Perm.refl _⟩

theorem good_make (m : Mem) : Good (make m, []) := ⟨[], inv_make m⟩

/-- Null is never live. -/
theorem Inv.erase_zero (h : Inv s bs live) : live.erase 0 = live := by
  refine List.erase_of_not_mem fun hmem => ?_
  obtain ⟨pre, b, post, -, -, hzero⟩ := exists_of_mem_used (h.live.mem_iff.mp hmem)
  exact payload_ne_zero b.addr hzero.symm

theorem Inv.relive_zero {ret : Nat} (h : Inv s bs live) (hne : ret ≠ 0) :
    relive live 0 ret = ret :: live := by
  rw [relive, if_neg hne, h.erase_zero]

theorem malloc_good {s : State × List Nat} {n : Nat} {os : Option Nat} (h : Good s)
    (hwrap : NoWrap n) (hos : Mmap s.1 (regionSize (alignUp n alignment)) os) :
    ∃ r, myMalloc s.1 n os = some r ∧ Good (r.1, relive s.2 0 r.2) := by
  obtain ⟨bs, h⟩ := h
  by_cases hn : n = 0
  · exact ⟨(s.1, 0), if_pos hn, bs, h⟩
  · obtain ⟨s', ret, hmalloc, hcases⟩ := myMalloc_ok h hn rfl hwrap.sized hos
    refine ⟨(s', ret), hmalloc, ?_⟩
    rcases hcases with hfit | ⟨lo, -, hnew⟩ | ⟨rfl, rfl⟩
    · obtain ⟨⟨pre, b, post, rfl, -, rfl, -, hinv⟩, -⟩ := hfit
      rw [h.relive_zero (payload_ne_zero b.addr)]
      exact ⟨_, hinv⟩
    · obtain ⟨-, rfl, -, hinv⟩ := hnew
      rw [h.relive_zero (payload_ne_zero lo)]
      exact ⟨_, hinv⟩
    · exact ⟨bs, h⟩

theorem free_good {s : State × List Nat} {ptr : Nat} (h : Good s) (hptr : ptr = 0 ∨ ptr ∈ s.2)
    (hsafe : ptr ≠ 0 → CoalesceSafe s.1.regions (mark (ptr - headerSize) (blocks s.1))) :
    ∃ s', myFree s.1 ptr = some s' ∧ Good (s', s.2.erase ptr) := by
  obtain ⟨bs, h⟩ := h
  by_cases hnull : ptr = 0
  · refine ⟨s.1, if_pos hnull, bs, ?_⟩
    rwa [hnull, h.erase_zero]
  · have hsafe' := hsafe hnull
    rw [h.blocks_eq] at hsafe'
    obtain ⟨s', bs', hfree, hinv⟩ := myFree_ok h (hptr.resolve_left hnull) hsafe'
    exact ⟨s', hfree, bs', hinv⟩

theorem realloc_good {s : State × List Nat} {ptr size : Nat} {os : Option Nat} (h : Good s)
    (hallowed : Allowed s (.realloc ptr size os)) (hspared : Spared s (.realloc ptr size os)) :
    ∃ r, myRealloc s.1 ptr size os = some r ∧
      Good (r.1, if size = 0 then s.2.erase ptr else relive s.2 ptr r.2) := by
  obtain ⟨hwrap, hos, hptr⟩ := hallowed
  by_cases hsize : size = 0
  · have hsafe : ptr ≠ 0 → CoalesceSafe s.1.regions (mark (ptr - headerSize) (blocks s.1)) := by
      intro hne
      have hsafe := hspared hne
      rwa [if_pos hsize] at hsafe
    obtain ⟨s', hfree, hgood⟩ := free_good h hptr hsafe
    refine ⟨(s', 0), ?_, ?_⟩
    · rw [myRealloc, if_pos hsize, hfree]
      rfl
    · rwa [if_pos hsize]
  · by_cases hnull : ptr = 0
    · obtain ⟨r, hmalloc, hgood⟩ := malloc_good h hwrap hos
      refine ⟨r, ?_, ?_⟩
      · rw [myRealloc, if_neg hsize, if_pos hnull, hmalloc]
      · rwa [if_neg hsize, hnull]
    · obtain ⟨bs, h⟩ := h
      have hmove := hspared hnull
      rw [if_neg hsize] at hmove
      obtain ⟨s', ret, bs', hrealloc, hinv⟩ :=
        myRealloc_ok h (hptr.resolve_left hnull) hsize hwrap hos hmove
      refine ⟨(s', ret), hrealloc, bs', ?_⟩
      rwa [if_neg hsize]

theorem step_good (s : State × List Nat) (op : Op) (h : Good s)
    (hop : Allowed s op ∧ Spared s op) : ∃ s', step s op = some s' ∧ Good s' := by
  obtain ⟨hallowed, hspared⟩ := hop
  cases op with
  | malloc size os =>
      obtain ⟨r, hmalloc, hgood⟩ := malloc_good h hallowed.1 hallowed.2
      exact ⟨_, by rw [step, hmalloc]; rfl, hgood⟩
  | free ptr =>
      obtain ⟨s', hfree, hgood⟩ := free_good h hallowed hspared
      exact ⟨_, by rw [step, hfree]; rfl, hgood⟩
  | realloc ptr size os =>
      obtain ⟨r, hrealloc, hgood⟩ := realloc_good h hallowed hspared
      exact ⟨_, by rw [step, hrealloc]; rfl, hgood⟩

/-- Along a run of allowed and spared calls every call returns, and in the state
after it the blocks of the list lie in the mappings, pairwise disjoint. -/
theorem blocks_stay_mapped (m : Mem) (ops : List Op)
    (hops : Along step (fun s op => Allowed s op ∧ Spared s op) (make m, []) ops) :
    ∃ s, run step (make m, []) ops = some s ∧ Mapped s.1 := by
  obtain ⟨s, hrun, bs, h⟩ := run_invariant step_good ops (good_make m) hops
  exact ⟨s, hrun, h.mapped⟩

/-- Two blocks of one region, the first freed and taken again in part, the second
grown where it is, the first moved behind it; then a second region, lower in memory
and later in the list. -/
def oneRegionFirst : List Op :=
  [.malloc 100 (some 0x10000), .malloc 50 none, .free 0x10020, .malloc 16 none,
    .realloc 0x100b0 200 none, .realloc 0x10020 200 none, .malloc 5000 (some 0x8000)]

theorem blocks_stay_mapped_main :
    Along step (fun s op => Allowed s op ∧ Spared s op) (make fun _ => 0, []) oneRegionFirst ∧
      ∃ s, run step (make fun _ => 0, []) oneRegionFirst = some s ∧ Mapped s.1 :=
  ⟨by decide +kernel, blocks_stay_mapped _ _ (by decide +kernel)⟩

/-! ## Two regions freed one after the other -/

def twoRegions : List Op :=
  [.malloc 4064 (some 0x10000), .malloc 4064 (some 0x20000), .free 0x10020, .free 0x20020]

/-- The second `my_free` merges the only blocks of two mappings: the first then
claims 8160 bytes of a mapping of 4096. -/
theorem coalesce_leaves_mapping :
    ¬ ∀ (m : Mem) (ops : List Op), Along step Allowed (make m, []) ops →
      ∃ s, run step (make m, []) ops = some s ∧ Mapped s.1 := by
  intro hall
  obtain ⟨s, hrun, bs, hwalk, hwithin, -⟩ := hall (fun _ => 0) twoRegions (by decide +kernel)
  have hblocks : (run step (make fun _ => 0, []) twoRegions).bind (fun s =>
      walk s.1.mem (fuel s.1) s.1.head) = some [⟨0x10000, 8160, true⟩] := by decide +kernel
  have hregions : (run step (make fun _ => 0, []) twoRegions).map (fun s => s.1.regions) =
      some [⟨0x10000, 0x11000⟩, ⟨0x20000, 0x21000⟩] := by decide +kernel
  rw [hrun, Option.bind_some, hwalk] at hblocks
  rw [hrun, Option.map_some] at hregions
  obtain rfl := Option.some.inj hblocks
  obtain ⟨r, hr, hlo, hhi⟩ := hwithin _ List.mem_cons_self
  rw [Option.some.inj hregions] at hr
  simp only [Blk.extent, headerSize] at hlo hhi
  rcases List.mem_pair.mp hr with rfl | rfl
  · simp at hhi
  · simp at hlo

end CKernel.Malloc.Realloc
