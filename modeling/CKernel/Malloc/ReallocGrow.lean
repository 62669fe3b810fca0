/-
# `CKernel.Malloc.ReallocGrow` — the block list after in-place growth

`my_realloc` grows a block into the free one behind it by writing the header of
what remains before it reads the `next` field of the block that disappears.  When
the block grows by 16 bytes the two lie over each other: the remainder's `size`
is stored where that `next` is, and is then read as the pointer to the rest of the
list.

    grown by 16, with a remainder ⟹ the remainder's `next` is a size (`grow_clobbers`)
    the list is intact ⟺ not grown by 16 with a remainder         (`myRealloc_grows_iff`)
-/
import CKernel.Lib.Run
import CKernel.Malloc.ReallocHeap

namespace CKernel.Malloc.Realloc

open Run

/-! ## A heap in one region -/

/-- The list `bs` from `g_heap_head` runs through the region `[lo, hi)`, each block
where the one before it ends. -/
structure OneRegion (s : State) (lo hi : Nat) (bs : List Blk) : Prop where
  head : s.head = headPtr 0 bs
  chain : Chain s.mem 0 bs
  tiles : Tiles lo (bs.map Blk.extent) hi
  sizes : ∀ b ∈ bs, 16 ∣ b.size
  bound : hi ≤ 2 ^ 64

instance (m : Mem) (b : Blk) : Decidable (HeaderAt m b) :=
  decidable_of_iff (b.addr ≠ 0 ∧ sizeOf m b.addr = b.size ∧ isFree m b.addr = b.free)
    ⟨fun h => ⟨h.1, h.2.1, h.2.2⟩, fun h => ⟨h.addr, h.size, h.free⟩⟩

instance decidableChain (m : Mem) (q : Nat) : (bs : List Blk) → Decidable (Chain m q bs)
  | [] => isTrue trivial
  | _ :: bs =>
      have := decidableChain m q bs
      inferInstanceAs (Decidable (_ ∧ _ ∧ _))

variable {m : Mem} {s : State} {q lo hi newSize : Nat} {x y b : Blk} {bs pre post : List Blk}

theorem proper_of_mem_extents {i : Extent} (hi : i ∈ bs.map Blk.extent) : i.Proper := by
  obtain ⟨b, -, rfl⟩ := List.mem_map.mp hi
  show b.addr < b.addr + headerSize + b.size
  rw [headerSize]
  omega

section Tiles
variable (h : Tiles lo (bs.map Blk.extent) hi)
include h

/-- Tiling blocks come in address order, whole blocks at a time. -/
theorem tiles_order : bs.Pairwise fun a b => a.addr + headerSize + a.size ≤ b.addr :=
  List.pairwise_map.mp (h.pairwise fun _ => proper_of_mem_extents)

theorem tiles_within (hb : b ∈ bs) : b.addr + headerSize + b.size ≤ hi :=
  (h.within (fun _ => proper_of_mem_extents) _ (List.mem_map_of_mem hb)).2

end Tiles

/-- The blocks on both sides of one. -/
theorem tiles_around {x : Blk} {pre post : List Blk}
    (h : Tiles lo ((pre ++ x :: post).map Blk.extent) hi) :
    (∀ b ∈ pre, b.addr + headerSize + b.size ≤ x.addr) ∧
      ∀ b ∈ post, x.addr + headerSize + x.size ≤ b.addr := by
  obtain ⟨-, hrest, hcross⟩ := List.pairwise_append.mp (tiles_order h)
  exact ⟨fun b hb => hcross b hb x List.mem_cons_self, (List.pairwise_cons.mp hrest).1⟩

section TilesTwo
variable (h : Tiles lo ((pre ++ x :: y :: post).map Blk.extent) hi)
include h

/-- The next block of the list is the next one in memory. -/
theorem tiles_next : y.addr = x.addr + headerSize + x.size := by
  rw [List.map_append] at h
  obtain ⟨_, -, -, hy, -⟩ := tiles_append.mp h
  exact hy

/-- The blocks on both sides of two neighbours. -/
theorem tiles_sides : (∀ b ∈ pre, b.addr + headerSize + b.size ≤ x.addr) ∧
    ∀ b ∈ post, y.addr + headerSize + y.size ≤ b.addr := by
  refine ⟨(tiles_around h).1, fun b hb => ?_⟩
  have hsplit : Tiles lo (((pre ++ [x]) ++ y :: post).map Blk.extent) hi := by simpa using h
  exact (tiles_around hsplit).2 b hb

end TilesTwo

theorem OneRegion.within (h : OneRegion s lo hi bs) (hb : b ∈ bs) :
    b.addr + headerSize + b.size ≤ 2 ^ 64 :=
  Nat.le_trans (tiles_within h.tiles hb) h.bound

theorem OneRegion.headPtr_lt (h : OneRegion s lo hi (pre ++ post)) : headPtr 0 post < 2 ^ 64 := by
  cases post with
  | nil => exact Nat.two_pow_pos 64
  | cons b post =>
      have hb := h.within (b := b) (by simp)
      show b.addr < 2 ^ 64
      rw [headerSize] at hb
      omega

/-! ## The overlap -/

/-- The remainder of `x` and `y` behind `x` grown to `newSize`. -/
def remainder (x y : Blk) (newSize : Nat) : Blk :=
  ⟨x.addr + headerSize + newSize, x.size + headerSize + y.size - newSize - headerSize, true⟩

/-- The remainder's size is stored over the `next` field of `y`, and comes back as
the remainder's `next`. -/
theorem grow_clobbers (h : Chain m q (pre ++ x :: y :: post))
    (hxy : x.addr + headerSize + x.size ≤ y.addr) (hend : y.addr + headerSize + y.size ≤ 2 ^ 64)
    (hle : newSize ≤ x.size + headerSize + y.size) (hbad : Clobbers x y newSize) :
    nextOf (grow m x.addr newSize) x.addr = (remainder x y newSize).addr ∧
      nextOf (grow m x.addr newSize) (remainder x y newSize).addr =
        (remainder x y newSize).size := by
  obtain ⟨hover, hbig⟩ := hbad
  obtain ⟨-, hnext⟩ := h.header
  have h32 : headerSize = 32 := rfl
  have hsub : Word.sub 64 (x.size + headerSize + y.size) newSize =
      x.size + headerSize + y.size - newSize := Word.sub_eq (by omega) hle
  have hsub' : Word.sub 64 (x.size + headerSize + y.size - newSize) headerSize =
      x.size + headerSize + y.size - newSize - headerSize := Word.sub_eq (by omega) (by omega)
  have hrlt : x.size + headerSize + y.size - newSize - headerSize < 2 ^ 64 := by omega
  have hxc : x.addr + headerSize ≤ x.addr + headerSize + newSize := Nat.le_add_right _ _
  have hrem : headerBehind x.addr newSize = x.addr + headerSize + newSize :=
    headerBehind_eq (by omega)
  simp only [grow, remainder]
  rw [combined_eq h hxy hend, hsub, if_pos hbig, hsub', hrem]
  generalize x.addr + headerSize + newSize = c at *
  generalize x.size + headerSize + y.size - newSize - headerSize = rest at *
  have hsep : x.addr + headerSize ≤ c ∨ c + headerSize ≤ x.addr := .inl hxc
  -- `y.next` is read where `remainder.size` has just been written
  have hread : nextOf (setFree (setSize (setSize m x.addr newSize) c rest) c true)
      (nextOf (setFree (setSize (setSize m x.addr newSize) c rest) c true) x.addr) = rest := by
    rw [nextOf_setFree_of_ne hsep, nextOf_setSize_of_ne hsep, nextOf_setSize, hnext, headPtr, nextOf,
      ← hover]
    show sizeOf _ c = rest
    rw [sizeOf_setFree, sizeOf_setSize hrlt]
  rw [hread]
  exact ⟨nextOf_setNext (by omega), by rw [nextOf_setNext_of_ne hsep.symm, nextOf_setNext hrlt]⟩

/-! ## The list after the call -/

/-- What growing `x` to `newSize` over `y` should leave: the other blocks, the grown
one, and what remains of `y` if it remains, null-terminated and in address order. -/
def GrownList (s' : State) (pre post : List Blk) (x y : Blk) (newSize : Nat) : Prop :=
  ∃ rem : List Blk, (rem = [] ∨ rem = [remainder x y newSize]) ∧
    s'.head = headPtr 0 (pre ++ ⟨x.addr, newSize, x.free⟩ :: (rem ++ post)) ∧
    Chain s'.mem 0 (pre ++ ⟨x.addr, newSize, x.free⟩ :: (rem ++ post)) ∧
    (pre ++ ⟨x.addr, newSize, x.free⟩ :: (rem ++ post)).Pairwise fun a b => a.addr < b.addr

theorem growL_eq : ∃ rem, growL x y newSize = ⟨x.addr, newSize, x.free⟩ :: rem ∧
    (rem = [] ∨ rem = [remainder x y newSize] ∧
      x.size + headerSize + y.size - newSize > headerSize + alignment) := by
  rw [growL]
  split
  case isTrue hbig => exact ⟨_, rfl, .inr ⟨rfl, hbig⟩⟩
  case isFalse => exact ⟨[], rfl, .inl rfl⟩

/-- A number below all blocks of a list is not where the list begins. -/
theorem headPtr_ne {lim r : Nat} (hpost : ∀ b ∈ post, lim ≤ b.addr) (hpos : 0 < r) (hr : r < lim) :
    headPtr 0 post ≠ r := by
  cases post with
  | nil => exact Nat.ne_of_lt hpos
  | cons b post => exact Nat.ne_of_gt (Nat.lt_of_lt_of_le hr (hpost b List.mem_cons_self))

/-- Blocks from `g` to below `stop`, between blocks before `g` and blocks from `stop` on. -/
theorem ordered_between {g : Blk} {rem : List Blk} {stop : Nat}
    (hpre : pre.Pairwise fun a b => a.addr < b.addr) (hrem : rem.Pairwise fun a b => a.addr < b.addr)
    (hpost : post.Pairwise fun a b => a.addr < b.addr) (hbefore : ∀ b ∈ pre, b.addr < g.addr)
    (hg : g.addr < stop) (hwithin : ∀ b ∈ rem, g.addr < b.addr ∧ b.addr < stop)
    (hafter : ∀ b ∈ post, stop ≤ b.addr) :
    (pre ++ g :: (rem ++ post)).Pairwise fun a b => a.addr < b.addr := by
  have hbehind : ∀ b ∈ rem ++ post, g.addr < b.addr := by
    intro b hb
    rcases List.mem_append.mp hb with hb | hb
    · exact (hwithin b hb).1
    · exact Nat.lt_of_lt_of_le hg (hafter b hb)
  have hrest : (rem ++ post).Pairwise fun a b => a.addr < b.addr :=
    List.pairwise_append.mpr ⟨hrem, hpost, fun a ha b hb =>
      Nat.lt_of_lt_of_le (hwithin a ha).2 (hafter b hb)⟩
  refine List.pairwise_append.mpr ⟨hpre, List.pairwise_cons.mpr ⟨hbehind, hrest⟩, fun a ha b hb => ?_⟩
  rcases List.mem_cons.mp hb with rfl | hb
  · exact hbefore a ha
  · exact Nat.lt_trans (hbefore a ha) (hbehind b hb)

section Grown
variable (h : OneRegion s lo hi (pre ++ x :: y :: post))
  (hle : newSize ≤ x.size + headerSize + y.size)
include h hle

theorem grownList_of_not_clobbers (hlt : x.size < newSize) (hnew : 16 ∣ newSize)
    (hgood : ¬ Clobbers x y newSize) :
    GrownList { s with mem := grow s.mem x.addr newSize } pre post x y newSize := by
  obtain ⟨hpre, hpost⟩ := tiles_sides h.tiles
  have hnext := tiles_next h.tiles
  have h32 : headerSize = 32 := rfl
  have hend := h.within (b := y) (by simp)
  have hxs := h.sizes x (by simp)
  have hsplit : OneRegion s lo hi ((pre ++ [x, y]) ++ post) := by
    rw [List.append_assoc]
    exact h
  have hq := hsplit.headPtr_lt
  have hrest : Off x.addr (y.addr + headerSize + y.size) (pre ++ post) := by
    intro b hb
    rcases List.mem_append.mp hb with hb | hb
    · exact .inl (Nat.le_trans (Nat.le_add_right _ _) (hpre b hb))
    · exact .inr (hpost b hb)
  -- the block grows by 16, and then there is no remainder, or by 32 at least
  have happart : x.size + headerSize + y.size - newSize > headerSize + alignment →
      x.addr + headerSize + newSize ≤ y.addr ∨
        y.addr + headerSize ≤ x.addr + headerSize + newSize := by
    intro hbig
    have hne : x.addr + headerSize + newSize ≠ y.addr + 16 := fun heq => hgood ⟨heq, hbig⟩
    omega
  have hchain := (grow_ok h.chain (Nat.le_of_eq hnext.symm) hend hlt hle hq happart hrest).1
  obtain ⟨rem, hgrow, hrem⟩ := @growL_eq newSize x y
  rw [hgrow] at hchain
  refine ⟨rem, hrem.imp_right And.left, ?_, hchain, ?_⟩
  · have hhead := h.head
    rw [headPtr_append] at hhead ⊢
    exact hhead
  · have hwithin : ∀ b ∈ rem, x.addr < b.addr ∧ b.addr < y.addr + headerSize + y.size := by
      rcases hrem with rfl | ⟨rfl, hbig⟩
      · exact fun b hb => absurd hb List.not_mem_nil
      · intro b hb
        obtain rfl := List.mem_singleton.mp hb
        show x.addr < x.addr + headerSize + newSize ∧
          x.addr + headerSize + newSize < y.addr + headerSize + y.size
        omega
    have hone : rem.Pairwise fun a b => a.addr < b.addr := by
      rcases hrem with rfl | ⟨rfl, -⟩
      · exact List.Pairwise.nil
      · exact List.pairwise_singleton _ _
    have hlist : (pre ++ x :: y :: post).Pairwise fun a b => a.addr < b.addr :=
      (tiles_order h.tiles).imp fun {a b} hab => by omega
    obtain ⟨hpp, hxyp, hbefore⟩ := List.pairwise_append.mp hlist
    have hpo := (List.pairwise_cons.mp (List.pairwise_cons.mp hxyp).2).2
    exact ordered_between hpp hone hpo (fun b hb => hbefore b hb x List.mem_cons_self)
      (show x.addr < y.addr + headerSize + y.size by omega) hwithin hpost

theorem not_grownList_of_clobbers (hbad : Clobbers x y newSize) :
    ¬ GrownList { s with mem := grow s.mem x.addr newSize } pre post x y newSize := by
  obtain ⟨-, hpost⟩ := tiles_sides h.tiles
  have hnext := tiles_next h.tiles
  have h32 : headerSize = 32 := rfl
  have hend := h.within (b := y) (by simp)
  obtain ⟨hfst, hsnd⟩ := grow_clobbers h.chain (Nat.le_of_eq hnext.symm) hend hle hbad
  have hbig := hbad.2
  rintro ⟨rem, rfl | rfl, -, hchain, -⟩
  · -- the remainder would have to be the head of `post`
    have hx : nextOf (grow s.mem x.addr newSize) x.addr = headPtr 0 post := hchain.header.2
    refine headPtr_ne hpost ?_ ?_ (hx.symm.trans hfst)
    · show 0 < x.addr + headerSize + newSize
      omega
    · show x.addr + headerSize + newSize < y.addr + headerSize + y.size
      omega
  · have hrem := (chain_append.mp hchain).2.2.2.2.1
    have heq : headPtr 0 post = (remainder x y newSize).size := hrem.symm.trans hsnd
    refine headPtr_ne hpost ?_ ?_ heq
    · show 0 < x.size + headerSize + y.size - newSize - headerSize
      omega
    · show x.size + headerSize + y.size - newSize - headerSize < y.addr + headerSize + y.size
      omega

/-- The branch is taken. -/
theorem myRealloc_grows {n : Nat} (hlt : x.size < newSize) (hy : y.free = true) (hn : n ≠ 0)
    (hsize : alignUp n alignment = newSize) (os : Option Nat) :
    myRealloc s x.payload n os =
      some ({ s with mem := grow s.mem x.addr newSize }, x.payload) := by
  have hend := h.within (b := y) (by simp)
  obtain ⟨hx, hxnext⟩ := h.chain.header
  obtain ⟨hyh, -⟩ := (chain_append.mp h.chain).2.2.2
  have hxnext' : nextOf s.mem x.addr = y.addr := hxnext
  have hcan : canGrow s.mem x.addr newSize = true := by
    rw [canGrow, combined_eq h.chain (Nat.le_of_eq (tiles_next h.tiles).symm) hend, hxnext', hyh.free, hy,
      decide_eq_true hle, bne_iff_ne.mpr hyh.addr]
    rfl
  have hne : x.payload ≠ 0 := by
    rw [Blk.payload, headerSize]
    omega
  have hnot : ¬ sizeOf s.mem x.addr ≥ newSize := by
    rw [hx.size]
    exact Nat.not_le_of_lt hlt
  simp only [myRealloc]
  rw [if_neg hn, if_neg hne, hsize, Blk.payload, Nat.add_sub_cancel, if_neg hnot, if_pos hcan]

end Grown

/-- **In-place growth, exactly.**  The branch keeps the list intact if and only if
it does not grow the block by 16 bytes and leave a remainder. -/
theorem myRealloc_grows_iff {n : Nat} (h : OneRegion s lo hi (pre ++ x :: y :: post))
    (hy : y.free = true) (hlt : x.size < alignUp n alignment)
    (hle : alignUp n alignment ≤ x.size + headerSize + y.size) (os : Option Nat) :
    ∃ m', myRealloc s x.payload n os = some ({ s with mem := m' }, x.payload) ∧
      (GrownList { s with mem := m' } pre post x y (alignUp n alignment) ↔
        ¬ (alignUp n alignment = x.size + 16 ∧ headerSize < y.size)) := by
  have hnew := alignUp_dvd n
  have hn : n ≠ 0 := fun h0 => absurd hlt (by rw [h0]; exact Nat.not_lt_zero _)
  generalize hsize : alignUp n alignment = newSize at *
  have hnext := tiles_next h.tiles
  have hcode := myRealloc_grows h hle hlt hy hn hsize os
  have hclob : Clobbers x y newSize ↔ newSize = x.size + 16 ∧ headerSize < y.size := by
    rw [Clobbers, hnext, headerSize, alignment]
    omega
  refine ⟨grow s.mem x.addr newSize, hcode, ?_⟩
  rw [← hclob]
  constructor
  · exact fun hgrown hbad => not_grownList_of_clobbers h hle hbad hgrown
  · exact fun hgood => grownList_of_not_clobbers h hle hlt hnew hgood

theorem isSome_small :
    (run step (make (fun _ => 0), []) [.realloc 0 16 (some 65536)]).isSome = true := by
  decide +kernel

/-- The heap after `my_realloc(nullptr, 4 * sizeof(int))`. -/
def small : State :=
  ((run step (make (fun _ => 0), []) [.realloc 0 16 (some 65536)]).get isSome_small).1

theorem small_oneRegion :
    OneRegion small 65536 69632 ([] ++ ⟨65536, 16, false⟩ :: ⟨65584, 4016, true⟩ :: []) :=
  ⟨by decide +kernel, by decide +kernel, by decide +kernel, by decide, by decide⟩

/-- Growing its block to 32 bytes breaks the list, to 48 bytes it does not. -/
theorem myRealloc_grows_iff_small :
    (∃ m', myRealloc small 65568 32 none = some ({ small with mem := m' }, 65568) ∧
      (GrownList { small with mem := m' } [] [] ⟨65536, 16, false⟩ ⟨65584, 4016, true⟩
        (alignUp 32 alignment) ↔ ¬ (alignUp 32 alignment = 16 + 16 ∧ headerSize < 4016))) ∧
    ∃ m', myRealloc small 65568 48 none = some ({ small with mem := m' }, 65568) ∧
      (GrownList { small with mem := m' } [] [] ⟨65536, 16, false⟩ ⟨65584, 4016, true⟩
        (alignUp 48 alignment) ↔ ¬ (alignUp 48 alignment = 16 + 16 ∧ headerSize < 4016)) :=
  ⟨myRealloc_grows_iff small_oneRegion rfl (by decide +kernel) (by decide +kernel) none,
    myRealloc_grows_iff small_oneRegion rfl (by decide +kernel) (by decide +kernel) none⟩

/-- The second call of `main`, which grows the block from 16 to 32 bytes. -/
theorem grow_breaks_list :
    ¬ ∀ (s s' : State) (lo hi : Nat) (pre post : List Blk) (x y : Blk) (n : Nat),
      OneRegion s lo hi (pre ++ x :: y :: post) → x.free = false → y.free = true →
      x.size < alignUp n alignment → alignUp n alignment ≤ x.size + headerSize + y.size →
      myRealloc s x.payload n none = some (s', x.payload) →
      GrownList s' pre post x y (alignUp n alignment) := by
  intro h
  have hle : alignUp 32 alignment ≤ 16 + headerSize + 4016 := by decide +kernel
  have hlt : 16 < alignUp 32 alignment := by decide +kernel
  have hcode := myRealloc_grows small_oneRegion hle hlt rfl (Nat.succ_ne_zero 31) rfl none
  have hgrown := h small _ _ _ [] [] _ _ 32 small_oneRegion rfl rfl hlt hle hcode
  exact not_grownList_of_clobbers small_oneRegion hle (by decide +kernel) hgrown

end CKernel.Malloc.Realloc
