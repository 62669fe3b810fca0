/-
# `CKernel.Malloc.ReallocList` — the block list of `my_realloc.cpp` in memory

What the functions of `CKernel.Malloc.Realloc` do to the list of headers.  A
block is its address, its size and its free bit; `Chain m bs q` says that memory
holds the headers of `bs`, linked in this order, the last `next` being `q`.

An edit of some blocks that writes only between two addresses leaves the others'
headers alone when these are outside (`Chain.edit`); each function of the code is
then one such edit.
-/
import CKernel.Malloc.Realloc

namespace CKernel.Malloc.Realloc

/-! ## Headers -/

structure Blk where
  addr : Nat
  size : Nat
  free : Bool
  deriving DecidableEq, Repr

namespace Blk

/-- The bytes of a block: its header and `size` bytes. -/
def extent (b : Blk) : Extent := ⟨b.addr, b.addr + headerSize + b.size⟩

/-- The pointer handed out for it. -/
def payload (b : Blk) : Nat := b.addr + headerSize

end Blk

variable {m m' : Mem} {a q lo hi : Nat} {b : Blk} {bs cs pre mid mid' post : List Blk}

@[simp] theorem sizeOf_setSize {v : Nat} (hv : v < 2 ^ 64) : sizeOf (setSize m a v) a = v := by
  rw [sizeOf, setSize, Mem.load_store_self]
  exact Nat.mod_eq_of_lt hv

@[simp] theorem isFree_setFree {free : Bool} : isFree (setFree m a free) a = free := by
  rw [isFree, setFree, Mem.load_store_self]
  cases free <;> rfl

@[simp] theorem nextOf_setNext {v : Nat} (hv : v < 2 ^ 64) : nextOf (setNext m a v) a = v := by
  rw [nextOf, setNext, Mem.load_store_self]
  exact Nat.mod_eq_of_lt hv

@[simp] theorem isFree_setSize {v : Nat} : isFree (setSize m a v) a = isFree m a := by
  rw [isFree, setSize, Mem.load_store_of_disjoint (.inr (Nat.le_refl _)), isFree]

@[simp] theorem nextOf_setSize {v : Nat} : nextOf (setSize m a v) a = nextOf m a := by
  rw [nextOf, setSize, Mem.load_store_of_disjoint (.inr (by omega)), nextOf]

@[simp] theorem sizeOf_setFree {free : Bool} : sizeOf (setFree m a free) a = sizeOf m a := by
  rw [sizeOf, setFree, Mem.load_store_of_disjoint (.inl (Nat.le_refl _)), sizeOf]

@[simp] theorem nextOf_setFree {free : Bool} : nextOf (setFree m a free) a = nextOf m a := by
  rw [nextOf, setFree, Mem.load_store_of_disjoint (.inr (by omega)), nextOf]

@[simp] theorem sizeOf_setNext {v : Nat} : sizeOf (setNext m a v) a = sizeOf m a := by
  rw [sizeOf, setNext, Mem.load_store_of_disjoint (.inl (by omega)), sizeOf]

@[simp] theorem isFree_setNext {v : Nat} : isFree (setNext m a v) a = isFree m a := by
  rw [isFree, setNext, Mem.load_store_of_disjoint (.inl (by omega)), isFree]

/-- The three fields at `a` are the same in both memories. -/
def SameHeader (m m' : Mem) (a : Nat) : Prop :=
  sizeOf m' a = sizeOf m a ∧ isFree m' a = isFree m a ∧ nextOf m' a = nextOf m a

theorem sameHeader_of_eqOff (h : Mem.EqOff m m' lo hi) (ha : a + headerSize ≤ lo ∨ hi ≤ a) :
    SameHeader m m' a := by
  rw [headerSize] at ha
  refine ⟨h.load (by omega), ?_, h.load (by omega)⟩
  rw [isFree, isFree, h.load (by omega)]

/-- Writing a field of the header at `a` stays inside that header. -/
theorem eqOff_setSize {v : Nat} : Mem.EqOff m (setSize m a v) a (a + headerSize) :=
  Mem.eqOff_store.mono (Nat.le_refl a) (by rw [headerSize]; omega)

theorem eqOff_setFree {free : Bool} : Mem.EqOff m (setFree m a free) a (a + headerSize) :=
  Mem.eqOff_store.mono (by omega) (by rw [headerSize]; omega)

theorem eqOff_setNext {v : Nat} : Mem.EqOff m (setNext m a v) a (a + headerSize) :=
  Mem.eqOff_store.mono (by omega) (by rw [headerSize]; omega)

/-! ### Writes to another header -/

section Another
variable {c v : Nat} {free : Bool} (h : c + headerSize ≤ a ∨ a + headerSize ≤ c)
include h

theorem sameHeader_setSize : SameHeader m (setSize m a v) c := sameHeader_of_eqOff eqOff_setSize h

theorem sameHeader_setFree : SameHeader m (setFree m a free) c := sameHeader_of_eqOff eqOff_setFree h

theorem sameHeader_setNext : SameHeader m (setNext m a v) c := sameHeader_of_eqOff eqOff_setNext h

theorem sizeOf_setSize_of_ne : sizeOf (setSize m a v) c = sizeOf m c := (sameHeader_setSize h).1

theorem sizeOf_setFree_of_ne : sizeOf (setFree m a free) c = sizeOf m c := (sameHeader_setFree h).1

theorem sizeOf_setNext_of_ne : sizeOf (setNext m a v) c = sizeOf m c := (sameHeader_setNext h).1

theorem isFree_setSize_of_ne : isFree (setSize m a v) c = isFree m c := (sameHeader_setSize h).2.1

theorem isFree_setFree_of_ne : isFree (setFree m a free) c = isFree m c :=
  (sameHeader_setFree h).2.1

theorem isFree_setNext_of_ne : isFree (setNext m a v) c = isFree m c := (sameHeader_setNext h).2.1

theorem nextOf_setSize_of_ne : nextOf (setSize m a v) c = nextOf m c := (sameHeader_setSize h).2.2

theorem nextOf_setFree_of_ne : nextOf (setFree m a free) c = nextOf m c :=
  (sameHeader_setFree h).2.2

theorem nextOf_setNext_of_ne : nextOf (setNext m a v) c = nextOf m c := (sameHeader_setNext h).2.2

end Another

/-! ## Chains -/

/-- The pointer to the first block, or `q`. -/
def headPtr (q : Nat) : List Blk → Nat
  | [] => q
  | b :: _ => b.addr

/-- The header of `b`, but for its `next` field. -/
structure HeaderAt (m : Mem) (b : Blk) : Prop where
  addr : b.addr ≠ 0
  size : sizeOf m b.addr = b.size
  free : isFree m b.addr = b.free

/-- The headers of `bs` in memory, linked in order and ending in `q`. -/
def Chain (m : Mem) (q : Nat) : List Blk → Prop
  | [] => True
  | b :: bs => HeaderAt m b ∧ nextOf m b.addr = headPtr q bs ∧ Chain m q bs

theorem headPtr_append : headPtr q (bs ++ cs) = headPtr (headPtr q cs) bs := by
  cases bs with
  | nil => rfl
  | cons b bs => rfl

theorem chain_append :
    Chain m q (bs ++ cs) ↔ Chain m (headPtr q cs) bs ∧ Chain m q cs := by
  induction bs with
  | nil => exact ⟨fun h => ⟨trivial, h⟩, fun h => h.2⟩
  | cons b bs ih =>
      rw [List.cons_append, Chain, Chain, ih, headPtr_append, and_assoc, and_assoc]

theorem HeaderAt.congr (h : HeaderAt m b) (hsame : SameHeader m m' b.addr) : HeaderAt m' b :=
  ⟨h.addr, hsame.1.trans h.size, hsame.2.1.trans h.free⟩

theorem Chain.congr (h : Chain m q bs) (hsame : ∀ b ∈ bs, SameHeader m m' b.addr) :
    Chain m' q bs := by
  induction bs with
  | nil => trivial
  | cons b bs ih =>
      have hb := hsame b List.mem_cons_self
      refine ⟨h.1.congr hb, hb.2.2.trans h.2.1, ih h.2.2 fun c hc => ?_⟩
      exact hsame c (List.mem_cons_of_mem _ hc)

/-- Some blocks are exchanged for others that start at the same address, and
the rest of the list is not written to. -/
theorem Chain.edit (h : Chain m q (pre ++ (mid ++ post)))
    (hsame : ∀ b ∈ pre ++ post, SameHeader m m' b.addr) (hmid : Chain m' (headPtr q post) mid')
    (hhead : headPtr (headPtr q post) mid' = headPtr (headPtr q post) mid) :
    Chain m' q (pre ++ (mid' ++ post)) := by
  rw [chain_append, chain_append] at h ⊢
  obtain ⟨hpre, -, hpost⟩ := h
  rw [headPtr_append, hhead, ← headPtr_append]
  refine ⟨hpre.congr fun b hb => ?_, hmid, hpost.congr fun b hb => ?_⟩
  · exact hsame b (List.mem_append_left _ hb)
  · exact hsame b (List.mem_append_right _ hb)

/-- Headers outside a range of addresses. -/
def Off (lo hi : Nat) (bs : List Blk) : Prop :=
  ∀ b ∈ bs, b.addr + headerSize ≤ lo ∨ hi ≤ b.addr

theorem Chain.edit_off (h : Chain m q (pre ++ (mid ++ post))) (hoff : Mem.EqOff m m' lo hi)
    (hrest : Off lo hi (pre ++ post)) (hmid : Chain m' (headPtr q post) mid')
    (hhead : headPtr (headPtr q post) mid' = headPtr (headPtr q post) mid) :
    Chain m' q (pre ++ (mid' ++ post)) :=
  h.edit (fun b hb => sameHeader_of_eqOff hoff (hrest b hb)) hmid hhead

/-- The last block is linked to another chain. -/
theorem Chain.relink {c : Blk} (h : Chain m 0 (pre ++ [c])) (hcs : Chain m 0 cs)
    (hlt : headPtr 0 cs < 2 ^ 64) (hrest : Off c.addr (c.addr + headerSize) (pre ++ cs)) :
    Chain (setNext m c.addr (headPtr 0 cs)) 0 (pre ++ c :: cs) := by
  obtain ⟨hpre, ⟨haddr, hsize, hfree⟩, -⟩ := chain_append.mp h
  have hsame : ∀ b ∈ pre ++ cs, SameHeader m (setNext m c.addr (headPtr 0 cs)) b.addr :=
    fun b hb => sameHeader_of_eqOff eqOff_setNext (hrest b hb)
  refine chain_append.mpr ⟨?_, ⟨haddr, ?_, ?_⟩, nextOf_setNext hlt, ?_⟩
  · exact hpre.congr fun b hb => hsame b (List.mem_append_left _ hb)
  · rw [sizeOf_setNext, hsize]
  · rw [isFree_setNext, hfree]
  · exact hcs.congr fun b hb => hsame b (List.mem_append_right _ hb)

/-! ## `split_block` -/

/-- What `split_block` makes of a block. -/
def splitL (b : Blk) (needed : Nat) : List Blk :=
  if b.size - needed > headerSize + alignment then
    [⟨b.addr, needed, b.free⟩,
      ⟨b.addr + headerSize + needed, b.size - needed - headerSize, true⟩]
  else [b]

/-- A block's own header in `Chain`. -/
theorem Chain.header (h : Chain m q (pre ++ b :: post)) :
    HeaderAt m b ∧ nextOf m b.addr = headPtr q post := by
  rw [chain_append] at h
  exact ⟨h.2.1, h.2.2.1⟩

theorem headerBehind_eq {block payload : Nat} (h : block + headerSize + payload < 2 ^ 64) :
    headerBehind block payload = block + headerSize + payload := by
  have hheader : Word.add 64 block headerSize = block + headerSize :=
    Word.add_eq (Nat.lt_of_le_of_lt (Nat.le_add_right _ _) h)
  rw [headerBehind, hheader, Word.add_eq h]

theorem headPtr_splitL {needed : Nat} : headPtr q (splitL b needed) = b.addr := by
  rw [splitL]
  split
  · rfl
  · rfl

theorem splitBlock_ok {needed : Nat} (h : Chain m q (pre ++ b :: post)) (hle : needed ≤ b.size)
    (hlt : b.addr + headerSize + b.size ≤ 2 ^ 64) (hq : headPtr q post < 2 ^ 64)
    (hrest : Off b.addr (b.addr + headerSize + b.size) (pre ++ post)) :
    Chain (splitBlock m b.addr needed) q (pre ++ (splitL b needed ++ post)) ∧
      Mem.EqOff m (splitBlock m b.addr needed) b.addr (b.addr + headerSize + b.size) := by
  obtain ⟨⟨haddr, hsize, hfree⟩, hnext⟩ := h.header
  have h32 : headerSize = 32 := rfl
  have hsub : Word.sub 64 b.size needed = b.size - needed := Word.sub_eq (by omega) hle
  simp only [splitBlock]
  rw [hsize, hsub, splitL]
  by_cases hbig : b.size - needed > headerSize + alignment
  · have hsub' : Word.sub 64 (b.size - needed) headerSize = b.size - needed - headerSize :=
      Word.sub_eq (by omega) (by omega)
    rw [if_pos hbig, if_pos hbig, hsub']
    have hnew : headerBehind b.addr needed = b.addr + headerSize + needed :=
      headerBehind_eq (by omega)
    rw [hnew]
    have hbc : b.addr + headerSize ≤ b.addr + headerSize + needed := Nat.le_add_right _ _
    have hsep : b.addr + headerSize ≤ b.addr + headerSize + needed ∨
      b.addr + headerSize + needed + headerSize ≤ b.addr := .inl hbc
    have hend : b.addr + headerSize + needed + headerSize ≤ b.addr + headerSize + b.size := by
      omega
    rw [nextOf_setFree_of_ne hsep, nextOf_setSize_of_ne hsep, hnext]
    generalize b.addr + headerSize + needed = c at *
    have hoff : Mem.EqOff m (setNext (setSize (setNext (setFree (setSize m c
        (b.size - needed - headerSize)) c true) c (headPtr q post)) b.addr needed) b.addr c)
        b.addr (b.addr + headerSize + b.size) :=
      ((((eqOff_setSize.trans eqOff_setFree).trans eqOff_setNext).mono (by omega) hend).trans
        ((eqOff_setSize.trans eqOff_setNext).mono (Nat.le_refl _) (Nat.le_add_right _ _)))
    refine ⟨(show Chain m q (pre ++ ([b] ++ post)) from h).edit_off hoff hrest ?_ rfl, hoff⟩
    have hsep' : c + headerSize ≤ b.addr ∨ b.addr + headerSize ≤ c := hsep.symm
    refine ⟨⟨haddr, ?_, ?_⟩, nextOf_setNext (by omega), ⟨?_, ?_, ?_⟩, ?_, trivial⟩
    · rw [sizeOf_setNext, sizeOf_setSize (by omega)]
    · rw [isFree_setNext, isFree_setSize, isFree_setNext_of_ne hsep, isFree_setFree_of_ne hsep,
        isFree_setSize_of_ne hsep, hfree]
    · show c ≠ 0
      omega
    · rw [sizeOf_setNext_of_ne hsep', sizeOf_setSize_of_ne hsep', sizeOf_setNext, sizeOf_setFree,
        sizeOf_setSize (by omega)]
    · rw [isFree_setNext_of_ne hsep', isFree_setSize_of_ne hsep', isFree_setNext, isFree_setFree]
    · rw [nextOf_setNext_of_ne hsep', nextOf_setSize_of_ne hsep', nextOf_setNext hq]
      rfl
  · rw [if_neg hbig, if_neg hbig]
    exact ⟨h, Mem.EqOff.refl _ _ _⟩

/-! ## A block and its successor -/

section Absorb
variable {x y : Blk} {v : Nat} (h : Chain m q (pre ++ x :: y :: post))
include h

/-- The successor's link is read after `size` has been written. -/
theorem Chain.next_next (hsep : y.addr + headerSize ≤ x.addr ∨ x.addr + headerSize ≤ y.addr) :
    nextOf (setSize m x.addr v) (nextOf (setSize m x.addr v) x.addr) = headPtr q post := by
  have hnext : nextOf m x.addr = y.addr := h.header.2
  obtain ⟨-, hynext, -⟩ := (chain_append.mp h).2.2.2
  rw [nextOf_setSize, hnext, nextOf_setSize_of_ne hsep, hynext]

/-- The successor is taken out of the list. -/
theorem Chain.absorb (hv : v < 2 ^ 64) (hq : headPtr q post < 2 ^ 64)
    (hrest : Off x.addr (x.addr + headerSize) (pre ++ post)) :
    Chain (setNext (setSize m x.addr v) x.addr (headPtr q post)) q
      (pre ++ ⟨x.addr, v, x.free⟩ :: post) := by
  obtain ⟨haddr, -, hfree⟩ := h.header.1
  have hmid : Chain (setNext (setSize m x.addr v) x.addr (headPtr q post)) (headPtr q post)
      [⟨x.addr, v, x.free⟩] := by
    refine ⟨⟨haddr, ?_, ?_⟩, nextOf_setNext hq, trivial⟩
    · rw [sizeOf_setNext, sizeOf_setSize hv]
    · rw [isFree_setNext, isFree_setSize, hfree]
  exact (show Chain m q (pre ++ ([x, y] ++ post)) from h).edit_off
    (eqOff_setSize.trans eqOff_setNext) hrest hmid rfl

end Absorb

/-! ## In-place growth -/

/-- What the in-place growth branch makes of a block and the free one behind it. -/
def growL (x y : Blk) (newSize : Nat) : List Blk :=
  if x.size + headerSize + y.size - newSize > headerSize + alignment then
    [⟨x.addr, newSize, x.free⟩, ⟨x.addr + headerSize + newSize,
      x.size + headerSize + y.size - newSize - headerSize, true⟩]
  else [⟨x.addr, newSize, x.free⟩]

theorem headPtr_growL {x y : Blk} {newSize : Nat} : headPtr q (growL x y newSize) = x.addr := by
  rw [growL]
  split
  · rfl
  · rfl

/-- The header of the remainder would overwrite the `next` field of the block it
is taken from, which is read only afterwards. -/
def Clobbers (x y : Blk) (newSize : Nat) : Prop :=
  x.addr + headerSize + newSize = y.addr + 16 ∧
    x.size + headerSize + y.size - newSize > headerSize + alignment

instance (x y : Blk) (newSize : Nat) : Decidable (Clobbers x y newSize) :=
  inferInstanceAs (Decidable (_ ∧ _))

section Grow
variable {x y : Blk} {newSize : Nat} (h : Chain m q (pre ++ x :: y :: post))
  (hxy : x.addr + headerSize + x.size ≤ y.addr) (hend : y.addr + headerSize + y.size ≤ 2 ^ 64)
include h hxy hend

theorem combined_eq : combined m x.addr = x.size + headerSize + y.size := by
  obtain ⟨hx, hnext⟩ := h.header
  have hy := (chain_append.mp h).2.2.2.1
  have h32 : headerSize = 32 := rfl
  have hadd : Word.add 64 x.size headerSize = x.size + headerSize := Word.add_eq (by omega)
  rw [combined, hx.size, hnext, headPtr, hy.size, hadd, Word.add_eq (by omega)]

theorem grow_ok (hlt : x.size < newSize) (hle : newSize ≤ x.size + headerSize + y.size)
    (hq : headPtr q post < 2 ^ 64)
    (hgood : x.size + headerSize + y.size - newSize > headerSize + alignment →
      x.addr + headerSize + newSize ≤ y.addr ∨
        y.addr + headerSize ≤ x.addr + headerSize + newSize)
    (hrest : Off x.addr (y.addr + headerSize + y.size) (pre ++ post)) :
    Chain (grow m x.addr newSize) q (pre ++ (growL x y newSize ++ post)) ∧
      Mem.EqOff m (grow m x.addr newSize) x.addr (y.addr + headerSize + y.size) := by
  obtain ⟨⟨haddr, -, hfree⟩, hnext⟩ := h.header
  obtain ⟨-, hynext, -⟩ := (chain_append.mp h).2.2.2
  have h32 : headerSize = 32 := rfl
  have hcomb := combined_eq h hxy hend
  have hsub : Word.sub 64 (x.size + headerSize + y.size) newSize =
      x.size + headerSize + y.size - newSize := Word.sub_eq (by omega) hle
  have hchain : Chain m q (pre ++ ([x, y] ++ post)) := h
  simp only [grow]
  rw [hcomb, hsub, growL]
  by_cases hbig : x.size + headerSize + y.size - newSize > headerSize + alignment
  · have hsub' : Word.sub 64 (x.size + headerSize + y.size - newSize) headerSize =
        x.size + headerSize + y.size - newSize - headerSize := Word.sub_eq (by omega) (by omega)
    rw [if_pos hbig, if_pos hbig, hsub']
    have hrem : headerBehind x.addr newSize = x.addr + headerSize + newSize :=
      headerBehind_eq (by omega)
    rw [hrem]
    have hxc : x.addr + headerSize ≤ x.addr + headerSize + newSize := Nat.le_add_right _ _
    have hce : x.addr + headerSize + newSize + headerSize ≤ y.addr + headerSize + y.size := by omega
    have hrlt : x.size + headerSize + y.size - newSize - headerSize < 2 ^ 64 := by omega
    have hcy := hgood hbig
    generalize x.addr + headerSize + newSize = c at *
    generalize x.size + headerSize + y.size - newSize - headerSize = rest at *
    have hsep : x.addr + headerSize ≤ c ∨ c + headerSize ≤ x.addr := .inl hxc
    have hsep' := hsep.symm
    have hread : nextOf (setFree (setSize (setSize m x.addr newSize) c rest) c true)
        (nextOf (setFree (setSize (setSize m x.addr newSize) c rest) c true) x.addr) =
        headPtr q post := by
      rw [nextOf_setFree_of_ne hsep, nextOf_setSize_of_ne hsep, nextOf_setSize, hnext]
      show nextOf _ y.addr = _
      rw [← hynext, nextOf, setFree, Mem.load_store_of_disjoint (by omega), setSize,
        Mem.load_store_of_disjoint (by omega), setSize, Mem.load_store_of_disjoint (by omega), nextOf]
    rw [hread]
    have hoff : Mem.EqOff m (setNext (setNext (setFree (setSize (setSize m x.addr newSize) c rest)
        c true) c (headPtr q post)) x.addr c) x.addr (y.addr + headerSize + y.size) :=
      (((eqOff_setSize (a := x.addr)).mono (Nat.le_refl _) (by omega)).trans
        (((eqOff_setSize.trans eqOff_setFree).trans eqOff_setNext).mono (by omega) hce)).trans
        (eqOff_setNext.mono (Nat.le_refl _) (by omega))
    refine ⟨hchain.edit_off hoff hrest ?_ rfl, hoff⟩
    refine ⟨⟨haddr, ?_, ?_⟩, nextOf_setNext (by omega), ⟨?_, ?_, ?_⟩, ?_, trivial⟩
    · rw [sizeOf_setNext, sizeOf_setNext_of_ne hsep, sizeOf_setFree_of_ne hsep,
        sizeOf_setSize_of_ne hsep, sizeOf_setSize (by omega)]
    · rw [isFree_setNext, isFree_setNext_of_ne hsep, isFree_setFree_of_ne hsep,
        isFree_setSize_of_ne hsep, isFree_setSize, hfree]
    · show c ≠ 0
      omega
    · rw [sizeOf_setNext_of_ne hsep', sizeOf_setNext, sizeOf_setFree, sizeOf_setSize hrlt]
    · rw [isFree_setNext_of_ne hsep', isFree_setNext, isFree_setFree]
    · rw [nextOf_setNext_of_ne hsep', nextOf_setNext hq]
      rfl
  · rw [if_neg hbig, if_neg hbig]
    have hsep : y.addr + headerSize ≤ x.addr ∨ x.addr + headerSize ≤ y.addr := .inr (by omega)
    have hread : nextOf (setSize m x.addr newSize) (nextOf (setSize m x.addr newSize) x.addr) =
        headPtr q post := h.next_next hsep
    rw [hread]
    refine ⟨h.absorb (by omega) hq fun b hb => (hrest b hb).imp_right fun hle => ?_,
      (eqOff_setSize.trans eqOff_setNext).mono (Nat.le_refl _) (by omega)⟩
    omega

end Grow

/-! ## Walks -/

/-- The blocks reachable from a pointer. -/
def walk (m : Mem) : Nat → Nat → Option (List Blk)
  | 0, _ => none
  | fuel + 1, p =>
      if p = 0 then some []
      else (walk m fuel (nextOf m p)).map fun bs => ⟨p, sizeOf m p, isFree m p⟩ :: bs

theorem Chain.walk_eq (h : Chain m 0 bs) {fuel : Nat} (hfuel : bs.length < fuel) :
    walk m fuel (headPtr 0 bs) = some bs := by
  induction bs generalizing fuel with
  | nil =>
      obtain ⟨n, rfl⟩ := Nat.exists_eq_add_one_of_ne_zero (Nat.ne_of_gt hfuel)
      rfl
  | cons b bs ih =>
      obtain ⟨n, rfl⟩ := Nat.exists_eq_add_one_of_ne_zero (Nat.ne_of_gt (Nat.zero_lt_of_lt hfuel))
      obtain ⟨hb, hnext, hrest⟩ := h
      rw [headPtr, walk, if_neg hb.addr, hnext, ih hrest (Nat.lt_of_succ_lt_succ hfuel), hb.size,
        hb.free]
      rfl

/-- The first free block that is large enough, or null. -/
def firstFree (size : Nat) : List Blk → Nat
  | [] => 0
  | b :: bs => if b.free ∧ size ≤ b.size then b.addr else firstFree size bs

theorem Chain.findLoop_eq (size : Nat) (h : Chain m 0 bs) {fuel : Nat} (hfuel : bs.length < fuel) :
    findLoop m size fuel (headPtr 0 bs) = some (firstFree size bs) := by
  induction bs generalizing fuel with
  | nil =>
      obtain ⟨n, rfl⟩ := Nat.exists_eq_add_one_of_ne_zero (Nat.ne_of_gt hfuel)
      rfl
  | cons b bs ih =>
      obtain ⟨n, rfl⟩ := Nat.exists_eq_add_one_of_ne_zero (Nat.ne_of_gt (Nat.zero_lt_of_lt hfuel))
      obtain ⟨hb, hnext, hrest⟩ := h
      rw [headPtr, findLoop, if_neg hb.addr, hnext, ih hrest (Nat.lt_of_succ_lt_succ hfuel), hb.size,
        hb.free, firstFree]
      split
      · rfl
      · rfl

theorem firstFree_cases (size : Nat) (bs : List Blk) (haddr : ∀ b ∈ bs, b.addr ≠ 0) :
    firstFree size bs = 0 ∨ ∃ (pre : List Blk) (b : Blk) (post : List Blk),
      bs = pre ++ b :: post ∧ b.free = true ∧ size ≤ b.size ∧ firstFree size bs = b.addr := by
  induction bs with
  | nil => exact .inl rfl
  | cons b bs ih =>
      rw [firstFree]
      split
      case isTrue hfit => exact .inr ⟨[], b, bs, rfl, hfit.1, hfit.2, rfl⟩
      case isFalse =>
        rcases ih fun c hc => haddr c (List.mem_cons_of_mem _ hc) with
          hnull | ⟨pre, c, post, rfl, hc, hle, heq⟩
        · exact .inl hnull
        · exact .inr ⟨b :: pre, c, post, rfl, hc, hle, heq⟩

theorem Chain.headPtr_ne_zero (h : Chain m q (pre ++ b :: post)) :
    headPtr q (pre ++ b :: post) ≠ 0 := by
  cases pre with
  | nil => exact h.1.addr
  | cons c pre => exact h.1.addr

theorem Chain.lastBlock_eq (h : Chain m 0 (pre ++ [b])) {fuel : Nat} (hfuel : pre.length < fuel) :
    lastBlock m fuel (headPtr 0 (pre ++ [b])) = some b.addr := by
  induction pre generalizing fuel with
  | nil =>
      obtain ⟨n, rfl⟩ := Nat.exists_eq_add_one_of_ne_zero (Nat.ne_of_gt hfuel)
      have hnext : nextOf m b.addr = 0 := h.2.1
      rw [List.nil_append, headPtr, lastBlock, if_neg (not_not.mpr hnext)]
  | cons c pre ih =>
      obtain ⟨n, rfl⟩ := Nat.exists_eq_add_one_of_ne_zero (Nat.ne_of_gt (Nat.zero_lt_of_lt hfuel))
      obtain ⟨hc, hnext, hrest⟩ := h
      have hne : nextOf m c.addr ≠ 0 := hnext ▸ hrest.headPtr_ne_zero
      rw [List.cons_append, headPtr, lastBlock, if_pos hne, hnext]
      exact ih hrest (Nat.lt_of_succ_lt_succ hfuel)

/-! ## Edits where the other headers are elsewhere -/

theorem chain_setFree (h : Chain m q (pre ++ b :: post))
    (hrest : Off b.addr (b.addr + headerSize) (pre ++ post)) (free : Bool) :
    Chain (setFree m b.addr free) q (pre ++ ⟨b.addr, b.size, free⟩ :: post) := by
  obtain ⟨⟨haddr, hsize, -⟩, hnext⟩ := h.header
  have hmid : Chain (setFree m b.addr free) (headPtr q post) [⟨b.addr, b.size, free⟩] := by
    refine ⟨⟨haddr, ?_, isFree_setFree⟩, ?_, trivial⟩
    · rw [sizeOf_setFree, hsize]
    · rw [nextOf_setFree, hnext]
      rfl
  exact (show Chain m q (pre ++ ([b] ++ post)) from h).edit_off eqOff_setFree hrest hmid rfl

theorem nextOf_lt (m : Mem) (a : Nat) : nextOf m a < 2 ^ 64 := Mem.load_lt

/-- The address lies in no header of the list. -/
def Outside (bs : List Blk) (a : Nat) : Prop :=
  ∀ p ∈ bs.map Blk.addr, a < p ∨ p + headerSize ≤ a

theorem Outside.eqOff (h : Outside bs a) (hb : b ∈ bs)
    (hoff : Mem.EqOff m m' b.addr (b.addr + headerSize)) : m' a = m a :=
  hoff a (h b.addr (List.mem_map_of_mem hb))

/-- The block that `init_new_region` makes of a mapping at `lo`. -/
def wholeBlock (lo size : Nat) : Blk := ⟨lo, regionSize size - headerSize, true⟩

/-- The header that `init_new_region` writes, of a block that ends its list. -/
theorem wholeBlock_chain {lo size : Nat} (hpos : 0 < lo) (hlt : regionSize size < 2 ^ 64) :
    Chain (setNext (setFree (setSize m lo (regionSize size - headerSize)) lo true) lo 0) 0
      [wholeBlock lo size] := by
  refine ⟨⟨Nat.ne_of_gt hpos, ?_, ?_⟩, nextOf_setNext (Nat.two_pow_pos 64), trivial⟩
  · show sizeOf _ lo = regionSize size - headerSize
    rw [sizeOf_setNext, sizeOf_setFree, sizeOf_setSize]
    exact Nat.lt_of_le_of_lt (Nat.sub_le _ _) hlt
  · show isFree _ lo = true
    rw [isFree_setNext, isFree_setFree]

/-- `init_new_region` puts the new block behind the list. -/
theorem initNewRegion_chain {s : State} {lo size : Nat} (hhead : s.head = headPtr 0 bs)
    (h : Chain s.mem 0 bs) (hlen : bs.length < fuel s) (hpos : 0 < lo) (hlt : lo < 2 ^ 64)
    (htotal : headerSize ≤ regionSize size ∧ regionSize size < 2 ^ 64)
    (hnew : Off lo (lo + headerSize) bs)
    (hlast : ∀ pre (c : Blk), bs = pre ++ [c] → Off c.addr (c.addr + headerSize) pre) :
    ∃ m', initNewRegion s size (some lo) = some (⟨m', headPtr 0 (bs ++ [wholeBlock lo size]),
        s.regions ++ [⟨lo, lo + regionSize size⟩]⟩, lo) ∧
      Chain m' 0 (bs ++ [wholeBlock lo size]) ∧
      ∀ a, Outside (bs ++ [wholeBlock lo size]) a → m' a = s.mem a := by
  have hsub : Word.sub 64 (regionSize size) headerSize = regionSize size - headerSize :=
    Word.sub_eq htotal.2 htotal.1
  simp only [initNewRegion]
  rw [hsub]
  generalize hm : setNext (setFree (setSize s.mem lo (regionSize size - headerSize)) lo true) lo 0
    = m
  have heq : Mem.EqOff s.mem m lo (lo + headerSize) :=
    hm ▸ (eqOff_setSize.trans eqOff_setFree).trans eqOff_setNext
  have hfirst : Chain m 0 [wholeBlock lo size] := hm ▸ wholeBlock_chain hpos htotal.2
  have hold : Chain m 0 bs := h.congr fun b hb => sameHeader_of_eqOff heq (hnew b hb)
  rcases List.eq_nil_or_concat bs with rfl | ⟨pre, c, hconcat⟩
  · rw [hhead]
    refine ⟨m, if_pos rfl, hfirst, fun a ha => ?_⟩
    exact ha.eqOff (b := wholeBlock lo size) List.mem_cons_self heq
  · obtain rfl : bs = pre ++ [c] := hconcat.trans List.concat_eq_append
    have hne : s.head ≠ 0 := hhead ▸ h.headPtr_ne_zero
    have hlastBlock : lastBlock m (fuel s) s.head = some c.addr := by
      rw [hhead]
      refine hold.lastBlock_eq ?_
      rw [List.length_append] at hlen
      omega
    have hhead' : s.head = headPtr 0 (pre ++ [c] ++ [wholeBlock lo size]) := by
      rw [hhead, List.append_assoc, headPtr_append, headPtr_append]
      rfl
    rw [if_neg hne, hlastBlock, hhead']
    refine ⟨_, rfl, ?_, fun a ha => ?_⟩
    · rw [List.append_assoc, List.singleton_append]
      refine hold.relink hfirst hlt fun b hb => ?_
      rcases List.mem_append.mp hb with hb | hb
      · exact hlast pre c rfl b hb
      · obtain rfl := List.mem_singleton.mp hb
        exact (hnew c (by simp)).symm
    · have hset := ha.eqOff (b := c) (m := m) (by simp) (eqOff_setNext (v := lo))
      exact hset.trans (ha.eqOff (b := wholeBlock lo size) (by simp) heq)

/-- `my_malloc` of a request that is rounded to `size`. -/
theorem myMalloc_chain {s : State} {n size : Nat} (hhead : s.head = headPtr 0 bs)
    (h : Chain s.mem 0 bs) (hlen : bs.length < fuel s) (hn : n ≠ 0)
    (hsize : alignUp n alignment = size) (os : Option Nat) :
    myMalloc s n os =
      if firstFree size bs ≠ 0 then some (take s (firstFree size bs) size)
      else (initNewRegion s size os).bind fun r =>
        if r.2 = 0 then some (r.1, 0) else some (take r.1 r.2 size) := by
  have hfind : findFreeBlock s size = some (firstFree size bs) := by
    rw [findFreeBlock, hhead]
    exact h.findLoop_eq size hlen
  rw [myMalloc, if_neg hn, hsize]
  show (findFreeBlock s size).bind _ = _
  rw [hfind, Option.bind_some]
  rfl

end CKernel.Malloc.Realloc
