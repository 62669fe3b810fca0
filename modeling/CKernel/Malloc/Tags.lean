/-
# `CKernel.Malloc.Tags` — boundary tags in memory

The macros that `test_ptmalloc.c`, `mm.c` and `flsp.c` share, and what they read
from a heap whose blocks carry a header and an equal footer.  A block is its
size and its allocated bit; `Laid m a bs` says that the blocks `bs` stand one
after the other from the header address `a` on.

    two writes give a block its tags                          (`setTags_ok`)
    a piece of the layout may be exchanged for another of
      the same length by writes inside it                     (`Laid.replace`)
-/
import CKernel.Lib.Mem
import CKernel.Lib.Word

namespace CKernel.Malloc

/-! ## The macros -/

def wsize : Nat := 4

def dsize : Nat := 8

def chunksize : Nat := 4096

/-- `PACK(size, alloc)` -/
def pack (size alloc : Nat) : Nat := size ||| alloc

/-- `GET(p)`, an `unsigned int` -/
def get (m : Mem) (p : Nat) : Nat := m.load 4 p

/-- `PUT(p, val)` -/
def put (m : Mem) (p val : Nat) : Mem := m.store 4 p val

/-- `GET_SIZE(p)`, with `~0x7` as an `unsigned int` -/
def getSize (m : Mem) (p : Nat) : Nat := get m p &&& 0xFFFFFFF8

/-- `GET_ALLOC(p)` -/
def getAlloc (m : Mem) (p : Nat) : Nat := get m p &&& 0x1

/-- `HDRP(bp)` -/
def hdrp (bp : Nat) : Nat := bp - wsize

/-- `FTRP(bp)` -/
def ftrp (m : Mem) (bp : Nat) : Nat := bp + getSize m (hdrp bp) - dsize

/-- `NEXT_BLKP(bp)` -/
def nextBlkp (m : Mem) (bp : Nat) : Nat := bp + getSize m (bp - wsize)

/-- `PREV_BLKP(bp)` -/
def prevBlkp (m : Mem) (bp : Nat) : Nat := bp - getSize m (bp - dsize)

/-- `PUT(HDRP(bp), val); PUT(FTRP(bp), val)`, the footer found through the new
header. -/
def setTags (m : Mem) (bp val : Nat) : Mem :=
  put (put m (hdrp bp) val) (ftrp (put m (hdrp bp) val) bp) val

/-- The writes of `extend_heap`: a new block in place of the epilogue. -/
def appendBlock (m : Mem) (bp size : Nat) : Mem :=
  put (setTags m bp (pack size 0)) (hdrp (nextBlkp (setTags m bp (pack size 0)) bp)) (pack 0 1)

/-! ## Blocks and their tags -/

structure Block where
  size : Nat
  alloc : Bool
  deriving DecidableEq, Repr

namespace Block

/-- The word in the header and in the footer. -/
def tag (b : Block) : Nat := pack b.size b.alloc.toNat

/-- Sizes that the tag can carry: room for both tags, low bits free, 32 bits. -/
structure Ok (b : Block) : Prop where
  dvd : 8 ∣ b.size
  le : 8 ≤ b.size
  lt : b.size < 2 ^ 32

end Block

theorem and_mask {w : Nat} (hw : w < 2 ^ 32) : w &&& 0xFFFFFFF8 = 8 * (w / 8) :=
  Word.and_high (w := 32) (k := 3) (by decide) hw

theorem pack_eq {size alloc : Nat} (hdvd : 8 ∣ size) (halloc : alloc < 8) :
    pack size alloc = size + alloc := by
  obtain ⟨q, rfl⟩ := hdvd
  exact (Nat.two_pow_add_eq_or_of_lt (i := 3) halloc q).symm

namespace Block

variable {b : Block}

theorem Ok.tag_eq (h : b.Ok) : b.tag = b.size + b.alloc.toNat :=
  pack_eq h.dvd (Nat.lt_of_le_of_lt (Bool.toNat_le b.alloc) (by decide))

theorem Ok.tag_lt (h : b.Ok) : b.tag < 2 ^ 32 := by
  have hbit := Bool.toNat_le b.alloc
  have hdvd := h.dvd
  have hlt := h.lt
  rw [h.tag_eq]
  omega

end Block

variable {m m' : Mem} {a p bp lo hi : Nat} {b : Block} {bs bs' : List Block}

theorem getSize_of_tag (h : b.Ok) (hget : get m p = b.tag) : getSize m p = b.size := by
  have hbit := Bool.toNat_le b.alloc
  have hdvd := h.dvd
  rw [getSize, hget, and_mask h.tag_lt, h.tag_eq]
  omega

theorem getAlloc_of_tag (h : b.Ok) (hget : get m p = b.tag) : getAlloc m p = b.alloc.toNat := by
  have hbit := Bool.toNat_le b.alloc
  have hdvd := h.dvd
  rw [getAlloc, hget, Nat.and_one_is_mod, h.tag_eq]
  omega

theorem get_put_self {v : Nat} (hv : v < 2 ^ 32) : get (put m p v) p = v := by
  rw [get, put, Mem.load_store_self]
  exact Nat.mod_eq_of_lt hv

theorem get_put_of_disjoint {v q : Nat} (h : q + 4 ≤ p ∨ p + 4 ≤ q) :
    get (put m p v) q = get m q :=
  Mem.load_store_of_disjoint h

theorem eqOff_put {v : Nat} (hlo : lo ≤ p) (hhi : p + 4 ≤ hi) : Mem.EqOff m (put m p v) lo hi :=
  Mem.eqOff_store.mono hlo hhi

theorem get_of_eqOff (h : Mem.EqOff m m' lo hi) (hp : p + 4 ≤ lo ∨ hi ≤ p) :
    get m' p = get m p :=
  h.load hp

/-! ## Layouts -/

/-- The bytes that blocks take. -/
def total (bs : List Block) : Nat := (bs.map Block.size).sum

@[simp] theorem total_nil : total [] = 0 := rfl

@[simp] theorem total_cons (b : Block) (bs : List Block) : total (b :: bs) = b.size + total bs := rfl

@[simp] theorem total_append (bs bs' : List Block) : total (bs ++ bs') = total bs + total bs' := by
  rw [total, List.map_append, List.sum_append, total, total]

/-- Header at `a`, footer in the last word. -/
structure Tagged (m : Mem) (a : Nat) (b : Block) : Prop where
  ok : b.Ok
  hdr : get m a = b.tag
  ftr : get m (a + b.size - 4) = b.tag

/-- The blocks stand one after the other from `a` on. -/
def Laid (m : Mem) : Nat → List Block → Prop
  | _, [] => True
  | a, b :: bs => Tagged m a b ∧ Laid m (a + b.size) bs

theorem laid_append : Laid m a (bs ++ bs') ↔ Laid m a bs ∧ Laid m (a + total bs) bs' := by
  induction bs generalizing a with
  | nil => exact ⟨fun h => ⟨trivial, h⟩, fun h => h.2⟩
  | cons b bs ih =>
      rw [List.cons_append, Laid, Laid, ih, total_cons, Nat.add_assoc, and_assoc]

theorem Tagged.congr (h : Tagged m a b)
    (hagree : ∀ q, a ≤ q → q + 4 ≤ a + b.size → get m' q = get m q) : Tagged m' a b := by
  have hle := h.ok.le
  refine ⟨h.ok, ?_, ?_⟩
  · rw [hagree a (Nat.le_refl a) (by omega)]
    exact h.hdr
  · rw [hagree _ (by omega) (by omega)]
    exact h.ftr

theorem Laid.congr (h : Laid m a bs)
    (hagree : ∀ q, a ≤ q → q + 4 ≤ a + total bs → get m' q = get m q) : Laid m' a bs := by
  induction bs generalizing a with
  | nil => trivial
  | cons b bs ih =>
      rw [total_cons] at hagree
      refine ⟨h.1.congr fun q hlow hhigh => ?_, ih h.2 fun q hlow hhigh => ?_⟩
      · exact hagree q hlow (by omega)
      · exact hagree q (by omega) (by omega)

/-- Writes inside a piece of the layout that leave other blocks of the same
length there. -/
theorem Laid.replace {pre mid mid' post : List Block} (h : Laid m a (pre ++ (mid ++ post)))
    (hoff : Mem.EqOff m m' (a + total pre) (a + total pre + total mid))
    (hmid : Laid m' (a + total pre) mid') (htotal : total mid' = total mid) :
    Laid m' a (pre ++ (mid' ++ post)) := by
  rw [laid_append, laid_append] at h ⊢
  obtain ⟨hpre, -, hpost⟩ := h
  refine ⟨hpre.congr fun q hlow hhigh => ?_, hmid, ?_⟩
  · exact get_of_eqOff hoff (.inl hhigh)
  · rw [htotal]
    refine hpost.congr fun q hlow hhigh => ?_
    exact get_of_eqOff hoff (.inr hlow)

/-! ## What the macros read -/

theorem Tagged.getSize_hdr (h : Tagged m a b) : getSize m (hdrp (a + 4)) = b.size :=
  getSize_of_tag h.ok h.hdr

theorem Tagged.getAlloc_hdr (h : Tagged m a b) : getAlloc m (hdrp (a + 4)) = b.alloc.toNat :=
  getAlloc_of_tag h.ok h.hdr

theorem Tagged.ftrp_eq (h : Tagged m a b) : ftrp m (a + 4) = a + b.size - 4 := by
  rw [ftrp, h.getSize_hdr, dsize]
  omega

theorem Tagged.nextBlkp_eq (h : Tagged m a b) : nextBlkp m (a + 4) = a + b.size + 4 := by
  have hsize : getSize m (a + 4 - wsize) = b.size := h.getSize_hdr
  rw [nextBlkp, hsize, Nat.add_right_comm]

/-- From the block behind, through the footer. -/
theorem Tagged.prevBlkp_eq (h : Tagged m a b) : prevBlkp m (a + b.size + 4) = a + 4 := by
  have hle := h.ok.le
  have hfooter : a + b.size + 4 - dsize = a + b.size - 4 := by rw [dsize]; omega
  have hsize : getSize m (a + b.size - 4) = b.size := getSize_of_tag h.ok h.ftr
  rw [prevBlkp, hfooter, hsize]
  omega

/-- Both tags of one block, written in either order. -/
theorem tagged_put_put (h : b.Ok) :
    Tagged (put (put m a b.tag) (a + b.size - 4) b.tag) a b ∧
      Tagged (put (put m (a + b.size - 4) b.tag) a b.tag) a b := by
  have hle := h.le
  refine ⟨⟨h, ?_, get_put_self h.tag_lt⟩, ⟨h, get_put_self h.tag_lt, ?_⟩⟩
  · rw [get_put_of_disjoint (by omega), get_put_self h.tag_lt]
  · rw [get_put_of_disjoint (by omega), get_put_self h.tag_lt]

theorem setTags_eq (h : b.Ok) :
    setTags m (a + 4) b.tag = put (put m a b.tag) (a + b.size - 4) b.tag := by
  have hsize : getSize (put m a b.tag) a = b.size := getSize_of_tag h (get_put_self h.tag_lt)
  have hftr : ftrp (put m a b.tag) (a + 4) = a + b.size - 4 := by
    rw [ftrp, hdrp, wsize, dsize, Nat.add_sub_cancel, hsize]
    omega
  rw [setTags, hdrp, wsize, Nat.add_sub_cancel, hftr]

theorem setTags_ok (h : b.Ok) :
    Tagged (setTags m (a + 4) b.tag) a b ∧
      Mem.EqOff m (setTags m (a + 4) b.tag) a (a + b.size) := by
  have hle := h.le
  rw [setTags_eq h]
  refine ⟨(tagged_put_put h).1, (eqOff_put ?_ ?_).trans (eqOff_put ?_ ?_)⟩
  · exact Nat.le_refl a
  · omega
  · omega
  · omega

end CKernel.Malloc
