/-
# `CKernel.Malloc.FlspWide` — the free lists with 8-byte pointers

`flsp.c` keeps the successor of a node `WSIZE = 4` bytes behind its predecessor.  With
pointers of 8 bytes, in a little-endian memory, the two fields share four bytes, and
the successor of a node reaches four bytes further, into the footer of a block of 16.

    what each of the shared words holds after `insert_node`   (`insertNode_wrote`)
    when the node and the old head come out right              (`inserted_iff`)
-/
import CKernel.Malloc.Flsp

namespace CKernel.Malloc.FlspWide

open Flsp (State getIndex)

variable {m : Mem} {s : State} {bp p q v head size : Nat}

/-! ## The code -/

/-- `GET_PRED(bp)` -/
def getPred (m : Mem) (bp : Nat) : Nat := m.load 8 bp

/-- `GET_SUCC(bp)` -/
def getSucc (m : Mem) (bp : Nat) : Nat := m.load 8 (bp + wsize)

/-- `SET_PRED(bp, val)` -/
def setPred (m : Mem) (bp val : Nat) : Mem := m.store 8 bp val

/-- `SET_SUCC(bp, val)` -/
def setSucc (m : Mem) (bp val : Nat) : Mem := m.store 8 (bp + wsize) val

/-- `insert_node(bp, size)` -/
def insertNode (s : State) (bp size : Nat) : State :=
  let index := getIndex size
  let m := setSucc s.mem bp (s.freeLists index)
  let m := setPred m bp 0
  let m := if s.freeLists index ≠ 0 then setPred m (s.freeLists index) bp else m
  { s with mem := m, freeLists := Function.update s.freeLists index bp }

/-! ## Words -/

theorem get_put_low : get (put m p v) p = v % 2 ^ 32 := Mem.load_store_self

theorem get_put_high (hv : v < 2 ^ 64) : get (put m p (v / 2 ^ 32)) p = v / 2 ^ 32 :=
  get_put_self (by omega)

theorem getPred_eq (m : Mem) (bp : Nat) : getPred m bp = get m bp + 2 ^ 32 * get m (bp + 4) :=
  Mem.load_add (n := 4) (k := 4)

theorem getSucc_eq (m : Mem) (bp : Nat) :
    getSucc m bp = get m (bp + 4) + 2 ^ 32 * get m (bp + 8) :=
  Mem.load_add (n := 4) (k := 4)

theorem setPred_eq (m : Mem) (bp v : Nat) :
    setPred m bp v = put (put m bp v) (bp + 4) (v / 2 ^ 32) :=
  Mem.store_add (n := 4) (k := 4)

theorem setSucc_eq (m : Mem) (bp v : Nat) :
    setSucc m bp v = put (put m (bp + 4) v) (bp + 8) (v / 2 ^ 32) :=
  Mem.store_add (n := 4) (k := 4)

theorem get_setPred_low : get (setPred m bp v) bp = v % 2 ^ 32 := by
  rw [setPred_eq, get_put_of_disjoint (.inl (Nat.le_refl _)), get_put_low]

theorem get_setPred_high (hv : v < 2 ^ 64) : get (setPred m bp v) (bp + 4) = v / 2 ^ 32 := by
  rw [setPred_eq, get_put_high hv]

theorem get_setSucc_high (hv : v < 2 ^ 64) : get (setSucc m bp v) (bp + 8) = v / 2 ^ 32 := by
  rw [setSucc_eq, get_put_high hv]

theorem get_setPred_of_disjoint (h : q + 4 ≤ bp ∨ bp + 8 ≤ q) :
    get (setPred m bp v) q = get m q :=
  Mem.load_store_of_disjoint h

theorem get_setSucc_of_disjoint (h : q + 4 ≤ bp ∨ bp + 12 ≤ q) :
    get (setSucc m bp v) q = get m q :=
  Mem.load_store_of_disjoint (by rw [wsize]; omega)

/-! ## `insert_node` -/

/-- The words of the new node and of the old head, and all others. -/
structure Wrote (m m' : Mem) (bp head : Nat) : Prop where
  pred : get m' bp = 0
  shared : get m' (bp + 4) = 0
  succ : get m' (bp + 8) = head / 2 ^ 32
  headPred : head ≠ 0 → get m' head = bp % 2 ^ 32
  headShared : head ≠ 0 → get m' (head + 4) = bp / 2 ^ 32
  rest : ∀ q, q + 4 ≤ bp ∨ bp + 12 ≤ q → (head ≠ 0 → q + 4 ≤ head ∨ head + 8 ≤ q) →
    get m' q = get m q

theorem insertNode_wrote (hhead : s.freeLists (getIndex size) = head) (hbp : bp < 2 ^ 64)
    (hlt : head < 2 ^ 64) (hapart : head ≠ 0 → head + 8 ≤ bp ∨ bp + 12 ≤ head) :
    Wrote s.mem (insertNode s bp size).mem bp head := by
  have hmem : (insertNode s bp size).mem =
      if head ≠ 0 then setPred (setPred (setSucc s.mem bp head) bp 0) head bp
        else setPred (setSucc s.mem bp head) bp 0 := by
    rw [← hhead]
    rfl
  rw [hmem]
  -- `SET_PRED(bp, NULL)` clears the low half of the successor
  have hpred : get (setPred (setSucc s.mem bp head) bp 0) bp = 0 := get_setPred_low
  have hshared : get (setPred (setSucc s.mem bp head) bp 0) (bp + 4) = 0 :=
    get_setPred_high (by decide)
  have hsucc : get (setPred (setSucc s.mem bp head) bp 0) (bp + 8) = head / 2 ^ 32 := by
    rw [get_setPred_of_disjoint (.inr (Nat.le_refl _)), get_setSucc_high hlt]
  have hrest : ∀ q, q + 4 ≤ bp ∨ bp + 12 ≤ q →
      get (setPred (setSucc s.mem bp head) bp 0) q = get s.mem q := by
    intro q hq
    rw [get_setPred_of_disjoint (by omega), get_setSucc_of_disjoint hq]
  by_cases hnull : head = 0
  · rw [if_neg (not_not_intro hnull)]
    exact ⟨hpred, hshared, hsucc, fun hne => absurd hnull hne, fun hne => absurd hnull hne,
      fun q hq _ => hrest q hq⟩
  · have haway := hapart hnull
    rw [if_pos hnull]
    refine ⟨?_, ?_, ?_, fun _ => get_setPred_low, fun _ => get_setPred_high hbp,
      fun q hq hqhead => ?_⟩
    · rw [get_setPred_of_disjoint (by omega), hpred]
    · rw [get_setPred_of_disjoint (by omega), hshared]
    · rw [get_setPred_of_disjoint (by omega), hsucc]
    · rw [get_setPred_of_disjoint (hqhead hnull), hrest q hq]

/-- What `insert_node` is for: the tags of the block stay, it stands before the old head,
and nothing behind that changes. -/
structure Inserted (s s' : State) (bp head : Nat) : Prop where
  hdr : get s'.mem (hdrp bp) = get s.mem (hdrp bp)
  ftr : get s'.mem (ftrp s.mem bp) = get s.mem (ftrp s.mem bp)
  pred : getPred s'.mem bp = 0
  succ : getSucc s'.mem bp = head
  headPred : head ≠ 0 → getPred s'.mem head = bp
  headSucc : head ≠ 0 → getSucc s'.mem head = getSucc s.mem head

/-- The values that survive the overlaps: the footer of a block of 16 is overwritten with
the high half of the head, the low half of the head with null, and the low half of the
head's successor with the high half of the pointer. -/
def Survives (m : Mem) (bp size head : Nat) : Prop :=
  (size = 16 → head / 2 ^ 32 = 16) ∧ head % 2 ^ 32 = 0 ∧
    (head ≠ 0 → get m (head + wsize) = bp / 2 ^ 32)

instance decidableSurvives (m : Mem) (bp size head : Nat) : Decidable (Survives m bp size head) :=
  inferInstanceAs (Decidable (_ ∧ _))

section
variable (w : Wrote s.mem (insertNode s bp size).mem bp head)
include w

theorem Wrote.ftr_iff (hfree : Tagged s.mem (hdrp bp) ⟨size, false⟩) (hsize : 16 ≤ size)
    (hpos : 4 ≤ bp) (hapart : head ≠ 0 → head + 16 ≤ bp ∨ bp + size ≤ head) :
    get (insertNode s bp size).mem (ftrp s.mem bp) = get s.mem (ftrp s.mem bp) ↔
      (size = 16 → head / 2 ^ 32 = 16) := by
  obtain ⟨a, rfl⟩ := Nat.exists_eq_add_of_le' hpos
  have htag : Tagged s.mem a ⟨size, false⟩ := hfree
  have hdvd : 8 ∣ size := htag.ok.dvd
  have hfooter : get s.mem (a + size - 4) = size := htag.ftr.trans htag.ok.tag_eq
  rw [htag.ftrp_eq, hfooter]
  by_cases hsmall : size = 16
  · subst hsmall
    rw [show a + 16 - 4 = a + 4 + 8 by omega, w.succ]
    exact ⟨fun heq _ => heq, fun himp => himp rfl⟩
  · refine iff_of_true ?_ fun heq => absurd heq hsmall
    rw [w.rest (a + size - 4) (by omega), hfooter]
    intro hne
    have haway := hapart hne
    omega

theorem Wrote.succ_iff : getSucc (insertNode s bp size).mem bp = head ↔ head % 2 ^ 32 = 0 := by
  rw [getSucc_eq, w.shared, w.succ]
  omega

theorem Wrote.pred_node : getPred (insertNode s bp size).mem bp = 0 := by
  rw [getPred_eq, w.pred, w.shared, Nat.mul_zero]

theorem Wrote.pred_head (hne : head ≠ 0) : getPred (insertNode s bp size).mem head = bp := by
  rw [getPred_eq, w.headPred hne, w.headShared hne]
  exact Nat.mod_add_div bp (2 ^ 32)

theorem Wrote.headSucc_iff (hne : head ≠ 0) (haway : head + 12 ≤ bp ∨ bp + 12 ≤ head) :
    getSucc (insertNode s bp size).mem head = getSucc s.mem head ↔
      get s.mem (head + wsize) = bp / 2 ^ 32 := by
  have hhigh : get (insertNode s bp size).mem (head + 8) = get s.mem (head + 8) :=
    w.rest (head + 8) (by omega) fun _ => .inr (Nat.le_refl _)
  rw [getSucc_eq, getSucc_eq, w.headShared hne, hhigh, Nat.add_right_cancel_iff]
  exact eq_comm

end

/-- A free block that is put in front of a list is linked, and nothing is damaged, if and
only if the values that share bytes agree there. -/
theorem inserted_iff (s : State) (bp size head : Nat)
    (hhead : s.freeLists (getIndex size) = head) (hfree : Tagged s.mem (hdrp bp) ⟨size, false⟩)
    (hsize : 16 ≤ size) (hpos : 4 ≤ bp) (hbp : bp < 2 ^ 64) (hlt : head < 2 ^ 64)
    (hapart : head ≠ 0 → head + 16 ≤ bp ∨ bp + size ≤ head) :
    Inserted s (insertNode s bp size) bp head ↔ Survives s.mem bp size head := by
  have hword : head ≠ 0 → head + 12 ≤ bp ∨ bp + 12 ≤ head := by
    intro hne
    have haway := hapart hne
    omega
  have hwrote : Wrote s.mem (insertNode s bp size).mem bp head := by
    refine insertNode_wrote hhead hbp hlt fun hne => ?_
    have haway := hword hne
    omega
  constructor
  · intro h
    refine ⟨(hwrote.ftr_iff hfree hsize hpos hapart).mp h.ftr, hwrote.succ_iff.mp h.succ,
      fun hne => (hwrote.headSucc_iff hne (hword hne)).mp (h.headSucc hne)⟩
  · rintro ⟨hftr, hsucc, hheadSucc⟩
    refine ⟨hwrote.rest _ (.inl ?_) fun hne => ?_, (hwrote.ftr_iff hfree hsize hpos hapart).mpr hftr,
      hwrote.pred_node, hwrote.succ_iff.mpr hsucc, hwrote.pred_head,
      fun hne => (hwrote.headSucc_iff hne (hword hne)).mpr (hheadSucc hne)⟩
    · rw [hdrp, wsize]
      omega
    · have haway := hapart hne
      rw [hdrp, wsize]
      omega

/-- Free blocks of 24 and of `size` bytes, 4096 bytes apart. -/
def twoFree (size : Nat) (freeLists : Nat → Nat) : State where
  mem := setTags (setTags (fun _ => 0) 0x7fff00001010 (pack 24 0)) 0x7fff00002010 (pack size 0)
  freeLists := freeLists
  heap := 0x7fff00000000
  brk := 0x7fff00003000
  listp := 0x7fff00000008

theorem twoFree_tagged {freeLists : Nat → Nat} (hok : Block.Ok ⟨size, false⟩) :
    Tagged (twoFree size freeLists).mem (hdrp 0x7fff00002010) ⟨size, false⟩ :=
  (setTags_ok (a := 0x7fff0000200c) hok).1

/-- An empty list takes a block of 24 bytes, and takes the footer from one of 16. -/
theorem inserted_iff_empty :
    Inserted (twoFree 24 fun _ => 0) (insertNode (twoFree 24 fun _ => 0) 0x7fff00002010 24)
        0x7fff00002010 0 ∧
      ¬ Inserted (twoFree 16 fun _ => 0) (insertNode (twoFree 16 fun _ => 0) 0x7fff00002010 16)
        0x7fff00002010 0 := by
  have hlarge : Block.Ok ⟨24, false⟩ := ⟨by decide, by decide, by decide⟩
  have hsmall : Block.Ok ⟨16, false⟩ := ⟨by decide, by decide, by decide⟩
  constructor
  · exact (inserted_iff (twoFree 24 fun _ => 0) 0x7fff00002010 24 0 rfl (twoFree_tagged hlarge)
      (by decide) (by decide) (by decide) (by decide) (by decide)).mpr (by decide)
  · exact mt (inserted_iff (twoFree 16 fun _ => 0) 0x7fff00002010 16 0 rfl (twoFree_tagged hsmall)
      (by decide) (by decide) (by decide) (by decide) (by decide)).mp (by decide)

/-- In front of another block the low half of the successor is lost. -/
theorem insert_loses_successor :
    ¬ ∀ (s : State) (bp size head : Nat), s.freeLists (getIndex size) = head →
      Tagged s.mem (hdrp bp) ⟨size, false⟩ → 16 ≤ size → 4 ≤ bp → bp < 2 ^ 64 → head < 2 ^ 64 →
      (head ≠ 0 → head + 16 ≤ bp ∨ bp + size ≤ head) →
      Inserted s (insertNode s bp size) bp head := by
  intro hclaim
  have hok : Block.Ok ⟨24, false⟩ := ⟨by decide, by decide, by decide⟩
  have hsucc := (hclaim (twoFree 24 fun i => if i = 0 then 0x7fff00001010 else 0) 0x7fff00002010 24
    0x7fff00001010 (by decide) (twoFree_tagged hok) (by decide) (by decide) (by decide) (by decide)
    (by decide)).succ
  have hlost : getSucc (insertNode (twoFree 24 fun i => if i = 0 then 0x7fff00001010 else 0)
      0x7fff00002010 24).mem 0x7fff00002010 = 0x7fff00000000 := by decide +kernel
  rw [hlost] at hsucc
  exact absurd hsucc (by decide)

end CKernel.Malloc.FlspWide
