/-
# `CKernel.Malloc.Flsp` — the segregated-fit allocator

`flsp.c` with 4-byte pointers: the first two words of a free block are its links in
one of fifteen lists, chosen by its size.  Memory, addresses and boundary tags are
those of `CKernel.Malloc.Tags`; `size_t` sums wrap at 32 bits and the argument of
`mem_sbrk` is cut down to `int`.  The heads of the lists are not in the heap.
-/
import CKernel.Lib.Links
import CKernel.Malloc.Ptmalloc

namespace CKernel.Malloc.Flsp

open Ptmalloc (toInt initWords)

/-! ## The code -/

def seglistCount : Nat := 15

/-- The bytes that `mem_init` allocates. -/
def arena : Nat := 20 * 1024 * 1024

/-- The static variables and the memory. -/
structure State where
  mem : Mem
  freeLists : Nat → Nat
  heap : Nat
  brk : Nat
  listp : Nat

/-- `mem_init()`, where `malloc` returned `base`. -/
def memInit (m : Mem) (base : Nat) : State :=
  { mem := m, freeLists := fun _ => 0, heap := base, brk := base, listp := 0 }

/-- `mem_sbrk(incr)`: the old break, or `(void *)-1`. -/
def memSbrk (s : State) (incr : Int) : Option (Nat × State) :=
  if incr < 0 then none else some (s.brk, { s with brk := (s.brk + incr).toNat })

/-- `GET_PRED(bp)` -/
abbrev getPred (m : Mem) (bp : Nat) : Nat := Links.pred m bp

/-- `GET_SUCC(bp)` -/
abbrev getSucc (m : Mem) (bp : Nat) : Nat := Links.succ m bp

/-- `SET_PRED(bp, val)` -/
abbrev setPred (m : Mem) (bp val : Nat) : Mem := Links.setPred m bp val

/-- `SET_SUCC(bp, val)` -/
abbrev setSucc (m : Mem) (bp val : Nat) : Mem := Links.setSucc m bp val

/-- `get_index(size)` -/
def getIndex (size : Nat) : Nat :=
  ((List.range (seglistCount - 1)).find? fun i => size ≤ 32 <<< i).getD (seglistCount - 1)

/-- `insert_node(bp, size)` -/
def insertNode (s : State) (bp size : Nat) : State :=
  let index := getIndex size
  let m := setSucc s.mem bp (s.freeLists index)
  let m := setPred m bp 0
  let m := if s.freeLists index ≠ 0 then setPred m (s.freeLists index) bp else m
  { s with mem := m, freeLists := Function.update s.freeLists index bp }

/-- `delete_node(bp)` -/
def deleteNode (s : State) (bp : Nat) : State :=
  let index := getIndex (getSize s.mem (hdrp bp))
  let s :=
    if getPred s.mem bp ≠ 0 then
      { s with mem := setSucc s.mem (getPred s.mem bp) (getSucc s.mem bp) }
    else { s with freeLists := Function.update s.freeLists index (getSucc s.mem bp) }
  if getSucc s.mem bp ≠ 0 then
    { s with mem := setPred s.mem (getSucc s.mem bp) (getPred s.mem bp) }
  else s

/-- `PUT(HDRP(bp), val); PUT(FTRP(bp), val)` -/
def putTags (s : State) (bp val : Nat) : State := { s with mem := setTags s.mem bp val }

/-- `coalesce`, the block before: the state, `bp` and `size` -/
def mergePrev (s : State) (bp size : Nat) : State × Nat × Nat :=
  let s := deleteNode s (prevBlkp s.mem bp)
  let size := Word.add 32 size (getSize s.mem (hdrp (prevBlkp s.mem bp)))
  let bp := prevBlkp s.mem bp
  (putTags s bp (pack size 0), bp, size)

/-- `coalesce`, the block behind: the state and `size` -/
def mergeNext (s : State) (bp size : Nat) : State × Nat :=
  let s := deleteNode s (nextBlkp s.mem bp)
  let size := Word.add 32 size (getSize s.mem (hdrp (nextBlkp s.mem bp)))
  (putTags s bp (pack size 0), size)

/-- `coalesce(bp)`: the state and the block pointer it returns -/
def coalesce (s : State) (bp : Nat) : State × Nat :=
  let prevAlloc := getAlloc s.mem (ftrp s.mem (prevBlkp s.mem bp))
  let nextAlloc := getAlloc s.mem (hdrp (nextBlkp s.mem bp))
  let size := getSize s.mem (hdrp bp)
  let (s, bp, size) := if prevAlloc = 0 then mergePrev s bp size else (s, bp, size)
  let (s, size) := if nextAlloc = 0 then mergeNext s bp size else (s, size)
  (insertNode s bp size, bp)

/-- `extend_heap(words)`: the state and the block pointer, `0` for `NULL` -/
def extendHeap (s : State) (words : Nat) : State × Nat :=
  let size := if words % 2 ≠ 0 then Word.mul 32 (Word.add 32 words 1) wsize
    else Word.mul 32 words wsize
  match memSbrk s (toInt size) with
  | none => (s, 0)
  | some (bp, s) =>
      let m := setTags s.mem bp (pack size 0)
      let m := put m (hdrp (nextBlkp m bp)) (pack 0 1)
      coalesce { s with mem := m } bp

/-- `mm_init()`: the return value and the state -/
def mmInit (s : State) : Int × State :=
  let s := { s with freeLists := fun i => if i < seglistCount then 0 else s.freeLists i }
  match memSbrk s (4 * wsize) with
  | none => (-1, s)
  | some (p, s) =>
      let r := extendHeap { s with mem := initWords s.mem p, listp := p + 2 * wsize }
        (chunksize / wsize)
      if r.2 = 0 then (-1, r.1) else (0, r.1)

/-- `place(bp, asize)` -/
def place (s : State) (bp asize : Nat) : State :=
  let csize := getSize s.mem (hdrp bp)
  let s := deleteNode s bp
  if Word.sub 32 csize asize ≥ 2 * dsize then
    let s := putTags s bp (pack asize 1)
    let bp := nextBlkp s.mem bp
    let s := putTags s bp (pack (Word.sub 32 csize asize) 0)
    insertNode s bp (Word.sub 32 csize asize)
  else putTags s bp (pack csize 1)

/-- The adjusted block size of a request. -/
def adjust (size : Nat) : Nat :=
  if size ≤ dsize then 2 * dsize
  else dsize * (Word.add 32 (Word.add 32 size dsize) 7 / dsize)

/-- The inner loop of `mm_malloc`, from `bp` on; `0` if it runs to the end. -/
def searchList (m : Mem) (asize : Nat) : Nat → Nat → Option Nat
  | 0, _ => none
  | fuel + 1, bp =>
      if bp = 0 then some 0
      else if asize ≤ getSize m (hdrp bp) then some bp
      else searchList m asize fuel (getSucc m bp)

/-- The outer loop, over `n` lists from list `i` on.  A walk along links that never
end is cut off. -/
def searchLists (s : State) (asize : Nat) : Nat → Nat → Option Nat
  | 0, _ => some 0
  | n + 1, i => do
      let bp ← searchList s.mem asize (s.brk - s.heap + 1) (s.freeLists i)
      if bp ≠ 0 then some bp else searchLists s asize n (i + 1)

/-- `find_fit(asize)`, which `mm_malloc` spells out -/
def findFit (s : State) (asize : Nat) : Option Nat :=
  searchLists s asize (seglistCount - getIndex asize) (getIndex asize)

/-- `mm_malloc(size)`: the state and the pointer, `0` for `NULL` -/
def mmMalloc (s : State) (size : Nat) : Option (State × Nat) :=
  if size = 0 then some (s, 0)
  else do
    let asize := adjust size
    let bp ← searchLists s asize (seglistCount - getIndex asize) (getIndex asize)
    if bp ≠ 0 then some (place s bp asize, bp)
    else
      let r := extendHeap s (max asize chunksize / wsize)
      if r.2 = 0 then some (r.1, 0) else some (place r.1 r.2 asize, r.2)

/-- `mm_free(bp)` -/
def mmFree (s : State) (bp : Nat) : State :=
  let size := getSize s.mem (hdrp bp)
  (coalesce (putTags s bp (pack size 0)) bp).1

/-! ## Runs -/

inductive Op where
  | malloc (size : Nat)
  | free (p : Nat)
  deriving DecidableEq, Repr

/-- One call, with the pointers handed out and not yet given back. -/
def step (s : State × List Nat) : Op → Option (State × List Nat)
  | .malloc size => do
      let (s', p) ← mmMalloc s.1 size
      some (s', if p = 0 then s.2 else p :: s.2)
  | .free p => some (mmFree s.1 p, s.2.erase p)

/-- Requests fit the `int` of `mem_sbrk`, only live pointers are freed, and the break
stays inside the arena. -/
def Allowed (s : State × List Nat) (op : Op) : Prop :=
  (match op with
    | .malloc size => size < 2 ^ 31 - 16
    | .free p => p ∈ s.2) ∧
  ∀ s' ∈ step s op, s'.1.brk ≤ s'.1.heap + arena

instance decidableAllowed (s : State × List Nat) : ∀ op, Decidable (Allowed s op)
  | .malloc size => inferInstanceAs (Decidable (size < 2 ^ 31 - 16 ∧ _))
  | .free p => inferInstanceAs (Decidable (p ∈ s.2 ∧ _))

end CKernel.Malloc.Flsp
