/-
# `CKernel.Malloc.Ptmalloc` — the implicit-list allocator

`mem_sbrk`, `coalesce`, `extend_heap`, `mm_init`, `find_fit`, `place`,
`mm_malloc` and `mm_free` as in `test_ptmalloc.c`; those of `mm.c` differ only in
testing `heap_listp` and `bp` for null first.  Addresses are numbers, memory is
bytes, and every macro is evaluated on the memory of its moment.  `size_t` sums
wrap at 64 bits and the argument of `mem_sbrk` is cut down to `int`, so that the
calls outside the range of the results below are modelled as well.
-/
import CKernel.Lib.Word
import CKernel.Malloc.Tags

namespace CKernel.Malloc.Ptmalloc

/-! ## The code -/

def maxHeap : Nat := 20 * 2 ^ 20

/-- The static variables and the memory. -/
structure State where
  mem : Mem
  heap : Nat
  brk : Nat
  maxAddr : Nat
  listp : Nat

/-- `mem_init()`, where `malloc` returned `base`. -/
def memInit (m : Mem) (base : Nat) : State :=
  { mem := m, heap := base, brk := base, maxAddr := base + maxHeap, listp := 0 }

/-- The value of a `size_t` passed as an `int`. -/
def toInt (n : Nat) : Int :=
  if n % 2 ^ 32 < 2 ^ 31 then (n % 2 ^ 32 : Nat) else (n % 2 ^ 32 : Nat) - 2 ^ 32

/-- `mem_sbrk(incr)`: the old break, or `(void *)-1`. -/
def memSbrk (s : State) (incr : Int) : Option (Nat × State) :=
  if incr < 0 ∨ s.brk + incr > s.maxAddr then none
  else some (s.brk, { s with brk := (s.brk + incr).toNat })

/-- `coalesce(bp)`: the memory after it and the block pointer it returns. -/
def coalesce (m : Mem) (bp : Nat) : Mem × Nat :=
  let prevAlloc := getAlloc m (ftrp m (prevBlkp m bp))
  let nextAlloc := getAlloc m (hdrp (nextBlkp m bp))
  let size := getSize m (hdrp bp)
  if prevAlloc ≠ 0 ∧ nextAlloc ≠ 0 then (m, bp)
  else if prevAlloc ≠ 0 ∧ nextAlloc = 0 then
    let size := size + getSize m (hdrp (nextBlkp m bp))
    (setTags m bp (pack size 0), bp)
  else if prevAlloc = 0 ∧ nextAlloc ≠ 0 then
    let size := size + getSize m (hdrp (prevBlkp m bp))
    let m := put m (ftrp m bp) (pack size 0)
    let m := put m (hdrp (prevBlkp m bp)) (pack size 0)
    (m, prevBlkp m bp)
  else
    -- the sum of two `unsigned int`s
    let size := size + Word.add 32 (getSize m (hdrp (prevBlkp m bp)))
      (getSize m (ftrp m (nextBlkp m bp)))
    let m := put m (hdrp (prevBlkp m bp)) (pack size 0)
    let m := put m (ftrp m (nextBlkp m bp)) (pack size 0)
    (m, prevBlkp m bp)

/-- `extend_heap(words)`: the state and the block pointer, `0` for `NULL`. -/
def extendHeap (s : State) (words : Nat) : State × Nat :=
  let size := if words % 2 ≠ 0 then Word.mul 64 (Word.add 64 words 1) wsize
    else Word.mul 64 words wsize
  match memSbrk s (toInt size) with
  | none => (s, 0)
  | some (bp, s) =>
      let m := setTags s.mem bp (pack size 0)
      let m := put m (hdrp (nextBlkp m bp)) (pack 0 1)
      let r := coalesce m bp
      ({ s with mem := r.1 }, r.2)

/-- The four words that `mm_init` writes. -/
def initWords (m : Mem) (p : Nat) : Mem :=
  let m := put m p 0
  let m := put m (p + 1 * wsize) (pack dsize 1)
  let m := put m (p + 2 * wsize) (pack dsize 1)
  put m (p + 3 * wsize) (pack 0 1)

/-- `mm_init()`: the return value and the state. -/
def mmInit (s : State) : Int × State :=
  match memSbrk s (4 * wsize) with
  | none => (-1, s)
  | some (p, s) =>
      let r := extendHeap { s with mem := initWords s.mem p, listp := p + 2 * wsize }
        (chunksize / wsize)
      if r.2 = 0 then (-1, r.1) else (0, r.1)

/-- The loop of `find_fit`, from `bp` on. -/
def findFitLoop (m : Mem) (asize : Nat) : Nat → Nat → Option Nat
  | 0, _ => none
  | fuel + 1, bp =>
      if getSize m (hdrp bp) > 0 then
        if getAlloc m (hdrp bp) = 0 ∧ asize ≤ getSize m (hdrp bp) then some bp
        else findFitLoop m asize fuel (nextBlkp m bp)
      else some 0

/-- `find_fit(asize)`.  A walk that leaves the heap is cut off. -/
def findFit (s : State) (asize : Nat) : Option Nat :=
  findFitLoop s.mem asize (s.brk - s.heap + 1) s.listp

/-- `place(bp, asize)` -/
def place (m : Mem) (bp asize : Nat) : Mem :=
  let csize := getSize m (hdrp bp)
  if Word.sub 64 csize asize ≥ 2 * dsize then
    let m := setTags m bp (pack asize 1)
    setTags m (nextBlkp m bp) (pack (Word.sub 64 csize asize) 0)
  else setTags m bp (pack csize 1)

/-- The adjusted block size of a request. -/
def adjust (size : Nat) : Nat :=
  if size ≤ dsize then 2 * dsize
  else dsize * (Word.add 64 (Word.add 64 size dsize) (dsize - 1) / dsize)

/-- `mm_malloc(size)`: the state and the pointer, `0` for `NULL`. -/
def mmMalloc (s : State) (size : Nat) : Option (State × Nat) :=
  if size = 0 then some (s, 0)
  else do
    let asize := adjust size
    let bp ← findFit s asize
    if bp ≠ 0 then some ({ s with mem := place s.mem bp asize }, bp)
    else
      let r := extendHeap s (max asize chunksize / wsize)
      if r.2 = 0 then some (r.1, 0)
      else some ({ r.1 with mem := place r.1.mem r.2 asize }, r.2)

/-- `mm_free(bp)` -/
def mmFree (s : State) (bp : Nat) : State :=
  let size := getSize s.mem (hdrp bp)
  { s with mem := (coalesce (setTags s.mem bp (pack size 0)) bp).1 }

/-! ## Runs -/

inductive Op where
  | malloc (size : Nat)
  | free (p : Nat)
  deriving DecidableEq, Repr

/-- One call, with the pointers handed out and not yet given back. -/
def step (s : State × List Nat) : Op → Option (State × List Nat)
  | .malloc size => do
      let (s', p) ← mmMalloc s.1 size
      some (s', if p = 0 then s.2 else p :: s.2)
  | .free p => some (mmFree s.1 p, s.2.erase p)

/-- Requests fit the `int` of `mem_sbrk`; only live pointers are freed. -/
def Allowed (s : State × List Nat) : Op → Prop
  | .malloc size => size < 2 ^ 31 - 16
  | .free p => p ∈ s.2

instance decidableAllowed (s : State × List Nat) (op : Op) : Decidable (Allowed s op) :=
  match op with
  | .malloc size => inferInstanceAs (Decidable (size < 2 ^ 31 - 16))
  | .free p => inferInstanceAs (Decidable (p ∈ s.2))

end CKernel.Malloc.Ptmalloc
