/-
# `CKernel.Malloc.Realloc` — `my_malloc`, `my_free` and `my_realloc`

The allocator of `my_realloc.cpp`: one singly linked list of headers through all
regions obtained from the operating system.  Memory is bytes and every field of
a `BlockHeader` is read and written in place, in program order: `size` at offset
0, `is_free` at 8, `next` at 16.

What `mmap` answers is an argument of the call that may ask for it, an address or
`none`.  The ranges it returned are kept beside the state.  They decide nothing
in the code; they say what the results are about, and they bound every walk along
the list, which is cut off (`none`) when it is longer than the regions have room
for.
-/
import CKernel.Lib.Extents
import CKernel.Lib.Mem
import CKernel.Lib.Word

namespace CKernel.Malloc.Realloc

/-! ## The code -/

/-- `ALIGNMENT` -/
def alignment : Nat := 16

/-- `MMAP_THRESHOLED` -/
def mmapThresholed : Nat := 4096

/-- `ALIGN_UP(size, align)` on `size_t` -/
def alignUp (size align : Nat) : Nat :=
  Word.sub 64 (Word.add 64 size align) 1 &&& (2 ^ 64 - align)

/-- `HEADER_SIZE`: `sizeof(BlockHeader)` is 24. -/
def headerSize : Nat := 32

/-- `block->size` -/
def sizeOf (m : Mem) (block : Nat) : Nat := m.load 8 block

/-- `block->is_free` -/
def isFree (m : Mem) (block : Nat) : Bool := m.load 1 (block + 8) != 0

/-- `block->next` -/
def nextOf (m : Mem) (block : Nat) : Nat := m.load 8 (block + 16)

def setSize (m : Mem) (block size : Nat) : Mem := m.store 8 block size

def setFree (m : Mem) (block : Nat) (free : Bool) : Mem := m.store 1 (block + 8) free.toNat

def setNext (m : Mem) (block next : Nat) : Mem := m.store 8 (block + 16) next

/-- The global list and, beside it, the ranges that `mmap` returned. -/
structure State where
  mem : Mem
  head : Nat
  regions : List Extent

/-- `g_heap_head` is null; the memory may hold anything. -/
def make (m : Mem) : State := ⟨m, 0, []⟩

/-- More steps than there can be blocks. -/
def fuel (s : State) : Nat := (s.regions.map fun r => r.hi - r.lo).sum + 1

/-- `while (curr->next) curr = curr->next;` -/
def lastBlock (m : Mem) : Nat → Nat → Option Nat
  | 0, _ => none
  | fuel + 1, curr =>
      if nextOf m curr ≠ 0 then lastBlock m fuel (nextOf m curr) else some curr

/-- The length of the region asked for. -/
def regionSize (payloadSize : Nat) : Nat :=
  alignUp (Word.add 64 headerSize payloadSize) mmapThresholed

/-- `init_new_region(payload_size)`: the state and the block, `0` for null. -/
def initNewRegion (s : State) (payloadSize : Nat) : Option Nat → Option (State × Nat)
  | none => some (s, 0)
  | some block =>
      let totalSize := regionSize payloadSize
      let m := setSize s.mem block (Word.sub 64 totalSize headerSize)
      let m := setFree m block true
      let m := setNext m block 0
      let regions := s.regions ++ [⟨block, block + totalSize⟩]
      if s.head = 0 then some (⟨m, block, regions⟩, block)
      else (lastBlock m (fuel s) s.head).map fun curr =>
        (⟨setNext m curr block, s.head, regions⟩, block)

/-- The loop of `find_free_block`. -/
def findLoop (m : Mem) (size : Nat) : Nat → Nat → Option Nat
  | 0, _ => none
  | fuel + 1, curr =>
      if curr = 0 then some 0
      else if isFree m curr ∧ size ≤ sizeOf m curr then some curr
      else findLoop m size fuel (nextOf m curr)

def findFreeBlock (s : State) (size : Nat) : Option Nat := findLoop s.mem size (fuel s) s.head

/-- `(uint8_t*)block + HEADER_SIZE + payload`, where a new header goes. -/
def headerBehind (block payload : Nat) : Nat :=
  Word.add 64 (Word.add 64 block headerSize) payload

/-- `split_block(block, needed_payload)` -/
def splitBlock (m : Mem) (block needed : Nat) : Mem :=
  let remaining := Word.sub 64 (sizeOf m block) needed
  if remaining > headerSize + alignment then
    let newBlock := headerBehind block needed
    let m := setSize m newBlock (Word.sub 64 remaining headerSize)
    let m := setFree m newBlock true
    let m := setNext m newBlock (nextOf m block)
    let m := setSize m block needed
    setNext m block newBlock
  else m

/-- The loop of `coalesce`. -/
def coalesceLoop : Nat → Mem → Nat → Option Mem
  | 0, _, _ => none
  | fuel + 1, m, curr =>
      if curr ≠ 0 ∧ nextOf m curr ≠ 0 then
        if isFree m curr ∧ isFree m (nextOf m curr) then
          let m := setSize m curr
            (Word.add 64 (sizeOf m curr) (Word.add 64 headerSize (sizeOf m (nextOf m curr))))
          let m := setNext m curr (nextOf m (nextOf m curr))
          coalesceLoop fuel m curr
        else coalesceLoop fuel m (nextOf m curr)
      else some m

def coalesce (s : State) : Option State :=
  (coalesceLoop (fuel s) s.mem s.head).map fun m => { s with mem := m }

/-- The last part of `my_malloc`. -/
def take (s : State) (block size : Nat) : State × Nat :=
  ({ s with mem := splitBlock (setFree s.mem block false) block size }, block + headerSize)

/-- `my_malloc(size)`: the state and the pointer, `0` for null. -/
def myMalloc (s : State) (size : Nat) (os : Option Nat) : Option (State × Nat) :=
  if size = 0 then some (s, 0)
  else do
    let size := alignUp size alignment
    let block ← findFreeBlock s size
    if block ≠ 0 then some (take s block size)
    else do
      let (s, block) ← initNewRegion s size os
      if block = 0 then some (s, 0) else some (take s block size)

/-- `my_free(ptr)` -/
def myFree (s : State) (ptr : Nat) : Option State :=
  if ptr = 0 then some s
  else coalesce { s with mem := setFree s.mem (ptr - headerSize) true }

/-- The size of a block together with the one behind it. -/
def combined (m : Mem) (block : Nat) : Nat :=
  Word.add 64 (Word.add 64 (sizeOf m block) headerSize) (sizeOf m (nextOf m block))

/-- The test of the in-place growth branch. -/
def canGrow (m : Mem) (block newSize : Nat) : Bool :=
  nextOf m block != 0 && isFree m (nextOf m block) && decide (newSize ≤ combined m block)

/-- The in-place growth branch. -/
def grow (m : Mem) (block newSize : Nat) : Mem :=
  let leftover := Word.sub 64 (combined m block) newSize
  let m := setSize m block newSize
  if leftover > headerSize + alignment then
    let remainder := headerBehind block newSize
    let m := setSize m remainder (Word.sub 64 leftover headerSize)
    let m := setFree m remainder true
    let m := setNext m remainder (nextOf m (nextOf m block))
    setNext m block remainder
  else setNext m block (nextOf m (nextOf m block))

/-- `my_realloc(ptr, new_size)` -/
def myRealloc (s : State) (ptr newSize : Nat) (os : Option Nat) : Option (State × Nat) :=
  if newSize = 0 then (myFree s ptr).map fun s => (s, 0)
  else if ptr = 0 then myMalloc s newSize os
  else
    let newSize := alignUp newSize alignment
    let block := ptr - headerSize
    let oldSize := sizeOf s.mem block
    if oldSize ≥ newSize then some ({ s with mem := splitBlock s.mem block newSize }, ptr)
    else if canGrow s.mem block newSize then
      some ({ s with mem := grow s.mem block newSize }, ptr)
    else do
      let (s, newPtr) ← myMalloc s newSize os
      if newPtr = 0 then some (s, 0)
      else do
        let s ← myFree { s with mem := s.mem.copy newPtr ptr oldSize } ptr
        some (s, newPtr)

/-! ## Runs -/

/-- The calls, with what `mmap` answers if it is asked. -/
inductive Op where
  | malloc (size : Nat) (os : Option Nat)
  | free (ptr : Nat)
  | realloc (ptr size : Nat) (os : Option Nat)
  deriving DecidableEq, Repr

/-- The pointers handed out, after a call that took `ptr` and returned `ret`. -/
def relive (live : List Nat) (ptr ret : Nat) : List Nat :=
  if ret = 0 then live else ret :: live.erase ptr

/-- One call, with the pointers handed out and not yet given back. -/
def step (s : State × List Nat) : Op → Option (State × List Nat)
  | .malloc size os => (myMalloc s.1 size os).map fun r => (r.1, relive s.2 0 r.2)
  | .free ptr => (myFree s.1 ptr).map fun s' => (s', s.2.erase ptr)
  | .realloc ptr size os => (myRealloc s.1 ptr size os).map fun r =>
      (r.1, if size = 0 then s.2.erase ptr else relive s.2 ptr r.2)

/-- No size computed for the request wraps. -/
def NoWrap (size : Nat) : Prop := (size + 15) / 16 * 16 + headerSize + mmapThresholed < 2 ^ 64

/-- What is assumed of `mmap`: a page-aligned range of the length asked for, in
the address space and disjoint from the ranges returned before, or a failure. -/
def Mmap (s : State) (len : Nat) : Option Nat → Prop
  | none => True
  | some lo => 0 < lo ∧ mmapThresholed ∣ lo ∧ lo + len ≤ 2 ^ 64 ∧
      ∀ r ∈ s.regions, r.hi ≤ lo ∨ lo + len ≤ r.lo

/-- The calls the results are about. -/
def Allowed (s : State × List Nat) : Op → Prop
  | .malloc size os => NoWrap size ∧ Mmap s.1 (regionSize (alignUp size alignment)) os
  | .free ptr => ptr = 0 ∨ ptr ∈ s.2
  | .realloc ptr size os => NoWrap size ∧ Mmap s.1 (regionSize (alignUp size alignment)) os ∧
      (ptr = 0 ∨ ptr ∈ s.2)

end CKernel.Malloc.Realloc
