/-
# `CKernel.Malloc.ReallocRecords` — what `my_realloc` does with the bytes it has

The code of `my_realloc.cpp` once more, over any memory that has block headers.
Over bytes it is the code of `CKernel.Malloc.Realloc` (`myRealloc_bytes`); over
headers that are records of their own no header can lie over another, and what is
left to judge is the accounting.

    a result that is the argument comes from the two branches that do not move
                                                               (`myRealloc_same`)
    header and size of all blocks add up to the region after the call
      ⟺ growth did not swallow a remainder of 1 to 48 bytes   (`myRealloc_accounts_iff`)
-/
import CKernel.Malloc.ReallocGrow

namespace CKernel.Malloc.Realloc.Records

/-! ## The code -/

/-- Memory as the code uses it: the three fields of the header at an address, and
`memcpy`. -/
class Headers (M : Type) where
  sizeOf : M → Nat → Nat
  isFree : M → Nat → Bool
  nextOf : M → Nat → Nat
  setSize : M → Nat → Nat → M
  setFree : M → Nat → Bool → M
  setNext : M → Nat → Nat → M
  copy : M → Nat → Nat → Nat → M

export Headers (sizeOf isFree nextOf setSize setFree setNext copy)

/-- The global list and the ranges that `mmap` returned. -/
structure Heap (M : Type) where
  mem : M
  head : Nat
  regions : List Extent

section Code
variable {M : Type} [Headers M]

def fuel (s : Heap M) : Nat := (s.regions.map fun r => r.hi - r.lo).sum + 1

/-- `while (curr->next) curr = curr->next;` -/
def lastBlock (m : M) : Nat → Nat → Option Nat
  | 0, _ => none
  | fuel + 1, curr =>
      if nextOf m curr ≠ 0 then lastBlock m fuel (nextOf m curr) else some curr

/-- `init_new_region(payload_size)` -/
def initNewRegion (s : Heap M) (payloadSize : Nat) : Option Nat → Option (Heap M × Nat)
  | none => some (s, 0)
  | some block =>
      let totalSize := regionSize payloadSize
      let m := setSize s.mem block (Word.sub 64 totalSize headerSize)
      let m := setFree m block true
      let m := setNext m block 0
      let regions := s.regions ++ [⟨block, block + totalSize⟩]
      if s.head = 0 then some (⟨m, block, regions⟩, block)
      else (lastBlock m (fuel s) s.head).map fun curr =>
        (⟨setNext m curr block, s.head, regions⟩, block)

def findLoop (m : M) (size : Nat) : Nat → Nat → Option Nat
  | 0, _ => none
  | fuel + 1, curr =>
      if curr = 0 then some 0
      else if isFree m curr ∧ size ≤ sizeOf m curr then some curr
      else findLoop m size fuel (nextOf m curr)

/-- `find_free_block(size)` -/
def findFreeBlock (s : Heap M) (size : Nat) : Option Nat := findLoop s.mem size (fuel s) s.head

/-- `split_block(block, needed_payload)` -/
def splitBlock (m : M) (block needed : Nat) : M :=
  let remaining := Word.sub 64 (sizeOf m block) needed
  if remaining > headerSize + alignment then
    let newBlock := headerBehind block needed
    let m := setSize m newBlock (Word.sub 64 remaining headerSize)
    let m := setFree m newBlock true
    let m := setNext m newBlock (nextOf m block)
    let m := setSize m block needed
    setNext m block newBlock
  else m

def coalesceLoop : Nat → M → Nat → Option M
  | 0, _, _ => none
  | fuel + 1, m, curr =>
      if curr ≠ 0 ∧ nextOf m curr ≠ 0 then
        if isFree m curr ∧ isFree m (nextOf m curr) then
          let m := setSize m curr
            (Word.add 64 (sizeOf m curr) (Word.add 64 headerSize (sizeOf m (nextOf m curr))))
          let m := setNext m curr (nextOf m (nextOf m curr))
          coalesceLoop fuel m curr
        else coalesceLoop fuel m (nextOf m curr)
      else some m

def coalesce (s : Heap M) : Option (Heap M) :=
  (coalesceLoop (fuel s) s.mem s.head).map fun m => { s with mem := m }

def take (s : Heap M) (block size : Nat) : Heap M × Nat :=
  ({ s with mem := splitBlock (setFree s.mem block false) block size }, block + headerSize)

/-- `my_malloc(size)` -/
def myMalloc (s : Heap M) (size : Nat) (os : Option Nat) : Option (Heap M × Nat) :=
  if size = 0 then some (s, 0)
  else do
    let size := alignUp size alignment
    let block ← findFreeBlock s size
    if block ≠ 0 then some (take s block size)
    else do
      let (s, block) ← initNewRegion s size os
      if block = 0 then some (s, 0) else some (take s block size)

/-- `my_free(ptr)` -/
def myFree (s : Heap M) (ptr : Nat) : Option (Heap M) :=
  if ptr = 0 then some s
  else coalesce { s with mem := setFree s.mem (ptr - headerSize) true }

def combined (m : M) (block : Nat) : Nat :=
  Word.add 64 (Word.add 64 (sizeOf m block) headerSize) (sizeOf m (nextOf m block))

def canGrow (m : M) (block newSize : Nat) : Bool :=
  nextOf m block != 0 && isFree m (nextOf m block) && decide (newSize ≤ combined m block)

def grow (m : M) (block newSize : Nat) : M :=
  let leftover := Word.sub 64 (combined m block) newSize
  let m := setSize m block newSize
  if leftover > headerSize + alignment then
    let remainder := headerBehind block newSize
    let m := setSize m remainder (Word.sub 64 leftover headerSize)
    let m := setFree m remainder true
    let m := setNext m remainder (nextOf m (nextOf m block))
    setNext m block remainder
  else setNext m block (nextOf m (nextOf m block))

/-- `my_realloc(ptr, new_size)` -/
def myRealloc (s : Heap M) (ptr newSize : Nat) (os : Option Nat) : Option (Heap M × Nat) :=
  if newSize = 0 then (myFree s ptr).map fun s => (s, 0)
  else if ptr = 0 then myMalloc s newSize os
  else
    let newSize := alignUp newSize alignment
    let block := ptr - headerSize
    let oldSize := sizeOf s.mem block
    if oldSize ≥ newSize then some ({ s with mem := splitBlock s.mem block newSize }, ptr)
    else if canGrow s.mem block newSize then
      some ({ s with mem := grow s.mem block newSize }, ptr)
    else do
      let (s, newPtr) ← myMalloc s newSize os
      if newPtr = 0 then some (s, 0)
      else do
        let s ← myFree { s with mem := copy s.mem newPtr ptr oldSize } ptr
        some (s, newPtr)

/-- The blocks reachable from a pointer. -/
def walk (m : M) : Nat → Nat → Option (List Blk)
  | 0, _ => none
  | fuel + 1, p =>
      if p = 0 then some []
      else (walk m fuel (nextOf m p)).map fun bs => ⟨p, sizeOf m p, isFree m p⟩ :: bs

/-- Header and size of all blocks, added up. -/
def total (bs : List Blk) : Nat := (bs.map fun b => headerSize + b.size).sum

/-- The bytes the list from `g_heap_head` accounts for. -/
def accounted (s : Heap M) : Option Nat := (walk s.mem (fuel s) s.head).map total

end Code

/-! ## Over bytes -/

instance : Headers Mem :=
  ⟨Realloc.sizeOf, Realloc.isFree, Realloc.nextOf, Realloc.setSize, Realloc.setFree,
    Realloc.setNext, Mem.copy⟩

def Heap.toState (s : Heap Mem) : State := ⟨s.mem, s.head, s.regions⟩

def ofBytes (r : Option (Heap Mem × Nat)) : Option (State × Nat) :=
  r.map fun r => (r.1.toState, r.2)

theorem lastBlock_bytes (m : Mem) (fuel curr : Nat) :
    lastBlock m fuel curr = Realloc.lastBlock m fuel curr := by
  induction fuel generalizing curr with
  | zero => rfl
  | succ fuel ih =>
      rw [lastBlock, Realloc.lastBlock, ih]
      rfl

theorem findLoop_bytes (m : Mem) (size fuel curr : Nat) :
    findLoop m size fuel curr = Realloc.findLoop m size fuel curr := by
  induction fuel generalizing curr with
  | zero => rfl
  | succ fuel ih =>
      rw [findLoop, Realloc.findLoop, ih]
      rfl

theorem coalesceLoop_bytes (fuel : Nat) (m : Mem) (curr : Nat) :
    coalesceLoop fuel m curr = Realloc.coalesceLoop fuel m curr := by
  induction fuel generalizing m curr with
  | zero => rfl
  | succ fuel ih =>
      rw [coalesceLoop, Realloc.coalesceLoop]
      simp only [ih]
      rfl

theorem initNewRegion_bytes (s : Heap Mem) (size : Nat) (os : Option Nat) :
    ofBytes (initNewRegion s size os) = Realloc.initNewRegion s.toState size os := by
  cases os with
  | none => rfl
  | some block =>
      by_cases hhead : s.head = 0
      · have hhead' : s.toState.head = 0 := hhead
        simp only [initNewRegion, Realloc.initNewRegion, if_pos hhead, if_pos hhead']
        rfl
      · have hhead' : ¬ s.toState.head = 0 := hhead
        simp only [initNewRegion, Realloc.initNewRegion, if_neg hhead, if_neg hhead',
          lastBlock_bytes, ofBytes, Option.map_map]
        rfl

theorem myMalloc_bytes (s : Heap Mem) (size : Nat) (os : Option Nat) :
    ofBytes (myMalloc s size os) = Realloc.myMalloc s.toState size os := by
  by_cases hzero : size = 0
  · rw [myMalloc, Realloc.myMalloc, if_pos hzero, if_pos hzero]
    rfl
  · rw [myMalloc, Realloc.myMalloc, if_neg hzero, if_neg hzero]
    generalize alignUp size alignment = needed
    have hfind : findFreeBlock s needed = Realloc.findFreeBlock s.toState needed :=
      findLoop_bytes _ _ _ _
    show ofBytes ((findFreeBlock s needed).bind _) = (Realloc.findFreeBlock _ needed).bind _
    rw [hfind]
    cases Realloc.findFreeBlock s.toState needed with
    | none => rfl
    | some block =>
        rw [Option.bind_some, Option.bind_some]
        by_cases hblock : block ≠ 0
        · rw [if_pos hblock, if_pos hblock]
          rfl
        · rw [if_neg hblock, if_neg hblock, ← initNewRegion_bytes]
          cases initNewRegion s needed os with
          | none => rfl
          | some r =>
              show ofBytes (if r.2 = 0 then some (r.1, 0) else some (take r.1 r.2 needed)) =
                if r.2 = 0 then some (r.1.toState, 0) else some (Realloc.take r.1.toState r.2 needed)
              split
              · rfl
              · rfl

theorem myFree_bytes (s : Heap Mem) (ptr : Nat) :
    (myFree s ptr).map Heap.toState = Realloc.myFree s.toState ptr := by
  by_cases hptr : ptr = 0
  · rw [myFree, Realloc.myFree, if_pos hptr, if_pos hptr]
    rfl
  · rw [myFree, Realloc.myFree, if_neg hptr, if_neg hptr, coalesce, Realloc.coalesce,
      coalesceLoop_bytes, Option.map_map]
    rfl

/-- Over bytes this is the same code. -/
theorem myRealloc_bytes (s : Heap Mem) (ptr newSize : Nat) (os : Option Nat) :
    ofBytes (myRealloc s ptr newSize os) = Realloc.myRealloc s.toState ptr newSize os := by
  by_cases hnew : newSize = 0
  · rw [myRealloc, Realloc.myRealloc, if_pos hnew, if_pos hnew, ← myFree_bytes, ofBytes,
      Option.map_map, Option.map_map]
    rfl
  · by_cases hptr : ptr = 0
    · rw [myRealloc, Realloc.myRealloc, if_neg hnew, if_neg hnew, if_pos hptr, if_pos hptr,
        myMalloc_bytes]
    · simp only [myRealloc, Realloc.myRealloc, if_neg hnew, if_neg hptr]
      generalize alignUp newSize alignment = needed
      show ofBytes (if sizeOf s.mem (ptr - headerSize) ≥ needed then _ else _) =
        if sizeOf s.mem (ptr - headerSize) ≥ needed then _ else _
      by_cases hshrink : sizeOf s.mem (ptr - headerSize) ≥ needed
      · rw [if_pos hshrink, if_pos hshrink]
        rfl
      · rw [if_neg hshrink, if_neg hshrink]
        show ofBytes (if canGrow s.mem (ptr - headerSize) needed = true then _ else _) =
          if canGrow s.mem (ptr - headerSize) needed = true then _ else _
        by_cases hgrow : canGrow s.mem (ptr - headerSize) needed = true
        · rw [if_pos hgrow, if_pos hgrow]
          rfl
        · rw [if_neg hgrow, if_neg hgrow, ← myMalloc_bytes]
          cases myMalloc s needed os with
          | none => rfl
          | some r =>
              let moved : Heap Mem :=
                { r.1 with mem := copy r.1.mem r.2 ptr (sizeOf s.mem (ptr - headerSize)) }
              show ofBytes (if r.2 = 0 then some (r.1, 0)
                  else (myFree moved ptr).bind fun s => some (s, r.2)) =
                if r.2 = 0 then some (r.1.toState, 0)
                else (Realloc.myFree moved.toState ptr).bind fun s => some (s, r.2)
              rw [← myFree_bytes]
              by_cases hnull : r.2 = 0
              · rw [if_pos hnull, if_pos hnull]
                rfl
              · rw [if_neg hnull, if_neg hnull]
                cases myFree moved ptr with
                | none => rfl
                | some s' => rfl

/-! ## Over records -/

structure Header where
  size : Nat
  isFree : Bool
  next : Nat
  deriving DecidableEq, Repr

/-- A header at every address, whatever is at the others, and the bytes of payloads. -/
structure HeaderMap where
  headers : Nat → Header
  payload : Mem

instance : Headers HeaderMap where
  sizeOf m a := (m.headers a).size
  isFree m a := (m.headers a).isFree
  nextOf m a := (m.headers a).next
  setSize m a v := { m with headers := Function.update m.headers a { m.headers a with size := v } }
  setFree m a v := { m with headers := Function.update m.headers a { m.headers a with isFree := v } }
  setNext m a v := { m with headers := Function.update m.headers a { m.headers a with next := v } }
  copy m dst src n := { m with payload := m.payload.copy dst src n }

variable {m m' : HeaderMap} {a q lo hi needed newSize : Nat} {b c x y : Blk}
  {bs cs pre mid mid' post : List Blk}

theorem headers_setSize {v : Nat} : (setSize m a v).headers =
    Function.update m.headers a { m.headers a with size := v } := rfl

theorem headers_setFree {v : Bool} : (setFree m a v).headers =
    Function.update m.headers a { m.headers a with isFree := v } := rfl

theorem headers_setNext {v : Nat} : (setNext m a v).headers =
    Function.update m.headers a { m.headers a with next := v } := rfl

theorem sizeOf_eq : sizeOf m a = (m.headers a).size := rfl

theorem isFree_eq : isFree m a = (m.headers a).isFree := rfl

theorem nextOf_eq : nextOf m a = (m.headers a).next := rfl

/-- The headers of `bs`, linked in order and ending in `q`. -/
def Linked (m : HeaderMap) (q : Nat) : List Blk → Prop
  | [] => True
  | b :: bs => b.addr ≠ 0 ∧ m.headers b.addr = ⟨b.size, b.free, headPtr q bs⟩ ∧ Linked m q bs

instance decidableLinked (m : HeaderMap) (q : Nat) : (bs : List Blk) → Decidable (Linked m q bs)
  | [] => isTrue trivial
  | _ :: bs =>
      have := decidableLinked m q bs
      inferInstanceAs (Decidable (_ ∧ _ ∧ _))

theorem linked_append :
    Linked m q (bs ++ cs) ↔ Linked m (headPtr q cs) bs ∧ Linked m q cs := by
  induction bs with
  | nil => exact ⟨fun h => ⟨trivial, h⟩, And.right⟩
  | cons b bs ih =>
      rw [List.cons_append, Linked, Linked, ih, headPtr_append, and_assoc, and_assoc]

theorem Linked.congr (h : Linked m q bs) (hsame : ∀ b ∈ bs, m'.headers b.addr = m.headers b.addr) :
    Linked m' q bs := by
  induction bs with
  | nil => trivial
  | cons b bs ih =>
      obtain ⟨haddr, hb, hrest⟩ := h
      refine ⟨haddr, (hsame b List.mem_cons_self).trans hb, ih hrest fun c hc => ?_⟩
      exact hsame c (List.mem_cons_of_mem _ hc)

/-- Some blocks are exchanged for others that start at the same address. -/
theorem Linked.edit (h : Linked m q (pre ++ (mid ++ post)))
    (hsame : ∀ b ∈ pre ++ post, m'.headers b.addr = m.headers b.addr)
    (hmid : Linked m' (headPtr q post) mid')
    (hhead : headPtr (headPtr q post) mid' = headPtr (headPtr q post) mid) :
    Linked m' q (pre ++ (mid' ++ post)) := by
  rw [linked_append, linked_append] at h ⊢
  obtain ⟨hpre, -, hpost⟩ := h
  rw [headPtr_append, hhead, ← headPtr_append]
  refine ⟨hpre.congr fun b hb => ?_, hmid, hpost.congr fun b hb => ?_⟩
  · exact hsame b (List.mem_append_left _ hb)
  · exact hsame b (List.mem_append_right _ hb)

theorem Linked.header (h : Linked m q (pre ++ b :: post)) :
    b.addr ≠ 0 ∧ m.headers b.addr = ⟨b.size, b.free, headPtr q post⟩ := by
  obtain ⟨-, haddr, hb, -⟩ := linked_append.mp h
  exact ⟨haddr, hb⟩

theorem Linked.walk_eq (h : Linked m 0 bs) {fuel : Nat} (hfuel : bs.length < fuel) :
    walk m fuel (headPtr 0 bs) = some bs := by
  induction bs generalizing fuel with
  | nil =>
      obtain ⟨n, rfl⟩ := Nat.exists_eq_add_one_of_ne_zero (Nat.ne_of_gt hfuel)
      rfl
  | cons b bs ih =>
      obtain ⟨n, rfl⟩ := Nat.exists_eq_add_one_of_ne_zero (Nat.ne_of_gt (Nat.zero_lt_of_lt hfuel))
      obtain ⟨haddr, hb, hrest⟩ := h
      rw [headPtr, walk, if_neg haddr, nextOf_eq, sizeOf_eq, isFree_eq, hb,
        ih hrest (Nat.lt_of_succ_lt_succ hfuel)]
      rfl

/-! ### The two branches that do not move the block -/

theorem splitBlock_linked (h : Linked m q (pre ++ b :: post)) (hle : needed ≤ b.size)
    (hlt : b.addr + headerSize + b.size ≤ 2 ^ 64)
    (hrest : ∀ c ∈ pre ++ post, c.addr < b.addr ∨ b.addr + headerSize + b.size ≤ c.addr) :
    Linked (splitBlock m b.addr needed) q (pre ++ (splitL b needed ++ post)) := by
  obtain ⟨haddr, hb⟩ := h.header
  have h32 : headerSize = 32 := rfl
  have hsub : Word.sub 64 b.size needed = b.size - needed := Word.sub_eq (by omega) hle
  simp only [splitBlock]
  rw [sizeOf_eq, hb, hsub, splitL]
  by_cases hbig : b.size - needed > headerSize + alignment
  · have hsub' : Word.sub 64 (b.size - needed) headerSize = b.size - needed - headerSize :=
      Word.sub_eq (by omega) (by omega)
    have hnew : headerBehind b.addr needed = b.addr + headerSize + needed :=
      headerBehind_eq (by omega)
    rw [if_pos hbig, if_pos hbig, hsub', hnew]
    have hne : b.addr ≠ b.addr + headerSize + needed := by omega
    refine (show Linked m q (pre ++ ([b] ++ post)) from h).edit (fun c hc => ?_) ?_ rfl
    · have haway := hrest c hc
      have hcb : c.addr ≠ b.addr := by omega
      have hcn : c.addr ≠ b.addr + headerSize + needed := by omega
      simp only [headers_setSize, headers_setFree, headers_setNext, Function.update_of_ne hcb,
        Function.update_of_ne hcn]
    · simp only [Linked, headers_setSize, headers_setFree, headers_setNext, nextOf_eq, hb, headPtr,
        Function.update_self, Function.update_of_ne hne, Function.update_of_ne hne.symm]
      exact ⟨haddr, trivial, by omega, trivial, trivial⟩
  · rw [if_neg hbig, if_neg hbig]
    exact h

section Grow
variable (h : Linked m q (pre ++ x :: y :: post)) (hnext : y.addr = x.addr + headerSize + x.size)
  (hend : y.addr + headerSize + y.size ≤ 2 ^ 64)
include h hnext hend

theorem combined_eq : combined m x.addr = x.size + headerSize + y.size := by
  obtain ⟨-, hx⟩ := h.header
  obtain ⟨-, -, -, -, hy, -⟩ := linked_append.mp h
  have h32 : headerSize = 32 := rfl
  have hadd : Word.add 64 x.size headerSize = x.size + headerSize := Word.add_eq (by omega)
  rw [combined, sizeOf_eq, nextOf_eq, sizeOf_eq, hx, headPtr, hy]
  show Word.add 64 (Word.add 64 x.size headerSize) y.size = _
  rw [hadd, Word.add_eq (by omega)]

theorem grow_linked (hlt : x.size < newSize) (hle : newSize ≤ x.size + headerSize + y.size)
    (hrest : ∀ c ∈ pre ++ post, c.addr < x.addr ∨ y.addr + headerSize + y.size ≤ c.addr) :
    Linked (grow m x.addr newSize) q (pre ++ (growL x y newSize ++ post)) := by
  obtain ⟨haddr, hx⟩ := h.header
  obtain ⟨-, -, -, -, hy, -⟩ := linked_append.mp h
  have h32 : headerSize = 32 := rfl
  have hsub : Word.sub 64 (x.size + headerSize + y.size) newSize =
      x.size + headerSize + y.size - newSize := Word.sub_eq (by omega) hle
  have hlist : Linked m q (pre ++ ([x, y] ++ post)) := h
  have hyx : y.addr ≠ x.addr := by omega
  have hcx : ∀ c ∈ pre ++ post, c.addr ≠ x.addr := by
    intro c hc
    have haway := hrest c hc
    omega
  simp only [grow]
  rw [combined_eq h hnext hend, hsub, growL]
  by_cases hbig : x.size + headerSize + y.size - newSize > headerSize + alignment
  · have hsub' : Word.sub 64 (x.size + headerSize + y.size - newSize) headerSize =
        x.size + headerSize + y.size - newSize - headerSize := Word.sub_eq (by omega) (by omega)
    have hrem : headerBehind x.addr newSize = x.addr + headerSize + newSize :=
      headerBehind_eq (by omega)
    rw [if_pos hbig, if_pos hbig, hsub', hrem]
    -- the remainder's record is neither that of `x` nor that of `y`
    have hne : x.addr ≠ x.addr + headerSize + newSize := by omega
    have hney : y.addr ≠ x.addr + headerSize + newSize := by omega
    refine hlist.edit (fun c hc => ?_) ?_ rfl
    · have hcr : c.addr ≠ x.addr + headerSize + newSize := by
        have haway := hrest c hc
        omega
      simp only [headers_setSize, headers_setFree, headers_setNext,
        Function.update_of_ne (hcx c hc), Function.update_of_ne hcr]
    · simp only [Linked, headers_setSize, headers_setFree, headers_setNext, nextOf_eq, hx, hy,
        headPtr, Function.update_self, Function.update_of_ne hne, Function.update_of_ne hne.symm,
        Function.update_of_ne hney, Function.update_of_ne hyx]
      exact ⟨haddr, trivial, by omega, trivial, trivial⟩
  · rw [if_neg hbig, if_neg hbig]
    refine hlist.edit (fun c hc => ?_) ?_ rfl
    · simp only [headers_setSize, headers_setNext, Function.update_of_ne (hcx c hc)]
    · simp only [Linked, headers_setSize, headers_setNext, nextOf_eq, hx, hy, headPtr,
        Function.update_self, Function.update_of_ne hyx]
      exact ⟨haddr, trivial, trivial⟩

end Grow

/-! ### Adding up -/

theorem total_append : total (bs ++ cs) = total bs + total cs := by
  rw [total, List.map_append, List.sum_append]
  rfl

theorem total_cons : total (b :: bs) = headerSize + b.size + total bs := by
  rw [total, List.map_cons, List.sum_cons]
  rfl

theorem length_le_total (bs : List Blk) : bs.length ≤ total bs := by
  induction bs with
  | nil => exact Nat.le_refl _
  | cons b bs ih =>
      rw [total_cons, List.length_cons, headerSize]
      omega

/-- Blocks that tile a range add up to its length. -/
theorem total_of_tiles (h : Tiles lo (bs.map Blk.extent) hi) : lo + total bs = hi := by
  induction bs generalizing lo with
  | nil => exact h
  | cons b bs ih =>
      obtain ⟨hlo, hrest⟩ := h
      have hlo' : b.addr = lo := hlo
      have hend := ih hrest
      rw [total_cons, ← hlo', ← hend]
      show b.addr + _ = b.addr + headerSize + b.size + _
      omega

theorem total_splitL (hle : needed ≤ b.size) : total (splitL b needed) = headerSize + b.size := by
  rw [splitL]
  split
  · rw [total_cons, total_cons]
    show headerSize + needed + (headerSize + (b.size - needed - headerSize) + 0) = _
    omega
  · rfl

/-- What growing `x` to `newSize` over `y` leaves without making a block of it. -/
def swallowed (x y : Blk) (newSize : Nat) : Nat :=
  if x.size + headerSize + y.size - newSize > headerSize + alignment then 0
  else x.size + headerSize + y.size - newSize

theorem total_growL (hle : newSize ≤ x.size + headerSize + y.size) :
    total (growL x y newSize) + swallowed x y newSize =
      headerSize + x.size + (headerSize + y.size) := by
  rw [growL, swallowed]
  split
  · rw [total_cons, total_cons]
    show headerSize + newSize +
      (headerSize + (x.size + headerSize + y.size - newSize - headerSize) + 0) + 0 = _
    omega
  · rw [total_cons]
    show headerSize + newSize + 0 + _ = _
    omega

/-! ## One call -/

/-- The list `bs` from `g_heap_head` tiles the only region. -/
structure OneRegion (s : Heap HeaderMap) (lo hi : Nat) (bs : List Blk) : Prop where
  regions : s.regions = [⟨lo, hi⟩]
  head : s.head = headPtr 0 bs
  linked : Linked s.mem 0 bs
  tiles : Tiles lo (bs.map Blk.extent) hi
  bound : hi ≤ 2 ^ 64

/-- What is assumed of `mmap`: a range of the length asked for, disjoint from those
returned before, or a failure, which is also its answer to length 0. -/
def Mmap (s : Heap HeaderMap) (len : Nat) : Option Nat → Prop
  | none => True
  | some lo => 0 < len ∧ ∀ r ∈ s.regions, r.hi ≤ lo ∨ lo + len ≤ r.lo

variable {s s' : Heap HeaderMap} {n : Nat} {os : Option Nat}

/-- The list of a state, when it is no longer than the region. -/
theorem accounted_eq (hregions : s.regions = [⟨lo, hi⟩]) (hhead : s.head = headPtr 0 bs)
    (h : Linked s.mem 0 bs) (hle : total bs ≤ hi - lo) : accounted s = some (total bs) := by
  have hfuel : bs.length < fuel s := by
    have hlen := length_le_total bs
    simp only [fuel, hregions, List.map_cons, List.map_nil, List.sum_cons, List.sum_nil]
    omega
  rw [accounted, hhead, h.walk_eq hfuel, Option.map_some]

/-! ### A block that moves gets another address -/

theorem findLoop_free {size fuel p block : Nat} (hfind : findLoop m size fuel p = some block) :
    block = 0 ∨ isFree m block = true := by
  induction fuel generalizing p with
  | zero => cases hfind
  | succ fuel ih =>
      rw [findLoop] at hfind
      split at hfind
      case isTrue => exact .inl (Option.some.inj hfind).symm
      case isFalse =>
        split at hfind
        case isTrue hfit => exact .inr (Option.some.inj hfind ▸ hfit.1)
        case isFalse => exact ih hfind

theorem initNewRegion_block {size block : Nat} (h : initNewRegion s size os = some (s', block)) :
    block = 0 ∨ os = some block := by
  cases os with
  | none => exact .inl (Prod.mk.inj (Option.some.inj h)).2.symm
  | some lo =>
      simp only [initNewRegion] at h
      split at h
      · exact .inr (congrArg some (Prod.mk.inj (Option.some.inj h)).2)
      · obtain ⟨curr, -, hcurr⟩ := Option.map_eq_some_iff.mp h
        exact .inr (congrArg some (Prod.mk.inj hcurr).2)

/-- What `my_malloc` returns is null, or belongs to a block that was free or is new. -/
theorem myMalloc_block {p : Nat} (h : myMalloc s n os = some (s', p)) :
    p = 0 ∨ ∃ block, p = block + headerSize ∧ (isFree s.mem block = true ∨ os = some block) := by
  rw [myMalloc] at h
  split at h
  case isTrue => exact .inl (Prod.mk.inj (Option.some.inj h)).2.symm
  case isFalse =>
    obtain ⟨block, hfind, h⟩ := Option.bind_eq_some_iff.mp h
    split at h
    case isTrue hblock =>
      have hfree := (findLoop_free hfind).resolve_left hblock
      exact .inr ⟨block, (Prod.mk.inj (Option.some.inj h)).2.symm, .inl hfree⟩
    case isFalse =>
      obtain ⟨⟨s₁, lo⟩, hinit, h⟩ := Option.bind_eq_some_iff.mp h
      replace h : (if lo = 0 then some (s₁, 0) else some (take s₁ lo _)) = some (s', p) := h
      split at h
      case isTrue => exact .inl (Prod.mk.inj (Option.some.inj h)).2.symm
      case isFalse hlo =>
        have hos := (initNewRegion_block hinit).resolve_left hlo
        exact .inr ⟨lo, (Prod.mk.inj (Option.some.inj h)).2.symm, .inr hos⟩

/-- A result that is the argument comes from one of the branches that do not move. -/
theorem myRealloc_same (h : OneRegion s lo hi (pre ++ x :: post)) (hx : x.free = false) (hn : n ≠ 0)
    (hos : Mmap s (regionSize (alignUp n alignment)) os)
    (hret : myRealloc s x.payload n os = some (s', x.payload)) :
    alignUp n alignment ≤ x.size ∧
        s' = { s with mem := splitBlock s.mem x.addr (alignUp n alignment) } ∨
      x.size < alignUp n alignment ∧ canGrow s.mem x.addr (alignUp n alignment) = true ∧
        s' = { s with mem := grow s.mem x.addr (alignUp n alignment) } := by
  obtain ⟨-, hxh⟩ := h.linked.header
  have hne : x.payload ≠ 0 := by
    rw [Blk.payload, headerSize]
    omega
  have hsize : sizeOf s.mem x.addr = x.size := by rw [sizeOf_eq, hxh]
  simp only [myRealloc] at hret
  rw [if_neg hn, if_neg hne, show x.payload - headerSize = x.addr from Nat.add_sub_cancel _ _,
    hsize] at hret
  split at hret
  case isTrue hle => exact .inl ⟨hle, (Prod.mk.inj (Option.some.inj hret)).1.symm⟩
  case isFalse hlt =>
    split at hret
    case isTrue hcan =>
      exact .inr ⟨Nat.lt_of_not_le hlt, hcan, (Prod.mk.inj (Option.some.inj hret)).1.symm⟩
    case isFalse =>
      exfalso
      obtain ⟨⟨s₁, p⟩, hmalloc, hret⟩ := Option.bind_eq_some_iff.mp hret
      replace hret : (if p = 0 then some (s₁, 0) else (myFree _ x.payload).bind fun s => some (s, p)) =
        some (s', x.payload) := hret
      split at hret
      case isTrue => exact hne (Prod.mk.inj (Option.some.inj hret)).2.symm
      case isFalse hp =>
        obtain ⟨s₂, -, hret⟩ := Option.bind_eq_some_iff.mp hret
        obtain ⟨block, hblock, hfrom⟩ := (myMalloc_block hmalloc).resolve_left hp
        have hsame : block + headerSize = x.addr + headerSize :=
          hblock.symm.trans (Prod.mk.inj (Option.some.inj hret)).2
        obtain rfl := Nat.add_right_cancel hsame
        rcases hfrom with hfree | rfl
        · rw [isFree_eq, hxh, hx] at hfree
          exact Bool.false_ne_true hfree
        · -- a new range would begin where the region of `x` has a block
          obtain ⟨hlen, hapart⟩ := hos
          have hxr := h.tiles.within (fun _ => proper_of_mem_extents) x.extent
            (List.mem_map_of_mem (by simp))
          have hlo : lo ≤ x.addr := hxr.1
          have hhi : x.addr + headerSize + x.size ≤ hi := hxr.2
          have hr := hapart ⟨lo, hi⟩ (by rw [h.regions]; exact List.mem_singleton.mpr rfl)
          rw [headerSize] at hhi
          simp only at hr
          omega

/-- Growing `x` to `newSize` over the first block of `post` would leave 1 to 48 bytes. -/
def Swallows (x : Blk) (post : List Blk) (newSize : Nat) : Prop :=
  ∃ y ∈ post.head?, x.size < newSize ∧ swallowed x y newSize ≠ 0

theorem exists_head_of_grow (h : Linked m 0 (pre ++ x :: post))
    (hcan : canGrow m x.addr newSize = true) : ∃ y rest, post = y :: rest := by
  obtain ⟨-, hx⟩ := h.header
  cases post with
  | nil =>
      rw [canGrow, nextOf_eq, hx] at hcan
      cases hcan
  | cons y rest => exact ⟨y, rest, rfl⟩

theorem forall_sides {stop : Nat} (hpre : ∀ c ∈ pre, c.addr + headerSize + c.size ≤ a)
    (hpost : ∀ c ∈ post, stop ≤ c.addr) : ∀ c ∈ pre ++ post, c.addr < a ∨ stop ≤ c.addr := by
  intro c hc
  rcases List.mem_append.mp hc with hc | hc
  · have hend := hpre c hc
    rw [headerSize] at hend
    exact .inl (by omega)
  · exact .inr (hpost c hc)

/-- A block that stays, cut or not, still accounts for all bytes. -/
theorem splitBlock_accounts (h : OneRegion s lo hi (pre ++ x :: post)) (hle : needed ≤ x.size) :
    accounted { s with mem := splitBlock s.mem x.addr needed } = some (hi - lo) := by
  obtain ⟨hpre, hpost⟩ := tiles_around h.tiles
  have hend := Nat.le_trans (tiles_within h.tiles (b := x) (by simp)) h.bound
  have hlinked := splitBlock_linked h.linked hle hend (forall_sides hpre hpost)
  have hsum : total (pre ++ (splitL x needed ++ post)) = hi - lo := by
    rw [total_append, total_append, total_splitL hle, ← total_cons, ← total_append]
    exact Nat.eq_sub_of_add_eq' (total_of_tiles h.tiles)
  have hhead : s.head = headPtr 0 (pre ++ (splitL x needed ++ post)) := by
    rw [h.head, headPtr_append, headPtr_append, headPtr_append, headPtr_splitL]
    rfl
  rw [← hsum]
  exact accounted_eq h.regions hhead hlinked (Nat.le_of_eq hsum)

/-- A block that grows accounts for all bytes but those it swallows. -/
theorem grow_accounts (h : OneRegion s lo hi (pre ++ x :: y :: post)) (hlt : x.size < newSize)
    (hle : newSize ≤ x.size + headerSize + y.size) :
    ∃ sum, accounted { s with mem := grow s.mem x.addr newSize } = some sum ∧
      sum + swallowed x y newSize = hi - lo := by
  obtain ⟨hpre, hpost⟩ := tiles_sides h.tiles
  have hend := Nat.le_trans (tiles_within h.tiles (b := y) (by simp)) h.bound
  have hlinked :=
    grow_linked h.linked (tiles_next h.tiles) hend hlt hle (forall_sides hpre hpost)
  have hsum : total (pre ++ (growL x y newSize ++ post)) + swallowed x y newSize = hi - lo := by
    have htotal := total_of_tiles h.tiles
    have hgrow := total_growL (x := x) (y := y) hle
    rw [total_append, total_cons, total_cons] at htotal
    rw [total_append, total_append]
    omega
  have hhead : s.head = headPtr 0 (pre ++ (growL x y newSize ++ post)) := by
    rw [h.head, headPtr_append, headPtr_append, headPtr_append, headPtr_growL]
    rfl
  exact ⟨_, accounted_eq h.regions hhead hlinked (Nat.le.intro hsum), hsum⟩

/-- **`my_realloc` loses no memory, exactly.**  When it returns the pointer it was
given, headers and sizes add up to the region if and only if no remainder was
swallowed. -/
theorem myRealloc_accounts_iff (h : OneRegion s lo hi (pre ++ x :: post)) (hx : x.free = false)
    (hn : n ≠ 0) (hos : Mmap s (regionSize (alignUp n alignment)) os)
    (hret : myRealloc s x.payload n os = some (s', x.payload)) :
    accounted s' = some (hi - lo) ↔ ¬ Swallows x post (alignUp n alignment) := by
  have hsame := myRealloc_same h hx hn hos hret
  generalize alignUp n alignment = size at hsame
  rcases hsame with ⟨hle, rfl⟩ | ⟨hlt, hcan, rfl⟩
  · refine iff_of_true (splitBlock_accounts h hle) ?_
    rintro ⟨-, -, hlt, -⟩
    exact Nat.not_le_of_lt hlt hle
  · obtain ⟨y, rest, rfl⟩ := exists_head_of_grow h.linked hcan
    have hend := Nat.le_trans (tiles_within h.tiles (b := y) (by simp)) h.bound
    have hle : size ≤ x.size + headerSize + y.size := by
      rw [canGrow, Bool.and_eq_true, decide_eq_true_eq,
        combined_eq h.linked (tiles_next h.tiles) hend] at hcan
      exact hcan.2
    have hswallows : Swallows x (y :: rest) size ↔ swallowed x y size ≠ 0 := by
      constructor
      · rintro ⟨z, hz, -, hne⟩
        obtain rfl := Option.some.inj hz
        exact hne
      · exact fun hne => ⟨y, rfl, hlt, hne⟩
    obtain ⟨sum, hacc, hsum⟩ := grow_accounts h hlt hle
    rw [hacc, hswallows, not_not, Option.some_inj]
    omega

/-! ### A small heap -/

/-- Nothing is mapped yet. -/
def start : Heap HeaderMap := ⟨⟨fun _ => ⟨0, false, 0⟩, fun _ => 0⟩, 0, []⟩

theorem isSome_small : (myRealloc start 0 16 (some 65536)).isSome = true := by decide +kernel

/-- After `my_realloc(nullptr, 4 * sizeof(int))`. -/
def small : Heap HeaderMap := ((myRealloc start 0 16 (some 65536)).get isSome_small).1

theorem small_oneRegion :
    OneRegion small 65536 69632 ([] ++ ⟨65536, 16, false⟩ :: [⟨65584, 4016, true⟩]) :=
  ⟨by decide +kernel, by decide +kernel, by decide +kernel, by decide +kernel, by decide⟩

theorem isSome_grown : (myRealloc small 65568 4048 none).isSome = true := by decide +kernel

theorem grown_same : ((myRealloc small 65568 4048 none).get isSome_grown).2 = 65568 := by
  decide +kernel

/-- After growing its block to 4048 bytes over the free one, which leaves 16. -/
def grown : Heap HeaderMap := ((myRealloc small 65568 4048 none).get isSome_grown).1

theorem myRealloc_grown : myRealloc small 65568 4048 none = some (grown, 65568) := by
  rw [← grown_same]
  exact (Option.some_get isSome_grown).symm

theorem myRealloc_accounts_iff_grown :
    myRealloc small 65568 4048 none = some (grown, 65568) ∧
      (accounted grown = some (69632 - 65536) ↔
        ¬ Swallows ⟨65536, 16, false⟩ [⟨65584, 4016, true⟩] (alignUp 4048 alignment)) :=
  ⟨myRealloc_grown,
    myRealloc_accounts_iff small_oneRegion rfl (by decide) (by trivial) myRealloc_grown⟩

/-- 16 of the 4096 bytes of the region are in no block then. -/
theorem grown_loses_memory :
    ¬ ∀ (s s' : Heap HeaderMap) (lo hi : Nat) (pre post : List Blk) (x : Blk) (n : Nat),
      OneRegion s lo hi (pre ++ x :: post) → x.free = false → n ≠ 0 → NoWrap n →
      myRealloc s x.payload n none = some (s', x.payload) → accounted s' = some (hi - lo) := by
  intro h
  have hall := h small grown _ _ [] _ _ 4048 small_oneRegion rfl (by decide)
    (by rw [NoWrap, headerSize, mmapThresholed]; decide) myRealloc_grown
  exact absurd hall (by decide +kernel)

end CKernel.Malloc.Realloc.Records
