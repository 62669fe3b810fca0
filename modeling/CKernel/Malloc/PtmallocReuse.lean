/-
# `CKernel.Malloc.PtmallocReuse` — which block `mm_malloc` takes, and what `mm_free` undoes

`find_fit` takes the lowest block that fits; only when there is none does the
heap grow, by at least a page, and the new bytes join a free last block.  The
block taken is cut in two; giving it back joins the two parts again and, as no
two free blocks were neighbours, nothing else.

    the first free block that is large enough                 (`mmMalloc_fits`)
    without one: null, or the block at the end of the grown
      heap                                                    (`mmMalloc_grows`)
    `mm_free` undoes `place`                                  (`mmFree_place`)
    the same request again gets the same pointer              (`reused_in_place`)
    null ⟺ nothing fits and the arena is full                (`malloc_exact`)
-/
import CKernel.Malloc.PtmallocHeap

namespace CKernel.Malloc.Ptmalloc

open Run

/-! ## The blocks that a walk meets -/

/-- Size and allocated bit in the header of `bp`. -/
def blockAt (m : Mem) (bp : Nat) : Block :=
  ⟨getSize m (hdrp bp), getAlloc m (hdrp bp) = 1⟩

/-- The blocks from `heap_listp` on, along `NEXT_BLKP`. -/
def blockList (s : State) : Option (List Block) :=
  (walk s.mem (s.brk - s.heap + 1) s.listp).map fun r => r.1.map (blockAt s.mem)

/-- A free block of at least `asize` bytes. -/
def Fits (asize : Nat) (b : Block) : Prop := b.alloc = false ∧ asize ≤ b.size

instance (asize : Nat) (b : Block) : Decidable (Fits asize b) :=
  inferInstanceAs (Decidable (_ ∧ _))

variable {m : Mem} {a asize size : Nat} {s s' : State} {b : Block}
  {bs pre post : List Block} {live : List Nat}

theorem Tagged.blockAt_eq (h : Tagged m a b) : blockAt m (a + 4) = b := by
  rw [blockAt, h.getSize_hdr, h.getAlloc_hdr]
  cases b with
  | mk size alloc =>
      cases alloc with
      | true => rfl
      | false => rfl

theorem map_blockAt (h : Laid m a bs) : (ptrs a bs).map (blockAt m) = bs := by
  induction bs generalizing a with
  | nil => rfl
  | cons b bs ih =>
      rw [ptrs, List.map_cons, Tagged.blockAt_eq h.1, ih h.2]

theorem Inv.walk_eq (h : Inv s bs live) : walk s.mem (s.brk - s.heap + 1) s.listp =
    some (ptrs (s.heap + 4) (prologue :: bs), s.brk) := by
  rw [h.wellFormed.walk, h.listp]
  rfl

theorem Inv.blockList_eq (h : Inv s bs live) : blockList s = some (prologue :: bs) := by
  rw [blockList, h.walk_eq, Option.map_some, map_blockAt h.lay.laid]

theorem ptrs_append (a : Nat) (bs bs' : List Block) :
    ptrs a (bs ++ bs') = ptrs a bs ++ ptrs (a + total bs) bs' := by
  induction bs generalizing a with
  | nil => rfl
  | cons b bs ih =>
      rw [List.cons_append, ptrs, ptrs, ih, total_cons, Nat.add_assoc]
      rfl

theorem le_of_mem_ptrs {q : Nat} (h : q ∈ ptrs a bs) : a + 4 ≤ q := by
  induction bs generalizing a with
  | nil => cases h
  | cons b bs ih =>
      rcases List.mem_cons.mp h with rfl | h
      · exact Nat.le_refl _
      · have hle := ih h
        omega

/-! ## The first fit -/

theorem firstFit_cons (asize a : Nat) (b : Block) (bs : List Block) :
    firstFit asize a (b :: bs) =
      if Fits asize b then a + 4 else firstFit asize (a + b.size) bs := rfl

theorem firstFit_of_none (h : ∀ x ∈ bs, ¬ Fits asize x) (a : Nat) : firstFit asize a bs = 0 := by
  induction bs generalizing a with
  | nil => rfl
  | cons b bs ih =>
      rw [firstFit_cons, if_neg (h b List.mem_cons_self)]
      exact ih (fun x hx => h x (List.mem_cons_of_mem _ hx)) _

theorem firstFit_of_split (hpre : ∀ x ∈ pre, ¬ Fits asize x) (hb : Fits asize b) (a : Nat) :
    firstFit asize a (pre ++ b :: post) = a + total pre + 4 := by
  induction pre generalizing a with
  | nil => exact if_pos hb
  | cons c pre ih =>
      rw [List.cons_append, firstFit_cons, if_neg (hpre c List.mem_cons_self),
        ih (fun x hx => hpre x (List.mem_cons_of_mem _ hx)), total_cons, Nat.add_assoc a]

theorem exists_first (asize : Nat) (bs : List Block) :
    (∀ x ∈ bs, ¬ Fits asize x) ∨ ∃ (pre : List Block) (b : Block) (post : List Block),
      bs = pre ++ b :: post ∧ (∀ x ∈ pre, ¬ Fits asize x) ∧ Fits asize b := by
  cases hfind : bs.find? fun x => Fits asize x with
  | none =>
      left
      simpa using List.find?_eq_none.mp hfind
  | some b =>
      obtain ⟨hb, pre, post, rfl, hpre⟩ := List.find?_eq_some_iff_append.mp hfind
      exact .inr ⟨pre, b, post, rfl, by simpa using hpre, by simpa using hb⟩

theorem not_fits_prologue (h : ∀ x ∈ bs, ¬ Fits asize x) :
    ∀ x ∈ prologue :: bs, ¬ Fits asize x := by
  refine List.forall_mem_cons.mpr ⟨?_, h⟩
  rintro ⟨halloc, -⟩
  cases halloc

/-! ## `mm_malloc` -/

/-- **`find_fit` finds the lowest block that fits**, and `mm_malloc` takes it. -/
theorem mmMalloc_fits (h : Inv s (pre ++ b :: post) live) (hzero : size ≠ 0)
    (hpre : ∀ x ∈ pre, ¬ Fits (adjust size) x) (hb : Fits (adjust size) b) :
    mmMalloc s size = some
      ({ s with mem := place s.mem (s.heap + 12 + total pre + 4) (adjust size) },
        s.heap + 12 + total pre + 4) := by
  have hfind := h.findFit_eq (adjust size)
  have haddr : s.heap + 4 + total (prologue :: pre) + 4 = s.heap + 12 + total pre + 4 := by
    rw [total_prologue]
    omega
  rw [← List.cons_append, firstFit_of_split (not_fits_prologue hpre) hb, haddr] at hfind
  exact mmMalloc_fit hzero hfind (Nat.succ_ne_zero _)

/-- A free block behind a layout without free neighbours joins a free last one. -/
theorem mergeFree_concat (hsep : Separated bs) (n : Nat) :
    ∃ front tail : List Block, bs = front ++ tail ∧ tail.length ≤ 1 ∧
      (∀ x ∈ tail, x.alloc = false) ∧ (∀ x ∈ front.getLast?, x.alloc = true) ∧
      mergeFree (bs ++ [⟨n, false⟩]) = front ++ [⟨total tail + n, false⟩] := by
  have hend : ∀ {front : List Block} (k : Nat), Separated front →
      (∀ x ∈ front.getLast?, x.alloc = true) →
        mergeFree (front ++ [⟨k, false⟩]) = front ++ [⟨k, false⟩] := by
    intro front k hfront hlast
    refine mergeFree_of_separated (List.isChain_append.mpr ⟨hfront, List.isChain_singleton _, ?_⟩)
    exact fun x hx y _ => .inl (hlast x hx)
  by_cases hlast : ∀ x ∈ bs.getLast?, x.alloc = true
  · refine ⟨bs, [], (List.append_nil bs).symm, Nat.zero_le 1, by simp, hlast, ?_⟩
    rw [total_nil, Nat.zero_add]
    exact hend n hsep hlast
  · obtain rfl | ⟨front, l, hconcat⟩ := List.eq_nil_or_concat bs
    · exact absurd (by simp) hlast
    · obtain rfl : bs = front ++ [l] := hconcat.trans List.concat_eq_append
      have hl : l.alloc = false := by simpa using hlast
      have hfront := hsep.last_of_free hl
      refine ⟨front, [l], rfl, Nat.le_refl 1, by simpa using hl, hfront, ?_⟩
      have hrun : ∀ x ∈ [l, ⟨n, false⟩], x.alloc = false := by simp [hl]
      have htotal : total [l, ⟨n, false⟩] = total [l] + n := by simp
      rw [List.append_assoc, List.singleton_append, ← htotal,
        ← hend _ (List.isChain_append.mp hsep).1 hfront]
      exact mergeFree_append_congr (mergeFree_run hrun (List.cons_ne_nil _ _) []) front

/-- **When nothing fits**, `mm_malloc` fails with the heap as it was, or takes
the block at the end of the heap that has grown. -/
theorem mmMalloc_grows (h : Inv s bs live) (hzero : size ≠ 0)
    (hasize : 16 ≤ adjust size ∧ 8 ∣ adjust size ∧ adjust size < 2 ^ 31)
    (hnone : ∀ x ∈ bs, ¬ Fits (adjust size) x) :
    (s.brk + max (adjust size) chunksize > s.maxAddr ∧ mmMalloc s size = some (s, 0)) ∨
      ∃ (s₁ : State) (front tail : List Block),
        s.brk + max (adjust size) chunksize ≤ s.maxAddr ∧
        s₁.brk = s.brk + max (adjust size) chunksize ∧
        bs = front ++ tail ∧ tail.length ≤ 1 ∧ (∀ x ∈ tail, x.alloc = false) ∧
        (∀ x ∈ front.getLast?, x.alloc = true) ∧
        Inv s₁ (front ++ [⟨total tail + max (adjust size) chunksize, false⟩]) live ∧
        s₁.heap = s.heap ∧
        mmMalloc s size = some
          ({ s₁ with mem := place s₁.mem (s₁.heap + 12 + total front + 4) (adjust size) },
            s₁.heap + 12 + total front + 4) := by
  have hfind := h.findFit_eq (adjust size)
  rw [firstFit_of_none (not_fits_prologue hnone)] at hfind
  have hext : 8 ∣ max (adjust size) chunksize ∧ 16 ≤ max (adjust size) chunksize ∧
      max (adjust size) chunksize < 2 ^ 31 := by
    rw [chunksize]
    omega
  rcases extendHeap_wrote h hext.1 hext.2.1 hext.2.2 with
    ⟨hfull, hcode⟩ | ⟨m', pre', b', hroom, hgrown, hwrote, -, -, hmerge⟩
  · exact .inl ⟨hfull, mmMalloc_full hzero hfind hcode⟩
  · obtain ⟨front, tail, hsplit, hone, hfree, hlast, hend⟩ :=
      mergeFree_concat (List.isChain_cons.mp h.sep).2 (max (adjust size) chunksize)
    obtain ⟨rfl, hb'⟩ := List.append_inj' (hmerge.symm.trans hend) rfl
    obtain rfl := (List.cons.inj hb').1
    exact .inr ⟨_, pre', tail, hroom, rfl, hsplit, hone, hfree, hlast, hwrote.inv, rfl,
      mmMalloc_extend hzero hfind hgrown (Nat.succ_ne_zero _)⟩

/-! ## `mm_free` undoes `place` -/

/-- The parts of a block that was cut are one block again. -/
theorem mmFree_place (h : Inv s (pre ++ b :: post) live) (hb : Fits asize b) (hlow : 16 ≤ asize)
    (hdvd : 8 ∣ asize) :
    Inv (mmFree { s with mem := place s.mem (s.heap + 12 + total pre + 4) asize }
      (s.heap + 12 + total pre + 4)) (pre ++ b :: post) live := by
  obtain ⟨hba, hle⟩ := hb
  obtain ⟨c, rest, hcut, hca, -, hrest, -, -⟩ := exists_cut hle hlow
  have hplaced := (place_wrote h hba hle hlow hdvd).inv
  rw [hcut] at hplaced
  obtain ⟨pre', b', post', -, hmerge, hwrote⟩ := mmFree_merged hplaced hca
  have hfreed := hwrote.inv
  rw [List.erase_cons_head] at hfreed
  have hrun : ∀ x ∈ ⟨c.size, false⟩ :: rest, x.alloc = false :=
    List.forall_mem_cons.mpr ⟨rfl, hrest⟩
  have htotal : total (⟨c.size, false⟩ :: rest) = b.size := by
    have htotal := total_cut hle
    rwa [hcut] at htotal
  have hback : b = ⟨b.size, false⟩ := congrArg (Block.mk b.size) hba
  have hsame : pre' ++ b' :: post' = pre ++ b :: post := calc
    pre' ++ b' :: post' = mergeFree (pre ++ ((⟨c.size, false⟩ :: rest) ++ post)) := hmerge.symm
    _ = mergeFree (pre ++ ⟨b.size, false⟩ :: post) := by
      rw [← htotal]
      exact mergeFree_append_congr (mergeFree_run hrun (List.cons_ne_nil _ _) post) pre
    _ = pre ++ b :: post := by
      rw [← hback]
      exact mergeFree_of_separated (List.isChain_cons.mp h.sep).2
  exact hsame ▸ hfreed

/-- A block at the end of a layout in which nothing else fits. -/
theorem not_fits_front {front tail : List Block} (h : ∀ x ∈ front ++ tail, ¬ Fits asize x) :
    ∀ x ∈ front, ¬ Fits asize x :=
  fun x hx => h x (List.mem_append_left _ hx)

theorem fits_grown (n asize : Nat) : Fits asize ⟨n + max asize chunksize, false⟩ :=
  ⟨rfl, Nat.le_add_left_of_le (Nat.le_max_left _ _)⟩

/-- **Freed memory is reused at the same place**: the pointer that a request got
is what it gets again after it is freed, and a heap that was not extended is the
sequence of blocks it was before. -/
theorem reused_in_place (m : Mem) (base : Nat) (ops : List Op)
    (hallowed : Along step Allowed ((mmInit (memInit m base)).2, []) ops) {s : State}
    {live : List Nat} (hrun : run step ((mmInit (memInit m base)).2, []) ops = some (s, live))
    {size : Nat} (hsize : size < 2 ^ 31 - 16) {s' : State} {p : Nat}
    (hmalloc : mmMalloc s size = some (s', p)) (hp : p ≠ 0) :
    (∃ s'', mmMalloc (mmFree s' p) size = some (s'', p)) ∧
      (s'.brk = s.brk →
        ∃ bs, blockList s = some bs ∧ blockList (mmFree s' p) = some bs) := by
  obtain ⟨bs, h⟩ : ∃ bs, Inv s bs live := good_of_run hallowed hrun
  have hzero : size ≠ 0 := by
    rintro rfl
    cases hmalloc
    exact hp rfl
  have hasize := adjust_ok hsize
  rcases exists_first (adjust size) bs with hnone | ⟨pre, b, post, rfl, hpre, hb⟩
  · rcases mmMalloc_grows h hzero hasize hnone with
      ⟨-, hcode⟩ | ⟨s₁, front, tail, -, hbrk, rfl, -, -, -, h₁, -, hcode⟩
    · cases hcode.symm.trans hmalloc
      exact absurd rfl hp
    · cases hcode.symm.trans hmalloc
      have hfreed := mmFree_place h₁ (fits_grown _ _) hasize.1 hasize.2.1
      refine ⟨⟨_, mmMalloc_fits hfreed hzero (not_fits_front hnone) (fits_grown _ _)⟩,
        fun heq => ?_⟩
      have hgrown : s₁.brk = s.brk := heq
      rw [chunksize] at hbrk
      omega
  · cases (mmMalloc_fits h hzero hpre hb).symm.trans hmalloc
    have hfreed := mmFree_place h hb hasize.1 hasize.2.1
    exact ⟨⟨_, mmMalloc_fits hfreed hzero hpre hb⟩,
      fun _ => ⟨_, h.blockList_eq, hfreed.blockList_eq⟩⟩

/-- The reuse test of `main`. -/
theorem reused_in_place_main :
    ∃ s' s'' bs, mmMalloc (mmInit (memInit (fun _ => 0) 4096)).2 128 = some (s', 4112) ∧
      mmMalloc (mmFree s' 4112) 128 = some (s'', 4112) ∧
      blockList (mmInit (memInit (fun _ => 0) 4096)).2 = some bs ∧
      blockList (mmFree s' 4112) = some bs := by
  have hfirst : (mmMalloc (mmInit (memInit (fun _ => 0) 4096)).2 128).map
      (fun r => (r.2, r.1.brk)) = some (4112, (mmInit (memInit (fun _ => 0) 4096)).2.brk) := by
    decide +kernel
  obtain ⟨⟨s', p⟩, hmalloc, heq⟩ := Option.map_eq_some_iff.mp hfirst
  obtain ⟨rfl, hbrk⟩ := Prod.mk.inj heq
  obtain ⟨⟨s'', hagain⟩, hsame⟩ := reused_in_place (fun _ => 0) 4096 [] trivial rfl
    (show 128 < 2 ^ 31 - 16 by decide) hmalloc (Nat.succ_ne_zero _)
  obtain ⟨bs, hbefore, hafter⟩ := hsame hbrk
  exact ⟨s', s'', bs, hmalloc, hagain, hbefore, hafter⟩

/-! ## Failure -/

/-- The free block at `q` is large enough. -/
def FitsAt (m : Mem) (asize q : Nat) : Prop :=
  getAlloc m (hdrp q) = 0 ∧ asize ≤ getSize m (hdrp q)

instance (m : Mem) (asize q : Nat) : Decidable (FitsAt m asize q) :=
  inferInstanceAs (Decidable (_ ∧ _))

/-- The heap has grown by `max(asize, 4096)` bytes, which are one block with a free
last block, if there was one; `p` is that block, and its front is in use. -/
structure Grown (s s' : State) (asize p : Nat) : Prop where
  brk : s'.brk = s.brk + max asize chunksize
  taken : ∃ front tail : List Block, blockList s = some (front ++ tail) ∧ tail.length ≤ 1 ∧
    (∀ x ∈ tail, x.alloc = false) ∧ (∀ x ∈ front.getLast?, x.alloc = true) ∧
    p + total tail = s.brk ∧
    blockList s' = some (front ++ cut ⟨total tail + max asize chunksize, false⟩ asize)

/-- The front of the block at the end of a heap that has grown. -/
theorem grown_place {front tail : List Block} (h : Inv s (front ++ tail) live)
    (hone : tail.length ≤ 1) (hfree : ∀ x ∈ tail, x.alloc = false)
    (hlast : ∀ x ∈ front.getLast?, x.alloc = true) (hbrk : s'.brk = s.brk + max asize chunksize)
    (hheap : s'.heap = s.heap)
    (h' : Inv s' (front ++ [⟨total tail + max asize chunksize, false⟩]) live)
    (hlow : 16 ≤ asize) (hdvd : 8 ∣ asize) :
    Grown s { s' with mem := place s'.mem (s'.heap + 12 + total front + 4) asize } asize
      (s'.heap + 12 + total front + 4) := by
  have hplaced := (place_wrote h' rfl (fits_grown _ _).2 hlow hdvd).inv
  have hlast' : ∀ x ∈ (prologue :: front).getLast?, x.alloc = true := by
    cases front with
    | nil =>
        intro x hx
        cases hx
        rfl
    | cons c front => exact hlast
  have hend : s'.heap + 12 + total front + 4 + total tail = s.brk := by
    have hold := h.brk
    rw [total_prologue, total_append] at hold
    omega
  refine ⟨hbrk, prologue :: front, tail, h.blockList_eq, hone, hfree, hlast', hend, ?_⟩
  rw [hplaced.blockList_eq, List.append_nil]
  rfl

theorem Tagged.fitsAt_iff (h : Tagged m a b) : FitsAt m asize (a + 4) ↔ Fits asize b := by
  rw [FitsAt, Fits, h.getSize_hdr, h.getAlloc_hdr]
  cases b.alloc with
  | true => simp
  | false => simp

theorem exists_fitsAt (h : Laid m a bs) {q : Nat} (hq : q ∈ ptrs a bs) (hfit : FitsAt m asize q) :
    ∃ b ∈ bs, Fits asize b := by
  obtain ⟨c, b, hb, htag, rfl⟩ := exists_of_mem_ptrs h hq
  exact ⟨b, hb, (Tagged.fitsAt_iff htag).mp hfit⟩

/-- The first block that fits is the lowest pointer that does. -/
theorem isLeast_fitsAt (h : Laid m a (pre ++ b :: post)) (hpre : ∀ x ∈ pre, ¬ Fits asize x)
    (hb : Fits asize b) :
    IsLeast {q | q ∈ ptrs a (pre ++ b :: post) ∧ FitsAt m asize q} (a + total pre + 4) := by
  obtain ⟨hlaid, htag, -⟩ := laid_append.mp h
  rw [ptrs_append]
  refine ⟨⟨List.mem_append_right _ List.mem_cons_self, (Tagged.fitsAt_iff htag).mpr hb⟩, ?_⟩
  rintro q ⟨hq, hfit⟩
  rcases List.mem_append.mp hq with hq | hq
  · obtain ⟨c, hc, hfits⟩ := exists_fitsAt hlaid hq hfit
    exact absurd hfits (hpre c hc)
  · exact le_of_mem_ptrs hq

/-- **Failure is exact and harmless**: `mm_malloc` gives null if and only if no free
block is large enough and the heap cannot grow, and then nothing has changed.
Otherwise it gives the lowest block that is large enough or, without one, the
block at the end of the heap that has grown. -/
theorem malloc_exact (m : Mem) (base : Nat) (ops : List Op)
    (hallowed : Along step Allowed ((mmInit (memInit m base)).2, []) ops) {s : State}
    {live : List Nat} (hrun : run step ((mmInit (memInit m base)).2, []) ops = some (s, live))
    {size : Nat} (hpos : 0 < size) (hsize : size < 2 ^ 31 - 16) :
    ∃ s' p bps, mmMalloc s size = some (s', p) ∧
      walk s.mem (s.brk - s.heap + 1) s.listp = some (bps, s.brk) ∧
      (p = 0 ↔ (∀ q ∈ bps, ¬ FitsAt s.mem (adjust size) q) ∧
        s.brk + max (adjust size) chunksize > s.maxAddr) ∧
      (p = 0 → s' = s) ∧
      (p ≠ 0 → (∃ q ∈ bps, FitsAt s.mem (adjust size) q) →
        IsLeast {q | q ∈ bps ∧ FitsAt s.mem (adjust size) q} p) ∧
      (p ≠ 0 → (∀ q ∈ bps, ¬ FitsAt s.mem (adjust size) q) → Grown s s' (adjust size) p) := by
  obtain ⟨bs, h⟩ : ∃ bs, Inv s bs live := good_of_run hallowed hrun
  have hzero : size ≠ 0 := Nat.ne_of_gt hpos
  have hasize := adjust_ok hsize
  have hlaid := h.lay.laid
  rcases exists_first (adjust size) bs with hnone | ⟨pre, b, post, rfl, hpre, hb⟩
  · have hmiss : ∀ q ∈ ptrs (s.heap + 4) (prologue :: bs), ¬ FitsAt s.mem (adjust size) q := by
      intro q hq hfit
      obtain ⟨c, hc, hfits⟩ := exists_fitsAt hlaid hq hfit
      exact not_fits_prologue hnone c hc hfits
    have hno : ¬ ∃ q ∈ ptrs (s.heap + 4) (prologue :: bs), FitsAt s.mem (adjust size) q := by
      rintro ⟨q, hq, hfit⟩
      exact hmiss q hq hfit
    rcases mmMalloc_grows h hzero hasize hnone with
      ⟨hfull, hcode⟩ | ⟨s₁, front, tail, hroom, hbrk, rfl, hone, hfree, hlast, h₁, hheap, hcode⟩
    · exact ⟨s, 0, _, hcode, h.walk_eq, iff_of_true rfl ⟨hmiss, hfull⟩, fun _ => rfl,
        fun hne => absurd rfl hne, fun hne => absurd rfl hne⟩
    · have hgrown := grown_place h hone hfree hlast hbrk hheap h₁ hasize.1 hasize.2.1
      refine ⟨_, _, _, hcode, h.walk_eq, iff_of_false (Nat.succ_ne_zero _) ?_,
        fun hp => absurd hp (Nat.succ_ne_zero _), fun _ hsome => absurd hsome hno,
        fun _ _ => hgrown⟩
      exact fun hfull => Nat.not_lt_of_le hroom hfull.2
  · have haddr : s.heap + 4 + total (prologue :: pre) + 4 = s.heap + 12 + total pre + 4 := by
      rw [total_prologue]
      omega
    have hleast := @isLeast_fitsAt _ _ _ _ (prologue :: pre) _ hlaid (not_fits_prologue hpre) hb
    rw [haddr] at hleast
    have hne : s.heap + 12 + total pre + 4 ≠ 0 := Nat.succ_ne_zero _
    refine ⟨_, _, _, mmMalloc_fits h hzero hpre hb, h.walk_eq, iff_of_false hne ?_,
      fun hp => absurd hp hne, fun _ _ => hleast, fun _ hmiss => ?_⟩
    · exact fun hfail => hfail.1 _ hleast.1.1 hleast.1.2
    · exact absurd hleast.1.2 (hmiss _ hleast.1.1)

/-- A megabyte right after `mm_init`: the page that is there becomes its front. -/
theorem malloc_exact_large :
    ∃ s', mmMalloc (mmInit (memInit (fun _ => 0) 4096)).2 (2 ^ 20) = some (s', 4112) ∧
      Grown (mmInit (memInit (fun _ => 0) 4096)).2 s' 1048584 4112 := by
  obtain ⟨s', p, bps, hmalloc, hwalk, -, -, -, hgrown⟩ := malloc_exact (fun _ => 0) 4096 [] trivial
    rfl (show 0 < 2 ^ 20 by decide) (by decide)
  have hbps : walk (mmInit (memInit (fun _ => 0) 4096)).2.mem 4113 4104 =
      some ([4104, 4112], 8208) := by
    decide +kernel
  obtain ⟨rfl, -⟩ := Prod.mk.inj (Option.some.inj (hbps.symm.trans hwalk))
  have hp : (mmMalloc (mmInit (memInit (fun _ => 0) 4096)).2 (2 ^ 20)).map Prod.snd =
      some 4112 := by
    decide +kernel
  rw [hmalloc] at hp
  obtain rfl : p = 4112 := Option.some.inj hp
  exact ⟨s', hmalloc, hgrown (Nat.succ_ne_zero _) (by decide +kernel)⟩

end CKernel.Malloc.Ptmalloc
