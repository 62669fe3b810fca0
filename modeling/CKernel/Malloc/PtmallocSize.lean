/-
# `CKernel.Malloc.PtmallocSize` — requests of any `size_t`

`mm_malloc` adds up to 15 to the request in 64 bits, writes the block's size in 32,
and hands the number of bytes to `mem_sbrk` as an `int`.  A request near `2^64`
becomes one for 0 or 8 bytes; one of `2^32` and more extends the heap by its low 32
bits, if these are an `int` that fits.  Neither is stopped, and a header never says
more than `2^32 - 8`.

    a block is as large as it was asked for, or the call fails   (`malloc_enough`)
    beyond what a header can say, what is returned is too small   (`not_served`, `malloc_too_large`)
    along a run all blocks are large enough ⟺ all its requests are
      safe                                                        (`large_enough_iff_safe`)
-/
import CKernel.Malloc.PtmallocFrame

namespace CKernel.Malloc.Ptmalloc

open Run

/-! ## What is claimed, and when it holds -/

/-- A `size_t`, or a live pointer. -/
def Lawful (s : State × List Nat) : Op → Prop
  | .malloc size => size < 2 ^ 64
  | .free p => p ∈ s.2

/-- A pointer that is not null has `size` bytes of payload, all inside the heap. -/
def Served (s' : State) (p size : Nat) : Prop :=
  p ≠ 0 → size + dsize ≤ getSize s'.mem (hdrp p) ∧ s'.heap ≤ p ∧ p + size ≤ s'.brk

def LargeEnough (s : State × List Nat) : Op → Prop
  | .malloc size => ∃ s' p, mmMalloc s.1 size = some (s', p) ∧ Served s' p size
  | .free _ => True

/-- The request fits the header, or nothing is given for what it has become. -/
def Safe (s : State × List Nat) : Op → Prop
  | .malloc size => size ≤ 2 ^ 32 - 16 ∨
      size < 2 ^ 64 - 15 ∧ memSbrk s.1 (toInt (adjust size)) = none ∨
      2 ^ 64 - 15 ≤ size ∧ findFit s.1 (adjust size) = some 0 ∧ s.1.brk + chunksize > s.1.maxAddr
  | .free _ => True

instance (s : State × List Nat) : (op : Op) → Decidable (Lawful s op)
  | .malloc _ => inferInstanceAs (Decidable (_ < _))
  | .free _ => inferInstanceAs (Decidable (_ ∈ _))

instance (s : State × List Nat) : (op : Op) → Decidable (Safe s op)
  | .malloc size =>
      have : Decidable (memSbrk s.1 (toInt (adjust size)) = none) :=
        decidable_of_iff _ Option.isNone_iff_eq_none
      inferInstanceAs (Decidable (_ ∨ _ ∨ _))
  | .free _ => isTrue trivial

variable {s : State} {bs : List Block} {live : List Nat} {size n : Nat} {m : Mem}

/-! ## Sizes -/

theorem getSize_le (m : Mem) (p : Nat) : getSize m p ≤ 2 ^ 32 - 8 := Nat.and_le_right

theorem adjust_eq (hlt : size < 2 ^ 64 - 15) :
    adjust size = max 16 (8 * ((size + 15) / 8)) := by
  rw [adjust]
  split
  case isTrue hsmall =>
    rw [dsize] at hsmall ⊢
    omega
  case isFalse hbig =>
    have h₁ : Word.add 64 size dsize = size + 8 := Word.add_eq (by rw [dsize]; omega)
    have h₂ : Word.add 64 (size + 8) (dsize - 1) = size + 15 := Word.add_eq (by rw [dsize]; omega)
    rw [dsize] at hbig
    rw [h₁, h₂, dsize]
    omega

/-- Where the sum has wrapped. -/
theorem adjust_wrapped (hlt : size < 2 ^ 64) (hlow : 2 ^ 64 - 15 ≤ size) : adjust size ≤ 8 := by
  have hsum : Word.add 64 (Word.add 64 size dsize) (dsize - 1) = size + 15 - 2 ^ 64 := by
    rw [Word.add, Word.add, dsize]
    omega
  rw [adjust, if_neg (by rw [dsize]; omega), hsum, dsize]
  omega

/-- A block of the heap is smaller than the heap. -/
theorem firstFit_eq_zero (h : Inv s bs live) (hn : maxHeap ≤ n) :
    firstFit n (s.heap + 4) (prologue :: bs) = 0 := by
  rcases firstFit_cases n (prologue :: bs) (s.heap + 4) with hnull | ⟨pre, b, post, hsplit, -, hle, -⟩
  · exact hnull
  · have hbrk := h.brk
    have hmax := h.brk_le
    rw [h.maxAddr] at hmax
    rw [hsplit, total_append, total_cons] at hbrk
    omega

/-! ## `extend_heap` by the low 32 bits -/

theorem put_mod (m : Mem) (p v : Nat) : put m p (v % 2 ^ 32) = put m p v :=
  Mem.store_mod (n := 4)

/-- Only the low bits reach memory. -/
theorem appendBlock_mod (m : Mem) (bp size : Nat) :
    appendBlock m bp (size % 2 ^ 32) = appendBlock m bp size := by
  have hpack : ∀ n, pack n 0 = n := fun n => Nat.or_zero n
  have htags : setTags m bp (size % 2 ^ 32) = setTags m bp size := by
    rw [setTags, setTags, put_mod, put_mod]
  rw [appendBlock, appendBlock, hpack, hpack, htags]

theorem toInt_mod (n : Nat) : toInt (n % 2 ^ 32) = toInt n := by
  rw [toInt, toInt, Nat.mod_mod]

section Empty
variable {e v : Nat}

theorem getSize_eq_zero (hget : get m e = v) (hv : v < 8) : getSize m e = 0 := by
  rw [getSize, hget, and_mask (Nat.lt_trans hv (by decide)), Nat.div_eq_of_lt hv]

/-- Words that say 0 bytes in front of `bp` make its neighbours `bp` itself. -/
theorem nextBlkp_empty (hget : get m (e + 4) = v) (hv : v < 8) :
    nextBlkp m (e + 8) = e + 8 ∧ ftrp m (e + 8) = e := by
  have hsize : getSize m (e + 8 - wsize) = 0 := getSize_eq_zero (e := e + 4) hget hv
  constructor
  · rw [nextBlkp, hsize, Nat.add_zero]
  · rw [ftrp, hdrp, hsize]
    rfl

theorem prevBlkp_empty (hget : get m e = 0) : prevBlkp m (e + 8) = e + 8 := by
  have hsize : getSize m (e + 8 - dsize) = 0 := getSize_eq_zero (e := e) hget (by decide)
  rw [prevBlkp, hsize]
  rfl

/-- A block of no bytes: its two tags lie over the epilogue and the footer before it. -/
theorem appendBlock_empty (m : Mem) (e : Nat) :
    get (appendBlock m (e + 8) 0) e = 0 ∧ get (appendBlock m (e + 8) 0) (e + 4) = 1 := by
  have hhdr : get (put m (e + 4) 0) (e + 4) = 0 := get_put_self (by decide)
  have htags : setTags m (e + 8) 0 = put (put m (e + 4) 0) e 0 := by
    show put (put m (e + 4) 0) (ftrp (put m (e + 4) 0) (e + 8)) 0 = _
    rw [(nextBlkp_empty hhdr (by decide)).2]
  have hhdr' : get (put (put m (e + 4) 0) e 0) (e + 4) = 0 := by
    rw [get_put_of_disjoint (.inr (Nat.le_refl _)), hhdr]
  have happend : appendBlock m (e + 8) 0 = put (put (put m (e + 4) 0) e 0) (e + 4) 1 := by
    show put (setTags m (e + 8) 0) (hdrp (nextBlkp (setTags m (e + 8) 0) (e + 8))) 1 = _
    rw [htags, (nextBlkp_empty hhdr' (by decide)).1]
    rfl
  rw [happend]
  refine ⟨?_, get_put_self (by decide)⟩
  rw [get_put_of_disjoint (.inl (Nat.le_refl _)), get_put_self (by decide)]

/-- `coalesce` takes it for its own predecessor. -/
theorem coalesce_empty (m : Mem) (e : Nat) :
    (coalesce (appendBlock m (e + 8) 0) (e + 8)).2 = e + 8 := by
  obtain ⟨hftr, hhdr⟩ := appendBlock_empty m e
  generalize appendBlock m (e + 8) 0 = m at *
  obtain ⟨hnext, hend⟩ := nextBlkp_empty hhdr (by decide)
  have hprevAlloc : getAlloc m e = 0 := by rw [getAlloc, hftr]; rfl
  have hnextAlloc : getAlloc m (hdrp (e + 8)) = 1 := by
    show getAlloc m (e + 4) = 1
    rw [getAlloc, hhdr]
    rfl
  have hsize : getSize m (hdrp (e + 8)) = 0 := getSize_eq_zero (e := e + 4) hhdr (by decide)
  have hftr₁ : get (put m e 0) e = 0 := get_put_self (by decide)
  have hftr₂ : get (put (put m e 0) (e + 4) 0) e = 0 := by
    rw [get_put_of_disjoint (.inl (Nat.le_refl _)), hftr₁]
  simp only [coalesce]
  rw [prevBlkp_empty hftr, hend, hnext, hprevAlloc, hnextAlloc, hsize, if_neg (by decide),
    if_neg (by decide), if_pos (by decide)]
  show prevBlkp (put (put m e 0) (hdrp (prevBlkp (put m e 0) (e + 8))) 0) (e + 8) = e + 8
  rw [prevBlkp_empty hftr₁]
  exact prevBlkp_empty hftr₂

end Empty

/-- What is appended in room for it gets a pointer. -/
theorem coalesce_appended (h : Inv s bs live) (hdvd : 8 ∣ n) (hroom : s.brk + n ≤ s.maxAddr) :
    (coalesce (appendBlock s.mem s.brk n) s.brk).2 ≠ 0 := by
  have hbrk := h.brk
  have hmax := h.maxAddr
  have hbp : s.brk = s.heap + 4 + total (prologue :: bs) + 4 := by omega
  by_cases hzero : n = 0
  · obtain ⟨e, he⟩ := Nat.exists_eq_add_of_le' (show 8 ≤ s.brk by omega)
    rw [hzero, he, coalesce_empty]
    exact Nat.succ_ne_zero _
  · have hlow : 8 ≤ n := Nat.le_of_dvd (Nat.pos_of_ne_zero hzero) hdvd
    rw [maxHeap] at hmax
    obtain ⟨m₂, hm₂, hlay, -⟩ := append_ok h.lay (b := ⟨n, false⟩)
      ⟨hdvd, hlow, by show n < 2 ^ 32; omega⟩
    obtain ⟨pre, p, hprev, htotal₀, hlist⟩ := exists_prev bs
    have haddr : s.heap + 4 + total (prologue :: bs) = s.heap + 4 + total pre + p.size := by
      rw [htotal₀, ← Nat.add_assoc]
    have hlt : total (prologue :: bs ++ [⟨n, false⟩]) < 2 ^ 32 := by
      rw [total_append]
      show total (prologue :: bs) + (n + 0) < 2 ^ 32
      omega
    have happend : appendBlock s.mem s.brk n = m₂ := by
      rw [hbp]
      exact hm₂
    rw [List.cons_append, hlist] at hlay hlt
    obtain ⟨m', pre', mid, post', hco, -⟩ :=
      coalesce_ok hlay.laid hlay.epi hlt rfl (hprev ▸ h.sep) List.isChain_nil
    rw [← haddr, ← hbp] at hco
    rw [happend, hco]
    exact Nat.succ_ne_zero _

/-- Every multiple of 8 below `2^64`: null if `mem_sbrk` refuses its low 32 bits. -/
theorem extendHeap_ne_zero (h : Inv s bs live) (hdvd : 8 ∣ n) (hlt : n < 2 ^ 64)
    (hsbrk : memSbrk s (toInt n) ≠ none) : (extendHeap s (n / wsize)).2 ≠ 0 := by
  obtain ⟨⟨bp, s₁⟩, hsome⟩ := Option.ne_none_iff_exists'.mp hsbrk
  have hdvd' : 8 ∣ n % 2 ^ 32 := (Nat.dvd_mod_iff (by decide)).mpr hdvd
  have hint : n % 2 ^ 32 < 2 ^ 31 := by
    by_contra hbig
    have hneg : toInt n < 0 := by
      rw [toInt, if_neg hbig]
      omega
    rw [memSbrk, if_pos (.inl hneg)] at hsome
    cases hsome
  have hsbrk' := hsome
  rw [← toInt_mod, memSbrk_eq hint] at hsbrk'
  split at hsbrk'
  case isTrue => cases hsbrk'
  case isFalse hle =>
    cases hsbrk'
    rw [extendHeap_some hdvd hlt hsome, ← appendBlock_mod]
    exact coalesce_appended h hdvd' (Nat.le_of_not_gt hle)

/-! ## One request -/

/-- The call returns, leaves a heap, and serves the request if it does not fail. -/
def Serves (s : State) (live : List Nat) (size : Nat) : Prop :=
  ∃ s' p bs', mmMalloc s size = some (s', p) ∧ Inv s' bs' (if p = 0 then live else p :: live) ∧
    Served s' p size

theorem serves_null (h : Inv s bs live) (hcode : mmMalloc s size = some (s, 0)) :
    Serves s live size :=
  ⟨s, 0, bs, hcode, h, fun hne => absurd rfl hne⟩

/-- What fits the header is large enough, or refused. -/
theorem malloc_enough (h : Inv s bs live) (hsize : size ≤ 2 ^ 32 - 16) : Serves s live size := by
  by_cases hzero : size = 0
  · exact serves_null h (by rw [mmMalloc, if_pos hzero])
  · have hadj : adjust size = max 16 (8 * ((size + 15) / 8)) := adjust_eq (by omega)
    have hdvd : 8 ∣ adjust size := by omega
    by_cases hlt : adjust size < 2 ^ 31
    · rcases mmMalloc_wrote h hzero ⟨by omega, hdvd, hlt⟩ with hcode | ⟨s', pre, b, post, hcode, hle, hw⟩
      · exact serves_null h hcode
      · obtain ⟨-, c, hc, hfit, hend⟩ := exists_taken hw hle (by omega)
        have hbrk := hw.inv.brk
        rw [total_prologue, total_append, total_append] at hbrk
        refine ⟨s', _, _, hcode, hw.inv, fun _ => ⟨?_, ?_, ?_⟩⟩
        · rw [hc.getSize_hdr, dsize]
          omega
        · omega
        · omega
    · -- as an `int` the size is negative
      have hneg : memSbrk s (toInt (adjust size)) = none := by
        rw [memSbrk, if_pos]
        left
        rw [toInt, if_neg (by omega)]
        omega
      have hmax : max (adjust size) chunksize = adjust size := max_eq_left (by rw [chunksize]; omega)
      have hmiss := firstFit_eq_zero h (n := adjust size) (by rw [maxHeap]; omega)
      refine serves_null h (mmMalloc_full hzero ?_ ?_)
      · rw [h.findFit_eq, hmiss]
      · rw [hmax, extendHeap_none hdvd (by omega) hneg]

/-- The two outcomes when no block is large enough. -/
theorem mmMalloc_extends (hzero : size ≠ 0) (hfind : findFit s (adjust size) = some 0)
    (hext : (extendHeap s (max (adjust size) chunksize / wsize)).2 ≠ 0) :
    ∃ s' p, mmMalloc s size = some (s', p) ∧ p ≠ 0 :=
  ⟨_, _, mmMalloc_extend hzero hfind rfl hext, hext⟩

/-- No block is as large as the rounded request: `mem_sbrk` decides. -/
theorem malloc_beyond_header (h : Inv s bs live) (hbig : 2 ^ 32 - 16 < size)
    (hmid : size < 2 ^ 64 - 15) :
    Safe (s, live) (.malloc size) ∧ mmMalloc s size = some (s, 0) ∨
      ¬ Safe (s, live) (.malloc size) ∧ ∃ s' p, mmMalloc s size = some (s', p) ∧ p ≠ 0 := by
  have hzero : size ≠ 0 := by omega
  have hadj := adjust_eq hmid
  have hdvd : 8 ∣ adjust size := by omega
  have hmax : max (adjust size) chunksize = adjust size := max_eq_left (by rw [chunksize]; omega)
  have hmiss := firstFit_eq_zero h (n := adjust size) (by rw [maxHeap]; omega)
  have hfind : findFit s (adjust size) = some 0 := by rw [h.findFit_eq, hmiss]
  by_cases hsbrk : memSbrk s (toInt (adjust size)) = none
  · refine .inl ⟨.inr (.inl ⟨hmid, hsbrk⟩), mmMalloc_full hzero hfind ?_⟩
    rw [hmax, extendHeap_none hdvd (by omega) hsbrk]
  · refine .inr ⟨?_, mmMalloc_extends hzero hfind ?_⟩
    · rintro (hle | ⟨-, hnone⟩ | ⟨hle, -⟩)
      · exact Nat.not_le_of_lt hbig hle
      · exact hsbrk hnone
      · exact Nat.not_lt_of_le hle hmid
    · rw [hmax]
      exact extendHeap_ne_zero h hdvd (by omega) hsbrk

/-- The rounded request is 0 or 8: any free block will do. -/
theorem malloc_wrapped (h : Inv s bs live) (hhigh : 2 ^ 64 - 15 ≤ size) (hlt : size < 2 ^ 64) :
    Safe (s, live) (.malloc size) ∧ mmMalloc s size = some (s, 0) ∨
      ¬ Safe (s, live) (.malloc size) ∧ ∃ s' p, mmMalloc s size = some (s', p) ∧ p ≠ 0 := by
  have hzero : size ≠ 0 := by omega
  have hdvd : 8 ∣ chunksize := by decide
  have hmax : max (adjust size) chunksize = chunksize :=
    max_eq_right (Nat.le_trans (adjust_wrapped hlt hhigh) (by decide))
  have hiff : Safe (s, live) (.malloc size) ↔
      findFit s (adjust size) = some 0 ∧ s.brk + chunksize > s.maxAddr := by
    constructor
    · rintro (hle | ⟨hlow, -⟩ | ⟨-, hfail⟩)
      · omega
      · exact absurd hlow (Nat.not_lt_of_le hhigh)
      · exact hfail
    · exact fun hfail => .inr (.inr ⟨hhigh, hfail⟩)
  rw [hiff]
  by_cases hfind : findFit s (adjust size) = some 0
  · have hsbrk := memSbrk_eq (s := s) (n := chunksize) (by decide)
    by_cases hfull : s.brk + chunksize > s.maxAddr
    · refine .inl ⟨⟨hfind, hfull⟩, mmMalloc_full hzero hfind ?_⟩
      rw [if_pos hfull] at hsbrk
      rw [hmax, extendHeap_none hdvd (by decide) hsbrk]
    · refine .inr ⟨fun hfail => hfull hfail.2, mmMalloc_extends hzero hfind ?_⟩
      rw [if_neg hfull] at hsbrk
      rw [hmax]
      exact extendHeap_ne_zero h hdvd (by decide) (by rw [hsbrk]; exact Option.some_ne_none _)
  · refine .inr ⟨fun hfail => hfind hfail.1, ?_⟩
    have hsome := h.findFit_eq (adjust size)
    refine ⟨_, _, mmMalloc_fit hzero hsome fun hmiss => hfind ?_, fun hmiss => hfind ?_⟩
    · rw [hsome, hmiss]
    · rw [hsome, hmiss]

/-- A request of `2^32 - 15` bytes or more is refused, or gets a pointer. -/
theorem malloc_too_large (h : Inv s bs live) (hbig : 2 ^ 32 - 16 < size) (hlt : size < 2 ^ 64) :
    Safe (s, live) (.malloc size) ∧ mmMalloc s size = some (s, 0) ∨
      ¬ Safe (s, live) (.malloc size) ∧ ∃ s' p, mmMalloc s size = some (s', p) ∧ p ≠ 0 := by
  rcases Nat.lt_or_ge size (2 ^ 64 - 15) with hmid | hhigh
  · exact malloc_beyond_header h hbig hmid
  · exact malloc_wrapped h hhigh hlt

/-- No header says more than `2^32 - 8`. -/
theorem not_served {s' : State} {p : Nat} (hp : p ≠ 0) (hbig : 2 ^ 32 - 16 < size) :
    ¬ Served s' p size := by
  intro hserved
  have hsize := (hserved hp).1
  have hle := getSize_le s'.mem (hdrp p)
  rw [dsize] at hsize
  omega

/-- A request is safe if and only if it is served, and then there is a heap again. -/
theorem safe_iff (h : Inv s bs live) (hlt : size < 2 ^ 64) :
    (Safe (s, live) (.malloc size) ↔ LargeEnough (s, live) (.malloc size)) ∧
      (Safe (s, live) (.malloc size) → Serves s live size) := by
  by_cases hsmall : size ≤ 2 ^ 32 - 16
  · have hserves := malloc_enough h hsmall
    obtain ⟨s', p, bs', hcode, -, hserved⟩ := id hserves
    exact ⟨iff_of_true (.inl hsmall) ⟨s', p, hcode, hserved⟩, fun _ => hserves⟩
  · have hbig := Nat.lt_of_not_le hsmall
    rcases malloc_too_large h hbig hlt with ⟨hsafe, hcode⟩ | ⟨hsafe, s', p, hcode, hp⟩
    · exact ⟨iff_of_true hsafe ⟨s, 0, hcode, fun hne => absurd rfl hne⟩,
        fun _ => serves_null h hcode⟩
    · refine ⟨iff_of_false hsafe ?_, fun hsafe' => absurd hsafe' hsafe⟩
      rintro ⟨s₁, p₁, hcode₁, hserved⟩
      cases hcode.symm.trans hcode₁
      exact not_served hp hbig hserved

/-! ## Runs -/

theorem step_safe {s : State × List Nat} {op : Op} (h : Good s) (hop : Lawful s op)
    (hsafe : Safe s op) : ∃ s', step s op = some s' ∧ Good s' := by
  obtain ⟨bs, h⟩ := h
  cases op with
  | malloc size =>
      obtain ⟨s', p, bs', hcode, hinv, -⟩ := (safe_iff h hop).2 hsafe
      refine ⟨(s', if p = 0 then s.2 else p :: s.2), ?_, bs', hinv⟩
      rw [step, hcode]
      rfl
  | free p =>
      obtain ⟨pre, b, post, -, hwrote⟩ := mmFree_wrote h hop
      exact ⟨_, rfl, _, hwrote.inv⟩

/-- **How large the blocks are, exactly.**  Along every run of requests of any
`size_t` and frees of live pointers after `mm_init`, all blocks are as large as they
were asked for if and only if all requests are safe when they are made. -/
theorem large_enough_iff_safe (m : Mem) (base : Nat) (ops : List Op)
    (hlawful : Along step Lawful ((mmInit (memInit m base)).2, []) ops) :
    Along step LargeEnough ((mmInit (memInit m base)).2, []) ops ↔
      Along step Safe ((mmInit (memInit m base)).2, []) ops := by
  obtain ⟨s₀, bs₀, hinit, hinv₀⟩ := mmInit_inv m base
  rw [hinit] at hlawful ⊢
  have hgood : Good (s₀, []) := ⟨bs₀, hinv₀⟩
  refine (along_congr (fun s op s' hs hop hsafe hstep => ?_) (fun s op hs hop => ?_) ops hgood
    hlawful).symm
  · obtain ⟨s₁, hstep₁, hs₁⟩ := step_safe hs hop hsafe
    cases hstep.symm.trans hstep₁
    exact hs₁
  · obtain ⟨bs, hinv⟩ := hs
    cases op with
    | malloc size => exact (safe_iff hinv hop).1
    | free p => exact Iff.rfl

/-- A request that is refused, one that fits, and one for `2^32` bytes. -/
theorem large_enough_iff_safe_mixed :
    (Along step LargeEnough ((mmInit (memInit (fun _ => 0) 4096)).2, [])
        [.malloc (2 ^ 32 - 16), .malloc 100, .malloc (2 ^ 32)] ↔
      Along step Safe ((mmInit (memInit (fun _ => 0) 4096)).2, [])
        [.malloc (2 ^ 32 - 16), .malloc 100, .malloc (2 ^ 32)]) ∧
      ¬ Along step Safe ((mmInit (memInit (fun _ => 0) 4096)).2, [])
        [.malloc (2 ^ 32 - 16), .malloc 100, .malloc (2 ^ 32)] :=
  ⟨large_enough_iff_safe _ _ _ (by decide +kernel), by decide +kernel⟩

/-- `mm_malloc(2^32)` right after `mm_init` extends the heap by 8 bytes. -/
theorem malloc_short :
    ¬ ∀ (m : Mem) (base : Nat) (ops : List Op),
      Along step Lawful ((mmInit (memInit m base)).2, []) ops →
        Along step LargeEnough ((mmInit (memInit m base)).2, []) ops := by
  intro hall
  have hlarge := (hall (fun _ => 0) 4096 [.malloc (2 ^ 32)] (by decide +kernel)).1
  obtain ⟨s₀, bs₀, hinit, hinv₀⟩ := mmInit_inv (fun _ => 0) 4096
  have hsafe : ¬ Safe ((mmInit (memInit (fun _ => 0) 4096)).2, []) (.malloc (2 ^ 32)) := by
    decide +kernel
  rw [hinit] at hlarge hsafe
  exact hsafe ((safe_iff hinv₀ (by decide)).1.mpr hlarge)

end CKernel.Malloc.Ptmalloc
