/-
# `CKernel.Malloc.ReallocHeap` — blocks of `my_realloc.cpp` and the mappings they lie in

The list of `g_heap_head` runs through all regions, so a block's successor in the
list need not be its neighbour in memory.  `Inv s bs live` says that memory holds
the list `bs`, that its blocks are arranged in the regions (`Geo`) and that the
pointers handed out are those of the used blocks.

    `my_free` keeps it when no two neighbours of the list that
      `coalesce` will merge are in different regions            (`myFree_ok`)
    `my_malloc` always keeps it                                 (`myMalloc_ok`)
-/
import CKernel.Malloc.ReallocList

namespace CKernel.Malloc.Realloc

/-! ## When `coalesce` is harmless -/

/-- Both blocks lie in one mapping. -/
def SameRegion (rs : List Extent) (x y : Blk) : Prop :=
  ∃ r ∈ rs, x.extent.Within r ∧ y.extent.Within r

/-- No two neighbours in the list are free and in different mappings. -/
def CoalesceSafe (rs : List Extent) (bs : List Blk) : Prop :=
  bs.IsChain fun x y => x.free = true → y.free = true → SameRegion rs x y

/-- The list with the block at `a` counted as free. -/
def mark (a : Nat) (bs : List Blk) : List Blk :=
  bs.map fun b => if b.addr = a then { b with free := true } else b

/-! ## Geometry -/

/-- The regions are disjoint ranges of the address space. -/
structure RegionsOk (rs : List Extent) : Prop where
  apart : rs.Pairwise Extent.Apart
  bound : ∀ r ∈ rs, 0 < r.lo ∧ r.hi ≤ 2 ^ 64

structure Geo (rs : List Extent) (bs : List Blk) : Prop where
  regions : RegionsOk rs
  arranged : Arranged rs (bs.map Blk.extent)
  aligned : ∀ b ∈ bs, 16 ∣ b.addr ∧ 16 ∣ b.size

variable {m m' : Mem} {rs : List Extent} {bs pre mid mid' post : List Blk} {x y b : Blk}
  {r hull : Extent}

theorem Blk.proper (b : Blk) : b.extent.Proper := by
  show b.addr < b.addr + headerSize + b.size
  rw [headerSize]
  omega

theorem Geo.region (h : Geo rs bs) (hb : b ∈ bs) : ∃ r ∈ rs, b.extent.Within r :=
  h.arranged.within _ (List.mem_map_of_mem hb)

theorem Geo.bound (h : Geo rs bs) (hb : b ∈ bs) :
    0 < b.addr ∧ b.addr + headerSize + b.size ≤ 2 ^ 64 := by
  obtain ⟨r, hr, hlo, hhi⟩ := h.region hb
  obtain ⟨hpos, hlt⟩ := h.regions.bound r hr
  exact ⟨Nat.lt_of_lt_of_le hpos hlo, Nat.le_trans hhi hlt⟩

theorem Geo.length_le (h : Geo rs bs) : bs.length ≤ (rs.map fun r => r.hi - r.lo).sum := by
  have hle := h.arranged.length_le h.regions.apart fun i hi => by
    obtain ⟨b, -, rfl⟩ := List.mem_map.mp hi
    exact b.proper
  rwa [List.length_map] at hle

theorem Geo.headPtr_lt (h : Geo rs (pre ++ post)) : headPtr 0 post < 2 ^ 64 := by
  cases post with
  | nil => exact Nat.two_pow_pos 64
  | cons b post =>
      have hb := h.bound (List.mem_append_right pre List.mem_cons_self)
      show b.addr < 2 ^ 64
      rw [headerSize] at hb
      omega

/-- The hull of some blocks, seen from the others of the list. -/
abbrev BlkHull (rs : List Extent) (pre post : List Blk) (r hull : Extent) : Prop :=
  Hull rs (pre.map Blk.extent) (post.map Blk.extent) r hull

theorem Geo.hull_one (h : Geo rs (pre ++ x :: post)) (hr : r ∈ rs) (hx : x.extent.Within r) :
    BlkHull rs pre post r x.extent := by
  have harr := h.arranged
  rw [List.map_append, List.map_cons] at harr
  exact harr.hull_one hr hx

theorem Geo.hull_two (h : Geo rs (pre ++ x :: y :: post)) (hr : r ∈ rs) (hx : x.extent.Within r)
    (hy : y.extent.Within r) : BlkHull rs pre post r ⟨x.addr, y.addr + headerSize + y.size⟩ := by
  have harr := h.arranged
  rw [List.map_append, List.map_cons, List.map_cons] at harr
  exact harr.hull_two hr hx hy

theorem Geo.le_of_two (h : Geo rs (pre ++ x :: y :: post)) (hr : r ∈ rs) (hx : x.extent.Within r)
    (hy : y.extent.Within r) : x.addr + headerSize + x.size ≤ y.addr := by
  have harr := h.arranged
  rw [List.map_append, List.map_cons, List.map_cons] at harr
  exact harr.le_of_two hr hx hy

/-- The other headers are outside the hull. -/
theorem Geo.off (h : Geo rs (pre ++ (mid ++ post))) (hhull : BlkHull rs pre post r hull) :
    Off hull.lo hull.hi (pre ++ post) := by
  have hwithin : ∀ z ∈ pre.map Blk.extent ++ post.map Blk.extent, ∃ r ∈ rs, z.Within r := by
    intro z hz
    refine h.arranged.within z ?_
    rw [List.map_append, List.map_append]
    rcases List.mem_append.mp hz with hz | hz
    · exact List.mem_append_left _ hz
    · exact List.mem_append_right _ (List.mem_append_right _ hz)
  intro b hb
  have happart := hhull.off h.regions.apart hwithin b.extent (by
    rw [← List.map_append]
    exact List.mem_map_of_mem hb)
  rcases happart with hle | hle
  · exact .inl (Nat.le_trans (Nat.le_add_right _ _) hle)
  · exact .inr hle

theorem Geo.replace (h : Geo rs (pre ++ (mid ++ post))) (hhull : BlkHull rs pre post r hull)
    (hmid : ∀ y ∈ mid', y.extent.Within hull ∧ 16 ∣ y.addr ∧ 16 ∣ y.size)
    (horder : mid'.Pairwise fun x y => x.addr + headerSize + x.size ≤ y.addr) :
    Geo rs (pre ++ (mid' ++ post)) := by
  have harr := h.arranged
  simp only [List.map_append] at harr
  refine ⟨h.regions, ?_, fun b hb => ?_⟩
  · simp only [List.map_append]
    refine harr.replace h.regions.apart hhull ?_ (List.pairwise_map.mpr horder)
    intro z hz
    obtain ⟨y, hy, rfl⟩ := List.mem_map.mp hz
    exact ⟨y.proper, (hmid y hy).1⟩
  · rcases List.mem_append.mp hb with hb | hb
    · exact h.aligned b (List.mem_append_left _ hb)
    · rcases List.mem_append.mp hb with hb | hb
      · exact (hmid b hb).2
      · exact h.aligned b (List.mem_append_right _ (List.mem_append_right _ hb))

/-! ## `coalesce` -/

/-- What the loop makes of the list from `x` on. -/
def coalesceFrom (x : Blk) : List Blk → List Blk
  | [] => [x]
  | y :: rest =>
      if x.free ∧ y.free then coalesceFrom ⟨x.addr, x.size + (headerSize + y.size), true⟩ rest
      else x :: coalesceFrom y rest

/-- One merge: `y` becomes part of `x`. -/
theorem merge_ok (h : Chain m 0 (pre ++ x :: y :: post)) (hgeo : Geo rs (pre ++ x :: y :: post))
    (hsame : SameRegion rs x y) (hx : x.free = true) :
    Chain (setNext (setSize m x.addr
        (Word.add 64 (sizeOf m x.addr) (Word.add 64 headerSize (sizeOf m (nextOf m x.addr)))))
        x.addr (headPtr 0 post)) 0
        (pre ++ ⟨x.addr, x.size + (headerSize + y.size), true⟩ :: post) ∧
      Geo rs (pre ++ ⟨x.addr, x.size + (headerSize + y.size), true⟩ :: post) := by
  obtain ⟨r, hr, hxr, hyr⟩ := hsame
  have h32 : headerSize = 32 := rfl
  have hxy := hgeo.le_of_two hr hxr hyr
  have hhull := hgeo.hull_two hr hxr hyr
  have hend := (hgeo.bound (b := y) (by simp)).2
  have hgeo' : Geo rs (pre ++ ([x, y] ++ post)) := hgeo
  have hpost : Geo rs ((pre ++ [x, y]) ++ post) := by simpa using hgeo
  obtain ⟨hxa, hxs⟩ := hgeo.aligned x (by simp)
  obtain ⟨-, hys⟩ := hgeo.aligned y (by simp)
  obtain ⟨⟨haddr, hsize, hfree⟩, hnext⟩ := h.header
  have hy := (chain_append.mp h).2.2.2.1
  have hinner : Word.add 64 headerSize y.size = headerSize + y.size := Word.add_eq (by omega)
  have hsum : Word.add 64 (sizeOf m x.addr)
      (Word.add 64 headerSize (sizeOf m (nextOf m x.addr))) = x.size + (headerSize + y.size) := by
    rw [hsize, hnext, headPtr, hy.size, hinner, Word.add_eq (by omega)]
  rw [hsum]
  constructor
  · have hoff : Off x.addr (x.addr + headerSize) (pre ++ post) := by
      intro b hb
      refine (hgeo'.off hhull b hb).imp_right fun hle => ?_
      have hhi : y.addr + headerSize + y.size ≤ b.addr := hle
      omega
    have hchain := h.absorb (v := x.size + (headerSize + y.size)) (by omega) hpost.headPtr_lt hoff
    rwa [hx] at hchain
  · have hmid : ∀ z ∈ [(⟨x.addr, x.size + (headerSize + y.size), true⟩ : Blk)],
        z.extent.Within ⟨x.addr, y.addr + headerSize + y.size⟩ ∧ 16 ∣ z.addr ∧ 16 ∣ z.size := by
      intro z hz
      obtain rfl := List.mem_singleton.mp hz
      refine ⟨⟨Nat.le_refl _, ?_⟩, hxa, ?_⟩
      · show x.addr + headerSize + (x.size + (headerSize + y.size)) ≤ y.addr + headerSize + y.size
        omega
      · show 16 ∣ x.size + (headerSize + y.size)
        omega
    exact hgeo'.replace hhull hmid (List.pairwise_singleton _ _)

/-- The region of a merged block is that of its parts. -/
theorem SameRegion.merged (hgeo : Geo rs bs) (hxy : SameRegion rs x y)
    (hle : x.addr + headerSize + x.size ≤ y.addr) {z : Blk} (hyz : SameRegion rs y z) :
    SameRegion rs ⟨x.addr, x.size + (headerSize + y.size), true⟩ z := by
  obtain ⟨r, hr, hxr, hyr⟩ := hxy
  obtain ⟨r', hr', hyr', hzr'⟩ := hyz
  obtain rfl := region_unique hgeo.regions.apart y.proper hr hr' hyr hyr'
  refine ⟨r, hr, ⟨hxr.1, ?_⟩, hzr'⟩
  have hhi : y.addr + headerSize + y.size ≤ r.hi := hyr.2
  show x.addr + headerSize + (x.size + (headerSize + y.size)) ≤ r.hi
  omega

theorem coalesceLoop_ok (rest : List Blk) : ∀ {m : Mem} {pre : List Blk} {x : Blk} {fuel : Nat},
    Chain m 0 (pre ++ x :: rest) → Geo rs (pre ++ x :: rest) → CoalesceSafe rs (x :: rest) →
    rest.length < fuel → ∃ m', coalesceLoop fuel m x.addr = some m' ∧
      Chain m' 0 (pre ++ coalesceFrom x rest) ∧ Geo rs (pre ++ coalesceFrom x rest) := by
  induction rest with
  | nil =>
      intro m pre x fuel h hgeo _ hfuel
      obtain ⟨n, rfl⟩ := Nat.exists_eq_add_one_of_ne_zero (Nat.ne_of_gt hfuel)
      have hnext : nextOf m x.addr = 0 := h.header.2
      refine ⟨m, ?_, h, hgeo⟩
      rw [coalesceLoop, if_neg (by simp [hnext])]
  | cons y rest ih =>
      intro m pre x fuel h hgeo hsafe hfuel
      obtain ⟨n, rfl⟩ := Nat.exists_eq_add_one_of_ne_zero (Nat.ne_of_gt (Nat.zero_lt_of_lt hfuel))
      have hn : rest.length < n := Nat.lt_of_succ_lt_succ hfuel
      obtain ⟨hx, hnext⟩ := h.header
      have hy := (chain_append.mp h).2.2.2.1
      have hnext' : nextOf m x.addr = y.addr := hnext
      obtain ⟨hjoin, htail⟩ := List.isChain_cons.mp hsafe
      have hguard : x.addr ≠ 0 ∧ nextOf m x.addr ≠ 0 := ⟨hx.addr, hnext' ▸ hy.addr⟩
      rw [coalesceLoop, if_pos hguard, hnext', hx.free, hy.free, coalesceFrom]
      by_cases hboth : x.free = true ∧ y.free = true
      · rw [if_pos hboth, if_pos hboth]
        have hsame := hjoin y rfl hboth.1 hboth.2
        obtain ⟨hchain, hgeo'⟩ := merge_ok h hgeo hsame hboth.1
        obtain ⟨r, hr, hxr, hyr⟩ := hsame
        have hxy := hgeo.le_of_two hr hxr hyr
        have hsep : y.addr + headerSize ≤ x.addr ∨ x.addr + headerSize ≤ y.addr := .inr (by omega)
        rw [hnext', ← h.next_next hsep] at hchain
        refine ih (x := ⟨x.addr, x.size + (headerSize + y.size), true⟩) hchain hgeo' ?_ hn
        refine List.isChain_cons.mpr ⟨fun z hz _ hzf => ?_, (List.isChain_cons.mp htail).2⟩
        exact SameRegion.merged hgeo ⟨r, hr, hxr, hyr⟩ hxy
          ((List.isChain_cons.mp htail).1 z hz hboth.2 hzf)
      · rw [if_neg hboth, if_neg hboth]
        have hchain : Chain m 0 ((pre ++ [x]) ++ y :: rest) := by simpa using h
        have hgeo' : Geo rs ((pre ++ [x]) ++ y :: rest) := by simpa using hgeo
        obtain ⟨m', hloop, hres⟩ := ih hchain hgeo' htail hn
        refine ⟨m', hloop, ?_⟩
        simpa using hres

theorem headPtr_coalesceFrom (x : Blk) (rest : List Blk) (q : Nat) :
    headPtr q (coalesceFrom x rest) = x.addr := by
  induction rest generalizing x with
  | nil => rfl
  | cons y rest ih =>
      rw [coalesceFrom]
      split
      · rw [ih]
      · rfl

/-! ## The invariant -/

/-- The pointers handed out for the used blocks. -/
def used (bs : List Blk) : List Nat := (bs.filter fun b => !b.free).map Blk.payload

theorem used_append (bs cs : List Blk) : used (bs ++ cs) = used bs ++ used cs := by
  rw [used, List.filter_append, List.map_append]
  rfl

theorem used_cons_free (hb : b.free = true) (bs : List Blk) : used (b :: bs) = used bs := by
  simp [used, hb]

theorem used_cons_used (hb : b.free = false) (bs : List Blk) :
    used (b :: bs) = b.payload :: used bs := by
  simp [used, hb]

theorem used_coalesceFrom (x : Blk) (rest : List Blk) :
    used (coalesceFrom x rest) = used (x :: rest) := by
  induction rest generalizing x with
  | nil => rfl
  | cons y rest ih =>
      rw [coalesceFrom]
      split
      case isTrue hboth =>
        rw [ih, used_cons_free hboth.1, used_cons_free hboth.2, used_cons_free rfl]
      case isFalse =>
        cases hx : x.free with
        | true => rw [used_cons_free hx, used_cons_free hx, ih]
        | false => rw [used_cons_used hx, used_cons_used hx, ih]

/-- A live pointer belongs to a used block. -/
theorem exists_of_mem_used {ptr : Nat} (h : ptr ∈ used bs) :
    ∃ (pre : List Blk) (b : Blk) (post : List Blk), bs = pre ++ b :: post ∧ b.free = false ∧
      ptr = b.addr + headerSize := by
  obtain ⟨b, hb, rfl⟩ := List.mem_map.mp h
  obtain ⟨hmem, hfree⟩ := List.mem_filter.mp hb
  obtain ⟨pre, post, rfl⟩ := List.append_of_mem hmem
  exact ⟨pre, b, post, rfl, by simpa using hfree, rfl⟩

structure Inv (s : State) (bs : List Blk) (live : List Nat) : Prop where
  head : s.head = headPtr 0 bs
  chain : Chain s.mem 0 bs
  geo : Geo s.regions bs
  live : live.Perm (used bs)

variable {s : State} {live : List Nat}

theorem Inv.length_lt (h : Inv s bs live) : bs.length < fuel s :=
  Nat.lt_succ_of_le h.geo.length_le

theorem Inv.walk_eq (h : Inv s bs live) : walk s.mem (fuel s) s.head = some bs := by
  rw [h.head]
  exact h.chain.walk_eq h.length_lt

/-- The other blocks of the list are elsewhere. -/
theorem Geo.addr_ne (h : Geo rs (pre ++ b :: post)) : ∀ c ∈ pre ++ post, c.addr ≠ b.addr := by
  intro c hc heq
  obtain ⟨r, hr, hbr⟩ := h.region (b := b) (by simp)
  have hoff := (show Geo rs (pre ++ ([b] ++ post)) from h).off (h.hull_one hr hbr) c hc
  rw [heq] at hoff
  have hb : b.addr < b.addr + headerSize + b.size := b.proper
  rcases hoff with hle | hle
  · have hle' : b.addr + headerSize ≤ b.addr := hle
    rw [headerSize] at hle'
    omega
  · exact absurd hb (Nat.not_lt_of_le hle)

theorem Geo.setFree (h : Geo rs (pre ++ b :: post)) (free : Bool) :
    Geo rs (pre ++ ⟨b.addr, b.size, free⟩ :: post) := by
  refine ⟨h.regions, ?_, fun c hc => ?_⟩
  · have harr := h.arranged
    rw [List.map_append, List.map_cons] at harr ⊢
    exact harr
  · rcases List.mem_append.mp hc with hc | hc
    · exact h.aligned c (List.mem_append_left _ hc)
    · rcases List.mem_cons.mp hc with rfl | hc
      · exact h.aligned b (by simp)
      · exact h.aligned c (by simp [hc])

theorem setFree_ok (h : Chain m 0 (pre ++ b :: post)) (hgeo : Geo rs (pre ++ b :: post))
    (free : Bool) : Chain (setFree m b.addr free) 0 (pre ++ ⟨b.addr, b.size, free⟩ :: post) := by
  obtain ⟨r, hr, hbr⟩ := hgeo.region (b := b) (by simp)
  have hoff := (show Geo rs (pre ++ ([b] ++ post)) from hgeo).off (hgeo.hull_one hr hbr)
  refine chain_setFree h (fun c hc => (hoff c hc).imp_right fun hle => ?_) free
  exact Nat.le_trans (Nat.le_add_right _ _) hle

theorem mark_eq (h : Geo rs (pre ++ b :: post)) :
    mark b.addr (pre ++ b :: post) = pre ++ ⟨b.addr, b.size, true⟩ :: post := by
  have hne := h.addr_ne
  have hpre : ∀ c ∈ pre, (if c.addr = b.addr then { c with free := true } else c) = c :=
    fun c hc => if_neg (hne c (List.mem_append_left _ hc))
  have hpost : ∀ c ∈ post, (if c.addr = b.addr then { c with free := true } else c) = c :=
    fun c hc => if_neg (hne c (List.mem_append_right _ hc))
  rw [mark, List.map_append, List.map_cons, if_pos rfl, List.map_congr_left hpre,
    List.map_congr_left hpost, List.map_id', List.map_id']

/-! ## `my_free` -/

/-- What the loop makes of the whole list. -/
def coalesced : List Blk → List Blk
  | [] => []
  | x :: rest => coalesceFrom x rest

/-- `my_free` of a used block, with the list that it leaves. -/
theorem myFree_coalesces (h : Inv s (pre ++ b :: post) live) (hfree : b.free = false)
    (hsafe : CoalesceSafe s.regions (pre ++ ⟨b.addr, b.size, true⟩ :: post)) :
    ∃ m', myFree s b.payload = some { s with mem := m' } ∧
      Inv { s with mem := m' } (coalesced (pre ++ ⟨b.addr, b.size, true⟩ :: post))
        (live.erase b.payload) := by
  have hchain := setFree_ok h.chain h.geo true
  have hgeo := h.geo.setFree true
  have hlen := h.length_lt
  have hlive : (live.erase b.payload).Perm (used (pre ++ ⟨b.addr, b.size, true⟩ :: post)) := by
    have hperm := h.live
    rw [used_append, used_cons_used hfree] at hperm
    rw [used_append, used_cons_free rfl]
    have herase := (hperm.trans List.perm_middle).erase b.payload
    rwa [List.erase_cons_head] at herase
  have hne : b.payload ≠ 0 := by
    rw [Blk.payload, headerSize]
    omega
  -- the loop starts at the head of the list, whichever block that is
  obtain ⟨x, rest, hlist⟩ : ∃ x rest, pre ++ ⟨b.addr, b.size, true⟩ :: post = x :: rest := by
    cases pre with
    | nil => exact ⟨_, _, rfl⟩
    | cons c pre => exact ⟨_, _, rfl⟩
  have hhead : s.head = x.addr := by
    rw [h.head]
    cases pre with
    | nil => rw [← (List.cons.inj hlist).1]; rfl
    | cons c pre => rw [← (List.cons.inj hlist).1]; rfl
  have hfuel : rest.length < fuel s := by
    have hsame := congrArg List.length hlist
    simp only [List.length_append, List.length_cons] at hsame hlen
    omega
  rw [hlist] at hchain hgeo hsafe hlive ⊢
  obtain ⟨m', hloop, hchain', hgeo'⟩ := @coalesceLoop_ok s.regions rest _ [] x _ hchain hgeo hsafe hfuel
  refine ⟨m', ?_, ?_, hchain', hgeo', ?_⟩
  · rw [myFree, if_neg hne, Blk.payload, Nat.add_sub_cancel, coalesce]
    show (coalesceLoop (fuel s) _ s.head).map _ = _
    rw [hhead, hloop]
    rfl
  · rw [coalesced, headPtr_coalesceFrom]
    exact hhead
  · rw [coalesced, used_coalesceFrom]
    exact hlive

theorem myFree_ok (h : Inv s bs live) {ptr : Nat} (hptr : ptr ∈ live)
    (hsafe : CoalesceSafe s.regions (mark (ptr - headerSize) bs)) :
    ∃ s' bs', myFree s ptr = some s' ∧ Inv s' bs' (live.erase ptr) := by
  obtain ⟨pre, b, post, rfl, hfree, rfl⟩ := exists_of_mem_used (h.live.mem_iff.mp hptr)
  rw [Nat.add_sub_cancel, mark_eq h.geo] at hsafe
  obtain ⟨m', hcode, hinv⟩ := myFree_coalesces h hfree hsafe
  exact ⟨_, _, hcode, hinv⟩

/-! ## Sizes -/

/-- The macro for a power of two; only the sum in it can wrap. -/
theorem alignUp_mod {n k : Nat} (hk : k ≤ 64) :
    alignUp n (2 ^ k) = 2 ^ k * ((n + 2 ^ k - 1) % 2 ^ 64 / 2 ^ k) := by
  have hpos : 0 < 2 ^ k := Nat.two_pow_pos k
  have hsum : Word.sub 64 (Word.add 64 n (2 ^ k)) 1 = (n + 2 ^ k - 1) % 2 ^ 64 := by
    have hsplit : n + 2 ^ k + (2 ^ 64 - 1 % 2 ^ 64) = n + 2 ^ k - 1 + 2 ^ 64 := by omega
    rw [Word.sub, Word.add, Nat.mod_add_mod, hsplit, Nat.add_mod_right]
  rw [alignUp, hsum, Word.and_high hk (Nat.mod_lt _ (Nat.two_pow_pos 64))]

theorem alignUp_dvd (n : Nat) : 16 ∣ alignUp n alignment := by
  rw [show alignUp n alignment = _ from alignUp_mod (n := n) (k := 4) (by decide)]
  exact Nat.dvd_mul_right _ _

theorem alignUp_eq {n k : Nat} (hk : k ≤ 64) (h : n + 2 ^ k < 2 ^ 64) :
    alignUp n (2 ^ k) = 2 ^ k * ((n + 2 ^ k - 1) / 2 ^ k) := by
  rw [alignUp_mod hk, Nat.mod_eq_of_lt (Nat.lt_of_le_of_lt (Nat.sub_le _ _) h)]

/-- What a request that does not wrap is rounded to. -/
theorem alignUp_alignment {n : Nat} (h : NoWrap n) :
    alignUp n alignment = 16 * ((n + 15) / 16) := by
  rw [NoWrap, headerSize, mmapThresholed] at h
  exact alignUp_eq (n := n) (k := 4) (by decide) (by omega)

/-- The rounding is done a second time when `my_realloc` calls `my_malloc`. -/
theorem alignUp_alignUp {n : Nat} (h : NoWrap n) :
    alignUp (alignUp n alignment) alignment = alignUp n alignment := by
  rw [alignUp_alignment h]
  rw [NoWrap, headerSize, mmapThresholed] at h
  refine (alignUp_eq (n := 16 * ((n + 15) / 16)) (k := 4) (by decide) (by omega)).trans ?_
  omega

/-- A rounded request and the region asked for it. -/
structure Sized (size total : Nat) : Prop where
  aligned : 16 ∣ size
  total_aligned : 16 ∣ total
  fits : headerSize + size ≤ total
  total_lt : total < 2 ^ 64

theorem NoWrap.sized {n : Nat} (h : NoWrap n) :
    Sized (alignUp n alignment) (regionSize (alignUp n alignment)) := by
  rw [alignUp_alignment h]
  rw [NoWrap, headerSize, mmapThresholed] at h
  have hadd : Word.add 64 headerSize (16 * ((n + 15) / 16)) = 32 + 16 * ((n + 15) / 16) :=
    Word.add_eq (by rw [headerSize]; omega)
  have htotal : regionSize (16 * ((n + 15) / 16)) =
      4096 * ((32 + 16 * ((n + 15) / 16) + 4095) / 4096) := by
    rw [regionSize, hadd]
    exact alignUp_eq (n := 32 + 16 * ((n + 15) / 16)) (k := 12) (by decide) (by omega)
  rw [htotal]
  refine ⟨Nat.dvd_mul_right _ _, ?_, ?_, ?_⟩
  · exact Nat.dvd_trans (by decide : 16 ∣ 4096) (Nat.dvd_mul_right _ _)
  · rw [headerSize]
    omega
  · omega

/-! ## `split_block` -/

variable {needed : Nat}

theorem used_splitL : used (splitL b needed) = used [b] := by
  rw [splitL]
  split
  · cases hb : b.free with
    | true => rw [used_cons_free hb, used_cons_free rfl, used_cons_free rfl]
    | false =>
        rw [used_cons_used hb, used_cons_used rfl, used_cons_free rfl]
        rfl
  · rfl

theorem Geo.split (h : Geo rs (pre ++ b :: post)) (hneeded : 16 ∣ needed) :
    Geo rs (pre ++ (splitL b needed ++ post)) := by
  obtain ⟨r, hr, hbr⟩ := h.region (b := b) (by simp)
  obtain ⟨haddr, hsize⟩ := h.aligned b (by simp)
  have h32 : headerSize = 32 := rfl
  have hgeo : Geo rs (pre ++ ([b] ++ post)) := h
  rw [splitL]
  split
  case isTrue hbig =>
    refine hgeo.replace (h.hull_one hr hbr) ?_ ?_
    · intro z hz
      rcases List.mem_cons.mp hz with rfl | hz
      · refine ⟨⟨Nat.le_refl _, ?_⟩, haddr, hneeded⟩
        show b.addr + headerSize + needed ≤ b.addr + headerSize + b.size
        omega
      · obtain rfl := List.mem_singleton.mp hz
        refine ⟨⟨?_, ?_⟩, ?_, ?_⟩
        · show b.addr ≤ b.addr + headerSize + needed
          omega
        · show b.addr + headerSize + needed + headerSize + (b.size - needed - headerSize) ≤
            b.addr + headerSize + b.size
          omega
        · show 16 ∣ b.addr + headerSize + needed
          omega
        · show 16 ∣ b.size - needed - headerSize
          omega
    · exact List.pairwise_pair.mpr (Nat.le_refl _)
  case isFalse => exact h

theorem split_ok (h : Chain m 0 (pre ++ b :: post)) (hgeo : Geo rs (pre ++ b :: post))
    (hle : needed ≤ b.size) :
    Chain (splitBlock m b.addr needed) 0 (pre ++ (splitL b needed ++ post)) := by
  obtain ⟨r, hr, hbr⟩ := hgeo.region (b := b) (by simp)
  have hpost : Geo rs ((pre ++ [b]) ++ post) := by simpa using hgeo
  exact (splitBlock_ok h hle (hgeo.bound (by simp)).2 hpost.headPtr_lt
    ((show Geo rs (pre ++ ([b] ++ post)) from hgeo).off (hgeo.hull_one hr hbr))).1

/-- `take` on a free block of the list. -/
theorem take_ok (h : Inv s (pre ++ b :: post) live) (hb : b.free = true) (hle : needed ≤ b.size)
    (hneeded : 16 ∣ needed) :
    Inv (take s b.addr needed).1 (pre ++ (splitL ⟨b.addr, b.size, false⟩ needed ++ post))
      (b.payload :: live) := by
  have hgeo := h.geo.setFree false
  refine ⟨?_, split_ok (setFree_ok h.chain h.geo false) hgeo hle, hgeo.split hneeded, ?_⟩
  · have hhead := h.head
    rw [headPtr_append] at hhead ⊢
    rw [headPtr_append, headPtr_splitL]
    exact hhead
  · have hlive := h.live
    rw [used_append, used_cons_free hb] at hlive
    rw [used_append, used_append, used_splitL, used_cons_used rfl]
    exact (hlive.cons _).trans List.perm_middle.symm

/-! ## `init_new_region` -/

section NewRegion
variable {lo size : Nat} (hos : Mmap s (regionSize size) (some lo))
include hos

/-- The old blocks are outside the new mapping. -/
theorem Mmap.off (h : Geo s.regions bs) : Off lo (lo + regionSize size) bs := by
  intro b hb
  obtain ⟨r, hr, hlo, hhi⟩ := h.region hb
  have hhi' : b.addr + headerSize + b.size ≤ r.hi := hhi
  have hlo' : r.lo ≤ b.addr := hlo
  rcases hos.2.2.2 r hr with hle | hle
  · left
    omega
  · right
    omega

variable (hsize : Sized size (regionSize size))
include hsize

theorem Geo.newRegion (h : Geo s.regions bs) :
    Geo (s.regions ++ [⟨lo, lo + regionSize size⟩])
      (bs ++ [⟨lo, regionSize size - headerSize, true⟩]) := by
  obtain ⟨hpos, hpage, hbound, hfresh⟩ := hos
  obtain ⟨-, htotal, hfits, -⟩ := hsize
  have h32 : headerSize = 32 := rfl
  refine ⟨⟨?_, ?_⟩, ?_, ?_⟩
  · refine List.pairwise_append.mpr ⟨h.regions.apart, List.pairwise_singleton _ _, ?_⟩
    intro r hr r' hr'
    obtain rfl := List.mem_singleton.mp hr'
    exact hfresh r hr
  · intro r hr
    rcases List.mem_append.mp hr with hr | hr
    · exact h.regions.bound r hr
    · obtain rfl := List.mem_singleton.mp hr
      exact ⟨hpos, hbound⟩
  · rw [List.map_append]
    refine h.arranged.append ?_ hfresh ?_ (List.pairwise_singleton _ _)
    · intro i hi
      obtain ⟨b, -, rfl⟩ := List.mem_map.mp hi
      exact b.proper
    · intro z hz
      obtain rfl := List.mem_singleton.mp hz
      refine ⟨Blk.proper _, Nat.le_refl _, ?_⟩
      show lo + headerSize + (regionSize size - headerSize) ≤ lo + regionSize size
      omega
  · intro b hb
    rcases List.mem_append.mp hb with hb | hb
    · exact h.aligned b hb
    · obtain rfl := List.mem_singleton.mp hb
      refine ⟨Nat.dvd_trans (by decide : 16 ∣ mmapThresholed) hpage, ?_⟩
      show 16 ∣ regionSize size - headerSize
      omega

theorem initNewRegion_ok (h : Inv s bs live) :
    ∃ s', initNewRegion s size (some lo) = some (s', lo) ∧
      s'.regions = s.regions ++ [⟨lo, lo + regionSize size⟩] ∧
      Inv s' (bs ++ [⟨lo, regionSize size - headerSize, true⟩]) live := by
  have hgeo := Geo.newRegion hos hsize h.geo
  have hfits := Nat.le_trans (Nat.le_add_right _ _) hsize.fits
  have hlo : lo < 2 ^ 64 := by
    have hbound := hos.2.2.1
    rw [headerSize] at hfits
    omega
  have hnew : Off lo (lo + headerSize) bs := fun b hb =>
    (Mmap.off hos h.geo b hb).imp_right fun hle => Nat.le_trans (Nat.add_le_add_left hfits lo) hle
  have hlast : ∀ pre (c : Blk), bs = pre ++ [c] → Off c.addr (c.addr + headerSize) pre := by
    rintro pre c rfl
    obtain ⟨r, hr, hcr⟩ := h.geo.region (b := c) (by simp)
    have hoff := (show Geo s.regions (pre ++ ([c] ++ [])) from h.geo).off (h.geo.hull_one hr hcr)
    rw [List.append_nil] at hoff
    exact fun b hb => (hoff b hb).imp_right fun hle => Nat.le_trans (Nat.le_add_right _ _) hle
  have hlive : live.Perm (used (bs ++ [⟨lo, regionSize size - headerSize, true⟩])) := by
    rw [used_append, used_cons_free rfl]
    simpa [used] using h.live
  obtain ⟨m', hcode, hchain, -⟩ := initNewRegion_chain h.head h.chain h.length_lt hos.1 hlo
    ⟨hfits, hsize.total_lt⟩ hnew hlast
  exact ⟨_, hcode, rfl, rfl, hchain, hgeo, hlive⟩

end NewRegion

/-! ## `my_malloc` -/

/-- A free block of the list is taken, and split if it is large enough. -/
structure TakesFit (s s' : State) (bs : List Blk) (live : List Nat) (size ret : Nat) : Prop where
  list : ∃ pre b post, bs = pre ++ b :: post ∧ size ≤ b.size ∧ ret = b.addr + headerSize ∧
    findFreeBlock s size = some b.addr ∧
    Inv s' (pre ++ (splitL ⟨b.addr, b.size, false⟩ size ++ post)) (ret :: live)
  regions : s'.regions = s.regions

/-- A new region is mapped and its first block taken. -/
structure TakesNew (s s' : State) (bs : List Blk) (live : List Nat) (size lo ret : Nat) : Prop where
  miss : findFreeBlock s size = some 0
  result : ret = lo + headerSize
  regions : s'.regions = s.regions ++ [⟨lo, lo + regionSize size⟩]
  inv : Inv s' (bs ++ splitL ⟨lo, regionSize size - headerSize, false⟩ size) (ret :: live)

theorem Inv.findFreeBlock_eq (h : Inv s bs live) (size : Nat) :
    findFreeBlock s size = some (firstFree size bs) := by
  rw [findFreeBlock, h.head]
  exact h.chain.findLoop_eq size h.length_lt

theorem Inv.addr_ne_zero (h : Inv s bs live) : ∀ b ∈ bs, b.addr ≠ 0 :=
  fun _ hb => Nat.ne_of_gt (h.geo.bound hb).1

section Malloc
variable {n size : Nat} (h : Inv s bs live) (hn : n ≠ 0) (hsize : alignUp n alignment = size)
include h hn hsize

theorem myMalloc_eq (os : Option Nat) :
    myMalloc s n os =
      if firstFree size bs ≠ 0 then some (take s (firstFree size bs) size)
      else (initNewRegion s size os).bind fun r =>
        if r.2 = 0 then some (r.1, 0) else some (take r.1 r.2 size) :=
  myMalloc_chain h.head h.chain h.length_lt hn hsize os

/-- A block of the list is large enough. -/
theorem myMalloc_fit (hfit : firstFree size bs ≠ 0) :
    ∃ (pre : List Blk) (b : Blk) (post : List Blk), bs = pre ++ b :: post ∧ b.free = true ∧
      size ≤ b.size ∧ firstFree size bs = b.addr ∧ ∀ os, myMalloc s n os = some (take s b.addr size) := by
  rcases firstFree_cases size bs h.addr_ne_zero with hnull | ⟨pre, b, post, rfl, hb, hle, heq⟩
  · exact absurd hnull hfit
  · refine ⟨pre, b, post, rfl, hb, hle, heq, fun os => ?_⟩
    rw [myMalloc_eq h hn hsize, if_pos hfit, heq]

/-- None is, and the system gives nothing. -/
theorem myMalloc_none (hmiss : firstFree size bs = 0) : myMalloc s n none = some (s, 0) := by
  rw [myMalloc_eq h hn hsize, if_neg (not_not.mpr hmiss), initNewRegion, Option.bind_some,
    if_pos rfl]

/-- None is, and the system gives a region. -/
theorem myMalloc_new {lo : Nat} (hmiss : firstFree size bs = 0)
    (hsized : Sized size (regionSize size)) (hos : Mmap s (regionSize size) (some lo)) :
    ∃ s', myMalloc s n (some lo) = some (s', lo + headerSize) ∧
      TakesNew s s' bs live size lo (lo + headerSize) := by
  obtain ⟨s₁, hinit, hregions, hinv⟩ := initNewRegion_ok hos hsized h
  have hle : size ≤ regionSize size - headerSize := Nat.le_sub_of_add_le' hsized.fits
  have htake := take_ok (b := ⟨lo, regionSize size - headerSize, true⟩) hinv rfl hle hsized.aligned
  rw [List.append_nil] at htake
  refine ⟨(take s₁ lo size).1, ?_, ?_, rfl, hregions, htake⟩
  · rw [myMalloc_eq h hn hsize, if_neg (not_not.mpr hmiss), hinit, Option.bind_some]
    exact if_neg (Nat.ne_of_gt hos.1)
  · rw [h.findFreeBlock_eq, hmiss]

theorem myMalloc_ok {os : Option Nat} (hsized : Sized size (regionSize size))
    (hos : Mmap s (regionSize size) os) :
    ∃ s' ret, myMalloc s n os = some (s', ret) ∧ (TakesFit s s' bs live size ret ∨
      (∃ lo, os = some lo ∧ TakesNew s s' bs live size lo ret) ∨ ret = 0 ∧ s' = s) := by
  by_cases hmiss : firstFree size bs = 0
  · cases os with
    | none => exact ⟨s, 0, myMalloc_none h hn hsize hmiss, .inr (.inr ⟨rfl, rfl⟩)⟩
    | some lo =>
        obtain ⟨s', hcode, hnew⟩ := myMalloc_new h hn hsize hmiss hsized hos
        exact ⟨s', _, hcode, .inr (.inl ⟨lo, rfl, hnew⟩)⟩
  · have hfind := h.findFreeBlock_eq size
    obtain ⟨pre, b, post, rfl, hb, hle, heq, hcode⟩ := myMalloc_fit h hn hsize hmiss
    rw [heq] at hfind
    refine ⟨_, _, hcode os, .inl ⟨?_, rfl⟩⟩
    exact ⟨pre, b, post, rfl, hle, rfl, hfind, take_ok h hb hle hsized.aligned⟩

end Malloc

end CKernel.Malloc.Realloc
