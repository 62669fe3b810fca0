/-
# `CKernel.Malloc.ReallocTile` — `my_malloc` and `my_free` on one region

Runs of `my_malloc` and `my_free` in which the system is asked for memory once.
The list of `g_heap_head` is then the region from end to end, in address order,
and no two neighbours of it are free: `split_block` puts its remainder before a
used block, and `coalesce` leaves no two free blocks together.

    what is taken is split, and stays a tiling                (`Holds.fit`)
    what is given back is merged on both sides                (`Holds.give`)
    after every call of a run the region is tiled, and it is
      one free block when all pointers are given back          (`region_tiled`)
-/
import CKernel.Lib.Run
import CKernel.Malloc.ReallocRuns

namespace CKernel.Malloc.Realloc.Region

open Run

/-! ## Calls -/

/-- A call, with what `mmap` answers if it is asked. -/
inductive Call where
  | malloc (size : Nat) (os : Option Nat)
  | free (ptr : Nat)
  deriving DecidableEq, Repr

/-- The pointers handed out and not given back, each with the size asked for. -/
abbrev Ledger := List (Nat × Nat)

def step (s : State × Ledger) : Call → Option (State × Ledger)
  | .malloc size os => (myMalloc s.1 size os).map fun r =>
      (r.1, if r.2 = 0 then s.2 else (r.2, size) :: s.2)
  | .free ptr => (myFree s.1 ptr).map fun s' => (s', s.2.eraseP fun e => e.1 == ptr)

/-- `my_malloc` does not find a block, and calls `request_os_mem`. -/
def Asks (s : State) (size : Nat) : Prop :=
  findFreeBlock s (alignUp size alignment) = some 0

instance (s : State) (size : Nat) : Decidable (Asks s size) := inferInstanceAs (Decidable (_ = _))

/-- How often a call calls `request_os_mem`. -/
def requests (s : State × Ledger) : Call → Nat
  | .malloc size _ => if Asks s.1 size then 1 else 0
  | .free _ => 0

/-- A request for at least one byte, no size computed for it wrapping, with an answer
that `mmap` may give; or a live pointer. -/
def Allowed (s : State × Ledger) : Call → Prop
  | .malloc size os => 0 < size ∧ size + alignment < 2 ^ 64 ∧
      (Asks s.1 size → NoWrap size ∧ Mmap s.1 (regionSize (alignUp size alignment)) os)
  | .free ptr => ptr ∈ s.2.map Prod.fst

instance (s : State × Ledger) : (op : Call) → Decidable (Allowed s op)
  | .malloc _ _ => inferInstanceAs (Decidable (_ ∧ _))
  | .free _ => inferInstanceAs (Decidable (_ ∈ _))

/-! ## What the results say -/

def NoTwoFree (bs : List Blk) : Prop := bs.IsChain fun x y => ¬ (x.free = true ∧ y.free = true)

/-- A used block has the payload that was handed out, and the size asked for. -/
def Serves (bs : List Blk) (e : Nat × Nat) : Prop :=
  ∃ b ∈ bs, b.free = false ∧ b.payload = e.1 ∧ (e.2 + 15) / 16 * 16 ≤ b.size

/-- The list `bs` from `g_heap_head` tiles the region `r`, and its used blocks are
those whose payloads were handed out. -/
structure Tiled (r : Extent) (s : State × Ledger) (bs : List Blk) : Prop where
  walk : walk s.1.mem (fuel s.1) s.1.head = some bs
  regions : s.1.regions = [r]
  tiles : Tiles r.lo (bs.map Blk.extent) r.hi
  live : (s.2.map Prod.fst).Perm (used bs)
  sizes : ∀ e ∈ s.2, Serves bs e
  apart : NoTwoFree bs

/-- One free block from end to end. -/
def wholeRegion (r : Extent) : List Blk := [⟨r.lo, r.hi - r.lo - headerSize, true⟩]

/-! ## Free neighbours -/

variable {s s' : State × Ledger} {r : Extent} {bs pre post rest : List Blk} {b x y : Blk}
  {needed lo hi : Nat} {e : Nat × Nat}

/-- A used block separates. -/
theorem noTwoFree_used (hx : x.free = false) :
    NoTwoFree (pre ++ x :: post) ↔ NoTwoFree pre ∧ NoTwoFree post := by
  have hleft : ∀ y : Blk, ¬ (x.free = true ∧ y.free = true) :=
    fun _ hboth => Bool.false_ne_true (hx.symm.trans hboth.1)
  have hright : ∀ y : Blk, ¬ (y.free = true ∧ x.free = true) :=
    fun _ hboth => Bool.false_ne_true (hx.symm.trans hboth.2)
  rw [NoTwoFree, List.isChain_append, List.isChain_cons]
  constructor
  · rintro ⟨hpre, ⟨-, hpost⟩, -⟩
    exact ⟨hpre, hpost⟩
  · rintro ⟨hpre, hpost⟩
    refine ⟨hpre, ⟨fun y _ => hleft y, hpost⟩, fun y _ z hz => ?_⟩
    obtain rfl := Option.some.inj hz
    exact hright y

theorem noTwoFree_cons_congr (hfree : x.free = y.free) :
    NoTwoFree (x :: post) ↔ NoTwoFree (y :: post) := by
  rw [NoTwoFree, NoTwoFree, List.isChain_cons, List.isChain_cons, hfree]

/-- The remainder of a block stands before what stood behind the block. -/
theorem NoTwoFree.split (h : NoTwoFree (pre ++ b :: post)) (hb : b.free = true) :
    NoTwoFree (pre ++ (splitL ⟨b.addr, b.size, false⟩ needed ++ post)) := by
  obtain ⟨hpre, hpost, -⟩ := List.isChain_append.mp h
  rw [splitL]
  split
  · refine (noTwoFree_used rfl).mpr ⟨hpre, ?_⟩
    exact (noTwoFree_cons_congr hb).mp hpost
  · exact (noTwoFree_used rfl).mpr ⟨hpre, (List.isChain_cons.mp hpost).2⟩

theorem coalesceFrom_head (x : Blk) (rest : List Blk) :
    ∃ c cs, coalesceFrom x rest = c :: cs ∧ c.free = x.free := by
  induction rest generalizing x with
  | nil => exact ⟨x, [], rfl, rfl⟩
  | cons y rest ih =>
      rw [coalesceFrom]
      split
      case isTrue hboth =>
        obtain ⟨c, cs, heq, hfree⟩ := ih ⟨x.addr, x.size + (headerSize + y.size), true⟩
        exact ⟨c, cs, heq, hfree.trans hboth.1.symm⟩
      case isFalse => exact ⟨x, _, rfl, rfl⟩

/-- The loop leaves no two free blocks together. -/
theorem noTwoFree_coalesceFrom (x : Blk) (rest : List Blk) : NoTwoFree (coalesceFrom x rest) := by
  induction rest generalizing x with
  | nil => exact List.isChain_singleton x
  | cons y rest ih =>
      rw [coalesceFrom]
      split
      case isTrue => exact ih _
      case isFalse hboth =>
        obtain ⟨c, cs, heq, hfree⟩ := coalesceFrom_head y rest
        have hrest := ih y
        rw [heq] at hrest ⊢
        refine List.isChain_cons_cons.mpr ⟨?_, hrest⟩
        rwa [hfree]

/-! ## Tilings of the region -/

theorem tiles_splitL {a z : Nat} (hle : needed ≤ b.size) (h : Tiles a [b.extent] z) :
    Tiles a ((splitL b needed).map Blk.extent) z := by
  obtain ⟨hlo, hhi⟩ := h
  have h32 : headerSize = 32 := rfl
  rw [splitL]
  split
  case isTrue hbig =>
    refine ⟨hlo, rfl, ?_⟩
    show b.addr + headerSize + needed + headerSize + (b.size - needed - headerSize) = z
    rw [← show b.addr + headerSize + b.size = z from hhi]
    omega
  case isFalse => exact ⟨hlo, hhi⟩

theorem tiles_coalesceFrom (x : Blk) (rest : List Blk) {a z : Nat}
    (h : Tiles a ((x :: rest).map Blk.extent) z) :
    Tiles a ((coalesceFrom x rest).map Blk.extent) z := by
  induction rest generalizing a x with
  | nil => exact h
  | cons y rest ih =>
      obtain ⟨hx, hy, hrest⟩ := h
      rw [coalesceFrom]
      split
      case isTrue =>
        refine ih ⟨x.addr, x.size + (headerSize + y.size), true⟩ ⟨hx, ?_⟩
        have hend : x.addr + headerSize + (x.size + (headerSize + y.size)) =
            y.addr + headerSize + y.size := by
          rw [show y.addr = x.addr + headerSize + x.size from hy]
          omega
        show Tiles (x.addr + headerSize + (x.size + (headerSize + y.size))) _ z
        rw [hend]
        exact hrest
      case isFalse => exact ⟨hx, ih y ⟨hy, hrest⟩⟩

/-- Blocks that are free and not two together are one block. -/
theorem eq_wholeRegion (h : Tiles r.lo (bs.map Blk.extent) r.hi) (hr : r.Proper)
    (hapart : NoTwoFree bs) (hused : used bs = []) : bs = wholeRegion r := by
  have hfree : ∀ b ∈ bs, b.free = true := by
    intro b hb
    have hnot := List.filter_eq_nil_iff.mp (List.map_eq_nil_iff.mp hused) b hb
    simpa using hnot
  cases bs with
  | nil => exact absurd h (Nat.ne_of_lt hr)
  | cons x rest =>
      cases rest with
      | nil =>
          obtain ⟨hlo, hhi⟩ := h
          have hlo' : x.addr = r.lo := hlo
          have hhi' : x.addr + headerSize + x.size = r.hi := hhi
          have hsize : x.size = r.hi - r.lo - headerSize := by omega
          rw [wholeRegion, ← hsize, ← hlo', ← hfree x List.mem_cons_self]
      | cons y rest =>
          have hboth : x.free = true ∧ y.free = true := ⟨hfree x (by simp), hfree y (by simp)⟩
          exact absurd hboth (List.isChain_cons_cons.mp hapart).1

/-! ## Used blocks -/

theorem mem_coalesceFrom (x : Blk) (rest : List Blk) (hb : b.free = false)
    (hmem : b ∈ x :: rest) : b ∈ coalesceFrom x rest := by
  induction rest generalizing x with
  | nil => exact hmem
  | cons y rest ih =>
      rw [coalesceFrom]
      split
      case isTrue hboth =>
        refine ih _ (List.mem_cons_of_mem _ ?_)
        have hx : b ≠ x := fun heq => Bool.false_ne_true (hb.symm.trans (heq ▸ hboth.1))
        have hy : b ≠ y := fun heq => Bool.false_ne_true (hb.symm.trans (heq ▸ hboth.2))
        exact List.mem_of_ne_of_mem hy (List.mem_of_ne_of_mem hx hmem)
      case isFalse =>
        rcases List.mem_cons.mp hmem with rfl | hmem
        · exact List.mem_cons_self
        · exact List.mem_cons_of_mem _ (ih y hmem)

theorem Serves.mono {cs : List Blk} (h : Serves bs e)
    (hsub : ∀ b ∈ bs, b.free = false → b.payload = e.1 → b ∈ cs) : Serves cs e := by
  obtain ⟨b, hb, hfree, hpayload, hsize⟩ := h
  exact ⟨b, hsub b hb hfree hpayload, hfree, hpayload, hsize⟩

/-- No block is handed out twice. -/
theorem nodup_used {rs : List Extent} (h : Geo rs bs) : (used bs).Nodup := by
  have happart := List.pairwise_map.mp (h.arranged.pairwise_apart h.regions.apart)
  refine List.pairwise_map.mpr ((happart.filter _).imp fun {x y} hxy heq => ?_)
  have hx : x.addr < x.addr + headerSize + x.size := x.proper
  have hy : y.addr < y.addr + headerSize + y.size := y.proper
  have haddr : x.addr = y.addr := Nat.add_right_cancel heq
  rcases hxy with hle | hle
  · have hle' : x.addr + headerSize + x.size ≤ y.addr := hle
    omega
  · have hle' : y.addr + headerSize + y.size ≤ x.addr := hle
    omega

/-- In one region every merge is between neighbours. -/
theorem coalesceSafe_one (h : Geo [r] bs) : CoalesceSafe [r] bs := by
  refine (List.pairwise_of_forall_mem_list fun x hx y hy _ _ => ?_).isChain
  obtain ⟨r₁, hr₁, hx'⟩ := h.region hx
  obtain ⟨r₂, hr₂, hy'⟩ := h.region hy
  obtain rfl := List.mem_singleton.mp hr₁
  obtain rfl := List.mem_singleton.mp hr₂
  exact ⟨_, List.mem_singleton.mpr rfl, hx', hy'⟩

/-! ## The invariant -/

/-- The list is as `Tiled` says, in memory. -/
structure Holds (r : Extent) (s : State × Ledger) (bs : List Blk) : Prop where
  inv : Inv s.1 bs (s.2.map Prod.fst)
  regions : s.1.regions = [r]
  proper : r.Proper
  tiles : Tiles r.lo (bs.map Blk.extent) r.hi
  sizes : ∀ e ∈ s.2, Serves bs e
  apart : NoTwoFree bs

theorem Holds.tiled (h : Holds r s bs) : Tiled r s bs :=
  ⟨h.inv.walk_eq, h.regions, h.tiles, h.inv.live, h.sizes, h.apart⟩

theorem Holds.eq_wholeRegion (h : Holds r s bs) (hnone : s.2 = []) : bs = wholeRegion r := by
  refine Region.eq_wholeRegion h.tiles h.proper h.apart (List.nil_perm.mp ?_)
  have hlive := h.inv.live
  rwa [hnone, List.map_nil] at hlive

/-- What a request is rounded to. -/
theorem rounded {n : Nat} (h : n + alignment < 2 ^ 64) :
    alignUp n alignment = (n + 15) / 16 * 16 := by
  rw [alignment] at h
  rw [Nat.mul_comm]
  exact alignUp_eq (n := n) (k := 4) (by decide) (by omega)

/-- The block taken serves the request. -/
theorem serves_splitL {n : Nat} (hb : b.free = false) (hround : (n + 15) / 16 * 16 ≤ needed)
    (hle : needed ≤ b.size) : Serves (splitL b needed) (b.payload, n) := by
  rw [splitL]
  split
  · exact ⟨_, List.mem_cons_self, hb, rfl, hround⟩
  · exact ⟨b, List.mem_cons_self, hb, rfl, Nat.le_trans hround hle⟩

/-- A free block of the list is taken. -/
theorem Holds.fit {n : Nat} (h : Holds r s (pre ++ b :: post)) (hb : b.free = true)
    (haligned : 16 ∣ needed) (hround : (n + 15) / 16 * 16 ≤ needed) (hle : needed ≤ b.size) :
    Holds r ((take s.1 b.addr needed).1, (b.payload, n) :: s.2)
      (pre ++ (splitL ⟨b.addr, b.size, false⟩ needed ++ post)) := by
  refine ⟨take_ok h.inv hb hle haligned, h.regions, h.proper, ?_, fun e he => ?_, h.apart.split hb⟩
  · have htiles := h.tiles
    simp only [List.map_append] at htiles ⊢
    refine (show Tiles r.lo (_ ++ ([b.extent] ++ _)) r.hi from htiles).replace fun a z hone => ?_
    exact tiles_splitL (b := ⟨b.addr, b.size, false⟩) hle hone
  · rcases List.mem_cons.mp he with rfl | he
    · refine (serves_splitL (b := ⟨b.addr, b.size, false⟩) rfl hround hle).mono fun c hc _ _ => ?_
      exact List.mem_append_right _ (List.mem_append_left _ hc)
    · refine (h.sizes e he).mono fun c hc hfree _ => ?_
      have hne : c ≠ b := fun heq => Bool.false_ne_true (hfree.symm.trans (heq ▸ hb))
      rcases List.mem_append.mp hc with hc | hc
      · exact List.mem_append_left _ hc
      · exact List.mem_append_right _ (List.mem_append_right _ (List.mem_of_ne_of_mem hne hc))

/-- A used block is given back. -/
theorem Holds.give {ptr : Nat} (h : Holds r s bs) (hptr : ptr ∈ s.2.map Prod.fst) :
    ∃ s' bs', step s (.free ptr) = some s' ∧ Holds r s' bs' ∧
      s'.2.map Prod.fst = (s.2.map Prod.fst).erase ptr := by
  obtain ⟨pre, b, post, rfl, hb, hpayload⟩ := exists_of_mem_used (h.inv.live.mem_iff.mp hptr)
  rw [← Blk.payload] at hpayload
  subst hpayload
  have hledger : (s.2.eraseP fun e => e.1 == b.payload).map Prod.fst =
      (s.2.map Prod.fst).erase b.payload := by
    rw [List.erase_eq_eraseP', List.eraseP_map]
    rfl
  have hgeo := h.inv.geo.setFree true
  have hsafe : CoalesceSafe s.1.regions (pre ++ ⟨b.addr, b.size, true⟩ :: post) := by
    rw [h.regions] at hgeo ⊢
    exact coalesceSafe_one hgeo
  obtain ⟨m', hcode, hinv⟩ := myFree_coalesces h.inv hb hsafe
  have hnodup := h.inv.live.nodup_iff.mpr (nodup_used h.inv.geo)
  obtain ⟨x, rest, hlist⟩ := List.exists_cons_of_ne_nil
    (List.append_ne_nil_of_right_ne_nil pre (List.cons_ne_nil (⟨b.addr, b.size, true⟩ : Blk) post))
  rw [hlist, coalesced, ← hledger] at hinv
  have hstep : step s (.free b.payload) =
      some ({ s.1 with mem := m' }, s.2.eraseP fun e => e.1 == b.payload) := by
    rw [step, hcode, Option.map_some]
  refine ⟨_, coalesceFrom x rest, hstep, ⟨hinv, h.regions, h.proper, ?_, ?_, ?_⟩, hledger⟩
  · refine tiles_coalesceFrom x rest ?_
    rw [← hlist, List.map_append, List.map_cons]
    have htiles := h.tiles
    rw [List.map_append, List.map_cons] at htiles
    exact htiles
  · intro e he
    have hne : e.1 ≠ b.payload := by
      intro heq
      have hmem := List.mem_map_of_mem (f := Prod.fst) he
      rw [hledger, heq] at hmem
      exact hnodup.not_mem_erase hmem
    refine (h.sizes e (List.mem_of_mem_eraseP he)).mono fun c hc hfree hpayload => ?_
    refine mem_coalesceFrom x rest hfree (hlist ▸ ?_)
    have hcb : c ≠ b := fun heq => hne (hpayload.symm.trans (congrArg Blk.payload heq))
    rcases List.mem_append.mp hc with hc | hc
    · exact List.mem_append_left _ hc
    · exact List.mem_append_right _ (List.mem_cons_of_mem _ (List.mem_of_ne_of_mem hcb hc))
  · exact noTwoFree_coalesceFrom x rest

/-- In a call that asks for nothing, a block of the list is large enough. -/
theorem Holds.malloc {n : Nat} {os : Option Nat} (h : Holds r s bs)
    (hop : Allowed s (.malloc n os)) (hquiet : requests s (.malloc n os) = 0) :
    ∃ s' bs', step s (.malloc n os) = some s' ∧ Holds r s' bs' := by
  obtain ⟨hpos, hlt, -⟩ := hop
  have hsize := rounded hlt
  have hfit : firstFree ((n + 15) / 16 * 16) bs ≠ 0 := by
    intro hmiss
    have hasks : Asks s.1 n := by rw [Asks, hsize, h.inv.findFreeBlock_eq, hmiss]
    rw [requests, if_pos hasks] at hquiet
    cases hquiet
  obtain ⟨pre, b, post, rfl, hb, hle, -, hcode⟩ :=
    myMalloc_fit h.inv (Nat.ne_of_gt hpos) hsize hfit
  have hstep : step s (.malloc n os) =
      some ((take s.1 b.addr ((n + 15) / 16 * 16)).1, (b.payload, n) :: s.2) := by
    rw [step, hcode, Option.map_some]
    exact congrArg some (congrArg (Prod.mk _) (if_neg (payload_ne_zero b.addr)))
  exact ⟨_, _, hstep, h.fit hb (Nat.dvd_mul_left _ _) (Nat.le_refl _) hle⟩

theorem step_holds (s : State × Ledger) (op : Call) (h : ∃ bs, Holds r s bs)
    (hop : Allowed s op ∧ requests s op = 0) : ∃ s', step s op = some s' ∧ ∃ bs, Holds r s' bs := by
  obtain ⟨bs, h⟩ := h
  cases op with
  | malloc n os =>
      obtain ⟨s', bs', hstep, h'⟩ := h.malloc hop.1 hop.2
      exact ⟨s', hstep, bs', h'⟩
  | free ptr =>
      obtain ⟨s', bs', hstep, h', -⟩ := h.give hop.1
      exact ⟨s', hstep, bs', h'⟩

/-- All pointers are given back, in any order. -/
theorem Holds.drain (h : Holds r s bs) {ptrs : List Nat} (hptrs : ptrs.Perm (s.2.map Prod.fst)) :
    ∃ s', run step s (ptrs.map Call.free) = some s' ∧ s'.2 = [] ∧ Holds r s' (wholeRegion r) := by
  induction ptrs generalizing s bs with
  | nil =>
      have hnone : s.2 = [] := List.map_eq_nil_iff.mp (List.nil_perm.mp hptrs)
      exact ⟨s, rfl, hnone, h.eq_wholeRegion hnone ▸ h⟩
  | cons ptr ptrs ih =>
      obtain ⟨hmem, hrest⟩ := List.cons_perm_iff_perm_erase.mp hptrs
      obtain ⟨s₁, bs₁, hstep, h₁, hledger⟩ := h.give hmem
      obtain ⟨s', hrun, hdone⟩ := ih h₁ (hledger ▸ hrest)
      refine ⟨s', ?_, hdone⟩
      rw [List.map_cons, run, hstep]
      exact hrun

/-! ## The first call -/

/-- The range that `mmap` returns for a request. -/
def region (size lo : Nat) : Extent := ⟨lo, lo + regionSize (alignUp size alignment)⟩

theorem firstFree_nil {size : Nat} : firstFree size [] = 0 := rfl

theorem asks_make (m : Mem) (n : Nat) : Asks (make m) n := by
  rw [Asks, (inv_make m).findFreeBlock_eq, firstFree]

theorem requests_make {m : Mem} {op : Call} (hop : Allowed (make m, []) op) :
    requests (make m, []) op = 1 := by
  cases op with
  | malloc n os => rw [requests, if_pos (asks_make m n)]
  | free ptr => exact absurd hop List.not_mem_nil

theorem malloc_none (m : Mem) {n : Nat} (hn : 0 < n) :
    step (make m, []) (.malloc n none) = some (make m, []) := by
  rw [step, myMalloc_none (inv_make m) (Nat.ne_of_gt hn) rfl firstFree_nil, Option.map_some,
    if_pos rfl]

/-- The region is tiled from the first. -/
theorem malloc_region {m : Mem} {n lo : Nat} (hop : Allowed (make m, []) (.malloc n (some lo))) :
    ∃ s bs, step (make m, []) (.malloc n (some lo)) = some s ∧ Holds (region n lo) s bs := by
  obtain ⟨hpos, hlt, hasked⟩ := hop
  obtain ⟨hwrap, hos⟩ := hasked (asks_make m n)
  have hsized := hwrap.sized
  have hround := rounded hlt
  rw [region]
  generalize hsize : alignUp n alignment = size at *
  obtain ⟨s', hcode, hnew⟩ := myMalloc_new (inv_make m) (Nat.ne_of_gt hpos) hsize rfl hsized hos
  have h32 : headerSize = 32 := rfl
  have hfits := hsized.fits
  have hstep : step (make m, []) (.malloc n (some lo)) = some (s', [(lo + headerSize, n)]) := by
    rw [step, hcode, Option.map_some]
    exact congrArg some (congrArg (Prod.mk _) (if_neg (payload_ne_zero lo)))
  have hinv := hnew.inv
  rw [List.nil_append] at hinv
  generalize hb : (⟨lo, regionSize size - headerSize, false⟩ : Blk) = b at hinv
  have haddr : b.addr = lo := hb ▸ rfl
  have hused : b.free = false := hb ▸ rfl
  have hend : b.addr + headerSize + b.size = lo + regionSize size := by
    rw [← hb]
    show lo + headerSize + (regionSize size - headerSize) = lo + regionSize size
    omega
  have hle : size ≤ b.size := by
    rw [← hb]
    exact Nat.le_sub_of_add_le' hfits
  refine ⟨_, splitL b size, hstep, hinv, hnew.regions, ?_, ?_, fun e he => ?_, ?_⟩
  · show lo < lo + regionSize size
    omega
  · exact tiles_splitL hle ⟨haddr, hend⟩
  · obtain rfl := List.mem_singleton.mp he
    have hserves := serves_splitL hused (Nat.le_of_eq hround.symm) hle
    rwa [Blk.payload, haddr] at hserves
  · rw [splitL]
    split
    · have hfirst : (⟨b.addr, size, b.free⟩ : Blk).free = false := hused
      show NoTwoFree ([] ++ (⟨b.addr, size, b.free⟩ : Blk) :: [_])
      exact (noTwoFree_used hfirst).mpr ⟨List.isChain_nil, List.isChain_singleton _⟩
    · exact List.isChain_singleton _

/-! ## Runs -/

/-- In a run with one call of `request_os_mem` that call is the first.  Either it fails
and the run ends there, or after every call the list tiles the region, and is one free
block as soon as all live pointers are given back. -/
theorem region_tiled (m : Mem) (ops : List Call) (hops : Along step Allowed (make m, []) ops)
    (honce : tally step requests (make m, []) ops = 1) :
    (∃ size, ops = [.malloc size none] ∧ run step (make m, []) ops = some (make m, [])) ∨
      ∃ size lo rest, ops = .malloc size (some lo) :: rest ∧ ∀ n, 0 < n → ∃ s bs,
        run step (make m, []) (ops.take n) = some s ∧ Tiled (region size lo) s bs ∧
          ∀ ptrs : List Nat, ptrs.Perm (s.2.map Prod.fst) → ∃ s',
            run step s (ptrs.map Call.free) = some s' ∧ s'.2 = [] ∧
              Tiled (region size lo) s' (wholeRegion (region size lo)) := by
  cases ops with
  | nil => cases honce
  | cons op rest =>
      have hone := requests_make hops.1
      have hrest := hops.2
      rw [tally, hone] at honce
      cases op with
      | free ptr => exact absurd hops.1 List.not_mem_nil
      | malloc size os =>
          cases os with
          | none =>
              have hstep := malloc_none m hops.1.1
              rw [hstep] at honce hrest
              have hquiet := tally_eq_zero.mp (Nat.add_left_cancel honce)
              cases rest with
              | nil => exact .inl ⟨size, rfl, by rw [run, hstep]; rfl⟩
              | cons op rest =>
                  -- the list is still empty, so that a second request would follow
                  have htwo := requests_make hrest.1
                  rw [hquiet.1] at htwo
                  cases htwo
          | some lo =>
              obtain ⟨s₁, bs₁, hstep, h₁⟩ := malloc_region hops.1
              rw [hstep] at honce hrest
              have hquiet := tally_eq_zero.mp (Nat.add_left_cancel honce)
              refine .inr ⟨size, lo, rest, rfl, fun n hn => ?_⟩
              obtain ⟨k, rfl⟩ := Nat.exists_eq_add_one_of_ne_zero (Nat.ne_of_gt hn)
              obtain ⟨s, hrun, bs, h⟩ :=
                run_invariant step_holds (rest.take k) ⟨bs₁, h₁⟩ ((hrest.and hquiet).take k)
              refine ⟨s, bs, ?_, h.tiled, fun ptrs hptrs => ?_⟩
              · rw [List.take_succ_cons, run, hstep]
                exact hrun
              · obtain ⟨s', hdrain, hnone, h'⟩ := h.drain hptrs
                exact ⟨s', hdrain, hnone, h'.tiled⟩

/-- The first block is taken again whole, since what would remain is too small; the last
one given back is merged on both sides. -/
def reuse : List Call :=
  [.malloc 100 (some 0x10000), .malloc 50 none, .malloc 20 none, .free 0x10020, .malloc 60 none,
    .free 0x100b0, .free 0x10020, .free 0x10110]

theorem region_tiled_reuse :
    Along step Allowed (make fun _ => 0, []) reuse ∧
      tally step requests (make fun _ => 0, []) reuse = 1 ∧
      ((∃ size, reuse = [.malloc size none] ∧
          run step (make fun _ => 0, []) reuse = some (make fun _ => 0, [])) ∨
        ∃ size lo rest, reuse = .malloc size (some lo) :: rest ∧ ∀ n, 0 < n → ∃ s bs,
          run step (make fun _ => 0, []) (reuse.take n) = some s ∧ Tiled (region size lo) s bs ∧
            ∀ ptrs : List Nat, ptrs.Perm (s.2.map Prod.fst) → ∃ s',
              run step s (ptrs.map Call.free) = some s' ∧ s'.2 = [] ∧
                Tiled (region size lo) s' (wholeRegion (region size lo))) :=
  ⟨by decide +kernel, by decide +kernel,
    region_tiled _ _ (by decide +kernel) (by decide +kernel)⟩

end CKernel.Malloc.Realloc.Region
