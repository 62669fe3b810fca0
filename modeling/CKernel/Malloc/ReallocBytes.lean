/-
# `CKernel.Malloc.ReallocBytes` — the bytes that `my_realloc` leaves alone

Whichever way `my_realloc` takes, what it writes is in headers: of the blocks in
the list, and of one that it cuts off behind the bytes it keeps.  Only the copy
writes into a payload, that of the block just allocated.

    the two headers that each of them writes                       (`splitBlock_frame`, `grow_frame`)
    the headers of the list, and nothing else                      (`coalesceLoop_frame`)
    the list after `my_malloc`, and the payloads in use            (`myMalloc_taken`)
    the copy and `my_free`                                         (`copy_free`)
    contents are preserved, except for requests near `SIZE_MAX`    (`myRealloc_preserves_iff`)
-/
import CKernel.Malloc.ReallocGrow
import CKernel.Malloc.ReallocSize

namespace CKernel.Malloc.Realloc

open Run

/-! ## The heap and the property -/

/-- Every byte from `lo` up to `hi` is the same. -/
def Keeps (m m' : Mem) (lo hi : Nat) : Prop := ∀ a, lo ≤ a → a < hi → m' a = m a

/-- The blocks of the list lie in one mapping, each where the one before it ends. -/
structure InRegion (s : State) (r : Extent) (bs : List Blk) : Prop where
  head : s.head = headPtr 0 bs
  chain : Chain s.mem 0 bs
  region : r ∈ s.regions
  bound : r.hi ≤ 2 ^ 64
  within : ∀ b ∈ bs, b.extent.Within r
  adjacent : bs.IsChain fun x y => y.addr = x.addr + headerSize + x.size

/-- What a `my_realloc` of `b` to `n` bytes may do, if it returns `q`. -/
structure Preserves (s s' : State) (bs : List Blk) (b : Blk) (n q : Nat) : Prop where
  contents : q ≠ 0 → ∀ i < min b.size n, s'.mem (q + i) = s.mem (b.payload + i)
  others : q ≠ 0 → ∀ c ∈ bs, c.free = false → c.payload ≠ b.payload →
    Keeps s.mem s'.mem c.payload (c.payload + c.size)
  null : q = 0 → s' = s

variable {m m' : Mem} {s s' : State} {bs cs pre mid mid' post : List Blk} {b c x y : Blk}
  {r : Extent} {a n q size : Nat} {os : Option Nat}

/-! ## Blocks apart -/

/-- No two blocks overlap. -/
def Spread (bs : List Blk) : Prop := (bs.map Blk.extent).Pairwise Extent.Apart

theorem spread_cons : Spread (b :: bs) ↔ (∀ c ∈ bs, b.extent.Apart c.extent) ∧ Spread bs := by
  rw [Spread, List.map_cons, List.pairwise_cons, List.forall_mem_map]
  exact Iff.rfl

theorem spread_append : Spread (bs ++ cs) ↔
    Spread bs ∧ Spread cs ∧ ∀ b ∈ bs, ∀ c ∈ cs, b.extent.Apart c.extent := by
  simp only [Spread, List.map_append, List.pairwise_append, List.forall_mem_map]

/-- The other blocks are outside of one. -/
theorem Spread.apart (h : Spread (pre ++ b :: post)) :
    ∀ c ∈ pre ++ post, c.extent.Apart b.extent := by
  obtain ⟨-, hrest, hcross⟩ := spread_append.mp h
  intro c hc
  rcases List.mem_append.mp hc with hc | hc
  · exact hcross c hc b List.mem_cons_self
  · exact ((spread_cons.mp hrest).1 c hc).symm

theorem Spread.off (h : Spread (pre ++ b :: post)) :
    Off b.addr (b.addr + headerSize + b.size) (pre ++ post) := by
  intro c hc
  rcases h.apart c hc with hle | hle
  · exact .inl (Nat.le_trans (Nat.le_add_right _ _) hle)
  · exact .inr hle

/-- A block is exchanged for others inside it. -/
theorem Spread.replace (h : Spread (pre ++ b :: post))
    (hwithin : ∀ z ∈ mid, z.extent.Within b.extent) (hmid : Spread mid) :
    Spread (pre ++ (mid ++ post)) := by
  obtain ⟨hpre, hrest, -⟩ := spread_append.mp h
  have hcross : ∀ z ∈ mid, ∀ c ∈ pre ++ post, c.extent.Apart z.extent := by
    intro z hz c hc
    obtain ⟨hlo, hhi⟩ := hwithin z hz
    exact (h.apart c hc).imp (fun hle => Nat.le_trans hle hlo) fun hle => Nat.le_trans hhi hle
  refine spread_append.mpr ⟨hpre, spread_append.mpr ⟨hmid, (spread_cons.mp hrest).2, ?_⟩, ?_⟩
  · exact fun z hz c hc => (hcross z hz c (List.mem_append_right _ hc)).symm
  · intro c hc z hz
    rcases List.mem_append.mp hz with hz | hz
    · exact hcross z hz c (List.mem_append_left _ hc)
    · exact (spread_append.mp h).2.2 c hc z (List.mem_cons_of_mem _ hz)

theorem splitL_within (hle : size ≤ b.size) :
    (∀ z ∈ splitL b size, z.extent.Within b.extent) ∧ Spread (splitL b size) := by
  rw [splitL]
  split
  case isTrue hbig =>
    refine ⟨List.forall_mem_cons.mpr ⟨⟨Nat.le_refl _, ?_⟩, List.forall_mem_singleton.mpr ⟨?_, ?_⟩⟩,
      List.pairwise_pair.mpr (.inl (Nat.le_refl _))⟩
    · exact Nat.add_le_add_left hle _
    · show b.addr ≤ b.addr + headerSize + size
      omega
    · show b.addr + headerSize + size + headerSize + (b.size - size - headerSize) ≤
        b.addr + headerSize + b.size
      omega
  case isFalse =>
    exact ⟨List.forall_mem_singleton.mpr ⟨Nat.le_refl _, Nat.le_refl _⟩,
      List.pairwise_singleton _ _⟩

/-- A payload is in no header. -/
theorem Spread.outside (h : Spread bs) (hb : b ∈ bs) (hlo : b.payload ≤ a)
    (hhi : a < b.payload + b.size) : Outside bs a := by
  obtain ⟨pre, post, rfl⟩ := List.append_of_mem hb
  intro p hp
  obtain ⟨c, hc, rfl⟩ := List.mem_map.mp hp
  have hc' : c = b ∨ c ∈ pre ++ post := by
    simp only [List.mem_append, List.mem_cons] at hc ⊢
    tauto
  rw [Blk.payload] at hlo hhi
  rcases hc' with rfl | hc'
  · exact .inr hlo
  · rcases h.off c hc' with hle | hle
    · right
      omega
    · left
      omega

/-! ### The blocks of one region -/

theorem InRegion.ordered (h : InRegion s r bs) :
    bs.Pairwise fun x y => x.addr + headerSize + x.size ≤ y.addr := by
  have htrans : ∀ x y z : Blk, x.addr + headerSize + x.size ≤ y.addr →
      y.addr + headerSize + y.size ≤ z.addr → x.addr + headerSize + x.size ≤ z.addr :=
    fun x y z hxy hyz => by omega
  have : Trans (fun x y : Blk => x.addr + headerSize + x.size ≤ y.addr)
      (fun x y : Blk => x.addr + headerSize + x.size ≤ y.addr)
      (fun x y : Blk => x.addr + headerSize + x.size ≤ y.addr) := ⟨fun {x y z} => htrans x y z⟩
  exact (h.adjacent.imp fun x y hxy => Nat.le_of_eq hxy.symm).pairwise

theorem InRegion.spread (h : InRegion s r bs) : Spread bs :=
  List.pairwise_map.mpr (h.ordered.imp fun hle => .inl hle)

theorem InRegion.end_le (h : InRegion s r bs) (hb : b ∈ bs) :
    b.addr + headerSize + b.size ≤ 2 ^ 64 :=
  Nat.le_trans (h.within b hb).2 h.bound

/-- Ordered blocks take 32 bytes each, at least. -/
theorem length_le_of_ordered {lo hi : Nat} (hlo : lo ≤ hi)
    (hbs : ∀ b ∈ bs, lo ≤ b.addr ∧ b.addr + headerSize + b.size ≤ hi)
    (horder : bs.Pairwise fun x y => x.addr + headerSize + x.size ≤ y.addr) :
    lo + headerSize * bs.length ≤ hi := by
  induction bs generalizing lo with
  | nil => exact hlo
  | cons b bs ih =>
      obtain ⟨hb, hrest⟩ := List.pairwise_cons.mp horder
      obtain ⟨hblo, hbhi⟩ := hbs b List.mem_cons_self
      have hle := ih hbhi (fun c hc => ⟨hb c hc, (hbs c (List.mem_cons_of_mem _ hc)).2⟩) hrest
      rw [List.length_cons]
      rw [headerSize] at hle ⊢
      omega

/-- The list may grow by two blocks and is still shorter than the fuel. -/
theorem InRegion.length_lt (h : InRegion s r bs) (hne : bs ≠ []) : bs.length + 2 < fuel s := by
  obtain ⟨b, hb⟩ := List.exists_mem_of_ne_nil bs hne
  obtain ⟨hlo, hhi⟩ := h.within b hb
  have hlohi : r.lo ≤ r.hi := by
    have hlo' : r.lo ≤ b.addr := hlo
    have hhi' : b.addr + headerSize + b.size ≤ r.hi := hhi
    omega
  have hlen := length_le_of_ordered hlohi (fun c hc => h.within c hc) h.ordered
  have hsum : r.hi - r.lo ≤ (s.regions.map fun r => r.hi - r.lo).sum :=
    List.le_sum_of_mem (List.mem_map_of_mem h.region)
  have hpos : 0 < bs.length := List.length_pos_iff.mpr hne
  rw [headerSize] at hlen
  rw [fuel]
  omega

/-! ## What the functions write -/

section TwoHeaders
variable (ha : a < b.addr ∨ b.addr + headerSize ≤ a)
include ha

/-- `split_block` writes the header of the block and that of the rest. -/
theorem splitBlock_frame (hsize : sizeOf m b.addr = b.size)
    (hend : b.addr + headerSize + b.size ≤ 2 ^ 64) (hle : size ≤ b.size)
    (hrest : a < b.addr + headerSize + size ∨ b.addr + headerSize + b.size ≤ a) :
    splitBlock m b.addr size a = m a := by
  have h32 : headerSize = 32 := rfl
  have hsub : Word.sub 64 b.size size = b.size - size := Word.sub_eq (by omega) hle
  simp only [splitBlock]
  rw [hsize, hsub]
  split
  case isTrue hbig =>
    rw [headerBehind_eq (by omega)]
    have hnew : a < b.addr + headerSize + size ∨
        b.addr + headerSize + size + headerSize ≤ a := hrest.imp_right fun hle => by omega
    rw [eqOff_setNext a ha, eqOff_setSize a ha, eqOff_setNext a hnew, eqOff_setFree a hnew,
      eqOff_setSize a hnew]
  case isFalse => rfl

/-- Growth writes the header of the block and that of the remainder. -/
theorem grow_frame {sum : Nat} (hsum : combined m b.addr = sum)
    (hend : b.addr + headerSize + sum ≤ 2 ^ 64) (hle : size ≤ sum)
    (hrest : a < b.addr + headerSize + size ∨ b.addr + headerSize + sum ≤ a) :
    grow m b.addr size a = m a := by
  have h32 : headerSize = 32 := rfl
  have hsub : Word.sub 64 sum size = sum - size := Word.sub_eq (by omega) hle
  simp only [grow]
  rw [hsum, hsub]
  split
  case isTrue hbig =>
    rw [headerBehind_eq (by omega)]
    have hnew : a < b.addr + headerSize + size ∨
        b.addr + headerSize + size + headerSize ≤ a := hrest.imp_right fun hle => by omega
    rw [eqOff_setNext a ha, eqOff_setNext a hnew, eqOff_setFree a hnew, eqOff_setSize a hnew,
      eqOff_setSize a ha]
  case isFalse => rw [eqOff_setNext a ha, eqOff_setSize a ha]

end TwoHeaders

/-- `coalesce` writes headers of the list only.  The blocks may lie anywhere, and what
a merged one claims does not matter. -/
theorem coalesceLoop_frame (rest : List Blk) : ∀ {m : Mem} {x : Blk} {fuel : Nat},
    Chain m 0 (x :: rest) →
    (x :: rest).Pairwise (fun b c => c.addr + headerSize ≤ b.addr ∨ b.addr + headerSize ≤ c.addr) →
    rest.length < fuel →
    ∃ m', coalesceLoop fuel m x.addr = some m' ∧ ∀ a, Outside (x :: rest) a → m' a = m a := by
  induction rest with
  | nil =>
      intro m x fuel h _ hfuel
      obtain ⟨k, rfl⟩ := Nat.exists_eq_add_one_of_ne_zero (Nat.ne_of_gt hfuel)
      have hnext : nextOf m x.addr = 0 := h.2.1
      refine ⟨m, ?_, fun _ _ => rfl⟩
      rw [coalesceLoop, if_neg (by simp [hnext])]
  | cons y rest ih =>
      intro m x fuel h happart hfuel
      obtain ⟨k, rfl⟩ := Nat.exists_eq_add_one_of_ne_zero (Nat.ne_of_gt (Nat.zero_lt_of_lt hfuel))
      have hk : rest.length < k := Nat.lt_of_succ_lt_succ hfuel
      have hnext : nextOf m x.addr = y.addr := h.2.1
      obtain ⟨hcross, htail⟩ := List.pairwise_cons.mp happart
      have hguard : x.addr ≠ 0 ∧ nextOf m x.addr ≠ 0 := ⟨h.1.addr, hnext ▸ h.2.2.1.addr⟩
      rw [coalesceLoop, if_pos hguard]
      split
      case isTrue =>
        generalize hv : Word.add 64 (sizeOf m x.addr)
          (Word.add 64 headerSize (sizeOf m (nextOf m x.addr))) = v
        have hvlt : v < 2 ^ 64 := hv ▸ Nat.mod_lt _ (Nat.two_pow_pos 64)
        have hread := (show Chain m 0 ([] ++ x :: y :: rest) from h).next_next (v := v)
          (hcross y List.mem_cons_self)
        have hlt := nextOf_lt (setSize m x.addr v) (nextOf (setSize m x.addr v) x.addr)
        dsimp only
        rw [hread] at hlt ⊢
        have hmerged := (show Chain m 0 ([] ++ x :: y :: rest) from h).absorb hvlt hlt
          fun c hc => hcross c (List.mem_cons_of_mem _ hc)
        obtain ⟨m', hloop, hframe⟩ := ih (x := ⟨x.addr, v, x.free⟩) hmerged
          (List.pairwise_cons.mpr ⟨fun c hc => hcross c (List.mem_cons_of_mem _ hc),
            (List.pairwise_cons.mp htail).2⟩) hk
        refine ⟨m', hloop, fun a ha => ?_⟩
        have hshort : Outside (⟨x.addr, v, x.free⟩ :: rest) a := by
          intro p hp
          rcases List.mem_cons.mp hp with rfl | hp
          · exact ha x.addr List.mem_cons_self
          · exact ha p (List.mem_cons_of_mem _ (List.mem_cons_of_mem _ hp))
        exact (hframe a hshort).trans
          (ha.eqOff List.mem_cons_self (eqOff_setSize.trans eqOff_setNext))
      case isFalse =>
        obtain ⟨m', hloop, hframe⟩ := ih (x := y) h.2.2 htail hk
        rw [hnext]
        exact ⟨m', hloop, fun a ha => hframe a fun p hp => ha p (List.mem_cons_of_mem _ hp)⟩

/-! ## `my_malloc` -/

/-- After `my_malloc` the block of `ret` has room for `size` bytes, the used blocks are
others of the list, and their payloads are as they were. -/
structure Taken (s s' : State) (bs : List Blk) (size ret : Nat) : Prop where
  list : ∃ (pre : List Blk) (c : Blk) (post : List Blk), ret = c.payload ∧ size ≤ c.size ∧
    s'.head = headPtr 0 (pre ++ c :: post) ∧ Chain s'.mem 0 (pre ++ c :: post) ∧
    Spread (pre ++ c :: post) ∧ (pre ++ c :: post).length < fuel s' ∧
    ∀ b ∈ bs, b.free = false → b ∈ pre ++ post
  kept : ∀ b ∈ bs, b.free = false → Keeps s.mem s'.mem b.payload (b.payload + b.size)

theorem mem_middle : b ∈ pre ++ c :: post ↔ b = c ∨ b ∈ pre ++ post := by
  simp only [List.mem_append, List.mem_cons]
  tauto

theorem length_splitL (b : Blk) (size : Nat) : (splitL b size).length ≤ 2 := by
  rw [splitL]
  split
  · exact Nat.le_refl 2
  · exact Nat.le_succ 1

/-- The last part of `my_malloc`. -/
theorem take_taken (hhead : s.head = headPtr 0 (pre ++ c :: post))
    (hchain : Chain s.mem 0 (pre ++ c :: post)) (hspread : Spread (pre ++ c :: post))
    (hlen : (pre ++ c :: post).length + 1 < fuel s) (hend : c.addr + headerSize + c.size ≤ 2 ^ 64)
    (hc : c.free = true) (hle : size ≤ c.size) :
    Taken s (take s c.addr size).1 (pre ++ c :: post) size c.payload := by
  have hoff := hspread.off
  have hq : headPtr 0 post < 2 ^ 64 := by
    rw [← hchain.header.2]
    exact nextOf_lt _ _
  have hmark := chain_setFree hchain (fun b hb => (hoff b hb).imp_right fun hle =>
    Nat.le_trans (Nat.le_add_right _ _) hle) false
  obtain ⟨hsplit, heq⟩ := splitBlock_ok (b := ⟨c.addr, c.size, false⟩) hmark hle hend hq hoff
  have hwithin := splitL_within (b := ⟨c.addr, c.size, false⟩) hle
  have hspread' := hspread.replace hwithin.1 hwithin.2
  have hshort := length_splitL ⟨c.addr, c.size, false⟩ size
  obtain ⟨d, rest, hd, haddr, hsize⟩ := mem_splitL_head (b := ⟨c.addr, c.size, false⟩) hle
  have haddr' : d.addr = c.addr := haddr
  rw [hd] at hsplit hspread' hshort
  refine ⟨⟨pre, d, rest ++ post, ?_, hsize, ?_, hsplit, hspread', ?_, ?_⟩, ?_⟩
  · rw [Blk.payload, Blk.payload, haddr']
  · rw [headPtr_append] at hhead ⊢
    rw [headPtr, haddr']
    exact hhead
  · show _ < fuel s
    simp only [List.length_append, List.length_cons] at hlen hshort ⊢
    omega
  · intro b hb hused
    rcases mem_middle.mp hb with rfl | hb
    · exact absurd (hused.symm.trans hc) Bool.false_ne_true
    · simp only [List.mem_append] at hb ⊢
      tauto
  · intro b hb hused a hlo hhi
    have hb' : b ∈ pre ++ post := by
      refine (mem_middle.mp hb).resolve_left ?_
      rintro rfl
      exact absurd (hused.symm.trans hc) Bool.false_ne_true
    have hout : a < c.addr ∨ c.addr + headerSize + c.size ≤ a := by
      rw [Blk.payload] at hlo hhi
      rcases hspread.apart b hb' with hle | hle
      · exact .inl (Nat.lt_of_lt_of_le hhi hle)
      · exact .inr (Nat.le_trans (Nat.le_trans hle (Nat.le_add_right _ _)) hlo)
    refine (heq a hout).trans (eqOff_setFree a (hout.imp_right fun hle => ?_))
    exact Nat.le_trans (Nat.le_add_right _ _) hle

section Malloc
variable (h : InRegion s r bs) (hne : bs ≠ [])
include h hne

/-- The first block of a new mapping. -/
theorem new_taken {lo : Nat} (hos : Mmap s (regionSize size) (some lo))
    (hfits : headerSize + size ≤ regionSize size) (hlt : regionSize size < 2 ^ 64) :
    ∃ s₁, initNewRegion s size (some lo) = some (s₁, lo) ∧
      Taken s (take s₁ lo size).1 bs size (lo + headerSize) := by
  obtain ⟨hpos, -, hbound, hfresh⟩ := hos
  have hwhole : (wholeBlock lo size).extent = ⟨lo, lo + regionSize size⟩ := by
    show (⟨lo, lo + headerSize + (regionSize size - headerSize)⟩ : Extent) = _
    congr 1
    omega
  have hapart : ∀ b ∈ bs, b.extent.Apart (wholeBlock lo size).extent := by
    intro b hb
    obtain ⟨hlo, hhi⟩ := h.within b hb
    rw [hwhole]
    exact (hfresh r h.region).imp (fun hle => Nat.le_trans hhi hle) fun hle => Nat.le_trans hle hlo
  have hspread : Spread (bs ++ wholeBlock lo size :: []) :=
    spread_append.mpr ⟨h.spread, List.pairwise_singleton _ _, fun b hb c hc =>
      List.mem_singleton.mp hc ▸ hapart b hb⟩
  have hnew : Off lo (lo + headerSize) bs := by
    have hoff := hspread.off
    rw [List.append_nil] at hoff
    exact fun b hb => (hoff b hb).imp_right fun hle => Nat.le_trans (Nat.le_add_right _ _) hle
  have hlast : ∀ pre (c : Blk), bs = pre ++ [c] → Off c.addr (c.addr + headerSize) pre := by
    rintro pre c rfl
    have hoff := h.spread.off
    rw [List.append_nil] at hoff
    exact fun b hb => (hoff b hb).imp_right fun hle => Nat.le_trans (Nat.le_add_right _ _) hle
  have hlen := h.length_lt hne
  have h32 : headerSize = 32 := rfl
  obtain ⟨m', hcode, hchain, hframe⟩ := @initNewRegion_chain _ _ _ size h.head h.chain (by omega)
    hpos (by omega) ⟨by omega, hlt⟩ hnew hlast
  refine ⟨_, hcode, ?_⟩
  have hroom : (bs ++ wholeBlock lo size :: []).length + 1 <
      fuel ⟨m', headPtr 0 (bs ++ [wholeBlock lo size]),
        s.regions ++ [⟨lo, lo + regionSize size⟩]⟩ := by
    simp only [fuel, List.length_append, List.length_singleton, List.map_append, List.sum_append]
    rw [fuel] at hlen
    omega
  have hend : (wholeBlock lo size).addr + headerSize + (wholeBlock lo size).size ≤ 2 ^ 64 := by
    show lo + headerSize + (regionSize size - headerSize) ≤ 2 ^ 64
    omega
  have hle : size ≤ (wholeBlock lo size).size := Nat.le_sub_of_add_le' hfits
  obtain ⟨hlist, hkept⟩ :=
    @take_taken _ bs [] (wholeBlock lo size) size rfl hchain hspread hroom hend
    rfl hle
  constructor
  · obtain ⟨pre, c, post, hret, hsize, hhead, hchain', hspread', hlen', hused⟩ := hlist
    exact ⟨pre, c, post, hret, hsize, hhead, hchain', hspread', hlen', fun b hb =>
      hused b (List.mem_append_left _ hb)⟩
  · intro b hb hused a hlo hhi
    have hmem : b ∈ bs ++ [wholeBlock lo size] := List.mem_append_left _ hb
    exact (hkept b hmem hused a hlo hhi).trans (hframe a (hspread.outside hmem hlo hhi))

/-- `my_malloc` returns null, with nothing changed, or a block with room. -/
theorem myMalloc_taken (hn : n ≠ 0) (hsize : alignUp n alignment = size)
    (hos : Mmap s (regionSize size) os) (hlt : regionSize size < 2 ^ 64)
    (hfits : os ≠ none → headerSize + size ≤ regionSize size) :
    ∃ s' ret, myMalloc s n os = some (s', ret) ∧
      (ret = 0 ∧ s' = s ∨ ret ≠ 0 ∧ Taken s s' bs size ret) := by
  have hlen := h.length_lt hne
  have hcode := myMalloc_chain h.head h.chain (by omega) hn hsize os
  by_cases hmiss : firstFree size bs = 0
  · rw [if_neg (not_not.mpr hmiss)] at hcode
    cases os with
    | none => exact ⟨s, 0, hcode, .inl ⟨rfl, rfl⟩⟩
    | some lo =>
        obtain ⟨s₁, hinit, htaken⟩ := new_taken h hne hos (hfits (Option.some_ne_none lo)) hlt
        rw [hinit, Option.bind_some, if_neg (Nat.ne_of_gt hos.1)] at hcode
        exact ⟨_, _, hcode, .inr ⟨payload_ne_zero lo, htaken⟩⟩
  · have haddr : ∀ b ∈ bs, b.addr ≠ 0 := by
      intro b hb
      obtain ⟨pre, post, rfl⟩ := List.append_of_mem hb
      exact h.chain.header.1.addr
    rcases firstFree_cases size bs haddr with hnull | ⟨pre, c, post, rfl, hc, hle, heq⟩
    · exact absurd hnull hmiss
    · rw [if_pos hmiss, heq] at hcode
      refine ⟨_, _, hcode, .inr ⟨payload_ne_zero c.addr, ?_⟩⟩
      exact take_taken h.head h.chain h.spread (by omega) (h.end_le (by simp)) hc hle

end Malloc

/-! ## The copy and `my_free` -/

/-- `my_free` writes headers: all payloads of the list are as they were. -/
theorem myFree_frame (hhead : s.head = headPtr 0 (pre ++ x :: post))
    (hchain : Chain s.mem 0 (pre ++ x :: post)) (hspread : Spread (pre ++ x :: post))
    (hlen : (pre ++ x :: post).length < fuel s) :
    ∃ s', myFree s x.payload = some s' ∧
      ∀ b ∈ pre ++ x :: post, Keeps s.mem s'.mem b.payload (b.payload + b.size) := by
  have hmark := chain_setFree hchain (fun b hb => (hspread.off b hb).imp_right fun hle =>
    Nat.le_trans (Nat.le_add_right _ _) hle) true
  have hextents : (pre ++ ⟨x.addr, x.size, true⟩ :: post).map Blk.extent =
      (pre ++ x :: post).map Blk.extent := by
    rw [List.map_append, List.map_append]
    rfl
  have haddrs : (pre ++ ⟨x.addr, x.size, true⟩ :: post).map Blk.addr =
      (pre ++ x :: post).map Blk.addr := by
    rw [List.map_append, List.map_append]
    rfl
  have happart : (pre ++ ⟨x.addr, x.size, true⟩ :: post).Pairwise
      fun b c => c.addr + headerSize ≤ b.addr ∨ b.addr + headerSize ≤ c.addr := by
    have hspread' := hspread
    rw [Spread, ← hextents, List.pairwise_map] at hspread'
    refine hspread'.imp fun {b c} happart => ?_
    rcases happart with hle | hle
    · exact .inr (Nat.le_trans (Nat.le_add_right _ _) hle)
    · exact .inl (Nat.le_trans (Nat.le_add_right _ _) hle)
  -- the loop starts at the head of the list, whichever block that is
  obtain ⟨y, rest, hlist⟩ := List.exists_cons_of_ne_nil
    (show pre ++ ⟨x.addr, x.size, true⟩ :: post ≠ [] by simp)
  have hhead' : s.head = y.addr := by
    rw [hhead, headPtr_append]
    show headPtr (headPtr 0 (⟨x.addr, x.size, true⟩ :: post)) pre = _
    rw [← headPtr_append, hlist]
    rfl
  have hlen' : rest.length < fuel s := by
    have hcount := congrArg List.length hlist
    simp only [List.length_append, List.length_cons] at hcount hlen
    omega
  have hself : (⟨x.addr, x.size, true⟩ : Blk) ∈ pre ++ ⟨x.addr, x.size, true⟩ :: post := by simp
  rw [hlist] at hmark happart haddrs hself
  obtain ⟨m', hloop, hframe⟩ := coalesceLoop_frame rest hmark happart hlen'
  refine ⟨{ s with mem := m' }, ?_, fun b hb a hlo hhi => ?_⟩
  · rw [myFree, Blk.payload, if_neg (payload_ne_zero x.addr), Nat.add_sub_cancel, coalesce]
    show (coalesceLoop (fuel s) _ s.head).map _ = _
    rw [hhead', hloop]
    rfl
  · have hout : Outside (y :: rest) a := by
      intro p hp
      rw [haddrs] at hp
      exact hspread.outside hb hlo hhi p hp
    exact (hframe a hout).trans (hout.eqOff hself eqOff_setFree)

/-- The copy fills the new payload, and `my_free` leaves it alone. -/
theorem copy_free {ret : Nat} (htaken : Taken s s' bs size ret) (hx : x ∈ bs)
    (hused : x.free = false) (hle : x.size ≤ size) :
    ∃ s₂, myFree { s' with mem := s'.mem.copy ret x.payload x.size } x.payload = some s₂ ∧
      (∀ i < x.size, s₂.mem (ret + i) = s.mem (x.payload + i)) ∧
      ∀ b ∈ bs, b.free = false → Keeps s.mem s₂.mem b.payload (b.payload + b.size) := by
  obtain ⟨⟨pre, c, post, rfl, hsize, hhead, hchain, hspread, hlen, hothers⟩, hkept⟩ := htaken
  have hcopy : Chain (s'.mem.copy c.payload x.payload x.size) 0 (pre ++ c :: post) := by
    refine hchain.congr fun b hb => sameHeader_of_eqOff Mem.eqOff_copy ?_
    rcases mem_middle.mp hb with rfl | hb
    · exact .inl (Nat.le_refl _)
    · refine (hspread.off b hb).imp (fun hle => Nat.le_trans hle (Nat.le_add_right _ _))
        fun hhi => ?_
      exact Nat.le_trans (Nat.add_le_add_left (Nat.le_trans hle hsize) _) hhi
  have hfresh : ∀ b ∈ bs, b.free = false →
      Keeps s.mem (s'.mem.copy c.payload x.payload x.size) b.payload (b.payload + b.size) := by
    intro b hb hfree a hlo hhi
    refine (Mem.eqOff_copy a ?_).trans (hkept b hb hfree a hlo hhi)
    rw [Blk.payload] at hlo hhi ⊢
    rcases hspread.apart b (hothers b hb hfree) with hle | hle
    · exact .inl (Nat.lt_of_lt_of_le hhi (Nat.le_trans hle (Nat.le_add_right _ _)))
    · right
      have hle' : c.addr + headerSize + c.size ≤ b.addr := hle
      omega
  have hfilled : ∀ i < x.size,
      s'.mem.copy c.payload x.payload x.size (c.payload + i) = s.mem (x.payload + i) := by
    intro i hi
    rw [Mem.copy_apply hi]
    exact hkept x hx hused _ (Nat.le_add_right _ _) (Nat.add_lt_add_left hi _)
  have hinlist : ∀ b ∈ bs, b.free = false → b ∈ pre ++ c :: post := fun b hb hfree =>
    mem_middle.mpr (.inr (hothers b hb hfree))
  have hclist : c ∈ pre ++ c :: post := mem_middle.mpr (.inl rfl)
  obtain ⟨front, back, hlist⟩ := List.append_of_mem (hinlist x hx hused)
  rw [hlist] at hhead hlen hspread hcopy hinlist hclist
  obtain ⟨s₂, hfree, hframe⟩ := @myFree_frame
    { s' with mem := s'.mem.copy c.payload x.payload x.size } front back x hhead hcopy hspread hlen
  refine ⟨s₂, hfree, fun i hi => ?_, fun b hb hbused a hlo hhi => ?_⟩
  · have hin : c.payload + i < c.payload + c.size := Nat.add_lt_add_left (by omega) _
    exact (hframe c hclist _ (Nat.le_add_right _ _) hin).trans (hfilled i hi)
  · exact (hframe b (hinlist b hb hbused) a hlo hhi).trans (hfresh b hb hbused a hlo hhi)

/-! ## `my_realloc` -/

theorem regionSize_lt (size : Nat) : regionSize size < 2 ^ 64 :=
  Nat.lt_of_le_of_lt Nat.and_le_right (by decide)

/-- A rounding that does not wrap, and a second one that changes nothing. -/
theorem rounded_twice (hpos : 0 < n) (hround : n + 15 < 2 ^ 64) :
    n ≤ alignUp n alignment ∧ alignUp n alignment ≠ 0 ∧
      alignUp (alignUp n alignment) alignment = alignUp n alignment := by
  rw [alignUp_alignment_mod (alignUp n alignment), alignUp_alignment_mod n]
  omega

section Realloc
variable (h : InRegion s r (pre ++ b :: post))
include h

/-- Another payload is outside of the block. -/
theorem InRegion.other (hc : c ∈ pre ++ b :: post) (hne : c.payload ≠ b.payload)
    (hlo : c.payload ≤ a) (hhi : a < c.payload + c.size) :
    a < b.addr ∨ b.addr + headerSize + b.size ≤ a := by
  have hc' : c ∈ pre ++ post := by
    refine (mem_middle.mp hc).resolve_left ?_
    rintro rfl
    exact hne rfl
  rw [Blk.payload] at hlo hhi
  rcases h.spread.apart c hc' with hle | hle
  · exact .inl (Nat.lt_of_lt_of_le hhi hle)
  · exact .inr (Nat.le_trans (Nat.le_trans hle (Nat.le_add_right _ _)) hlo)

theorem shrink_preserves (hle : size ≤ b.size) (hn : n ≤ size) :
    Preserves s { s with mem := splitBlock s.mem b.addr size } (pre ++ b :: post) b n
      b.payload := by
  have hsize : sizeOf s.mem b.addr = b.size := h.chain.header.1.size
  have hend := h.end_le (b := b) (by simp)
  refine ⟨fun _ i hi => ?_, fun _ c hc _ hne a hlo hhi => ?_, fun hnull => ?_⟩
  · refine splitBlock_frame (.inr (Nat.le_add_right _ _)) hsize hend hle (.inl ?_)
    exact Nat.add_lt_add_left (Nat.lt_of_lt_of_le (Nat.lt_min.mp hi).2 hn) _
  · have hout := h.other hc hne hlo hhi
    refine splitBlock_frame (hout.imp_right fun hle => Nat.le_trans (Nat.le_add_right _ _) hle)
      hsize hend hle (hout.imp_left fun hlt => ?_)
    omega
  · exact absurd hnull (payload_ne_zero b.addr)

end Realloc

theorem grow_preserves (h : InRegion s r (pre ++ b :: y :: post)) (hy : y.free = true)
    (hlt : b.size < size) (hle : size ≤ combined s.mem b.addr) :
    Preserves s { s with mem := grow s.mem b.addr size } (pre ++ b :: y :: post) b n b.payload := by
  have hnext : y.addr = b.addr + headerSize + b.size := by
    obtain ⟨-, hrest, -⟩ := List.isChain_append.mp h.adjacent
    exact (List.isChain_cons.mp hrest).1 y rfl
  have hend := h.end_le (b := y) (by simp)
  have hsum := combined_eq h.chain (Nat.le_of_eq hnext.symm) hend
  rw [hsum] at hle
  have hsumend : b.addr + headerSize + (b.size + headerSize + y.size) ≤ 2 ^ 64 := by omega
  refine ⟨fun _ i hi => ?_, fun _ c hc hused hne a hlo hhi => ?_, fun hnull => ?_⟩
  · refine grow_frame (.inr (Nat.le_add_right _ _)) hsum hsumend hle (.inl ?_)
    exact Nat.add_lt_add_left (Nat.lt_trans (Nat.lt_min.mp hi).1 hlt) _
  · have hyin : InRegion s r ((pre ++ [b]) ++ y :: post) := by simpa using h
    have hcy : c.payload ≠ y.payload := by
      intro heq
      have hcin : c ∈ (pre ++ [b]) ++ y :: post := by simpa using hc
      rcases mem_middle.mp hcin with rfl | hcin
      · exact absurd (hused.symm.trans hy) Bool.false_ne_true
      · have happart := hyin.spread.apart c hcin
        rw [Blk.payload, Blk.payload, Nat.add_right_cancel_iff] at heq
        have hcp : c.addr < c.addr + headerSize + c.size := c.proper
        have hyp : y.addr < y.addr + headerSize + y.size := y.proper
        rcases happart with hle | hle
        · have hle' : c.addr + headerSize + c.size ≤ y.addr := hle
          omega
        · have hle' : y.addr + headerSize + y.size ≤ c.addr := hle
          omega
    have hb := h.other hc hne hlo hhi
    have hy' := hyin.other (by simpa using hc) hcy hlo hhi
    refine grow_frame (hb.imp_right fun hle => Nat.le_trans (Nat.le_add_right _ _) hle) hsum hsumend
      hle ?_
    rcases hb with hb | hb
    · left
      omega
    · right
      rcases hy' with hy' | hy'
      · omega
      · omega
  · exact absurd hnull (payload_ne_zero b.addr)

/-- A request for which a mapping, if there is one, is large enough. -/
theorem myRealloc_preserves (h : InRegion s r (pre ++ b :: post)) (hb : b.free = false)
    (hpos : 0 < n) (hround : n + 15 < 2 ^ 64)
    (hos : Mmap s (regionSize (alignUp n alignment)) os)
    (hfits : os ≠ none → headerSize + alignUp n alignment ≤ regionSize (alignUp n alignment)) :
    ∃ s' q, myRealloc s b.payload n os = some (s', q) ∧
      Preserves s s' (pre ++ b :: post) b n q := by
  obtain ⟨hn, hzero, htwice⟩ := rounded_twice hpos hround
  have hsize : sizeOf s.mem b.addr = b.size := h.chain.header.1.size
  have hmem : b ∈ pre ++ b :: post := by simp
  simp only [myRealloc]
  rw [if_neg (Nat.ne_of_gt hpos), Blk.payload, if_neg (payload_ne_zero b.addr), Nat.add_sub_cancel,
    hsize]
  generalize alignUp n alignment = size at *
  by_cases hshrink : size ≤ b.size
  · rw [if_pos hshrink]
    exact ⟨_, _, rfl, shrink_preserves h hshrink hn⟩
  · have hlt : b.size < size := Nat.lt_of_not_le hshrink
    rw [if_neg hshrink]
    cases hgrow : canGrow s.mem b.addr size with
    | true =>
        obtain ⟨y, rest, rfl, hy, hle, -, -⟩ := h.chain.successor hgrow
        rw [if_pos rfl]
        exact ⟨_, _, rfl, grow_preserves h hy hlt hle⟩
    | false =>
        obtain ⟨s₁, ret, hmalloc, hcases⟩ :=
          myMalloc_taken h (by simp) hzero htwice hos (regionSize_lt size) hfits
        rw [if_neg Bool.false_ne_true, hmalloc]
        rcases hcases with ⟨rfl, rfl⟩ | ⟨hret, htaken⟩
        · exact ⟨s₁, 0, rfl, fun hne => absurd rfl hne, fun hne => absurd rfl hne, fun _ => rfl⟩
        · obtain ⟨s₂, hfree, hcopied, hkept⟩ := copy_free htaken hmem hb (Nat.le_of_lt hlt)
          have hfree' : myFree { s₁ with mem := s₁.mem.copy ret (b.addr + headerSize) b.size }
            (b.addr + headerSize) = some s₂ := hfree
          refine ⟨s₂, ret, ?_, fun _ i hi => hcopied i (Nat.lt_min.mp hi).1,
            fun _ c hc hused _ => hkept c hc hused, fun hnull => absurd hnull hret⟩
          show (if ret = 0 then some (s₁, 0) else (myFree _ _).bind _) = _
          rw [if_neg hret, hfree']
          rfl

/-! ## Which requests -/

/-- A call `my_realloc(p, n)` with the pointer of a used block.  What `mmap` answers
is apart from the mappings there are, and it refuses a length of 0. -/
structure LiveCall (s : State) (r : Extent) (bs : List Blk) (b : Blk) (n : Nat)
    (os : Option Nat) : Prop where
  heap : InRegion s r bs
  mem : b ∈ bs
  used : b.free = false
  mmap : Mmap s (regionSize (alignUp n alignment)) os
  refused : regionSize (alignUp n alignment) = 0 → os = none

/-- The call returns, and preserves contents. -/
def Kept (s : State) (bs : List Blk) (b : Blk) (n : Nat) (os : Option Nat) : Prop :=
  ∃ s' q, myRealloc s b.payload n os = some (s', q) ∧ Preserves s s' bs b n q

theorem LiveCall.kept (h : LiveCall s r bs b n os) (hpos : 0 < n) (hround : n + 15 < 2 ^ 64)
    (hn : n ≤ 2 ^ 64 - 32 ∨ os = none) : Kept s bs b n os := by
  obtain ⟨hheap, hmem, hused, hos, hzero⟩ := h
  obtain ⟨pre, post, rfl⟩ := List.append_of_mem hmem
  refine myRealloc_preserves hheap hused hpos hround hos fun hsome => ?_
  have hle := hn.resolve_right hsome
  have hmax : alignUp n alignment ≤ 2 ^ 64 - 32 := by
    rw [alignUp_alignment_mod]
    omega
  exact (sized_of_le (alignUp_dvd n) hmax (mt hzero hsome)).fits

/-- Only the rounded size counts. -/
theorem myRealloc_congr {k ptr : Nat} (hptr : ptr ≠ 0) (hn : n ≠ 0) (hk : k ≠ 0)
    (heq : alignUp n alignment = alignUp k alignment) :
    myRealloc s ptr n os = myRealloc s ptr k os := by
  simp only [myRealloc, if_neg hptr, if_neg hn, if_neg hk, heq]

/-! ### A copy beyond the mapping -/

/-- Ones where the first of the two blocks will be. -/
def ones : Mem := fun a => if 131104 ≤ a ∧ a < 135104 then 1 else 0

/-- A region of 16384 bytes with blocks of 4000 and 8000 bytes. -/
def twoBlocks : List Op :=
  [.malloc 16000 (some 131072), .free 131104, .malloc 4000 none, .malloc 8000 none]

theorem isSome_twoBlocks : (run step (make ones, []) twoBlocks).isSome = true := by decide +kernel

def packed : State := ((run step (make ones, []) twoBlocks).get isSome_twoBlocks).1

def packedBlocks : List Blk :=
  [⟨131072, 4000, false⟩, ⟨135104, 8000, false⟩, ⟨143136, 4288, true⟩]

theorem packed_inRegion : InRegion packed ⟨131072, 147456⟩ packedBlocks :=
  ⟨by decide +kernel, by decide +kernel, by decide +kernel, by decide, by decide, by decide⟩

/-- The second block is moved to the one page that is mapped for it, right in front of
the region: the copy runs on into the payload of the first. -/
theorem packed_overrun :
    ∃ s', myRealloc packed 135136 (2 ^ 64 - 31) (some 126976) = some (s', 127008) ∧
      s'.mem 131104 ≠ packed.mem 131104 := by
  have hcode : (myRealloc packed 135136 (2 ^ 64 - 31) (some 126976)).map
      (fun r => (r.2, decide (r.1.mem 131104 = packed.mem 131104))) = some (127008, false) := by
    decide +kernel
  obtain ⟨⟨s', q⟩, hcode, heq⟩ := Option.map_eq_some_iff.mp hcode
  obtain ⟨rfl, hne⟩ := Prod.mk.inj heq
  exact ⟨s', hcode, of_decide_eq_false hne⟩

theorem packed_call (hlow : 2 ^ 64 - 32 < n) (hround : n + 15 < 2 ^ 64) :
    LiveCall packed ⟨131072, 147456⟩ packedBlocks ⟨135104, 8000, false⟩ n (some 126976) ∧
      ¬ Kept packed packedBlocks ⟨135104, 8000, false⟩ n (some 126976) := by
  have hsize : alignUp n alignment = alignUp (2 ^ 64 - 31) alignment := by
    rw [alignUp_alignment_mod, alignUp_alignment_mod]
    omega
  constructor
  · refine ⟨packed_inRegion, by decide, rfl, ?_, ?_⟩
    · rw [hsize]
      decide +kernel
    · rw [hsize]
      decide +kernel
  · rintro ⟨s', q, hcode, hpres⟩
    obtain ⟨s₁, hcode₁, hne⟩ := packed_overrun
    have hn : n ≠ 0 := Nat.ne_of_gt (Nat.lt_trans (by decide) hlow)
    have hcode' : myRealloc packed (135104 + headerSize) n (some 126976) = some (s', q) := hcode
    have hsame : myRealloc packed (135104 + headerSize) n (some 126976) =
        myRealloc packed (135104 + headerSize) (2 ^ 64 - 31) (some 126976) :=
      myRealloc_congr (payload_ne_zero 135104) hn (by decide) hsize
    cases hcode'.symm.trans (hsame.trans hcode₁)
    have hkeep := hpres.others (by decide) ⟨131072, 4000, false⟩ (by decide) rfl (by decide)
    exact hne (hkeep 131104 (by decide) (by decide))

/-- **Contents are preserved** on every heap in one region, whatever `mmap` answers,
exactly when the request is at most `2^64 - 32`; and for any other whose rounding
does not wrap, whenever `mmap` fails. -/
theorem myRealloc_preserves_iff (hpos : 0 < n) (hround : n + 15 < 2 ^ 64) :
    (∀ (s : State) (r : Extent) (bs : List Blk) (b : Blk) (os : Option Nat),
      LiveCall s r bs b n os → n ≤ 2 ^ 64 - 32 ∨ os = none → Kept s bs b n os) ∧
    ((∀ (s : State) (r : Extent) (bs : List Blk) (b : Blk) (os : Option Nat),
      LiveCall s r bs b n os → Kept s bs b n os) ↔ n ≤ 2 ^ 64 - 32) := by
  refine ⟨fun s r bs b os hcall hn => hcall.kept hpos hround hn, fun hall => ?_, fun hn => ?_⟩
  · by_contra hlow
    obtain ⟨hcall, hnot⟩ := packed_call (Nat.lt_of_not_le hlow) hround
    exact hnot (hall _ _ _ _ _ hcall)
  · exact fun s r bs b os hcall => hcall.kept hpos hround (.inl hn)

/-- The second block of the two moved to 16000 bytes in a new region. -/
theorem myRealloc_preserves_iff_moved :
    Kept packed packedBlocks ⟨135104, 8000, false⟩ 16000 (some 65536) ∧
      ∃ s', myRealloc packed 135136 16000 (some 65536) = some (s', 65568) := by
  have hcall : LiveCall packed ⟨131072, 147456⟩ packedBlocks ⟨135104, 8000, false⟩ 16000
      (some 65536) :=
    ⟨packed_inRegion, by decide, rfl, by decide +kernel, by decide +kernel⟩
  have hkept := (myRealloc_preserves_iff (n := 16000) (by decide) (by decide)).1 _ _ _ _ _ hcall
    (.inl (by decide))
  have hcode : (myRealloc packed 135136 16000 (some 65536)).map Prod.snd = some 65568 := by
    decide +kernel
  obtain ⟨⟨s', q⟩, hcode, rfl⟩ := Option.map_eq_some_iff.mp hcode
  exact ⟨hkept, s', hcode⟩

/-- A request of `2^64 - 31` bytes rounds to `2^64 - 16` without wrapping; with the header
it does wrap, and one page is mapped. -/
theorem moved_over_neighbour :
    ¬ ∀ (s : State) (r : Extent) (bs : List Blk) (b : Blk) (n : Nat) (os : Option Nat), 0 < n →
      n + 15 < 2 ^ 64 → LiveCall s r bs b n os → Kept s bs b n os := by
  intro hall
  obtain ⟨hcall, hnot⟩ := @packed_call (2 ^ 64 - 31) (by decide) (by decide)
  exact hnot (hall _ _ _ _ _ _ (by decide) (by decide) hcall)

end CKernel.Malloc.Realloc
