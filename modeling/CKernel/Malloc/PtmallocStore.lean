/-
# `CKernel.Malloc.PtmallocStore` — the implicit-list allocator as a store

What a program may rely on: a byte that it has stored in a live payload is there
until the payload is given back, whatever is allocated, freed, reallocated or stored
elsewhere meanwhile, and `mm_realloc` takes along what fits.

The store is the abstract side: at each pointer and offset the byte that was stored
there last, if one was.  `mm_realloc` is that of `mm.c`; it copies as many bytes as
the old *block* has, four of them behind it, and never more than it was asked for.

    a write in a payload leaves the tags and the other payloads alone   (`poke`)
    one call keeps what is stored                                       (`step_sound`)
    so does every run                                                   (`store_kept`)
    and `checkheap` finds nothing to report                             (`checkheap_silent`)
-/
import CKernel.Malloc.PtmallocSize

namespace CKernel.Malloc.Ptmalloc

open Run

/-! ## The code -/

/-- `mm_free(bp)` of `mm.c`, which ignores null. -/
def mmFreeNull (s : State) (bp : Nat) : State := if bp = 0 then s else mmFree s bp

/-- `mm_realloc(ptr, size)`: the state and the pointer. -/
def mmRealloc (s : State) (ptr size : Nat) : Option (State × Nat) :=
  if size = 0 then some (mmFreeNull s ptr, 0)
  else if ptr = 0 then mmMalloc s size
  else do
    let (s, newptr) ← mmMalloc s size
    if newptr = 0 then some (s, 0)
    else
      let oldsize := getSize s.mem (hdrp ptr)
      let oldsize := if size < oldsize then size else oldsize
      some (mmFreeNull { s with mem := s.mem.copy newptr ptr oldsize } ptr, newptr)

/-! ## The store -/

/-- At a pointer and an offset, the byte stored there. -/
abbrev Store := Nat → Nat → Option UInt8

namespace Store

def forget (st : Store) (p : Nat) : Store := Function.update st p fun _ => none

def write (st : Store) (p i : Nat) (b : UInt8) : Store :=
  Function.update st p (Function.update (st p) i (some b))

/-- What is stored at `p` is at `q` now, cut down to `size` bytes. -/
def move (st : Store) (p q size : Nat) : Store :=
  Function.update (st.forget p) q fun i => if i < size then st p i else none

end Store

/-- A program: the heap, the pointers it has, and what it has stored. -/
structure Client where
  heap : State
  live : List Nat
  store : Store

inductive Call where
  | malloc (size : Nat)
  | free (p : Nat)
  | realloc (p size : Nat)
  | write (p i : Nat) (b : UInt8)

namespace Client

/-- A call, and what the program makes of the pointer it gets. -/
def step (c : Client) : Call → Option Client
  | .malloc size =>
      (mmMalloc c.heap size).map fun r =>
        if r.2 = 0 then { c with heap := r.1 }
        else ⟨r.1, r.2 :: c.live, c.store.forget r.2⟩
  | .free p => some ⟨mmFreeNull c.heap p, c.live.erase p, c.store.forget p⟩
  | .realloc p size =>
      (mmRealloc c.heap p size).map fun r =>
        if size = 0 then ⟨r.1, c.live.erase p, c.store.forget p⟩
        else if r.2 = 0 then { c with heap := r.1 }
        else ⟨r.1, r.2 :: c.live.erase p, c.store.move p r.2 size⟩
  | .write p i b =>
      some { c with
        heap := { c.heap with mem := Function.update c.heap.mem (p + i) b }
        store := c.store.write p i b }

/-- Requests fit the `int` of `mem_sbrk`; null or a live pointer is given back; writes
are within a live payload. -/
def Allowed (c : Client) : Call → Prop
  | .malloc size => size < 2 ^ 31 - 16
  | .free p => p = 0 ∨ p ∈ c.live
  | .realloc p size => (p = 0 ∨ p ∈ c.live) ∧ size < 2 ^ 31 - 16
  | .write p i _ => p ∈ c.live ∧ p + i < (payload c.heap.mem p).hi

instance (c : Client) : (call : Call) → Decidable (c.Allowed call)
  | .malloc _ => inferInstanceAs (Decidable (_ < _))
  | .free _ => inferInstanceAs (Decidable (_ ∨ _))
  | .realloc _ _ => inferInstanceAs (Decidable (_ ∧ _))
  | .write _ _ _ => inferInstanceAs (Decidable (_ ∧ _))

/-- What is stored at a pointer is in its payload. -/
def Holds (m : Mem) (live : List Nat) (st : Store) : Prop :=
  ∀ p i b, st p i = some b → p ∈ live ∧ p + i < (payload m p).hi ∧ m (p + i) = b

/-- The heap is well formed and holds what is stored. -/
structure Sound (c : Client) : Prop where
  good : ∃ bs, Inv c.heap bs c.live
  holds : Holds c.heap.mem c.live c.store

end Client

/-! ## What a call leaves alone -/

variable {s s' : State} {m' : Mem} {bs pre mid post : List Block} {b : Block}
  {live fresh : List Nat} {q lo hi : Nat}

/-- The payloads are where they were, with the bytes they had. -/
def Kept (m m' : Mem) (live : List Nat) : Prop :=
  ∀ r ∈ live, payload m' r = payload m r ∧ SameBytes m m' (payload m r)

theorem Wrote.kept_all (h : Wrote s s' pre mid post (fresh ++ live))
    (hfresh : livePtrs (s'.heap + 12 + total pre) mid = fresh) : Kept s.mem s'.mem live := by
  intro r hr
  obtain ⟨hbytes, hsame⟩ := h.kept hfresh hr
  exact ⟨hsame.symm, hbytes⟩

theorem Kept.trans {m₁ m₂ m₃ : Mem} (h : Kept m₁ m₂ live) (h' : Kept m₂ m₃ live) :
    Kept m₁ m₃ live := by
  intro r hr
  obtain ⟨hsame, hbytes⟩ := h r hr
  obtain ⟨hsame', hbytes'⟩ := h' r hr
  refine ⟨hsame'.trans hsame, fun x hlow hhigh => ?_⟩
  rw [hbytes' x (hsame ▸ hlow) (hsame ▸ hhigh), hbytes x hlow hhigh]

theorem Kept.mono {m m' : Mem} {live' : List Nat} (h : Kept m m' live) (hsub : live' ⊆ live) :
    Kept m m' live' := fun r hr => h r (hsub hr)

theorem Inv.perm {live' : List Nat} (h : Inv s bs live) (hperm : live'.Perm live) :
    Inv s bs live' :=
  ⟨h.listp, h.maxAddr, h.brk, h.brk_le, h.lay, h.sep, h.size, hperm.trans h.live⟩

theorem Inv.pos (h : Inv s bs live) (hq : q ∈ live) : q ≠ 0 := by
  obtain ⟨pre, b, post, -, -, rfl⟩ := exists_of_mem_livePtrs (h.live.mem_iff.mp hq)
  exact Nat.succ_ne_zero _

/-- A write within one live payload. -/
theorem poke (h : Inv s bs live) (hq : q ∈ live) (hoff : Mem.EqOff s.mem m' lo hi)
    (hlo : q ≤ lo) (hhi : hi ≤ (payload s.mem q).hi) :
    Inv { s with mem := m' } bs live ∧ payload m' q = payload s.mem q ∧
      Kept s.mem m' (live.erase q) := by
  obtain ⟨pre, b, post, rfl, hba, rfl⟩ := exists_of_mem_livePtrs (h.live.mem_iff.mp hq)
  have hlaid : Laid s.mem (s.heap + 12) (pre ++ b :: post) := h.lay.laid.2
  have hb : Tagged s.mem (s.heap + 12 + total pre) b := (laid_append.mp hlaid).2.1
  have hble := hb.ok.le
  rw [Tagged.payload_eq hb] at hhi
  have hhi : hi ≤ s.heap + 12 + total pre + b.size - 4 := hhi
  have hb' : Tagged m' (s.heap + 12 + total pre) b := by
    refine ⟨hb.ok, ?_, ?_⟩
    · rw [get_of_eqOff hoff (.inl hlo)]
      exact hb.hdr
    · rw [get_of_eqOff hoff (.inr (by omega))]
      exact hb.ftr
  have haddr : s.heap + 4 + total (prologue :: pre) = s.heap + 12 + total pre := by
    rw [total_prologue]
    omega
  have hblock : Mem.EqOff s.mem m' (s.heap + 12 + total pre) (s.heap + 12 + total pre + b.size) :=
    hoff.mono (by omega) (by omega)
  have hlay : Lay s.mem (s.heap + 4) ((prologue :: pre) ++ ([b] ++ post)) := h.lay
  have hlay' : Lay m' (s.heap + 4) ((prologue :: pre) ++ ([b] ++ post)) := by
    refine hlay.replace ?_ ?_ rfl
    · rw [haddr]
      exact hblock
    · rw [haddr]
      exact ⟨hb', trivial⟩
  have hinv : Inv { s with mem := m' } (pre ++ ([b] ++ post)) live :=
    ⟨h.listp, h.maxAddr, h.brk, h.brk_le, hlay', h.sep, h.size, h.live⟩
  refine ⟨hinv, ?_, ?_⟩
  · rw [Tagged.payload_eq hb, Tagged.payload_eq hb']
  · have hwrote : Wrote s { s with mem := m' } pre [b] post
        ([s.heap + 12 + total pre + 4] ++ live.erase (s.heap + 12 + total pre + 4)) :=
      ⟨hinv.perm (List.perm_cons_erase hq).symm, _, hblock, .inl (Nat.le_refl _)⟩
    refine hwrote.kept_all ?_
    rw [livePtrs, hba, if_pos rfl]
    rfl

/-! ## The calls -/

namespace Client

variable {m : Mem} {live' : List Nat} {st : Store} {p i size : Nat}

theorem Holds.kept (h : Holds m live st) (hkept : Kept m m' live') :
    ∀ p i b, st p i = some b → p ∈ live' → p + i < (payload m' p).hi ∧ m' (p + i) = b := by
  intro p i b hst hp
  obtain ⟨-, hlt, hbyte⟩ := h p i b hst
  obtain ⟨hsame, hbytes⟩ := hkept p hp
  refine ⟨hsame.symm ▸ hlt, ?_⟩
  rw [hbytes (p + i) (Nat.le_add_right p i) hlt]
  exact hbyte

theorem Holds.forget (h : Holds m live st) (hkept : Kept m m' (live.erase p)) :
    Holds m' (live.erase p) (st.forget p) := by
  intro r i b hst
  by_cases hr : r = p
  · rw [Store.forget, hr, Function.update_self] at hst
    cases hst
  · rw [Store.forget, Function.update_of_ne hr] at hst
    have hmem := (List.mem_erase_of_ne hr).mpr (h r i b hst).1
    exact ⟨hmem, h.kept hkept r i b hst hmem⟩

theorem Holds.cons (h : Holds m live st) (hkept : Kept m m' live) (q : Nat) :
    Holds m' (q :: live) (st.forget q) := by
  intro r i b hst
  by_cases hr : r = q
  · rw [Store.forget, hr, Function.update_self] at hst
    cases hst
  · rw [Store.forget, Function.update_of_ne hr] at hst
    have hmem := (h r i b hst).1
    exact ⟨List.mem_cons_of_mem q hmem, h.kept hkept r i b hst hmem⟩

/-- What `mm_malloc` does: nothing, or it hands out a pointer that was not live, with
room for the request, and keeps all live payloads. -/
theorem malloc_cases (h : Inv s bs live) (hsize : size < 2 ^ 31 - 16) :
    mmMalloc s size = some (s, 0) ∨
      ∃ s' q bs', mmMalloc s size = some (s', q) ∧ q ≠ 0 ∧ q ∉ live ∧ Inv s' bs' (q :: live) ∧
        q + size ≤ (payload s'.mem q).hi ∧ Kept s.mem s'.mem live := by
  by_cases hzero : size = 0
  · exact .inl (by rw [mmMalloc, if_pos hzero])
  · rcases mmMalloc_wrote h hzero (adjust_ok hsize) with hcode | ⟨s', pre, b, post, hcode, hle, hwrote⟩
    · exact .inl hcode
    · obtain ⟨hfresh, c, hc, hfit, hend⟩ := exists_taken hwrote hle (adjust_ok hsize).1
      have hadj : adjust size = max 16 (8 * ((size + 15) / 8)) := adjust_eq (by omega)
      have hwrote' : Wrote s s' pre (cut b (adjust size)) post
          ([s'.heap + 12 + total pre + 4] ++ live) := hwrote
      have hcle := hc.ok.le
      refine .inr ⟨s', _, _, hcode, Nat.succ_ne_zero _, ?_, hwrote.inv, ?_, hwrote'.kept_all hfresh⟩
      · intro hq
        obtain ⟨d, e, heq, he, hout⟩ := hwrote'.apart hfresh hq
        have hele := he.ok.le
        omega
      · rw [Tagged.payload_eq hc]
        show s'.heap + 12 + total pre + 4 + size ≤ s'.heap + 12 + total pre + c.size - 4
        omega

/-- What `mm_free` of null or a live pointer does. -/
theorem free_kept (h : Inv s bs live) (hp : p = 0 ∨ p ∈ live) :
    ∃ bs', Inv (mmFreeNull s p) bs' (live.erase p) ∧
      Kept s.mem (mmFreeNull s p).mem (live.erase p) := by
  rw [mmFreeNull]
  split
  case isTrue hzero =>
    have herase : live.erase p = live := List.erase_of_not_mem fun hmem => h.pos hmem hzero
    rw [herase]
    exact ⟨bs, h, fun r _ => ⟨rfl, fun _ _ _ => rfl⟩⟩
  case isFalse hne =>
    obtain ⟨pre, b, post, hb, hwrote⟩ := mmFree_wrote h (hp.resolve_left hne)
    have hwrote' : Wrote s (mmFree s p) pre [b] post ([] ++ live.erase p) := hwrote
    exact ⟨_, hwrote.inv, hwrote'.kept_all (livePtrs_free (List.forall_mem_singleton.mpr hb) _)⟩

/-- A new payload takes the bytes of an old one along. -/
structure Moved (s s' : State) (bs' : List Block) (live : List Nat) (p q size : Nat) : Prop where
  inv : Inv s' bs' (q :: live.erase p)
  room : q + size ≤ (payload s'.mem q).hi
  kept : Kept s.mem s'.mem (live.erase p)
  copied : ∀ i < size, p ∈ live → p + i < (payload s.mem p).hi → s'.mem (q + i) = s.mem (p + i)

/-- The copy within the new payload and `mm_free` of the old one. -/
theorem copy_free {s₁ : State} {bs₁ : List Block} (hp : p ∈ live)
    (hq : q ∉ live) (h₁ : Inv s₁ bs₁ (q :: live)) (hroom : q + size ≤ (payload s₁.mem q).hi)
    (hkept : Kept s.mem s₁.mem live) {n : Nat} (hn : n = min size (getSize s₁.mem (hdrp p))) :
    ∃ bs', Moved s (mmFreeNull { s₁ with mem := s₁.mem.copy q p n } p) bs' live p q size := by
  have hqp : q ≠ p := fun heq => hq (heq ▸ hp)
  have hnle : n ≤ size := hn ▸ Nat.min_le_left _ _
  have herase : (q :: live).erase q = live := List.erase_cons_head ..
  have herase' : (q :: live).erase p = q :: live.erase p := List.erase_cons_tail (by simpa using hqp)
  have hcopy : Mem.EqOff s₁.mem (s₁.mem.copy q p n) q (q + n) := Mem.eqOff_copy
  obtain ⟨h₂, hsame₂, hkept₂⟩ := poke h₁ List.mem_cons_self hcopy (Nat.le_refl q) (by omega)
  rw [herase] at hkept₂
  obtain ⟨bs', h₃, hkept₃⟩ := free_kept h₂ (.inr (List.mem_cons_of_mem q hp))
  rw [herase'] at h₃ hkept₃
  have hlast := hkept₃ q List.mem_cons_self
  have hroom₂ : q + size ≤ (payload (s₁.mem.copy q p n) q).hi := hsame₂.symm ▸ hroom
  refine ⟨bs', h₃, hlast.1.symm ▸ hroom₂, ?_, ?_⟩
  · have hsub : live.erase p ⊆ live := List.erase_subset
    exact ((hkept.trans hkept₂).mono hsub).trans (hkept₃.mono fun r hr => List.mem_cons_of_mem q hr)
  · intro i hi _ hin
    obtain ⟨hsame, hbytes⟩ := hkept p hp
    have hpay : (payload s₁.mem p).hi = p + getSize s₁.mem (hdrp p) - dsize := rfl
    rw [hsame] at hpay
    have hlt : i < n := by
      rw [hn]
      have hpos : 0 < dsize := Nat.succ_pos 7
      omega
    have hin₂ : q + i < (payload (s₁.mem.copy q p n) q).hi := by omega
    have hend := hlast.2 (q + i) (Nat.le_add_right q i) hin₂
    have hcopy : s₁.mem.copy q p n (q + i) = s₁.mem (p + i) := Mem.copy_apply hlt
    exact hend.trans (hcopy.trans (hbytes (p + i) (Nat.le_add_right p i) hin))

/-- What `mm_realloc` to a size that is not zero does: nothing, or the move. -/
theorem realloc_cases (h : Inv s bs live) (hp : p = 0 ∨ p ∈ live) (hzero : size ≠ 0)
    (hsize : size < 2 ^ 31 - 16) :
    mmRealloc s p size = some (s, 0) ∨
      ∃ s' q bs', mmRealloc s p size = some (s', q) ∧ q ≠ 0 ∧ q ∉ live ∧
        Moved s s' bs' live p q size := by
  rw [mmRealloc, if_neg hzero]
  have hcases := malloc_cases h hsize
  by_cases hnull : p = 0
  · have hnot : p ∉ live := fun hmem => h.pos hmem hnull
    have herase : live.erase p = live := List.erase_of_not_mem hnot
    rw [if_pos hnull]
    refine hcases.imp_right ?_
    rintro ⟨s', q, bs', hcode, hne, hq, hinv, hroom, hkept⟩
    refine ⟨s', q, bs', hcode, hne, hq, ?_, hroom, ?_, fun _ _ hmem _ => absurd hmem hnot⟩
    · rwa [herase]
    · rwa [herase]
  · have hlive := hp.resolve_left hnull
    rw [if_neg hnull]
    rcases hcases with hcode | ⟨s₁, q, bs₁, hcode, hne, hq, hinv, hroom, hkept⟩
    · left
      rw [hcode]
      rfl
    · right
      have hmin : (if size < getSize s₁.mem (hdrp p) then size else getSize s₁.mem (hdrp p)) =
          min size (getSize s₁.mem (hdrp p)) := by
        split
        case isTrue hlt => exact (Nat.min_eq_left hlt.le).symm
        case isFalse hge => exact (Nat.min_eq_right (not_lt.mp hge)).symm
      obtain ⟨bs', hmoved⟩ := copy_free hlive hq hinv hroom hkept hmin
      refine ⟨_, q, bs', ?_, hne, hq, hmoved⟩
      rw [hcode]
      simp only [Option.bind_eq_bind, Option.bind_some, if_neg hne]

theorem Holds.move {s' : State} {bs' : List Block} (h : Holds s.mem live st)
    (hm : Moved s s' bs' live p q size) :
    Holds s'.mem (q :: live.erase p) (st.move p q size) := by
  intro r i b hst
  by_cases hr : r = q
  · subst hr
    rw [Store.move, Function.update_self, Option.ite_none_right_eq_some] at hst
    obtain ⟨hi, hst⟩ := hst
    obtain ⟨hp, hin, hbyte⟩ := h p i b hst
    refine ⟨List.mem_cons_self, ?_, ?_⟩
    · exact Nat.lt_of_lt_of_le (Nat.add_lt_add_left hi r) hm.room
    · rw [hm.copied i hi hp hin]
      exact hbyte
  · rw [Store.move, Function.update_of_ne hr] at hst
    obtain ⟨hmem, hin⟩ := h.forget hm.kept r i b hst
    exact ⟨List.mem_cons_of_mem q hmem, hin⟩

theorem Holds.write (h : Holds m live st) (hp : p ∈ live) (hin : p + i < (payload m p).hi)
    {b : UInt8} (hsame : payload (Function.update m (p + i) b) p = payload m p)
    (hkept : Kept m (Function.update m (p + i) b) (live.erase p)) :
    Holds (Function.update m (p + i) b) live (st.write p i b) := by
  intro r j b' hst
  by_cases hr : r = p
  · subst hr
    rw [Store.write, Function.update_self] at hst
    rw [hsame]
    by_cases hj : j = i
    · subst hj
      rw [Function.update_self] at hst ⊢
      exact ⟨hp, hin, Option.some.inj hst⟩
    · rw [Function.update_of_ne hj] at hst
      rw [Function.update_of_ne fun heq => hj (Nat.add_left_cancel heq)]
      exact h r j b' hst
  · rw [Store.write, Function.update_of_ne hr] at hst
    have hmem := (h r j b' hst).1
    exact ⟨hmem, h.kept hkept r j b' hst ((List.mem_erase_of_ne hr).mpr hmem)⟩

/-- One call returns and keeps what is stored. -/
theorem step_sound (c : Client) (call : Call) (h : c.Sound) (hcall : c.Allowed call) :
    ∃ c', c.step call = some c' ∧ c'.Sound := by
  obtain ⟨⟨bs, hinv⟩, hholds⟩ := h
  cases call with
  | malloc size =>
      rcases malloc_cases hinv hcall with hcode | ⟨s', q, bs', hcode, hne, -, hinv', -, hkept⟩
      · refine ⟨c, ?_, ⟨bs, hinv⟩, hholds⟩
        rw [step, hcode]
        rfl
      · refine ⟨⟨s', q :: c.live, c.store.forget q⟩, ?_, ⟨bs', hinv'⟩, hholds.cons hkept q⟩
        rw [step, hcode, Option.map_some, if_neg hne]
  | free p =>
      obtain ⟨bs', hinv', hkept⟩ := free_kept hinv hcall
      exact ⟨_, rfl, ⟨bs', hinv'⟩, hholds.forget hkept⟩
  | realloc p size =>
      by_cases hzero : size = 0
      · obtain ⟨bs', hinv', hkept⟩ := free_kept hinv hcall.1
        refine ⟨⟨mmFreeNull c.heap p, c.live.erase p, c.store.forget p⟩, ?_, ⟨bs', hinv'⟩,
          hholds.forget hkept⟩
        rw [step, mmRealloc, if_pos hzero, Option.map_some, if_pos hzero]
      · rcases realloc_cases hinv hcall.1 hzero hcall.2 with hcode | ⟨s', q, bs', hcode, hne, -, hmoved⟩
        · refine ⟨c, ?_, ⟨bs, hinv⟩, hholds⟩
          rw [step, hcode, Option.map_some, if_neg hzero]
          rfl
        · refine ⟨⟨s', q :: c.live.erase p, c.store.move p q size⟩, ?_, ⟨bs', hmoved.inv⟩,
            hholds.move hmoved⟩
          rw [step, hcode, Option.map_some, if_neg hzero, if_neg hne]
  | write p i b =>
      obtain ⟨hp, hin⟩ := hcall
      have hoff : Mem.EqOff c.heap.mem (Function.update c.heap.mem (p + i) b) (p + i) (p + i + 1) := by
        intro x hx
        exact Function.update_of_ne (by omega) ..
      obtain ⟨hinv', hsame, hkept⟩ := poke hinv hp hoff (Nat.le_add_right p i) hin
      exact ⟨_, rfl, ⟨bs, hinv'⟩, hholds.write hp hin hsame hkept⟩

/-- The program when `mm_init` has returned. -/
def start (m : Mem) (base : Nat) : Client := ⟨(mmInit (memInit m base)).2, [], fun _ _ => none⟩

theorem sound_start (m : Mem) (base : Nat) : (start m base).Sound := by
  obtain ⟨s, bs, hinit, hinv⟩ := mmInit_inv m base
  refine ⟨⟨bs, ?_⟩, fun p i b hst => ?_⟩
  · rw [start, hinit]
    exact hinv
  · cases hst

/-- **A heap keeps what is stored in it.**  Along every run of `mm_malloc`, `mm_free`,
`mm_realloc` and writes to live payloads all calls return; in the end every byte that
the program has stored and not given back is in the payload where it was stored, or
where `mm_realloc` has taken it, and the heap is well formed. -/
theorem store_kept (m : Mem) (base : Nat) (calls : List Call)
    (hallowed : Along step Allowed (start m base) calls) :
    ∃ c bps, run step (start m base) calls = some c ∧ WellFormed c.heap bps c.live ∧
      ∀ p i b, c.store p i = some b →
        p ∈ c.live ∧ p + i < (payload c.heap.mem p).hi ∧ c.heap.mem (p + i) = b := by
  obtain ⟨c, hrun, ⟨bs, hinv⟩, hholds⟩ :=
    run_invariant step_sound calls (sound_start m base) hallowed
  exact ⟨c, _, hrun, hinv.wellFormed, hholds⟩

/-- A byte stored, and taken along to a larger block. -/
def moved : List Call :=
  [.malloc 16, .write 4112 3 7, .realloc 4112 64, .malloc 8, .write 4112 3 1]

theorem store_kept_moved :
    ∃ c, run step (start (fun _ => 0) 4096) moved = some c ∧ 4136 ∈ c.live ∧
      c.heap.mem (4136 + 3) = 7 := by
  obtain ⟨c, bps, hrun, -, hbytes⟩ := store_kept (fun _ => 0) 4096 moved (by decide +kernel)
  have hstore : (run step (start (fun _ => 0) 4096) moved).map (fun c => c.store 4136 3) =
      some (some 7) := by
    decide +kernel
  rw [hrun] at hstore
  obtain ⟨hlive, -, hbyte⟩ := hbytes 4136 3 7 (Option.some.inj hstore)
  exact ⟨c, hrun, hlive, hbyte⟩

end Client

/-! ## `checkheap` -/

/-- What `checkheap` prints. -/
inductive Report where
  | badPrologue
  | notAligned (bp : Nat)
  | tagsDiffer (bp : Nat)
  | badEpilogue
  deriving DecidableEq, Repr

def checkblock (m : Mem) (bp : Nat) : List Report :=
  (if bp % 8 ≠ 0 then [.notAligned bp] else []) ++
    (if get m (hdrp bp) ≠ get m (ftrp m bp) then [.tagsDiffer bp] else [])

/-- The loop of `checkheap`: the reports, and the block it stops at. -/
def checkLoop (m : Mem) : Nat → Nat → Option (List Report × Nat)
  | 0, _ => none
  | fuel + 1, bp =>
      if getSize m (hdrp bp) > 0 then
        (checkLoop m fuel (nextBlkp m bp)).map fun r => (checkblock m bp ++ r.1, r.2)
      else some ([], bp)

/-- `checkheap(0)`.  A walk that leaves the heap is cut off. -/
def checkheap (s : State) : Option (List Report) :=
  (checkLoop s.mem (s.brk - s.heap + 1) s.listp).map fun r =>
    (if getSize s.mem (hdrp s.listp) ≠ dsize ∨ getAlloc s.mem (hdrp s.listp) = 0 then
      [.badPrologue] else []) ++
    checkblock s.mem s.listp ++ r.1 ++
    (if getSize s.mem (hdrp r.2) ≠ 0 ∨ getAlloc s.mem (hdrp r.2) = 0 then [.badEpilogue] else [])

section Check
variable {m : Mem} {a : Nat}

theorem checkblock_silent (hb : Tagged m a b) (ha : (a + 4) % 8 = 0) :
    checkblock m (a + 4) = [] := by
  have htags : get m (hdrp (a + 4)) = get m (ftrp m (a + 4)) := by
    rw [hb.ftrp_eq, hb.ftr]
    exact hb.hdr
  rw [checkblock, if_neg (not_not.mpr ha), if_neg (not_not.mpr htags)]
  rfl

theorem checkLoop_silent (h : Lay m a bs) (ha : (a + 4) % 8 = 0) {fuel : Nat}
    (hfuel : bs.length < fuel) : checkLoop m fuel (a + 4) = some ([], a + total bs + 4) := by
  induction bs generalizing a fuel with
  | nil =>
      obtain ⟨k, rfl⟩ := Nat.exists_eq_add_one_of_ne_zero (Nat.ne_of_gt hfuel)
      have hsize : getSize m (hdrp (a + 4)) = 0 := h.epi.getSize
      rw [checkLoop, hsize, if_neg (Nat.lt_irrefl 0)]
      rfl
  | cons b bs ih =>
      obtain ⟨k, rfl⟩ := Nat.exists_eq_add_one_of_ne_zero (Nat.ne_of_gt (Nat.zero_lt_of_lt hfuel))
      obtain ⟨⟨hb, hlaid⟩, hepi⟩ := h
      have hle := hb.ok.le
      have hdvd := hb.ok.dvd
      rw [total_cons, ← Nat.add_assoc] at hepi
      have hnext := ih ⟨hlaid, hepi⟩ (by omega) (Nat.lt_of_succ_lt_succ hfuel)
      rw [checkLoop, hb.getSize_hdr, if_pos (by omega), hb.nextBlkp_eq, hnext,
        Option.map_some, checkblock_silent hb ha, total_cons, ← Nat.add_assoc]
      rfl

/-- `checkheap` finds nothing in a heap that is well formed and begins at a multiple
of eight. -/
theorem Inv.checkheap (h : Inv s bs live) (hheap : 8 ∣ s.heap) : checkheap s = some [] := by
  have hlist : s.listp = s.heap + 4 + 4 := h.listp
  have hpro : Tagged s.mem (s.heap + 4) prologue := h.lay.laid.1
  have halign : (s.heap + 4 + 4) % 8 = 0 := by omega
  have hlen := length_le_total h.lay.laid
  have hbrk := h.brk
  have hloop := checkLoop_silent h.lay halign
    (show (prologue :: bs).length < s.brk - s.heap + 1 by omega)
  have hepi : getSize s.mem (s.heap + 4 + total (prologue :: bs)) = 0 ∧
      getAlloc s.mem (s.heap + 4 + total (prologue :: bs)) = 1 :=
    ⟨h.lay.epi.getSize, h.lay.epi.getAlloc⟩
  have hsize : getSize s.mem (hdrp (s.heap + 4 + 4)) = dsize := hpro.getSize_hdr
  have halloc : getAlloc s.mem (hdrp (s.heap + 4 + 4)) = 1 := hpro.getAlloc_hdr
  rw [Ptmalloc.checkheap, hlist, hloop, Option.map_some, checkblock_silent hpro halign, hsize,
    halloc, hdrp, wsize, Nat.add_sub_cancel, hepi.1, hepi.2]
  rfl

end Check

/-! ### The heap stays where it is -/

theorem memSbrk_heap {s₁ : State} {incr : Int} {bp : Nat} (h : memSbrk s incr = some (bp, s₁)) :
    s₁.heap = s.heap := by
  rw [memSbrk] at h
  split at h
  · cases h
  · cases h
    rfl

theorem extendHeap_heap {words : Nat} (h : extendHeap s words = (s', q)) : s'.heap = s.heap := by
  rw [extendHeap] at h
  split at h
  case h_1 => exact congrArg State.heap (Prod.mk.inj h).1.symm
  case h_2 bp s₁ hsbrk =>
    obtain ⟨rfl, -⟩ := Prod.mk.inj h
    have hheap : s₁.heap = s.heap := memSbrk_heap hsbrk
    exact hheap

theorem mmInit_extends {s₁ : State} {h : Nat} (hsbrk : memSbrk s (4 * wsize) = some (h, s₁))
    (hext : extendHeap { s₁ with mem := initWords s₁.mem h, listp := h + 2 * wsize }
      (chunksize / wsize) = (s', q)) : mmInit s = (if q = 0 then -1 else 0, s') := by
  unfold mmInit
  rw [hsbrk]
  dsimp only
  rw [hext]
  exact (apply_ite (fun i : Int => (i, s')) (q = 0) (-1) 0).symm

theorem mmInit_heap {i : Int} (h : mmInit s = (i, s')) : s'.heap = s.heap := by
  cases hsbrk : memSbrk s (4 * wsize) with
  | none =>
      unfold mmInit at h
      rw [hsbrk] at h
      exact congrArg State.heap (Prod.mk.inj h).2.symm
  | some r =>
      cases hext : extendHeap { r.2 with mem := initWords r.2.mem r.1, listp := r.1 + 2 * wsize }
        (chunksize / wsize) with
      | mk s₂ q =>
          have hinit := mmInit_extends hsbrk hext
          have hsame : s₂ = s' := congrArg Prod.snd (hinit.symm.trans h)
          have hext' := extendHeap_heap hext
          have hbrk := memSbrk_heap hsbrk
          exact hsame ▸ hext'.trans hbrk

theorem mmMalloc_heap {size : Nat} (h : mmMalloc s size = some (s', q)) : s'.heap = s.heap := by
  rw [mmMalloc] at h
  split at h
  · cases h
    rfl
  · obtain ⟨bp, -, h⟩ := Option.bind_eq_some_iff.mp h
    split at h
    · cases h
      rfl
    · cases hext : extendHeap s (max (adjust size) chunksize / wsize) with
      | mk s₂ q' =>
          rw [hext] at h
          have hheap : s₂.heap = s.heap := extendHeap_heap hext
          dsimp only at h
          split at h
          · cases h
            exact hheap
          · cases h
            exact hheap

theorem mmFreeNull_heap (p : Nat) : (mmFreeNull s p).heap = s.heap := by
  rw [mmFreeNull]
  split <;> rfl

theorem mmRealloc_heap {p size : Nat} (h : mmRealloc s p size = some (s', q)) :
    s'.heap = s.heap := by
  rw [mmRealloc] at h
  split at h
  · cases h
    exact mmFreeNull_heap p
  · split at h
    · exact mmMalloc_heap h
    · obtain ⟨⟨s₁, newptr⟩, hmalloc, h⟩ := Option.bind_eq_some_iff.mp h
      dsimp only at h
      split at h
      · cases h
        exact mmMalloc_heap hmalloc
      · obtain ⟨rfl, -⟩ := Prod.mk.inj (Option.some.inj h)
        have hheap : s₁.heap = s.heap := mmMalloc_heap hmalloc
        exact (mmFreeNull_heap p).trans hheap

namespace Client

theorem step_heap {c c' : Client} {call : Call} (h : c.step call = some c') :
    c'.heap.heap = c.heap.heap := by
  cases call with
  | malloc size =>
      obtain ⟨⟨s', q⟩, hmalloc, rfl⟩ := Option.map_eq_some_iff.mp h
      split <;> exact mmMalloc_heap hmalloc
  | free p =>
      cases h
      exact mmFreeNull_heap p
  | realloc p size =>
      obtain ⟨⟨s', q⟩, hrealloc, rfl⟩ := Option.map_eq_some_iff.mp h
      split
      · exact mmRealloc_heap hrealloc
      · split <;> exact mmRealloc_heap hrealloc
  | write p i b =>
      cases h
      rfl

theorem start_heap (m : Mem) (base : Nat) : (start m base).heap.heap = base := by
  obtain ⟨s, bs, hinit, -⟩ := mmInit_inv m base
  rw [start, hinit]
  exact mmInit_heap hinit

/-- In every heap that a program reaches, `checkheap` has nothing to report. -/
theorem checkheap_silent (m : Mem) {base : Nat} (hbase : 8 ∣ base) {calls : List Call}
    (hallowed : Along step Allowed (start m base) calls) {c : Client}
    (hrun : run step (start m base) calls = some c) : checkheap c.heap = some [] := by
  have hkeeps := run_keeps_along (fun c call c' (hc : c.Sound ∧ c.heap.heap = base) hcall hstep => ?_)
    calls ⟨sound_start m base, start_heap m base⟩ hallowed hrun
  · obtain ⟨⟨⟨bs, hinv⟩, -⟩, hheap⟩ := hkeeps
    exact hinv.checkheap (hheap.symm ▸ hbase)
  · obtain ⟨c₁, hstep₁, hsound⟩ := step_sound c call hc.1 hcall
    cases hstep.symm.trans hstep₁
    exact ⟨hsound, (step_heap hstep).trans hc.2⟩

theorem checkheap_silent_moved :
    ∃ c, run step (start (fun _ => 0) 4096) moved = some c ∧ checkheap c.heap = some [] := by
  have hallowed : Along step Allowed (start (fun _ => 0) 4096) moved := by decide +kernel
  obtain ⟨c, hrun, -⟩ := run_invariant step_sound moved (sound_start _ 4096) hallowed
  exact ⟨c, hrun, checkheap_silent _ (by decide) hallowed hrun⟩

end Client

end CKernel.Malloc.Ptmalloc
