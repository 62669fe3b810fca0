/-
# `CKernel.Malloc.PtmallocFrame` — what the implicit-list allocator leaves alone

Every word that `mm_malloc` and `mm_free` write belongs to a block that is or was
free, to the block given back, or to the part that the heap has grown by.  So no
byte of another live payload changes, and what is handed out is not in use.

    a live block is outside of what a call has written        (`Wrote.apart`)
    its payload is the same before and after                  (`Wrote.kept`)
    along every run of allowed calls                          (`payloads_undisturbed`)
-/
import CKernel.Lib.Extents
import CKernel.Malloc.PtmallocHeap

namespace CKernel.Malloc.Ptmalloc

open Run

/-! ## Payloads -/

/-- `[q, q + GET_SIZE(HDRP(q)) - 8)` -/
def payload (m : Mem) (q : Nat) : Extent := ⟨q, q + getSize m (hdrp q) - dsize⟩

/-- Every byte of the range is the same. -/
def SameBytes (m m' : Mem) (e : Extent) : Prop := ∀ x, e.lo ≤ x → x < e.hi → m' x = m x

/-- What a call does to the live payloads: nothing, but for the one that is given back;
and a pointer handed out is aligned and its payload in no other. -/
def Undisturbed (s : State × List Nat) : Op → Prop
  | .malloc size => ∃ s' p, mmMalloc s.1 size = some (s', p) ∧
      (∀ q ∈ s.2, SameBytes s.1.mem s'.mem (payload s.1.mem q)) ∧
      (p ≠ 0 → s'.heap ≤ p ∧ 8 ∣ p - s'.heap ∧
        ∀ q ∈ s.2, (payload s'.mem p).Apart (payload s.1.mem q))
  | .free p => ∀ q ∈ s.2, q ≠ p → SameBytes s.1.mem (mmFree s.1 p).mem (payload s.1.mem q)

variable {m m' : Mem} {a q : Nat} {s s' : State} {b : Block} {bs pre mid post : List Block}
  {live fresh : List Nat}

theorem Tagged.payload_eq (h : Tagged m a b) : payload m (a + 4) = ⟨a + 4, a + b.size - 4⟩ := by
  have hsize := h.getSize_hdr
  have hle := h.ok.le
  rw [payload, hsize, dsize]
  congr 1
  omega

/-- The block of a live pointer. -/
theorem exists_tagged_of_mem_livePtrs (hlaid : Laid m a bs) (hq : q ∈ livePtrs a bs) :
    ∃ c b, q = c + 4 ∧ Tagged m c b ∧ a ≤ c ∧ c + b.size ≤ a + total bs := by
  obtain ⟨pre, b, post, rfl, -, rfl⟩ := exists_of_mem_livePtrs hq
  obtain ⟨-, hb, -⟩ := laid_append.mp hlaid
  refine ⟨a + total pre, b, rfl, hb, Nat.le_add_right _ _, ?_⟩
  rw [total_append, total_cons]
  omega

section Wrote
variable (h : Wrote s s' pre mid post (fresh ++ live))
  (hfresh : livePtrs (s'.heap + 12 + total pre) mid = fresh) (hq : q ∈ live)
include h hfresh hq

/-- The block of a pointer that was live before stands before what was written, or
behind all of it. -/
theorem Wrote.apart : ∃ c b, q = c + 4 ∧ Tagged s'.mem c b ∧
    (c + b.size ≤ s'.heap + 12 + total pre ∨
      post ≠ [] ∧ s'.heap + 12 + total pre + total mid ≤ c) := by
  have hlaid : Laid s'.mem (s'.heap + 12) (pre ++ (mid ++ post)) := h.inv.lay.laid.2
  obtain ⟨hpre, hrest⟩ := laid_append.mp hlaid
  obtain ⟨-, hpost⟩ := laid_append.mp hrest
  have hlive := h.inv.live
  rw [livePtrs_append, livePtrs_append, hfresh] at hlive
  have hperm : live.Perm (livePtrs (s'.heap + 12) pre ++
      livePtrs (s'.heap + 12 + total pre + total mid) post) := by
    refine (List.perm_append_left_iff fresh).mp (hlive.trans ?_)
    exact List.perm_append_comm_assoc _ _ _
  rcases List.mem_append.mp (hperm.mem_iff.mp hq) with hq | hq
  · obtain ⟨c, b, rfl, hb, -, hend⟩ := exists_tagged_of_mem_livePtrs hpre hq
    exact ⟨c, b, rfl, hb, .inl hend⟩
  · obtain ⟨c, b, rfl, hb, hstart, -⟩ := exists_tagged_of_mem_livePtrs hpost hq
    refine ⟨c, b, rfl, hb, .inr ⟨?_, hstart⟩⟩
    rintro rfl
    cases hq

/-- The payload is where it was, and so is every byte of it. -/
theorem Wrote.kept : SameBytes s.mem s'.mem (payload s.mem q) ∧
    payload s.mem q = payload s'.mem q := by
  obtain ⟨c, b, rfl, hb, hout⟩ := h.apart hfresh hq
  obtain ⟨hi, hoff, hhi⟩ := h.frame
  have hle := hb.ok.le
  have hbytes : ∀ x, c ≤ x → x < c + b.size → s'.mem x = s.mem x := by
    intro x hlow hhigh
    refine hoff x ?_
    rcases hout with hend | ⟨hpost, hstart⟩
    · exact .inl (Nat.lt_of_lt_of_le hhigh hend)
    · exact .inr (Nat.le_trans (hhi.resolve_right hpost) (Nat.le_trans hstart hlow))
  have hsame : payload s.mem (c + 4) = payload s'.mem (c + 4) := by
    have hget : get s'.mem c = get s.mem c := by
      refine Mem.load_congr fun x hlow hhigh => hbytes x hlow (by omega)
    rw [payload, payload, hdrp, wsize, Nat.add_sub_cancel, getSize, getSize, hget]
  refine ⟨fun x hlow hhigh => ?_, hsame⟩
  rw [hsame, Tagged.payload_eq hb] at hlow hhigh
  exact hbytes x (by simp only at hlow; omega) (by simp only at hhigh; omega)

end Wrote

/-! ## The two calls -/

theorem dvd_total (h : Laid m a bs) : 8 ∣ total bs := by
  induction bs generalizing a with
  | nil => exact Nat.dvd_zero 8
  | cons b bs ih => exact Nat.dvd_add h.1.ok.dvd (ih h.2)

/-- The block handed out is the first of those written, and the only one in use. -/
theorem exists_taken {asize : Nat} (h : Wrote s s' pre (cut b asize) post live)
    (hle : asize ≤ b.size) (hasize : 16 ≤ asize) :
    livePtrs (s'.heap + 12 + total pre) (cut b asize) = [s'.heap + 12 + total pre + 4] ∧
      ∃ c, Tagged s'.mem (s'.heap + 12 + total pre) c ∧ asize ≤ c.size ∧
        c.size ≤ total (cut b asize) := by
  have hlaid : Laid s'.mem (s'.heap + 12) (pre ++ (cut b asize ++ post)) := h.inv.lay.laid.2
  obtain ⟨c, tail, hcut, hc, hsize, htail, -, -⟩ := exists_cut hle hasize
  rw [hcut] at hlaid ⊢
  obtain ⟨-, hmid, -⟩ := laid_append.mp hlaid
  refine ⟨?_, c, hmid, hsize, ?_⟩
  · rw [livePtrs, hc, if_pos rfl, livePtrs_free htail]
  · rw [total_cons]
    exact Nat.le_add_right _ _

theorem malloc_undisturbed (h : Inv s bs live) {size : Nat} (hsize : size < 2 ^ 31 - 16) :
    Undisturbed (s, live) (.malloc size) := by
  have hnull : mmMalloc s size = some (s, 0) → Undisturbed (s, live) (.malloc size) :=
    fun hcode => ⟨s, 0, hcode, fun _ _ _ _ _ => rfl, fun hne => absurd rfl hne⟩
  by_cases hzero : size = 0
  · exact hnull (by rw [mmMalloc, if_pos hzero])
  · rcases mmMalloc_wrote h hzero (adjust_ok hsize) with hcode | ⟨s', pre, b, post, hcode, hle, hwrote⟩
    · exact hnull hcode
    · obtain ⟨hfresh, c, hc, -, hend⟩ := exists_taken hwrote hle (adjust_ok hsize).1
      have hlaid : Laid s'.mem (s'.heap + 12) pre := (laid_append.mp hwrote.inv.lay.laid.2).1
      have hdvd := dvd_total hlaid
      refine ⟨s', _, hcode, fun q hq => (hwrote.kept hfresh hq).1, fun _ => ⟨?_, ?_, ?_⟩⟩
      · omega
      · omega
      · intro q hq
        obtain ⟨d, e, rfl, he, hout⟩ := hwrote.apart hfresh hq
        have hsame := (hwrote.kept hfresh hq).2
        have hcle := hc.ok.le
        have hele := he.ok.le
        show (payload s'.mem _).Apart (payload s.mem _)
        rw [hsame, Tagged.payload_eq hc, Tagged.payload_eq he]
        rcases hout with hbelow | ⟨-, habove⟩
        · right
          show d + e.size - 4 ≤ s'.heap + 12 + total pre + 4
          omega
        · left
          show s'.heap + 12 + total pre + c.size - 4 ≤ d + 4
          omega

theorem free_undisturbed (h : Inv s bs live) {p : Nat} (hp : p ∈ live) :
    Undisturbed (s, live) (.free p) := by
  intro q hq hne
  obtain ⟨pre, b, post, hb, hwrote⟩ := mmFree_wrote h hp
  have hfresh : livePtrs ((mmFree s p).heap + 12 + total pre) [b] = [] :=
    livePtrs_free (by simpa using hb) _
  have hwrote' : Wrote s (mmFree s p) pre [b] post ([] ++ live.erase p) := hwrote
  exact (hwrote'.kept hfresh ((List.mem_erase_of_ne hne).mpr hq)).1

/-- **Live data is never touched.**  Along every run of allowed calls after `mm_init`,
every call leaves the bytes of the other live payloads as they are, and what it hands
out is aligned and overlaps none of them. -/
theorem payloads_undisturbed (m : Mem) (base : Nat) (ops : List Op)
    (hallowed : Along step Allowed ((mmInit (memInit m base)).2, []) ops) :
    Along step Undisturbed ((mmInit (memInit m base)).2, []) ops := by
  obtain ⟨s₀, bs₀, hinit, hinv₀⟩ := mmInit_inv m base
  rw [hinit] at hallowed ⊢
  have hgood : Good (s₀, []) := ⟨bs₀, hinv₀⟩
  refine hallowed.imp (fun s op s' hs hop hstep => ?_) (fun s op hs hop => ?_) hgood
  · obtain ⟨s₁, hstep₁, hs₁⟩ := step_good s op hs hop
    cases hstep.symm.trans hstep₁
    exact hs₁
  · obtain ⟨bs, hinv⟩ := hs
    cases op with
    | malloc size => exact malloc_undisturbed hinv hop
    | free p => exact free_undisturbed hinv hop

/-- The calls of `main`. -/
theorem payloads_undisturbed_main :
    Along step Allowed ((mmInit (memInit (fun _ => 0) 4096)).2, [])
        [.malloc 128, .free 4112, .malloc 128, .malloc 64, .malloc 64, .free 4248, .free 4320,
          .malloc 128] ∧
      Along step Undisturbed ((mmInit (memInit (fun _ => 0) 4096)).2, [])
        [.malloc 128, .free 4112, .malloc 128, .malloc 64, .malloc 64, .free 4248, .free 4320,
          .malloc 128] :=
  ⟨by decide +kernel, payloads_undisturbed _ _ _ (by decide +kernel)⟩

end CKernel.Malloc.Ptmalloc
