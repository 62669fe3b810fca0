/-
# `CKernel.Malloc.FlspArena` — the arena of the segregated-fit allocator

`mem_init` allocates 20 MiB, and `mem_sbrk` refuses a negative increment and nothing
else: no call of `mm_malloc` fails, and the heap leaves the arena with the first
extension that it has no room for.

    without a fit the break is raised by the extension        (`mmMalloc_raises`)
    with one it stays                                          (`mmMalloc_stays`)
    what is handed out ends below the break                    (`Inv.payload`)
    runs stay inside if and only if every extension fits       (`stays_inside_iff`)
-/
import CKernel.Malloc.FlspSearch

namespace CKernel.Malloc.Flsp

open Run

variable {s : State} {bs : List Block} {live : List Nat} {ls : Nat → List Nat} {size q : Nat}

/-! ## The break -/

theorem mmMalloc_raises {r : State × Nat} (hextends : Extends s size) (hsize : size < 2 ^ 31 - 16)
    (hr : r ∈ mmMalloc s size) : r.1.brk = s.brk + max (adjust size) chunksize := by
  obtain ⟨g, hg, -, hbrk⟩ := mmMalloc_brk hextends.1 hsize hextends.2
  cases Option.mem_unique hg hr
  exact hbrk

theorem mmMalloc_stays {r : State × Nat} (hfits : ¬ Extends s size) (hr : r ∈ mmMalloc s size) :
    r.1.brk = s.brk := by
  by_cases hzero : size = 0
  · rw [mmMalloc, if_pos hzero] at hr
    cases hr
    rfl
  · rw [mmMalloc, if_neg hzero] at hr
    obtain ⟨bp, hfind, hr⟩ := Option.bind_eq_some_iff.mp hr
    have hbp : bp ≠ 0 := by
      rintro rfl
      exact hfits ⟨hzero, hfind⟩
    rw [if_pos hbp] at hr
    cases hr
    exact (same_place s bp (adjust size)).brk

/-- A live block is behind the prologue and ends before the epilogue. -/
theorem Inv.payload (h : Inv s bs live ls) (hq : q ∈ live) :
    s.heap ≤ q ∧ q + (getSize s.mem (hdrp q) - 8) ≤ s.brk := by
  obtain ⟨pre, b, post, rfl, -, rfl⟩ := Ptmalloc.exists_of_mem_livePtrs (h.live.mem_iff.mp hq)
  have hlaid := h.hole.lay.laid
  rw [List.append_nil, List.append_nil] at hlaid
  have hbs := hlaid.2
  have htag : Tagged s.mem (s.heap + 12 + total pre) b := (laid_append.mp hbs).2.1
  have hle := htag.ok.le
  have hbrk := h.brk
  rw [Ptmalloc.total_prologue, total_append, total_cons] at hbrk
  rw [htag.getSize_hdr]
  omega

/-! ## Calls inside the arena -/

/-- The break is inside the arena. -/
def Inside (s : State) : Prop := s.heap ≤ s.brk ∧ s.brk ≤ s.heap + arena

/-- The request finds a block, or the arena has room for the extension. -/
def Satisfiable (s : State) (size : Nat) : Prop :=
  Extends s size → s.brk + max (adjust size) chunksize ≤ s.heap + arena

instance decidableSatisfiable (s : State) (size : Nat) : Decidable (Satisfiable s size) :=
  inferInstanceAs (Decidable (_ → _))

/-- The call returns with the break inside the arena, the payload it returns is inside,
and a request that cannot be satisfied returns `NULL`. -/
def StaysInside (s : State × List Nat) : Op → Prop
  | .malloc size => ∃ s' p, mmMalloc s.1 size = some (s', p) ∧ Inside s' ∧
      (p ≠ 0 → s'.heap ≤ p ∧ p + (getSize s'.mem (hdrp p) - 8) ≤ s'.heap + arena) ∧
      (¬ Satisfiable s.1 size → p = 0)
  | .free p => Inside (mmFree s.1 p)

/-- Every extension of the heap has room in the arena. -/
def Fits (s : State × List Nat) : Op → Prop
  | .malloc size => Satisfiable s.1 size
  | .free _ => True

instance decidableFits (s : State × List Nat) : ∀ op, Decidable (Fits s op)
  | .malloc size => inferInstanceAs (Decidable (Satisfiable s.1 size))
  | .free _ => inferInstanceAs (Decidable True)

/-- What holds of a run as long as its extensions fit. -/
def Kept (s : State × List Nat) : Prop := Good s ∧ s.1.brk ≤ s.1.heap + arena

theorem Kept.allowed {s : State × List Nat} {op : Op} (h : Kept s) (hop : Lawful s op)
    (hfits : Fits s op) : Allowed s op := by
  cases op with
  | malloc size =>
      refine ⟨hop, fun s' hs' => ?_⟩
      obtain ⟨r, hr, hs'⟩ := Option.bind_eq_some_iff.mp hs'
      cases hs'
      have hheap : r.1.heap = s.1.heap := mmMalloc_heap hr
      show r.1.brk ≤ r.1.heap + arena
      rw [hheap]
      by_cases hextends : Extends s.1 size
      · rw [mmMalloc_raises hextends hop hr]
        exact hfits hextends
      · rw [mmMalloc_stays hextends hr]
        exact h.2
  | free p =>
      refine ⟨hop, fun s' hs' => ?_⟩
      cases hs'
      have hsame := same_mmFree s.1 p
      show (mmFree s.1 p).brk ≤ (mmFree s.1 p).heap + arena
      rw [hsame.brk, hsame.heap]
      exact h.2

theorem Kept.step {s s' : State × List Nat} {op : Op} (h : Kept s) (hop : Lawful s op)
    (hfits : Fits s op) (hs' : step s op = some s') : Kept s' := by
  have hallowed := h.allowed hop hfits
  obtain ⟨s₁, hs₁, hgood⟩ := step_good s op h.1 (hallowed.addressable h.1)
  rw [hs'] at hs₁
  cases hs₁
  exact ⟨hgood, hallowed.2 s' hs'⟩

theorem Kept.inside {s : State × List Nat} (h : Kept s) : Inside s.1 := by
  obtain ⟨⟨bs, ls, hinv⟩, hle⟩ := h
  refine ⟨?_, hle⟩
  rw [hinv.brk, Nat.add_assoc]
  exact Nat.le_add_right _ _

/-- One call: it stays inside if and only if its extension fits. -/
theorem Kept.staysInside_iff {s : State × List Nat} {op : Op} (h : Kept s) (hop : Lawful s op) :
    Fits s op ↔ StaysInside s op := by
  cases op with
  | malloc size =>
      constructor
      · intro hfits
        obtain ⟨s₁, hs₁, -⟩ := step_good s _ h.1 ((h.allowed hop hfits).addressable h.1)
        have hkept := h.step hop hfits hs₁
        obtain ⟨⟨s', p⟩, hr, hs₁⟩ := Option.bind_eq_some_iff.mp hs₁
        cases hs₁
        refine ⟨s', p, hr, hkept.inside, fun hp => ?_, fun hnot => absurd hfits hnot⟩
        obtain ⟨⟨bs, ls, hinv⟩, hle⟩ := hkept
        dsimp only at hinv hle
        rw [if_neg hp] at hinv
        have hpayload := hinv.payload List.mem_cons_self
        exact ⟨hpayload.1, le_trans hpayload.2 hle⟩
      · rintro ⟨s', p, hr, hinside, -, -⟩ hextends
        have hbrk := mmMalloc_raises hextends hop hr
        have hheap := mmMalloc_heap hr
        dsimp only at hbrk hheap
        rw [← hbrk, ← hheap]
        exact hinside.2
  | free p => exact iff_of_true trivial (h.step hop trivial rfl).inside

/-- After `mem_init` and `mm_init`, a run of requests and of frees of live pointers stays
inside the arena if and only if every extension of the heap has room there. -/
theorem stays_inside_iff (m : Mem) (base : Nat) (hbase : base + arena ≤ 2 ^ 32) (ops : List Op)
    (hlawful : Along step Lawful ((mmInit (memInit m base)).2, []) ops) :
    Inside (mmInit (memInit m base)).2 ∧
      (Along step Fits ((mmInit (memInit m base)).2, []) ops ↔
        Along step StaysInside ((mmInit (memInit m base)).2, []) ops) := by
  obtain ⟨s, bs, ls, hinit, hinv, hbrk⟩ := mmInit_inv m hbase
  rw [hinit] at hlawful ⊢
  have hkept : Kept (s, []) := by
    refine ⟨⟨bs, ls, hinv⟩, ?_⟩
    dsimp only
    rw [hbrk, Nat.add_assoc]
    exact Nat.add_le_add_left (by decide) _
  exact ⟨hkept.inside, along_congr (fun _ _ _ h hop hfits hs' => h.step hop hfits hs')
    (fun _ _ h hop => h.staysInside_iff hop) ops hkept hlawful⟩

/-- The heap grows to 8 bytes below the end of the arena, and what is left of it is found. -/
theorem stays_inside_iff_large :
    Inside (mmInit (memInit (fun _ => 0) 4096)).2 ∧
      Along step StaysInside ((mmInit (memInit (fun _ => 0) 4096)).2, [])
        [.malloc 128, .free 4112, .malloc 20967392, .malloc 4000] := by
  have hruns := stays_inside_iff (fun _ => 0) 4096 (by decide)
    [.malloc 128, .free 4112, .malloc 20967392, .malloc 4000] (by decide +kernel)
  exact ⟨hruns.1, hruns.2.mp (by decide +kernel)⟩

/-- A request of 20 MiB to an empty heap is not refused: the heap ends 4120 bytes behind
the arena. -/
theorem leaves_arena :
    ¬ ∀ (m : Mem) (base : Nat) (ops : List Op), base + arena ≤ 2 ^ 32 →
      Along step Lawful ((mmInit (memInit m base)).2, []) ops →
      Inside (mmInit (memInit m base)).2 ∧
        Along step StaysInside ((mmInit (memInit m base)).2, []) ops := by
  intro hclaim
  obtain ⟨s', p, hr, hinside, -, -⟩ :=
    (hclaim (fun _ => 0) 4096 [.malloc (20 * 1024 * 1024)] (by decide) (by decide +kernel)).2.1
  have hout : ∀ r ∈ mmMalloc (mmInit (memInit (fun _ => 0) 4096)).2 (20 * 1024 * 1024),
      r.1.brk = r.1.heap + arena + 4120 := by decide +kernel
  have hbrk := hout (s', p) hr
  have hle := hinside.2
  dsimp only at hbrk
  omega

end CKernel.Malloc.Flsp
