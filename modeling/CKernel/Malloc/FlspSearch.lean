/-
# `CKernel.Malloc.FlspSearch` — the segregated search is complete

`mm_malloc` starts in the list of its request's class and never looks below it.  That
finds whatever there is: a larger size has no smaller class, so the lists below hold
only smaller blocks, and every free block is in the list of its class.

    a larger size has no smaller class                        (`getIndex_mono`)
    the search ends in the first list with a large enough block (`findFit_ok`)
    it ends with none only if no free block is large enough   (`search_complete`)

The runs are those whose addresses fit the 4-byte pointers, in the arena or not.
-/
import CKernel.Malloc.FlspHeap

namespace CKernel.Malloc.Flsp

open Run

variable {s : State} {bs : List Block} {live bps : List Nat} {ls : Nat → List Nat}
  {i size size' : Nat}

/-! ## The classes -/

/-- A block is no larger than the bound of its class, the last class having none. -/
theorem size_le_of_getIndex (hi : getIndex size = i) (hlast : i < seglistCount - 1) :
    size ≤ 32 <<< i := by
  rw [getIndex] at hi
  cases hfind : (List.range (seglistCount - 1)).find? fun i => size ≤ 32 <<< i with
  | none =>
      rw [hfind] at hi
      exact absurd hi.symm (Nat.ne_of_lt hlast)
  | some j =>
      rw [hfind] at hi
      cases hi
      simpa using List.find?_some hfind

theorem getIndex_le_of_size (hi : i < seglistCount - 1) (hsize : size ≤ 32 <<< i) :
    getIndex size ≤ i := by
  rw [getIndex]
  cases hfind : (List.range (seglistCount - 1)).find? fun i => size ≤ 32 <<< i with
  | none =>
      have hnone := List.find?_eq_none.mp hfind i (List.mem_range.mpr hi)
      exact absurd (decide_eq_true hsize) hnone
  | some j =>
      refine Nat.le_of_not_lt fun hij => ?_
      have hfirst := (List.find?_range_eq_some.mp hfind).2.2 i hij
      rw [decide_eq_true hsize] at hfirst
      cases hfirst

theorem getIndex_mono (hle : size ≤ size') : getIndex size ≤ getIndex size' := by
  by_cases hlast : getIndex size' < seglistCount - 1
  · exact getIndex_le_of_size hlast (le_trans hle (size_le_of_getIndex rfl hlast))
  · exact le_trans (Nat.le_of_lt_succ (getIndex_lt size)) (Nat.le_of_not_lt hlast)

/-! ## The search -/

/-- What the search does not look at is too small. -/
theorem Inv.short_below (h : Inv s bs live ls) {asize : Nat} (hi : i < getIndex asize) :
    Short s.mem asize (ls i) := by
  intro x hx
  obtain ⟨pre, b, post, -, -, -, hsize, hclass⟩ :=
    h.node (Nat.lt_trans hi (getIndex_lt asize)) hx
  rw [hsize]
  refine Nat.lt_of_not_le fun hle => Nat.not_le_of_lt hi ?_
  rw [← hclass]
  exact getIndex_mono hle

theorem findFit_ok (h : Inv s bs live ls) (asize : Nat) :
    (findFit s asize = some 0 ∧ ∀ i < seglistCount, Short s.mem asize (ls i)) ∨
      ∃ bp i, findFit s asize = some bp ∧ bp ≠ 0 ∧ i < seglistCount ∧ bp ∈ ls i ∧
        asize ≤ getSize s.mem (hdrp bp) ∧ ∀ j < i, Short s.mem asize (ls j) := by
  have hindex := getIndex_lt asize
  have hbelow : ∀ stop, (∀ j, getIndex asize ≤ j → j < stop → Short s.mem asize (ls j)) →
      ∀ j < stop, Short s.mem asize (ls j) := by
    intro stop hfrom j hj
    rcases Nat.lt_or_ge j (getIndex asize) with hlt | hge
    · exact h.short_below hlt
    · exact hfrom j hge hj
  obtain ⟨bp, hbp, ⟨rfl, hnone⟩ | ⟨hne, i, -, hi, hmem, hfit, hbefore⟩⟩ :=
    searchLists_ok h asize (Nat.le_of_eq (Nat.add_sub_of_le (Nat.le_of_lt hindex)))
  · rw [Nat.add_sub_of_le (Nat.le_of_lt hindex)] at hnone
    exact .inl ⟨hbp, hbelow _ hnone⟩
  · rw [Nat.add_sub_of_le (Nat.le_of_lt hindex)] at hi
    exact .inr ⟨bp, i, hbp, hne, hi, hmem, hfit, hbelow i hbefore⟩

/-- The lists stand for all free blocks of the heap. -/
theorem Exact.short_iff (h : Exact s bps ls) (asize : Nat) :
    (∀ i < seglistCount, Short s.mem asize (ls i)) ↔
      ∀ bp ∈ bps, getAlloc s.mem (hdrp bp) = 0 → getSize s.mem (hdrp bp) < asize := by
  constructor
  · intro hshort bp hbp hfree
    have hindex := getIndex_lt (getSize s.mem (hdrp bp))
    have hcount := h.listed bp hbp hfree _ hindex
    rw [if_pos rfl] at hcount
    exact hshort _ hindex bp (List.count_pos_iff.mp (by rw [hcount]; exact Nat.one_pos))
  · intro hfree i hi bp hbp
    obtain ⟨hmem, halloc⟩ := h.only i hi bp hbp
    exact hfree bp hmem halloc

/-! ## `mm_malloc` -/

/-- `mm_malloc(size)` comes to its call of `extend_heap`. -/
def Extends (s : State) (size : Nat) : Prop := size ≠ 0 ∧ findFit s (adjust size) = some 0

instance decidableExtends (s : State) (size : Nat) : Decidable (Extends s size) :=
  inferInstanceAs (Decidable (_ ∧ _))

/-- What `mm_malloc(size)` finds in a heap with the blocks `bps` and the lists `ls`. -/
structure Searched (s : State) (size : Nat) (bps : List Nat) (ls : Nat → List Nat) : Prop where
  extends_iff : Extends s size ↔
    ∀ bp ∈ bps, getAlloc s.mem (hdrp bp) = 0 → getSize s.mem (hdrp bp) < adjust size
  raised : Extends s size →
    ∃ r, mmMalloc s size = some r ∧ r.1.brk = s.brk + max (adjust size) chunksize
  taken : ¬ Extends s size → ∃ bp i, mmMalloc s size = some (place s bp (adjust size), bp) ∧
    i < seglistCount ∧ bp ∈ ls i ∧ adjust size ≤ getSize s.mem (hdrp bp) ∧
      ∀ j < i, Short s.mem (adjust size) (ls j)

theorem mmMalloc_searched (h : Inv s bs live ls) (hexact : Exact s bps ls) (hpos : 0 < size)
    (hsize : size < 2 ^ 31 - 16) : Searched s size bps ls := by
  have hzero : size ≠ 0 := Nat.ne_of_gt hpos
  rcases findFit_ok h (adjust size) with ⟨hfind, hshort⟩ | ⟨bp, i, hfind, hbp, hi, hmem, hfit, hbefore⟩
  · have hextends : Extends s size := ⟨hzero, hfind⟩
    refine ⟨iff_of_true hextends ((hexact.short_iff _).mp hshort), fun _ => ?_,
      fun hnot => absurd hextends hnot⟩
    obtain ⟨r, hr, -, hbrk⟩ := mmMalloc_brk hzero hsize hfind
    exact ⟨r, hr, hbrk⟩
  · have hnot : ¬ Extends s size := by
      intro hextends
      rw [hextends.2] at hfind
      exact hbp (Option.some.inj hfind).symm
    refine ⟨iff_of_false hnot fun hall => ?_, fun hextends => absurd hextends hnot, fun _ => ?_⟩
    · exact Nat.not_le_of_lt ((hexact.short_iff _).mpr hall i hi bp hmem) hfit
    · exact ⟨bp, i, mmMalloc_fit hzero hfind hbp, hi, hmem, hfit, hbefore⟩

/-- In every state that a run reaches, `mm_malloc` calls `extend_heap` if and only if no
free block is large enough, and otherwise takes one from the lowest list that has one. -/
theorem search_complete (m : Mem) (base : Nat) (hbase : base + arena ≤ 2 ^ 32) (ops : List Op)
    (hops : Along step Addressable ((mmInit (memInit m base)).2, []) ops) (size : Nat)
    (hpos : 0 < size) (hsize : size < 2 ^ 31 - 16) :
    ∃ s live bps ls, run step ((mmInit (memInit m base)).2, []) ops = some (s, live) ∧
      Exact s bps ls ∧ Searched s size bps ls := by
  obtain ⟨s₀, bs₀, ls₀, hinit, hinv₀, -⟩ := mmInit_inv m hbase
  rw [hinit] at hops ⊢
  obtain ⟨⟨s, live⟩, hrun, bs, ls, hinv⟩ := run_invariant step_good ops ⟨bs₀, ls₀, hinv₀⟩ hops
  exact ⟨s, live, _, ls, hrun, hinv.exact, mmMalloc_searched hinv hinv.exact hpos hsize⟩

/-- A request of 32 bytes needs 40: the free block of 32 is a class below. -/
theorem search_complete_classes :
    ∃ s live bps ls, run step ((mmInit (memInit (fun _ => 0) 4096)).2, [])
        [.malloc 24, .malloc 24, .malloc 128, .free 4112] = some (s, live) ∧
      Exact s bps ls ∧ Searched s 32 bps ls :=
  search_complete (fun _ => 0) 4096 (by decide)
    [.malloc 24, .malloc 24, .malloc 128, .free 4112] (by decide +kernel) 32 (by decide) (by decide)

end CKernel.Malloc.Flsp
