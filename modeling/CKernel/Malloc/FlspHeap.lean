/-
# `CKernel.Malloc.FlspHeap` — the free lists of the segregated-fit allocator

The invariant is a list of blocks, as for the implicit list, and for every class a
list of nodes.  While a call is under way some blocks in the middle are in no list:
`Hole s pre mid post ls` says that the lists `ls` hold exactly the free blocks of
`pre` and of `post`.  Each piece of the code moves the borders of the hole.

    `delete_node` takes a block into the hole                 (`Hole.delete`)
    new tags inside the hole leave the lists alone            (`Hole.retag`)
    `insert_node` takes a block out of the hole               (`Hole.insert`)
    `coalesce` closes it over the merged block                (`coalesce_ok`)
    every run leaves the heap tiled and the lists exact       (`free_lists_exact`)
-/
import CKernel.Lib.Run
import CKernel.Malloc.Flsp
import CKernel.Malloc.PtmallocHeap

namespace CKernel.Malloc.Flsp

open Run
open Links (DList Frame Apart)
open Ptmalloc (Separated Lay livePtrs prologue toInt)

variable {m m' : Mem} {a off off' : Nat} {b b' p n : Block} {bs pre mid post : List Block}

/-! ## Positions -/

/-- `b` stands `off` bytes into the layout. -/
def At (bs : List Block) (off : Nat) (b : Block) : Prop :=
  ∃ pre post, bs = pre ++ b :: post ∧ off = total pre

theorem at_mid : At (pre ++ b :: post) (total pre) b := ⟨pre, post, rfl, rfl⟩

theorem At.mem (h : At bs off b) : b ∈ bs := by
  obtain ⟨pre, post, rfl, -⟩ := h
  exact List.mem_append_right _ List.mem_cons_self

theorem At.le (h : At bs off b) : off + b.size ≤ total bs := by
  obtain ⟨pre, post, rfl, rfl⟩ := h
  rw [total_append, total_cons]
  omega

theorem At.left (h : At pre off b) : At (pre ++ post) off b := by
  obtain ⟨pre, rest, rfl, rfl⟩ := h
  exact ⟨pre, rest ++ post, by simp, rfl⟩

theorem At.right (h : At post off b) : At (pre ++ post) (total pre + off) b := by
  obtain ⟨front, rest, rfl, rfl⟩ := h
  exact ⟨pre ++ front, rest, by simp, by simp⟩

theorem At.cons (h : At bs off b) : At (p :: bs) (p.size + off) b := by
  obtain ⟨pre, post, rfl, rfl⟩ := h
  exact ⟨p :: pre, post, rfl, rfl⟩

/-- Two blocks of a layout are the same one or stand apart. -/
theorem At.cases (h : At bs off b) (h' : At bs off' b') :
    (off = off' ∧ b = b') ∨ off + b.size ≤ off' ∨ off' + b'.size ≤ off := by
  obtain ⟨pre, post, rfl, rfl⟩ := h
  obtain ⟨pre', post', heq, rfl⟩ := h'
  rcases List.append_eq_append_iff.mp heq with ⟨l, rfl, hl⟩ | ⟨l, rfl, hl⟩
  · cases l with
    | nil =>
        obtain ⟨rfl, -⟩ := List.cons.inj hl
        exact .inl ⟨by simp, rfl⟩
    | cons c l =>
        obtain ⟨rfl, -⟩ := List.cons.inj hl
        refine .inr (.inl ?_)
        rw [total_append, total_cons]
        omega
  · cases l with
    | nil =>
        obtain ⟨rfl, -⟩ := List.cons.inj hl
        exact .inl ⟨by simp, rfl⟩
    | cons c l =>
        obtain ⟨rfl, -⟩ := List.cons.inj hl
        refine .inr (.inr ?_)
        rw [total_append, total_cons]
        omega

theorem At.tagged (h : At bs off b) (hlaid : Laid m a bs) : Tagged m (a + off) b := by
  obtain ⟨pre, post, rfl, rfl⟩ := h
  exact (laid_append.mp hlaid).2.1

theorem laid_of_at (h : ∀ off b, At bs off b → Tagged m (a + off) b) : Laid m a bs := by
  induction bs generalizing a with
  | nil => trivial
  | cons b bs ih =>
      refine ⟨h 0 b ⟨[], bs, rfl, rfl⟩, ih fun off c hc => ?_⟩
      have htag := h (b.size + off) c hc.cons
      rwa [← Nat.add_assoc] at htag

/-- Links are inside the payload, away from every tag. -/
theorem Lay.links {ps : List Nat} (hlay : Lay m a bs) (hframe : Frame m m' ps)
    (hps : ∀ x ∈ ps, ∃ off b, At bs off b ∧ 16 ≤ b.size ∧ x = a + off + 4) : Lay m' a bs := by
  refine ⟨laid_of_at fun off b hb => ?_, ?_⟩
  · have htag := hb.tagged hlay.laid
    have hle := htag.ok.le
    refine ⟨htag.ok, (hframe (a + off) fun x hx => ?_).trans htag.hdr,
      (hframe (a + off + b.size - 4) fun x hx => ?_).trans htag.ftr⟩
    · obtain ⟨off', b', hb', hsize, rfl⟩ := hps x hx
      rcases hb.cases hb' with ⟨rfl, -⟩ | hlow | hhigh
      · omega
      · omega
      · omega
    · obtain ⟨off', b', hb', hsize, rfl⟩ := hps x hx
      rcases hb.cases hb' with ⟨rfl, rfl⟩ | hlow | hhigh
      · omega
      · omega
      · omega
  · refine (hframe (a + total bs) fun x hx => ?_).trans hlay.epi
    obtain ⟨off, b, hb, hsize, rfl⟩ := hps x hx
    have hle := hb.le
    omega

/-! ## Free blocks of one class -/

/-- The pointers to the free blocks of class `i`. -/
def freePtrs (i : Nat) : Nat → List Block → List Nat
  | _, [] => []
  | a, b :: bs =>
      if b.alloc = false ∧ getIndex b.size = i then (a + 4) :: freePtrs i (a + b.size) bs
      else freePtrs i (a + b.size) bs

theorem freePtrs_append (i a : Nat) (bs bs' : List Block) :
    freePtrs i a (bs ++ bs') = freePtrs i a bs ++ freePtrs i (a + total bs) bs' := by
  induction bs generalizing a with
  | nil => rfl
  | cons b bs ih =>
      rw [List.cons_append, freePtrs, freePtrs, ih, total_cons, Nat.add_assoc]
      split
      · rfl
      · rfl

theorem freePtrs_alloc {i : Nat} (h : ∀ b ∈ bs, b.alloc = true) (a : Nat) :
    freePtrs i a bs = [] := by
  induction bs generalizing a with
  | nil => rfl
  | cons b bs ih =>
      rw [freePtrs, h b List.mem_cons_self, if_neg (by simp)]
      exact ih (fun x hx => h x (List.mem_cons_of_mem _ hx)) _

theorem freePtrs_free (hb : b.alloc = false) (i a : Nat) :
    freePtrs i a [b] = if getIndex b.size = i then [a + 4] else [] := by
  rw [freePtrs]
  simp only [hb, true_and]
  rfl

theorem mem_freePtrs {i q : Nat} : q ∈ freePtrs i a bs ↔
    ∃ off b, At bs off b ∧ b.alloc = false ∧ getIndex b.size = i ∧ q = a + off + 4 := by
  induction bs generalizing a with
  | nil =>
      refine ⟨fun h => absurd h List.not_mem_nil, ?_⟩
      rintro ⟨off, b, hb, -⟩
      cases hb.mem
  | cons b bs ih =>
      constructor
      · intro h
        have hrest : q ∈ freePtrs i (a + b.size) bs → ∃ off c, At (b :: bs) off c ∧
            c.alloc = false ∧ getIndex c.size = i ∧ q = a + off + 4 := by
          intro hq
          obtain ⟨off, c, hc, hfree, hi, rfl⟩ := ih.mp hq
          exact ⟨b.size + off, c, hc.cons, hfree, hi, by omega⟩
        rw [freePtrs] at h
        split at h
        case isTrue hfree =>
          rcases List.mem_cons.mp h with rfl | h
          · exact ⟨0, b, ⟨[], bs, rfl, rfl⟩, hfree.1, hfree.2, rfl⟩
          · exact hrest h
        case isFalse => exact hrest h
      · rintro ⟨off, c, ⟨pre, post, heq, rfl⟩, hfree, hi, rfl⟩
        cases pre with
        | nil =>
            obtain ⟨rfl, rfl⟩ := List.cons.inj heq
            rw [freePtrs, if_pos ⟨hfree, hi⟩]
            exact List.mem_cons_self
        | cons d pre =>
            obtain ⟨rfl, rfl⟩ := List.cons.inj heq
            have hq : a + total (b :: pre) + 4 ∈ freePtrs i (a + b.size) (pre ++ c :: post) :=
              ih.mpr ⟨total pre, c, at_mid, hfree, hi, by rw [total_cons]; omega⟩
            rw [freePtrs]
            split
            · exact List.mem_cons_of_mem _ hq
            · exact hq

theorem freePtrs_pairwise {i : Nat} (hsize : ∀ b ∈ bs, b.alloc = false → 16 ≤ b.size) :
    (freePtrs i a bs).Pairwise fun x y => x + 8 ≤ y := by
  induction bs generalizing a with
  | nil => exact List.Pairwise.nil
  | cons b bs ih =>
      have hrest := ih (a := a + b.size) fun c hc => hsize c (List.mem_cons_of_mem _ hc)
      rw [freePtrs]
      split
      case isTrue hfree =>
        refine List.pairwise_cons.mpr ⟨fun y hy => ?_, hrest⟩
        obtain ⟨off, c, -, -, -, rfl⟩ := mem_freePtrs.mp hy
        have hb := hsize b List.mem_cons_self hfree.1
        omega
      case isFalse => exact hrest

theorem length_freePtrs {i : Nat} : (freePtrs i a bs).length ≤ bs.length := by
  induction bs generalizing a with
  | nil => exact Nat.le_refl 0
  | cons b bs ih =>
      rw [freePtrs, List.length_cons]
      split
      · exact Nat.succ_le_succ ih
      · exact Nat.le_succ_of_le ih

theorem getIndex_lt (size : Nat) : getIndex size < seglistCount := by
  rw [getIndex]
  cases hfind : (List.range (seglistCount - 1)).find? fun i => size ≤ 32 <<< i with
  | none => exact Nat.lt_add_one 14
  | some i =>
      have hi := List.mem_range.mp (List.mem_of_find?_eq_some hfind)
      exact Nat.lt_trans hi (Nat.lt_add_one 14)

/-! ## The hole -/

/-- The free blocks of class `i` before and behind the hole. -/
def outer (i a : Nat) (pre mid post : List Block) : List Nat :=
  freePtrs i a pre ++ freePtrs i (a + total pre + total mid) post

/-- The lists `ls` hold exactly the free blocks outside `mid`. -/
structure Hole (s : State) (pre mid post : List Block) (ls : Nat → List Nat) : Prop where
  lay : Lay s.mem (s.heap + 4) (pre ++ (mid ++ post))
  room : s.heap + 8 + total (pre ++ (mid ++ post)) ≤ 2 ^ 32
  size : ∀ b ∈ pre ++ (mid ++ post), b.alloc = false → 16 ≤ b.size
  linked : ∀ i < seglistCount, DList s.mem (s.freeLists i) (ls i)
  listed : ∀ i < seglistCount, (ls i).Perm (outer i (s.heap + 4) pre mid post)

variable {s : State} {ls : Nat → List Nat} {i j x y : Nat}

/-- A node is a free block outside the hole. -/
theorem Hole.node (h : Hole s pre mid post ls) (hi : i < seglistCount) (hx : x ∈ ls i) :
    ∃ off b, At (pre ++ (mid ++ post)) off b ∧ b.alloc = false ∧ getIndex b.size = i ∧
      16 ≤ b.size ∧ x = s.heap + 4 + off + 4 ∧
      (off + b.size ≤ total pre ∨ total pre + total mid ≤ off) := by
  rcases List.mem_append.mp ((h.listed i hi).mem_iff.mp hx) with hx | hx
  · obtain ⟨off, b, hb, hfree, hclass, rfl⟩ := mem_freePtrs.mp hx
    have hat : At (pre ++ (mid ++ post)) off b := hb.left
    exact ⟨off, b, hat, hfree, hclass, h.size b hat.mem hfree, rfl, .inl hb.le⟩
  · obtain ⟨off, b, hb, hfree, hclass, rfl⟩ := mem_freePtrs.mp hx
    have hat : At (pre ++ (mid ++ post)) (total pre + (total mid + off)) b := hb.right.right
    exact ⟨_, b, hat, hfree, hclass, h.size b hat.mem hfree, by omega, .inr (by omega)⟩

theorem Hole.node_lt (h : Hole s pre mid post ls) (hi : i < seglistCount) (hx : x ∈ ls i) :
    x < 2 ^ 32 := by
  obtain ⟨off, b, hb, -, -, hsize, rfl, -⟩ := h.node hi hx
  have hle := hb.le
  have hroom := h.room
  omega

theorem Hole.pairwise (h : Hole s pre mid post ls) (hi : i < seglistCount) :
    (ls i).Pairwise Apart := by
  refine (h.listed i hi).symm.pairwise ?_ fun hxy => hxy.symm
  have hsorted : (outer i (s.heap + 4) pre mid post).Pairwise fun x y => x + 8 ≤ y := by
    refine List.pairwise_append.mpr ⟨freePtrs_pairwise ?_, freePtrs_pairwise ?_, ?_⟩
    · exact fun b hb => h.size b (List.mem_append_left _ hb)
    · exact fun b hb => h.size b (List.mem_append_right _ (List.mem_append_right _ hb))
    · intro x hx y hy
      obtain ⟨off, b, hb, hfree, -, rfl⟩ := mem_freePtrs.mp hx
      obtain ⟨off', b', -, -, -, rfl⟩ := mem_freePtrs.mp hy
      have hle := hb.le
      have hsize := h.size b (List.mem_append_left _ hb.mem) hfree
      omega
  exact hsorted.imp fun hxy => .inl hxy

/-- Nodes of different lists stand apart. -/
theorem Hole.apart (h : Hole s pre mid post ls) (hi : i < seglistCount) (hj : j < seglistCount)
    (hij : i ≠ j) (hx : x ∈ ls i) (hy : y ∈ ls j) : Apart x y := by
  obtain ⟨off, b, hb, -, rfl, hsize, rfl, -⟩ := h.node hi hx
  obtain ⟨off', b', hb', -, rfl, hsize', rfl, -⟩ := h.node hj hy
  rcases hb.cases hb' with ⟨-, rfl⟩ | hle | hle
  · exact absurd rfl hij
  · exact .inl (by omega)
  · exact .inr (by omega)

/-- New tags inside the hole. -/
theorem Hole.retag {mid' : List Block} (h : Hole s pre mid post ls)
    (hoff : Mem.EqOff s.mem m' (s.heap + 4 + total pre) (s.heap + 4 + total pre + total mid))
    (hlaid : Laid m' (s.heap + 4 + total pre) mid') (htotal : total mid' = total mid)
    (hsize : ∀ b ∈ mid', b.alloc = false → 16 ≤ b.size) :
    Hole { s with mem := m' } pre mid' post ls := by
  refine ⟨h.lay.replace hoff hlaid htotal, ?_, fun b hb hfree => ?_, fun i hi => ?_,
    fun i hi => ?_⟩
  · have hroom := h.room
    simp only [total_append, htotal] at hroom ⊢
    exact hroom
  · rcases List.mem_append.mp hb with hb | hb
    · exact h.size b (List.mem_append_left _ hb) hfree
    · rcases List.mem_append.mp hb with hb | hb
      · exact hsize b hb hfree
      · exact h.size b (List.mem_append_right _ (List.mem_append_right _ hb)) hfree
  · refine (h.linked i hi).congr fun x hx => ?_
    obtain ⟨off, b, hb, -, -, hbsize, rfl, hout⟩ := h.node hi hx
    exact ⟨hoff.load (by omega), hoff.load (by omega)⟩
  · have hlisted := h.listed i hi
    rwa [outer, ← htotal] at hlisted

/-! ## `delete_node` and `insert_node` -/

theorem deleteNode_eq (s : State) (bp : Nat) :
    deleteNode s bp = { s with
      mem := Links.unlink s.mem bp
      freeLists := if getPred s.mem bp ≠ 0 then s.freeLists
        else Function.update s.freeLists (getIndex (getSize s.mem (hdrp bp)))
          (getSucc s.mem bp) } := by
  rw [deleteNode, Links.unlink]
  by_cases hpred : getPred s.mem bp ≠ 0
  · simp only [if_pos hpred]
    split
    · rfl
    · rfl
  · simp only [if_neg hpred]
    split
    · rfl
    · rfl

theorem insertNode_eq (s : State) (bp size : Nat) :
    insertNode s bp size = { s with
      mem := Links.push s.mem (s.freeLists (getIndex size)) bp
      freeLists := Function.update s.freeLists (getIndex size) bp } := rfl

/-- The borders of the hole move so that `x` is inside. -/
theorem Hole.delete {pre' mid' post' : List Block} (h : Hole s pre mid post ls)
    (hsame : pre' ++ (mid' ++ post') = pre ++ (mid ++ post)) (hi : i < seglistCount)
    (hidx : getIndex (getSize s.mem (hdrp x)) = i)
    (hout : (outer i (s.heap + 4) pre mid post).Perm
      (x :: outer i (s.heap + 4) pre' mid' post'))
    (hother : ∀ j, j ≠ i →
      outer j (s.heap + 4) pre mid post = outer j (s.heap + 4) pre' mid' post') :
    ∃ ls', Hole (deleteNode s x) pre' mid' post' ls' := by
  have hlisted := h.listed i hi
  obtain ⟨l₁, l₂, hsplit⟩ := List.append_of_mem
    ((hlisted.trans hout).mem_iff.mpr List.mem_cons_self)
  have hmem : ∀ y ∈ l₁ ++ l₂, y ∈ ls i := by
    intro y hy
    rw [hsplit]
    rcases List.mem_append.mp hy with hy | hy
    · exact List.mem_append_left _ hy
    · exact List.mem_append_right _ (List.mem_cons_of_mem _ hy)
  have hlinked := h.linked i hi
  have hpair := h.pairwise hi
  have hlt : ∀ y ∈ ls i, y < 2 ^ 32 := fun y hy => h.node_lt hi hy
  rw [hsplit] at hlinked hpair hlt
  obtain ⟨hunlinked, hframe⟩ := hlinked.unlink hpair hlt
  rw [deleteNode_eq, hidx]
  refine ⟨Function.update ls i (l₁ ++ l₂), ?_, ?_, ?_, fun j hj => ?_, fun j hj => ?_⟩
  · rw [hsame]
    dsimp only
    refine Lay.links h.lay hframe fun y hy => ?_
    obtain ⟨off, b, hb, -, -, hsize, hy, -⟩ := h.node hi (hmem y hy)
    exact ⟨off, b, hb, hsize, hy⟩
  · rw [hsame]
    exact h.room
  · rw [hsame]
    exact h.size
  · dsimp only
    by_cases hji : j = i
    · subst hji
      rw [Function.update_self]
      split at hunlinked
      case isTrue hpred =>
        rw [if_pos hpred]
        exact hunlinked
      case isFalse hpred =>
        rw [if_neg hpred, Function.update_self]
        exact hunlinked
    · have hhead : (if getPred s.mem x ≠ 0 then s.freeLists
          else Function.update s.freeLists i (getSucc s.mem x)) j = s.freeLists j := by
        split
        · rfl
        · exact Function.update_of_ne hji _ _
      rw [hhead, Function.update_of_ne hji]
      exact (h.linked j hj).frame hframe fun y hy z hz => h.apart hj hi hji hy (hmem z hz)
  · by_cases hji : j = i
    · subst hji
      rw [Function.update_self]
      rw [hsplit] at hlisted
      exact ((List.perm_middle.symm.trans hlisted).trans hout).cons_inv
    · rw [Function.update_of_ne hji]
      exact hother j hji ▸ h.listed j hj

/-- The borders of the hole move so that `x` is outside. -/
theorem Hole.insert {pre' mid' post' : List Block} (h : Hole s pre mid post ls)
    (hsame : pre' ++ (mid' ++ post') = pre ++ (mid ++ post))
    (hb : At (pre ++ (mid ++ post)) off b) (hfree : b.alloc = false)
    (hin : total pre ≤ off ∧ off + b.size ≤ total pre + total mid) (hx : x = s.heap + 4 + off + 4)
    (hout : (outer (getIndex b.size) (s.heap + 4) pre' mid' post').Perm
      (x :: outer (getIndex b.size) (s.heap + 4) pre mid post))
    (hother : ∀ j, j ≠ getIndex b.size →
      outer j (s.heap + 4) pre mid post = outer j (s.heap + 4) pre' mid' post') :
    ∃ ls', Hole (insertNode s x b.size) pre' mid' post' ls' := by
  have hi := getIndex_lt b.size
  have hsize := h.size b hb.mem hfree
  have hapart : ∀ j < seglistCount, ∀ y ∈ ls j, Apart x y := by
    intro j hj y hy
    obtain ⟨off', b', hb', -, -, hsize', rfl, hout'⟩ := h.node hj hy
    rcases hout' with hout' | hout'
    · exact .inr (by omega)
    · exact .inl (by omega)
  have hxlt : x < 2 ^ 32 := by
    have hle := hb.le
    have hroom := h.room
    omega
  obtain ⟨hpushed, hframe⟩ := (h.linked _ hi).push (p := x) (by omega) hxlt (h.pairwise hi)
    (fun y hy => h.node_lt hi hy) (hapart _ hi)
  rw [insertNode_eq]
  refine ⟨Function.update ls (getIndex b.size) (x :: ls (getIndex b.size)), ?_, ?_, ?_,
    fun j hj => ?_, fun j hj => ?_⟩
  · rw [hsame]
    dsimp only
    refine Lay.links h.lay hframe fun y hy => ?_
    rcases List.mem_cons.mp hy with rfl | hy
    · exact ⟨off, b, hb, hsize, hx⟩
    · obtain ⟨off', b', hb', -, -, hsize', hy', -⟩ := h.node hi hy
      exact ⟨off', b', hb', hsize', hy'⟩
  · rw [hsame]
    exact h.room
  · rw [hsame]
    exact h.size
  · dsimp only
    by_cases hji : j = getIndex b.size
    · rw [hji, Function.update_self, Function.update_self]
      exact hpushed
    · rw [Function.update_of_ne hji, Function.update_of_ne hji]
      refine (h.linked j hj).frame hframe fun y hy z hz => ?_
      rcases List.mem_cons.mp hz with rfl | hz
      · exact (hapart j hj y hy).symm
      · exact h.apart hj hi hji hy hz
  · by_cases hji : j = getIndex b.size
    · rw [hji, Function.update_self]
      exact ((h.listed _ hi).cons x).trans hout.symm
    · rw [Function.update_of_ne hji]
      exact hother j hji ▸ h.listed j hj

/-! ## Moving the borders -/

theorem Hole.move {pre' mid' post' : List Block} (h : Hole s pre mid post ls)
    (hsame : pre' ++ (mid' ++ post') = pre ++ (mid ++ post))
    (hout : ∀ j, outer j (s.heap + 4) pre mid post = outer j (s.heap + 4) pre' mid' post') :
    Hole s pre' mid' post' ls := by
  refine ⟨?_, ?_, ?_, h.linked, fun i hi => ?_⟩
  · rw [hsame]
    exact h.lay
  · rw [hsame]
    exact h.room
  · rw [hsame]
    exact h.size
  · rw [← hout i]
    exact h.listed i hi

/-- No hole: the free blocks are all in the lists. -/
theorem Hole.closed (h : Hole s pre [] post ls) : Hole s (pre ++ post) [] [] ls := by
  refine h.move (by simp) fun j => ?_
  simp only [outer, freePtrs_append, total_nil, Nat.add_zero, freePtrs, List.append_nil]

theorem Hole.opened (h : Hole s (pre ++ post) [] [] ls) : Hole s pre [] post ls := by
  refine h.move (by simp) fun j => ?_
  simp only [outer, freePtrs_append, total_nil, Nat.add_zero, freePtrs, List.append_nil]

/-- An allocated block is in no list, on either side of the border. -/
theorem Hole.shrink (h : Hole s pre (b :: mid) post ls) (hb : b.alloc = true) :
    Hole s (pre ++ [b]) mid post ls := by
  refine h.move (by simp) fun j => ?_
  have hnone : freePtrs j (s.heap + 4 + total pre) [b] = [] :=
    freePtrs_alloc (by simpa using hb) _
  rw [outer, outer, freePtrs_append, hnone, List.append_nil]
  simp only [total_append, total_cons, total_nil, Nat.add_assoc, Nat.add_zero]

theorem Hole.widen (h : Hole s pre [] (b :: post) ls) (hb : b.alloc = true) :
    Hole s pre [b] post ls := by
  refine h.move (by simp) fun j => ?_
  have hnone : freePtrs j (s.heap + 4 + total pre) [b] = [] :=
    freePtrs_alloc (by simpa using hb) _
  have hsplit : freePtrs j (s.heap + 4 + total pre) (b :: post) =
      freePtrs j (s.heap + 4 + total pre) [b] ++ freePtrs j (s.heap + 4 + total pre + b.size) post :=
    freePtrs_append j _ [b] post
  simp only [outer, total_nil, total_cons, Nat.add_zero, hsplit, hnone, List.nil_append]

/-- The block in front of the hole falls into it. -/
theorem Hole.takePrev (h : Hole s (pre ++ [p]) mid post ls) (hp : p.alloc = false) :
    ∃ ls', Hole (deleteNode s (s.heap + 4 + total pre + 4)) pre (p :: mid) post ls' := by
  have hat : At (pre ++ [p] ++ (mid ++ post)) (total pre) p := ⟨pre, mid ++ post, by simp, rfl⟩
  have hout : ∀ j, outer j (s.heap + 4) (pre ++ [p]) mid post =
      freePtrs j (s.heap + 4) pre ++
        ((if getIndex p.size = j then [s.heap + 4 + total pre + 4] else []) ++
          freePtrs j (s.heap + 4 + total pre + total (p :: mid)) post) := by
    intro j
    rw [outer, freePtrs_append, freePtrs_free hp, List.append_assoc]
    simp only [total_append, total_cons, total_nil, Nat.add_zero, Nat.add_assoc]
  refine h.delete (by simp) (getIndex_lt p.size) ?_ ?_ fun j hj => ?_
  · rw [(hat.tagged h.lay.laid).getSize_hdr]
  · rw [hout, if_pos rfl, outer]
    exact List.perm_middle
  · rw [hout, if_neg (Ne.symm hj), List.nil_append, outer]

/-- The block behind the hole falls into it. -/
theorem Hole.takeNext (h : Hole s pre mid (n :: post) ls) (hn : n.alloc = false) :
    ∃ ls', Hole (deleteNode s (s.heap + 4 + total pre + total mid + 4)) pre (mid ++ [n]) post
      ls' := by
  have hat : At (pre ++ (mid ++ n :: post)) (total pre + total mid) n :=
    ⟨pre ++ mid, post, by simp, by simp⟩
  have htag := hat.tagged h.lay.laid
  rw [← Nat.add_assoc] at htag
  have hout : ∀ j, outer j (s.heap + 4) pre mid (n :: post) =
      freePtrs j (s.heap + 4) pre ++
        ((if getIndex n.size = j then [s.heap + 4 + total pre + total mid + 4] else []) ++
          freePtrs j (s.heap + 4 + total pre + total (mid ++ [n])) post) := by
    intro j
    have hsplit := freePtrs_append j (s.heap + 4 + total pre + total mid) [n] post
    rw [freePtrs_free hn, List.singleton_append] at hsplit
    rw [outer, hsplit]
    simp only [total_append, total_cons, total_nil, Nat.add_zero, Nat.add_assoc]
  refine h.delete (by simp) (getIndex_lt n.size) ?_ ?_ fun j hj => ?_
  · rw [htag.getSize_hdr]
  · rw [hout, if_pos rfl, outer]
    exact List.perm_middle
  · rw [hout, if_neg (Ne.symm hj), List.nil_append, outer]

/-- The only block of the hole is put into its list. -/
theorem Hole.fill (h : Hole s pre [b] post ls) (hb : b.alloc = false) :
    ∃ ls', Hole (insertNode s (s.heap + 4 + total pre + 4) b.size) (pre ++ b :: post) [] [] ls' := by
  have hout : ∀ j, outer j (s.heap + 4) (pre ++ b :: post) [] [] =
      freePtrs j (s.heap + 4) pre ++
        ((if getIndex b.size = j then [s.heap + 4 + total pre + 4] else []) ++
          freePtrs j (s.heap + 4 + total pre + total [b]) post) := by
    intro j
    have hsplit := freePtrs_append j (s.heap + 4 + total pre) [b] post
    rw [freePtrs_free hb, List.singleton_append] at hsplit
    rw [outer, freePtrs_append, hsplit, freePtrs, List.append_nil]
  refine h.insert (by simp) at_mid hb ⟨Nat.le_refl _, ?_⟩ rfl ?_ fun j hj => ?_
  · simp
  · rw [hout, if_pos rfl, outer]
    exact List.perm_middle
  · rw [hout, if_neg (Ne.symm hj), List.nil_append, outer]

/-! ## `coalesce` -/

/-- The variables that the lists and the tags leave alone. -/
structure Same (s s' : State) : Prop where
  heap : s'.heap = s.heap
  brk : s'.brk = s.brk
  listp : s'.listp = s.listp

theorem Same.refl (s : State) : Same s s := ⟨rfl, rfl, rfl⟩

theorem Same.trans {s s' s'' : State} (h : Same s s') (h' : Same s' s'') : Same s s'' :=
  ⟨h'.heap.trans h.heap, h'.brk.trans h.brk, h'.listp.trans h.listp⟩

theorem same_deleteNode (s : State) (bp : Nat) : Same s (deleteNode s bp) := by
  rw [deleteNode_eq]
  exact ⟨rfl, rfl, rfl⟩

theorem same_insertNode (s : State) (bp size : Nat) : Same s (insertNode s bp size) :=
  ⟨rfl, rfl, rfl⟩

theorem same_putTags (s : State) (bp val : Nat) : Same s (putTags s bp val) := ⟨rfl, rfl, rfl⟩

theorem Hole.blockOk (h : Hole s pre mid post ls) : ∀ x ∈ pre ++ (mid ++ post), x.Ok := by
  intro x hx
  obtain ⟨l₁, l₂, heq⟩ := List.append_of_mem hx
  exact (At.tagged ⟨l₁, l₂, heq, rfl⟩ h.lay.laid).ok

theorem Hole.tagged (h : Hole s pre mid post ls) (hb : At (pre ++ (mid ++ post)) off b) :
    Tagged s.mem (s.heap + 4 + off) b :=
  hb.tagged h.lay.laid

/-- The hole becomes one block. -/
theorem Hole.tag (h : Hole s pre mid post ls) (hb : b.Ok) (htotal : b.size = total mid)
    (hsize : b.alloc = false → 16 ≤ b.size) :
    Hole (putTags s (s.heap + 4 + total pre + 4) b.tag) pre [b] post ls := by
  obtain ⟨htag, hoff⟩ := setTags_ok (m := s.mem) (a := s.heap + 4 + total pre) hb
  rw [htotal] at hoff
  refine h.retag hoff ⟨htag, trivial⟩ (by simpa using htotal) ?_
  intro x hx
  rw [List.mem_singleton.mp hx]
  exact hsize

theorem Hole.merge (h : Hole s pre mid post ls) (hne : mid ≠ []) (hsize : 16 ≤ total mid) :
    Hole (putTags s (s.heap + 4 + total pre + 4) (pack (total mid) 0)) pre [⟨total mid, false⟩]
      post ls := by
  have hok : Block.Ok ⟨total mid, false⟩ := by
    refine Ptmalloc.run_ok (fun x hx => h.blockOk x ?_) hne ?_
    · exact List.mem_append_right _ (List.mem_append_left _ hx)
    · have hroom := h.room
      simp only [total_append] at hroom
      omega
  have htag : Block.tag ⟨total mid, false⟩ = pack (total mid) 0 := rfl
  rw [← htag]
  exact h.tag hok rfl fun _ => hsize

theorem mergePrev_ok (h : Hole s (pre ++ [p]) [b] post ls) (hp : p.alloc = false) :
    ∃ s' ls', mergePrev s (s.heap + 4 + total pre + p.size + 4) b.size =
        (s', s.heap + 4 + total pre + 4, total [p, b]) ∧
      Hole s' pre [⟨total [p, b], false⟩] post ls' ∧ Same s s' := by
  have hat : At (pre ++ [p] ++ ([b] ++ post)) (total pre) p := ⟨pre, b :: post, by simp, rfl⟩
  have hprev := (h.tagged hat).prevBlkp_eq
  obtain ⟨ls₁, h₁⟩ := h.takePrev hp
  have hsame := same_deleteNode s (s.heap + 4 + total pre + 4)
  have htag₁ := h₁.tagged at_mid
  have hsize : 16 ≤ p.size := h.size p hat.mem hp
  have hroom := h.room
  simp only [total_append, total_cons, total_nil] at hroom
  have hadd : Word.add 32 b.size p.size = total [p, b] := by
    rw [Word.add_eq (by omega)]
    simp only [total_cons, total_nil]
    omega
  have hmerged := h₁.merge (List.cons_ne_nil _ _) (by simp only [total_cons]; omega)
  rw [hsame.heap] at htag₁ hmerged
  refine ⟨_, ls₁, ?_, hmerged, hsame.trans (same_putTags _ _ _)⟩
  rw [mergePrev, hprev]
  simp only [htag₁.prevBlkp_eq, htag₁.getSize_hdr, hadd]

theorem mergeNext_ok (h : Hole s pre [b] (n :: post) ls) (hn : n.alloc = false) :
    ∃ s' ls', mergeNext s (s.heap + 4 + total pre + 4) b.size = (s', total [b, n]) ∧
      Hole s' pre [⟨total [b, n], false⟩] post ls' ∧ Same s s' := by
  have hat : At (pre ++ ([b] ++ n :: post)) (total pre + total [b]) n :=
    ⟨pre ++ [b], post, by simp, by simp⟩
  have hnext : nextBlkp s.mem (s.heap + 4 + total pre + 4) =
      s.heap + 4 + total pre + total [b] + 4 := (h.tagged at_mid).nextBlkp_eq
  obtain ⟨ls₁, h₁⟩ := h.takeNext hn
  have hsame := same_deleteNode s (s.heap + 4 + total pre + total [b] + 4)
  have htag₁ := h₁.tagged (show At (pre ++ ([b] ++ [n] ++ post)) (total pre) b from at_mid)
  have hntag₁ := h₁.tagged (show At (pre ++ ([b] ++ [n] ++ post)) (total pre + total [b]) n from
    ⟨pre ++ [b], post, by simp, by simp⟩)
  have hsize : 16 ≤ n.size := h.size n hat.mem hn
  have hroom := h.room
  simp only [total_append, total_cons, total_nil] at hroom
  have hadd : Word.add 32 b.size n.size = total [b, n] := by
    rw [Word.add_eq (by omega)]
    simp only [total_cons, total_nil]
    omega
  have hmerged := h₁.merge (List.append_ne_nil_of_right_ne_nil _ (List.cons_ne_nil _ _))
    (by simp only [total_append, total_cons]; omega)
  rw [hsame.heap] at htag₁ hntag₁ hmerged
  refine ⟨_, ls₁, ?_, hmerged, hsame.trans (same_putTags _ _ _)⟩
  have hnext₁ : nextBlkp (deleteNode s (s.heap + 4 + total pre + total [b] + 4)).mem
      (s.heap + 4 + total pre + 4) = s.heap + 4 + (total pre + total [b]) + 4 := by
    rw [htag₁.nextBlkp_eq, total_cons, total_nil]
    omega
  rw [mergeNext, hnext]
  simp only [hnext₁, hntag₁.getSize_hdr, hadd]
  rfl

/-- What stands before the hole is merged into it, if it is free. -/
theorem front_ok (h : Hole s (pre ++ [p]) [b] post ls) (hb : b.alloc = false)
    (hleft : Separated (pre ++ [p])) :
    ∃ s' pre' run ls',
      (if p.alloc.toNat = 0 then mergePrev s (s.heap + 4 + total pre + p.size + 4) b.size
        else (s, s.heap + 4 + total pre + p.size + 4, b.size)) =
        (s', s.heap + 4 + total pre' + 4, total run) ∧
      Hole s' pre' [⟨total run, false⟩] post ls' ∧ Same s s' ∧ pre ++ [p, b] = pre' ++ run ∧
      (∀ x ∈ run, x.alloc = false) ∧ b.size ≤ total run ∧ Separated pre' ∧
      ∀ x ∈ pre'.getLast?, x.alloc = true := by
  cases hp : p.alloc with
  | false =>
      obtain ⟨s', ls', hmerge, hole, hsame⟩ := mergePrev_ok h hp
      exact ⟨s', pre, [p, b], ls', hmerge, hole, hsame, rfl, by simp [hp, hb], by simp,
        (List.isChain_append.mp hleft).1, hleft.last_of_free hp⟩
  | true =>
      have hself : (⟨total [b], false⟩ : Block) = b := by
        cases b
        simp only [total_cons, total_nil, Nat.add_zero]
        rw [← hb]
      refine ⟨s, pre ++ [p], [b], ls, ?_, hself ▸ h, Same.refl s, by simp, by simp [hb], by simp,
        hleft, by simp [hp]⟩
      rw [if_neg (by decide), total_append, total_cons, total_nil, Nat.add_zero, ← Nat.add_assoc]
      rfl

/-- What stands behind the hole is merged into it, if it is free. -/
theorem back_ok {r alloc : Nat} (h : Hole s pre [⟨r, false⟩] post ls) (hright : Separated post)
    (halloc : alloc = 0 ↔ ∃ n rest, post = n :: rest ∧ n.alloc = false) :
    ∃ s' run post' ls',
      (if alloc = 0 then mergeNext s (s.heap + 4 + total pre + 4) r else (s, r)) =
        (s', r + total run) ∧
      Hole s' pre [⟨r + total run, false⟩] post' ls' ∧ Same s s' ∧ post = run ++ post' ∧
      (∀ x ∈ run, x.alloc = false) ∧ Separated post' ∧ ∀ x ∈ post'.head?, x.alloc = true := by
  by_cases hfree : ∃ n rest, post = n :: rest ∧ n.alloc = false
  · rw [if_pos (halloc.mpr hfree)]
    obtain ⟨n, rest, rfl, hn⟩ := hfree
    obtain ⟨s', ls', hmerge, hole, hsame⟩ := mergeNext_ok h hn
    exact ⟨s', [n], rest, ls', hmerge, hole, hsame, rfl, by simp [hn],
      (List.isChain_cons.mp hright).2, hright.head_of_free hn⟩
  · rw [if_neg (mt halloc.mp hfree)]
    refine ⟨s, [], post, ls, rfl, h, Same.refl s, rfl, by simp, hright, ?_⟩
    intro x hx
    by_contra hxa
    cases post with
    | nil => cases hx
    | cons n rest =>
        cases hx
        exact hfree ⟨x, rest, rfl, by simpa using hxa⟩

/-- The free run around the block in the hole becomes one block, in its list. -/
theorem coalesce_ok (h : Hole s (pre ++ [p]) [b] post ls) (hb : b.alloc = false)
    (hleft : Separated (pre ++ [p])) (hright : Separated post) :
    ∃ s' pre' mid post' ls', coalesce s (s.heap + 4 + total pre + p.size + 4) =
        (s', s.heap + 4 + total pre' + 4) ∧ Same s s' ∧
      pre ++ p :: b :: post = pre' ++ (mid ++ post') ∧ (∀ x ∈ mid, x.alloc = false) ∧
      b.size ≤ total mid ∧ Hole s' (pre' ++ ⟨total mid, false⟩ :: post') [] [] ls' ∧
      Separated (pre' ++ ⟨total mid, false⟩ :: post') := by
  have hlist : pre ++ [p] ++ ([b] ++ post) = pre ++ p :: b :: post := by simp
  have hlay := h.lay
  rw [hlist] at hlay
  obtain ⟨-, hptag, hbtag, hpost⟩ := laid_append.mp hlay.laid
  obtain ⟨hprev, hnextp, hsize⟩ := Ptmalloc.coalesce_reads hptag hbtag
  have hepi : Ptmalloc.Epilogue s.mem
      (s.heap + 4 + total pre + p.size + b.size + total post) := by
    simpa only [total_append, total_cons, Nat.add_assoc] using hlay.epi
  have halloc := Ptmalloc.getAlloc_next hpost hepi
  obtain ⟨s₁, pre', run₁, ls₁, hfront, h₁, hsame₁, hsplit₁, hrun₁, hle, hsep₁, hlast⟩ :=
    front_ok h hb hleft
  obtain ⟨s₂, run₂, post', ls₂, hback, h₂, hsame₂, hsplit₂, hrun₂, hsep₂, hhead⟩ :=
    back_ok h₁ hright halloc
  obtain ⟨ls', hfilled⟩ := h₂.fill rfl
  rw [hsame₁.heap] at hback
  rw [hsame₂.heap, hsame₁.heap] at hfilled
  refine ⟨insertNode s₂ (s.heap + 4 + total pre' + 4) (total run₁ + total run₂), pre', run₁ ++ run₂,
    post', ls', ?_, (hsame₁.trans hsame₂).trans (same_insertNode _ _ _), ?_, ?_, ?_, ?_, ?_⟩
  · simp only [coalesce, hprev, hnextp, hsize, hfront, hback]
  · calc pre ++ p :: b :: post = pre ++ [p, b] ++ post := by simp
      _ = pre' ++ ((run₁ ++ run₂) ++ post') := by rw [hsplit₁, hsplit₂]; simp
  · intro x hx
    rcases List.mem_append.mp hx with hx | hx
    · exact hrun₁ x hx
    · exact hrun₂ x hx
  · rw [total_append]
    exact Nat.le_add_right_of_le hle
  · rw [total_append]
    exact hfilled
  · refine List.isChain_append.mpr ⟨hsep₁, List.isChain_cons.mpr ⟨?_, hsep₂⟩, ?_⟩
    · exact fun x hx => .inr (hhead x hx)
    · exact fun x hx y _ => .inl (hlast x hx)

/-! ## The invariant -/

/-- The blocks behind the prologue are `bs`, the live pointers `live`, and the free
lists hold the nodes `ls`. -/
structure Inv (s : State) (bs : List Block) (live : List Nat) (ls : Nat → List Nat) : Prop where
  listp : s.listp = s.heap + 8
  brk : s.brk = s.heap + 8 + total (prologue :: bs)
  brk_le : s.brk ≤ 2 ^ 32
  base : s.heap + arena ≤ 2 ^ 32
  hole : Hole s (prologue :: bs) [] [] ls
  sep : Separated (prologue :: bs)
  size : ∀ b ∈ bs, 16 ≤ b.size
  live : live.Perm (livePtrs (s.heap + 12) bs)

variable {live : List Nat}

/-- `coalesce` behind the prologue. -/
theorem coalesce_inv (hbs : prologue :: bs = pre ++ p :: b :: post)
    (h : Hole s (pre ++ [p]) [b] post ls) (hb : b.alloc = false) (hleft : Separated (pre ++ [p]))
    (hright : Separated post) (hsize : ∀ x ∈ bs, 16 ≤ x.size) (hpos : 0 < b.size) :
    ∃ (s' : State) (pre' : List Block) (b' : Block) (post' : List Block) (ls' : Nat → List Nat),
      coalesce s (s.heap + 4 + total pre + p.size + 4) = (s', s.heap + 12 + total pre' + 4) ∧
      Same s s' ∧
      Hole s' (prologue :: (pre' ++ b' :: post')) [] [] ls' ∧
      Separated (prologue :: (pre' ++ b' :: post')) ∧
      (∀ x ∈ pre' ++ b' :: post', 16 ≤ x.size) ∧ b'.alloc = false ∧ b.size ≤ b'.size ∧
      total (pre' ++ b' :: post') = total bs ∧
      livePtrs (s.heap + 12) (pre' ++ b' :: post') = livePtrs (s.heap + 12) bs := by
  obtain ⟨s', pre₁, mid, post', ls', hco, hsame, hsplit, hfree, hle, hole, hsep⟩ :=
    coalesce_ok h hb hleft hright
  have hne : mid ≠ [] := by
    rintro rfl
    exact absurd (Nat.lt_of_lt_of_le hpos hle) (lt_irrefl 0)
  obtain ⟨pre', rfl, hsizes, htotal, hlive⟩ :=
    Ptmalloc.merged_run (hbs.trans hsplit) hfree hne hsize
  refine ⟨s', pre', ⟨total mid, false⟩, post', ls', ?_, hsame, hole, hsep, hsizes, rfl, hle, htotal,
    hlive⟩
  rw [hco, Ptmalloc.total_prologue]
  congr 1
  omega

/-- `mm_free` of a live pointer. -/
theorem mmFree_inv (h : Inv s bs live ls) {q : Nat} (hq : q ∈ live) :
    ∃ bs' ls', Inv (mmFree s q) bs' (live.erase q) ls' := by
  obtain ⟨pre, b, post, rfl, hba, rfl⟩ := Ptmalloc.exists_of_mem_livePtrs (h.live.mem_iff.mp hq)
  obtain ⟨pre₀, p, hprev, htotal₀, hlist⟩ := Ptmalloc.exists_prev pre
  have haddr : s.heap + 12 + total pre + 4 = s.heap + 4 + total (prologue :: pre) + 4 := by
    rw [Ptmalloc.total_prologue]
    omega
  have haddr₀ : s.heap + 4 + total (prologue :: pre) = s.heap + 4 + total pre₀ + p.size := by
    rw [htotal₀, ← Nat.add_assoc]
  -- the block leaves the layout for the hole, and is marked free there
  have hclosed : Hole s ((prologue :: pre) ++ b :: post) [] [] ls := h.hole
  have hwide := hclosed.opened.widen hba
  have htag : Tagged s.mem (s.heap + 4 + total (prologue :: pre)) b := hwide.tagged at_mid
  have hok : Block.Ok ⟨b.size, false⟩ := ⟨htag.ok.dvd, htag.ok.le, htag.ok.lt⟩
  have hbsize : 16 ≤ b.size := h.size b (by simp)
  have hfreed := hwide.tag hok (by simp) fun _ => hbsize
  have hpack : Block.tag ⟨b.size, false⟩ = pack b.size 0 := rfl
  have hsame₁ := same_putTags s (s.heap + 4 + total (prologue :: pre) + 4) (pack b.size 0)
  rw [hpack] at hfreed
  generalize hs₁ : putTags s (s.heap + 4 + total (prologue :: pre) + 4) (pack b.size 0) = s₁
    at hfreed hsame₁
  obtain ⟨hleft, hrest, -⟩ := List.isChain_append.mp
    (show Separated ((prologue :: pre) ++ (b :: post)) from h.sep)
  have hright := (List.isChain_cons.mp hrest).2
  rw [hprev] at hfreed hleft
  obtain ⟨s', pre', b', post', ls', hco, hsame, hole, hsep, hsizes, -, -, htotal, hlive⟩ :=
    coalesce_inv (hlist (⟨b.size, false⟩ :: post)) hfreed rfl hleft hright
      (Ptmalloc.sizes_freed h.size) (Nat.lt_of_lt_of_le (by decide) hbsize)
  have hfree : mmFree s (s.heap + 12 + total pre + 4) = s' := by
    rw [hsame₁.heap, ← haddr₀] at hco
    rw [haddr, mmFree, htag.getSize_hdr, hs₁, hco]
  have hsame' := hsame₁.trans hsame
  rw [hfree]
  refine ⟨pre' ++ b' :: post', ls', ?_, ?_, ?_, ?_, hole, hsep, hsizes, ?_⟩
  · rw [hsame'.listp, hsame'.heap]
    exact h.listp
  · rw [hsame'.brk, hsame'.heap, total_cons, htotal]
    simpa only [total_cons, total_append] using h.brk
  · rw [hsame'.brk]
    exact h.brk_le
  · rw [hsame'.heap]
    exact h.base
  · rw [hsame₁.heap] at hlive
    rw [hsame'.heap, hlive]
    exact Ptmalloc.livePtrs_freed h.live hba

/-! ## `extend_heap` -/

theorem same_mergePrev (s : State) (bp size : Nat) : Same s (mergePrev s bp size).1 :=
  (same_deleteNode s (prevBlkp s.mem bp)).trans (same_putTags _ _ _)

theorem same_mergeNext (s : State) (bp size : Nat) : Same s (mergeNext s bp size).1 :=
  (same_deleteNode s (nextBlkp s.mem bp)).trans (same_putTags _ _ _)

theorem same_coalesce (s : State) (bp : Nat) : Same s (coalesce s bp).1 := by
  have hfront : ∀ alloc size, Same s (if alloc = 0 then mergePrev s bp size else (s, bp, size)).1 := by
    intro alloc size
    split
    · exact same_mergePrev s bp size
    · exact Same.refl s
  have hback : ∀ s alloc bp size,
      Same s (if alloc = 0 then mergeNext s bp size else (s, size)).1 := by
    intro s alloc bp size
    split
    · exact same_mergeNext s bp size
    · exact Same.refl s
  simp only [coalesce]
  exact ((hfront _ _).trans (hback _ _ _ _)).trans (same_insertNode _ _ _)

theorem Hole.append {size : Nat} (brk : Nat) (h : Hole s pre [] [] ls) (hdvd : 8 ∣ size)
    (hsize : 16 ≤ size) (hroom : s.heap + 8 + total pre + size ≤ 2 ^ 32) :
    Hole { s with mem := appendBlock s.mem (s.heap + 4 + total pre + 4) size, brk := brk } pre
      [⟨size, false⟩] [] ls := by
  have hlay : Lay s.mem (s.heap + 4) pre := by
    have hlay := h.lay
    rwa [List.append_nil, List.append_nil] at hlay
  have hok : Block.Ok ⟨size, false⟩ := ⟨hdvd, by dsimp only; omega, by dsimp only; omega⟩
  obtain ⟨m₂, hm₂, hlay₂, hoff⟩ := Ptmalloc.append_ok hlay hok
  have heq : appendBlock s.mem (s.heap + 4 + total pre + 4) size = m₂ := hm₂
  rw [heq]
  refine ⟨hlay₂, ?_, ?_, fun i hi => ?_, h.listed⟩
  · simp only [total_append, total_cons, total_nil]
    omega
  · intro x hx hfree
    rcases List.mem_append.mp hx with hx | hx
    · exact h.size x (List.mem_append_left _ hx) hfree
    · rw [List.mem_singleton.mp hx]
      exact hsize
  · refine (h.linked i hi).congr fun x hx => ?_
    obtain ⟨off, b, hb, -, -, hbsize, rfl, -⟩ := h.node hi hx
    have hle := hb.le
    simp only [List.append_nil] at hle
    exact ⟨hoff.load (.inl (by omega)), hoff.load (.inl (by omega))⟩

theorem extendHeap_eq (s : State) {size : Nat} (hdvd : 8 ∣ size) (hlt : size < 2 ^ 31) :
    extendHeap s (size / wsize) =
      coalesce { s with mem := appendBlock s.mem s.brk size, brk := s.brk + size } s.brk := by
  have hwords : ¬ size / wsize % 2 ≠ 0 := by
    rw [wsize]
    omega
  have hmul : Word.mul 32 (size / wsize) wsize = size := by
    rw [Word.mul_eq, wsize]
    · omega
    · rw [wsize]
      omega
  have hsbrk : memSbrk s (toInt size) = some (s.brk, { s with brk := s.brk + size }) := by
    rw [Ptmalloc.toInt_eq hlt, memSbrk, if_neg (by omega)]
    rfl
  simp only [extendHeap, if_neg hwords, hmul, hsbrk]
  rfl

theorem extendHeap_brk (s : State) {size : Nat} (hdvd : 8 ∣ size) (hlt : size < 2 ^ 31) :
    (extendHeap s (size / wsize)).1.heap = s.heap ∧
      (extendHeap s (size / wsize)).1.brk = s.brk + size := by
  rw [extendHeap_eq s hdvd hlt]
  have hsame := same_coalesce
    { s with mem := appendBlock s.mem s.brk size, brk := s.brk + size } s.brk
  exact ⟨hsame.heap, hsame.brk⟩

theorem extendHeap_heap (s : State) (words : Nat) : (extendHeap s words).1.heap = s.heap := by
  simp only [extendHeap, memSbrk]
  generalize toInt _ = incr
  by_cases hneg : incr < 0
  · rw [if_pos hneg]
  · rw [if_neg hneg]
    exact (same_coalesce _ _).heap

/-- The heap ends in a new free block, merged with a free one before it. -/
theorem extendHeap_inv (h : Inv s bs live ls) {size : Nat} (hdvd : 8 ∣ size) (hsize : 16 ≤ size)
    (hlt : size < 2 ^ 31) (hroom : s.brk + size ≤ 2 ^ 32) :
    ∃ (s' : State) (pre' : List Block) (b' : Block) (post' : List Block) (ls' : Nat → List Nat),
      extendHeap s (size / wsize) = (s', s'.heap + 12 + total pre' + 4) ∧
      Inv s' (pre' ++ b' :: post') live ls' ∧ b'.alloc = false ∧ size ≤ b'.size := by
  obtain ⟨pre₀, p, hprev, htotal₀, hlist⟩ := Ptmalloc.exists_prev bs
  have hbrk := h.brk
  have hbase := h.base
  have haddr : s.brk = s.heap + 4 + total (prologue :: bs) + 4 := by omega
  have haddr₀ : s.heap + 4 + total (prologue :: bs) = s.heap + 4 + total pre₀ + p.size := by
    rw [htotal₀, ← Nat.add_assoc]
  have happ := h.hole.append (s.brk + size) hdvd hsize (by omega)
  rw [← haddr] at happ
  have hsizes : ∀ x ∈ bs ++ [(⟨size, false⟩ : Block)], 16 ≤ x.size :=
    List.forall_mem_append.mpr ⟨h.size, List.forall_mem_singleton.mpr hsize⟩
  have hleft := h.sep
  rw [hprev] at happ hleft
  obtain ⟨s', pre', b', post', ls', hco, hsame, hole, hsep, hsize', hfree, hgrow, htotal, hlive⟩ :=
    coalesce_inv (hlist [⟨size, false⟩]) happ rfl hleft List.isChain_nil hsizes
      (show 0 < size by omega)
  dsimp only at hco hlive
  have hheap : s'.heap = s.heap := hsame.heap
  have hbrk' : s'.brk = s.brk + size := hsame.brk
  refine ⟨s', pre', b', post', ls', ?_, ⟨?_, ?_, ?_, ?_, hole, hsep, hsize', ?_⟩, hfree, hgrow⟩
  · rw [extendHeap_eq s hdvd hlt, hheap, ← hco, haddr, haddr₀]
  · rw [hsame.listp, hheap]
    exact h.listp
  · rw [hbrk', hheap, total_cons, htotal, hbrk]
    simp only [total_cons, total_append, total_nil]
    omega
  · rw [hbrk']
    exact hroom
  · rw [hheap]
    exact hbase
  · rw [hheap, hlive, Ptmalloc.livePtrs_append]
    simpa [livePtrs] using h.live

/-! ## `place` -/

theorem same_place (s : State) (bp asize : Nat) : Same s (place s bp asize) := by
  have hdelete := same_deleteNode s bp
  rw [place]
  split
  · exact ((hdelete.trans (same_putTags _ _ _)).trans (same_putTags _ _ _)).trans
      (same_insertNode _ _ _)
  · exact hdelete.trans (same_putTags _ _ _)

/-- A block of the hole is cut in two. -/
theorem Hole.split {asize : Nat} (h : Hole s pre [b] post ls) (hle : asize + 16 ≤ b.size)
    (hasize : 16 ≤ asize) (hdvd : 8 ∣ asize) :
    ∃ s' ls', s' = putTags (putTags s (s.heap + 4 + total pre + 4) (pack asize 1))
        (s.heap + 4 + total pre + asize + 4) (pack (b.size - asize) 0) ∧
      nextBlkp (putTags s (s.heap + 4 + total pre + 4) (pack asize 1)).mem
        (s.heap + 4 + total pre + 4) = s.heap + 4 + total pre + asize + 4 ∧
      Hole (insertNode s' (s.heap + 4 + total pre + asize + 4) (b.size - asize))
        (pre ++ (⟨asize, true⟩ :: ⟨b.size - asize, false⟩ :: post)) [] [] ls' := by
  have hb := (h.tagged at_mid).ok
  have hlt := hb.lt
  have hfst : Block.Ok ⟨asize, true⟩ := ⟨hdvd, by dsimp only; omega, by dsimp only; omega⟩
  have hsnd : Block.Ok ⟨b.size - asize, false⟩ :=
    ⟨Nat.dvd_sub hb.dvd hdvd, by dsimp only; omega, by dsimp only; omega⟩
  have hpack₁ : Block.tag ⟨asize, true⟩ = pack asize 1 := rfl
  have hpack₂ : Block.tag ⟨b.size - asize, false⟩ = pack (b.size - asize) 0 := rfl
  obtain ⟨htag, hoff⟩ := setTags_ok (m := s.mem) (a := s.heap + 4 + total pre) hfst
  obtain ⟨htag', hoff'⟩ := setTags_ok
    (m := setTags s.mem (s.heap + 4 + total pre + 4) (Block.tag ⟨asize, true⟩))
    (a := s.heap + 4 + total pre + asize) hsnd
  have htotal : total [⟨asize, true⟩, ⟨b.size - asize, false⟩] = total [b] := by
    simp only [total_cons, total_nil]
    omega
  have hcut : Hole { s with mem := _ } pre [⟨asize, true⟩, ⟨b.size - asize, false⟩] post ls := h.retag
    ((hoff.mono (Nat.le_refl _) (by simp only [total_cons]; omega)).trans
      (hoff'.mono (Nat.le_add_right _ _) (by simp only [total_cons, total_nil]; omega)))
    ⟨htag.congr fun q _ hhigh => get_of_eqOff hoff' (.inl hhigh), htag', trivial⟩ htotal
    (by simp; omega)
  obtain ⟨ls', hfilled⟩ := (hcut.shrink rfl).fill rfl
  rw [hpack₁] at hfilled htag
  rw [hpack₂] at hfilled
  refine ⟨_, ls', rfl, htag.nextBlkp_eq, ?_⟩
  simp only [total_append, total_cons, total_nil, Nat.add_zero, List.append_assoc,
    List.singleton_append] at hfilled
  rw [← Nat.add_assoc] at hfilled
  exact hfilled

theorem place_hole {asize : Nat} (h : Hole s (pre ++ b :: post) [] [] ls) (hba : b.alloc = false)
    (hle : asize ≤ b.size) (hasize : 16 ≤ asize) (hdvd : 8 ∣ asize) :
    ∃ ls', Hole (place s (s.heap + 4 + total pre + 4) asize)
      (pre ++ (Ptmalloc.cut b asize ++ post)) [] [] ls' := by
  have htag := h.opened.tagged (show At (pre ++ ([] ++ b :: post)) (total pre) b from at_mid)
  have hsub : Word.sub 32 b.size asize = b.size - asize := Word.sub_eq htag.ok.lt hle
  obtain ⟨ls₁, h₁⟩ := h.opened.takeNext hba
  have hsame := same_deleteNode s (s.heap + 4 + total pre + 4)
  rw [total_nil, Nat.add_zero, List.nil_append] at h₁
  rw [place, htag.getSize_hdr, hsub, Ptmalloc.cut]
  generalize deleteNode s (s.heap + 4 + total pre + 4) = s₁ at h₁ hsame
  rw [← hsame.heap]
  by_cases hbig : b.size - asize ≥ 16
  · obtain ⟨s', ls', rfl, hnext, hole⟩ := h₁.split (by omega) hasize hdvd
    rw [if_pos (show b.size - asize ≥ 2 * dsize from hbig), if_pos hbig]
    dsimp only
    rw [hnext]
    exact ⟨ls', hole⟩
  · have hok : Block.Ok ⟨b.size, true⟩ := ⟨htag.ok.dvd, htag.ok.le, htag.ok.lt⟩
    have hwhole := h₁.tag hok (by simp) fun hfree => by cases hfree
    have hpack : Block.tag ⟨b.size, true⟩ = pack b.size 1 := rfl
    rw [hpack] at hwhole
    rw [if_neg (show ¬ b.size - asize ≥ 2 * dsize from hbig), if_neg hbig]
    refine ⟨ls₁, ?_⟩
    have hclosed := (hwhole.shrink rfl).closed
    rwa [List.append_assoc] at hclosed

/-- `place` in a free block makes its pointer live. -/
theorem place_inv (h : Inv s (pre ++ b :: post) live ls) (hba : b.alloc = false) {asize : Nat}
    (hle : asize ≤ b.size) (hasize : 16 ≤ asize) (hdvd : 8 ∣ asize) :
    ∃ bs' ls', Inv (place s (s.heap + 12 + total pre + 4) asize) bs'
      ((s.heap + 12 + total pre + 4) :: live) ls' := by
  have haddr : s.heap + 12 + total pre + 4 = s.heap + 4 + total (prologue :: pre) + 4 := by
    rw [Ptmalloc.total_prologue]
    omega
  have hole : Hole s ((prologue :: pre) ++ b :: post) [] [] ls := h.hole
  obtain ⟨ls', hplaced⟩ := place_hole hole hba hle hasize hdvd
  obtain ⟨htotal, hsep, hsize, hlive⟩ := Ptmalloc.cut_placed h.sep h.size hba hle hasize h.live
  have hsame := same_place s (s.heap + 12 + total pre + 4) asize
  rw [← haddr] at hplaced
  refine ⟨pre ++ (Ptmalloc.cut b asize ++ post), ls', ?_, ?_, ?_, ?_, hplaced, hsep, hsize, ?_⟩
  · rw [hsame.listp, hsame.heap]
    exact h.listp
  · rw [hsame.brk, hsame.heap, total_cons, htotal]
    exact h.brk
  · rw [hsame.brk]
    exact h.brk_le
  · rw [hsame.heap]
    exact h.base
  · rw [hsame.heap]
    exact hlive

/-! ## The search -/

/-- No node of the list stands in a block of `asize` bytes. -/
def Short (m : Mem) (asize : Nat) (ps : List Nat) : Prop := ∀ x ∈ ps, getSize m (hdrp x) < asize

theorem searchList_ok (asize : Nat) {h prev fuel : Nat} {ps : List Nat} (hlist : Links.Seg m 0 prev h ps)
    (hfuel : ps.length < fuel) :
    ∃ r, searchList m asize fuel h = some r ∧
      (r = 0 ∧ Short m asize ps ∨ r ≠ 0 ∧ r ∈ ps ∧ asize ≤ getSize m (hdrp r)) := by
  induction ps generalizing h prev fuel with
  | nil =>
      obtain ⟨k, rfl⟩ := Nat.exists_eq_add_one_of_ne_zero (Nat.ne_of_gt hfuel)
      have hnull : h = 0 := hlist
      exact ⟨0, by rw [searchList, if_pos hnull], .inl ⟨rfl, fun x hx => absurd hx List.not_mem_nil⟩⟩
  | cons p ps ih =>
      obtain ⟨k, rfl⟩ := Nat.exists_eq_add_one_of_ne_zero (Nat.ne_of_gt (Nat.zero_lt_of_lt hfuel))
      obtain ⟨rfl, hne, -, hrest⟩ := hlist
      rw [searchList, if_neg hne]
      split
      case isTrue hfit => exact ⟨h, rfl, .inr ⟨hne, List.mem_cons_self, hfit⟩⟩
      case isFalse hfit =>
        obtain ⟨r, hr, ⟨hnone, hshort⟩ | ⟨hr0, hmem, hfits⟩⟩ := ih hrest (Nat.lt_of_succ_lt_succ hfuel)
        · exact ⟨r, hr, .inl ⟨hnone, List.forall_mem_cons.mpr ⟨Nat.lt_of_not_le hfit, hshort⟩⟩⟩
        · exact ⟨r, hr, .inr ⟨hr0, List.mem_cons_of_mem _ hmem, hfits⟩⟩

theorem Inv.length_lt (h : Inv s bs live ls) (hi : i < seglistCount) :
    (ls i).length < s.brk - s.heap + 1 := by
  have hlen := (h.hole.listed i hi).length_eq
  have hptrs : (freePtrs i (s.heap + 4) (prologue :: bs)).length ≤ (prologue :: bs).length :=
    length_freePtrs
  have hlaid := h.hole.lay.laid
  rw [List.append_nil, List.append_nil] at hlaid
  have htotal := Ptmalloc.length_le_total hlaid
  have hbrk := h.brk
  rw [outer, freePtrs, List.append_nil] at hlen
  omega

/-- The outer loop ends with a node of the first list that has one large enough, or
with none if no list has. -/
theorem searchLists_ok (h : Inv s bs live ls) (asize : Nat) {k i : Nat}
    (hk : i + k ≤ seglistCount) :
    ∃ r, searchLists s asize k i = some r ∧
      (r = 0 ∧ (∀ j, i ≤ j → j < i + k → Short s.mem asize (ls j)) ∨
        r ≠ 0 ∧ ∃ j, i ≤ j ∧ j < i + k ∧ r ∈ ls j ∧ asize ≤ getSize s.mem (hdrp r) ∧
          ∀ l, i ≤ l → l < j → Short s.mem asize (ls l)) := by
  induction k generalizing i with
  | zero =>
      refine ⟨0, rfl, .inl ⟨rfl, fun j hlow hhigh => ?_⟩⟩
      exact absurd hhigh (Nat.not_lt_of_le hlow)
  | succ k ih =>
      have hi : i < seglistCount := by omega
      obtain ⟨r, hr, hcases⟩ :=
        searchList_ok asize (h.hole.linked i hi) (h.length_lt hi)
      rw [searchLists, hr, Option.bind_eq_bind, Option.bind_some]
      rcases hcases with ⟨hr0, hshort⟩ | ⟨hr0, hmem, hfit⟩
      · rw [if_neg (not_not_intro hr0)]
        -- the lists up to the one that the rest of the loop stops in
        have hextend : ∀ stop, (∀ l, i + 1 ≤ l → l < stop → Short s.mem asize (ls l)) →
            ∀ l, i ≤ l → l < stop → Short s.mem asize (ls l) := by
          intro stop hafter l hlow hhigh
          rcases Nat.eq_or_lt_of_le hlow with rfl | hlt
          · exact hshort
          · exact hafter l hlt hhigh
        obtain ⟨q, hq, ⟨hq0, hnone⟩ | ⟨hq0, j, hlow, hhigh, hmem, hfit, hbefore⟩⟩ :=
          ih (show i + 1 + k ≤ seglistCount by omega)
        · refine ⟨q, hq, .inl ⟨hq0, hextend _ fun l hlow hhigh => hnone l hlow ?_⟩⟩
          omega
        · exact ⟨q, hq, .inr ⟨hq0, j, by omega, by omega, hmem, hfit, hextend j hbefore⟩⟩
      · rw [if_pos hr0]
        refine ⟨r, rfl, .inr ⟨hr0, i, Nat.le_refl i, by omega, hmem, hfit, fun l hlow hhigh => ?_⟩⟩
        exact absurd hhigh (Nat.not_lt_of_le hlow)

/-- A node is a free block behind the prologue. -/
theorem Inv.node (h : Inv s bs live ls) (hi : i < seglistCount) (hx : x ∈ ls i) :
    ∃ (pre : List Block) (b : Block) (post : List Block), bs = pre ++ b :: post ∧
      b.alloc = false ∧ x = s.heap + 12 + total pre + 4 ∧
      getSize s.mem (hdrp x) = b.size ∧ getIndex b.size = i := by
  obtain ⟨off, b, hat, hfree, hclass, -, rfl, -⟩ := h.hole.node hi hx
  have htag := h.hole.tagged hat
  obtain ⟨pre₁, post, hsplit, rfl⟩ := hat
  rw [List.append_nil, List.append_nil] at hsplit
  obtain ⟨pre, rfl, rfl⟩ := Ptmalloc.split_prologue
    (show prologue :: bs = pre₁ ++ ([b] ++ post) from hsplit) (by simp [hfree])
    (List.cons_ne_nil _ _)
  refine ⟨pre, b, post, rfl, hfree, ?_, htag.getSize_hdr, hclass⟩
  rw [Ptmalloc.total_prologue]
  omega

/-! ## `mm_malloc` and `mm_init` -/

theorem adjust_ok {size : Nat} (hsize : size < 2 ^ 31 - 16) :
    16 ≤ adjust size ∧ 8 ∣ adjust size ∧ adjust size < 2 ^ 31 := by
  rw [adjust]
  split
  · decide
  case isFalse hbig =>
    have h₁ : Word.add 32 size dsize = size + 8 := Word.add_eq (by rw [dsize]; omega)
    have h₂ : Word.add 32 (size + 8) 7 = size + 15 := Word.add_eq (by omega)
    rw [dsize] at hbig
    rw [h₁, h₂, dsize]
    omega

theorem mmMalloc_fit {size bp : Nat} (hsize : size ≠ 0)
    (hfind : searchLists s (adjust size) (seglistCount - getIndex (adjust size))
      (getIndex (adjust size)) = some bp) (hbp : bp ≠ 0) :
    mmMalloc s size = some (place s bp (adjust size), bp) := by
  simp only [mmMalloc, if_neg hsize, hfind, Option.bind_eq_bind, Option.bind_some, if_pos hbp]

theorem mmMalloc_extend {s' : State} {size bp : Nat} (hsize : size ≠ 0)
    (hfind : searchLists s (adjust size) (seglistCount - getIndex (adjust size))
      (getIndex (adjust size)) = some 0)
    (hext : extendHeap s (max (adjust size) chunksize / wsize) = (s', bp)) (hbp : bp ≠ 0) :
    mmMalloc s size = some (place s' bp (adjust size), bp) := by
  simp only [mmMalloc, if_neg hsize, hfind, Option.bind_eq_bind, Option.bind_some, hext, ne_eq,
    not_true_eq_false, if_false, if_neg hbp]

theorem mmMalloc_heap {size : Nat} {r : State × Nat} (hr : r ∈ mmMalloc s size) :
    r.1.heap = s.heap := by
  by_cases hzero : size = 0
  · rw [mmMalloc, if_pos hzero] at hr
    cases hr
    rfl
  · rw [mmMalloc, if_neg hzero] at hr
    obtain ⟨bp, -, hr⟩ := Option.bind_eq_some_iff.mp hr
    split at hr
    · cases hr
      exact (same_place s bp (adjust size)).heap
    · dsimp only at hr
      have hgrown := extendHeap_heap s (max (adjust size) chunksize / wsize)
      split at hr
      · cases hr
        exact hgrown
      · cases hr
        exact (same_place _ _ _).heap.trans hgrown

/-- Without a fit the break is raised, whatever becomes of it. -/
theorem mmMalloc_brk {size : Nat} (hsize : size ≠ 0) (hlt : size < 2 ^ 31 - 16)
    (hfind : searchLists s (adjust size) (seglistCount - getIndex (adjust size))
      (getIndex (adjust size)) = some 0) :
    ∃ r ∈ mmMalloc s size, r.1.heap = s.heap ∧
      r.1.brk = s.brk + max (adjust size) chunksize := by
  obtain ⟨-, hdvd, hadjust⟩ := adjust_ok hlt
  have hext : 8 ∣ max (adjust size) chunksize ∧ max (adjust size) chunksize < 2 ^ 31 := by
    rw [chunksize]
    omega
  have hgrown := extendHeap_brk s hext.1 hext.2
  simp only [mmMalloc, if_neg hsize, hfind, Option.bind_eq_bind, Option.bind_some, ne_eq,
    not_true_eq_false, if_false]
  generalize extendHeap s (max (adjust size) chunksize / wsize) = r at hgrown
  split
  · exact ⟨_, rfl, hgrown⟩
  · have hsame := same_place r.1 r.2 (adjust size)
    exact ⟨_, rfl, hsame.heap.trans hgrown.1, hsame.brk.trans hgrown.2⟩

theorem mmMalloc_inv (h : Inv s bs live ls) {size : Nat} (hsize : size < 2 ^ 31 - 16)
    (hroom : ∀ r ∈ mmMalloc s size, r.1.brk ≤ 2 ^ 32) :
    ∃ s' q bs' ls', mmMalloc s size = some (s', q) ∧
      Inv s' bs' (if q = 0 then live else q :: live) ls' := by
  by_cases hzero : size = 0
  · exact ⟨s, 0, bs, ls, by rw [mmMalloc, if_pos hzero], h⟩
  obtain ⟨hasize, hdvd, hlt⟩ := adjust_ok hsize
  have hindex := getIndex_lt (adjust size)
  obtain ⟨r, hfind, ⟨rfl, -⟩ | ⟨hr, j, -, hj, hmem, hfit, -⟩⟩ := searchLists_ok h (adjust size)
    (show getIndex (adjust size) + (seglistCount - getIndex (adjust size)) ≤ seglistCount by omega)
  · have hext : 8 ∣ max (adjust size) chunksize ∧ 16 ≤ max (adjust size) chunksize ∧
        max (adjust size) chunksize < 2 ^ 31 := by
      rw [chunksize]
      omega
    obtain ⟨g, hg, -, hbrk⟩ := mmMalloc_brk hzero hsize hfind
    have hle := hroom g hg
    rw [hbrk] at hle
    obtain ⟨s', pre', b', post', ls', hgrown, hinv, hba, hgrow⟩ :=
      extendHeap_inv h hext.1 hext.2.1 hext.2.2 hle
    obtain ⟨bs', ls'', hplaced⟩ :=
      place_inv hinv hba (le_trans (le_max_left _ _) hgrow) hasize hdvd
    refine ⟨_, s'.heap + 12 + total pre' + 4, bs', ls'',
      mmMalloc_extend hzero hfind hgrown (Nat.succ_ne_zero _), ?_⟩
    rw [if_neg (Nat.succ_ne_zero _)]
    exact hplaced
  · obtain ⟨pre, b, post, rfl, hba, rfl, hbsize, -⟩ :=
      h.node (show j < seglistCount by omega) hmem
    rw [hbsize] at hfit
    obtain ⟨bs', ls', hplaced⟩ := place_inv h hba hfit hasize hdvd
    refine ⟨_, s.heap + 12 + total pre + 4, bs', ls', mmMalloc_fit hzero hfind hr, ?_⟩
    rw [if_neg hr]
    exact hplaced

/-- Prologue and epilogue only, and empty lists. -/
theorem initWords_inv (m : Mem) {base : Nat} (hbase : base + arena ≤ 2 ^ 32)
    {freeLists : Nat → Nat} (hnull : ∀ i < seglistCount, freeLists i = 0) :
    Inv ⟨Ptmalloc.initWords m base, freeLists, base, base + 16, base + 2 * wsize⟩ [] []
      fun _ => [] := by
  refine ⟨rfl, rfl, ?_, hbase, ⟨?_, ?_, ?_, ?_, ?_⟩, ?_, by simp, List.Perm.refl _⟩
  · exact le_trans (Nat.add_le_add_left (by decide : 16 ≤ arena) base) hbase
  · exact Ptmalloc.initWords_lay m base
  · have hsmall : 8 + total [prologue] ≤ arena := by decide
    show base + 8 + total [prologue] ≤ 2 ^ 32
    omega
  · intro b hb hfree
    rw [List.mem_singleton.mp hb] at hfree
    cases hfree
  · exact fun i hi => hnull i hi
  · exact fun i _ => List.Perm.refl _
  · exact List.isChain_singleton _

theorem mmInit_eq {s s₁ s₂ : State} {p q : Nat}
    (hsbrk : memSbrk { s with
      freeLists := fun i => if i < seglistCount then 0 else s.freeLists i } (4 * wsize) =
        some (p, s₁))
    (hext : extendHeap { s₁ with mem := Ptmalloc.initWords s₁.mem p, listp := p + 2 * wsize }
      (chunksize / wsize) = (s₂, q)) (hq : q ≠ 0) : mmInit s = (0, s₂) := by
  unfold mmInit
  dsimp only
  rw [hsbrk]
  dsimp only
  rw [hext]
  exact if_neg hq

theorem mmInit_inv (m : Mem) {base : Nat} (hbase : base + arena ≤ 2 ^ 32) :
    ∃ s bs ls, mmInit (memInit m base) = (0, s) ∧ Inv s bs [] ls ∧
      s.brk = s.heap + 16 + chunksize := by
  have hnull : ∀ i < seglistCount,
      (if i < seglistCount then 0 else (memInit m base).freeLists i) = 0 := fun i hi => if_pos hi
  have hchunk : base + 16 + chunksize ≤ 2 ^ 32 := by
    rw [Nat.add_assoc]
    exact le_trans (Nat.add_le_add_left (by decide : 16 + chunksize ≤ arena) base) hbase
  obtain ⟨s', pre', b', post', ls', hext, hinv, -, -⟩ := extendHeap_inv
    (initWords_inv m hbase hnull) (show 8 ∣ chunksize by decide) (by decide) (by decide) hchunk
  have hsbrk : memSbrk { memInit m base with
      freeLists := fun i => if i < seglistCount then 0 else (memInit m base).freeLists i }
        (4 * wsize) = some (base, ⟨m,
          fun i => if i < seglistCount then 0 else (memInit m base).freeLists i, base, base + 16,
          0⟩) := by
    rw [memSbrk, if_neg (by decide)]
    rfl
  refine ⟨s', pre' ++ b' :: post', ls', mmInit_eq hsbrk hext (Nat.succ_ne_zero _), hinv, ?_⟩
  obtain ⟨hheap, hbrk⟩ := extendHeap_brk
    ⟨Ptmalloc.initWords m base,
      fun i => if i < seglistCount then 0 else (memInit m base).freeLists i, base, base + 16,
      base + 2 * wsize⟩ (show 8 ∣ chunksize by decide) (by decide)
  rw [hext] at hheap hbrk
  dsimp only at hheap hbrk
  rw [hbrk, hheap]

/-! ## Runs -/

/-- Some blocks and some lists satisfy the invariant. -/
def Good (s : State × List Nat) : Prop := ∃ bs ls, Inv s.1 bs s.2 ls

/-- Requests fit the `int` of `mem_sbrk`, and only live pointers are freed. -/
def Lawful (s : State × List Nat) : Op → Prop
  | .malloc size => size < 2 ^ 31 - 16
  | .free p => p ∈ s.2

instance decidableLawful (s : State × List Nat) : ∀ op, Decidable (Lawful s op)
  | .malloc size => inferInstanceAs (Decidable (size < 2 ^ 31 - 16))
  | .free p => inferInstanceAs (Decidable (p ∈ s.2))

/-- A lawful call that leaves the break where four bytes can hold it. -/
def Addressable (s : State × List Nat) (op : Op) : Prop :=
  Lawful s op ∧ ∀ s' ∈ step s op, s'.1.brk ≤ 2 ^ 32

instance decidableAddressable (s : State × List Nat) (op : Op) : Decidable (Addressable s op) :=
  inferInstanceAs (Decidable (_ ∧ _))

theorem step_good (s : State × List Nat) (op : Op) (h : Good s) (hop : Addressable s op) :
    ∃ s', step s op = some s' ∧ Good s' := by
  obtain ⟨bs, ls, h⟩ := h
  obtain ⟨hcall, hroom⟩ := hop
  cases op with
  | malloc size =>
      have hroom' : ∀ r ∈ mmMalloc s.1 size, r.1.brk ≤ 2 ^ 32 := by
        intro r hr
        refine hroom (r.1, if r.2 = 0 then s.2 else r.2 :: s.2) ?_
        rw [step, Option.mem_def.mp hr]
        rfl
      obtain ⟨s', q, bs', ls', hmalloc, hinv⟩ := mmMalloc_inv h hcall hroom'
      refine ⟨(s', if q = 0 then s.2 else q :: s.2), ?_, bs', ls', hinv⟩
      rw [step, hmalloc]
      rfl
  | free q =>
      obtain ⟨bs', ls', hinv⟩ := mmFree_inv h hcall
      exact ⟨_, rfl, bs', ls', hinv⟩

theorem same_mmFree (s : State) (bp : Nat) : Same s (mmFree s bp) :=
  (same_putTags _ _ _).trans (same_coalesce _ _)

/-- No call moves the start of the heap. -/
theorem step_heap {s s' : State × List Nat} {op : Op} (h : step s op = some s') :
    s'.1.heap = s.1.heap := by
  cases op with
  | malloc size =>
      obtain ⟨r, hr, hs'⟩ := Option.bind_eq_some_iff.mp h
      cases hs'
      exact mmMalloc_heap hr
  | free p =>
      cases h
      exact (same_mmFree s.1 p).heap

/-- The arena is addressable. -/
theorem Allowed.addressable {s : State × List Nat} {op : Op} (h : Allowed s op) (hgood : Good s) :
    Addressable s op := by
  obtain ⟨bs, ls, hinv⟩ := hgood
  refine ⟨?_, fun s' hs' => ?_⟩
  · cases op with
    | malloc size => exact h.1
    | free p => exact h.1
  · have hle := h.2 s' hs'
    rw [step_heap hs'] at hle
    exact le_trans hle hinv.base

/-! ## What the results say -/

/-- The heap that a walk from the prologue sees, `bps` being the block pointers behind
it, and the free lists `ls` that the successors lead through. -/
structure Exact (s : State) (bps : List Nat) (ls : Nat → List Nat) : Prop where
  walk : Ptmalloc.walk s.mem (s.brk - s.heap + 1) s.listp = some (s.listp :: bps, s.brk)
  epilogue : getSize s.mem (s.brk - 4) = 0 ∧ getAlloc s.mem (s.brk - 4) = 1
  tile : Ptmalloc.Tile (s.heap + 4) (s.brk - 4) ((s.listp :: bps).map (Ptmalloc.extent s.mem))
  footer : ∀ bp ∈ s.listp :: bps, get s.mem (ftrp s.mem bp) = get s.mem (hdrp bp)
  sep : (s.listp :: bps).IsChain fun x y =>
    getAlloc s.mem (hdrp x) = 1 ∨ getAlloc s.mem (hdrp y) = 1
  linked : ∀ i < seglistCount, DList s.mem (s.freeLists i) (ls i)
  listed : ∀ bp ∈ bps, getAlloc s.mem (hdrp bp) = 0 → ∀ i < seglistCount,
    (ls i).count bp = if i = getIndex (getSize s.mem (hdrp bp)) then 1 else 0
  only : ∀ i < seglistCount, ∀ bp ∈ ls i, bp ∈ bps ∧ getAlloc s.mem (hdrp bp) = 0

theorem mem_ptrs {q : Nat} : q ∈ Ptmalloc.ptrs a bs ↔ ∃ off b, At bs off b ∧ q = a + off + 4 := by
  induction bs generalizing a with
  | nil =>
      refine ⟨fun h => absurd h List.not_mem_nil, ?_⟩
      rintro ⟨off, b, hb, -⟩
      cases hb.mem
  | cons b bs ih =>
      constructor
      · intro h
        rcases List.mem_cons.mp h with rfl | h
        · exact ⟨0, b, ⟨[], bs, rfl, rfl⟩, rfl⟩
        · obtain ⟨off, c, hc, rfl⟩ := ih.mp h
          exact ⟨b.size + off, c, hc.cons, by omega⟩
      · rintro ⟨off, c, ⟨pre, post, heq, rfl⟩, rfl⟩
        cases pre with
        | nil => exact List.mem_cons_self
        | cons d pre =>
            obtain ⟨rfl, rfl⟩ := List.cons.inj heq
            refine List.mem_cons_of_mem _ (ih.mpr ⟨total pre, c, at_mid, ?_⟩)
            rw [total_cons]
            omega

theorem Hole.nodup (h : Hole s pre mid post ls) (hi : i < seglistCount) : (ls i).Nodup := by
  refine (h.pairwise hi).imp fun {x y} hapart => ?_
  rintro rfl
  rcases hapart with hle | hle
  · omega
  · omega

theorem Inv.mem_list (h : Inv s bs live ls) (hi : i < seglistCount) (hb : At bs off b)
    (hfree : b.alloc = false) :
    s.heap + 12 + off + 4 ∈ ls i ↔ i = getIndex b.size := by
  have hat : At (prologue :: bs) (8 + off) b := hb.cons
  have hlisted := h.hole.listed i hi
  rw [outer, freePtrs, List.append_nil] at hlisted
  rw [hlisted.mem_iff, mem_freePtrs]
  constructor
  · rintro ⟨off', b', hb', -, rfl, heq⟩
    have hok := (h.hole.tagged hat.left).ok.le
    have hok' := (h.hole.tagged hb'.left).ok.le
    rcases hat.cases hb' with ⟨-, rfl⟩ | hlow | hhigh
    · rfl
    · omega
    · omega
  · rintro rfl
    exact ⟨8 + off, b, hat, hfree, rfl, by omega⟩

theorem Inv.exact (h : Inv s bs live ls) :
    Exact s (Ptmalloc.ptrs (s.heap + 12) bs) ls := by
  have hlay : Lay s.mem (s.heap + 4) (prologue :: bs) := by
    have hlay := h.hole.lay
    rwa [List.append_nil, List.append_nil] at hlay
  have hend : s.heap + 4 + total (prologue :: bs) = s.brk - 4 := by
    rw [h.brk]
    omega
  have hptrs : Ptmalloc.ptrs (s.heap + 4) (prologue :: bs) =
      s.listp :: Ptmalloc.ptrs (s.heap + 12) bs := by
    rw [h.listp]
    rfl
  have hepi := hlay.epi
  rw [hend] at hepi
  refine ⟨?_, ⟨hepi.getSize, hepi.getAlloc⟩, ?_, ?_, ?_, h.hole.linked, ?_, ?_⟩
  · have hlen := Ptmalloc.length_le_total hlay.laid
    have hbrk := h.brk
    have hwalk := Ptmalloc.walk_eq hlay
      (show (prologue :: bs).length < s.brk - s.heap + 1 by omega)
    have hstop : s.heap + 4 + total (prologue :: bs) + 4 = s.brk := by omega
    rw [hptrs, hstop] at hwalk
    rw [← hwalk, h.listp]
  · rw [← hptrs, ← hend]
    exact Ptmalloc.tile_ptrs hlay.laid
  · intro bp hbp
    rw [← hptrs] at hbp
    obtain ⟨c, b, hb, htag, rfl⟩ := Ptmalloc.exists_of_mem_ptrs hlay.laid hbp
    rw [htag.ftrp_eq, htag.ftr]
    exact htag.hdr.symm
  · rw [← hptrs]
    exact Ptmalloc.isChain_ptrs hlay.laid h.sep
  · intro bp hbp halloc i hi
    obtain ⟨off, b, hb, rfl⟩ := mem_ptrs.mp hbp
    have htag : Tagged s.mem (s.heap + 12 + off) b := hb.tagged hlay.laid.2
    have hfree : b.alloc = false := by
      rw [htag.getAlloc_hdr] at halloc
      simpa using halloc
    rw [htag.getSize_hdr]
    split
    case isTrue hclass =>
      exact List.count_eq_one_of_mem (h.hole.nodup hi) ((h.mem_list hi hb hfree).mpr hclass)
    case isFalse hclass =>
      exact List.count_eq_zero.mpr fun hmem => hclass ((h.mem_list hi hb hfree).mp hmem)
  · intro i hi bp hbp
    obtain ⟨pre, b, post, rfl, hfree, rfl, -⟩ := h.node hi hbp
    have htag : Tagged s.mem (s.heap + 12 + total pre) b := at_mid.tagged hlay.laid.2
    refine ⟨mem_ptrs.mpr ⟨total pre, b, at_mid, rfl⟩, ?_⟩
    rw [htag.getAlloc_hdr, hfree]
    rfl

/-- After `mem_init` and `mm_init`, every run of `mm_malloc` and of `mm_free` on live
pointers inside the arena returns, and leaves the heap tiled and the lists exact. -/
theorem free_lists_exact (m : Mem) (base : Nat) (hbase : base + arena ≤ 2 ^ 32) (ops : List Op)
    (hallowed : Along step Allowed ((mmInit (memInit m base)).2, []) ops) :
    (mmInit (memInit m base)).1 = 0 ∧
      ∃ s live bps ls, run step ((mmInit (memInit m base)).2, []) ops = some (s, live) ∧
        Exact s bps ls := by
  obtain ⟨s₀, bs₀, ls₀, hinit, hinv₀, -⟩ := mmInit_inv m hbase
  rw [hinit] at hallowed ⊢
  have hstep : ∀ s op, Good s → Allowed s op → ∃ s', step s op = some s' ∧ Good s' :=
    fun s op hs hop => step_good s op hs (hop.addressable hs)
  obtain ⟨⟨s, live⟩, hrun, bs, ls, hinv⟩ := run_invariant hstep ops ⟨bs₀, ls₀, hinv₀⟩ hallowed
  exact ⟨rfl, s, live, _, ls, hrun, hinv.exact⟩

/-- The calls of `main`, then a block freed between two free ones. -/
theorem free_lists_exact_main :
    ∃ s live bps ls, run step ((mmInit (memInit (fun _ => 0) 4096)).2, [])
        [.malloc 128, .free 4112, .malloc 128, .malloc 24, .malloc 24, .malloc 24, .free 4248,
          .free 4312, .free 4280] = some (s, live) ∧ Exact s bps ls :=
  (free_lists_exact (fun _ => 0) 4096 (by decide)
    [.malloc 128, .free 4112, .malloc 128, .malloc 24, .malloc 24, .malloc 24, .free 4248,
      .free 4312, .free 4280] (by decide +kernel)).2

end CKernel.Malloc.Flsp
