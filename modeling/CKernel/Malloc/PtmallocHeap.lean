/-
# `CKernel.Malloc.PtmallocHeap` — the heap of the implicit-list allocator is well formed

The invariant is a list of blocks: it starts with the prologue, its tags are in
memory from `mem_heap + 4` up to the epilogue word at `mem_brk - 4`, no two
neighbours are free, and the allocated blocks behind the prologue are the live
pointers.

    coalesce merges the free run around its block   (`coalesce_ok`)
    place takes the front of a free block            (`place_ok`)
    extend_heap turns the epilogue into a block      (`extendHeap_wrote`)
    find_fit is the first fit of the list            (`findFitLoop_eq`)
    every run of allowed calls returns, and a walk
      along `NEXT_BLKP` finds the heap well formed    (`heap_well_formed`)
-/
import CKernel.Lib.Run
import CKernel.Malloc.Ptmalloc

namespace CKernel.Malloc.Ptmalloc

open Run

variable {m m' : Mem} {a : Nat} {p b n : Block} {pre post : List Block}

/-! ## `coalesce` -/

/-- No two neighbours are free. -/
def Separated (bs : List Block) : Prop :=
  bs.IsChain fun x y => x.alloc = true ∨ y.alloc = true

/-- The word behind the blocks is the epilogue header. -/
def Epilogue (m : Mem) (e : Nat) : Prop := get m e = pack 0 1

theorem Epilogue.getSize (h : Epilogue m a) : getSize m a = 0 := by
  rw [Malloc.getSize, h]
  decide

theorem Epilogue.getAlloc (h : Epilogue m a) : getAlloc m a = 1 := by
  rw [Malloc.getAlloc, h]
  decide

/-- The allocated bit of whatever stands behind a block. -/
theorem getAlloc_next (hlaid : Laid m a post) (hepi : Epilogue m (a + total post)) :
    getAlloc m a = 0 ↔ ∃ n rest, post = n :: rest ∧ n.alloc = false := by
  cases post with
  | nil =>
      have halloc : getAlloc m a = 1 := hepi.getAlloc
      rw [halloc]
      simp
  | cons n rest =>
      have halloc := hlaid.1.getAlloc_hdr
      rw [hdrp, wsize, Nat.add_sub_cancel] at halloc
      rw [halloc]
      cases hn : n.alloc <;> simp [hn]

section Coalesce
variable (hp : Tagged m a p) (hb : Tagged m (a + p.size) b)
include hp hb

/-- The three values `coalesce` reads first. -/
theorem coalesce_reads :
    getAlloc m (ftrp m (prevBlkp m (a + p.size + 4))) = p.alloc.toNat ∧
      hdrp (nextBlkp m (a + p.size + 4)) = a + p.size + b.size ∧
      getSize m (hdrp (a + p.size + 4)) = b.size := by
  refine ⟨?_, ?_, hb.getSize_hdr⟩
  · rw [hp.prevBlkp_eq, hp.ftrp_eq]
    exact getAlloc_of_tag hp.ok hp.ftr
  · rw [hb.nextBlkp_eq, hdrp, wsize, Nat.add_sub_cancel]

theorem coalesce_none (hpa : p.alloc = true)
    (hnext : getAlloc m (a + p.size + b.size) ≠ 0) :
    coalesce m (a + p.size + 4) = (m, a + p.size + 4) := by
  obtain ⟨hprev, hnextp, -⟩ := coalesce_reads hp hb
  simp only [coalesce]
  rw [hprev, hnextp, hpa, if_pos ⟨by decide, hnext⟩]

theorem coalesce_next (hn : Tagged m (a + p.size + b.size) n) (hpa : p.alloc = true)
    (hna : n.alloc = false) :
    coalesce m (a + p.size + 4) =
      (setTags m (a + p.size + 4) (pack (b.size + n.size) 0), a + p.size + 4) := by
  obtain ⟨hprev, hnextp, hsize⟩ := coalesce_reads hp hb
  have hnext : getAlloc m (a + p.size + b.size) = 0 := by
    rw [getAlloc_of_tag hn.ok hn.hdr, hna]
    rfl
  have hnsize : getSize m (a + p.size + b.size) = n.size := getSize_of_tag hn.ok hn.hdr
  simp only [coalesce]
  rw [hprev, hnextp, hpa, hnext, hsize, hnsize, if_neg (by decide), if_pos (by decide)]

theorem coalesce_prev (hpa : p.alloc = false)
    (hnext : getAlloc m (a + p.size + b.size) ≠ 0) :
    coalesce m (a + p.size + 4) =
      (put (put m (a + p.size + b.size - 4) (pack (b.size + p.size) 0)) a
        (pack (b.size + p.size) 0), a + 4) := by
  obtain ⟨hprev, hnextp, hsize⟩ := coalesce_reads hp hb
  have hple := hp.ok.le
  have hble := hb.ok.le
  have hpsize : getSize m (hdrp (a + 4)) = p.size := hp.getSize_hdr
  -- the previous block's footer survives both writes
  have hp₁ : prevBlkp (put m (a + p.size + b.size - 4) (pack (b.size + p.size) 0))
      (a + p.size + 4) = a + 4 := by
    refine (hp.congr fun q hlow hhigh => ?_).prevBlkp_eq
    exact get_put_of_disjoint (.inl (by omega))
  have hp₂ : prevBlkp (put (put m (a + p.size + b.size - 4) (pack (b.size + p.size) 0)) a
      (pack (b.size + p.size) 0)) (a + p.size + 4) = a + 4 := by
    rw [← hp₁, prevBlkp, prevBlkp, getSize, getSize, get_put_of_disjoint (.inr ?_)]
    rw [dsize]
    omega
  simp only [coalesce]
  rw [hprev, hnextp, hpa, hsize, hp.prevBlkp_eq, hpsize, hb.ftrp_eq, hp₁,
    if_neg (by simp), if_neg (by simp), if_pos ⟨rfl, hnext⟩, hdrp, wsize,
    Nat.add_sub_cancel, hp₂]

theorem coalesce_both (hn : Tagged m (a + p.size + b.size) n) (hpa : p.alloc = false)
    (hna : n.alloc = false) (hlt : p.size + n.size < 2 ^ 32) :
    coalesce m (a + p.size + 4) =
      (put (put m a (pack (b.size + (p.size + n.size)) 0)) (a + p.size + b.size + n.size - 4)
        (pack (b.size + (p.size + n.size)) 0), a + 4) := by
  obtain ⟨hprev, hnextp, hsize⟩ := coalesce_reads hp hb
  have hple := hp.ok.le
  have hble := hb.ok.le
  have hnle := hn.ok.le
  have hnext : getAlloc m (a + p.size + b.size) = 0 := by
    rw [getAlloc_of_tag hn.ok hn.hdr, hna]
    rfl
  have hpsize : getSize m (hdrp (a + 4)) = p.size := hp.getSize_hdr
  have hnsize : getSize m (ftrp m (a + p.size + b.size + 4)) = n.size := by
    rw [hn.ftrp_eq]
    exact getSize_of_tag hn.ok hn.ftr
  have hnextp₁ : nextBlkp (put m a (pack (b.size + (p.size + n.size)) 0)) (a + p.size + 4) =
      a + p.size + b.size + 4 := by
    refine (hb.congr fun q hlow hhigh => ?_).nextBlkp_eq
    exact get_put_of_disjoint (.inr (by omega))
  have hftr₁ : ftrp (put m a (pack (b.size + (p.size + n.size)) 0)) (a + p.size + b.size + 4) =
      a + p.size + b.size + n.size - 4 := by
    refine (hn.congr fun q hlow hhigh => ?_).ftrp_eq
    exact get_put_of_disjoint (.inr (by omega))
  have hp₂ : prevBlkp (put (put m a (pack (b.size + (p.size + n.size)) 0))
      (a + p.size + b.size + n.size - 4) (pack (b.size + (p.size + n.size)) 0))
        (a + p.size + 4) = a + 4 := by
    rw [← hp.prevBlkp_eq, prevBlkp, prevBlkp, getSize, getSize, get_put_of_disjoint (.inl ?_),
      get_put_of_disjoint (.inr ?_)]
    · rw [dsize]
      omega
    · rw [dsize]
      omega
  simp only [coalesce]
  rw [hprev, hnextp, hpa, hsize, hnext, hp.prevBlkp_eq, hpsize, hb.nextBlkp_eq, hnsize,
    Word.add_eq hlt, if_neg (by simp), if_neg (by simp), if_neg (by simp), hdrp, wsize,
    Nat.add_sub_cancel, hnextp₁, hftr₁, hp₂]

end Coalesce

/-- The blocks `mid` of the layout `bs` are a maximal free run, and have become one. -/
structure Merged (m m' : Mem) (a : Nat) (bs pre mid post : List Block) : Prop where
  split : bs = pre ++ (mid ++ post)
  free : ∀ x ∈ mid, x.alloc = false
  sepPre : Separated pre
  sepPost : Separated post
  last : ∀ x ∈ pre.getLast?, x.alloc = true
  head : ∀ x ∈ post.head?, x.alloc = true
  tagged : Tagged m' (a + total pre) ⟨total mid, false⟩
  frame : Mem.EqOff m m' (a + total pre) (a + total pre + total mid)

theorem run_ok {mid : List Block} (hmid : ∀ x ∈ mid, x.Ok) (hne : mid ≠ [])
    (hlt : total mid < 2 ^ 32) : Block.Ok ⟨total mid, false⟩ := by
  refine ⟨?_, ?_, hlt⟩
  · refine List.dvd_sum fun x hx => ?_
    obtain ⟨b, hb, rfl⟩ := List.mem_map.mp hx
    exact (hmid b hb).dvd
  · cases mid with
    | nil => exact absurd rfl hne
    | cons b rest => exact Nat.le_add_right_of_le (hmid b List.mem_cons_self).le

theorem eqOff_tags {lo hi v : Nat} (h : lo + 8 ≤ hi) :
    Mem.EqOff m (put (put m lo v) (hi - 4) v) lo hi ∧
      Mem.EqOff m (put (put m (hi - 4) v) lo v) lo hi :=
  ⟨(eqOff_put (by omega) (by omega)).trans (eqOff_put (by omega) (by omega)),
    (eqOff_put (by omega) (by omega)).trans (eqOff_put (by omega) (by omega))⟩

theorem Separated.last_of_free (h : Separated (pre ++ [p])) (hp : p.alloc = false) :
    ∀ x ∈ pre.getLast?, x.alloc = true := by
  intro x hx
  obtain ⟨-, -, hjoin⟩ := List.isChain_append.mp h
  exact (hjoin x hx p rfl).resolve_right (by simp [hp])

theorem Separated.head_of_free (h : Separated (n :: post)) (hn : n.alloc = false) :
    ∀ x ∈ post.head?, x.alloc = true := by
  intro x hx
  have hjoin := (List.isChain_cons.mp h).1 x hx
  exact hjoin.resolve_left (by simp [hn])

/-- **`coalesce` merges the free run around its block.** -/
theorem coalesce_ok (hlaid : Laid m a (pre ++ p :: b :: post))
    (hepi : Epilogue m (a + total (pre ++ p :: b :: post)))
    (hlt : total (pre ++ p :: b :: post) < 2 ^ 32) (hba : b.alloc = false)
    (hleft : Separated (pre ++ [p])) (hright : Separated post) :
    ∃ m' pre' mid post', coalesce m (a + total pre + p.size + 4) = (m', a + total pre' + 4) ∧
      Merged m m' a (pre ++ p :: b :: post) pre' mid post' ∧
      a + total pre' ≤ a + total pre + p.size ∧
      a + total pre + p.size + b.size ≤ a + total pre' + total mid := by
  obtain ⟨-, hp, hb, hpost⟩ := laid_append.mp hlaid
  simp only [total_append, total_cons] at hepi hlt
  have hepi' : Epilogue m (a + total pre + p.size + b.size + total post) := by
    simpa only [Nat.add_assoc] using hepi
  have hpre : a + total (pre ++ [p]) = a + total pre + p.size := by simp [Nat.add_assoc]
  have hnext := getAlloc_next hpost hepi'
  have hsep : Separated pre := (List.isChain_append.mp hleft).1
  by_cases hfree : ∃ n rest, post = n :: rest ∧ n.alloc = false
  · obtain ⟨n, rest, rfl, hna⟩ := hfree
    have hn := hpost.1
    have hhead := hright.head_of_free hna
    have hrest : Separated rest := (List.isChain_cons.mp hright).2
    rw [total_cons] at hlt
    cases hpa : p.alloc with
    | true =>
        have hok : Block.Ok ⟨total [b, n], false⟩ :=
          run_ok (by simp [hb.ok, hn.ok]) (by simp) (by simp; omega)
        obtain ⟨htag, hoff⟩ := setTags_ok (m := m) (a := a + total (pre ++ [p])) hok
        refine ⟨_, pre ++ [p], [b, n], rest, ?_,
          ⟨by simp, by simp [hba, hna], hleft, hrest, by simp [hpa], hhead, htag, hoff⟩,
          Nat.le_of_eq hpre, by simp; omega⟩
        rw [coalesce_next hp hb hn hpa hna, hpre]
        rfl
    | false =>
        have hok : Block.Ok ⟨total [p, b, n], false⟩ :=
          run_ok (by simp [hp.ok, hb.ok, hn.ok]) (by simp) (by simp; omega)
        have hmid : b.size + (p.size + n.size) = total [p, b, n] := by simp; omega
        have hend : a + total pre + p.size + b.size + n.size - 4 =
            a + total pre + total [p, b, n] - 4 := by simp; omega
        refine ⟨_, pre, [p, b, n], rest, ?_,
          ⟨by simp, by simp [hpa, hba, hna], hsep, hrest, hleft.last_of_free hpa, hhead,
            (tagged_put_put hok).1, (eqOff_tags (Nat.add_le_add_left hok.le _)).1⟩,
          Nat.le_add_right _ _, by simp; omega⟩
        rw [coalesce_both hp hb hn hpa hna (by omega), hmid, hend]
        rfl
  · have hhead : ∀ x ∈ post.head?, x.alloc = true := by
      intro x hx
      cases post with
      | nil => cases hx
      | cons n rest =>
          cases hx
          by_contra hx
          exact hfree ⟨x, rest, rfl, by simpa using hx⟩
    have hnext' := mt hnext.mp hfree
    cases hpa : p.alloc with
    | true =>
        have hself : b = ⟨total [b], false⟩ := by
          cases b
          simp at hba
          simp [hba]
        refine ⟨m, pre ++ [p], [b], post, ?_, ⟨by simp, by simp [hba], hleft, hright,
          by simp [hpa], hhead, ?_, Mem.EqOff.refl _ _ _⟩, Nat.le_of_eq hpre, by simp; omega⟩
        · rw [coalesce_none hp hb hpa hnext', hpre]
        · rw [hpre, ← hself]
          exact hb
    | false =>
        have hok : Block.Ok ⟨total [p, b], false⟩ :=
          run_ok (by simp [hp.ok, hb.ok]) (by simp) (by simp; omega)
        have hmid : b.size + p.size = total [p, b] := by simp; omega
        have hend : a + total pre + p.size + b.size - 4 =
            a + total pre + total [p, b] - 4 := by simp; omega
        refine ⟨_, pre, [p, b], post, ?_,
          ⟨by simp, by simp [hpa, hba], hsep, hright, hleft.last_of_free hpa, hhead,
            (tagged_put_put hok).2, (eqOff_tags (Nat.add_le_add_left hok.le _)).2⟩,
          Nat.le_add_right _ _, by simp; omega⟩
        rw [coalesce_prev hp hb hpa hnext', hmid, hend]
        rfl

/-! ## The whole heap -/

/-- The pointers to the allocated blocks of a layout. -/
def livePtrs : Nat → List Block → List Nat
  | _, [] => []
  | a, b :: bs => if b.alloc then (a + 4) :: livePtrs (a + b.size) bs else livePtrs (a + b.size) bs

theorem livePtrs_append (a : Nat) (bs bs' : List Block) :
    livePtrs a (bs ++ bs') = livePtrs a bs ++ livePtrs (a + total bs) bs' := by
  induction bs generalizing a with
  | nil => rfl
  | cons b bs ih =>
      rw [List.cons_append, livePtrs, livePtrs, ih, total_cons, Nat.add_assoc]
      split
      · rfl
      · rfl

theorem livePtrs_free {mid : List Block} (hfree : ∀ x ∈ mid, x.alloc = false) (a : Nat) :
    livePtrs a mid = [] := by
  induction mid generalizing a with
  | nil => rfl
  | cons b bs ih =>
      rw [livePtrs, hfree b List.mem_cons_self]
      exact ih (fun x hx => hfree x (List.mem_cons_of_mem _ hx)) _

/-- A live pointer is the pointer to an allocated block. -/
theorem exists_of_mem_livePtrs {q : Nat} {bs : List Block} (h : q ∈ livePtrs a bs) :
    ∃ (pre : List Block) (b : Block) (post : List Block), bs = pre ++ b :: post ∧
      b.alloc = true ∧ q = a + total pre + 4 := by
  induction bs generalizing a with
  | nil => cases h
  | cons b bs ih =>
      have hrest : q ∈ livePtrs (a + b.size) bs →
          ∃ (pre : List Block) (c : Block) (post : List Block), b :: bs = pre ++ c :: post ∧
            c.alloc = true ∧ q = a + total pre + 4 := by
        intro hq
        obtain ⟨pre, c, post, rfl, hc, rfl⟩ := ih hq
        refine ⟨b :: pre, c, post, rfl, hc, ?_⟩
        rw [total_cons, Nat.add_assoc a]
      rw [livePtrs] at h
      cases hb : b.alloc with
      | true =>
          rw [hb] at h
          rcases List.mem_cons.mp h with rfl | hq
          · exact ⟨[], b, bs, rfl, hb, rfl⟩
          · exact hrest hq
      | false =>
          rw [hb] at h
          exact hrest h

/-- Blocks and, behind them, the epilogue header. -/
structure Lay (m : Mem) (a : Nat) (bs : List Block) : Prop where
  laid : Laid m a bs
  epi : Epilogue m (a + total bs)

theorem Lay.replace {mid mid' : List Block} (h : Lay m a (pre ++ (mid ++ post)))
    (hoff : Mem.EqOff m m' (a + total pre) (a + total pre + total mid))
    (hmid : Laid m' (a + total pre) mid') (htotal : total mid' = total mid) :
    Lay m' a (pre ++ (mid' ++ post)) := by
  refine ⟨h.laid.replace hoff hmid htotal, ?_⟩
  have hsame : total (pre ++ (mid' ++ post)) = total (pre ++ (mid ++ post)) := by
    simp only [total_append, htotal]
  rw [hsame, Epilogue, get_of_eqOff hoff (.inr ?_)]
  · exact h.epi
  · simp only [total_append]
    omega

/-! ## Layouts without free neighbours -/

/-- A block in front of others, joined with the first of them if both are free. -/
def join (b : Block) : List Block → List Block
  | [] => [b]
  | c :: bs =>
      if b.alloc = false ∧ c.alloc = false then ⟨b.size + c.size, false⟩ :: bs else b :: c :: bs

/-- Every free run of a layout made one block. -/
def mergeFree (bs : List Block) : List Block := bs.foldr join []

theorem mergeFree_cons (b : Block) (bs : List Block) :
    mergeFree (b :: bs) = join b (mergeFree bs) := rfl

/-- What follows may be merged first. -/
theorem mergeFree_append_congr {xs ys : List Block} (h : mergeFree xs = mergeFree ys)
    (pre : List Block) : mergeFree (pre ++ xs) = mergeFree (pre ++ ys) := by
  induction pre with
  | nil => exact h
  | cons b pre ih =>
      rw [List.cons_append, List.cons_append, mergeFree_cons, mergeFree_cons, ih]

theorem mergeFree_of_separated {bs : List Block} (h : Separated bs) : mergeFree bs = bs := by
  induction bs with
  | nil => rfl
  | cons b bs ih =>
      obtain ⟨hjoin, hrest⟩ := List.isChain_cons.mp h
      rw [mergeFree_cons, ih hrest]
      cases bs with
      | nil => rfl
      | cons c bs =>
          rw [join, if_neg]
          rintro ⟨hb, hc⟩
          simpa [hb, hc] using hjoin c rfl

/-- Three free blocks may be joined from either end. -/
theorem join_join (hb : b.alloc = false) (n : Nat) (bs : List Block) :
    join b (join ⟨n, false⟩ bs) = join ⟨b.size + n, false⟩ bs := by
  cases bs with
  | nil => simp [join, hb]
  | cons c bs =>
      cases hc : c.alloc with
      | true => simp [join, hb, hc]
      | false => simp [join, hb, hc, Nat.add_assoc]

theorem mergeFree_run {mid : List Block} (hfree : ∀ x ∈ mid, x.alloc = false) (hne : mid ≠ [])
    (post : List Block) : mergeFree (mid ++ post) = mergeFree (⟨total mid, false⟩ :: post) := by
  induction mid with
  | nil => exact absurd rfl hne
  | cons b mid ih =>
      have hb : b.alloc = false := hfree b List.mem_cons_self
      cases mid with
      | nil =>
          cases b
          cases hb
          rfl
      | cons c mid =>
          have hrest := ih (fun x hx => hfree x (List.mem_cons_of_mem _ hx)) (List.cons_ne_nil _ _)
          rw [List.cons_append, mergeFree_cons, hrest, mergeFree_cons, join_join hb]
          rfl

/-- What `coalesce` leaves: the free run around `b` is one block, and
everything else is as before. -/
theorem coalesce_lay (hlay : Lay m a (pre ++ p :: b :: post))
    (hlt : total (pre ++ p :: b :: post) < 2 ^ 32) (hba : b.alloc = false)
    (hleft : Separated (pre ++ [p])) (hright : Separated post) :
    ∃ m' pre' mid post', coalesce m (a + total pre + p.size + 4) = (m', a + total pre' + 4) ∧
      pre ++ p :: b :: post = pre' ++ (mid ++ post') ∧ (∀ x ∈ mid, x.alloc = false) ∧
      (a + total pre' ≤ a + total pre + p.size ∧
        a + total pre + p.size + b.size ≤ a + total pre' + total mid) ∧
      Mem.EqOff m m' (a + total pre') (a + total pre' + total mid) ∧
      Lay m' a (pre' ++ ⟨total mid, false⟩ :: post') ∧
      Separated (pre' ++ ⟨total mid, false⟩ :: post') := by
  obtain ⟨m', pre', mid, post', heq, hmerged, hspan⟩ :=
    coalesce_ok hlay.laid hlay.epi hlt hba hleft hright
  refine ⟨m', pre', mid, post', heq, hmerged.split, hmerged.free, hspan, hmerged.frame, ?_, ?_⟩
  · have hmid : Laid m' (a + total pre') [⟨total mid, false⟩] := ⟨hmerged.tagged, trivial⟩
    exact (hmerged.split ▸ hlay).replace hmerged.frame hmid rfl
  · refine List.isChain_append.mpr ⟨hmerged.sepPre, List.isChain_cons.mpr ⟨?_, hmerged.sepPost⟩, ?_⟩
    · exact fun x hx => .inr (hmerged.head x hx)
    · exact fun x hx y _ => .inl (hmerged.last x hx)

/-! ## `place` and `find_fit` -/

/-- What `place` makes of a free block. -/
def cut (b : Block) (asize : Nat) : List Block :=
  if b.size - asize ≥ 16 then [⟨asize, true⟩, ⟨b.size - asize, false⟩] else [⟨b.size, true⟩]

theorem total_cut {asize : Nat} (hle : asize ≤ b.size) : total (cut b asize) = b.size := by
  rw [cut]
  split
  · simp
    omega
  · simp

theorem place_ok {asize : Nat} (hlay : Lay m a (pre ++ b :: post)) (hle : asize ≤ b.size)
    (hasize : 16 ≤ asize) (hdvd : 8 ∣ asize) :
    Lay (place m (a + total pre + 4) asize) a (pre ++ (cut b asize ++ post)) ∧
      Mem.EqOff m (place m (a + total pre + 4) asize) (a + total pre) (a + total pre + b.size) := by
  have hb : Tagged m (a + total pre) b := (laid_append.mp hlay.laid).2.1
  have hlt := hb.ok.lt
  have hbdvd := hb.ok.dvd
  have hsub : Word.sub 64 b.size asize = b.size - asize := by
    refine Word.sub_eq (lt_trans hlt ?_) hle
    decide
  have hend := total_cut hle
  rw [place, hb.getSize_hdr, hsub]
  by_cases hbig : b.size - asize ≥ 16
  · have hfst : Block.Ok ⟨asize, true⟩ := ⟨hdvd, by simp; omega, by simp; omega⟩
    have hsnd : Block.Ok ⟨b.size - asize, false⟩ :=
      ⟨Nat.dvd_sub hbdvd hdvd, by simp; omega, by simp; omega⟩
    obtain ⟨htag, hoff⟩ := setTags_ok (m := m) (a := a + total pre) hfst
    obtain ⟨htag', hoff'⟩ := setTags_ok
      (m := setTags m (a + total pre + 4) (Block.tag ⟨asize, true⟩)) (a := a + total pre + asize)
      hsnd
    rw [cut, if_pos hbig] at hend ⊢
    rw [if_pos (show b.size - asize ≥ 2 * dsize from hbig)]
    show Lay (setTags _ (nextBlkp (setTags m (a + total pre + 4) (Block.tag ⟨asize, true⟩))
      (a + total pre + 4)) (Block.tag ⟨b.size - asize, false⟩)) a _ ∧
      Mem.EqOff m (setTags _ (nextBlkp (setTags m (a + total pre + 4) (Block.tag ⟨asize, true⟩))
        (a + total pre + 4)) (Block.tag ⟨b.size - asize, false⟩)) _ _
    rw [htag.nextBlkp_eq]
    have hsnd' : a + total pre + asize + (b.size - asize) ≤ a + total pre + b.size := by omega
    have hframe := (hoff.mono (Nat.le_refl _) (Nat.add_le_add_left hle _)).trans
      (hoff'.mono (Nat.le_add_right _ _) hsnd')
    refine ⟨(show Lay m a (pre ++ ([b] ++ post)) from hlay).replace hframe
      ⟨htag.congr fun q _ hhigh => ?_, htag', trivial⟩ (hend.trans (by simp)), hframe⟩
    exact get_of_eqOff hoff' (.inl hhigh)
  · have hok : Block.Ok ⟨b.size, true⟩ := ⟨hbdvd, hb.ok.le, hlt⟩
    obtain ⟨htag, hoff⟩ := setTags_ok (m := m) (a := a + total pre) hok
    have hmid : Laid _ (a + total pre) [⟨b.size, true⟩] := ⟨htag, trivial⟩
    rw [cut, if_neg hbig]
    rw [if_neg (show ¬ b.size - asize ≥ 2 * dsize from hbig)]
    exact ⟨(show Lay m a (pre ++ ([b] ++ post)) from hlay).replace hoff hmid rfl, hoff⟩

/-- The first free block that is large enough, or null. -/
def firstFit (asize : Nat) : Nat → List Block → Nat
  | _, [] => 0
  | a, b :: bs =>
      if b.alloc = false ∧ asize ≤ b.size then a + 4 else firstFit asize (a + b.size) bs

theorem findFitLoop_eq {bs : List Block} (asize : Nat) (hlay : Lay m a bs) {fuel : Nat}
    (hfuel : bs.length < fuel) :
    findFitLoop m asize fuel (a + 4) = some (firstFit asize a bs) := by
  induction bs generalizing a fuel with
  | nil =>
      obtain ⟨k, rfl⟩ := Nat.exists_eq_add_one_of_ne_zero (Nat.ne_of_gt hfuel)
      have hsize : getSize m (hdrp (a + 4)) = 0 := hlay.epi.getSize
      rw [findFitLoop, hsize]
      rfl
  | cons b bs ih =>
      obtain ⟨k, rfl⟩ := Nat.exists_eq_add_one_of_ne_zero (Nat.ne_of_gt (Nat.zero_lt_of_lt hfuel))
      obtain ⟨⟨hb, hlaid⟩, hepi⟩ := hlay
      have hpos : b.size > 0 := Nat.lt_of_lt_of_le (by decide) hb.ok.le
      have halloc : getAlloc m (hdrp (a + 4)) = 0 ↔ b.alloc = false := by
        rw [hb.getAlloc_hdr]
        cases b.alloc <;> simp
      rw [total_cons, ← Nat.add_assoc] at hepi
      simp only [findFitLoop, hb.getSize_hdr, halloc, if_pos hpos, firstFit]
      split
      · rfl
      · rw [hb.nextBlkp_eq]
        exact ih ⟨hlaid, hepi⟩ (Nat.lt_of_succ_lt_succ hfuel)

/-- Null, or a split of the list at a free block that is large enough. -/
theorem firstFit_cases (asize : Nat) (bs : List Block) (a : Nat) :
    firstFit asize a bs = 0 ∨ ∃ (pre : List Block) (b : Block) (post : List Block),
      bs = pre ++ b :: post ∧ b.alloc = false ∧ asize ≤ b.size ∧
        firstFit asize a bs = a + total pre + 4 := by
  induction bs generalizing a with
  | nil => exact .inl rfl
  | cons b bs ih =>
      rw [firstFit]
      split
      case isTrue hfit => exact .inr ⟨[], b, bs, rfl, hfit.1, hfit.2, rfl⟩
      case isFalse =>
        rcases ih (a + b.size) with hnull | ⟨pre, c, post, rfl, hc, hle, heq⟩
        · exact .inl hnull
        · refine .inr ⟨b :: pre, c, post, rfl, hc, hle, ?_⟩
          rw [heq, total_cons, Nat.add_assoc a]

/-! ## The invariant -/

def prologue : Block := ⟨8, true⟩

theorem total_prologue (bs : List Block) : total (prologue :: bs) = 8 + total bs := rfl

/-- The blocks behind the prologue are `bs`, the live pointers `live`. -/
structure Inv (s : State) (bs : List Block) (live : List Nat) : Prop where
  listp : s.listp = s.heap + 8
  maxAddr : s.maxAddr = s.heap + maxHeap
  brk : s.brk = s.heap + 8 + total (prologue :: bs)
  brk_le : s.brk ≤ s.maxAddr
  lay : Lay s.mem (s.heap + 4) (prologue :: bs)
  sep : Separated (prologue :: bs)
  size : ∀ b ∈ bs, 16 ≤ b.size
  live : live.Perm (livePtrs (s.heap + 12) bs)

/-- A free run inside the heap is behind the prologue. -/
theorem split_prologue {bs mid : List Block} (h : prologue :: bs = pre ++ (mid ++ post))
    (hfree : ∀ x ∈ mid, x.alloc = false) (hne : mid ≠ []) :
    ∃ pre', pre = prologue :: pre' ∧ bs = pre' ++ (mid ++ post) := by
  cases pre with
  | nil =>
      cases mid with
      | nil => exact absurd rfl hne
      | cons x rest =>
          obtain ⟨rfl, -⟩ := List.cons.inj h
          have hx := hfree _ List.mem_cons_self
          cases hx
  | cons x pre' =>
      obtain ⟨rfl, hbs⟩ := List.cons.inj h
      exact ⟨pre', rfl, hbs⟩

/-- A free run behind the prologue that has become one block. -/
theorem merged_run {h : Nat} {bs mid pre₁ : List Block}
    (hsplit : prologue :: bs = pre₁ ++ (mid ++ post)) (hfree : ∀ x ∈ mid, x.alloc = false)
    (hne : mid ≠ []) (hsize : ∀ x ∈ bs, 16 ≤ x.size) :
    ∃ pre', pre₁ = prologue :: pre' ∧
      (∀ x ∈ pre' ++ ⟨total mid, false⟩ :: post, 16 ≤ x.size) ∧
      total (pre' ++ ⟨total mid, false⟩ :: post) = total bs ∧
      livePtrs (h + 12) (pre' ++ ⟨total mid, false⟩ :: post) = livePtrs (h + 12) bs := by
  obtain ⟨pre', rfl, rfl⟩ := split_prologue hsplit hfree hne
  have hmid : 16 ≤ total mid := by
    cases mid with
    | nil => exact absurd rfl hne
    | cons x rest =>
        have hx := hsize x (by simp)
        rw [total_cons]
        omega
  refine ⟨pre', rfl, ?_, ?_, ?_⟩
  · intro x hx
    rcases List.mem_append.mp hx with hx | hx
    · exact hsize x (List.mem_append_left _ hx)
    · rcases List.mem_cons.mp hx with rfl | hx
      · exact hmid
      · exact hsize x (List.mem_append_right _ (List.mem_append_right _ hx))
  · simp only [total_append, total_cons]
  · rw [livePtrs_append, livePtrs_append, livePtrs_append, livePtrs_free hfree]
    rfl

/-- `coalesce` at the block `b` of a heap that is well formed but for `b`
itself, which has just become free. -/
theorem coalesce_inv {h : Nat} {bs : List Block} (hbs : prologue :: bs = pre ++ p :: b :: post)
    (hlay : Lay m (h + 4) (prologue :: bs)) (hlt : total (prologue :: bs) < 2 ^ 32)
    (hba : b.alloc = false) (hleft : Separated (pre ++ [p])) (hright : Separated post)
    (hsize : ∀ x ∈ bs, 16 ≤ x.size) (hb : 0 < b.size) :
    ∃ (m' : Mem) (pre' : List Block) (b' : Block) (post' : List Block),
      coalesce m (h + 4 + total pre + p.size + 4) = (m', h + 12 + total pre' + 4) ∧
      Lay m' (h + 4) (prologue :: (pre' ++ b' :: post')) ∧
      Separated (prologue :: (pre' ++ b' :: post')) ∧
      (∀ x ∈ pre' ++ b' :: post', 16 ≤ x.size) ∧ b'.alloc = false ∧
      (h + 12 + total pre' ≤ h + 4 + total pre + p.size ∧
        h + 4 + total pre + p.size + b.size ≤ h + 12 + total pre' + b'.size) ∧
      Mem.EqOff m m' (h + 12 + total pre') (h + 12 + total pre' + b'.size) ∧
      total (pre' ++ b' :: post') = total bs ∧
      livePtrs (h + 12) (pre' ++ b' :: post') = livePtrs (h + 12) bs ∧
      mergeFree bs = pre' ++ b' :: post' := by
  rw [hbs] at hlay hlt
  obtain ⟨m', pre₁, mid, post', hco, hsplit, hfree, hspan, hframe, hlay', hsep'⟩ :=
    coalesce_lay hlay hlt hba hleft hright
  have hne : mid ≠ [] := by
    rintro rfl
    rw [total_nil] at hspan
    omega
  obtain ⟨pre', rfl, hsizes, htotal, hlive⟩ := merged_run (hbs.trans hsplit) hfree hne hsize
  have haddr : h + 4 + total (prologue :: pre') = h + 12 + total pre' := by
    rw [total_prologue]
    omega
  have hmerge : mergeFree bs = pre' ++ ⟨total mid, false⟩ :: post' := by
    obtain rfl : bs = pre' ++ (mid ++ post') := (List.cons.inj (hbs.trans hsplit)).2
    rw [mergeFree_append_congr (mergeFree_run hfree hne post') pre']
    exact mergeFree_of_separated (List.isChain_cons.mp hsep').2
  rw [haddr] at hco hspan hframe
  exact ⟨m', pre', ⟨total mid, false⟩, post', hco, hlay', hsep', hsizes, rfl, hspan, hframe, htotal,
    hlive, hmerge⟩

theorem Inv.total_lt {s : State} {bs : List Block} {live : List Nat} (h : Inv s bs live) :
    total (prologue :: bs) < 2 ^ 32 := by
  have hbrk := h.brk
  have hle := h.brk_le
  rw [h.maxAddr, maxHeap] at hle
  omega

/-- Any block of the heap has a block before it. -/
theorem exists_prev (pre : List Block) :
    ∃ pre₀ q, prologue :: pre = pre₀ ++ [q] ∧ total (prologue :: pre) = total pre₀ + q.size ∧
      ∀ rest, prologue :: (pre ++ rest) = pre₀ ++ q :: rest := by
  obtain hnil | ⟨pre₀, q, hconcat⟩ := List.eq_nil_or_concat (prologue :: pre)
  · cases hnil
  · have heq : prologue :: pre = pre₀ ++ [q] := hconcat.trans List.concat_eq_append
    refine ⟨pre₀, q, heq, ?_, fun rest => ?_⟩
    · rw [heq, total_append]
      rfl
    · rw [← List.cons_append, heq, List.append_assoc]
      rfl

/-- Marking a block free leaves its size. -/
theorem sizes_freed {pre post : List Block} (hsize : ∀ x ∈ pre ++ b :: post, 16 ≤ x.size) :
    ∀ x ∈ pre ++ ⟨b.size, false⟩ :: post, 16 ≤ x.size := by
  rw [List.forall_mem_append, List.forall_mem_cons] at hsize ⊢
  exact hsize

/-- The pointer to a block that is marked free is live no longer. -/
theorem livePtrs_freed {pre post : List Block} {live : List Nat}
    (hlive : live.Perm (livePtrs a (pre ++ b :: post))) (hb : b.alloc = true) :
    (live.erase (a + total pre + 4)).Perm (livePtrs a (pre ++ ⟨b.size, false⟩ :: post)) := by
  rw [livePtrs_append, livePtrs, hb, if_pos rfl] at hlive
  rw [livePtrs_append, livePtrs]
  have herase := (hlive.trans List.perm_middle).erase (a + total pre + 4)
  rwa [List.erase_cons_head] at herase

/-! ## The calls -/

variable {s : State} {bs : List Block} {live : List Nat}

/-- What a call has written is where the blocks `mid` are now, or behind them in
the part that it added to the heap. -/
structure Wrote (s s' : State) (pre mid post : List Block) (live : List Nat) : Prop where
  inv : Inv s' (pre ++ (mid ++ post)) live
  frame : ∃ hi, Mem.EqOff s.mem s'.mem (s'.heap + 12 + total pre) hi ∧
    (hi ≤ s'.heap + 12 + total pre + total mid ∨ post = [])

/-- `mm_free` of the block behind `pre`: all free runs are one block again. -/
theorem mmFree_merged (h : Inv s (pre ++ b :: post) live) (hba : b.alloc = true) :
    ∃ (pre' : List Block) (b' : Block) (post' : List Block), b'.alloc = false ∧
      mergeFree (pre ++ ⟨b.size, false⟩ :: post) = pre' ++ b' :: post' ∧
      Wrote s (mmFree s (s.heap + 12 + total pre + 4)) pre' [b'] post'
        (live.erase (s.heap + 12 + total pre + 4)) := by
  obtain ⟨pre₀, p, hprev, htotal₀, hlist⟩ := exists_prev pre
  have haddr : s.heap + 12 + total pre = s.heap + 4 + total (prologue :: pre) := by
    rw [total_prologue]
    omega
  have haddr₀ : s.heap + 4 + total (prologue :: pre) = s.heap + 4 + total pre₀ + p.size := by
    rw [htotal₀, ← Nat.add_assoc]
  have hlay : Lay s.mem (s.heap + 4) ((prologue :: pre) ++ ([b] ++ post)) := h.lay
  have hb : Tagged s.mem (s.heap + 4 + total (prologue :: pre)) b :=
    (laid_append.mp hlay.laid).2.1
  have hok : Block.Ok ⟨b.size, false⟩ := ⟨hb.ok.dvd, hb.ok.le, hb.ok.lt⟩
  obtain ⟨htag, hoff⟩ := setTags_ok (m := s.mem) (a := s.heap + 4 + total (prologue :: pre)) hok
  have hfreed : Laid _ (s.heap + 4 + total (prologue :: pre)) [⟨b.size, false⟩] := ⟨htag, trivial⟩
  have hlay₁ := hlay.replace hoff hfreed rfl
  obtain ⟨hleft, hrest, -⟩ := List.isChain_append.mp
    (show Separated ((prologue :: pre) ++ (b :: post)) from h.sep)
  have hright := (List.isChain_cons.mp hrest).2
  have hlt : total (prologue :: (pre ++ ⟨b.size, false⟩ :: post)) < 2 ^ 32 := by
    have hlt := h.total_lt
    simpa only [total_cons, total_append] using hlt
  obtain ⟨m', pre', b', post', hco, hlay', hsep', hsize', hfree, hspan, hframe, htotal, hlive,
      hmerge⟩ :=
    coalesce_inv (hlist (⟨b.size, false⟩ :: post)) hlay₁ hlt rfl (hprev ▸ hleft) hright
      (sizes_freed h.size) (Nat.lt_of_lt_of_le (by decide) hok.le)
  have hmem : mmFree s (s.heap + 12 + total pre + 4) = { s with mem := m' } := by
    rw [← haddr₀] at hco
    rw [haddr, mmFree, hb.getSize_hdr]
    exact congrArg (fun r : Mem × Nat => { s with mem := r.1 }) hco
  rw [hmem]
  refine ⟨pre', b', post', hfree, hmerge,
    ⟨h.listp, h.maxAddr, ?_, h.brk_le, hlay', hsep', hsize', ?_⟩,
    s.heap + 12 + total pre' + b'.size, ?_, .inl (Nat.le_refl _)⟩
  · rw [List.singleton_append, total_cons, htotal]
    simpa only [total_cons, total_append] using h.brk
  · rw [List.singleton_append, hlive]
    exact livePtrs_freed h.live hba
  · rw [← haddr₀] at hspan
    exact (hoff.mono hspan.1 hspan.2).trans hframe

/-- `mm_free` of a live pointer: the block it belongs to has become part of a free one. -/
theorem mmFree_wrote (h : Inv s bs live) {q : Nat} (hq : q ∈ live) :
    ∃ pre b post, b.alloc = false ∧ Wrote s (mmFree s q) pre [b] post (live.erase q) := by
  obtain ⟨pre, b, post, rfl, hba, rfl⟩ := exists_of_mem_livePtrs (h.live.mem_iff.mp hq)
  obtain ⟨pre', b', post', hfree, -, hwrote⟩ := mmFree_merged h hba
  exact ⟨pre', b', post', hfree, hwrote⟩

theorem toInt_eq {n : Nat} (h : n < 2 ^ 31) : toInt n = n := by
  have hmod : n % 2 ^ 32 = n := Nat.mod_eq_of_lt (by omega)
  rw [toInt, hmod, if_pos h]

/-- What `mem_sbrk` answers to a positive `int`. -/
theorem memSbrk_eq {n : Nat} (hlt : n < 2 ^ 31) :
    memSbrk s (toInt n) =
      if s.brk + n > s.maxAddr then none else some (s.brk, { s with brk := s.brk + n }) := by
  rw [toInt_eq hlt, memSbrk]
  by_cases hfull : s.brk + n > s.maxAddr
  · rw [if_pos hfull, if_pos]
    right
    omega
  · rw [if_neg hfull, if_neg]
    · rfl
    · omega

section ExtendHeap
variable {size : Nat} (hdvd : 8 ∣ size) (hlt : size < 2 ^ 64)
include hdvd hlt

/-- An even number of words. -/
theorem words_mul : ¬ size / wsize % 2 ≠ 0 ∧ Word.mul 64 (size / wsize) wsize = size := by
  have hsize : size / 4 * 4 = size := Nat.div_mul_cancel (Nat.dvd_trans (by decide) hdvd)
  constructor
  · rw [wsize]
    omega
  · rw [Word.mul_eq (by rw [wsize, hsize]; exact hlt), wsize, hsize]

theorem extendHeap_none (hsbrk : memSbrk s (toInt size) = none) :
    extendHeap s (size / wsize) = (s, 0) := by
  obtain ⟨hwords, hmul⟩ := words_mul hdvd hlt
  simp only [extendHeap, if_neg hwords, hmul, hsbrk]

theorem extendHeap_some {s₁ : State} {bp : Nat} (hsbrk : memSbrk s (toInt size) = some (bp, s₁)) :
    extendHeap s (size / wsize) =
      ({ s₁ with mem := (coalesce (appendBlock s₁.mem bp size) bp).1 },
        (coalesce (appendBlock s₁.mem bp size) bp).2) := by
  obtain ⟨hwords, hmul⟩ := words_mul hdvd hlt
  simp only [extendHeap, if_neg hwords, hmul, hsbrk, appendBlock]

end ExtendHeap

/-- The epilogue word becomes the header of the new last block. -/
theorem append_ok (hlay : Lay m a bs) (hb : b.Ok) :
    ∃ m', put (setTags m (a + total bs + 4) b.tag)
        (hdrp (nextBlkp (setTags m (a + total bs + 4) b.tag) (a + total bs + 4))) (pack 0 1) = m' ∧
      Lay m' a (bs ++ [b]) ∧ Mem.EqOff m m' (a + total bs) (a + total bs + b.size + 4) := by
  obtain ⟨htag, hoff⟩ := setTags_ok (m := m) (a := a + total bs) hb
  refine ⟨_, rfl, ⟨?_, ?_⟩, ?_⟩
  · rw [htag.nextBlkp_eq, hdrp, wsize, Nat.add_sub_cancel]
    refine laid_append.mpr ⟨hlay.laid.congr fun q hlow hhigh => ?_, ?_, trivial⟩
    · rw [get_put_of_disjoint (.inl (by omega))]
      exact get_of_eqOff hoff (.inl hhigh)
    · refine htag.congr fun q hlow hhigh => ?_
      exact get_put_of_disjoint (.inl hhigh)
  · rw [htag.nextBlkp_eq, hdrp, wsize, Nat.add_sub_cancel, total_append, total_cons, total_nil,
      Nat.add_zero, ← Nat.add_assoc]
    exact get_put_self (by decide)
  · rw [htag.nextBlkp_eq, hdrp, wsize, Nat.add_sub_cancel]
    exact (hoff.mono (Nat.le_refl _) (Nat.le_add_right _ _)).trans
      (eqOff_put (Nat.le_add_right _ _) (Nat.le_refl _))

/-- A block that reaches to the end of its list is the last one. -/
theorem eq_nil_of_reach {pre post : List Block} (hsize : ∀ x ∈ pre ++ b :: post, 16 ≤ x.size)
    (hreach : total (pre ++ b :: post) ≤ total pre + b.size) : post = [] := by
  cases post with
  | nil => rfl
  | cons c rest =>
      have hc := hsize c (List.mem_append_right pre (List.mem_cons_of_mem b List.mem_cons_self))
      rw [total_append, total_cons, total_cons] at hreach
      omega

/-- `extend_heap`: nothing happens when the arena is full; otherwise the heap
ends in a new free block, merged with a free one before it. -/
theorem extendHeap_wrote (h : Inv s bs live) {size : Nat} (hdvd : 8 ∣ size) (hsize : 16 ≤ size)
    (hlt : size < 2 ^ 31) :
    (s.brk + size > s.maxAddr ∧ extendHeap s (size / wsize) = (s, 0)) ∨
      ∃ m' pre' b', s.brk + size ≤ s.maxAddr ∧
        extendHeap s (size / wsize) =
          ({ s with brk := s.brk + size, mem := m' }, s.heap + 12 + total pre' + 4) ∧
        Wrote s { s with brk := s.brk + size, mem := m' } pre' [b'] [] live ∧ b'.alloc = false ∧
        size ≤ b'.size ∧ mergeFree (bs ++ [⟨size, false⟩]) = pre' ++ [b'] := by
  have hlt64 : size < 2 ^ 64 := Nat.lt_trans hlt (by decide)
  by_cases hfull : s.brk + size > s.maxAddr
  · refine .inl ⟨hfull, extendHeap_none hdvd hlt64 ?_⟩
    rw [memSbrk_eq hlt, if_pos hfull]
  · right
    have hsbrk : memSbrk s (toInt size) = some (s.brk, { s with brk := s.brk + size }) := by
      rw [memSbrk_eq hlt, if_neg hfull]
    have hle := h.maxAddr
    have hbrk := h.brk
    have hmax : total (prologue :: bs) + size < 2 ^ 32 := by
      rw [maxHeap] at hle
      omega
    obtain ⟨pre₀, p, hprev, htotal₀, hlist⟩ := exists_prev bs
    have haddr₀ : s.heap + 4 + total (prologue :: bs) = s.heap + 4 + total pre₀ + p.size := by
      rw [htotal₀, ← Nat.add_assoc]
    have hbp : s.brk = s.heap + 4 + total (prologue :: bs) + 4 := by omega
    obtain ⟨m₂, hm₂, hlay₂, hframe₂⟩ := append_ok h.lay (b := ⟨size, false⟩)
      ⟨hdvd, by simp; omega, by simp; omega⟩
    have hsizes : ∀ x ∈ bs ++ [(⟨size, false⟩ : Block)], 16 ≤ x.size :=
      List.forall_mem_append.mpr ⟨h.size, List.forall_mem_singleton.mpr hsize⟩
    have hlt' : total (prologue :: (bs ++ [⟨size, false⟩])) < 2 ^ 32 := by
      simp only [total_cons, total_append, total_nil] at hmax ⊢
      omega
    obtain ⟨m', pre', b', post', hco, hlay', hsep', hsize', hfree, hspan, hframe, htotal, hlive,
        hmerge⟩ :=
      coalesce_inv (hlist [⟨size, false⟩]) hlay₂ hlt' rfl (hprev ▸ h.sep) List.isChain_nil hsizes
        (show 0 < size by omega)
    rw [← haddr₀, ← hbp] at hco
    rw [← haddr₀] at hspan
    -- the new block is the last one, and so is the one it has become part of
    have hhigh : s.heap + 4 + total (prologue :: bs) + size ≤ s.heap + 12 + total pre' + b'.size :=
      hspan.2
    obtain rfl : post' = [] := by
      refine eq_nil_of_reach hsize' ?_
      rw [total_prologue] at hhigh
      simp only [htotal, total_append, total_cons, total_nil]
      omega
    have hgrow : size ≤ b'.size := by
      have hlow := hspan.1
      omega
    refine ⟨m', pre', b', Nat.le_of_not_gt hfull, ?_, ⟨⟨h.listp, h.maxAddr, ?_,
      Nat.le_of_not_gt hfull, hlay', hsep', hsize', ?_⟩, s.brk + size, ?_, .inr rfl⟩, hfree, hgrow,
      hmerge⟩
    · have happend : appendBlock s.mem s.brk size = m₂ := by
        rw [hbp]
        exact hm₂
      rw [extendHeap_some hdvd hlt64 hsbrk, happend, hco]
    · show s.brk + size = _
      rw [total_cons, List.singleton_append, htotal, hbrk]
      simp only [total_cons, total_append, total_nil]
      omega
    · rw [List.singleton_append, hlive, livePtrs_append]
      simpa [livePtrs] using h.live
    · refine (hframe₂.mono hspan.1 ?_).trans (hframe.mono (Nat.le_refl _) ?_)
      · show s.heap + 4 + total (prologue :: bs) + size + 4 ≤ s.brk + size
        omega
      · simp only [total_cons, total_append, total_nil] at htotal hbp ⊢
        have hfirst : prologue.size = 8 := rfl
        show s.heap + 12 + total pre' + b'.size ≤ s.brk + size
        omega

/-- The front of the cut is large enough and used, the rest is free. -/
theorem exists_cut {asize : Nat} (hle : asize ≤ b.size) (hasize : 16 ≤ asize) :
    ∃ c tail, cut b asize = c :: tail ∧ c.alloc = true ∧ asize ≤ c.size ∧
      (∀ x ∈ tail, x.alloc = false) ∧ (∀ x ∈ c :: tail, 16 ≤ x.size) ∧ tail.length ≤ 1 := by
  rw [cut]
  split
  case isTrue hbig =>
    refine ⟨⟨asize, true⟩, [⟨b.size - asize, false⟩], rfl, rfl, Nat.le_refl _, by simp, ?_,
      Nat.le_refl _⟩
    simp
    omega
  case isFalse =>
    refine ⟨⟨b.size, true⟩, [], rfl, rfl, hle, by simp, ?_, Nat.zero_le _⟩
    simp
    omega

/-- What `place` does to the list of blocks: a free block is cut, and its pointer is
live. -/
theorem cut_placed {h asize : Nat} (hsep : Separated (prologue :: (pre ++ b :: post)))
    (hsize : ∀ x ∈ pre ++ b :: post, 16 ≤ x.size) (hba : b.alloc = false) (hle : asize ≤ b.size)
    (hasize : 16 ≤ asize) (hlive : live.Perm (livePtrs (h + 12) (pre ++ b :: post))) :
    total (pre ++ (cut b asize ++ post)) = total (pre ++ b :: post) ∧
      Separated (prologue :: (pre ++ (cut b asize ++ post))) ∧
      (∀ x ∈ pre ++ (cut b asize ++ post), 16 ≤ x.size) ∧
      ((h + 12 + total pre + 4) :: live).Perm
        (livePtrs (h + 12) (pre ++ (cut b asize ++ post))) := by
  have hend := total_cut hle
  obtain ⟨hleft, hrest, -⟩ := List.isChain_append.mp
    (show Separated ((prologue :: pre) ++ b :: post) from hsep)
  have hhead := Separated.head_of_free hrest hba
  have hpost := (List.isChain_cons.mp hrest).2
  obtain ⟨c, tail, hcut, hca, -, htail, hsizes, hone⟩ := exists_cut hle hasize
  have hchain : Separated (c :: tail ++ post) := by
    refine List.isChain_cons.mpr ⟨fun x _ => .inl hca, ?_⟩
    cases tail with
    | nil => exact hpost
    | cons d rest =>
        obtain rfl := List.length_eq_zero_iff.mp (Nat.le_zero.mp (Nat.le_of_succ_le_succ hone))
        exact List.isChain_cons.mpr ⟨fun x hx => .inr (hhead x hx), hpost⟩
  rw [hcut] at hend ⊢
  refine ⟨?_, ?_, ?_, ?_⟩
  · simp only [total_cons, total_append] at hend ⊢
    omega
  · exact List.isChain_append.mpr ⟨hleft, hchain, fun x _ y hy => .inr (by cases hy; exact hca)⟩
  · intro x hx
    rcases List.mem_append.mp hx with hx | hx
    · exact hsize x (List.mem_append_left _ hx)
    · rcases List.mem_append.mp hx with hx | hx
      · exact hsizes x hx
      · exact hsize x (by simp [hx])
  · rw [livePtrs_append, livePtrs, hba, if_neg (by simp)] at hlive
    rw [livePtrs_append, livePtrs_append, livePtrs, hca, if_pos rfl, livePtrs_free htail, hend]
    exact (hlive.cons _).trans List.perm_middle.symm

/-- `place` in a free block makes its pointer live. -/
theorem place_wrote (h : Inv s (pre ++ b :: post) live) (hba : b.alloc = false) {asize : Nat}
    (hle : asize ≤ b.size) (hasize : 16 ≤ asize) (hdvd : 8 ∣ asize) :
    Wrote s { s with mem := place s.mem (s.heap + 12 + total pre + 4) asize } pre (cut b asize) post
      ((s.heap + 12 + total pre + 4) :: live) := by
  have haddr : s.heap + 4 + total (prologue :: pre) = s.heap + 12 + total pre := by
    rw [total_prologue]
    omega
  have hlay : Lay s.mem (s.heap + 4) ((prologue :: pre) ++ b :: post) := h.lay
  obtain ⟨hlay', hframe⟩ := place_ok hlay hle hasize hdvd
  obtain ⟨htotal, hsep, hsize, hlive⟩ := cut_placed h.sep h.size hba hle hasize h.live
  rw [haddr] at hlay' hframe
  refine ⟨⟨h.listp, h.maxAddr, ?_, h.brk_le, hlay', hsep, hsize, hlive⟩, _, hframe, .inl ?_⟩
  · rw [total_cons, htotal]
    exact h.brk
  · rw [total_cut hle]

/-- Two calls that write in the same place are one. -/
theorem Wrote.trans {s₁ s₂ : State} {mid mid' : List Block} {live' : List Nat}
    (h : Wrote s s₁ pre mid post live) (h' : Wrote s₁ s₂ pre mid' post live')
    (hheap : s₂.heap = s₁.heap) (htotal : total mid' = total mid) :
    Wrote s s₂ pre mid' post live' := by
  obtain ⟨-, hi, hoff, hhi⟩ := h
  obtain ⟨hinv, hi', hoff', hhi'⟩ := h'
  rw [hheap] at hoff' hhi'
  refine ⟨hinv, max hi hi', ?_, ?_⟩
  · rw [hheap]
    exact (hoff.mono (Nat.le_refl _) (Nat.le_max_left _ _)).trans
      (hoff'.mono (Nat.le_refl _) (Nat.le_max_right _ _))
  · rw [hheap]
    rcases hhi with hhi | hpost
    · refine hhi'.imp_left fun hhi' => ?_
      rw [← htotal] at hhi
      exact Nat.max_le.mpr ⟨hhi, hhi'⟩
    · exact .inr hpost

theorem adjust_ok {size : Nat} (hsize : size < 2 ^ 31 - 16) :
    16 ≤ adjust size ∧ 8 ∣ adjust size ∧ adjust size < 2 ^ 31 := by
  rw [adjust]
  split
  · decide
  case isFalse hbig =>
    have h₁ : Word.add 64 size dsize = size + 8 := Word.add_eq (by rw [dsize]; omega)
    have h₂ : Word.add 64 (size + 8) (dsize - 1) = size + 15 := Word.add_eq (by rw [dsize]; omega)
    rw [dsize] at hbig
    rw [h₁, h₂, dsize]
    omega

theorem length_le_total (h : Laid m a bs) : bs.length ≤ total bs := by
  induction bs generalizing a with
  | nil => exact Nat.le_refl 0
  | cons b bs ih =>
      have hb := h.1.ok.le
      have hrest := ih h.2
      rw [total_cons, List.length_cons]
      omega

theorem Inv.findFit_eq (h : Inv s bs live) (asize : Nat) :
    findFit s asize = some (firstFit asize (s.heap + 4) (prologue :: bs)) := by
  rw [findFit, h.listp]
  refine findFitLoop_eq asize h.lay ?_
  have hlen := length_le_total h.lay.laid
  have hbrk := h.brk
  omega

theorem mmMalloc_fit {size bp : Nat} (hsize : size ≠ 0)
    (hfind : findFit s (adjust size) = some bp) (hbp : bp ≠ 0) :
    mmMalloc s size = some ({ s with mem := place s.mem bp (adjust size) }, bp) := by
  simp only [mmMalloc, if_neg hsize, hfind, Option.bind_eq_bind, Option.bind_some, if_pos hbp]

theorem mmMalloc_full {size : Nat} (hsize : size ≠ 0) (hfind : findFit s (adjust size) = some 0)
    (hext : extendHeap s (max (adjust size) chunksize / wsize) = (s, 0)) :
    mmMalloc s size = some (s, 0) := by
  simp only [mmMalloc, if_neg hsize, hfind, Option.bind_eq_bind, Option.bind_some, hext, ne_eq,
    not_true_eq_false, if_false, if_true]

theorem mmMalloc_extend {s' : State} {size bp : Nat} (hsize : size ≠ 0)
    (hfind : findFit s (adjust size) = some 0)
    (hext : extendHeap s (max (adjust size) chunksize / wsize) = (s', bp)) (hbp : bp ≠ 0) :
    mmMalloc s size = some ({ s' with mem := place s'.mem bp (adjust size) }, bp) := by
  simp only [mmMalloc, if_neg hsize, hfind, Option.bind_eq_bind, Option.bind_some, hext, ne_eq,
    not_true_eq_false, if_false, if_neg hbp]

/-- `mm_malloc` where the adjusted size fits the `int` of `mem_sbrk`: null, or the
front of a block that was free. -/
theorem mmMalloc_wrote (h : Inv s bs live) {size : Nat} (hzero : size ≠ 0)
    (hasize : 16 ≤ adjust size ∧ 8 ∣ adjust size ∧ adjust size < 2 ^ 31) :
    mmMalloc s size = some (s, 0) ∨
      ∃ s' pre b post, mmMalloc s size = some (s', s'.heap + 12 + total pre + 4) ∧
        adjust size ≤ b.size ∧ Wrote s s' pre (cut b (adjust size)) post
          ((s'.heap + 12 + total pre + 4) :: live) := by
  obtain ⟨hlow, hdvd, hlt⟩ := hasize
  have hfind := h.findFit_eq (adjust size)
  rcases firstFit_cases (adjust size) (prologue :: bs) (s.heap + 4) with
    hnull | ⟨pre, b, post, hsplit, hba, hle, hfit⟩
  · rw [hnull] at hfind
    have hext : 8 ∣ max (adjust size) chunksize ∧ 16 ≤ max (adjust size) chunksize ∧
        max (adjust size) chunksize < 2 ^ 31 := by
      rw [chunksize]
      omega
    rcases extendHeap_wrote h hext.1 hext.2.1 hext.2.2 with
      ⟨-, hfull⟩ | ⟨m', pre', b', -, hgrown, hwrote, hba, hle, -⟩
    · exact .inl (mmMalloc_full hzero hfind hfull)
    · have hle' := le_trans (le_max_left _ _) hle
      have hplaced := hwrote.trans (place_wrote hwrote.inv hba hle' hlow hdvd) rfl
        ((total_cut hle').trans (Nat.add_zero _).symm)
      exact .inr ⟨_, pre', b', [], mmMalloc_extend hzero hfind hgrown (Nat.succ_ne_zero _), hle',
        hplaced⟩
  · have hfree : ∀ x ∈ [b], x.alloc = false := by simp [hba]
    obtain ⟨pre', rfl, rfl⟩ := split_prologue hsplit hfree (List.cons_ne_nil _ _)
    have haddr : s.heap + 4 + total (prologue :: pre') + 4 = s.heap + 12 + total pre' + 4 := by
      rw [total_prologue]
      omega
    rw [hfit, haddr] at hfind
    refine .inr ⟨{ s with mem := place s.mem (s.heap + 12 + total pre' + 4) (adjust size) },
      pre', b, post, ?_, hle, place_wrote h hba hle hlow hdvd⟩
    exact mmMalloc_fit hzero hfind (Nat.succ_ne_zero _)

/-- `mm_malloc` of any size that fits the `int` of `mem_sbrk`. -/
theorem mmMalloc_inv (h : Inv s bs live) {size : Nat} (hsize : size < 2 ^ 31 - 16) :
    ∃ s' q bs', mmMalloc s size = some (s', q) ∧
      Inv s' bs' (if q = 0 then live else q :: live) := by
  by_cases hzero : size = 0
  · exact ⟨s, 0, bs, by rw [mmMalloc, if_pos hzero], h⟩
  · rcases mmMalloc_wrote h hzero (adjust_ok hsize) with hnull | ⟨s', pre, b, post, hcode, -, hwrote⟩
    · exact ⟨s, 0, bs, hnull, h⟩
    · exact ⟨s', _, _, hcode, hwrote.inv⟩

/-- The four words of `mm_init` are the prologue and the epilogue. -/
theorem initWords_lay (m : Mem) (h : Nat) : Lay (initWords m h) (h + 4) [prologue] := by
  have hok : prologue.Ok := ⟨by decide, by decide, by decide⟩
  refine ⟨⟨⟨hok, ?_, ?_⟩, trivial⟩, get_put_self (by decide)⟩
  · show get (put (put (put (put m h 0) (h + 4) _) (h + 8) _) (h + 12) _) (h + 4) = _
    rw [get_put_of_disjoint (.inl (by omega)), get_put_of_disjoint (.inl (by omega))]
    exact get_put_self (by decide)
  · show get (put (put (put (put m h 0) (h + 4) _) (h + 8) _) (h + 12) _) (h + 8) = _
    rw [get_put_of_disjoint (.inl (by omega))]
    exact get_put_self (by decide)

/-- The heap between the two parts of `mm_init`: prologue and epilogue only. -/
theorem initWords_inv (m : Mem) (base : Nat) :
    Inv ⟨initWords m base, base, base + 16, base + maxHeap, base + 2 * wsize⟩ [] [] := by
  refine ⟨rfl, rfl, rfl, ?_, initWords_lay m base, ?_, by simp, List.Perm.refl _⟩
  · show base + 16 ≤ base + maxHeap
    exact Nat.add_le_add_left (by decide) base
  · exact List.isChain_singleton _

theorem mmInit_eq {s s₁ s₂ : State} {h q : Nat} (hsbrk : memSbrk s (4 * wsize) = some (h, s₁))
    (hext : extendHeap { s₁ with mem := initWords s₁.mem h, listp := h + 2 * wsize }
      (chunksize / wsize) = (s₂, q)) (hq : q ≠ 0) : mmInit s = (0, s₂) := by
  unfold mmInit
  rw [hsbrk]
  dsimp only
  rw [hext]
  exact if_neg hq

theorem mmInit_inv (m : Mem) (base : Nat) :
    ∃ s bs, mmInit (memInit m base) = (0, s) ∧ Inv s bs [] := by
  have hsbrk : memSbrk (memInit m base) (4 * wsize) =
      some (base, { memInit m base with brk := base + 16 }) := by
    rw [memSbrk, if_neg]
    · rfl
    · simp [memInit, wsize, maxHeap]
  have hdvd : 8 ∣ chunksize := by decide
  rcases extendHeap_wrote (initWords_inv m base) hdvd (by decide) (by decide) with
    ⟨hfull, -⟩ | ⟨m', pre', b', -, hext, hwrote, -⟩
  · exfalso
    have hroom : base + 16 + chunksize ≤ base + maxHeap := by
      rw [Nat.add_assoc]
      exact Nat.add_le_add_left (by decide) base
    exact absurd hfull (Nat.not_lt_of_le hroom)
  · exact ⟨_, _, mmInit_eq hsbrk hext (Nat.succ_ne_zero _), hwrote.inv⟩

/-! ## Runs -/

/-- Some blocks satisfy the invariant. -/
def Good (s : State × List Nat) : Prop := ∃ bs, Inv s.1 bs s.2

theorem step_good (s : State × List Nat) (op : Op) (h : Good s) (hallowed : Allowed s op) :
    ∃ s', step s op = some s' ∧ Good s' := by
  obtain ⟨bs, h⟩ := h
  cases op with
  | malloc size =>
      obtain ⟨s', q, bs', hmalloc, hinv⟩ := mmMalloc_inv h hallowed
      refine ⟨(s', if q = 0 then s.2 else q :: s.2), ?_, bs', hinv⟩
      rw [step, hmalloc]
      rfl
  | free q =>
      obtain ⟨pre, b, post, -, hwrote⟩ := mmFree_wrote h hallowed
      exact ⟨_, rfl, _, hwrote.inv⟩

/-- Every heap reached by allowed calls. -/
theorem good_of_run {m : Mem} {base : Nat} {ops : List Op}
    (hallowed : Along step Allowed ((mmInit (memInit m base)).2, []) ops) {s : State × List Nat}
    (hrun : run step ((mmInit (memInit m base)).2, []) ops = some s) : Good s := by
  obtain ⟨s₀, bs₀, hinit, hinv₀⟩ := mmInit_inv m base
  rw [hinit] at hallowed hrun
  obtain ⟨s', hrun', hgood⟩ := run_invariant step_good ops ⟨bs₀, hinv₀⟩ hallowed
  cases hrun.symm.trans hrun'
  exact hgood

/-! ## Walking the heap -/

/-- The block pointers met along `NEXT_BLKP` from `bp` up to a header of size
zero, and the pointer where the walk ends. -/
def walk (m : Mem) : Nat → Nat → Option (List Nat × Nat)
  | 0, _ => none
  | fuel + 1, bp =>
      if getSize m (hdrp bp) = 0 then some ([], bp)
      else (walk m fuel (nextBlkp m bp)).map fun r => (bp :: r.1, r.2)

/-- The bytes of a block. -/
def extent (m : Mem) (bp : Nat) : Nat × Nat := (hdrp bp, hdrp bp + getSize m (hdrp bp))

/-- Nonempty ranges, each beginning where the one before ends. -/
def Tile : Nat → Nat → List (Nat × Nat) → Prop
  | lo, hi, [] => lo = hi
  | lo, hi, e :: es => e.1 = lo ∧ lo < e.2 ∧ Tile e.2 hi es

/-- The heap that the walk from the prologue sees, `bps` being the block
pointers behind the prologue. -/
structure WellFormed (s : State) (bps live : List Nat) : Prop where
  walk : walk s.mem (s.brk - s.heap + 1) s.listp = some (s.listp :: bps, s.brk)
  epilogue : getSize s.mem (s.brk - 4) = 0 ∧ getAlloc s.mem (s.brk - 4) = 1
  tile : Tile (s.heap + 4) (s.brk - 4) ((s.listp :: bps).map (extent s.mem))
  size : ∀ bp ∈ bps, 8 ∣ getSize s.mem (hdrp bp) ∧ 16 ≤ getSize s.mem (hdrp bp)
  footer : ∀ bp ∈ bps, get s.mem (ftrp s.mem bp) = get s.mem (hdrp bp)
  live : live.Perm (bps.filter fun bp => getAlloc s.mem (hdrp bp) = 1)
  sep : (s.listp :: bps).IsChain fun x y =>
    getAlloc s.mem (hdrp x) = 1 ∨ getAlloc s.mem (hdrp y) = 1

/-- The block pointers of a layout. -/
def ptrs : Nat → List Block → List Nat
  | _, [] => []
  | a, b :: bs => (a + 4) :: ptrs (a + b.size) bs

theorem walk_eq (h : Lay m a bs) {fuel : Nat} (hfuel : bs.length < fuel) :
    walk m fuel (a + 4) = some (ptrs a bs, a + total bs + 4) := by
  induction bs generalizing a fuel with
  | nil =>
      obtain ⟨k, rfl⟩ := Nat.exists_eq_add_one_of_ne_zero (Nat.ne_of_gt hfuel)
      have hsize : getSize m (hdrp (a + 4)) = 0 := h.epi.getSize
      rw [walk, if_pos hsize]
      rfl
  | cons b bs ih =>
      obtain ⟨k, rfl⟩ := Nat.exists_eq_add_one_of_ne_zero (Nat.ne_of_gt (Nat.zero_lt_of_lt hfuel))
      obtain ⟨⟨hb, hlaid⟩, hepi⟩ := h
      have hle := hb.ok.le
      rw [total_cons, ← Nat.add_assoc] at hepi
      rw [walk, hb.getSize_hdr, if_neg (by omega), hb.nextBlkp_eq,
        ih ⟨hlaid, hepi⟩ (Nat.lt_of_succ_lt_succ hfuel), total_cons, ← Nat.add_assoc]
      rfl

theorem tile_ptrs (h : Laid m a bs) : Tile a (a + total bs) ((ptrs a bs).map (extent m)) := by
  induction bs generalizing a with
  | nil => rfl
  | cons b bs ih =>
      have hle := h.1.ok.le
      have hext : extent m (a + 4) = (a, a + b.size) := by
        rw [extent, h.1.getSize_hdr, hdrp, wsize, Nat.add_sub_cancel]
      rw [ptrs, List.map_cons, hext, total_cons, ← Nat.add_assoc]
      refine ⟨rfl, ?_, ih h.2⟩
      show a < a + b.size
      omega

theorem exists_of_mem_ptrs (h : Laid m a bs) {q : Nat} (hq : q ∈ ptrs a bs) :
    ∃ c b, b ∈ bs ∧ Tagged m c b ∧ q = c + 4 := by
  induction bs generalizing a with
  | nil => cases hq
  | cons b bs ih =>
      rcases List.mem_cons.mp hq with rfl | hq
      · exact ⟨a, b, List.mem_cons_self, h.1, rfl⟩
      · obtain ⟨c, b', hmem, htag, heq⟩ := ih h.2 hq
        exact ⟨c, b', List.mem_cons_of_mem _ hmem, htag, heq⟩

theorem Tagged.getAlloc_eq_one (h : Tagged m a b) :
    getAlloc m (hdrp (a + 4)) = 1 ↔ b.alloc = true := by
  rw [h.getAlloc_hdr]
  cases b.alloc <;> simp

theorem livePtrs_eq (h : Laid m a bs) :
    livePtrs a bs = (ptrs a bs).filter fun bp => getAlloc m (hdrp bp) = 1 := by
  induction bs generalizing a with
  | nil => rfl
  | cons b bs ih =>
      rw [livePtrs, ptrs, List.filter_cons, ih h.2]
      simp only [decide_eq_true_eq, Tagged.getAlloc_eq_one h.1]

theorem isChain_ptrs (h : Laid m a bs) (hsep : Separated bs) :
    (ptrs a bs).IsChain fun x y => getAlloc m (hdrp x) = 1 ∨ getAlloc m (hdrp y) = 1 := by
  induction bs generalizing a with
  | nil => exact List.isChain_nil
  | cons b bs ih =>
      obtain ⟨hjoin, hrest⟩ := List.isChain_cons.mp hsep
      refine List.isChain_cons.mpr ⟨?_, ih h.2 hrest⟩
      cases bs with
      | nil => simp [ptrs]
      | cons c bs =>
          intro y hy
          have hy : a + b.size + 4 = y := by simpa [ptrs] using hy
          subst hy
          rw [Tagged.getAlloc_eq_one h.1, Tagged.getAlloc_eq_one h.2.1]
          exact hjoin c rfl

theorem Inv.wellFormed (h : Inv s bs live) : WellFormed s (ptrs (s.heap + 12) bs) live := by
  have hend : s.heap + 4 + total (prologue :: bs) = s.brk - 4 := by
    rw [h.brk]
    omega
  have hptrs : ptrs (s.heap + 4) (prologue :: bs) = s.listp :: ptrs (s.heap + 12) bs := by
    rw [h.listp]
    rfl
  have hlaid : Laid s.mem (s.heap + 12) bs := h.lay.laid.2
  have hepi := h.lay.epi
  rw [hend] at hepi
  refine ⟨?_, ⟨hepi.getSize, hepi.getAlloc⟩, ?_, ?_, ?_, ?_, ?_⟩
  · have hlen := length_le_total h.lay.laid
    have hbrk := h.brk
    have hwalk := walk_eq h.lay (show (prologue :: bs).length < s.brk - s.heap + 1 by omega)
    have hstop : s.heap + 4 + total (prologue :: bs) + 4 = s.brk := by omega
    rw [hptrs, hstop] at hwalk
    rw [← hwalk, h.listp]
  · rw [← hptrs, ← hend]
    exact tile_ptrs h.lay.laid
  · intro bp hbp
    obtain ⟨c, b, hb, htag, rfl⟩ := exists_of_mem_ptrs hlaid hbp
    rw [htag.getSize_hdr]
    exact ⟨htag.ok.dvd, h.size b hb⟩
  · intro bp hbp
    obtain ⟨c, b, hb, htag, rfl⟩ := exists_of_mem_ptrs hlaid hbp
    rw [htag.ftrp_eq, htag.ftr]
    exact htag.hdr.symm
  · rw [← livePtrs_eq hlaid]
    exact h.live
  · rw [← hptrs]
    exact isChain_ptrs h.lay.laid h.sep

/-- **The boundary-tag heap stays well formed**: after `mem_init` and `mm_init`,
every run of `mm_malloc` and of `mm_free` on live pointers returns and leaves a
heap whose blocks, walked from the prologue, tile it up to the epilogue, with
equal tags, no two free neighbours, and the live pointers as the allocated
blocks. -/
theorem heap_well_formed (m : Mem) (base : Nat) (ops : List Op)
    (hallowed : Along step Allowed ((mmInit (memInit m base)).2, []) ops) :
    (mmInit (memInit m base)).1 = 0 ∧
      ∃ s live bps, run step ((mmInit (memInit m base)).2, []) ops = some (s, live) ∧
        WellFormed s bps live := by
  obtain ⟨s₀, bs₀, hinit, hinv₀⟩ := mmInit_inv m base
  rw [hinit] at hallowed ⊢
  obtain ⟨⟨s, live⟩, hrun, bs, hinv⟩ := run_invariant step_good ops ⟨bs₀, hinv₀⟩ hallowed
  exact ⟨rfl, s, live, _, hrun, hinv.wellFormed⟩

/-- The calls of `main`: a pointer reused, then two neighbours freed and merged. -/
theorem heap_well_formed_main :
    ∃ s live bps, run step ((mmInit (memInit (fun _ => 0) 4096)).2, [])
        [.malloc 128, .free 4112, .malloc 128, .malloc 64, .malloc 64, .free 4248, .free 4320,
          .malloc 128] = some (s, live) ∧ WellFormed s bps live :=
  (heap_well_formed (fun _ => 0) 4096
    [.malloc 128, .free 4112, .malloc 128, .malloc 64, .malloc 64, .free 4248, .free 4320,
      .malloc 128] (by decide +kernel)).2

end CKernel.Malloc.Ptmalloc
