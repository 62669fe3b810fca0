/-
# `CKernel.Lib.LinkedQueue` — queues of nodes in a typed heap

A node has a datum and points to the one behind it.  `Queued h head tail l` says that
the pairs of `l` are nodes with their data, linked in this order: `head` is the first,
`tail` the last, and both are null when there is none.  `Owns h ps` says that the
addresses of `ps`, each of which is there once, are those that are live.

    a node goes in at the tail                              (`Queued.push_nil`, `Queued.push`)
    the first one comes out at the head                     (`Queued.pop`)
    what is written elsewhere leaves a queue as it is       (`Queued.congr`)
    what is owned follows `malloc` and `free`               (`Owns.new`, `Owns.drop`)
-/
import CKernel.Lib.Heap

namespace CKernel.LinkedQueue

structure Node (α : Type) where
  data : α
  next : Ptr
  deriving DecidableEq, Repr

variable {α : Type}

/-- The pairs of `l` are linked from `p` on, the last one to `q`. -/
def Seg (h : Heap (Node α)) : Ptr → List (Ptr × α) → Ptr → Prop
  | p, [], q => p = q
  | p, e :: l, q => p = e.1 ∧ ∃ next, h.load p = some ⟨e.2, next⟩ ∧ Seg h next l q

/-- The addresses of the nodes. -/
def addrs (l : List (Ptr × α)) : List Ptr := l.map Prod.fst

structure Queued (h : Heap (Node α)) (head tail : Ptr) (l : List (Ptr × α)) : Prop where
  seg : Seg h head l 0
  nodup : (addrs l).Nodup
  tail : tail = (addrs l).getLastD 0

variable {h h' : Heap (Node α)} {head tail p q r : Ptr} {l l' : List (Ptr × α)} {e : Ptr × α}
  {a : α}

@[simp] theorem addrs_nil : addrs ([] : List (Ptr × α)) = [] := rfl

@[simp] theorem addrs_cons : addrs (e :: l) = e.1 :: addrs l := rfl

@[simp] theorem addrs_append : addrs (l ++ l') = addrs l ++ addrs l' := List.map_append

theorem seg_append : Seg h p (l ++ l') q ↔ ∃ r, Seg h p l r ∧ Seg h r l' q := by
  induction l generalizing p with
  | nil =>
      constructor
      · intro hseg
        exact ⟨p, rfl, hseg⟩
      · rintro ⟨r, rfl, hseg⟩
        exact hseg
  | cons e l ih =>
      constructor
      · rintro ⟨rfl, next, hload, hseg⟩
        obtain ⟨r, hl, hl'⟩ := ih.mp hseg
        exact ⟨r, ⟨rfl, next, hload, hl⟩, hl'⟩
      · rintro ⟨r, ⟨rfl, next, hload, hl⟩, hl'⟩
        exact ⟨rfl, next, hload, ih.mpr ⟨r, hl, hl'⟩⟩

theorem Seg.congr (hseg : Seg h p l q) (hsame : ∀ x ∈ addrs l, h'.load x = h.load x) :
    Seg h' p l q := by
  induction l generalizing p with
  | nil => exact hseg
  | cons e l ih =>
      obtain ⟨rfl, next, hload, hrest⟩ := hseg
      refine ⟨rfl, next, ?_, ih hrest fun x hx => hsame x (List.mem_cons_of_mem _ hx)⟩
      exact (hsame e.1 List.mem_cons_self).trans hload

theorem Queued.congr (hq : Queued h head tail l) (hsame : ∀ x ∈ addrs l, h'.load x = h.load x) :
    Queued h' head tail l :=
  ⟨hq.seg.congr hsame, hq.nodup, hq.tail⟩

theorem queued_nil : Queued h 0 0 [] := ⟨rfl, List.nodup_nil, rfl⟩

/-- The queue is empty exactly when its head is null. -/
theorem Queued.head_eq_zero (hq : Queued h head tail l) : head = 0 ↔ l = [] := by
  cases l with
  | nil => exact iff_of_true hq.seg rfl
  | cons e l =>
      obtain ⟨rfl, next, hload, -⟩ := hq.seg
      exact iff_of_false (Heap.ne_null_of_load hload) (List.cons_ne_nil e l)

theorem Queued.tail_eq_zero (hq : Queued h head tail l) : tail = 0 ↔ l = [] := by
  rcases List.eq_nil_or_concat l with rfl | ⟨l, e, rfl⟩
  · exact iff_of_true hq.tail rfl
  · have hseg := hq.seg
    rw [List.concat_eq_append] at hseg hq
    obtain ⟨r, -, hr, next, hload, -⟩ := seg_append.mp hseg
    have htail := hq.tail
    rw [addrs_append, addrs_cons, addrs_nil, List.getLastD_concat, ← hr] at htail
    refine iff_of_false ?_ ?_
    · rw [htail]
      exact Heap.ne_null_of_load hload
    · rw [List.concat_eq_append]
      exact List.concat_ne_nil e l

theorem Queued.tail_mem (hq : Queued h head tail l) (hne : l ≠ []) : tail ∈ addrs l := by
  rcases List.eq_nil_or_concat l with rfl | ⟨l, e, rfl⟩
  · exact absurd rfl hne
  · rw [hq.tail, List.concat_eq_append, addrs_append, addrs_cons, addrs_nil,
      List.getLastD_concat]
    exact List.mem_append_right _ (List.mem_singleton_self e.1)

/-- The first node of an empty queue. -/
theorem Queued.push_nil (hp : h.load p = some ⟨a, 0⟩) : Queued h p p [(p, a)] :=
  ⟨⟨rfl, 0, hp, rfl⟩, List.nodup_singleton p, rfl⟩

/-- A node behind the last one. -/
theorem Queued.push (hq : Queued h head tail l) (hne : l ≠ []) (hp : h.load p = some ⟨a, 0⟩)
    (hnew : p ∉ addrs l) :
    ∃ c, h.load tail = some c ∧ Queued (h.set tail { c with next := p }) head p (l ++ [(p, a)]) := by
  rcases List.eq_nil_or_concat l with rfl | ⟨l, e, rfl⟩
  · exact absurd rfl hne
  · rw [List.concat_eq_append] at hq hnew ⊢
    obtain ⟨r, hl, hr, next, hload, -⟩ := seg_append.mp hq.seg
    subst hr
    have htail := hq.tail
    rw [addrs_append, addrs_cons, addrs_nil, List.getLastD_concat] at htail
    subst htail
    have hnull := Heap.ne_null_of_load hload
    have hnodup := hq.nodup
    rw [addrs_append, addrs_cons, addrs_nil] at hnodup hnew
    have hpr : p ≠ e.1 := fun heq => hnew (heq ▸ List.mem_append_right _ (List.mem_singleton_self _))
    refine ⟨_, hload, ?_, ?_, ?_⟩
    · refine seg_append.mpr ⟨p, seg_append.mpr ⟨e.1, ?_, rfl, p, ?_, rfl⟩, rfl, 0, ?_, rfl⟩
      · refine hl.congr fun x hx => Heap.load_set_of_ne hnull fun heq => ?_
        exact (List.disjoint_of_nodup_append hnodup) hx (heq ▸ List.mem_singleton_self _)
      · exact Heap.load_set_self hnull
      · rw [Heap.load_set_of_ne hnull hpr]
        exact hp
    · rw [addrs_append, addrs_append]
      refine List.nodup_append.mpr ⟨hnodup, List.nodup_singleton p, fun x hx y hy heq => ?_⟩
      have hxp : x = p := heq.trans (List.mem_singleton.mp hy)
      exact hnew (hxp ▸ hx)
    · rw [addrs_append]
      exact (List.getLastD_concat ..).symm

/-- The first node out, `tail` reset when it was the last. -/
theorem Queued.pop (hq : Queued h head tail (e :: l)) :
    ∃ next, h.load head = some ⟨e.2, next⟩ ∧ head = e.1 ∧
      Queued h next (if next = 0 then 0 else tail) l := by
  obtain ⟨rfl, next, hload, hseg⟩ := hq.seg
  have hnodup := (List.nodup_cons.mp hq.nodup).2
  have htail := hq.tail
  refine ⟨next, hload, rfl, hseg, hnodup, ?_⟩
  cases l with
  | nil =>
      have hnext : next = 0 := hseg
      exact if_pos hnext
  | cons e' l =>
      obtain ⟨rfl, next', hload', -⟩ := hseg
      rw [if_neg (Heap.ne_null_of_load hload'), htail]
      rfl

/-! ## Ownership -/

/-- The live addresses, each once. -/
structure Owns {β : Type} (h : Heap β) (ps : List Ptr) : Prop where
  nodup : ps.Nodup
  live : ∀ q, h.load q ≠ none ↔ q ∈ ps

section Owns
variable {β : Type} {h : Heap β} {ps qs : List Ptr} {c c' : β}

theorem owns_empty : Owns (Heap.empty : Heap β) [] :=
  ⟨List.nodup_nil, fun _ => iff_of_false (fun hq => hq Heap.load_empty) List.not_mem_nil⟩

theorem Owns.perm (ho : Owns h ps) (hperm : ps.Perm qs) : Owns h qs :=
  ⟨hperm.nodup_iff.mp ho.nodup, fun q => (ho.live q).trans hperm.mem_iff⟩

theorem Owns.not_mem (ho : Owns h ps) (hp : h.load p = none) : p ∉ ps :=
  fun hmem => (ho.live p).mpr hmem hp

/-- A cell at a fresh address. -/
theorem Owns.new (ho : Owns h ps) (hp : h.Fresh p) : Owns (h.set p c) (p :: ps) := by
  refine ⟨List.nodup_cons.mpr ⟨ho.not_mem hp.2, ho.nodup⟩, fun q => ?_⟩
  rw [Heap.load_set hp.1, List.mem_cons, ← ho.live q]
  by_cases hq : q = p
  · rw [if_pos hq]
    exact iff_of_true (Option.some_ne_none c) (.inl hq)
  · rw [if_neg hq]
    exact (or_iff_right hq).symm

/-- A write to a live cell. -/
theorem Owns.set (ho : Owns h ps) (hp : h.load p = some c') : Owns (h.set p c) ps := by
  refine ⟨ho.nodup, fun q => ?_⟩
  rw [Heap.load_set (Heap.ne_null_of_load hp), ← ho.live q]
  by_cases hq : q = p
  · rw [if_pos hq, hq, hp]
    exact iff_of_true (Option.some_ne_none c) (Option.some_ne_none c')
  · rw [if_neg hq]

/-- The owned cell that is freed. -/
theorem Owns.drop (ho : Owns h (p :: ps)) : Owns (h.drop p) ps := by
  obtain ⟨hp, hps⟩ := List.nodup_cons.mp ho.nodup
  refine ⟨hps, fun q => ?_⟩
  rw [Heap.load_drop]
  by_cases hq : q = p
  · rw [if_pos hq]
    exact iff_of_false (fun hne => hne rfl) (hq ▸ hp)
  · rw [if_neg hq, ho.live q, List.mem_cons]
    exact or_iff_right hq

/-- The address above all that are live. -/
def above (h : Heap β) : Ptr := h.cells.keys.sup id + 1

theorem fresh_of_above_le (hp : above h ≤ p) : h.Fresh p := by
  have hne : p ≠ 0 := Nat.ne_of_gt (Nat.lt_of_lt_of_le (Nat.succ_pos _) hp)
  refine ⟨hne, ?_⟩
  rw [Heap.load, if_neg hne, Finmap.lookup_eq_none]
  intro hmem
  have hle := Finset.le_sup (f := id) (Finmap.mem_keys.mpr hmem)
  exact Nat.not_succ_le_self _ (hp.trans hle)

end Owns

end CKernel.LinkedQueue
