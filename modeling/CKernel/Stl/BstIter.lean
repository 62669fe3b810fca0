/-
# `CKernel.Stl.BstIter` — in-order iteration over `bst_map::map`

`begin()` is the `minium` of the root, `end()` is null, and an iterator moves by
`successor`, which the class `iterator` repeats word for word from the map: down
to the `minium` of the right subtree, or else up through the parents until it
comes from a left child.

    `minium` is the first address in order                      (`miniumLoop_head`)
    the climb ends at the first address after the hole           (`successorLoop_eq`)
    `successor` is the next address in order                     (`successor_eq`)
    iterating visits every pair once, in key order, and ends     (`iteration_in_order`)
-/
import CKernel.Lib.TreeOrder
import CKernel.Stl.BstMap

namespace CKernel.BstMap

open AssocList LinkedTree Run
open LinkedTree.ATree LinkedTree.Ctx

variable {K V : Type}

/-! ## The code -/

/-- `begin()` -/
def beginIter (s : Map K V) : Option Ptr := minium s.heap s.root

/-- The nodes a loop visits from `curr` on, until the iterator is `end()`. -/
def visitFrom : Nat → Heap (TreeNode K V) → Ptr → Option (List Ptr)
  | 0, _, _ => none
  | fuel + 1, h, curr =>
      if curr = 0 then some []
      else do
        let next ← successor h curr
        let rest ← visitFrom fuel h next
        some (curr :: rest)

/-- `for (it = begin(); it != end(); ++ it)`: the nodes visited. -/
def visit (s : Map K V) : Option (List Ptr) := do
  let curr ← beginIter s
  visitFrom (s.heap.size + 1) s.heap curr

/-- `*it` at each of them. -/
def pairsAt (s : Map K V) (nodes : List Ptr) : Option (List (K × V)) :=
  nodes.mapM fun a => (s.heap.load a).map Cell.data

/-! ## One step -/

variable {h : Heap (TreeNode K V)} {t : ATree (K × V)} {c : Ctx (K × V)}

/-- `minium` is the first address in order. -/
theorem miniumLoop_head {p : Ptr} (hs : Stored h p t) (ht : t ≠ leaf) {fuel : Nat}
    (hfuel : t.size < fuel) : miniumLoop fuel h t.root = some (t.addrs.headD 0) := by
  obtain ⟨c, b, d, r, rfl, hbefore, hloop⟩ := miniumLoop_eq hs ht hfuel
  rw [hloop, addrs_plug_node, addrsBefore_eq_nil hbefore]
  rfl

theorem minium_eq {p : Ptr} (hs : Stored h p t) (hfuel : t.size < h.size + 1) :
    minium h t.root = some (t.addrs.headD 0) := by
  by_cases ht : t = leaf
  · subst ht
    rfl
  · have hroot : t.root ≠ 0 := fun hnull => ht (hs.root_eq_null.mp hnull)
    rw [minium, if_neg hroot]
    exact miniumLoop_head hs ht hfuel

/-- The climb passes the nodes of which it comes from the right, and ends at
the first address after the hole. -/
theorem successorLoop_eq {hole : Ptr} (hs : StoredCtx h hole c) (hhole : hole ≠ 0)
    (hnot : hole ∉ Ctx.addrs c) (hnodup : (Ctx.addrs c).Nodup) {fuel : Nat}
    (hfuel : c.length < fuel) :
    successorLoop fuel h hole (parentOf c) = some ((addrsAfter c).headD 0) := by
  induction c generalizing hole fuel with
  | nil =>
      obtain ⟨n, rfl⟩ := Nat.exists_eq_add_one_of_ne_zero (Nat.ne_of_gt hfuel)
      rfl
  | cons f c ih =>
      obtain ⟨n, rfl⟩ := Nat.exists_eq_add_one_of_ne_zero (Nat.ne_of_gt (Nat.zero_lt_of_lt hfuel))
      have hf : f.addr ≠ 0 := Heap.ne_null_of_load hs.1
      rw [parentOf_cons, successorLoop, if_neg hf, hs.1]
      cases f with
      | left a d sib =>
          have hne : sib.root ≠ hole := by
            refine hs.2.1.root_ne hhole fun hmem => hnot ?_
            exact List.mem_cons_of_mem _ (List.mem_append_left _ hmem)
          show (if hole = sib.root then _ else some a) = _
          rw [if_neg hne.symm]
          rfl
      | right a d sib =>
          obtain ⟨hfirst, hrest⟩ := List.nodup_cons.mp hnodup
          have hout : a ∉ Ctx.addrs c := fun hmem => hfirst (List.mem_append_right _ hmem)
          have hctx : (Ctx.addrs c).Nodup := (List.nodup_append'.mp hrest).2.1
          show (if hole = hole then successorLoop n h a (parentOf c) else _) = _
          rw [if_pos rfl]
          exact ih hs.2.2 hf hout hctx (by rw [List.length_cons] at hfuel; omega)

/-- `successor` is the next address in order, null after the last. -/
theorem successor_eq {a : Ptr} {front rest : List Ptr} (hs : Stored h 0 t)
    (hnodup : t.addrs.Nodup) (hsplit : t.addrs = front ++ a :: rest) :
    successor h a = some (rest.headD 0) := by
  have ha : a ∈ t.addrs := hsplit ▸ List.mem_append_right _ List.mem_cons_self
  have hsize := hs.size_le hnodup
  obtain ⟨c, d, l, r, rfl⟩ := exists_plug_of_mem ha
  obtain ⟨hctx, hload, hl, hr⟩ := stored_plug.mp hs
  obtain ⟨hnode, hcNodup, hdisj⟩ := nodup_plug.mp hnodup
  have haddr : a ∉ Ctx.addrs c := hdisj a (mem_addrs_node.mpr (.inr (.inl rfl)))
  have hle := size_plug_le c (node a d l r)
  rw [size_node] at hle
  rw [addrs_after hnodup hsplit, successor, hload]
  show (if r.root ≠ 0 then minium h r.root else successorLoop (h.size + 1) h a (parentOf c)) = _
  by_cases hleaf : r = leaf
  · subst hleaf
    have hlen := length_le_addrs c
    have htotal := (addrs_plug c (node a d l leaf)).length_eq
    rw [List.length_append, length_addrs, length_addrs] at htotal
    rw [if_neg fun hroot => hroot rfl]
    exact successorLoop_eq hctx (Heap.ne_null_of_load hload) haddr hcNodup (by omega)
  · have hroot : r.root ≠ 0 := fun hnull => hleaf (hr.root_eq_null.mp hnull)
    rw [if_pos hroot, minium_eq hr (by omega)]
    have hne : r.addrs ≠ [] := by
      intro hnil
      have hlen := length_addrs r
      rw [hnil] at hlen
      cases r with
      | leaf => exact hleaf rfl
      | node b e l' r' =>
          rw [size_node, List.length_nil] at hlen
          omega
    obtain ⟨b, bs, hcons⟩ := List.exists_cons_of_ne_nil hne
    rw [hcons]
    rfl

/-! ## The whole loop -/

/-- From a node on, the loop visits what is left of the addresses in order. -/
theorem visitFrom_eq (hs : Stored h 0 t) (hnodup : t.addrs.Nodup) (rest : List Ptr) :
    ∀ (front : List Ptr) (fuel : Nat), t.addrs = front ++ rest → rest.length < fuel →
      visitFrom fuel h (rest.headD 0) = some rest := by
  induction rest with
  | nil =>
      intro front fuel _ hfuel
      obtain ⟨n, rfl⟩ := Nat.exists_eq_add_one_of_ne_zero (Nat.ne_of_gt hfuel)
      rfl
  | cons a rest ih =>
      intro front fuel hsplit hfuel
      obtain ⟨n, rfl⟩ := Nat.exists_eq_add_one_of_ne_zero (Nat.ne_of_gt (Nat.zero_lt_of_lt hfuel))
      have hlive := hs.live a (hsplit ▸ List.mem_append_right _ List.mem_cons_self)
      have ha : a ≠ 0 := by
        rintro rfl
        exact hlive Heap.load_null
      have hrest : t.addrs = (front ++ [a]) ++ rest := by
        rw [hsplit, List.append_assoc, List.singleton_append]
      rw [List.length_cons] at hfuel
      rw [List.headD_cons, visitFrom, if_neg ha, successor_eq hs hnodup hsplit]
      show (visitFrom n h (rest.headD 0)).bind _ = _
      rw [ih _ n hrest (by omega)]
      rfl

section Ordered
variable [LinearOrder K] {s : Map K V}

/-- The loop visits the nodes of the tree, in order. -/
theorem Rep.visit_eq (hrep : Rep s t) : visit s = some t.addrs := by
  have hlen := length_addrs t
  have hsize := hrep.size_lt
  rw [visit, beginIter, hrep.root, minium_eq hrep.stored hsize]
  exact visitFrom_eq hrep.stored hrep.nodup t.addrs [] _ rfl (by omega)

variable [Inhabited V]

/-- **Iterating over the search tree**: after any run of calls, the loop from
`begin()` to `end()` follows no bad pointer and ends; it visits the nodes of
the tree, each once, and the pairs it reads are those of the map, in strictly
increasing key order. -/
theorem iteration_in_order (ops : List (Op K V)) (hfresh : Along step FreshAddr make ops) :
    ∃ s t pairs, run step make ops = some s ∧ s.root = ATree.root t ∧ Stored s.heap 0 t ∧
      visit s = some t.addrs ∧ t.addrs.Nodup ∧ pairsAt s t.addrs = some pairs ∧
      Sorted pairs ∧ Holds pairs (specRun (fun _ => none) ops) := by
  obtain ⟨s, hrun, t, hrep, hm⟩ := run_represents ops ⟨leaf, make_rep, holds_nil⟩ hfresh
  exact ⟨s, t, t.inorder, hrun, hrep.root, hrep.stored, hrep.visit_eq, hrep.nodup,
    hrep.stored.data_eq, hrep.sorted, hm⟩

/-- A root with two children, one erased node in between. -/
theorem iteration_in_order_four :
    ∃ s ps pairs, run step make [.insert 4 "four" 1, .insert 2 "two" 2, .insert 6 "six" 3,
        .insert 3 "three" 4, .erase 2, .subscript 5 5] = some s ∧
      visit s = some ps ∧ pairsAt s ps = some pairs ∧ Sorted pairs ∧ (3, "three") ∈ pairs := by
  obtain ⟨s, t, pairs, hrun, -, -, hvisit, -, hpairs, hsorted, hholds⟩ :=
    @iteration_in_order Nat String _ _ [.insert 4 "four" 1, .insert 2 "two" 2,
      .insert 6 "six" 3, .insert 3 "three" 4, .erase 2, .subscript 5 5] (by decide)
  exact ⟨s, t.addrs, pairs, hrun, hvisit, hpairs, hsorted, (hholds 3 "three").mpr rfl⟩

end Ordered

end CKernel.BstMap
