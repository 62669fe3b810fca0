/-
# `CKernel.Lib.TreeOrder` — addresses in order in a linked tree

`Ctx.before` and `Ctx.after` of `LinkedTree` list the data around a hole in
order.  Here the same for addresses, so that *the next node in order* is the
head of a list: below a node in a hole come the addresses of its right subtree
and then those after the hole.

    a node of a tree is a context with the node in its hole   (`exists_plug_of_mem`)
    the addresses around it, in order                         (`addrs_plug_node`)
    what comes after a node, from any split of the addresses   (`addrs_after`)
-/
import CKernel.Lib.LinkedTree

namespace CKernel.LinkedTree

open ATree

variable {α : Type} {h : Heap (Cell α)} {p : Ptr} {t : ATree α}

namespace Ctx

/-- The addresses before the hole, in order. -/
def addrsBefore : Ctx α → List Ptr
  | [] => []
  | .left _ _ _ :: c => addrsBefore c
  | .right a _ s :: c => addrsBefore c ++ (s.addrs ++ [a])

/-- The addresses after the hole, in order. -/
def addrsAfter : Ctx α → List Ptr
  | [] => []
  | .left a _ s :: c => a :: (s.addrs ++ addrsAfter c)
  | .right _ _ _ :: c => addrsAfter c

theorem addrs_plug_order (c : Ctx α) (t : ATree α) :
    (plug c t).addrs = addrsBefore c ++ (t.addrs ++ addrsAfter c) := by
  induction c generalizing t with
  | nil => simp [addrsBefore, addrsAfter]
  | cons f c ih =>
      rw [plug_cons, ih]
      cases f with
      | left a d s => simp [Frame.fill, ATree.addrs, addrsBefore, addrsAfter]
      | right a d s => simp [Frame.fill, ATree.addrs, addrsBefore, addrsAfter]

/-- Around the node in the hole. -/
theorem addrs_plug_node (c : Ctx α) (a : Ptr) (d : α) (l r : ATree α) :
    (plug c (node a d l r)).addrs
      = (addrsBefore c ++ l.addrs) ++ a :: (r.addrs ++ addrsAfter c) := by
  rw [addrs_plug_order, ATree.addrs, List.append_assoc, List.cons_append, List.append_assoc]

/-- No data before the hole, no address before the hole. -/
theorem addrsBefore_eq_nil {c : Ctx α} (hc : before c = []) : addrsBefore c = [] := by
  induction c with
  | nil => rfl
  | cons f c ih =>
      cases f with
      | left a d s => exact ih hc
      | right a d s =>
          rw [before, List.append_eq_nil_iff] at hc
          exact absurd hc.2 (List.append_ne_nil_of_right_ne_nil _ (List.cons_ne_nil d []))

theorem length_le_addrs (c : Ctx α) : c.length ≤ (addrs c).length := by
  induction c with
  | nil => exact Nat.le_refl 0
  | cons f c ih =>
      rw [addrs, List.length_cons, List.length_cons, List.length_append]
      omega

end Ctx

open Ctx

/-- A node of a tree is a context with the node in its hole. -/
theorem exists_plug_of_mem {a : Ptr} (ha : a ∈ t.addrs) :
    ∃ (c : Ctx α) (d : α) (l r : ATree α), t = plug c (node a d l r) := by
  induction t with
  | leaf => exact absurd ha List.not_mem_nil
  | node b e l r ihl ihr =>
      rcases mem_addrs_node.mp ha with ha | rfl | ha
      · obtain ⟨c, d, l', r', rfl⟩ := ihl ha
        exact ⟨c ++ [.left b e r], d, l', r', by rw [plug_append]; rfl⟩
      · exact ⟨[], e, l, r, rfl⟩
      · obtain ⟨c, d, l', r', rfl⟩ := ihr ha
        exact ⟨c ++ [.right b e l], d, l', r', by rw [plug_append]; rfl⟩

/-- However the addresses are split at a node, what follows it is its right
subtree and what comes after the hole. -/
theorem addrs_after {c : Ctx α} {a : Ptr} {d : α} {l r : ATree α} {front rest : List Ptr}
    (hnodup : (plug c (node a d l r)).addrs.Nodup)
    (hsplit : (plug c (node a d l r)).addrs = front ++ a :: rest) :
    rest = r.addrs ++ addrsAfter c := by
  rw [addrs_plug_node] at hnodup hsplit
  obtain ⟨-, hrest, hfront⟩ := List.nodup_append'.mp hnodup
  have hbefore : a ∉ addrsBefore c ++ l.addrs := fun hmem => hfront hmem List.mem_cons_self
  have hafter : a ∉ r.addrs ++ addrsAfter c := (List.nodup_cons.mp hrest).1
  exact ((List.append_cons_inj_of_notMem hbefore hafter).mp hsplit).2.2.symm

/-- The data at the addresses of a stored tree, in order. -/
theorem Stored.data_eq (hs : Stored h p t) :
    (t.addrs.mapM fun a => (h.load a).map Cell.data) = some t.inorder := by
  induction t generalizing p with
  | leaf => rfl
  | node a d l r ihl ihr =>
      rw [ATree.addrs, ATree.inorder, List.mapM_append, ihl hs.2.1, List.mapM_cons, hs.1,
        ihr hs.2.2]
      rfl

end CKernel.LinkedTree
