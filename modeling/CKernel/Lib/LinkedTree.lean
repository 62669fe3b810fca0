/-
# `CKernel.Lib.LinkedTree` — binary trees with parent pointers in a heap

The abstract tree carries the address of every node; `Stored h p t` says that
the heap `h` lays `t` out with its root's parent pointer equal to `p`.  A
pointer held somewhere inside the tree is a *context*: the frames from the
node's parent up to the root.  A context is stored when its cells are right for
some address in the hole, so that an edit below a node and an edit of the one
link above it are separate lemmas.

    a stored tree = a stored context and a stored subtree   (`stored_plug`)
    heaps that agree on the cells of a tree store it alike   (`Stored.congr`)
    a new parent pointer at the root of a subtree            (`Stored.reparent`)
    a new address in the hole of a context                   (`StoredCtx.repoint`)
-/
import CKernel.Lib.Heap

namespace CKernel.LinkedTree

variable {α : Type}

/-- One heap cell. -/
structure Cell (α : Type) where
  data : α
  left : Ptr
  right : Ptr
  parent : Ptr
  deriving DecidableEq, Repr

/-- A binary tree that knows where its nodes live. -/
inductive ATree (α : Type) where
  | leaf
  | node (addr : Ptr) (data : α) (l r : ATree α)
  deriving DecidableEq, Repr

namespace ATree

/-- The pointer to the tree. -/
def root : ATree α → Ptr
  | leaf => 0
  | node a _ _ _ => a

def addrs : ATree α → List Ptr
  | leaf => []
  | node a _ l r => l.addrs ++ a :: r.addrs

def inorder : ATree α → List α
  | leaf => []
  | node _ d l r => l.inorder ++ d :: r.inorder

def size : ATree α → Nat
  | leaf => 0
  | node _ _ l r => l.size + r.size + 1

@[simp] theorem root_node (a : Ptr) (d : α) (l r : ATree α) : (node a d l r).root = a := rfl

@[simp] theorem size_node (a : Ptr) (d : α) (l r : ATree α) :
    (node a d l r).size = l.size + r.size + 1 := rfl

theorem length_addrs (t : ATree α) : t.addrs.length = t.size := by
  induction t with
  | leaf => rfl
  | node a d l r ihl ihr =>
      rw [addrs, List.length_append, List.length_cons, ihl, ihr, size, Nat.add_assoc]

theorem mem_addrs_node {x a : Ptr} {d : α} {l r : ATree α} :
    x ∈ (node a d l r).addrs ↔ x ∈ l.addrs ∨ x = a ∨ x ∈ r.addrs := by
  rw [addrs, List.mem_append, List.mem_cons]

theorem nodup_node {a : Ptr} {d : α} {l r : ATree α} :
    (node a d l r).addrs.Nodup ↔ (a ∉ l.addrs ∧ a ∉ r.addrs) ∧ (l.addrs.Nodup ∧ r.addrs.Nodup) ∧
      ∀ x ∈ l.addrs, x ∉ r.addrs := by
  rw [addrs, List.nodup_middle, List.nodup_cons, List.mem_append, not_or, List.nodup_append',
    List.disjoint_left, and_assoc (a := l.addrs.Nodup)]

end ATree

open ATree

/-! ## Stored trees -/

/-- `h` lays out `t` below a node at `p` (or below nothing, for `p = 0`). -/
def Stored (h : Heap (Cell α)) (p : Ptr) : ATree α → Prop
  | leaf => True
  | node a d l r => h.load a = some ⟨d, l.root, r.root, p⟩ ∧ Stored h a l ∧ Stored h a r

variable {h h' : Heap (Cell α)} {p p' : Ptr} {t : ATree α}

theorem Stored.live (hs : Stored h p t) : ∀ a ∈ t.addrs, h.load a ≠ none := by
  induction t generalizing p with
  | leaf => exact fun a ha => absurd ha List.not_mem_nil
  | node b d l r ihl ihr =>
      intro a ha
      rcases mem_addrs_node.mp ha with ha | rfl | ha
      · exact ihl hs.2.1 a ha
      · exact fun hnone => by rw [hs.1] at hnone; cases hnone
      · exact ihr hs.2.2 a ha

theorem Stored.congr (hs : Stored h p t) (hagree : ∀ a ∈ t.addrs, h'.load a = h.load a) :
    Stored h' p t := by
  induction t generalizing p with
  | leaf => trivial
  | node b d l r ihl ihr =>
      refine ⟨?_, ihl hs.2.1 fun a ha => ?_, ihr hs.2.2 fun a ha => ?_⟩
      · rw [hagree b (mem_addrs_node.mpr (.inr (.inl rfl)))]
        exact hs.1
      · exact hagree a (mem_addrs_node.mpr (.inl ha))
      · exact hagree a (mem_addrs_node.mpr (.inr (.inr ha)))

theorem Stored.size_le (hs : Stored h p t) (hnodup : t.addrs.Nodup) : t.size ≤ h.size := by
  rw [← length_addrs]
  exact Heap.length_le_size hnodup hs.live

/-- The pointer to a stored tree is null for the empty tree only. -/
theorem Stored.root_eq_null (hs : Stored h p t) : t.root = 0 ↔ t = leaf := by
  cases t with
  | leaf => exact ⟨fun _ => rfl, fun _ => rfl⟩
  | node a d l r =>
      constructor
      · intro hroot
        exact absurd hroot (Heap.ne_null_of_load hs.1)
      · intro ht
        cases ht

theorem Stored.root_ne (hs : Stored h p t) {a : Ptr} (ha : a ≠ 0) (hnot : a ∉ t.addrs) :
    t.root ≠ a := by
  cases t with
  | leaf => exact fun heq => ha heq.symm
  | node b d l r => exact fun heq => hnot (mem_addrs_node.mpr (.inr (.inl heq.symm)))

theorem Stored.not_mem_of_fresh (hs : Stored h p t) {a : Ptr} (ha : h.Fresh a) : a ∉ t.addrs :=
  fun hmem => hs.live a hmem ha.2

/-- A node without children, just allocated. -/
theorem stored_new {a : Ptr} {d : α} (ha : a ≠ 0) :
    Stored (h.set a ⟨d, 0, 0, p⟩) p (node a d leaf leaf) :=
  ⟨Heap.load_set_self ha, trivial, trivial⟩

/-- Writing the parent pointer of the root moves the tree below another node. -/
theorem Stored.reparent {a : Ptr} {d : α} {l r : ATree α} (hs : Stored h p (node a d l r))
    (hnodup : (node a d l r).addrs.Nodup) (p' : Ptr) :
    Stored (h.set a ⟨d, l.root, r.root, p'⟩) p' (node a d l r) := by
  obtain ⟨⟨hal, har⟩, -⟩ := nodup_node.mp hnodup
  have ha : a ≠ 0 := Heap.ne_null_of_load hs.1
  refine ⟨Heap.load_set_self ha, hs.2.1.congr ?_, hs.2.2.congr ?_⟩
  · intro x hx
    exact Heap.load_set_of_ne ha fun heq => hal (heq ▸ hx)
  · intro x hx
    exact Heap.load_set_of_ne ha fun heq => har (heq ▸ hx)

/-! ## Contexts -/

/-- A node with a hole in place of one child; `sib` is the other one. -/
inductive Frame (α : Type) where
  | left (addr : Ptr) (data : α) (sib : ATree α)
  | right (addr : Ptr) (data : α) (sib : ATree α)
  deriving DecidableEq, Repr

namespace Frame

def addr : Frame α → Ptr
  | left a _ _ => a
  | right a _ _ => a

def sib : Frame α → ATree α
  | left _ _ s => s
  | right _ _ s => s

/-- The cell of the frame's node, for a given child in the hole and parent. -/
def cell (hole up : Ptr) : Frame α → Cell α
  | left _ d s => ⟨d, hole, s.root, up⟩
  | right _ d s => ⟨d, s.root, hole, up⟩

def fill (t : ATree α) : Frame α → ATree α
  | left a d s => node a d t s
  | right a d s => node a d s t

end Frame

/-- The frames above a hole, innermost first. -/
abbrev Ctx (α : Type) := List (Frame α)

namespace Ctx

/-- The node the hole hangs below. -/
def parentOf : Ctx α → Ptr
  | [] => 0
  | f :: _ => f.addr

def plug : Ctx α → ATree α → ATree α
  | [], t => t
  | f :: c, t => plug c (f.fill t)

def addrs : Ctx α → List Ptr
  | [] => []
  | f :: c => f.addr :: (f.sib.addrs ++ addrs c)

/-- What comes before the hole in order. -/
def before : Ctx α → List α
  | [] => []
  | .left _ _ _ :: c => before c
  | .right _ d s :: c => before c ++ (s.inorder ++ [d])

/-- What comes after the hole in order. -/
def after : Ctx α → List α
  | [] => []
  | .left _ d s :: c => d :: (s.inorder ++ after c)
  | .right _ _ _ :: c => after c

@[simp] theorem parentOf_nil : parentOf ([] : Ctx α) = 0 := rfl

@[simp] theorem parentOf_cons (f : Frame α) (c : Ctx α) : parentOf (f :: c) = f.addr := rfl

@[simp] theorem plug_nil (t : ATree α) : plug ([] : Ctx α) t = t := rfl

@[simp] theorem plug_cons (f : Frame α) (c : Ctx α) (t : ATree α) :
    plug (f :: c) t = plug c (f.fill t) := rfl

theorem plug_append (c c' : Ctx α) (t : ATree α) : plug (c ++ c') t = plug c' (plug c t) := by
  induction c generalizing t with
  | nil => rfl
  | cons f c ih => exact ih (f.fill t)

theorem before_append (c c' : Ctx α) : before (c ++ c') = before c' ++ before c := by
  induction c with
  | nil => rw [List.nil_append, before, List.append_nil]
  | cons f c ih =>
      cases f with
      | left a d s => exact ih
      | right a d s => rw [List.cons_append, before, before, ih, List.append_assoc]

theorem inorder_plug (c : Ctx α) (t : ATree α) :
    (plug c t).inorder = before c ++ (t.inorder ++ after c) := by
  induction c generalizing t with
  | nil => simp [before, after]
  | cons f c ih =>
      rw [plug_cons, ih]
      cases f with
      | left a d s => simp [Frame.fill, inorder, before, after]
      | right a d s => simp [Frame.fill, inorder, before, after]

/-- Around the node in the hole. -/
theorem inorder_plug_node (c : Ctx α) (a : Ptr) (d : α) (l r : ATree α) :
    (plug c (node a d l r)).inorder = (before c ++ l.inorder) ++ d :: (r.inorder ++ after c) := by
  rw [inorder_plug, inorder, List.append_assoc, List.cons_append, List.append_assoc]

theorem addrs_fill (f : Frame α) (t : ATree α) :
    (f.fill t).addrs.Perm (t.addrs ++ f.addr :: f.sib.addrs) := by
  cases f with
  | left a d s => exact List.Perm.refl _
  | right a d s =>
      calc List.Perm (s.addrs ++ a :: t.addrs) (a :: t.addrs ++ s.addrs) := List.perm_append_comm
        List.Perm _ (t.addrs ++ a :: s.addrs) := List.perm_middle.symm

theorem addrs_plug (c : Ctx α) (t : ATree α) : (plug c t).addrs.Perm (t.addrs ++ addrs c) := by
  induction c generalizing t with
  | nil => rw [plug_nil, addrs, List.append_nil]
  | cons f c ih =>
      have hfill := (ih (f.fill t)).trans ((addrs_fill f t).append_right _)
      rwa [List.append_assoc, List.cons_append] at hfill

/-- The addresses of a context and of the tree in its hole are distinct. -/
theorem nodup_plug {c : Ctx α} {t : ATree α} :
    (plug c t).addrs.Nodup ↔ t.addrs.Nodup ∧ (addrs c).Nodup ∧ ∀ x ∈ t.addrs, x ∉ addrs c := by
  rw [(addrs_plug c t).nodup_iff, List.nodup_append', List.disjoint_left]

theorem mem_addrs_plug {c : Ctx α} {t : ATree α} {x : Ptr} :
    x ∈ (plug c t).addrs ↔ x ∈ t.addrs ∨ x ∈ addrs c := by
  rw [(addrs_plug c t).mem_iff, List.mem_append]

theorem plug_node_ne_leaf (c : Ctx α) (a : Ptr) (d : α) (l r : ATree α) :
    plug c (node a d l r) ≠ leaf := by
  induction c generalizing a d l r with
  | nil => simp
  | cons f c ih =>
      cases f with
      | left b e s => exact ih _ _ _ _
      | right b e s => exact ih _ _ _ _

theorem plug_cons_ne_leaf (f : Frame α) (c : Ctx α) (t : ATree α) : plug (f :: c) t ≠ leaf := by
  cases f with
  | left b e s => exact plug_node_ne_leaf c _ _ _ _
  | right b e s => exact plug_node_ne_leaf c _ _ _ _

theorem size_plug_le (c : Ctx α) (t : ATree α) : t.size ≤ (plug c t).size := by
  rw [← length_addrs, ← length_addrs, (addrs_plug c t).length_eq, List.length_append]
  exact Nat.le_add_right _ _

end Ctx

open Ctx

/-- `h` lays out the frames, with `hole` as the pointer into the hole. -/
def StoredCtx (h : Heap (Cell α)) (hole : Ptr) : Ctx α → Prop
  | [] => True
  | f :: c => h.load f.addr = some (f.cell hole (parentOf c)) ∧ Stored h f.addr f.sib ∧
      StoredCtx h f.addr c

theorem stored_fill {f : Frame α} :
    Stored h p (f.fill t) ↔
      h.load f.addr = some (f.cell t.root p) ∧ Stored h f.addr f.sib ∧ Stored h f.addr t := by
  cases f with
  | left a d s => exact and_congr_right fun _ => and_comm
  | right a d s => exact Iff.rfl

theorem root_fill {f : Frame α} : (f.fill t).root = f.addr := by
  cases f with
  | left a d s => rfl
  | right a d s => rfl

theorem stored_plug {c : Ctx α} :
    Stored h 0 (plug c t) ↔ StoredCtx h t.root c ∧ Stored h (parentOf c) t := by
  induction c generalizing t with
  | nil => exact ⟨fun hs => ⟨trivial, hs⟩, fun hs => hs.2⟩
  | cons f c ih =>
      rw [plug_cons, ih, stored_fill, root_fill]
      constructor
      · rintro ⟨hc, hf, hsib, ht⟩
        exact ⟨⟨hf, hsib, hc⟩, ht⟩
      · rintro ⟨⟨hf, hsib, hc⟩, ht⟩
        exact ⟨hc, hf, hsib, ht⟩

theorem root_plug {c : Ctx α} {f : Frame α} {t' : ATree α} :
    (plug (f :: c) t).root = (plug (f :: c) t').root := by
  induction c generalizing f t t' with
  | nil => exact root_fill.trans root_fill.symm
  | cons g c ih => exact ih

theorem root_plug_node (c : Ctx α) (a : Ptr) (d d' : α) (l l' r r' : ATree α) :
    (plug c (node a d l r)).root = (plug c (node a d' l' r')).root := by
  cases c with
  | nil => rfl
  | cons f c => exact root_plug

theorem StoredCtx.congr {hole : Ptr} {c : Ctx α} (hs : StoredCtx h hole c)
    (hagree : ∀ a ∈ Ctx.addrs c, h'.load a = h.load a) : StoredCtx h' hole c := by
  induction c generalizing hole with
  | nil => trivial
  | cons f c ih =>
      refine ⟨?_, hs.2.1.congr fun a ha => ?_, ih hs.2.2 fun a ha => ?_⟩
      · rw [hagree _ List.mem_cons_self]
        exact hs.1
      · exact hagree a (List.mem_cons_of_mem _ (List.mem_append_left _ ha))
      · exact hagree a (List.mem_cons_of_mem _ (List.mem_append_right _ ha))

/-- Writing the link above the hole puts another address in the hole. -/
theorem StoredCtx.repoint {hole : Ptr} {f : Frame α} {c : Ctx α}
    (hs : StoredCtx h hole (f :: c)) (hnodup : (Ctx.addrs (f :: c)).Nodup) (hole' : Ptr) :
    StoredCtx (h.set f.addr (f.cell hole' (parentOf c))) hole' (f :: c) := by
  have hf : f.addr ≠ 0 := Heap.ne_null_of_load hs.1
  have hnot : ∀ x ∈ f.sib.addrs ++ Ctx.addrs c, x ≠ f.addr := by
    intro x hx heq
    exact (List.nodup_cons.mp hnodup).1 (heq ▸ hx)
  refine ⟨Heap.load_set_self hf, hs.2.1.congr fun x hx => ?_, hs.2.2.congr fun x hx => ?_⟩
  · exact Heap.load_set_of_ne hf (hnot x (List.mem_append_left _ hx))
  · exact Heap.load_set_of_ne hf (hnot x (List.mem_append_right _ hx))

/-- Overwriting the data of one node. -/
theorem Stored.overwrite {c : Ctx α} {a : Ptr} {d : α} {l r : ATree α}
    (hs : Stored h 0 (plug c (node a d l r))) (hnodup : (plug c (node a d l r)).addrs.Nodup)
    (d' : α) :
    Stored (h.set a ⟨d', l.root, r.root, parentOf c⟩) 0 (plug c (node a d' l r)) := by
  obtain ⟨hctx, ⟨hload, hl, hr⟩⟩ := stored_plug.mp hs
  obtain ⟨hnode, -, hdisj⟩ := nodup_plug.mp hnodup
  obtain ⟨⟨hal, har⟩, -⟩ := nodup_node.mp hnode
  have ha : a ≠ 0 := Heap.ne_null_of_load hload
  have hac : a ∉ Ctx.addrs c := hdisj a (mem_addrs_node.mpr (.inr (.inl rfl)))
  have hother : ∀ x, x ≠ a → (h.set a ⟨d', l.root, r.root, parentOf c⟩).load x = h.load x :=
    fun x hx => Heap.load_set_of_ne ha hx
  refine stored_plug.mpr ⟨hctx.congr fun x hx => hother x ?_, Heap.load_set_self ha,
    hl.congr fun x hx => hother x ?_, hr.congr fun x hx => hother x ?_⟩
  · rintro rfl
    exact hac hx
  · rintro rfl
    exact hal hx
  · rintro rfl
    exact har hx

end CKernel.LinkedTree
