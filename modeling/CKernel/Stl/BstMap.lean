/-
# `CKernel.Stl.BstMap` — the search tree of `bst_map::map`

The unbalanced map of `map_demo.h` over an explicit heap: every node is a cell
with its pair, its two children and its parent.  The loops walk pointers, so
they carry fuel, one more than the number of live cells; running out of it is
the result `none`, like a dereference of null or of a freed node, and none of
the three ever happens.

    the search loop ends in the hole or at the node of its key     (`descend`)
    splicing a node with at most one child out of its context      (`splice_ok`)
    the pairs in order change by `put` and `del`                   (`insert_ok`, `erase_ok`)
    after every run, whatever addresses `new` returns, the cells
      from `_root` on are a binary tree with exact parent links, in
      key order, and `find` reads the finite map of the calls      (`bst_is_finite_map`)
-/
import CKernel.Lib.AssocList
import CKernel.Lib.LinkedTree
import CKernel.Lib.Run

namespace CKernel.BstMap

open AssocList LinkedTree Run

/-- `tree_node<K, V>` -/
abbrev TreeNode (K V : Type) := Cell (K × V)

/-- The object and the nodes it owns. -/
structure Map (K V : Type) where
  heap : Heap (TreeNode K V)
  root : Ptr

variable {K V : Type}

/-! ## The code -/

/-- `map()` -/
def make : Map K V := ⟨Heap.empty, 0⟩

/-- `clear(node)`, children first. -/
def clearNode : Nat → Heap (TreeNode K V) → Ptr → Option (Heap (TreeNode K V))
  | 0, _, _ => none
  | fuel + 1, h, node =>
      if node = 0 then some h
      else do
        let n ← h.load node
        let h ← clearNode fuel h n.left
        let n ← h.load node
        let h ← clearNode fuel h n.right
        h.free node

/-- `clear()` -/
def clear (s : Map K V) : Option (Map K V) := do
  let h ← clearNode (s.heap.size + 1) s.heap s.root
  some ⟨h, 0⟩

/-- The loop of `minium`. -/
def miniumLoop : Nat → Heap (TreeNode K V) → Ptr → Option Ptr
  | 0, _, _ => none
  | fuel + 1, h, node => do
      let n ← h.load node
      if n.left ≠ 0 then miniumLoop fuel h n.left else some node

def minium (h : Heap (TreeNode K V)) (node : Ptr) : Option Ptr :=
  if node = 0 then some 0 else miniumLoop (h.size + 1) h node

/-- The climb of `successor`. -/
def successorLoop : Nat → Heap (TreeNode K V) → Ptr → Ptr → Option Ptr
  | 0, _, _, _ => none
  | fuel + 1, h, node, p =>
      if p = 0 then some p
      else do
        let n ← h.load p
        if node = n.right then successorLoop fuel h p n.parent else some p

def successor (h : Heap (TreeNode K V)) (node : Ptr) : Option Ptr := do
  let n ← h.load node
  if n.right ≠ 0 then minium h n.right else successorLoop (h.size + 1) h node n.parent

/-- `child->_parent = parent`, for a child that is there. -/
def setParent (h : Heap (TreeNode K V)) (child parent : Ptr) : Option (Heap (TreeNode K V)) :=
  if child ≠ 0 then h.modify child fun n => { n with parent := parent } else some h

/-- The link of `parent` that points to `node` is given to `child`. -/
def relink (h : Heap (TreeNode K V)) (node parent child : Ptr) :
    Option (Heap (TreeNode K V)) := do
  let p ← h.load parent
  if node = p.left then h.modify parent fun p => { p with left := child }
  else h.modify parent fun p => { p with right := child }

/-- The last part of `erase`: unlink a node with at most one child, `delete` it. -/
def splice (s : Map K V) (node : Ptr) : Option (Map K V) := do
  let n ← s.heap.load node
  let child := if n.left ≠ 0 then n.left else n.right
  let h ← setParent s.heap child n.parent
  let n ← h.load node
  if n.parent = 0 then do
    let h ← h.free node
    some ⟨h, child⟩
  else do
    let h ← relink h node n.parent child
    let h ← h.free node
    some ⟨h, s.root⟩

section Keyed
variable [LinearOrder K]

/-- The loop of `find`. -/
def findLoop (h : Heap (TreeNode K V)) (key : K) : Nat → Ptr → Option Ptr
  | 0, _ => none
  | fuel + 1, curr =>
      if curr = 0 then some 0
      else do
        let n ← h.load curr
        if key < n.data.1 then findLoop h key fuel n.left
        else if n.data.1 < key then findLoop h key fuel n.right
        else some curr

def find (s : Map K V) (key : K) : Option Ptr :=
  findLoop s.heap key (s.heap.size + 1) s.root

/-- The loop of `insert`: the heap after overwriting a present key (the early
`return`), or `parent` when `curr` has become null. -/
def insertLoop (h : Heap (TreeNode K V)) (key : K) (value : V) :
    Nat → Ptr → Ptr → Option (Heap (TreeNode K V) ⊕ Ptr)
  | 0, _, _ => none
  | fuel + 1, curr, parent =>
      if curr = 0 then some (.inr parent)
      else do
        let n ← h.load curr
        if key < n.data.1 then insertLoop h key value fuel n.left curr
        else if n.data.1 < key then insertLoop h key value fuel n.right curr
        else do
          let h ← h.modify curr fun n => { n with data := (n.data.1, value) }
          some (.inl h)

/-- The end of `insert`: a new node on the side of `parent` that its key asks for. -/
def attach (h : Heap (TreeNode K V)) (key : K) (value : V) (parent addr : Ptr) :
    Option (Heap (TreeNode K V)) := do
  let p ← h.load parent
  if key < p.data.1 then
    (h.set addr ⟨(key, value), 0, 0, parent⟩).modify parent fun p => { p with left := addr }
  else (h.set addr ⟨(key, value), 0, 0, parent⟩).modify parent fun p => { p with right := addr }

/-- `insert({key, value})`, where `addr` is what `new` returns if it is called. -/
def insert (s : Map K V) (key : K) (value : V) (addr : Ptr) : Option (Map K V) :=
  if s.root = 0 then some ⟨s.heap.set addr ⟨(key, value), 0, 0, 0⟩, addr⟩
  else do
    let found ← insertLoop s.heap key value (s.heap.size + 1) s.root 0
    match found with
    | .inl h => some ⟨h, s.root⟩
    | .inr parent => do
        let h ← attach s.heap key value parent addr
        some ⟨h, s.root⟩

/-- `operator[]`: the map after the call and the node whose value is referred to. -/
def subscript [Inhabited V] (s : Map K V) (key : K) (addr : Ptr) : Option (Map K V × Ptr) := do
  let node ← find s key
  if node ≠ 0 then some (s, node)
  else do
    let s ← insert s key default addr
    let node ← find s key
    let _ ← s.heap.load node
    some (s, node)

/-- `erase(key)`.  The pair moved out of the successor is never read again: its
node is the one deleted. -/
def erase (s : Map K V) (key : K) : Option (Map K V) := do
  let node ← find s key
  if node = 0 then some s
  else do
    let n ← s.heap.load node
    if n.left ≠ 0 ∧ n.right ≠ 0 then do
      let succ ← successor s.heap node
      let m ← s.heap.load succ
      let h ← s.heap.modify node fun n => { n with data := m.data }
      splice ⟨h, s.root⟩ succ
    else splice s node

end Keyed

/-- The public calls; `addr` is the address `new` has ready. -/
inductive Op (K V : Type) where
  | insert (key : K) (value : V) (addr : Ptr)
  | subscript (key : K) (addr : Ptr)
  | erase (key : K)
  | clear
  deriving DecidableEq, Repr

section Run
variable [LinearOrder K] [Inhabited V]

def step (s : Map K V) : Op K V → Option (Map K V)
  | .insert key value addr => insert s key value addr
  | .subscript key addr => (subscript s key addr).map Prod.fst
  | .erase key => erase s key
  | .clear => clear s

/-- `new` never returns null or the address of a live node. -/
def FreshAddr (s : Map K V) : Op K V → Prop
  | .insert _ _ addr => s.heap.Fresh addr
  | .subscript _ addr => s.heap.Fresh addr
  | .erase _ => True
  | .clear => True

instance decidableFreshAddr (s : Map K V) (op : Op K V) [DecidableEq V] : Decidable (FreshAddr s op) :=
  match op with
  | .insert _ _ addr => inferInstanceAs (Decidable (s.heap.Fresh addr))
  | .subscript _ addr => inferInstanceAs (Decidable (s.heap.Fresh addr))
  | .erase _ => isTrue trivial
  | .clear => isTrue trivial

/-- The finite map that a call denotes. -/
def specStep (m : K → Option V) : Op K V → K → Option V
  | .insert key value _ => Function.update m key (some value)
  | .subscript key _ => Function.update m key (some ((m key).getD default))
  | .erase key => Function.update m key none
  | .clear => fun _ => none

def specRun (m : K → Option V) (ops : List (Op K V)) : K → Option V :=
  ops.foldl specStep m

end Run

open LinkedTree.ATree LinkedTree.Ctx

/-! ## Searching -/

section Search
variable [LinearOrder K]

/-- Where the search for `key` in the tree at the hole of a context ends: at
the node of the key, or in an empty hole. -/
def descend (key : K) : Ctx (K × V) → ATree (K × V) → Ctx (K × V) × ATree (K × V)
  | c, leaf => (c, leaf)
  | c, node a d l r =>
      if key < d.1 then descend key (.left a d r :: c) l
      else if d.1 < key then descend key (.right a d l :: c) r
      else (c, node a d l r)

/-- The hole is where `key` belongs. -/
def Around (key : K) (c : Ctx (K × V)) : Prop :=
  (∀ p ∈ before c, p.1 < key) ∧ ∀ p ∈ after c, key < p.1

variable {key : K} {value : V} {h : Heap (TreeNode K V)}

theorem plug_descend (key : K) (c : Ctx (K × V)) (t : ATree (K × V)) :
    plug (descend key c t).1 (descend key c t).2 = plug c t := by
  induction t generalizing c with
  | leaf => rfl
  | node a d l r ihl ihr =>
      rw [descend]
      split
      · exact ihl _
      · split
        · exact ihr _
        · rfl

theorem Around.left {c : Ctx (K × V)} {a : Ptr} {d : K × V} {l r : ATree (K × V)}
    (hc : Around key c) (hs : Sorted (plug c (node a d l r)).inorder) (hlt : key < d.1) :
    Around key (.left a d r :: c) := by
  rw [inorder_plug_node] at hs
  obtain ⟨-, -, -, hafter⟩ := sorted_mid.mp hs
  refine ⟨hc.1, fun p hp => ?_⟩
  rcases List.mem_cons.mp hp with rfl | hp
  · exact hlt
  · exact lt_trans hlt (hafter p hp)

theorem Around.right {c : Ctx (K × V)} {a : Ptr} {d : K × V} {l r : ATree (K × V)}
    (hc : Around key c) (hs : Sorted (plug c (node a d l r)).inorder) (hlt : d.1 < key) :
    Around key (.right a d l :: c) := by
  rw [inorder_plug_node] at hs
  obtain ⟨-, -, hbefore, -⟩ := sorted_mid.mp hs
  refine ⟨fun p hp => ?_, hc.2⟩
  rw [before, ← List.append_assoc, List.mem_append, List.mem_singleton] at hp
  rcases hp with hp | rfl
  · exact lt_trans (hbefore p hp) hlt
  · exact hlt

/-- The search ends where the key belongs. -/
theorem descend_around (c : Ctx (K × V)) (t : ATree (K × V)) (hs : Sorted (plug c t).inorder)
    (hc : Around key c) : Around key (descend key c t).1 := by
  induction t generalizing c with
  | leaf => exact hc
  | node a d l r ihl ihr =>
      rw [descend]
      split
      case isTrue hlt => exact ihl _ hs (hc.left hs hlt)
      case isFalse =>
        split
        case isTrue hlt => exact ihr _ hs (hc.right hs hlt)
        case isFalse => exact hc

theorem descend_cases (key : K) (c : Ctx (K × V)) (t : ATree (K × V)) :
    (descend key c t).2 = leaf ∨ ∃ a v l r, (descend key c t).2 = node a (key, v) l r := by
  induction t generalizing c with
  | leaf => exact .inl rfl
  | node a d l r ihl ihr =>
      rw [descend]
      split
      case isTrue => exact ihl _
      case isFalse hnlt =>
        split
        case isTrue => exact ihr _
        case isFalse hngt =>
          have hkey : key = d.1 := le_antisymm (not_lt.mp hngt) (not_lt.mp hnlt)
          exact .inr ⟨a, d.2, l, r, by rw [hkey]⟩

theorem findLoop_eq (c : Ctx (K × V)) (t : ATree (K × V)) {p : Ptr} (hs : Stored h p t)
    {fuel : Nat} (hfuel : t.size < fuel) :
    findLoop h key fuel t.root = some (descend key c t).2.root := by
  induction t generalizing c p fuel with
  | leaf =>
      obtain ⟨n, rfl⟩ := Nat.exists_eq_add_one_of_ne_zero (Nat.ne_of_gt hfuel)
      rfl
  | node a d l r ihl ihr =>
      obtain ⟨n, rfl⟩ := Nat.exists_eq_add_one_of_ne_zero (Nat.ne_of_gt (Nat.zero_lt_of_lt hfuel))
      rw [size_node] at hfuel
      rw [findLoop, root_node, if_neg (Heap.ne_null_of_load hs.1), hs.1, descend]
      show (if key < d.1 then findLoop h key n l.root
        else if d.1 < key then findLoop h key n r.root else some a) = _
      split
      · exact ihl _ hs.2.1 (by omega)
      · split
        · exact ihr _ hs.2.2 (by omega)
        · rfl

/-- The loop of `insert` stops below the same node as the search. -/
theorem insertLoop_eq (key : K) (value : V) (c : Ctx (K × V)) (t : ATree (K × V))
    (hs : Stored h (parentOf c) t) {fuel : Nat} (hfuel : t.size < fuel) :
    insertLoop h key value fuel t.root (parentOf c) =
      some (match (descend key c t).2 with
        | leaf => .inr (parentOf (descend key c t).1)
        | node a d l r => .inl (h.set a
            ⟨(d.1, value), l.root, r.root, parentOf (descend key c t).1⟩)) := by
  induction t generalizing c fuel with
  | leaf =>
      obtain ⟨n, rfl⟩ := Nat.exists_eq_add_one_of_ne_zero (Nat.ne_of_gt hfuel)
      rfl
  | node a d l r ihl ihr =>
      obtain ⟨n, rfl⟩ := Nat.exists_eq_add_one_of_ne_zero (Nat.ne_of_gt (Nat.zero_lt_of_lt hfuel))
      rw [size_node] at hfuel
      rw [insertLoop, root_node, if_neg (Heap.ne_null_of_load hs.1), hs.1, descend]
      show (if key < d.1 then insertLoop h key value n l.root a
        else if d.1 < key then insertLoop h key value n r.root a
        else (h.modify a _).bind _) = _
      split
      · exact ihl (.left a d r :: c) hs.2.1 (by omega)
      · split
        · exact ihr (.right a d l :: c) hs.2.2 (by omega)
        · rw [Heap.modify_eq hs.1]
          rfl

end Search

/-! ## The representation -/

section Represent
variable [LinearOrder K]

/-- The map object is the search tree `t`. -/
structure Rep (s : Map K V) (t : ATree (K × V)) : Prop where
  root : s.root = t.root
  stored : Stored s.heap 0 t
  nodup : t.addrs.Nodup
  sorted : Sorted t.inorder

variable {s : Map K V} {t : ATree (K × V)} {key : K} {value : V}

theorem make_rep : Rep (make : Map K V) leaf :=
  ⟨rfl, trivial, List.nodup_nil, sorted_nil⟩

theorem Rep.size_lt (hrep : Rep s t) : t.size < s.heap.size + 1 :=
  Nat.lt_succ_of_le (hrep.stored.size_le hrep.nodup)

theorem Rep.find_eq (hrep : Rep s t) (key : K) :
    find s key = some (descend key [] t).2.root := by
  rw [find, hrep.root]
  exact findLoop_eq [] t hrep.stored hrep.size_lt

theorem around_nil : Around key ([] : Ctx (K × V)) :=
  ⟨fun _ hp => absurd hp List.not_mem_nil, fun _ hp => absurd hp List.not_mem_nil⟩

/-- The two ends of a search: the key is nowhere, or the tree is a context
around the node of the key. -/
theorem Rep.search (hrep : Rep s t) (key : K) :
    (∃ c, descend key [] t = (c, leaf) ∧ t = plug c leaf ∧ Around key c) ∨
      ∃ c a v l r, descend key [] t = (c, node a (key, v) l r) ∧
        t = plug c (node a (key, v) l r) ∧ Around key c := by
  have hplug : plug _ _ = t := plug_descend key [] t
  have haround : Around key (descend key [] t).1 := descend_around [] t hrep.sorted around_nil
  rcases descend_cases key [] t with hend | ⟨a, v, l, r, hend⟩
  · rw [hend] at hplug
    exact .inl ⟨_, Prod.ext rfl hend, hplug.symm, haround⟩
  · rw [hend] at hplug
    exact .inr ⟨_, a, v, l, r, Prod.ext rfl hend, hplug.symm, haround⟩

/-! ### `find` -/

/-- What `find` promises: the node of the key, or null when it is absent. -/
def Finds (s : Map K V) (m : K → Option V) (key : K) : Prop :=
  ∃ p, find s key = some p ∧ (p = 0 ↔ m key = none) ∧
    ∀ value, m key = some value ↔ (s.heap.load p).map Cell.data = some (key, value)

theorem Rep.finds {m : K → Option V} (hrep : Rep s t) (hm : Holds t.inorder m) (key : K) :
    Finds s m key := by
  rcases hrep.search key with ⟨c, hend, rfl, haround⟩ | ⟨c, a, v, l, r, hend, rfl, haround⟩
  · have hnone : m key = none := by
      refine Option.eq_none_iff_forall_ne_some.mpr fun value hvalue => ?_
      have hmem := (hm key value).mpr hvalue
      rw [inorder_plug, inorder, List.nil_append, List.mem_append] at hmem
      rcases hmem with hmem | hmem
      · exact lt_irrefl _ (haround.1 _ hmem)
      · exact lt_irrefl _ (haround.2 _ hmem)
    refine ⟨0, by rw [hrep.find_eq, hend]; rfl, ⟨fun _ => hnone, fun _ => rfl⟩, fun value => ?_⟩
    rw [hnone, Heap.load_null]
    simp
  · have hsome : m key = some v := by
      refine (hm key v).mp ?_
      rw [inorder_plug, inorder]
      simp
    have hload := (stored_plug.mp hrep.stored).2.1
    refine ⟨a, by rw [hrep.find_eq, hend]; rfl, ?_, fun value => ?_⟩
    · rw [hsome]
      exact iff_of_false (Heap.ne_null_of_load hload) (Option.some_ne_none v)
    · rw [hsome, hload]
      simp

/-! ### `insert` -/

theorem attach_ok {h : Heap (TreeNode K V)} {f : Frame (K × V)} {c : Ctx (K × V)} {addr : Ptr}
    (hs : Stored h 0 (plug (f :: c) leaf)) (hnodup : (plug (f :: c) leaf).addrs.Nodup)
    (hfresh : h.Fresh addr) (haround : Around key (f :: c)) (value : V) :
    ∃ h', attach h key value f.addr addr = some h' ∧
      Stored h' 0 (plug (f :: c) (node addr (key, value) leaf leaf)) := by
  obtain ⟨hctx, -⟩ := stored_plug.mp hs
  have hmem : ∀ x ∈ Ctx.addrs (f :: c), x ≠ addr := by
    rintro x hx rfl
    exact hs.not_mem_of_fresh hfresh (mem_addrs_plug.mpr (.inr hx))
  have hctx' : StoredCtx (h.set addr ⟨(key, value), 0, 0, f.addr⟩) 0 (f :: c) :=
    hctx.congr fun x hx => Heap.load_set_of_ne hfresh.1 (hmem x hx)
  have hne : f.addr ≠ addr := hmem _ List.mem_cons_self
  refine ⟨(h.set addr ⟨(key, value), 0, 0, f.addr⟩).set f.addr (f.cell addr (parentOf c)),
    ?_, stored_plug.mpr ⟨hctx'.repoint (nodup_plug.mp hnodup).2.1 addr, ?_⟩⟩
  · cases f with
    | left a d sib =>
        have hlt : key < d.1 := haround.2 d List.mem_cons_self
        rw [attach, hctx.1]
        show (if key < d.1 then _ else _) = _
        rw [if_pos hlt, Heap.modify_eq hctx'.1]
        rfl
    | right a d sib =>
        have hlt : d.1 < key := haround.1 d (by simp [before])
        rw [attach, hctx.1]
        show (if key < d.1 then _ else _) = _
        rw [if_neg (not_lt_of_gt hlt), Heap.modify_eq hctx'.1]
        rfl
  · refine (stored_new (h := h) (d := (key, value)) hfresh.1).congr fun x hx => ?_
    have hx : x = addr := by simpa [ATree.addrs] using hx
    subst hx
    exact Heap.load_set_of_ne (Heap.ne_null_of_load hctx.1) hne.symm

/-- `insert` puts a new leaf in the hole, or overwrites the value. -/
theorem insert_ok (hrep : Rep s t) {addr : Ptr} (hfresh : s.heap.Fresh addr) (key : K)
    (value : V) : ∃ s' t', insert s key value addr = some s' ∧ Rep s' t' ∧
      t'.inorder = put key value t.inorder := by
  have hloop := insertLoop_eq key value [] t hrep.stored hrep.size_lt
  rw [parentOf_nil, ← hrep.root] at hloop
  rcases hrep.search key with ⟨c, hend, rfl, haround⟩ | ⟨c, a, v, l, r, hend, rfl, haround⟩
  · have hin : (plug c (node addr (key, value) leaf leaf)).inorder =
        put key value (plug c leaf).inorder := by
      rw [inorder_plug, inorder_plug]
      exact (put_between haround.1 haround.2).symm
    have hnodup : (plug c (node addr (key, value) leaf leaf)).addrs.Nodup := by
      obtain ⟨-, hc, -⟩ := nodup_plug.mp hrep.nodup
      refine nodup_plug.mpr ⟨List.nodup_singleton addr, hc, fun x hx hxc => ?_⟩
      have hx : x = addr := by simpa [ATree.addrs] using hx
      subst hx
      exact hrep.stored.not_mem_of_fresh hfresh (mem_addrs_plug.mpr (.inr hxc))
    have hsorted := hin ▸ sorted_put hrep.sorted
    cases c with
    | nil =>
        rw [insert, if_pos (show s.root = 0 from hrep.root)]
        exact ⟨_, _, rfl, ⟨rfl, stored_new hfresh.1, hnodup, hsorted⟩, hin⟩
    | cons f c =>
        have hroot : s.root ≠ 0 := fun hnull =>
          plug_cons_ne_leaf f c leaf (hrep.stored.root_eq_null.mp (hrep.root ▸ hnull))
        obtain ⟨h', hattach, hstored⟩ :=
          attach_ok hrep.stored hrep.nodup hfresh haround value
        rw [hend] at hloop
        refine ⟨⟨h', s.root⟩, _, ?_, ⟨hrep.root.trans root_plug, hstored, hnodup, hsorted⟩, hin⟩
        rw [insert, if_neg hroot, hloop]
        show (attach s.heap key value f.addr addr).bind _ = _
        rw [hattach]
        rfl
  · have hroot : s.root ≠ 0 := fun hnull =>
      plug_node_ne_leaf c a (key, v) l r (hrep.stored.root_eq_null.mp (hrep.root ▸ hnull))
    have hin : (plug c (node a (key, value) l r)).inorder =
        put key value (plug c (node a (key, v) l r)).inorder := by
      have hs := hrep.sorted
      rw [inorder_plug_node] at hs
      rw [inorder_plug_node, inorder_plug_node]
      obtain ⟨-, -, hlow, hhigh⟩ := sorted_mid.mp hs
      exact (put_mid_eq hlow hhigh).symm
    rw [hend] at hloop
    refine ⟨⟨_, s.root⟩, _, ?_, ⟨?_, hrep.stored.overwrite hrep.nodup (key, value), ?_, ?_⟩, hin⟩
    · rw [insert, if_neg hroot, hloop]
      rfl
    · exact hrep.root.trans (root_plug_node c _ _ _ _ _ _ _)
    · have hnodup := nodup_plug.mp hrep.nodup
      exact nodup_plug.mpr hnodup
    · exact hin ▸ sorted_put hrep.sorted

end Represent

/-! ## Unlinking a node -/

section Splice
variable {h : Heap (TreeNode K V)} {c : Ctx (K × V)} {b : Ptr} {d : K × V} {t : ATree (K × V)}

/-- `setParent` moves a subtree, and touches nothing else. -/
theorem setParent_ok (hs : Stored h b t) (hnodup : t.addrs.Nodup) (parent : Ptr) :
    ∃ h', setParent h t.root parent = some h' ∧ Stored h' parent t ∧
      ∀ x, x ∉ t.addrs → h'.load x = h.load x := by
  cases t with
  | leaf => exact ⟨h, rfl, trivial, fun _ _ => rfl⟩
  | node a e l r =>
      have ha : a ≠ 0 := Heap.ne_null_of_load hs.1
      refine ⟨_, ?_, hs.reparent hnodup parent, fun x hx => ?_⟩
      · rw [setParent, root_node, if_pos ha, Heap.modify_eq hs.1]
      · refine Heap.load_set_of_ne ha fun heq => hx ?_
        exact mem_addrs_node.mpr (.inr (.inl heq))

/-- `relink` puts the child in the hole that `node` leaves. -/
theorem relink_ok {f : Frame (K × V)} {hole : Ptr} (hs : StoredCtx h hole (f :: c))
    (hnodup : (Ctx.addrs (f :: c)).Nodup) (hole_ne : hole ≠ 0) (hfree : hole ∉ Ctx.addrs (f :: c))
    (child : Ptr) :
    relink h hole f.addr child = some (h.set f.addr (f.cell child (parentOf c))) := by
  rw [relink, hs.1]
  cases f with
  | left a e sib =>
      show (if hole = hole then _ else _) = _
      rw [if_pos rfl, Heap.modify_eq hs.1]
      rfl
  | right a e sib =>
      have hne : sib.root ≠ hole := by
        refine hs.2.1.root_ne hole_ne fun hmem => hfree ?_
        exact List.mem_cons_of_mem _ (List.mem_append_left _ hmem)
      show (if hole = sib.root then _ else _) = _
      rw [if_neg hne.symm, Heap.modify_eq hs.1]
      rfl

/-- The tree without the node at `b`, which had no child beside `t`. -/
theorem splice_ok {l r : ATree (K × V)} (hs : Stored h 0 (plug c (node b d l r)))
    (hnodup : (plug c (node b d l r)).addrs.Nodup)
    (ht : (l = leaf ∧ t = r) ∨ (r = leaf ∧ t = l)) :
    ∃ h', splice ⟨h, (plug c (node b d l r)).root⟩ b = some ⟨h', (plug c t).root⟩ ∧
      Stored h' 0 (plug c t) ∧ (plug c t).addrs.Nodup := by
  obtain ⟨hctx, ⟨hload, hl, hr⟩⟩ := stored_plug.mp hs
  obtain ⟨hnode, hctxNodup, hdisj⟩ := nodup_plug.mp hnodup
  obtain ⟨⟨hbl, hbr⟩, ⟨hlNodup, hrNodup⟩, -⟩ := nodup_node.mp hnode
  have hb : b ≠ 0 := Heap.ne_null_of_load hload
  have hbc : b ∉ Ctx.addrs c := hdisj b (mem_addrs_node.mpr (.inr (.inl rfl)))
  have htree : Stored h b t ∧ t.addrs.Nodup ∧ b ∉ t.addrs ∧ (∀ x ∈ t.addrs, x ∉ Ctx.addrs c) ∧
      (if l.root ≠ 0 then l.root else r.root) = t.root := by
    rcases ht with ⟨rfl, rfl⟩ | ⟨rfl, rfl⟩
    · exact ⟨hr, hrNodup, hbr, fun x hx => hdisj x (mem_addrs_node.mpr (.inr (.inr hx))), rfl⟩
    · refine ⟨hl, hlNodup, hbl, fun x hx => hdisj x (mem_addrs_node.mpr (.inl hx)), ?_⟩
      split
      · rfl
      case isFalse hnull => exact (not_not.mp hnull).symm
  obtain ⟨hst, htNodup, hbt, htc, hchild⟩ := htree
  have hresult : (plug c t).addrs.Nodup := nodup_plug.mpr ⟨htNodup, hctxNodup, htc⟩
  obtain ⟨h₁, hset, hst₁, hframe₁⟩ := setParent_ok hst htNodup (parentOf c)
  have hctx₁ : StoredCtx h₁ b c := hctx.congr fun x hx => hframe₁ x fun hxt => htc x hxt hx
  have hload₁ : h₁.load b = some ⟨d, l.root, r.root, parentOf c⟩ := (hframe₁ b hbt).trans hload
  have hstart : splice ⟨h, (plug c (node b d l r)).root⟩ b =
      if parentOf c = 0 then (h₁.free b).bind fun h => some ⟨h, t.root⟩
      else (relink h₁ b (parentOf c) t.root).bind fun h =>
        (h.free b).bind fun h => some ⟨h, (plug c (node b d l r)).root⟩ := by
    rw [splice, hload]
    show (setParent h (if l.root ≠ 0 then l.root else r.root) (parentOf c)).bind _ = _
    rw [hchild, hset]
    show (h₁.load b).bind _ = _
    rw [hload₁]
    rfl
  rw [hstart]
  cases c with
  | nil =>
      rw [parentOf_nil, if_pos rfl, Heap.free_eq hload₁]
      refine ⟨_, rfl, hst₁.congr fun x hx => Heap.load_drop_of_ne ?_, hresult⟩
      rintro rfl
      exact hbt hx
  | cons f c =>
      have hf : f.addr ≠ 0 := Heap.ne_null_of_load hctx₁.1
      have hfb : b ≠ f.addr := fun heq => hbc (heq ▸ List.mem_cons_self)
      have hft : ∀ x ∈ t.addrs, x ≠ f.addr := fun x hx heq => htc x hx (heq ▸ List.mem_cons_self)
      have hload₂ := (Heap.load_set_of_ne hf hfb (c := f.cell t.root (parentOf c))).trans hload₁
      rw [parentOf_cons, if_neg hf, relink_ok hctx₁ hctxNodup hb hbc]
      show ∃ h', ((Heap.set h₁ f.addr _).free b).bind _ = _ ∧ _
      rw [Heap.free_eq hload₂]
      refine ⟨_, congrArg some (congrArg (Map.mk _) root_plug), ?_, hresult⟩
      have hctx₂ := hctx₁.repoint hctxNodup t.root
      have hst₂ := hst₁.congr fun x hx =>
        Heap.load_set_of_ne hf (hft x hx) (c := f.cell t.root (parentOf c))
      refine stored_plug.mpr ⟨hctx₂.congr fun x hx => Heap.load_drop_of_ne ?_,
        hst₂.congr fun x hx => Heap.load_drop_of_ne ?_⟩
      · rintro rfl
        exact hbc hx
      · rintro rfl
        exact hbt hx

/-- `minium` finds the node with nothing before it in order. -/
theorem miniumLoop_eq {p : Ptr} (hs : Stored h p t) (ht : t ≠ leaf) {fuel : Nat}
    (hfuel : t.size < fuel) :
    ∃ c b d r, t = plug c (node b d leaf r) ∧ before c = [] ∧
      miniumLoop fuel h t.root = some b := by
  induction t generalizing p fuel with
  | leaf => exact absurd rfl ht
  | node a e l r ihl _ =>
      obtain ⟨n, rfl⟩ := Nat.exists_eq_add_one_of_ne_zero (Nat.ne_of_gt (Nat.zero_lt_of_lt hfuel))
      rw [size_node] at hfuel
      rw [root_node, miniumLoop, hs.1]
      show ∃ c b d r', _ ∧ _ ∧ (if l.root ≠ 0 then miniumLoop n h l.root else some a) = some b
      by_cases hl : l = leaf
      · subst hl
        exact ⟨[], a, e, r, rfl, rfl, rfl⟩
      · have hlt : l.size < n := by omega
        obtain ⟨c, b, d, r', hplug, hbefore, hloop⟩ := ihl hs.2.1 hl hlt
        refine ⟨c ++ [.left a e r], b, d, r', ?_, ?_, ?_⟩
        · rw [plug_append, ← hplug]
          rfl
        · rw [before_append, hbefore]
          rfl
        · rw [if_pos fun hnull => hl (hs.2.1.root_eq_null.mp hnull), hloop]

end Splice

/-! ### `erase` -/

section Erase
variable [LinearOrder K] {s : Map K V} {t : ATree (K × V)} {key : K}

/-- Removing the pair of a node, in order. -/
theorem del_plug_node {c : Ctx (K × V)} {a : Ptr} {v : V} {l r : ATree (K × V)}
    (hs : Sorted (plug c (node a (key, v) l r)).inorder) :
    del key (plug c (node a (key, v) l r)).inorder =
      (before c ++ l.inorder) ++ (r.inorder ++ after c) := by
  rw [inorder_plug_node] at hs ⊢
  obtain ⟨-, -, hlow, hhigh⟩ := sorted_mid.mp hs
  exact del_mid_eq hlow hhigh

/-- Both children are there: the successor's pair moves up and its node goes. -/
theorem erase_two {c : Ctx (K × V)} {a : Ptr} {v : V} {l r : ATree (K × V)}
    (hrep : Rep s (plug c (node a (key, v) l r))) (hl : l ≠ leaf) (hr : r ≠ leaf)
    (hfind : find s key = some a) :
    ∃ s' t', erase s key = some s' ∧ Rep s' t' ∧
      t'.inorder = del key (plug c (node a (key, v) l r)).inorder := by
  obtain ⟨hctx, hload, hsl, hsr⟩ := stored_plug.mp hrep.stored
  have hlroot : l.root ≠ 0 := fun hnull => hl (hsl.root_eq_null.mp hnull)
  have hrroot : r.root ≠ 0 := fun hnull => hr (hsr.root_eq_null.mp hnull)
  have hsize : r.size < s.heap.size + 1 := by
    have hle := size_plug_le c (node a (key, v) l r)
    have hlt := hrep.size_lt
    rw [size_node] at hle
    omega
  obtain ⟨cm, b, d, rm, rfl, hbefore, hmin⟩ := miniumLoop_eq hsr hr hsize
  have hsucc : successor s.heap a = some b := by
    rw [successor, hload]
    show (if (plug cm (node b d leaf rm)).root ≠ 0 then minium _ _ else _) = _
    rw [if_pos hrroot, minium, if_neg hrroot, hmin]
  -- the whole tree as a context around the successor, before and after the move
  have hview : ∀ e : K × V, plug c (node a e l (plug cm (node b d leaf rm))) =
      plug (cm ++ Frame.right a e l :: c) (node b d leaf rm) := fun e =>
    (plug_append cm (.right a e l :: c) (node b d leaf rm)).symm
  have hwhole := hrep.stored
  rw [hview] at hwhole
  have hloadb := (stored_plug.mp hwhole).2.1
  have hmove := hrep.stored.overwrite hrep.nodup d
  have hnodup : (plug c (node a d l (plug cm (node b d leaf rm)))).addrs.Nodup := by
    have hsplit := nodup_plug.mp hrep.nodup
    exact nodup_plug.mpr hsplit
  rw [hview] at hmove hnodup
  obtain ⟨h', hsplice, hstored, hnodup'⟩ := splice_ok hmove hnodup (.inl ⟨rfl, rfl⟩)
  rw [← hview] at hsplice
  have hin : (plug (cm ++ Frame.right a d l :: c) rm).inorder =
      del key (plug c (node a (key, v) l (plug cm (node b d leaf rm)))).inorder := by
    rw [del_plug_node hrep.sorted, plug_append, plug_cons, Frame.fill, inorder_plug_node,
      inorder_plug, inorder_plug_node, hbefore]
    rfl
  refine ⟨⟨h', (plug (cm ++ Frame.right a d l :: c) rm).root⟩, _, ?_,
    ⟨rfl, hstored, hnodup', hin ▸ sorted_del hrep.sorted⟩, hin⟩
  rw [erase, hfind]
  show (if a = 0 then _ else (s.heap.load a).bind _) = _
  rw [if_neg (Heap.ne_null_of_load hload), hload]
  show (if l.root ≠ 0 ∧ (plug cm (node b d leaf rm)).root ≠ 0 then _ else _) = _
  rw [if_pos ⟨hlroot, hrroot⟩, hsucc]
  show (s.heap.load b).bind _ = _
  rw [hloadb]
  show (s.heap.modify a _).bind _ = _
  rw [Heap.modify_eq hload, hrep.root, root_plug_node c a (key, v) d l l _ _]
  exact hsplice

/-- At most one child: the node itself is spliced out. -/
theorem erase_one {c : Ctx (K × V)} {a : Ptr} {v : V} {l r : ATree (K × V)}
    (hrep : Rep s (plug c (node a (key, v) l r))) (hempty : l = leaf ∨ r = leaf)
    (hfind : find s key = some a) :
    ∃ s' t', erase s key = some s' ∧ Rep s' t' ∧
      t'.inorder = del key (plug c (node a (key, v) l r)).inorder := by
  obtain ⟨-, hload, hsl, hsr⟩ := stored_plug.mp hrep.stored
  have hchild : ∃ t, ((l = leaf ∧ t = r) ∨ (r = leaf ∧ t = l)) ∧
      t.inorder = l.inorder ++ r.inorder := by
    rcases hempty with rfl | rfl
    · exact ⟨r, .inl ⟨rfl, rfl⟩, rfl⟩
    · exact ⟨l, .inr ⟨rfl, rfl⟩, (List.append_nil _).symm⟩
  obtain ⟨t, ht, htin⟩ := hchild
  obtain ⟨h', hsplice, hstored, hnodup'⟩ := splice_ok hrep.stored hrep.nodup ht
  have hin : (plug c t).inorder = del key (plug c (node a (key, v) l r)).inorder := by
    rw [del_plug_node hrep.sorted, inorder_plug, htin, List.append_assoc, List.append_assoc]
  refine ⟨⟨h', (plug c t).root⟩, _, ?_,
    ⟨rfl, hstored, hnodup', hin ▸ sorted_del hrep.sorted⟩, hin⟩
  have hnot : ¬ (l.root ≠ 0 ∧ r.root ≠ 0) := by
    rintro ⟨hl, hr⟩
    rcases hempty with rfl | rfl
    · exact hl rfl
    · exact hr rfl
  rw [erase, hfind]
  show (if a = 0 then _ else (s.heap.load a).bind _) = _
  rw [if_neg (Heap.ne_null_of_load hload), hload]
  show (if l.root ≠ 0 ∧ r.root ≠ 0 then _ else splice ⟨s.heap, s.root⟩ a) = _
  rw [if_neg hnot, hrep.root]
  exact hsplice

theorem erase_ok (hrep : Rep s t) (key : K) :
    ∃ s' t', erase s key = some s' ∧ Rep s' t' ∧ t'.inorder = del key t.inorder := by
  have hfind := hrep.find_eq key
  rcases hrep.search key with ⟨c, hend, rfl, haround⟩ | ⟨c, a, v, l, r, hend, rfl, haround⟩
  · refine ⟨s, _, ?_, hrep, (del_none fun p hp => ?_).symm⟩
    · rw [erase, hfind, hend]
      rfl
    · rw [inorder_plug, inorder, List.nil_append, List.mem_append] at hp
      rcases hp with hp | hp
      · exact ne_of_lt (haround.1 p hp)
      · exact ne_of_gt (haround.2 p hp)
  · rw [hend] at hfind
    by_cases hempty : l = leaf ∨ r = leaf
    · exact erase_one hrep hempty hfind
    · obtain ⟨hl, hr⟩ := not_or.mp hempty
      exact erase_two hrep hl hr hfind

end Erase

/-! ### `clear` -/

/-- `clear` frees the nodes of the subtree and no other. -/
theorem clearNode_ok {h : Heap (TreeNode K V)} {p : Ptr} {t : ATree (K × V)} (hs : Stored h p t)
    (hnodup : t.addrs.Nodup) {fuel : Nat} (hfuel : t.size < fuel) :
    ∃ h', clearNode fuel h t.root = some h' ∧ ∀ x, x ∉ t.addrs → h'.load x = h.load x := by
  induction t generalizing h p fuel with
  | leaf =>
      obtain ⟨n, rfl⟩ := Nat.exists_eq_add_one_of_ne_zero (Nat.ne_of_gt hfuel)
      exact ⟨h, rfl, fun _ _ => rfl⟩
  | node a d l r ihl ihr =>
      obtain ⟨n, rfl⟩ := Nat.exists_eq_add_one_of_ne_zero (Nat.ne_of_gt (Nat.zero_lt_of_lt hfuel))
      rw [size_node] at hfuel
      have hnl : l.size < n := by omega
      have hnr : r.size < n := by omega
      obtain ⟨⟨hal, har⟩, ⟨hlNodup, hrNodup⟩, hdisj⟩ := nodup_node.mp hnodup
      obtain ⟨h₁, hclear₁, hframe₁⟩ := ihl hs.2.1 hlNodup hnl
      have hload₁ := (hframe₁ a hal).trans hs.1
      have hsr : Stored h₁ a r := hs.2.2.congr fun x hx => hframe₁ x fun hxl => hdisj x hxl hx
      obtain ⟨h₂, hclear₂, hframe₂⟩ := ihr hsr hrNodup hnr
      have hload₂ := (hframe₂ a har).trans hload₁
      refine ⟨h₂.drop a, ?_, fun x hx => ?_⟩
      · rw [clearNode, root_node, if_neg (Heap.ne_null_of_load hs.1), hs.1]
        show (clearNode n h l.root).bind _ = _
        rw [hclear₁]
        show (h₁.load a).bind _ = _
        rw [hload₁]
        show (clearNode n h₁ r.root).bind _ = _
        rw [hclear₂]
        exact Heap.free_eq hload₂
      · rw [mem_addrs_node, not_or, not_or] at hx
        rw [Heap.load_drop_of_ne hx.2.1, hframe₂ x hx.2.2, hframe₁ x hx.1]

theorem clear_ok [LinearOrder K] {s : Map K V} {t : ATree (K × V)} (hrep : Rep s t) :
    ∃ s', clear s = some s' ∧ Rep s' leaf := by
  obtain ⟨h', hclear, -⟩ := clearNode_ok hrep.stored hrep.nodup hrep.size_lt
  refine ⟨⟨h', 0⟩, ?_, ⟨rfl, trivial, List.nodup_nil, sorted_nil⟩⟩
  rw [clear, hrep.root, hclear]
  rfl

/-! ## The finite map -/

section Refine
variable [LinearOrder K] {s : Map K V} {m : K → Option V}

/-- Some search tree at `_root` holds the pairs of `m`. -/
def Represents (s : Map K V) (m : K → Option V) : Prop :=
  ∃ t, Rep s t ∧ Holds t.inorder m

theorem insert_represents (h : Represents s m) {addr : Ptr} (hfresh : s.heap.Fresh addr)
    (key : K) (value : V) : ∃ s', insert s key value addr = some s' ∧
      Represents s' (Function.update m key (some value)) := by
  obtain ⟨t, hrep, hm⟩ := h
  obtain ⟨s', t', hinsert, hrep', hin⟩ := insert_ok hrep hfresh key value
  exact ⟨s', hinsert, t', hrep', hin ▸ hm.put key value⟩

variable [Inhabited V]

/-- `operator[]` refers to the value of the key, which it inserts if need be. -/
theorem subscript_represents (h : Represents s m) {addr : Ptr} (hfresh : s.heap.Fresh addr)
    (key : K) : ∃ s' p, subscript s key addr = some (s', p) ∧
      (s'.heap.load p).map Cell.data = some (key, (m key).getD default) ∧
      Represents s' (Function.update m key (some ((m key).getD default))) := by
  obtain ⟨t, hrep, hm⟩ := h
  obtain ⟨p, hfind, hnull, hload⟩ := hrep.finds hm key
  cases hkey : m key with
  | some value =>
      have hp : p ≠ 0 := fun heq => Option.some_ne_none value (hkey.symm.trans (hnull.mp heq))
      refine ⟨s, p, ?_, (hload value).mp hkey, t, hrep, ?_⟩
      · rw [subscript, hfind]
        show (if p ≠ 0 then _ else _) = _
        rw [if_pos hp]
      · rw [Option.getD_some, ← hkey, Function.update_eq_self]
        exact hm
  | none =>
      have hp : p = 0 := hnull.mpr hkey
      obtain ⟨s', hinsert, t', hrep', hm'⟩ := insert_represents ⟨t, hrep, hm⟩ hfresh key default
      obtain ⟨q, hfind', -, hload'⟩ := hrep'.finds hm' key
      have hq := (hload' default).mp (Function.update_self _ _ _)
      refine ⟨s', q, ?_, hq, t', hrep', hm'⟩
      obtain ⟨cell, hcell, -⟩ := Option.map_eq_some_iff.mp hq
      rw [subscript, hfind]
      show (if p ≠ 0 then _ else (insert s key default addr).bind _) = _
      rw [if_neg (not_not.mpr hp), hinsert]
      show (find s' key).bind _ = _
      rw [hfind']
      show (s'.heap.load q).bind _ = _
      rw [hcell]
      rfl

theorem step_represents (s : Map K V) (m : K → Option V) (op : Op K V) (h : Represents s m)
    (hfresh : FreshAddr s op) :
    ∃ s', step s op = some s' ∧ Represents s' (specStep m op) := by
  cases op with
  | insert key value addr => exact insert_represents h hfresh key value
  | subscript key addr =>
      obtain ⟨s', p, hsub, -, h'⟩ := subscript_represents h hfresh key
      refine ⟨s', ?_, h'⟩
      rw [step, hsub]
      rfl
  | erase key =>
      obtain ⟨t, hrep, hm⟩ := h
      obtain ⟨s', t', herase, hrep', hin⟩ := erase_ok hrep key
      exact ⟨s', herase, t', hrep', hin ▸ hm.del key⟩
  | clear =>
      obtain ⟨t, hrep, -⟩ := h
      obtain ⟨s', hclear, hrep'⟩ := clear_ok hrep
      exact ⟨s', hclear, leaf, hrep', holds_nil⟩

theorem run_represents (ops : List (Op K V)) (h : Represents s m)
    (hfresh : Along step FreshAddr s ops) :
    ∃ s', run step s ops = some s' ∧ Represents s' (specRun m ops) :=
  run_simulates step_represents ops h hfresh

/-- **The parent-linked search tree is a finite map**: after any run of calls on
an empty map, whatever fresh addresses `new` returns, no pointer was followed
wrongly, the cells from `_root` on are a tree `t` of distinct nodes with a null
parent at the root and exact parent links below, its keys are in search order,
and `find` returns the node that holds the value, or null if and only if there
is none. -/
theorem bst_is_finite_map (ops : List (Op K V)) (hfresh : Along step FreshAddr make ops) :
    ∃ s t, run step make ops = some s ∧ s.root = t.root ∧ Stored s.heap 0 t ∧ t.addrs.Nodup ∧
      Sorted t.inorder ∧ Holds t.inorder (specRun (fun _ => none) ops) ∧
      ∀ key, Finds s (specRun (fun _ => none) ops) key := by
  obtain ⟨s, hrun, t, hrep, hm⟩ := run_represents ops ⟨leaf, make_rep, holds_nil⟩ hfresh
  exact ⟨s, t, hrun, hrep.root, hrep.stored, hrep.nodup, hrep.sorted, hm, hrep.finds hm⟩

/-- The calls of `main`, with the two freed nodes' addresses used again: the
last `erase` moves the successor's pair into the root. -/
theorem bst_is_finite_map_main :
    ∃ s p, run step make [.insert 4 "four" 1, .insert 3 "three" 2, .erase 3, .insert 1 "one" 2,
        .insert 2 "two" 3, .insert 5 "five" 4, .insert 6 "six" 5, .erase 4, .subscript 7 4] =
          some s ∧ find s 5 = some p ∧ (s.heap.load p).map Cell.data = some (5, "five") ∧
      find s 4 = some 0 := by
  obtain ⟨s, t, hrun, -, -, -, -, -, hfind⟩ := @bst_is_finite_map Nat String _ _
    [.insert 4 "four" 1, .insert 3 "three" 2, .erase 3, .insert 1 "one" 2, .insert 2 "two" 3,
      .insert 5 "five" 4, .insert 6 "six" 5, .erase 4, .subscript 7 4]
    (by decide)
  obtain ⟨p, hp, -, hload⟩ := hfind 5
  obtain ⟨q, hq, hnull, -⟩ := hfind 4
  exact ⟨s, p, hrun, hp, (hload "five").mp rfl, hq.trans (congrArg some (hnull.mpr rfl))⟩

end Refine

end CKernel.BstMap
