/-
# `CKernel.Stl.AvlMap` — the AVL map of `map_demo.h`

`sen_std::avl_map::map<K, V>` owns its nodes through `_left` and `_right`
alone, so a subtree is a value: `Tree.null` is `nullptr` and a function that
takes and returns a node pointer is a function on trees.  Following a null
pointer is the one thing that can go wrong, and it is the result `none`.

The two rebalancing schemes are kept apart, as the source has them:
`insert` picks its rotation by comparing the inserted key with the child's key
(`fixInsert`), `erase` by the sign of the child's balance (`fixErase`).  In
`fixErase` the two sides are not mirror images: an evenly balanced child is
rotated once on the left and twice on the right.

    a call that returns does to the pairs in order what it does
      to a finite map, whatever the balance of the tree           (`insert_inorder`, `erase_inorder`)
    `find` reads the pairs in order                               (`find_eq`)
    so the map is a finite map along every run that returns       (`avl_is_finite_map`)
-/
import CKernel.Lib.AssocList
import CKernel.Lib.Run

namespace CKernel.AvlMap

open AssocList Run

/-- `tree_node<K, V>*`: null, or a node with its stored `_height`. -/
inductive Tree (K V : Type) where
  | null
  | node (key : K) (value : V) (height : Int) (left right : Tree K V)
  deriving DecidableEq, Repr

namespace Tree

variable {K V : Type}

/-! ## The code -/

def getHeight : Tree K V → Int
  | null => 0
  | node _ _ h _ _ => h

/-- Left minus right. -/
def getBalance : Tree K V → Int
  | null => 0
  | node _ _ _ l r => l.getHeight - r.getHeight

/-- A node whose `_height` has just been recomputed. -/
def mkNode (key : K) (value : V) (left right : Tree K V) : Tree K V :=
  node key value (1 + max left.getHeight right.getHeight) left right

def rightRotate : Tree K V → Option (Tree K V)
  | null => none
  | node _ _ _ null _ => none
  | node yk yv _ (node xk xv _ xl t2) yr => some (mkNode xk xv xl (mkNode yk yv t2 yr))

def leftRotate : Tree K V → Option (Tree K V)
  | null => none
  | node _ _ _ _ null => none
  | node yk yv _ yl (node xk xv _ t2 xr) => some (mkNode xk xv (mkNode yk yv yl t2) xr)

def getMin : Tree K V → Tree K V
  | null => null
  | node k v h null r => node k v h null r
  | node _ _ _ (node k v h l r) _ => getMin (node k v h l r)

/-- `node->_key` -/
def key? : Tree K V → Option K
  | null => none
  | node k _ _ _ _ => some k

/-- `c && test`, where `test` is not evaluated unless `c` holds. -/
def andTest (c : Prop) [Decidable c] (test : Option Bool) : Option Bool :=
  if c then test else some false

section Ops
variable [LinearOrder K]

/-- The end of `insert`: new height, then the four rotation cases. -/
def fixInsert (key : K) (k : K) (v : V) (l r : Tree K V) : Option (Tree K V) := do
  let node' := mkNode k v l r
  let balance := node'.getBalance
  let ll ← andTest (balance > 1) (l.key?.map fun lk => decide (key < lk))
  if ll then node'.rightRotate else
  let rr ← andTest (balance < -1) (r.key?.map fun rk => decide (key > rk))
  if rr then node'.leftRotate else
  let lr ← andTest (balance > 1) (l.key?.map fun lk => decide (key > lk))
  if lr then do
    let l' ← l.leftRotate
    (node k v node'.getHeight l' r).rightRotate
  else
  let rl ← andTest (balance < -1) (r.key?.map fun rk => decide (key < rk))
  if rl then do
    let r' ← r.rightRotate
    (node k v node'.getHeight l r').leftRotate
  else some node'

def insert (key : K) (value : V) : Tree K V → Option (Tree K V)
  | null => some (node key value 1 null null)
  | node k v h l r =>
      if key < k then do
        let l' ← l.insert key value
        fixInsert key k v l' r
      else if key > k then do
        let r' ← r.insert key value
        fixInsert key k v l r'
      else some (node k value h l r)

/-- The end of `erase`: new height, then the four rotation cases. -/
def fixErase : Tree K V → Option (Tree K V)
  | null => some null
  | node k v _ l r =>
      let root := mkNode k v l r
      let balance := root.getBalance
      if balance > 1 ∧ l.getBalance ≥ 0 then root.rightRotate
      else if balance > 1 ∧ l.getBalance < 0 then do
        let l' ← l.leftRotate
        (node k v root.getHeight l' r).rightRotate
      else if balance < -1 ∧ r.getBalance < 0 then root.leftRotate
      else if balance < -1 ∧ r.getBalance ≥ 0 then do
        let r' ← r.rightRotate
        (node k v root.getHeight l r').leftRotate
      else some root

def erase : Tree K V → K → Option (Tree K V)
  | null, _ => some null
  | node k v h l r, key =>
      if key < k then do
        let l' ← l.erase key
        fixErase (node k v h l' r)
      else if key > k then do
        let r' ← r.erase key
        fixErase (node k v h l r')
      else
        match l, r with
        | null, null => some null
        | null, r => fixErase r
        | l, null => fixErase l
        | l, r =>
            match r.getMin with
            | null => none
            | node sk sv _ _ _ => do
                let r' ← r.erase sk
                fixErase (node sk sv h l r')

def find : Tree K V → K → Option V
  | null, _ => none
  | node k v _ l r, key =>
      if key = k then some v
      else if key < k then l.find key
      else r.find key

end Ops

/-- `inorder_helper`: the pairs of `node` pushed behind `res`. -/
def inorderHelper : Tree K V → List (K × V) → List (K × V)
  | null, res => res
  | node k v _ l r, res => r.inorderHelper (l.inorderHelper res ++ [(k, v)])

def inorderTraversal (root : Tree K V) : List (K × V) := root.inorderHelper []

end Tree

/-! ## Runs -/

section Runs
variable {K V : Type}

/-- A call of the public interface that changes the map. -/
inductive Op (K V : Type) where
  | put (key : K) (value : V)
  | remove (key : K)
  deriving DecidableEq, Repr

/-- `put`, `remove`: the map is its `_root`. -/
def step [LinearOrder K] (root : Tree K V) : Op K V → Option (Tree K V)
  | .put key value => root.insert key value
  | .remove key => root.erase key

def get [LinearOrder K] (root : Tree K V) (key : K) : Option V := root.find key

/-- The finite map the calls denote. -/
def specStep [DecidableEq K] (m : K → Option V) : Op K V → K → Option V
  | .put key value => Function.update m key (some value)
  | .remove key => Function.update m key none

def specRun [DecidableEq K] (m : K → Option V) (ops : List (Op K V)) : K → Option V :=
  ops.foldl specStep m

end Runs

/-! ## The in-order list -/

namespace Tree

variable {K V : Type}

/-- The pairs of the tree, left to right. -/
def inorder : Tree K V → List (K × V)
  | null => []
  | node k v _ l r => l.inorder ++ (k, v) :: r.inorder

@[simp] theorem inorder_mkNode (k : K) (v : V) (l r : Tree K V) :
    (mkNode k v l r).inorder = l.inorder ++ (k, v) :: r.inorder := rfl

theorem inorderHelper_eq : ∀ (t : Tree K V) (res : List (K × V)),
    t.inorderHelper res = res ++ t.inorder
  | null, res => (List.append_nil res).symm
  | node k v _ l r, res => by
      rw [inorderHelper, inorderHelper_eq l, inorderHelper_eq r, inorder]
      simp only [List.append_assoc, List.singleton_append]

theorem inorderTraversal_eq (t : Tree K V) : t.inorderTraversal = t.inorder :=
  (inorderHelper_eq t []).trans (List.nil_append _)

/-! ### Rotations keep it -/

theorem rightRotate_inorder : ∀ {t t' : Tree K V}, t.rightRotate = some t' →
    t'.inorder = t.inorder
  | node _ _ _ (node _ _ _ _ _) _, _, h => by
      cases h
      simp [inorder]

theorem leftRotate_inorder : ∀ {t t' : Tree K V}, t.leftRotate = some t' →
    t'.inorder = t.inorder
  | node _ _ _ _ (node _ _ _ _ _), _, h => by
      cases h
      simp [inorder]

/-- A double rotation first replaces one child by one with the same list. -/
theorem doubleRight_inorder {k : K} {v : V} {h : Int} {l r t' : Tree K V}
    (hrot : (l.leftRotate.bind fun l' => (node k v h l' r).rightRotate) = some t') :
    t'.inorder = l.inorder ++ (k, v) :: r.inorder := by
  obtain ⟨l', hl, hr⟩ := Option.bind_eq_some_iff.mp hrot
  rw [rightRotate_inorder hr, inorder, leftRotate_inorder hl]

theorem doubleLeft_inorder {k : K} {v : V} {h : Int} {l r t' : Tree K V}
    (hrot : (r.rightRotate.bind fun r' => (node k v h l r').leftRotate) = some t') :
    t'.inorder = l.inorder ++ (k, v) :: r.inorder := by
  obtain ⟨r', hr, hl⟩ := Option.bind_eq_some_iff.mp hrot
  rw [leftRotate_inorder hl, inorder, rightRotate_inorder hr]

/-- `get_min` of a non-empty tree is its first pair. -/
theorem getMin_inorder : ∀ {t : Tree K V}, t ≠ null →
    ∃ k v h r, t.getMin = node k v h null r ∧ ∃ rest, t.inorder = (k, v) :: rest
  | null, hne => absurd rfl hne
  | node k v h null r, _ => ⟨k, v, h, r, rfl, r.inorder, rfl⟩
  | node k' v' _ (node k v h l r) r', _ => by
      obtain ⟨mk, mv, mh, mr, hmin, rest, hin⟩ :=
        getMin_inorder (t := node k v h l r) nofun
      refine ⟨mk, mv, mh, mr, hmin, rest ++ (k', v') :: r'.inorder, ?_⟩
      rw [inorder, hin, List.cons_append]

theorem fixErase_inorder : ∀ {t t' : Tree K V}, fixErase t = some t' →
    t'.inorder = t.inorder
  | null, _, h => by cases h; rfl
  | node k v _ l r, t', h => by
      show t'.inorder = (mkNode k v l r).inorder
      simp only [fixErase] at h
      split at h
      · exact rightRotate_inorder h
      · split at h
        · exact doubleRight_inorder h
        · split at h
          · exact leftRotate_inorder h
          · split at h
            · exact doubleLeft_inorder h
            · cases h; rfl

section Ops
variable [LinearOrder K]

theorem fixInsert_inorder {key k : K} {v : V} {l r t' : Tree K V}
    (h : fixInsert key k v l r = some t') :
    t'.inorder = l.inorder ++ (k, v) :: r.inorder := by
  obtain ⟨ll, _, h⟩ := Option.bind_eq_some_iff.mp h
  cases ll with
  | true => exact rightRotate_inorder h
  | false =>
      obtain ⟨rr, _, h⟩ := Option.bind_eq_some_iff.mp h
      cases rr with
      | true => exact leftRotate_inorder h
      | false =>
          obtain ⟨lr, _, h⟩ := Option.bind_eq_some_iff.mp h
          cases lr with
          | true => exact doubleRight_inorder h
          | false =>
              obtain ⟨rl, _, h⟩ := Option.bind_eq_some_iff.mp h
              cases rl with
              | true => exact doubleLeft_inorder h
              | false => cases h; rfl

/-! ### `insert`, `erase` and `find` on it -/

theorem insert_inorder {key : K} {value : V} : ∀ {t t' : Tree K V}, Sorted t.inorder →
    t.insert key value = some t' → t'.inorder = put key value t.inorder := by
  intro t
  induction t with
  | null => intro t' _ h; cases h; rfl
  | node k v ht l r ihl ihr =>
      intro t' hs h
      obtain ⟨hsl, hsr, hl, hr⟩ := sorted_mid.mp hs
      simp only [insert] at h
      split at h
      case isTrue hlt =>
        obtain ⟨l', hl', h⟩ := Option.bind_eq_some_iff.mp h
        rw [fixInsert_inorder h, ihl hsl hl', inorder, put_mid_lt hlt hr]
      case isFalse hnlt =>
        split at h
        case isTrue hgt =>
          obtain ⟨r', hr', h⟩ := Option.bind_eq_some_iff.mp h
          rw [fixInsert_inorder h, ihr hsr hr', inorder, put_mid_gt hgt hl]
        case isFalse hngt =>
          have hkey : key = k := le_antisymm (not_lt.mp hngt) (not_lt.mp hnlt)
          cases h
          subst hkey
          exact (put_mid_eq hl hr).symm

theorem erase_inorder : ∀ {t t' : Tree K V} {key : K}, Sorted t.inorder →
    t.erase key = some t' → t'.inorder = del key t.inorder := by
  intro t
  induction t with
  | null => intro t' key _ h; cases h; rfl
  | node k v ht l r ihl ihr =>
      intro t' key hs h
      obtain ⟨hsl, hsr, hl, hr⟩ := sorted_mid.mp hs
      unfold erase at h
      split at h
      case isTrue hlt =>
        obtain ⟨l', hl', h⟩ := Option.bind_eq_some_iff.mp h
        rw [fixErase_inorder h, inorder, ihl hsl hl', inorder, del_mid_lt hlt hr]
      case isFalse hnlt =>
        split at h
        case isTrue hgt =>
          obtain ⟨r', hr', h⟩ := Option.bind_eq_some_iff.mp h
          rw [fixErase_inorder h, inorder, ihr hsr hr', inorder, del_mid_gt hgt hl]
        case isFalse hngt =>
          have hkey : key = k := le_antisymm (not_lt.mp hngt) (not_lt.mp hnlt)
          subst hkey
          rw [inorder, del_mid_eq hl hr]
          match l, r, h with
          | null, null, h => cases h; rfl
          | null, node _ _ _ _ _, h => exact fixErase_inorder h
          | node _ _ _ _ _, null, h => rw [fixErase_inorder h, inorder, List.append_nil]
          | node lk lv lh ll lr, node rk rv rh rl rr, h =>
              obtain ⟨sk, sv, sh, sr, hmin, rest, hrest⟩ :=
                getMin_inorder (t := node rk rv rh rl rr) nofun
              simp only [hmin] at h
              obtain ⟨r', hr', h⟩ := Option.bind_eq_some_iff.mp h
              -- the successor is the first pair on the right; taking it out and
              -- putting it in the erased node's place leaves the list as it was
              have hfirst : ∀ p ∈ rest, sk < p.1 := by
                rw [hrest] at hsr
                exact (List.pairwise_cons.mp hsr).1
              rw [fixErase_inorder h, inorder, ihr hsr hr', hrest]
              rw [show (sk, sv) :: rest = [] ++ (sk, sv) :: rest from rfl,
                del_mid_eq (x := (sk, sv)) (fun _ hp => absurd hp List.not_mem_nil) hfirst]
              rfl

theorem find_eq_some {key : K} {value : V} : ∀ {t : Tree K V}, Sorted t.inorder →
    (t.find key = some value ↔ (key, value) ∈ t.inorder) := by
  intro t
  induction t with
  | null => intro _; simp [find, inorder]
  | node k v ht l r ihl ihr =>
      intro hs
      obtain ⟨hsl, hsr, hl, hr⟩ := sorted_mid.mp hs
      -- the search goes where the key can only be
      have hleft : (key, value) ∈ l.inorder → key < k := hl (key, value)
      have hright : (key, value) ∈ r.inorder → k < key := hr (key, value)
      simp only [find, inorder, List.mem_append, List.mem_cons, Prod.mk.injEq]
      rcases lt_trichotomy key k with hlt | rfl | hgt
      · rw [if_neg (ne_of_lt hlt), if_pos hlt, ihl hsl]
        constructor
        · exact .inl
        · rintro (h | ⟨h, _⟩ | h)
          · exact h
          · exact absurd h (ne_of_lt hlt)
          · exact absurd (hright h) (not_lt_of_gt hlt)
      · rw [if_pos rfl, Option.some.injEq]
        constructor
        · exact fun h => .inr (.inl ⟨rfl, h.symm⟩)
        · rintro (h | ⟨_, h⟩ | h)
          · exact absurd (hleft h) (lt_irrefl key)
          · exact h.symm
          · exact absurd (hright h) (lt_irrefl key)
      · rw [if_neg (ne_of_gt hgt), if_neg (not_lt_of_gt hgt), ihr hsr]
        constructor
        · exact fun h => .inr (.inr h)
        · rintro (h | ⟨h, _⟩ | h)
          · exact absurd (hleft h) (not_lt_of_gt hgt)
          · exact absurd h (ne_of_gt hgt)
          · exact h

theorem find_eq {m : K → Option V} {t : Tree K V} (hs : Sorted t.inorder)
    (hm : Holds t.inorder m) (key : K) : t.find key = m key :=
  Option.ext fun value => (find_eq_some hs).trans (hm key value)

end Ops

end Tree

/-! ## The finite map -/

variable {K V : Type} [LinearOrder K]

/-- The in-order list is ordered and holds `m`. -/
def Represents (t : Tree K V) (m : K → Option V) : Prop :=
  Sorted t.inorder ∧ Holds t.inorder m

theorem null_represents : Represents (.null : Tree K V) (fun _ => none) :=
  ⟨sorted_nil, holds_nil⟩

theorem step_represents (t : Tree K V) (m : K → Option V) (op : Op K V) (t' : Tree K V)
    (h : Represents t m) (hstep : step t op = some t') : Represents t' (specStep m op) := by
  cases op with
  | put key value =>
      have hin := Tree.insert_inorder h.1 hstep
      rw [Represents, hin]
      exact ⟨sorted_put h.1, h.2.put key value⟩
  | remove key =>
      have hin := Tree.erase_inorder h.1 hstep
      rw [Represents, hin]
      exact ⟨sorted_del h.1, h.2.del key⟩

theorem run_represents (ops : List (Op K V)) {t t' : Tree K V} {m : K → Option V}
    (h : Represents t m) (hrun : run step t ops = some t') : Represents t' (specRun m ops) :=
  run_follows step_represents ops h hrun

/-- **The AVL map is a finite map**, balanced or not: along every run whose
calls all return, the traversal is in strictly increasing key order and is the
graph of the map the calls denote, and `get` reads that map. -/
theorem avl_is_finite_map {ops : List (Op K V)} {t : Tree K V} (hrun : run step .null ops = some t) :
    Sorted t.inorderTraversal ∧ Holds t.inorderTraversal (specRun (fun _ => none) ops) ∧
      ∀ key, get t key = specRun (fun _ => none) ops key := by
  have h := run_represents ops null_represents hrun
  rw [Tree.inorderTraversal_eq]
  exact ⟨h.1, h.2, Tree.find_eq h.1 h.2⟩

/-- The calls of `main`: three insertions that rotate twice, then a removal. -/
theorem avl_is_finite_map_main :
    ∃ t, run step .null [.put 150 "apple", .put 200 "peach", .put 160 "banana", .remove 150] =
        some t ∧ get t 160 = some "banana" ∧ get t 150 = none := by
  refine ⟨_, rfl, ?_⟩
  have h := (@avl_is_finite_map Nat String _
    [.put 150 "apple", .put 200 "peach", .put 160 "banana", .remove 150] _ rfl).2.2
  exact ⟨(h 160).trans (by decide), (h 150).trans (by decide)⟩

end CKernel.AvlMap
