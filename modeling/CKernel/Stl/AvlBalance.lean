/-
# `CKernel.Stl.AvlBalance` — when the AVL map can follow a null pointer

`fixInsert` chooses its rotation by keys, so it is only safe on a tree whose
nodes were balanced before the insertion.  `fixErase` is there to restore the
balance after a removal, and does so in every case but one: a right child that
is evenly balanced is rotated twice where its mirror image on the left is
rotated once.  If its left child is heavier on the left, the node that goes
down ends two deeper on its right.

    AVL tree ⟹ `insert` returns an AVL tree                       (`insert_avl`)
    AVL tree ⟹ `erase` returns, exact heights, and balanced
               unless `misrotates` says so, from the tree alone     (`erase_erased`)
    no removal misrotates ⟹ no null pointer is followed, ever      (`run_returns_of_spared`)
    sixteen calls after which a null pointer is followed            (`run_crashOps`)
    AVL search tree ⟹ `insert` keeps it one and adds the key        (`insert_keeps_avl`)
    AVL tree: `erase` keeps it one ⟺ it does not misrotate         (`erase_keeps_avl_iff`)
-/
import CKernel.Stl.AvlMap

namespace CKernel.AvlMap.Tree

variable {K V : Type}

/-! ## Stored heights and balance -/

/-- Every stored `_height` is one more than the larger of the children's. -/
def HeightOk : Tree K V → Prop
  | null => True
  | node _ _ h l r => h = 1 + max l.getHeight r.getHeight ∧ l.HeightOk ∧ r.HeightOk

/-- At every node the two heights differ by at most one. -/
def Balanced : Tree K V → Prop
  | null => True
  | node _ _ _ l r =>
      (-1 ≤ l.getHeight - r.getHeight ∧ l.getHeight - r.getHeight ≤ 1) ∧
        l.Balanced ∧ r.Balanced

/-- The AVL invariant: exact stored heights, balanced everywhere. -/
def Avl (t : Tree K V) : Prop := t.HeightOk ∧ t.Balanced

@[simp] theorem getHeight_null : (null : Tree K V).getHeight = 0 := rfl

@[simp] theorem getHeight_node (k : K) (v : V) (h : Int) (l r : Tree K V) :
    (node k v h l r).getHeight = h := rfl

@[simp] theorem getHeight_mkNode (k : K) (v : V) (l r : Tree K V) :
    (mkNode k v l r).getHeight = 1 + max l.getHeight r.getHeight := rfl

@[simp] theorem getBalance_node (k : K) (v : V) (h : Int) (l r : Tree K V) :
    (node k v h l r).getBalance = l.getHeight - r.getHeight := rfl

@[simp] theorem getBalance_mkNode (k : K) (v : V) (l r : Tree K V) :
    (mkNode k v l r).getBalance = l.getHeight - r.getHeight := rfl

theorem HeightOk.nonneg : ∀ {t : Tree K V}, t.HeightOk → 0 ≤ t.getHeight
  | null, _ => Int.le_refl 0
  | node _ _ _ l r, ⟨h, hl, hr⟩ => by
      have := hl.nonneg
      have := hr.nonneg
      rw [getHeight_node]
      omega

theorem exists_node_of_height : ∀ {t : Tree K V}, 0 < t.getHeight →
    ∃ k v h l r, t = node k v h l r
  | null, h => absurd h (Int.lt_irrefl 0)
  | node k v h l r, _ => ⟨k, v, h, l, r, rfl⟩

theorem avl_null : Avl (null : Tree K V) := ⟨trivial, trivial⟩

theorem avl_node {k : K} {v : V} {h : Int} {l r : Tree K V} :
    Avl (node k v h l r) ↔ Avl l ∧ Avl r ∧ h = 1 + max l.getHeight r.getHeight ∧
      -1 ≤ l.getHeight - r.getHeight ∧ l.getHeight - r.getHeight ≤ 1 := by
  constructor
  · rintro ⟨⟨hh, hlh, hrh⟩, hb, hlb, hrb⟩
    exact ⟨⟨hlh, hlb⟩, ⟨hrh, hrb⟩, hh, hb⟩
  · rintro ⟨⟨hlh, hlb⟩, ⟨hrh, hrb⟩, hh, hb⟩
    exact ⟨⟨hh, hlh, hrh⟩, hb, hlb, hrb⟩

theorem avl_mkNode {k : K} {v : V} {l r : Tree K V} (hl : Avl l) (hr : Avl r)
    (hlow : -1 ≤ l.getHeight - r.getHeight) (hhigh : l.getHeight - r.getHeight ≤ 1) :
    Avl (mkNode k v l r) :=
  avl_node.mpr ⟨hl, hr, rfl, hlow, hhigh⟩

theorem Avl.nonneg {t : Tree K V} (h : Avl t) : 0 ≤ t.getHeight := h.1.nonneg

/-! ## What rotations make -/

section Rotated
variable {k k' k'' : K} {v v' v'' : V} {a b c d : Tree K V} {n : Int}

/-- After one rotation to the right. -/
theorem avl_rightRotated (ha : Avl a) (hb : Avl b) (hc : Avl c) (han : a.getHeight = n + 1)
    (hnb : n ≤ b.getHeight) (hbn : b.getHeight ≤ n + 1) (hcn : c.getHeight = n) :
    Avl (mkNode k v a (mkNode k' v' b c)) ∧
      (mkNode k v a (mkNode k' v' b c)).getHeight = b.getHeight + 2 := by
  have hinner : (mkNode k' v' b c).getHeight = b.getHeight + 1 := by
    rw [getHeight_mkNode]
    omega
  have hbc : Avl (mkNode k' v' b c) := avl_mkNode hb hc (by omega) (by omega)
  refine ⟨avl_mkNode ha hbc (by omega) (by omega), ?_⟩
  rw [getHeight_mkNode, hinner]
  omega

/-- After one rotation to the left. -/
theorem avl_leftRotated (ha : Avl a) (hb : Avl b) (hc : Avl c) (han : a.getHeight = n)
    (hnb : n ≤ b.getHeight) (hbn : b.getHeight ≤ n + 1) (hcn : c.getHeight = n + 1) :
    Avl (mkNode k v (mkNode k' v' a b) c) ∧
      (mkNode k v (mkNode k' v' a b) c).getHeight = b.getHeight + 2 := by
  have hinner : (mkNode k' v' a b).getHeight = b.getHeight + 1 := by
    rw [getHeight_mkNode]
    omega
  have hab : Avl (mkNode k' v' a b) := avl_mkNode ha hb (by omega) (by omega)
  refine ⟨avl_mkNode hab hc (by omega) (by omega), ?_⟩
  rw [getHeight_mkNode, hinner]
  omega

/-- After two rotations, in either order. -/
theorem avl_twiceRotated (ha : Avl a) (hb : Avl b) (hc : Avl c) (hd : Avl d)
    (han : a.getHeight = n) (hnb : n - 1 ≤ b.getHeight) (hbn : b.getHeight ≤ n)
    (hnc : n - 1 ≤ c.getHeight) (hcn : c.getHeight ≤ n) (hdn : d.getHeight = n) :
    Avl (mkNode k v (mkNode k' v' a b) (mkNode k'' v'' c d)) ∧
      (mkNode k v (mkNode k' v' a b) (mkNode k'' v'' c d)).getHeight = n + 2 := by
  have hleft : (mkNode k' v' a b).getHeight = n + 1 := by
    rw [getHeight_mkNode]
    omega
  have hright : (mkNode k'' v'' c d).getHeight = n + 1 := by
    rw [getHeight_mkNode]
    omega
  have hab : Avl (mkNode k' v' a b) := avl_mkNode ha hb (by omega) (by omega)
  have hcd : Avl (mkNode k'' v'' c d) := avl_mkNode hc hd (by omega) (by omega)
  refine ⟨avl_mkNode hab hcd (by omega) (by omega), ?_⟩
  rw [getHeight_mkNode, hleft, hright]
  omega

end Rotated

/-! ## Insertion keeps the invariant -/

section Insert
variable [LinearOrder K]

/-- The side of a subtree that has just grown by the insertion of `key`. -/
def Leans (key : K) : Tree K V → Prop
  | null => False
  | node k _ _ l r =>
      (key < k → l.getHeight = r.getHeight + 1) ∧ (k < key → r.getHeight = l.getHeight + 1) ∧
        (key = k → l.getHeight = 0 ∧ r.getHeight = 0)

section FixInsert
variable {key k lk rk : K} {v : V} {l r : Tree K V}

theorem fixInsert_even (hlow : -1 ≤ l.getHeight - r.getHeight)
    (hhigh : l.getHeight - r.getHeight ≤ 1) :
    fixInsert key k v l r = some (mkNode k v l r) := by
  have h1 : ¬ (mkNode k v l r).getBalance > 1 := Int.not_lt.mpr hhigh
  have h2 : ¬ (mkNode k v l r).getBalance < -1 := Int.not_lt.mpr hlow
  simp only [fixInsert, andTest, if_neg h1, if_neg h2, Option.bind_eq_bind, Option.bind_some,
    Bool.false_eq_true, if_false]

theorem fixInsert_ll (hbal : l.getHeight - r.getHeight > 1) (hlk : l.key? = some lk)
    (hkey : key < lk) : fixInsert key k v l r = (mkNode k v l r).rightRotate := by
  have h1 : (mkNode k v l r).getBalance > 1 := hbal
  simp only [fixInsert, andTest, if_pos h1, hlk, Option.map_some, Option.bind_eq_bind,
    Option.bind_some, hkey, decide_true, if_true]

theorem fixInsert_lr (hbal : l.getHeight - r.getHeight > 1) (hlk : l.key? = some lk)
    (hkey : lk < key) : fixInsert key k v l r = l.leftRotate.bind fun l' =>
      (node k v (mkNode k v l r).getHeight l' r).rightRotate := by
  have h1 : (mkNode k v l r).getBalance > 1 := hbal
  have h2 : ¬ (mkNode k v l r).getBalance < -1 := by
    rw [getBalance_mkNode]
    omega
  simp only [fixInsert, andTest, if_pos h1, if_neg h2, hlk, Option.map_some, Option.bind_eq_bind,
    Option.bind_some, hkey, not_lt_of_gt hkey, decide_true, decide_false, if_true,
    Bool.false_eq_true, if_false]

theorem fixInsert_rr (hbal : l.getHeight - r.getHeight < -1) (hrk : r.key? = some rk)
    (hkey : rk < key) : fixInsert key k v l r = (mkNode k v l r).leftRotate := by
  have h1 : ¬ (mkNode k v l r).getBalance > 1 := by
    rw [getBalance_mkNode]
    omega
  have h2 : (mkNode k v l r).getBalance < -1 := hbal
  simp only [fixInsert, andTest, if_neg h1, if_pos h2, hrk, Option.map_some, Option.bind_eq_bind,
    Option.bind_some, hkey, decide_true, Bool.false_eq_true, if_false, if_true]

theorem fixInsert_rl (hbal : l.getHeight - r.getHeight < -1) (hrk : r.key? = some rk)
    (hkey : key < rk) : fixInsert key k v l r = r.rightRotate.bind fun r' =>
      (node k v (mkNode k v l r).getHeight l r').leftRotate := by
  have h1 : ¬ (mkNode k v l r).getBalance > 1 := by
    rw [getBalance_mkNode]
    omega
  have h2 : (mkNode k v l r).getBalance < -1 := hbal
  simp only [fixInsert, andTest, if_neg h1, if_pos h2, hrk, Option.map_some, Option.bind_eq_bind,
    Option.bind_some, hkey, not_lt_of_gt hkey, decide_true, decide_false, Bool.false_eq_true,
    if_false, if_true]

end FixInsert

/-- Left child two higher: one rotation if the key went to the outside of it,
two if it went to the inside. -/
theorem fixInsert_left {key k : K} {v : V} {l r : Tree K V} (hl : Avl l) (hr : Avl r)
    (hbal : l.getHeight - r.getHeight = 2) (hlean : Leans key l) :
    ∃ t', fixInsert key k v l r = some t' ∧ Avl t' ∧ t'.getHeight = l.getHeight := by
  have hr0 := hr.nonneg
  obtain ⟨lk, lv, lh, ll, lr, rfl⟩ := exists_node_of_height (t := l) (by omega)
  obtain ⟨hll, hlr, hlh, hlow, hhigh⟩ := avl_node.mp hl
  obtain ⟨hlt, hgt, heq⟩ := hlean
  have hll0 := hll.nonneg
  have htall : (node lk lv lh ll lr).getHeight - r.getHeight > 1 := by omega
  rw [getHeight_node] at hbal
  rcases lt_trichotomy key lk with hkey | hkey | hkey
  · have hside := hlt hkey
    obtain ⟨havl, hheight⟩ := avl_rightRotated (k := lk) (v := lv) (n := r.getHeight) hll hlr hr
      (by omega) (by omega) (by omega) rfl
    refine ⟨mkNode lk lv ll (mkNode k v lr r), fixInsert_ll htall rfl hkey, havl, ?_⟩
    rw [hheight, getHeight_node]
    omega
  · have heven := heq hkey
    omega
  · have hside := hgt hkey
    obtain ⟨xk, xv, xh, xl, xr, rfl⟩ := exists_node_of_height (t := lr) (by omega)
    obtain ⟨hxl, hxr, hxh, hxlow, hxhigh⟩ := avl_node.mp hlr
    rw [getHeight_node] at hside hlh
    obtain ⟨havl, hheight⟩ := avl_twiceRotated (k := xk) (v := xv) (n := r.getHeight) hll hxl hxr hr
      (by omega) (by omega) (by omega) (by omega) (by omega) rfl
    refine ⟨mkNode xk xv (mkNode lk lv ll xl) (mkNode k v xr r), fixInsert_lr htall rfl hkey,
      havl, ?_⟩
    rw [hheight, getHeight_node]
    omega

theorem fixInsert_right {key k : K} {v : V} {l r : Tree K V} (hl : Avl l) (hr : Avl r)
    (hbal : l.getHeight - r.getHeight = -2) (hlean : Leans key r) :
    ∃ t', fixInsert key k v l r = some t' ∧ Avl t' ∧ t'.getHeight = r.getHeight := by
  have hl0 := hl.nonneg
  obtain ⟨rk, rv, rh, rl, rr, rfl⟩ := exists_node_of_height (t := r) (by omega)
  obtain ⟨hrl, hrr, hrh, hlow, hhigh⟩ := avl_node.mp hr
  obtain ⟨hlt, hgt, heq⟩ := hlean
  have hrr0 := hrr.nonneg
  have htall : l.getHeight - (node rk rv rh rl rr).getHeight < -1 := by omega
  rw [getHeight_node] at hbal
  rcases lt_trichotomy key rk with hkey | hkey | hkey
  · have hside := hlt hkey
    obtain ⟨xk, xv, xh, xl, xr, rfl⟩ := exists_node_of_height (t := rl) (by omega)
    obtain ⟨hxl, hxr, hxh, hxlow, hxhigh⟩ := avl_node.mp hrl
    rw [getHeight_node] at hside hrh
    obtain ⟨havl, hheight⟩ := avl_twiceRotated (k := xk) (v := xv) (n := l.getHeight) hl hxl hxr hrr
      rfl (by omega) (by omega) (by omega) (by omega) (by omega)
    refine ⟨mkNode xk xv (mkNode k v l xl) (mkNode rk rv xr rr), fixInsert_rl htall rfl hkey,
      havl, ?_⟩
    rw [hheight, getHeight_node]
    omega
  · have heven := heq hkey
    omega
  · have hside := hgt hkey
    obtain ⟨havl, hheight⟩ := avl_leftRotated (k := rk) (v := rv) (n := l.getHeight) hl hrl hrr rfl
      (by omega) (by omega) (by omega)
    refine ⟨mkNode rk rv (mkNode k v l rl) rr, fixInsert_rr htall rfl hkey, havl, ?_⟩
    rw [hheight, getHeight_node]
    omega

/-- On an AVL tree `insert` returns an AVL tree, at most one higher, and then
higher on the side of the key. -/
theorem insert_avl (key : K) (value : V) : ∀ {t : Tree K V}, Avl t →
    ∃ t', t.insert key value = some t' ∧ Avl t' ∧
      (t'.getHeight = t.getHeight ∨ (t'.getHeight = t.getHeight + 1 ∧ Leans key t')) := by
  intro t
  induction t with
  | null =>
      intro _
      refine ⟨_, rfl, avl_mkNode avl_null avl_null (by simp) (by simp), .inr ⟨rfl, ?_⟩⟩
      exact ⟨fun h => absurd h (lt_irrefl key), fun h => absurd h (lt_irrefl key),
        fun _ => ⟨rfl, rfl⟩⟩
  | node k v h l r ihl ihr =>
      intro ht
      obtain ⟨hl, hr, hh, hlow, hhigh⟩ := avl_node.mp ht
      rw [getHeight_node]
      rcases lt_trichotomy key k with hkey | hkey | hkey
      · obtain ⟨l', hins, hl', hgrow⟩ := ihl hl
        have heq : (node k v h l r).insert key value = fixInsert key k v l' r := by
          simp [insert, hkey, hins]
        rw [heq]
        by_cases hbal : l'.getHeight - r.getHeight ≤ 1
        · refine ⟨_, fixInsert_even (by omega) hbal, avl_mkNode hl' hr (by omega) hbal, ?_⟩
          rw [getHeight_mkNode]
          by_cases hsame : l'.getHeight = r.getHeight + 1 ∧ l.getHeight = r.getHeight
          · refine .inr ⟨by omega, fun _ => hsame.1, fun h => absurd h (not_lt_of_gt hkey),
              fun h => absurd h (ne_of_lt hkey)⟩
          · omega
        · obtain ⟨t', hfix, ht', hh'⟩ :=
            fixInsert_left hl' hr (by omega) (hgrow.resolve_left (by omega)).2
          exact ⟨t', hfix, ht', .inl (by omega)⟩
      · subst hkey
        exact ⟨node key value h l r, by simp [insert],
          avl_node.mpr ⟨hl, hr, hh, hlow, hhigh⟩, .inl rfl⟩
      · obtain ⟨r', hins, hr', hgrow⟩ := ihr hr
        have heq : (node k v h l r).insert key value = fixInsert key k v l r' := by
          simp [insert, hkey, not_lt_of_gt hkey, hins]
        rw [heq]
        by_cases hbal : -1 ≤ l.getHeight - r'.getHeight
        · refine ⟨_, fixInsert_even hbal (by omega), avl_mkNode hl hr' hbal (by omega), ?_⟩
          rw [getHeight_mkNode]
          by_cases hsame : r'.getHeight = l.getHeight + 1 ∧ l.getHeight = r.getHeight
          · refine .inr ⟨by omega, fun h => absurd h (not_lt_of_gt hkey), fun _ => hsame.1,
              fun h => absurd h (ne_of_gt hkey)⟩
          · omega
        · obtain ⟨t', hfix, ht', hh'⟩ :=
            fixInsert_right hl hr' (by omega) (hgrow.resolve_left (by omega)).2
          exact ⟨t', hfix, ht', .inl (by omega)⟩

end Insert

/-! ## Removal: where the tree gets lower, and where the balance is lost

`shrinks t key` says, from `t` alone, that `erase` will return a tree one lower;
`misrotates t key` says that on the way it meets the one case `fixErase` gets
wrong: the left side has become two lower, the right child is evenly balanced
and is nevertheless rotated twice, and the grandchild that comes up is heavier
on its left, so the node that goes down is left without a counterweight. -/

/-- `t->_left`, null for null. -/
def left : Tree K V → Tree K V
  | null => null
  | node _ _ _ l _ => l

/-- A node with children `l` and `r` gets lower when `l` does. -/
def lowerByLeft (l r : Tree K V) : Bool :=
  l.getHeight - r.getHeight == 1 ||
    (l.getHeight - r.getHeight == -1 && r.getBalance != 0)

def lowerByRight (l r : Tree K V) : Bool :=
  l.getHeight - r.getHeight == -1 ||
    (l.getHeight - r.getHeight == 1 && l.getBalance != 0)

/-- The wrong double rotation happens at a node with children `l` and `r` when
`l` gets lower. -/
def losesBalance (l r : Tree K V) : Bool :=
  l.getHeight - r.getHeight == -1 && r.getBalance == 0 && r.left.getBalance == 1

section Erase
variable [LinearOrder K]

def shrinks : Tree K V → K → Bool
  | null, _ => false
  | node k _ _ l r, key =>
      if key < k then l.shrinks key && lowerByLeft l r
      else if key > k then r.shrinks key && lowerByRight l r
      else
        match l, r.getMin with
        | null, _ => true
        | _, null => true
        | l, node sk _ _ _ _ => r.shrinks sk && lowerByRight l r

def misrotates : Tree K V → K → Bool
  | null, _ => false
  | node k _ _ l r, key =>
      if key < k then l.misrotates key || (l.shrinks key && losesBalance l r)
      else if key > k then r.misrotates key
      else
        match l, r.getMin with
        | null, _ => false
        | _, null => false
        | _, node sk _ _ _ _ => r.misrotates sk

end Erase

/-! ### The five ways out of `fixErase` -/

section FixErase
variable {k : K} {v : V} {h : Int} {l r : Tree K V}

theorem fixErase_even (hlow : -1 ≤ l.getHeight - r.getHeight)
    (hhigh : l.getHeight - r.getHeight ≤ 1) :
    fixErase (node k v h l r) = some (mkNode k v l r) := by
  have h1 : ¬ (mkNode k v l r).getBalance > 1 := Int.not_lt.mpr hhigh
  have h2 : ¬ (mkNode k v l r).getBalance < -1 := Int.not_lt.mpr hlow
  rw [fixErase, if_neg (fun hc => h1 hc.1), if_neg (fun hc => h1 hc.1),
    if_neg (fun hc => h2 hc.1), if_neg (fun hc => h2 hc.1)]

theorem fixErase_ll (hbal : l.getHeight - r.getHeight > 1) (hl : l.getBalance ≥ 0) :
    fixErase (node k v h l r) = (mkNode k v l r).rightRotate := by
  rw [fixErase, if_pos ⟨hbal, hl⟩]

theorem fixErase_lr (hbal : l.getHeight - r.getHeight > 1) (hl : l.getBalance < 0) :
    fixErase (node k v h l r) = l.leftRotate.bind fun l' =>
      (node k v (mkNode k v l r).getHeight l' r).rightRotate := by
  rw [fixErase, if_neg (fun hc => Int.not_lt.mpr hc.2 hl), if_pos ⟨hbal, hl⟩]
  rfl

theorem fixErase_rr (hbal : l.getHeight - r.getHeight < -1) (hr : r.getBalance < 0) :
    fixErase (node k v h l r) = (mkNode k v l r).leftRotate := by
  have h1 : ¬ (mkNode k v l r).getBalance > 1 := by
    rw [getBalance_mkNode]
    omega
  rw [fixErase, if_neg (fun hc => h1 hc.1), if_neg (fun hc => h1 hc.1), if_pos ⟨hbal, hr⟩]

theorem fixErase_rl (hbal : l.getHeight - r.getHeight < -1) (hr : r.getBalance ≥ 0) :
    fixErase (node k v h l r) = r.rightRotate.bind fun r' =>
      (node k v (mkNode k v l r).getHeight l r').leftRotate := by
  have h1 : ¬ (mkNode k v l r).getBalance > 1 := by
    rw [getBalance_mkNode]
    omega
  rw [fixErase, if_neg (fun hc => h1 hc.1), if_neg (fun hc => h1 hc.1),
    if_neg (fun hc => Int.not_lt.mpr hr hc.2), if_pos ⟨hbal, hr⟩]
  rfl

end FixErase

theorem fixErase_avl : ∀ {t : Tree K V}, Avl t →
    ∃ t', fixErase t = some t' ∧ Avl t' ∧ t'.getHeight = t.getHeight
  | null, h => ⟨null, rfl, h, rfl⟩
  | node k v _ l r, h => by
      obtain ⟨hl, hr, hh, hlow, hhigh⟩ := avl_node.mp h
      exact ⟨_, fixErase_even hlow hhigh, avl_mkNode hl hr hlow hhigh, hh.symm⟩

/-- Left child two higher: `fixErase` restores the balance. -/
theorem fixErase_left {k : K} {v : V} {h : Int} {l r : Tree K V} (hl : Avl l) (hr : Avl r)
    (hbal : l.getHeight - r.getHeight = 2) :
    ∃ t', fixErase (node k v h l r) = some t' ∧ Avl t' ∧
      (l.getBalance = 0 → t'.getHeight = l.getHeight + 1) ∧
      (l.getBalance ≠ 0 → t'.getHeight = l.getHeight) := by
  have hr0 := hr.nonneg
  obtain ⟨lk, lv, lh, ll, lr, rfl⟩ := exists_node_of_height (t := l) (by omega)
  obtain ⟨hll, hlr, hlh, hlow, hhigh⟩ := avl_node.mp hl
  by_cases hside : (node lk lv lh ll lr).getBalance ≥ 0
  · rw [fixErase_ll (by omega) hside]
    simp only [getHeight_node, getBalance_node] at hbal hside ⊢
    obtain ⟨havl, hheight⟩ := avl_rightRotated (k := lk) (v := lv) (n := r.getHeight) hll hlr hr
      (by omega) (by omega) (by omega) rfl
    refine ⟨mkNode lk lv ll (mkNode k v lr r), rfl, havl, ?_⟩
    rw [hheight]
    omega
  · rw [fixErase_lr (by omega) (Int.not_le.mp hside)]
    have hll0 := hll.nonneg
    simp only [getHeight_node, getBalance_node] at hbal hside ⊢
    obtain ⟨xk, xv, xh, xl, xr, rfl⟩ := exists_node_of_height (t := lr) (by omega)
    obtain ⟨hxl, hxr, hxh, hxlow, hxhigh⟩ := avl_node.mp hlr
    rw [getHeight_node] at hside hlh hlow ⊢
    obtain ⟨havl, hheight⟩ := avl_twiceRotated (k := xk) (v := xv) (n := r.getHeight) hll hxl hxr hr
      (by omega) (by omega) (by omega) (by omega) (by omega) rfl
    refine ⟨mkNode xk xv (mkNode lk lv ll xl) (mkNode k v xr r), rfl, havl, ?_⟩
    rw [hheight]
    omega

/-- Right child two higher: the balance is restored except where the evenly
balanced right child hands up a left-heavy grandchild. -/
theorem fixErase_right {k : K} {v : V} {h : Int} {l r : Tree K V} (hl : Avl l) (hr : Avl r)
    (hbal : l.getHeight - r.getHeight = -2) :
    ∃ t', fixErase (node k v h l r) = some t' ∧ t'.HeightOk ∧
      (t'.Balanced ↔ ¬ (r.getBalance = 0 ∧ r.left.getBalance = 1)) ∧
      (r.getBalance = 0 → t'.getHeight = r.getHeight + 1) ∧
      (r.getBalance ≠ 0 → t'.getHeight = r.getHeight) := by
  have hl0 := hl.nonneg
  obtain ⟨rk, rv, rh, rl, rr, rfl⟩ := exists_node_of_height (t := r) (by omega)
  obtain ⟨hrl, hrr, hrh, hlow, hhigh⟩ := avl_node.mp hr
  by_cases hside : (node rk rv rh rl rr).getBalance < 0
  · rw [fixErase_rr (by omega) hside]
    simp only [getHeight_node, getBalance_node] at hbal hside ⊢
    obtain ⟨havl, hheight⟩ := avl_leftRotated (k := rk) (v := rv) (n := l.getHeight) hl hrl hrr rfl
      (by omega) (by omega) (by omega)
    refine ⟨mkNode rk rv (mkNode k v l rl) rr, rfl, havl.1, ?_, ?_⟩
    · simp only [havl.2, true_iff]
      omega
    · rw [hheight]
      omega
  · rw [fixErase_rl (by omega) (Int.not_lt.mp hside)]
    have hrr0 := hrr.nonneg
    simp only [getHeight_node, getBalance_node, left] at hbal hside ⊢
    obtain ⟨xk, xv, xh, xl, xr, rfl⟩ := exists_node_of_height (t := rl) (by omega)
    obtain ⟨hxl, hxr, hxh, hxlow, hxhigh⟩ := avl_node.mp hrl
    simp only [getHeight_node, getBalance_node] at hside hrh hhigh ⊢
    refine ⟨mkNode xk xv (mkNode k v l xl) (mkNode rk rv xr rr), rfl, ?_, ?_, ?_⟩
    · exact ⟨rfl, ⟨rfl, hl.1, hxl.1⟩, rfl, hxr.1, hrr.1⟩
    · simp only [mkNode, Balanced, getHeight_node, hl.2, hxl.2, hxr.2, hrr.2, and_true]
      omega
    · simp only [getHeight_mkNode]
      omega

/-! ### One level of `erase` -/

/-- What a removal made of `t`: heights exact, one lower iff `low`, and the
balance lost iff `bad`. -/
structure Erased (t t' : Tree K V) (low bad : Bool) : Prop where
  heightOk : t'.HeightOk
  height : t'.getHeight = t.getHeight - if low then 1 else 0
  balanced : t'.Balanced ↔ bad = false
  tall : bad = true → low = false

theorem Erased.even {k : K} {v : V} {h : Int} {l r l' r' : Tree K V}
    (hok : l'.HeightOk ∧ r'.HeightOk) {low bad : Bool}
    (hlow : -1 ≤ l'.getHeight - r'.getHeight) (hhigh : l'.getHeight - r'.getHeight ≤ 1)
    (hbal : (l'.Balanced ∧ r'.Balanced) ↔ bad = false) (htall : bad = true → low = false)
    (hh : 1 + max l'.getHeight r'.getHeight = (node k v h l r).getHeight - if low then 1 else 0)
    {k' : K} {v' : V} {h' : Int} :
    ∃ t', fixErase (node k' v' h' l' r') = some t' ∧ Erased (node k v h l r) t' low bad := by
  refine ⟨_, fixErase_even hlow hhigh, ⟨rfl, hok⟩, hh, ?_, htall⟩
  rw [← hbal]
  exact and_iff_right ⟨hlow, hhigh⟩

/-- A tree that got lower has kept its balance. -/
theorem Erased.avl_of_low {t t' : Tree K V} {bad : Bool} (h : Erased t t' true bad) :
    bad = false ∧ Avl t' := by
  have hbad : bad = false := by
    cases bad with
    | false => rfl
    | true => exact absurd (h.tall rfl) Bool.noConfusion
  exact ⟨hbad, h.heightOk, h.balanced.mpr hbad⟩

/-- Height after a rotation, by the balance `b` of the child that comes up. -/
theorem height_rotated {b m n : Int} (heven : b = 0 → m = n + 1) (hodd : b ≠ 0 → m = n) :
    m = n + 1 - if (b != 0) = true then 1 else 0 := by
  by_cases hb : b = 0
  · rw [heven hb, hb]
    exact (Int.sub_zero _).symm
  · rw [hodd hb, if_pos (bne_iff_ne.mpr hb), Int.add_sub_cancel]

theorem Erased.inLeft {k : K} {v : V} {h : Int} {l r l' : Tree K V} {low bad : Bool}
    (ht : Avl (node k v h l r)) (hl' : Erased l l' low bad) (h' : Int) :
    ∃ t', fixErase (node k v h' l' r) = some t' ∧
      Erased (node k v h l r) t' (low && lowerByLeft l r) (bad || (low && losesBalance l r)) := by
  obtain ⟨hl, hr, hh, hlow, hhigh⟩ := avl_node.mp ht
  have hheight := hl'.height
  cases low with
  | false =>
      simp only [Bool.false_eq_true, if_false, Bool.false_and, Bool.or_false] at hheight ⊢
      refine Erased.even ⟨hl'.heightOk, hr.1⟩ (by omega) (by omega) ?_ hl'.tall ?_
      · rw [← hl'.balanced]
        exact and_iff_left hr.2
      · simp only [Bool.false_eq_true, if_false, getHeight_node]
        omega
  | true =>
      obtain ⟨rfl, hl'avl⟩ := hl'.avl_of_low
      simp only [if_true, Bool.true_and, Bool.false_or] at hheight ⊢
      obtain hb | hb | hb : l.getHeight - r.getHeight = 1 ∨ l.getHeight - r.getHeight = 0 ∨
          l.getHeight - r.getHeight = -1 := by omega
      · have h1 : lowerByLeft l r = true := by simp [lowerByLeft, hb]
        have h2 : losesBalance l r = false := by simp [losesBalance, hb]
        rw [h1, h2]
        refine Erased.even ⟨hl'avl.1, hr.1⟩ (by omega) (by omega) ?_ (by simp) ?_
        · simp [hl'avl.2, hr.2]
        · simp only [if_true, getHeight_node]
          omega
      · have h1 : lowerByLeft l r = false := by simp [lowerByLeft, hb]
        have h2 : losesBalance l r = false := by simp [losesBalance, hb]
        rw [h1, h2]
        refine Erased.even ⟨hl'avl.1, hr.1⟩ (by omega) (by omega) ?_ (by simp) ?_
        · simp [hl'avl.2, hr.2]
        · simp only [Bool.false_eq_true, if_false, getHeight_node]
          omega
      · obtain ⟨t', hfix, hok, hbal, heven, hodd⟩ :=
          fixErase_right (k := k) (v := v) (h := h') hl'avl hr (by omega)
        have h1 : lowerByLeft l r = (r.getBalance != 0) := by simp [lowerByLeft, hb]
        have h2 : losesBalance l r = (r.getBalance == 0 && r.left.getBalance == 1) := by
          simp [losesBalance, hb]
        rw [h1, h2]
        refine ⟨t', hfix, hok, ?_, ?_, ?_⟩
        · have htall : (node k v h l r).getHeight = r.getHeight + 1 := by
            rw [getHeight_node]
            omega
          rw [htall]
          exact height_rotated heven hodd
        · rw [hbal]
          simp
        · intro hbad
          have hr0 : r.getBalance = 0 := by simpa using (Bool.and_eq_true_iff.mp hbad).1
          simp [hr0]

theorem Erased.inRight {k : K} {v : V} {h : Int} {l r r' : Tree K V} {low bad : Bool}
    (ht : Avl (node k v h l r)) (hr' : Erased r r' low bad) (k' : K) (v' : V) (h' : Int) :
    ∃ t', fixErase (node k' v' h' l r') = some t' ∧
      Erased (node k v h l r) t' (low && lowerByRight l r) bad := by
  obtain ⟨hl, hr, hh, hlow, hhigh⟩ := avl_node.mp ht
  have hheight := hr'.height
  cases low with
  | false =>
      simp only [Bool.false_eq_true, if_false, Bool.false_and] at hheight ⊢
      refine Erased.even ⟨hl.1, hr'.heightOk⟩ (by omega) (by omega) ?_ hr'.tall ?_
      · rw [← hr'.balanced]
        exact and_iff_right hl.2
      · simp only [Bool.false_eq_true, if_false, getHeight_node]
        omega
  | true =>
      obtain ⟨rfl, hr'avl⟩ := hr'.avl_of_low
      simp only [if_true, Bool.true_and] at hheight ⊢
      obtain hb | hb | hb : l.getHeight - r.getHeight = -1 ∨ l.getHeight - r.getHeight = 0 ∨
          l.getHeight - r.getHeight = 1 := by omega
      · have h1 : lowerByRight l r = true := by simp [lowerByRight, hb]
        rw [h1]
        refine Erased.even ⟨hl.1, hr'avl.1⟩ (by omega) (by omega) ?_ (by simp) ?_
        · simp [hl.2, hr'avl.2]
        · simp only [if_true, getHeight_node]
          omega
      · have h1 : lowerByRight l r = false := by simp [lowerByRight, hb]
        rw [h1]
        refine Erased.even ⟨hl.1, hr'avl.1⟩ (by omega) (by omega) ?_ (by simp) ?_
        · simp [hl.2, hr'avl.2]
        · simp only [Bool.false_eq_true, if_false, getHeight_node]
          omega
      · obtain ⟨t', hfix, havl, heven, hodd⟩ :=
          fixErase_left (k := k') (v := v') (h := h') hl hr'avl (by omega)
        have h1 : lowerByRight l r = (l.getBalance != 0) := by simp [lowerByRight, hb]
        rw [h1]
        refine ⟨t', hfix, havl.1, ?_, by simp [havl.2], by simp⟩
        have htall : (node k v h l r).getHeight = l.getHeight + 1 := by
          rw [getHeight_node]
          omega
        rw [htall]
        exact height_rotated heven hodd

/-- A node with at most one child is replaced by that child. -/
theorem Erased.byChild {k : K} {v : V} {h : Int} {l r c : Tree K V} (ht : Avl (node k v h l r))
    (hc : (l = null ∧ c = r) ∨ (r = null ∧ c = l)) :
    ∃ t', fixErase c = some t' ∧ Erased (node k v h l r) t' true false := by
  obtain ⟨hl, hr, hh, _, _⟩ := avl_node.mp ht
  have hl0 := hl.nonneg
  have hr0 := hr.nonneg
  rcases hc with ⟨rfl, rfl⟩ | ⟨rfl, rfl⟩
  · obtain ⟨t', hfix, havl, hheight⟩ := fixErase_avl hr
    refine ⟨t', hfix, havl.1, ?_, by simp [havl.2], by simp⟩
    simp only [getHeight_node, getHeight_null, if_true] at hh ⊢
    omega
  · obtain ⟨t', hfix, havl, hheight⟩ := fixErase_avl hl
    refine ⟨t', hfix, havl.1, ?_, by simp [havl.2], by simp⟩
    simp only [getHeight_node, getHeight_null, if_true] at hh ⊢
    omega

/-! ### All of `erase` -/

section Erase
variable [LinearOrder K]

/-- On an AVL tree `erase` returns, and loses the balance exactly where
`misrotates` says so. -/
theorem erase_erased : ∀ {t : Tree K V} (key : K), Avl t →
    ∃ t', t.erase key = some t' ∧ Erased t t' (t.shrinks key) (t.misrotates key) := by
  intro t
  induction t with
  | null =>
      intro key _
      exact ⟨null, rfl, trivial, rfl, by simp [Balanced, misrotates], fun _ => rfl⟩
  | node k v h l r ihl ihr =>
      intro key ht
      obtain ⟨hl, hr, _, _, _⟩ := avl_node.mp ht
      rcases lt_trichotomy key k with hkey | hkey | hkey
      · obtain ⟨l', herase, hl'⟩ := ihl key hl
        obtain ⟨t', hfix, ht'⟩ := hl'.inLeft ht h
        unfold erase shrinks misrotates
        rw [if_pos hkey, if_pos hkey, if_pos hkey, herase]
        exact ⟨t', hfix, ht'⟩
      · subst hkey
        have hirr : ¬ key < key := lt_irrefl key
        unfold erase shrinks misrotates
        rw [if_neg hirr, if_neg hirr, if_neg hirr, if_neg hirr, if_neg hirr, if_neg hirr]
        cases l with
        | null =>
            cases r with
            | null => exact Erased.byChild ht (.inl ⟨rfl, rfl⟩)
            | node rk rv rh rl rr => exact Erased.byChild ht (.inl ⟨rfl, rfl⟩)
        | node lk lv lh ll lr =>
            cases r with
            | null => exact Erased.byChild ht (.inr ⟨rfl, rfl⟩)
            | node rk rv rh rl rr =>
                obtain ⟨sk, sv, sh, sr, hmin, _⟩ := getMin_inorder (t := node rk rv rh rl rr) (by simp)
                simp only [hmin]
                obtain ⟨r', herase, hr'⟩ := ihr sk hr
                rw [herase]
                exact hr'.inRight ht sk sv h
      · obtain ⟨r', herase, hr'⟩ := ihr key hr
        obtain ⟨t', hfix, ht'⟩ := hr'.inRight ht k v h
        have hnot : ¬ key < k := not_lt_of_gt hkey
        unfold erase shrinks misrotates
        rw [if_neg hnot, if_pos hkey, if_neg hnot, if_pos hkey, if_neg hnot, if_pos hkey, herase]
        exact ⟨t', hfix, ht'⟩

end Erase

end CKernel.AvlMap.Tree

namespace CKernel.AvlMap

open Run

variable {K V : Type} [LinearOrder K]

/-! ## Runs -/

/-- The call does not take the wrong double rotation on `t`. -/
def spares (t : Tree K V) : Op K V → Bool
  | .put _ _ => true
  | .remove key => !t.misrotates key

/-- No call of the run takes the wrong double rotation on the tree it is made on. -/
def spared : Tree K V → List (Op K V) → Bool
  | _, [] => true
  | t, op :: ops =>
      spares t op &&
        match step t op with
        | some t' => spared t' ops
        | none => true

/-- A spared call on an AVL tree returns an AVL tree. -/
theorem step_avl {t : Tree K V} (ht : t.Avl) {op : Op K V} (h : spares t op = true) :
    ∃ t', step t op = some t' ∧ t'.Avl := by
  cases op with
  | put key value =>
      obtain ⟨t', hstep, ht', _⟩ := Tree.insert_avl key value ht
      exact ⟨t', hstep, ht'⟩
  | remove key =>
      obtain ⟨t', hstep, ht'⟩ := Tree.erase_erased key ht
      exact ⟨t', hstep, ht'.heightOk, ht'.balanced.mpr (by simpa [spares] using h)⟩

theorem along_of_spared {t : Tree K V} {ops : List (Op K V)} (h : spared t ops = true) :
    Along step (fun t op => spares t op = true) t ops := by
  induction ops generalizing t with
  | nil => trivial
  | cons op ops ih =>
      obtain ⟨hop, hops⟩ := Bool.and_eq_true_iff.mp h
      refine ⟨hop, ?_⟩
      cases hstep : step t op with
      | none => trivial
      | some t₁ =>
          rw [hstep] at hops
          exact ih hops

theorem run_avl (ops : List (Op K V)) {t : Tree K V} (ht : t.Avl) (h : spared t ops = true) :
    ∃ t', run step t ops = some t' ∧ t'.Avl :=
  run_invariant (fun _ _ ht hop => step_avl ht hop) ops ht (along_of_spared h)

/-- **Crash freedom, where it holds.**  A run none of whose removals takes the
wrong double rotation follows no null pointer. -/
theorem run_returns_of_spared {ops : List (Op K V)} (h : spared .null ops = true) :
    ∃ t, run step .null ops = some t := by
  obtain ⟨t, hrun, _⟩ := run_avl ops Tree.avl_null h
  exact ⟨t, hrun⟩

/-- A removal that unbalances its node, and an insertion that does. -/
theorem run_returns_of_spared_rotating :
    ∃ t, run step .null [.put 3 0, .put 1 0, .put 4 0, .put 5 0, .remove 1, .put 6 (0 : Nat),
      .put (7 : Nat) 0] = some t :=
  run_returns_of_spared (by decide)

/-- Eight insertions, the removal that leaves node 8 two deeper on the right, and
seven more insertions. -/
def crashOps : List (Op Nat Nat) :=
  [.put 10 0, .put 8 0, .put 7 0, .put 5 0, .put 4 0, .put 2 0, .put 6 0, .put 9 0,
   .remove 2, .put 2 0, .put 1 0, .put 3 0, .put 0 0, .put 9 0, .put 3 0, .put 4 0]

/-- The last insertion rotates a node without a right child to the left. -/
theorem run_crashOps : run step .null crashOps = none := by decide

/-! ## One call on an AVL search tree -/

namespace Tree

open AssocList

instance decidableHeightOk : (t : Tree K V) → Decidable t.HeightOk
  | null => isTrue trivial
  | node _ _ _ l r =>
      have := decidableHeightOk l
      have := decidableHeightOk r
      inferInstanceAs (Decidable (_ ∧ _ ∧ _))

instance decidableBalanced : (t : Tree K V) → Decidable t.Balanced
  | null => isTrue trivial
  | node _ _ _ l r =>
      have := decidableBalanced l
      have := decidableBalanced r
      inferInstanceAs (Decidable (_ ∧ _ ∧ _))

instance (t : Tree K V) : Decidable t.Avl := inferInstanceAs (Decidable (_ ∧ _))

/-- The keys of the tree. -/
def keys (t : Tree K V) : Set K := {k | k ∈ t.inorder.map Prod.fst}

theorem keys_of_inorder_put {t t' : Tree K V} {key : K} {value : V}
    (h : t'.inorder = put key value t.inorder) : t'.keys = t.keys ∪ {key} := by
  ext k
  simp only [keys, Set.mem_ofPred_eq, Set.mem_union, Set.mem_singleton_iff, List.mem_map, h, mem_put]
  constructor
  · rintro ⟨p, rfl | ⟨hp, _⟩, rfl⟩
    · exact .inr rfl
    · exact .inl ⟨p, hp, rfl⟩
  · rintro (⟨p, hp, rfl⟩ | rfl)
    · by_cases hk : p.1 = key
      · exact ⟨(key, value), .inl rfl, hk.symm⟩
      · exact ⟨p, .inr ⟨hp, hk⟩, rfl⟩
    · exact ⟨(k, value), .inl rfl, rfl⟩

/-- **Insertion keeps the AVL search tree.**  It follows no null pointer, the
result is again sorted, exact and balanced, and it has one key more at most,
the one inserted. -/
theorem insert_keeps_avl {t : Tree K V} (key : K) (value : V) (hs : Sorted t.inorder)
    (ht : t.Avl) :
    ∃ t', t.insert key value = some t' ∧ Sorted t'.inorder ∧ t'.Avl ∧
      t'.keys = t.keys ∪ {key} := by
  obtain ⟨t', hins, hAvl, _⟩ := insert_avl key value ht
  have hin : t'.inorder = put key value t.inorder := insert_inorder hs hins
  refine ⟨t', hins, ?_, hAvl, keys_of_inorder_put hin⟩
  rw [hin]
  exact sorted_put hs

/-- The insertion of 5 that rotates 4 and 1 to the left. -/
theorem insert_keeps_avl_rotating :
    ∃ t', (mkNode 1 'a' null (mkNode 4 'b' null null)).insert 5 'c' = some t' ∧
      Sorted t'.inorder ∧ t'.Avl ∧
      t'.keys = (mkNode 1 'a' null (mkNode 4 'b' null null)).keys ∪ {5} :=
  insert_keeps_avl 5 'c' (by decide) (by decide)

/-- **Removal, exactly.**  `erase` returns a tree with exact heights, and that
tree is balanced if and only if no wrong double rotation was on the way. -/
theorem erase_keeps_avl_iff {t : Tree K V} (key : K) (ht : t.Avl) :
    ∃ t', t.erase key = some t' ∧ t'.HeightOk ∧ (t'.Avl ↔ t.misrotates key = false) := by
  obtain ⟨t', herase, hok, _, hbal, _⟩ := erase_erased key ht
  exact ⟨t', herase, hok, (and_iff_right hok).trans hbal⟩

theorem isSome_crashTree : (run step .null (crashOps.take 8)).isSome = true := by decide

/-- The tree of the eight insertions `crashOps` begins with. -/
def crashTree : Tree Nat Nat := (run step .null (crashOps.take 8)).get isSome_crashTree

/-- Key 2 of that tree must not be removed, key 9 may. -/
theorem erase_keeps_avl_iff_crashTree :
    (∃ t', crashTree.erase 2 = some t' ∧ t'.HeightOk ∧
      (t'.Avl ↔ crashTree.misrotates 2 = false)) ∧
    crashTree.misrotates 2 = true ∧ crashTree.misrotates 9 = false :=
  ⟨erase_keeps_avl_iff 2 (by decide), by decide, by decide⟩

/-- Removing 2 from it leaves node 8 two deeper on the right. -/
theorem erase_loses_balance :
    ¬ ∀ (t : Tree Nat Nat) (key : Nat), Sorted t.inorder → t.Avl →
      ∃ t', t.erase key = some t' ∧ t'.Avl := by
  intro h
  have ht : crashTree.Avl := by decide
  obtain ⟨t', herase, hAvl⟩ := h crashTree 2 (by decide) ht
  obtain ⟨t₁, herase₁, hmis⟩ := erase_erased 2 ht
  cases herase₁.symm.trans herase
  exact absurd (hmis.balanced.mp hAvl.2) (by decide)

end Tree

end CKernel.AvlMap
