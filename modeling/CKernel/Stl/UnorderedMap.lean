/-
# `CKernel.Stl.UnorderedMap` — the chained hash table of `umap_demo.h`

`sen_std::unordered_map<K, V, Hash>` is a vector of singly linked chains.  A
chain belongs to its bucket alone, so it is the list of its nodes from the
head pointer on, and relinking a node is taking it off one list and putting it
on another.

The load factors are `double`s that only ever decide whether to rehash.  Each
comparison is a Boolean argument of the call that makes it, so that every
outcome is covered; everything else (`_bucket_count * 2` on `size_t`, the floor
of eight buckets, the no-op rehash) is as in the source.  A vector index out
of range or a division by zero is the result `none`.

    an edit of one chain changes the concatenation of all
      chains by a permutation                                    (`set_flatten`)
    for every hash, capacity and outcome of the comparisons the
      table is a finite map along every run                      (`hashTable_is_finite_map`)
-/
import CKernel.Lib.AssocList
import CKernel.Lib.Run
import CKernel.Lib.Word

namespace CKernel.SenStd

open AssocList Run

/-- The object, without the load factor limit and the hash function. -/
structure UnorderedMap (K V : Type) where
  buckets : List (List (K × V))
  bucketCount : Nat
  elemCount : Nat
  deriving DecidableEq, Repr

namespace UnorderedMap

variable {K V : Type}

/-! ## The code -/

/-- `_MIN_BUCKETS` -/
def minBuckets : Nat := 8

/-- `unordered_map(init_capacity)` -/
def make (initCapacity : Nat) : UnorderedMap K V :=
  { buckets := List.replicate initCapacity [], bucketCount := initCapacity, elemCount := 0 }

section Ops
variable [DecidableEq K] (hash : K → Nat)

/-- `_hash_func(key) % count` -/
def bucketIndex (key : K) (count : Nat) : Option Nat :=
  if count = 0 then none else some (hash key % count)

/-- The inner loop of `rehash`: each node of the chain goes to the head of its
new bucket. -/
def relink (newCount : Nat) : List (K × V) → List (List (K × V)) → Option (List (List (K × V)))
  | [], newBuckets => some newBuckets
  | node :: next, newBuckets => do
      let newIdx ← bucketIndex hash node.1 newCount
      let chain ← newBuckets[newIdx]?
      relink newCount next (newBuckets.set newIdx (node :: chain))

/-- The outer loop, with `n` buckets to go from `i`. -/
def rehashLoop (m : UnorderedMap K V) (newCount : Nat) :
    Nat → Nat → List (List (K × V)) → Option (List (List (K × V)))
  | 0, _, newBuckets => some newBuckets
  | n + 1, i, newBuckets => do
      let chain ← m.buckets[i]?
      let newBuckets ← relink hash newCount chain newBuckets
      m.rehashLoop newCount n (i + 1) newBuckets

def rehash (m : UnorderedMap K V) (newCount : Nat) : Option (UnorderedMap K V) :=
  if newCount = 0 ∨ newCount = m.bucketCount then some m
  else do
    let newBuckets ← rehashLoop hash m newCount m.bucketCount 0 (List.replicate newCount [])
    some { m with buckets := newBuckets, bucketCount := newCount }

/-- The search of `insert`: the chain with the value overwritten, if the key is
in it. -/
def overwrite (key : K) (value : V) : List (K × V) → Option (List (K × V))
  | [] => none
  | (k, v) :: next =>
      if k = key then some ((k, value) :: next)
      else (overwrite key value next).map ((k, v) :: ·)

/-- `grow` is the outcome of `load_factor > _max_load_factor`. -/
def insert (m : UnorderedMap K V) (key : K) (value : V) (grow : Bool) :
    Option (UnorderedMap K V) := do
  let idx ← bucketIndex hash key m.bucketCount
  let chain ← m.buckets[idx]?
  match overwrite key value chain with
  | some chain' => some { m with buckets := m.buckets.set idx chain' }
  | none =>
      let m' := { m with buckets := m.buckets.set idx ((key, value) :: chain),
                         elemCount := m.elemCount + 1 }
      if grow then m'.rehash hash (Word.mul 64 m.bucketCount 2) else some m'

/-- The loop of `find` over one chain. -/
def findChain (key : K) : List (K × V) → Option V
  | [] => none
  | (k, v) :: next => if k = key then some v else findChain key next

/-- The inner result is the pointer returned: `none` for `nullptr`. -/
def find (m : UnorderedMap K V) (key : K) : Option (Option V) := do
  let idx ← bucketIndex hash key m.bucketCount
  let chain ← m.buckets[idx]?
  some (findChain key chain)

/-- The search of `erase`: the chain without the node of `key`, if it is there. -/
def unlink (key : K) : List (K × V) → Option (List (K × V))
  | [] => none
  | (k, v) :: next =>
      if k = key then some next
      else (unlink key next).map ((k, v) :: ·)

/-- `shrink` is the outcome of `load_factor < _max_load_factor / 4.0`. -/
def erase (m : UnorderedMap K V) (key : K) (shrink : Bool) :
    Option (Bool × UnorderedMap K V) := do
  let idx ← bucketIndex hash key m.bucketCount
  let chain ← m.buckets[idx]?
  match unlink key chain with
  | none => some (false, m)
  | some chain' =>
      let m' := { m with buckets := m.buckets.set idx chain', elemCount := m.elemCount - 1 }
      let newCount := max (m'.bucketCount / 2) minBuckets
      if m'.elemCount > 0 ∧ shrink = true ∧ newCount < m'.bucketCount then do
        let m'' ← m'.rehash hash newCount
        some (true, m'')
      else some (true, m')

def size (m : UnorderedMap K V) : Nat := m.elemCount

def clear (m : UnorderedMap K V) : Option (UnorderedMap K V) :=
  let m' := { m with buckets := m.buckets.map fun _ => [], elemCount := 0 }
  if m'.bucketCount > minBuckets then m'.rehash hash minBuckets else some m'

end Ops

/-! ## Runs -/

/-- A call that changes the table, with the outcome of its comparison. -/
inductive Op (K V : Type) where
  | insert (key : K) (value : V) (grow : Bool)
  | erase (key : K) (shrink : Bool)
  | clear
  deriving DecidableEq, Repr

def step [DecidableEq K] (hash : K → Nat) (m : UnorderedMap K V) :
    Op K V → Option (UnorderedMap K V)
  | .insert key value grow => m.insert hash key value grow
  | .erase key shrink => (m.erase hash key shrink).map Prod.snd
  | .clear => m.clear hash

/-- The finite map the calls denote. -/
def specStep [DecidableEq K] (f : K → Option V) : Op K V → K → Option V
  | .insert key value _ => Function.update f key (some value)
  | .erase key _ => Function.update f key none
  | .clear => fun _ => none

def specRun [DecidableEq K] (f : K → Option V) (ops : List (Op K V)) : K → Option V :=
  ops.foldl specStep f

/-! ## The invariant -/

/-- All nodes, bucket by bucket. -/
def nodes (m : UnorderedMap K V) : List (K × V) := m.buckets.flatten

/-- Every node is in the bucket its key hashes to, for `count` buckets. -/
def Placed (hash : K → Nat) (count : Nat) (buckets : List (List (K × V))) : Prop :=
  ∀ i chain, buckets[i]? = some chain → ∀ node ∈ chain, hash node.1 % count = i

/-- The table stands for `f`. -/
structure Represents (hash : K → Nat) (m : UnorderedMap K V) (f : K → Option V) : Prop where
  length_eq : m.buckets.length = m.bucketCount
  count_pos : 1 ≤ m.bucketCount
  placed : Placed hash m.bucketCount m.buckets
  nodup : (m.nodes.map Prod.fst).Nodup
  elem_eq : m.elemCount = m.nodes.length
  holds : Holds m.nodes f

/-! ### Editing one chain -/

/-- Replacing chain `i` exchanges the nodes of the old chain for the new ones. -/
theorem set_flatten {buckets : List (List (K × V))} {i : Nat} {chain : List (K × V)}
    (h : buckets[i]? = some chain) (chain' : List (K × V)) :
    ∃ rest, buckets.flatten.Perm (chain ++ rest) ∧
      (buckets.set i chain').flatten.Perm (chain' ++ rest) := by
  obtain ⟨hi, rfl⟩ := List.getElem?_eq_some_iff.mp h
  refine ⟨(buckets.take i).flatten ++ (buckets.drop (i + 1)).flatten, ?_, ?_⟩
  · have hsplit : buckets = buckets.take i ++ buckets[i] :: buckets.drop (i + 1) := by
      rw [List.getElem_cons_drop, List.take_append_drop]
    conv_lhs => rw [hsplit]
    rw [List.flatten_append, List.flatten_cons]
    exact List.perm_append_comm_assoc _ _ _
  · rw [List.set_eq_take_append_cons_drop, if_pos hi, List.flatten_append, List.flatten_cons]
    exact List.perm_append_comm_assoc _ _ _

theorem Placed.set {hash : K → Nat} {count i : Nat} {buckets : List (List (K × V))}
    {chain : List (K × V)} (h : Placed hash count buckets)
    (hchain : ∀ node ∈ chain, hash node.1 % count = i) :
    Placed hash count (buckets.set i chain) := by
  intro j c hj node hnode
  rw [List.getElem?_set] at hj
  split at hj
  · rename_i hij
    subst hij
    split at hj
    · cases hj
      exact hchain node hnode
    · exact nomatch hj
  · exact h j c hj node hnode

/-- A node is in the table iff it is in its key's own chain. -/
theorem mem_nodes_iff {hash : K → Nat} {count : Nat} {buckets : List (List (K × V))}
    (h : Placed hash count buckets) {node : K × V} {chain : List (K × V)}
    (hchain : buckets[hash node.1 % count]? = some chain) :
    node ∈ buckets.flatten ↔ node ∈ chain := by
  rw [List.mem_flatten]
  constructor
  · rintro ⟨c, hc, hnode⟩
    obtain ⟨i, hi⟩ := List.getElem?_of_mem hc
    have hplace := h i c hi node hnode
    rw [hplace, hi] at hchain
    cases hchain
    exact hnode
  · intro hnode
    exact ⟨chain, List.mem_of_getElem? hchain, hnode⟩

/-! ### The loops over one chain -/

section Chain
variable [DecidableEq K] {key : K}

theorem overwrite_none {value : V} : ∀ {chain : List (K × V)},
    overwrite key value chain = none → key ∉ chain.map Prod.fst
  | [], _ => List.not_mem_nil
  | (k, v) :: next, h => by
      rw [overwrite] at h
      split at h
      · exact nomatch h
      · rename_i hk
        have ih := overwrite_none (Option.map_eq_none_iff.mp h)
        simpa [ih] using Ne.symm hk

theorem overwrite_some {value : V} : ∀ {chain chain' : List (K × V)},
    overwrite key value chain = some chain' →
      ∃ pre v post, chain = pre ++ (key, v) :: post ∧ chain' = pre ++ (key, value) :: post
  | (k, v) :: next, chain', h => by
      rw [overwrite] at h
      split at h
      · rename_i hk
        cases h
        subst hk
        exact ⟨[], v, next, rfl, rfl⟩
      · obtain ⟨next', hnext, rfl⟩ := Option.map_eq_some_iff.mp h
        obtain ⟨pre, v', post, rfl, rfl⟩ := overwrite_some hnext
        exact ⟨(k, v) :: pre, v', post, rfl, rfl⟩

theorem unlink_none : ∀ {chain : List (K × V)},
    unlink key chain = none → key ∉ chain.map Prod.fst
  | [], _ => List.not_mem_nil
  | (k, v) :: next, h => by
      rw [unlink] at h
      split at h
      · exact nomatch h
      · rename_i hk
        have ih := unlink_none (Option.map_eq_none_iff.mp h)
        simpa [ih] using Ne.symm hk

theorem unlink_some : ∀ {chain chain' : List (K × V)},
    unlink key chain = some chain' →
      ∃ pre v post, chain = pre ++ (key, v) :: post ∧ chain' = pre ++ post
  | (k, v) :: next, chain', h => by
      rw [unlink] at h
      split at h
      · rename_i hk
        cases h
        subst hk
        exact ⟨[], v, next, rfl, rfl⟩
      · obtain ⟨next', hnext, rfl⟩ := Option.map_eq_some_iff.mp h
        obtain ⟨pre, v', post, rfl, rfl⟩ := unlink_some hnext
        exact ⟨(k, v) :: pre, v', post, rfl, rfl⟩

theorem findChain_eq_some {value : V} : ∀ {chain : List (K × V)},
    (chain.map Prod.fst).Nodup → (findChain key chain = some value ↔ (key, value) ∈ chain)
  | [], _ => by simp [findChain]
  | (k, v) :: next, h => by
      obtain ⟨hk, hnext⟩ := List.nodup_cons.mp h
      rw [findChain, List.mem_cons, Prod.mk.injEq]
      split
      · rename_i heq
        subst heq
        have hnot : (k, value) ∉ next := fun hmem => hk (List.mem_map.mpr ⟨_, hmem, rfl⟩)
        simp [hnot, eq_comm]
      · rename_i hne
        rw [findChain_eq_some hnext]
        simp [Ne.symm hne]

end Chain

/-! ### Rehashing -/

theorem bucketIndex_ok {hash : K → Nat} {key : K} {count : Nat} (h : 1 ≤ count) :
    bucketIndex hash key count = some (hash key % count) :=
  if_neg (by omega)

theorem bucket_exists {buckets : List (List (K × V))} {count n : Nat} (hcount : 1 ≤ count)
    (hlen : buckets.length = count) : ∃ chain, buckets[n % count]? = some chain :=
  ⟨_, List.getElem?_eq_getElem (by rw [hlen]; exact Nat.mod_lt n hcount)⟩

theorem relink_ok {hash : K → Nat} {newCount : Nat} (hpos : 1 ≤ newCount) :
    ∀ (chain : List (K × V)) (nb : List (List (K × V))), nb.length = newCount →
      Placed hash newCount nb →
      ∃ nb', relink hash newCount chain nb = some nb' ∧ nb'.length = newCount ∧
        Placed hash newCount nb' ∧ nb'.flatten.Perm (chain ++ nb.flatten)
  | [], nb, hlen, hplaced => ⟨nb, rfl, hlen, hplaced, .refl _⟩
  | node :: next, nb, hlen, hplaced => by
      obtain ⟨chain, hchain⟩ := bucket_exists (n := hash node.1) hpos hlen
      have hput : Placed hash newCount (nb.set (hash node.1 % newCount) (node :: chain)) := by
        refine hplaced.set fun x hx => ?_
        rcases List.mem_cons.mp hx with rfl | hx
        · rfl
        · exact hplaced _ chain hchain x hx
      obtain ⟨nb', hrun, hlen', hplaced', hperm⟩ :=
        relink_ok hpos next _ (List.length_set.trans hlen) hput
      refine ⟨nb', ?_, hlen', hplaced', ?_⟩
      · simp [relink, bucketIndex_ok hpos, hchain, hrun]
      · obtain ⟨rest, hold, hnew⟩ := set_flatten hchain (node :: chain)
        have hmove : (next ++ node :: (chain ++ rest)).Perm (node :: (next ++ nb.flatten)) :=
          List.perm_middle.trans ((hold.symm.append_left next).cons node)
        exact hperm.trans ((hnew.append_left next).trans hmove)

theorem rehashLoop_ok {hash : K → Nat} {newCount : Nat} (hpos : 1 ≤ newCount)
    (m : UnorderedMap K V) :
    ∀ (n i : Nat) (nb : List (List (K × V))), i + n = m.buckets.length →
      nb.length = newCount → Placed hash newCount nb →
      ∃ nb', rehashLoop hash m newCount n i nb = some nb' ∧ nb'.length = newCount ∧
        Placed hash newCount nb' ∧ nb'.flatten.Perm ((m.buckets.drop i).flatten ++ nb.flatten)
  | 0, i, nb, hi, hlen, hplaced => by
      refine ⟨nb, rfl, hlen, hplaced, ?_⟩
      rw [List.drop_eq_nil_of_le (by omega)]
      exact .refl _
  | n + 1, i, nb, hi, hlen, hplaced => by
      have hlt : i < m.buckets.length := by omega
      obtain ⟨nb₁, hlink, hlen₁, hplaced₁, hperm₁⟩ :=
        relink_ok hpos m.buckets[i] nb hlen hplaced
      obtain ⟨nb₂, hloop, hlen₂, hplaced₂, hperm₂⟩ :=
        rehashLoop_ok hpos m n (i + 1) nb₁ (by omega) hlen₁ hplaced₁
      refine ⟨nb₂, ?_, hlen₂, hplaced₂, ?_⟩
      · simp [rehashLoop, List.getElem?_eq_getElem hlt, hlink, hloop]
      · rw [List.drop_eq_getElem_cons hlt, List.flatten_cons]
        refine hperm₂.trans ((hperm₁.append_left _).trans ?_)
        rw [List.append_assoc]
        exact List.perm_append_comm_assoc _ _ _

theorem placed_replicate (hash : K → Nat) (count n : Nat) :
    Placed hash count (List.replicate n ([] : List (K × V))) := by
  intro i chain hi node hnode
  rw [List.eq_of_mem_replicate (List.mem_of_getElem? hi)] at hnode
  exact absurd hnode List.not_mem_nil

/-- A table with the same nodes elsewhere stands for the same map. -/
theorem Represents.of_perm {hash : K → Nat} {m m' : UnorderedMap K V} {f : K → Option V}
    (h : Represents hash m f) (hlen : m'.buckets.length = m'.bucketCount)
    (hpos : 1 ≤ m'.bucketCount) (hplaced : Placed hash m'.bucketCount m'.buckets)
    (hperm : m'.nodes.Perm m.nodes) (helem : m'.elemCount = m.elemCount) :
    Represents hash m' f where
  length_eq := hlen
  count_pos := hpos
  placed := hplaced
  nodup := (hperm.map Prod.fst).nodup_iff.mpr h.nodup
  elem_eq := by rw [helem, h.elem_eq, hperm.length_eq]
  holds := h.holds.perm hperm.symm

/-- `rehash` moves every node and loses none. -/
theorem rehash_ok {hash : K → Nat} {m : UnorderedMap K V} {f : K → Option V}
    (h : Represents hash m f) (newCount : Nat) :
    ∃ m', m.rehash hash newCount = some m' ∧ Represents hash m' f := by
  by_cases hnop : newCount = 0 ∨ newCount = m.bucketCount
  · exact ⟨m, if_pos hnop, h⟩
  · have hpos : 1 ≤ newCount := by omega
    obtain ⟨nb, hloop, hlen, hplaced, hperm⟩ :=
      rehashLoop_ok hpos m m.bucketCount 0 (List.replicate newCount [])
        (by rw [Nat.zero_add, h.length_eq]) List.length_replicate
        (placed_replicate hash newCount newCount)
    refine ⟨{ m with buckets := nb, bucketCount := newCount }, ?_, ?_⟩
    · simp [rehash, hnop, hloop]
    · refine h.of_perm hlen hpos hplaced ?_ rfl
      simpa [nodes] using hperm

/-! ### The calls -/

section Calls
variable {hash : K → Nat} {m : UnorderedMap K V} {f : K → Option V}

theorem make_represents {c : Nat} (hc : 1 ≤ c) :
    Represents hash (make c : UnorderedMap K V) (fun _ => none) where
  length_eq := List.length_replicate
  count_pos := hc
  placed := placed_replicate hash c c
  nodup := by simp [nodes, make]
  elem_eq := by simp [nodes, make]
  holds := by simpa [nodes, make] using holds_nil

/-- Every lookup reaches a chain, and the key is nowhere else. -/
theorem Represents.chain (h : Represents hash m f) (key : K) :
    ∃ chain, m.buckets[hash key % m.bucketCount]? = some chain ∧
      (∀ v, (key, v) ∈ m.nodes ↔ (key, v) ∈ chain) ∧ (chain.map Prod.fst).Nodup := by
  obtain ⟨chain, hchain⟩ := bucket_exists (n := hash key) h.count_pos h.length_eq
  refine ⟨chain, hchain, fun v => mem_nodes_iff h.placed hchain, ?_⟩
  obtain ⟨rest, hperm, _⟩ := set_flatten hchain chain
  have hnodup := (hperm.map Prod.fst).nodup_iff.mp h.nodup
  rw [List.map_append] at hnodup
  exact (List.nodup_append.mp hnodup).1

/-- The table after chain `i` has been replaced: what is left to show about the
new chain. -/
theorem Represents.setChain {f' : K → Option V} (h : Represents hash m f) {i n : Nat}
    {chain' : List (K × V)} (hplace : ∀ node ∈ chain', hash node.1 % m.bucketCount = i)
    {l : List (K × V)} (hperm : (m.buckets.set i chain').flatten.Perm l)
    (hnodup : (l.map Prod.fst).Nodup) (hn : n = l.length) (hholds : Holds l f') :
    Represents hash { m with buckets := m.buckets.set i chain', elemCount := n } f' where
  length_eq := List.length_set.trans h.length_eq
  count_pos := h.count_pos
  placed := h.placed.set hplace
  nodup := (hperm.map Prod.fst).nodup_iff.mpr hnodup
  elem_eq := hn.trans hperm.length_eq.symm
  holds := hholds.perm hperm.symm

theorem clear_ok (h : Represents hash m f) :
    ∃ m', m.clear hash = some m' ∧ Represents hash m' (fun _ => none) := by
  have hempty : (m.buckets.map fun _ => ([] : List (K × V)))
      = List.replicate m.buckets.length [] := List.map_const' ..
  have hrep : Represents hash
      { m with buckets := m.buckets.map fun _ => ([] : List (K × V)), elemCount := 0 }
      (fun _ => none) := by
    rw [hempty, h.length_eq]
    exact make_represents h.count_pos
  simp only [clear]
  split
  · exact rehash_ok hrep minBuckets
  · exact ⟨_, rfl, hrep⟩

variable [DecidableEq K]

theorem find_ok (h : Represents hash m f) (key : K) : m.find hash key = some (f key) := by
  obtain ⟨chain, hchain, hmem, hnodup⟩ := h.chain key
  have hfind : findChain key chain = f key := Option.ext fun v => by
    rw [findChain_eq_some hnodup, ← hmem, h.holds]
  simp [find, bucketIndex_ok h.count_pos, hchain, hfind]

theorem insert_ok (h : Represents hash m f) (key : K) (value : V) (grow : Bool) :
    ∃ m', m.insert hash key value grow = some m' ∧
      Represents hash m' (Function.update f key (some value)) := by
  obtain ⟨chain, hchain, hmem, _⟩ := h.chain key
  have hplace := h.placed _ chain hchain
  simp only [insert, bucketIndex_ok h.count_pos, hchain, Option.bind_eq_bind, Option.bind_some]
  cases hover : overwrite key value chain with
  | some chain' =>
      obtain ⟨pre, v, post, rfl, rfl⟩ := overwrite_some hover
      obtain ⟨rest, hold, hnew⟩ := set_flatten hchain (pre ++ (key, value) :: post)
      -- the node comes to the front of both node lists; what is behind it is the same
      have hold' : m.nodes.Perm ((key, v) :: (pre ++ post ++ rest)) :=
        hold.trans (List.perm_middle.append_right rest)
      have hnew' := hnew.trans (List.perm_middle.append_right rest)
      have hnodup := (hold'.map Prod.fst).nodup_iff.mp h.nodup
      have hholds := ((h.holds.perm hold').tail (List.nodup_cons.mp hnodup).1).cons
        (List.nodup_cons.mp hnodup).1 value
      rw [Function.update_idem] at hholds
      refine ⟨_, rfl, h.setChain (fun node hnode => ?_) hnew' hnodup ?_ hholds⟩
      · rcases List.mem_append.mp hnode with hnode | hnode
        · exact hplace node (List.mem_append_left _ hnode)
        · rcases List.mem_cons.mp hnode with rfl | hnode
          · rfl
          · exact hplace node (List.mem_append_right _ (List.mem_cons_of_mem _ hnode))
      · rw [h.elem_eq, hold'.length_eq]
        rfl
  | none =>
      have hkey : key ∉ m.nodes.map Prod.fst := by
        intro hin
        obtain ⟨⟨k, v⟩, hnode, rfl⟩ := List.mem_map.mp hin
        exact overwrite_none hover (List.mem_map.mpr ⟨_, (hmem v).mp hnode, rfl⟩)
      obtain ⟨rest, hold, hnew⟩ := set_flatten hchain ((key, value) :: chain)
      have hnew' := hnew.trans (hold.symm.cons (key, value))
      have hrep := h.setChain (n := m.elemCount + 1) (fun node hnode => ?_) hnew'
        (List.nodup_cons.mpr ⟨hkey, h.nodup⟩) (by rw [h.elem_eq]; rfl) (h.holds.cons hkey value)
      · cases grow with
        | true => exact rehash_ok hrep _
        | false => exact ⟨_, rfl, hrep⟩
      · rcases List.mem_cons.mp hnode with rfl | hnode
        · rfl
        · exact hplace node hnode

theorem erase_ok (h : Represents hash m f) (key : K) (shrink : Bool) :
    ∃ m', m.erase hash key shrink = some (decide (f key ≠ none), m') ∧
      Represents hash m' (Function.update f key none) := by
  obtain ⟨chain, hchain, hmem, _⟩ := h.chain key
  have hplace := h.placed _ chain hchain
  simp only [erase, bucketIndex_ok h.count_pos, hchain, Option.bind_eq_bind, Option.bind_some]
  cases hun : unlink key chain with
  | none =>
      have hnone : f key = none := by
        by_contra hne
        obtain ⟨⟨k, v⟩, hnode, rfl⟩ := List.mem_map.mp (h.holds.key_mem.mpr hne)
        exact unlink_none hun (List.mem_map.mpr ⟨_, (hmem v).mp hnode, rfl⟩)
      refine ⟨m, by simp [hnone], ?_⟩
      rw [← hnone, Function.update_eq_self]
      exact h
  | some chain' =>
      obtain ⟨pre, v, post, rfl, rfl⟩ := unlink_some hun
      obtain ⟨rest, hold, hnew⟩ := set_flatten hchain (pre ++ post)
      have hold' : m.nodes.Perm ((key, v) :: (pre ++ post ++ rest)) :=
        hold.trans (List.perm_middle.append_right rest)
      have hnodup := (hold'.map Prod.fst).nodup_iff.mp h.nodup
      have hsome : f key ≠ none := by
        rw [(h.holds key v).mp (hold'.mem_iff.mpr List.mem_cons_self)]
        exact Option.some_ne_none v
      have hrep := h.setChain (n := m.elemCount - 1) (fun node hnode => ?_) hnew
        (List.nodup_cons.mp hnodup).2 (by rw [h.elem_eq, hold'.length_eq]; rfl)
        ((h.holds.perm hold').tail (List.nodup_cons.mp hnodup).1)
      · simp only [hsome, ne_eq, not_false_eq_true, decide_true]
        split
        · obtain ⟨m', hre, hrep'⟩ := rehash_ok hrep (max (m.bucketCount / 2) minBuckets)
          exact ⟨m', by rw [hre]; rfl, hrep'⟩
        · exact ⟨_, rfl, hrep⟩
      · refine hplace node ?_
        rcases List.mem_append.mp hnode with hnode | hnode
        · exact List.mem_append_left _ hnode
        · exact List.mem_append_right _ (List.mem_cons_of_mem _ hnode)

/-! ## The finite map -/

theorem step_ok (m : UnorderedMap K V) (f : K → Option V) (op : Op K V)
    (h : Represents hash m f) :
    ∃ m', step hash m op = some m' ∧ Represents hash m' (specStep f op) := by
  cases op with
  | insert key value grow => exact insert_ok h key value grow
  | erase key shrink =>
      obtain ⟨m', herase, hrep⟩ := erase_ok h key shrink
      exact ⟨m', by rw [step, herase]; rfl, hrep⟩
  | clear => exact clear_ok h

theorem run_represents (ops : List (Op K V)) {m : UnorderedMap K V} {f : K → Option V}
    (h : Represents hash m f) :
    ∃ m', run (step hash) m ops = some m' ∧ Represents hash m' (specRun f ops) :=
  run_simulates (fun m f op hm _ => step_ok m f op hm) ops h
    (along_of_all (fun _ _ => trivial) m ops)

/-- **The hash table is a finite map**, whatever the hash function, the initial
capacity and the outcomes of the load factor comparisons. -/
theorem hashTable_is_finite_map (hash : K → Nat) {c : Nat} (hc : 1 ≤ c) (ops : List (Op K V)) :
    ∃ m, run (step hash) (make c) ops = some m ∧
      m.buckets.length = m.bucketCount ∧ 1 ≤ m.bucketCount ∧
      Placed hash m.bucketCount m.buckets ∧
      (m.nodes.map Prod.fst).Nodup ∧
      m.size = m.nodes.length ∧
      (∀ key, m.find hash key = some (specRun (fun _ => none) ops key)) ∧
      (∀ key shrink, ∃ m', m.erase hash key shrink
        = some (decide (specRun (fun _ => none) ops key ≠ none), m')) := by
  obtain ⟨m, hrun, h⟩ := run_represents ops (make_represents hc)
  refine ⟨m, hrun, h.length_eq, h.count_pos, h.placed, h.nodup, h.elem_eq, find_ok h, ?_⟩
  intro key shrink
  obtain ⟨m', herase, _⟩ := erase_ok h key shrink
  exact ⟨m', herase⟩

/-- Two colliding keys in one bucket, through a doubling and a removal. -/
theorem hashTable_is_finite_map_collisions :
    ∃ m, run (step fun k => k % 2) (make 1 : UnorderedMap Nat String)
        [.insert 1 "a" true, .insert 3 "b" false, .erase 1 true] = some m ∧
      m.find (fun k => k % 2) 3 = some (some "b") ∧ m.find (fun k => k % 2) 1 = some none := by
  obtain ⟨m, hrun, _, _, _, _, _, hfind, _⟩ := hashTable_is_finite_map (fun k => k % 2) (Nat.le_refl 1)
    [.insert 1 "a" true, .insert 3 "b" false, .erase 1 true]
  exact ⟨m, hrun, (hfind 3).trans (by decide), (hfind 1).trans (by decide)⟩

end Calls

end UnorderedMap

end CKernel.SenStd
