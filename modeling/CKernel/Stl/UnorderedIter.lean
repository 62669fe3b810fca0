/-
# `CKernel.Stl.UnorderedIter` — iterating over the hash table of `umap_demo.h`

An iterator is a bucket index and a node.  As in `UnorderedMap`, a node is the
rest of its chain from there on, so that null is the empty list; the iterators
of one table are compared, and the pointer to the table is left out.

What an iterator still has to visit is the rest of its chain and all later
chains (`Positioned`): `advance` takes one node off it, and the iterator for
which nothing is left is `end()` and no other.

    `begin()` has every node before it                           (`begin_positioned`)
    `operator++` takes one node off                              (`advance_positioned`)
    after `size()` steps, each at another pair, the iterator
      is `end()`                                                 (`iteration_exhausts`)
-/
import CKernel.Stl.UnorderedMap

namespace CKernel.SenStd.UnorderedMap

open AssocList Run

variable {K V : Type}

/-! ## The code -/

/-- `unordered_map::iterator` -/
structure Iterator (K V : Type) where
  bucketIndex : Nat
  curr : List (K × V)
  deriving DecidableEq, Repr

/-- `end()` -/
def endIter (m : UnorderedMap K V) : Iterator K V := ⟨m.bucketCount, []⟩

/-- The loop of `begin`, with `n` buckets to go from `i`. -/
def beginLoop (m : UnorderedMap K V) : Nat → Nat → Option (Iterator K V)
  | 0, _ => some m.endIter
  | n + 1, i => do
      let chain ← m.buckets[i]?
      if chain ≠ [] then some ⟨i, chain⟩ else m.beginLoop n (i + 1)

/-- `begin()` -/
def beginIter (m : UnorderedMap K V) : Option (Iterator K V) := m.beginLoop m.bucketCount 0

/-- The loop of `advance`.  The index stays below `_bucket_count`, and `+ 1` does not wrap. -/
def skipLoop (m : UnorderedMap K V) : Nat → Iterator K V → Option (Iterator K V)
  | 0, _ => none
  | fuel + 1, it =>
      if it.bucketIndex + 1 < m.bucketCount ∧ it.curr.isEmpty then do
        let chain ← m.buckets[it.bucketIndex + 1]?
        m.skipLoop fuel ⟨it.bucketIndex + 1, chain⟩
      else some it

/-- `advance()`, which is `operator++` -/
def advance (m : UnorderedMap K V) (it : Iterator K V) : Option (Iterator K V) := do
  let it ← m.skipLoop (m.bucketCount + 1) ⟨it.bucketIndex, it.curr.tail⟩
  if it.curr.isEmpty then some ⟨m.bucketCount, it.curr⟩ else some it

/-- `*it`; `none` where it throws. -/
def deref (it : Iterator K V) : Option (K × V) := it.curr.head?

/-- `i` times `operator++`. -/
def advanceBy (m : UnorderedMap K V) : Nat → Iterator K V → Option (Iterator K V)
  | 0, it => some it
  | i + 1, it => do
      let it ← m.advance it
      m.advanceBy i it

/-! ## What is left to visit -/

/-- `it` has the nodes `rest` before it. -/
inductive Positioned (m : UnorderedMap K V) : Iterator K V → List (K × V) → Prop where
  | done : Positioned m m.endIter []
  | at {i : Nat} {node : K × V} {next : List (K × V)} : i < m.bucketCount →
      Positioned m ⟨i, node :: next⟩ (node :: next ++ (m.buckets.drop (i + 1)).flatten)

variable {m : UnorderedMap K V} {it : Iterator K V} {rest : List (K × V)}

/-- Only `end()` has nothing left, and it has nothing left. -/
theorem Positioned.eq_end_iff (h : Positioned m it rest) : it = m.endIter ↔ rest = [] := by
  cases h with
  | done => exact iff_of_true rfl rfl
  | «at» hi =>
      refine iff_of_false (fun heq => ?_) (fun hnil => ?_)
      · exact List.cons_ne_nil _ _ (congrArg Iterator.curr heq)
      · rw [List.cons_append] at hnil
        exact List.cons_ne_nil _ _ hnil

theorem drop_flatten {i : Nat} {chain : List (K × V)} (hchain : m.buckets[i]? = some chain) :
    (m.buckets.drop i).flatten = chain ++ (m.buckets.drop (i + 1)).flatten := by
  obtain ⟨hi, rfl⟩ := List.getElem?_eq_some_iff.mp hchain
  rw [List.drop_eq_getElem_cons hi, List.flatten_cons]

theorem beginLoop_positioned (hlen : m.buckets.length = m.bucketCount) :
    ∀ (n i : Nat), i + n = m.bucketCount →
      ∃ it, m.beginLoop n i = some it ∧ Positioned m it (m.buckets.drop i).flatten := by
  intro n
  induction n with
  | zero =>
      intro i hi
      have hdrop : m.buckets.drop i = [] := List.drop_eq_nil_of_le (by omega)
      refine ⟨m.endIter, rfl, ?_⟩
      rw [hdrop]
      exact .done
  | succ n ih =>
      intro i hi
      have hlt : i < m.buckets.length := by omega
      have hchain := List.getElem?_eq_getElem hlt
      rw [beginLoop, hchain, drop_flatten hchain]
      show ∃ it, (if m.buckets[i] ≠ [] then some ⟨i, m.buckets[i]⟩ else m.beginLoop n (i + 1))
        = some it ∧ _
      cases m.buckets[i] with
      | nil => exact ih (i + 1) (by omega)
      | cons node next => exact ⟨_, if_pos (List.cons_ne_nil node next), .at (by omega)⟩

/-- `begin()` has all nodes before it. -/
theorem begin_positioned (hlen : m.buckets.length = m.bucketCount) :
    ∃ it, m.beginIter = some it ∧ Positioned m it m.nodes :=
  beginLoop_positioned hlen m.bucketCount 0 (Nat.zero_add _)

/-- The loop of `advance` skips the empty buckets. -/
theorem skipLoop_ok (hlen : m.buckets.length = m.bucketCount) :
    ∀ (fuel i : Nat) (chain : List (K × V)), i < m.bucketCount → m.bucketCount < i + fuel →
      ∃ it, m.skipLoop fuel ⟨i, chain⟩ = some it ∧
        Positioned m (if it.curr.isEmpty then ⟨m.bucketCount, it.curr⟩ else it)
          (chain ++ (m.buckets.drop (i + 1)).flatten) := by
  intro fuel
  induction fuel with
  | zero =>
      intro i chain hi hfuel
      omega
  | succ fuel ih =>
      intro i chain hi hfuel
      cases chain with
      | cons node next =>
          refine ⟨⟨i, node :: next⟩, ?_, .at hi⟩
          rw [skipLoop, if_neg fun hempty => Bool.false_ne_true hempty.2]
      | nil =>
          by_cases hnext : i + 1 < m.bucketCount
          · have hlt : i + 1 < m.buckets.length := by omega
            have hchain := List.getElem?_eq_getElem hlt
            rw [skipLoop, if_pos ⟨hnext, rfl⟩, hchain, List.nil_append, drop_flatten hchain]
            exact ih (i + 1) m.buckets[i + 1] hnext (by omega)
          · have hdrop : m.buckets.drop (i + 1) = [] := List.drop_eq_nil_of_le (by omega)
            refine ⟨⟨i, []⟩, ?_, ?_⟩
            · rw [skipLoop, if_neg fun hmore => hnext hmore.1]
            · rw [hdrop]
              exact .done

/-- `operator++` takes one node off what is left. -/
theorem advance_positioned (hlen : m.buckets.length = m.bucketCount) {node : K × V}
    (h : Positioned m it (node :: rest)) :
    deref it = some node ∧ ∃ it', m.advance it = some it' ∧ Positioned m it' rest := by
  generalize hall : node :: rest = all at h
  cases h with
  | done => cases hall
  | «at» hi =>
      rw [List.cons_append, List.cons.injEq] at hall
      obtain ⟨rfl, rfl⟩ := hall
      obtain ⟨it', hskip, hpos⟩ := skipLoop_ok hlen (m.bucketCount + 1) _ _ hi (by omega)
      refine ⟨rfl, _, ?_, hpos⟩
      rw [advance, List.tail_cons, hskip]
      show (if it'.curr.isEmpty then some _ else some it') = _
      split
      · rfl
      · rfl

/-- After `i` steps, the first `i` nodes are off. -/
theorem advanceBy_positioned (hlen : m.buckets.length = m.bucketCount) :
    ∀ (i : Nat) {it : Iterator K V} {rest : List (K × V)}, Positioned m it rest →
      i ≤ rest.length → ∃ it', m.advanceBy i it = some it' ∧ Positioned m it' (rest.drop i) := by
  intro i
  induction i with
  | zero =>
      intro it rest h _
      exact ⟨it, rfl, h⟩
  | succ i ih =>
      intro it rest h hi
      cases rest with
      | nil => exact absurd hi (Nat.not_succ_le_zero i)
      | cons node rest =>
          obtain ⟨-, it₁, hadvance, h₁⟩ := advance_positioned hlen h
          obtain ⟨it', hrest, h'⟩ := ih h₁ (Nat.le_of_succ_le_succ hi)
          refine ⟨it', ?_, h'⟩
          rw [advanceBy, hadvance]
          exact hrest

/-! ## The whole loop -/

section Run
variable [DecidableEq K]

/-- **Iterating over the hash table**: after any calls, whatever the hash
function, the `i`-th step from `begin()` for `i < size()` is an iterator other
than `end()`, at the `i`-th node; the `size()`-th is `end()`.  The nodes have
distinct keys and are the pairs of the map. -/
theorem iteration_exhausts (hash : K → Nat) {c : Nat} (hc : 1 ≤ c) (ops : List (Op K V)) :
    ∃ (m : UnorderedMap K V) (first : Iterator K V), run (step hash) (make c) ops = some m ∧
      m.beginIter = some first ∧
      (∀ i (hi : i < m.nodes.length), ∃ it, m.advanceBy i first = some it ∧ it ≠ m.endIter ∧
        deref it = some m.nodes[i]) ∧
      m.advanceBy m.size first = some m.endIter ∧ (m.size = 0 → first = m.endIter) ∧
      m.size = m.nodes.length ∧ (m.nodes.map Prod.fst).Nodup ∧
      Holds m.nodes (specRun (fun _ => none) ops) := by
  obtain ⟨m, hrun, h⟩ : ∃ m, run (step hash) (make c) ops = some m ∧ Represents hash m _ :=
    run_represents ops (make_represents hc)
  have hlen := h.length_eq
  have hsize : m.size = m.nodes.length := h.elem_eq
  obtain ⟨first, hbegin, hfirst⟩ := begin_positioned hlen
  refine ⟨m, first, hrun, hbegin, ?_, ?_, ?_, hsize, h.nodup, h.holds⟩
  · intro i hi
    obtain ⟨it, hit, hpos⟩ := advanceBy_positioned hlen i hfirst (Nat.le_of_lt hi)
    rw [List.drop_eq_getElem_cons hi] at hpos
    refine ⟨it, hit, ?_, (advance_positioned hlen hpos).1⟩
    intro heq
    exact List.cons_ne_nil _ _ (hpos.eq_end_iff.mp heq)
  · obtain ⟨it, hit, hpos⟩ := advanceBy_positioned hlen m.size hfirst (Nat.le_of_eq hsize)
    rw [hit, hpos.eq_end_iff.mpr (List.drop_eq_nil_of_le (Nat.le_of_eq hsize.symm))]
  · intro hzero
    exact hfirst.eq_end_iff.mpr (List.eq_nil_of_length_eq_zero (hsize.symm.trans hzero))

/-- Four buckets, of which the second and the last are empty, and one node too
many in the third that was erased. -/
theorem iteration_exhausts_gaps :
    ∃ (m : UnorderedMap Nat String) (first : Iterator Nat String),
      run (step fun k => k) (make 4) [.insert 4 "a" false, .insert 2 "b" false, .insert 8 "c" false,
        .insert 6 "d" false, .erase 6 false] = some m ∧
      m.beginIter = some first ∧ m.advanceBy 3 first = some m.endIter := by
  obtain ⟨m, first, hrun, hbegin, -, hend, -⟩ := iteration_exhausts (fun k => k)
    (show 1 ≤ 4 by decide) [.insert 4 "a" false, .insert 2 "b" false, .insert 8 "c" false,
      .insert 6 "d" false, .erase 6 false]
  have hsize : m.size = 3 := by
    cases hrun
    rfl
  rw [hsize] at hend
  exact ⟨m, first, hrun, hbegin, hend⟩

end Run

end CKernel.SenStd.UnorderedMap
