/-
# `CKernel.Lib.AssocList` — association lists as finite maps

The common specification of the map containers: a finite map is a function
`K → Option V`, and an association list *holds* it when its pairs are exactly
the graph.  The ordered half gives insert-or-overwrite and deletion on lists
in strictly increasing key order, and the lemmas that push both to one side of
a middle pair — the shape in which a search tree meets them, since the
in-order list of a node is `left ++ pair :: right`.
-/
import Mathlib

namespace CKernel.AssocList

variable {K V : Type}

/-! ## Lists that hold a map -/

/-- The pairs of `l` are the graph of `m`. -/
def Holds (l : List (K × V)) (m : K → Option V) : Prop :=
  ∀ k v, (k, v) ∈ l ↔ m k = some v

theorem holds_nil : Holds ([] : List (K × V)) (fun _ => none) := by
  intro k v
  simp

/-- A key of `l` is a key of the map. -/
theorem Holds.key_mem {l : List (K × V)} {m : K → Option V} (h : Holds l m) {k : K} :
    k ∈ l.map Prod.fst ↔ m k ≠ none := by
  rw [List.mem_map, Option.ne_none_iff_exists']
  constructor
  · rintro ⟨⟨k', v⟩, hmem, rfl⟩
    exact ⟨v, (h k' v).mp hmem⟩
  · rintro ⟨v, hv⟩
    exact ⟨(k, v), (h k v).mpr hv, rfl⟩

theorem Holds.perm {l l' : List (K × V)} {m : K → Option V} (h : Holds l m) (hp : l.Perm l') :
    Holds l' m := by
  intro k v
  rw [← hp.mem_iff]
  exact h k v

section Unordered
variable [DecidableEq K] {l : List (K × V)} {m : K → Option V} {key : K}

theorem Holds.cons (h : Holds l m) (hkey : key ∉ l.map Prod.fst) (value : V) :
    Holds ((key, value) :: l) (Function.update m key (some value)) := by
  intro k v
  rw [List.mem_cons, Prod.mk.injEq]
  by_cases hk : k = key
  · subst hk
    have hnot : (k, v) ∉ l := fun hmem => hkey (List.mem_map_of_mem hmem)
    simp [hnot, eq_comm]
  · simp [hk, h k v]

theorem Holds.tail {value : V} (h : Holds ((key, value) :: l) m) (hkey : key ∉ l.map Prod.fst) :
    Holds l (Function.update m key none) := by
  intro k v
  by_cases hk : k = key
  · subst hk
    have hnot : (k, v) ∉ l := fun hmem => hkey (List.mem_map_of_mem hmem)
    simp [hnot]
  · have hcons := h k v
    rw [List.mem_cons, Prod.mk.injEq] at hcons
    simpa [hk] using hcons

end Unordered

/-! ## Strictly ordered lists -/

section Ordered
variable [LinearOrder K]

/-- Keys strictly increase. -/
def Sorted (l : List (K × V)) : Prop := l.Pairwise fun p q => p.1 < q.1

instance (l : List (K × V)) : Decidable (Sorted l) := inferInstanceAs (Decidable (l.Pairwise _))

/-- Insert or overwrite. -/
def put (key : K) (value : V) (l : List (K × V)) : List (K × V) :=
  l.filter (fun p => decide (p.1 < key)) ++ (key, value) :: l.filter (fun p => decide (key < p.1))

/-- Delete. -/
def del (key : K) (l : List (K × V)) : List (K × V) :=
  l.filter fun p => decide (p.1 ≠ key)

theorem sorted_nil : Sorted ([] : List (K × V)) := List.Pairwise.nil

theorem sorted_mid {l r : List (K × V)} {x : K × V} :
    Sorted (l ++ x :: r) ↔
      Sorted l ∧ Sorted r ∧ (∀ p ∈ l, p.1 < x.1) ∧ (∀ p ∈ r, x.1 < p.1) := by
  simp only [Sorted, List.pairwise_append, List.pairwise_cons, List.mem_cons]
  constructor
  · rintro ⟨hl, ⟨hx, hr⟩, hlr⟩
    exact ⟨hl, hr, fun p hp => hlr p hp x (Or.inl rfl), hx⟩
  · rintro ⟨hl, hr, hlx, hx⟩
    refine ⟨hl, ⟨hx, hr⟩, ?_⟩
    rintro p hp q (rfl | hq)
    · exact hlx p hp
    · exact lt_trans (hlx p hp) (hx q hq)

theorem mem_put {key : K} {value : V} {l : List (K × V)} {p : K × V} :
    p ∈ put key value l ↔ p = (key, value) ∨ (p ∈ l ∧ p.1 ≠ key) := by
  simp only [put, List.mem_append, List.mem_cons, List.mem_filter, decide_eq_true_eq]
  constructor
  · rintro (⟨hp, hlt⟩ | rfl | ⟨hp, hlt⟩)
    · exact .inr ⟨hp, ne_of_lt hlt⟩
    · exact .inl rfl
    · exact .inr ⟨hp, ne_of_gt hlt⟩
  · rintro (rfl | ⟨hp, hne⟩)
    · exact .inr (.inl rfl)
    · rcases lt_or_gt_of_ne hne with hlt | hlt
      · exact .inl ⟨hp, hlt⟩
      · exact .inr (.inr ⟨hp, hlt⟩)

theorem mem_del {key : K} {l : List (K × V)} {p : K × V} :
    p ∈ del key l ↔ p ∈ l ∧ p.1 ≠ key := by
  simp [del]

theorem sorted_put {key : K} {value : V} {l : List (K × V)} (h : Sorted l) :
    Sorted (put key value l) := by
  refine sorted_mid.mpr ⟨h.filter _, h.filter _, ?_, ?_⟩
  · intro p hp
    simpa using (List.mem_filter.mp hp).2
  · intro p hp
    simpa using (List.mem_filter.mp hp).2

theorem sorted_del {key : K} {l : List (K × V)} (h : Sorted l) : Sorted (del key l) :=
  h.filter _

theorem Holds.put {l : List (K × V)} {m : K → Option V} (h : Holds l m) (key : K) (value : V) :
    Holds (put key value l) (Function.update m key (some value)) := by
  intro k v
  rw [mem_put]
  by_cases hk : k = key
  · subst hk
    simp [eq_comm]
  · simp [hk, h k v]

theorem Holds.del {l : List (K × V)} {m : K → Option V} (h : Holds l m) (key : K) :
    Holds (del key l) (Function.update m key none) := by
  intro k v
  rw [mem_del]
  by_cases hk : k = key
  · subst hk
    simp
  · simp [hk, h k v]

/-! ### Around a middle pair -/

variable {key : K} {value : V} {l r : List (K × V)} {x : K × V}

theorem put_mid_lt (hkey : key < x.1) (hr : ∀ p ∈ r, x.1 < p.1) :
    put key value (l ++ x :: r) = put key value l ++ x :: r := by
  have hlow : (x :: r).filter (fun p => decide (p.1 < key)) = [] := by
    refine List.filter_eq_nil_iff.mpr fun q hq => ?_
    rw [decide_eq_true_eq]
    rcases List.mem_cons.mp hq with rfl | hq
    · exact not_lt_of_gt hkey
    · exact not_lt_of_gt (lt_trans hkey (hr q hq))
  have hhigh : (x :: r).filter (fun p => decide (key < p.1)) = x :: r := by
    refine List.filter_eq_self.mpr fun q hq => decide_eq_true ?_
    rcases List.mem_cons.mp hq with rfl | hq
    · exact hkey
    · exact lt_trans hkey (hr q hq)
  simp only [put, List.filter_append, hlow, hhigh, List.append_nil, List.append_assoc,
    List.cons_append]

theorem put_mid_gt (hkey : x.1 < key) (hl : ∀ p ∈ l, p.1 < x.1) :
    put key value (l ++ x :: r) = l ++ x :: put key value r := by
  have hlow : l.filter (fun p => decide (p.1 < key)) = l :=
    List.filter_eq_self.mpr fun q hq => decide_eq_true (lt_trans (hl q hq) hkey)
  have hhigh : l.filter (fun p => decide (key < p.1)) = [] :=
    List.filter_eq_nil_iff.mpr fun q hq => by
      rw [decide_eq_true_eq]
      exact not_lt_of_gt (lt_trans (hl q hq) hkey)
  simp only [put, List.filter_append, List.filter_cons, hlow, hhigh, decide_eq_true hkey,
    decide_eq_false (not_lt_of_gt hkey), List.nil_append, List.append_assoc, if_true,
    Bool.false_eq_true, if_false, List.cons_append]

/-- Insertion of a new key between the smaller and the larger ones. -/
theorem put_between (hl : ∀ p ∈ l, p.1 < key) (hr : ∀ p ∈ r, key < p.1) :
    put key value (l ++ r) = l ++ (key, value) :: r := by
  have h1 : l.filter (fun p => decide (p.1 < key)) = l :=
    List.filter_eq_self.mpr fun q hq => decide_eq_true (hl q hq)
  have h2 : l.filter (fun p => decide (key < p.1)) = [] :=
    List.filter_eq_nil_iff.mpr fun q hq => by
      rw [decide_eq_true_eq]
      exact not_lt_of_gt (hl q hq)
  have h3 : r.filter (fun p => decide (p.1 < key)) = [] :=
    List.filter_eq_nil_iff.mpr fun q hq => by
      rw [decide_eq_true_eq]
      exact not_lt_of_gt (hr q hq)
  have h4 : r.filter (fun p => decide (key < p.1)) = r :=
    List.filter_eq_self.mpr fun q hq => decide_eq_true (hr q hq)
  simp [put, List.filter_append, h1, h2, h3, h4]

theorem put_mid_eq (hl : ∀ p ∈ l, p.1 < x.1) (hr : ∀ p ∈ r, x.1 < p.1) :
    put x.1 value (l ++ x :: r) = l ++ (x.1, value) :: r := by
  have hx : put x.1 value (l ++ x :: r) = put x.1 value (l ++ r) := by
    simp [put, List.filter_append]
  rw [hx, put_between hl hr]

/-- Deletion leaves a list without the key alone. -/
theorem del_none (h : ∀ p ∈ l, p.1 ≠ key) : del key l = l :=
  List.filter_eq_self.mpr fun q hq => decide_eq_true (h q hq)

theorem del_mid_lt (hkey : key < x.1) (hr : ∀ p ∈ r, x.1 < p.1) :
    del key (l ++ x :: r) = del key l ++ x :: r := by
  have hright : del key (x :: r) = x :: r := by
    refine del_none fun q hq => ?_
    rcases List.mem_cons.mp hq with rfl | hq
    · exact ne_of_gt hkey
    · exact ne_of_gt (lt_trans hkey (hr q hq))
  rw [del, List.filter_append, ← del, ← del, hright]

theorem del_mid_gt (hkey : x.1 < key) (hl : ∀ p ∈ l, p.1 < x.1) :
    del key (l ++ x :: r) = l ++ x :: del key r := by
  have hleft : del key l = l := del_none fun q hq => ne_of_lt (lt_trans (hl q hq) hkey)
  rw [del, List.filter_append, ← del, hleft, List.filter_cons, if_pos (by simpa using ne_of_lt hkey),
    ← del]

theorem del_mid_eq (hl : ∀ p ∈ l, p.1 < x.1) (hr : ∀ p ∈ r, x.1 < p.1) :
    del x.1 (l ++ x :: r) = l ++ r := by
  have hleft : del x.1 l = l := del_none fun q hq => ne_of_lt (hl q hq)
  have hright : del x.1 r = r := del_none fun q hq => ne_of_gt (hr q hq)
  rw [del, List.filter_append, ← del, hleft, List.filter_cons, if_neg (by simp), ← del, hright]

end Ordered

end CKernel.AssocList
