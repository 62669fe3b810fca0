/-
# `CKernel.Lib.Heap` — a typed heap of cells

Pointers are numbers and the null pointer is zero.  A heap is a finite map from
addresses to cells; reading, writing or freeing through null or through an
address that is not live is a fault, the result `none`.  The total versions
`set` and `drop` are what the partial operations amount to at a live address,
and `load_set`/`load_drop` are the only facts later proofs use about them.

`new` takes the address the allocator picked.  All that is assumed of it is
`Fresh`: not null and not live.
-/
import Mathlib

namespace CKernel

/-- An address; `0` is `nullptr`. -/
abbrev Ptr := Nat

/-- The live cells by address. -/
structure Heap (α : Type) where
  cells : Finmap fun _ : Ptr => α

namespace Heap

variable {α : Type}

def empty : Heap α := ⟨∅⟩

/-- The number of live cells. -/
def size (h : Heap α) : Nat := h.cells.keys.card

/-- Dereference. -/
def load (h : Heap α) (p : Ptr) : Option α :=
  if p = 0 then none else h.cells.lookup p

/-- The heap with `c` at `p`. -/
def set (h : Heap α) (p : Ptr) (c : α) : Heap α := ⟨h.cells.insert p c⟩

/-- The heap without `p`. -/
def drop (h : Heap α) (p : Ptr) : Heap α := ⟨h.cells.erase p⟩

/-- Write through a pointer. -/
def modify (h : Heap α) (p : Ptr) (f : α → α) : Option (Heap α) :=
  (h.load p).map fun c => h.set p (f c)

/-- `delete p` -/
def free (h : Heap α) (p : Ptr) : Option (Heap α) :=
  (h.load p).map fun _ => h.drop p

/-- An address that `new` may return. -/
def Fresh (h : Heap α) (p : Ptr) : Prop := p ≠ 0 ∧ h.load p = none

instance [DecidableEq α] (h : Heap α) (p : Ptr) : Decidable (h.Fresh p) :=
  inferInstanceAs (Decidable (_ ∧ _))

variable {h : Heap α} {p q : Ptr} {c : α}

@[simp] theorem load_empty : (empty : Heap α).load p = none := by
  simp [load, empty]

@[simp] theorem load_null : h.load 0 = none := rfl

theorem ne_null_of_load (hp : h.load p = some c) : p ≠ 0 := by
  rintro rfl
  cases hp

theorem ne_of_load (hp : h.load p = some c) (hq : h.load q = none) : p ≠ q := by
  rintro rfl
  rw [hp] at hq
  cases hq

theorem load_set (hp : p ≠ 0) : (h.set p c).load q = if q = p then some c else h.load q := by
  by_cases hq : q = p
  · subst hq
    rw [load, if_neg hp, set, Finmap.lookup_insert, if_pos rfl]
  · rw [if_neg hq, load, load, set, Finmap.lookup_insert_of_ne h.cells hq]

theorem load_set_self (hp : p ≠ 0) : (h.set p c).load p = some c := by
  rw [load_set hp, if_pos rfl]

theorem load_set_of_ne (hp : p ≠ 0) (hq : q ≠ p) : (h.set p c).load q = h.load q := by
  rw [load_set hp, if_neg hq]

theorem set_set (c' : α) : (h.set p c).set p c' = h.set p c' := by
  rw [set, set, set, Finmap.insert_insert]

theorem load_drop : (h.drop p).load q = if q = p then none else h.load q := by
  by_cases hq : q = p
  · subst hq
    rw [if_pos rfl, load, drop, Finmap.lookup_erase, ite_self]
  · rw [if_neg hq, load, load, drop, Finmap.lookup_erase_ne hq]

theorem load_drop_of_ne (hq : q ≠ p) : (h.drop p).load q = h.load q := by
  rw [load_drop, if_neg hq]

theorem modify_eq (hp : h.load p = some c) (f : α → α) : h.modify p f = some (h.set p (f c)) := by
  rw [modify, hp, Option.map_some]

theorem free_eq (hp : h.load p = some c) : h.free p = some (h.drop p) := by
  rw [free, hp, Option.map_some]

/-- Distinct live addresses are at most as many as there are cells: the bound
on any walk that visits no address twice. -/
theorem length_le_size {l : List Ptr} (hnodup : l.Nodup) (hlive : ∀ a ∈ l, h.load a ≠ none) :
    l.length ≤ h.size := by
  rw [← List.toFinset_card_of_nodup hnodup]
  refine Finset.card_le_card fun a ha => ?_
  have hload := hlive a (List.mem_toFinset.mp ha)
  rw [Finmap.mem_keys, ← Finmap.lookup_isSome]
  rw [load] at hload
  split at hload
  · exact absurd rfl hload
  · exact Option.isSome_iff_ne_none.mpr hload

end Heap

end CKernel
