/-
# `CKernel.Stl.DequeIter` — iterating over the deque of `deque_demo.h`

An `iterator` is a deque and a position.  `operator*` computes the cell it
reads as `(_deque->front() + _pos) % _capacity`: `front()` is the first
*element*, where the index of the first element, `_front_index`, is meant.
For a deque of integers the sum is one of `size_t`.

    the cell an iterator reads                                 (`deref_eq`)
    the loop from `begin()` to `end()` reads `size()` of them  (`collect_eq`)
    they are those of the elements exactly when the first
    element is its own index, as `FrontIsIndex` says           (`readCell_iff`)
    then iteration yields the elements, and otherwise not,
    whatever they are beside the first one                     (`iteration_yields_iff`)

`main` of `deque_demo.cpp` is an input on which it does not (`main_prints_popped`).
-/
import CKernel.Stl.DequeShape

namespace CKernel.SenStd.Deque

open EStateM (Result)

/-! ## The code -/

/-- `deque<T>::iterator`, without the pointer to the deque it belongs to. -/
structure Iterator where
  pos : Nat
  deriving DecidableEq, Repr

namespace Iterator

/-- `++ it` -/
def next (it : Iterator) : Iterator := ⟨Word.add 64 it.pos 1⟩

/-- `i` increments. -/
def advance (it : Iterator) : Nat → Iterator
  | 0 => it
  | i + 1 => (it.advance i).next

end Iterator

/-- `d.begin()` -/
def beginIter (_ : Deque Int) : Iterator := ⟨0⟩

/-- `d.end()` -/
def endIter (d : Deque Int) : Iterator := ⟨d.count⟩

/-- An integer converted to `size_t`. -/
def toSizeT (x : Int) : Nat := (x % 2 ^ 64).toNat

/-- `*it` -/
def deref (d : Deque Int) (it : Iterator) : Result Fault (Deque Int) Int :=
  match d.front with
  | .error e d => .error e d
  | .ok x d =>
      match umod (Word.add 64 (toSizeT x) it.pos) d.capacity with
      | .error e => .error e d
      | .ok realIdx =>
          match load d.buffer realIdx with
          | .error e => .error e d
          | .ok y => .ok y d

/-- The integers `for (it = ..; it != d.end(); ++ it)` reads, at most `fuel` of them;
`none` if the loop is not over then. -/
def collect (d : Deque Int) : Nat → Iterator → Option (Except Fault (List Int))
  | 0, it => if it = d.endIter then some (.ok []) else none
  | fuel + 1, it =>
      if it = d.endIter then some (.ok [])
      else
        match d.deref it with
        | .error e _ => some (.error e)
        | .ok x _ => (d.collect fuel it.next).map (Except.map (x :: ·))

/-! ## What an iterator reads -/

theorem advance_pos (i : Nat) (hi : i < 2 ^ 64) : (Iterator.mk 0).advance i = ⟨i⟩ := by
  induction i with
  | zero => rfl
  | succ i ih =>
      have hadd : Word.add 64 i 1 = i + 1 := Word.add_eq hi
      rw [Iterator.advance, ih (by omega), Iterator.next, hadd]

/-- The cell `*(begin() + i)` reads, when the first element is `x`. -/
def readCell (d : Deque Int) (x : Int) (i : Nat) : Nat :=
  (toSizeT x + i) % 2 ^ 64 % d.capacity

theorem deref_eq {d : Deque Int} {x : Int} {xs : List Int} (h : Represents d (x :: xs)) (i : Nat) :
    ∃ y, d.buffer[d.readCell x i]? = some y ∧ d.deref ⟨i⟩ = .ok y d := by
  have hlt : d.readCell x i < d.buffer.length := by
    rw [h.buffer_length]
    exact Nat.mod_lt _ h.capacity_pos
  have hload : load d.buffer (d.readCell x i) = .ok d.buffer[d.readCell x i] :=
    load_ok (List.getElem?_eq_getElem hlt)
  refine ⟨_, List.getElem?_eq_getElem hlt, ?_⟩
  simp only [deref, front_ok h (List.cons_ne_nil x xs), List.head_cons, Word.add,
    umod_ok h.capacity_pos]
  simp only [readCell] at hload ⊢
  simp only [hload]

/-- The loop takes the positions one after the other and stops at `size()`. -/
theorem collect_eq {d : Deque Int} {ys : List Int} (hsize : d.size = ys.length)
    (hsmall : d.size < 2 ^ 63)
    (hread : ∀ i (hi : i < ys.length), d.deref ⟨i⟩ = .ok ys[i] d) :
    ∀ (n i : Nat), i + n = ys.length → d.collect n ⟨i⟩ = some (.ok (ys.drop i)) := by
  have hend : d.endIter = ⟨ys.length⟩ := congrArg Iterator.mk hsize
  intro n
  induction n with
  | zero =>
      intro i hi
      have hall : ys.drop i = [] := List.drop_eq_nil_of_le (by omega)
      rw [collect, hend, hall, if_pos (by rw [← hi, Nat.add_zero])]
  | succ n ih =>
      intro i hi
      have hlt : i < ys.length := by omega
      have hne : Iterator.mk i ≠ ⟨ys.length⟩ := by
        intro heq
        have : i = ys.length := congrArg Iterator.pos heq
        omega
      have hnext : (Iterator.mk i).next = ⟨i + 1⟩ := by
        rw [Iterator.next, Word.add_eq (by show i + 1 < 2 ^ 64; omega)]
      simp only [collect, hend, if_neg hne, hread i hlt, hnext, ih (i + 1) (by omega),
        Option.map_some, Except.map]
      rw [List.drop_eq_getElem_cons hlt]

/-! ## When iteration gives the elements -/

/-- The first element of `xs`, read as a `size_t`, is the index of its cell modulo the
capacity; and `size_t` does not wrap on the way through the elements, or wraps at a
multiple of the capacity. -/
def FrontIsIndex (d : Deque Int) (xs : List Int) : Prop :=
  ∀ x ∈ xs.head?, toSizeT x % d.capacity = d.frontIndex ∧
    (toSizeT x + d.count ≤ 2 ^ 64 ∨ d.capacity ∣ 2 ^ 64)

/-- Every position gives its element, and the loop gives the list. -/
def Yields (d : Deque Int) (xs : List Int) : Prop :=
  (∀ i (hi : i < xs.length), d.deref (d.beginIter.advance i) = .ok xs[i] d) ∧
    d.collect d.size d.beginIter = some (.ok xs)

theorem toSizeT_lt (x : Int) : toSizeT x < 2 ^ 64 := by
  have hpos : x % 2 ^ 64 < 2 ^ 64 := Int.emod_lt_of_pos x (by decide)
  rw [toSizeT]
  omega

/-- A `size_t` that wraps leaves the remainder just where `2^64` has none. -/
theorem wrapped_iff {a c : Nat} (ha : 2 ^ 64 ≤ a) (hlt : a < 2 ^ 65) :
    a % 2 ^ 64 % c = a % c ↔ c ∣ 2 ^ 64 := by
  have hwrap : a % 2 ^ 64 = a - 2 ^ 64 := by omega
  rw [hwrap]
  constructor
  · intro h
    have hdvd : c ∣ a - (a - 2 ^ 64) := (Nat.modEq_iff_dvd' (Nat.sub_le _ _)).mp h
    rwa [Nat.sub_sub_self ha] at hdvd
  · intro hdvd
    refine (Nat.modEq_iff_dvd' (Nat.sub_le _ _)).mpr ?_
    rwa [Nat.sub_sub_self ha]

section Cells

variable {d : Deque Int} {x : Int} {xs : List Int}

/-- The cells read are those of the elements. -/
theorem readCell_iff (h : Represents d (x :: xs)) (hcap : d.capacity < 2 ^ 63) :
    (∀ i < d.count, d.readCell x i = (d.frontIndex + i) % d.capacity) ↔
      FrontIsIndex d (x :: xs) := by
  have hcount : d.count = xs.length + 1 := h.count_eq
  have hroom := h.count_le
  have hx := toSizeT_lt x
  have hfront : d.frontIndex % d.capacity = d.frontIndex := Nat.mod_eq_of_lt h.front_lt
  have hsum : toSizeT x % d.capacity = d.frontIndex → ∀ i,
      (toSizeT x + i) % d.capacity = (d.frontIndex + i) % d.capacity := by
    intro hfirst i
    rw [← Nat.mod_add_mod, hfirst]
  constructor
  · intro hread y hy
    obtain rfl : x = y := Option.some.inj hy
    have hfirst : toSizeT x % d.capacity = d.frontIndex := by
      have hzero := hread 0 (by omega)
      rwa [readCell, Nat.add_zero, Nat.mod_eq_of_lt hx, Nat.add_zero, hfront] at hzero
    refine ⟨hfirst, ?_⟩
    by_contra hwraps
    rw [not_or] at hwraps
    -- the position at which the sum wraps
    have hlast := hread (2 ^ 64 - toSizeT x) (by omega)
    rw [← hsum hfirst, readCell] at hlast
    exact hwraps.2 ((wrapped_iff (by omega) (by omega)).mp hlast)
  · intro hindex i hi
    obtain ⟨hfirst, hwraps⟩ := hindex x rfl
    rw [readCell, ← hsum hfirst]
    by_cases hsmall : toSizeT x + i < 2 ^ 64
    · rw [Nat.mod_eq_of_lt hsmall]
    · refine (wrapped_iff (Nat.le_of_not_lt hsmall) (by omega)).mpr ?_
      exact hwraps.resolve_left (by omega)

/-- What an iterator gives is in the cell it reads. -/
theorem deref_iff (h : Represents d (x :: xs)) (hcap : d.capacity < 2 ^ 63) {i : Nat}
    (hi : i < (x :: xs).length) :
    d.deref (d.beginIter.advance i) = .ok (x :: xs)[i] d ↔
      d.buffer[d.readCell x i]? = d.buffer[(d.frontIndex + i) % d.capacity]? := by
  have hcount := h.count_eq
  have hroom := h.count_le
  obtain ⟨y, hcell, hderef⟩ := deref_eq h i
  rw [h.cell i hi, List.getElem?_eq_getElem hi, beginIter, advance_pos i (by omega), hderef, hcell]
  constructor
  · intro heq
    injection heq with hy
    rw [hy]
  · intro heq
    rw [Option.some.inj heq]

end Cells

/-- The loop yields what the positions give. -/
theorem yields_iff {d : Deque Int} {xs : List Int} (h : Represents d xs)
    (hcap : d.capacity < 2 ^ 63) :
    Yields d xs ↔ ∀ i (hi : i < xs.length), d.deref (d.beginIter.advance i) = .ok xs[i] d := by
  have hcount := h.count_eq
  have hroom := h.count_le
  refine and_iff_left_of_imp fun hpos => ?_
  refine collect_eq hcount (by show d.count < 2 ^ 63; omega) ?_ d.size 0
    ((Nat.zero_add _).trans hcount)
  intro i hi
  rw [← advance_pos i (by omega)]
  exact hpos i hi

theorem FrontIsIndex.yields {d : Deque Int} {xs : List Int} (hindex : FrontIsIndex d xs)
    (h : Represents d xs) (hcap : d.capacity < 2 ^ 63) : Yields d xs := by
  refine (yields_iff h hcap).mpr fun i hi => ?_
  cases xs with
  | nil => cases hi
  | cons x xs =>
      have hread := (readCell_iff h hcap).mpr hindex i (h.count_eq ▸ hi)
      rw [deref_iff h hcap hi, hread]

/-- Another integer in one cell: of the deque that has it, some list is represented. -/
theorem Represents.setCell {d : Deque Int} {xs : List Int} (h : Represents d xs) (k : Nat)
    (y : Int) : ∃ ys, Represents { d with buffer := d.buffer.set k y } ys := by
  have hlen : (d.buffer.set k y).length = d.capacity := by
    rw [List.length_set, h.buffer_length]
  refine ⟨(List.range d.count).map fun i =>
    (d.buffer.set k y).getD ((d.frontIndex + i) % d.capacity) 0, hlen, ?_, h.count_le, h.front_lt,
    h.back_eq, ?_⟩
  · show d.count = _
    rw [List.length_map, List.length_range]
  · intro i hi
    rw [List.length_map, List.length_range] at hi
    have hlt : (d.frontIndex + i) % d.capacity < (d.buffer.set k y).length := by
      rw [hlen]
      exact Nat.mod_lt _ h.capacity_pos
    show (d.buffer.set k y)[(d.frontIndex + i) % d.capacity]? = _
    rw [List.getElem?_map, List.getElem?_range hi, Option.map_some, List.getD_eq_getElem?_getD,
      List.getElem?_eq_getElem hlt, Option.getD_some]

/-- Where a position reads another cell than its element's, the cells differ in a deque
with the same indices and the same first element. -/
theorem exists_not_yields {d : Deque Int} {x : Int} {xs : List Int} (h : Represents d (x :: xs))
    (hcap : d.capacity < 2 ^ 63) {i : Nat} (hi : i < d.count)
    (hread : d.readCell x i ≠ (d.frontIndex + i) % d.capacity) :
    ∃ d' ys, Represents d' ys ∧ d'.erase = d.erase ∧ ys.head? = some x ∧ ¬ Yields d' ys := by
  have hroom := h.count_le
  have hlt {k : Nat} : k % d.capacity < d.buffer.length := by
    rw [h.buffer_length]
    exact Nat.mod_lt _ h.capacity_pos
  -- one of the two cells is not the first element's; the other keeps its integer
  obtain ⟨k, k', hk, hk', hne, hfirst, hcells⟩ : ∃ k k', k < d.buffer.length ∧
      k' < d.buffer.length ∧ k ≠ k' ∧ k ≠ d.frontIndex ∧
      (k = d.readCell x i ∧ k' = (d.frontIndex + i) % d.capacity ∨
        k' = d.readCell x i ∧ k = (d.frontIndex + i) % d.capacity) := by
    by_cases hcase : d.readCell x i = d.frontIndex
    · exact ⟨_, _, hlt, hlt, hread.symm, fun heq => hread (hcase.trans heq.symm), .inr ⟨rfl, rfl⟩⟩
    · exact ⟨_, _, hlt, hlt, hread, hcase, .inl ⟨rfl, rfl⟩⟩
  obtain ⟨y, hy⟩ : ∃ y : Int, d.buffer[k']? ≠ some y := by
    rw [List.getElem?_eq_getElem hk']
    exact ⟨d.buffer[k'] + 1, fun heq => by have := Option.some.inj heq; omega⟩
  obtain ⟨ys, hrep⟩ := h.setCell k y
  have herase : ({ d with buffer := d.buffer.set k y } : Deque Int).erase = d.erase :=
    erase_eq_iff.mpr ⟨List.length_set, rfl, rfl, rfl, rfl⟩
  have hlen := length_eq_of_erase h hrep herase
  cases ys with
  | nil => cases hlen
  | cons x' ys =>
      have hhead : x' = x := by
        have hnew := hrep.cell 0 (Nat.succ_pos _)
        have hold := h.cell 0 (Nat.succ_pos _)
        rw [Nat.add_zero, Nat.mod_eq_of_lt h.front_lt] at hnew hold
        rw [List.getElem?_set_ne hfirst, hold] at hnew
        exact (Option.some.inj hnew).symm
      subst hhead
      refine ⟨_, x' :: ys, hrep, herase, rfl, fun hyields => ?_⟩
      have hi' : i < (x' :: ys).length := by
        rw [hlen, ← h.count_eq]
        exact hi
      have hsame : (d.buffer.set k y)[d.readCell x' i]? =
          (d.buffer.set k y)[(d.frontIndex + i) % d.capacity]? :=
        (deref_iff hrep hcap hi').mp ((yields_iff hrep hcap).mp hyields i hi')
      have hset : (d.buffer.set k y)[k]? = some y := List.getElem?_set_self hk
      have hkept : (d.buffer.set k y)[k']? = d.buffer[k']? := List.getElem?_set_ne hne
      rcases hcells with ⟨hread', hown⟩ | ⟨hread', hown⟩
      · rw [← hread', ← hown, hset, hkept] at hsame
        exact hy hsame.symm
      · rw [← hread', ← hown, hset, hkept] at hsame
        exact hy hsame

/-- Iterating from `begin()` to `end()` yields the elements, at every position and over
the whole loop, in every deque that is reached with these indices and this first
element, exactly when the first element is its own index. -/
theorem iteration_yields_iff {maxLen c : Nat} (hmax : maxLen < 2 ^ 63) (hc : 1 ≤ c)
    (hle : c ≤ maxLen) {d : Deque Int} {xs : List Int} (h : Reaches maxLen c d xs) :
    (∀ d' ys, Reaches maxLen c d' ys → d'.erase = d.erase → ys.head? = xs.head? →
        Yields d' ys) ↔ FrontIsIndex d xs := by
  have hfits := h.fits hmax hc hle
  have hcap := hfits.capacity_lt hmax
  have hrep := hfits.represents
  constructor
  · intro hall
    cases xs with
    | nil =>
        intro x hx
        cases hx
    | cons x xs =>
        rw [← readCell_iff hrep hcap]
        by_contra hno
        obtain ⟨i, hno⟩ := not_forall.mp hno
        obtain ⟨hi, hread⟩ := Classical.not_imp.mp hno
        obtain ⟨d', ys, hrep', herase, hhead, hbad⟩ := exists_not_yields hrep hcap hi hread
        exact hbad (hall d' ys (h.of_erase hmax hc hle hrep' herase) herase hhead)
  · intro hindex d' ys h' herase hhead
    obtain ⟨-, hcapacity, hcount, hfront, -⟩ := erase_eq_iff.mp herase
    have hindex' : FrontIsIndex d' ys := by
      rw [FrontIsIndex, hhead, hcapacity, hcount, hfront]
      exact hindex
    exact hindex'.yields (h'.fits hmax hc hle).represents (hcapacity ▸ hcap)

/-- 0 and 7 pushed into a new deque: 0 is the first element and its index. -/
theorem iteration_yields_iff_lucky :
    Yields (run (make 10) [.pushBack 0, .pushBack 7]) [0, 7] :=
  have hreached : Reaches (2 ^ 60) 10 (run (make 10 : Deque Int) [.pushBack 0, .pushBack 7])
      [0, 7] :=
    .call (.pushBack 7) (.call (.pushBack 0) .make rfl) rfl
  (@iteration_yields_iff (2 ^ 60) 10 (by decide) (by decide) (by decide) _ _ hreached).mpr
    (by unfold FrontIsIndex; decide) _ _ hreached rfl rfl

/-- `main` pops down to the one element 1, and iterates over the popped 2. -/
theorem main_prints_popped :
    ¬ ∀ ops : List (Op Int), collect (run (make 10) ops) (run (make 10) ops).size ⟨0⟩
      = some (.ok (specRun [] ops)) := by
  intro h
  exact absurd (h [.pushBack 1, .pushBack 2, .pushFront 0, .popBack, .popFront])
    (by decide +kernel)

end CKernel.SenStd.Deque
