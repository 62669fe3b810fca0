/-
# `CKernel.Stl.Deque` — the circular buffer of `deque_demo.h`

`sen_std::deque<T>` keeps its elements in one array of `_capacity` cells, starting at
`_front_index` and wrapping round; `_back_index` is the first cell past the last
element.  Indices are `size_t`, so `_front_index - 1` wraps at zero and `+ _capacity`
undoes the wrap.

A call returns an `EStateM.Result`: the value or the fault, together with the object as
the call leaves it.  A thrown `std::out_of_range` is a fault the caller may catch and go
on from; an access outside the array, or to an array that is gone, is one no caller can
survive.  A push takes its argument by reference (`Ref`), to an object elsewhere or to a
cell of the deque itself, and reads it behind the `resize` that deletes the old array.

Two members behave differently from their siblings, and both are kept as they are:
`push_front` also grows when `_front_index == _back_index`, which is true of the empty
buffer as well as of the full one, and `resize` sets `_back_index = _count` without
reducing it modulo the new capacity.

    what the object stands for is a list                       (`Represents`)
    a call with a value throws as on the list, or goes on      (`step_ok`)
    and keeps what the object stands for                       (`step_represents`)
-/
import CKernel.Lib.Word

namespace CKernel.SenStd

open EStateM (Result)

/-- How a call can fail. -/
inductive Deque.Fault where
  /-- `throw std::out_of_range(what)` -/
  | outOfRange (what : String)
  /-- an array access outside the allocated cells -/
  | outOfBounds
  /-- a read of the array that `resize` has deleted -/
  | deleted
  /-- `% 0` -/
  | divByZero
  deriving DecidableEq, Repr

/-- The object.  `_buffer` is the list of its cells. -/
structure Deque (T : Type) where
  buffer : List T
  capacity : Nat
  count : Nat
  frontIndex : Nat
  backIndex : Nat
  deriving DecidableEq, Repr

namespace Deque

variable {T : Type}

/-! ## The code -/

/-- `new T[n]`: every cell default-constructed. -/
def newArray [Inhabited T] (n : Nat) : List T := List.replicate n default

/-- `deque(initial_capacity)` -/
def make [Inhabited T] (initialCapacity : Nat) : Deque T :=
  { buffer := newArray initialCapacity, capacity := initialCapacity, count := 0,
    frontIndex := 0, backIndex := 0 }

def empty (d : Deque T) : Bool := d.count == 0

def size (d : Deque T) : Nat := d.count

/-- `a % b` on `size_t`. -/
def umod (a b : Nat) : Except Fault Nat :=
  if b = 0 then .error .divByZero else .ok (a % b)

/-- `buf[i]` -/
def load (buf : List T) (i : Nat) : Except Fault T :=
  match buf[i]? with
  | some x => .ok x
  | none => .error .outOfBounds

/-- `buf[i] = x` -/
def store (buf : List T) (i : Nat) (x : T) : Except Fault (List T) :=
  if i < buf.length then .ok (buf.set i x) else .error .outOfBounds

/-- The copy loop of `resize`, with `n` iterations to go from `i`. -/
def copyLoop (d : Deque T) : Nat → Nat → List T → Except Fault (List T)
  | 0, _, newBuf => .ok newBuf
  | n + 1, i, newBuf => do
      let j ← umod (Word.add 64 d.frontIndex i) d.capacity
      let x ← load d.buffer j
      let newBuf ← store newBuf i x
      d.copyLoop n (i + 1) newBuf

def resize [Inhabited T] (d : Deque T) (newCapacity : Nat) : Result Fault (Deque T) Unit :=
  match d.copyLoop d.count 0 (newArray newCapacity) with
  | .error e => .error e d
  | .ok newBuf =>
      .ok () { d with frontIndex := 0, backIndex := d.count, buffer := newBuf,
                      capacity := newCapacity }

/-- What a `const T&` refers to: an object elsewhere, or a cell of the deque's array, as
the references that `front`, `back` and the iterators give. -/
inductive Ref (T : Type) where
  | outside (value : T)
  | cell (i : Nat)
  deriving DecidableEq, Repr

/-- Its value, read while the array is there. -/
def Ref.read (buf : List T) : Ref T → Except Fault T
  | .outside value => .ok value
  | .cell i => load buf i

/-- Its value, read when the array is deleted. -/
def Ref.readLate : Ref T → Except Fault T
  | .outside value => .ok value
  | .cell _ => .error .deleted

@[simp] theorem Ref.read_outside (buf : List T) (value : T) :
    (Ref.outside value).read buf = .ok value := rfl

@[simp] theorem Ref.readLate_outside (value : T) : (Ref.outside value).readLate = .ok value := rfl

/-- The part of `push_front` after the growth check; `value` is what a read of the
argument gives there. -/
def putFront (d : Deque T) (value : Except Fault T) : Result Fault (Deque T) Unit :=
  match umod (Word.add 64 (Word.sub 64 d.frontIndex 1) d.capacity) d.capacity with
  | .error e => .error e d
  | .ok i =>
      match value with
      | .error e => .error e { d with frontIndex := i }
      | .ok value =>
          match store d.buffer i value with
          | .error e => .error e { d with frontIndex := i }
          | .ok buf => .ok () { d with frontIndex := i, buffer := buf, count := d.count + 1 }

/-- The part of `push_back` after the growth check. -/
def putBack (d : Deque T) (value : Except Fault T) : Result Fault (Deque T) Unit :=
  match value with
  | .error e => .error e d
  | .ok value =>
      match store d.buffer d.backIndex value with
      | .error e => .error e d
      | .ok buf =>
          match umod (Word.add 64 d.backIndex 1) d.capacity with
          | .error e => .error e { d with buffer := buf }
          | .ok i => .ok () { d with buffer := buf, backIndex := i, count := d.count + 1 }

def pushFront [Inhabited T] (d : Deque T) (value : Ref T) : Result Fault (Deque T) Unit :=
  if d.frontIndex = d.backIndex ∨ d.count = d.capacity then
    match d.resize (Word.mul 64 d.capacity 2) with
    | .error e d => .error e d
    | .ok _ d => d.putFront value.readLate
  else d.putFront (value.read d.buffer)

def pushBack [Inhabited T] (d : Deque T) (value : Ref T) : Result Fault (Deque T) Unit :=
  if d.count = d.capacity then
    match d.resize (Word.mul 64 d.capacity 2) with
    | .error e d => .error e d
    | .ok _ d => d.putBack value.readLate
  else d.putBack (value.read d.buffer)

/-- The exception every accessor and `pop` throws on an empty deque. -/
def emptyFault : Fault := .outOfRange "Deque is empty"

def popFront (d : Deque T) : Result Fault (Deque T) Unit :=
  if d.empty then .error emptyFault d
  else
    match umod (Word.add 64 d.frontIndex 1) d.capacity with
    | .error e => .error e d
    | .ok i => .ok () { d with frontIndex := i, count := d.count - 1 }

def popBack (d : Deque T) : Result Fault (Deque T) Unit :=
  if d.empty then .error emptyFault d
  else
    match umod (Word.add 64 (Word.sub 64 d.backIndex 1) d.capacity) d.capacity with
    | .error e => .error e d
    | .ok i => .ok () { d with backIndex := i, count := d.count - 1 }

def front (d : Deque T) : Result Fault (Deque T) T :=
  if d.empty then .error emptyFault d
  else
    match load d.buffer d.frontIndex with
    | .error e => .error e d
    | .ok x => .ok x d

def back (d : Deque T) : Result Fault (Deque T) T :=
  if d.empty then .error emptyFault d
  else
    match umod (Word.add 64 (Word.sub 64 d.backIndex 1) d.capacity) d.capacity with
    | .error e => .error e d
    | .ok i =>
        match load d.buffer i with
        | .error e => .error e d
        | .ok x => .ok x d

/-! ## Calls with values -/

/-- A mutator call; a push is given an object that is not the deque's. -/
inductive Op (T : Type) where
  | pushFront (value : T)
  | pushBack (value : T)
  | popFront
  | popBack
  deriving DecidableEq, Repr

def step [Inhabited T] (d : Deque T) : Op T → Result Fault (Deque T) Unit
  | .pushFront value => d.pushFront (.outside value)
  | .pushBack value => d.pushBack (.outside value)
  | .popFront => d.popFront
  | .popBack => d.popBack

/-- The object a call leaves behind, whether it returned or threw. -/
def stateOf {ε σ α : Type} : Result ε σ α → σ
  | .ok _ s => s
  | .error _ s => s

/-- The object after a sequence of calls, each exception caught. -/
def run [Inhabited T] (d : Deque T) (ops : List (Op T)) : Deque T :=
  ops.foldl (fun d op => stateOf (step d op)) d

/-- The list the deque stands for. -/
def specStep : List T → Op T → List T
  | xs, .pushFront value => value :: xs
  | xs, .pushBack value => xs ++ [value]
  | xs, .popFront => xs.tail
  | xs, .popBack => xs.dropLast

def specRun (xs : List T) (ops : List (Op T)) : List T := ops.foldl specStep xs

/-- The calls that throw on `xs`. -/
def specThrows (xs : List T) : Op T → Bool
  | .pushFront _ | .pushBack _ => false
  | .popFront | .popBack => xs.isEmpty

/-! ## What the object stands for -/

/-- `d` holds `xs`, from the front and round the end of the buffer. -/
structure Represents (d : Deque T) (xs : List T) : Prop where
  buffer_length : d.buffer.length = d.capacity
  count_eq : d.count = xs.length
  count_le : d.count ≤ d.capacity
  front_lt : d.frontIndex < d.capacity
  back_eq : d.backIndex = (d.frontIndex + d.count) % d.capacity
  cell : ∀ i, i < xs.length → d.buffer[(d.frontIndex + i) % d.capacity]? = xs[i]?

/-- The cells `_buffer[(_front_index + i) % _capacity]` for `i < _count`. -/
def contents (d : Deque T) : List (Option T) :=
  (List.range d.count).map fun i => d.buffer[(d.frontIndex + i) % d.capacity]?

namespace Represents

variable {d : Deque T} {xs : List T}

theorem capacity_pos (h : Represents d xs) : 0 < d.capacity :=
  Nat.zero_lt_of_lt h.front_lt

theorem back_lt (h : Represents d xs) : d.backIndex < d.capacity := by
  rw [h.back_eq]
  exact Nat.mod_lt _ h.capacity_pos

/-- A physical index `i` cells after the front wraps at most once. -/
theorem slot (h : Represents d xs) {i : Nat} (hi : i ≤ d.capacity) :
    (d.frontIndex + i) % d.capacity
      = if d.frontIndex + i < d.capacity then d.frontIndex + i
        else d.frontIndex + i - d.capacity :=
  Word.mod_wrap (by have := h.front_lt; omega)

theorem contents_eq (h : Represents d xs) : d.contents = xs.map some := by
  apply List.ext_getElem?
  intro i
  simp only [contents, List.getElem?_map, h.count_eq]
  by_cases hi : i < xs.length
  · simp [hi, h.cell i hi]
  · simp [hi]

theorem empty_iff (h : Represents d xs) : d.empty = true ↔ xs = [] := by
  simp [empty, h.count_eq]

theorem not_empty (h : Represents d xs) (hne : xs ≠ []) : d.empty = false := by
  rw [← Bool.not_eq_true, h.empty_iff]
  exact hne

end Represents

theorem umod_ok {a c : Nat} (h : 0 < c) : umod a c = .ok (a % c) :=
  if_neg (Nat.ne_of_gt h)

theorem store_ok {buf : List T} {i : Nat} {x : T} (h : i < buf.length) :
    store buf i x = .ok (buf.set i x) :=
  if_pos h

theorem load_ok {buf : List T} {i : Nat} {x : T} (h : buf[i]? = some x) :
    load buf i = .ok x := by
  simp only [load, h]

/-- `Deque(n)` is the empty list. -/
theorem make_represents [Inhabited T] {n : Nat} (h : 0 < n) :
    Represents (make n : Deque T) [] where
  buffer_length := List.length_replicate
  count_eq := rfl
  count_le := Nat.zero_le n
  front_lt := h
  back_eq := (Nat.zero_mod n).symm
  cell := fun _ hi => absurd hi (Nat.not_lt_zero _)

/-! ## Growth -/

/-- The copy loop lays the remaining `n` elements behind the `i` already copied. -/
theorem copyLoop_eq {d : Deque T} {xs : List T} (h : Represents d xs)
    (hcap : d.capacity < 2 ^ 63) :
    ∀ (n i : Nat) (rest : List T), i + n = xs.length → n ≤ rest.length →
      d.copyLoop n i (xs.take i ++ rest) = .ok (xs ++ rest.drop n) := by
  intro n
  induction n with
  | zero =>
      intro i rest hin _
      have hall : xs.take i = xs := List.take_of_length_le (by omega)
      simp [copyLoop, hall]
  | succ n ih =>
      intro i rest hin hrest
      have hi : i < xs.length := by omega
      have hlen := h.count_le
      have hfront := h.front_lt
      rw [h.count_eq] at hlen
      match rest, hrest with
      | y :: rest, hrest =>
          have hadd : Word.add 64 d.frontIndex i = d.frontIndex + i :=
            Word.add_eq (by omega)
          have hload : load d.buffer ((d.frontIndex + i) % d.capacity) = .ok xs[i] :=
            load_ok ((h.cell i hi).trans (List.getElem?_eq_getElem hi))
          have htake : (xs.take i).length = i := List.length_take_of_le (Nat.le_of_lt hi)
          have hstore : store (xs.take i ++ y :: rest) i xs[i]
              = .ok (xs.take (i + 1) ++ rest) := by
            rw [store_ok (by simp [htake]), List.set_append_right i _ (by omega), htake,
              Nat.sub_self, List.set_cons_zero, List.take_succ_eq_append_getElem hi,
              List.append_assoc, List.singleton_append]
          simp only [copyLoop, hadd, umod_ok h.capacity_pos, hload, hstore, bind, Except.bind]
          rw [ih (i + 1) rest (by omega) (by simpa using hrest), List.drop_succ_cons]

/-- `resize` to a capacity with room keeps the list and puts its front at cell 0. -/
theorem resize_ok [Inhabited T] {d : Deque T} {xs : List T} (h : Represents d xs)
    (hcap : d.capacity < 2 ^ 63) {n : Nat} (hn : xs.length ≤ n) :
    d.resize n = .ok ()
      { buffer := xs ++ List.replicate (n - xs.length) default, capacity := n,
        count := d.count, frontIndex := 0, backIndex := d.count } := by
  have hcopy := copyLoop_eq h hcap xs.length 0 (newArray n) (Nat.zero_add _)
    (by simpa [newArray] using hn)
  simp only [List.take_zero, List.nil_append] at hcopy
  rw [resize, h.count_eq, hcopy]
  simp [newArray]

/-- A resized deque with a cell to spare represents the same list. -/
theorem resize_represents [Inhabited T] {d : Deque T} {xs : List T} (h : Represents d xs)
    (hcap : d.capacity < 2 ^ 63) {n : Nat} (hn : xs.length < n) :
    ∃ d', d.resize n = .ok () d' ∧ Represents d' xs ∧ d'.capacity = n ∧
      d'.frontIndex = 0 := by
  refine ⟨_, resize_ok h hcap (Nat.le_of_lt hn), ?_, rfl, rfl⟩
  constructor
  · show (xs ++ List.replicate (n - xs.length) default).length = n
    rw [List.length_append, List.length_replicate]
    omega
  · exact h.count_eq
  · show d.count ≤ n
    rw [h.count_eq]
    exact Nat.le_of_lt hn
  · exact Nat.zero_lt_of_lt hn
  · show d.count = (0 + d.count) % n
    rw [Nat.zero_add, Nat.mod_eq_of_lt (h.count_eq ▸ hn)]
  · intro i hi
    show (xs ++ List.replicate (n - xs.length) default)[(0 + i) % n]? = xs[i]?
    rw [Nat.zero_add, Nat.mod_eq_of_lt (Nat.lt_trans hi hn), List.getElem?_append_left hi]

/-! ## The mutators on a represented list -/

theorem putFront_ok {d : Deque T} {xs : List T} (h : Represents d xs)
    (hcap : d.frontIndex + d.capacity ≤ 2 ^ 64) (hroom : d.count < d.capacity) (value : T) :
    ∃ d', d.putFront (.ok value) = .ok () d' ∧ Represents d' (value :: xs) ∧
      d'.capacity = d.capacity := by
  have hfront := h.front_lt
  have hpos := h.capacity_pos
  have hcount := h.count_eq
  obtain ⟨i, hi⟩ : ∃ i, i = (d.frontIndex + d.capacity - 1) % d.capacity := ⟨_, rfl⟩
  have hlt : i < d.capacity := hi ▸ Nat.mod_lt _ hpos
  have hwrap : i = if d.frontIndex = 0 then d.capacity - 1 else d.frontIndex - 1 := by
    rw [hi, Word.mod_wrap (by omega)]
    split <;> split <;> omega
  have hidx : Word.add 64 (Word.sub 64 d.frontIndex 1) d.capacity
      = d.frontIndex + d.capacity - 1 := Word.add_sub_one hpos (by omega)
  -- the cell `k + 1` after the new front is the cell `k` after the old one
  have hshift : ∀ k, k ≤ d.count → (i + (k + 1)) % d.capacity
      = (d.frontIndex + k) % d.capacity := by
    intro k hk
    rw [h.slot (by omega), Word.mod_wrap (a := i + (k + 1)) (by omega), hwrap]
    split <;> split <;> split <;> omega
  refine ⟨{ d with frontIndex := i, buffer := d.buffer.set i value, count := d.count + 1 },
    ?_, ?_, rfl⟩
  · simp only [putFront, hidx, umod_ok hpos, ← hi, store_ok (h.buffer_length ▸ hlt)]
  · constructor
    · show (d.buffer.set i value).length = d.capacity
      rw [List.length_set, h.buffer_length]
    · show d.count + 1 = (value :: xs).length
      rw [List.length_cons, hcount]
    · exact hroom
    · exact hlt
    · show d.backIndex = (i + (d.count + 1)) % d.capacity
      rw [hshift _ (Nat.le_refl _), h.back_eq]
    · intro k hk
      show (d.buffer.set i value)[(i + k) % d.capacity]? = (value :: xs)[k]?
      cases k with
      | zero =>
          rw [Nat.add_zero, Nat.mod_eq_of_lt hlt,
            List.getElem?_set_self (h.buffer_length ▸ hlt), List.getElem?_cons_zero]
      | succ k =>
          have hk' : k < xs.length := by simpa using hk
          have hne : i ≠ (d.frontIndex + k) % d.capacity := by
            rw [h.slot (by omega), hwrap]
            split <;> split <;> omega
          rw [hshift k (by omega), List.getElem?_set_ne hne, h.cell k hk',
            List.getElem?_cons_succ]

theorem putBack_ok {d : Deque T} {xs : List T} (h : Represents d xs)
    (hcap : d.capacity < 2 ^ 64) (hroom : d.count < d.capacity) (value : T) :
    ∃ d', d.putBack (.ok value) = .ok () d' ∧ Represents d' (xs ++ [value]) ∧
      d'.capacity = d.capacity := by
  have hback := h.back_lt
  have hpos := h.capacity_pos
  have hcount := h.count_eq
  have hadd : Word.add 64 d.backIndex 1 = d.backIndex + 1 := Word.add_eq (by omega)
  refine ⟨{ d with buffer := d.buffer.set d.backIndex value,
                   backIndex := (d.backIndex + 1) % d.capacity, count := d.count + 1 },
    ?_, ?_, rfl⟩
  · simp only [putBack, store_ok (h.buffer_length ▸ hback), hadd, umod_ok hpos]
  · constructor
    · show (d.buffer.set d.backIndex value).length = d.capacity
      rw [List.length_set, h.buffer_length]
    · show d.count + 1 = (xs ++ [value]).length
      simp [hcount]
    · exact hroom
    · exact h.front_lt
    · show (d.backIndex + 1) % d.capacity = (d.frontIndex + (d.count + 1)) % d.capacity
      rw [h.back_eq, Nat.mod_add_mod, Nat.add_assoc]
    · intro k hk
      show (d.buffer.set d.backIndex value)[(d.frontIndex + k) % d.capacity]?
        = (xs ++ [value])[k]?
      by_cases hlast : k < xs.length
      · have hne : d.backIndex ≠ (d.frontIndex + k) % d.capacity := by
          rw [h.back_eq, h.slot (by omega), h.slot (by omega)]
          split <;> split <;> omega
        rw [List.getElem?_set_ne hne, h.cell k hlast, List.getElem?_append_left hlast]
      · have hk' : k = d.count := by
          simp only [List.length_append, List.length_singleton] at hk
          omega
        rw [hk', ← h.back_eq, List.getElem?_set_self (h.buffer_length ▸ hback), hcount,
          List.getElem?_concat_length]

/-- Both pushes grow the same way: to twice the capacity, with cells to spare. -/
theorem resize_double [Inhabited T] {d : Deque T} {xs : List T} (h : Represents d xs)
    (hcap : d.capacity < 2 ^ 63) :
    ∃ d', d.resize (Word.mul 64 d.capacity 2) = .ok () d' ∧ Represents d' xs ∧
      d'.capacity = d.capacity * 2 ∧ d'.frontIndex = 0 ∧ d'.count < d'.capacity := by
  have hpos := h.capacity_pos
  have hle := h.count_le
  have hcount := h.count_eq
  rw [Word.mul_eq (by omega)]
  obtain ⟨d', hres, hrep, hcap', hfront⟩ :=
    resize_represents h hcap (n := d.capacity * 2) (by omega)
  have hcount' := hrep.count_eq
  exact ⟨d', hres, hrep, hcap', hfront, by omega⟩

theorem pushFront_ok [Inhabited T] {d : Deque T} {xs : List T} (h : Represents d xs)
    (hcap : d.capacity < 2 ^ 63) (value : T) :
    ∃ d', d.pushFront (.outside value) = .ok () d' ∧ Represents d' (value :: xs) := by
  have hfront := h.front_lt
  by_cases hgrow : d.frontIndex = d.backIndex ∨ d.count = d.capacity
  · obtain ⟨d₁, hres, hrep, hcap₁, hfront₁, hroom⟩ := resize_double h hcap
    obtain ⟨d₂, hput, hrep₂, _⟩ := putFront_ok hrep (by omega) hroom value
    exact ⟨d₂, by simp only [pushFront, if_pos hgrow, hres, Ref.readLate_outside, hput], hrep₂⟩
  · have hle := h.count_le
    obtain ⟨d₂, hput, hrep₂, _⟩ := putFront_ok h (by omega) (by omega) value
    exact ⟨d₂, by simp only [pushFront, if_neg hgrow, Ref.read_outside, hput], hrep₂⟩

theorem pushBack_ok [Inhabited T] {d : Deque T} {xs : List T} (h : Represents d xs)
    (hcap : d.capacity < 2 ^ 63) (value : T) :
    ∃ d', d.pushBack (.outside value) = .ok () d' ∧ Represents d' (xs ++ [value]) := by
  by_cases hgrow : d.count = d.capacity
  · obtain ⟨d₁, hres, hrep, hcap₁, _, hroom⟩ := resize_double h hcap
    obtain ⟨d₂, hput, hrep₂, _⟩ := putBack_ok hrep (by omega) hroom value
    exact ⟨d₂, by simp only [pushBack, if_pos hgrow, hres, Ref.readLate_outside, hput], hrep₂⟩
  · have hle := h.count_le
    obtain ⟨d₂, hput, hrep₂, _⟩ := putBack_ok h (by omega) (by omega) value
    exact ⟨d₂, by simp only [pushBack, if_neg hgrow, Ref.read_outside, hput], hrep₂⟩

theorem popFront_nil {d : Deque T} (h : Represents d []) :
    d.popFront = .error emptyFault d :=
  if_pos (h.empty_iff.mpr rfl)

theorem popBack_nil {d : Deque T} (h : Represents d []) :
    d.popBack = .error emptyFault d :=
  if_pos (h.empty_iff.mpr rfl)

theorem popFront_cons {d : Deque T} {x : T} {xs : List T} (h : Represents d (x :: xs))
    (hcap : d.capacity < 2 ^ 63) :
    ∃ d', d.popFront = .ok () d' ∧ Represents d' xs := by
  have hfront := h.front_lt
  have hle := h.count_le
  have hcount : d.count = xs.length + 1 := h.count_eq
  have hadd : Word.add 64 d.frontIndex 1 = d.frontIndex + 1 := Word.add_eq (by omega)
  have hshift : ∀ k, ((d.frontIndex + 1) % d.capacity + k) % d.capacity
      = (d.frontIndex + (k + 1)) % d.capacity := by
    intro k
    rw [Nat.mod_add_mod, Nat.add_assoc, Nat.add_comm 1 k]
  refine ⟨{ d with frontIndex := (d.frontIndex + 1) % d.capacity, count := d.count - 1 }, ?_, ?_⟩
  · simp [popFront, h.not_empty (List.cons_ne_nil x xs), hadd, umod_ok h.capacity_pos]
  · constructor
    · exact h.buffer_length
    · show d.count - 1 = xs.length
      omega
    · show d.count - 1 ≤ d.capacity
      omega
    · exact Nat.mod_lt _ h.capacity_pos
    · show d.backIndex = ((d.frontIndex + 1) % d.capacity + (d.count - 1)) % d.capacity
      rw [hshift, h.back_eq, Nat.sub_add_cancel (by omega)]
    · intro k hk
      show d.buffer[((d.frontIndex + 1) % d.capacity + k) % d.capacity]? = xs[k]?
      rw [hshift, h.cell (k + 1) (by simpa using hk), List.getElem?_cons_succ]

/-- The index `_back_index - 1 + _capacity` names: the last occupied cell. -/
theorem last_slot {d : Deque T} {xs : List T} (h : Represents d xs) (hne : xs ≠ [])
    (hcap : d.capacity < 2 ^ 63) :
    Word.add 64 (Word.sub 64 d.backIndex 1) d.capacity = d.backIndex + d.capacity - 1 ∧
      (d.backIndex + d.capacity - 1) % d.capacity
        = (d.frontIndex + (xs.length - 1)) % d.capacity := by
  have hfront := h.front_lt
  have hback := h.back_lt
  have hle := h.count_le
  have hcount := h.count_eq
  have hpos : 0 < xs.length := List.length_pos_iff.mpr hne
  refine ⟨Word.add_sub_one h.capacity_pos (by omega), ?_⟩
  have hslot := h.back_eq
  rw [h.slot hle] at hslot
  rw [h.slot (by omega), Word.mod_wrap (by omega)]
  split at hslot <;> split <;> split <;> omega

theorem popBack_ok {d : Deque T} {xs : List T} (h : Represents d xs) (hne : xs ≠ [])
    (hcap : d.capacity < 2 ^ 63) :
    ∃ d', d.popBack = .ok () d' ∧ Represents d' xs.dropLast := by
  have hle := h.count_le
  have hcount := h.count_eq
  have hpos : 0 < xs.length := List.length_pos_iff.mpr hne
  obtain ⟨hidx, hslot⟩ := last_slot h hne hcap
  refine ⟨{ d with backIndex := (d.frontIndex + (xs.length - 1)) % d.capacity,
                   count := d.count - 1 }, ?_, ?_⟩
  · simp [popBack, h.not_empty hne, hidx, umod_ok h.capacity_pos, hslot]
  · constructor
    · exact h.buffer_length
    · show d.count - 1 = xs.dropLast.length
      rw [List.length_dropLast, hcount]
    · show d.count - 1 ≤ d.capacity
      omega
    · exact h.front_lt
    · show (d.frontIndex + (xs.length - 1)) % d.capacity
        = (d.frontIndex + (d.count - 1)) % d.capacity
      rw [hcount]
    · intro k hk
      rw [List.length_dropLast] at hk
      show d.buffer[(d.frontIndex + k) % d.capacity]? = xs.dropLast[k]?
      rw [h.cell k (by omega), List.getElem?_dropLast, if_pos hk]

/-! ## The accessors -/

theorem front_nil {d : Deque T} (h : Represents d []) : d.front = .error emptyFault d :=
  if_pos (h.empty_iff.mpr rfl)

theorem back_nil {d : Deque T} (h : Represents d []) : d.back = .error emptyFault d :=
  if_pos (h.empty_iff.mpr rfl)

theorem front_ok {d : Deque T} {xs : List T} (h : Represents d xs) (hne : xs ≠ []) :
    d.front = .ok (xs.head hne) d := by
  have hcell := h.cell 0 (List.length_pos_iff.mpr hne)
  rw [Nat.add_zero, Nat.mod_eq_of_lt h.front_lt, ← List.head?_eq_getElem?,
    List.head?_eq_some_head hne] at hcell
  simp [front, h.not_empty hne, load_ok hcell]

theorem back_ok {d : Deque T} {xs : List T} (h : Represents d xs) (hne : xs ≠ [])
    (hcap : d.capacity < 2 ^ 63) : d.back = .ok (xs.getLast hne) d := by
  have hpos : 0 < xs.length := List.length_pos_iff.mpr hne
  obtain ⟨hidx, hslot⟩ := last_slot h hne hcap
  have hcell := h.cell (xs.length - 1) (by omega)
  rw [← List.getLast?_eq_getElem?, List.getLast?_eq_some_getLast hne] at hcell
  simp [back, h.not_empty hne, hidx, umod_ok h.capacity_pos, hslot, load_ok hcell]

/-! ## One call -/

/-- One call: it throws exactly where the list model says so, then leaves the
object as it was, and otherwise it returns with the list model's next list. -/
theorem step_ok [Inhabited T] {d : Deque T} {xs : List T} (h : Represents d xs)
    (hcap : d.capacity < 2 ^ 63) (op : Op T) :
    (specThrows xs op = true ∧ step d op = .error emptyFault d ∧ specStep xs op = xs) ∨
    (specThrows xs op = false ∧ ∃ d', step d op = .ok () d' ∧ Represents d' (specStep xs op)) := by
  cases op with
  | pushFront value => exact .inr ⟨rfl, pushFront_ok h hcap value⟩
  | pushBack value => exact .inr ⟨rfl, pushBack_ok h hcap value⟩
  | popFront =>
      cases xs with
      | nil => exact .inl ⟨rfl, popFront_nil h, rfl⟩
      | cons x xs => exact .inr ⟨rfl, popFront_cons h hcap⟩
  | popBack =>
      cases xs with
      | nil => exact .inl ⟨rfl, popBack_nil h, rfl⟩
      | cons x xs => exact .inr ⟨rfl, popBack_ok h (List.cons_ne_nil x xs) hcap⟩

theorem step_represents [Inhabited T] {d : Deque T} {xs : List T} (h : Represents d xs)
    (hcap : d.capacity < 2 ^ 63) (op : Op T) :
    Represents (stateOf (step d op)) (specStep xs op) := by
  rcases step_ok h hcap op with ⟨_, hstep, hspec⟩ | ⟨_, d', hstep, hrep⟩
  · rw [hstep, hspec]
    exact h
  · rw [hstep]
    exact hrep

end Deque

end CKernel.SenStd
