/-
# `CKernel.Stl.DequeGrowth` — when the deque of `deque_demo.h` grows

Growth runs `new T[n]`, which throws when the array would be too large: no
array has `2^63` bytes or more.  `maxLen` is the longest array of `T` that
`new` gives.  It throws before `resize` has written anything, so a refused
call leaves the object as it was.

`push_front` grows when `_front_index == _back_index`, which an empty buffer
satisfies as well.

    a call that is not refused keeps the representation        (`Fits.call`)
    so does every run                                          (`Reaches.fits`)
    the capacity after a call follows its growth test          (`step_capacity`)
    it is bounded by the largest size exactly when no
    `push_front` meets an empty deque                          (`capacity_follows_use_iff`)
-/
import CKernel.Stl.Deque

namespace CKernel.SenStd.Deque

variable {T : Type}

/-! ## Calls whose `new` may throw -/

/-- What the call asks `new T[..]` for, if it does. -/
def newRequest (d : Deque T) : Op T → Option Nat
  | .pushFront _ =>
      if d.frontIndex = d.backIndex ∨ d.count = d.capacity then some (Word.mul 64 d.capacity 2)
      else none
  | .pushBack _ => if d.count = d.capacity then some (Word.mul 64 d.capacity 2) else none
  | .popFront => none
  | .popBack => none

/-- `new` throws `std::bad_alloc` (or `std::bad_array_new_length`) in the call. -/
def refused (maxLen : Nat) (d : Deque T) (op : Op T) : Bool :=
  match d.newRequest op with
  | some n => decide (maxLen < n)
  | none => false

/-- The object after the call, however it ended. -/
def after [Inhabited T] (maxLen : Nat) (d : Deque T) (op : Op T) : Deque T :=
  if refused maxLen d op then d else stateOf (step d op)

/-- `d` comes out of calls on a new `deque(c)` that were not refused, and `xs`
is the list they produce.  A cell without an element (fresh from `new`, or
popped) may hold anything. -/
inductive Reaches [Inhabited T] (maxLen c : Nat) : Deque T → List T → Prop where
  | make : Reaches maxLen c (make c) []
  | call {d : Deque T} {xs : List T} (op : Op T) :
      Reaches maxLen c d xs → refused maxLen d op = false →
      Reaches maxLen c (stateOf (step d op)) (specStep xs op)
  | vacant {d : Deque T} {xs : List T} (buf : List T) :
      Reaches maxLen c d xs → buf.length = d.buffer.length →
      (∀ i, i < d.count →
        buf[(d.frontIndex + i) % d.capacity]? = d.buffer[(d.frontIndex + i) % d.capacity]?) →
      Reaches maxLen c { d with buffer := buf } xs

/-! ## The capacity after a call -/

/-- The two indices meet in the empty and in the full buffer. -/
theorem Represents.front_eq_back {d : Deque T} {xs : List T} (h : Represents d xs) :
    d.frontIndex = d.backIndex ↔ d.count = 0 ∨ d.count = d.capacity := by
  have hfront := h.front_lt
  have hle := h.count_le
  rw [h.back_eq, h.slot hle]
  constructor
  · intro heq
    split at heq <;> omega
  · intro hcount
    split <;> omega

/-- `push_front` asks for a larger buffer when the deque is empty or full. -/
theorem newRequest_pushFront {d : Deque T} {xs : List T} (h : Represents d xs)
    (hcap : d.capacity < 2 ^ 63) (value : T) :
    d.newRequest (.pushFront value)
      = if d.count = 0 ∨ d.count = d.capacity then some (d.capacity * 2) else none := by
  have hiff : (d.frontIndex = d.backIndex ∨ d.count = d.capacity)
      ↔ (d.count = 0 ∨ d.count = d.capacity) := by
    rw [h.front_eq_back]
    tauto
  simp only [newRequest, hiff, Word.mul_eq (w := 64) (a := d.capacity) (b := 2) (by omega)]

/-- `push_back` does when it is full. -/
theorem newRequest_pushBack {d : Deque T} (hcap : d.capacity < 2 ^ 63) (value : T) :
    d.newRequest (.pushBack value)
      = if d.count = d.capacity then some (d.capacity * 2) else none := by
  simp only [newRequest, Word.mul_eq (w := 64) (a := d.capacity) (b := 2) (by omega)]

/-- A call that reaches `resize` doubles the capacity, and no other changes it. -/
theorem step_capacity [Inhabited T] {d : Deque T} {xs : List T} (h : Represents d xs)
    (hcap : d.capacity < 2 ^ 63) (op : Op T) :
    (stateOf (step d op)).capacity = (d.newRequest op).getD d.capacity := by
  have hdouble : Word.mul 64 d.capacity 2 = d.capacity * 2 := Word.mul_eq (by omega)
  obtain ⟨d₁, hres, hrep, hcap₁, hfront₁, hroom⟩ := resize_double h hcap
  rw [hdouble] at hres
  cases op with
  | pushFront value =>
      by_cases hgrow : d.frontIndex = d.backIndex ∨ d.count = d.capacity
      · obtain ⟨d₂, hput, _, hcap₂⟩ := putFront_ok hrep (by omega) hroom value
        simp only [step, pushFront, newRequest, if_pos hgrow, hres, Ref.readLate_outside, hput,
          stateOf, Option.getD_some, hdouble, hcap₂, hcap₁]
      · have hfront := h.front_lt
        have hle := h.count_le
        obtain ⟨d₂, hput, _, hcap₂⟩ := putFront_ok h (by omega) (by omega) value
        simp only [step, pushFront, newRequest, if_neg hgrow, Ref.read_outside, hput, stateOf,
          Option.getD_none, hcap₂]
  | pushBack value =>
      by_cases hgrow : d.count = d.capacity
      · obtain ⟨d₂, hput, _, hcap₂⟩ := putBack_ok hrep (by omega) hroom value
        simp only [step, pushBack, newRequest, if_pos hgrow, hres, Ref.readLate_outside, hput,
          stateOf, Option.getD_some, hdouble, hcap₂, hcap₁]
      · have hle := h.count_le
        obtain ⟨d₂, hput, _, hcap₂⟩ := putBack_ok h (by omega) (by omega) value
        simp only [step, pushBack, newRequest, if_neg hgrow, Ref.read_outside, hput, stateOf,
          Option.getD_none, hcap₂]
  | popFront =>
      simp only [step, popFront, newRequest, Option.getD_none]
      split
      · rfl
      · split <;> rfl
  | popBack =>
      simp only [step, popBack, newRequest, Option.getD_none]
      split
      · rfl
      · split <;> rfl

/-- What `new` was asked for in a call that was not refused. -/
theorem newRequest_le {maxLen : Nat} {d : Deque T} {op : Op T} {n : Nat}
    (hok : refused maxLen d op = false) (hreq : d.newRequest op = some n) : n ≤ maxLen := by
  simpa [refused, hreq] using hok

/-- The invariant of every run: the list is represented, in an array that `new` gave. -/
structure Fits (maxLen : Nat) (d : Deque T) (xs : List T) : Prop where
  represents : Represents d xs
  capacity_le : d.capacity ≤ maxLen

namespace Fits

variable {maxLen : Nat} {d : Deque T} {xs : List T}

theorem capacity_lt (h : Fits maxLen d xs) (hmax : maxLen < 2 ^ 63) : d.capacity < 2 ^ 63 :=
  Nat.lt_of_le_of_lt h.capacity_le hmax

/-- A call that is not refused. -/
theorem call [Inhabited T] (h : Fits maxLen d xs) (hmax : maxLen < 2 ^ 63) {op : Op T}
    (hok : refused maxLen d op = false) : Fits maxLen (stateOf (step d op)) (specStep xs op) where
  represents := step_represents h.represents (h.capacity_lt hmax) op
  capacity_le := by
    rw [step_capacity h.represents (h.capacity_lt hmax) op]
    cases hreq : d.newRequest op with
    | none => exact h.capacity_le
    | some n => exact newRequest_le hok hreq

/-- What lies in the cells without an element does not matter. -/
theorem vacant {buf : List T} (h : Fits maxLen d xs) (hlen : buf.length = d.buffer.length)
    (hcell : ∀ i, i < d.count →
      buf[(d.frontIndex + i) % d.capacity]? = d.buffer[(d.frontIndex + i) % d.capacity]?) :
    Fits maxLen { d with buffer := buf } xs where
  capacity_le := h.capacity_le
  represents :=
    { buffer_length := hlen.trans h.represents.buffer_length
      count_eq := h.represents.count_eq
      count_le := h.represents.count_le
      front_lt := h.represents.front_lt
      back_eq := h.represents.back_eq
      cell := by
        intro i hi
        rw [← h.represents.cell i hi]
        exact hcell i (h.represents.count_eq ▸ hi) }

end Fits

/-- Every deque reached is a circular buffer of the list. -/
theorem Reaches.fits [Inhabited T] {maxLen c : Nat} (hmax : maxLen < 2 ^ 63) (hc : 1 ≤ c)
    (hle : c ≤ maxLen) {d : Deque T} {xs : List T} (h : Reaches maxLen c d xs) :
    Fits maxLen d xs := by
  induction h with
  | make => exact ⟨make_represents hc, hle⟩
  | call op _ hok ih => exact ih.call hmax hok
  | vacant buf _ hlen hcell ih => exact ih.vacant hlen hcell

/-! ## The capacity and the largest size -/

/-- From `d` on, with `m` the largest size so far: a call enlarges the buffer
only when it is full, and the capacity stays within `max c (2 * m)`. -/
def CapacityFollowsUse [Inhabited T] (maxLen c : Nat) : Nat → Deque T → List (Op T) → Prop
  | m, d, [] => d.capacity ≤ max c (2 * m)
  | m, d, op :: ops =>
      d.capacity ≤ max c (2 * m) ∧
      (d.capacity < (after maxLen d op).capacity → d.size = d.capacity) ∧
      CapacityFollowsUse maxLen c (max m (after maxLen d op).size) (after maxLen d op) ops

/-- No `push_front` meets an empty deque, unless `new` refuses to double its capacity. -/
def NoPushFrontOnEmpty [Inhabited T] (maxLen : Nat) : Deque T → List (Op T) → Prop
  | _, [] => True
  | d, op :: ops =>
      (∀ value, op = .pushFront value → d.empty = true → maxLen < 2 * d.capacity) ∧
      NoPushFrontOnEmpty maxLen (after maxLen d op) ops

/-- Only a push grows the buffer, and to twice its capacity. -/
theorem newRequest_push {d : Deque T} (hcap : d.capacity < 2 ^ 63) {op : Op T} {n : Nat}
    (hreq : d.newRequest op = some n) :
    n = d.capacity * 2 ∧ ∀ xs, (specStep xs op).length = xs.length + 1 := by
  have hdouble : Word.mul 64 d.capacity 2 = d.capacity * 2 := Word.mul_eq (by omega)
  cases op with
  | pushFront value =>
      simp only [newRequest, hdouble] at hreq
      split at hreq
      · exact ⟨(Option.some.inj hreq).symm, fun xs => List.length_cons⟩
      · cases hreq
  | pushBack value =>
      simp only [newRequest, hdouble] at hreq
      split at hreq
      · exact ⟨(Option.some.inj hreq).symm, fun xs => List.length_append⟩
      · cases hreq
  | popFront => cases hreq
  | popBack => cases hreq

/-- The list after a call, refused or not. -/
theorem Fits.after [Inhabited T] {maxLen : Nat} {d : Deque T} {xs : List T}
    (h : Fits maxLen d xs) (hmax : maxLen < 2 ^ 63) (op : Op T) :
    Fits maxLen (d.after maxLen op) (if refused maxLen d op then xs else specStep xs op) := by
  unfold Deque.after
  cases hok : refused maxLen d op with
  | true => exact h
  | false => exact h.call hmax hok

/-- A call that enlarges the buffer has asked for twice the capacity and got it. -/
theorem after_grows_iff [Inhabited T] {maxLen : Nat} {d : Deque T} {xs : List T}
    (h : Fits maxLen d xs) (hmax : maxLen < 2 ^ 63) (op : Op T) :
    d.capacity < (after maxLen d op).capacity ↔
      d.newRequest op = some (d.capacity * 2) ∧ d.capacity * 2 ≤ maxLen := by
  have hcap := h.capacity_lt hmax
  have hpos := h.represents.capacity_pos
  unfold after
  cases hreq : d.newRequest op with
  | none =>
      have hok : refused maxLen d op = false := by simp [refused, hreq]
      simp [hok, step_capacity h.represents hcap, hreq]
  | some n =>
      obtain ⟨rfl, -⟩ := newRequest_push hcap hreq
      by_cases hle : d.capacity * 2 ≤ maxLen
      · have hok : refused maxLen d op = false := by simpa [refused, hreq] using hle
        simp only [hok, Bool.false_eq_true, if_false, step_capacity h.represents hcap, hreq,
          Option.getD_some]
        exact ⟨fun _ => ⟨trivial, hle⟩, fun _ => by omega⟩
      · have hno : refused maxLen d op = true := by simpa [refused, hreq] using hle
        simp [hno, hle]

/-- One call: it enlarges only a full buffer, unless it is a `push_front` on an
empty deque. -/
theorem grows_when_full_iff [Inhabited T] {maxLen : Nat} {d : Deque T} {xs : List T}
    (h : Fits maxLen d xs) (hmax : maxLen < 2 ^ 63) (op : Op T) :
    (d.capacity < (after maxLen d op).capacity → d.size = d.capacity) ↔
      (∀ value, op = .pushFront value → d.empty = true → maxLen < 2 * d.capacity) := by
  have hcap := h.capacity_lt hmax
  have hpos := h.represents.capacity_pos
  rw [after_grows_iff h hmax]
  cases op with
  | pushFront value =>
      rw [newRequest_pushFront h.represents hcap]
      constructor
      · intro hfull value' _ hempty
        have hzero : d.count = 0 := by simpa [empty] using hempty
        by_contra hle
        have hcount : d.size = d.capacity := hfull ⟨by simp [hzero], by omega⟩
        simp only [size] at hcount
        omega
      · rintro hempty ⟨hreq, hle⟩
        by_contra hne
        have hzero : d.count = 0 := by
          by_contra hzero
          rw [if_neg (by simp only [size] at hne; tauto)] at hreq
          cases hreq
        have := hempty value rfl (by simp [empty, hzero])
        omega
  | pushBack value =>
      rw [newRequest_pushBack hcap]
      constructor
      · intro _ value' hop
        cases hop
      · rintro - ⟨hreq, -⟩
        by_contra hne
        rw [if_neg (show d.count ≠ d.capacity from hne)] at hreq
        cases hreq
  | popFront => simp [newRequest]
  | popBack => simp [newRequest]

/-- A buffer enlarged only when full keeps its bound. -/
theorem after_capacity_le [Inhabited T] {maxLen c m : Nat} {d : Deque T} {xs : List T}
    (h : Fits maxLen d xs) (hmax : maxLen < 2 ^ 63) (op : Op T)
    (hbound : d.capacity ≤ max c (2 * m))
    (hfull : d.capacity < (after maxLen d op).capacity → d.size = d.capacity) :
    (after maxLen d op).capacity ≤ max c (2 * max m (after maxLen d op).size) := by
  by_cases hgrows : d.capacity < (after maxLen d op).capacity
  · obtain ⟨hreq, hle⟩ := (after_grows_iff h hmax op).mp hgrows
    have hok : refused maxLen d op = false := by simpa [refused, hreq] using hle
    have hcapacity : (after maxLen d op).capacity = d.capacity * 2 := by
      simp [after, hok, step_capacity h.represents (h.capacity_lt hmax), hreq]
    have hsize : (after maxLen d op).size = d.capacity + 1 := by
      have hcount := (h.after hmax op).represents.count_eq
      have hold := h.represents.count_eq
      have hnow := hfull hgrows
      simp only [size, hok, Bool.false_eq_true, if_false,
        (newRequest_push (h.capacity_lt hmax) hreq).2] at hcount hnow ⊢
      omega
    omega
  · omega

theorem capacityFollowsUse_iff [Inhabited T] {maxLen c : Nat} (hmax : maxLen < 2 ^ 63) :
    ∀ (ops : List (Op T)) {m : Nat} {d : Deque T} {xs : List T}, Fits maxLen d xs →
      d.capacity ≤ max c (2 * m) →
      (CapacityFollowsUse maxLen c m d ops ↔ NoPushFrontOnEmpty maxLen d ops)
  | [], _, _, _, _, hbound => iff_of_true hbound trivial
  | op :: ops, m, d, xs, h, hbound => by
      have hstep := grows_when_full_iff h hmax op
      constructor
      · rintro ⟨-, hfull, hrest⟩
        exact ⟨hstep.mp hfull, (capacityFollowsUse_iff hmax ops (h.after hmax op)
          (after_capacity_le h hmax op hbound hfull)).mp hrest⟩
      · rintro ⟨hop, hrest⟩
        have hfull := hstep.mpr hop
        exact ⟨hbound, hfull, (capacityFollowsUse_iff hmax ops (h.after hmax op)
          (after_capacity_le h hmax op hbound hfull)).mpr hrest⟩

/-- **The capacity follows the use** — every growth meets a full buffer and the
capacity stays within twice the largest size — exactly in the runs without a
`push_front` on an empty deque (that `new` could enlarge). -/
theorem capacity_follows_use_iff [Inhabited T] {maxLen c : Nat} (hmax : maxLen < 2 ^ 63)
    (hc : 1 ≤ c) (hle : c ≤ maxLen) (ops : List (Op T)) :
    CapacityFollowsUse maxLen c 0 (make c) ops ↔ NoPushFrontOnEmpty maxLen (make c) ops :=
  capacityFollowsUse_iff hmax ops ⟨make_represents hc, hle⟩ (Nat.le_max_left c 0)

theorem capacity_follows_use_iff_two :
    ¬ CapacityFollowsUse (2 ^ 60) 2 0 (make 2 : Deque Nat)
      [.pushBack 1, .popFront, .pushFront 2, .popFront, .pushFront 3] := by
  rw [capacity_follows_use_iff (by decide) (by decide) (by decide)]
  intro h
  exact absurd (h.2.2.1 2 rfl rfl) (by decide)

/-- `push_front`, `pop_front`, over and over: one element at a time, and a
buffer that doubles each time. -/
theorem push_front_grows_empty :
    ¬ ∀ ops : List (Op Nat), CapacityFollowsUse (2 ^ 60) 1 0 (make 1) ops := by
  intro h
  have hrun := h [.pushFront 7, .popFront, .pushFront 7]
  exact absurd (hrun.2.1 (by decide)) (by decide)

end CKernel.SenStd.Deque
