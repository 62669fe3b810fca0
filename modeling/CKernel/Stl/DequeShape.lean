/-
# `CKernel.Stl.DequeShape` — what the calls do without looking at the elements

The calls move elements and never look at them: the indices, the capacity and what is
asked of `new` follow from those before (`step_erase`).  So of two deques with the same
indices, whatever the elements, both are reached by the same calls or neither is.

    a call does the same to the deque without its elements     (`step_erase`)
    every list of the length fits the indices                  (`Represents.refill`)
    deques with the indices of one that is reached are reached (`Reaches.of_erase`)
-/
import CKernel.Stl.DequeGrowth

namespace CKernel.SenStd.Deque

open EStateM (Result)

variable {T : Type}

/-! ## Without the elements -/

/-- The deque without its elements. -/
def erase (d : Deque T) : Deque Unit := { d with buffer := d.buffer.map fun _ => () }

@[simp] theorem erase_buffer (d : Deque T) : d.erase.buffer = d.buffer.map fun _ => () := rfl

@[simp] theorem erase_capacity (d : Deque T) : d.erase.capacity = d.capacity := rfl

@[simp] theorem erase_count (d : Deque T) : d.erase.count = d.count := rfl

@[simp] theorem erase_frontIndex (d : Deque T) : d.erase.frontIndex = d.frontIndex := rfl

@[simp] theorem erase_backIndex (d : Deque T) : d.erase.backIndex = d.backIndex := rfl

@[simp] theorem erase_empty (d : Deque T) : d.erase.empty = d.empty := rfl

def Op.erase : Op T → Op Unit
  | .pushFront _ => .pushFront ()
  | .pushBack _ => .pushBack ()
  | .popFront => .popFront
  | .popBack => .popBack

def eraseResult : Result Fault (Deque T) Unit → Result Fault (Deque Unit) Unit
  | .ok a d => .ok a d.erase
  | .error e d => .error e d.erase

theorem load_erase (buf : List T) (i : Nat) :
    load (buf.map fun _ => ()) i = (load buf i).map fun _ => () := by
  rw [load, load, List.getElem?_map]
  cases buf[i]? <;> rfl

theorem store_erase (buf : List T) (i : Nat) (x : T) :
    store (buf.map fun _ => ()) i () = (store buf i x).map (List.map fun _ => ()) := by
  rw [store, store, List.length_map]
  split
  · rw [Except.map, List.map_set]
  · rfl

theorem copyLoop_erase (d : Deque T) (n i : Nat) (newBuf : List T) :
    d.erase.copyLoop n i (newBuf.map fun _ => ()) =
      (d.copyLoop n i newBuf).map (List.map fun _ => ()) := by
  induction n generalizing i newBuf with
  | zero => rfl
  | succ n ih =>
      simp only [copyLoop, erase_frontIndex, erase_capacity, erase_buffer, bind, Except.bind]
      cases umod (Word.add 64 d.frontIndex i) d.capacity with
      | error e => rfl
      | ok j =>
          simp only [load_erase]
          cases load d.buffer j with
          | error e => rfl
          | ok x =>
              simp only [Except.map, store_erase newBuf i x]
              cases store newBuf i x with
              | error e => rfl
              | ok newBuf => exact ih (i + 1) newBuf

theorem resize_erase [Inhabited T] (d : Deque T) (n : Nat) :
    d.erase.resize n = eraseResult (d.resize n) := by
  have hnew : (newArray n : List Unit) = (newArray n : List T).map fun _ => () := by
    rw [newArray, newArray, List.map_replicate]
  simp only [resize, erase_count, hnew, copyLoop_erase]
  cases d.copyLoop d.count 0 (newArray n) with
  | error e => rfl
  | ok newBuf => rfl

theorem putFront_erase (d : Deque T) (value : T) :
    d.erase.putFront (.ok ()) = eraseResult (d.putFront (.ok value)) := by
  simp only [putFront, erase_frontIndex, erase_capacity, erase_buffer, store_erase _ _ value]
  cases umod (Word.add 64 (Word.sub 64 d.frontIndex 1) d.capacity) d.capacity with
  | error e => rfl
  | ok i =>
      cases hstore : store d.buffer i value <;> simp only [hstore, Except.map] <;> rfl

theorem putBack_erase (d : Deque T) (value : T) :
    d.erase.putBack (.ok ()) = eraseResult (d.putBack (.ok value)) := by
  simp only [putBack, erase_backIndex, erase_capacity, erase_buffer, store_erase _ _ value]
  cases store d.buffer d.backIndex value with
  | error e => rfl
  | ok buf =>
      simp only [Except.map]
      cases umod (Word.add 64 d.backIndex 1) d.capacity <;> rfl

/-- A call does to the indices what it does without the elements. -/
theorem step_erase [Inhabited T] (d : Deque T) (op : Op T) :
    step d.erase op.erase = eraseResult (step d op) := by
  cases op with
  | pushFront value =>
      simp only [step, Op.erase, pushFront, erase_frontIndex, erase_backIndex, erase_count,
        erase_capacity, Ref.readLate_outside, Ref.read_outside, resize_erase]
      split
      · cases d.resize (Word.mul 64 d.capacity 2) with
        | ok _ d' => exact putFront_erase d' value
        | error e d' => rfl
      · exact putFront_erase d value
  | pushBack value =>
      simp only [step, Op.erase, pushBack, erase_count, erase_capacity, Ref.readLate_outside,
        Ref.read_outside, resize_erase]
      split
      · cases d.resize (Word.mul 64 d.capacity 2) with
        | ok _ d' => exact putBack_erase d' value
        | error e d' => rfl
      · exact putBack_erase d value
  | popFront =>
      show d.erase.popFront = eraseResult d.popFront
      by_cases hempty : d.empty = true
      · rw [popFront, popFront, if_pos hempty, if_pos ((erase_empty d).trans hempty)]
        rfl
      · rw [popFront, popFront, if_neg hempty, if_neg (erase_empty d ▸ hempty), erase_frontIndex,
          erase_capacity]
        cases umod (Word.add 64 d.frontIndex 1) d.capacity <;> rfl
  | popBack =>
      show d.erase.popBack = eraseResult d.popBack
      by_cases hempty : d.empty = true
      · rw [popBack, popBack, if_pos hempty, if_pos ((erase_empty d).trans hempty)]
        rfl
      · rw [popBack, popBack, if_neg hempty, if_neg (erase_empty d ▸ hempty), erase_backIndex,
          erase_capacity]
        cases umod (Word.add 64 (Word.sub 64 d.backIndex 1) d.capacity) d.capacity <;> rfl

theorem refused_erase (maxLen : Nat) (d : Deque T) (op : Op T) :
    refused maxLen d.erase op.erase = refused maxLen d op := by
  cases op <;> rfl

theorem stateOf_erase [Inhabited T] (d : Deque T) (op : Op T) :
    (stateOf (step d op)).erase = stateOf (step d.erase op.erase) := by
  rw [step_erase]
  cases step d op <;> rfl

/-! ## Other elements -/

section Shapes

variable {d d' : Deque T} {xs ys : List T}

/-- The same indices, and arrays of the same length. -/
theorem erase_eq_iff : d'.erase = d.erase ↔
    d'.buffer.length = d.buffer.length ∧ d'.capacity = d.capacity ∧ d'.count = d.count ∧
      d'.frontIndex = d.frontIndex ∧ d'.backIndex = d.backIndex := by
  constructor
  · intro h
    have hlen := congrArg (fun d : Deque Unit => d.buffer.length) h
    simp only [erase_buffer, List.length_map] at hlen
    exact ⟨hlen, congrArg (fun d : Deque Unit => d.capacity) h,
      congrArg (fun d : Deque Unit => d.count) h, congrArg (fun d : Deque Unit => d.frontIndex) h,
      congrArg (fun d : Deque Unit => d.backIndex) h⟩
  · rintro ⟨hlen, hcapacity, hcount, hfront, hback⟩
    have hbuf : (d'.buffer.map fun _ => ()) = d.buffer.map fun _ => () := by
      rw [List.map_const', List.map_const', hlen]
    simp only [erase, hbuf, hcapacity, hcount, hfront, hback]

theorem length_eq_of_erase (h : Represents d xs) (h' : Represents d' ys)
    (herase : d'.erase = d.erase) : ys.length = xs.length := by
  obtain ⟨-, -, hcount, -⟩ := erase_eq_iff.mp herase
  exact h'.count_eq.symm.trans (hcount.trans h.count_eq)

/-- The array that holds `ys` from the front on, and `filler` elsewhere. -/
def layout (d : Deque T) (ys : List T) (filler : T) : List T :=
  (List.range d.capacity).map fun k => ys.getD ((k + d.capacity - d.frontIndex) % d.capacity) filler

/-- Any list of the same length fits the indices. -/
theorem Represents.refill (h : Represents d xs) (hlen : ys.length = xs.length) (filler : T) :
    ({ d with buffer := d.layout ys filler } : Deque T).erase = d.erase ∧
      Represents { d with buffer := d.layout ys filler } ys := by
  have hlength : (d.layout ys filler).length = d.capacity := by
    rw [layout, List.length_map, List.length_range]
  refine ⟨erase_eq_iff.mpr ⟨hlength.trans h.buffer_length.symm, rfl, rfl, rfl, rfl⟩, ?_⟩
  refine ⟨hlength, h.count_eq.trans hlen.symm, h.count_le, h.front_lt, h.back_eq, ?_⟩
  intro i hi
  have hfront := h.front_lt
  have hle : i < d.capacity := by
    have hcount := h.count_eq
    have hroom := h.count_le
    omega
  have hslot := h.slot (Nat.le_of_lt hle)
  have hlt : (d.frontIndex + i) % d.capacity < d.capacity := Nat.mod_lt _ h.capacity_pos
  have hback : ((d.frontIndex + i) % d.capacity + d.capacity - d.frontIndex) % d.capacity = i := by
    rw [Word.mod_wrap (by omega), hslot]
    split <;> split <;> omega
  show (d.layout ys filler)[(d.frontIndex + i) % d.capacity]? = ys[i]?
  rw [layout, List.getElem?_map, List.getElem?_range hlt, Option.map_some, hback,
    List.getD_eq_getElem?_getD, List.getElem?_eq_getElem hi, Option.getD_some]

/-- The same indices and the same list: only cells without an element differ. -/
theorem Reaches.of_represents [Inhabited T] {maxLen c : Nat} (h : Reaches maxLen c d xs)
    (hd : Represents d xs) (hd' : Represents d' xs) (herase : d'.erase = d.erase) :
    Reaches maxLen c d' xs := by
  obtain ⟨hlen, hcapacity, hcount, hfront, hback⟩ := erase_eq_iff.mp herase
  have heq : d' = { d with buffer := d'.buffer } := by
    cases d'
    simp only at hcapacity hcount hfront hback
    simp only [hcapacity, hcount, hfront, hback]
  rw [heq]
  refine h.vacant d'.buffer hlen fun i hi => ?_
  have hi' : i < xs.length := hd.count_eq ▸ hi
  rw [hd.cell i hi', ← hd'.cell i hi', hfront, hcapacity]

/-- A call of the same kind on another list comes to any list of the length. -/
theorem exists_before [Inhabited T] (op : Op T) (hlen : ys.length = (specStep xs op).length) :
    ∃ ys₀ op', ys₀.length = xs.length ∧ op'.erase = op.erase ∧ specStep ys₀ op' = ys := by
  cases op with
  | pushFront value =>
      cases ys with
      | nil => cases hlen
      | cons y ys => exact ⟨ys, .pushFront y, Nat.succ.inj hlen, rfl, rfl⟩
  | pushBack value =>
      rw [specStep, List.length_append] at hlen
      rcases List.eq_nil_or_concat' ys with rfl | ⟨ys₀, y, rfl⟩
      · cases hlen
      · rw [List.length_append] at hlen
        exact ⟨ys₀, .pushBack y, Nat.add_right_cancel hlen, rfl, rfl⟩
  | popFront =>
      cases xs with
      | nil => exact ⟨ys, .popFront, hlen, rfl, by rw [List.eq_nil_of_length_eq_zero hlen]; rfl⟩
      | cons x xs => exact ⟨default :: ys, .popFront, congrArg Nat.succ hlen, rfl, rfl⟩
  | popBack =>
      cases xs with
      | nil => exact ⟨ys, .popBack, hlen, rfl, by rw [List.eq_nil_of_length_eq_zero hlen]; rfl⟩
      | cons x xs =>
          rw [specStep, List.length_dropLast, List.length_cons, Nat.add_sub_cancel] at hlen
          refine ⟨ys ++ [default], .popBack, ?_, rfl, List.dropLast_concat⟩
          rw [List.length_append, hlen]
          rfl

/-- Calls that reach a deque reach any other with its indices. -/
theorem Reaches.of_erase [Inhabited T] {maxLen c : Nat} (hmax : maxLen < 2 ^ 63) (hc : 1 ≤ c)
    (hle : c ≤ maxLen) (h : Reaches maxLen c d xs) (hd' : Represents d' ys)
    (herase : d'.erase = d.erase) : Reaches maxLen c d' ys := by
  induction h generalizing d' ys with
  | make =>
      have hlen := length_eq_of_erase (make_represents hc) hd' herase
      obtain rfl := List.eq_nil_of_length_eq_zero hlen
      exact Reaches.make.of_represents (make_represents hc) hd' herase
  | @call d xs op hreach hok ih =>
      have hrep := (hreach.fits hmax hc hle).represents
      have hafter := ((hreach.call op hok).fits hmax hc hle).represents
      obtain ⟨ys₀, op', hlen, hop, rfl⟩ :=
        exists_before op (length_eq_of_erase hafter hd' herase)
      obtain ⟨herase₀, hrep₀⟩ := hrep.refill hlen default
      have hreach₀ := ih hrep₀ herase₀
      have hok₀ : refused maxLen { d with buffer := d.layout ys₀ default } op' = false := by
        rw [← refused_erase, herase₀, hop, refused_erase]
        exact hok
      have hcall := hreach₀.call op' hok₀
      refine hcall.of_represents (hcall.fits hmax hc hle).represents hd' ?_
      rw [herase, stateOf_erase, stateOf_erase, herase₀, hop]
  | vacant buf hreach hlen hcell ih =>
      exact ih hd' (herase.trans (erase_eq_iff.mpr ⟨hlen, rfl, rfl, rfl, rfl⟩))

end Shapes

end CKernel.SenStd.Deque
