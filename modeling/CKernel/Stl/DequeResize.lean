/-
# `CKernel.Stl.DequeResize` — calling `resize` from outside

`resize(new_capacity)` is public.  It lays the elements from cell 0 on and sets
`_back_index = _count`; with `new_capacity == size()` that is `_capacity`, a
cell that does not exist.  The index is put right by the next `pop_back` and
by the next growth, and `push_front` and `pop_front` do not look at it:
only a `push_back` into a buffer that is not full writes there.

    `resize(size())` leaves the back index unreduced           (`resize_full_unreduced`)
    some calls keep it so, some put it right, one writes
    outside                                                    (`Unreduced.behaves_iff`)
    the deque stays usable with a cell to spare, or when no
    `push_back` comes too early; and no push dangles           (`resize_usable_iff`)
-/
import CKernel.Stl.DequeCalls

namespace CKernel.SenStd.Deque

open EStateM (Result)
open Run (Along)

variable {T : Type}

/-! ## Behaving as a list -/

/-- What the members read off `d` is the list `xs`. -/
structure Shows (d : Deque T) (xs : List T) : Prop where
  cells : d.buffer.length = d.capacity
  contents_eq : d.contents = xs.map some
  size_eq : d.size = xs.length
  empty_throws : xs = [] → d.front = .error emptyFault d ∧ d.back = .error emptyFault d
  ends : ∀ hne : xs ≠ [], d.front = .ok (xs.head hne) d ∧ d.back = .ok (xs.getLast hne) d

theorem Represents.shows {d : Deque T} {xs : List T} (h : Represents d xs)
    (hcap : d.capacity < 2 ^ 63) : Shows d xs where
  cells := h.buffer_length
  contents_eq := h.contents_eq
  size_eq := h.count_eq
  empty_throws := by
    intro hnil
    rw [hnil] at h
    exact ⟨front_nil h, back_nil h⟩
  ends := by
    intro hne
    exact ⟨front_ok h hne, back_ok h hne hcap⟩

/-! ## A back index that was not reduced -/

/-- The circular buffer of `xs`, up to the back index: it is the capacity
where it should be 0. -/
structure Unreduced (d : Deque T) (xs : List T) : Prop where
  back_eq : d.backIndex = d.capacity
  reduced : Represents { d with backIndex := 0 } xs

/-- `resize(size())`. -/
theorem resize_full_unreduced [Inhabited T] {d : Deque T} {xs : List T} (h : Represents d xs)
    (hcap : d.capacity < 2 ^ 63) (hne : 1 ≤ xs.length) :
    ∃ d', d.resize xs.length = .ok () d' ∧ Unreduced d' xs ∧ d'.capacity = xs.length := by
  refine ⟨_, resize_ok h hcap (Nat.le_refl _), ⟨h.count_eq, ?_⟩, rfl⟩
  constructor
  · show (xs ++ List.replicate (xs.length - xs.length) default).length = xs.length
    simp
  · exact h.count_eq
  · exact Nat.le_of_eq h.count_eq
  · exact hne
  · show 0 = (0 + d.count) % xs.length
    rw [Nat.zero_add, h.count_eq, Nat.mod_self]
  · intro i hi
    show (xs ++ List.replicate (xs.length - xs.length) default)[(0 + i) % xs.length]? = xs[i]?
    rw [Nat.zero_add, Nat.mod_eq_of_lt hi, List.getElem?_append_left hi]

/-! ## What does not look at the back index -/

/-- A call's result with the object changed by `f`. -/
def onState {α : Type} (f : Deque T → Deque T) : Result Fault (Deque T) α → Result Fault (Deque T) α
  | .ok a s => .ok a (f s)
  | .error e s => .error e (f s)

theorem popFront_setBack (d : Deque T) (b : Nat) :
    ({ d with backIndex := b } : Deque T).popFront
      = onState (fun s => { s with backIndex := b }) d.popFront := by
  have hsame : ({ d with backIndex := b } : Deque T).empty = d.empty := rfl
  cases hempty : d.empty with
  | true => simp only [popFront, hsame, hempty, if_true, onState]
  | false =>
      simp only [popFront, hsame, hempty, Bool.false_eq_true, if_false]
      cases umod (Word.add 64 d.frontIndex 1) d.capacity <;> rfl

theorem front_setBack (d : Deque T) (b : Nat) :
    ({ d with backIndex := b } : Deque T).front
      = onState (fun s => { s with backIndex := b }) d.front := by
  have hsame : ({ d with backIndex := b } : Deque T).empty = d.empty := rfl
  cases hempty : d.empty with
  | true => simp only [front, hsame, hempty, if_true, onState]
  | false =>
      simp only [front, hsame, hempty, Bool.false_eq_true, if_false]
      cases load d.buffer d.frontIndex <;> rfl

theorem putFront_setBack (d : Deque T) (b : Nat) (value : Except Fault T) :
    ({ d with backIndex := b } : Deque T).putFront value
      = onState (fun s => { s with backIndex := b }) (d.putFront value) := by
  simp only [putFront]
  split
  · rfl
  · split
    · rfl
    · split <;> rfl

theorem copyLoop_setBack (d : Deque T) (b : Nat) :
    ∀ (n i : Nat) (newBuf : List T),
      ({ d with backIndex := b } : Deque T).copyLoop n i newBuf = d.copyLoop n i newBuf := by
  intro n
  induction n with
  | zero =>
      intro i newBuf
      rfl
  | succ n ih =>
      intro i newBuf
      simp only [copyLoop, ih]

theorem resize_setBack [Inhabited T] {d d' : Deque T} {n : Nat} (b : Nat)
    (h : d.resize n = .ok () d') : ({ d with backIndex := b } : Deque T).resize n = .ok () d' := by
  simp only [resize, copyLoop_setBack] at h ⊢
  split at h
  · cases h
  · exact h

/-- A push into a full buffer writes into the copy. -/
theorem push_of_full [Inhabited T] {d d₁ : Deque T} (hfull : d.count = d.capacity)
    (hres : d.resize (Word.mul 64 d.capacity 2) = .ok () d₁) (value : Ref T) :
    d.pushFront value = d₁.putFront value.readLate ∧
      d.pushBack value = d₁.putBack value.readLate := by
  constructor
  · simp only [pushFront, if_pos (Or.inr hfull), hres]
  · simp only [pushBack, if_pos hfull, hres]

/-! ## The calls on an unreduced index -/

namespace Unreduced

variable {d : Deque T} {xs : List T}

/-- The index of the last element comes out the same from the capacity as from 0. -/
theorem last_index (h : Unreduced d xs) (hcap : d.capacity < 2 ^ 63) :
    umod (Word.add 64 (Word.sub 64 d.backIndex 1) d.capacity) d.capacity
      = umod (Word.add 64 (Word.sub 64 0 1) d.capacity) d.capacity := by
  have hpos : 0 < d.capacity := h.reduced.capacity_pos
  have hmod : (d.capacity + d.capacity - 1) % d.capacity = (0 + d.capacity - 1) % d.capacity := by
    rw [Word.mod_wrap (by omega), Word.mod_wrap (by omega)]
    split <;> split <;> omega
  rw [h.back_eq, Word.add_sub_one hpos (by omega), Word.add_sub_one hpos (by omega),
    umod_ok hpos, umod_ok hpos, hmod]

/-- `pop_back` puts the index right. -/
theorem popBack_eq (h : Unreduced d xs) (hcap : d.capacity < 2 ^ 63) (hne : xs ≠ []) :
    d.popBack = ({ d with backIndex := 0 } : Deque T).popBack := by
  have hempty : d.empty = false := h.reduced.not_empty hne
  have hempty₀ : ({ d with backIndex := 0 } : Deque T).empty = false := hempty
  obtain ⟨hidx, -⟩ := last_slot h.reduced hne hcap
  have hpos : 0 < d.capacity := h.reduced.capacity_pos
  simp only [popBack, hempty, hempty₀, Bool.false_eq_true, if_false, h.last_index hcap]
  rw [umod_ok hpos]

theorem shows (h : Unreduced d xs) (hcap : d.capacity < 2 ^ 63) : Shows d xs where
  cells := h.reduced.buffer_length
  contents_eq := h.reduced.contents_eq
  size_eq := h.reduced.count_eq
  empty_throws := by
    intro hnil
    have hempty : d.empty = true := h.reduced.empty_iff.mpr hnil
    exact ⟨if_pos hempty, if_pos hempty⟩
  ends := by
    intro hne
    have hempty : d.empty = false := h.reduced.not_empty hne
    have hempty₀ : ({ d with backIndex := 0 } : Deque T).empty = false := hempty
    have hfront : d.front = _ := front_setBack { d with backIndex := 0 } d.backIndex
    rw [front_ok h.reduced hne] at hfront
    have hback := back_ok h.reduced hne hcap
    simp only [back, hempty, hempty₀, Bool.false_eq_true, if_false, h.last_index hcap] at hback ⊢
    refine ⟨hfront, ?_⟩
    rw [umod_ok h.reduced.capacity_pos] at hback ⊢
    simp only at hback ⊢
    split at hback
    · cases hback
    · injection hback with hx
      rw [hx]

/-- `pop_front` leaves the index where it is. -/
theorem popFront_cons [Inhabited T] {x : T} (h : Unreduced d (x :: xs))
    (hcap : d.capacity < 2 ^ 63) :
    ∃ d', d.popFront = .ok () d' ∧ Unreduced d' xs ∧ d'.capacity = d.capacity := by
  have hset : d.popFront = _ := popFront_setBack { d with backIndex := 0 } d.backIndex
  have hcapacity := step_capacity h.reduced hcap .popFront
  obtain ⟨r, hpop, hrep⟩ := Deque.popFront_cons h.reduced hcap
  rw [hpop] at hset
  simp only [step, hpop, stateOf, newRequest, Option.getD_none] at hcapacity
  have hback : r.backIndex = 0 := by
    simp only [popFront] at hpop
    split at hpop
    · cases hpop
    · split at hpop
      · cases hpop
      · injection hpop with _ hr
        rw [← hr]
  refine ⟨_, hset, ⟨h.back_eq.trans hcapacity.symm, ?_⟩, hcapacity⟩
  show Represents { r with backIndex := 0 } xs
  rw [← hback]
  exact hrep

/-- So does a `push_front` that has a cell to spare: the indices do not meet. -/
theorem pushFront_room [Inhabited T] (h : Unreduced d xs) (hcap : d.capacity < 2 ^ 63)
    (hroom : d.count < d.capacity) (value : T) :
    ∃ d', d.pushFront (.outside value) = .ok () d' ∧ Unreduced d' (value :: xs) ∧
      d'.capacity = d.capacity := by
  have hfront : d.frontIndex < d.capacity := h.reduced.front_lt
  have hback := h.back_eq
  have hgrow : ¬ (d.frontIndex = d.backIndex ∨ d.count = d.capacity) := by omega
  have hset : d.putFront (.ok value) = _ :=
    putFront_setBack { d with backIndex := 0 } d.backIndex (.ok value)
  obtain ⟨r, hput, hrep, hcapacity⟩ := putFront_ok h.reduced
    (show d.frontIndex + d.capacity ≤ 2 ^ 64 by omega) hroom value
  rw [hput] at hset
  have hzero : r.backIndex = 0 := by
    simp only [putFront] at hput
    split at hput
    · cases hput
    · split at hput
      · cases hput
      · injection hput with _ hr
        rw [← hr]
  refine ⟨_, (if_neg hgrow).trans hset, ⟨hback.trans hcapacity.symm, ?_⟩, hcapacity⟩
  show Represents { r with backIndex := 0 } (value :: xs)
  rw [← hzero]
  exact hrep

/-- A push that meets the full buffer copies it, and `resize` puts the index right. -/
theorem push_full [Inhabited T] (h : Unreduced d xs) (hcap : d.capacity < 2 ^ 63)
    (hfull : d.count = d.capacity) (value : Ref T) :
    d.pushFront value = ({ d with backIndex := 0 } : Deque T).pushFront value ∧
    d.pushBack value = ({ d with backIndex := 0 } : Deque T).pushBack value := by
  obtain ⟨d₁, hres, -⟩ := resize_double h.reduced hcap
  have hres' : d.resize (Word.mul 64 d.capacity 2) = .ok () d₁ :=
    resize_setBack (d := { d with backIndex := 0 }) d.backIndex hres
  obtain ⟨hfront, hback⟩ := push_of_full (d := { d with backIndex := 0 }) hfull hres value
  obtain ⟨hfront', hback'⟩ := push_of_full hfull hres' value
  exact ⟨hfront'.trans hfront.symm, hback'.trans hback.symm⟩

/-- A `push_back` with a cell to spare writes behind the array. -/
theorem pushBack_room [Inhabited T] (h : Unreduced d xs) (hroom : d.count < d.capacity)
    (value : T) : d.pushBack (.outside value) = .error .outOfBounds d := by
  have hout : ¬ d.backIndex < d.buffer.length := by
    have hlen : d.buffer.length = d.capacity := h.reduced.buffer_length
    have hback := h.back_eq
    omega
  simp only [pushBack, if_neg (Nat.ne_of_lt hroom), Ref.read_outside, putBack, store, if_neg hout]

/-- Only a full buffer is copied: the indices never meet. -/
theorem refused_push (h : Unreduced d xs) (hcap : d.capacity < 2 ^ 63) (maxLen : Nat) (value : T) :
    refused maxLen d (.pushFront value)
        = decide (d.count = d.capacity ∧ maxLen < d.capacity * 2) ∧
      refused maxLen d (.pushBack value)
        = decide (d.count = d.capacity ∧ maxLen < d.capacity * 2) := by
  have hfront : d.frontIndex < d.capacity := h.reduced.front_lt
  have hback := h.back_eq
  have hapart : d.frontIndex ≠ d.backIndex := by omega
  have hdouble : Word.mul 64 d.capacity 2 = d.capacity * 2 := Word.mul_eq (by omega)
  simp only [refused, newRequest, hapart, false_or, hdouble]
  by_cases hfull : d.count = d.capacity
  · simp [hfull]
  · simp [hfull]

/-- The same for the reduced index, when the buffer is full. -/
theorem refused_push_reduced (h : Unreduced d xs) (hcap : d.capacity < 2 ^ 63)
    (hfull : d.count = d.capacity) (maxLen : Nat) (value : T) :
    refused maxLen ({ d with backIndex := 0 } : Deque T) (.pushFront value)
        = decide (maxLen < d.capacity * 2) ∧
      refused maxLen ({ d with backIndex := 0 } : Deque T) (.pushBack value)
        = decide (maxLen < d.capacity * 2) := by
  have hfront := newRequest_pushFront h.reduced hcap value
  have hback := newRequest_pushBack (d := { d with backIndex := 0 }) hcap value
  rw [if_pos (Or.inr hfull)] at hfront
  rw [if_pos hfull] at hback
  simp only [refused, hfront, hback, and_self]

/-- A call that is made, and comes out as on the list. -/
theorem made_iff [Inhabited T] {maxLen : Nat} (h : Unreduced d xs) (hcap : d.capacity < 2 ^ 63)
    {op : Op T} (hok : refused maxLen d op = false) (hlist : AsOnList d xs op.call)
    (ops : List (Op T)) :
    Behaves Shows maxLen d xs ((op :: ops).map Op.call) ↔
      Behaves Shows maxLen (stateOf (step d op)) (specStep xs op) (ops.map Op.call) := by
  rw [behaves_cons_call]
  simp only [h.shows hcap, hok, Bool.false_eq_true, if_false, hlist, true_and]

theorem returns_iff [Inhabited T] {maxLen : Nat} {d' : Deque T} (h : Unreduced d xs)
    (hcap : d.capacity < 2 ^ 63) {op : Op T} (hok : refused maxLen d op = false)
    (hret : specThrows xs op = false) (hstep : step d op = .ok () d') (ops : List (Op T)) :
    Behaves Shows maxLen d xs ((op :: ops).map Op.call) ↔
      Behaves Shows maxLen d' (specStep xs op) (ops.map Op.call) := by
  rw [h.made_iff hcap hok (asOnList_call.mpr (.inr ⟨hret, d', hstep⟩)), hstep]
  rfl

/-- A pop of the empty deque throws and changes nothing. -/
theorem pop_nil_iff [Inhabited T] {maxLen : Nat} (h : Unreduced d []) (hcap : d.capacity < 2 ^ 63)
    {op : Op T} (hpop : op = .popFront ∨ op = .popBack) (ops : List (Op T)) :
    Behaves Shows maxLen d [] ((op :: ops).map Op.call) ↔
      Behaves Shows maxLen d [] (ops.map Op.call) := by
  have hempty : d.empty = true := h.reduced.empty_iff.mpr rfl
  rcases hpop with rfl | rfl
  · have hthrow : step d .popFront = .error emptyFault d := if_pos hempty
    rw [h.made_iff hcap rfl (asOnList_call.mpr (.inl ⟨rfl, hthrow⟩)), hthrow]
    rfl
  · have hthrow : step d .popBack = .error emptyFault d := if_pos hempty
    rw [h.made_iff hcap rfl (asOnList_call.mpr (.inl ⟨rfl, hthrow⟩)), hthrow]
    rfl

/-- A call that does the same on the reduced index leaves a deque that behaves
as its list for good. -/
theorem settles [Inhabited T] {maxLen : Nat} (hmax : maxLen < 2 ^ 63) (h : Unreduced d xs)
    (hle : d.capacity ≤ maxLen) {op : Op T} (hret : specThrows xs op = false)
    (hok : refused maxLen ({ d with backIndex := 0 } : Deque T) op = false)
    (hsame : step d op = step ({ d with backIndex := 0 } : Deque T) op) (ops : List (Op T)) :
    AsOnList d xs op.call ∧
      Behaves Shows maxLen (stateOf (step d op)) (specStep xs op) (ops.map Op.call) := by
  have hfits : Fits maxLen ({ d with backIndex := 0 } : Deque T) xs := ⟨h.reduced, hle⟩
  have hrest := hfits.call hmax hok
  refine ⟨asOnList_call.mpr (.inr ⟨hret, ?_⟩), hsame ▸ hrest.behaves hmax Represents.shows⟩
  rcases step_ok h.reduced (hfits.capacity_lt hmax) op with ⟨hthrow, -⟩ | ⟨-, d', hstep, -⟩
  · exact absurd (hret.symm.trans hthrow) Bool.noConfusion
  · exact ⟨d', hsame.trans hstep⟩

/-- A push into the full buffer: refused, or the index is put right. -/
theorem full_push_iff [Inhabited T] {maxLen : Nat} (hmax : maxLen < 2 ^ 63) (h : Unreduced d xs)
    (hle : d.capacity ≤ maxLen) {op : Op T} (hret : specThrows xs op = false)
    (hrefused : refused maxLen d op = decide (maxLen < d.capacity * 2))
    (hok : refused maxLen ({ d with backIndex := 0 } : Deque T) op
      = decide (maxLen < d.capacity * 2))
    (hsame : step d op = step ({ d with backIndex := 0 } : Deque T) op) (ops : List (Op T)) :
    Behaves Shows maxLen d xs ((op :: ops).map Op.call) ↔
      (maxLen < d.capacity * 2 → Behaves Shows maxLen d xs (ops.map Op.call)) := by
  have hshows := h.shows (Nat.lt_of_le_of_lt hle hmax)
  rw [behaves_cons_call]
  by_cases hnew : maxLen < d.capacity * 2
  · simp only [hshows, true_and, hrefused, hnew, decide_true, if_true, forall_const]
  · have hgiven : refused maxLen ({ d with backIndex := 0 } : Deque T) op = false := by
      rw [hok, decide_eq_false hnew]
    have hrest := h.settles hmax hle hret hgiven hsame ops
    simp only [hshows, true_and, hrefused, hnew, decide_false, Bool.false_eq_true, if_false]
    exact iff_of_true hrest (fun habs => absurd habs id)

end Unreduced

/-! ## Runs after a `resize` -/

/-- `resize(n)` on `n` elements, then `calls`, with `k` elements left so far:
before the index is put right, by a `pop_back` or a growth, no `push_back`
meets a cell to spare. -/
def NoPushBackTooEarly (maxLen n : Nat) : Nat → List (Call T) → Prop
  | _, [] => True
  | k, .popFront :: calls => NoPushBackTooEarly maxLen n (k - 1) calls
  | k, .popBack :: calls => k = 0 → NoPushBackTooEarly maxLen n k calls
  | k, .pushFront _ :: calls =>
      if k = n then maxLen < n * 2 → NoPushBackTooEarly maxLen n k calls
      else NoPushBackTooEarly maxLen n (k + 1) calls
  | k, .pushBack _ :: calls => k = n ∧ (maxLen < n * 2 → NoPushBackTooEarly maxLen n k calls)

instance decNoPushBackTooEarly (maxLen n : Nat) :
    ∀ (ops : List (Call T)) (k : Nat), Decidable (NoPushBackTooEarly maxLen n k ops)
  | [], _ => isTrue trivial
  | .popFront :: ops, k => decNoPushBackTooEarly maxLen n ops (k - 1)
  | .popBack :: ops, k =>
      have := decNoPushBackTooEarly maxLen n ops k
      inferInstanceAs (Decidable (k = 0 → NoPushBackTooEarly maxLen n k ops))
  | .pushFront _ :: ops, k =>
      have := decNoPushBackTooEarly maxLen n ops k
      have := decNoPushBackTooEarly maxLen n ops (k + 1)
      inferInstanceAs (Decidable (if k = n then maxLen < n * 2 → NoPushBackTooEarly maxLen n k ops
        else NoPushBackTooEarly maxLen n (k + 1) ops))
  | .pushBack _ :: ops, k =>
      have := decNoPushBackTooEarly maxLen n ops k
      inferInstanceAs (Decidable (k = n ∧ (maxLen < n * 2 → NoPushBackTooEarly maxLen n k ops)))

/-- What the references stand for plays no part in it. -/
theorem noPushBackTooEarly_resolve [Inhabited T] {maxLen n : Nat} {calls : List (Call T)}
    {d : Deque T} {k : Nat} :
    NoPushBackTooEarly maxLen n k ((resolve maxLen d calls).map Op.call) ↔
      NoPushBackTooEarly maxLen n k calls := by
  induction calls generalizing d k with
  | nil => rfl
  | cons c calls ih =>
      cases c with
      | popFront => exact ih
      | popBack => exact forall_congr' fun _ => ih
      | pushFront value =>
          simp only [resolve, Call.op, List.map_cons, Op.call, NoPushBackTooEarly, ih]
      | pushBack value =>
          simp only [resolve, Call.op, List.map_cons, Op.call, NoPushBackTooEarly, ih]

/-- The run lemma for the unreduced index. -/
theorem Unreduced.behaves_iff [Inhabited T] {maxLen : Nat} (hmax : maxLen < 2 ^ 63)
    {ops : List (Op T)} {d : Deque T} {xs : List T} (h : Unreduced d xs)
    (hle : d.capacity ≤ maxLen) :
    Behaves Shows maxLen d xs (ops.map Op.call) ↔
      NoPushBackTooEarly maxLen d.capacity xs.length (ops.map Op.call) := by
  induction ops generalizing d xs with
  | nil => exact iff_of_true (h.shows (Nat.lt_of_le_of_lt hle hmax)) trivial
  | cons op ops ih =>
      have hcap : d.capacity < 2 ^ 63 := Nat.lt_of_le_of_lt hle hmax
      have hcount : d.count = xs.length := h.reduced.count_eq
      have hroom : d.count ≤ d.capacity := h.reduced.count_le
      cases op with
      | popFront =>
          show _ ↔ NoPushBackTooEarly maxLen d.capacity (xs.length - 1) (ops.map Op.call)
          cases xs with
          | nil =>
              rw [h.pop_nil_iff hcap (.inl rfl)]
              exact ih h hle
          | cons x xs =>
              obtain ⟨d', hpop, hrest, hcapacity⟩ := h.popFront_cons hcap
              have hstep : step d .popFront = .ok () d' := hpop
              rw [h.returns_iff hcap rfl rfl hstep, ← hcapacity]
              exact ih hrest (hcapacity.trans_le hle)
      | popBack =>
          show _ ↔ (xs.length = 0 →
            NoPushBackTooEarly maxLen d.capacity xs.length (ops.map Op.call))
          cases xs with
          | nil =>
              rw [h.pop_nil_iff hcap (.inr rfl), ih h hle]
              exact ⟨fun hearly _ => hearly, fun hearly => hearly rfl⟩
          | cons x xs =>
              have hsame : step d .popBack = step _ .popBack :=
                h.popBack_eq hcap (List.cons_ne_nil x xs)
              have hrest := h.settles hmax hle rfl rfl hsame ops
              rw [h.made_iff hcap rfl hrest.1]
              exact iff_of_true hrest.2 fun hzero => absurd hzero (Nat.succ_ne_zero _)
      | pushFront value =>
          show _ ↔ if xs.length = d.capacity then maxLen < d.capacity * 2 →
              NoPushBackTooEarly maxLen d.capacity xs.length (ops.map Op.call)
            else NoPushBackTooEarly maxLen d.capacity (xs.length + 1) (ops.map Op.call)
          obtain ⟨hrefused, -⟩ := h.refused_push hcap maxLen value
          by_cases hfull : d.count = d.capacity
          · simp only [hfull, true_and] at hrefused
            obtain ⟨hok, -⟩ := h.refused_push_reduced hcap hfull maxLen value
            rw [h.full_push_iff hmax hle rfl hrefused hok
              (h.push_full hcap hfull (.outside value)).1 ops, ih h hle,
              if_pos (hcount.symm.trans hfull)]
          · simp only [hfull, false_and, decide_false] at hrefused
            obtain ⟨d', hpush, hrest, hcapacity⟩ := h.pushFront_room hcap (by omega) value
            rw [h.returns_iff hcap hrefused rfl hpush, if_neg (by omega), ← hcapacity]
            exact ih hrest (hcapacity.trans_le hle)
      | pushBack value =>
          show _ ↔ xs.length = d.capacity ∧ (maxLen < d.capacity * 2 →
            NoPushBackTooEarly maxLen d.capacity xs.length (ops.map Op.call))
          obtain ⟨-, hrefused⟩ := h.refused_push hcap maxLen value
          by_cases hfull : d.count = d.capacity
          · simp only [hfull, true_and] at hrefused
            obtain ⟨-, hok⟩ := h.refused_push_reduced hcap hfull maxLen value
            rw [h.full_push_iff hmax hle rfl hrefused hok
              (h.push_full hcap hfull (.outside value)).2 ops, ih h hle]
            exact (and_iff_right (hcount.symm.trans hfull)).symm
          · simp only [hfull, false_and, decide_false] at hrefused
            have hstep : step d (.pushBack value) = .error .outOfBounds d :=
              h.pushBack_room (by omega) value
            refine iff_of_false ?_ fun hearly => hfull (hcount.trans hearly.1)
            intro hbehaves
            obtain ⟨-, hrun⟩ := behaves_cons_call.mp hbehaves
            rw [hrefused, if_neg Bool.false_ne_true] at hrun
            rcases asOnList_call.mp hrun.1 with ⟨hthrow, -⟩ | ⟨-, d', hret⟩
            · cases hthrow
            · cases hstep.symm.trans hret

end CKernel.SenStd.Deque
