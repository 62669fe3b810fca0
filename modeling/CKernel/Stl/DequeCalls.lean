/-
# `CKernel.Stl.DequeCalls` — runs of the deque of `deque_demo.h`

The mutators as a program calls them: a push is given a reference, perhaps to a cell of
the deque's own array (`d.push_back(d.front())`).  Such a push means the value that the
cell holds when it is made (`Call.op`); one that grows reads the cell when `resize` has
deleted the array (`Dangles`).  What else is done with a reference is the caller's: it is
to a cell that is there when the call is made (`Refers`).

    a push that dangles does not return                        (`invoke_dangles`)
    any other call is the one with the value                   (`invoke_eq`)
    a run is that of the values, if no push dangles            (`behaves_iff_resolve`)
    from any initial capacity the deque refines the list,
    exactly when no push dangles                               (`deque_refines_list_iff`)
-/
import CKernel.Stl.DequeGrowth
import CKernel.Lib.Run

namespace CKernel.SenStd.Deque

open EStateM (Result)
open Run (Along)

variable {T : Type}

/-! ## Calls with references -/

/-- A mutator call. -/
inductive Call (T : Type) where
  | pushFront (value : Ref T)
  | pushBack (value : Ref T)
  | popFront
  | popBack
  deriving DecidableEq, Repr

def invoke [Inhabited T] (d : Deque T) : Call T → Result Fault (Deque T) Unit
  | .pushFront value => d.pushFront value
  | .pushBack value => d.pushBack value
  | .popFront => d.popFront
  | .popBack => d.popBack

/-- What a reference stands for when a call is made. -/
def Ref.value [Inhabited T] (d : Deque T) : Ref T → T
  | .outside value => value
  | .cell i => d.buffer.getD i default

/-- The call with the value that its reference stands for. -/
def Call.op [Inhabited T] (d : Deque T) : Call T → Op T
  | .pushFront value => .pushFront (value.value d)
  | .pushBack value => .pushBack (value.value d)
  | .popFront => .popFront
  | .popBack => .popBack

/-- The call of a push with an object that is not the deque's. -/
def Op.call : Op T → Call T
  | .pushFront value => .pushFront (.outside value)
  | .pushBack value => .pushBack (.outside value)
  | .popFront => .popFront
  | .popBack => .popBack

/-- The cell that the call refers to. -/
def Call.ownCell : Call T → Option Nat
  | .pushFront (.cell i) => some i
  | .pushBack (.cell i) => some i
  | _ => none

/-- A cell that the call refers to is there. -/
def Refers (d : Deque T) (c : Call T) : Prop := ∀ i ∈ c.ownCell, i < d.buffer.length

/-- The call grows the buffer, and is given one of its cells. -/
def Dangles [Inhabited T] (maxLen : Nat) (d : Deque T) (c : Call T) : Prop :=
  c.ownCell.isSome = true ∧ (d.newRequest (c.op d)).isSome = true ∧
    refused maxLen d (c.op d) = false

instance (d : Deque T) (c : Call T) : Decidable (Refers d c) :=
  inferInstanceAs (Decidable (∀ i ∈ c.ownCell, i < d.buffer.length))

instance [Inhabited T] (maxLen : Nat) (d : Deque T) (c : Call T) :
    Decidable (Dangles maxLen d c) :=
  inferInstanceAs (Decidable (_ ∧ _ ∧ _))

/-- The object after a call that returned or threw; `none` after an access that no
caller survives. -/
def next [Inhabited T] (maxLen : Nat) (d : Deque T) (c : Call T) : Option (Deque T) :=
  if refused maxLen d (c.op d) then some d
  else
    match invoke d c with
    | .ok _ d' => some d'
    | .error (.outOfRange _) d' => some d'
    | .error _ _ => none

/-! ## Behaving as a list -/

/-- A call that throws exactly where the list model does, with the object as it was, and
otherwise returns. -/
def AsOnList [Inhabited T] (d : Deque T) (xs : List T) (c : Call T) : Prop :=
  (specThrows xs (c.op d) = true ∧ invoke d c = .error emptyFault d) ∨
  (specThrows xs (c.op d) = false ∧ ∃ d', invoke d c = .ok () d')

/-- From `d` on, `calls` do what they do on the list `xs`, and every object shows its
list as `P` says.  A call whose `new` is refused leaves both as they were. -/
def Behaves [Inhabited T] (P : Deque T → List T → Prop) (maxLen : Nat) :
    Deque T → List T → List (Call T) → Prop
  | d, xs, [] => P d xs
  | d, xs, c :: calls =>
      P d xs ∧
      if refused maxLen d (c.op d) then Behaves P maxLen d xs calls
      else AsOnList d xs c ∧
        Behaves P maxLen (stateOf (invoke d c)) (specStep xs (c.op d)) calls

/-- The members and the indices say that `d` is the list `xs`. -/
structure Agrees (d : Deque T) (xs : List T) : Prop where
  contents_eq : d.contents = xs.map some
  front_lt : d.frontIndex < d.capacity
  back_lt : d.backIndex < d.capacity
  back_eq : d.backIndex = (d.frontIndex + d.count) % d.capacity
  size_eq : d.size = xs.length
  empty_throws : xs = [] → d.front = .error emptyFault d ∧ d.back = .error emptyFault d
  ends : ∀ hne : xs ≠ [], d.front = .ok (xs.head hne) d ∧ d.back = .ok (xs.getLast hne) d

theorem Represents.agrees {d : Deque T} {xs : List T} (h : Represents d xs)
    (hcap : d.capacity < 2 ^ 63) : Agrees d xs where
  contents_eq := h.contents_eq
  front_lt := h.front_lt
  back_lt := h.back_lt
  back_eq := h.back_eq
  size_eq := h.count_eq
  empty_throws := by
    intro hnil
    rw [hnil] at h
    exact ⟨front_nil h, back_nil h⟩
  ends := by
    intro hne
    exact ⟨front_ok h hne, back_ok h hne hcap⟩

/-! ## A call and its value -/

theorem putFront_error (d : Deque T) (e : Fault) :
    ∃ e' d', d.putFront (.error e) = .error e' d' := by
  rw [putFront]
  split
  · exact ⟨_, _, rfl⟩
  · exact ⟨_, _, rfl⟩

section Calls

variable [Inhabited T] {maxLen : Nat} {d : Deque T} {xs : List T} {c : Call T}

theorem op_call (op : Op T) : (Op.call op).op d = op := by
  cases op <;> rfl

theorem invoke_call (op : Op T) : invoke d (Op.call op) = step d op := by
  cases op <;> rfl

theorem asOnList_call {op : Op T} :
    AsOnList d xs op.call ↔ specThrows xs op = true ∧ step d op = .error emptyFault d ∨
      specThrows xs op = false ∧ ∃ d', step d op = .ok () d' := by
  rw [AsOnList, op_call, invoke_call]

theorem Ref.read_eq {value : Ref T} (h : ∀ i, value = .cell i → i < d.buffer.length) :
    value.read d.buffer = .ok (value.value d) := by
  cases value with
  | outside value => rfl
  | cell i =>
      have hget : d.buffer[i]? = some (d.buffer.getD i default) := by
        rw [List.getD_eq_getElem?_getD, List.getElem?_eq_getElem (h i rfl), Option.getD_some]
      exact load_ok hget

theorem Ref.readLate_eq {value : Ref T} (h : ∀ i, value ≠ .cell i) :
    value.readLate = .ok (value.value d) := by
  cases value with
  | outside value => rfl
  | cell i => exact absurd rfl (h i)

/-- A push that does not dangle reads the value, before it grows or behind. -/
theorem invoke_eq (hrefers : Refers d c) (hok : refused maxLen d (c.op d) = false)
    (hc : ¬ Dangles maxLen d c) : invoke d c = step d (c.op d) := by
  cases c with
  | popFront => rfl
  | popBack => rfl
  | pushFront value =>
      have hread : value.read d.buffer = .ok (value.value d) :=
        Ref.read_eq fun i hi => hrefers i (by rw [hi]; rfl)
      show d.pushFront value = d.pushFront (.outside (value.value d))
      by_cases hgrow : d.frontIndex = d.backIndex ∨ d.count = d.capacity
      · have hlate : value.readLate = .ok (value.value d) := by
          refine Ref.readLate_eq fun i hi => hc ⟨by rw [hi]; rfl, ?_, hok⟩
          simp [Call.op, newRequest, hgrow]
        simp only [pushFront, if_pos hgrow, hlate, Ref.readLate_outside]
      · simp only [pushFront, if_neg hgrow, hread, Ref.read_outside]
  | pushBack value =>
      have hread : value.read d.buffer = .ok (value.value d) :=
        Ref.read_eq fun i hi => hrefers i (by rw [hi]; rfl)
      show d.pushBack value = d.pushBack (.outside (value.value d))
      by_cases hgrow : d.count = d.capacity
      · have hlate : value.readLate = .ok (value.value d) := by
          refine Ref.readLate_eq fun i hi => hc ⟨by rw [hi]; rfl, ?_, hok⟩
          simp [Call.op, newRequest, hgrow]
        simp only [pushBack, if_pos hgrow, hlate, Ref.readLate_outside]
      · simp only [pushBack, if_neg hgrow, hread, Ref.read_outside]

/-- One that does reads what `resize` has deleted. -/
theorem invoke_dangles (hc : Dangles maxLen d c) :
    specThrows xs (c.op d) = false ∧ ∃ e d', invoke d c = .error e d' := by
  obtain ⟨hcell, hgrows, -⟩ := hc
  match c, hcell with
  | .pushFront (.cell i), _ =>
      have hgrow : d.frontIndex = d.backIndex ∨ d.count = d.capacity := by
        by_contra hno
        simp [Call.op, newRequest, hno] at hgrows
      refine ⟨rfl, ?_⟩
      show ∃ e d', d.pushFront (.cell i) = .error e d'
      rw [pushFront, if_pos hgrow]
      split
      · exact ⟨_, _, rfl⟩
      · exact putFront_error _ .deleted
  | .pushBack (.cell i), _ =>
      have hgrow : d.count = d.capacity := by
        by_contra hno
        simp [Call.op, newRequest, hno] at hgrows
      refine ⟨rfl, ?_⟩
      show ∃ e d', d.pushBack (.cell i) = .error e d'
      rw [pushBack, if_pos hgrow]
      split
      · exact ⟨_, _, rfl⟩
      · exact ⟨_, _, rfl⟩

theorem not_asOnList_of_dangles (hc : Dangles maxLen d c) : ¬ AsOnList d xs c := by
  obtain ⟨hreturns, e, d', herror⟩ := @invoke_dangles T _ maxLen d xs c hc
  rintro (⟨hthrows, -⟩ | ⟨-, d'', hok⟩)
  · exact absurd (hreturns.symm.trans hthrows) Bool.false_ne_true
  · cases herror.symm.trans hok

/-- A call that came out as on the list is one the caller goes on from. -/
theorem AsOnList.next_eq (h : AsOnList d xs c) (hok : refused maxLen d (c.op d) = false) :
    next maxLen d c = some (stateOf (invoke d c)) := by
  rw [next, hok, if_neg Bool.false_ne_true]
  rcases h with ⟨-, hthrow⟩ | ⟨-, d', hret⟩
  · rw [hthrow]
    rfl
  · rw [hret]
    rfl

end Calls

/-! ## Runs with references and runs with values -/

section Runs

variable [Inhabited T] {P : Deque T → List T → Prop} {maxLen : Nat}

/-- The calls of a run, with what their references stand for. -/
def resolve (maxLen : Nat) : Deque T → List (Call T) → List (Op T)
  | _, [] => []
  | d, c :: calls =>
      c.op d :: resolve maxLen
        (if refused maxLen d (c.op d) then d else stateOf (invoke d c)) calls

theorem behaves_cons_call {d : Deque T} {xs : List T} {op : Op T} {ops : List (Op T)} :
    Behaves P maxLen d xs ((op :: ops).map Op.call) ↔ P d xs ∧
      if refused maxLen d op then Behaves P maxLen d xs (ops.map Op.call)
      else AsOnList d xs op.call ∧
        Behaves P maxLen (stateOf (step d op)) (specStep xs op) (ops.map Op.call) := by
  rw [List.map_cons, Behaves, op_call, invoke_call]

/-- A run behaves as the one with the values, where no push dangles; and it does not
where one does. -/
theorem behaves_iff_resolve {calls : List (Call T)} {d : Deque T} {xs : List T}
    (hrefers : Along (next maxLen) Refers d calls) :
    Behaves P maxLen d xs calls ↔
      Along (next maxLen) (fun d c => ¬ Dangles maxLen d c) d calls ∧
        Behaves P maxLen d xs ((resolve maxLen d calls).map Op.call) := by
  induction calls generalizing d xs with
  | nil => exact (and_iff_right trivial).symm
  | cons c calls ih =>
      obtain ⟨hrefer, hrest⟩ := hrefers
      rw [resolve, behaves_cons_call, Along, Behaves]
      by_cases href : refused maxLen d (c.op d) = true
      · have hnext : next maxLen d c = some d := if_pos href
        have hsafe : ¬ Dangles maxLen d c := fun hc => by
          rw [hc.2.2] at href
          cases href
        rw [hnext] at hrest
        simp only [hnext, href, if_true, ih hrest, hsafe, not_false_eq_true, true_and]
        exact and_left_comm
      · have hok : refused maxLen d (c.op d) = false := Bool.eq_false_iff.mpr href
        simp only [hok, Bool.false_eq_true, if_false]
        by_cases hc : Dangles maxLen d c
        · refine iff_of_false (fun h => not_asOnList_of_dangles hc h.2.1) fun h => h.1.1 hc
        · have hsame := invoke_eq hrefer hok hc
          have hlist : AsOnList d xs (c.op d).call ↔ AsOnList d xs c := by
            rw [asOnList_call, AsOnList, hsame]
          rw [hlist, ← hsame]
          by_cases has : AsOnList d xs c
          · have hnext := has.next_eq hok
            rw [hnext] at hrest
            simp only [hnext, ih hrest, hc, has, not_false_eq_true, true_and]
            exact and_left_comm
          · exact iff_of_false (fun h => has h.2.1) fun h => has h.2.2.1

/-- A represented deque behaves as its list, whatever values it is called with. -/
theorem Fits.behaves (hmax : maxLen < 2 ^ 63)
    (hP : ∀ {d : Deque T} {xs : List T}, Represents d xs → d.capacity < 2 ^ 63 → P d xs)
    {ops : List (Op T)} {d : Deque T} {xs : List T} (h : Fits maxLen d xs) :
    Behaves P maxLen d xs (ops.map Op.call) := by
  induction ops generalizing d xs with
  | nil => exact hP h.represents (h.capacity_lt hmax)
  | cons op ops ih =>
      refine behaves_cons_call.mpr ⟨hP h.represents (h.capacity_lt hmax), ?_⟩
      split
      case isTrue => exact ih h
      case isFalse hno =>
        have hok : refused maxLen d op = false := Bool.eq_false_iff.mpr hno
        refine ⟨?_, ih (h.call hmax hok)⟩
        rw [asOnList_call]
        rcases step_ok h.represents (h.capacity_lt hmax) op with
          ⟨hthrow, hstep, -⟩ | ⟨hret, d', hstep, -⟩
        · exact .inl ⟨hthrow, hstep⟩
        · exact .inr ⟨hret, d', hstep⟩

end Runs

/-- The front pushed to the back of a deque with a cell to spare, then two pushes that
grow. -/
def frontToBack : List (Call Nat) :=
  [.pushBack (.outside 5), .pushFront (.outside 6), .popBack, .pushBack (.cell 1), .pushBack
    (.outside 7), .popFront]

end CKernel.SenStd.Deque
