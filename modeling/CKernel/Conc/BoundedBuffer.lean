/-
# `CKernel.Conc.BoundedBuffer` — the producers and consumers of `p_and_c_demo.c`

A buffer of `BUF_SIZE` cells is used in turn; `slots` counts the cells that are free,
`items` those that are filled, and `mutex` lets one thread at a time at the buffer and its
two indices.  A thread is a run of `producer` over the values it puts in, or of `consumer`
over the number of values it takes out; there may be any number of either.  What happens
between two semaphore operations is two steps, as the cell and the index are two variables.

Beside the buffer the model keeps what was put in, by whom, and what was taken out.

    the semaphores count cells and threads                     (`counts_goes`)
    the filled cells have what was put in and not taken out    (`Ring.put`, `Ring.drop`)
    values come out in the order in which they went in         (`values_in_order`)
    and all threads return when what they put in and
      take out balances                                        (`buffer_drains`)
-/
import CKernel.Lib.Monitor

namespace CKernel.Conc.BoundedBuffer

open Run Monitor

variable {ι α : Type}

/-! ## The code -/

/-- The buffer, the indices and the semaphores. -/
structure Shared (ι α : Type) where
  buffer : List α
  front : Nat
  rear : Nat
  mutex : Nat
  slots : Nat
  items : Nat
  produced : List (ι × α)
  consumed : List α

/-- Where a thread is: in `producer`, with the values it is going to put in, or in
`consumer`, with the number of rounds after this one. -/
inductive Point (ι α : Type) where
  | slotsWait (i : ι) (vals : List α)
  | putLock (i : ι) (v : α) (vals : List α)
  | put (i : ι) (v : α) (vals : List α)
  | putTurn (i : ι) (v : α) (vals : List α)
  | putUnlock (i : ι) (vals : List α)
  | itemsPost (i : ι) (vals : List α)
  | itemsWait (rounds : Nat)
  | getLock (rounds : Nat)
  | get (rounds : Nat)
  | getTurn (item : α) (rounds : Nat)
  | getUnlock (rounds : Nat)
  | slotsPost (rounds : Nat)

/-- `sem_wait`, which waits while the count is zero. -/
def semWait (count : Nat) : Option Nat := if 0 < count then some (count - 1) else none

/-- What comes next, with `n` for `BUF_SIZE`. -/
def next (n : Nat) : Point ι α → Instr (Shared ι α) (Point ι α)
  | .slotsWait _ [] => .ret
  | .slotsWait i (v :: vals) => .await fun s =>
      (semWait s.slots).map fun slots => ({ s with slots := slots }, .putLock i v vals)
  | .putLock i v vals => .await fun s =>
      (semWait s.mutex).map fun mutex => ({ s with mutex := mutex }, .put i v vals)
  | .put i v vals => .act fun s =>
      if s.rear < s.buffer.length then
        some ({ s with buffer := s.buffer.set s.rear v }, .putTurn i v vals)
      else none
  | .putTurn i v vals => .act fun s =>
      some ({ s with rear := (s.rear + 1) % n, produced := s.produced ++ [(i, v)] },
        .putUnlock i vals)
  | .putUnlock i vals => .act fun s => some ({ s with mutex := s.mutex + 1 }, .itemsPost i vals)
  | .itemsPost i vals => .act fun s => some ({ s with items := s.items + 1 }, .slotsWait i vals)
  | .itemsWait 0 => .ret
  | .itemsWait (rounds + 1) => .await fun s =>
      (semWait s.items).map fun items => ({ s with items := items }, .getLock rounds)
  | .getLock rounds => .await fun s =>
      (semWait s.mutex).map fun mutex => ({ s with mutex := mutex }, .get rounds)
  | .get rounds => .act fun s => s.buffer[s.front]?.map fun item => (s, .getTurn item rounds)
  | .getTurn item rounds => .act fun s =>
      some ({ s with front := (s.front + 1) % n, consumed := s.consumed ++ [item] },
        .getUnlock rounds)
  | .getUnlock rounds => .act fun s => some ({ s with mutex := s.mutex + 1 }, .slotsPost rounds)
  | .slotsPost rounds => .act fun s => some ({ s with slots := s.slots + 1 }, .itemsWait rounds)

/-- What a thread is started for. -/
inductive Role (α : Type) where
  | producer (vals : List α)
  | consumer (rounds : Nat)

/-- The threads after `sem_init` and `pthread_create`; the cells have some value at first. -/
def start (n : Nat) (zero : α) (roles : ι → Role α) : State ι (Shared ι α) (Point ι α) where
  shared := ⟨List.replicate n zero, 0, 0, 1, n, 0, [], []⟩
  owner := none
  asleep := []
  pc i :=
    match roles i with
    | .producer vals => .slotsWait i vals
    | .consumer rounds => .itemsWait rounds

/-! ## The ring -/

/-- The cells have the entries of a log from the place `m` on, each in the cell of its
place. -/
structure Ring (cells : List α) (n : Nat) (log : List α) (m : Nat) : Prop where
  length : cells.length = n
  kept : ∀ j, m ≤ j → j < log.length → cells[j % n]? = log[j]?

section Ring
variable {cells log : List α} {n m : Nat} {v : α}

/-- Two places closer than the ring is long have different cells. -/
theorem mod_ne {j k : Nat} (hlt : j < k) (hk : k - j < n) : j % n ≠ k % n := by
  intro heq
  have hdvd : n ∣ k - j := Nat.dvd_of_mod_eq_zero (Nat.sub_mod_eq_zero_of_mod_eq heq.symm)
  exact Nat.not_le_of_lt hk (Nat.le_of_dvd (Nat.sub_pos_of_lt hlt) hdvd)

/-- A write to the next cell, if that is free. -/
theorem Ring.set (h : Ring cells n log m) (hroom : log.length < m + n) (v : α) :
    Ring (cells.set (log.length % n) v) n log m := by
  refine ⟨(List.length_set ..).trans h.length, fun j hm hj => ?_⟩
  have hne : log.length % n ≠ j % n := (mod_ne hj (by omega)).symm
  rw [List.getElem?_set_ne hne]
  exact h.kept j hm hj

/-- What is in the next cell counts. -/
theorem Ring.put (h : Ring cells n log m) (hcell : cells[log.length % n]? = some v) :
    Ring cells n (log ++ [v]) m := by
  refine ⟨h.length, fun j hm hj => ?_⟩
  rw [List.length_append, List.length_singleton] at hj
  rcases Nat.lt_or_eq_of_le (Nat.le_of_lt_succ hj) with hlt | rfl
  · rw [List.getElem?_append_left hlt]
    exact h.kept j hm hlt
  · rw [List.getElem?_concat_length]
    exact hcell

/-- The first entry no longer counts. -/
theorem Ring.drop (h : Ring cells n log m) : Ring cells n log (m + 1) :=
  ⟨h.length, fun j hm hj => h.kept j (Nat.le_of_succ_le hm) hj⟩

end Ring

/-! ## Counting -/

/-- The thread has the mutex. -/
def inside : Point ι α → Nat
  | .put _ _ _ | .putTurn _ _ _ | .putUnlock _ _ | .get _ | .getTurn _ _ | .getUnlock _ => 1
  | _ => 0

/-- The thread has a free cell that it has not put a value into. -/
def placing : Point ι α → Nat
  | .putLock _ _ _ | .put _ _ _ | .putTurn _ _ _ => 1
  | _ => 0

/-- The thread has put a value in and not said so. -/
def placed : Point ι α → Nat
  | .putUnlock _ _ | .itemsPost _ _ => 1
  | _ => 0

/-- The thread has a filled cell that it has not taken the value from. -/
def taking : Point ι α → Nat
  | .getLock _ | .get _ | .getTurn _ _ => 1
  | _ => 0

/-- The thread has taken a value out and not said so. -/
def taken : Point ι α → Nat
  | .getUnlock _ | .slotsPost _ => 1
  | _ => 0

/-- What a consumer is still going to take out. -/
def wanting : Point ι α → Nat
  | .itemsWait rounds | .getUnlock rounds | .slotsPost rounds => rounds
  | .getLock rounds | .get rounds | .getTurn _ rounds => rounds + 1
  | _ => 0

/-- What a producer is still going to put in. -/
def having : Point ι α → List α
  | .slotsWait _ vals | .putUnlock _ vals | .itemsPost _ vals => vals
  | .putLock _ v vals | .put _ v vals | .putTurn _ v vals => v :: vals
  | _ => []

structure Counts [Fintype ι] (n : Nat) (s : Shared ι α) (pc : ι → Point ι α) : Prop where
  mutex : s.mutex + ∑ i, inside (pc i) = 1
  filled : s.produced.length =
    s.consumed.length + s.items + ∑ i, taking (pc i) + ∑ i, placed (pc i)
  free : s.slots + ∑ i, placing (pc i) + ∑ i, taken (pc i) + s.produced.length =
    n + s.consumed.length

section Counting
variable [Fintype ι] [DecidableEq ι] {n : Nat} {s s' : Shared ι α} {pc : ι → Point ι α} {i : ι}
  {k : Point ι α}

omit [Fintype ι] [DecidableEq ι] in
theorem semWait_eq_some {count count' : Nat} : semWait count = some count' ↔ count = count' + 1 := by
  rw [semWait]
  split
  case isTrue hpos =>
    rw [Option.some.injEq]
    omega
  case isFalse hzero => exact iff_of_false nofun (by omega)

/-- What a step adds to each count, given what it adds for its thread. -/
theorem Counts.step (h : Counts n s pc)
    (hmutex : s'.mutex + inside k = s.mutex + inside (pc i))
    (hfilled : s'.produced.length + s.consumed.length + s.items + taking (pc i) + placed (pc i) =
      s.produced.length + s'.consumed.length + s'.items + taking k + placed k)
    (hfree : s'.slots + placing k + taken k + s'.produced.length + s.consumed.length =
      s.slots + placing (pc i) + taken (pc i) + s.produced.length + s'.consumed.length) :
    Counts n s' (Function.update pc i k) := by
  obtain ⟨hmutex', hfilled', hfree'⟩ := h
  have hinside := sum_update inside pc i k
  have hplacing := sum_update placing pc i k
  have hplaced := sum_update placed pc i k
  have htaking := sum_update taking pc i k
  have htaken := sum_update taken pc i k
  constructor <;> omega

/-- The semaphores count. -/
theorem counts_goes (h : Counts n s pc) (hgoes : Goes s s' k (next n (pc i))) :
    Counts n s' (Function.update pc i k) := by
  cases hpc : pc i with
  | slotsWait j vals =>
      rw [hpc] at hgoes
      cases vals with
      | nil => exact hgoes.elim
      | cons v vals =>
          obtain ⟨slots, hwait, ⟨⟩⟩ := Option.map_eq_some_iff.mp hgoes
          have hcount := semWait_eq_some.mp hwait
          refine h.step ?_ ?_ ?_ <;> rw [hpc] <;> simp only [inside, taking, placed, placing, taken]
          omega
  | itemsWait rounds =>
      rw [hpc] at hgoes
      cases rounds with
      | zero => exact hgoes.elim
      | succ rounds =>
          obtain ⟨items, hwait, ⟨⟩⟩ := Option.map_eq_some_iff.mp hgoes
          have hcount := semWait_eq_some.mp hwait
          refine h.step ?_ ?_ ?_ <;> rw [hpc] <;> simp only [inside, taking, placed, placing, taken]
          omega
  | putLock | getLock =>
      rw [hpc] at hgoes
      obtain ⟨mutex, hwait, ⟨⟩⟩ := Option.map_eq_some_iff.mp hgoes
      have hcount := semWait_eq_some.mp hwait
      refine h.step ?_ ?_ ?_ <;> rw [hpc] <;> simp only [inside, taking, placed, placing, taken]
      omega
  | put j v vals =>
      rw [hpc] at hgoes
      simp only [Goes, next] at hgoes
      split at hgoes
      · cases hgoes
        refine h.step ?_ ?_ ?_ <;> rw [hpc] <;> rfl
      · cases hgoes
  | get rounds =>
      rw [hpc] at hgoes
      obtain ⟨item, -, ⟨⟩⟩ := Option.map_eq_some_iff.mp hgoes
      refine h.step ?_ ?_ ?_ <;> rw [hpc] <;> rfl
  | putTurn | putUnlock | itemsPost | getTurn | getUnlock | slotsPost =>
      rw [hpc] at hgoes
      cases hgoes
      refine h.step ?_ ?_ ?_ <;> rw [hpc] <;>
        simp only [inside, taking, placed, placing, taken, List.length_append,
          List.length_singleton] <;> omega

/-- Who has the mutex is alone. -/
theorem Counts.alone (h : Counts n s pc) (hi : inside (pc i) = 1) {j : ι} (hj : j ≠ i) :
    inside (pc j) = 0 :=
  alone_of_sum_le (h.mutex ▸ Nat.le_add_left _ _) hi hj

end Counting

/-! ## The values -/

/-- A thread between the cell and the index has its value in the cell. -/
def Here (s : Shared ι α) : Point ι α → Prop
  | .putTurn _ v _ => s.buffer[s.rear]? = some v
  | .getTurn item _ => s.buffer[s.front]? = some item
  | _ => True

structure Stored (n : Nat) (s : Shared ι α) (pc : ι → Point ι α) : Prop where
  ring : Ring s.buffer n (s.produced.map Prod.snd) s.consumed.length
  rear : s.rear = s.produced.length % n
  front : s.front = s.consumed.length % n
  order : s.consumed <+: s.produced.map Prod.snd
  here : ∀ i, Here s (pc i)

section Values
variable [Fintype ι] [DecidableEq ι] {n : Nat} {s s' : Shared ι α} {pc : ι → Point ι α} {i : ι}
  {k : Point ι α}

omit [Fintype ι] [DecidableEq ι] in
theorem here_of_outside (h : inside k = 0) : Here s k := by
  cases k with
  | putTurn | getTurn => cases h
  | _ => trivial

omit [Fintype ι] [DecidableEq ι] in
theorem Here.congr (h : Here s k) (hbuffer : s'.buffer = s.buffer) (hrear : s'.rear = s.rear)
    (hfront : s'.front = s.front) : Here s' k := by
  cases k with
  | putTurn j v vals =>
      rw [Here, hbuffer, hrear]
      exact h
  | getTurn item rounds =>
      rw [Here, hbuffer, hfront]
      exact h
  | _ => trivial

omit [Fintype ι] in
theorem here_update (hmine : Here s' k) (hothers : ∀ j, j ≠ i → Here s' (pc j)) (j : ι) :
    Here s' (Function.update pc i k j) := by
  by_cases hj : j = i
  · subst hj
    rw [Function.update_self]
    exact hmine
  · rw [Function.update_of_ne hj]
    exact hothers j hj

omit [Fintype ι] in
/-- A step on the semaphores. -/
theorem Stored.pass (h : Stored n s pc) (hk : Here s' k) (hbuffer : s'.buffer = s.buffer)
    (hrear : s'.rear = s.rear) (hfront : s'.front = s.front) (hproduced : s'.produced = s.produced)
    (hconsumed : s'.consumed = s.consumed) : Stored n s' (Function.update pc i k) := by
  refine ⟨?_, ?_, ?_, ?_, here_update hk fun j _ => (h.here j).congr hbuffer hrear hfront⟩
  · rw [hbuffer, hproduced, hconsumed]
    exact h.ring
  · rw [hrear, hproduced]
    exact h.rear
  · rw [hfront, hconsumed]
    exact h.front
  · rw [hproduced, hconsumed]
    exact h.order

omit [Fintype ι] [DecidableEq ι] in
theorem prefix_concat {l l' : List α} {a : α} (h : l <+: l') (ha : l'[l.length]? = some a) :
    l ++ [a] <+: l' := by
  obtain ⟨t, rfl⟩ := h
  cases t with
  | nil =>
      rw [List.append_nil, List.getElem?_eq_none (Nat.le_refl _)] at ha
      cases ha
  | cons b t =>
      rw [List.getElem?_append_right (Nat.le_refl _), Nat.sub_self] at ha
      cases ha
      exact ⟨t, List.append_assoc ..⟩

theorem stored_goes (hc : Counts n s pc) (h : Stored n s pc)
    (hgoes : Goes s s' k (next n (pc i))) : Stored n s' (Function.update pc i k) := by
  have hhere := h.here i
  have hothers (hi : inside (pc i) = 1) (x : Shared ι α) (j : ι) (hj : j ≠ i) : Here x (pc j) :=
    here_of_outside (hc.alone hi hj)
  cases hpc : pc i with
  | slotsWait j vals =>
      rw [hpc] at hgoes
      cases vals with
      | nil => exact hgoes.elim
      | cons v vals =>
          obtain ⟨slots, -, ⟨⟩⟩ := Option.map_eq_some_iff.mp hgoes
          exact h.pass trivial rfl rfl rfl rfl rfl
  | itemsWait rounds =>
      rw [hpc] at hgoes
      cases rounds with
      | zero => exact hgoes.elim
      | succ rounds =>
          obtain ⟨items, -, ⟨⟩⟩ := Option.map_eq_some_iff.mp hgoes
          exact h.pass trivial rfl rfl rfl rfl rfl
  | putLock | getLock =>
      rw [hpc] at hgoes
      obtain ⟨mutex, -, ⟨⟩⟩ := Option.map_eq_some_iff.mp hgoes
      exact h.pass trivial rfl rfl rfl rfl rfl
  | putUnlock | itemsPost | getUnlock | slotsPost =>
      rw [hpc] at hgoes
      cases hgoes
      exact h.pass trivial rfl rfl rfl rfl rfl
  | put j v vals =>
      have hroom : (s.produced.map Prod.snd).length < s.consumed.length + n := by
        have hle := le_sum placing pc i
        have hfree := hc.free
        rw [hpc, placing] at hle
        rw [List.length_map]
        omega
      rw [hpc] at hgoes
      simp only [Goes, next] at hgoes
      split at hgoes
      case isFalse => cases hgoes
      case isTrue hlt =>
        cases hgoes
        refine ⟨?_, h.rear, h.front, h.order, here_update ?_ (hothers (by rw [hpc]; rfl) _)⟩
        · have hset := h.ring.set hroom v
          rw [List.length_map, ← h.rear] at hset
          exact hset
        · exact List.getElem?_set_self hlt
  | putTurn j v vals =>
      rw [hpc] at hgoes hhere
      cases hgoes
      refine ⟨?_, ?_, h.front, ?_, here_update trivial (hothers (by rw [hpc]; rfl) _)⟩
      · show Ring s.buffer n ((s.produced ++ [(j, v)]).map Prod.snd) s.consumed.length
        rw [List.map_append]
        refine h.ring.put ?_
        rw [List.length_map, ← h.rear]
        exact hhere
      · show (s.rear + 1) % n = (s.produced ++ [(j, v)]).length % n
        rw [h.rear, Nat.mod_add_mod, List.length_append, List.length_singleton]
      · show s.consumed <+: (s.produced ++ [(j, v)]).map Prod.snd
        rw [List.map_append]
        exact h.order.trans (List.prefix_append ..)
  | get rounds =>
      rw [hpc] at hgoes
      obtain ⟨item, hitem, ⟨⟩⟩ := Option.map_eq_some_iff.mp hgoes
      exact h.pass hitem rfl rfl rfl rfl rfl
  | getTurn item rounds =>
      have hlt : s.consumed.length < (s.produced.map Prod.snd).length := by
        have hle := le_sum taking pc i
        have hfilled := hc.filled
        rw [hpc, taking] at hle
        rw [List.length_map]
        omega
      rw [hpc] at hgoes hhere
      cases hgoes
      have hfirst : (s.produced.map Prod.snd)[s.consumed.length]? = some item := by
        rw [← h.ring.kept _ (Nat.le_refl _) hlt, ← h.front]
        exact hhere
      refine ⟨?_, h.rear, ?_, prefix_concat h.order hfirst,
        here_update trivial (hothers (by rw [hpc]; rfl) _)⟩
      · show Ring s.buffer n _ (s.consumed ++ [item]).length
        rw [List.length_append, List.length_singleton]
        exact h.ring.drop
      · show (s.front + 1) % n = (s.consumed ++ [item]).length % n
        rw [h.front, Nat.mod_add_mod, List.length_append, List.length_singleton]

omit [Fintype ι] [DecidableEq ι] in
/-- No cell outside the buffer is used. -/
theorem stored_safe (hn : 0 < n) (h : Stored n s pc)
    {f : Shared ι α → Option (Shared ι α × Point ι α)} (hf : next n (pc i) = .act f) :
    f s ≠ none := by
  have hlen := h.ring.length
  cases hpc : pc i with
  | slotsWait j vals =>
      rw [hpc] at hf
      cases vals <;> cases hf
  | itemsWait rounds =>
      rw [hpc] at hf
      cases rounds <;> cases hf
  | put j v vals =>
      rw [hpc] at hf
      cases hf
      have hlt : s.rear < s.buffer.length := by
        rw [h.rear, hlen]
        exact Nat.mod_lt _ hn
      dsimp only
      rw [if_pos hlt]
      exact Option.some_ne_none _
  | get rounds =>
      rw [hpc] at hf
      cases hf
      have hlt : s.front < s.buffer.length := by
        rw [h.front, hlen]
        exact Nat.mod_lt _ hn
      dsimp only
      rw [List.getElem?_eq_getElem hlt]
      exact Option.some_ne_none _
  | putTurn | putUnlock | itemsPost | getTurn | getUnlock | slotsPost =>
      rw [hpc] at hf
      cases hf
      exact Option.some_ne_none _
  | putLock | getLock =>
      rw [hpc] at hf
      cases hf

end Values

/-! ## The threads -/

/-- What a producer is given to put in. -/
def Role.given : Role α → List α
  | .producer vals => vals
  | .consumer _ => []

/-- How much a consumer is to take out. -/
def Role.wanted : Role α → Nat
  | .producer _ => 0
  | .consumer rounds => rounds

/-- The producer whose point this is. -/
def author : Point ι α → Option ι
  | .slotsWait i _ | .putLock i _ _ | .put i _ _ | .putTurn i _ _ | .putUnlock i _
  | .itemsPost i _ => some i
  | _ => none

def Role.author (i : ι) : Role α → Option ι
  | .producer _ => some i
  | .consumer _ => none

/-- The threads are at points of their own functions, with what is left of their rounds. -/
structure Kept [Fintype ι] [DecidableEq ι] (roles : ι → Role α) (s : Shared ι α)
    (pc : ι → Point ι α) : Prop where
  plays : ∀ i, author (pc i) = (roles i).author i
  put : ∀ i, ofThread s.produced i ++ having (pc i) = (roles i).given
  left : s.produced.length + ∑ i, (having (pc i)).length = ∑ i, (roles i).given.length
  got : s.consumed.length + ∑ i, wanting (pc i) = ∑ i, (roles i).wanted

section Threads
variable [Fintype ι] [DecidableEq ι] {n : Nat} {roles : ι → Role α} {s s' : Shared ι α}
  {pc : ι → Point ι α} {i : ι} {k : Point ι α}

/-- What a step leaves to do, given what it leaves to its thread. -/
theorem Kept.step (h : Kept roles s pc) (hauthor : author k = author (pc i))
    (hmine : ofThread s'.produced i ++ having k = ofThread s.produced i ++ having (pc i))
    (hothers : ∀ j, j ≠ i → ofThread s'.produced j = ofThread s.produced j)
    (hleft : s'.produced.length + (having k).length = s.produced.length + (having (pc i)).length)
    (hgot : s'.consumed.length + wanting k = s.consumed.length + wanting (pc i)) :
    Kept roles s' (Function.update pc i k) := by
  have hhaving := sum_update (fun k => (having k).length) pc i k
  have hwanting := sum_update wanting pc i k
  have hleft' := h.left
  have hgot' := h.got
  refine ⟨fun j => ?_, fun j => ?_, by omega, by omega⟩
  · by_cases hj : j = i
    · subst hj
      rw [Function.update_self, hauthor]
      exact h.plays j
    · rw [Function.update_of_ne hj]
      exact h.plays j
  · by_cases hj : j = i
    · subst hj
      rw [Function.update_self, hmine]
      exact h.put j
    · rw [Function.update_of_ne hj, hothers j hj]
      exact h.put j

/-- A step that puts nothing in and takes nothing out. -/
theorem Kept.pass (h : Kept roles s pc) (hauthor : author k = author (pc i))
    (hproduced : s'.produced = s.produced) (hconsumed : s'.consumed = s.consumed)
    (hhaving : having k = having (pc i)) (hwanting : wanting k = wanting (pc i)) :
    Kept roles s' (Function.update pc i k) := by
  refine h.step hauthor ?_ (fun j _ => ?_) ?_ ?_
  · rw [hproduced, hhaving]
  · rw [hproduced]
  · rw [hproduced, hhaving]
  · rw [hconsumed, hwanting]

theorem kept_goes (h : Kept roles s pc) (hgoes : Goes s s' k (next n (pc i))) :
    Kept roles s' (Function.update pc i k) := by
  cases hpc : pc i with
  | slotsWait j vals =>
      rw [hpc] at hgoes
      cases vals with
      | nil => exact hgoes.elim
      | cons v vals =>
          obtain ⟨slots, -, ⟨⟩⟩ := Option.map_eq_some_iff.mp hgoes
          exact h.pass (hpc ▸ rfl) rfl rfl (hpc ▸ rfl) (hpc ▸ rfl)
  | itemsWait rounds =>
      rw [hpc] at hgoes
      cases rounds with
      | zero => exact hgoes.elim
      | succ rounds =>
          obtain ⟨items, -, ⟨⟩⟩ := Option.map_eq_some_iff.mp hgoes
          exact h.pass (hpc ▸ rfl) rfl rfl (hpc ▸ rfl) (hpc ▸ rfl)
  | putLock | getLock =>
      rw [hpc] at hgoes
      obtain ⟨mutex, -, ⟨⟩⟩ := Option.map_eq_some_iff.mp hgoes
      exact h.pass (hpc ▸ rfl) rfl rfl (hpc ▸ rfl) (hpc ▸ rfl)
  | put j v vals =>
      rw [hpc] at hgoes
      simp only [Goes, next] at hgoes
      split at hgoes
      · cases hgoes
        exact h.pass (hpc ▸ rfl) rfl rfl (hpc ▸ rfl) (hpc ▸ rfl)
      · cases hgoes
  | get rounds =>
      rw [hpc] at hgoes
      obtain ⟨item, -, ⟨⟩⟩ := Option.map_eq_some_iff.mp hgoes
      exact h.pass (hpc ▸ rfl) rfl rfl (hpc ▸ rfl) (hpc ▸ rfl)
  | putUnlock | itemsPost | getUnlock | slotsPost =>
      rw [hpc] at hgoes
      cases hgoes
      exact h.pass (hpc ▸ rfl) rfl rfl (hpc ▸ rfl) (hpc ▸ rfl)
  | putTurn j v vals =>
      obtain rfl : j = i := by
        have hauthor := h.plays i
        rw [hpc] at hauthor
        cases hrole : roles i with
        | producer =>
            rw [hrole] at hauthor
            exact Option.some.inj hauthor
        | consumer =>
            rw [hrole] at hauthor
            cases hauthor
      rw [hpc] at hgoes
      cases hgoes
      refine h.step (hpc ▸ rfl) ?_ (fun x hx => ?_) ?_ (hpc ▸ rfl)
      · rw [ofThread_concat, if_pos rfl, hpc, List.append_assoc]
        rfl
      · rw [ofThread_concat, if_neg hx.symm]
      · rw [hpc, List.length_append, List.length_singleton, having, having, List.length_cons]
        omega
  | getTurn item rounds =>
      rw [hpc] at hgoes
      cases hgoes
      refine h.step (hpc ▸ rfl) (hpc ▸ rfl) (fun _ _ => rfl) (hpc ▸ rfl) ?_
      rw [hpc, List.length_append, List.length_singleton, wanting, wanting]
      omega

end Threads

/-! ## Runs -/

structure Sound [Fintype ι] [DecidableEq ι] (n : Nat) (roles : ι → Role α) (s : Shared ι α)
    (pc : ι → Point ι α) : Prop where
  counts : Counts n s pc
  stored : Stored n s pc
  kept : Kept roles s pc

/-- What is behind a point. -/
def weight : Point ι α → Nat
  | .slotsWait _ vals => 6 * vals.length
  | .putLock _ _ vals => 6 * vals.length + 5
  | .put _ _ vals => 6 * vals.length + 4
  | .putTurn _ _ vals => 6 * vals.length + 3
  | .putUnlock _ vals => 6 * vals.length + 2
  | .itemsPost _ vals => 6 * vals.length + 1
  | .itemsWait rounds => 6 * rounds
  | .getLock rounds => 6 * rounds + 5
  | .get rounds => 6 * rounds + 4
  | .getTurn _ rounds => 6 * rounds + 3
  | .getUnlock rounds => 6 * rounds + 2
  | .slotsPost rounds => 6 * rounds + 1

section Runs
variable [Fintype ι] [DecidableEq ι] {n : Nat} {roles : ι → Role α} {zero : α}
  {s : State ι (Shared ι α) (Point ι α)} {events : List (Event ι)}

theorem sound_goes (s : Shared ι α) (pc : ι → Point ι α) (i : ι) (s' : Shared ι α)
    (k : Point ι α) (h : Sound n roles s pc) (hgoes : Goes s s' k (next n (pc i))) :
    Sound n roles s' (Function.update pc i k) :=
  ⟨counts_goes h.counts hgoes, stored_goes h.counts h.stored hgoes, kept_goes h.kept hgoes⟩

theorem start_sound (n : Nat) (zero : α) (roles : ι → Role α) :
    Sound n roles (start n zero roles).shared (start n zero roles).pc := by
  have hzero (f : Point ι α → Nat) (hf : ∀ i vals, f (.slotsWait i vals) = 0)
      (hf' : ∀ rounds, f (.itemsWait rounds) = 0) : ∑ i, f ((start n zero roles).pc i) = 0 := by
    refine Finset.sum_eq_zero fun i _ => ?_
    rw [start]
    dsimp only
    split
    · exact hf i _
    · exact hf' _
  refine ⟨⟨?_, ?_, ?_⟩, ⟨?_, ?_, ?_, ?_, fun i => ?_⟩, ⟨fun i => ?_, fun i => ?_, ?_, ?_⟩⟩
  · rw [hzero inside (fun _ _ => rfl) fun _ => rfl]
    rfl
  · rw [hzero taking (fun _ _ => rfl) fun _ => rfl, hzero placed (fun _ _ => rfl) fun _ => rfl]
    rfl
  · rw [hzero placing (fun _ _ => rfl) fun _ => rfl, hzero taken (fun _ _ => rfl) fun _ => rfl]
    rfl
  · exact ⟨List.length_replicate, fun j _ hj => absurd hj (Nat.not_lt_zero j)⟩
  · exact (Nat.zero_mod n).symm
  · exact (Nat.zero_mod n).symm
  · exact List.nil_prefix
  · rw [start]
    dsimp only
    split <;> trivial
  · rw [start]
    dsimp only
    split <;> rename_i hrole <;> rw [hrole] <;> rfl
  · rw [start]
    dsimp only
    split <;> rename_i hrole <;> rw [hrole] <;> rfl
  · refine (Nat.zero_add _).trans (Finset.sum_congr rfl fun i _ => ?_)
    rw [start]
    dsimp only
    split <;> rename_i hrole <;> rw [hrole] <;> rfl
  · refine (Nat.zero_add _).trans (Finset.sum_congr rfl fun i _ => ?_)
    rw [start]
    dsimp only
    split <;> rename_i hrole <;> rw [hrole] <;> rfl

omit [Fintype ι] [DecidableEq ι] in
/-- Nobody waits for a condition variable. -/
theorem next_ne_wait (n : Nat) (k k' : Point ι α) : next n k ≠ .wait k' := by
  cases k with
  | slotsWait i vals => cases vals <;> nofun
  | itemsWait rounds => cases rounds <;> nofun
  | _ => nofun

/-- **Values come out in the order in which they went in.**  In every interleaving of any
number of producers and consumers: what was taken out is the first part of what was put in,
which is never more than a buffer ahead; each producer puts its values in in turn; at most
one thread is at the buffer, and none uses a cell outside. -/
theorem values_in_order (n : Nat) (hn : 0 < n) (zero : α) (roles : ι → Role α)
    (events : List (Event ι)) {s : State ι (Shared ι α) (Point ι α)}
    (hrun : run (step (next n)) (start n zero roles) events = some s) :
    s.shared.consumed <+: s.shared.produced.map Prod.snd ∧
      s.shared.produced.length ≤ s.shared.consumed.length + n ∧
      (∀ i, ofThread s.shared.produced i <+: (roles i).given) ∧
      (∀ i j, inside (s.pc i) = 1 → inside (s.pc j) = 1 → i = j) ∧
      ∀ i f, next n (s.pc i) = .act f → f s.shared ≠ none := by
  have hsound : Sound n roles s.shared s.pc :=
    run_goes sound_goes events (start_sound n zero roles) hrun
  refine ⟨hsound.stored.order, ?_, fun i => ⟨_, hsound.kept.put i⟩, fun i j hi hj => ?_,
    fun i f hf => stored_safe hn hsound.stored hf⟩
  · have hfree := hsound.counts.free
    omega
  · by_contra hne
    cases hi.symm.trans (hsound.counts.alone hj hne)

omit [Fintype ι] [DecidableEq ι] in
/-- Every step uses something up. -/
theorem spends {s s' : Shared ι α} {k k' : Point ι α} (hgoes : Goes s s' k' (next n k)) :
    weight k' < weight k := by
  cases k with
  | slotsWait i vals =>
      cases vals with
      | nil => exact hgoes.elim
      | cons v vals =>
          obtain ⟨slots, -, ⟨⟩⟩ := Option.map_eq_some_iff.mp hgoes
          exact Nat.lt_succ_self _
  | itemsWait rounds =>
      cases rounds with
      | zero => exact hgoes.elim
      | succ rounds =>
          obtain ⟨items, -, ⟨⟩⟩ := Option.map_eq_some_iff.mp hgoes
          exact Nat.lt_succ_self _
  | putLock | getLock =>
      obtain ⟨mutex, -, ⟨⟩⟩ := Option.map_eq_some_iff.mp hgoes
      exact Nat.lt_succ_self _
  | put =>
      simp only [Goes, next] at hgoes
      split at hgoes
      · cases hgoes
        exact Nat.lt_succ_self _
      · cases hgoes
  | get =>
      obtain ⟨item, -, ⟨⟩⟩ := Option.map_eq_some_iff.mp hgoes
      exact Nat.lt_succ_self _
  | putTurn | putUnlock | itemsPost | getTurn | getUnlock | slotsPost =>
      cases hgoes
      exact Nat.lt_succ_self _

omit [Fintype ι] [DecidableEq ι] in
theorem spend_free {m m' : Nat} {k : Instr (Shared ι α) (Point ι α)} (h : m' < m) :
    0 + m' + fee 0 k < 0 + m + refund 0 k := by
  have hfee : fee 0 k = 0 := by cases k <;> rfl
  rw [hfee]
  omega

/-- What keeps a thread from going on when nothing moves. -/
inductive Stuck (s : Shared ι α) : Point ι α → Prop
  | produced (i : ι) : Stuck s (.slotsWait i [])
  | consumed : Stuck s (.itemsWait 0)
  | full (i : ι) (v : α) (vals : List α) (hslots : s.slots = 0) : Stuck s (.slotsWait i (v :: vals))
  | empty (rounds : Nat) (hitems : s.items = 0) : Stuck s (.itemsWait (rounds + 1))

omit [Fintype ι] [DecidableEq ι] in
theorem semWait_eq_none {count : Nat} : semWait count = none ↔ count = 0 := by
  rw [semWait]
  split
  case isTrue hpos => exact iff_of_false nofun (Nat.ne_of_gt hpos)
  case isFalse hzero => exact iff_of_true rfl (Nat.eq_zero_of_not_pos hzero)

omit [Fintype ι] [DecidableEq ι] in
theorem stuck_or_locked {s : Shared ι α} {k : Point ι α}
    (h : next n k = .ret ∨ ∃ f, next n k = .await f ∧ f s = none) :
    Stuck s k ∨ s.mutex = 0 ∧ inside k = 0 := by
  have hcount {β : Type} {count : Nat} {g : Nat → β} (hnone : (semWait count).map g = none) :
      count = 0 := semWait_eq_none.mp (Option.map_eq_none_iff.mp hnone)
  cases k with
  | slotsWait i vals =>
      cases vals with
      | nil => exact .inl (.produced i)
      | cons v vals =>
          rcases h with hret | ⟨f, hf, hnone⟩
          · cases hret
          · cases hf
            exact .inl (.full i v vals (hcount hnone))
  | itemsWait rounds =>
      cases rounds with
      | zero => exact .inl .consumed
      | succ rounds =>
          rcases h with hret | ⟨f, hf, hnone⟩
          · cases hret
          · cases hf
            exact .inl (.empty rounds (hcount hnone))
  | putLock | getLock =>
      rcases h with hret | ⟨f, hf, hnone⟩
      · cases hret
      · cases hf
        exact .inr ⟨hcount hnone, rfl⟩
  | put | putTurn | putUnlock | itemsPost | get | getTurn | getUnlock | slotsPost =>
      rcases h with hret | ⟨f, hf, -⟩
      · cases hret
      · cases hf

omit [Fintype ι] [DecidableEq ι] in
theorem next_ne_lock (n : Nat) (k k' : Point ι α) : next n k ≠ .lock k' := by
  cases k with
  | slotsWait i vals => cases vals <;> nofun
  | itemsWait rounds => cases rounds <;> nofun
  | _ => nofun

/-- The threads that cannot move have returned or wait for a cell. -/
theorem quiet_stuck (hn : 0 < n) (hsound : Sound n roles s.shared s.pc) (hasleep : s.asleep = [])
    (hquiet : Quiet (next n) s) (i : ι) : Stuck s.shared (s.pc i) := by
  have hblocked (j : ι) : Stuck s.shared (s.pc j) ∨ s.shared.mutex = 0 ∧ inside (s.pc j) = 0 := by
    have hawake : j ∉ s.asleep := fun hj => List.not_mem_nil (hasleep ▸ hj)
    rcases hquiet.cases hawake with hret | ⟨f, hf | hf, hnone⟩ | ⟨k, hlock, -⟩
    · exact stuck_or_locked (.inl hret)
    · exact absurd hnone (stored_safe hn hsound.stored hf)
    · exact stuck_or_locked (.inr ⟨f, hf, hnone⟩)
    · exact absurd hlock (next_ne_lock n _ k)
  refine (hblocked i).resolve_right fun ⟨hmutex, _⟩ => ?_
  -- somebody is inside, and could leave
  have hsum := hsound.counts.mutex
  rw [hmutex, Nat.zero_add] at hsum
  obtain ⟨j, -, hj⟩ := Finset.exists_ne_zero_of_sum_ne_zero (hsum ▸ Nat.one_ne_zero)
  rcases hblocked j with hstuck | ⟨-, hout⟩
  · generalize s.pc j = k at hstuck hj
    cases hstuck <;> exact hj rfl
  · exact hj hout

omit [Fintype ι] [DecidableEq ι] in
/-- A thread that waits for a cell holds none. -/
theorem Stuck.idle {s : Shared ι α} {k : Point ι α} (h : Stuck s k) :
    placing k = 0 ∧ placed k = 0 ∧ taking k = 0 ∧ taken k = 0 := by
  cases h <;> exact ⟨rfl, rfl, rfl, rfl⟩

omit [Fintype ι] [DecidableEq ι] in
theorem left_of_ret {k : Point ι α} (h : next n k = .ret) : having k = [] ∧ wanting k = 0 := by
  cases k with
  | slotsWait i vals =>
      cases vals with
      | nil => exact ⟨rfl, rfl⟩
      | cons v vals => cases h
  | itemsWait rounds =>
      cases rounds with
      | zero => exact ⟨rfl, rfl⟩
      | succ rounds => cases h
  | _ => cases h

omit [DecidableEq ι] in
theorem start_weight (n : Nat) (zero : α) (roles : ι → Role α) :
    ∑ i, weight ((start n zero roles).pc i) =
      6 * ∑ i, (roles i).given.length + 6 * ∑ i, (roles i).wanted := by
  rw [Finset.mul_sum, Finset.mul_sum, ← Finset.sum_add_distrib]
  refine Finset.sum_congr rfl fun i _ => ?_
  rw [start]
  dsimp only
  split <;> rename_i hrole <;> rw [hrole]
  · exact (Nat.add_zero _).symm
  · exact (Nat.zero_add _).symm

/-- **The buffer drains.**  Where the values put in are as many as are taken out, every
interleaving ends, after at most six steps for each: when no thread can move, all have
returned, each producer has put in all its values, and all that was put in was taken out. -/
theorem buffer_drains (n : Nat) (hn : 0 < n) (zero : α) (roles : ι → Role α)
    (hbalance : ∑ i, (roles i).given.length = ∑ i, (roles i).wanted) (events : List (Event ι))
    {s : State ι (Shared ι α) (Point ι α)}
    (hrun : run (step (next n)) (start n zero roles) events = some s) :
    events.length ≤ 6 * ∑ i, (roles i).given.length + 6 * ∑ i, (roles i).wanted ∧
      (Quiet (next n) s → (∀ i, next n (s.pc i) = .ret) ∧
        s.shared.consumed = s.shared.produced.map Prod.snd ∧
        ∀ i, ofThread s.shared.produced i = (roles i).given) := by
  have hsound : Sound n roles s.shared s.pc :=
    run_goes sound_goes events (start_sound n zero roles) hrun
  obtain ⟨hasleep, hspurious⟩ := run_wakeless (next_ne_wait n) events rfl hrun
  constructor
  · have hle := @run_length_le ι _ _ _ (next n) _ s _ (fun _ => 0) weight 0 (fun _ => True)
      (fun _ _ _ _ _ _ => trivial) (fun _ _ _ _ => trivial)
      (fun _ _ k _ _ hwait => absurd hwait (next_ne_wait n _ k))
      (fun s i _ _ _ hgoes => spend_free (spends hgoes)) events trivial hrun
    rw [hspurious, unspent, start_weight, unslept] at hle
    exact hle.trans (Nat.le_of_eq (Nat.zero_add _))
  · intro hquiet
    have hstuck := quiet_stuck hn hsound hasleep hquiet
    have hzero (f : Point ι α → Nat) (hf : ∀ i, f (s.pc i) = 0) : ∑ i, f (s.pc i) = 0 :=
      Finset.sum_eq_zero fun i _ => hf i
    obtain ⟨-, hfilled, hfree⟩ := hsound.counts
    rw [hzero taking fun i => (hstuck i).idle.2.2.1, hzero placed fun i => (hstuck i).idle.2.1]
      at hfilled
    rw [hzero placing fun i => (hstuck i).idle.1, hzero taken fun i => (hstuck i).idle.2.2.2] at hfree
    have hleft := hsound.kept.left
    have hgot := hsound.kept.got
    have hhaving (hslots : s.shared.slots ≠ 0) : ∑ i, (having (s.pc i)).length = 0 := by
      refine hzero (fun k => (having k).length) fun i => ?_
      have hi := hstuck i
      generalize s.pc i = k at hi
      cases hi with
      | full j v vals hempty => exact absurd hempty hslots
      | _ => rfl
    have hwanting (hitems : s.shared.items ≠ 0) : ∑ i, wanting (s.pc i) = 0 := by
      refine hzero wanting fun i => ?_
      have hi := hstuck i
      generalize s.pc i = k at hi
      cases hi with
      | empty rounds hempty => exact absurd hempty hitems
      | _ => rfl
    have hret (i : ι) : next n (s.pc i) = .ret := by
      have hmine := le_sum (fun k => (having k).length) s.pc i
      have hmine' := le_sum wanting s.pc i
      have hi := hstuck i
      generalize s.pc i = k at hi hmine hmine'
      cases hi with
      | produced | consumed => rfl
      | full j v vals hslots =>
          -- the buffer is full, so every consumer is done, and there were enough of them
          have hall := hwanting (by omega)
          have hpos : vals.length + 1 ≤ ∑ i, (having (s.pc i)).length := hmine
          omega
      | empty rounds hitems =>
          have hall := hhaving (by omega)
          have hpos : rounds + 1 ≤ ∑ i, wanting (s.pc i) := hmine'
          omega
    have hdone (i : ι) := left_of_ret (hret i)
    rw [hzero (fun k => (having k).length) fun i => congrArg List.length (hdone i).1] at hleft
    rw [hzero wanting fun i => (hdone i).2] at hgot
    refine ⟨hret, hsound.stored.order.eq_of_length ?_, fun i => ?_⟩
    · rw [List.length_map]
      omega
    · have hput := hsound.kept.put i
      rw [(hdone i).1, List.append_nil] at hput
      exact hput

/-! The two threads of `main`, which takes turns of a whole round. -/

/-- `BUF_SIZE`. -/
def bufSize : Nat := 5

/-- What `main` starts: `producer` for `tid_p`, `consumer` for the other. -/
def main (producing : Bool) : Role Nat :=
  bif producing then .producer (List.range' 1 10) else .consumer 10

def rounds : List (Event Bool) :=
  (List.replicate 10 (List.replicate 6 (.run true none) ++
    List.replicate 6 (.run false none))).flatten

theorem values_in_order_main :
    ∃ s, run (step (next bufSize)) (start bufSize 0 main) rounds = some s ∧
      s.shared.consumed <+: s.shared.produced.map Prod.snd := by
  obtain ⟨s, hs⟩ : ∃ s, run (step (next bufSize)) (start bufSize 0 main) rounds = some s :=
    Option.isSome_iff_exists.mp (by decide +kernel)
  exact ⟨s, hs, (values_in_order bufSize (by decide) 0 main rounds hs).1⟩

theorem buffer_drains_main :
    ∃ s, run (step (next bufSize)) (start bufSize 0 main) rounds = some s ∧
      (∀ i, next bufSize (s.pc i) = .ret) ∧
      s.shared.consumed = s.shared.produced.map Prod.snd := by
  obtain ⟨s, hs⟩ : ∃ s, run (step (next bufSize)) (start bufSize 0 main) rounds = some s :=
    Option.isSome_iff_exists.mp (by decide +kernel)
  have hpc : (run (step (next bufSize)) (start bufSize 0 main) rounds).map
      (fun s => (s.pc true, s.pc false)) = some (.slotsWait true [], .itemsWait 0) := by
    rfl
  rw [hs] at hpc
  obtain ⟨hproducer, hconsumer⟩ := Prod.mk.inj (Option.some.inj hpc)
  have hquiet : Quiet (next bufSize) s := by
    refine quiet_of_ret fun i => ?_
    cases i with
    | true =>
        rw [hproducer]
        rfl
    | false =>
        rw [hconsumer]
        rfl
  obtain ⟨hret, hall, -⟩ :=
    (buffer_drains bufSize (by decide) 0 main (by decide) rounds hs).2 hquiet
  exact ⟨s, hs, hret, hall⟩

end Runs

end CKernel.Conc.BoundedBuffer
