/-
# `CKernel.Stl.LinkedList` — the doubly linked list of `list_demo.h`

`sen_stl::list` over an explicit heap: every node is a cell with its datum and its two
pointers, between two sentinels.  An iterator is the address of a node.  The loops walk
pointers and carry fuel, one more than the number of live cells.

The list that the calls stand for has for each element the address of its node, so that
it says what an iterator denotes.  After every run of calls, whatever fresh addresses
`new` returns, the chain between the sentinels is this list (`list_refines`):

    four pointers for an insertion                             (`insert_ok`)
    two for a removal, and the node is freed                   (`erase_ok`)
    the loops of `remove` and `clear`                          (`remove_ok`, `clear_ok`)
    what a call does not remove stays in the list              (`mem_specStep`)
-/
import CKernel.Lib.Chain
import CKernel.Lib.Run

namespace CKernel.ListDemo

open Chains Run

/-! ## The code -/

/-- The object and the nodes it owns. -/
structure LinkedList (T : Type) where
  heap : Heap (Node T)
  head : Ptr
  tail : Ptr

variable {T : Type}

/-- `list()`, its sentinels at the addresses that `new` returned. -/
def make [Inhabited T] (head tail : Ptr) : Option (LinkedList T) := do
  let h := (Heap.empty.set head ⟨default, 0, 0⟩).set tail ⟨default, 0, 0⟩
  let h ← h.modify head fun n => { n with next := tail }
  let h ← h.modify tail fun n => { n with prev := head }
  some ⟨h, head, tail⟩

/-- `begin()` -/
def begin (s : LinkedList T) : Option Ptr := (s.heap.load s.head).map Node.next

/-- `insert(pos, value)`, the new node at `addr`. -/
def insert (s : LinkedList T) (pos : Ptr) (value : T) (addr : Ptr) :
    Option (LinkedList T × Ptr) := do
  let h := s.heap.set addr ⟨value, 0, 0⟩
  let h ← h.modify addr fun n => { n with next := pos }
  let p ← h.load pos
  let h ← h.modify addr fun n => { n with prev := p.prev }
  let p ← h.load pos
  let h ← h.modify p.prev fun n => { n with next := addr }
  let h ← h.modify pos fun n => { n with prev := addr }
  some ({ s with heap := h }, addr)

/-- `erase(pos)` -/
def erase (s : LinkedList T) (pos : Ptr) : Option (LinkedList T × Ptr) :=
  if pos = s.head ∨ pos = s.tail then some (s, s.tail)
  else do
    let d ← s.heap.load pos
    let h ← s.heap.modify d.prev fun n => { n with next := d.next }
    let d ← h.load pos
    let h ← h.modify d.next fun n => { n with prev := d.prev }
    let d ← h.load pos
    let h ← h.free pos
    some ({ s with heap := h }, d.next)

/-- `empty()` -/
def empty (s : LinkedList T) : Option Bool := do
  let p ← begin s
  some (p = s.tail)

/-- `push_front(value)` -/
def pushFront (s : LinkedList T) (value : T) (addr : Ptr) : Option (LinkedList T) := do
  let (s, _) ← insert s (← begin s) value addr
  some s

/-- `push_back(value)` -/
def pushBack (s : LinkedList T) (value : T) (addr : Ptr) : Option (LinkedList T) := do
  let (s, _) ← insert s s.tail value addr
  some s

/-- `pop_front()` -/
def popFront (s : LinkedList T) : Option (LinkedList T) := do
  if ← empty s then some s
  else
    let (s, _) ← erase s (← begin s)
    some s

/-- `pop_back()` -/
def popBack (s : LinkedList T) : Option (LinkedList T) := do
  if ← empty s then some s
  else
    let t ← s.heap.load s.tail
    let (s, _) ← erase s t.prev
    some s

/-- `front()` -/
def front (s : LinkedList T) : Option T := do
  let n ← s.heap.load (← begin s)
  some n.data

/-- `back()` -/
def back (s : LinkedList T) : Option T := do
  let t ← s.heap.load s.tail
  let n ← s.heap.load t.prev
  some n.data

/-- The loop of `clear`. -/
def clearLoop : Nat → Heap (Node T) → Ptr → Ptr → Option (Heap (Node T))
  | 0, _, _, _ => none
  | fuel + 1, h, current, tail =>
      if current = tail then some h
      else do
        let n ← h.load current
        let h ← h.free current
        clearLoop fuel h n.next tail

/-- `clear()` -/
def clear (s : LinkedList T) : Option (LinkedList T) := do
  let h ← clearLoop (s.heap.size + 1) s.heap (← begin s) s.tail
  let h ← h.modify s.head fun n => { n with next := s.tail }
  let h ← h.modify s.tail fun n => { n with prev := s.head }
  some { s with heap := h }

/-- The loop of `remove`. -/
def removeLoop [DecidableEq T] (value : T) : Nat → LinkedList T → Ptr → Option (LinkedList T)
  | 0, _, _ => none
  | fuel + 1, s, it =>
      if it = s.tail then some s
      else do
        let n ← s.heap.load it
        if n.data = value then
          let (s, it) ← erase s it
          removeLoop value fuel s it
        else removeLoop value fuel s n.next

/-- `remove(value)` -/
def remove [DecidableEq T] (s : LinkedList T) (value : T) : Option (LinkedList T) := do
  removeLoop value (s.heap.size + 1) s (← begin s)

/-! ## Calls -/

/-- A call, with the address that `new` returns in it. -/
inductive Op (T : Type) where
  | pushFront (value : T) (addr : Ptr)
  | pushBack (value : T) (addr : Ptr)
  | popFront
  | popBack
  | insert (pos : Ptr) (value : T) (addr : Ptr)
  | erase (pos : Ptr)
  | remove (value : T)
  | clear
  deriving DecidableEq, Repr

/-- A call, and the iterator it returns, if any. -/
def call [DecidableEq T] (s : LinkedList T) : Op T → Option (LinkedList T × Option Ptr)
  | .pushFront value addr => (pushFront s value addr).map fun s => (s, none)
  | .pushBack value addr => (pushBack s value addr).map fun s => (s, none)
  | .popFront => (popFront s).map fun s => (s, none)
  | .popBack => (popBack s).map fun s => (s, none)
  | .insert pos value addr => (insert s pos value addr).map fun (s, it) => (s, some it)
  | .erase pos => (erase s pos).map fun (s, it) => (s, some it)
  | .remove value => (remove s value).map fun s => (s, none)
  | .clear => (clear s).map fun s => (s, none)

def step [DecidableEq T] (s : LinkedList T) (op : Op T) : Option (LinkedList T) :=
  (call s op).map Prod.fst

/-- An iterator to a live element or `end()`: the nodes that are live are those of the
list, and the sentinel at its head is none. -/
def Points (s : LinkedList T) (pos : Ptr) : Prop := pos ≠ s.head ∧ s.heap.load pos ≠ none

/-- `new` returns a fresh address, and `pos` points into the list. -/
def Allowed (s : LinkedList T) : Op T → Prop
  | .pushFront _ addr => s.heap.Fresh addr
  | .pushBack _ addr => s.heap.Fresh addr
  | .insert pos _ addr => Points s pos ∧ s.heap.Fresh addr
  | .erase pos => Points s pos
  | _ => True

instance [DecidableEq T] (s : LinkedList T) (pos : Ptr) : Decidable (Points s pos) :=
  inferInstanceAs (Decidable (_ ∧ _))

instance [DecidableEq T] (s : LinkedList T) : ∀ op : Op T, Decidable (Allowed s op)
  | .pushFront _ addr => inferInstanceAs (Decidable (s.heap.Fresh addr))
  | .pushBack _ addr => inferInstanceAs (Decidable (s.heap.Fresh addr))
  | .insert pos _ addr => inferInstanceAs (Decidable (Points s pos ∧ s.heap.Fresh addr))
  | .erase pos => inferInstanceAs (Decidable (Points s pos))
  | .popFront | .popBack | .remove _ | .clear => isTrue trivial

/-! ## What the results say -/

/-- The elements before an iterator; all of them before `end()`. -/
def before (pos : Ptr) (items : List (Ptr × T)) : List (Ptr × T) :=
  items.takeWhile fun e => e.1 ≠ pos

/-- Those from it on. -/
def after (pos : Ptr) (items : List (Ptr × T)) : List (Ptr × T) :=
  items.dropWhile fun e => e.1 ≠ pos

/-- The list after a call. -/
def specStep [DecidableEq T] (items : List (Ptr × T)) : Op T → List (Ptr × T)
  | .pushFront value addr => (addr, value) :: items
  | .pushBack value addr => items ++ [(addr, value)]
  | .popFront => items.tail
  | .popBack => items.dropLast
  | .insert pos value addr => before pos items ++ (addr, value) :: after pos items
  | .erase pos => before pos items ++ (after pos items).tail
  | .remove value => items.filter fun e => e.2 ≠ value
  | .clear => []

/-- The iterator that a call returns. -/
def returned (tail : Ptr) (items : List (Ptr × T)) : Op T → Option Ptr
  | .insert _ _ addr => some addr
  | .erase pos => some (first (after pos items).tail tail)
  | _ => none

/-- The call removes the element `e`. -/
def Removes (items : List (Ptr × T)) (e : Ptr × T) : Op T → Prop
  | .popFront => items.head? = some e
  | .popBack => items.getLast? = some e
  | .erase pos => e.1 = pos
  | .remove value => e.2 = value
  | .clear => True
  | _ => False

/-- The pairs met from `_head->_next` along `_next` to `_tail`. -/
def forward (s : LinkedList T) : Option (List (Ptr × T)) := do
  walkNext s.heap (s.heap.size + 1) (← begin s) s.tail

/-- The pairs met from `_tail->_prev` along `_prev` to `_head`. -/
def backward (s : LinkedList T) : Option (List (Ptr × T)) := do
  let t ← s.heap.load s.tail
  walkPrev s.heap (s.heap.size + 1) t.prev s.head

/-- The list object shows these elements. -/
structure Shows (s : LinkedList T) (items : List (Ptr × T)) : Prop where
  forward : forward s = some items
  backward : backward s = some items.reverse
  denotes : ∀ e ∈ items, (s.heap.load e.1).map Node.data = some e.2
  front : ∀ e rest, items = e :: rest → front s = some e.2
  back : ∀ e rest, items = rest ++ [e] → back s = some e.2

/-! ## The representation -/

/-- The sentinels and what is between them. -/
def whole (s : LinkedList T) (d d' : T) (items : List (Ptr × T)) : List (Ptr × T) :=
  (s.head, d) :: items ++ [(s.tail, d')]

structure Rep (s : LinkedList T) (items : List (Ptr × T)) : Prop where
  chain : ∃ d d', Chain s.heap 0 (whole s d d' items) 0
  nodup : (s.head :: addrs items ++ [s.tail]).Nodup
  live : ∀ a, s.heap.load a ≠ none → a ∈ s.head :: addrs items ++ [s.tail]

variable {s s' : LinkedList T} {items A B : List (Ptr × T)} {addr pos : Ptr} {value : T}
  {e : Ptr × T}

theorem addrs_whole (s : LinkedList T) (d d' : T) (items : List (Ptr × T)) :
    addrs (whole s d d' items) = s.head :: addrs items ++ [s.tail] := by
  rw [whole, addrs_append, addrs_cons]
  rfl

theorem make_rep [Inhabited T] {head tail : Ptr} (hhead : head ≠ 0) (htail : tail ≠ 0)
    (hne : head ≠ tail) (hmake : make head tail = some s) : Rep s [] := by
  have hload : ((Heap.empty.set head (⟨default, 0, 0⟩ : Node T)).set tail ⟨default, 0, 0⟩).load
      head = some ⟨default, 0, 0⟩ := by
    rw [Heap.load_set_of_ne htail hne, Heap.load_set_self hhead]
  have hload' : (((Heap.empty.set head (⟨default, 0, 0⟩ : Node T)).set tail
      ⟨default, 0, 0⟩).set head ⟨default, tail, 0⟩).load tail = some ⟨default, 0, 0⟩ := by
    rw [Heap.load_set_of_ne hhead hne.symm, Heap.load_set_self htail]
  rw [make, Heap.modify_eq hload, Option.bind_eq_bind, Option.bind_some,
    Heap.modify_eq hload'] at hmake
  cases hmake
  refine ⟨⟨default, default, ?_, ?_, trivial⟩, ?_, fun a ha => ?_⟩
  · rw [Heap.load_set_of_ne htail hne, Heap.load_set_self hhead]
    rfl
  · exact Heap.load_set_self htail
  · simpa using hne
  · rw [Heap.load_set htail, Heap.load_set hhead, Heap.load_set htail, Heap.load_set hhead] at ha
    by_cases hat : a = tail
    · simp [hat]
    · by_cases hah : a = head
      · simp [hah]
      · simp [hat, hah] at ha

/-- The neighbours at a place in the list. -/
theorem whole_split (s : LinkedList T) (d d' : T) (A B : List (Ptr × T)) :
    ∃ l q r l', whole s d d' (A ++ B) = l ++ q :: r :: l' ∧ (s.head, d) :: A = l ++ [q] ∧
      B ++ [(s.tail, d')] = r :: l' ∧ r.1 = first B s.tail := by
  obtain ⟨l, q, hl⟩ : ∃ l q, (s.head, d) :: A = l ++ [q] :=
    ⟨_, _, (List.dropLast_append_getLast (List.cons_ne_nil _ _)).symm⟩
  have hright : ∃ r l', B ++ [(s.tail, d')] = r :: l' ∧ r.1 = first B s.tail := by
    cases B with
    | nil => exact ⟨_, _, rfl, rfl⟩
    | cons e B => exact ⟨_, _, rfl, rfl⟩
  obtain ⟨r, l', hr, hfirst⟩ := hright
  refine ⟨l, q, r, l', ?_, hl, hr, hfirst⟩
  rw [whole, ← List.cons_append, hl, List.append_assoc, hr, List.append_assoc]
  rfl

/-- One address more. -/
theorem perm_insert (s : LinkedList T) (A B : List (Ptr × T)) (e : Ptr × T) :
    (s.head :: addrs (A ++ e :: B) ++ [s.tail]).Perm
      (e.1 :: (s.head :: addrs (A ++ B) ++ [s.tail])) := by
  rw [addrs_append, addrs_append, addrs_cons]
  have hmid : (addrs A ++ e.1 :: addrs B).Perm (e.1 :: (addrs A ++ addrs B)) := List.perm_middle
  exact ((hmid.cons s.head).trans (List.Perm.swap _ _ _)).append_right [s.tail]

theorem Rep.nodup_whole (hrep : Rep s items) (d d' : T) : (addrs (whole s d d' items)).Nodup := by
  rw [addrs_whole]
  exact hrep.nodup

/-! ## Insertion -/

/-- Once the node is built, its neighbours are left to be pointed to it. -/
theorem insert_built {n : Node T} (haddr : addr ≠ 0) (hpos : pos ≠ addr)
    (hload : s.heap.load pos = some n) :
    insert s pos value addr = (do
      let h := s.heap.set addr ⟨value, pos, n.prev⟩
      let p ← h.load pos
      let h ← h.modify p.prev fun n => { n with next := addr }
      let h ← h.modify pos fun n => { n with prev := addr }
      some ({ s with heap := h }, addr)) := by
  rw [insert, Heap.modify_eq (Heap.load_set_self haddr)]
  simp only [Option.bind_eq_bind, Option.bind_some]
  rw [Heap.set_set, Heap.load_set_of_ne haddr hpos, hload, Option.bind_some,
    Heap.modify_eq (Heap.load_set_self haddr), Option.bind_some, Heap.set_set]

/-- The four writes, in a chain. -/
theorem insert_chain {l l' : List (Ptr × T)} {q r : Ptr × T}
    (hc : Chain s.heap 0 (l ++ q :: r :: l') 0) (hnodup : (addrs (l ++ q :: r :: l')).Nodup)
    (hfresh : s.heap.Fresh addr) (value : T) :
    ∃ h', insert s r.1 value addr = some (⟨h', s.head, s.tail⟩, addr) ∧
      Chain h' 0 (l ++ q :: (addr, value) :: r :: l') 0 ∧
      ∀ a, h'.load a ≠ none → a = addr ∨ s.heap.load a ≠ none := by
  obtain ⟨haddr, hnone⟩ := hfresh
  obtain ⟨-, hq, hr, -⟩ := chain_pair.mp hc
  have hq0 : q.1 ≠ 0 := Heap.ne_null_of_load hq
  have hr0 : r.1 ≠ 0 := Heap.ne_null_of_load hr
  have hqaddr : q.1 ≠ addr := Heap.ne_of_load hq hnone
  have hraddr : r.1 ≠ addr := Heap.ne_of_load hr hnone
  have hqr : q.1 ≠ r.1 := by
    rw [addrs_append, List.nodup_append] at hnodup
    intro heq
    exact (List.nodup_cons.mp hnodup.2.1).1 (heq ▸ List.mem_cons_self)
  -- the node is built and pointed to its neighbours
  generalize hh : s.heap.set addr ⟨value, r.1, q.1⟩ = h
  have hself : h.load addr = some ⟨value, r.1, q.1⟩ := hh ▸ Heap.load_set_self haddr
  have hother : ∀ a, a ≠ addr → h.load a = s.heap.load a := by
    intro a ha
    rw [← hh, Heap.load_set_of_ne haddr ha]
  -- the neighbours are pointed to it
  generalize hh' : h.set q.1 ⟨q.2, addr, last 0 l⟩ = h'
  have hr' : h'.load r.1 = some ⟨r.2, first l' 0, q.1⟩ := by
    rw [← hh', Heap.load_set_of_ne hq0 hqr.symm, hother r.1 hraddr, hr]
  have hcode : insert s r.1 value addr =
      some (⟨h'.set r.1 ⟨r.2, first l' 0, addr⟩, s.head, s.tail⟩, addr) := by
    rw [insert_built haddr hraddr hr, hh]
    show (h.load r.1).bind _ = _
    rw [hother r.1 hraddr, hr, Option.bind_some, Option.bind_eq_bind,
      Heap.modify_eq ((hother q.1 hqaddr).trans hq), Option.bind_some]
    dsimp only [first_cons]
    rw [hh', Heap.modify_eq hr', Option.bind_some]
  have hsame : ∀ a, a ≠ addr → a ≠ q.1 → a ≠ r.1 →
      (h'.set r.1 ⟨r.2, first l' 0, addr⟩).load a = s.heap.load a := by
    intro a ha haq har
    rw [Heap.load_set_of_ne hr0 har, ← hh', Heap.load_set_of_ne hq0 haq, hother a ha]
  refine ⟨_, hcode, ?_, fun a hlive => ?_⟩
  · refine chain_link hc hnodup (hc.not_mem hnone) ?_ ?_ (Heap.load_set_self hr0) hsame
    · rw [Heap.load_set_of_ne hr0 hraddr.symm, ← hh', Heap.load_set_of_ne hq0 hqaddr.symm, hself]
    · rw [Heap.load_set_of_ne hr0 hqr, ← hh', Heap.load_set_self hq0]
  · by_cases ha : a = addr
    · exact .inl ha
    · refine .inr fun hdead => hlive ?_
      have har : a ≠ r.1 := (Heap.ne_of_load hr hdead).symm
      have haq : a ≠ q.1 := (Heap.ne_of_load hq hdead).symm
      rw [hsame a ha haq har, hdead]

theorem insert_ok (hrep : Rep s (A ++ B)) (hfresh : s.heap.Fresh addr) (value : T) :
    ∃ h', insert s (first B s.tail) value addr = some (⟨h', s.head, s.tail⟩, addr) ∧
      Rep ⟨h', s.head, s.tail⟩ (A ++ (addr, value) :: B) := by
  obtain ⟨d, d', hc⟩ := hrep.chain
  have hnodup := hrep.nodup_whole d d'
  obtain ⟨l, q, r, l', hwhole, hl, hr, hfirst⟩ := whole_split s d d' A B
  rw [hwhole] at hc hnodup
  obtain ⟨h', hcode, hc', hlive⟩ := insert_chain hc hnodup hfresh value
  have hwhole' : whole ⟨h', s.head, s.tail⟩ d d' (A ++ (addr, value) :: B) =
      l ++ q :: (addr, value) :: r :: l' := by
    rw [whole, ← List.cons_append, hl, List.append_assoc, List.cons_append, hr, List.append_assoc]
    rfl
  have hnew : addr ∉ s.head :: addrs (A ++ B) ++ [s.tail] := by
    rw [← addrs_whole s d d', hwhole]
    exact hc.not_mem hfresh.2
  have hperm := perm_insert s A B (addr, value)
  refine ⟨h', hfirst ▸ hcode, ⟨d, d', hwhole' ▸ hc'⟩, ?_, fun a ha => ?_⟩
  · exact hperm.nodup_iff.mpr (List.nodup_cons.mpr ⟨hnew, hrep.nodup⟩)
  · refine hperm.mem_iff.mpr (List.mem_cons.mpr ?_)
    exact (hlive a ha).imp id (hrep.live a)

/-! ## Removal -/

/-- The two writes and the `delete`, in a chain. -/
theorem erase_chain {l l' : List (Ptr × T)} {q r : Ptr × T}
    (hc : Chain s.heap 0 (l ++ q :: e :: r :: l') 0)
    (hnodup : (addrs (l ++ q :: e :: r :: l')).Nodup) (hinner : ¬ (e.1 = s.head ∨ e.1 = s.tail)) :
    ∃ h', erase s e.1 = some (⟨h', s.head, s.tail⟩, r.1) ∧ Chain h' 0 (l ++ q :: r :: l') 0 ∧
      ∀ a, h'.load a ≠ none → a ≠ e.1 ∧ s.heap.load a ≠ none := by
  obtain ⟨-, hq, he, hr, -⟩ := chain_pair.mp hc
  have hq0 : q.1 ≠ 0 := Heap.ne_null_of_load hq
  have hr0 : r.1 ≠ 0 := Heap.ne_null_of_load hr
  have hdistinct : q.1 ≠ e.1 ∧ q.1 ≠ r.1 ∧ e.1 ≠ r.1 := by
    have hright := (List.nodup_append.mp (addrs_append ▸ hnodup)).2.1
    simp only [addrs_cons, List.nodup_cons, List.mem_cons, not_or] at hright
    exact ⟨hright.1.1, hright.1.2.1, hright.2.1.1⟩
  obtain ⟨hqe, hqr, her⟩ := hdistinct
  generalize hh₁ : s.heap.set q.1 ⟨q.2, r.1, last 0 l⟩ = h₁
  have he₁ : h₁.load e.1 = some ⟨e.2, r.1, q.1⟩ := by
    rw [← hh₁, Heap.load_set_of_ne hq0 hqe.symm, he]
    rfl
  have hr₁ : h₁.load r.1 = some ⟨r.2, first l' 0, e.1⟩ := by
    rw [← hh₁, Heap.load_set_of_ne hq0 hqr.symm, hr]
  generalize hh₂ : h₁.set r.1 ⟨r.2, first l' 0, q.1⟩ = h₂
  have he₂ : h₂.load e.1 = some ⟨e.2, r.1, q.1⟩ := by
    rw [← hh₂, Heap.load_set_of_ne hr0 her, he₁]
  have hcode : erase s e.1 = some (⟨h₂.drop e.1, s.head, s.tail⟩, r.1) := by
    rw [erase, if_neg hinner, he]
    simp only [Option.bind_eq_bind, Option.bind_some]
    rw [Heap.modify_eq hq, Option.bind_some]
    dsimp only [first_cons]
    rw [hh₁, he₁, Option.bind_some, Heap.modify_eq hr₁, Option.bind_some]
    dsimp only
    rw [hh₂, he₂, Option.bind_some, Heap.free_eq he₂, Option.bind_some]
  have hother : ∀ a, a ≠ e.1 → a ≠ q.1 → a ≠ r.1 → (h₂.drop e.1).load a = s.heap.load a := by
    intro a hae haq har
    rw [Heap.load_drop_of_ne hae, ← hh₂, Heap.load_set_of_ne hr0 har, ← hh₁,
      Heap.load_set_of_ne hq0 haq]
  refine ⟨_, hcode, chain_unlink hc hnodup ?_ ?_ hother, fun a hlive => ?_⟩
  · rw [Heap.load_drop_of_ne hqe, ← hh₂, Heap.load_set_of_ne hr0 hqr, ← hh₁, Heap.load_set_self hq0]
  · rw [Heap.load_drop_of_ne her.symm, ← hh₂, Heap.load_set_self hr0]
  · have hae : a ≠ e.1 := by
      rintro rfl
      exact hlive (by rw [Heap.load_drop, if_pos rfl])
    refine ⟨hae, fun hdead => hlive ?_⟩
    have har : a ≠ r.1 := (Heap.ne_of_load hr hdead).symm
    have haq : a ≠ q.1 := (Heap.ne_of_load hq hdead).symm
    rw [hother a hae haq har, hdead]

/-- An element is at neither sentinel, and nowhere else. -/
theorem Rep.inner (hrep : Rep s (A ++ e :: B)) :
    (e.1 ≠ s.head ∧ e.1 ≠ s.tail) ∧ e.1 ∉ addrs A ∧ e.1 ∉ addrs B := by
  have hnodup := hrep.nodup
  rw [addrs_append, addrs_cons, List.cons_append, List.nodup_cons, List.append_assoc,
    List.nodup_append] at hnodup
  obtain ⟨hhead, -, hright, hdisj⟩ := hnodup
  rw [List.cons_append, List.nodup_cons] at hright
  refine ⟨⟨?_, ?_⟩, ?_, ?_⟩
  · rintro heq
    exact hhead (heq ▸ List.mem_append_right _ List.mem_cons_self)
  · rintro heq
    exact hright.1 (List.mem_append_right _ (List.mem_singleton.mpr heq))
  · intro hmem
    exact hdisj e.1 hmem e.1 List.mem_cons_self rfl
  · intro hmem
    exact hright.1 (List.mem_append_left _ hmem)

theorem erase_ok (hrep : Rep s (A ++ e :: B)) :
    ∃ h', erase s e.1 = some (⟨h', s.head, s.tail⟩, first B s.tail) ∧
      Rep ⟨h', s.head, s.tail⟩ (A ++ B) := by
  obtain ⟨d, d', hc⟩ := hrep.chain
  have hnodup := hrep.nodup_whole d d'
  obtain ⟨l, q, r, l', -, hl, hr, hfirst⟩ := whole_split s d d' A B
  have hwhole : whole s d d' (A ++ e :: B) = l ++ q :: e :: r :: l' := by
    rw [whole, ← List.cons_append, hl, List.append_assoc, List.cons_append, hr, List.append_assoc]
    rfl
  rw [hwhole] at hc hnodup
  have hinner := hrep.inner.1
  obtain ⟨h', hcode, hc', hlive⟩ := erase_chain hc hnodup (not_or.mpr hinner)
  have hwhole' : whole ⟨h', s.head, s.tail⟩ d d' (A ++ B) = l ++ q :: r :: l' := by
    rw [whole, ← List.cons_append, hl, List.append_assoc, hr, List.append_assoc]
    rfl
  have hperm := perm_insert s A B e
  refine ⟨h', hfirst ▸ hcode, ⟨d, d', hwhole' ▸ hc'⟩, ?_, fun a ha => ?_⟩
  · exact (List.nodup_cons.mp (hperm.nodup_iff.mp hrep.nodup)).2
  · obtain ⟨hne, hwas⟩ := hlive a ha
    exact (List.mem_cons.mp (hperm.mem_iff.mp (hrep.live a hwas))).resolve_left hne

/-! ## The ends -/

theorem Rep.load_head (hrep : Rep s items) : ∃ n, s.heap.load s.head = some n ∧
    n.next = first items s.tail := by
  obtain ⟨d, d', hc⟩ := hrep.chain
  exact ⟨_, hc.1, first_append⟩

theorem Rep.begin_eq (hrep : Rep s items) : begin s = some (first items s.tail) := by
  obtain ⟨n, hload, hnext⟩ := hrep.load_head
  rw [begin, hload, Option.map_some, hnext]

theorem Rep.load_tail (hrep : Rep s items) : ∃ n, s.heap.load s.tail = some n ∧
    n.prev = last s.head items := by
  obtain ⟨d, d', hc⟩ := hrep.chain
  rw [whole, chain_append] at hc
  exact ⟨_, hc.2.1, rfl⟩

theorem Rep.first_eq_tail (hrep : Rep s items) : first items s.tail = s.tail ↔ items = [] := by
  cases items with
  | nil => exact ⟨fun _ => rfl, fun _ => rfl⟩
  | cons e B =>
      refine ⟨fun heq => ?_, fun hnil => by cases hnil⟩
      exact absurd heq (@Rep.inner _ s [] B e hrep).1.2

theorem Rep.empty_eq (hrep : Rep s items) : empty s = some (decide (items = [])) := by
  rw [empty, hrep.begin_eq]
  exact congrArg some (decide_eq_decide.mpr hrep.first_eq_tail)

/-- The chain between the sentinels. -/
theorem Rep.middle (hrep : Rep s items) : Chain s.heap s.head items s.tail := by
  obtain ⟨d, d', hc⟩ := hrep.chain
  exact (chain_append.mp hc.2).1

theorem Rep.load_inner (hrep : Rep s (A ++ e :: B)) :
    ∃ p, s.heap.load e.1 = some ⟨e.2, first B s.tail, p⟩ :=
  ⟨_, (chain_append.mp hrep.middle).2.1⟩

theorem Rep.nodup_items (hrep : Rep s items) :
    (addrs items).Nodup ∧ s.head ∉ addrs items ∧ s.tail ∉ addrs items ∧ s.head ≠ s.tail := by
  have hnodup := hrep.nodup
  rw [List.cons_append, List.nodup_cons, List.nodup_append, List.mem_append, not_or] at hnodup
  obtain ⟨⟨hhead, hheadtail⟩, hitems, -, hdisj⟩ := hnodup
  refine ⟨hitems, hhead, fun hmem => ?_, fun heq => ?_⟩
  · exact hdisj s.tail hmem s.tail (List.mem_singleton.mpr rfl) rfl
  · exact hheadtail (List.mem_singleton.mpr heq)

/-- The fuel of the loops is enough. -/
theorem Rep.length_lt (hrep : Rep s items) : items.length < s.heap.size + 1 := by
  refine Nat.lt_succ_of_le ?_
  have hlen : (addrs items).length = items.length := List.length_map _
  rw [← hlen]
  exact Heap.length_le_size hrep.nodup_items.1 fun a ha hdead => hrep.middle.not_mem hdead ha

/-- The object shows the elements that it represents. -/
theorem Rep.shows (hrep : Rep s items) : Shows s items := by
  obtain ⟨-, hhead, htail, -⟩ := hrep.nodup_items
  obtain ⟨t, hload, hprev⟩ := hrep.load_tail
  refine ⟨?_, ?_, ?_, ?_, ?_⟩
  · rw [forward, hrep.begin_eq]
    exact walkNext_eq hrep.middle htail hrep.length_lt
  · rw [backward, hload, Option.bind_eq_bind, Option.bind_some, hprev]
    exact walkPrev_eq hrep.middle hhead hrep.length_lt
  · intro e he
    obtain ⟨p, n, hload⟩ := hrep.middle.load he
    rw [hload, Option.map_some]
  · rintro e rest rfl
    obtain ⟨p, he⟩ := @Rep.load_inner _ s [] rest e hrep
    rw [front, hrep.begin_eq, Option.bind_eq_bind, Option.bind_some, first_cons, he]
    rfl
  · rintro e rest rfl
    obtain ⟨p, he⟩ := hrep.load_inner
    rw [back, hload, Option.bind_eq_bind, Option.bind_some, hprev, last_append, last_cons, last_nil,
      he]
    rfl

/-! ## The loops -/

theorem clearLoop_ok {h : Heap (Node T)} {prev tail : Ptr} (hc : Chain h prev items tail)
    (hnodup : (addrs items).Nodup) (htail : tail ∉ addrs items) {fuel : Nat}
    (hfuel : items.length < fuel) :
    ∃ h', clearLoop fuel h (first items tail) tail = some h' ∧
      ∀ a, h'.load a = if a ∈ addrs items then none else h.load a := by
  induction items generalizing h prev fuel with
  | nil =>
      obtain ⟨n, rfl⟩ := Nat.exists_eq_add_one_of_ne_zero (Nat.ne_of_gt hfuel)
      refine ⟨h, ?_, fun a => (if_neg List.not_mem_nil).symm⟩
      rw [first_nil, clearLoop, if_pos rfl]
  | cons e items ih =>
      obtain ⟨n, rfl⟩ := Nat.exists_eq_add_one_of_ne_zero (Nat.ne_of_gt (Nat.zero_lt_of_lt hfuel))
      rw [addrs_cons, List.nodup_cons] at hnodup
      rw [addrs_cons, List.mem_cons, not_or] at htail
      have hrest : Chain (h.drop e.1) e.1 items tail := by
        refine hc.2.congr fun a ha => Heap.load_drop_of_ne ?_
        rintro rfl
        exact hnodup.1 ha
      obtain ⟨h', hloop, hload⟩ :=
        ih hrest hnodup.2 htail.2 (Nat.lt_of_succ_lt_succ hfuel)
      refine ⟨h', ?_, fun a => ?_⟩
      · rw [first_cons, clearLoop, if_neg (Ne.symm htail.1), hc.1, Option.bind_eq_bind,
          Option.bind_some, Heap.free_eq hc.1]
        exact hloop
      · rw [hload a, addrs_cons, Heap.load_drop]
        by_cases ha : a = e.1
        · simp [ha]
        · simp [ha]

theorem clear_ok (hrep : Rep s items) :
    ∃ h', clear s = some ⟨h', s.head, s.tail⟩ ∧ Rep ⟨h', s.head, s.tail⟩ [] := by
  obtain ⟨hnodup, hhead, htail, hne⟩ := hrep.nodup_items
  obtain ⟨h₁, hloop, hload⟩ := clearLoop_ok hrep.middle hnodup htail hrep.length_lt
  obtain ⟨d, d', hc⟩ := hrep.chain
  have hloadhead : ∃ n, h₁.load s.head = some ⟨d, n, 0⟩ := by
    rw [hload, if_neg hhead]
    exact ⟨_, hc.1⟩
  have hloadtail : ∃ p, h₁.load s.tail = some ⟨d', 0, p⟩ := by
    rw [hload, if_neg htail]
    exact ⟨_, (chain_append.mp hc.2).2.1⟩
  obtain ⟨n, hn⟩ := hloadhead
  obtain ⟨p, hp⟩ := hloadtail
  have hhead0 : s.head ≠ 0 := Heap.ne_null_of_load hn
  have htail0 : s.tail ≠ 0 := Heap.ne_null_of_load hp
  have hp' : (h₁.set s.head ⟨d, s.tail, 0⟩).load s.tail = some ⟨d', 0, p⟩ := by
    rw [Heap.load_set_of_ne hhead0 hne.symm, hp]
  refine ⟨(h₁.set s.head ⟨d, s.tail, 0⟩).set s.tail ⟨d', 0, s.head⟩, ?_, ?_⟩
  · rw [clear, hrep.begin_eq, Option.bind_eq_bind, Option.bind_some, hloop]
    simp only [Option.bind_eq_bind, Option.bind_some]
    rw [Heap.modify_eq hn, Option.bind_some, Heap.modify_eq hp']
    rfl
  · refine ⟨⟨d, d', ?_, ?_, trivial⟩, ?_, fun a ha => ?_⟩
    · rw [Heap.load_set_of_ne htail0 hne, Heap.load_set_self hhead0]
      rfl
    · exact Heap.load_set_self htail0
    · simpa using hne
    · rw [Heap.load_set htail0, Heap.load_set hhead0, hload] at ha
      by_cases hat : a = s.tail
      · simp [hat]
      · by_cases hah : a = s.head
        · simp [hah]
        · rw [if_neg hat, if_neg hah] at ha
          split at ha
          · exact absurd rfl ha
          case isFalse hout =>
            have hmem := hrep.live a ha
            simp [hat, hah, hout] at hmem

theorem removeLoop_ok [DecidableEq T] (value : T) (hrep : Rep s (A ++ B)) {fuel : Nat}
    (hfuel : B.length < fuel) :
    ∃ h', removeLoop value fuel s (first B s.tail) = some ⟨h', s.head, s.tail⟩ ∧
      Rep ⟨h', s.head, s.tail⟩ (A ++ B.filter fun e => e.2 ≠ value) := by
  induction B generalizing s A fuel with
  | nil =>
      obtain ⟨n, rfl⟩ := Nat.exists_eq_add_one_of_ne_zero (Nat.ne_of_gt hfuel)
      refine ⟨s.heap, ?_, hrep⟩
      rw [first_nil, removeLoop, if_pos rfl]
  | cons e B ih =>
      obtain ⟨n, rfl⟩ := Nat.exists_eq_add_one_of_ne_zero (Nat.ne_of_gt (Nat.zero_lt_of_lt hfuel))
      have hlt := Nat.lt_of_succ_lt_succ hfuel
      obtain ⟨p, hload⟩ := hrep.load_inner
      rw [first_cons, removeLoop, if_neg hrep.inner.1.2, hload]
      simp only [Option.bind_eq_bind, Option.bind_some]
      by_cases hvalue : e.2 = value
      · obtain ⟨h₁, herase, hrep₁⟩ := erase_ok hrep
        obtain ⟨h', hloop, hrep'⟩ := ih hrep₁ hlt
        refine ⟨h', ?_, ?_⟩
        · rw [if_pos hvalue, herase, Option.bind_some]
          exact hloop
        · rw [List.filter_cons_of_neg (by simpa using hvalue)]
          exact hrep'
      · have hview : A ++ e :: B = (A ++ [e]) ++ B := by simp
        obtain ⟨h', hloop, hrep'⟩ := ih (hview ▸ hrep) hlt
        refine ⟨h', ?_, ?_⟩
        · rw [if_neg hvalue]
          exact hloop
        · rw [List.filter_cons_of_pos (by simpa using hvalue)]
          rwa [List.append_assoc] at hrep'

theorem remove_ok [DecidableEq T] (hrep : Rep s items) (value : T) :
    ∃ h', remove s value = some ⟨h', s.head, s.tail⟩ ∧
      Rep ⟨h', s.head, s.tail⟩ (items.filter fun e => e.2 ≠ value) := by
  rw [remove, hrep.begin_eq]
  exact @removeLoop_ok _ s [] items _ value hrep _ hrep.length_lt

/-! ## Every call -/

theorem before_append_after (pos : Ptr) (items : List (Ptr × T)) :
    before pos items ++ after pos items = items :=
  List.takeWhile_append_dropWhile

theorem after_head (hafter : after pos items = e :: B) : e.1 = pos := by
  have hne : after pos items ≠ [] := hafter ▸ List.cons_ne_nil e B
  have hhd : (after pos items).head hne = e := by simp only [hafter, List.head_cons]
  have hstop : decide (((after pos items).head hne).1 ≠ pos) = false :=
    List.head_dropWhile_not (fun e : Ptr × T => decide (e.1 ≠ pos)) hne
  rw [hhd] at hstop
  simpa using hstop

/-- An iterator is where the elements from it on begin. -/
theorem Rep.first_after (hrep : Rep s items) (hpos : Points s pos) :
    first (after pos items) s.tail = pos := by
  obtain ⟨hhead, hload⟩ := hpos
  cases hafter : after pos items with
  | nil =>
      have hout : pos ∉ addrs items := by
        intro hmem
        obtain ⟨e, he, rfl⟩ := List.mem_map.mp hmem
        simpa using List.dropWhile_eq_nil_iff.mp hafter e he
      have hmem := hrep.live pos hload
      rw [List.cons_append, List.mem_cons, List.mem_append, List.mem_singleton] at hmem
      exact ((hmem.resolve_left hhead).resolve_left hout).symm
  | cons e B => exact after_head hafter

theorem insert_at_ok (hrep : Rep s items) (hpos : Points s pos) (hfresh : s.heap.Fresh addr)
    (value : T) :
    ∃ h', insert s pos value addr = some (⟨h', s.head, s.tail⟩, addr) ∧
      Rep ⟨h', s.head, s.tail⟩ (before pos items ++ (addr, value) :: after pos items) := by
  have hview := before_append_after pos items
  obtain ⟨h', hcode, hrep'⟩ := insert_ok (hview.symm ▸ hrep) hfresh value
  rw [hrep.first_after hpos] at hcode
  exact ⟨h', hcode, hrep'⟩

/-- Nothing is removed at `end()`. -/
theorem erase_at_ok (hrep : Rep s items) (hpos : Points s pos) :
    ∃ h', erase s pos =
        some (⟨h', s.head, s.tail⟩, first (after pos items).tail s.tail) ∧
      Rep ⟨h', s.head, s.tail⟩ (before pos items ++ (after pos items).tail) := by
  have hview := before_append_after pos items
  have hfirst := hrep.first_after hpos
  cases hafter : after pos items with
  | nil =>
      rw [hafter] at hfirst hview
      rw [List.append_nil] at hview
      refine ⟨s.heap, ?_, ?_⟩
      · rw [← hfirst, first_nil, erase, if_pos (Or.inr rfl)]
        rfl
      · rw [List.tail_nil, List.append_nil, hview]
        exact hrep
  | cons e B =>
      rw [hafter] at hfirst hview
      obtain ⟨h', hcode, hrep'⟩ := erase_ok (hview.symm ▸ hrep)
      rw [first_cons] at hfirst
      rw [hfirst] at hcode
      exact ⟨h', hcode, hrep'⟩

theorem pushFront_ok (hrep : Rep s items) (hfresh : s.heap.Fresh addr) (value : T) :
    ∃ h', pushFront s value addr = some ⟨h', s.head, s.tail⟩ ∧
      Rep ⟨h', s.head, s.tail⟩ ((addr, value) :: items) := by
  obtain ⟨h', hcode, hrep'⟩ := @insert_ok _ s [] items addr hrep hfresh value
  refine ⟨h', ?_, hrep'⟩
  rw [pushFront, hrep.begin_eq, Option.bind_eq_bind, Option.bind_some, hcode]
  rfl

theorem pushBack_ok (hrep : Rep s items) (hfresh : s.heap.Fresh addr) (value : T) :
    ∃ h', pushBack s value addr = some ⟨h', s.head, s.tail⟩ ∧
      Rep ⟨h', s.head, s.tail⟩ (items ++ [(addr, value)]) := by
  have hview : items ++ [] = items := List.append_nil items
  obtain ⟨h', hcode, hrep'⟩ := insert_ok (hview.symm ▸ hrep) hfresh value
  refine ⟨h', ?_, hrep'⟩
  rw [first_nil] at hcode
  rw [pushBack, hcode]
  rfl

theorem popFront_ok (hrep : Rep s items) :
    ∃ h', popFront s = some ⟨h', s.head, s.tail⟩ ∧ Rep ⟨h', s.head, s.tail⟩ items.tail := by
  rw [popFront, hrep.empty_eq, Option.bind_eq_bind, Option.bind_some]
  cases items with
  | nil => exact ⟨s.heap, rfl, hrep⟩
  | cons e B =>
      obtain ⟨h', hcode, hrep'⟩ := @erase_ok _ s [] B e hrep
      refine ⟨h', ?_, hrep'⟩
      rw [if_neg (by simp), hrep.begin_eq, Option.bind_eq_bind, Option.bind_some, first_cons, hcode]
      rfl

theorem popBack_ok (hrep : Rep s items) :
    ∃ h', popBack s = some ⟨h', s.head, s.tail⟩ ∧ Rep ⟨h', s.head, s.tail⟩ items.dropLast := by
  rw [popBack, hrep.empty_eq, Option.bind_eq_bind, Option.bind_some]
  rcases List.eq_nil_or_concat items with rfl | ⟨A, e, rfl⟩
  · exact ⟨s.heap, rfl, hrep⟩
  · rw [List.concat_eq_append] at hrep ⊢
    obtain ⟨t, hload, hprev⟩ := hrep.load_tail
    rw [last_append, last_cons, last_nil] at hprev
    obtain ⟨h', hcode, hrep'⟩ := erase_ok hrep
    refine ⟨h', ?_, ?_⟩
    · rw [if_neg (by simp), hload, Option.bind_eq_bind, Option.bind_some, hprev, hcode]
      rfl
    · rw [List.dropLast_concat, ← List.append_nil A]
      exact hrep'

/-- A call returns, does what the list that it stands for does, and moves no sentinel. -/
theorem call_ok [DecidableEq T] (hrep : Rep s items) {op : Op T} (hop : Allowed s op) :
    ∃ h', call s op = some (⟨h', s.head, s.tail⟩, returned s.tail items op) ∧
      Rep ⟨h', s.head, s.tail⟩ (specStep items op) := by
  cases op with
  | pushFront value addr =>
      obtain ⟨h', hcode, hrep'⟩ := pushFront_ok hrep hop value
      exact ⟨h', by rw [call, hcode]; rfl, hrep'⟩
  | pushBack value addr =>
      obtain ⟨h', hcode, hrep'⟩ := pushBack_ok hrep hop value
      exact ⟨h', by rw [call, hcode]; rfl, hrep'⟩
  | popFront =>
      obtain ⟨h', hcode, hrep'⟩ := popFront_ok hrep
      exact ⟨h', by rw [call, hcode]; rfl, hrep'⟩
  | popBack =>
      obtain ⟨h', hcode, hrep'⟩ := popBack_ok hrep
      exact ⟨h', by rw [call, hcode]; rfl, hrep'⟩
  | insert pos value addr =>
      obtain ⟨h', hcode, hrep'⟩ := insert_at_ok hrep hop.1 hop.2 value
      exact ⟨h', by rw [call, hcode]; rfl, hrep'⟩
  | erase pos =>
      obtain ⟨h', hcode, hrep'⟩ := erase_at_ok hrep hop
      exact ⟨h', by rw [call, hcode]; rfl, hrep'⟩
  | remove value =>
      obtain ⟨h', hcode, hrep'⟩ := remove_ok hrep value
      exact ⟨h', by rw [call, hcode]; rfl, hrep'⟩
  | clear =>
      obtain ⟨h', hcode, hrep'⟩ := clear_ok hrep
      exact ⟨h', by rw [call, hcode]; rfl, hrep'⟩

/-- What is not removed stays. -/
theorem mem_specStep [DecidableEq T] (he : e ∈ items) {op : Op T} (hkept : ¬ Removes items e op) :
    e ∈ specStep items op := by
  cases op with
  | pushFront value addr => exact List.mem_cons_of_mem _ he
  | pushBack value addr => exact List.mem_append_left _ he
  | popFront =>
      cases items with
      | nil => cases he
      | cons e' B =>
          refine List.mem_of_ne_of_mem (fun heq => hkept ?_) he
          rw [Removes, heq, List.head?_cons]
  | popBack =>
      rcases List.eq_nil_or_concat items with rfl | ⟨A, e', rfl⟩
      · cases he
      · rw [List.concat_eq_append] at he hkept ⊢
        rw [specStep, List.dropLast_concat]
        refine (List.mem_append.mp he).resolve_right fun hlast => hkept ?_
        rw [Removes, List.mem_singleton.mp hlast, List.getLast?_concat]
  | insert pos value addr =>
      rw [← before_append_after pos items] at he
      exact (List.mem_append.mp he).elim (List.mem_append_left _)
        fun hright => List.mem_append_right _ (List.mem_cons_of_mem _ hright)
  | erase pos =>
      rw [← before_append_after pos items] at he
      refine (List.mem_append.mp he).elim (List.mem_append_left _) fun hright => ?_
      refine List.mem_append_right _ ?_
      cases hafter : after pos items with
      | nil =>
          rw [hafter] at hright
          cases hright
      | cons e' B =>
          rw [hafter] at hright
          refine List.mem_of_ne_of_mem (fun heq => hkept ?_) hright
          rw [Removes, heq, after_head hafter]
  | remove value => exact List.mem_filter.mpr ⟨he, decide_eq_true hkept⟩
  | clear => exact absurd trivial hkept

/-! ## Every run -/

/-- After every run of calls both chains are the list that the calls stand for; and the
next call returns, with the iterator into it that the list says, and leaves what it does
not remove where it was. -/
theorem list_refines [Inhabited T] [DecidableEq T] {head tail : Ptr} (hhead : head ≠ 0)
    (htail : tail ≠ 0) (hne : head ≠ tail) {s₀ : LinkedList T} (hmake : make head tail = some s₀)
    {ops : List (Op T)} (hops : Along step Allowed s₀ ops) :
    ∃ s, run step s₀ ops = some s ∧ Shows s (ops.foldl specStep []) ∧
      ∀ op, Allowed s op → ∃ s', call s op = some (s', returned s.tail (ops.foldl specStep []) op) ∧
        Shows s' (specStep (ops.foldl specStep []) op) ∧
        ∀ e ∈ ops.foldl specStep [], ¬ Removes (ops.foldl specStep []) e op →
          (s'.heap.load e.1).map Node.data = some e.2 := by
  have hstep : ∀ (s : LinkedList T) items op, Rep s items → Allowed s op →
      ∃ s', step s op = some s' ∧ Rep s' (specStep items op) := by
    intro s items op hrep hop
    obtain ⟨h', hcode, hrep'⟩ := call_ok hrep hop
    exact ⟨_, by rw [step, hcode]; rfl, hrep'⟩
  obtain ⟨s, hrun, hrep⟩ := run_simulates hstep ops (make_rep hhead htail hne hmake) hops
  refine ⟨s, hrun, hrep.shows, fun op hop => ?_⟩
  obtain ⟨h', hcode, hrep'⟩ := call_ok hrep hop
  refine ⟨_, hcode, hrep'.shows, fun e he hkept => ?_⟩
  exact hrep'.shows.denotes e (mem_specStep he hkept)

/-- The calls of `main`: the three insertions are before the second element. -/
def mainOps : List (Op Int) :=
  [.pushBack 1 1, .pushBack 2 2, .pushBack 3 3, .pushFront 0 4, .insert 1 10 5, .insert 1 20 6,
    .insert 1 20 7, .remove 20]

theorem isSome_make : (make 100 200 : Option (LinkedList Int)).isSome = true := by decide +kernel

theorem list_refines_main :
    ∃ s, run step ((make 100 200).get isSome_make) mainOps = some s ∧
      Shows s [(4, 0), (5, 10), (1, 1), (2, 2), (3, 3)] ∧
      ∀ op, Allowed s op → ∃ s',
        call s op = some (s', returned s.tail [(4, 0), (5, 10), (1, 1), (2, 2), (3, 3)] op) ∧
          Shows s' (specStep [(4, 0), (5, 10), (1, 1), (2, 2), (3, 3)] op) ∧
          ∀ e ∈ ([(4, 0), (5, 10), (1, 1), (2, 2), (3, 3)] : List (Ptr × Int)),
            ¬ Removes [(4, 0), (5, 10), (1, 1), (2, 2), (3, 3)] e op →
              (s'.heap.load e.1).map Node.data = some e.2 :=
  list_refines (by decide) (by decide) (by decide) (Option.some_get isSome_make).symm
    (by decide +kernel)

end CKernel.ListDemo
