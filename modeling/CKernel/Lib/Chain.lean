/-
# `CKernel.Lib.Chain` — doubly linked chains in a typed heap

A node has a datum and two pointers.  `Chain h prev l next` says that the pairs of `l`
are nodes with their data, one after the other: each points forward to the one behind
it, the last to `next`, and back to the one before it, the first to `prev`.

    a chain is cut and joined anywhere                         (`chain_append`)
    a node is linked in between two                            (`chain_link`)
    a node between two is taken out                            (`chain_unlink`)
    following either pointer meets the nodes in order          (`walkNext_eq`, `walkPrev_eq`)
-/
import CKernel.Lib.Heap

namespace CKernel.Chains

structure Node (α : Type) where
  data : α
  next : Ptr
  prev : Ptr
  deriving DecidableEq, Repr

variable {α : Type}

/-- The address of the first pair, or what is behind. -/
def first (l : List (Ptr × α)) (next : Ptr) : Ptr :=
  match l with
  | [] => next
  | e :: _ => e.1

/-- The address of the last pair, or what is before. -/
def last (prev : Ptr) : List (Ptr × α) → Ptr
  | [] => prev
  | e :: l => last e.1 l

def Chain (h : Heap (Node α)) (prev : Ptr) : List (Ptr × α) → Ptr → Prop
  | [], _ => True
  | e :: l, next => h.load e.1 = some ⟨e.2, first l next, prev⟩ ∧ Chain h e.1 l next

/-- The addresses of a chain. -/
def addrs (l : List (Ptr × α)) : List Ptr := l.map Prod.fst

variable {h h' : Heap (Node α)} {prev next a : Ptr} {l l' : List (Ptr × α)} {e : Ptr × α}

@[simp] theorem addrs_nil : addrs ([] : List (Ptr × α)) = [] := rfl

@[simp] theorem addrs_cons : addrs (e :: l) = e.1 :: addrs l := rfl

@[simp] theorem addrs_append : addrs (l ++ l') = addrs l ++ addrs l' := List.map_append

@[simp] theorem first_nil : first ([] : List (Ptr × α)) next = next := rfl

@[simp] theorem first_cons : first (e :: l) next = e.1 := rfl

@[simp] theorem last_nil : last prev ([] : List (Ptr × α)) = prev := rfl

@[simp] theorem last_cons : last prev (e :: l) = last e.1 l := rfl

@[simp] theorem last_append : last prev (l ++ l') = last (last prev l) l' := by
  induction l generalizing prev with
  | nil => rfl
  | cons e l ih => exact ih

theorem first_append : first (l ++ l') next = first l (first l' next) := by
  cases l with
  | nil => rfl
  | cons e l => rfl

theorem chain_append :
    Chain h prev (l ++ l') next ↔ Chain h prev l (first l' next) ∧ Chain h (last prev l) l' next := by
  induction l generalizing prev with
  | nil => exact ⟨fun hc => ⟨trivial, hc⟩, fun hc => hc.2⟩
  | cons e l ih => rw [List.cons_append, Chain, Chain, ih, first_append, and_assoc, last_cons]

theorem Chain.congr (hc : Chain h prev l next) (hsame : ∀ a ∈ addrs l, h'.load a = h.load a) :
    Chain h' prev l next := by
  induction l generalizing prev with
  | nil => trivial
  | cons e l ih =>
      refine ⟨(hsame e.1 List.mem_cons_self).trans hc.1, ih hc.2 fun a ha => ?_⟩
      exact hsame a (List.mem_cons_of_mem _ ha)

/-- The node of a pair. -/
theorem Chain.load (hc : Chain h prev l next) (he : e ∈ l) :
    ∃ p n, h.load e.1 = some ⟨e.2, n, p⟩ := by
  induction l generalizing prev with
  | nil => cases he
  | cons e' l ih =>
      rcases List.mem_cons.mp he with rfl | he
      · exact ⟨_, _, hc.1⟩
      · exact ih hc.2 he

/-- What is not live is not in it. -/
theorem Chain.not_mem (hc : Chain h prev l next) (ha : h.load a = none) : a ∉ addrs l := by
  intro hmem
  obtain ⟨e, he, rfl⟩ := List.mem_map.mp hmem
  obtain ⟨p, n, hload⟩ := hc.load he
  exact Heap.ne_of_load hload ha rfl

/-! ## Linking and unlinking -/

/-- A chain around two neighbours. -/
theorem chain_pair {q r : Ptr × α} :
    Chain h prev (l ++ q :: r :: l') next ↔
      Chain h prev l q.1 ∧ h.load q.1 = some ⟨q.2, r.1, last prev l⟩ ∧
        h.load r.1 = some ⟨r.2, first l' next, q.1⟩ ∧ Chain h r.1 l' next := by
  rw [chain_append]
  rfl

/-- A node comes between two neighbours, which are pointed to it. -/
theorem chain_link {q r : Ptr × α} (hc : Chain h prev (l ++ q :: r :: l') next)
    (hnodup : (addrs (l ++ q :: r :: l')).Nodup) (hnew : e.1 ∉ addrs (l ++ q :: r :: l'))
    (he : h'.load e.1 = some ⟨e.2, r.1, q.1⟩)
    (hq : h'.load q.1 = some ⟨q.2, e.1, last prev l⟩)
    (hr : h'.load r.1 = some ⟨r.2, first l' next, e.1⟩)
    (hsame : ∀ a, a ≠ e.1 → a ≠ q.1 → a ≠ r.1 → h'.load a = h.load a) :
    Chain h' prev (l ++ q :: e :: r :: l') next := by
  obtain ⟨hl, -, -, hl'⟩ := chain_pair.mp hc
  rw [addrs_append, addrs_cons, addrs_cons, List.nodup_append] at hnodup
  obtain ⟨-, hright, hdisj⟩ := hnodup
  rw [List.nodup_cons, List.nodup_cons, List.mem_cons, not_or] at hright
  rw [addrs_append, addrs_cons, addrs_cons] at hnew
  refine chain_pair.mpr ⟨hl.congr fun a ha => ?_, hq, ?_, ?_⟩
  · refine hsame a ?_ (hdisj a ha q.1 List.mem_cons_self) ?_
    · rintro rfl
      exact hnew (List.mem_append_left _ ha)
    · exact hdisj a ha r.1 (List.mem_cons_of_mem _ List.mem_cons_self)
  · exact he
  · refine ⟨hr, hl'.congr fun a ha => ?_⟩
    refine hsame a ?_ ?_ ?_
    · rintro rfl
      exact hnew (List.mem_append_right _ (List.mem_cons_of_mem _ (List.mem_cons_of_mem _ ha)))
    · rintro rfl
      exact hright.1.2 ha
    · rintro rfl
      exact hright.2.1 ha

/-- A node between two is taken out, and these are pointed to each other. -/
theorem chain_unlink {q r : Ptr × α} (hc : Chain h prev (l ++ q :: e :: r :: l') next)
    (hnodup : (addrs (l ++ q :: e :: r :: l')).Nodup)
    (hq : h'.load q.1 = some ⟨q.2, r.1, last prev l⟩)
    (hr : h'.load r.1 = some ⟨r.2, first l' next, q.1⟩)
    (hsame : ∀ a, a ≠ e.1 → a ≠ q.1 → a ≠ r.1 → h'.load a = h.load a) :
    Chain h' prev (l ++ q :: r :: l') next := by
  obtain ⟨hl, -, -, -, hl'⟩ := chain_pair.mp hc
  rw [addrs_append, addrs_cons, addrs_cons, addrs_cons, List.nodup_append] at hnodup
  obtain ⟨-, hright, hdisj⟩ := hnodup
  rw [List.nodup_cons, List.nodup_cons, List.nodup_cons] at hright
  obtain ⟨hqr, her, hrl, -⟩ := hright
  refine chain_pair.mpr ⟨hl.congr fun a ha => ?_, hq, hr, hl'.congr fun a ha => ?_⟩
  · refine hsame a ?_ (hdisj a ha q.1 List.mem_cons_self) ?_
    · exact hdisj a ha e.1 (List.mem_cons_of_mem _ List.mem_cons_self)
    · exact hdisj a ha r.1 (List.mem_cons_of_mem _ (List.mem_cons_of_mem _ List.mem_cons_self))
  · refine hsame a ?_ ?_ ?_
    · rintro rfl
      exact her (List.mem_cons_of_mem _ ha)
    · rintro rfl
      exact hqr (List.mem_cons_of_mem _ (List.mem_cons_of_mem _ ha))
    · rintro rfl
      exact hrl ha

/-! ## Walking -/

/-- The pairs met from `p` on along `next`, up to `stop`. -/
def walkNext (h : Heap (Node α)) : Nat → Ptr → Ptr → Option (List (Ptr × α))
  | 0, _, _ => none
  | fuel + 1, p, stop =>
      if p = stop then some []
      else do
        let n ← h.load p
        let rest ← walkNext h fuel n.next stop
        some ((p, n.data) :: rest)

/-- The same along `prev`. -/
def walkPrev (h : Heap (Node α)) : Nat → Ptr → Ptr → Option (List (Ptr × α))
  | 0, _, _ => none
  | fuel + 1, p, stop =>
      if p = stop then some []
      else do
        let n ← h.load p
        let rest ← walkPrev h fuel n.prev stop
        some ((p, n.data) :: rest)

theorem walkNext_eq (hc : Chain h prev l next) (hstop : next ∉ addrs l) {fuel : Nat}
    (hfuel : l.length < fuel) : walkNext h fuel (first l next) next = some l := by
  induction l generalizing prev fuel with
  | nil =>
      obtain ⟨n, rfl⟩ := Nat.exists_eq_add_one_of_ne_zero (Nat.ne_of_gt hfuel)
      rw [first_nil, walkNext, if_pos rfl]
  | cons e l ih =>
      obtain ⟨n, rfl⟩ := Nat.exists_eq_add_one_of_ne_zero (Nat.ne_of_gt (Nat.zero_lt_of_lt hfuel))
      rw [addrs_cons, List.mem_cons, not_or] at hstop
      have hrest := ih hc.2 hstop.2 (Nat.lt_of_succ_lt_succ hfuel)
      rw [first_cons, walkNext, if_neg (Ne.symm hstop.1), hc.1]
      show (walkNext h n (first l next) next).bind _ = _
      rw [hrest]
      rfl

theorem walkPrev_eq (hc : Chain h prev l next) (hstop : prev ∉ addrs l) {fuel : Nat}
    (hfuel : l.length < fuel) : walkPrev h fuel (last prev l) prev = some l.reverse := by
  induction l using List.reverseRecOn generalizing next fuel with
  | nil =>
      obtain ⟨n, rfl⟩ := Nat.exists_eq_add_one_of_ne_zero (Nat.ne_of_gt hfuel)
      rw [last_nil, walkPrev, if_pos rfl]
      rfl
  | append_singleton l e ih =>
      obtain ⟨n, rfl⟩ := Nat.exists_eq_add_one_of_ne_zero (Nat.ne_of_gt (Nat.zero_lt_of_lt hfuel))
      obtain ⟨hl, he, -⟩ := chain_append.mp hc
      rw [addrs_append, List.mem_append, not_or] at hstop
      rw [List.length_append] at hfuel
      have hne : e.1 ≠ prev := fun heq => hstop.2 (heq ▸ List.mem_cons_self)
      have hrest := ih hl hstop.1 (Nat.lt_of_succ_lt_succ hfuel)
      rw [last_append, last_cons, last_nil, walkPrev, if_neg hne, he]
      show (walkPrev h n (last prev l) prev).bind _ = _
      rw [hrest, List.reverse_append]
      rfl

end CKernel.Chains
