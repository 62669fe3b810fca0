/-
# `CKernel.Memory.SharedPtr` — the code of `SimpleSharedPtr`, and what it counts

Handles are a list of slots; a slot is empty once its handle is destroyed.  A handle may be
a member of a managed object (`home`): `delete _ptr` runs the destructor, which destroys
the members, in an order of its own (`Teardown`), and that may delete further objects,
before the memory of the object is gone.  Of a destructor nothing else is modelled.
`new ControlBlock()` returns an address of its own choice that is not in use.  The counter
is an `int` and wraps.  An access to a handle or to a control block that is gone has no
result.

`Inv` is the account of the counters and deletions: `hs` are the handles that count, and
`dying` those whose objects are being deleted.

    one owner less, not the last, or the last            (`Inv.drop_shared`, `Inv.drop_last`)
    the deletion is done                                 (`Inv.finish`)
    one owner more, or a first one                       (`retain_ok`, `adopt_ok`)
-/
import CKernel.Lib.Run

namespace CKernel.Memory

/-! ## The code -/

/-- The fields of a `SimpleSharedPtr`, `0` for null, and the managed object that it is a
member of, `0` for none. -/
structure Handle where
  ptr : Nat
  control : Nat
  home : Nat
  deriving DecidableEq, Repr

/-- The counters of the control blocks, and the objects deleted. -/
structure Blocks where
  refCnt : Nat → Option Int
  deleted : List Nat

def Blocks.setCnt (m : Blocks) (c : Nat) (n : Option Int) : Blocks :=
  { m with refCnt := Function.update m.refCnt c n }

/-- `std::atomic<int>` arithmetic -/
def wrapInt (n : Int) : Int := n.bmod (2 ^ 32)

/-- `if (_control) _control->_ref_cnt ++ ;` -/
def retain (m : Blocks) (control : Nat) : Option Blocks :=
  if control = 0 then some m
  else do
    let n ← m.refCnt control
    some (m.setCnt control (some (wrapInt (n + 1))))

/-- `_ptr = objp;`, with the control block at `c` if one is needed. -/
def adopt (m : Blocks) (p c home : Nat) : Blocks × Handle :=
  if p = 0 then (m, ⟨0, 0, home⟩)
  else (m.setCnt c (some 1), ⟨p, c, home⟩)

/-- The order in which the destructor of an object destroys the handles in it. -/
structure Teardown where
  order : Nat → List Nat → List Nat
  perm : ∀ p ks, (order p ks).Perm ks

/-- The handles, the blocks, and the raw pointers passed so far. -/
structure SharedPtrs where
  handles : List (Option Handle)
  blocks : Blocks
  passed : List Nat

namespace SharedPtrs

def make : SharedPtrs := ⟨[], ⟨fun _ => none, []⟩, []⟩

/-- The fields of a handle that exists. -/
def get (s : SharedPtrs) (i : Nat) : Option Handle := (s.handles[i]?).join

/-- A handle is created. -/
def add (s : SharedPtrs) (h : Handle) : SharedPtrs := { s with handles := s.handles ++ [some h] }

/-- The fields of a handle are written. -/
def put (s : SharedPtrs) (i ptr control : Nat) : Option SharedPtrs := do
  let this ← s.get i
  some { s with handles := s.handles.set i (some { this with ptr, control }) }

/-- A handle is gone. -/
def kill (s : SharedPtrs) (i : Nat) : SharedPtrs := { s with handles := s.handles.set i none }

def setCnt (s : SharedPtrs) (c : Nat) (n : Option Int) : SharedPtrs :=
  { s with blocks := s.blocks.setCnt c n }

/-- The memory of an object is gone. -/
def free (s : SharedPtrs) (p : Nat) : SharedPtrs :=
  { s with blocks := { s.blocks with deleted := s.blocks.deleted ++ [p] } }

/-- The handles in an object. -/
def members (s : SharedPtrs) (p : Nat) : List Nat :=
  (List.range s.handles.length).filter fun k => (s.get k).any fun h => h.home = p

/-- `release()`; each `delete` inside one takes one of `fuel`. -/
def release (T : Teardown) : Nat → SharedPtrs → Nat → Option SharedPtrs
  | 0, _, _ => none
  | fuel + 1, s, i => do
      let this ← s.get i
      if this.control = 0 then some s
      else do
        let n ← s.blocks.refCnt this.control
        let n := wrapInt (n - 1)
        let s := s.setCnt this.control (some n)
        if n = 0 then do
          -- `delete _ptr`: a member is destroyed by a `release` of its own
          let s ← (T.order this.ptr (s.members this.ptr)).foldlM
            (fun s k => (release T fuel s k).map fun s => s.kill k) s
          let s := s.free this.ptr
          -- the handle itself is read again, for `_ptr = nullptr` and `delete _control`
          let this ← s.get i
          (s.setCnt this.control none).put i 0 0
        else some s

/-- `i` and `j` name handles, `p` is a raw pointer, `c` is where `new ControlBlock()` would
put a control block, and `home` is where a new handle is. -/
inductive Op where
  | default (home : Nat)
  | construct (p c home : Nat)
  | copy (j home : Nat)
  | move (j home : Nat)
  | copyAssign (i j : Nat)
  | moveAssign (i j : Nat)
  | reset (i p c : Nat)
  | destroy (i : Nat)
  deriving DecidableEq, Repr

/-- The raw pointers that have been passed, with one more. -/
def pass (passed : List Nat) (p : Nat) : List Nat := if p = 0 then passed else p :: passed

variable (T : Teardown)

/-- A deletion for each handle is more than a `release` makes. -/
def releaseAll (s : SharedPtrs) (i : Nat) : Option SharedPtrs :=
  release T (s.handles.length + 1) s i

def step (s : SharedPtrs) : Op → Option SharedPtrs
  | .default home => some (s.add ⟨0, 0, home⟩)
  | .construct p c home =>
      let (m, this) := adopt s.blocks p c home
      some { s.add this with blocks := m, passed := pass s.passed p }
  | .copy j home => do
      let other ← s.get j
      let m ← retain s.blocks other.control
      some { s.add { other with home } with blocks := m }
  | .move j home => do
      let other ← s.get j
      (s.add { other with home }).put j 0 0
  | .copyAssign i j => do
      let _ ← s.get i
      if i = j then some s
      else do
        let s ← s.releaseAll T i
        let other ← s.get j
        let s ← s.put i other.ptr other.control
        let m ← retain s.blocks other.control
        some { s with blocks := m }
  | .moveAssign i j => do
      let _ ← s.get i
      if i = j then some s
      else do
        let s ← s.releaseAll T i
        let other ← s.get j
        let s ← s.put i other.ptr other.control
        s.put j 0 0
  | .reset i p c => do
      let this ← s.get i
      if this.ptr = p then some s
      else do
        let s ← s.releaseAll T i
        let (m, h) := adopt s.blocks p c 0
        let s ← s.put i h.ptr h.control
        some { s with blocks := m, passed := pass s.passed p }
  | .destroy i => do
      let s ← s.releaseAll T i
      some (s.kill i)

/-! ## What the results say -/

/-- The handles that exist. -/
def live (s : SharedPtrs) : List Handle := s.handles.filterMap id

end SharedPtrs

/-- How many handles point to the control block at `c`. -/
def owners (hs : List Handle) (c : Nat) : Nat := hs.countP fun h => h.control = c

/-- How many handles point to the object at `p`. -/
def holders (hs : List Handle) (p : Nat) : Nat := hs.countP fun h => h.ptr = p

namespace SharedPtrs

/-- Counters count their owners, an object is deleted once and exactly when it has no
handle, and no handle points to what was deleted, or is a part of it. -/
structure Exact (s : SharedPtrs) : Prop where
  counted : ∀ c n, s.blocks.refCnt c = some n → n = owners s.live c
  once : ∀ p ∈ s.passed, s.blocks.deleted.count p = if holders s.live p = 0 then 1 else 0
  control : ∀ h ∈ s.live, h.control ≠ 0 → ∃ n, s.blocks.refCnt h.control = some n
  object : ∀ h ∈ s.live, h.ptr ≠ 0 → h.ptr ∉ s.blocks.deleted
  whole : ∀ h ∈ s.live, h.home ∉ s.blocks.deleted

/-- To release `i` deletes the object at `p`: it has handles, and each of them is `i` or
a member of an object that is deleted as well. -/
inductive Dies (s : SharedPtrs) (i : Nat) : Nat → Prop
  | last (k : Nat) (x : Handle) (hk : s.get k = some x) (hne : x.ptr ≠ 0)
      (hall : ∀ l h, s.get l = some h → h.ptr = x.ptr → l ≠ i → Dies s i h.home) :
      Dies s i x.ptr

/-- There is a handle `k`, and to release `i` does not delete the object that it is in. -/
def Outlives (s : SharedPtrs) (i k : Nat) : Prop := ∃ h ∈ s.get k, ¬ Dies s i h.home

/-- A raw pointer is null or never passed before, and `new` returns a free address. -/
def Fresh (s : SharedPtrs) (p c : Nat) : Prop :=
  (p = 0 ∨ p ∉ s.passed) ∧ c ≠ 0 ∧ s.blocks.refCnt c = none

/-- The operations the results are about: on handles that there are, and that are not
deleted by the operation itself before it is done with them. -/
def Allowed (T : Teardown) (s : SharedPtrs) : Op → Prop
  | .default home => home ∉ s.blocks.deleted
  | .construct p c home => Fresh s p c ∧ home ∉ s.blocks.deleted
  | .copy j home | .move j home => (s.get j).isSome = true ∧ home ∉ s.blocks.deleted
  | .copyAssign i j | .moveAssign i j =>
      (s.get i).isSome = true ∧ (i = j ∨ Outlives s i i ∧ Outlives s i j)
  -- the control block is allocated after the release and may take the place of the old one
  | .reset i p c => ∃ h ∈ s.get i, h.ptr = p ∨
      Outlives s i i ∧ ∀ s' ∈ s.releaseAll T i, Fresh s' p c
  | .destroy i => Outlives s i i

/-- Each control block has fewer than 2^31 owners. -/
def Room (s : SharedPtrs) : Prop :=
  ∀ h ∈ s.live, h.control ≠ 0 → owners s.live h.control < 2 ^ 31

instance (s : SharedPtrs) : Decidable (Room s) :=
  inferInstanceAs (Decidable (∀ h ∈ s.live, _ → _))

end SharedPtrs

/-! ## Owners -/

section Owners
variable {h : Handle} {hs hs' : List Handle} {c p : Nat}

theorem owners_cons : owners (h :: hs) c = owners hs c + if h.control = c then 1 else 0 := by
  simp [owners, List.countP_cons]

theorem holders_cons : holders (h :: hs) p = holders hs p + if h.ptr = p then 1 else 0 := by
  simp [holders, List.countP_cons]

theorem owners_cons_ne (hc : h.control ≠ c) : owners (h :: hs) c = owners hs c := by
  rw [owners_cons, if_neg hc, Nat.add_zero]

theorem owners_cons_self : owners (h :: hs) h.control = owners hs h.control + 1 := by
  rw [owners_cons, if_pos rfl]

theorem owners_perm (hperm : hs.Perm hs') : owners hs c = owners hs' c := hperm.countP_eq _

theorem holders_perm (hperm : hs.Perm hs') : holders hs p = holders hs' p := hperm.countP_eq _

theorem owners_eq_zero : owners hs c = 0 ↔ ∀ h ∈ hs, h.control ≠ c := by
  simp [owners, List.countP_eq_zero]

theorem holders_eq_zero : holders hs p = 0 ↔ ∀ h ∈ hs, h.ptr ≠ p := by
  simp [holders, List.countP_eq_zero]

theorem owners_append : owners (hs ++ hs') c = owners hs c + owners hs' c := List.countP_append

end Owners

/-! ## The account -/

/-- The counters and deletions, as the handles `hs` and the deletions under way say. -/
structure Inv (hs dying : List Handle) (m : Blocks) (passed : List Nat) : Prop where
  null : ∀ h ∈ hs ++ dying, h.ptr = 0 ↔ h.control = 0
  pair : ∀ h ∈ hs ++ dying, ∀ h' ∈ hs ++ dying, h.ptr = h'.ptr ↔ h.control = h'.control
  zero : m.refCnt 0 = none ∧ 0 ∉ passed
  count : ∀ c, c ≠ 0 →
    m.refCnt c = if owners (hs ++ dying) c = 0 then none else some (owners hs c : Int)
  few : ∀ c, c ≠ 0 → owners hs c < 2 ^ 31
  known : ∀ h ∈ hs ++ dying, h.ptr ≠ 0 → h.ptr ∈ passed
  deleted : ∀ p, p ≠ 0 →
    m.deleted.count p = if p ∈ passed ∧ holders (hs ++ dying) p = 0 then 1 else 0
  whole : ∀ h ∈ hs, h.home ∉ m.deleted
  dying : (dying.map Handle.control).Nodup ∧ ∀ d ∈ dying, d.control ≠ 0 ∧ owners hs d.control = 0

variable {h x : Handle} {hs hs' dying : List Handle} {m : Blocks} {passed : List Nat}
  {p c home : Nat}

theorem Inv.perm (hinv : Inv hs dying m passed) (hperm : hs.Perm hs') :
    Inv hs' dying m passed := by
  have happ : (hs ++ dying).Perm (hs' ++ dying) := hperm.append_right dying
  refine ⟨fun h hh => hinv.null h (happ.mem_iff.mpr hh), fun h hh h' hh' => ?_, hinv.zero,
    fun c hc => ?_, fun c hc => ?_, fun h hh => hinv.known h (happ.mem_iff.mpr hh), fun p hp => ?_,
    fun h hh => hinv.whole h (hperm.mem_iff.mpr hh), hinv.dying.1, fun d hd => ?_⟩
  · exact hinv.pair h (happ.mem_iff.mpr hh) h' (happ.mem_iff.mpr hh')
  · rw [← owners_perm happ, ← owners_perm hperm]
    exact hinv.count c hc
  · rw [← owners_perm hperm]
    exact hinv.few c hc
  · rw [← holders_perm happ]
    exact hinv.deleted p hp
  · rw [← owners_perm hperm]
    exact hinv.dying.2 d hd

theorem wrapInt_eq {n : Nat} (h : n < 2 ^ 31) : wrapInt n = n :=
  Int.bmod_eq_of_le (by omega) (by omega)

/-- The counter of a handle's block. -/
theorem Inv.refCnt_head (hinv : Inv (x :: hs) dying m passed) (hx : x.control ≠ 0) :
    m.refCnt x.control = some ((owners hs x.control + 1 : Nat) : Int) := by
  have hcount := hinv.count x.control hx
  rw [List.cons_append, owners_cons_self, if_neg (Nat.succ_ne_zero _)] at hcount
  rw [hcount, owners_cons_self]

/-- It is decremented without wrapping. -/
theorem Inv.wrapInt_sub (hinv : Inv (x :: hs) dying m passed) (hx : x.control ≠ 0) :
    wrapInt (((owners hs x.control + 1 : Nat) : Int) - 1) = (owners hs x.control : Int) := by
  have hfew := hinv.few x.control hx
  rw [owners_cons_self] at hfew
  rw [Nat.cast_succ, Int.add_sub_cancel]
  exact wrapInt_eq (Nat.lt_of_succ_lt hfew)

theorem Inv.ptr_ne_zero (hinv : Inv (x :: hs) dying m passed) (hx : x.control ≠ 0) :
    x.ptr ≠ 0 := fun h => hx ((hinv.null x List.mem_cons_self).mp h)

/-- An object that is deleted is not that of a handle. -/
theorem Inv.ptr_ne_dying (hinv : Inv (x :: hs) dying m passed) {d : Handle} (hd : d ∈ dying) :
    x.ptr ≠ d.ptr := by
  intro hptr
  have hmem : d ∈ x :: hs ++ dying := List.mem_append_right _ hd
  have hcontrol : x.control = d.control := (hinv.pair x List.mem_cons_self d hmem).mp hptr
  have hnone := (hinv.dying.2 d hd).2
  rw [← hcontrol, owners_cons_self] at hnone
  exact Nat.succ_ne_zero _ hnone

/-- What holds of all handles holds without one of them. -/
theorem Inv.few_tail (hinv : Inv (x :: hs) dying m passed) (c : Nat) (hc : c ≠ 0) :
    owners hs c < 2 ^ 31 := by
  have hfew := hinv.few c hc
  rw [owners_cons] at hfew
  exact Nat.lt_of_le_of_lt (Nat.le_add_right _ _) hfew

theorem Inv.dying_tail (hinv : Inv (x :: hs) dying m passed) {d : Handle} (hd : d ∈ dying) :
    d.control ≠ 0 ∧ owners hs d.control = 0 := by
  obtain ⟨hne, hnone⟩ := hinv.dying.2 d hd
  rw [owners_cons] at hnone
  exact ⟨hne, Nat.eq_zero_of_add_eq_zero_right hnone⟩

/-- A handle that owns nothing is not missed. -/
theorem Inv.drop_null (hinv : Inv (x :: hs) dying m passed) (hx : x.control = 0) :
    Inv hs dying m passed := by
  have hptr : x.ptr = 0 := (hinv.null x List.mem_cons_self).mpr hx
  refine ⟨fun h hh => hinv.null h (List.mem_cons_of_mem _ hh), fun h hh h' hh' => ?_, hinv.zero,
    fun c hc => ?_, hinv.few_tail, fun h hh => hinv.known h (List.mem_cons_of_mem _ hh),
    fun p hp => ?_, fun h hh => hinv.whole h (List.mem_cons_of_mem _ hh), hinv.dying.1,
    fun d hd => hinv.dying_tail hd⟩
  · exact hinv.pair h (List.mem_cons_of_mem _ hh) h' (List.mem_cons_of_mem _ hh')
  · have hcount := hinv.count c hc
    rwa [List.cons_append, owners_cons_ne (by rw [hx]; exact Ne.symm hc),
      owners_cons_ne (by rw [hx]; exact Ne.symm hc)] at hcount
  · have hdeleted := hinv.deleted p hp
    rwa [List.cons_append, holders_cons, hptr, if_neg (Ne.symm hp), Nat.add_zero] at hdeleted

/-- One owner less, of several. -/
theorem Inv.drop_shared (hinv : Inv (x :: hs) dying m passed) (hx : x.control ≠ 0)
    (howned : owners hs x.control ≠ 0) :
    Inv hs dying (m.setCnt x.control (some (owners hs x.control : Int))) passed := by
  refine ⟨fun h hh => hinv.null h (List.mem_cons_of_mem _ hh), fun h hh h' hh' => ?_,
    ⟨?_, hinv.zero.2⟩, fun c hc => ?_, hinv.few_tail,
    fun h hh => hinv.known h (List.mem_cons_of_mem _ hh), fun p hp => ?_,
    fun h hh => hinv.whole h (List.mem_cons_of_mem _ hh), hinv.dying.1,
    fun d hd => hinv.dying_tail hd⟩
  · exact hinv.pair h (List.mem_cons_of_mem _ hh) h' (List.mem_cons_of_mem _ hh')
  · show Function.update m.refCnt x.control _ 0 = none
    rw [Function.update_of_ne (Ne.symm hx)]
    exact hinv.zero.1
  · show Function.update m.refCnt x.control _ c = _
    by_cases hcx : c = x.control
    · rw [hcx, Function.update_self, owners_append, if_neg (by omega)]
    · rw [Function.update_of_ne hcx, hinv.count c hc, List.cons_append,
        owners_cons_ne (Ne.symm hcx), owners_cons_ne (Ne.symm hcx)]
  · have hdeleted := hinv.deleted p hp
    rw [List.cons_append, holders_cons] at hdeleted
    show m.deleted.count p = _
    rw [hdeleted]
    by_cases hpx : x.ptr = p
    · -- another owner has the object as well
      obtain ⟨h, hh, hcontrol⟩ : ∃ h ∈ hs, h.control = x.control := by
        by_contra hnone
        exact howned (owners_eq_zero.mpr fun h hh hc => hnone ⟨h, hh, hc⟩)
      have hptr : h.ptr = x.ptr :=
        (hinv.pair h (List.mem_cons_of_mem _ (List.mem_append_left _ hh)) x
          List.mem_cons_self).mpr hcontrol
      have hheld : holders (hs ++ dying) p ≠ 0 := fun h0 =>
        holders_eq_zero.mp h0 h (List.mem_append_left _ hh) (hptr.trans hpx)
      rw [if_neg (fun h0 => hheld (Nat.eq_zero_of_add_eq_zero_right h0.2)),
        if_neg (fun h0 => hheld h0.2)]
    · rw [if_neg hpx, Nat.add_zero]

/-- The last owner: its object is to be deleted. -/
theorem Inv.drop_last (hinv : Inv (x :: hs) dying m passed) (hx : x.control ≠ 0)
    (hlast : owners hs x.control = 0) :
    Inv hs (x :: dying) (m.setCnt x.control (some 0)) passed := by
  have hperm : (x :: hs ++ dying).Perm (hs ++ x :: dying) := List.perm_middle.symm
  refine ⟨fun h hh => hinv.null h (hperm.mem_iff.mpr hh), fun h hh h' hh' => ?_,
    ⟨?_, hinv.zero.2⟩, fun c hc => ?_, hinv.few_tail,
    fun h hh => hinv.known h (hperm.mem_iff.mpr hh), fun p hp => ?_,
    fun h hh => hinv.whole h (List.mem_cons_of_mem _ hh), ?_, ?_⟩
  · exact hinv.pair h (hperm.mem_iff.mpr hh) h' (hperm.mem_iff.mpr hh')
  · show Function.update m.refCnt x.control _ 0 = none
    rw [Function.update_of_ne (Ne.symm hx)]
    exact hinv.zero.1
  · show Function.update m.refCnt x.control _ c = _
    rw [← owners_perm hperm]
    by_cases hcx : c = x.control
    · rw [hcx, Function.update_self, List.cons_append, owners_cons_self,
        if_neg (Nat.succ_ne_zero _), hlast]
      rfl
    · rw [Function.update_of_ne hcx, hinv.count c hc, owners_cons_ne (Ne.symm hcx)]
  · rw [← holders_perm hperm]
    exact hinv.deleted p hp
  · rw [List.map_cons, List.nodup_cons]
    refine ⟨fun hmem => ?_, hinv.dying.1⟩
    obtain ⟨d, hd, hcontrol⟩ := List.mem_map.mp hmem
    have hnone := (hinv.dying.2 d hd).2
    rw [hcontrol, owners_cons_self] at hnone
    exact Nat.succ_ne_zero _ hnone
  · intro d hd
    rcases List.mem_cons.mp hd with rfl | hd
    · exact ⟨hx, hlast⟩
    · exact hinv.dying_tail hd

/-- The deletion is done, and none of the handles was in the object. -/
theorem Inv.finish (hinv : Inv hs (x :: dying) m passed) (hwhole : ∀ h ∈ hs, h.home ≠ x.ptr) :
    Inv hs dying ⟨Function.update m.refCnt x.control none, m.deleted ++ [x.ptr]⟩ passed := by
  have hmem : ∀ h ∈ hs ++ dying, h ∈ hs ++ x :: dying := by
    intro h hh
    refine (List.mem_append.mp hh).elim (List.mem_append_left _) fun hd => ?_
    exact List.mem_append_right _ (List.mem_cons_of_mem _ hd)
  have hself : x ∈ hs ++ x :: dying := List.mem_append_right _ List.mem_cons_self
  obtain ⟨hx, hlast⟩ := hinv.dying.2 x List.mem_cons_self
  have hnodup := hinv.dying.1
  rw [List.map_cons, List.nodup_cons] at hnodup
  have hnone : ∀ h ∈ hs ++ dying, h.control ≠ x.control := by
    intro h hh hcontrol
    rcases List.mem_append.mp hh with hh | hd
    · exact owners_eq_zero.mp hlast h hh hcontrol
    · exact hnodup.1 (hcontrol ▸ List.mem_map_of_mem hd)
  have hfree : ∀ h ∈ hs ++ dying, h.ptr ≠ x.ptr := fun h hh hptr =>
    hnone h hh ((hinv.pair h (hmem h hh) x hself).mp hptr)
  have hptr : x.ptr ≠ 0 := fun h => hx ((hinv.null x hself).mp h)
  have hperm : (hs ++ x :: dying).Perm (x :: (hs ++ dying)) := List.perm_middle
  refine ⟨fun h hh => hinv.null h (hmem h hh),
    fun h hh h' hh' => hinv.pair h (hmem h hh) h' (hmem h' hh'), ⟨?_, hinv.zero.2⟩,
    fun c hc => ?_, hinv.few, fun h hh => hinv.known h (hmem h hh), fun p hp => ?_,
    fun h hh => ?_, hnodup.2, fun d hd => hinv.dying.2 d (List.mem_cons_of_mem _ hd)⟩
  · show Function.update m.refCnt x.control _ 0 = none
    rw [Function.update_of_ne (Ne.symm hx)]
    exact hinv.zero.1
  · show Function.update m.refCnt x.control _ c = _
    by_cases hcx : c = x.control
    · rw [hcx, Function.update_self, if_pos (owners_eq_zero.mpr hnone)]
    · rw [Function.update_of_ne hcx, hinv.count c hc, owners_perm hperm,
        owners_cons_ne (Ne.symm hcx)]
  · show (m.deleted ++ [x.ptr]).count p = _
    rw [List.count_append, hinv.deleted p hp, holders_perm hperm, holders_cons]
    by_cases hpx : x.ptr = p
    · have hknown : p ∈ passed := hpx ▸ hinv.known x hself hptr
      have hheld : holders (hs ++ dying) p = 0 := holders_eq_zero.mpr (hpx ▸ hfree)
      rw [if_pos hpx, hheld, if_neg (by simp), if_pos ⟨hknown, rfl⟩, hpx]
      simp
    · have hnot : [x.ptr].count p = 0 :=
        List.count_eq_zero.mpr fun hmem => hpx (List.mem_singleton.mp hmem).symm
      rw [if_neg hpx, Nat.add_zero, hnot, Nat.add_zero]
  · show h.home ∉ m.deleted ++ [x.ptr]
    rw [List.mem_append, List.mem_singleton]
    exact fun hor => hor.elim (hinv.whole h hh) (hwhole h hh)

/-! ## More owners -/

/-- A handle that owns nothing, in an object that exists. -/
theorem Inv.cons_null (hinv : Inv hs dying m passed) (hhome : home ∉ m.deleted) :
    Inv (⟨0, 0, home⟩ :: hs) dying m passed := by
  have hdiff {c : Nat} (hc : c ≠ 0) : owners (⟨0, 0, home⟩ :: hs) c = owners hs c :=
    owners_cons_ne (Ne.symm hc)
  refine ⟨fun h hh => ?_, fun h hh h' hh' => ?_, hinv.zero, fun c hc => ?_, fun c hc => ?_,
    fun h hh hne => ?_, fun p hp => ?_, fun h hh => ?_, hinv.dying.1, fun d hd => ?_⟩
  · rcases List.mem_cons.mp hh with rfl | hh
    · exact ⟨fun _ => rfl, fun _ => rfl⟩
    · exact hinv.null h hh
  · rcases List.mem_cons.mp hh with rfl | hh
    · rcases List.mem_cons.mp hh' with rfl | hh'
      · exact ⟨fun _ => rfl, fun _ => rfl⟩
      · exact eq_comm.trans ((hinv.null h' hh').trans eq_comm)
    · rcases List.mem_cons.mp hh' with rfl | hh'
      · exact hinv.null h hh
      · exact hinv.pair h hh h' hh'
  · rw [List.cons_append, owners_cons_ne (Ne.symm hc), hdiff hc]
    exact hinv.count c hc
  · rw [hdiff hc]
    exact hinv.few c hc
  · rcases List.mem_cons.mp hh with rfl | hh
    · exact absurd rfl hne
    · exact hinv.known h hh hne
  · rw [List.cons_append, holders_cons, if_neg (Ne.symm hp), Nat.add_zero]
    exact hinv.deleted p hp
  · rcases List.mem_cons.mp hh with rfl | hh
    · exact hhome
    · exact hinv.whole h hh
  · obtain ⟨hne, hnone⟩ := hinv.dying.2 d hd
    exact ⟨hne, (hdiff hne).trans hnone⟩

/-- Where a handle is does not count, as long as it is in an object that exists. -/
theorem Inv.rehome (hinv : Inv (x :: hs) dying m passed) (hhome : home ∉ m.deleted) :
    Inv ({ x with home } :: hs) dying m passed := by
  have hall {P : Nat → Nat → Prop} (h : ∀ y ∈ x :: hs ++ dying, P y.ptr y.control) :
      ∀ y ∈ { x with home } :: hs ++ dying, P y.ptr y.control := by
    intro y hy
    rcases List.mem_cons.mp hy with rfl | hy
    · exact h x List.mem_cons_self
    · exact h y (List.mem_cons_of_mem _ hy)
  refine ⟨@hall (fun ptr control => ptr = 0 ↔ control = 0) hinv.null, ?_, hinv.zero, hinv.count,
    hinv.few, @hall (fun ptr _ => ptr ≠ 0 → ptr ∈ passed) hinv.known, hinv.deleted, fun h hh => ?_,
    hinv.dying⟩
  · refine @hall (fun ptr control => ∀ y ∈ { x with home } :: hs ++ dying,
      ptr = y.ptr ↔ control = y.control) fun y hy => ?_
    exact @hall (fun ptr control => y.ptr = ptr ↔ y.control = control) (hinv.pair y hy)
  · rcases List.mem_cons.mp hh with rfl | hh
    · exact hhome
    · exact hinv.whole h (List.mem_cons_of_mem _ hh)

/-- One owner more, if there is room for it. -/
theorem retain_ok (hinv : Inv hs dying m passed) (hx : x ∈ hs) :
    ∃ m', retain m x.control = some m' ∧ m'.deleted = m.deleted ∧
      ((x.control ≠ 0 → owners (x :: hs) x.control < 2 ^ 31) →
        Inv (x :: hs) dying m' passed) := by
  have hx' : x ∈ hs ++ dying := List.mem_append_left _ hx
  by_cases hnull : x.control = 0
  · refine ⟨m, if_pos hnull, rfl, fun _ => ?_⟩
    have hptr : x.ptr = 0 := (hinv.null x hx').mpr hnull
    have hself : Handle.mk x.ptr x.control x.home = ⟨0, 0, x.home⟩ := by rw [hptr, hnull]
    rw [show x = _ from hself]
    exact hinv.cons_null (hinv.whole x hx)
  · have howned : owners hs x.control ≠ 0 := fun h0 => owners_eq_zero.mp h0 x hx rfl
    have hcnt : m.refCnt x.control = some (owners hs x.control : Int) := by
      rw [hinv.count _ hnull, owners_append, if_neg (by omega)]
    refine ⟨m.setCnt x.control (some (wrapInt ((owners hs x.control : Int) + 1))), ?_, rfl,
      fun hroom => ?_⟩
    · rw [retain, if_neg hnull, hcnt]
      rfl
    have hfew := hroom hnull
    rw [owners_cons_self] at hfew
    have hadd : wrapInt ((owners hs x.control : Int) + 1) =
        ((owners hs x.control + 1 : Nat) : Int) := wrapInt_eq (n := owners hs x.control + 1) hfew
    have hmem : ∀ h ∈ x :: hs ++ dying, h ∈ hs ++ dying := by
      intro h hh
      rcases List.mem_cons.mp hh with rfl | hh
      · exact hx'
      · exact hh
    refine ⟨fun h hh => hinv.null h (hmem h hh),
      fun h hh h' hh' => hinv.pair h (hmem h hh) h' (hmem h' hh'), ⟨?_, hinv.zero.2⟩,
      fun c hc => ?_, fun c hc => ?_, fun h hh => hinv.known h (hmem h hh), fun p hp => ?_,
      fun h hh => ?_, hinv.dying.1, fun d hd => ?_⟩
    · show Function.update m.refCnt x.control _ 0 = none
      rw [Function.update_of_ne (Ne.symm hnull)]
      exact hinv.zero.1
    · show Function.update m.refCnt x.control _ c = _
      by_cases hcx : c = x.control
      · rw [hcx, Function.update_self, owners_append, owners_cons_self, if_neg (by omega), hadd]
      · rw [Function.update_of_ne hcx, hinv.count c hc, List.cons_append,
          owners_cons_ne (Ne.symm hcx), owners_cons_ne (Ne.symm hcx)]
    · by_cases hcx : c = x.control
      · rw [hcx, owners_cons_self]
        exact hfew
      · rw [owners_cons_ne (Ne.symm hcx)]
        exact hinv.few c hc
    · rw [List.cons_append, holders_cons]
      show m.deleted.count p = _
      rw [hinv.deleted p hp]
      by_cases hpx : x.ptr = p
      · have hheld : holders (hs ++ dying) p ≠ 0 := fun h0 => holders_eq_zero.mp h0 x hx' hpx
        rw [if_neg (fun h0 => hheld h0.2),
          if_neg (fun h0 => hheld (Nat.eq_zero_of_add_eq_zero_right h0.2))]
      · rw [if_neg hpx, Nat.add_zero]
    · rcases List.mem_cons.mp hh with rfl | hh
      · exact hinv.whole h hx
      · exact hinv.whole h hh
    · obtain ⟨hne, hnone⟩ := hinv.dying.2 d hd
      refine ⟨hne, ?_⟩
      rw [owners_cons_ne (owners_eq_zero.mp hnone x hx), hnone]

/-- A handle on an object of its own. -/
theorem adopt_ok (hinv : Inv hs [] m passed) (hp : p = 0 ∨ p ∉ passed) (hc : c ≠ 0)
    (hfree : m.refCnt c = none) (hhome : home ∉ m.deleted) :
    Inv ({ (adopt m p c 0).2 with home } :: hs) [] (adopt m p c 0).1
      (SharedPtrs.pass passed p) := by
  by_cases hnull : p = 0
  · rw [adopt, if_pos hnull, SharedPtrs.pass, if_pos hnull]
    exact hinv.cons_null hhome
  · have hnew : p ∉ passed := hp.resolve_left hnull
    have happ : hs ++ [] = hs := List.append_nil hs
    have hnone : owners hs c = 0 := by
      by_contra howned
      have hcount := hinv.count c hc
      rw [hfree, happ, if_neg howned] at hcount
      cases hcount
    have hcontrol : ∀ h ∈ hs, h.control ≠ c := owners_eq_zero.mp hnone
    have hptr : ∀ h ∈ hs, h.ptr ≠ p := by
      rintro h hh rfl
      exact hnew (hinv.known h (List.mem_append_left _ hh) hnull)
    rw [adopt, if_neg hnull, SharedPtrs.pass, if_neg hnull]
    have hown : owners (⟨p, c, home⟩ :: hs) c = 1 := by
      rw [owners_cons, hnone, if_pos rfl]
    refine ⟨fun h hh => ?_, fun h hh h' hh' => ?_, ⟨?_, fun hmem => ?_⟩, fun d hd => ?_,
      fun d hd => ?_, fun h hh hne => ?_, fun q hq => ?_, fun h hh => ?_, hinv.dying.1,
      fun d hd => nomatch hd⟩
    · rw [List.append_nil] at hh
      rcases List.mem_cons.mp hh with rfl | hh
      · exact ⟨fun h => absurd h hnull, fun h => absurd h hc⟩
      · exact hinv.null h (List.mem_append_left _ hh)
    · rw [List.append_nil] at hh hh'
      rcases List.mem_cons.mp hh with rfl | hh
      · rcases List.mem_cons.mp hh' with rfl | hh'
        · exact ⟨fun _ => rfl, fun _ => rfl⟩
        · exact ⟨fun h => absurd h.symm (hptr h' hh'), fun h => absurd h.symm (hcontrol h' hh')⟩
      · rcases List.mem_cons.mp hh' with rfl | hh'
        · exact ⟨fun h' => absurd h' (hptr h hh), fun h' => absurd h' (hcontrol h hh)⟩
        · exact hinv.pair h (List.mem_append_left _ hh) h' (List.mem_append_left _ hh')
    · show Function.update m.refCnt c (some 1) 0 = none
      rw [Function.update_of_ne (Ne.symm hc)]
      exact hinv.zero.1
    · rcases List.mem_cons.mp hmem with rfl | hmem
      · exact hnull rfl
      · exact hinv.zero.2 hmem
    · show Function.update m.refCnt c (some 1) d = _
      rw [List.append_nil]
      by_cases hdc : d = c
      · rw [hdc, Function.update_self, hown]
        rfl
      · have hcount := hinv.count d hd
        rw [happ] at hcount
        rw [Function.update_of_ne hdc, hcount, owners_cons_ne (Ne.symm hdc)]
    · by_cases hdc : d = c
      · rw [hdc, hown]
        decide
      · rw [owners_cons_ne (Ne.symm hdc)]
        exact hinv.few d hd
    · rw [List.append_nil] at hh
      rcases List.mem_cons.mp hh with rfl | hh
      · exact List.mem_cons_self
      · exact List.mem_cons_of_mem _ (hinv.known h (List.mem_append_left _ hh) hne)
    · show m.deleted.count q = _
      rw [hinv.deleted q hq, List.append_nil, List.append_nil, holders_cons]
      by_cases hqp : q = p
      · subst hqp
        simp [hnew]
      · simp [hqp, Ne.symm hqp]
    · rcases List.mem_cons.mp hh with rfl | hh
      · exact hhome
      · exact hinv.whole h hh

end CKernel.Memory
