/-
# `CKernel.Memory.SharedCounts` — reference counts of `SimpleSharedPtr`

An operation may delete objects with handles in them.  It is allowed where it does not
delete the object that its own handle is in, or the one that it reads from: `release` goes
on with the fields of its own handle, and the assignments read the other one, after the
destructors have run, so that `head = head->next` reads a handle that is gone.

    every operation returns and keeps the account             (`step_accounted`)
    in every run with fewer than 2^31 owners of each block
    the counts are exact                                      (`ref_counts_exact`)
    2^31 owners of one object: the counter is negative        (`ref_count_wraps`)
-/
import CKernel.Memory.SharedDelete

namespace CKernel.Memory.SharedPtrs

open Run

variable {T : Teardown} {s s' : SharedPtrs} {i j : Nat} {x y : Handle} {m : Blocks}
  {passed : List Nat} {p c home : Nat}

/-! ## Handles that are added and written -/

theorem live_add : (s.add x).live.Perm (x :: s.live) := by
  rw [live, add, List.filterMap_append]
  exact List.perm_append_singleton x _

theorem mem_live (hi : s.get i = some x) : x ∈ s.live := by
  rw [← visible_nil]
  exact mem_visible.mpr ⟨i, List.not_mem_nil, hi⟩

theorem live_perm (hi : s.get i = some x) : s.live.Perm (x :: s.visible [i]) := by
  rw [← visible_nil]
  exact visible_perm hi List.not_mem_nil

theorem visible_put (hlen : s'.handles.length = s.handles.length)
    (hother : ∀ k, k ≠ i → s'.get k = s.get k) : s'.visible [i] = s.visible [i] := by
  refine visible_congr hlen fun k => ?_
  by_cases hki : k = i
  · rw [hki, if_pos List.mem_cons_self, if_pos List.mem_cons_self]
  · rw [hother k hki]

/-- The handles after a write: the one written, and the others. -/
theorem put_live (hi : s.get i = some x) :
    ∃ s', s.put i p c = some s' ∧ s'.blocks = s.blocks ∧ s'.passed = s.passed ∧
      s'.live.Perm ({ x with ptr := p, control := c } :: s.visible [i]) ∧
      ∀ k, k ≠ i → s'.get k = s.get k := by
  obtain ⟨s', hput, hblocks, hpassed, hlen, hself, hother⟩ := @put_ok s i x c p hi
  refine ⟨s', hput, hblocks, hpassed, ?_, hother⟩
  rw [← visible_put hlen hother]
  exact live_perm hself

/-! ## One operation -/

theorem Accounted.of_perm {hs : List Handle} (hinv : Inv hs [] m passed)
    {handles : List (Option Handle)} (hperm : (handles.filterMap id).Perm hs) :
    Accounted ⟨handles, m, passed⟩ := hinv.perm hperm.symm

theorem make_accounted : Accounted make := by
  refine ⟨fun h hh => (List.not_mem_nil hh).elim, fun h hh => (List.not_mem_nil hh).elim,
    ⟨rfl, List.not_mem_nil⟩, fun c hc => rfl, fun c hc => Nat.two_pow_pos 31,
    fun h hh => (List.not_mem_nil hh).elim, fun p hp => ?_,
    fun h hh => (List.not_mem_nil hh).elim, List.nodup_nil,
    fun d hd => (List.not_mem_nil hd).elim⟩
  simp [make]

theorem default_accounted (hs : Accounted s) (hhome : home ∉ s.blocks.deleted) :
    Accounted (s.add ⟨0, 0, home⟩) :=
  .of_perm (hs.cons_null hhome) live_add

theorem adopt_home : adopt m p c home = ((adopt m p c 0).1, { (adopt m p c 0).2 with home }) := by
  rw [adopt, adopt]
  split
  · rfl
  · rfl

theorem construct_accounted (hs : Accounted s) (hfresh : Fresh s p c)
    (hhome : home ∉ s.blocks.deleted) :
    ∃ s', step T s (.construct p c home) = some s' ∧ Accounted s' := by
  have hadopt := adopt_ok hs hfresh.1 hfresh.2.1 hfresh.2.2 hhome
  refine ⟨_, by rw [step, adopt_home], .of_perm hadopt ?_⟩
  exact live_add

theorem copy_accounted (hs : Accounted s) (hj : s.get j = some x)
    (hhome : home ∉ s.blocks.deleted) :
    ∃ s', step T s (.copy j home) = some s' ∧ (Room s' → Accounted s') := by
  obtain ⟨m', hretain, hdeleted, hinv⟩ := retain_ok hs (mem_live hj)
  refine ⟨{ s.add { x with home } with blocks := m' }, ?_, fun hroom => ?_⟩
  · rw [step, hj, Option.bind_eq_bind, Option.bind_some, hretain]
    rfl
  · have hperm : (s.add { x with home }).live.Perm ({ x with home } :: s.live) := live_add
    refine .of_perm ((hinv fun hc => ?_).rehome (hdeleted ▸ hhome)) hperm
    have hfew : owners (s.add { x with home }).live x.control < 2 ^ 31 :=
      hroom { x with home } (hperm.mem_iff.mpr List.mem_cons_self) hc
    rw [owners_perm hperm] at hfew
    exact hfew

theorem move_accounted (hs : Accounted s) (hj : s.get j = some x)
    (hhome : home ∉ s.blocks.deleted) :
    ∃ s', step T s (.move j home) = some s' ∧ Accounted s' := by
  have hj' : (s.add { x with home }).get j = some x := by
    rw [get_eq_some, add, List.getElem?_append_left (lt_of_get hj)]
    exact get_eq_some.mp hj
  obtain ⟨s', hput, hblocks, hpassed, hperm, -⟩ := @put_live (s.add { x with home }) j x 0 0 hj'
  refine ⟨s', ?_, ?_⟩
  · rw [step, hj]
    exact hput
  · have hrest : ((s.add { x with home }).visible [j]).Perm ({ x with home } :: s.visible [j]) := by
      have hswap := (live_perm hj').symm.trans (live_add.trans ((live_perm hj).cons _))
      exact (hswap.trans (List.Perm.swap _ _ _)).cons_inv
    have hinv := ((hs.perm (live_perm hj)).rehome hhome).cons_null (hs.whole x (mem_live hj))
    rw [Accounted, hblocks, hpassed]
    exact hinv.perm (hperm.trans (hrest.cons _)).symm

/-- The first part of both assignments, and of `reset`. -/
theorem released (T : Teardown) (hs : Accounted s) (hi : Outlives s i i) :
    ∃ x s', s.get i = some x ∧ s.releaseAll T i = some s' ∧ Released s i x s' := by
  obtain ⟨x, hget, hout⟩ := hi
  obtain ⟨s', hrun, hs'⟩ := releaseAll_ok T hs hget hout
  exact ⟨x, s', hget, hrun, hs'⟩

theorem copyAssign_accounted (hs : Accounted s) (hij : i ≠ j) (hi : Outlives s i i)
    (hj : Outlives s i j) : ∃ s', step T s (.copyAssign i j) = some s' ∧ (Room s' → Accounted s') := by
  obtain ⟨x, s₁, hget, hrun, hs₁⟩ := released T hs hi
  obtain ⟨y, hy, hout⟩ := hj
  obtain ⟨x₁, hx₁, hhome⟩ := hs₁.self
  have hj₁ := hs₁.other j y (Ne.symm hij) hy hout
  have hmem : y ∈ s₁.visible [i] :=
    mem_visible.mpr ⟨j, fun h => hij (List.mem_singleton.mp h).symm, hj₁⟩
  obtain ⟨s₂, hput, hblocks, hpassed, hperm, -⟩ := @put_live s₁ i x₁ y.ptr y.control hx₁
  obtain ⟨m', hretain, hdeleted, hinv⟩ := retain_ok hs₁.inv hmem
  refine ⟨{ s₂ with blocks := m' }, ?_, fun hroom => ?_⟩
  · rw [step, hget, Option.bind_eq_bind, Option.bind_some, if_neg hij, hrun]
    show ((s₁.get j).bind _) = _
    rw [hj₁, Option.bind_some]
    show ((s₁.put i y.ptr y.control).bind _) = _
    rw [hput, Option.bind_some, hblocks, hretain]
    rfl
  · rw [hhome] at hperm
    have hhome' : x.home ∉ m'.deleted := hdeleted ▸ hs₁.home
    have hfinal := (hinv fun hc => ?_).rehome hhome'
    · rw [Accounted, show ({ s₂ with blocks := m' } : SharedPtrs).passed = s₁.passed from hpassed]
      exact hfinal.perm hperm.symm
    · have hfew : owners s₂.live y.control < 2 ^ 31 :=
        hroom { y with home := x.home } (hperm.mem_iff.mpr List.mem_cons_self) hc
      rw [owners_perm hperm] at hfew
      exact hfew

theorem moveAssign_accounted (hs : Accounted s) (hij : i ≠ j) (hi : Outlives s i i)
    (hj : Outlives s i j) : ∃ s', step T s (.moveAssign i j) = some s' ∧ Accounted s' := by
  obtain ⟨x, s₁, hget, hrun, hs₁⟩ := released T hs hi
  obtain ⟨y, hy, hout⟩ := hj
  obtain ⟨x₁, hx₁, hhome⟩ := hs₁.self
  have hj₁ := hs₁.other j y (Ne.symm hij) hy hout
  have hvisible := visible_perm hj₁ fun h => hij (List.mem_singleton.mp h).symm
  obtain ⟨s₂, hput, hblocks, hpassed, hperm, hother⟩ := @put_live s₁ i x₁ y.ptr y.control hx₁
  have hj₂ : s₂.get j = some y := (hother j (Ne.symm hij)).trans hj₁
  obtain ⟨s₃, hput', hblocks', hpassed', hperm', -⟩ := @put_live s₂ j y 0 0 hj₂
  refine ⟨s₃, ?_, ?_⟩
  · rw [step, hget, Option.bind_eq_bind, Option.bind_some, if_neg hij, hrun]
    show ((s₁.get j).bind _) = _
    rw [hj₁, Option.bind_some]
    show ((s₁.put i y.ptr y.control).bind _) = _
    rw [hput]
    exact hput'
  · -- both handles point to the object of `j` after the first write, one after the second
    have hrest : (s₂.visible [j]).Perm ({ y with home := x.home } :: s₁.visible [j, i]) := by
      rw [hhome] at hperm
      have hswap := (live_perm hj₂).symm.trans (hperm.trans (hvisible.cons _))
      exact (hswap.trans (List.Perm.swap _ _ _)).cons_inv
    have hinv := ((hs₁.inv.perm hvisible).rehome hs₁.home).cons_null
      (hs₁.inv.whole y (hvisible.mem_iff.mpr List.mem_cons_self))
    rw [Accounted, hblocks', hpassed', hblocks, hpassed]
    exact hinv.perm (hperm'.trans (hrest.cons _)).symm

theorem reset_accounted (hs : Accounted s) (hi : s.get i = some x) (hp : x.ptr ≠ p)
    (hout : Outlives s i i) (hfresh : ∀ s' ∈ s.releaseAll T i, Fresh s' p c) :
    ∃ s', step T s (.reset i p c) = some s' ∧ Accounted s' := by
  obtain ⟨x', s₁, hget, hrun, hs₁⟩ := released T hs hout
  cases hi.symm.trans hget
  obtain ⟨x₁, hx₁, hhome⟩ := hs₁.self
  obtain ⟨hpassed, hc, hfree⟩ := hfresh s₁ hrun
  have hadopt := adopt_ok hs₁.inv hpassed hc hfree hs₁.home
  obtain ⟨s₂, hput, -, hpassed₂, hperm, -⟩ :=
    @put_live s₁ i x₁ (adopt s₁.blocks p c 0).2.ptr (adopt s₁.blocks p c 0).2.control hx₁
  refine ⟨{ s₂ with blocks := (adopt s₁.blocks p c 0).1, passed := pass s₂.passed p }, ?_, ?_⟩
  · rw [step, hi, Option.bind_eq_bind, Option.bind_some, if_neg hp, hrun]
    show ((s₁.put i (adopt s₁.blocks p c 0).2.ptr (adopt s₁.blocks p c 0).2.control).bind _) = _
    rw [hput]
    rfl
  · rw [hhome] at hperm
    rw [← hpassed₂] at hadopt
    exact hadopt.perm hperm.symm

theorem destroy_accounted (hs : Accounted s) (hi : Outlives s i i) :
    ∃ s', step T s (.destroy i) = some s' ∧ Accounted s' := by
  obtain ⟨x, s₁, -, hrun, hs₁⟩ := released T hs hi
  refine ⟨s₁.kill i, by rw [step, hrun]; rfl, ?_⟩
  rw [Accounted, ← visible_nil, visible_kill]
  exact hs₁.inv

/-- Every operation returns and keeps the account, if the counters have room. -/
theorem step_accounted (hs : Accounted s) (op : Op) (hallowed : Allowed T s op) :
    ∃ s', step T s op = some s' ∧ (Room s' → Accounted s') := by
  have hkeep {s'} (h : Accounted s') : Room s' → Accounted s' := fun _ => h
  cases op with
  | default home => exact ⟨_, rfl, hkeep (default_accounted hs hallowed)⟩
  | construct p c home =>
      obtain ⟨s', hrun, hs'⟩ := @construct_accounted T s p c home hs hallowed.1 hallowed.2
      exact ⟨s', hrun, hkeep hs'⟩
  | copy j home =>
      obtain ⟨x, hj⟩ := Option.isSome_iff_exists.mp hallowed.1
      exact copy_accounted hs hj hallowed.2
  | move j home =>
      obtain ⟨x, hj⟩ := Option.isSome_iff_exists.mp hallowed.1
      obtain ⟨s', hrun, hs'⟩ := @move_accounted T s j x home hs hj hallowed.2
      exact ⟨s', hrun, hkeep hs'⟩
  | copyAssign i j =>
      obtain ⟨x, hi⟩ := Option.isSome_iff_exists.mp hallowed.1
      by_cases hij : i = j
      · exact ⟨s, by rw [step, hi, Option.bind_eq_bind, Option.bind_some, if_pos hij], hkeep hs⟩
      · obtain ⟨hout, hout'⟩ := hallowed.2.resolve_left hij
        exact copyAssign_accounted hs hij hout hout'
  | moveAssign i j =>
      obtain ⟨x, hi⟩ := Option.isSome_iff_exists.mp hallowed.1
      by_cases hij : i = j
      · exact ⟨s, by rw [step, hi, Option.bind_eq_bind, Option.bind_some, if_pos hij], hkeep hs⟩
      · obtain ⟨hout, hout'⟩ := hallowed.2.resolve_left hij
        obtain ⟨s', hrun, hs'⟩ := @moveAssign_accounted T s i j hs hij hout hout'
        exact ⟨s', hrun, hkeep hs'⟩
  | reset i p c =>
      obtain ⟨x, hi, hor⟩ := hallowed
      by_cases hp : x.ptr = p
      · refine ⟨s, ?_, hkeep hs⟩
        rw [step, show s.get i = some x from hi, Option.bind_eq_bind, Option.bind_some, if_pos hp]
      · obtain ⟨hout, hfresh⟩ := hor.resolve_left hp
        obtain ⟨s', hrun, hs'⟩ := reset_accounted hs hi hp hout hfresh
        exact ⟨s', hrun, hkeep hs'⟩
  | destroy i =>
      obtain ⟨s', hrun, hs'⟩ := @destroy_accounted T s i hs hallowed
      exact ⟨s', hrun, hkeep hs'⟩

theorem Accounted.exact (hs : Accounted s) : Exact s := by
  have happ : s.live ++ [] = s.live := List.append_nil _
  have hne : ∀ p ∈ s.passed, p ≠ 0 := by
    rintro p hp rfl
    exact hs.zero.2 hp
  have hcount : ∀ c, c ≠ 0 → s.blocks.refCnt c =
      if owners s.live c = 0 then none else some (owners s.live c : Int) := by
    intro c hc
    have hcount := hs.count c hc
    rwa [happ] at hcount
  have hdeleted : ∀ p, p ≠ 0 → s.blocks.deleted.count p =
      if p ∈ s.passed ∧ holders s.live p = 0 then 1 else 0 := by
    intro p hp
    have hdeleted := hs.deleted p hp
    rwa [happ] at hdeleted
  refine ⟨fun c n hc => ?_, fun p hp => ?_, fun x hx hcontrol => ?_, fun x hx hptr => ?_,
    hs.whole⟩
  · have hc0 : c ≠ 0 := by
      rintro rfl
      rw [hs.zero.1] at hc
      cases hc
    rw [hcount c hc0] at hc
    split at hc
    · cases hc
    · exact (Option.some.inj hc).symm
  · rw [hdeleted p (hne p hp)]
    exact if_congr (and_iff_right hp) rfl rfl
  · have howned : owners s.live x.control ≠ 0 := fun h0 => owners_eq_zero.mp h0 x hx rfl
    exact ⟨_, by rw [hcount x.control hcontrol, if_neg howned]⟩
  · have hheld : holders s.live x.ptr ≠ 0 := fun h0 => holders_eq_zero.mp h0 x hx rfl
    rw [← List.count_eq_zero, hdeleted x.ptr hptr]
    exact if_neg fun h0 => hheld h0.2

/-! ## Runs -/

/-- Every run in which no operation deletes what its handles are in, and no block gets 2^31
owners, returns with exact counts. -/
theorem ref_counts_exact (T : Teardown) (ops : List Op)
    (h : Along (step T) (fun s op => Allowed T s op ∧ ∀ s' ∈ step T s op, Room s') make ops) :
    ∃ s, run (step T) make ops = some s ∧ Exact s := by
  obtain ⟨s, hrun, hs⟩ := run_invariant (fun s op hs hop => by
    obtain ⟨s', hstep, hs'⟩ := step_accounted hs op hop.1
    exact ⟨s', hstep, hs' (hop.2 s' hstep)⟩) ops make_accounted h
  exact ⟨s, hrun, hs.exact⟩

theorem not_dies_zero : ¬ Dies s i 0 := by
  intro h
  generalize hp : 0 = p at h
  cases h with
  | last k x hk hne hall => exact hne hp.symm

/-- An object is not deleted that another handle has, one that is in no object that is. -/
theorem not_dies_of_held (hj : s.get j = some x) (hij : j ≠ i) (hhome : ¬ Dies s i x.home) :
    ¬ Dies s i x.ptr := by
  intro h
  generalize hp : x.ptr = p at h
  cases h with
  | last k y hk hne hall => exact hhome (hall j x hj hp hij)

theorem outlives_of_outside (hj : s.get j = some x) (hhome : x.home = 0) : Outlives s i j :=
  ⟨x, hj, hhome ▸ not_dies_zero⟩

instance (s : SharedPtrs) (p c : Nat) : Decidable (Fresh s p c) :=
  inferInstanceAs (Decidable (_ ∧ _ ∧ _))

/-- Destructors that destroy the handles in the order of their slots. -/
def forwards : Teardown := ⟨fun _ ks => ks, fun _ _ => .refl _⟩

/-- A list of two nodes, whose head moves on by a copy of the member of the first; then
one whose first node gets another second one, and that is destroyed with both. -/
theorem ref_counts_exact_list :
    ∃ s, run (step forwards) make [.construct 100 8 0, .construct 200 16 100, .copy 1 0,
      .copyAssign 0 2, .moveAssign 2 0, .reset 2 300 8, .construct 400 16 300, .reset 3 500 24,
      .destroy 2] = some s ∧ Exact s := by
  refine ref_counts_exact forwards _ ?_
  refine ⟨⟨⟨by decide, by decide⟩, by decide⟩, ?_⟩
  refine ⟨⟨⟨by decide, by decide⟩, by decide⟩, ?_⟩
  refine ⟨⟨⟨by decide, by decide⟩, by decide⟩, ?_⟩
  refine ⟨⟨⟨by decide, .inr ⟨outlives_of_outside rfl rfl, outlives_of_outside rfl rfl⟩⟩,
    by decide⟩, ?_⟩
  refine ⟨⟨⟨by decide, .inr ⟨outlives_of_outside rfl rfl, outlives_of_outside rfl rfl⟩⟩,
    by decide⟩, ?_⟩
  refine ⟨⟨⟨_, rfl, .inr ⟨outlives_of_outside rfl rfl, by decide⟩⟩, by decide⟩, ?_⟩
  refine ⟨⟨⟨by decide, by decide⟩, by decide⟩, ?_⟩
  refine ⟨⟨⟨_, rfl, .inr ⟨⟨_, rfl, ?_⟩, by decide⟩⟩, by decide⟩, ?_⟩
  · exact @not_dies_of_held _ 3 2 ⟨300, 8, 0⟩ rfl (by decide) not_dies_zero
  refine ⟨⟨outlives_of_outside rfl rfl, by decide⟩, trivial⟩

/-- `head = head->next` of the same list reads a handle that its release has destroyed. -/
example : run (step forwards) make [.construct 100 8 0, .construct 200 16 100,
    .copyAssign 0 1] = none := rfl

/-! ## More owners than the counter can count -/

/-- `n + 1` handles of one object. -/
def many (n : Nat) : SharedPtrs :=
  ⟨List.replicate (n + 1) (some ⟨100, 8, 0⟩),
    ⟨Function.update (fun _ => none) 8 (some (wrapInt (n + 1))), []⟩, [100]⟩

theorem get_many (n : Nat) : (many n).get 0 = some ⟨100, 8, 0⟩ := rfl

theorem copy_many (T : Teardown) (n : Nat) : step T (many n) (.copy 0 0) = some (many (n + 1)) := by
  have hcount : wrapInt (wrapInt (n + 1) + 1) = wrapInt ((n + 1 : Nat) + 1) := by
    rw [wrapInt, wrapInt, Int.bmod_add_bmod]
    rfl
  have hretain : retain (many n).blocks 8 = some (many (n + 1)).blocks := by
    show some (Blocks.mk (Function.update (Function.update _ _ _) _ _) _) = _
    rw [Function.update_idem, hcount]
    rfl
  rw [step, get_many, Option.bind_eq_bind, Option.bind_some, hretain]
  show some (SharedPtrs.mk (List.replicate (n + 1) _ ++ [_]) _ _) = _
  rw [← List.replicate_succ']
  rfl

theorem run_many (T : Teardown) (k n : Nat) :
    run (step T) (many n) (List.replicate k (.copy 0 0)) = some (many (n + k)) ∧
      Along (step T) (Allowed T) (many n) (List.replicate k (.copy 0 0)) := by
  induction k generalizing n with
  | zero => exact ⟨rfl, trivial⟩
  | succ k ih =>
      obtain ⟨hrun, halong⟩ := ih (n + 1)
      rw [List.replicate_succ]
      constructor
      · rw [run, copy_many, Option.bind_some, hrun, Nat.add_right_comm, Nat.add_assoc]
      · refine ⟨⟨rfl, List.not_mem_nil⟩, ?_⟩
        rw [copy_many]
        exact halong

theorem owners_many (n : Nat) : owners (many n).live 8 = n + 1 := by
  have hlive : (many n).live = List.replicate (n + 1) ⟨100, 8, 0⟩ := by
    simp [many, live]
  rw [hlive, owners, List.countP_replicate]
  rfl

/-- With 2^31 owners the counter of their block is negative. -/
theorem ref_count_wraps :
    ¬ ∀ (T : Teardown) (ops : List Op), Along (step T) (Allowed T) make ops →
      ∃ s, run (step T) make ops = some s ∧ Exact s := by
  intro hexact
  have hstart : step forwards make (.construct 100 8 0) = some (many 0) := rfl
  obtain ⟨hmany, halong⟩ := run_many forwards (2 ^ 31 - 1) 0
  obtain ⟨s, hrun, hs⟩ := hexact forwards
    (.construct 100 8 0 :: List.replicate (2 ^ 31 - 1) (.copy 0 0)) (by
      refine ⟨⟨⟨.inr List.not_mem_nil, by decide, rfl⟩, List.not_mem_nil⟩, ?_⟩
      rw [hstart]
      exact halong)
  rw [run, hstart, Option.bind_some, hmany] at hrun
  have hs' : s = many (0 + (2 ^ 31 - 1)) := (Option.some.inj hrun).symm
  subst hs'
  have hcount := hs.counted 8 _ rfl
  rw [owners_many] at hcount
  revert hcount
  decide

end CKernel.Memory.SharedPtrs
