/-
# `CKernel.Memory.SharedRelease` — `SimpleSharedPtr::release` by several threads

`n` handles share a control block whose counter is `n`, and each is released by a
thread of its own.  The decrement and the test against zero are two atomic steps of
`release`, so a schedule is a list of threads, each entry letting that thread take
its next step.

    each thread's first two steps are its decrement and its test  (`rank_run`)
    a test made after all decrements leads to a deletion          (`step_bound`)
    exactly one thread deletes if and only if the last decrement
      comes after the tests of all the others                     (`release_once_iff`)
    two threads that decrement first and test later both delete   (`release_twice`)
-/
import CKernel.Lib.Run

namespace CKernel.Memory.SharedRelease

open Run

/-! ## The code -/

/-- Where a thread is in `release()`. -/
inductive Pc where
  /-- before `_control->_ref_cnt --` -/
  | start
  /-- before `_control->_ref_cnt == 0` -/
  | decremented
  /-- before `delete _ptr` -/
  | zero
  /-- before `delete _control` -/
  | deleted
  | done
  deriving DecidableEq, Repr

/-- The shared memory, the threads, and who deleted what. -/
structure State (n : Nat) where
  refCnt : Int
  live : Bool
  pc : Fin n → Pc
  objectBy : List (Fin n)
  controlBy : List (Fin n)

variable {n : Nat}

def init (n : Nat) : State n := ⟨n, true, fun _ => .start, [], []⟩

/-- The next step of thread `i`; `none` when it would use the counter of a control
block that was deleted. -/
def step (s : State n) (i : Fin n) : Option (State n) :=
  match s.pc i with
  | .start =>
      if s.live then
        some { s with refCnt := s.refCnt - 1, pc := Function.update s.pc i .decremented }
      else none
  | .decremented =>
      if s.live then
        some { s with pc := Function.update s.pc i (if s.refCnt = 0 then .zero else .done) }
      else none
  | .zero =>
      some { s with objectBy := s.objectBy ++ [i], pc := Function.update s.pc i .deleted }
  | .deleted =>
      some { s with controlBy := s.controlBy ++ [i], live := false,
                    pc := Function.update s.pc i .done }
  | .done => some s

/-! ## What the results say -/

/-- No step uses a deleted counter, and one thread deletes the object and the
control block. -/
def Once (sched : List (Fin n)) : Prop :=
  ∃ s i, run step (init n) sched = some s ∧ s.objectBy = [i] ∧ s.controlBy = [i]

/-- Every thread can finish. -/
def Complete (sched : List (Fin n)) : Prop := ∀ i, 4 ≤ sched.count i

/-- When the last thread makes its first step, the others have made their second. -/
def LastAlone (sched : List (Fin n)) : Prop :=
  ∃ pre i post, sched = pre ++ i :: post ∧ i ∉ pre ∧ ∀ j, j ≠ i → 2 ≤ pre.count j

instance (sched : List (Fin n)) : Decidable (Complete sched) :=
  inferInstanceAs (Decidable (∀ _, _ ≤ _))

/-! ## Progress -/

/-- How far a thread is. -/
def Pc.rank : Pc → Nat
  | .start => 0
  | .decremented => 1
  | .zero => 2
  | .deleted => 3
  | .done => 4

variable {s s' : State n} {i j : Fin n}

/-- One step, with all that it can do. -/
theorem step_cases (h : step s i = some s') :
    (s.pc i = .start ∧ s.live = true ∧
      s' = { s with refCnt := s.refCnt - 1, pc := Function.update s.pc i .decremented }) ∨
    (s.pc i = .decremented ∧ s.live = true ∧
      s' = { s with pc := Function.update s.pc i (if s.refCnt = 0 then .zero else .done) }) ∨
    (s.pc i = .zero ∧
      s' = { s with objectBy := s.objectBy ++ [i], pc := Function.update s.pc i .deleted }) ∨
    (s.pc i = .deleted ∧ s' = { s with controlBy := s.controlBy ++ [i], live := false,
                                       pc := Function.update s.pc i .done }) ∨
    (s.pc i = .done ∧ s' = s) := by
  rw [step] at h
  cases hpc : s.pc i with
  | start =>
      rw [hpc] at h
      simp only at h
      split at h
      case isTrue hlive => exact .inl ⟨rfl, hlive, (Option.some.inj h).symm⟩
      case isFalse => cases h
  | decremented =>
      rw [hpc] at h
      simp only at h
      split at h
      case isTrue hlive => exact .inr (.inl ⟨rfl, hlive, (Option.some.inj h).symm⟩)
      case isFalse => cases h
  | zero =>
      rw [hpc] at h
      exact .inr (.inr (.inl ⟨rfl, (Option.some.inj h).symm⟩))
  | deleted =>
      rw [hpc] at h
      exact .inr (.inr (.inr (.inl ⟨rfl, (Option.some.inj h).symm⟩)))
  | done =>
      rw [hpc] at h
      exact .inr (.inr (.inr (.inr ⟨rfl, (Option.some.inj h).symm⟩)))

/-- The other threads stay where they are. -/
theorem step_pc_of_ne (h : step s i = some s') (hne : j ≠ i) : s'.pc j = s.pc j := by
  rcases step_cases h with ⟨-, -, rfl⟩ | ⟨-, -, rfl⟩ | ⟨-, rfl⟩ | ⟨-, rfl⟩ | ⟨-, rfl⟩
  · exact Function.update_of_ne hne _ _
  · exact Function.update_of_ne hne _ _
  · exact Function.update_of_ne hne _ _
  · exact Function.update_of_ne hne _ _
  · rfl

/-- A thread's own step takes it further, one place at a time up to its test. -/
theorem step_rank (h : step s i = some s') :
    min ((s.pc i).rank + 1) 4 ≤ (s'.pc i).rank ∧
      min (s'.pc i).rank 2 = min ((s.pc i).rank + 1) 2 := by
  rcases step_cases h with ⟨hpc, -, rfl⟩ | ⟨hpc, -, rfl⟩ | ⟨hpc, rfl⟩ | ⟨hpc, rfl⟩ | ⟨hpc, rfl⟩
  · simp [hpc, Pc.rank]
  · simp only [Function.update_self, hpc]
    split
    · decide
    · decide
  · simp [hpc, Pc.rank]
  · simp [hpc, Pc.rank]
  · rw [hpc]
    decide

/-- After a run, a thread is as far as its entries in the schedule took it. -/
theorem rank_run (sched : List (Fin n)) {s s' : State n} (h : run step s sched = some s')
    (j : Fin n) :
    min ((s.pc j).rank + sched.count j) 4 ≤ (s'.pc j).rank ∧
      min (s'.pc j).rank 2 = min ((s.pc j).rank + sched.count j) 2 := by
  induction sched generalizing s with
  | nil =>
      cases h
      rw [List.count_nil]
      omega
  | cons i sched ih =>
      obtain ⟨s₁, hs₁, hrest⟩ := Option.bind_eq_some_iff.mp h
      have hrank := ih hrest
      by_cases hji : j = i
      · subst hji
        have hstep := step_rank hs₁
        rw [List.count_cons_self]
        omega
      · rw [List.count_cons_of_ne (Ne.symm hji)]
        rwa [step_pc_of_ne hs₁ hji] at hrank

/-! ## The counter -/

/-- The threads that have yet to decrement. -/
def waiting (pc : Fin n → Pc) : Finset (Fin n) := Finset.univ.filter fun j => pc j = .start

/-- The counter counts them. -/
def Counts (s : State n) : Prop := s.refCnt = (waiting s.pc).card

theorem init_counts (n : Nat) : Counts (init n) := by
  simp [Counts, waiting, init]

theorem waiting_decremented {pc : Fin n → Pc} :
    waiting (Function.update pc i .decremented) = (waiting pc).erase i := by
  ext j
  by_cases hji : j = i
  · simp [waiting, hji]
  · simp [waiting, hji]

theorem waiting_later {pc : Fin n → Pc} {v : Pc} (hi : pc i ≠ .start) (hv : v ≠ .start) :
    waiting (Function.update pc i v) = waiting pc := by
  ext j
  by_cases hji : j = i
  · simp [waiting, hji, hi, hv]
  · simp [waiting, Function.update_of_ne hji]

theorem step_counts (s : State n) (i : Fin n) (s' : State n) (h : Counts s)
    (hs : step s i = some s') : Counts s' := by
  rcases step_cases hs with ⟨hpc, -, rfl⟩ | ⟨hpc, -, rfl⟩ | ⟨hpc, rfl⟩ | ⟨hpc, rfl⟩ | ⟨-, rfl⟩
  · have hmem : i ∈ waiting s.pc := by simp [waiting, hpc]
    have hpos : 0 < (waiting s.pc).card := Finset.card_pos.mpr ⟨i, hmem⟩
    have hcard : s.refCnt = (waiting s.pc).card := h
    show s.refCnt - 1 = (waiting (Function.update s.pc i .decremented)).card
    rw [waiting_decremented, Finset.card_erase_of_mem hmem]
    omega
  · have hnext : (if s.refCnt = 0 then Pc.zero else Pc.done) ≠ .start := by
      split
      · simp
      · simp
    rw [Counts, waiting_later (by simp [hpc]) hnext]
    exact h
  · rw [Counts, waiting_later (by simp [hpc]) (by simp)]
    exact h
  · rw [Counts, waiting_later (by simp [hpc]) (by simp)]
    exact h
  · exact h

/-! ## Two tests after the last decrement -/

/-- All have decremented, and thread `k` is bound to delete the object, or has. -/
def Bound (k : Fin n) (s : State n) : Prop :=
  s.refCnt = 0 ∧ (∀ j, s.pc j ≠ .start) ∧
    (s.pc k = .decremented ∨ s.pc k = .zero ∨ k ∈ s.objectBy)

theorem step_bound {k : Fin n} (s : State n) (i : Fin n) (s' : State n) (h : Bound k s)
    (hs : step s i = some s') : Bound k s' := by
  obtain ⟨hzero, hstart, hk⟩ := h
  have hstart' : ∀ j, s'.pc j ≠ .start := by
    intro j hj
    by_cases hji : j = i
    · subst hji
      have hrank := (step_rank hs).1
      rw [hj] at hrank
      simp [Pc.rank] at hrank
    · rw [step_pc_of_ne hs hji] at hj
      exact hstart j hj
  by_cases hki : k = i
  · subst hki
    rcases step_cases hs with ⟨hpc, -, rfl⟩ | ⟨hpc, -, rfl⟩ | ⟨hpc, rfl⟩ | ⟨hpc, rfl⟩ | ⟨hpc, rfl⟩
    · exact absurd hpc (hstart k)
    · exact ⟨hzero, hstart', .inr (.inl (by simp [hzero]))⟩
    · exact ⟨hzero, hstart', .inr (.inr (by simp))⟩
    · refine ⟨hzero, hstart', .inr (.inr ?_)⟩
      simpa [hpc] using hk
    · exact ⟨hzero, hstart, hk⟩
  · have hpc' := step_pc_of_ne hs hki
    rcases step_cases hs with ⟨hpc, -, rfl⟩ | ⟨-, -, rfl⟩ | ⟨-, rfl⟩ | ⟨-, rfl⟩ | ⟨-, rfl⟩
    · exact absurd hpc (hstart i)
    · exact ⟨hzero, hstart', by rwa [hpc']⟩
    · refine ⟨hzero, hstart', ?_⟩
      rw [hpc']
      exact hk.imp_right (Or.imp_right fun hmem => List.mem_append_left _ hmem)
    · exact ⟨hzero, hstart', by rwa [hpc']⟩
    · exact ⟨hzero, hstart, hk⟩

/-- The last of the first entries of a schedule in which all threads occur. -/
theorem exists_last (sched : List (Fin n)) (k : Fin n) (h : ∀ i, i ∈ sched) :
    ∃ pre i post, sched = pre ++ i :: post ∧ i ∉ pre ∧ ∀ j, j ≠ i → j ∈ pre := by
  induction sched using List.reverseRecOn with
  | nil => exact absurd (h k) List.not_mem_nil
  | append_singleton sched i ih =>
      by_cases hall : ∀ j, j ∈ sched
      · obtain ⟨pre, l, post, rfl, hl, hpre⟩ := ih hall
        refine ⟨pre, l, post ++ [i], ?_, hl, hpre⟩
        rw [List.append_assoc, List.cons_append]
      · obtain ⟨j, hj⟩ := not_forall.mp hall
        have hji : j = i := by
          rcases List.mem_append.mp (h j) with hmem | hmem
          · exact absurd hmem hj
          · exact List.mem_singleton.mp hmem
        subst hji
        refine ⟨sched, j, [], rfl, hj, fun l hl => ?_⟩
        rcases List.mem_append.mp (h l) with hmem | hmem
        · exact hmem
        · exact absurd (List.mem_singleton.mp hmem) hl

theorem pc_eq_done {pc : Pc} (h : 4 ≤ pc.rank) : pc = .done := by
  cases pc with
  | done => rfl
  | start | decremented | zero | deleted => simp [Pc.rank] at h

theorem pc_eq_start {pc : Pc} (h : min pc.rank 2 = 0) : pc = .start := by
  cases pc with
  | start => rfl
  | decremented | zero | deleted | done => simp [Pc.rank] at h

theorem pc_eq_decremented {pc : Pc} (h : min pc.rank 2 = 1) : pc = .decremented := by
  cases pc with
  | decremented => rfl
  | start | zero | deleted | done => simp [Pc.rank] at h

/-- A thread bound to delete does so in a complete schedule. -/
theorem Bound.mem_objectBy {k : Fin n} (h : Bound k s) (hdone : s.pc k = .done) :
    k ∈ s.objectBy := by
  simpa [hdone] using h.2.2

theorem lastAlone_of_once {sched : List (Fin n)} (hcomplete : Complete sched)
    (h : Once sched) : LastAlone sched := by
  obtain ⟨s, k, hrun, hobject, -⟩ := h
  have hmem : ∀ i, i ∈ sched := fun i =>
    List.count_pos_iff.mp (Nat.lt_of_lt_of_le (by decide) (hcomplete i))
  have hdone : ∀ i, s.pc i = .done := by
    intro i
    have hrank := (rank_run sched hrun i).1
    have hcount := hcomplete i
    refine pc_eq_done ?_
    omega
  obtain ⟨pre, i, post, rfl, hi, hpre⟩ := exists_last sched k hmem
  refine ⟨pre, i, post, rfl, hi, fun j hji => ?_⟩
  by_contra hlt
  rw [run_append] at hrun
  obtain ⟨s₁, hrun₁, hrest⟩ := Option.bind_eq_some_iff.mp hrun
  obtain ⟨s₂, hs₂, hrun₂⟩ := Option.bind_eq_some_iff.mp hrest
  have hrank₁ (l : Fin n) : min (s₁.pc l).rank 2 = min (pre.count l) 2 := by
    have hrank := (rank_run pre hrun₁ l).2
    rwa [init, Pc.rank, Nat.zero_add] at hrank
  have hcounts := step_counts s₁ i s₂ (run_keeps step_counts pre (init_counts n) hrun₁) hs₂
  have hone : ∀ l, l ≠ i → 0 < pre.count l := fun l hl => List.count_pos_iff.mpr (hpre l hl)
  have hpci : s₁.pc i = .start :=
    pc_eq_start (by rw [hrank₁, List.count_eq_zero.mpr hi]; rfl)
  have hpcj : s₁.pc j = .decremented := by
    refine pc_eq_decremented ?_
    have hcount := hone j hji
    rw [hrank₁]
    omega
  have hpci₂ : s₂.pc i = .decremented := by
    refine pc_eq_decremented ?_
    rw [(step_rank hs₂).2, hpci]
    rfl
  have hpcj₂ : s₂.pc j = .decremented := by
    rw [step_pc_of_ne hs₂ hji, hpcj]
  have hstart : ∀ l, s₂.pc l ≠ .start := by
    intro l hl
    by_cases hli : l = i
    · rw [hli, hpci₂] at hl
      cases hl
    · have hrank := hrank₁ l
      rw [step_pc_of_ne hs₂ hli] at hl
      rw [hl] at hrank
      have hcount := hone l hli
      simp only [Pc.rank] at hrank
      omega
  have hzero : s₂.refCnt = 0 := by
    rw [hcounts, waiting, Finset.filter_eq_empty_iff.mpr fun l _ => hstart l]
    rfl
  have hbound : ∀ l, s₂.pc l = .decremented → l ∈ s.objectBy := fun l hl =>
    (run_keeps step_bound post ⟨hzero, hstart, .inl hl⟩ hrun₂).mem_objectBy (hdone l)
  rw [hobject] at hbound
  have hik := List.mem_singleton.mp (hbound i hpci₂)
  have hjk := List.mem_singleton.mp (hbound j hpcj₂)
  exact hji (hjk.trans hik.symm)

/-! ## The last decrement after the other tests -/

/-- While thread `i` has not decremented, no test finds zero. -/
structure Calm (i : Fin n) (s : State n) : Prop where
  start : s.pc i = .start
  counts : Counts s
  live : s.live = true
  objectBy : s.objectBy = []
  controlBy : s.controlBy = []
  pc : ∀ j, s.pc j = .start ∨ s.pc j = .decremented ∨ s.pc j = .done

theorem init_calm (i : Fin n) : Calm i (init n) :=
  ⟨rfl, init_counts n, rfl, rfl, rfl, fun _ => .inl rfl⟩

theorem Calm.refCnt_ne_zero (h : Calm i s) : s.refCnt ≠ 0 := by
  have hcard : s.refCnt = (waiting s.pc).card := h.counts
  have hpos : 0 < (waiting s.pc).card := Finset.card_pos.mpr ⟨i, by simp [waiting, h.start]⟩
  omega

theorem step_calm (s : State n) (j : Fin n) (h : Calm i s) (hji : j ≠ i) :
    ∃ s', step s j = some s' ∧ Calm i s' := by
  have hkeep : ∀ v, Function.update s.pc j v i = .start := fun v => by
    rw [Function.update_of_ne (Ne.symm hji), h.start]
  have hpc : ∀ v, (v = .start ∨ v = .decremented ∨ v = .done) → ∀ k,
      Function.update s.pc j v k = .start ∨ Function.update s.pc j v k = .decremented ∨
        Function.update s.pc j v k = .done := by
    intro v hv k
    by_cases hkj : k = j
    · rw [hkj, Function.update_self]
      exact hv
    · rw [Function.update_of_ne hkj]
      exact h.pc k
  rcases h.pc j with hj | hj | hj
  · have hstep : step s j = some { s with refCnt := s.refCnt - 1,
                                          pc := Function.update s.pc j .decremented } := by
      rw [step, hj]
      exact if_pos h.live
    exact ⟨_, hstep, hkeep _, step_counts s j _ h.counts hstep, h.live, h.objectBy, h.controlBy,
      hpc _ (.inr (.inl rfl))⟩
  · have hstep : step s j = some { s with pc := Function.update s.pc j .done } := by
      rw [step, hj]
      simp only [h.live, if_true, if_neg h.refCnt_ne_zero]
    exact ⟨_, hstep, hkeep _, step_counts s j _ h.counts hstep, h.live, h.objectBy, h.controlBy,
      hpc _ (.inr (.inr rfl))⟩
  · have hstep : step s j = some s := by rw [step, hj]
    exact ⟨s, hstep, h⟩

/-- Thread `i` is the only one left: what it has deleted, by where it is. -/
structure Alone (i : Fin n) (s : State n) : Prop where
  others : ∀ j, j ≠ i → s.pc j = .done
  here : (s.pc i = .decremented ∧ s.refCnt = 0 ∧ s.live = true ∧ s.objectBy = [] ∧
      s.controlBy = []) ∨
    (s.pc i = .zero ∧ s.objectBy = [] ∧ s.controlBy = []) ∨
    (s.pc i = .deleted ∧ s.objectBy = [i] ∧ s.controlBy = []) ∨
    (s.pc i = .done ∧ s.objectBy = [i] ∧ s.controlBy = [i])

theorem step_alone (s : State n) (j : Fin n) (h : Alone i s) :
    ∃ s', step s j = some s' ∧ Alone i s' := by
  by_cases hji : j = i
  · subst hji
    have hothers : ∀ v k, k ≠ j → Function.update s.pc j v k = .done := by
      intro v k hk
      rw [Function.update_of_ne hk]
      exact h.others k hk
    rcases h.here with ⟨hpc, hzero, hlive, hobject, hcontrol⟩ | ⟨hpc, hobject, hcontrol⟩ |
      ⟨hpc, hobject, hcontrol⟩ | ⟨hpc, hobject, hcontrol⟩
    · refine ⟨{ s with pc := Function.update s.pc j .zero }, ?_, hothers _, .inr (.inl ?_)⟩
      · rw [step, hpc]
        simp [hlive, hzero]
      · exact ⟨Function.update_self .., hobject, hcontrol⟩
    · refine ⟨_, by rw [step, hpc], hothers _, .inr (.inr (.inl ?_))⟩
      exact ⟨Function.update_self .., by simp [hobject], hcontrol⟩
    · refine ⟨_, by rw [step, hpc], hothers _, .inr (.inr (.inr ?_))⟩
      exact ⟨Function.update_self .., hobject, by simp [hcontrol]⟩
    · exact ⟨s, by rw [step, hpc], h⟩
  · exact ⟨s, by rw [step, h.others j hji], h⟩

theorem once_of_lastAlone {sched : List (Fin n)} (hcomplete : Complete sched)
    (h : LastAlone sched) : Once sched := by
  obtain ⟨pre, i, post, rfl, hi, hpre⟩ := h
  obtain ⟨s₁, hrun₁, hcalm⟩ := run_invariant step_calm pre (init_calm i)
    (along_of_forall (fun j hj => by rintro rfl; exact hi hj) _)
  have hothers : ∀ j, j ≠ i → s₁.pc j = .done := by
    intro j hji
    have hrank := (rank_run pre hrun₁ j).2
    have hcount := hpre j hji
    rcases hcalm.pc j with hj | hj | hj
    · rw [hj, init] at hrank
      simp only [Pc.rank] at hrank
      omega
    · rw [hj, init] at hrank
      simp only [Pc.rank] at hrank
      omega
    · exact hj
  -- the counter is down to the last thread
  have hone : s₁.refCnt = 1 := by
    have hwaiting : waiting s₁.pc = {i} := by
      ext j
      by_cases hji : j = i
      · simp [waiting, hji, hcalm.start]
      · simp [waiting, hji, hothers j hji]
    rw [hcalm.counts, hwaiting, Finset.card_singleton]
    rfl
  have hstep : step s₁ i = some { s₁ with refCnt := s₁.refCnt - 1,
                                          pc := Function.update s₁.pc i .decremented } := by
    rw [step, hcalm.start]
    exact if_pos hcalm.live
  have halone : Alone i { s₁ with refCnt := s₁.refCnt - 1,
                                  pc := Function.update s₁.pc i .decremented } := by
    refine ⟨fun j hji => ?_, .inl ⟨Function.update_self .., ?_, hcalm.live, hcalm.objectBy,
      hcalm.controlBy⟩⟩
    · show Function.update s₁.pc i .decremented j = .done
      rw [Function.update_of_ne hji, hothers j hji]
    · show s₁.refCnt - 1 = 0
      omega
  obtain ⟨s, hrun, hend⟩ := run_invariant (P := fun _ _ => True)
    (fun s j h _ => step_alone s j h) post halone (along_of_forall (fun _ _ => trivial) _)
  have hwhole : run step (init n) (pre ++ i :: post) = some s := by
    rw [run_append, hrun₁, Option.bind_some, run, hstep]
    exact hrun
  have hdone : s.pc i = .done := by
    have hrank := (rank_run _ hwhole i).1
    have hcount := hcomplete i
    refine pc_eq_done ?_
    omega
  refine ⟨s, i, hwhole, ?_⟩
  simpa [hdone] using hend.here

/-! ## The result -/

/-- In a schedule that lets every thread finish, no thread uses a deleted counter
and exactly one deletes, if and only if the last decrement comes after all other
tests. -/
theorem release_once_iff (n : Nat) (sched : List (Fin n)) (hcomplete : Complete sched) :
    Once sched ↔ LastAlone sched :=
  ⟨lastAlone_of_once hcomplete, once_of_lastAlone hcomplete⟩

/-- One thread after the other. -/
theorem release_once_in_turn :
    Complete ([0, 0, 0, 0, 1, 1, 1, 1] : List (Fin 2)) ∧
      Once ([0, 0, 0, 0, 1, 1, 1, 1] : List (Fin 2)) :=
  ⟨by decide, (release_once_iff 2 _ (by decide)).mpr
    ⟨[0, 0, 0, 0], 1, [1, 1, 1], rfl, by decide, by decide⟩⟩

/-- Two threads decrement, then both find zero. -/
theorem release_twice :
    ¬ ∀ n, 2 ≤ n → ∀ sched : List (Fin n), Complete sched → Once sched := by
  intro hall
  obtain ⟨s, i, hrun, hobject, -⟩ :=
    hall 2 (Nat.le_refl 2) [0, 1, 0, 1, 0, 1, 0, 1] (by decide)
  have hboth : (run step (init 2) [0, 1, 0, 1, 0, 1, 0, 1]).map State.objectBy = some [0, 1] := by
    decide
  rw [hrun, Option.map_some, hobject] at hboth
  cases hboth

end CKernel.Memory.SharedRelease
