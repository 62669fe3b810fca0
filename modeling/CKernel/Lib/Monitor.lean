/-
# `CKernel.Lib.Monitor` — threads, a mutex and a condition variable

Threads share a state, one mutex and one condition variable.  A program says what a
thread at a control point does next; an event is the next step of some thread, or a
wake-up that nobody asked for.  A thread that waits gives the mutex back, sleeps, and
goes on at the point behind the wait, where a program locks again.

What a program has to obey is stated point by point: where it holds the mutex
(`LockOk`), and where it has found that there is nothing to do or owes a notification
(`SignalOk`).  The rules turn this into facts about all interleavings.

    at most one thread is where the mutex is held            (`Owned.eq`, `Owned.moves`)
    nobody sleeps while there is something to do, unless a
      notification is owed                                    (`run_awake`)
    when nothing moves, all have returned or sleep            (`quiet_cases`)
      and those that sleep have nothing to do                 (`quiet_unready`)
    steps that use something up are few                       (`run_length_le`)
    where nobody waits, nobody sleeps                         (`run_wakeless`)
    a mutex kept in the shared state excludes                 (`alone_of_sum_le`)
    what a log has of one thread grows with it                (`ofThread_concat`)
-/
import CKernel.Lib.Run

namespace CKernel.Monitor

open Run

/-- What comes next: a step on the shared state, which may fault or, with `await`, may
have to be tried again; an operation on the mutex or the condition variable; or
nothing. -/
inductive Instr (σ κ : Type) where
  | act (f : σ → Option (σ × κ))
  | await (f : σ → Option (σ × κ))
  | lock (k : κ)
  | unlock (k : κ)
  | wait (k : κ)
  | notifyOne (k : κ)
  | notifyAll (k : κ)
  | ret

structure State (ι σ κ : Type) where
  shared : σ
  owner : Option ι
  asleep : List ι
  pc : ι → κ

/-- A thread takes its next step, which may wake another one; or one wakes up by
itself. -/
inductive Event (ι : Type) where
  | run (i : ι) (woken : Option ι)
  | wake (i : ι)
  deriving DecidableEq, Repr

def Event.spurious {ι : Type} : Event ι → Bool
  | .run _ _ => false
  | .wake _ => true

variable {ι σ κ : Type} [DecidableEq ι]

/-- A thread goes on at another point. -/
def State.goto (s : State ι σ κ) (i : ι) (k : κ) : State ι σ κ :=
  { s with pc := Function.update s.pc i k }

/-- One event, if it is possible. -/
def step (prog : κ → Instr σ κ) (s : State ι σ κ) : Event ι → Option (State ι σ κ)
  | .wake i => if i ∈ s.asleep then some { s with asleep := s.asleep.erase i } else none
  | .run i woken =>
      if i ∈ s.asleep then none
      else
        match prog (s.pc i) with
        | .act f | .await f => (f s.shared).map fun r => { s with shared := r.1 }.goto i r.2
        | .lock k => if s.owner.isNone then some ({ s with owner := some i }.goto i k) else none
        | .unlock k => some ({ s with owner := none }.goto i k)
        | .wait k => some ({ s with owner := none, asleep := i :: s.asleep }.goto i k)
        | .notifyOne k =>
            match woken with
            | some j =>
                if j ∈ s.asleep then some ({ s with asleep := s.asleep.erase j }.goto i k)
                else none
            | none => if s.asleep = [] then some (s.goto i k) else none
        | .notifyAll k => some ({ s with asleep := [] }.goto i k)
        | .ret => none

/-! ## What one step does -/

section Moves
variable {prog : κ → Instr σ κ} {s s' : State ι σ κ} {i j : ι} {k : κ}

@[simp] theorem goto_asleep : (s.goto i k).asleep = s.asleep := rfl

@[simp] theorem goto_pc_self : (s.goto i k).pc i = k := Function.update_self ..

theorem goto_pc_of_ne (h : j ≠ i) : (s.goto i k).pc j = s.pc j := Function.update_of_ne h ..

/-- The steps of a thread, one rule for each kind. -/
inductive Moves (prog : κ → Instr σ κ) (s : State ι σ κ) (i : ι) : State ι σ κ → Prop
  | act {f : σ → Option (σ × κ)} {x : σ} {k : κ}
      (hprog : prog (s.pc i) = .act f ∨ prog (s.pc i) = .await f)
      (hf : f s.shared = some (x, k)) : Moves prog s i ({ s with shared := x }.goto i k)
  | lock {k : κ} (hprog : prog (s.pc i) = .lock k) (hfree : s.owner = none) :
      Moves prog s i ({ s with owner := some i }.goto i k)
  | unlock {k : κ} (hprog : prog (s.pc i) = .unlock k) :
      Moves prog s i ({ s with owner := none }.goto i k)
  | wait {k : κ} (hprog : prog (s.pc i) = .wait k) :
      Moves prog s i ({ s with owner := none, asleep := i :: s.asleep }.goto i k)
  | notifyOne {k : κ} {j : ι} (hprog : prog (s.pc i) = .notifyOne k) (hj : j ∈ s.asleep) :
      Moves prog s i ({ s with asleep := s.asleep.erase j }.goto i k)
  | notifyNone {k : κ} (hprog : prog (s.pc i) = .notifyOne k) (hnil : s.asleep = []) :
      Moves prog s i (s.goto i k)
  | notifyAll {k : κ} (hprog : prog (s.pc i) = .notifyAll k) :
      Moves prog s i ({ s with asleep := [] }.goto i k)

theorem step_run {woken : Option ι} (h : step prog s (.run i woken) = some s') :
    i ∉ s.asleep ∧ Moves prog s i s' := by
  rw [step] at h
  split at h
  case isTrue => cases h
  case isFalse hawake =>
    refine ⟨hawake, ?_⟩
    split at h
    case h_1 f hprog =>
      obtain ⟨⟨x, k⟩, hf, rfl⟩ := Option.map_eq_some_iff.mp h
      exact .act (.inl hprog) hf
    case h_2 f hprog =>
      obtain ⟨⟨x, k⟩, hf, rfl⟩ := Option.map_eq_some_iff.mp h
      exact .act (.inr hprog) hf
    case h_3 k hprog =>
      split at h
      case isTrue hfree =>
        cases h
        exact .lock hprog (Option.isNone_iff_eq_none.mp hfree)
      case isFalse => cases h
    case h_4 k hprog =>
      cases h
      exact .unlock hprog
    case h_5 k hprog =>
      cases h
      exact .wait hprog
    case h_6 k hprog =>
      split at h
      · split at h
        case isTrue hj =>
          cases h
          exact .notifyOne hprog hj
        case isFalse => cases h
      · split at h
        case isTrue hnil =>
          cases h
          exact .notifyNone hprog hnil
        case isFalse => cases h
    case h_7 k hprog =>
      cases h
      exact .notifyAll hprog
    case h_8 => cases h

theorem step_wake (h : step prog s (.wake i) = some s') :
    i ∈ s.asleep ∧ s' = { s with asleep := s.asleep.erase i } := by
  rw [step] at h
  split at h
  case isTrue hi =>
    cases h
    exact ⟨hi, rfl⟩
  case isFalse => cases h

/-- What moves and wake-ups keep, all runs keep. -/
theorem run_keeps_moves {I : State ι σ κ → Prop}
    (hmove : ∀ s i s', I s → i ∉ s.asleep → Moves prog s i s' → I s')
    (hwake : ∀ s i, I s → i ∈ s.asleep → I { s with asleep := s.asleep.erase i })
    (events : List (Event ι)) (h : I s) (hrun : run (step prog) s events = some s') : I s' := by
  refine run_keeps (fun s e s' hs hstep => ?_) events h hrun
  cases e with
  | run i woken =>
      obtain ⟨hawake, hmoves⟩ := step_run hstep
      exact hmove s i s' hs hawake hmoves
  | wake i =>
      obtain ⟨hi, rfl⟩ := step_wake hstep
      exact hwake s i hs hi

/-- What a step makes of the shared state and of the point where the thread is. -/
def Goes (x x' : σ) (k : κ) : Instr σ κ → Prop
  | .act f => f x = some (x', k)
  | .await f => f x = some (x', k)
  | .lock k' => x' = x ∧ k = k'
  | .unlock k' => x' = x ∧ k = k'
  | .wait k' => x' = x ∧ k = k'
  | .notifyOne k' => x' = x ∧ k = k'
  | .notifyAll k' => x' = x ∧ k = k'
  | .ret => False

theorem Moves.goes (h : Moves prog s i s') :
    ∃ k, s'.pc = Function.update s.pc i k ∧ Goes s.shared s'.shared k (prog (s.pc i)) := by
  cases h with
  | act hprog hf =>
      refine ⟨_, rfl, ?_⟩
      rcases hprog with hprog | hprog <;> rw [hprog] <;> exact hf
  | lock hprog _ => exact ⟨_, rfl, hprog ▸ ⟨rfl, rfl⟩⟩
  | unlock hprog => exact ⟨_, rfl, hprog ▸ ⟨rfl, rfl⟩⟩
  | wait hprog => exact ⟨_, rfl, hprog ▸ ⟨rfl, rfl⟩⟩
  | notifyOne hprog _ => exact ⟨_, rfl, hprog ▸ ⟨rfl, rfl⟩⟩
  | notifyNone hprog _ => exact ⟨_, rfl, hprog ▸ ⟨rfl, rfl⟩⟩
  | notifyAll hprog => exact ⟨_, rfl, hprog ▸ ⟨rfl, rfl⟩⟩

/-- Nobody falls asleep but by waiting. -/
theorem Moves.asleep (h : Moves prog s i s') (hj : j ∈ s'.asleep) :
    j ∈ s.asleep ∨ j = i ∧ ∃ k, prog (s.pc i) = .wait k := by
  cases h with
  | act | lock | unlock | notifyNone => exact .inl hj
  | wait hprog => exact (List.mem_cons.mp hj).elim (fun heq => .inr ⟨heq, _, hprog⟩) .inl
  | notifyOne => exact .inl (List.mem_of_mem_erase hj)
  | notifyAll => exact absurd hj List.not_mem_nil

theorem Moves.wakes_all (h : Moves prog s i s') (hprog : prog (s.pc i) = .notifyAll k) :
    s'.asleep = [] := by
  cases h with
  | notifyAll => rfl
  | act hprog' => rcases hprog' with hprog' | hprog' <;> cases hprog.symm.trans hprog'
  | lock hprog' | unlock hprog' | wait hprog' | notifyOne hprog' | notifyNone hprog' =>
      cases hprog.symm.trans hprog'

/-- What the steps of the threads keep of the shared state and the points, all runs
keep. -/
theorem run_goes {J : σ → (ι → κ) → Prop}
    (hgo : ∀ x pc i x' k, J x pc → Goes x x' k (prog (pc i)) → J x' (Function.update pc i k))
    (events : List (Event ι)) (h : J s.shared s.pc) (hrun : run (step prog) s events = some s') :
    J s'.shared s'.pc := by
  refine run_keeps_moves (I := fun s => J s.shared s.pc) (fun s i s' hs _ hmoves => ?_)
    (fun _ _ hs _ => hs) events h hrun
  obtain ⟨k, hpc, hgoes⟩ := hmoves.goes
  rw [hpc]
  exact hgo _ _ i _ k hs hgoes

/-- Where nobody waits, nobody sleeps or wakes up. -/
theorem run_wakeless (hprog : ∀ k k', prog k ≠ .wait k') (events : List (Event ι))
    (h : s.asleep = []) (hrun : run (step prog) s events = some s') :
    s'.asleep = [] ∧ events.countP Event.spurious = 0 := by
  induction events generalizing s with
  | nil =>
      cases hrun
      exact ⟨h, rfl⟩
  | cons e events ih =>
      obtain ⟨s₁, hs₁, hrest⟩ := Option.bind_eq_some_iff.mp hrun
      cases e with
      | run i woken =>
          obtain ⟨-, hmoves⟩ := step_run hs₁
          have hnil : s₁.asleep = [] := by
            refine List.eq_nil_iff_forall_not_mem.mpr fun j hj => ?_
            rcases hmoves.asleep hj with hmem | ⟨-, k', hwait⟩
            · exact List.not_mem_nil (h ▸ hmem)
            · exact hprog _ k' hwait
          obtain ⟨hend, hcount⟩ := ih hnil hrest
          refine ⟨hend, ?_⟩
          rw [List.countP_cons_of_neg Bool.false_ne_true]
          exact hcount
      | wake i =>
          obtain ⟨hi, -⟩ := step_wake hs₁
          exact absurd (h ▸ hi) List.not_mem_nil

/-- Those that sleep are behind a wait. -/
def Behind (prog : κ → Instr σ κ) (s : State ι σ κ) : Prop :=
  ∀ i ∈ s.asleep, ∃ k, prog k = .wait (s.pc i)

theorem Behind.moves (h : Behind prog s) (hi : i ∉ s.asleep) (hmoves : Moves prog s i s') :
    Behind prog s' := by
  intro j hj
  obtain ⟨k, hpc, hgoes⟩ := hmoves.goes
  rcases hmoves.asleep hj with hmem | ⟨rfl, k', hwait⟩
  · have hji : j ≠ i := fun heq => hi (heq ▸ hmem)
    rw [hpc, Function.update_of_ne hji]
    exact h j hmem
  · rw [hwait] at hgoes
    rw [hpc, Function.update_self, hgoes.2]
    exact ⟨_, hwait⟩

theorem run_behind (events : List (Event ι)) (h : Behind prog s)
    (hrun : run (step prog) s events = some s') : Behind prog s' :=
  run_keeps_moves (fun _ _ _ hs hi hmoves => hs.moves hi hmoves)
    (fun _ _ hs _ j hj => hs j (List.mem_of_mem_erase hj)) events h hrun

end Moves

/-! ## The mutex -/

/-- At a point where the mutex is held it is not locked again or left locked, and where
it is not held it is not given back.  `await` is not used with the mutex. -/
def LockOk (holds : κ → Bool) (k : κ) : Instr σ κ → Prop
  | .act f => ∀ s r, f s = some r → holds r.2 = holds k
  | .await f => holds k = false ∧ ∀ s r, f s = some r → holds r.2 = false
  | .lock k' => holds k = false ∧ holds k' = true
  | .unlock k' => holds k = true ∧ holds k' = false
  | .wait k' => holds k = true ∧ holds k' = false
  | .notifyOne k' => holds k' = holds k
  | .notifyAll k' => holds k' = holds k
  | .ret => holds k = false

/-- The mutex is held by the thread that is where it is held. -/
structure Owned (holds : κ → Bool) (s : State ι σ κ) : Prop where
  owner : ∀ i, holds (s.pc i) = true ↔ s.owner = some i
  asleep : ∀ i ∈ s.asleep, holds (s.pc i) = false

section Mutex
variable {prog : κ → Instr σ κ} {holds : κ → Bool} {s s' : State ι σ κ} {i j : ι} {k : κ}

omit [DecidableEq ι] in
/-- No two threads are where the mutex is held. -/
theorem Owned.eq (h : Owned holds s) (hi : holds (s.pc i) = true) (hj : holds (s.pc j) = true) :
    i = j :=
  Option.some.inj (((h.owner i).mp hi).symm.trans ((h.owner j).mp hj))

/-- A step that leaves the mutex with who has it. -/
theorem Owned.goto (h : Owned holds s) (hi : i ∉ s.asleep) (hk : holds k = holds (s.pc i))
    {x : σ} {as : List ι} (has : ∀ j ∈ as, j ∈ s.asleep) :
    Owned holds ({ s with shared := x, asleep := as }.goto i k) := by
  constructor
  · intro j
    by_cases hj : j = i
    · subst hj
      rw [goto_pc_self, hk]
      exact h.owner j
    · rw [goto_pc_of_ne hj]
      exact h.owner j
  · intro j hmem
    have hj : j ≠ i := fun heq => hi (heq ▸ has j hmem)
    rw [goto_pc_of_ne hj]
    exact h.asleep j (has j hmem)

/-- A step that takes the mutex. -/
theorem Owned.take (h : Owned holds s) (hi : i ∉ s.asleep) (hfree : s.owner = none)
    (hk : holds k = true) : Owned holds ({ s with owner := some i }.goto i k) := by
  constructor
  · intro j
    by_cases hj : j = i
    · subst hj
      rw [goto_pc_self]
      exact iff_of_true hk rfl
    · rw [goto_pc_of_ne hj]
      refine iff_of_false (fun hheld => ?_) fun heq => hj (Option.some.inj heq).symm
      cases hfree.symm.trans ((h.owner j).mp hheld)
  · intro j hmem
    have hj : j ≠ i := fun heq => hi (heq ▸ hmem)
    rw [goto_pc_of_ne hj]
    exact h.asleep j hmem

/-- A step that gives the mutex back, to sleep or not. -/
theorem Owned.give (h : Owned holds s) (hheld : holds (s.pc i) = true) (hk : holds k = false)
    {as : List ι} (has : ∀ j ∈ as, j = i ∨ j ∈ s.asleep) :
    Owned holds ({ s with owner := none, asleep := as }.goto i k) := by
  constructor
  · intro j
    refine iff_of_false (fun hheld' => ?_) nofun
    by_cases hj : j = i
    · subst hj
      rw [goto_pc_self, hk] at hheld'
      cases hheld'
    · rw [goto_pc_of_ne hj] at hheld'
      exact hj (h.eq hheld' hheld)
  · intro j hmem
    by_cases hj : j = i
    · subst hj
      rw [goto_pc_self]
      exact hk
    · rw [goto_pc_of_ne hj]
      exact h.asleep j ((has j hmem).resolve_left hj)

theorem Owned.moves (hok : ∀ k, LockOk holds k (prog k)) (h : Owned holds s)
    (hi : i ∉ s.asleep) (hmoves : Moves prog s i s') : Owned holds s' := by
  have hpoint := hok (s.pc i)
  cases hmoves with
  | act hprog hf =>
      refine h.goto hi ?_ fun j hj => hj
      rcases hprog with hprog | hprog
      · rw [hprog] at hpoint
        exact hpoint _ _ hf
      · rw [hprog] at hpoint
        exact (hpoint.2 _ _ hf).trans hpoint.1.symm
  | lock hprog hfree =>
      rw [hprog] at hpoint
      exact h.take hi hfree hpoint.2
  | unlock hprog =>
      rw [hprog] at hpoint
      exact h.give hpoint.1 hpoint.2 fun j hj => .inr hj
  | wait hprog =>
      rw [hprog] at hpoint
      exact h.give hpoint.1 hpoint.2 fun j hj => List.mem_cons.mp hj
  | notifyOne hprog _ =>
      rw [hprog] at hpoint
      exact h.goto hi hpoint fun j hj => List.mem_of_mem_erase hj
  | notifyNone hprog _ =>
      rw [hprog] at hpoint
      exact h.goto hi hpoint fun j hj => hj
  | notifyAll hprog =>
      rw [hprog] at hpoint
      exact h.goto hi hpoint fun j hj => absurd hj List.not_mem_nil

theorem Owned.wake (h : Owned holds s) (i : ι) :
    Owned holds { s with asleep := s.asleep.erase i } :=
  ⟨h.owner, fun j hj => h.asleep j (List.mem_of_mem_erase hj)⟩

end Mutex

/-! ## The condition variable -/

/-- What a program says of its points: `ready` is that there is something to do; where it
has `checked`, there was nothing; where it `owes`, it is on its way to a notification;
and the points of the `waiter` are those of the one thread that ever waits. -/
structure Signals (σ κ : Type) where
  ready : σ → Prop
  checked : κ → Prop
  owes : κ → Prop
  waiter : κ → Prop

/-- The step at a point is in keeping with the signals.  Only a thread that holds the
mutex may give the others something to do, and owes a notification then; a thread waits
only where it has checked. -/
def SignalOk (A : Signals σ κ) (holds : κ → Bool) (k : κ) : Instr σ κ → Prop
  | .act f | .await f => ∀ s x k', f s = some (x, k') →
      (A.checked k' → ¬ A.ready x) ∧ (A.owes k → A.owes k') ∧ (A.waiter k' → A.waiter k) ∧
      (A.ready x → A.ready s ∨ holds k = true ∧ A.owes k')
  | .lock k' | .unlock k' =>
      ¬ A.checked k' ∧ (A.owes k → A.owes k') ∧ (A.waiter k' → A.waiter k)
  | .wait k' => A.checked k ∧ A.waiter k ∧ ¬ A.checked k' ∧ ¬ A.owes k'
  | .notifyOne k' | .notifyAll k' => ¬ A.checked k' ∧ (A.waiter k' → A.waiter k)
  | .ret => ¬ A.owes k

/-- Nobody sleeps while there is something to do, unless a notification is owed. -/
structure Awake (A : Signals σ κ) (w : ι) (s : State ι σ κ) : Prop where
  checked : ∀ i, A.checked (s.pc i) → ¬ A.ready s.shared
  sole : ∀ i, A.waiter (s.pc i) → i = w
  asleep : s.asleep = [] ∨ s.asleep = [w]
  sleeper : ∀ i ∈ s.asleep, ¬ A.owes (s.pc i)
  owed : A.ready s.shared → s.asleep ≠ [] → ∃ i, A.owes (s.pc i)

section Condition
variable {prog : κ → Instr σ κ} {holds : κ → Bool} {A : Signals σ κ} {w i : ι}
  {s s' : State ι σ κ} {k : κ}

/-- A step on the shared state. -/
theorem Awake.act (h : Awake A w s) (howned : Owned holds s)
    (hheld : ∀ k, A.checked k → holds k = true) {x : σ} (hi : i ∉ s.asleep)
    (hchecked : A.checked k → ¬ A.ready x) (howes : A.owes (s.pc i) → A.owes k)
    (hwaiter : A.waiter k → A.waiter (s.pc i))
    (hready : A.ready x → A.ready s.shared ∨ holds (s.pc i) = true ∧ A.owes k) :
    Awake A w ({ s with shared := x }.goto i k) := by
  constructor
  · intro j hj hx
    by_cases hji : j = i
    · subst hji
      rw [goto_pc_self] at hj
      exact hchecked hj hx
    · rw [goto_pc_of_ne hji] at hj
      rcases hready hx with hold | ⟨hown, -⟩
      · exact h.checked j hj hold
      · exact hji (howned.eq (hheld _ hj) hown)
  · intro j hj
    by_cases hji : j = i
    · subst hji
      rw [goto_pc_self] at hj
      exact h.sole j (hwaiter hj)
    · rw [goto_pc_of_ne hji] at hj
      exact h.sole j hj
  · exact h.asleep
  · intro j hj
    have hji : j ≠ i := fun heq => hi (heq ▸ hj)
    rw [goto_pc_of_ne hji]
    exact h.sleeper j hj
  · intro hx hne
    rcases hready hx with hold | ⟨-, howe⟩
    · obtain ⟨j, hj⟩ := h.owed hold hne
      refine ⟨j, ?_⟩
      by_cases hji : j = i
      · subst hji
        rw [goto_pc_self]
        exact howes hj
      · rw [goto_pc_of_ne hji]
        exact hj
    · refine ⟨i, ?_⟩
      rw [goto_pc_self]
      exact howe

/-- A step on the mutex, or a notification: whoever still sleeps did before, and then
what was owed is owed. -/
theorem Awake.goto (h : Awake A w s) (hi : i ∉ s.asleep) (hchecked : ¬ A.checked k)
    (hwaiter : A.waiter k → A.waiter (s.pc i)) {owner : Option ι} {as : List ι}
    (has : as = [] ∨ as = s.asleep ∧ (A.owes (s.pc i) → A.owes k)) :
    Awake A w ({ s with owner := owner, asleep := as }.goto i k) := by
  have hsub : ∀ j ∈ as, j ∈ s.asleep := by
    intro j hj
    rcases has with rfl | ⟨rfl, -⟩
    · exact absurd hj List.not_mem_nil
    · exact hj
  constructor
  · intro j hj
    by_cases hji : j = i
    · subst hji
      rw [goto_pc_self] at hj
      exact absurd hj hchecked
    · rw [goto_pc_of_ne hji] at hj
      exact h.checked j hj
  · intro j hj
    by_cases hji : j = i
    · subst hji
      rw [goto_pc_self] at hj
      exact h.sole j (hwaiter hj)
    · rw [goto_pc_of_ne hji] at hj
      exact h.sole j hj
  · rcases has with rfl | ⟨rfl, -⟩
    · exact .inl rfl
    · exact h.asleep
  · intro j hj
    have hji : j ≠ i := fun heq => hi (heq ▸ hsub j hj)
    rw [goto_pc_of_ne hji]
    exact h.sleeper j (hsub j hj)
  · intro hready hne
    rcases has with rfl | ⟨rfl, howes⟩
    · exact absurd rfl hne
    · obtain ⟨j, hj⟩ := h.owed hready hne
      refine ⟨j, ?_⟩
      by_cases hji : j = i
      · subst hji
        rw [goto_pc_self]
        exact howes hj
      · rw [goto_pc_of_ne hji]
        exact hj

/-- The thread that waits has found nothing to do. -/
theorem Awake.wait (h : Awake A w s) (hi : i ∉ s.asleep) (hchecked : A.checked (s.pc i))
    (hwaiter : A.waiter (s.pc i)) (hk : ¬ A.checked k) (howes : ¬ A.owes k) :
    Awake A w ({ s with owner := none, asleep := i :: s.asleep }.goto i k) := by
  have hiw := h.sole i hwaiter
  subst hiw
  have hnil : s.asleep = [] := h.asleep.resolve_right fun heq => hi (heq ▸ List.mem_singleton_self i)
  have hgoto := @Awake.goto ι σ κ _ A i i s k h hi hk (fun _ => hwaiter) none [] (.inl rfl)
  refine ⟨hgoto.checked, hgoto.sole, .inr (congrArg (i :: ·) hnil), ?_, ?_⟩
  · intro j hj
    have hji : j = i := by
      rw [goto_asleep, hnil] at hj
      exact List.mem_singleton.mp hj
    subst hji
    rw [goto_pc_self]
    exact howes
  · intro hready
    exact absurd hready (h.checked i hchecked)

theorem Awake.moves (hok : ∀ k, SignalOk A holds k (prog k))
    (hheld : ∀ k, A.checked k → holds k = true) (howned : Owned holds s) (h : Awake A w s)
    (hi : i ∉ s.asleep) (hmoves : Moves prog s i s') : Awake A w s' := by
  have hpoint := hok (s.pc i)
  cases hmoves with
  | act hprog hf =>
      obtain ⟨hchecked, howes, hwaiter, hready⟩ : (A.checked _ → ¬ A.ready _) ∧
          (A.owes (s.pc i) → A.owes _) ∧ (A.waiter _ → A.waiter (s.pc i)) ∧
          (A.ready _ → A.ready s.shared ∨ holds (s.pc i) = true ∧ A.owes _) := by
        rcases hprog with hprog | hprog <;> rw [hprog] at hpoint <;> exact hpoint _ _ _ hf
      exact h.act howned hheld hi hchecked howes hwaiter hready
  | lock hprog _ =>
      rw [hprog] at hpoint
      exact h.goto hi hpoint.1 hpoint.2.2 (.inr ⟨rfl, hpoint.2.1⟩)
  | unlock hprog =>
      rw [hprog] at hpoint
      exact h.goto hi hpoint.1 hpoint.2.2 (.inr ⟨rfl, hpoint.2.1⟩)
  | wait hprog =>
      rw [hprog] at hpoint
      exact h.wait hi hpoint.1 hpoint.2.1 hpoint.2.2.1 hpoint.2.2.2
  | @notifyOne k j hprog hj =>
      rw [hprog] at hpoint
      refine h.goto hi hpoint.1 hpoint.2 (.inl ?_)
      rcases h.asleep with hnil | hone
      · rw [hnil] at hj
        exact absurd hj List.not_mem_nil
      · rw [hone] at hj
        obtain rfl := List.mem_singleton.mp hj
        rw [hone]
        exact List.erase_cons_head ..
  | notifyNone hprog hnil =>
      rw [hprog] at hpoint
      exact h.goto hi hpoint.1 hpoint.2 (.inl hnil)
  | notifyAll hprog =>
      rw [hprog] at hpoint
      exact h.goto hi hpoint.1 hpoint.2 (.inl rfl)

omit [DecidableEq ι] in
/-- When a thread is about to wait, nobody sleeps. -/
theorem Awake.nobody (h : Awake A w s) (hok : ∀ k, SignalOk A holds k (prog k))
    (hi : i ∉ s.asleep) (hprog : prog (s.pc i) = .wait k) : s.asleep = [] := by
  have hpoint := hok (s.pc i)
  rw [hprog] at hpoint
  obtain rfl := h.sole i hpoint.2.1
  exact h.asleep.resolve_right fun heq => hi (heq ▸ List.mem_singleton_self i)

theorem Awake.wake (h : Awake A w s) (hi : i ∈ s.asleep) :
    Awake A w { s with asleep := s.asleep.erase i } := by
  have hnil : s.asleep.erase i = [] := by
    rcases h.asleep with hnil | hone
    · rw [hnil]
      rfl
    · rw [hone] at hi ⊢
      obtain rfl := List.mem_singleton.mp hi
      exact List.erase_cons_head ..
  refine ⟨h.checked, h.sole, .inl hnil, ?_, fun _ hne => absurd hnil hne⟩
  intro j hj
  exact h.sleeper j (List.mem_of_mem_erase hj)

/-- No lost wake-up along any run. -/
theorem run_awake (hlock : ∀ k, LockOk holds k (prog k)) (hok : ∀ k, SignalOk A holds k (prog k))
    (hheld : ∀ k, A.checked k → holds k = true) (events : List (Event ι))
    (howned : Owned holds s) (h : Awake A w s) (hrun : run (step prog) s events = some s') :
    Owned holds s' ∧ Awake A w s' :=
  run_keeps_moves (I := fun s => Owned holds s ∧ Awake A w s)
    (fun _ _ _ hs hi hmoves =>
      ⟨hs.1.moves hlock hi hmoves, hs.2.moves hok hheld hs.1 hi hmoves⟩)
    (fun _ i hs hi => ⟨hs.1.wake i, hs.2.wake hi⟩) events ⟨howned, h⟩ hrun

end Condition

/-! ## When nothing moves -/

/-- No thread can take a step. -/
def Quiet (prog : κ → Instr σ κ) (s : State ι σ κ) : Prop :=
  ∀ i woken, step prog s (.run i woken) = none

/-- A thread that cannot take its step on the shared state. -/
def Blocked (prog : κ → Instr σ κ) (s : State ι σ κ) (i : ι) : Prop :=
  ∃ f, (prog (s.pc i) = .act f ∨ prog (s.pc i) = .await f) ∧ f s.shared = none

section Quiescence
variable {prog : κ → Instr σ κ} {holds : κ → Bool} {A : Signals σ κ} {w i : ι}
  {s s' : State ι σ κ}

theorem quiet_of_ret (h : ∀ i, prog (s.pc i) = .ret) : Quiet prog s := by
  intro i woken
  rw [step, h i]
  split <;> rfl

/-- A thread that is awake and cannot move has returned, is blocked, or wants the mutex. -/
theorem Quiet.cases (h : Quiet prog s) (hi : i ∉ s.asleep) :
    prog (s.pc i) = .ret ∨ Blocked prog s i ∨ ∃ k, prog (s.pc i) = .lock k ∧ s.owner ≠ none := by
  have hnone (woken : Option ι) := h i woken
  simp only [step, if_neg hi] at hnone
  split at hnone
  case h_1 f hprog => exact .inr (.inl ⟨f, .inl hprog, Option.map_eq_none_iff.mp (hnone none)⟩)
  case h_2 f hprog => exact .inr (.inl ⟨f, .inr hprog, Option.map_eq_none_iff.mp (hnone none)⟩)
  case h_3 k hprog =>
    refine .inr (.inr ⟨k, hprog, fun hfree => ?_⟩)
    have hgo := hnone none
    rw [hfree] at hgo
    cases hgo
  case h_4 => cases hnone none
  case h_5 => cases hnone none
  case h_6 k hprog =>
    cases hsleep : s.asleep with
    | nil =>
        have hgo := hnone none
        simp only [hsleep, if_true] at hgo
        cases hgo
    | cons j as =>
        have hgo := hnone (some j)
        simp only [hsleep, List.mem_cons_self, if_true] at hgo
        cases hgo
  case h_7 => cases hnone none
  case h_8 hprog => exact .inl hprog

/-- Without a fault, all threads have returned, sleep, or await what does not come. -/
theorem quiet_cases (hlock : ∀ k, LockOk holds k (prog k)) (howned : Owned holds s)
    (hsafe : ∀ i f, prog (s.pc i) = .act f → f s.shared ≠ none) (h : Quiet prog s) (i : ι) :
    i ∈ s.asleep ∨ prog (s.pc i) = .ret ∨ ∃ f, prog (s.pc i) = .await f ∧ f s.shared = none := by
  by_cases hi : i ∈ s.asleep
  · exact .inl hi
  · right
    rcases h.cases hi with hret | ⟨f, hprog | hprog, hf⟩ | ⟨k, -, hheld⟩
    · exact .inl hret
    · exact absurd hf (hsafe i f hprog)
    · exact .inr ⟨f, hprog, hf⟩
    · exfalso
      -- the thread that has the mutex could move
      obtain ⟨j, hj⟩ := Option.ne_none_iff_exists'.mp hheld
      have hholds := (howned.owner j).mpr hj
      have hawake : j ∉ s.asleep := by
        intro hmem
        rw [howned.asleep j hmem] at hholds
        cases hholds
      have hpoint := hlock (s.pc j)
      rcases h.cases hawake with hret | ⟨f, hprog | hprog, hf⟩ | ⟨k', hprog, -⟩
      · rw [hret] at hpoint
        cases hholds.symm.trans hpoint
      · exact hsafe j f hprog hf
      · rw [hprog] at hpoint
        cases hholds.symm.trans hpoint.1
      · rw [hprog] at hpoint
        cases hholds.symm.trans hpoint.1

/-- Whoever sleeps when nothing moves has nothing to do. -/
theorem quiet_unready (hlock : ∀ k, LockOk holds k (prog k))
    (hok : ∀ k, SignalOk A holds k (prog k)) (howned : Owned holds s) (hawake : Awake A w s)
    (hsafe : ∀ i f, prog (s.pc i) = .act f → f s.shared ≠ none)
    (hawaits : ∀ k f, prog k = .await f → ¬ A.owes k) (h : Quiet prog s) (hi : i ∈ s.asleep) :
    ¬ A.ready s.shared := by
  intro hready
  obtain ⟨j, hj⟩ := hawake.owed hready (List.ne_nil_of_mem hi)
  rcases quiet_cases hlock howned hsafe h j with hasleep | hret | ⟨f, hprog, -⟩
  · exact hawake.sleeper j hasleep hj
  · have hpoint := hok (s.pc j)
    rw [hret] at hpoint
    exact hpoint hj
  · exact hawaits _ f hprog hj

end Quiescence

/-! ## How long a run can be -/

/-- What a step may cost beside what it uses up: a notification, somebody's waking up. -/
def fee (c : Nat) : Instr σ κ → Nat
  | .notifyOne _ | .notifyAll _ => c
  | _ => 0

/-- What a step may give back: by going to sleep a thread saves its waking up. -/
def refund (c : Nat) : Instr σ κ → Nat
  | .wait _ => c
  | _ => 0

/-- The wake-up that a sleeper has before it. -/
def unslept (c : Nat) (as : List ι) : Nat := if as = [] then c else 0

/-- What there is to use up: in the shared state, at the points, and by going to sleep. -/
def unspent [Fintype ι] (size : σ → Nat) (weight : κ → Nat) (c : Nat) (s : State ι σ κ) : Nat :=
  size s.shared + ∑ i, weight (s.pc i) + unslept c s.asleep

section Length
variable {prog : κ → Instr σ κ} {i : ι} {s s' : State ι σ κ}

omit [DecidableEq ι] in
theorem unslept_le (c : Nat) (as : List ι) : unslept c as ≤ c := by
  rw [unslept]
  split
  · exact Nat.le_refl c
  · exact Nat.zero_le c

theorem unslept_moves (c : Nat) (hasleep : ∀ k, prog (s.pc i) = .wait k → s.asleep = [])
    (hmoves : Moves prog s i s') :
    unslept c s'.asleep + refund c (prog (s.pc i)) ≤
      unslept c s.asleep + fee c (prog (s.pc i)) := by
  cases hmoves with
  | act hprog hf =>
      rcases hprog with hprog | hprog <;> rw [hprog] <;> exact Nat.le_refl _
  | lock hprog _ =>
      rw [hprog]
      exact Nat.le_refl _
  | unlock hprog =>
      rw [hprog]
      exact Nat.le_refl _
  | wait hprog =>
      rw [hasleep _ hprog, hprog]
      exact Nat.le_of_eq (Nat.zero_add c)
  | notifyOne hprog _ =>
      rw [hprog]
      exact (unslept_le c _).trans (Nat.le_add_left c _)
  | notifyNone hprog _ =>
      rw [hprog]
      exact Nat.le_add_right _ c
  | notifyAll hprog =>
      rw [hprog]
      exact (unslept_le c ([] : List ι)).trans (Nat.le_add_left c _)

variable [Fintype ι] {size : σ → Nat} {weight : κ → Nat} {c : Nat}

/-- A thread that goes on changes its own part of the sum. -/
theorem sum_update (f : κ → Nat) (pc : ι → κ) (i : ι) (k : κ) :
    ∑ j, f (Function.update pc i k j) + f (pc i) = ∑ j, f (pc j) + f k := by
  have hnew : ∑ j, f (Function.update pc i k j) = f k + ∑ j ∈ Finset.univ.erase i, f (pc j) := by
    rw [← Finset.add_sum_erase Finset.univ _ (Finset.mem_univ i), Function.update_self]
    refine congrArg (f k + ·) (Finset.sum_congr rfl fun j hj => ?_)
    rw [Function.update_of_ne (Finset.ne_of_mem_erase hj)]
  have hold := Finset.add_sum_erase Finset.univ (fun j => f (pc j)) (Finset.mem_univ i)
  omega

/-- A step that uses something up lowers what is unspent. -/
theorem unspent_moves
    (hspend : ∀ x k, Goes s.shared x k (prog (s.pc i)) →
      size x + weight k + fee c (prog (s.pc i)) <
        size s.shared + weight (s.pc i) + refund c (prog (s.pc i)))
    (hasleep : ∀ k, prog (s.pc i) = .wait k → s.asleep = []) (hmoves : Moves prog s i s') :
    unspent size weight c s' < unspent size weight c s := by
  obtain ⟨k, hpc, hgoes⟩ := hmoves.goes
  have hlt := hspend _ k hgoes
  have hsum := sum_update weight s.pc i k
  have hunslept := unslept_moves c hasleep hmoves
  rw [unspent, unspent, hpc]
  omega

/-- Where every step uses something up, a run is no longer than what is unspent and the
wake-ups that nobody asked for allow. -/
theorem run_length_le {I : State ι σ κ → Prop}
    (hmove : ∀ s i s', I s → i ∉ s.asleep → Moves prog s i s' → I s')
    (hwake : ∀ s i, I s → i ∈ s.asleep → I { s with asleep := s.asleep.erase i })
    (hasleep : ∀ s i k, I s → i ∉ s.asleep → prog (s.pc i) = .wait k → s.asleep = [])
    (hspend : ∀ s i x k, I s → Goes s.shared x k (prog (s.pc i)) →
      size x + weight k + fee c (prog (s.pc i)) <
        size s.shared + weight (s.pc i) + refund c (prog (s.pc i)))
    (events : List (Event ι)) (h : I s) (hrun : run (step prog) s events = some s') :
    events.length ≤ unspent size weight c s + (c + 1) * events.countP Event.spurious := by
  induction events generalizing s with
  | nil => exact Nat.zero_le _
  | cons e events ih =>
      obtain ⟨s₁, hs₁, hrest⟩ := Option.bind_eq_some_iff.mp hrun
      cases e with
      | run i woken =>
          obtain ⟨hi, hmoves⟩ := step_run hs₁
          have hlt := unspent_moves (fun x k hgoes => hspend s i x k h hgoes)
            (fun k hprog => hasleep s i k h hi hprog) hmoves
          have hle := ih (hmove s i s₁ h hi hmoves) hrest
          rw [List.length_cons, List.countP_cons_of_neg Bool.false_ne_true]
          omega
      | wake i =>
          obtain ⟨hi, rfl⟩ := step_wake hs₁
          have hle := ih (hwake s i h hi) hrest
          have hsleep := unslept_le c (s.asleep.erase i)
          rw [List.length_cons, List.countP_cons_of_pos rfl, Nat.mul_add]
          rw [unspent] at hle ⊢
          change _ ≤ size s.shared + ∑ i, weight (s.pc i) + unslept c (s.asleep.erase i) + _ at hle
          omega

end Length

/-! ## Further mutexes -/

section Counting
variable [Fintype ι] {pc : ι → κ} {i j : ι}

omit [DecidableEq ι] in
theorem le_sum (f : κ → Nat) (pc : ι → κ) (i : ι) : f (pc i) ≤ ∑ j, f (pc j) :=
  Finset.single_le_sum (f := fun j => f (pc j)) (fun _ _ => Nat.zero_le _) (Finset.mem_univ i)

/-- Where no more than one thread is counted, whoever is counted is alone. -/
theorem alone_of_sum_le {f : κ → Nat} (hsum : ∑ j, f (pc j) ≤ 1) (hi : f (pc i) = 1)
    (hj : j ≠ i) : f (pc j) = 0 := by
  have hadd := Finset.add_sum_erase Finset.univ (fun j => f (pc j)) (Finset.mem_univ i)
  have hle : f (pc j) ≤ ∑ j ∈ Finset.univ.erase i, f (pc j) :=
    Finset.single_le_sum (f := fun j => f (pc j)) (fun _ _ => Nat.zero_le _)
      (Finset.mem_erase.mpr ⟨hj, Finset.mem_univ j⟩)
  omega

end Counting

/-! ## Logs -/

/-- What a log has of one thread. -/
def ofThread {α : Type} (log : List (ι × α)) (i : ι) : List α :=
  (log.filter fun e => e.1 = i).map Prod.snd

theorem ofThread_concat {α : Type} (log : List (ι × α)) (i j : ι) (a : α) :
    ofThread (log ++ [(i, a)]) j = if i = j then ofThread log j ++ [a] else ofThread log j := by
  rw [ofThread, List.filter_append, List.map_append]
  split
  case isTrue heq =>
    rw [List.filter_cons_of_pos (by simpa using heq)]
    rfl
  case isFalse hne =>
    rw [List.filter_cons_of_neg (by simpa using hne)]
    exact List.append_nil _

end CKernel.Monitor
