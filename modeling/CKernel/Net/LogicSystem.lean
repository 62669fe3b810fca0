/-
# `CKernel.Net.LogicSystem` — the message queue of the logic layer

`post_message` pushes under the mutex and notifies before it gives the mutex back;
`run` is the logic thread.  `stop` sets the flag and notifies without the mutex, so its
notification can come between the worker's look at the flag and its going to sleep.
Any number of threads call `post_message` and `stop`.

Beside the queue the model keeps who posted what, and what was dispatched.

    each message is dispatched at most once, in the order of posting   (`dispatched_in_order`)
    nobody sleeps on a message                                          (`quiet_logic`)
    `stop` ends the thread unless it comes in that moment               (`stop_in_time`)
    and if it does, the thread sleeps for ever                          (`stop_lost`)
-/
import CKernel.Lib.Monitor

namespace CKernel.Net.LogicSystem

open Run Monitor

/-! ## The code -/

variable {ι μ : Type}

/-- The fields of `LogicSystem`. -/
structure Logic (ι μ : Type) where
  queue : List μ
  stop : Bool
  posted : List (ι × μ)
  dispatched : List μ

/-- What a thread calls. -/
inductive Call (μ : Type) where
  | post (msg : μ)
  | stop

/-- Where a thread is: in `post_message` or `stop`, with what it calls next, or in
`run`. -/
inductive Point (ι μ : Type) where
  | calling (i : ι) (calls : List (Call μ))
  | push (i : ι) (msg : μ) (calls : List (Call μ))
  | notify (i : ι) (calls : List (Call μ))
  | postUnlock (i : ι) (calls : List (Call μ))
  | stopNotify (i : ι) (calls : List (Call μ))
  | loop
  | lock
  | check
  | wait
  | relock
  | test
  | leave
  | stopped
  | pop
  | unlock (msg : μ)
  | dispatch (msg : μ)

/-- `_queue.front()` and `_queue.pop()`, which an empty queue does not have. -/
def front (s : Logic ι μ) : Option (Logic ι μ × μ) :=
  match s.queue with
  | [] => none
  | msg :: queue => some ({ s with queue := queue }, msg)

/-- What comes next.  `wait` of the condition variable is its loop: `check` is the
predicate. -/
def next : Point ι μ → Instr (Logic ι μ) (Point ι μ)
  | .calling _ [] => .ret
  | .calling i (.post msg :: calls) => .lock (.push i msg calls)
  | .push i msg calls => .act fun s =>
      some ({ s with queue := s.queue ++ [msg], posted := s.posted ++ [(i, msg)] }, .notify i calls)
  | .notify i calls => .notifyOne (.postUnlock i calls)
  | .postUnlock i calls => .unlock (.calling i calls)
  | .calling i (.stop :: calls) => .act fun s => some ({ s with stop := true }, .stopNotify i calls)
  | .stopNotify i calls => .notifyAll (.calling i calls)
  | .loop => .act fun s => some (s, if s.stop then .stopped else .lock)
  | .lock => .lock .check
  | .check => .act fun s => some (s, if s.queue ≠ [] ∨ s.stop then .test else .wait)
  | .wait => .wait .relock
  | .relock => .lock .check
  | .test => .act fun s => some (s, if s.stop then .leave else .pop)
  | .leave => .unlock .stopped
  | .stopped => .ret
  | .pop => .act fun s => (front s).map fun r => (r.1, .unlock r.2)
  | .unlock msg => .unlock (.dispatch msg)
  | .dispatch msg => .act fun s => some ({ s with dispatched := s.dispatched ++ [msg] }, .loop)

inductive Thread (ι : Type) where
  | logic
  | caller (i : ι)
  deriving DecidableEq

/-- The logic thread has started, and the others are going to make their calls. -/
def start (calls : ι → List (Call μ)) : State (Thread ι) (Logic ι μ) (Point ι μ) where
  shared := ⟨[], false, [], []⟩
  owner := none
  asleep := []
  pc
    | .logic => .loop
    | .caller i => .calling i (calls i)

/-! ## What the results say -/

/-- The messages among the calls. -/
def posts : List (Call μ) → List μ
  | [] => []
  | .post msg :: calls => msg :: posts calls
  | .stop :: calls => posts calls

/-- What a caller has not posted yet. -/
def unposted : Point ι μ → List μ
  | .calling _ calls | .notify _ calls | .postUnlock _ calls | .stopNotify _ calls => posts calls
  | .push _ msg calls => msg :: posts calls
  | _ => []

/-- The message in the logic thread's hands. -/
def held : Point ι μ → List μ
  | .unlock msg | .dispatch msg => [msg]
  | _ => []

/-- The points of the caller `i`. -/
def CallerAt (i : ι) : Point ι μ → Prop
  | .calling j _ | .push j _ _ | .notify j _ | .postUnlock j _ | .stopNotify j _ => j = i
  | _ => False

/-- Where the logic thread can be. -/
def LogicAt (s : Logic ι μ) : Point ι μ → Prop
  | .loop | .lock | .check | .wait | .relock | .unlock _ | .dispatch _ => True
  | .test => s.queue ≠ [] ∨ s.stop = true
  | .pop => s.queue ≠ []
  | .leave | .stopped => s.stop = true
  | _ => False

structure Sound [DecidableEq ι] (calls : ι → List (Call μ)) (s : Logic ι μ)
    (pc : Thread ι → Point ι μ) : Prop where
  caller : ∀ i, CallerAt i (pc (.caller i))
  posted : ∀ i, ofThread s.posted i ++ unposted (pc (.caller i)) = posts (calls i)
  logic : LogicAt s (pc .logic)
  order : s.dispatched ++ held (pc .logic) ++ s.queue = s.posted.map Prod.snd

/-! ## The threads -/

section Threads
variable [DecidableEq ι] {calls : ι → List (Call μ)} {s s' : Logic ι μ}
  {pc : Thread ι → Point ι μ} {i j : ι} {k : Point ι μ} {msg : μ}

omit [DecidableEq ι] in
theorem front_eq_none : front s = none ↔ s.queue = [] := by
  rw [front]
  split
  case h_1 hqueue => exact iff_of_true rfl hqueue
  case h_2 hqueue => exact iff_of_false nofun fun hnil => nomatch hqueue.symm.trans hnil

omit [DecidableEq ι] in
theorem front_eq_some (h : front s = some (s', msg)) :
    s.queue = msg :: s'.queue ∧ s'.posted = s.posted ∧ s'.dispatched = s.dispatched ∧
      s'.stop = s.stop := by
  rw [front] at h
  split at h
  case h_1 => cases h
  case h_2 hqueue =>
    cases h
    exact ⟨hqueue, rfl, rfl, rfl⟩

omit [DecidableEq ι] in
/-- A message pushed, or a flag set, holds the logic thread nowhere up. -/
theorem LogicAt.mono (h : LogicAt s k) (hqueue : s.queue ≠ [] → s'.queue ≠ [])
    (hstop : s.stop = true → s'.stop = true) : LogicAt s' k := by
  cases k with
  | test => exact h.imp hqueue hstop
  | pop => exact hqueue h
  | leave | stopped => exact hstop h
  | _ => exact h

/-- A step of one caller, as far as the others and the logic thread see it. -/
theorem Sound.call (h : Sound calls s pc) (hk : CallerAt i k)
    (hmine : ofThread s'.posted i ++ unposted k = posts (calls i))
    (hothers : ∀ j, j ≠ i → ofThread s'.posted j = ofThread s.posted j)
    (hlogic : LogicAt s' (pc .logic))
    (horder : s'.dispatched ++ held (pc .logic) ++ s'.queue = s'.posted.map Prod.snd) :
    Sound calls s' (Function.update pc (.caller i) k) := by
  have hne : Thread.logic ≠ Thread.caller i := nofun
  have hother (j : ι) (hj : j ≠ i) :
      Function.update pc (.caller i) k (.caller j) = pc (.caller j) :=
    Function.update_of_ne (fun heq => hj (Thread.caller.inj heq)) ..
  constructor
  · intro j
    by_cases hj : j = i
    · subst hj
      rw [Function.update_self]
      exact hk
    · rw [hother j hj]
      exact h.caller j
  · intro j
    by_cases hj : j = i
    · subst hj
      rw [Function.update_self]
      exact hmine
    · rw [hother j hj, hothers j hj]
      exact h.posted j
  · rw [Function.update_of_ne hne]
    exact hlogic
  · rw [Function.update_of_ne hne]
    exact horder

theorem caller_goes (h : Sound calls s pc) (hgoes : Goes s s' k (next (pc (.caller i)))) :
    Sound calls s' (Function.update pc (.caller i) k) := by
  have hcaller := h.caller i
  have hposted := h.posted i
  cases hpc : pc (.caller i) with
  | calling j rest =>
      rw [hpc] at hgoes hcaller hposted
      obtain rfl : j = i := hcaller
      cases rest with
      | nil => exact hgoes.elim
      | cons call rest =>
          cases call with
          | post msg =>
              obtain ⟨rfl, rfl⟩ := hgoes
              exact h.call rfl hposted (fun _ _ => rfl) h.logic h.order
          | stop =>
              cases hgoes
              exact h.call rfl hposted (fun _ _ => rfl) (h.logic.mono id fun _ => rfl) h.order
  | push j msg rest =>
      rw [hpc] at hgoes hcaller hposted
      obtain rfl : j = i := hcaller
      cases hgoes
      refine h.call rfl ?_ (fun x hx => ?_) (h.logic.mono (fun _ => List.concat_ne_nil _ _) id) ?_
      · rw [ofThread_concat, if_pos rfl, List.append_assoc]
        exact hposted
      · rw [ofThread_concat, if_neg hx.symm]
      · rw [← List.append_assoc, h.order, List.map_append]
        rfl
  | notify j rest =>
      rw [hpc] at hgoes hcaller hposted
      obtain ⟨rfl, rfl⟩ := hgoes
      exact h.call hcaller hposted (fun _ _ => rfl) h.logic h.order
  | postUnlock j rest =>
      rw [hpc] at hgoes hcaller hposted
      obtain ⟨rfl, rfl⟩ := hgoes
      exact h.call hcaller hposted (fun _ _ => rfl) h.logic h.order
  | stopNotify j rest =>
      rw [hpc] at hgoes hcaller hposted
      obtain ⟨rfl, rfl⟩ := hgoes
      exact h.call hcaller hposted (fun _ _ => rfl) h.logic h.order
  | _ =>
      rw [hpc] at hcaller
      exact hcaller.elim

/-- A step of the logic thread, as far as the callers see it. -/
theorem Sound.turn (h : Sound calls s pc) (hposted : s'.posted = s.posted) (hk : LogicAt s' k)
    (horder : s'.dispatched ++ held k ++ s'.queue =
      s.dispatched ++ held (pc .logic) ++ s.queue) :
    Sound calls s' (Function.update pc .logic k) := by
  have hother (i : ι) : Function.update pc .logic k (.caller i) = pc (.caller i) :=
    Function.update_of_ne (fun heq : Thread.caller i = .logic => nomatch heq) ..
  constructor
  · intro i
    rw [hother]
    exact h.caller i
  · intro i
    rw [hother, hposted]
    exact h.posted i
  · rw [Function.update_self]
    exact hk
  · rw [Function.update_self, hposted]
    exact horder.trans h.order

/-- A step that neither takes nor dispatches. -/
theorem Sound.pass (h : Sound calls s pc) (hk : LogicAt s k) (hheld : held (pc .logic) = held k) :
    Sound calls s (Function.update pc .logic k) :=
  h.turn rfl hk (congrArg (_ ++ · ++ _) hheld.symm)

theorem logic_goes (h : Sound calls s pc) (hgoes : Goes s s' k (next (pc .logic))) :
    Sound calls s' (Function.update pc .logic k) := by
  have hlogic := h.logic
  have hheld (k' : Point ι μ) (hpc : pc .logic = k') : held (pc .logic) = held k' :=
    congrArg held hpc
  cases hpc : pc .logic with
  | loop =>
      rw [hpc] at hgoes
      cases hgoes
      by_cases hstop : s.stop = true
      · rw [if_pos hstop]
        exact h.pass hstop (hheld .loop hpc)
      · rw [if_neg hstop]
        exact h.pass trivial (hheld .loop hpc)
  | check =>
      rw [hpc] at hgoes
      cases hgoes
      by_cases hready : s.queue ≠ [] ∨ s.stop = true
      · rw [if_pos hready]
        exact h.pass hready (hheld .check hpc)
      · rw [if_neg hready]
        exact h.pass trivial (hheld .check hpc)
  | test =>
      rw [hpc] at hgoes hlogic
      cases hgoes
      by_cases hstop : s.stop = true
      · rw [if_pos hstop]
        exact h.pass hstop (hheld .test hpc)
      · rw [if_neg hstop]
        exact h.pass (hlogic.resolve_right hstop) (hheld .test hpc)
  | lock =>
      rw [hpc] at hgoes
      obtain ⟨rfl, rfl⟩ := hgoes
      exact h.pass trivial (hheld .lock hpc)
  | wait =>
      rw [hpc] at hgoes
      obtain ⟨rfl, rfl⟩ := hgoes
      exact h.pass trivial (hheld .wait hpc)
  | relock =>
      rw [hpc] at hgoes
      obtain ⟨rfl, rfl⟩ := hgoes
      exact h.pass trivial (hheld .relock hpc)
  | leave =>
      rw [hpc] at hgoes hlogic
      obtain ⟨rfl, rfl⟩ := hgoes
      exact h.pass hlogic (hheld .leave hpc)
  | unlock msg =>
      rw [hpc] at hgoes
      obtain ⟨rfl, rfl⟩ := hgoes
      exact h.pass trivial (hheld (.unlock msg) hpc)
  | pop =>
      rw [hpc] at hgoes
      obtain ⟨⟨s₁, msg⟩, hfront, ⟨⟩⟩ := Option.map_eq_some_iff.mp hgoes
      obtain ⟨hqueue, hposted, hdispatched, -⟩ := front_eq_some hfront
      have hnone : held (pc .logic) = [] := congrArg held hpc
      refine h.turn hposted trivial ?_
      rw [hnone, hqueue, hdispatched, List.append_nil, List.append_assoc]
      rfl
  | dispatch msg =>
      rw [hpc] at hgoes
      cases hgoes
      have hone : held (pc .logic) = [msg] := congrArg held hpc
      refine h.turn rfl trivial ?_
      rw [hone]
      exact congrArg (· ++ s.queue) (List.append_nil _)
  | stopped =>
      rw [hpc] at hgoes
      exact hgoes.elim
  | _ =>
      rw [hpc] at hlogic
      exact hlogic.elim

theorem sound_goes (s : Logic ι μ) (pc : Thread ι → Point ι μ) (i : Thread ι) (s' : Logic ι μ)
    (k : Point ι μ) (h : Sound calls s pc) (hgoes : Goes s s' k (next (pc i))) :
    Sound calls s' (Function.update pc i k) := by
  cases i with
  | logic => exact logic_goes h hgoes
  | caller i => exact caller_goes h hgoes

/-! ## The mutex and the condition variable -/

/-- Where the mutex is held. -/
def holds : Point ι μ → Bool
  | .push _ _ _ | .notify _ _ | .postUnlock _ _ => true
  | .check | .wait | .test | .leave | .pop | .unlock _ => true
  | _ => false

/-- What there is to do is the messages in the queue; `stop` does not notify as these
signals ask. -/
def signals : Signals (Logic ι μ) (Point ι μ) where
  ready s := s.queue ≠ []
  checked
    | .wait => True
    | _ => False
  owes
    | .notify _ _ => True
    | _ => False
  waiter
    | .calling _ _ | .push _ _ _ | .notify _ _ | .postUnlock _ _ | .stopNotify _ _ => False
    | _ => True

omit [DecidableEq ι] in
theorem lockOk (k : Point ι μ) : LockOk holds k (next k) := by
  cases k with
  | calling i calls =>
      cases calls with
      | nil => rfl
      | cons call calls =>
          cases call with
          | post msg => exact ⟨rfl, rfl⟩
          | stop =>
              rintro s r ⟨⟩
              rfl
  | push i msg calls =>
      rintro s r ⟨⟩
      rfl
  | loop =>
      rintro s r ⟨⟩
      dsimp only
      split <;> rfl
  | check =>
      rintro s r ⟨⟩
      dsimp only
      split <;> rfl
  | test =>
      rintro s r ⟨⟩
      dsimp only
      split <;> rfl
  | pop =>
      intro s r hr
      obtain ⟨r', -, rfl⟩ := Option.map_eq_some_iff.mp hr
      rfl
  | dispatch msg =>
      rintro s r ⟨⟩
      rfl
  | notify | stopNotify | stopped => rfl
  | _ => exact ⟨rfl, rfl⟩

omit [DecidableEq ι] in
theorem signalOk (k : Point ι μ) : SignalOk signals holds k (next k) := by
  cases k with
  | calling i calls =>
      cases calls with
      | nil => exact id
      | cons call calls =>
          cases call with
          | post msg => exact ⟨id, False.elim, id⟩
          | stop =>
              rintro s x k' ⟨⟩
              exact ⟨False.elim, False.elim, id, .inl⟩
  | push i msg calls =>
      rintro s x k' ⟨⟩
      exact ⟨False.elim, False.elim, id, fun _ => .inr ⟨rfl, trivial⟩⟩
  | loop =>
      rintro s x k' ⟨⟩
      refine ⟨fun hchecked => ?_, False.elim, fun _ => trivial, .inl⟩
      split at hchecked <;> exact hchecked.elim
  | check =>
      rintro s x k' ⟨⟩
      refine ⟨fun hchecked hready => ?_, False.elim, fun _ => trivial, .inl⟩
      rw [if_pos (.inl hready)] at hchecked
      exact hchecked
  | test =>
      rintro s x k' ⟨⟩
      refine ⟨fun hchecked => ?_, False.elim, fun _ => trivial, .inl⟩
      split at hchecked <;> exact hchecked.elim
  | pop =>
      intro s x k' hr
      obtain ⟨⟨s₁, msg⟩, hfront, ⟨⟩⟩ := Option.map_eq_some_iff.mp hr
      refine ⟨False.elim, False.elim, fun _ => trivial, fun _ => .inl ?_⟩
      rw [show signals.ready s = (s.queue ≠ []) from rfl, (front_eq_some hfront).1]
      exact List.cons_ne_nil _ _
  | dispatch msg =>
      rintro s x k' ⟨⟩
      exact ⟨False.elim, False.elim, fun _ => trivial, .inl⟩
  | notify | stopNotify => exact ⟨id, id⟩
  | postUnlock => exact ⟨id, id, id⟩
  | wait => exact ⟨trivial, trivial, id, id⟩
  | stopped => exact id
  | lock | relock | leave | unlock => exact ⟨id, id, fun _ => trivial⟩

omit [DecidableEq ι] in
theorem checked_holds (k : Point ι μ) (h : signals.checked k) : holds k = true := by
  cases k with
  | wait => rfl
  | _ => exact h.elim

end Threads

/-! ## Runs -/

section Runs
variable [DecidableEq ι] {calls : ι → List (Call μ)} {s : State (Thread ι) (Logic ι μ) (Point ι μ)}
  {events : List (Event (Thread ι))}

theorem start_sound (calls : ι → List (Call μ)) :
    Sound calls (start calls).shared (start calls).pc :=
  ⟨fun _ => rfl, fun _ => rfl, trivial, rfl⟩

omit [DecidableEq ι] in
theorem start_owned (calls : ι → List (Call μ)) : Owned holds (start calls) := by
  refine ⟨fun i => ?_, fun i hi => absurd hi List.not_mem_nil⟩
  cases i <;> exact iff_of_false Bool.false_ne_true nofun

omit [DecidableEq ι] in
theorem start_awake (calls : ι → List (Call μ)) :
    Awake signals Thread.logic (start calls) := by
  refine ⟨fun i hi => ?_, fun i hi => ?_, .inl rfl, fun i hi => absurd hi List.not_mem_nil,
    fun _ hne => absurd rfl hne⟩
  · cases i <;> exact hi.elim
  · cases i with
    | logic => rfl
    | caller i => exact hi.elim

/-- Every reachable state. -/
theorem reaches (hrun : run (step next) (start calls) events = some s) :
    Sound calls s.shared s.pc ∧ Owned holds s ∧ Awake signals Thread.logic s :=
  ⟨run_goes sound_goes events (start_sound calls) hrun,
    run_awake lockOk signalOk checked_holds events (start_owned calls) (start_awake calls) hrun⟩

/-- The queue is never popped when it is empty, and nothing else can fault. -/
theorem Sound.safe {q : Logic ι μ} {pc : Thread ι → Point ι μ} (h : Sound calls q pc)
    (i : Thread ι) {f : Logic ι μ → Option (Logic ι μ × Point ι μ)}
    (hf : next (pc i) = .act f) : f q ≠ none := by
  cases i with
  | caller i =>
      cases hpc : pc (.caller i) with
      | calling j rest =>
          rw [hpc] at hf
          cases rest with
          | nil => cases hf
          | cons call rest =>
              cases call <;> cases hf
              exact Option.some_ne_none _
      | push =>
          rw [hpc] at hf
          cases hf
          exact Option.some_ne_none _
      | notify | postUnlock | stopNotify =>
          rw [hpc] at hf
          cases hf
      | _ =>
          have hcaller := h.caller i
          rw [hpc] at hcaller
          exact hcaller.elim
  | logic =>
      have hlogic := h.logic
      cases hpc : pc .logic with
      | loop | check | test | dispatch =>
          rw [hpc] at hf
          cases hf
          exact Option.some_ne_none _
      | pop =>
          rw [hpc] at hf hlogic
          cases hf
          intro hnone
          exact hlogic (front_eq_none.mp (Option.map_eq_none_iff.mp hnone))
      | lock | wait | relock | leave | stopped | unlock =>
          rw [hpc] at hf
          cases hf
      | _ =>
          rw [hpc] at hlogic
          exact hlogic.elim

omit [DecidableEq ι] in
theorem next_ne_await (k : Point ι μ) (f : Logic ι μ → Option (Logic ι μ × Point ι μ)) :
    next k ≠ .await f := by
  cases k with
  | calling i calls =>
      cases calls with
      | nil => nofun
      | cons call calls => cases call <;> nofun
  | _ => nofun

/-- When nothing moves, the callers have made all their calls. -/
theorem quiet_caller (hrun : run (step next) (start calls) events = some s) (hquiet : Quiet next s)
    (i : ι) : s.pc (.caller i) = .calling i [] := by
  obtain ⟨hsound, howned, hawake⟩ := reaches hrun
  have hcaller := hsound.caller i
  rcases quiet_cases lockOk howned (fun i f hf => hsound.safe i hf) hquiet (.caller i) with
    hmem | hret | ⟨f, hf, -⟩
  · rcases hawake.asleep with hnil | hone
    · exact absurd (hnil ▸ hmem) List.not_mem_nil
    · rw [hone] at hmem
      cases List.mem_singleton.mp hmem
  · cases hpc : s.pc (.caller i) with
    | calling j rest =>
        rw [hpc] at hret hcaller
        obtain rfl : j = i := hcaller
        cases rest with
        | nil => rfl
        | cons call rest => cases call <;> cases hret
    | push | notify | postUnlock | stopNotify =>
        rw [hpc] at hret
        cases hret
    | _ =>
        rw [hpc] at hcaller
        exact hcaller.elim
  · exact absurd hf (next_ne_await _ f)

/-- When nothing moves, the logic thread has left or sleeps before an empty queue. -/
theorem quiet_logic (hrun : run (step next) (start calls) events = some s) (hquiet : Quiet next s) :
    s.pc .logic = .stopped ∨ .logic ∈ s.asleep ∧ s.shared.queue = [] := by
  obtain ⟨hsound, howned, hawake⟩ := reaches hrun
  have hsafe (i : Thread ι) (f : Logic ι μ → Option (Logic ι μ × Point ι μ))
      (hf : next (s.pc i) = .act f) : f s.shared ≠ none := hsound.safe i hf
  rcases quiet_cases lockOk howned hsafe hquiet .logic with hmem | hret | ⟨f, hf, -⟩
  · exact .inr ⟨hmem, not_not.mp (quiet_unready lockOk signalOk howned hawake hsafe
      (fun k f hf => absurd hf (next_ne_await k f)) hquiet hmem)⟩
  · have hlogic := hsound.logic
    cases hpc : s.pc .logic with
    | stopped => exact .inl rfl
    | loop | lock | check | wait | relock | test | leave | pop | unlock | dispatch =>
        rw [hpc] at hret
        cases hret
    | _ =>
        rw [hpc] at hlogic
        exact hlogic.elim
  · exact absurd hf (next_ne_await _ f)

theorem asleep_relock (hrun : run (step next) (start calls) events = some s) {i : Thread ι}
    (hi : i ∈ s.asleep) : s.pc i = .relock := by
  obtain ⟨k, hk⟩ := run_behind events (fun i hi => absurd hi List.not_mem_nil) hrun i hi
  cases k with
  | wait => exact (Instr.wait.inj hk).symm
  | calling i calls =>
      cases calls with
      | nil => cases hk
      | cons call calls => cases call <;> cases hk
  | _ => cases hk

/-- **Messages are dispatched in order, and none is slept on.**  In every interleaving of
any number of threads that post and stop, what has been dispatched is the first part of
what was posted; every thread's messages are in it in the order of its calls; an empty
queue is never popped.  And when no thread can move any more, all calls have been made,
and the logic thread has left, or it sleeps and every message has been dispatched. -/
theorem dispatched_in_order (calls : ι → List (Call μ)) (events : List (Event (Thread ι)))
    {s : State (Thread ι) (Logic ι μ) (Point ι μ)}
    (hrun : run (step next) (start calls) events = some s) :
    (∃ rest, s.shared.posted.map Prod.snd = s.shared.dispatched ++ rest) ∧
      (∀ i, ∃ rest, posts (calls i) = ofThread s.shared.posted i ++ rest) ∧
      (∀ i f, next (s.pc i) = .act f → f s.shared ≠ none) ∧
      (Quiet next s → (∀ i, ofThread s.shared.posted i = posts (calls i)) ∧
        (s.pc .logic = .stopped ∨
          .logic ∈ s.asleep ∧ s.shared.dispatched = s.shared.posted.map Prod.snd)) := by
  obtain ⟨hsound, -, hawake⟩ := reaches hrun
  refine ⟨⟨_, hsound.order.symm.trans (List.append_assoc ..)⟩,
    fun i => ⟨_, (hsound.posted i).symm⟩, fun i f hf => hsound.safe i hf, fun hquiet => ?_⟩
  refine ⟨fun i => ?_, (quiet_logic hrun hquiet).imp_right fun ⟨hmem, hnil⟩ => ⟨hmem, ?_⟩⟩
  · have hposted := hsound.posted i
    rw [quiet_caller hrun hquiet i] at hposted
    exact (List.append_nil _).symm.trans hposted
  · have horder := hsound.order
    have hheld : held (s.pc .logic) = [] := by
      rw [asleep_relock hrun hmem]
      rfl
    rw [hnil, hheld, List.append_nil, List.append_nil] at horder
    exact horder

/-- One message, and nobody stops. -/
theorem dispatched_in_order_one :
    ∃ s, run (step next) (start fun _ : Unit => [Call.post 7])
      ([.run (.caller ()) none, .run (.caller ()) none, .run (.caller ()) none,
        .run (.caller ()) none] ++ List.replicate 11 (.run .logic none)) = some s ∧
      ofThread s.shared.posted () = [7] ∧ s.shared.dispatched = s.shared.posted.map Prod.snd := by
  obtain ⟨s, hrun, hasleep, hlogic, hcaller⟩ :
      ∃ s, run (step next) (start fun _ : Unit => [Call.post 7])
        ([.run (.caller ()) none, .run (.caller ()) none, .run (.caller ()) none,
          .run (.caller ()) none] ++ List.replicate 11 (.run .logic none)) = some s ∧
        s.asleep = [.logic] ∧ s.pc .logic = .relock ∧ s.pc (.caller ()) = .calling () [] :=
    ⟨_, rfl, rfl, rfl, rfl⟩
  have hquiet : Quiet next s := by
    intro i woken
    cases i with
    | logic => rw [step, hasleep, if_pos (List.mem_singleton_self _)]
    | caller i =>
        rw [step, hcaller]
        split <;> rfl
  obtain ⟨hposted, hend⟩ := (dispatched_in_order _ _ hrun).2.2.2 hquiet
  refine ⟨s, hrun, hposted (), (hend.resolve_left fun hleft => ?_).2⟩
  cases hlogic.symm.trans hleft

end Runs

/-! ## `stop` -/

section Stop
variable [DecidableEq ι] {calls : ι → List (Call μ)} {s s' : State (Thread ι) (Logic ι μ) (Point ι μ)}
  {events : List (Event (Thread ι))} {i : ι}

/-- No thread notifies from `stop` while the logic thread is between its look at the flag
and its going to sleep. -/
def InTime (s : State (Thread ι) (Logic ι μ) (Point ι μ)) : Event (Thread ι) → Prop
  | .run (.caller i) _ => ∀ j rest, s.pc (.caller i) = .stopNotify j rest → s.pc .logic ≠ .wait
  | _ => True

/-- Once the flag is set, the logic thread does not sleep or go to sleep without somebody
being about to notify it. -/
def Told (s : State (Thread ι) (Logic ι μ) (Point ι μ)) : Prop :=
  s.shared.stop = true → .logic ∈ s.asleep ∨ s.pc .logic = .wait →
    ∃ i j rest, s.pc (.caller i) = .stopNotify j rest

/-- What a caller does to the flag and to who sleeps. -/
theorem caller_moves (hcaller : CallerAt i (s.pc (.caller i)))
    (hmoves : Moves next s (.caller i) s') :
    (∃ j rest, s.pc (.caller i) = .stopNotify j rest) ∧ s'.asleep = [] ∨
      (∀ j rest, s.pc (.caller i) ≠ .stopNotify j rest) ∧ (∀ j ∈ s'.asleep, j ∈ s.asleep) ∧
        (s'.shared.stop = s.shared.stop ∨ ∃ j rest, s'.pc (.caller i) = .stopNotify j rest) := by
  obtain ⟨k, hpc', hgoes⟩ := hmoves.goes
  have hsub (hwait : ∀ k, next (s.pc (.caller i)) ≠ .wait k) : ∀ j ∈ s'.asleep, j ∈ s.asleep :=
    fun j hj => (hmoves.asleep hj).resolve_right fun ⟨_, k, hk⟩ => hwait k hk
  cases hpc : s.pc (.caller i) with
  | stopNotify j rest =>
      refine .inl ⟨⟨j, rest, rfl⟩, hmoves.wakes_all (k := .calling j rest) ?_⟩
      rw [hpc]
      rfl
  | calling j rest =>
      rw [hpc] at hgoes hsub
      refine .inr ⟨nofun, ?_⟩
      cases rest with
      | nil => exact hgoes.elim
      | cons call rest =>
          cases call with
          | post msg => exact ⟨hsub nofun, .inl (congrArg Logic.stop hgoes.1)⟩
          | stop =>
              obtain ⟨-, rfl⟩ := Prod.mk.inj (Option.some.inj hgoes)
              refine ⟨hsub nofun, .inr ⟨j, rest, ?_⟩⟩
              rw [hpc', Function.update_self]
  | push j msg rest =>
      rw [hpc] at hgoes hsub
      obtain ⟨heq, -⟩ := Prod.mk.inj (Option.some.inj hgoes)
      exact .inr ⟨nofun, hsub nofun, .inl (congrArg Logic.stop heq).symm⟩
  | notify j rest =>
      rw [hpc] at hgoes hsub
      exact .inr ⟨nofun, hsub nofun, .inl (congrArg Logic.stop hgoes.1)⟩
  | postUnlock j rest =>
      rw [hpc] at hgoes hsub
      exact .inr ⟨nofun, hsub nofun, .inl (congrArg Logic.stop hgoes.1)⟩
  | _ =>
      rw [hpc] at hcaller
      exact hcaller.elim

/-- What the logic thread does to them. -/
theorem logic_moves (hlogic : LogicAt s.shared (s.pc .logic)) (hi : .logic ∉ s.asleep)
    (hmoves : Moves next s .logic s') :
    s'.shared.stop = s.shared.stop ∧ (.logic ∈ s'.asleep → s.pc .logic = .wait) ∧
      (s'.pc .logic = .wait → s.shared.stop = false) := by
  obtain ⟨k, hpc', hgoes⟩ := hmoves.goes
  have hk : s'.pc .logic = k := by rw [hpc', Function.update_self]
  have hawake (hnot : ∀ k, next (s.pc .logic) ≠ .wait k) : .logic ∉ s'.asleep := by
    intro hmem
    obtain ⟨-, k, hwait⟩ := (hmoves.asleep hmem).resolve_left hi
    exact hnot k hwait
  rw [hk]
  cases hpc : s.pc .logic with
  | wait =>
      rw [hpc] at hgoes
      obtain ⟨hsame, rfl⟩ := hgoes
      exact ⟨congrArg Logic.stop hsame, fun _ => rfl, nofun⟩
  | loop =>
      rw [hpc] at hgoes hawake
      obtain ⟨heq, rfl⟩ := Prod.mk.inj (Option.some.inj hgoes)
      refine ⟨congrArg Logic.stop heq.symm, fun hmem => absurd hmem (hawake nofun), fun hwait => ?_⟩
      split at hwait <;> cases hwait
  | check =>
      rw [hpc] at hgoes hawake
      obtain ⟨heq, rfl⟩ := Prod.mk.inj (Option.some.inj hgoes)
      refine ⟨congrArg Logic.stop heq.symm, fun hmem => absurd hmem (hawake nofun), fun hwait => ?_⟩
      split at hwait
      case isTrue => cases hwait
      case isFalse hidle => exact Bool.not_eq_true _ ▸ (not_or.mp hidle).2
  | test =>
      rw [hpc] at hgoes hawake
      obtain ⟨heq, rfl⟩ := Prod.mk.inj (Option.some.inj hgoes)
      refine ⟨congrArg Logic.stop heq.symm, fun hmem => absurd hmem (hawake nofun), fun hwait => ?_⟩
      split at hwait <;> cases hwait
  | pop =>
      rw [hpc] at hgoes hawake
      obtain ⟨r, hfront, hr⟩ := Option.map_eq_some_iff.mp hgoes
      obtain ⟨heq, rfl⟩ := Prod.mk.inj hr
      have hfront' : front s.shared = some (r.1, r.2) := hfront
      obtain ⟨-, -, -, hstop⟩ := front_eq_some hfront'
      exact ⟨heq ▸ hstop, fun hmem => absurd hmem (hawake nofun), nofun⟩
  | dispatch msg =>
      rw [hpc] at hgoes hawake
      obtain ⟨heq, rfl⟩ := Prod.mk.inj (Option.some.inj hgoes)
      exact ⟨(congrArg Logic.stop heq).symm, fun hmem => absurd hmem (hawake nofun), nofun⟩
  | lock | relock | leave | unlock =>
      rw [hpc] at hgoes hawake
      obtain ⟨hsame, rfl⟩ := hgoes
      exact ⟨congrArg Logic.stop hsame, fun hmem => absurd hmem (hawake nofun), nofun⟩
  | stopped =>
      rw [hpc] at hgoes
      exact hgoes.elim
  | _ =>
      rw [hpc] at hlogic
      exact hlogic.elim

/-- One event in time. -/
theorem told_step (s : State (Thread ι) (Logic ι μ) (Point ι μ)) (e : Event (Thread ι))
    (s' : State (Thread ι) (Logic ι μ) (Point ι μ)) (h : Sound calls s.shared s.pc ∧ Told s)
    (hintime : InTime s e) (hstep : step next s e = some s') :
    Sound calls s'.shared s'.pc ∧ Told s' := by
  obtain ⟨hsound, htold⟩ := h
  cases e with
  | wake i =>
      obtain ⟨hi, rfl⟩ := step_wake hstep
      exact ⟨hsound, fun hstop hwaits => htold hstop (hwaits.imp_left List.mem_of_mem_erase)⟩
  | run i woken =>
      obtain ⟨hi, hmoves⟩ := step_run hstep
      obtain ⟨k, hpc, hgoes⟩ := hmoves.goes
      refine ⟨?_, fun hstop hwaits => ?_⟩
      · rw [hpc]
        exact sound_goes _ _ i _ k hsound hgoes
      · cases i with
        | caller i =>
            have hlogic : s'.pc .logic = s.pc .logic := by
              rw [hpc]
              exact Function.update_of_ne (fun heq : Thread.logic = .caller i => nomatch heq) ..
            rw [hlogic] at hwaits
            rcases caller_moves (hsound.caller i) hmoves with
              ⟨⟨j, rest, hnotify⟩, hnil⟩ | ⟨hnot, hsub, hflag⟩
            · rcases hwaits with hmem | hwait
              · exact absurd (hnil ▸ hmem) List.not_mem_nil
              · exact absurd hwait (hintime j rest hnotify)
            · rcases hflag with hsame | ⟨j, rest, hnotify⟩
              · obtain ⟨i', j, rest, hi'⟩ :=
                  htold (hsame.symm.trans hstop) (hwaits.imp_left (hsub _))
                have hne : Thread.caller i' ≠ .caller i := fun heq => hnot j rest (heq ▸ hi')
                refine ⟨i', j, rest, ?_⟩
                rw [hpc, Function.update_of_ne hne]
                exact hi'
              · exact ⟨i, j, rest, hnotify⟩
        | logic =>
            obtain ⟨hsame, hsleep, hidle⟩ := logic_moves hsound.logic hi hmoves
            have hset := hsame.symm.trans hstop
            rcases hwaits with hmem | hwait
            · obtain ⟨i', j, rest, hi'⟩ := htold hset (.inr (hsleep hmem))
              have hne : Thread.caller i' ≠ .logic := nofun
              refine ⟨i', j, rest, ?_⟩
              rw [hpc, Function.update_of_ne hne]
              exact hi'
            · cases hset.symm.trans (hidle hwait)

/-- **A stop in time is heard.**  If no notification from `stop` falls between the logic
thread's look at the flag and its going to sleep, then when nothing moves after a `stop`
the logic thread has left. -/
theorem stop_in_time (calls : ι → List (Call μ)) (events : List (Event (Thread ι)))
    {s : State (Thread ι) (Logic ι μ) (Point ι μ)}
    (hintime : Along (step next) InTime (start calls) events)
    (hrun : run (step next) (start calls) events = some s) (hquiet : Quiet next s)
    (hstop : s.shared.stop = true) : s.pc .logic = .stopped := by
  have htold := (run_keeps_along (I := fun s => Sound calls s.shared s.pc ∧ Told s) told_step events
    ⟨start_sound calls, fun hset => absurd hset Bool.false_ne_true⟩ hintime hrun).2
  refine (quiet_logic hrun hquiet).resolve_right fun ⟨hmem, _⟩ => ?_
  obtain ⟨i, j, rest, hi⟩ := htold hstop (.inl hmem)
  cases (quiet_caller hrun hquiet i).symm.trans hi

/-- The logic thread waits, `stop` is called, and the logic thread goes on. -/
def stopAsleep : List (Event (Thread Unit)) :=
  List.replicate 4 (.run .logic none) ++ List.replicate 2 (.run (.caller ()) none) ++
    List.replicate 4 (.run .logic none)

theorem stop_in_time_asleep :
    ∃ s₁ s, run (step next) (start fun _ : Unit => [Call.stop (μ := Nat)]) (stopAsleep.take 4) =
        some s₁ ∧ .logic ∈ s₁.asleep ∧
      run (step next) (start fun _ : Unit => [Call.stop (μ := Nat)]) stopAsleep = some s ∧
      s.pc .logic = .stopped := by
  have hintime :
      Along (step next) InTime (start fun _ : Unit => [Call.stop (μ := Nat)]) stopAsleep :=
    ⟨trivial, trivial, trivial, trivial, nofun, fun _ _ _ => nofun, trivial, trivial, trivial,
      trivial, trivial⟩
  refine ⟨_, _, rfl, List.mem_singleton_self _, rfl,
    stop_in_time _ stopAsleep hintime rfl (quiet_of_ret fun i => ?_) rfl⟩
  cases i <;> rfl

end Stop

/-! ### A stop that is not heard -/

section Lost

/-- The io thread: it posts the messages and then stops. -/
def serve (msgs : List μ) : Unit → List (Call μ) := fun _ => msgs.map .post ++ [.stop]

/-- The logic thread has found nothing to do, and is about to wait. -/
def waiting (posted : List (Unit × μ)) (dispatched msgs : List μ) :
    State (Thread Unit) (Logic Unit μ) (Point Unit μ) where
  shared := ⟨[], false, posted, dispatched⟩
  owner := some .logic
  asleep := []
  pc
    | .logic => .wait
    | .caller _ => .calling () (serve msgs ())

theorem eq_waiting {s : State (Thread Unit) (Logic Unit μ) (Point Unit μ)}
    {posted : List (Unit × μ)} {dispatched msgs : List μ}
    (hshared : s.shared = ⟨[], false, posted, dispatched⟩) (howner : s.owner = some .logic)
    (hasleep : s.asleep = []) (hpc : s.pc = (waiting posted dispatched msgs).pc) :
    s = waiting posted dispatched msgs := by
  cases s
  cases hshared
  cases howner
  cases hasleep
  cases hpc
  rfl

/-- The logic thread falls asleep, is woken for one message, and looks again. -/
def oneMessage : List (Event (Thread Unit)) :=
  [.run .logic none, .run (.caller ()) none, .run (.caller ()) none, .run (.caller ()) (some .logic),
    .run (.caller ()) none] ++ List.replicate 9 (.run .logic none)

theorem run_oneMessage (posted : List (Unit × μ)) (dispatched msgs : List μ) (msg : μ) :
    run (step next) (waiting posted dispatched (msg :: msgs)) oneMessage =
      some (waiting (posted ++ [((), msg)]) (dispatched ++ [msg]) msgs) := by
  obtain ⟨s, hrun, hshared, howner, hasleep, hpc⟩ :
      ∃ s, run (step next) (waiting posted dispatched (msg :: msgs)) oneMessage = some s ∧
        s.shared = ⟨[], false, posted ++ [((), msg)], dispatched ++ [msg]⟩ ∧
        s.owner = some .logic ∧ s.asleep = [] ∧ s.pc = (waiting posted dispatched msgs).pc := by
    refine ⟨_, rfl, rfl, rfl, rfl, funext fun i => ?_⟩
    cases i <;> rfl
  rw [hrun, eq_waiting hshared howner hasleep hpc]

theorem run_messages (posted : List (Unit × μ)) (dispatched msgs : List μ) :
    run (step next) (waiting posted dispatched msgs) (msgs.flatMap fun _ => oneMessage) =
      some (waiting (posted ++ msgs.map fun msg => ((), msg)) (dispatched ++ msgs) []) := by
  induction msgs generalizing posted dispatched with
  | nil =>
      rw [List.map_nil, List.append_nil, List.append_nil]
      rfl
  | cons msg msgs ih =>
      rw [List.flatMap_cons, run_append, run_oneMessage, Option.bind_some, ih, List.append_assoc,
        List.append_assoc]
      rfl

/-- **A stop can be lost.**  Whatever was posted before, there is an interleaving without
a spurious wake-up in which all of it is dispatched and `stop` returns, and the logic
thread sleeps with nobody left to wake it. -/
theorem stop_lost (msgs : List μ) :
    ∃ events s, run (step next) (start (serve msgs)) events = some s ∧ Quiet next s ∧
      events.countP Event.spurious = 0 ∧ s.shared.dispatched = msgs ∧ s.shared.stop = true ∧
      .logic ∈ s.asleep := by
  have hfirst : run (step next) (start (serve msgs)) (List.replicate 3 (.run .logic none)) =
      some (waiting [] [] msgs) := by
    obtain ⟨s, hrun, hshared, howner, hasleep, hpc⟩ :
        ∃ s, run (step next) (start (serve msgs)) (List.replicate 3 (.run .logic none)) = some s ∧
          s.shared = ⟨[], false, [], []⟩ ∧ s.owner = some .logic ∧ s.asleep = [] ∧
          s.pc = (waiting [] [] msgs).pc := by
      refine ⟨_, rfl, rfl, rfl, rfl, funext fun i => ?_⟩
      cases i <;> rfl
    rw [hrun, eq_waiting hshared howner hasleep hpc]
  obtain ⟨s, hlast, hshared, hasleep, hcaller⟩ :
      ∃ s, run (step next) (waiting (msgs.map fun msg => ((), msg)) msgs [])
        [.run (.caller ()) none, .run (.caller ()) none, .run .logic none] = some s ∧
        s.shared = ⟨[], true, msgs.map fun msg => ((), msg), msgs⟩ ∧ s.asleep = [.logic] ∧
        s.pc (.caller ()) = .calling () [] :=
    ⟨_, rfl, rfl, rfl, rfl⟩
  refine ⟨List.replicate 3 (.run .logic none) ++ (msgs.flatMap fun _ => oneMessage) ++
    [.run (.caller ()) none, .run (.caller ()) none, .run .logic none], s, ?_, ?_, ?_, ?_, ?_, ?_⟩
  · rw [run_append, run_append, hfirst, Option.bind_some, run_messages, Option.bind_some]
    exact hlast
  · intro i woken
    cases i with
    | logic => rw [step, hasleep, if_pos (List.mem_singleton_self _)]
    | caller i =>
        rw [step, hcaller]
        split <;> rfl
  · rw [List.countP_append, List.countP_append, List.countP_flatMap]
    simp [Event.spurious, oneMessage, Function.comp_def]
  · rw [hshared]
  · rw [hshared]
  · rw [hasleep]
    exact List.mem_singleton_self _

end Lost

end CKernel.Net.LogicSystem
