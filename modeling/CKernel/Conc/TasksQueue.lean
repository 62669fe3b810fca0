/-
# `CKernel.Conc.TasksQueue` — the task queue of `c_tasks_queue.c`

`main` enqueues its tasks, sets `stop` and joins; `worker_thread` executes what it
dequeues.  The nodes are in a heap that both threads use: `main` allocates them, the
worker frees them, outside the mutex both.  `malloc` may return any address but null and
those of the nodes that are there; a task's function returns and leaves the queue alone.

Beside the queue the model keeps what was enqueued, dequeued and executed.

    each thread is where the queue lets it be               (`MainAt`, `WorkerAt`)
    one step keeps this, and who owns which node            (`main_goes`, `worker_goes`)
    in every interleaving the tasks are executed in order,
      and no step uses a node that is not there             (`tasks_in_order`)
    all interleavings end, with all tasks executed, the
      worker gone and every node freed                      (`tasks_done`)
-/
import CKernel.Lib.Monitor
import CKernel.Lib.LinkedQueue

namespace CKernel.Conc.TasksQueue

open Run Monitor LinkedQueue

/-! ## The code -/

/-- The queue with its nodes; a datum is a function with its argument. -/
structure TaskQueue (τ : Type) where
  heap : Heap (Node τ)
  head : Ptr
  tail : Ptr
  stop : Bool
  enqueued : List τ
  dequeued : List τ
  executed : List τ

variable {τ : Type}

/-- `initQueue(queue)` -/
def initQueue : TaskQueue τ := ⟨.empty, 0, 0, false, [], [], []⟩

/-- `enqueue` up to the lock. -/
def newTask (q : TaskQueue τ) (p : Ptr) (t : τ) : TaskQueue τ :=
  { q with heap := q.heap.set p ⟨t, 0⟩ }

/-- `enqueue` between `pthread_mutex_lock` and `pthread_cond_signal`. -/
def link (q : TaskQueue τ) (p : Ptr) : Option (TaskQueue τ) := do
  let n ← q.heap.load p
  let q := { q with enqueued := q.enqueued ++ [n.data] }
  if q.tail ≠ 0 then
    let heap ← q.heap.modify q.tail fun n => { n with next := p }
    some { q with heap := heap, tail := p }
  else some { q with head := p, tail := p }

/-- `dequeue(queue)`: the queue and the task, null if there is none. -/
def dequeue (q : TaskQueue τ) : Option (TaskQueue τ × Ptr) :=
  let task := q.head
  if q.head ≠ 0 then do
    let n ← q.heap.load q.head
    let q := { q with head := n.next, dequeued := q.dequeued ++ [n.data] }
    let q := if q.head = 0 then { q with tail := 0 } else q
    some (q, task)
  else some (q, task)

/-- `task->func(task->arg)` -/
def execute (q : TaskQueue τ) (task : Ptr) : Option (TaskQueue τ) :=
  (q.heap.load task).map fun n => { q with executed := q.executed ++ [n.data] }

/-- `free(task)` -/
def freeTask (q : TaskQueue τ) (task : Ptr) : Option (TaskQueue τ) :=
  (q.heap.free task).map fun heap => { q with heap := heap }

/-- Where a thread is: `main` from `enqueue` to `join`, and `worker_thread`. -/
inductive Point (τ : Type) where
  | enqueue (tasks : List τ)
  | enqueueLock (p : Ptr) (tasks : List τ)
  | link (p : Ptr) (tasks : List τ)
  | signal (tasks : List τ)
  | enqueueUnlock (tasks : List τ)
  | stopLock
  | stop
  | stopSignal
  | stopUnlock
  | join
  | lock
  | test
  | wait
  | relock
  | leave
  | returned
  | dequeue
  | unlock (task : Ptr)
  | execute (task : Ptr)
  | free (task : Ptr)

/-- What comes next; `malloc` returns `alloc`.  No two calls of a run see the same
`enqueued`, so that a run of any addresses is one for some `alloc`. -/
def next (alloc : TaskQueue τ → Ptr) : Point τ → Instr (TaskQueue τ) (Point τ)
  | .enqueue [] => .act fun q => some (q, .stopLock)
  | .enqueue (t :: tasks) => .act fun q =>
      some (newTask q (alloc q) t, .enqueueLock (alloc q) tasks)
  | .enqueueLock p tasks => .lock (.link p tasks)
  | .link p tasks => .act fun q => (TasksQueue.link q p).map fun q => (q, .signal tasks)
  | .signal tasks => .notifyOne (.enqueueUnlock tasks)
  | .enqueueUnlock tasks => .unlock (.enqueue tasks)
  | .stopLock => .lock .stop
  | .stop => .act fun q => some ({ q with stop := true }, .stopSignal)
  | .stopSignal => .notifyOne .stopUnlock
  | .stopUnlock => .unlock .join
  | .join => .ret
  | .lock => .lock .test
  | .test => .act fun q =>
      some (q, if q.head = 0 ∧ q.stop = false then .wait
        else if q.stop = true ∧ q.head = 0 then .leave else .dequeue)
  | .wait => .wait .relock
  | .relock => .lock .test
  | .leave => .unlock .returned
  | .returned => .ret
  | .dequeue => .act fun q => (TasksQueue.dequeue q).map fun r => (r.1, .unlock r.2)
  | .unlock task => .unlock (.execute task)
  | .execute task => .act fun q =>
      if task = 0 then some (q, .lock)
      else (TasksQueue.execute q task).map fun q => (q, .free task)
  | .free task => .act fun q => (freeTask q task).map fun q => (q, .lock)

inductive Thread where
  | main
  | worker
  deriving DecidableEq, Repr

instance : Fintype Thread := ⟨{.main, .worker}, fun i => by cases i <;> decide⟩

/-- `main` after `pthread_create`, with the tasks that it is going to enqueue. -/
def start (tasks : List τ) : State Thread (TaskQueue τ) (Point τ) where
  shared := initQueue
  owner := none
  asleep := []
  pc
    | .main => .enqueue tasks
    | .worker => .lock

/-! ## What the results say -/

/-- The node a thread has in its hands. -/
def hand : Point τ → List Ptr
  | .enqueueLock p _ | .link p _ => [p]
  | .unlock task | .execute task | .free task => [task]
  | _ => []

/-- `main` has enqueued some of its tasks and has the others before it. -/
def MainAt (tasks : List τ) (q : TaskQueue τ) : Point τ → Prop
  | .enqueue rest | .signal rest | .enqueueUnlock rest =>
      q.enqueued ++ rest = tasks ∧ q.stop = false
  | .enqueueLock p rest | .link p rest => ∃ t, q.heap.load p = some ⟨t, 0⟩ ∧
      q.enqueued ++ t :: rest = tasks ∧ q.stop = false
  | .stopLock | .stop => q.enqueued = tasks ∧ q.stop = false
  | .stopSignal | .stopUnlock | .join => q.enqueued = tasks ∧ q.stop = true
  | _ => False

/-- The worker has executed what it has dequeued, but for the task in its hands. -/
def WorkerAt (q : TaskQueue τ) : Point τ → Prop
  | .lock | .test | .wait | .relock => q.dequeued = q.executed
  | .dequeue => q.dequeued = q.executed ∧ q.head ≠ 0
  | .leave | .returned => q.dequeued = q.executed ∧ q.stop = true ∧ q.head = 0
  | .unlock task | .execute task =>
      ∃ n, q.heap.load task = some n ∧ q.dequeued = q.executed ++ [n.data]
  | .free task => q.dequeued = q.executed ∧ ∃ n, q.heap.load task = some n
  | _ => False

/-- The nodes that are live are those in the queue and in the threads' hands. -/
structure Linked (q : TaskQueue τ) (mine yours : List Ptr) (l : List (Ptr × τ)) : Prop where
  queued : Queued q.heap q.head q.tail l
  enqueued : q.enqueued = q.dequeued ++ l.map Prod.snd
  owns : Owns q.heap (addrs l ++ mine ++ yours)

/-- The two threads at their points. -/
structure Joint (tasks : List τ) (q : TaskQueue τ) (km kw : Point τ) : Prop where
  main : MainAt tasks q km
  worker : WorkerAt q kw
  linked : ∃ l, Linked q (hand km) (hand kw) l

def Sound (tasks : List τ) (q : TaskQueue τ) (pc : Thread → Point τ) : Prop :=
  Joint tasks q (pc .main) (pc .worker)

/-! ## The queue -/

section Queue
variable {q q' : TaskQueue τ} {mine yours : List Ptr} {l : List (Ptr × τ)} {p x : Ptr} {t : τ}
  {n : Node τ}

theorem Linked.ne_of_queued (h : Linked q mine yours l) (hp : p ∈ mine ∨ p ∈ yours) :
    p ∉ addrs l := by
  have hnodup := h.owns.nodup
  rw [List.append_assoc] at hnodup
  exact fun hmem => List.disjoint_of_nodup_append hnodup hmem (List.mem_append.mpr hp)

/-- A node allocated by `main`. -/
theorem Linked.newTask (h : Linked q [] yours l) (hp : q.heap.Fresh p) :
    Linked (newTask q p t) [p] yours l := by
  have hnew := h.owns.not_mem hp.2
  refine ⟨h.queued.congr fun x hx => Heap.load_set_of_ne hp.1 fun heq => hnew ?_, h.enqueued, ?_⟩
  · rw [← heq]
    exact List.mem_append_left _ (List.mem_append_left _ hx)
  · refine (h.owns.new hp).perm ?_
    rw [List.append_nil, List.append_assoc, List.singleton_append]
    exact List.perm_middle.symm

/-- `link` takes the node from `main`'s hands to the end of the queue, and leaves the
one in the worker's alone. -/
theorem Linked.link (h : Linked q [p] yours l) (hp : q.heap.load p = some ⟨t, 0⟩) :
    ∃ q', link q p = some q' ∧ Linked q' [] yours (l ++ [(p, t)]) ∧
      q'.enqueued = q.enqueued ++ [t] ∧ q'.dequeued = q.dequeued ∧ q'.executed = q.executed ∧
      q'.stop = q.stop ∧ q'.head ≠ 0 ∧ ∀ x ∈ yours, q'.heap.load x = q.heap.load x := by
  have hnew := h.ne_of_queued (.inl (List.mem_singleton_self p))
  have henq : q.enqueued ++ [t] = q.dequeued ++ (l ++ [(p, t)]).map Prod.snd := by
    rw [h.enqueued, List.append_assoc, List.map_append]
    rfl
  have howns : addrs (l ++ [(p, t)]) ++ [] ++ yours = addrs l ++ [p] ++ yours := by
    rw [List.append_nil, addrs_append]
    rfl
  by_cases hempty : q.tail = 0
  · have hnil := h.queued.tail_eq_zero.mp hempty
    subst hnil
    refine ⟨{ q with enqueued := q.enqueued ++ [t], head := p, tail := p }, ?_,
      ⟨Queued.push_nil hp, henq, ?_⟩, rfl, rfl, rfl, rfl, Heap.ne_null_of_load hp, fun _ _ => rfl⟩
    · simp only [TasksQueue.link, hp, Option.bind_eq_bind, Option.bind_some, hempty, ne_eq,
        not_true_eq_false, if_false]
    · exact howns.symm ▸ h.owns
  · have hne : l ≠ [] := fun hnil => hempty (h.queued.tail_eq_zero.mpr hnil)
    obtain ⟨c, hload, hpush⟩ := h.queued.push hne hp hnew
    have hhead : q.head ≠ 0 := fun hzero => hne (h.queued.head_eq_zero.mp hzero)
    have htail : ∀ x ∈ yours, x ≠ q.tail := fun x hx heq =>
      h.ne_of_queued (.inr hx) (heq ▸ h.queued.tail_mem hne)
    refine ⟨{ q with
        enqueued := q.enqueued ++ [t], heap := q.heap.set q.tail { c with next := p }, tail := p },
      ?_, ⟨hpush, henq, ?_⟩, rfl, rfl, rfl, rfl, hhead, fun x hx => ?_⟩
    · simp only [TasksQueue.link, hp, Option.bind_eq_bind, Option.bind_some, if_pos hempty,
        Heap.modify_eq hload]
    · exact howns.symm ▸ h.owns.set hload
    · exact Heap.load_set_of_ne (Heap.ne_null_of_load hload) (htail x hx)

/-- `dequeue` takes the first node into the worker's hands. -/
theorem Linked.dequeue (h : Linked q mine [] l) (hhead : q.head ≠ 0) :
    ∃ q' n l', dequeue q = some (q', q.head) ∧ Linked q' mine [q.head] l' ∧
      q'.heap = q.heap ∧ q.heap.load q.head = some n ∧ q'.dequeued = q.dequeued ++ [n.data] ∧
      q'.enqueued = q.enqueued ∧ q'.executed = q.executed ∧ q'.stop = q.stop := by
  cases l with
  | nil => exact absurd (h.queued.head_eq_zero.mpr rfl) hhead
  | cons e l =>
      obtain ⟨next, hload, hfirst, hpop⟩ := h.queued.pop
      have henq : q.enqueued = (q.dequeued ++ [e.2]) ++ l.map Prod.snd := by
        rw [h.enqueued, List.append_assoc]
        rfl
      have howns : Owns q.heap (addrs l ++ mine ++ [q.head]) := by
        refine h.owns.perm ?_
        rw [List.append_nil, addrs_cons, List.cons_append, hfirst]
        exact (List.perm_append_singleton _ _).symm
      refine ⟨{ q with
          head := next, dequeued := q.dequeued ++ [e.2], tail := if next = 0 then 0 else q.tail },
        ⟨e.2, next⟩, l, ?_, ⟨hpop, henq, howns⟩, rfl, hload, rfl, rfl, rfl, rfl⟩
      rw [TasksQueue.dequeue, if_pos hhead, hload]
      by_cases hnext : next = 0
      · simp only [Option.bind_eq_bind, Option.bind_some, hnext, if_true]
      · simp only [Option.bind_eq_bind, Option.bind_some, if_neg hnext]

/-- `free` gives the node in the worker's hands back. -/
theorem Linked.free (h : Linked q mine [x] l) (hx : q.heap.load x = some n) :
    freeTask q x = some { q with heap := q.heap.drop x } ∧
      Linked { q with heap := q.heap.drop x } mine [] l ∧
      ∀ p ∈ mine, (q.heap.drop x).load p = q.heap.load p := by
  have hperm : (addrs l ++ mine ++ [x]).Perm (x :: (addrs l ++ mine)) :=
    List.perm_append_singleton _ _
  have howns := h.owns.perm hperm
  have hnot := (List.nodup_cons.mp howns.nodup).1
  have hother : ∀ p ∈ addrs l ++ mine, (q.heap.drop x).load p = q.heap.load p :=
    fun p hp => Heap.load_drop_of_ne fun heq => hnot (heq ▸ hp)
  refine ⟨?_, ⟨?_, h.enqueued, ?_⟩, fun p hp => hother p (List.mem_append_right _ hp)⟩
  · rw [freeTask, Heap.free_eq hx]
    rfl
  · exact h.queued.congr fun p hp => hother p (List.mem_append_left _ hp)
  · rw [List.append_nil]
    exact howns.drop

end Queue

/-! ## The threads -/

section Threads
variable {alloc : TaskQueue τ → Ptr} {tasks : List τ} {q q' : TaskQueue τ}
  {km kw k : Point τ}

/-- What `main` does to the queue does not move the worker. -/
theorem WorkerAt.mono (h : WorkerAt q kw)
    (hload : ∀ x ∈ hand kw, q'.heap.load x = q.heap.load x)
    (hdeq : q'.dequeued = q.dequeued) (hexec : q'.executed = q.executed)
    (hhead : q.head ≠ 0 → q'.head ≠ 0)
    (hstop : q.stop = true → q'.stop = true ∧ q'.head = q.head) : WorkerAt q' kw := by
  cases kw with
  | lock | test | wait | relock => exact hdeq.trans (h.trans hexec.symm)
  | dequeue => exact ⟨hdeq.trans (h.1.trans hexec.symm), hhead h.2⟩
  | leave | returned =>
      obtain ⟨heq, hset, hempty⟩ := h
      exact ⟨hdeq.trans (heq.trans hexec.symm), (hstop hset).1, (hstop hset).2.trans hempty⟩
  | unlock task | execute task =>
      obtain ⟨n, hn, heq⟩ := h
      refine ⟨n, (hload task (List.mem_singleton_self task)).trans hn, ?_⟩
      rw [hdeq, hexec]
      exact heq
  | free task =>
      obtain ⟨heq, n, hn⟩ := h
      exact ⟨hdeq.trans (heq.trans hexec.symm), n,
        (hload task (List.mem_singleton_self task)).trans hn⟩
  | _ => exact h

/-- What the worker does to the queue does not move `main`. -/
theorem MainAt.mono (h : MainAt tasks q km)
    (hload : ∀ x ∈ hand km, q'.heap.load x = q.heap.load x)
    (henq : q'.enqueued = q.enqueued) (hstop : q'.stop = q.stop) : MainAt tasks q' km := by
  cases km with
  | enqueueLock p rest | link p rest =>
      obtain ⟨t, hp, heq, hset⟩ := h
      refine ⟨t, (hload p (List.mem_singleton_self p)).trans hp, ?_, hstop.trans hset⟩
      rw [henq]
      exact heq
  | enqueue rest | signal rest | enqueueUnlock rest | stopLock | stop | stopSignal | stopUnlock
  | join =>
      simp only [MainAt, henq, hstop] at h ⊢
      exact h
  | _ => exact h

/-- One step of `main`. -/
theorem main_goes (halloc : ∀ q : TaskQueue τ, q.heap.Fresh (alloc q)) (h : Joint tasks q km kw)
    (hgoes : Goes q q' k (next alloc km)) : Joint tasks q' k kw := by
  obtain ⟨hmain, hworker, l, hl⟩ := h
  cases km with
  | enqueue rest =>
      cases rest with
      | nil =>
          cases hgoes
          obtain ⟨heq, hset⟩ := hmain
          rw [List.append_nil] at heq
          exact ⟨⟨heq, hset⟩, hworker, l, hl⟩
      | cons t rest =>
          cases hgoes
          have hfresh := halloc q
          have hown : ∀ x ∈ hand kw, x ≠ alloc q := fun x hx heq =>
            hl.owns.not_mem hfresh.2 (heq ▸ List.mem_append_right _ hx)
          refine ⟨⟨t, Heap.load_set_self hfresh.1, hmain⟩, ?_, l, hl.newTask hfresh⟩
          exact hworker.mono (fun x hx => Heap.load_set_of_ne hfresh.1 (hown x hx)) rfl rfl id
            fun hset => ⟨hset, rfl⟩
  | enqueueLock p rest =>
      obtain ⟨rfl, rfl⟩ := hgoes
      exact ⟨hmain, hworker, l, hl⟩
  | link p rest =>
      obtain ⟨t, hp, heq, hset⟩ := hmain
      obtain ⟨q₁, hlink, hl₁, henq, hdeq, hexec, hstop, hhead, hload⟩ := hl.link hp
      obtain ⟨q₂, hq₂, hpair⟩ := Option.map_eq_some_iff.mp hgoes
      cases hlink.symm.trans hq₂
      cases hpair
      refine ⟨⟨?_, hstop.trans hset⟩, ?_, _, hl₁⟩
      · rw [henq, List.append_assoc]
        exact heq
      · refine hworker.mono hload hdeq hexec (fun _ => hhead) fun hset' => ?_
        cases hset.symm.trans hset'
  | signal rest =>
      obtain ⟨rfl, rfl⟩ := hgoes
      exact ⟨hmain, hworker, l, hl⟩
  | enqueueUnlock rest =>
      obtain ⟨rfl, rfl⟩ := hgoes
      exact ⟨hmain, hworker, l, hl⟩
  | stopLock =>
      obtain ⟨rfl, rfl⟩ := hgoes
      exact ⟨hmain, hworker, l, hl⟩
  | stop =>
      cases hgoes
      exact ⟨⟨hmain.1, rfl⟩, hworker.mono (fun _ _ => rfl) rfl rfl id fun _ => ⟨rfl, rfl⟩, l,
        hl.queued, hl.enqueued, hl.owns⟩
  | stopSignal =>
      obtain ⟨rfl, rfl⟩ := hgoes
      exact ⟨hmain, hworker, l, hl⟩
  | stopUnlock =>
      obtain ⟨rfl, rfl⟩ := hgoes
      exact ⟨hmain, hworker, l, hl⟩
  | join => exact hgoes.elim
  | _ => exact hmain.elim

/-- One step of the worker. -/
theorem worker_goes (h : Joint tasks q km kw) (hgoes : Goes q q' k (next alloc kw)) :
    Joint tasks q' km k := by
  obtain ⟨hmain, hworker, l, hl⟩ := h
  cases kw with
  | lock =>
      obtain ⟨rfl, rfl⟩ := hgoes
      exact ⟨hmain, hworker, l, hl⟩
  | test =>
      cases hgoes
      refine ⟨hmain, ?_, l, ?_⟩
      · split
        case isTrue => exact hworker
        case isFalse hbusy =>
          split
          case isTrue hleave => exact ⟨hworker, hleave⟩
          case isFalse hstay =>
            refine ⟨hworker, fun hempty => ?_⟩
            cases hset : q.stop with
            | false => exact hbusy ⟨hempty, hset⟩
            | true => exact hstay ⟨hset, hempty⟩
      · split
        · exact hl
        · split <;> exact hl
  | wait =>
      obtain ⟨rfl, rfl⟩ := hgoes
      exact ⟨hmain, hworker, l, hl⟩
  | relock =>
      obtain ⟨rfl, rfl⟩ := hgoes
      exact ⟨hmain, hworker, l, hl⟩
  | leave =>
      obtain ⟨rfl, rfl⟩ := hgoes
      exact ⟨hmain, hworker, l, hl⟩
  | returned => exact hgoes.elim
  | dequeue =>
      obtain ⟨hdone, hhead⟩ := hworker
      obtain ⟨q₁, n, l', hdeq, hl₁, hheap, hn, hdequeued, henq, hexec, hstop⟩ := hl.dequeue hhead
      obtain ⟨r, hr, hpair⟩ := Option.map_eq_some_iff.mp hgoes
      cases hdeq.symm.trans hr
      cases hpair
      refine ⟨hmain.mono (fun _ _ => hheap ▸ rfl) henq hstop, ⟨n, hheap ▸ hn, ?_⟩, l', hl₁⟩
      rw [hdequeued, hexec, hdone]
  | unlock task =>
      obtain ⟨rfl, rfl⟩ := hgoes
      exact ⟨hmain, hworker, l, hl⟩
  | execute task =>
      obtain ⟨n, hn, hdone⟩ := hworker
      have hexec : execute q task = some { q with executed := q.executed ++ [n.data] } := by
        rw [TasksQueue.execute, hn]
        rfl
      simp only [Goes, next, if_neg (Heap.ne_null_of_load hn), hexec, Option.map_some] at hgoes
      cases hgoes
      exact ⟨hmain.mono (fun _ _ => rfl) rfl rfl, ⟨hdone, n, hn⟩, l,
        hl.queued, hl.enqueued, hl.owns⟩
  | free task =>
      obtain ⟨hdone, n, hn⟩ := hworker
      obtain ⟨hfree, hl₁, hload⟩ := hl.free hn
      obtain ⟨q₁, hq₁, hpair⟩ := Option.map_eq_some_iff.mp hgoes
      cases hfree.symm.trans hq₁
      cases hpair
      exact ⟨hmain.mono hload rfl rfl, hdone, l, hl₁⟩
  | _ => exact hworker.elim

/-- No step uses a node that is not there. -/
theorem Joint.main_act (h : Joint tasks q km kw)
    {f : TaskQueue τ → Option (TaskQueue τ × Point τ)} (hf : next alloc km = .act f) :
    f q ≠ none := by
  obtain ⟨hmain, -, l, hl⟩ := h
  cases km with
  | enqueue rest => cases rest <;> cases hf <;> exact Option.some_ne_none _
  | link p rest =>
      cases hf
      obtain ⟨t, hp, -, -⟩ := hmain
      obtain ⟨q₁, hlink, -⟩ := hl.link hp
      dsimp only
      rw [hlink]
      exact Option.some_ne_none _
  | stop =>
      cases hf
      exact Option.some_ne_none _
  | enqueueLock | signal | enqueueUnlock | stopLock | stopSignal | stopUnlock | join => cases hf
  | _ => exact hmain.elim

theorem Joint.worker_act (h : Joint tasks q km kw)
    {f : TaskQueue τ → Option (TaskQueue τ × Point τ)} (hf : next alloc kw = .act f) :
    f q ≠ none := by
  obtain ⟨-, hworker, l, hl⟩ := h
  cases kw with
  | test =>
      cases hf
      exact Option.some_ne_none _
  | dequeue =>
      cases hf
      obtain ⟨q₁, n, l', hdeq, -⟩ := hl.dequeue hworker.2
      dsimp only
      rw [hdeq]
      exact Option.some_ne_none _
  | execute task =>
      cases hf
      obtain ⟨n, hn, -⟩ := hworker
      dsimp only
      rw [if_neg (Heap.ne_null_of_load hn), TasksQueue.execute, hn]
      exact Option.some_ne_none _
  | free task =>
      cases hf
      obtain ⟨-, n, hn⟩ := hworker
      dsimp only
      rw [(hl.free hn).1]
      exact Option.some_ne_none _
  | lock | wait | relock | leave | returned | unlock => cases hf
  | _ => exact hworker.elim

/-! ## The mutex and the condition variable -/

/-- Where the mutex is held. -/
def holds : Point τ → Bool
  | .link _ _ | .signal _ | .enqueueUnlock _ | .stop | .stopSignal | .stopUnlock => true
  | .test | .wait | .leave | .dequeue | .unlock _ => true
  | _ => false

def signals : Signals (TaskQueue τ) (Point τ) where
  ready q := q.head ≠ 0 ∨ q.stop = true
  checked
    | .wait => True
    | _ => False
  owes
    | .signal _ | .stopSignal => True
    | _ => False
  waiter
    | .lock | .test | .wait | .relock | .leave | .returned | .dequeue | .unlock _ | .execute _
    | .free _ => True
    | _ => False

theorem lockOk (k : Point τ) : LockOk holds k (next alloc k) := by
  cases k with
  | enqueue rest =>
      cases rest with
      | nil =>
          rintro q r ⟨⟩
          rfl
      | cons t rest =>
          rintro q r ⟨⟩
          rfl
  | link p rest =>
      intro q r hr
      obtain ⟨q', -, rfl⟩ := Option.map_eq_some_iff.mp hr
      rfl
  | stop =>
      rintro q r ⟨⟩
      rfl
  | test =>
      rintro q r ⟨⟩
      dsimp only
      split
      · rfl
      · split <;> rfl
  | dequeue =>
      intro q r hr
      obtain ⟨r', -, rfl⟩ := Option.map_eq_some_iff.mp hr
      rfl
  | execute task =>
      intro q r hr
      split at hr
      · cases hr
        rfl
      · obtain ⟨q', -, rfl⟩ := Option.map_eq_some_iff.mp hr
        rfl
  | free task =>
      intro q r hr
      obtain ⟨q', -, rfl⟩ := Option.map_eq_some_iff.mp hr
      rfl
  | signal | stopSignal | join | returned => rfl
  | _ => exact ⟨rfl, rfl⟩

/-- `dequeue` gives nobody anything to do. -/
theorem ready_of_dequeue {r : TaskQueue τ × Ptr} (h : dequeue q = some r)
    (hready : signals.ready r.1) : signals.ready q := by
  by_cases hhead : q.head = 0
  · rw [TasksQueue.dequeue, if_neg (not_not.mpr hhead)] at h
    cases h
    exact hready
  · exact .inl hhead

theorem signalOk (k : Point τ) : SignalOk signals holds k (next alloc k) := by
  cases k with
  | enqueue rest =>
      cases rest with
      | nil =>
          rintro q x k' ⟨⟩
          exact ⟨False.elim, False.elim, False.elim, .inl⟩
      | cons t rest =>
          rintro q x k' ⟨⟩
          exact ⟨False.elim, False.elim, False.elim, .inl⟩
  | link p rest =>
      intro q x k' hr
      obtain ⟨q', -, ⟨⟩⟩ := Option.map_eq_some_iff.mp hr
      exact ⟨False.elim, fun _ => trivial, False.elim, fun _ => .inr ⟨rfl, trivial⟩⟩
  | stop =>
      rintro q x k' ⟨⟩
      exact ⟨False.elim, False.elim, False.elim, fun _ => .inr ⟨rfl, trivial⟩⟩
  | test =>
      rintro q x k' ⟨⟩
      refine ⟨fun hchecked hready => ?_, False.elim, fun _ => trivial, .inl⟩
      split at hchecked
      case isTrue hidle =>
        rcases hready with hhead | hset
        · exact hhead hidle.1
        · exact Bool.false_ne_true (hidle.2.symm.trans hset)
      case isFalse => split at hchecked <;> exact hchecked
  | dequeue =>
      intro q x k' hr
      obtain ⟨r, hdeq, ⟨⟩⟩ := Option.map_eq_some_iff.mp hr
      exact ⟨False.elim, False.elim, fun _ => trivial,
        fun hready => .inl (ready_of_dequeue hdeq hready)⟩
  | execute task =>
      intro q x k' hr
      split at hr
      · cases hr
        exact ⟨False.elim, False.elim, fun _ => trivial, .inl⟩
      · obtain ⟨q', hexec, ⟨⟩⟩ := Option.map_eq_some_iff.mp hr
        obtain ⟨n, -, rfl⟩ := Option.map_eq_some_iff.mp hexec
        exact ⟨False.elim, False.elim, fun _ => trivial, .inl⟩
  | free task =>
      intro q x k' hr
      obtain ⟨q', hfree, ⟨⟩⟩ := Option.map_eq_some_iff.mp hr
      obtain ⟨heap, -, rfl⟩ := Option.map_eq_some_iff.mp hfree
      exact ⟨False.elim, False.elim, fun _ => trivial, .inl⟩
  | signal | stopSignal => exact ⟨id, False.elim⟩
  | wait => exact ⟨trivial, trivial, id, id⟩
  | join | returned => exact id
  | enqueueLock | stopLock => exact ⟨id, False.elim, False.elim⟩
  | enqueueUnlock | stopUnlock => exact ⟨id, False.elim, False.elim⟩
  | lock | relock | leave | unlock => exact ⟨id, False.elim, fun _ => trivial⟩

/-! ## What is left to do -/

/-- What is behind a point, with a wake-up for each notification. -/
def weight : Point τ → Nat
  | .enqueue rest => 14 * rest.length + 8
  | .enqueueLock _ rest => 14 * rest.length + 21
  | .link _ rest => 14 * rest.length + 20
  | .signal rest => 14 * rest.length + 13
  | .enqueueUnlock rest => 14 * rest.length + 9
  | .stopLock => 7
  | .stop => 6
  | .stopSignal => 5
  | .stopUnlock => 1
  | .join => 0
  | .lock | .relock => 3
  | .test => 2
  | .wait | .leave | .dequeue => 1
  | .returned => 0
  | .unlock _ => 6
  | .execute _ => 5
  | .free _ => 4

/-- Six steps for every task in the queue. -/
def size (q : TaskQueue τ) : Nat := 6 * (q.enqueued.length - q.dequeued.length)

theorem Linked.size {mine yours : List Ptr} {l : List (Ptr × τ)} (h : Linked q mine yours l) :
    size q = 6 * l.length := by
  rw [TasksQueue.size, h.enqueued, List.length_append, List.length_map, Nat.add_sub_cancel_left]

/-- Every step of `main` uses something up. -/
theorem main_spends (h : Joint tasks q km kw)
    (hgoes : Goes q q' k (next alloc km)) :
    size q' + weight k + fee 3 (next alloc km) < size q + weight km + refund 3 (next alloc km) := by
  obtain ⟨hmain, -, l, hl⟩ := h
  cases km with
  | enqueue rest =>
      cases rest with
      | nil =>
          cases hgoes
          exact Nat.lt_succ_self _
      | cons t rest =>
          cases hgoes
          exact Nat.lt_succ_self _
  | link p rest =>
      obtain ⟨t, hp, -⟩ := hmain
      obtain ⟨q₁, hlink, hl₁, -⟩ := hl.link hp
      obtain ⟨q₂, hq₂, hpair⟩ := Option.map_eq_some_iff.mp hgoes
      cases hlink.symm.trans hq₂
      cases hpair
      rw [hl.size, hl₁.size, List.length_append, List.length_singleton]
      simp only [weight, fee, refund, next]
      omega
  | stop =>
      cases hgoes
      exact Nat.lt_succ_self _
  | enqueueLock | signal | enqueueUnlock | stopLock | stopSignal | stopUnlock =>
      obtain ⟨rfl, rfl⟩ := hgoes
      simp only [weight, fee, refund, next]
      omega
  | join => exact hgoes.elim
  | _ => exact hmain.elim

/-- Every step of the worker uses something up. -/
theorem worker_spends (h : Joint tasks q km kw) (hgoes : Goes q q' k (next alloc kw)) :
    size q' + weight k + fee 3 (next alloc kw) < size q + weight kw + refund 3 (next alloc kw) := by
  obtain ⟨-, hworker, l, hl⟩ := h
  cases kw with
  | test =>
      cases hgoes
      simp only [fee, refund, next]
      refine Nat.add_lt_add_left ?_ _
      split
      · exact Nat.lt_succ_self 1
      · split <;> exact Nat.lt_succ_self 1
  | dequeue =>
      cases l with
      | nil => exact absurd (hl.queued.head_eq_zero.mpr rfl) hworker.2
      | cons e l =>
          have hlen := hl.size
          obtain ⟨q₁, n, l', hdeq, hl₁, -, -, hdequeued, henq, -⟩ := hl.dequeue hworker.2
          obtain ⟨r, hr, hpair⟩ := Option.map_eq_some_iff.mp hgoes
          cases hdeq.symm.trans hr
          cases hpair
          rw [List.length_cons] at hlen
          simp only [TasksQueue.size, henq, hdequeued, List.length_append, List.length_singleton,
            weight, fee, refund, next] at hlen ⊢
          omega
  | execute task =>
      obtain ⟨n, hn, -⟩ := hworker
      simp only [Goes, next, if_neg (Heap.ne_null_of_load hn)] at hgoes
      obtain ⟨q', hexec, ⟨⟩⟩ := Option.map_eq_some_iff.mp hgoes
      obtain ⟨n, -, rfl⟩ := Option.map_eq_some_iff.mp hexec
      exact Nat.lt_succ_self _
  | free task =>
      obtain ⟨q', hfree, ⟨⟩⟩ := Option.map_eq_some_iff.mp hgoes
      obtain ⟨heap, -, rfl⟩ := Option.map_eq_some_iff.mp hfree
      exact Nat.lt_succ_self _
  | lock | relock | wait | leave | unlock =>
      obtain ⟨rfl, rfl⟩ := hgoes
      simp only [weight, fee, refund, next]
      omega
  | returned => exact hgoes.elim
  | _ => exact hworker.elim

end Threads

/-! ## Runs -/

section Runs
variable {alloc : TaskQueue τ → Ptr} {tasks : List τ} {events : List (Event Thread)}
  {s : State Thread (TaskQueue τ) (Point τ)}

theorem start_sound (tasks : List τ) : Sound tasks (start tasks).shared (start tasks).pc :=
  ⟨⟨rfl, rfl⟩, rfl, [], queued_nil, rfl, owns_empty⟩

theorem sound_goes (halloc : ∀ q : TaskQueue τ, q.heap.Fresh (alloc q)) (q : TaskQueue τ)
    (pc : Thread → Point τ) (i : Thread) (q' : TaskQueue τ) (k : Point τ) (h : Sound tasks q pc)
    (hgoes : Goes q q' k (next alloc (pc i))) : Sound tasks q' (Function.update pc i k) := by
  cases i with
  | main => exact main_goes halloc h hgoes
  | worker => exact worker_goes h hgoes

theorem start_owned (tasks : List τ) : Owned holds (start tasks) := by
  refine ⟨fun i => ?_, fun i hi => absurd hi List.not_mem_nil⟩
  cases i <;> exact iff_of_false Bool.false_ne_true nofun

theorem start_awake (tasks : List τ) : Awake signals Thread.worker (start tasks) := by
  refine ⟨fun i hi => ?_, fun i hi => ?_, .inl rfl, fun i hi => absurd hi List.not_mem_nil,
    fun _ hne => absurd rfl hne⟩
  · cases i <;> exact hi.elim
  · cases i with
    | main => exact hi.elim
    | worker => rfl

theorem checked_holds (k : Point τ) (h : (signals (τ := τ)).checked k) : holds k = true := by
  cases k with
  | wait => rfl
  | _ => exact h.elim

/-- Every reachable state. -/
theorem reaches (halloc : ∀ q : TaskQueue τ, q.heap.Fresh (alloc q))
    (hrun : run (step (next alloc)) (start tasks) events = some s) :
    Sound tasks s.shared s.pc ∧ Owned holds s ∧ Awake signals Thread.worker s :=
  ⟨run_goes (sound_goes halloc) events (start_sound tasks) hrun,
    run_awake lockOk signalOk checked_holds events (start_owned tasks) (start_awake tasks) hrun⟩

theorem Sound.safe {q : TaskQueue τ} {pc : Thread → Point τ} (h : Sound tasks q pc) (i : Thread)
    {f : TaskQueue τ → Option (TaskQueue τ × Point τ)} (hf : next alloc (pc i) = .act f) :
    f q ≠ none := by
  cases i with
  | main => exact h.main_act hf
  | worker => exact h.worker_act hf

theorem sound_spends (q : TaskQueue τ) (pc : Thread → Point τ) (i : Thread) (q' : TaskQueue τ)
    (k : Point τ) (h : Sound tasks q pc) (hgoes : Goes q q' k (next alloc (pc i))) :
    size q' + weight k + fee 3 (next alloc (pc i)) <
      size q + weight (pc i) + refund 3 (next alloc (pc i)) := by
  cases i with
  | main => exact main_spends h hgoes
  | worker => exact worker_spends h hgoes

theorem MainAt.enqueued {q : TaskQueue τ} {k : Point τ} (h : MainAt tasks q k) :
    ∃ rest, q.enqueued ++ rest = tasks ∧ (q.stop = true → rest = []) := by
  cases k with
  | enqueue rest | signal rest | enqueueUnlock rest =>
      exact ⟨rest, h.1, fun hset => nomatch h.2.symm.trans hset⟩
  | enqueueLock p rest | link p rest =>
      obtain ⟨t, -, heq, hset⟩ := h
      exact ⟨t :: rest, heq, fun hset' => nomatch hset.symm.trans hset'⟩
  | stopLock | stop | stopSignal | stopUnlock | join =>
      exact ⟨[], (List.append_nil _).trans h.1, fun _ => rfl⟩
  | _ => exact h.elim

theorem WorkerAt.dequeued {q : TaskQueue τ} {k : Point τ} (h : WorkerAt q k) :
    ∃ rest, q.dequeued = q.executed ++ rest := by
  cases k with
  | lock | test | wait | relock => exact ⟨[], h.trans (List.append_nil _).symm⟩
  | dequeue | leave | returned | free => exact ⟨[], h.1.trans (List.append_nil _).symm⟩
  | unlock task | execute task =>
      obtain ⟨n, -, heq⟩ := h
      exact ⟨[n.data], heq⟩
  | _ => exact h.elim

/-- The worker has left behind an empty queue, all tasks executed. -/
theorem Sound.returned {q : TaskQueue τ} {pc : Thread → Point τ} (h : Sound tasks q pc)
    (hpc : pc .worker = .returned) : q.executed = tasks ∧ ∃ l, l = [] ∧
      Linked q (hand (pc .main)) [] l := by
  obtain ⟨hmain, hworker, l, hl⟩ := h
  rw [hpc] at hworker hl
  obtain ⟨hdone, hset, hempty⟩ := hworker
  have hnil := hl.queued.head_eq_zero.mp hempty
  obtain ⟨rest, hrest, hall⟩ := hmain.enqueued
  refine ⟨?_, l, hnil, hl⟩
  have henq := hl.enqueued
  rw [hnil, List.map_nil, List.append_nil] at henq
  rw [hall hset, List.append_nil] at hrest
  exact hdone.symm.trans (henq.symm.trans hrest)

theorem start_unspent (tasks : List τ) :
    unspent size weight 3 (start tasks) = 14 * (tasks.length + 1) := by
  have hsum : ∑ i, weight ((start tasks).pc i) = (14 * tasks.length + 8) + 3 :=
    Finset.sum_pair nofun
  rw [unspent, hsum]
  show 0 + (14 * tasks.length + 8 + 3) + 3 = _
  omega

theorem next_ne_await (k : Point τ) (f : TaskQueue τ → Option (TaskQueue τ × Point τ)) :
    next alloc k ≠ .await f := by
  cases k with
  | enqueue rest => cases rest <;> nofun
  | _ => nofun

theorem MainAt.join {q : TaskQueue τ} {k : Point τ} (h : MainAt tasks q k)
    (hret : next alloc k = .ret) : k = .join := by
  cases k with
  | join => rfl
  | enqueue rest => cases rest <;> cases hret
  | enqueueLock | link | signal | enqueueUnlock | stopLock | stop | stopSignal | stopUnlock =>
      cases hret
  | _ => exact h.elim

theorem WorkerAt.left {q : TaskQueue τ} {k : Point τ} (h : WorkerAt q k)
    (hret : next alloc k = .ret) : k = .returned := by
  cases k with
  | returned => rfl
  | lock | test | wait | relock | leave | dequeue | unlock | execute | free => cases hret
  | _ => exact h.elim

/-- **The queue hands on every task once, in order.**  In every interleaving, wake-ups
that nobody asked for included, and whatever addresses `malloc` picks: the worker has
executed the first of the tasks, all of them once it has left, and no step uses a node
that is not there. -/
theorem tasks_in_order (alloc : TaskQueue τ → Ptr)
    (halloc : ∀ q : TaskQueue τ, q.heap.Fresh (alloc q)) (tasks : List τ)
    (events : List (Event Thread)) {s : State Thread (TaskQueue τ) (Point τ)}
    (hrun : run (step (next alloc)) (start tasks) events = some s) :
    (∃ rest, tasks = s.shared.executed ++ rest) ∧
      (s.pc .worker = .returned → s.shared.executed = tasks) ∧
      ∀ i f, next alloc (s.pc i) = .act f → f s.shared ≠ none := by
  obtain ⟨hsound, -, -⟩ := reaches halloc hrun
  refine ⟨?_, fun hpc => (hsound.returned hpc).1, fun i f hf => hsound.safe i hf⟩
  obtain ⟨l, hl⟩ := hsound.linked
  obtain ⟨rest, hrest, -⟩ := hsound.main.enqueued
  obtain ⟨rest', hrest'⟩ := hsound.worker.dequeued
  refine ⟨rest' ++ (l.map Prod.snd ++ rest), ?_⟩
  rw [← hrest, hl.enqueued, hrest', List.append_assoc, List.append_assoc]

/-- **The queue drains, and the worker leaves.**  A run has at most fourteen steps for
each task and each end, and four more for every wake-up that nobody asked for; and when no
thread can move any more, all tasks have been executed, the worker has returned, `main` is at
`pthread_join`, and no node is left. -/
theorem tasks_done (alloc : TaskQueue τ → Ptr)
    (halloc : ∀ q : TaskQueue τ, q.heap.Fresh (alloc q)) (tasks : List τ)
    (events : List (Event Thread)) {s : State Thread (TaskQueue τ) (Point τ)}
    (hrun : run (step (next alloc)) (start tasks) events = some s) :
    events.length ≤ 14 * (tasks.length + 1) + 4 * events.countP Event.spurious ∧
      (Quiet (next alloc) s → s.shared.executed = tasks ∧ s.pc .worker = .returned ∧
        s.pc .main = .join ∧ ∀ p, s.shared.heap.load p = none) := by
  constructor
  · rw [← start_unspent]
    refine run_length_le (I := fun s => Sound tasks s.shared s.pc ∧ Owned holds s ∧
      Awake signals Thread.worker s) (fun s i s' hs hi hmoves => ⟨?_, ?_, ?_⟩)
      (fun s i hs hi => ⟨hs.1, hs.2.1.wake i, hs.2.2.wake hi⟩)
      (fun s i k hs hi hprog => hs.2.2.nobody signalOk hi hprog)
      (fun s i q k hs hgoes => sound_spends _ _ i q k hs.1 hgoes) events
      ⟨start_sound tasks, start_owned tasks, start_awake tasks⟩ hrun
    · obtain ⟨k, hpc, hgoes⟩ := hmoves.goes
      rw [hpc]
      exact sound_goes halloc _ _ i _ k hs.1 hgoes
    · exact hs.2.1.moves lockOk hi hmoves
    · exact hs.2.2.moves signalOk checked_holds hs.2.1 hi hmoves
  · intro hquiet
    obtain ⟨hsound, howned, hawake⟩ := reaches halloc hrun
    have hsafe (i : Thread) (f : TaskQueue τ → Option (TaskQueue τ × Point τ))
        (hf : next alloc (s.pc i) = .act f) : f s.shared ≠ none := hsound.safe i hf
    have hcases := quiet_cases lockOk howned hsafe hquiet
    have hjoin : s.pc .main = .join := by
      rcases hcases .main with hmem | hret | ⟨f, hf, -⟩
      · rcases hawake.asleep with hnil | hone
        · exact absurd (hnil ▸ hmem) List.not_mem_nil
        · rw [hone] at hmem
          cases List.mem_singleton.mp hmem
      · exact hsound.main.join hret
      · exact absurd hf (next_ne_await _ f)
    have hreturned : s.pc .worker = .returned := by
      rcases hcases .worker with hmem | hret | ⟨f, hf, -⟩
      · -- `main` has set `stop`, and what it owed then it has given
        have hmain := hsound.main
        rw [hjoin] at hmain
        exact absurd (.inr hmain.2) (quiet_unready lockOk signalOk howned hawake hsafe
          (fun k f hf => absurd hf (next_ne_await k f)) hquiet hmem)
      · exact hsound.worker.left hret
      · exact absurd hf (next_ne_await _ f)
    obtain ⟨hall, l, rfl, hl⟩ := hsound.returned hreturned
    refine ⟨hall, hreturned, hjoin, fun p => ?_⟩
    rw [hjoin] at hl
    exact not_not.mp fun hp => List.not_mem_nil ((hl.owns.live p).mp hp)

/-- An address above all nodes that are there, another one each time. -/
def allocAbove (q : TaskQueue τ) : Ptr := above q.heap + q.enqueued.length

theorem fresh_allocAbove (q : TaskQueue τ) : q.heap.Fresh (allocAbove q) :=
  fresh_of_above_le (Nat.le_add_right _ _)

/-- One task, for which the worker has to be woken. -/
def oneTask : List (Event Thread) :=
  let worker (n : Nat) : List (Event Thread) := List.replicate n (.run .worker none)
  let main (n : Nat) : List (Event Thread) := List.replicate n (.run .main none)
  worker 3 ++ main 3 ++ [.run .main (some .worker)] ++ main 1 ++ worker 6 ++ main 5 ++ worker 3

theorem tasks_in_order_oneTask :
    ∃ s, run (step (next allocAbove)) (start [7]) oneTask = some s ∧ s.shared.executed = [7] := by
  obtain ⟨s, hs⟩ : ∃ s, run (step (next allocAbove)) (start [7]) oneTask = some s :=
    Option.isSome_iff_exists.mp (by decide +kernel)
  have hpc : (run (step (next allocAbove)) (start [7]) oneTask).map (fun s => s.pc .worker) =
      some .returned := by
    rfl
  rw [hs] at hpc
  obtain ⟨-, hreturned, -⟩ := tasks_in_order allocAbove fresh_allocAbove [7] oneTask hs
  exact ⟨s, hs, hreturned (Option.some.inj hpc)⟩

theorem tasks_done_oneTask :
    ∃ s, run (step (next allocAbove)) (start [7]) oneTask = some s ∧ s.shared.executed = [7] ∧
      ∀ p, s.shared.heap.load p = none := by
  obtain ⟨s, hs⟩ : ∃ s, run (step (next allocAbove)) (start [7]) oneTask = some s :=
    Option.isSome_iff_exists.mp (by decide +kernel)
  have hpc : (run (step (next allocAbove)) (start [7]) oneTask).map
      (fun s => (s.pc .main, s.pc .worker)) = some (.join, .returned) := by
    rfl
  rw [hs] at hpc
  obtain ⟨hmain, hworker⟩ := Prod.mk.inj (Option.some.inj hpc)
  have hquiet : Quiet (next allocAbove) s := by
    refine quiet_of_ret fun i => ?_
    cases i with
    | main => rw [hmain]; rfl
    | worker => rw [hworker]; rfl
  obtain ⟨hall, -, -, hfreed⟩ := (tasks_done allocAbove fresh_allocAbove [7] oneTask hs).2 hquiet
  exact ⟨s, hs, hall, hfreed⟩

end Runs

end CKernel.Conc.TasksQueue
