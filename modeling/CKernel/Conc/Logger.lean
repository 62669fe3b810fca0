/-
# `CKernel.Conc.Logger` — the queue and the worker of `logger.h`

`log_queue` is one mutex around a queue and a flag; a step of the model is one
section under that mutex, or under the mutex of the sinks.  Producers, the worker
and the thread that shuts down take their steps in any order.  A `pop` whose wait
condition fails leaves everything as it is and may be tried again, which is all a
wake-up, real or spurious, can do.

Beside the state the model keeps what happened: the messages accepted, popped, and
delivered, the last with the number of sinks registered at the time.

    one section keeps what was accepted in order                 (`step_inv`)
    nothing is accepted once the worker has left                 (`step_left`)
    no accepted line is lost, doubled or moved in any run         (`log_lines_exact`)
-/
import CKernel.Lib.Run

namespace CKernel.Conc

open Run

/-! ## The code -/

/-- The fields of `log_queue` under its mutex. -/
structure LogQueue where
  queue : List String
  isShutdown : Bool
  deriving DecidableEq, Repr

namespace LogQueue

/-- `push(msg)`, with what it returns. -/
def push (q : LogQueue) (msg : String) : LogQueue × Bool :=
  if q.isShutdown then (q, false) else ({ q with queue := q.queue ++ [msg] }, true)

inductive Popped where
  /-- `_cond_var.wait`: the queue is empty and not shut down. -/
  | waits
  /-- `return false` -/
  | closed
  | got (msg : String) (q : LogQueue)
  deriving DecidableEq, Repr

/-- `pop(msg)`, from the test of the wait condition on. -/
def pop (q : LogQueue) : Popped :=
  match q.queue with
  | [] => if q.isShutdown then .closed else .waits
  | msg :: rest => .got msg { q with queue := rest }

def shutdown (q : LogQueue) : LogQueue := { q with isShutdown := true }

end LogQueue

/-- Where `process_queue` is: at `pop`, with a message in hand, or left. -/
inductive Worker where
  | popping
  | holding (msg : String)
  | finished
  deriving DecidableEq, Repr

/-- The logger.  A sink is what was written to it, `none` a null pointer. -/
structure Logger where
  lqueue : LogQueue
  worker : Worker
  sinks : List (Option (List String))
  accepted : List String
  popped : List String
  delivered : List (String × Nat)
  deriving DecidableEq, Repr

namespace Logger

def make : Logger := ⟨⟨[], false⟩, .popping, [], [], [], []⟩

/-- `_lqueue.push(msg)` by any producer. -/
def push (s : Logger) (msg : String) : Logger :=
  let (q, ok) := s.lqueue.push msg
  { s with lqueue := q, accepted := if ok then s.accepted ++ [msg] else s.accepted }

/-- `_lqueue.pop(msg)` by the worker. -/
def pop (s : Logger) : Logger :=
  match s.lqueue.pop with
  | .waits => s
  | .closed => { s with worker := .finished }
  | .got msg q => { s with lqueue := q, worker := .holding msg, popped := s.popped ++ [msg] }

/-- The body of the loop in `process_queue`. -/
def deliver (s : Logger) (msg : String) : Logger :=
  { s with
    worker := .popping
    sinks := s.sinks.map fun sink => sink.map fun written => written ++ [msg]
    delivered := s.delivered ++ [(msg, s.sinks.length)] }

/-- `add_sink(sink)`; `valid` is false for a null pointer. -/
def addSink (s : Logger) (valid : Bool) : Logger :=
  { s with sinks := s.sinks ++ [if valid then some [] else none] }

/-! ## Interleavings -/

inductive Step where
  | push (producer : Nat) (msg : String)
  | pop
  | deliver
  | addSink (valid : Bool)
  | shutdown
  deriving DecidableEq, Repr

/-- One section, if its thread can enter it. -/
def step (s : Logger) : Step → Option Logger
  | .push _ msg => some (s.push msg)
  | .pop => if s.worker = .popping then some s.pop else none
  | .deliver =>
      match s.worker with
      | .holding msg => some (s.deliver msg)
      | _ => none
  | .addSink valid => some (s.addSink valid)
  | .shutdown => some { s with lqueue := s.lqueue.shutdown }

/-! ## What the results say -/

/-- The message in the worker's hand. -/
def held : Worker → List String
  | .popping => []
  | .holding msg => [msg]
  | .finished => []

/-- What was delivered while sink `j` was registered. -/
def toSink (delivered : List (String × Nat)) (j : Nat) : List String :=
  (delivered.filter fun d => j < d.2).map Prod.fst

/-- Every message is in one place, in order: delivered, in the worker's hand, or in
the queue; and the sinks have what was delivered since they were registered. -/
structure Exact (s : Logger) : Prop where
  order : s.popped ++ s.lqueue.queue = s.accepted
  delivered : s.delivered.map Prod.fst ++ held s.worker = s.popped
  written : ∀ j written, s.sinks[j]? = some (some written) → written = toSink s.delivered j

/-! ## One section -/

structure Inv (s : Logger) : Prop extends Exact s where
  counts : ∀ d ∈ s.delivered, d.2 ≤ s.sinks.length
  left : s.worker = .finished → s.lqueue.queue = [] ∧ s.lqueue.isShutdown = true

variable {s s' : Logger} {msg : String}

theorem make_inv : Inv make := by
  refine ⟨⟨rfl, rfl, fun j written h => ?_⟩, fun d hd => ?_, fun h => ?_⟩
  · cases h
  · cases hd
  · cases h

theorem push_inv (h : Inv s) (msg : String) : Inv (s.push msg) := by
  rw [push, LogQueue.push]
  cases hshut : s.lqueue.isShutdown with
  | true => exact h
  | false =>
      refine ⟨⟨?_, h.delivered, h.written⟩, h.counts, fun hleft => ?_⟩
      · show s.popped ++ (s.lqueue.queue ++ [msg]) = s.accepted ++ [msg]
        rw [← List.append_assoc, h.order]
      · have hshut' := (h.left hleft).2
        rw [hshut] at hshut'
        cases hshut'

theorem pop_inv (h : Inv s) (hworker : s.worker = .popping) : Inv s.pop := by
  have hdelivered := h.delivered
  rw [hworker, held, List.append_nil] at hdelivered
  rw [pop, LogQueue.pop]
  cases hqueue : s.lqueue.queue with
  | nil =>
      cases hshut : s.lqueue.isShutdown with
      | false => exact h
      | true =>
          refine ⟨⟨h.order, ?_, h.written⟩, h.counts, fun _ => ⟨hqueue, hshut⟩⟩
          exact (List.append_nil _).trans hdelivered
  | cons msg rest =>
      refine ⟨⟨?_, ?_, h.written⟩, h.counts, fun hleft => ?_⟩
      · show s.popped ++ [msg] ++ rest = s.accepted
        rw [← h.order, hqueue, List.append_assoc, List.singleton_append]
      · show s.delivered.map Prod.fst ++ [msg] = s.popped ++ [msg]
        rw [hdelivered]
      · cases hleft

theorem toSink_append (delivered : List (String × Nat)) (j n : Nat) (msg : String) :
    toSink (delivered ++ [(msg, n)]) j =
      toSink delivered j ++ if j < n then [msg] else [] := by
  by_cases hj : j < n
  · simp [toSink, hj]
  · simp [toSink, hj]

theorem deliver_inv (h : Inv s) (hworker : s.worker = .holding msg) : Inv (s.deliver msg) := by
  have hdelivered := h.delivered
  rw [hworker, held] at hdelivered
  refine ⟨⟨h.order, ?_, fun j written hj => ?_⟩, fun d hd => ?_, fun hleft => ?_⟩
  · rw [deliver, List.map_append, held, List.append_nil]
    exact hdelivered
  · rw [deliver, List.getElem?_map] at hj
    obtain ⟨sink, hsink, hj⟩ := Option.map_eq_some_iff.mp hj
    obtain ⟨before, rfl, rfl⟩ := Option.map_eq_some_iff.mp hj
    obtain ⟨hlt, -⟩ := List.getElem?_eq_some_iff.mp hsink
    rw [deliver, toSink_append, if_pos hlt, h.written j before hsink]
  · rw [deliver, List.length_map]
    rcases List.mem_append.mp hd with hd | hd
    · exact h.counts d hd
    · rw [List.mem_singleton.mp hd]
  · cases hleft

theorem addSink_inv (h : Inv s) (valid : Bool) : Inv (s.addSink valid) := by
  refine ⟨⟨h.order, h.delivered, fun j written hj => ?_⟩, fun d hd => ?_, h.left⟩
  · rw [addSink, List.getElem?_append] at hj
    split at hj
    case isTrue hlt => exact h.written j written hj
    case isFalse hge =>
      -- nothing was delivered to a place where there was no sink yet
      have hnone : toSink s.delivered j = [] := by
        rw [toSink, List.filter_eq_nil_iff.mpr]
        · rfl
        · intro d hd hlt
          have hle := h.counts d hd
          have hlt' : j < d.2 := of_decide_eq_true hlt
          omega
      have hnew := List.mem_singleton.mp (List.mem_of_getElem? hj)
      cases valid with
      | true => exact (Option.some.inj hnew).trans hnone.symm
      | false => cases hnew
  · rw [addSink, List.length_append]
    exact Nat.le_trans (h.counts d hd) (Nat.le_add_right _ _)

theorem shutdown_inv (h : Inv s) : Inv { s with lqueue := s.lqueue.shutdown } :=
  ⟨⟨h.order, h.delivered, h.written⟩, h.counts, fun hleft => ⟨(h.left hleft).1, rfl⟩⟩

theorem step_inv (s : Logger) (op : Step) (s' : Logger) (h : Inv s) (hs : step s op = some s') :
    Inv s' := by
  cases op with
  | push producer msg =>
      cases hs
      exact push_inv h msg
  | pop =>
      rw [step] at hs
      split at hs
      case isTrue hworker =>
        cases hs
        exact pop_inv h hworker
      case isFalse => cases hs
  | deliver =>
      rw [step] at hs
      cases hworker : s.worker with
      | holding msg =>
          rw [hworker] at hs
          cases hs
          exact deliver_inv h hworker
      | popping =>
          rw [hworker] at hs
          cases hs
      | finished =>
          rw [hworker] at hs
          cases hs
  | addSink valid =>
      cases hs
      exact addSink_inv h valid
  | shutdown =>
      cases hs
      exact shutdown_inv h

/-! ## After the worker has left -/

/-- The worker has left, and so nothing more is accepted. -/
structure Left (accepted : List String) (s : Logger) : Prop where
  worker : s.worker = .finished
  shut : s.lqueue.isShutdown = true
  accepted : s.accepted = accepted

theorem step_left {accepted : List String} (s : Logger) (op : Step) (s' : Logger)
    (h : Left accepted s) (hs : step s op = some s') : Left accepted s' := by
  obtain ⟨hworker, hshut, haccepted⟩ := h
  cases op with
  | push producer msg =>
      cases hs
      rw [push, LogQueue.push, if_pos hshut]
      exact ⟨hworker, hshut, haccepted⟩
  | pop =>
      rw [step, hworker, if_neg (by decide)] at hs
      cases hs
  | deliver =>
      rw [step, hworker] at hs
      cases hs
  | addSink valid =>
      cases hs
      exact ⟨hworker, hshut, haccepted⟩
  | shutdown =>
      cases hs
      exact ⟨hworker, rfl, haccepted⟩

/-! ## Runs -/

theorem run_inv {ops : List Step} (h : run step make ops = some s) : Inv s :=
  run_keeps step_inv ops make_inv h

theorem pop_closed {q : LogQueue} (h : q.pop = .closed) : q.queue = [] ∧ q.isShutdown = true := by
  rw [LogQueue.pop] at h
  cases hqueue : q.queue with
  | nil =>
      cases hshut : q.isShutdown with
      | true => exact ⟨rfl, rfl⟩
      | false =>
          rw [hqueue, hshut] at h
          cases h
  | cons msg rest =>
      rw [hqueue] at h
      cases h

/-- In every interleaving the messages popped and those queued are, in order, those
accepted; `pop` returns false only on an empty queue that is shut down; and once it
has, whatever is accepted by any later time was popped before, and written to the
sinks registered when it was. -/
theorem log_lines_exact (ops : List Step) (s : Logger) (h : run step make ops = some s) :
    Exact s ∧ (s.lqueue.pop = .closed → s.lqueue.queue = [] ∧ s.lqueue.isShutdown = true) ∧
      (s.worker = .finished → ∀ ops' s', run step s ops' = some s' →
        s'.accepted = s.popped ∧ s.delivered.map Prod.fst = s.popped) := by
  have hinv := run_inv h
  refine ⟨hinv.toExact, pop_closed, fun hleft ops' s' h' => ?_⟩
  obtain ⟨hqueue, hshut⟩ := hinv.left hleft
  have haccepted : s.accepted = s.popped := by
    rw [← hinv.order, hqueue, List.append_nil]
  refine ⟨?_, ?_⟩
  · have hend := run_keeps step_left ops' (⟨hleft, hshut, rfl⟩ : Left s.accepted s) h'
    exact hend.accepted.trans haccepted
  · have hdelivered := hinv.delivered
    rwa [hleft, held, List.append_nil] at hdelivered

/-- Two producers, a sink registered between two deliveries, a push after shutdown. -/
def twoProducers : List Step :=
  [.addSink true, .push 0 "a", .push 1 "b", .pop, .deliver, .addSink true, .pop, .shutdown,
    .push 0 "c", .deliver, .pop]

theorem log_lines_exact_two :
    ∃ s, run step make twoProducers = some s ∧ s.worker = .finished ∧
      s.sinks = [some ["a", "b"], some ["b"]] ∧ Exact s ∧ s.accepted = s.popped := by
  obtain ⟨s, hs⟩ : ∃ s, run step make twoProducers = some s := ⟨_, rfl⟩
  obtain ⟨hexact, -, hleft⟩ := log_lines_exact twoProducers s hs
  have hfinal : run step make twoProducers = some ⟨⟨[], true⟩, .finished,
      [some ["a", "b"], some ["b"]], ["a", "b"], ["a", "b"], [("a", 1), ("b", 2)]⟩ := by rfl
  obtain rfl := Option.some.inj (hs.symm.trans hfinal)
  exact ⟨_, hs, rfl, rfl, hexact, (hleft rfl [] _ rfl).1⟩

end Logger

end CKernel.Conc
