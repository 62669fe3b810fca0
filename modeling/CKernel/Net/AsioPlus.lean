/-
# `CKernel.Net.AsioPlus` — the echo session of `base_asio_plus/session.cpp`

`start` reads once.  `handle_read` hands what came to `send`, which queues a node and
starts a write of it, and starts a write of its own besides; `handle_write` pops the
queue after either.  No other read follows.

    a read leaves two writes for one node                     (`handleRead_start`)
    the queue is in order as long as nothing was read         (`balanced_iff`)
-/
import CKernel.Lib.Run
import CKernel.Net.AsyncWrite

namespace CKernel.Net.AsioPlus

open Run

/-! ## The code -/

/-- `MAX_LENGTH` -/
def maxLength : Nat := 1024

structure MsgNode where
  curLen : Nat
  maxLen : Nat
  data : List UInt8
  deriving DecidableEq, Repr

/-- `msg_node(msg, max_len)` -/
def msgNode (msg : List UInt8) : MsgNode := ⟨0, msg.length, msg⟩

/-- What a write of the session reads from. -/
inductive Buffer where
  | node (node : MsgNode)
  | data
  deriving DecidableEq, Repr

/-- A session: whether a read is under way, and what has been read.  `poppedEmpty`
records a `pop` of an empty queue, after which nothing is defined. -/
structure Session where
  sendQueue : List MsgNode
  sock : Socket Buffer
  reading : Bool
  received : List UInt8
  poppedEmpty : Bool
  deriving DecidableEq, Repr

namespace Session

/-- `start()` of a new session. -/
def start : Session := ⟨[], Socket.make, true, [], false⟩

def async (s : Session) (buffer : Buffer) (bytes : List UInt8) : Session :=
  { s with sock := s.sock.asyncWrite buffer bytes }

/-- `send(msg, max_len)` -/
def send (s : Session) (msg : List UInt8) : Session :=
  let pending := s.sendQueue ≠ []
  let node := msgNode msg
  let s := { s with sendQueue := s.sendQueue ++ [node] }
  if pending then s else s.async (.node node) node.data

/-- `handle_read(ec, bytes_transfered)` without an error; `bytes` are now in `_data`,
where no read overwrites them. -/
def handleRead (s : Session) (bytes : List UInt8) : Session :=
  let s := { s with reading := false, received := s.received ++ bytes }
  (s.send bytes).async .data bytes

/-- `handle_write(ec)` without an error. -/
def handleWrite (s : Session) : Session :=
  match s.sendQueue with
  | [] => { s with poppedEmpty := true }
  | _ :: rest =>
      let s := { s with sendQueue := rest }
      match rest with
      | [] => s
      | nextNode :: _ => s.async (.node nextNode) nextNode.data

/-! ## Runs -/

/-- The read completes with these bytes; the `i`-th write writes `n` more of its. -/
inductive Op where
  | read (bytes : List UInt8)
  | write (i n : Nat)
  deriving DecidableEq, Repr

/-- `none` for what cannot happen, and where nothing is defined any more. -/
def step (s : Session) : Op → Option Session
  | .read bytes =>
      if s.poppedEmpty = false ∧ s.reading ∧ bytes ≠ [] ∧ bytes.length ≤ maxLength then
        some (s.handleRead bytes)
      else none
  | .write i n => do
      if s.poppedEmpty then none
      else
        let (sock, done) ← s.sock.write i n
        let s := { s with sock }
        some (if done then s.handleWrite else s)

/-! ## What the results say -/

/-- One write for a queue that is not empty, none for one that is; no `pop` of an empty
queue; and the bytes written are a prefix of those read. -/
structure Balanced (s : Session) : Prop where
  outstanding : s.sock.inFlight.length = if s.sendQueue = [] then 0 else 1
  pops : s.poppedEmpty = false
  isPrefix : s.sock.accepted <+: s.received

def Op.isRead : Op → Bool
  | .read _ => true
  | .write _ _ => false

variable {s : Session} {bytes : List UInt8}

/-! ## A read -/

theorem balanced_start : Balanced start := ⟨rfl, rfl, List.prefix_rfl⟩

/-- The node is queued once and written twice. -/
theorem handleRead_start (bytes : List UInt8) :
    (start.handleRead bytes).sendQueue = [msgNode bytes] ∧
      (start.handleRead bytes).sock.inFlight =
        [⟨.node (msgNode bytes), bytes⟩, ⟨.data, bytes⟩] :=
  ⟨rfl, rfl⟩

theorem not_balanced_handleRead (bytes : List UInt8) : ¬ Balanced (start.handleRead bytes) := by
  intro h
  have houtstanding := h.outstanding
  rw [(handleRead_start bytes).1, (handleRead_start bytes).2] at houtstanding
  cases houtstanding

/-- Nothing but a read happens first. -/
theorem step_start {op : Op} (h : step start op = some s) :
    op.isRead = true ∧ ∃ bytes, s = start.handleRead bytes := by
  cases op with
  | read bytes =>
      rw [step] at h
      split at h
      · cases h
        exact ⟨rfl, bytes, rfl⟩
      · cases h
  | write i n =>
      rw [step, Socket.write_idle rfl] at h
      cases h

/-- In every run: the queue is in order in all states if and only if nothing was read. -/
theorem balanced_iff (ops : List Op) (s : Session) (hrun : run step start ops = some s) :
    (∀ n s', run step start (ops.take n) = some s' → Balanced s') ↔
      ∀ op ∈ ops, op.isRead = false := by
  cases ops with
  | nil =>
      refine ⟨fun _ op hop => absurd hop List.not_mem_nil, fun _ n s' hs' => ?_⟩
      rw [List.take_nil] at hs'
      cases hs'
      exact balanced_start
  | cons op ops =>
      obtain ⟨s₁, hs₁, -⟩ := Option.bind_eq_some_iff.mp hrun
      obtain ⟨hread, bytes, rfl⟩ := step_start hs₁
      constructor
      · intro hall
        have hfirst : run step start ((op :: ops).take 1) = some (start.handleRead bytes) := by
          rw [List.take_succ_cons, List.take_zero, run, hs₁]
          rfl
        exact absurd (hall 1 _ hfirst) (not_balanced_handleRead bytes)
      · intro hnone
        rw [hnone op List.mem_cons_self] at hread
        cases hread

/-- Both writes of one byte complete; the second pops an empty queue. -/
theorem balanced_iff_echo :
    ¬ ∀ n s', run step start (([.read [65], .write 0 1, .write 0 1] : List Op).take n) = some s' →
      Balanced s' := by
  have hrun : (run step start [.read [65], .write 0 1, .write 0 1]).isSome = true := by decide
  intro hall
  have hnone := (balanced_iff [.read [65], .write 0 1, .write 0 1] _
    (Option.some_get hrun).symm).mp hall
  exact absurd (hnone (.read [65]) List.mem_cons_self) (by decide)

/-- One byte comes, both writes of it complete: it is written twice, and an empty queue
is popped. -/
theorem echo_unbalanced :
    ¬ ∀ (ops : List Op) (s : Session), run step start ops = some s →
      ∀ n s', run step start (ops.take n) = some s' → Balanced s' := by
  intro hall
  have hrun : run step start [.read [65], .write 0 1, .write 0 1] =
      some ⟨[], ⟨[], [65, 65]⟩, false, [65], true⟩ := by decide
  have hbalanced := hall _ _ hrun 3 _ hrun
  cases hbalanced.pops

end Session

end CKernel.Net.AsioPlus
