/-
# `CKernel.Net.Session` — asynchronous writes of `base_asio/session.cpp`

A session queues what it is asked to write and keeps one asynchronous operation
going for the front of the queue.  The socket is the list of operations under way
and the bytes it has taken; a completion takes some bytes of one of them and runs
its callback.  Nothing in the model says that only one operation is under way.

`async_write_some` reads the memory of a node, which the queue keeps.  `async_send`
reads the string of the caller of `write_all_to_socket`: until it completes the caller
may write to the string or let it die, and its memory then holds anything (`reuse`).

    completions and calls keep the bytes in order, when spared   (`step_ok`)
    so do runs of `write2socket`, for buffers below 2^31 bytes    (`write2socket_ordered`)
    a buffer of 2^32 bytes is lost                                (`write2socket_truncates`)
    so do runs of `write_all_to_socket`, if `async_send` is whole
    and the caller keeps its string for it                        (`write_all_ordered`)
    one short `async_send` and the rest of the buffer is lost     (`write_all_drops_rest`)
-/
import CKernel.Lib.Run

namespace CKernel.Net

open Run

/-! ## The code -/

/-- `msg_node` of a sender.  The lengths are `int`s, never negative once built. -/
structure MsgNode where
  msg : List UInt8
  totalLen : Nat
  curLen : Nat
  deriving DecidableEq, Repr

/-- `msg_node(buf.data(), buf.size())`: the size is converted to `int`, and
`new char[total]` throws (`none`) when that makes it negative. -/
def msgNode (buf : List UInt8) : Option MsgNode :=
  let total := buf.length % 2 ^ 32
  if total < 2 ^ 31 then some ⟨buf.take total, total, 0⟩ else none

/-- `buffer(node->_msg + node->_cur_len, node->_total_len - node->_cur_len)` -/
def MsgNode.buffer (node : MsgNode) : List UInt8 :=
  (node.msg.drop node.curLen).take (node.totalLen - node.curLen)

inductive Callback where
  | writeCallback
  | writeAllCallback
  deriving DecidableEq, Repr

/-- An `async_write_some` or `async_send` under way, and what the memory holds that it
reads. -/
structure Pending where
  data : List UInt8
  callback : Callback
  deriving DecidableEq, Repr

/-- A session with its socket: the operations under way, and the bytes taken. -/
structure Session where
  sendQueue : List MsgNode
  sendPending : Bool
  inFlight : List Pending
  accepted : List UInt8
  deriving DecidableEq, Repr

namespace Session

def make : Session := ⟨[], false, [], []⟩

def async (s : Session) (data : List UInt8) (callback : Callback) : Session :=
  { s with inFlight := s.inFlight ++ [⟨data, callback⟩] }

/-- Both callbacks after their `_send_queue.pop()`: `async_write_some` for the next
node, or no write pending. -/
def sendNext (s : Session) : Session :=
  match s.sendQueue with
  | [] => { s with sendPending := false }
  | node :: _ => s.async node.buffer .writeCallback

/-- `write_callback(ec, bytes_transferred)` without an error; `front` of an empty
queue is undefined (`none`). -/
def writeCallback (s : Session) (bytesTransferred : Nat) : Option Session :=
  match s.sendQueue with
  | [] => none
  | sendData :: rest =>
      let sendData := { sendData with curLen := sendData.curLen + bytesTransferred }
      if sendData.curLen < sendData.totalLen then
        some ({ s with sendQueue := sendData :: rest }.async sendData.buffer .writeCallback)
      else some { s with sendQueue := rest }.sendNext

/-- `write_all_callback(ec, bytes_transferred)` without an error. -/
def writeAllCallback (s : Session) : Option Session :=
  match s.sendQueue with
  | [] => none
  | _ :: rest => some { s with sendQueue := rest }.sendNext

/-- `write2socket(buf)` -/
def write2socket (s : Session) (buf : List UInt8) : Option Session := do
  let node ← msgNode buf
  let s := { s with sendQueue := s.sendQueue ++ [node] }
  if s.sendPending then some s
  else do
    let s := { s with sendPending := true }
    let frontNode ← s.sendQueue.head?
    some (s.async (frontNode.msg.take frontNode.totalLen) .writeCallback)

/-- `write_all_to_socket(buf)`: `async_send` is given the string itself. -/
def writeAllToSocket (s : Session) (buf : List UInt8) : Option Session := do
  let node ← msgNode buf
  let s := { s with sendQueue := s.sendQueue ++ [node] }
  if s.sendPending then some s
  else
    let s := s.async buf .writeAllCallback
    some { s with sendPending := true }

/-! ## Runs -/

/-- The calls, the completion of the `i`-th operation under way with `n` bytes, and
what its caller does to the string that it reads. -/
inductive Op where
  | write2socket (buf : List UInt8)
  | writeAllToSocket (buf : List UInt8)
  | complete (i n : Nat)
  | reuse (i : Nat) (bytes : List UInt8)
  deriving DecidableEq, Repr

/-- The socket takes `n` bytes of an operation and its handler runs. -/
def complete (s : Session) (i n : Nat) : Option Session := do
  let w ← s.inFlight[i]?
  let s := { s with inFlight := s.inFlight.eraseIdx i, accepted := s.accepted ++ w.data.take n }
  match w.callback with
  | .writeCallback => s.writeCallback n
  | .writeAllCallback => s.writeAllCallback

/-- The string of an `async_send` is changed, or is gone and its memory used again;
that of a node is the session's. -/
def reuse (s : Session) (i : Nat) (bytes : List UInt8) : Option Session := do
  let w ← s.inFlight[i]?
  match w.callback with
  | .writeCallback => none
  | .writeAllCallback =>
      if bytes.length = w.data.length then
        some { s with inFlight := s.inFlight.set i { w with data := bytes } }
      else none

def step (s : Session) : Op → Option Session
  | .write2socket buf => s.write2socket buf
  | .writeAllToSocket buf => s.writeAllToSocket buf
  | .complete i n => s.complete i n
  | .reuse i bytes => s.reuse i bytes

/-- What is documented of `async_write_some` and `async_send` when they succeed:
between one byte and all of them, and none of an empty buffer.  The memory under a
string stays as long as it was. -/
def Contract (s : Session) : Op → Prop
  | .complete i n => ∃ w ∈ s.inFlight[i]?, n ≤ w.data.length ∧ (0 < n ∨ w.data = [])
  | .reuse i bytes => ∃ w ∈ s.inFlight[i]?, w.callback = .writeAllCallback ∧
      bytes.length = w.data.length
  | _ => True

/-- The bytes passed to the session. -/
def passed (ops : List Op) : List UInt8 :=
  (ops.map fun op =>
    match op with
    | .write2socket buf => buf
    | .writeAllToSocket buf => buf
    | .complete _ _ => []
    | .reuse _ _ => []).flatten

/-! ## What the results say -/

/-- At most one write is under way, exactly one while something is queued, and the
socket has taken a prefix of the bytes passed; all of them when none is. -/
structure Ordered (s : Session) (bytes : List UInt8) : Prop where
  atMostOne : s.inFlight.length ≤ 1
  whenQueued : s.sendQueue ≠ [] → s.inFlight.length = 1
  isPrefix : s.accepted <+: bytes
  whole : s.inFlight = [] → s.accepted = bytes

/-- The node of a buffer that waits holds all of it, that of one handed to
`async_send` exists, an `async_send` completes in full, and its string stays as it is. -/
def Spared (s : Session) : Op → Prop
  | .write2socket buf => buf.length < 2 ^ 31
  | .writeAllToSocket buf =>
      buf.length % 2 ^ 32 < 2 ^ 31 ∧ (s.sendPending = true → buf.length < 2 ^ 31)
  | .complete i n => ∀ w ∈ s.inFlight[i]?, w.callback = .writeAllCallback → n = w.data.length
  | .reuse i bytes => ∀ w ∈ s.inFlight[i]?, bytes = w.data

/-! ## The invariant -/

/-- A node that waits: nothing of it is sent, and it holds what its length says. -/
structure Waiting (node : MsgNode) : Prop where
  curLen : node.curLen = 0
  length : node.msg.length = node.totalLen

/-- The operation under way is for the front node.  `write_callback` counts in the
node and needs it to agree; `write_all_callback` looks at neither. -/
def Front (node : MsgNode) (w : Pending) : Prop :=
  w.callback = .writeCallback → w.data = node.buffer ∧ node.msg.length = node.totalLen ∧
    node.curLen ≤ node.totalLen

/-- What waits in the queue. -/
def queued (rest : List MsgNode) : List UInt8 := (rest.map MsgNode.msg).flatten

inductive Inv : Session → List UInt8 → Prop
  | idle (bytes : List UInt8) : Inv ⟨[], false, [], bytes⟩ bytes
  | busy (node : MsgNode) (rest : List MsgNode) (w : Pending) (acc : List UInt8)
      (hfront : Front node w) (hrest : ∀ n ∈ rest, Waiting n) :
      Inv ⟨node :: rest, true, [w], acc⟩ (acc ++ w.data ++ queued rest)

variable {s s' : Session} {bytes buf acc : List UInt8} {node : MsgNode} {rest : List MsgNode}
  {n : Nat}

theorem Inv.ordered (h : Inv s bytes) : Ordered s bytes := by
  cases h with
  | idle =>
      exact ⟨Nat.zero_le 1, fun h => absurd rfl h, List.prefix_rfl, fun _ => rfl⟩
  | busy node rest w acc hfront hrest =>
      refine ⟨Nat.le_refl 1, fun _ => rfl, ?_, fun h => absurd h (List.cons_ne_nil _ _)⟩
      rw [List.append_assoc]
      exact List.prefix_append _ _

theorem queued_append : queued (rest ++ [node]) = queued rest ++ node.msg := by
  simp [queued]

/-! ## Nodes -/

theorem Waiting.buffer_eq (h : Waiting node) : node.buffer = node.msg := by
  rw [MsgNode.buffer, h.curLen, List.drop_zero, Nat.sub_zero, ← h.length, List.take_length]

theorem Waiting.front (h : Waiting node) (callback : Callback) : Front node ⟨node.msg, callback⟩ :=
  fun _ => ⟨h.buffer_eq.symm, h.length, by rw [h.curLen]; exact Nat.zero_le _⟩

/-- The node of a buffer that fits an `int`. -/
theorem msgNode_small (h : buf.length < 2 ^ 31) :
    msgNode buf = some ⟨buf, buf.length, 0⟩ ∧ Waiting ⟨buf, buf.length, 0⟩ := by
  have hmod : buf.length % 2 ^ 32 = buf.length := Nat.mod_eq_of_lt (by omega)
  refine ⟨?_, rfl, rfl⟩
  simp only [msgNode, hmod]
  rw [if_pos h, List.take_length]

theorem msgNode_some (h : buf.length % 2 ^ 32 < 2 ^ 31) : ∃ node, msgNode buf = some node := by
  simp only [msgNode]
  rw [if_pos h]
  exact ⟨_, rfl⟩

/-- The rest of a node is offered after some of it was taken. -/
theorem buffer_advance (hlen : node.msg.length = node.totalLen) (n : Nat) :
    node.buffer = node.buffer.take n ++ { node with curLen := node.curLen + n }.buffer ∧
      node.buffer.length = node.totalLen - node.curLen := by
  have hbuffer (k : Nat) : { node with curLen := k }.buffer = node.msg.drop k := by
    rw [MsgNode.buffer, ← hlen, ← List.length_drop, List.take_length]
  have hself : node.buffer = node.msg.drop node.curLen := hbuffer node.curLen
  rw [hself, hbuffer, List.length_drop, hlen, ← List.drop_drop]
  exact ⟨(List.take_append_drop n _).symm, rfl⟩

/-! ## One step -/

theorem sendNext_ok (hrest : ∀ n ∈ rest, Waiting n) :
    Inv (sendNext ⟨rest, true, [], acc⟩) (acc ++ queued rest) := by
  cases rest with
  | nil =>
      rw [queued, List.map_nil, List.flatten_nil, List.append_nil]
      exact .idle acc
  | cons node rest =>
      have hnode := hrest node List.mem_cons_self
      have hinv := Inv.busy node rest ⟨node.msg, .writeCallback⟩ acc (hnode.front .writeCallback)
        fun n hn => hrest n (List.mem_cons_of_mem _ hn)
      rw [List.append_assoc] at hinv
      show Inv ⟨node :: rest, true, [⟨node.buffer, .writeCallback⟩], acc⟩ _
      rw [hnode.buffer_eq]
      exact hinv

theorem writeCallback_ok (hfront : Front node ⟨node.buffer, .writeCallback⟩)
    (hrest : ∀ n ∈ rest, Waiting n) :
    ∃ s', writeCallback ⟨node :: rest, true, [], acc ++ node.buffer.take n⟩ n = some s' ∧
      Inv s' (acc ++ node.buffer ++ queued rest) := by
  obtain ⟨-, hlen, hle⟩ := hfront rfl
  obtain ⟨hsplit, hlength⟩ := buffer_advance hlen n
  simp only [writeCallback]
  split
  case isTrue hmore =>
    refine ⟨_, rfl, ?_⟩
    have hinv := Inv.busy { node with curLen := node.curLen + n } rest
      ⟨{ node with curLen := node.curLen + n }.buffer, .writeCallback⟩ (acc ++ node.buffer.take n)
      (fun _ => ⟨rfl, hlen, Nat.le_of_lt hmore⟩) hrest
    rw [List.append_assoc acc, ← hsplit] at hinv
    exact hinv
  case isFalse hdone =>
    refine ⟨_, rfl, ?_⟩
    have hall : node.buffer.take n = node.buffer := by
      refine List.take_of_length_le ?_
      rw [hlength]
      have hdone' : node.totalLen ≤ node.curLen + n := Nat.le_of_not_lt hdone
      omega
    rw [hall]
    exact sendNext_ok hrest

theorem enqueue_ok (h : Inv s bytes) (hpending : s.sendPending = true) (hnode : Waiting node) :
    Inv { s with sendQueue := s.sendQueue ++ [node] } (bytes ++ node.msg) := by
  cases h with
  | idle => cases hpending
  | busy first rest w acc hfront hrest =>
      rw [List.append_assoc, ← queued_append]
      refine .busy first (rest ++ [node]) w acc hfront fun n hn => ?_
      rcases List.mem_append.mp hn with hn | hn
      · exact hrest n hn
      · obtain rfl := List.mem_singleton.mp hn
        exact hnode

theorem Inv.eq_idle (h : Inv s bytes) (hpending : s.sendPending = false) :
    s = ⟨[], false, [], bytes⟩ := by
  cases h with
  | idle => rfl
  | busy node rest w acc hfront hrest => cases hpending

/-- The only node is under way. -/
theorem only_ok (bytes : List UInt8) (w : Pending) (hfront : Front node w) :
    Inv ⟨[node], true, [w], bytes⟩ (bytes ++ w.data) := by
  have hinv := Inv.busy node [] w bytes hfront fun n hn => absurd hn List.not_mem_nil
  rwa [queued, List.map_nil, List.flatten_nil, List.append_nil] at hinv

theorem write2socket_ok (h : Inv s bytes) (hbuf : buf.length < 2 ^ 31) :
    ∃ s', s.write2socket buf = some s' ∧ Inv s' (bytes ++ buf) := by
  obtain ⟨hnode, hwaiting⟩ := msgNode_small hbuf
  cases hpending : s.sendPending with
  | true =>
      rw [write2socket, hnode, Option.bind_eq_bind, Option.bind_some]
      exact ⟨_, if_pos hpending, enqueue_ok h hpending hwaiting⟩
  | false =>
      have hinv := only_ok bytes ⟨buf, .writeCallback⟩ (hwaiting.front .writeCallback)
      refine ⟨_, ?_, hinv⟩
      rw [write2socket, hnode, h.eq_idle hpending]
      simp [async]

theorem writeAllToSocket_ok (h : Inv s bytes) (hspared : Spared s (.writeAllToSocket buf)) :
    ∃ s', s.writeAllToSocket buf = some s' ∧ Inv s' (bytes ++ buf) := by
  obtain ⟨hbuilt, hsmall⟩ := hspared
  cases hpending : s.sendPending with
  | true =>
      obtain ⟨hnode, hwaiting⟩ := msgNode_small (hsmall hpending)
      rw [writeAllToSocket, hnode, Option.bind_eq_bind, Option.bind_some]
      exact ⟨_, if_pos hpending, enqueue_ok h hpending hwaiting⟩
  | false =>
      obtain ⟨node, hnode⟩ := msgNode_some hbuilt
      have hfront : Front node ⟨buf, .writeAllCallback⟩ := fun h => by cases h
      refine ⟨_, ?_, only_ok bytes ⟨buf, .writeAllCallback⟩ hfront⟩
      rw [writeAllToSocket, hnode, h.eq_idle hpending]
      rfl

theorem complete_ok {i : Nat} (h : Inv s bytes) (hcontract : Contract s (.complete i n))
    (hspared : Spared s (.complete i n)) : ∃ s', s.complete i n = some s' ∧ Inv s' bytes := by
  obtain ⟨w, hw, -⟩ := hcontract
  have hwhole := hspared w hw
  cases h with
  | idle => cases hw
  | busy node rest w' acc hfront hrest =>
      cases i with
      | succ i => cases hw
      | zero =>
          obtain rfl : w' = w := Option.some.inj hw
          obtain ⟨data, callback⟩ := w'
          cases callback with
          | writeCallback =>
              obtain ⟨rfl, -⟩ := hfront rfl
              exact writeCallback_ok hfront hrest
          | writeAllCallback =>
              have hall : data.take n = data :=
                List.take_of_length_le (Nat.le_of_eq (hwhole rfl).symm)
              refine ⟨_, rfl, ?_⟩
              show Inv (sendNext ⟨rest, true, [], acc ++ data.take n⟩) _
              rw [hall]
              exact sendNext_ok hrest

/-- A string that stays as it is. -/
theorem reuse_ok {i : Nat} (hcontract : Contract s (.reuse i buf))
    (hspared : Spared s (.reuse i buf)) : s.reuse i buf = some s := by
  obtain ⟨w, hw, hcallback, -⟩ := hcontract
  obtain rfl := hspared w hw
  obtain ⟨hi, hget⟩ := List.getElem?_eq_some_iff.mp hw
  have hset : s.inFlight.set i w = s.inFlight := by
    rw [← hget]
    exact List.set_getElem_self hi
  rw [reuse, hw, Option.bind_eq_bind, Option.bind_some]
  simp only [hcallback, if_pos]
  rw [← hcallback, hset]

/-- The bytes passed, one call at a time. -/
def pass (bytes : List UInt8) (op : Op) : List UInt8 := bytes ++ passed [op]

theorem foldl_pass (ops : List Op) (bytes : List UInt8) :
    ops.foldl pass bytes = bytes ++ passed ops := by
  induction ops generalizing bytes with
  | nil => exact (List.append_nil bytes).symm
  | cons op ops ih =>
      rw [List.foldl_cons, ih, pass, List.append_assoc]
      simp [passed]

theorem step_ok (s : Session) (bytes : List UInt8) (op : Op) (h : Inv s bytes)
    (hop : Contract s op ∧ Spared s op) : ∃ s', step s op = some s' ∧ Inv s' (pass bytes op) := by
  obtain ⟨hcontract, hspared⟩ := hop
  cases op with
  | write2socket buf =>
      have hpass : pass bytes (.write2socket buf) = bytes ++ buf := by simp [pass, passed]
      rw [hpass]
      exact write2socket_ok h hspared
  | writeAllToSocket buf =>
      have hpass : pass bytes (.writeAllToSocket buf) = bytes ++ buf := by simp [pass, passed]
      rw [hpass]
      exact writeAllToSocket_ok h hspared
  | complete i n =>
      have hpass : pass bytes (.complete i n) = bytes := by simp [pass, passed]
      rw [hpass]
      exact complete_ok h hcontract hspared
  | reuse i buf =>
      have hpass : pass bytes (.reuse i buf) = bytes := by simp [pass, passed]
      rw [hpass]
      exact ⟨s, reuse_ok hcontract hspared, h⟩

/-- Runs that keep something else beside the invariant, under which their
operations are spared. -/
theorem run_ordered {P : Session → Op → Prop} {K : Session → Prop} (hmake : K make)
    (hP : ∀ s op, K s → P s op → Contract s op ∧ Spared s op)
    (hK : ∀ s op s', K s → P s op → step s op = some s' → K s')
    (ops : List Op) (hops : Along step P make ops) :
    ∃ s, run step make ops = some s ∧ Ordered s (passed ops) := by
  have hstep : ∀ s bytes op, Inv s bytes ∧ K s → P s op →
      ∃ s', step s op = some s' ∧ Inv s' (pass bytes op) ∧ K s' := by
    intro s bytes op ⟨h, hk⟩ hop
    obtain ⟨s', hs', hinv⟩ := step_ok s bytes op h (hP s op hk hop)
    exact ⟨s', hs', hinv, hK s op s' hk hop hs'⟩
  obtain ⟨s, hrun, hinv, -⟩ := run_simulates (R := fun s bytes => Inv s bytes ∧ K s) hstep ops
    ⟨Inv.idle [], hmake⟩ hops
  rw [foldl_pass] at hinv
  exact ⟨s, hrun, hinv.ordered⟩

/-! ## `write2socket` -/

def Op.isWriteAll : Op → Bool
  | .writeAllToSocket _ => true
  | _ => false

def Op.isWrite2 : Op → Bool
  | .write2socket _ => true
  | _ => false

/-- A buffer whose length is an `int`. -/
def Op.Fits : Op → Prop
  | .write2socket buf => buf.length < 2 ^ 31
  | _ => True

/-- No `async_send` is under way. -/
def NoSend (s : Session) : Prop := ∀ w ∈ s.inFlight, w.callback = .writeCallback

theorem NoSend.async (h : NoSend s) (data : List UInt8) :
    NoSend (s.async data .writeCallback) := by
  intro w hw
  rcases List.mem_append.mp hw with hw | hw
  · exact h w hw
  · rw [List.mem_singleton.mp hw]

theorem NoSend.sendNext (h : NoSend s) : NoSend s.sendNext := by
  rw [Session.sendNext]
  split
  · exact h
  · exact h.async _

theorem NoSend.writeCallback (h : NoSend s) (hs : s.writeCallback n = some s') : NoSend s' := by
  rw [Session.writeCallback] at hs
  split at hs
  · cases hs
  · simp only at hs
    split at hs
    · cases hs
      exact NoSend.async h _
    · cases hs
      exact NoSend.sendNext h

theorem NoSend.write2socket (h : NoSend s) (hs : s.write2socket buf = some s') : NoSend s' := by
  rw [Session.write2socket] at hs
  obtain ⟨node, -, hs⟩ := Option.bind_eq_some_iff.mp hs
  simp only at hs
  split at hs
  · cases hs
    exact h
  · obtain ⟨front, -, hs⟩ := Option.bind_eq_some_iff.mp hs
    cases hs
    exact NoSend.async h _

theorem NoSend.complete {i : Nat} (h : NoSend s) (hs : s.complete i n = some s') : NoSend s' := by
  rw [Session.complete] at hs
  obtain ⟨w, hw, hs⟩ := Option.bind_eq_some_iff.mp hs
  have hcallback := h w (List.mem_of_getElem? hw)
  simp only [hcallback] at hs
  refine NoSend.writeCallback (fun v hv => ?_) hs
  exact h v (List.mem_of_mem_eraseIdx hv)

/-- Without an `async_send` no string of a caller is read. -/
theorem NoSend.reuse {i : Nat} (h : NoSend s) : s.reuse i buf = none := by
  rw [Session.reuse]
  cases hw : s.inFlight[i]? with
  | none => rfl
  | some w =>
      have hcallback := h w (List.mem_of_getElem? hw)
      rw [Option.bind_eq_bind, Option.bind_some]
      simp only [hcallback]

theorem NoSend.step {op : Op} (h : NoSend s) (hop : op.isWriteAll = false)
    (hs : step s op = some s') : NoSend s' := by
  cases op with
  | write2socket buf => exact h.write2socket hs
  | writeAllToSocket buf => cases hop
  | complete i n => exact h.complete hs
  | reuse i buf =>
      rw [Session.step, h.reuse] at hs
      cases hs

theorem NoSend.spared {op : Op} (h : NoSend s) (hop : op.isWriteAll = false)
    (hcontract : Contract s op) (hfits : op.Fits) : Spared s op := by
  cases op with
  | write2socket buf => exact hfits
  | writeAllToSocket buf => cases hop
  | complete i n =>
      intro w hw hcallback
      rw [h w (List.mem_of_getElem? hw)] at hcallback
      cases hcallback
  | reuse i buf =>
      obtain ⟨w, hw, hcallback, -⟩ := hcontract
      rw [h w (List.mem_of_getElem? hw)] at hcallback
      cases hcallback

/-- Whatever the completions, the socket takes the buffers of `write2socket` in
order and whole, when none is longer than an `int` can say. -/
theorem write2socket_ordered (ops : List Op)
    (hops : Along step (fun s op => op.isWriteAll = false ∧ Contract s op ∧ op.Fits) make ops) :
    ∃ s, run step make ops = some s ∧ Ordered s (passed ops) := by
  refine run_ordered (K := NoSend) ?_ ?_ ?_ ops hops
  · intro w hw
    cases hw
  · intro s op h ⟨hop, hcontract, hfits⟩
    exact ⟨hcontract, h.spared hop hcontract hfits⟩
  · intro s op s' h ⟨hop, _⟩ hs
    exact h.step hop hs

instance (s : Session) : (op : Op) → Decidable (Contract s op)
  | .write2socket _ => isTrue trivial
  | .writeAllToSocket _ => isTrue trivial
  | .complete _ _ => inferInstanceAs (Decidable (∃ w ∈ _, _))
  | .reuse _ _ => inferInstanceAs (Decidable (∃ w ∈ _, _))

instance : (op : Op) → Decidable op.Fits
  | .write2socket _ => inferInstanceAs (Decidable (_ < _))
  | .writeAllToSocket _ => isTrue trivial
  | .complete _ _ => isTrue trivial
  | .reuse _ _ => isTrue trivial

/-- Three buffers, one of them empty, with short writes in between. -/
def shortWrites : List Op :=
  [.write2socket [1, 2, 3], .complete 0 1, .write2socket [], .write2socket [4], .complete 0 2,
    .complete 0 0]

theorem write2socket_ordered_short :
    Along step (fun s op => op.isWriteAll = false ∧ Contract s op ∧ op.Fits) make shortWrites ∧
      ∃ s, run step make shortWrites = some s ∧ Ordered s (passed shortWrites) :=
  ⟨by decide, write2socket_ordered shortWrites (by decide)⟩

/-- A buffer of 2^32 bytes becomes a node of length 0, and nothing of it is sent. -/
theorem write2socket_truncates :
    ¬ ∀ ops : List Op, Along step (fun s op => op.isWriteAll = false ∧ Contract s op) make ops →
      ∃ s, run step make ops = some s ∧ Ordered s (passed ops) := by
  intro hall
  obtain ⟨buf, hbuf⟩ : ∃ buf : List UInt8, buf.length = 2 ^ 32 :=
    ⟨List.replicate (2 ^ 32) 0, List.length_replicate⟩
  have hnode : msgNode buf = some ⟨[], 0, 0⟩ := by
    simp [msgNode, hbuf]
  have hfirst : step make (.write2socket buf) =
      some ⟨[⟨[], 0, 0⟩], true, [⟨[], .writeCallback⟩], []⟩ := by
    simp [step, write2socket, hnode, make, async]
  have hops : Along step (fun s op => op.isWriteAll = false ∧ Contract s op) make
      [.write2socket buf, .complete 0 0] := by
    refine ⟨⟨rfl, trivial⟩, ?_⟩
    rw [hfirst]
    decide
  obtain ⟨s, hrun, hordered⟩ := hall _ hops
  have hdone : run step make [.write2socket buf, .complete 0 0] = some ⟨[], false, [], []⟩ := by
    rw [run, hfirst]
    rfl
  have hs : s = ⟨[], false, [], []⟩ := Option.some.inj (hrun.symm.trans hdone)
  have hwhole := hordered.whole (by rw [hs])
  have hlength := congrArg List.length hwhole
  rw [hs] at hlength
  simp [passed, hbuf] at hlength

/-! ## `write_all_to_socket` -/

/-- Where every `async_send` completes in full, and finds the string as it was passed, the
buffers of `write_all_to_socket` are taken in order and whole. -/
theorem write_all_ordered (ops : List Op)
    (hops : Along step (fun s op => op.isWrite2 = false ∧ Contract s op ∧ Spared s op) make ops) :
    ∃ s, run step make ops = some s ∧ Ordered s (passed ops) := by
  refine run_ordered (K := fun _ => True) trivial ?_ (fun _ _ _ _ _ _ => trivial) ops hops
  intro s op _ ⟨_, hcontract, hspared⟩
  exact ⟨hcontract, hspared⟩

instance (s : Session) : (op : Op) → Decidable (Spared s op)
  | .write2socket _ => inferInstanceAs (Decidable (_ < _))
  | .writeAllToSocket _ => inferInstanceAs (Decidable (_ ∧ _))
  | .complete _ _ => inferInstanceAs (Decidable (∀ w ∈ _, _))
  | .reuse _ _ => inferInstanceAs (Decidable (∀ w ∈ _, _))

/-- `async_send` in full, of a string that is written again as it is, then a queued
buffer in two parts. -/
def wholeSend : List Op :=
  [.writeAllToSocket [1, 2, 3], .writeAllToSocket [4, 5], .reuse 0 [1, 2, 3], .complete 0 3,
    .complete 0 1, .complete 0 1]

theorem write_all_ordered_whole :
    Along step (fun s op => op.isWrite2 = false ∧ Contract s op ∧ Spared s op) make wholeSend ∧
      ∃ s, run step make wholeSend = some s ∧ Ordered s (passed wholeSend) :=
  ⟨by decide, write_all_ordered wholeSend (by decide)⟩

/-- Two bytes, one taken: `write_all_callback` drops the node and the other byte. -/
theorem write_all_drops_rest :
    ¬ ∀ ops : List Op, Along step (fun s op => op.isWrite2 = false ∧ Contract s op) make ops →
      ∃ s, run step make ops = some s ∧ Ordered s (passed ops) := by
  intro hall
  obtain ⟨s, hrun, hordered⟩ := hall [.writeAllToSocket [1, 2], .complete 0 1] (by decide)
  obtain rfl : ⟨[], false, [], [1]⟩ = s := Option.some.inj hrun
  have hwhole := hordered.whole rfl
  simp [passed] at hwhole

end Session

end CKernel.Net
