/-
# `CKernel.Net.TlvSession` — the session of `base_asio_plus/tlv_session.cpp`

A message is two bytes of length, as the host stores a `short`, and a body.  `send`
queues one and starts a write if the queue was empty; `handle_read` puts messages
together from what reads return, first a head node and then a message node, and sends
them back.  A field that a constructor does not set is `none` until it is assigned,
and reading it is a fault, as is a null node or an access outside an allocation.

    the queue is written in order as long as it never holds two nodes at the end of a
    write, and otherwise stalls for good           (`inOrder_iff`, `stalled_forever`)
    the first read finds no head node, so that nothing is reassembled
                                                   (`handleRead_start`, `reassembles_iff`)
-/
import CKernel.Lib.Run
import CKernel.Lib.Wire
import CKernel.Net.AsyncWrite

namespace CKernel.Net.Tlv

open Run Wire

/-! ## The code -/

/-- `HEAD_LENGTH` -/
def headLength : Int := 2

/-- `MSG_MAX_LENGTH` -/
def msgMaxLength : Int := 1024 * 2

/-- `MAX_LENGTH` -/
def maxLength : Int := 1024

inductive Fault where
  | nullNode
  | uninitialised
  | outOfBounds
  | badNewLength
  | diverges
  deriving DecidableEq, Repr

/-- A node with its allocation; `id` stands for its address. -/
structure MsgNode where
  id : Nat
  curLen : Option Int
  totalLen : Option Int
  data : List UInt8
  deriving DecidableEq, Repr

/-- The conversion of an `int` to `short`. -/
def toShort (x : Int) : Int := Int.bmod x (2 ^ 16)

/-- The conversion of an `int` or a `short` to `size_t`. -/
def toSize (x : Int) : Int := x % 2 ^ 64

/-- A field that is set. -/
def init (x : Option Int) : Except Fault Int :=
  match x with
  | none => .error .uninitialised
  | some x => .ok x

def deref (node : Option MsgNode) : Except Fault MsgNode :=
  match node with
  | none => .error .nullNode
  | some node => .ok node

/-- `n` bytes from `off` on, `n` a `size_t`. -/
def bytesAt (src : List UInt8) (off n : Int) : Except Fault (List UInt8) :=
  if 0 ≤ off ∧ off + toSize n ≤ src.length then .ok ((src.drop off.toNat).take (toSize n).toNat)
  else .error .outOfBounds

/-- `memcpy` and `memset` to `dst + off`. -/
def write (dst : List UInt8) (off : Int) (bytes : List UInt8) : Except Fault (List UInt8) :=
  if 0 ≤ off ∧ off + bytes.length ≤ dst.length then
    .ok (dst.take off.toNat ++ bytes ++ dst.drop (off.toNat + bytes.length))
  else .error .outOfBounds

/-- `new char[n]()` -/
def newChar (n : Int) : Except Fault (List UInt8) :=
  if 0 ≤ n then .ok (List.replicate n.toNat 0) else .error .badNewLength

/-- `msg_node(msg, max_len)`: the length, as the host has it, and the bytes. -/
def msgNodeSend (host : Endian) (id : Nat) (msg : List UInt8) (maxLen : Int) :
    Except Fault MsgNode := do
  let totalLen := maxLen + headLength
  let data ← newChar (totalLen + 1)
  let data ← write data 0 (host.store 2 (maxLen % 2 ^ 16).toNat)
  let body ← bytesAt msg 0 maxLen
  let data ← write data headLength body
  let data ← write data totalLen [0]
  .ok ⟨id, some 0, some totalLen, data⟩

/-- `msg_node(max_len)` sets neither length. -/
def msgNodeRecv (id : Nat) (maxLen : Int) : Except Fault MsgNode := do
  let data ← newChar (maxLen + 1)
  .ok ⟨id, none, none, data⟩

/-- `clear()` -/
def MsgNode.clear (node : MsgNode) : Except Fault MsgNode := do
  let totalLen ← init node.totalLen
  if toSize totalLen ≤ node.data.length then
    .ok { node with
      data := List.replicate (toSize totalLen).toNat 0 ++ node.data.drop (toSize totalLen).toNat
      curLen := some 0 }
  else .error .outOfBounds

/-- The bytes a write of the node reads. -/
def MsgNode.buffer (node : MsgNode) : List UInt8 :=
  node.data.take (node.totalLen.getD 0).toNat

/-- A session.  `reading` is the size of the buffer that the read under way was given;
`pushed` and `handed` record the nodes queued and the bodies handed to `send` by
`handle_read`. -/
structure Session where
  isHeadParse : Bool
  recvMsgNode : Option MsgNode
  recvHeadNode : Option MsgNode
  data : List UInt8
  sendQueue : List MsgNode
  sock : Socket MsgNode
  reading : Option Int
  nextId : Nat
  pushed : List MsgNode
  handed : List (List UInt8)
  deriving DecidableEq, Repr

namespace Session

/-- A new session: the constructor sets neither `_is_head_parse` nor `_data`, and no
node is allocated. -/
def make (isHeadParse : Bool) (data : List UInt8) : Session :=
  ⟨isHeadParse, none, none, data, [], Socket.make, none, 0, [], []⟩

/-- `async_read_some(buffer(_data, size), handle_read)` -/
def asyncReadSome (s : Session) (size : Int) : Except Fault Session :=
  if size ≤ s.data.length then .ok { s with reading := some size } else .error .outOfBounds

/-- `start()` -/
def start (s : Session) : Except Fault Session := s.asyncReadSome maxLength

/-- `memset(_data, 0, n)` -/
def clearData (s : Session) (n : Int) : Except Fault Session := do
  let data ← write s.data 0 (List.replicate n.toNat 0)
  .ok { s with data }

/-- `send(msg, max_len)`; `make_shared` converts the length to `short`. -/
def send (host : Endian) (s : Session) (msg : List UInt8) (maxLen : Int) :
    Except Fault Session := do
  let pending := s.sendQueue ≠ []
  let node ← msgNodeSend host s.nextId msg (toShort maxLen)
  let s := { s with
    sendQueue := s.sendQueue ++ [node], nextId := s.nextId + 1, pushed := s.pushed ++ [node] }
  if pending then .ok s
  else .ok { s with sock := s.sock.asyncWrite node node.buffer }

/-- `handle_write(ec)` without an error: the next node is looked at, and no more. -/
def handleWrite (s : Session) : Option Session :=
  match s.sendQueue with
  | [] => none
  | _ :: rest => some { s with sendQueue := rest }

/-- `send(_recv_msg_node->_data, _recv_msg_node->_total_len)`, `_is_head_parse = false`
and `_recv_head_node->clear()`, after the last byte of a message. -/
def finishMessage (host : Endian) (s : Session) (msg : MsgNode) : Except Fault Session := do
  let totalLen ← init msg.totalLen
  let data ← write msg.data totalLen [0]
  let msg := { msg with data }
  let s := { s with recvMsgNode := some msg, handed := s.handed ++ [msg.data.take totalLen.toNat] }
  let s ← send host s msg.data totalLen
  let head ← deref s.recvHeadNode
  let head ← head.clear
  .ok { s with isHeadParse := false, recvHeadNode := some head }

/-- `_cur_len += n` after a copy of `n` bytes from `_data + cp_len`. -/
def appendTo (s : Session) (node : MsgNode) (cpLen n : Int) : Except Fault MsgNode := do
  let curLen ← init node.curLen
  let bytes ← bytesAt s.data cpLen n
  let data ← write node.data curLen bytes
  .ok { node with data, curLen := some (curLen + n) }

/-- The loop of `handle_read`.  A round that takes no byte parses a head, after which
one that does follows, so that three rounds a byte are enough. -/
def readLoop (host : Endian) : Nat → Session → Int → Int → Except Fault Session
  | 0, _, _, _ => .error .diverges
  | fuel + 1, s, cpLen, bytesTransferred => do
      if bytesTransferred ≤ 0 then return s
      if s.isHeadParse then
        let msg ← deref s.recvMsgNode
        let totalLen ← init msg.totalLen
        let curLen ← init msg.curLen
        let remainMsg := totalLen - curLen
        if bytesTransferred < toSize remainMsg then
          let msg ← s.appendTo msg cpLen bytesTransferred
          let s ← { s with recvMsgNode := some msg }.clearData maxLength
          s.asyncReadSome maxLength
        else
          let msg ← s.appendTo msg cpLen remainMsg
          let s ← finishMessage host s msg
          let bytesTransferred := bytesTransferred - remainMsg
          let cpLen := cpLen + remainMsg
          if bytesTransferred ≤ 0 then
            let s ← s.clearData maxLength
            s.asyncReadSome maxLength
          else readLoop host fuel s cpLen bytesTransferred
      else
        let head ← deref s.recvHeadNode
        let curLen ← init head.curLen
        if toSize (bytesTransferred + curLen) < headLength then
          let head ← s.appendTo head cpLen bytesTransferred
          let s ← { s with recvHeadNode := some head }.clearData msgMaxLength
          s.asyncReadSome msgMaxLength
        else
          let headRemain := headLength - curLen
          let bytes ← bytesAt s.data cpLen headRemain
          let headData ← write head.data curLen bytes
          let s := { s with recvHeadNode := some { head with data := headData } }
          let cpLen := cpLen + headRemain
          let bytesTransferred := bytesTransferred - headRemain
          let lenBytes ← bytesAt headData 0 headLength
          let dataLen := toShort (host.load lenBytes)
          if dataLen > msgMaxLength then return s  -- `clear_session`, and no other read
          let msg ← msgNodeRecv s.nextId dataLen
          let s := { s with nextId := s.nextId + 1, recvMsgNode := some msg }
          if bytesTransferred < toSize dataLen then
            let msg ← s.appendTo msg cpLen bytesTransferred
            let s ← { s with recvMsgNode := some msg }.clearData msgMaxLength
            let s ← s.asyncReadSome msgMaxLength
            return { s with isHeadParse := true }
          let msg ← s.appendTo msg cpLen dataLen
          let s ← finishMessage host s msg
          let cpLen := cpLen + dataLen
          let bytesTransferred := bytesTransferred - dataLen
          if bytesTransferred ≤ 0 then
            let s ← s.clearData maxLength
            s.asyncReadSome maxLength
          else readLoop host fuel s cpLen bytesTransferred

/-- `handle_read(ec, bytes_transferred)` without an error; the read has put `bytes` at
the front of `_data`. -/
def handleRead (host : Endian) (s : Session) (bytes : List UInt8) : Except Fault Session := do
  let data ← write s.data 0 bytes
  let s := { s with data, reading := none }
  readLoop host (3 * bytes.length + 1) s 0 bytes.length

/-! ## Runs -/

/-- A call of `send`; the `i`-th write writes `n` more of its bytes. -/
inductive Op where
  | send (msg : List UInt8) (maxLen : Int)
  | write (i n : Nat)
  deriving DecidableEq, Repr

/-- `none` for what cannot happen, and where nothing is defined any more. -/
def step (host : Endian) (s : Session) : Op → Option Session
  | .send msg maxLen => (s.send host msg maxLen).toOption
  | .write i n => do
      let (sock, done) ← s.sock.write i n
      let s := { s with sock }
      if done then s.handleWrite else some s

/-- The read under way completes with these bytes. -/
def readStep (host : Endian) (s : Session) (bytes : List UInt8) : Option Session :=
  (s.handleRead host bytes).toOption

/-! ## What the results say -/

/-- A queue that is not empty has one write under way, for its front; and the nodes are
written one after the other, each before it is popped. -/
structure InOrder (s : Session) : Prop where
  whenQueued : ∀ node rest, s.sendQueue = node :: rest →
    ∃ bytes, s.sock.inFlight = [⟨node, bytes⟩]
  whenEmpty : s.sendQueue = [] → s.sock.inFlight = []
  written : ∃ popped, s.pushed = popped ++ s.sendQueue ∧
    s.sock.accepted ++ (s.sock.inFlight.map Write.rest).flatten =
      ((popped ++ s.sendQueue.take 1).map MsgNode.buffer).flatten

/-- When a write is completed, its node is alone in the queue. -/
def Alone (s : Session) : Op → Prop
  | .send _ _ => True
  | .write i n => s.sock.Completes i n → s.sendQueue.length ≤ 1

instance (s : Session) : (op : Op) → Decidable (Alone s op)
  | .send _ _ => isTrue trivial
  | .write _ _ => inferInstanceAs (Decidable (_ → _))

/-- Nothing is written, and something waits. -/
def Stalled (s : Session) : Prop := s.sendQueue ≠ [] ∧ s.sock.inFlight = []

/-- The bytes of a message. -/
def encode (host : Endian) (body : List UInt8) : List UInt8 := host.store 2 body.length ++ body

/-- What a read may return: some bytes, as many as its buffer holds. -/
def Fits (s : Session) (bytes : List UInt8) : Prop :=
  bytes ≠ [] ∧ ∃ size ∈ s.reading, (bytes.length : Int) ≤ size

instance (s : Session) (bytes : List UInt8) : Decidable (Fits s bytes) :=
  inferInstanceAs (Decidable (_ ∧ _))

variable {host : Endian} {s s' : Session} {op : Op}

/-! ## Sending -/

/-- What `send` does once its node is built. -/
theorem send_some {msg : List UInt8} {maxLen : Int} (h : step host s (.send msg maxLen) = some s') :
    ∃ node, s'.sendQueue = s.sendQueue ++ [node] ∧ s'.pushed = s.pushed ++ [node] ∧
      s'.sock = if s.sendQueue = [] then s.sock.asyncWrite node node.buffer else s.sock := by
  cases hsend : s.send host msg maxLen with
  | error fault =>
      rw [step, hsend] at h
      cases h
  | ok s₁ =>
      rw [step, hsend] at h
      cases h
      rw [send] at hsend
      cases hnode : msgNodeSend host s.nextId msg (toShort maxLen) with
      | error fault =>
          rw [hnode] at hsend
          cases hsend
      | ok node =>
          rw [hnode] at hsend
          change (if s.sendQueue ≠ [] then _ else _) = _ at hsend
          refine ⟨node, ?_⟩
          split at hsend
          case isTrue hpending =>
            cases hsend
            exact ⟨rfl, rfl, (if_neg hpending).symm⟩
          case isFalse hidle =>
            cases hsend
            exact ⟨rfl, rfl, (if_pos (not_not.mp hidle)).symm⟩

theorem send_inOrder {msg : List UInt8} {maxLen : Int} (h : InOrder s)
    (hs : step host s (.send msg maxLen) = some s') : InOrder s' := by
  obtain ⟨node, hqueue, hpushed, hsock⟩ := send_some hs
  obtain ⟨popped, hsplit, hwritten⟩ := h.written
  cases hempty : s.sendQueue with
  | nil =>
      -- the node is the front, and its write is started
      have hidle := h.whenEmpty hempty
      rw [hempty, List.nil_append] at hqueue
      rw [hempty, List.append_nil] at hsplit
      rw [hempty, hidle, List.map_nil, List.flatten_nil, List.append_nil, List.take_nil,
        List.append_nil] at hwritten
      rw [if_pos hempty] at hsock
      have hflight : s'.sock.inFlight = [⟨node, node.buffer⟩] := by
        rw [hsock, Socket.asyncWrite, hidle]
        rfl
      refine ⟨fun node' rest' hfront => ?_, fun hnone => ?_, popped, ?_, ?_⟩
      · rw [hqueue] at hfront
        cases hfront
        exact ⟨_, hflight⟩
      · rw [hqueue] at hnone
        cases hnone
      · rw [hpushed, hsplit, hqueue]
      · rw [hflight, hqueue, hsock, Socket.asyncWrite, hwritten]
        simp
  | cons front rest =>
      have hpending : s.sendQueue ≠ [] := by
        rw [hempty]
        exact List.cons_ne_nil _ _
      rw [if_neg hpending] at hsock
      rw [hempty, List.cons_append] at hqueue
      refine ⟨fun node' rest' hfront => ?_, fun hnone => ?_, popped, ?_, ?_⟩
      · rw [hqueue] at hfront
        cases hfront
        rw [hsock]
        exact h.whenQueued front rest hempty
      · rw [hqueue] at hnone
        cases hnone
      · rw [hpushed, hsplit, hqueue, hempty, List.append_assoc, List.cons_append]
      · rw [hsock, hwritten, hqueue, hempty]
        rfl

/-! ## Writing -/

/-- The front is written on. -/
theorem write_goesOn {w : Write MsgNode} {sock : Socket MsgNode} {n : Nat} (h : InOrder s)
    (hflight : s.sock.inFlight = [w])
    (hacc : sock.accepted = s.sock.accepted ++ w.rest.take n)
    (hsock : sock.inFlight = [{ w with rest := w.rest.drop n }]) :
    InOrder { s with sock } := by
  obtain ⟨popped, hsplit, hwritten⟩ := h.written
  refine ⟨fun node rest hfront => ?_, fun hnone => ?_, popped, hsplit, ?_⟩
  · obtain ⟨bytes, hbytes⟩ := h.whenQueued node rest hfront
    rw [hflight] at hbytes
    cases hbytes
    exact ⟨_, hsock⟩
  · rw [h.whenEmpty hnone] at hflight
    cases hflight
  · rw [hflight] at hwritten
    show sock.accepted ++ _ = _
    rw [hacc, hsock, ← hwritten]
    simp

/-- The front is written and popped: the queue is in order if that was all of it. -/
theorem write_done {node : MsgNode} {rest : List MsgNode} {bytes : List UInt8}
    {sock : Socket MsgNode} (h : InOrder s) (hqueue : s.sendQueue = node :: rest)
    (hflight : s.sock.inFlight = [⟨node, bytes⟩])
    (hacc : sock.accepted = s.sock.accepted ++ bytes) (hsock : sock.inFlight = []) :
    InOrder { s with sock, sendQueue := rest } ↔ rest = [] := by
  constructor
  · intro h'
    cases hrest : rest with
    | nil => rfl
    | cons next rest' =>
        obtain ⟨bytes', hbytes⟩ := h'.whenQueued next rest' hrest
        cases hsock.symm.trans hbytes
  · rintro rfl
    obtain ⟨popped, hsplit, hwritten⟩ := h.written
    rw [hqueue] at hsplit
    rw [hqueue, hflight] at hwritten
    refine ⟨fun _ _ hfront => ?_, fun _ => hsock, popped ++ [node], ?_, ?_⟩
    · cases hfront
    · rw [List.append_nil]
      exact hsplit
    · show sock.accepted ++ (sock.inFlight.map Write.rest).flatten = _
      rw [hacc, hsock]
      simpa using hwritten

/-- The queue stays in order if and only if no node waits where a write ends. -/
theorem step_inOrder (s : Session) (op : Op) (s' : Session) (h : InOrder s)
    (hs : step host s op = some s') : InOrder s' ↔ Alone s op := by
  cases op with
  | send msg maxLen => exact ⟨fun _ => trivial, fun _ => send_inOrder h hs⟩
  | write i n =>
      obtain ⟨⟨sock, done⟩, hwrite, hs⟩ := Option.bind_eq_some_iff.mp hs
      cases hqueue : s.sendQueue with
      | nil =>
          rw [Socket.write_idle (h.whenEmpty hqueue)] at hwrite
          cases hwrite
      | cons node rest =>
          obtain ⟨bytes, hflight⟩ := h.whenQueued node rest hqueue
          obtain ⟨rfl, hacc, hcases⟩ := Socket.write_only hflight hwrite
          have hcompletes : s.sock.Completes 0 n ↔ n = bytes.length := by
            rw [Socket.Completes, hflight]
            exact ⟨fun hall => hall _ rfl, fun hn w hw => by cases hw; exact hn⟩
          rw [Alone, hcompletes, hqueue]
          rcases hcases with ⟨rfl, hall, hsock⟩ | ⟨rfl, hmore, hsock⟩
          · dsimp only at hall hacc hs
            rw [if_pos rfl, handleWrite, hqueue] at hs
            cases hs
            rw [hall, List.take_length] at hacc
            rw [write_done h hqueue hflight hacc hsock]
            constructor
            · intro hnil _
              rw [hnil]
              exact Nat.le_refl 1
            · intro hlen
              have hle : rest.length + 1 ≤ 1 := hlen hall
              exact List.length_eq_zero_iff.mp (Nat.le_zero.mp (Nat.le_of_succ_le_succ hle))
          · dsimp only at hs
            rw [if_neg Bool.false_ne_true] at hs
            cases hs
            exact ⟨fun _ hall => absurd hall hmore, fun _ => write_goesOn h hflight hacc hsock⟩

/-- A stalled queue stays so, whatever is sent. -/
theorem stalled_forever (ops : List Op) (h : Stalled s)
    (hrun : run (step host) s ops = some s') : Stalled s' := by
  refine run_keeps (fun s op s' h hs => ?_) ops h hrun
  cases op with
  | send msg maxLen =>
      obtain ⟨node, hqueue, -, hsock⟩ := send_some hs
      rw [if_neg h.1] at hsock
      refine ⟨?_, ?_⟩
      · rw [hqueue]
        exact List.concat_ne_nil node s.sendQueue
      · rw [hsock]
        exact h.2
  | write i n =>
      rw [step, Socket.write_idle h.2] at hs
      cases hs

theorem inOrder_make (isHeadParse : Bool) (data : List UInt8) : InOrder (make isHeadParse data) := by
  refine ⟨fun node rest h => ?_, fun _ => rfl, [], rfl, rfl⟩
  cases h

/-- In every run of calls and writes: the queue is in order in all states if and only
if no node waits behind another at the end of a write. -/
theorem inOrder_iff (host : Endian) (isHeadParse : Bool) (data : List UInt8) (ops : List Op)
    (s : Session) (hrun : run (step host) (make isHeadParse data) ops = some s) :
    (∀ n s', run (step host) (make isHeadParse data) (ops.take n) = some s' → InOrder s') ↔
      Along (step host) Alone (make isHeadParse data) ops :=
  (along_iff_of_run step_inOrder ops (inOrder_make isHeadParse data) hrun).symm

/-- One message, written in two parts, and then another. -/
def oneByOne : List Op :=
  [.send [65] 1, .write 0 1, .write 0 2, .send [66] 1, .write 0 3]

theorem isSome_oneByOne : (run (step .little) (make false []) oneByOne).isSome = true := by
  decide +kernel

theorem inOrder_iff_oneByOne :
    Along (step .little) Alone (make false []) oneByOne ∧
      ∀ n s', run (step .little) (make false []) (oneByOne.take n) = some s' → InOrder s' :=
  ⟨by decide +kernel,
    (inOrder_iff .little false [] oneByOne _ (Option.some_get isSome_oneByOne).symm).mpr
      (by decide +kernel)⟩

/-- A message is sent while another is written. -/
def overtaken : List Op := [.send [65] 1, .send [66] 1, .write 0 3]

theorem isSome_overtaken : (run (step .little) (make false []) overtaken).isSome = true := by
  decide +kernel

/-- It is never written. -/
theorem queue_stalls :
    ¬ ∀ (ops : List Op) (s : Session), run (step .little) (make false []) ops = some s →
      ∀ node rest, s.sendQueue = node :: rest → ∃ bytes, s.sock.inFlight = [⟨node, bytes⟩] := by
  intro hall
  obtain ⟨bytes, hbytes⟩ := hall overtaken _ (Option.some_get isSome_overtaken).symm
    ⟨1, some 0, some 3, [1, 0, 66, 0]⟩ [] (by decide +kernel)
  have hidle : ((run (step .little) (make false []) overtaken).get
      isSome_overtaken).sock.inFlight = [] := by decide +kernel
  rw [hidle] at hbytes
  cases hbytes

/-! ## Reading -/

/-- The first read: whatever the flag holds, a node is looked for that there is not. -/
theorem handleRead_start (host : Endian) {bytes : List UInt8} (hbytes : bytes ≠ [])
    (hmsg : s.recvMsgNode = none) (hhead : s.recvHeadNode = none) :
    readStep host s bytes = none := by
  have hpos : ¬ (bytes.length : Int) ≤ 0 := by
    have hlen := List.length_pos_of_ne_nil hbytes
    omega
  rw [readStep, handleRead]
  cases write s.data 0 bytes with
  | error fault => rfl
  | ok data =>
      change (readLoop host (3 * bytes.length + 1) { s with data, reading := none } 0
        bytes.length).toOption = none
      rw [readLoop, if_neg hpos]
      cases hflag : s.isHeadParse with
      | true => simp [hmsg, deref, Except.toOption, bind, Except.bind]
      | false => simp [hhead, deref, Except.toOption, bind, Except.bind]

/-- A started session, the bytes of some messages, split in any way that its reads
allow: their bodies are handed to `send`, without a fault, if and only if there are no
messages. -/
theorem reassembles_iff (host : Endian) (isHeadParse : Bool) (data : List UInt8) (s₀ : Session)
    (hstart : (make isHeadParse data).start = .ok s₀) (messages chunks : List (List UInt8))
    (hbytes : chunks.flatten = (messages.map (encode host)).flatten)
    (hfits : Along (readStep host) Fits s₀ chunks) :
    (∃ s, run (readStep host) s₀ chunks = some s ∧ s.handed = messages) ↔ messages = [] := by
  have hfresh : s₀ = { make isHeadParse data with reading := some maxLength } := by
    rw [start, asyncReadSome] at hstart
    split at hstart
    · cases hstart
      rfl
    · cases hstart
  cases chunks with
  | nil =>
      constructor
      · rintro ⟨s, hrun, rfl⟩
        cases hrun
        rw [hfresh]
        rfl
      · rintro rfl
        refine ⟨s₀, rfl, ?_⟩
        rw [hfresh]
        rfl
  | cons bytes chunks =>
      have hnone : readStep host s₀ bytes = none :=
        handleRead_start host hfits.1.1 (by rw [hfresh]; rfl) (by rw [hfresh]; rfl)
      constructor
      · rintro ⟨s, hrun, -⟩
        rw [run, hnone] at hrun
        cases hrun
      · rintro rfl
        rw [List.flatten_cons] at hbytes
        exact absurd (List.append_eq_nil_iff.mp hbytes).1 hfits.1.1

/-- A started session, with its array. -/
def started : Session :=
  { make false (List.replicate 1024 0) with reading := some maxLength }

theorem reassembles_iff_one :
    ¬ ∃ s, run (readStep .little) started [[1, 0], [65]] = some s ∧ s.handed = [[65]] := by
  rw [reassembles_iff .little false (List.replicate 1024 0) started (by decide +kernel) [[65]]
    [[1, 0], [65]] (by decide +kernel) (by decide +kernel)]
  exact List.cons_ne_nil _ _

/-- One message of one byte, which comes with its head. -/
theorem reassembly_faults :
    ¬ ∀ messages chunks : List (List UInt8),
      (∀ body ∈ messages, (body.length : Int) ≤ msgMaxLength) →
      chunks.flatten = (messages.map (encode .little)).flatten →
      Along (readStep .little) Fits started chunks →
        ∃ s, run (readStep .little) started chunks = some s ∧ s.handed = messages := by
  intro hall
  obtain ⟨s, hrun, -⟩ := hall [[65]] [[1, 0, 65]] (by decide +kernel) (by decide +kernel)
    (by decide +kernel)
  have hnone : run (readStep .little) started [[1, 0, 65]] = none := by decide +kernel
  rw [hnone] at hrun
  cases hrun

end Session

end CKernel.Net.Tlv
