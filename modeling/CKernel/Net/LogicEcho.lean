/-
# `CKernel.Net.LogicEcho` — sessions, queue and answers of `base_logic_layer/test`

A session reads a header of four bytes, then the body it announces, and posts the body.
The logic thread takes what is posted and sends it back, as `on_message` posts every
message with type 0, for which no handler is registered.

`send` uses the socket from the logic thread while the io thread may close it.  Its
`asio::write` makes one `write_some` after the other, and each of them looks up the
descriptor of the socket first and then waits until the kernel takes some bytes for that
descriptor (`Sending`).  If the session is closed meanwhile the descriptor is free, and the
next connection may get it.  Steps of the two threads interleave as they like; that both
write the fields of one socket object is not modelled beyond this.

    a header says how long its body is                           (`bodyLen_header`)
    one step keeps each session's bytes in order                 (`step_sound`)
    if no session is closed under a `write_some`, each peer gets
      back the frames it has sent, in order                      (`echo_in_order`)
    and if one is, another peer may get what it has sent         (`echo_crosses`)
-/
import CKernel.Lib.Run
import CKernel.Lib.Wire

namespace CKernel.Net.LogicEcho

open Run Wire

/-! ## The code -/

/-- `HEAD_LEN` -/
def headLen : Nat := 4

/-- `MAX_BODY` -/
def maxBody : Nat := 4 * 1024 * 1024

structure LogicMessage where
  sessionId : Nat
  msgType : UInt16
  body : List UInt8
  deriving DecidableEq, Repr

/-- The `async_read` under way: of a header, or of the body that a header has announced;
none after an error. -/
inductive Reading where
  | header
  | body (header : List UInt8)
  | stopped
  deriving DecidableEq, Repr

/-- A session, with the descriptor of its socket until it is closed.  Of its connection:
what has arrived, how much of that is unread, and what the peer has got. -/
structure Session where
  fd : Option Nat
  reading : Reading
  arrived : List UInt8
  unread : List UInt8
  written : List UInt8
  deriving DecidableEq, Repr

/-- The `asio::write` of the logic thread: what is left of its buffers, and the descriptor
that the `write_some` under way, if there is one, has looked up. -/
structure Sending where
  sessionId : Nat
  rest : List UInt8
  fd : Option Nat
  deriving DecidableEq, Repr

/-- After a `write_some`: another one follows, if something is left. -/
def Sending.goOn (w : Sending) (rest : List UInt8) : Option Sending :=
  if rest = [] then none else some { w with rest, fd := none }

/-- The server; `fds` says of whose connection a descriptor is, and `handled` is what was
given to registered handlers. -/
structure Server where
  nextId : Nat
  sessions : Nat → Option Session
  fds : Nat → Option Nat
  queue : List LogicMessage
  sending : Option Sending
  handled : List LogicMessage

def start : Server := ⟨1, fun _ => none, fun _ => none, [], none, []⟩

/-- The type of the messages for which `NetworkServer` registers handlers, `MSG_LOGIN` and
`MSG_CHAT`. -/
def registered (msgType : UInt16) : Bool := msgType = 1 || msgType = 2

/-- `body_len` in a header. -/
def bodyLen (host : Endian) (header : List UInt8) : UInt32 :=
  host.ntohl (UInt32.ofNat (host.load header))

/-- The `body_len` for which `read_header` closes the session. -/
def refused (len : UInt32) : Prop := len = 0 ∨ maxBody < len.toNat

instance (len : UInt32) : Decidable (refused len) := inferInstanceAs (Decidable (_ ∨ _))

/-- What `send(data)` writes. -/
def frameOf (host : Endian) (data : List UInt8) : List UInt8 :=
  host.store headLen (host.htonl (UInt32.ofNat data.length)).toNat ++ data

namespace Session

/-- `start()`, with the first `read_header()`. -/
def make (fd : Nat) : Session := ⟨some fd, .header, [], [], []⟩

/-- The next `async_read`, which fails at once on a socket that is closed. -/
def read (s : Session) (reading : Reading) : Session :=
  { s with reading := if s.fd.isSome then reading else .stopped }

/-- How much the `async_read` under way is for. -/
def wanted (host : Endian) (s : Session) : Option Nat :=
  match s.reading with
  | .header => some headLen
  | .body header => some (bodyLen host header).toNat
  | .stopped => none

end Session

namespace Server

def update (srv : Server) (id : Nat) (s : Session) : Server :=
  { srv with sessions := Function.update srv.sessions id (some s) }

/-- `close()` -/
def close (srv : Server) (id : Nat) : Server :=
  match srv.sessions id with
  | some s =>
      match s.fd with
      | some fd =>
          { srv.update id { s with fd := none } with fds := Function.update srv.fds fd none }
      | none => srv
  | none => srv

/-- `post_message` -/
def postMessage (srv : Server) (id : Nat) (msgType : UInt16) (body : List UInt8) : Server :=
  { srv with queue := srv.queue ++ [⟨id, msgType, body⟩] }

/-- The handler in `read_header`. -/
def onHeader (host : Endian) (srv : Server) (id : Nat) (s : Session) (bytes : List UInt8) :
    Server :=
  if refused (bodyLen host bytes) then (srv.update id { s with reading := .stopped }).close id
  else srv.update id (s.read (.body bytes))

/-- `on_message(body)`, with the next `read_header()`. -/
def onMessage (srv : Server) (id : Nat) (s : Session) (body : List UInt8) : Server :=
  (srv.postMessage id 0 body).update id (s.read .header)

/-- `get_session(id)`; a session that is closed is removed. -/
def getSession (srv : Server) (id : Nat) : Option Session :=
  (srv.sessions id).filter fun s => s.fd.isSome

/-- `dispatch(msg)`, up to the first `write_some` of an answer. -/
def dispatch (host : Endian) (srv : Server) (msg : LogicMessage) : Server :=
  if registered msg.msgType then { srv with handled := srv.handled ++ [msg] }
  else
    match srv.getSession msg.sessionId with
    | some _ => { srv with sending := some ⟨msg.sessionId, frameOf host msg.body, none⟩ }
    | none => srv

/-- A `write_some` looks up the descriptor; on a socket that is closed it fails. -/
def lookUp (srv : Server) (w : Sending) : Server :=
  match srv.getSession w.sessionId with
  | some s => { srv with sending := some { w with fd := s.fd } }
  | none => { srv with sending := none }

/-- The kernel takes `n` bytes of the `write_some` for the connection that has the
descriptor now. -/
def wrote (srv : Server) (w : Sending) (fd n : Nat) : Option Server := do
  let id ← srv.fds fd
  let s ← srv.sessions id
  some ({ srv with sending := w.goOn (w.rest.drop n) }.update id
    { s with written := s.written ++ w.rest.take n })

end Server

inductive Op where
  /-- A connection is accepted, on a descriptor that is free. -/
  | accept (fd : Nat)
  | arrive (id : Nat) (bytes : List UInt8)
  /-- The read under way has all its bytes. -/
  | complete (id : Nat)
  /-- The read under way ends with an error. -/
  | fail (id : Nat)
  /-- The logic thread takes a message. -/
  | take
  | lookUp
  | wrote (n : Nat)
  /-- The `write_some` under way ends with an error. -/
  | writeFail
  deriving DecidableEq, Repr

def step (host : Endian) (srv : Server) : Op → Option Server
  | .accept fd =>
      if srv.fds fd = none then
        some { srv.update srv.nextId (.make fd) with
          nextId := srv.nextId + 1
          fds := Function.update srv.fds fd (some srv.nextId) }
      else none
  | .arrive id bytes => (srv.getSession id).map fun s =>
      srv.update id { s with arrived := s.arrived ++ bytes, unread := s.unread ++ bytes }
  | .complete id => do
      let s ← srv.sessions id
      let n ← s.wanted host
      if n ≤ s.unread.length then
        let bytes := s.unread.take n
        let s := { s with unread := s.unread.drop n }
        match s.reading with
        | .header => some (srv.onHeader host id s bytes)
        | _ => some (srv.onMessage id s bytes)
      else none
  | .fail id => do
      let s ← srv.sessions id
      let _ ← s.wanted host
      some ((srv.update id { s with reading := .stopped }).close id)
  | .take =>
      match srv.sending, srv.queue with
      | none, msg :: queue => some ({ srv with queue := queue }.dispatch host msg)
      | _, _ => none
  | .lookUp => do
      let w ← srv.sending
      if w.fd = none then some (srv.lookUp w) else none
  | .wrote n => do
      let w ← srv.sending
      let fd ← w.fd
      if 0 < n ∧ n ≤ w.rest.length then srv.wrote w fd n else none
  | .writeFail => do
      let w ← srv.sending
      let _ ← w.fd
      some ({ srv with sending := none }.close w.sessionId)

/-! ## What the results say -/

/-- A `write_some` for the session is under way. -/
def Server.Writing (srv : Server) (id : Nat) : Prop :=
  ∃ w ∈ srv.sending, w.sessionId = id ∧ w.fd.isSome

instance (srv : Server) (id : Nat) : Decidable (srv.Writing id) :=
  inferInstanceAs (Decidable (∃ w ∈ srv.sending, _))

/-- The header that the session is to read next is one for which it is closed. -/
def Session.Refused (host : Endian) (s : Session) : Prop :=
  s.reading = .header ∧ refused (bodyLen host (s.unread.take headLen))

instance (host : Endian) (s : Session) : Decidable (s.Refused host) :=
  inferInstanceAs (Decidable (_ ∧ _))

/-- The io thread closes no session while a `write_some` for it is under way. -/
def Spares (host : Endian) (srv : Server) : Op → Prop
  | .complete id => srv.Writing id → ∀ s ∈ srv.sessions id, ¬ s.Refused host
  | .fail id => ¬ srv.Writing id
  | _ => True

instance (host : Endian) (srv : Server) : (op : Op) → Decidable (Spares host srv op)
  | .complete id => inferInstanceAs (Decidable (srv.Writing id → ∀ s ∈ srv.sessions id, _))
  | .fail id => inferInstanceAs (Decidable (¬ srv.Writing id))
  | .accept _ | .arrive _ _ | .take | .lookUp | .wrote _ | .writeFail => isTrue trivial

/-- A body behind its length in network order. -/
def frame (body : List UInt8) : List UInt8 := Endian.big.store headLen body.length ++ body

def frames (bodies : List (List UInt8)) : List UInt8 := bodies.flatMap frame

/-- The bodies of a session in the queue. -/
def queued (queue : List LogicMessage) (id : Nat) : List (List UInt8) :=
  (queue.filter fun msg => msg.sessionId = id).map LogicMessage.body

/-- What is left of the answer that is being sent to a session. -/
def unsent (sending : Option Sending) (id : Nat) : List UInt8 :=
  match sending with
  | some w => if w.sessionId = id then w.rest else []
  | none => []

/-- The header that has been read. -/
def Reading.read : Reading → List UInt8
  | .header => []
  | .body head => head
  | .stopped => []

def Reading.Ok : Reading → Prop
  | .header => True
  | .body head => head.length = headLen
  | .stopped => True

/-- Whatever has been written came in before; and while the session is open, all that has
come in is written, in the answer being sent, in the queue, or being read. -/
structure InOrder (s : Session) (rest : List UInt8) (bodies : List (List UInt8)) : Prop where
  written : s.written <+: s.arrived
  whole : s.fd.isSome →
    s.arrived = s.written ++ rest ++ frames bodies ++ s.reading.read ++ s.unread
  reading : s.reading.Ok

structure Sound (srv : Server) : Prop where
  sessions : ∀ id s, srv.sessions id = some s →
    InOrder s (unsent srv.sending id) (queued srv.queue id)
  known : ∀ msg ∈ srv.queue,
    msg.sessionId < srv.nextId ∧ msg.msgType = 0 ∧ msg.body.length < 2 ^ 32
  fresh : ∀ id, srv.nextId ≤ id → srv.sessions id = none
  fds : ∀ id s fd, srv.sessions id = some s → s.fd = some fd → srv.fds fd = some id
  sending : ∀ w, srv.sending = some w → w.sessionId < srv.nextId ∧
    ∀ fd, w.fd = some fd → ∃ s, srv.sessions w.sessionId = some s ∧ s.fd = some fd
  handled : srv.handled = []

/-! ## Frames -/

section Frames
variable {host : Endian} {head body : List UInt8}

/-- A header says how long its body is. -/
theorem bodyLen_header (host : Endian) (h : head.length = headLen) :
    (bodyLen host head).toNat = Endian.big.load head := by
  have hlt : Endian.big.load head < 256 ^ 4 := Endian.big.load_lt h
  rw [bodyLen, host.ntohl_load h]
  exact UInt32.toNat_ofNat_of_lt' hlt

theorem frameOf_eq (host : Endian) (h : body.length < 2 ^ 32) : frameOf host body = frame body := by
  have hlen : (UInt32.ofNat body.length).toNat = body.length := UInt32.toNat_ofNat_of_lt' h
  rw [frameOf, frame, headLen, host.store_htonl, hlen]

/-- A body that a header has announced makes a frame with it. -/
theorem frame_eq (h : head.length = headLen) (hbody : body.length = Endian.big.load head) :
    frame body = head ++ body := by
  rw [frame, hbody, Endian.big.store_load h]

theorem frames_cons (body : List UInt8) (bodies : List (List UInt8)) :
    frames (body :: bodies) = frame body ++ frames bodies := List.flatMap_cons ..

theorem frames_concat (bodies : List (List UInt8)) (body : List UInt8) :
    frames (bodies ++ [body]) = frames bodies ++ frame body := by
  rw [frames, List.flatMap_append, List.flatMap_singleton]
  rfl

end Frames

/-! ## One session -/

section OneSession
variable {host : Endian} {s : Session} {rest bytes head body : List UInt8}
  {bodies : List (List UInt8)}

theorem inOrder_of_closed (hfd : s.fd = none) (hwritten : s.written <+: s.arrived)
    (hreading : s.reading.Ok) : InOrder s rest bodies := by
  refine ⟨hwritten, fun hopen => ?_, hreading⟩
  rw [hfd] at hopen
  cases hopen

theorem inOrder_make (fd : Nat) : InOrder (.make fd) [] [] :=
  ⟨List.prefix_rfl, fun _ => rfl, trivial⟩

theorem InOrder.arrive (h : InOrder s rest bodies) (bytes : List UInt8) :
    InOrder { s with arrived := s.arrived ++ bytes, unread := s.unread ++ bytes } rest bodies := by
  refine ⟨h.written.trans (List.prefix_append ..), fun hopen => ?_, h.reading⟩
  show s.arrived ++ bytes =
    s.written ++ rest ++ frames bodies ++ s.reading.read ++ (s.unread ++ bytes)
  rw [h.whole hopen, List.append_assoc]

theorem read_ok {reading : Reading} (h : reading.Ok) : (s.read reading).reading.Ok := by
  rw [Session.read]
  split
  · exact h
  · trivial

/-- A header is read. -/
theorem InOrder.readHeader (h : InOrder s rest bodies) (hreading : s.reading = .header)
    (hlen : headLen ≤ s.unread.length) :
    InOrder ({ s with unread := s.unread.drop headLen }.read (.body (s.unread.take headLen))) rest
      bodies := by
  refine ⟨h.written, fun hopen => ?_, read_ok (List.length_take_of_le hlen)⟩
  have hopen' : s.fd.isSome := hopen
  have hwhole := h.whole hopen'
  rw [hreading] at hwhole
  show s.arrived = s.written ++ rest ++ frames bodies ++
    (if s.fd.isSome then Reading.body (s.unread.take headLen) else .stopped).read ++
      s.unread.drop headLen
  rw [if_pos hopen', hwhole, Reading.read, Reading.read, List.append_nil,
    List.append_assoc _ (List.take _ _), List.take_append_drop]

/-- A body is read, and is to be posted. -/
theorem InOrder.readBody (h : InOrder s rest bodies) (hreading : s.reading = .body head)
    (hlen : (bodyLen host head).toNat ≤ s.unread.length) :
    InOrder ({ s with unread := s.unread.drop (bodyLen host head).toNat }.read .header) rest
      (bodies ++ [s.unread.take (bodyLen host head).toNat]) := by
  refine ⟨h.written, fun hopen => ?_, read_ok trivial⟩
  have hopen' : s.fd.isSome := hopen
  have hok := h.reading
  have hwhole := h.whole hopen'
  rw [hreading] at hok hwhole
  have hframe : frame (s.unread.take (bodyLen host head).toNat) =
      head ++ s.unread.take (bodyLen host head).toNat := by
    refine frame_eq hok ?_
    rw [List.length_take_of_le hlen, bodyLen_header host hok]
  show s.arrived = s.written ++ rest ++ frames (bodies ++ [_]) ++
    (if s.fd.isSome then Reading.header else .stopped).read ++ s.unread.drop _
  rw [if_pos hopen', hwhole, frames_concat, hframe, Reading.read, Reading.read, List.append_nil]
  simp only [List.append_assoc, List.take_append_drop]

/-- The first body in the queue is the next answer. -/
theorem InOrder.take (h : InOrder s [] (body :: bodies)) : InOrder s (frame body) bodies := by
  refine ⟨h.written, fun hopen => ?_, h.reading⟩
  rw [h.whole hopen, frames_cons, List.append_nil, ← List.append_assoc s.written]

/-- Bytes of the answer are written. -/
theorem InOrder.wrote (h : InOrder s rest bodies) (hopen : s.fd.isSome) (n : Nat) :
    InOrder { s with written := s.written ++ rest.take n } (rest.drop n) bodies := by
  have hwhole := h.whole hopen
  have hsplit : s.arrived = s.written ++ rest.take n ++
      (rest.drop n ++ frames bodies ++ s.reading.read ++ s.unread) := by
    rw [hwhole]
    simp only [List.append_assoc, List.take_append_drop, ← List.append_assoc (List.take n _)]
  refine ⟨⟨_, hsplit.symm⟩, fun _ => ?_, h.reading⟩
  rw [hsplit]
  simp only [List.append_assoc]

end OneSession

/-! ## The queue and the answer being sent -/

section Queue
variable {id : Nat} {w : Sending}

theorem queued_concat (queue : List LogicMessage) (msg : LogicMessage) (id : Nat) :
    queued (queue ++ [msg]) id =
      if msg.sessionId = id then queued queue id ++ [msg.body] else queued queue id := by
  rw [queued, List.filter_append, List.map_append]
  split
  case isTrue heq =>
    rw [List.filter_cons_of_pos (by simpa using heq)]
    rfl
  case isFalse hne =>
    rw [List.filter_cons_of_neg (by simpa using hne)]
    exact List.append_nil _

theorem queued_cons (msg : LogicMessage) (queue : List LogicMessage) (id : Nat) :
    queued (msg :: queue) id =
      if msg.sessionId = id then msg.body :: queued queue id else queued queue id := by
  rw [queued]
  split
  case isTrue heq =>
    rw [List.filter_cons_of_pos (by simpa using heq)]
    rfl
  case isFalse hne =>
    rw [List.filter_cons_of_neg (by simpa using hne)]
    rfl

theorem unsent_self (w : Sending) : unsent (some w) w.sessionId = w.rest := if_pos rfl

theorem unsent_of_ne (h : w.sessionId ≠ id) : unsent (some w) id = [] := if_neg h

theorem unsent_goOn_self (w : Sending) (rest : List UInt8) :
    unsent (w.goOn rest) w.sessionId = rest := by
  rw [Sending.goOn]
  split
  case isTrue hnil => exact hnil.symm
  case isFalse => exact if_pos rfl

theorem unsent_goOn_of_ne (h : w.sessionId ≠ id) (rest : List UInt8) :
    unsent (w.goOn rest) id = [] := by
  rw [Sending.goOn]
  split
  case isTrue => rfl
  case isFalse => exact if_neg h

theorem goOn_eq_some {w' : Sending} {rest : List UInt8} (h : w.goOn rest = some w') :
    w'.sessionId = w.sessionId ∧ w'.fd = none := by
  rw [Sending.goOn] at h
  split at h
  case isTrue => cases h
  case isFalse =>
    cases h
    exact ⟨rfl, rfl⟩

end Queue

/-! ## One step -/

section OneStep
variable {host : Endian} {srv srv' : Server} {id fd : Nat} {s s' : Session} {w : Sending}
  {sending : Option Sending} {queue : List LogicMessage}

theorem sessions_update_self : (srv.update id s).sessions id = some s := Function.update_self ..

theorem sessions_update_of_ne {other : Nat} (h : other ≠ id) :
    (srv.update id s).sessions other = srv.sessions other := Function.update_of_ne h ..

theorem getSession_eq_some (h : srv.getSession id = some s) :
    srv.sessions id = some s ∧ s.fd.isSome := Option.filter_eq_some_iff.mp h

/-- The session `id` is closed, and nothing else happens to the server. -/
theorem close_eq (hs : srv.sessions id = some s) (hfd : s.fd = some fd) :
    srv.close id =
      { srv.update id { s with fd := none } with fds := Function.update srv.fds fd none } := by
  rw [Server.close, hs]
  simp only [hfd]

theorem close_of_closed (hs : srv.sessions id = some s) (hfd : s.fd = none) :
    srv.close id = srv := by
  rw [Server.close, hs]
  simp only [hfd]

theorem Sound.lt (h : Sound srv) (hs : srv.sessions id = some s) : id < srv.nextId := by
  refine Nat.lt_of_not_le fun hle => ?_
  cases (h.fresh id hle).symm.trans hs

/-- One session changes and keeps its descriptor, and perhaps what is in the queue of it or
is being sent to it. -/
theorem Sound.update (h : Sound srv) (hs : srv.sessions id = some s) (hfd : s'.fd = s.fd)
    (hsession : InOrder s' (unsent sending id) (queued queue id))
    (hothers : ∀ other, other ≠ id → unsent sending other = unsent srv.sending other ∧
      queued queue other = queued srv.queue other)
    (hknown : ∀ msg ∈ queue,
      msg.sessionId < srv.nextId ∧ msg.msgType = 0 ∧ msg.body.length < 2 ^ 32)
    (hsending : ∀ w, sending = some w → w.sessionId < srv.nextId ∧
      ∀ fd, w.fd = some fd → ∃ x, srv.sessions w.sessionId = some x ∧ x.fd = some fd) :
    Sound ({ srv with queue, sending }.update id s') := by
  have hkept (other : Nat) (x : Session) (hx : srv.sessions other = some x) :
      ∃ x', ({ srv with queue, sending }.update id s').sessions other = some x' ∧ x'.fd = x.fd := by
    by_cases hid : other = id
    · subst hid
      cases hs.symm.trans hx
      exact ⟨s', sessions_update_self, hfd⟩
    · exact ⟨x, (sessions_update_of_ne hid).trans hx, rfl⟩
  constructor
  · intro other x hx
    by_cases hid : other = id
    · subst hid
      obtain rfl : s' = x := Option.some.inj (sessions_update_self.symm.trans hx)
      exact hsession
    · have hold : srv.sessions other = some x := (sessions_update_of_ne hid).symm.trans hx
      obtain ⟨hunsent, hqueued⟩ := hothers other hid
      show InOrder x (unsent sending other) (queued queue other)
      rw [hunsent, hqueued]
      exact h.sessions other x hold
  · exact hknown
  · intro other hother
    have hne : other ≠ id := fun heq => Nat.not_le_of_lt (h.lt hs) (heq ▸ hother)
    exact (sessions_update_of_ne hne).trans (h.fresh other hother)
  · intro other x fd hx hopen
    by_cases hid : other = id
    · subst hid
      obtain rfl : s' = x := Option.some.inj (sessions_update_self.symm.trans hx)
      exact h.fds other s fd hs (hfd.symm.trans hopen)
    · exact h.fds other x fd ((sessions_update_of_ne hid).symm.trans hx) hopen
  · intro w hw
    obtain ⟨hlt, hopen⟩ := hsending w hw
    refine ⟨hlt, fun fd hwfd => ?_⟩
    obtain ⟨x, hx, hxfd⟩ := hopen fd hwfd
    obtain ⟨x', hx', hsame⟩ := hkept _ x hx
    exact ⟨x', hx', hsame.trans hxfd⟩
  · exact h.handled

/-- One session changes and keeps its descriptor. -/
theorem Sound.set (h : Sound srv) (hs : srv.sessions id = some s) (hfd : s'.fd = s.fd)
    (hsession : InOrder s' (unsent srv.sending id) (queued srv.queue id)) :
    Sound (srv.update id s') :=
  h.update hs hfd hsession (fun _ _ => ⟨rfl, rfl⟩) h.known h.sending

/-- A session is closed that is not being written to. -/
theorem Sound.shut (h : Sound srv) (hs : srv.sessions id = some s) (hfd : s'.fd = s.fd)
    (hwritten : s'.written <+: s'.arrived) (hreading : s'.reading.Ok)
    (hothers : ∀ other, other ≠ id → unsent sending other = unsent srv.sending other)
    (hsending : ∀ w, sending = some w → w.sessionId < srv.nextId ∧
      ∀ fd, w.fd = some fd → w.sessionId ≠ id ∧
        ∃ x, srv.sessions w.sessionId = some x ∧ x.fd = some fd) :
    Sound (({ srv with sending }.update id s').close id) := by
  have hclosed (hnone : s'.fd = none) : Sound ({ srv with sending }.update id s') :=
    h.update hs hfd (inOrder_of_closed hnone hwritten hreading)
      (fun other hother => ⟨hothers other hother, rfl⟩) h.known
      fun w hw => ⟨(hsending w hw).1, fun fd hfd => ((hsending w hw).2 fd hfd).2⟩
  cases hopen : s'.fd with
  | none =>
      rw [close_of_closed sessions_update_self hopen]
      exact hclosed hopen
  | some fd =>
      rw [close_eq sessions_update_self hopen]
      have hown : srv.fds fd = some id := h.fds id s fd hs (hfd.symm.trans hopen)
      have hself :
          ({ srv with sending }.update id s' |>.update id { s' with fd := none }).sessions id =
            some { s' with fd := none } := sessions_update_self
      have hrest (other : Nat) (hother : other ≠ id) :
          ({ srv with sending }.update id s' |>.update id { s' with fd := none }).sessions other =
            srv.sessions other :=
        (sessions_update_of_ne hother).trans (sessions_update_of_ne hother)
      constructor
      · intro other x hx
        by_cases hid : other = id
        · subst hid
          obtain rfl := Option.some.inj (hself.symm.trans hx)
          exact inOrder_of_closed rfl hwritten hreading
        · show InOrder x (unsent sending other) (queued srv.queue other)
          rw [hothers other hid]
          exact h.sessions other x ((hrest other hid).symm.trans hx)
      · exact h.known
      · intro other hother
        have hne : other ≠ id := fun heq => Nat.not_le_of_lt (h.lt hs) (heq ▸ hother)
        exact (hrest other hne).trans (h.fresh other hother)
      · intro other x fd' hx hxfd
        by_cases hid : other = id
        · subst hid
          obtain rfl := Option.some.inj (hself.symm.trans hx)
          cases hxfd
        · have hfds := h.fds other x fd' ((hrest other hid).symm.trans hx) hxfd
          have hne : fd' ≠ fd := by
            rintro rfl
            exact hid (Option.some.inj (hfds.symm.trans hown))
          exact (Function.update_of_ne hne ..).trans hfds
      · intro w hw
        obtain ⟨hlt, hwriting⟩ := hsending w hw
        refine ⟨hlt, fun fd' hwfd => ?_⟩
        obtain ⟨hne, x, hx, hxfd⟩ := hwriting fd' hwfd
        exact ⟨x, (hrest _ hne).trans hx, hxfd⟩
      · exact h.handled

theorem Sound.accept (h : Sound srv) (hfree : srv.fds fd = none) :
    Sound { srv.update srv.nextId (.make fd) with
      nextId := srv.nextId + 1
      fds := Function.update srv.fds fd (some srv.nextId) } := by
  have hqueued : queued srv.queue srv.nextId = [] := by
    rw [queued, List.map_eq_nil_iff, List.filter_eq_nil_iff]
    intro msg hmsg heq
    exact Nat.ne_of_lt (h.known msg hmsg).1 (of_decide_eq_true heq)
  have hunsent : unsent srv.sending srv.nextId = [] := by
    cases hsending : srv.sending with
    | none => rfl
    | some w => exact unsent_of_ne (Nat.ne_of_lt (h.sending w hsending).1)
  constructor
  · intro id x hx
    by_cases hid : id = srv.nextId
    · subst hid
      obtain rfl : Session.make fd = x := Option.some.inj (sessions_update_self.symm.trans hx)
      show InOrder (.make fd) (unsent srv.sending srv.nextId) (queued srv.queue srv.nextId)
      rw [hunsent, hqueued]
      exact inOrder_make fd
    · exact h.sessions id x ((sessions_update_of_ne hid).symm.trans hx)
  · intro msg hmsg
    obtain ⟨hlt, hrest⟩ := h.known msg hmsg
    exact ⟨Nat.lt_succ_of_lt hlt, hrest⟩
  · intro id hid
    have hne : id ≠ srv.nextId := Nat.ne_of_gt hid
    exact (sessions_update_of_ne hne).trans (h.fresh id (Nat.le_of_succ_le hid))
  · intro id x fd' hx hxfd
    by_cases hid : id = srv.nextId
    · subst hid
      obtain rfl : Session.make fd = x := Option.some.inj (sessions_update_self.symm.trans hx)
      cases hxfd
      exact Function.update_self ..
    · have hfds := h.fds id x fd' ((sessions_update_of_ne hid).symm.trans hx) hxfd
      have hne : fd' ≠ fd := by
        rintro rfl
        cases hfds.symm.trans hfree
      exact (Function.update_of_ne hne ..).trans hfds
  · intro w hw
    obtain ⟨hlt, hwriting⟩ := h.sending w hw
    refine ⟨Nat.lt_succ_of_lt hlt, fun fd' hwfd => ?_⟩
    obtain ⟨x, hx, hxfd⟩ := hwriting fd' hwfd
    exact ⟨x, (sessions_update_of_ne (Nat.ne_of_lt hlt)).trans hx, hxfd⟩
  · exact h.handled

/-- The io thread closes a session for which no `write_some` is under way. -/
theorem Sound.stop (h : Sound srv) (hs : srv.sessions id = some s) (hspared : ¬ srv.Writing id)
    (hfd : s'.fd = s.fd) (hwritten : s'.written <+: s'.arrived) (hreading : s'.reading.Ok) :
    Sound ((srv.update id s').close id) := by
  refine h.shut hs hfd hwritten hreading (fun _ _ => rfl) fun w hw => ?_
  obtain ⟨hlt, hwriting⟩ := h.sending w hw
  refine ⟨hlt, fun fd hwfd => ⟨fun hid => hspared ⟨w, hw, hid, ?_⟩, hwriting fd hwfd⟩⟩
  rw [hwfd]
  rfl

theorem Sound.complete (h : Sound srv) (hspares : Spares host srv (.complete id))
    (hstep : step host srv (.complete id) = some srv') : Sound srv' := by
  obtain ⟨s, hs, hstep⟩ := Option.bind_eq_some_iff.mp hstep
  obtain ⟨n, hn, hstep⟩ := Option.bind_eq_some_iff.mp hstep
  have hin := h.sessions id s hs
  split at hstep
  case isFalse => cases hstep
  case isTrue hlen =>
    cases hreading : s.reading with
    | header =>
        have hwanted : n = headLen := by
          rw [Session.wanted, hreading] at hn
          exact (Option.some.inj hn).symm
        subst hwanted
        simp only [hreading, Server.onHeader] at hstep
        cases hstep
        split
        case isTrue hrefused =>
          refine h.stop hs (fun hwriting => ?_) rfl hin.written trivial
          exact hspares hwriting s hs ⟨hreading, hrefused⟩
        case isFalse =>
          have hread := hin.readHeader hreading hlen
          rw [hreading] at hread
          exact h.set hs rfl hread
    | body head =>
        have hwanted : n = (bodyLen host head).toNat := by
          rw [Session.wanted, hreading] at hn
          exact (Option.some.inj hn).symm
        subst hwanted
        simp only [hreading] at hstep
        cases hstep
        have hread := hin.readBody hreading hlen
        refine h.update hs rfl ?_ (fun other hother => ⟨rfl, ?_⟩) (fun msg hmsg => ?_) h.sending
        · rw [queued_concat, if_pos rfl]
          rw [hreading] at hread
          exact hread
        · rw [queued_concat, if_neg hother.symm]
        · rcases List.mem_append.mp hmsg with hold | hnew
          · exact h.known msg hold
          · obtain rfl := List.mem_singleton.mp hnew
            refine ⟨h.lt hs, rfl, ?_⟩
            show (s.unread.take (bodyLen host head).toNat).length < 2 ^ 32
            rw [List.length_take_of_le hlen]
            exact UInt32.toNat_lt _
    | stopped =>
        rw [Session.wanted, hreading] at hn
        cases hn

/-- The logic thread takes a message. -/
theorem Sound.take (h : Sound srv) {msg : LogicMessage} (hnone : srv.sending = none)
    (hqueue : srv.queue = msg :: queue) :
    Sound ({ srv with queue := queue }.dispatch host msg) := by
  obtain ⟨hlt, htype, hbody⟩ := h.known msg (hqueue ▸ List.mem_cons_self)
  have hknown : ∀ m ∈ queue, m.sessionId < srv.nextId ∧ m.msgType = 0 ∧ m.body.length < 2 ^ 32 :=
    fun m hm => h.known m (hqueue ▸ List.mem_cons_of_mem _ hm)
  have hother (other : Nat) (hother : other ≠ msg.sessionId) (x : Session)
      (hx : srv.sessions other = some x) : InOrder x [] (queued queue other) := by
    have hin := h.sessions other x hx
    rw [hnone, hqueue, queued_cons, if_neg hother.symm] at hin
    exact hin
  have hfirst (x : Session) (hx : srv.sessions msg.sessionId = some x) :
      InOrder x [] (msg.body :: queued queue msg.sessionId) := by
    have hin := h.sessions msg.sessionId x hx
    rw [hnone, hqueue, queued_cons, if_pos rfl] at hin
    exact hin
  have hregistered : registered msg.msgType = false := by rw [htype]; rfl
  rw [Server.dispatch, hregistered, if_neg Bool.false_ne_true]
  split
  case h_1 s hget =>
    refine ⟨fun id x hx => ?_, hknown, h.fresh, h.fds, fun w hw => ?_, h.handled⟩
    · by_cases hid : msg.sessionId = id
      · subst hid
        rw [unsent_self, frameOf_eq host hbody]
        exact (hfirst x hx).take
      · rw [unsent_of_ne hid]
        exact hother id (Ne.symm hid) x hx
    · cases hw
      refine ⟨hlt, fun fd hfd => ?_⟩
      cases hfd
  case h_2 hget =>
    refine ⟨fun id x hx => ?_, hknown, h.fresh, h.fds, h.sending, h.handled⟩
    show InOrder x (unsent srv.sending id) (queued queue id)
    rw [hnone]
    by_cases hid : msg.sessionId = id
    · -- a session that is closed has nothing to wait for
      subst hid
      have hclosed : x.fd = none := by
        refine Option.not_isSome_iff_eq_none.mp fun hopen => ?_
        have hsome : srv.getSession msg.sessionId = some x :=
          Option.filter_eq_some_iff.mpr ⟨hx, hopen⟩
        cases hget.symm.trans hsome
      exact inOrder_of_closed hclosed (hfirst x hx).written (hfirst x hx).reading
    · exact hother id (Ne.symm hid) x hx

/-- A `write_some` begins. -/
theorem Sound.lookUp (h : Sound srv) (hw : srv.sending = some w) : Sound (srv.lookUp w) := by
  obtain ⟨hlt, -⟩ := h.sending w hw
  rw [Server.lookUp]
  split
  case h_1 s hget =>
    obtain ⟨hs, hopen⟩ := getSession_eq_some hget
    refine ⟨fun id x hx => ?_, h.known, h.fresh, h.fds, fun w' hw' => ?_, h.handled⟩
    · have hin := h.sessions id x hx
      rw [hw] at hin
      exact hin
    · cases hw'
      exact ⟨hlt, fun fd hfd => ⟨s, hs, hfd⟩⟩
  case h_2 hget =>
    refine ⟨fun id x hx => ?_, h.known, h.fresh, h.fds, fun w' hw' => ?_, h.handled⟩
    · have hin := h.sessions id x hx
      by_cases hid : w.sessionId = id
      · subst hid
        have hclosed : x.fd = none := by
          refine Option.not_isSome_iff_eq_none.mp fun hopen => ?_
          have hsome : srv.getSession w.sessionId = some x :=
            Option.filter_eq_some_iff.mpr ⟨hx, hopen⟩
          cases hget.symm.trans hsome
        exact inOrder_of_closed hclosed hin.written hin.reading
      · rw [hw, unsent_of_ne hid] at hin
        exact hin
    · cases hw'

/-- The kernel takes bytes for the session they are for. -/
theorem Sound.wrote (h : Sound srv) (hw : srv.sending = some w) (hfd : w.fd = some fd) {n : Nat}
    (hwrote : srv.wrote w fd n = some srv') : Sound srv' := by
  obtain ⟨hlt, hwriting⟩ := h.sending w hw
  obtain ⟨s, hs, hsfd⟩ := hwriting fd hfd
  obtain ⟨id, hid, hwrote⟩ := Option.bind_eq_some_iff.mp hwrote
  obtain ⟨x, hx, hwrote⟩ := Option.bind_eq_some_iff.mp hwrote
  cases (h.fds _ s fd hs hsfd).symm.trans hid
  cases hs.symm.trans hx
  cases hwrote
  have hopen : s.fd.isSome := by
    rw [hsfd]
    rfl
  have hin := h.sessions _ s hs
  rw [hw, unsent_self] at hin
  have hwritten := hin.wrote hopen n
  rw [← unsent_goOn_self w (w.rest.drop n)] at hwritten
  refine h.update hs rfl hwritten (fun other hother => ⟨?_, rfl⟩) h.known fun w' hw' => ?_
  · rw [hw, unsent_of_ne hother.symm, unsent_goOn_of_ne hother.symm]
  · obtain ⟨hid, hnone⟩ := goOn_eq_some hw'
    refine ⟨hid ▸ hlt, fun fd hfd => ?_⟩
    cases hnone.symm.trans hfd

/-- A write fails, and the logic thread closes the session. -/
theorem Sound.writeFail (h : Sound srv) (hw : srv.sending = some w) (hfd : w.fd = some fd) :
    Sound ({ srv with sending := none }.close w.sessionId) := by
  obtain ⟨s, hs, -⟩ := (h.sending w hw).2 fd hfd
  have hin := h.sessions _ s hs
  have hsame : ({ srv with sending := none } : Server).update w.sessionId s =
      { srv with sending := none } := by
    rw [Server.update]
    exact congrArg (fun f => ({ srv with sending := none, sessions := f } : Server))
      (Function.update_eq_self_iff.mpr hs.symm)
  rw [← hsame]
  refine h.shut hs rfl hin.written hin.reading (fun other hother => ?_) fun w' hw' => ?_
  · rw [hw]
    exact (unsent_of_ne hother.symm).symm
  · cases hw'

theorem step_sound (srv : Server) (op : Op) (srv' : Server) (h : Sound srv)
    (hspares : Spares host srv op) (hstep : step host srv op = some srv') : Sound srv' := by
  cases op with
  | accept fd =>
      rw [step] at hstep
      split at hstep
      case isTrue hfree =>
        cases hstep
        exact h.accept hfree
      case isFalse => cases hstep
  | arrive id bytes =>
      obtain ⟨s, hget, rfl⟩ := Option.map_eq_some_iff.mp hstep
      obtain ⟨hs, -⟩ := getSession_eq_some hget
      exact h.set hs rfl ((h.sessions id s hs).arrive bytes)
  | complete id => exact h.complete hspares hstep
  | fail id =>
      obtain ⟨s, hs, hstep⟩ := Option.bind_eq_some_iff.mp hstep
      obtain ⟨n, hn, hstep⟩ := Option.bind_eq_some_iff.mp hstep
      cases hstep
      exact h.stop hs hspares rfl (h.sessions id s hs).written trivial
  | take =>
      rw [step] at hstep
      split at hstep
      case h_1 msg queue hnone hqueue =>
        cases hstep
        exact h.take hnone hqueue
      case h_2 => cases hstep
  | lookUp =>
      obtain ⟨w, hw, hstep⟩ := Option.bind_eq_some_iff.mp hstep
      split at hstep
      case isTrue =>
        cases hstep
        exact h.lookUp hw
      case isFalse => cases hstep
  | wrote n =>
      obtain ⟨w, hw, hstep⟩ := Option.bind_eq_some_iff.mp hstep
      obtain ⟨fd, hfd, hstep⟩ := Option.bind_eq_some_iff.mp hstep
      split at hstep
      case isTrue => exact h.wrote hw hfd hstep
      case isFalse => cases hstep
  | writeFail =>
      obtain ⟨w, hw, hstep⟩ := Option.bind_eq_some_iff.mp hstep
      obtain ⟨fd, hfd, hstep⟩ := Option.bind_eq_some_iff.mp hstep
      cases hstep
      exact h.writeFail hw hfd

theorem sound_start : Sound start := by
  refine ⟨?_, ?_, fun _ _ => rfl, ?_, ?_, rfl⟩
  · intro id s hs
    cases hs
  · intro msg hmsg
    cases hmsg
  · intro id s fd hs
    cases hs
  · intro w hw
    cases hw

end OneStep

/-! ## Runs -/

/-- **A session gets back the frames it has sent, in order.**  In every run in which the io
thread closes no session under a `write_some`: what a peer has got is the first part of what
it has sent.  While its session is open, what has come in is what has gone out, what is left
of the answer being sent, the frames in the queue, the header that has been read, and what
has not been read.  And no registered handler has been called. -/
theorem echo_in_order (host : Endian) (ops : List Op) {srv : Server}
    (hspared : Along (step host) (Spares host) start ops)
    (hrun : run (step host) start ops = some srv) :
    srv.handled = [] ∧ ∀ id s, srv.sessions id = some s → s.written <+: s.arrived ∧
      (s.fd.isSome → s.arrived = s.written ++ unsent srv.sending id ++
        frames (queued srv.queue id) ++ s.reading.read ++ s.unread) := by
  have hsound := run_keeps_along step_sound ops sound_start hspared hrun
  exact ⟨hsound.handled, fun id s hs =>
    ⟨(hsound.sessions id s hs).written, (hsound.sessions id s hs).whole⟩⟩

/-- Two sessions, one of which is slow.  It is closed between two pieces of the answer to
the other one. -/
def twoSessions : List Op :=
  [.accept 5, .accept 6, .arrive 1 [0, 0], .arrive 2 [0, 0, 0, 1, 65, 0, 0, 0], .complete 2,
    .complete 2, .take, .lookUp, .wrote 3, .fail 1, .lookUp, .wrote 2]

theorem echo_in_order_twoSessions :
    ∃ srv s, run (step .little) start twoSessions = some srv ∧ srv.sessions 2 = some s ∧
      s.unread = [0, 0, 0] ∧ s.arrived = s.written ++ s.unread := by
  obtain ⟨srv, hrun, s, hs, hopen, hreading, hunread, hqueue, hsending⟩ :
      ∃ srv, run (step .little) start twoSessions = some srv ∧ ∃ s, srv.sessions 2 = some s ∧
        s.fd.isSome ∧ s.reading = .header ∧ s.unread = [0, 0, 0] ∧ srv.queue = [] ∧
          srv.sending = none :=
    ⟨_, rfl, _, rfl, rfl, rfl, rfl, rfl, rfl⟩
  have hspared : Along (step .little) (Spares .little) start twoSessions := by decide +kernel
  have hwhole := ((echo_in_order .little twoSessions hspared hrun).2 2 s hs).2 hopen
  rw [hqueue, hreading, hsending] at hwhole
  refine ⟨srv, s, hrun, hs, hunread, hwhole.trans ?_⟩
  rw [queued, List.filter_nil, List.map_nil, frames, List.flatMap_nil, Reading.read, unsent,
    List.append_nil, List.append_nil, List.append_nil]

/-! ## A session that is closed under a `write_some` -/

section Crossing
variable {host : Endian} {srv : Server} {id fd : Nat} {s : Session} {w : Sending}
  {head body rest : List UInt8}

theorem step_header (hs : srv.sessions id = some s) (hreading : s.reading = .header)
    (hunread : s.unread = head ++ rest) (hlen : head.length = headLen)
    (hrefused : ¬ refused (bodyLen host head)) :
    step host srv (.complete id) =
      some (srv.update id ({ s with unread := rest }.read (.body head))) := by
  have hwanted : s.wanted host = some headLen := by rw [Session.wanted, hreading]
  have hle : headLen ≤ s.unread.length := by
    rw [hunread, List.length_append, hlen]
    exact Nat.le_add_right ..
  have htake : s.unread.take headLen = head := by rw [hunread, ← hlen, List.take_left]
  have hdrop : s.unread.drop headLen = rest := by rw [hunread, ← hlen, List.drop_left]
  rw [step, hs, Option.bind_eq_bind, Option.bind_some, hwanted, Option.bind_eq_bind,
    Option.bind_some, if_pos hle]
  simp only [hreading, htake, hdrop, Server.onHeader, if_neg hrefused]

theorem step_body (hs : srv.sessions id = some s) (hreading : s.reading = .body head)
    (hunread : s.unread = body ++ rest) (hlen : body.length = (bodyLen host head).toNat) :
    step host srv (.complete id) =
      some (srv.onMessage id { s with unread := rest } body) := by
  have hwanted : s.wanted host = some body.length := by rw [Session.wanted, hreading, hlen]
  have hle : body.length ≤ s.unread.length := by
    rw [hunread, List.length_append]
    exact Nat.le_add_right ..
  have htake : s.unread.take body.length = body := by rw [hunread, List.take_left]
  have hdrop : s.unread.drop body.length = rest := by rw [hunread, List.drop_left]
  rw [step, hs, Option.bind_eq_bind, Option.bind_some, hwanted, Option.bind_eq_bind,
    Option.bind_some, if_pos hle]
  simp only [hreading, htake, hdrop]

theorem step_wrote (hw : srv.sending = some w) (hwfd : w.fd = some fd) (hfd : srv.fds fd = some id)
    (hs : srv.sessions id = some s) (hrest : w.rest ≠ []) :
    step host srv (.wrote w.rest.length) =
      some ({ srv with sending := none }.update id { s with written := s.written ++ w.rest }) := by
  have hbounds : 0 < w.rest.length ∧ w.rest.length ≤ w.rest.length :=
    ⟨List.length_pos_of_ne_nil hrest, Nat.le_refl _⟩
  rw [step, hw, Option.bind_eq_bind, Option.bind_some, hwfd, Option.bind_eq_bind, Option.bind_some,
    if_pos hbounds, Server.wrote, hfd, Option.bind_eq_bind, Option.bind_some, hs,
    Option.bind_eq_bind, Option.bind_some, List.take_length, List.drop_length]
  rfl

theorem bodyLen_store (host : Endian) (hbody : body.length < 2 ^ 32) :
    (bodyLen host (Endian.big.store headLen body.length)).toNat = body.length := by
  rw [bodyLen_header host (Endian.big.length_store ..), Endian.big.load_store]
  exact Nat.mod_eq_of_lt hbody

/-- The server in the runs below: the first session has the descriptor 5. -/
def Server.onFive (sessions : Nat → Option Session) (queue : List LogicMessage) : Server :=
  ⟨2, sessions, Function.update (fun _ => none) 5 (some 1), queue, none, []⟩

/-- A message arrives for the first session. -/
def arrival (body : List UInt8) : List Op := [.accept 5, .arrive 1 (frame body)]

/-- It is read and posted. -/
def posting : List Op := [.complete 1, .complete 1]

/-- The session is closed under the `write_some` of the answer, and its descriptor is that of
the second session. -/
def crossing : List Op := [.take, .lookUp, .fail 1, .accept 5]

theorem message_posted {sessions : Nat → Option Session} (hbody : body ≠ [])
    (hmax : body.length ≤ maxBody)
    (hs : sessions 1 = some ⟨some 5, .header, frame body, frame body, []⟩) :
    ∃ sessions', run (step host) (.onFive sessions []) posting =
      some (.onFive (Function.update sessions' 1 (some ⟨some 5, .header, frame body, [], []⟩))
        [⟨1, 0, body⟩]) := by
  have hlen := bodyLen_store host (Nat.lt_of_le_of_lt hmax (by decide))
  have hrefused : ¬ refused (bodyLen host (Endian.big.store headLen body.length)) := by
    rintro (hzero | hlong)
    · rw [hzero] at hlen
      exact hbody (List.length_eq_zero_iff.mp hlen.symm)
    · exact Nat.not_lt_of_le hmax (hlen ▸ hlong)
  have hheader := @step_header host (.onFive sessions []) 1 _ _ body hs rfl rfl
    (Endian.big.length_store ..) hrefused
  have hposted := @step_body host _ 1 _ _ body []
    (@sessions_update_self (.onFive sessions []) 1 ⟨some 5,
      .body (Endian.big.store headLen body.length), frame body, body, []⟩) rfl
    (List.append_nil body).symm hlen.symm
  refine ⟨Function.update sessions 1 (some ⟨some 5,
    .body (Endian.big.store headLen body.length), frame body, body, []⟩), ?_⟩
  rw [posting, run, hheader, Option.bind_some]
  exact congrArg (fun o => o.bind fun srv => run (step host) srv []) hposted

theorem closed_under_write (sessions : Nat → Option Session) :
    ∃ srv, run (step host)
        (.onFive (Function.update sessions 1 (some ⟨some 5, .header, frame body, [], []⟩))
          [⟨1, 0, body⟩]) crossing = some srv ∧
      srv.sending = some ⟨1, frameOf host body, some 5⟩ ∧ srv.fds 5 = some 2 ∧
      srv.sessions 1 = some ⟨none, .stopped, frame body, [], []⟩ ∧
      srv.sessions 2 = some (.make 5) :=
  ⟨_, rfl, rfl, rfl, rfl, rfl⟩

end Crossing

end CKernel.Net.LogicEcho
