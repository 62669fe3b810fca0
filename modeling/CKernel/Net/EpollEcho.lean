/-
# `CKernel.Net.EpollEcho` — the TCP side of `epoll_tcp_udp.cpp`

One thread takes events from `epoll` and echoes what its clients send.  A step of
the model is an accepted connection, an event that is taken up, or one answer of
`recv` or `send` inside the handler, so that what holds after every step holds at
every moment.  Events come with any flags, in either mode; `epoll_ctl` succeeds.

What `recv` and `send` did on a connection is recorded in its `Traffic`.

    the handler after its `recv` and `send` loops             (`afterRecv`, `sendLoop`, `endEvent`)
    a step keeps what the buffer says, and closes in good order  (`step_inv`)
    so do all runs                                            (`echo_faithful`)
-/
import CKernel.Lib.Run

namespace CKernel.Net.EpollEcho

open Run

abbrev Bytes := List UInt8

/-! ## The code -/

structure Flags where
  epollin : Bool := false
  epollout : Bool := false
  epollrdhup : Bool := false
  epollerr : Bool := false
  epollhup : Bool := false
  epollet : Bool := false
  deriving DecidableEq, Repr

structure Client where
  out : Bytes := []
  sent : Nat := 0
  eof : Bool := false
  deriving DecidableEq, Repr

/-- What has happened on a connection. -/
structure Traffic where
  /-- what `recv` has returned -/
  received : Bytes := []
  /-- `recv` has returned zero -/
  ended : Bool := false
  /-- what `send` has taken -/
  echoed : Bytes := []
  /-- an error of `recv` or `send`, or `EPOLLERR` -/
  failed : Bool := false
  deriving DecidableEq, Repr

/-- A client, what `epoll` watches its socket for, and its traffic. -/
structure Conn where
  client : Client := {}
  interest : Flags
  traffic : Traffic := {}
  deriving DecidableEq, Repr

/-- Something failed on the connection, if `b`. -/
def Conn.fail (conn : Conn) (b : Bool) : Conn :=
  { conn with traffic := { conn.traffic with failed := conn.traffic.failed || b } }

/-- `update(ep, fd, c, et)` -/
def update (c : Client) (et : Bool) : Flags where
  epollin := !c.eof
  epollrdhup := !c.eof
  epollet := et
  epollout := c.sent < c.out.length

inductive Loop where
  | recv
  | send
  deriving DecidableEq, Repr

/-- The event under way, and in which of its loops the handler is. -/
structure Current where
  fd : Nat
  flags : Flags
  loop : Loop
  deriving DecidableEq, Repr

structure Server where
  et : Bool
  clients : Nat → Option Conn
  current : Option Current
  /-- the connections closed, with their descriptors -/
  closed : List (Nat × Traffic)

namespace Server

def make (et : Bool) : Server := ⟨et, fun _ => none, none, []⟩

/-- The end of the handler: `EPOLL_CTL_DEL` and `close`, or `update`. -/
def endEvent (s : Server) (fd : Nat) (flags : Flags) (conn : Conn) (alive : Bool) : Server :=
  let c := conn.client
  let alive := if flags.epollerr then false else alive
  let alive := if c.eof && c.sent == c.out.length then false else alive
  if alive then
    let conn := { conn with interest := update c s.et }
    { s with clients := Function.update s.clients fd (some conn), current := none }
  else
    { s with
      clients := Function.update s.clients fd none
      current := none
      closed := s.closed ++ [(fd, conn.traffic)] }

/-- `while (c.sent < c.out.size())`: the next `send`, or the end of the loop, where a
buffer that is sent is cleared. -/
def sendLoop (s : Server) (fd : Nat) (flags : Flags) (conn : Conn) : Server :=
  let c := conn.client
  if c.sent < c.out.length then
    { s with
      clients := Function.update s.clients fd (some conn)
      current := some ⟨fd, flags, .send⟩ }
  else if c.sent = c.out.length then
    s.endEvent fd flags { conn with client := { c with out := [], sent := 0 } } true
  else s.endEvent fd flags conn true

/-- The handler from after its `recv` loop. -/
def afterRecv (s : Server) (fd : Nat) (flags : Flags) (conn : Conn) (alive : Bool) : Server :=
  if alive && (flags.epollout || conn.client.sent < conn.client.out.length) then
    s.sendLoop fd flags conn
  else s.endEvent fd flags conn alive

/-- `accept4` returns `fd`, a number that is not open. -/
def accept (s : Server) (fd : Nat) : Option Server :=
  match s.current, s.clients fd with
  | none, none =>
      let interest := { epollin := true, epollrdhup := true, epollet := s.et }
      some { s with clients := Function.update s.clients fd (some { interest }) }
  | _, _ => none

/-- An event for `fd` is taken up. -/
def event (s : Server) (fd : Nat) (flags : Flags) : Option Server :=
  match s.current with
  | some _ => none
  | none =>
      match s.clients fd with
      | none => some s
      | some conn =>
          let conn := conn.fail flags.epollerr
          if flags.epollin || flags.epollrdhup || flags.epollhup then
            some { s with
              clients := Function.update s.clients fd (some conn)
              current := some ⟨fd, flags, .recv⟩ }
          else some (s.afterRecv fd flags conn true)

inductive RecvAnswer where
  | data (bytes : Bytes)
  | eof
  | eintr
  | again
  | error
  deriving DecidableEq, Repr

inductive SendAnswer where
  | took (n : Nat)
  | eintr
  | again
  | error
  deriving DecidableEq, Repr

/-- `char b[4096]` -/
def bufferSize : Nat := 4096

/-- An answer of `recv(fd, b, sizeof b, 0)`. -/
def recv (s : Server) (fd : Nat) (flags : Flags) (conn : Conn) : RecvAnswer → Option Server
  | .data bytes =>
      if bytes = [] ∨ bufferSize < bytes.length then none
      else
        let conn := { conn with
          client := { conn.client with out := conn.client.out ++ bytes }
          traffic := { conn.traffic with received := conn.traffic.received ++ bytes } }
        some { s with clients := Function.update s.clients fd (some conn) }
  | .eof =>
      let conn := { conn with
        client := { conn.client with eof := true }
        traffic := { conn.traffic with ended := true } }
      some (s.afterRecv fd flags conn true)
  | .eintr => some s
  | .again => some (s.afterRecv fd flags conn true)
  | .error => some (s.afterRecv fd flags (conn.fail true) false)

/-- An answer of `send(fd, c.out.data() + c.sent, c.out.size() - c.sent, ..)`. -/
def send (s : Server) (fd : Nat) (flags : Flags) (conn : Conn) : SendAnswer → Option Server
  | .took n =>
      let unsent := conn.client.out.drop conn.client.sent
      if n = 0 ∨ unsent.length < n then none
      else
        let conn := { conn with
          client := { conn.client with sent := conn.client.sent + n }
          traffic := { conn.traffic with echoed := conn.traffic.echoed ++ unsent.take n } }
        some (s.sendLoop fd flags conn)
  | .eintr => some s
  | .again => some (s.endEvent fd flags conn true)
  | .error => some (s.endEvent fd flags (conn.fail true) false)

inductive Op where
  | accept (fd : Nat)
  | event (fd : Nat) (flags : Flags)
  | recv (answer : RecvAnswer)
  | send (answer : SendAnswer)
  deriving DecidableEq, Repr

/-- The handler's connection, when it waits in this loop. -/
def waiting (s : Server) (loop : Loop) : Option (Nat × Flags × Conn) := do
  let cur ← s.current
  if cur.loop = loop then
    let conn ← s.clients cur.fd
    some (cur.fd, cur.flags, conn)
  else none

/-- `none` for what cannot happen in this state. -/
def step (s : Server) : Op → Option Server
  | .accept fd => s.accept fd
  | .event fd flags => s.event fd flags
  | .recv answer => do
      let (fd, flags, conn) ← s.waiting .recv
      s.recv fd flags conn answer
  | .send answer => do
      let (fd, flags, conn) ← s.waiting .send
      s.send fd flags conn answer

/-! ## What the results say -/

/-- What is sent back is what was received, up to the rest of the buffer. -/
def Echoes (c : Client) (t : Traffic) : Prop :=
  t.received = t.echoed ++ c.out.drop c.sent ∧ c.sent ≤ c.out.length ∧ c.eof = t.ended

/-- A connection that is closed: the echo is a prefix, and unless it failed all of
what was received until its end. -/
def Settled (t : Traffic) : Prop :=
  t.echoed <+: t.received ∧ (t.failed = false → t.ended = true ∧ t.echoed = t.received)

/-! ## The invariant -/

structure Inv (s : Server) : Prop where
  echoes : ∀ fd conn, s.clients fd = some conn → Echoes conn.client conn.traffic
  settled : ∀ e ∈ s.closed, Settled e.2
  current : ∀ cur ∈ s.current, ∀ conn, s.clients cur.fd = some conn →
    cur.flags.epollerr = true → conn.traffic.failed = true

variable {s s' : Server} {fd : Nat} {flags : Flags} {conn : Conn} {alive : Bool}

theorem Echoes.isPrefix {c : Client} {t : Traffic} (h : Echoes c t) : t.echoed <+: t.received := by
  rw [h.1]
  exact List.prefix_append _ _

theorem inv_make (et : Bool) : Inv (make et) := by
  refine ⟨fun fd conn h => ?_, fun e he => ?_, fun cur hcur => ?_⟩
  · cases h
  · cases he
  · cases hcur

theorem Echoes.fail (h : Echoes conn.client conn.traffic) (b : Bool) :
    Echoes (conn.fail b).client (conn.fail b).traffic := h

theorem failed_fail {b : Bool} (hb : b = true) : (conn.fail b).traffic.failed = true := by
  rw [hb]
  exact Bool.or_true _

/-- One connection is written, the others stay. -/
theorem Inv.set (h : Inv s) (hconn : Echoes conn.client conn.traffic) (fd' : Nat) (conn' : Conn)
    (hclient : Function.update s.clients fd (some conn) fd' = some conn') :
    Echoes conn'.client conn'.traffic := by
  by_cases hfd : fd' = fd
  · rw [hfd, Function.update_self] at hclient
    cases hclient
    exact hconn
  · rw [Function.update_of_ne hfd] at hclient
    exact h.echoes fd' conn' hclient

/-- The handler goes on with its connection. -/
theorem Inv.goOn (h : Inv s) (hconn : Echoes conn.client conn.traffic) (loop : Loop)
    (hfailed : flags.epollerr = true → conn.traffic.failed = true) :
    Inv { s with
      clients := Function.update s.clients fd (some conn)
      current := some ⟨fd, flags, loop⟩ } := by
  refine ⟨h.set hconn, h.settled, ?_⟩
  intro cur hcur conn' hclient herr
  cases hcur
  dsimp only at hclient herr
  rw [Function.update_self] at hclient
  cases hclient
  exact hfailed herr

theorem endEvent_inv (h : Inv s) (hconn : Echoes conn.client conn.traffic)
    (hfailed : flags.epollerr = true → conn.traffic.failed = true)
    (halive : alive = false → conn.traffic.failed = true) :
    Inv (s.endEvent fd flags conn alive) := by
  obtain ⟨hreceived, hle, heof⟩ := hconn
  rw [endEvent]
  dsimp only
  generalize hstays : (if (conn.client.eof && conn.client.sent == conn.client.out.length) = true
    then false else if flags.epollerr = true then false else alive) = stays
  cases stays with
  | true =>
    refine ⟨h.set ⟨hreceived, hle, heof⟩, h.settled, fun cur hcur => ?_⟩
    cases hcur
  | false =>
    refine ⟨fun fd' conn' hclient => ?_, fun e he => ?_, fun cur hcur => ?_⟩
    · change Function.update s.clients fd none fd' = some conn' at hclient
      by_cases hfd : fd' = fd
      · rw [hfd, Function.update_self] at hclient
        cases hclient
      · rw [Function.update_of_ne hfd] at hclient
        exact h.echoes fd' conn' hclient
    · rcases List.mem_append.mp he with he | he
      · exact h.settled e he
      · obtain rfl := List.mem_singleton.mp he
        refine ⟨Echoes.isPrefix ⟨hreceived, hle, heof⟩, fun hok => ?_⟩
        -- neither an error nor `EPOLLERR`: it is closed for its end
        have herr : flags.epollerr = false := by
          by_contra hset
          rw [hfailed (Bool.of_not_eq_false hset)] at hok
          cases hok
        have hal : alive = true := by
          by_contra hdead
          rw [halive (Bool.of_not_eq_true hdead)] at hok
          cases hok
        rw [herr, hal] at hstays
        have hend : conn.client.eof = true ∧ conn.client.sent = conn.client.out.length := by
          simpa using hstays
        refine ⟨heof.symm.trans hend.1, ?_⟩
        rw [hreceived, hend.2, List.drop_length, List.append_nil]
    · cases hcur

theorem sendLoop_inv (h : Inv s) (hconn : Echoes conn.client conn.traffic)
    (hfailed : flags.epollerr = true → conn.traffic.failed = true) :
    Inv (s.sendLoop fd flags conn) := by
  have halive : true = false → conn.traffic.failed = true := fun h => by cases h
  rw [sendLoop]
  split
  case isTrue hmore => exact h.goOn hconn .send hfailed
  case isFalse hdone =>
    split
    case isTrue hall =>
      refine endEvent_inv h ?_ hfailed halive
      refine ⟨?_, Nat.le_refl 0, hconn.2.2⟩
      rw [hconn.1, hall, List.drop_length]
      rfl
    case isFalse => exact endEvent_inv h hconn hfailed halive

theorem afterRecv_inv (h : Inv s) (hconn : Echoes conn.client conn.traffic)
    (hfailed : flags.epollerr = true → conn.traffic.failed = true)
    (halive : alive = false → conn.traffic.failed = true) :
    Inv (s.afterRecv fd flags conn alive) := by
  rw [afterRecv]
  split
  · exact sendLoop_inv h hconn hfailed
  · exact endEvent_inv h hconn hfailed halive

/-! ## One step -/

theorem accept_inv (h : Inv s) (hs : s.accept fd = some s') : Inv s' := by
  rw [accept] at hs
  split at hs
  case h_1 hcurrent hnew =>
    cases hs
    refine ⟨h.set ⟨rfl, Nat.le_refl 0, rfl⟩, h.settled, fun cur hcur => ?_⟩
    rw [hcurrent] at hcur
    cases hcur
  case h_2 => cases hs

theorem event_inv (h : Inv s) (hs : s.event fd flags = some s') : Inv s' := by
  rw [event] at hs
  split at hs
  case h_1 => cases hs
  case h_2 hcurrent =>
    split at hs
    case h_1 =>
      cases hs
      exact h
    case h_2 conn hclient =>
      have hconn := (h.echoes fd conn hclient).fail flags.epollerr
      have hfailed := @failed_fail conn flags.epollerr
      split at hs
      · cases hs
        exact h.goOn hconn .recv hfailed
      · cases hs
        exact afterRecv_inv h hconn hfailed fun h => by cases h

theorem waiting_some {loop : Loop} (h : s.waiting loop = some (fd, flags, conn)) :
    s.current = some ⟨fd, flags, loop⟩ ∧ s.clients fd = some conn := by
  obtain ⟨cur, hcur, h⟩ := Option.bind_eq_some_iff.mp h
  split at h
  case isTrue hloop =>
    obtain ⟨conn', hclient, h⟩ := Option.bind_eq_some_iff.mp h
    cases h
    rw [← hloop]
    exact ⟨hcur, hclient⟩
  case isFalse => cases h

theorem recv_inv (h : Inv s) (hwait : s.waiting .recv = some (fd, flags, conn))
    (answer : RecvAnswer) (hs : s.recv fd flags conn answer = some s') : Inv s' := by
  obtain ⟨hcur, hclient⟩ := waiting_some hwait
  have hfailed := h.current _ hcur conn hclient
  have hconn := h.echoes fd conn hclient
  have ⟨hreceived, hle, heof⟩ := hconn
  cases answer with
  | data bytes =>
      rw [recv] at hs
      split at hs
      · cases hs
      · cases hs
        have hmore : Echoes { conn.client with out := conn.client.out ++ bytes }
            { conn.traffic with received := conn.traffic.received ++ bytes } := by
          refine ⟨?_, ?_, heof⟩
          · dsimp only
            rw [hreceived, List.drop_append_of_le_length hle, List.append_assoc]
          · dsimp only
            rw [List.length_append]
            exact Nat.le_add_right_of_le hle
        rw [hcur]
        exact h.goOn hmore .recv hfailed
  | eof =>
      cases hs
      refine afterRecv_inv h ⟨hreceived, hle, rfl⟩ hfailed fun h => ?_
      cases h
  | eintr =>
      cases hs
      exact h
  | again =>
      cases hs
      refine afterRecv_inv h hconn hfailed fun h => ?_
      cases h
  | error =>
      cases hs
      exact afterRecv_inv h (hconn.fail true) (fun _ => failed_fail rfl) fun _ => failed_fail rfl

theorem send_inv (h : Inv s) (hwait : s.waiting .send = some (fd, flags, conn))
    (answer : SendAnswer) (hs : s.send fd flags conn answer = some s') : Inv s' := by
  obtain ⟨hcur, hclient⟩ := waiting_some hwait
  have hfailed := h.current _ hcur conn hclient
  have hconn := h.echoes fd conn hclient
  have ⟨hreceived, hle, heof⟩ := hconn
  cases answer with
  | took n =>
      rw [send] at hs
      dsimp only at hs
      split at hs
      · cases hs
      case isFalse hn =>
        cases hs
        rw [not_or, Nat.not_lt, List.length_drop] at hn
        refine sendLoop_inv h ⟨?_, ?_, heof⟩ hfailed
        · dsimp only
          rw [hreceived, List.append_assoc, ← List.drop_drop, List.take_append_drop]
        · dsimp only
          omega
  | eintr =>
      cases hs
      exact h
  | again =>
      cases hs
      refine endEvent_inv h hconn hfailed fun h => ?_
      cases h
  | error =>
      cases hs
      exact endEvent_inv h (hconn.fail true) (fun _ => failed_fail rfl) fun _ => failed_fail rfl

theorem step_inv (s : Server) (op : Op) (s' : Server) (h : Inv s) (hs : s.step op = some s') :
    Inv s' := by
  cases op with
  | accept fd => exact accept_inv h hs
  | event fd flags => exact event_inv h hs
  | recv answer =>
      obtain ⟨⟨fd, flags, conn⟩, hwait, hs⟩ := Option.bind_eq_some_iff.mp hs
      exact recv_inv h hwait answer hs
  | send answer =>
      obtain ⟨⟨fd, flags, conn⟩, hwait, hs⟩ := Option.bind_eq_some_iff.mp hs
      exact send_inv h hwait answer hs

/-! ## Runs -/

/-- After every step of every run, in either mode: what was sent back to a client is a
prefix of what it sent, the rest is what its buffer still holds, and a connection is
closed only with all of it sent back after its end, or for an error. -/
theorem echo_faithful (et : Bool) (ops : List Op) (s : Server)
    (hrun : run step (make et) ops = some s) :
    (∀ fd conn, s.clients fd = some conn →
      conn.traffic.echoed <+: conn.traffic.received ∧
        conn.traffic.received =
          conn.traffic.echoed ++ conn.client.out.drop conn.client.sent ∧
        conn.client.sent ≤ conn.client.out.length) ∧
      ∀ e ∈ s.closed, e.2.echoed <+: e.2.received ∧
        (e.2.failed = false → e.2.ended = true ∧ e.2.echoed = e.2.received) := by
  have hinv : Inv s := run_keeps step_inv ops (inv_make et) hrun
  refine ⟨fun fd conn hclient => ?_, hinv.settled⟩
  have hconn := hinv.echoes fd conn hclient
  exact ⟨hconn.isPrefix, hconn.1, hconn.2.1⟩

/-- A short send, then the client shuts down before the rest is sent. -/
def halfClose : List Op :=
  [.accept 7, .event 7 { epollin := true }, .recv (.data [1, 2, 3]), .recv .again,
    .send (.took 1), .send .again, .event 7 { epollin := true, epollrdhup := true }, .recv .eof,
    .send .again, .event 7 { epollout := true }, .send (.took 2)]

theorem isSome_halfClose : (run step (make true) halfClose).isSome = true := by
  decide +kernel

theorem echo_faithful_halfClose :
    ((run step (make true) halfClose).get isSome_halfClose).closed =
        [(7, ⟨[1, 2, 3], true, [1, 2, 3], false⟩)] ∧
      ∀ e ∈ ((run step (make true) halfClose).get isSome_halfClose).closed,
        e.2.echoed <+: e.2.received ∧
          (e.2.failed = false → e.2.ended = true ∧ e.2.echoed = e.2.received) :=
  ⟨by decide +kernel, (echo_faithful true halfClose _ (Option.some_get isSome_halfClose).symm).2⟩

end Server

end CKernel.Net.EpollEcho
