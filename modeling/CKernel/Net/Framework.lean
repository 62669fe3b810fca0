/-
# `CKernel.Net.Framework` — the event loop of `framework_server.cpp`

One thread waits for events, reads and writes the sockets and hands whole lines to
a pool of workers; the workers hand back answers.  A step of the model is one
system call of the event loop, one step of a worker, or one thing the network does,
so that a run is any interleaving of them.  A call that `EINTR` interrupts is made
again at once and is no step.

The kernel's side of a connection is its `Peer`: what is still to come, what has
arrived, whether the client has shut down its sending direction.  Three fields of it
only record what happened (`received`, `cut`, `answered`), and so do `closings` and
`drained` of the server.

    what an event leaves to do                       (`handle`, `afterRecv`, `afterSend`, `endEvent`)
    every interleaving                               (`step`)
-/
import CKernel.Lib.Lines
import CKernel.Lib.Run

namespace CKernel.Net.Framework

abbrev Bytes := List UInt8

def newline : UInt8 := 10

/-! ## Connections and jobs -/

inductive State where
  | reading
  | processing
  | writing
  | closed
  deriving DecidableEq, Repr

/-- `Connection`, with the number of its socket. -/
structure Connection where
  fd : Nat
  state : State := .reading
  input : Bytes := []
  output : Bytes := []
  sent : Nat := 0
  peerEof : Bool := false
  deriving DecidableEq, Repr

/-- The kernel's and the client's side of a connection. -/
structure Peer where
  /-- what the client has still to send -/
  toCome : Bytes := []
  /-- what has arrived and waits for `recv` -/
  inbox : Bytes := []
  /-- the client's `FIN` has arrived -/
  fin : Bool := false
  /-- what `recv` has returned -/
  received : Bytes := []
  /-- the lines `dispatch_line` has cut off, as they came -/
  cut : List Bytes := []
  /-- what `send` has taken -/
  answered : Bytes := []
  /-- the `FIN` comes last -/
  ended : fin = true → toCome = [] := by simp
  deriving DecidableEq

namespace Peer

/-- What `recv` has not returned yet. -/
def unread (p : Peer) : Bytes := p.inbox ++ p.toCome

/-- All that the client sends. -/
def sends (p : Peer) : Bytes := p.received ++ p.unread

/-- `n` bytes arrive. -/
def arrive (p : Peer) (n : Nat) : Peer :=
  { p with
    toCome := p.toCome.drop n
    inbox := p.inbox ++ p.toCome.take n
    ended := fun hfin => by rw [p.ended hfin, List.drop_nil] }

/-- The `FIN` arrives. -/
def finish (p : Peer) (h : p.toCome = []) : Peer := { p with fin := true, ended := fun _ => h }

end Peer

structure Job where
  connection : Nat
  line : Bytes
  deriving DecidableEq, Repr

structure Completion where
  connection : Nat
  response : Bytes
  deriving DecidableEq, Repr

/-- The loop of a worker over `job.line`. -/
def upper (line : Bytes) : Bytes :=
  line.map fun c => if 97 ≤ c ∧ c ≤ 122 then c - 97 + 65 else c

/-- `"OK " + job.line + "\n"` -/
def response (line : Bytes) : Bytes := [79, 75, 32] ++ upper line ++ [newline]

/-- `if (!line.empty() && line.back() == '\r') line.pop_back()` -/
def popCr (line : Bytes) : Bytes :=
  if line.getLast? = some 13 then line.dropLast else line

/-! ## Events -/

structure Flags where
  epollin : Bool := false
  epollout : Bool := false
  epollrdhup : Bool := false
  epollerr : Bool := false
  epollhup : Bool := false
  deriving DecidableEq, Repr

/-- `flags & (EPOLLERR | EPOLLHUP | EPOLLRDHUP)` -/
def Flags.hangs (flags : Flags) : Bool := flags.epollerr || flags.epollhup || flags.epollrdhup

/-- Only `EPOLLERR` and `EPOLLHUP` are reported unasked. -/
def Flags.within (flags r : Flags) : Bool :=
  (!flags.epollin || r.epollin) && (!flags.epollout || r.epollout) &&
    (!flags.epollrdhup || r.epollrdhup)

/-- What a descriptor is to the loop: the listener, the `eventfd` or a socket. -/
inductive Target where
  | listener
  | notify
  | client (fd : Nat)
  deriving DecidableEq, Repr

structure Event where
  target : Target
  flags : Flags
  deriving DecidableEq, Repr

/-- `interest(c)` -/
def interest (c : Connection) : Flags where
  epollin := decide (c.state = .reading) && !c.peerEof
  epollout := decide (c.state = .writing)
  epollrdhup := true
  epollerr := true

/-! ## The server -/

/-- Where the event loop is: between two events, or in one of its inner loops. -/
inductive Pc where
  | wait
  | accept
  | recv (id : Nat) (flags : Flags)
  | send (id : Nat) (flags : Flags)
  | stopped
  deriving DecidableEq, Repr

/-- A connection is known by the number of its `accept4`, and what refers to it in
the source by a `shared_ptr` refers here to that number. -/
structure Server where
  workers : Nat
  connections : Nat → Connection
  peers : Nat → Peer
  /-- the number of the next connection -/
  next : Nat
  clients : Nat → Option Nat
  /-- what `epoll` was told to report for a socket -/
  registered : Nat → Option Flags
  /-- the events of the last `epoll_wait` that are still to be handled -/
  events : List Event
  pc : Pc
  jobs : List Job
  /-- the jobs workers are at -/
  held : List Job
  done : List Completion
  /-- the calls of `close_connection`, each with the state it found -/
  closings : List (Nat × State)
  /-- the completions drained: was the connection in `clients`, and in which state? -/
  drained : List (Bool × State)

namespace Server

def start (workers : Nat) : Server where
  workers := workers
  connections := fun _ => { fd := 0, state := .closed }
  peers := fun _ => {}
  next := 0
  clients := fun _ => none
  registered := fun _ => none
  events := []
  pc := .wait
  jobs := []
  held := []
  done := []
  closings := []
  drained := []

variable (s : Server) (id : Nat)

def setConnection (c : Connection) : Server :=
  { s with connections := Function.update s.connections id c }

def setPeer (p : Peer) : Server := { s with peers := Function.update s.peers id p }

/-- `epoll_add` and `epoll_mod` -/
def epollMod (fd : Nat) (flags : Flags) : Server :=
  { s with registered := Function.update s.registered fd (some flags) }

/-- `pool.submit(Job{c, line})` of the line cut off, without its `'\r'`. -/
def submit (line : Bytes) : Server :=
  let p := s.peers id
  { s with
    jobs := s.jobs ++ [⟨id, popCr line⟩]
    peers := Function.update s.peers id { p with cut := p.cut ++ [line] } }

/-- A line is moved out of the input, of which `rest` stays, and its job submitted. -/
def cutLine (line rest : Bytes) : Server :=
  (s.setConnection id { s.connections id with input := rest, state := .processing }).submit id line

/-- `dispatch_line(c, pool)` -/
def dispatchLine : Server × Bool :=
  let c := s.connections id
  if c.state ≠ .reading then (s, true)
  else
    match c.input.findIdx? (· = newline) with
    | none =>
        if 4096 < c.input.length then (s.setConnection id { c with state := .closed }, false)
        else (s, true)
    | some stop =>
        if 4096 < stop then (s.setConnection id { c with state := .closed }, false)
        else (s.cutLine id (c.input.take stop) (c.input.drop (stop + 1)), true)

/-- `close_connection(epfd, clients, c)` -/
def closeConnection : Server :=
  let c := s.connections id
  let s := s.setConnection id { c with state := .closed }
  { s with
    registered := Function.update s.registered c.fd none
    clients := if s.clients c.fd = some id then Function.update s.clients c.fd none else s.clients
    closings := s.closings ++ [(id, c.state)] }

/-! ## Handling one event -/

/-- The branch for the end of the client's bytes: is the connection still alive? -/
def atEof : Server × Bool :=
  let c := s.connections id
  if c.peerEof ∧ c.state = .reading then
    let (s, ok) := s.dispatchLine id
    (s, ok && decide ((s.connections id).state ≠ .reading))
  else (s, true)

def setEof : Server := s.setConnection id { s.connections id with peerEof := true }

/-- The last lines of the handler: the end of the client's bytes, and `epoll`. -/
def finishEvent (alive : Bool) : Server :=
  let (s, alive) := if alive then s.atEof id else (s, false)
  let s :=
    if alive then s.epollMod (s.connections id).fd (interest (s.connections id))
    else s.closeConnection id
  { s with pc := .wait }

/-- The handler after both inner loops. -/
def endEvent (flags : Flags) (alive : Bool) : Server :=
  (if flags.hangs then s.setEof id else s).finishEvent id alive

/-- Whether the loop around `send` is entered. -/
def beforeSend (flags : Flags) (alive : Bool) : Server :=
  if alive && flags.epollout && decide ((s.connections id).state = .writing) then
    { s with pc := .send id flags }
  else s.endEvent id flags alive

/-- After the loop around `recv`. -/
def afterRecv (flags : Flags) (alive : Bool) : Server :=
  if alive then
    let (s, alive) := s.dispatchLine id
    s.beforeSend id flags alive
  else s.beforeSend id flags false

/-- `c->output.clear(); c->sent = 0; c->state = State::reading` -/
def sentAll : Server :=
  s.setConnection id { s.connections id with output := [], sent := 0, state := .reading }

/-- After the loop around `send`. -/
def afterSend (flags : Flags) (alive : Bool) : Server :=
  let c := s.connections id
  if alive ∧ c.sent = c.output.length then
    let (s, alive) := (s.sentAll id).dispatchLine id
    s.endEvent id flags alive
  else s.endEvent id flags alive

/-- One turn of the loop over the completions. -/
def deliver (result : Completion) : Server :=
  let id := result.connection
  let c := s.connections id
  let found := decide (s.clients c.fd = some id)
  let s := { s with drained := s.drained ++ [(found, c.state)] }
  if !found || decide (c.state = .closed) then s
  else
    let c := { c with output := result.response, sent := 0, state := .writing }
    (s.setConnection id c).epollMod c.fd (interest c)

/-- The branch of the `eventfd`.  The swap is under the lock, and what follows it
is about data of the event loop alone. -/
def drain : Server := s.done.foldl deliver { s with done := [] }

/-- The body of the loop over the events. -/
def handle (e : Event) : Server :=
  match e.target with
  | .listener => { s with pc := .accept }
  | .notify => s.drain
  | .client fd =>
      match s.clients fd with
      | none => s
      | some id =>
          if e.flags.epollin then { s with pc := .recv id e.flags }
          else s.beforeSend id e.flags true

/-! ## Steps -/

/-- `epoll` may report of a socket what it was told to, and errors. -/
def reports (e : Event) : Bool :=
  match e.target with
  | .client fd =>
      match s.registered fd with
      | none => false
      | some r => e.flags.within r
  | _ => true

/-- `accept4` returns a descriptor that is not open. -/
def accepted (fd : Nat) (bytes : Bytes) : Server :=
  let c : Connection := { fd := fd }
  let s := (s.setConnection s.next c).setPeer s.next { toCome := bytes }
  let s := { s with clients := Function.update s.clients fd (some s.next), next := s.next + 1 }
  s.epollMod fd (interest c)

/-- `recv` returns `n` bytes. -/
def got (n : Nat) : Server :=
  let c := s.connections id
  let p := s.peers id
  let bytes := p.inbox.take n
  (s.setConnection id { c with input := c.input ++ bytes }).setPeer id
    { p with inbox := p.inbox.drop n, received := p.received ++ bytes }

/-- `send` takes `n` bytes. -/
def wrote (n : Nat) : Server :=
  let c := s.connections id
  let p := s.peers id
  (s.setConnection id { c with sent := c.sent + n }).setPeer id
    { p with answered := p.answered ++ (c.output.drop c.sent).take n }

/-- After the loop: `c->state = State::closed` for every client, `clients.clear()`. -/
def stop : Server :=
  { s with
    connections := fun id =>
      let c := s.connections id
      if s.clients c.fd = some id then { c with state := .closed } else c
    clients := fun _ => none
    pc := .stopped }

/-- In the loop around `recv`, or around `send`. -/
def inRecv (f : Nat → Flags → Option Server) : Option Server :=
  match s.pc with
  | .recv id flags => f id flags
  | _ => none

def inSend (f : Nat → Flags → Option Server) : Option Server :=
  match s.pc with
  | .send id flags => f id flags
  | _ => none

end Server

inductive Step where
  /-- `epoll_wait` returns these events -/
  | wait (events : List Event)
  /-- the loop turns to the next event -/
  | event
  /-- `accept4` returns a connection whose client sends these bytes -/
  | accepted (fd : Nat) (bytes : Bytes)
  /-- `accept4` returns an error -/
  | acceptDone
  | got (n : Nat)
  /-- `recv` returns `0` -/
  | eof
  /-- `recv` returns `EAGAIN` -/
  | recvAgain
  /-- `recv` returns an error -/
  | recvFail
  | wrote (n : Nat)
  /-- `send` returns `EAGAIN` -/
  | sendAgain
  /-- `send` returns an error, or `0` -/
  | sendFail
  /-- all is sent -/
  | sendDone
  /-- a worker takes the first job -/
  | take
  /-- a worker hands back the answer of the `i`-th job held -/
  | finish (i : Nat)
  /-- `n` bytes of a client arrive -/
  | arrive (id n : Nat)
  /-- a client's `FIN` arrives -/
  | fin (id : Nat)
  /-- a signal ends the loop -/
  | stop
  deriving DecidableEq, Repr

/-- `none` where the step is not possible. -/
def step (s : Server) : Step → Option Server
  | .wait events =>
      if s.pc = .wait ∧ s.events = [] ∧ events.length ≤ 128 ∧
          (events.map (·.target)).Nodup ∧ ∀ e ∈ events, s.reports e = true then
        some { s with events := events }
      else none
  | .event =>
      match s.events with
      | [] => none
      | e :: rest => if s.pc = .wait then some ({ s with events := rest }.handle e) else none
  | .accepted fd bytes =>
      if s.pc = .accept ∧ s.clients fd = none then some (s.accepted fd bytes) else none
  | .acceptDone => if s.pc = .accept then some { s with pc := .wait } else none
  | .got n => s.inRecv fun id _ =>
      if 0 < n ∧ n ≤ 2048 ∧ n ≤ (s.peers id).inbox.length then some (s.got id n) else none
  | .eof => s.inRecv fun id flags =>
      if (s.peers id).inbox = [] ∧ (s.peers id).fin = true then
        some ((s.setEof id).afterRecv id flags true)
      else none
  | .recvAgain => s.inRecv fun id flags =>
      if (s.peers id).inbox = [] ∧ (s.peers id).fin = false then
        some (s.afterRecv id flags true)
      else none
  | .recvFail => s.inRecv fun id flags => some (s.afterRecv id flags false)
  | .wrote n => s.inSend fun id _ =>
      if 0 < n ∧ (s.connections id).sent + n ≤ (s.connections id).output.length then
        some (s.wrote id n)
      else none
  | .sendAgain => s.inSend fun id flags =>
      if (s.connections id).sent < (s.connections id).output.length then
        some (s.afterSend id flags true)
      else none
  | .sendFail => s.inSend fun id flags =>
      if (s.connections id).sent < (s.connections id).output.length then
        some (s.afterSend id flags false)
      else none
  | .sendDone => s.inSend fun id flags =>
      if (s.connections id).sent < (s.connections id).output.length then none
      else some (s.afterSend id flags true)
  | .take =>
      match s.jobs with
      | [] => none
      | job :: jobs =>
          if s.held.length < s.workers then some { s with jobs := jobs, held := s.held ++ [job] }
          else none
  | .finish i =>
      match s.held[i]? with
      | none => none
      | some job =>
          some { s with
            held := s.held.eraseIdx i
            done := s.done ++ [⟨job.connection, response job.line⟩] }
  | .arrive id n =>
      if 0 < n ∧ n ≤ (s.peers id).toCome.length then
        some (s.setPeer id ((s.peers id).arrive n))
      else none
  | .fin id =>
      if h : id < s.next ∧ (s.peers id).toCome = [] then
        some (s.setPeer id ((s.peers id).finish h.2))
      else none
  | .stop => if s.pc = .wait ∧ s.events = [] then some s.stop else none

/-- A run of `run_server` with this many workers. -/
abbrev Reaches (workers : Nat) (steps : List Step) (s : Server) : Prop :=
  Run.run step (Server.start workers) steps = some s

end CKernel.Net.Framework
