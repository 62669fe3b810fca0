/-
# `CKernel.Net.ChatServer` — the chat server of `chat_demo.cpp`

`ChatServer` keeps two vectors side by side: `fds_`, with the listening socket
in front, is what `poll` watches, and `clients_[i]` owns the descriptor
`fds_[i + 1].fd`.  A round of `run` polls, accepts, and walks `fds_` from the
back; a client that has something to say is read, and what it says is sent to
all others.  A client that fails is erased from both vectors on the spot.

What `recv` and `send_all` return is up to an `Env` that knows everything that
has happened since `poll` returned.  An index outside a vector is the result
`none`.

    erasing one entry from both vectors                             (`removeClient_mid`)
    the loop over entries that are not the sender's                  (`broadcastLoop_run`)
    `broadcast` delivers to those before the sender and to those
      behind it                                                      (`broadcast_eq`)
    a round leads from a reachable server to a reachable one         (`Reaches.round`)
    the vectors stay aligned, with distinct descriptors              (`Reaches.inv`)
    everyone else is sent the message once; those who fail are gone  (`broadcast_reaches_all`)
-/
import CKernel.Lib.Run

namespace CKernel.Net.ChatServer

abbrev Bytes := List UInt8

/-! ## The code -/

/-- The bits of `revents` that `run` looks at. -/
structure Revents where
  pollin : Bool := false
  pollerr : Bool := false
  pollhup : Bool := false
  pollnval : Bool := false
  deriving DecidableEq, Repr

/-- `revents & (POLLERR | POLLHUP | POLLNVAL)` -/
def Revents.bad (r : Revents) : Bool := r.pollerr || r.pollhup || r.pollnval

/-- `pollfd`; `events` is `POLLIN` throughout. -/
structure Pollfd where
  fd : Nat
  revents : Revents := {}
  deriving DecidableEq, Repr

/-- Why `remove_client` is called. -/
inductive Cause where
  /-- `recv` has returned zero or an error -/
  | recv
  /-- `send_all` has failed -/
  | send
  /-- the `events` of this client -/
  | events (owner : Nat)
  deriving DecidableEq, Repr

/-- What happens in a round. -/
inductive Event where
  /-- `read_client` -/
  | read (fd : Nat)
  /-- `send_all`, and whether it has sent everything -/
  | send (fd : Nat) (msg : Bytes) (ok : Bool)
  | removed (fd : Nat) (cause : Cause)
  deriving DecidableEq, Repr

/-- What `recv` returns. -/
inductive Recv where
  | bytes (msg : Bytes)
  | eintr
  | error
  deriving DecidableEq, Repr

/-- The answers of the sockets, which may depend on all that happened before. -/
structure Env where
  recv : List Event → Nat → Recv
  send : List Event → Nat → Bytes → Bool

/-- `clients_`, `fds_`, and what has happened since `poll` returned. -/
structure Server where
  clients : List Nat
  fds : List Pollfd
  log : List Event
  deriving DecidableEq, Repr

/-- What `send_all` is called with. -/
def Event.sending : Event → Option (Nat × Bytes)
  | .read _ => none
  | .send fd msg _ => some (fd, msg)
  | .removed _ _ => none

/-- Who is removed. -/
def Event.removal : Event → Option Nat
  | .read _ => none
  | .send _ _ _ => none
  | .removed fd _ => some fd

namespace Server

def record (s : Server) (e : Event) : Server := { s with log := s.log ++ [e] }

/-- `remove_client(index)`.  The `Socket` erased from `clients_` closes its descriptor. -/
def removeClient (s : Server) (index : Nat) (cause : Cause) : Option Server := do
  let p ← s.fds[index]?
  if index = 0 ∨ s.clients.length < index then none
  else some { clients := s.clients.eraseIdx (index - 1), fds := s.fds.eraseIdx index,
              log := s.log ++ [Event.removed p.fd cause] }

/-- The loop of `broadcast`; it ends where `i < fds_.size()` fails. -/
def broadcastLoop (env : Env) (msg : Bytes) : Nat → Server → Nat → Nat → Option Server
  | 0, _, _, _ => none
  | fuel + 1, s, sender, i =>
      match s.fds[i]? with
      | none => some s
      | some p =>
          if i = sender then broadcastLoop env msg fuel s sender (i + 1)
          else
            let ok := env.send s.log p.fd msg
            let s := s.record (.send p.fd msg ok)
            if ok then broadcastLoop env msg fuel s sender (i + 1)
            else do
              let s ← s.removeClient i .send
              broadcastLoop env msg fuel s (if i < sender then sender - 1 else sender) i

/-- `broadcast(sender, msg)`.  Each iteration advances `i` or shortens `fds_`. -/
def broadcast (env : Env) (s : Server) (sender : Nat) (msg : Bytes) : Option Server :=
  broadcastLoop env msg (s.fds.length + 1) s sender 1

def readClient (env : Env) (s : Server) (index : Nat) : Option (Bool × Server) := do
  let p ← s.fds[index]?
  let s := s.record (.read p.fd)
  match env.recv s.log p.fd with
  | .bytes msg =>
      if 0 < msg.length then do
        let s ← s.broadcast env index msg
        some (true, s)
      else do
        let s ← s.removeClient index .recv
        some (false, s)
  | .eintr => some (true, s)
  | .error => do
      let s ← s.removeClient index .recv
      some (false, s)

/-- The second `if` of the loop, with the entry that `fds_[i]` was at first. -/
def checkErrors (s : Server) (i : Nat) (p : Pollfd) : Option Server :=
  if p.revents.bad then s.removeClient i (.events p.fd) else some s

/-- One iteration of the loop of `run`. -/
def serveClient (env : Env) (s : Server) (i : Nat) : Option Server := do
  let p ← s.fds[i]?
  if p.revents.pollin then do
    let (alive, s) ← s.readClient env i
    if alive then s.checkErrors i p else some s
  else s.checkErrors i p

/-- `for (i = ..; i-- > 1;)` -/
def serveLoop (env : Env) : Nat → Server → Option Server
  | 0, s => some s
  | 1, s => some s
  | i + 2, s => do
      let s ← s.serveClient env (i + 1)
      s.serveLoop env (i + 1)

/-- `MAX_CLIENTS` -/
def maxClients : Nat := 64

/-- `accept_client`; `client` is what `accept` returns, if it does not fail. -/
def acceptClient (s : Server) : Option Nat → Server
  | none => s
  | some fd =>
      if maxClients ≤ s.clients.length then s
      else { s with clients := s.clients ++ [fd], fds := s.fds ++ [{ fd := fd }] }

/-- `poll` fills in the `revents`. -/
def poll (s : Server) (revents : List Revents) : Server :=
  { s with fds := List.zipWith (fun p r => { p with revents := r }) s.fds revents, log := [] }

/-- A round up to the loop. -/
def opened (s : Server) (revents : List Revents) (client : Option Nat) : Option Server := do
  let s := s.poll revents
  let first ← s.fds[0]?
  some (if first.revents.pollin then s.acceptClient client else s)

/-- A round of `run` in which `poll` does not fail. -/
def round (env : Env) (s : Server) (revents : List Revents) (client : Option Nat) :
    Option Server := do
  let s ← s.opened revents client
  s.serveLoop env s.fds.length

/-- `start()`, with the listening socket's descriptor. -/
def start (listenFd : Nat) : Server := ⟨[], [{ fd := listenFd }], []⟩

/-- The servers that `start` and the parts of rounds lead to.  `accept` returns
a descriptor that is not open. -/
inductive Reaches (listenFd : Nat) : Server → Prop where
  | start : Reaches listenFd (start listenFd)
  | opened {s s' : Server} (revents : List Revents) (client : Option Nat) :
      Reaches listenFd s → revents.length = s.fds.length →
      (∀ fd ∈ client, fd ∉ s.fds.map Pollfd.fd) → s.opened revents client = some s' →
      Reaches listenFd s'
  /-- inside `read_client`, before `broadcast` -/
  | record {s : Server} (e : Event) : Reaches listenFd s → Reaches listenFd (s.record e)
  | serveClient {s s' : Server} (env : Env) (i : Nat) :
      Reaches listenFd s → s.serveClient env i = some s' → Reaches listenFd s'

theorem two_clients :
    Reaches 3 ⟨[4, 5], [⟨3, { pollin := true }⟩, ⟨4, {}⟩, { fd := 5 }], []⟩ := by
  have h : Reaches 3 ⟨[4], [⟨3, { pollin := true }⟩, { fd := 4 }], []⟩ :=
    .opened [{ pollin := true }] (some 4) .start rfl (by decide) rfl
  exact .opened [{ pollin := true }, {}] (some 5) h rfl (by decide) rfl

theorem three_clients :
    Reaches 3 ⟨[4, 5, 6], [⟨3, { pollin := true }⟩, ⟨4, {}⟩, ⟨5, {}⟩, { fd := 6 }], []⟩ :=
  .opened [{ pollin := true }, {}, {}] (some 6) two_clients rfl (by decide) rfl

/-! ## The two vectors -/

/-- The server whose `clients_` own the descriptors of `fds_`, in order. -/
def ofFds (fds : List Pollfd) (log : List Event) : Server := ⟨(fds.map Pollfd.fd).tail, fds, log⟩

@[simp] theorem ofFds_fds (fds : List Pollfd) (log : List Event) : (ofFds fds log).fds = fds := rfl

@[simp] theorem ofFds_log (fds : List Pollfd) (log : List Event) : (ofFds fds log).log = log := rfl

@[simp] theorem record_ofFds (fds : List Pollfd) (log : List Event) (e : Event) :
    (ofFds fds log).record e = ofFds fds (log ++ [e]) := rfl

/-- `clients_[i]` owns the descriptor `fds_[i + 1].fd`, and the listening socket is
in front. -/
structure Inv (listenFd : Nat) (s : Server) : Prop where
  aligned : s.fds.map Pollfd.fd = listenFd :: s.clients
  nodup : (listenFd :: s.clients).Nodup

/-- An entry at an index other than 0 goes from both vectors. -/
theorem removeClient_mid {front back : List Pollfd} (p : Pollfd) (log : List Event)
    (hfront : front ≠ []) (cause : Cause) :
    (ofFds (front ++ p :: back) log).removeClient front.length cause
      = some (ofFds (front ++ back) (log ++ [Event.removed p.fd cause])) := by
  obtain ⟨first, front, rfl⟩ := List.exists_cons_of_ne_nil hfront
  have hget : (first :: front ++ p :: back)[(first :: front).length]? = some p :=
    List.getElem?_append_right (Nat.le_refl _) |>.trans (by simp)
  have hclients : ((first :: front ++ p :: back).map Pollfd.fd).tail
      = front.map Pollfd.fd ++ p.fd :: back.map Pollfd.fd := by simp
  have herase : (front.map Pollfd.fd ++ p.fd :: back.map Pollfd.fd).eraseIdx front.length
      = front.map Pollfd.fd ++ back.map Pollfd.fd := by
    rw [List.eraseIdx_append_of_length_le (by simp)]
    simp
  have hfds : (first :: front ++ p :: back).eraseIdx (first :: front).length
      = first :: front ++ back := by
    rw [List.eraseIdx_append_of_length_le (Nat.le_refl _)]
    simp
  have hin : ¬ ((first :: front).length = 0 ∨
      (front.map Pollfd.fd ++ p.fd :: back.map Pollfd.fd).length < (first :: front).length) := by
    simp
  simp only [removeClient, ofFds, hclients, hget, Option.bind_eq_bind, Option.bind_some, if_neg hin,
    hfds]
  simp only [List.length_cons, Nat.add_sub_cancel, herase, List.cons_append, List.map_cons,
    List.map_append, List.tail_cons]

/-! ## Broadcasting -/

/-- `send_all` to each of `ps` in turn: those who stay, and what has happened. -/
def deliver (env : Env) (msg : Bytes) : List Event → List Pollfd → List Pollfd × List Event
  | log, [] => ([], log)
  | log, p :: ps =>
      if env.send log p.fd msg then
        let rest := deliver env msg (log ++ [Event.send p.fd msg true]) ps
        (p :: rest.1, rest.2)
      else deliver env msg (log ++ [Event.send p.fd msg false, .removed p.fd .send]) ps

theorem deliver_sent {env : Env} {msg : Bytes} {log : List Event} {p : Pollfd}
    (h : env.send log p.fd msg = true) (ps : List Pollfd) :
    deliver env msg log (p :: ps)
      = (p :: (deliver env msg (log ++ [Event.send p.fd msg true]) ps).1,
          (deliver env msg (log ++ [Event.send p.fd msg true]) ps).2) :=
  if_pos h

theorem deliver_failed {env : Env} {msg : Bytes} {log : List Event} {p : Pollfd}
    (h : env.send log p.fd msg = false) (ps : List Pollfd) :
    deliver env msg log (p :: ps)
      = deliver env msg (log ++ [Event.send p.fd msg false, .removed p.fd .send]) ps :=
  if_neg (Bool.eq_false_iff.mp h)

/-- The loop over entries `ps`, among which the sender is not: its index is below
them, or above them and goes down by the number of those who fail. -/
theorem broadcastLoop_run (env : Env) (msg : Bytes) (back ps : List Pollfd) :
    ∀ (front : List Pollfd) (log : List Event) (sender fuel : Nat), front ≠ [] →
      (sender < front.length ∨ front.length + ps.length ≤ sender) →
      ∃ sender', (sender < front.length → sender' = sender) ∧
        (front.length + ps.length ≤ sender →
          sender' + ps.length = sender + (deliver env msg log ps).1.length) ∧
        broadcastLoop env msg (ps.length + fuel) (ofFds (front ++ ps ++ back) log) sender
            front.length
          = broadcastLoop env msg fuel
              (ofFds (front ++ (deliver env msg log ps).1 ++ back) (deliver env msg log ps).2)
              sender' (front.length + (deliver env msg log ps).1.length) := by
  induction ps with
  | nil =>
      intro front log sender fuel _ _
      exact ⟨sender, fun _ => rfl, fun _ => rfl, by simp [deliver]⟩
  | cons p ps ih =>
      intro front log sender fuel hfront hsender
      rw [List.length_cons] at hsender ⊢
      have hget : (front ++ p :: ps ++ back)[front.length]? = some p := by simp
      have hne : front.length ≠ sender := by omega
      rw [Nat.add_right_comm, broadcastLoop]
      simp only [ofFds_fds, hget, if_neg hne, ofFds_log, record_ofFds]
      by_cases hok : env.send log p.fd msg = true
      · obtain ⟨sender', hbelow, habove, hloop⟩ := ih (front ++ [p])
          (log ++ [Event.send p.fd msg true]) sender fuel (by simp) (by simp; omega)
        simp only [List.length_append, List.length_singleton, List.append_assoc,
          List.cons_append, List.nil_append, Nat.add_assoc] at hbelow habove hloop
        rw [deliver_sent hok]
        simp only [List.length_cons, List.append_assoc, List.cons_append, hok, if_true]
        refine ⟨sender', fun h => hbelow (by omega), fun h => ?_, ?_⟩
        · have := habove (by omega)
          omega
        · rw [hloop, Nat.add_comm 1]
      · have hmove : front ++ p :: ps ++ back = front ++ p :: (ps ++ back) := by simp
        obtain ⟨sender', hbelow, habove, hloop⟩ := ih front
          (log ++ [Event.send p.fd msg false, .removed p.fd .send])
          (if front.length < sender then sender - 1 else sender) fuel hfront (by split <;> omega)
        rw [Bool.not_eq_true] at hok
        rw [deliver_failed hok]
        simp only [hok, Bool.false_eq_true, if_false, hmove,
          removeClient_mid p _ hfront, Option.bind_eq_bind, Option.bind_some]
        refine ⟨sender', fun h => ?_, fun h => ?_, ?_⟩
        · rw [hbelow (by split <;> omega), if_neg (by omega)]
        · have := habove (by split <;> omega)
          split at this <;> omega
        · simpa only [List.append_assoc, List.cons_append, List.nil_append] using hloop

/-- `broadcast` delivers to those in front of the sender, and then to those behind it. -/
theorem broadcast_eq (env : Env) (msg : Bytes) (first p : Pollfd) (a b : List Pollfd)
    (log : List Event) :
    (ofFds (first :: a ++ p :: b) log).broadcast env (a.length + 1) msg
      = some (ofFds (first :: (deliver env msg log a).1 ++
            p :: (deliver env msg (deliver env msg log a).2 b).1)
          (deliver env msg (deliver env msg log a).2 b).2) := by
  obtain ⟨sender, -, habove, hloop⟩ := broadcastLoop_run env msg (p :: b) a [first] log
    (a.length + 1) (b.length + 3) (List.cons_ne_nil first []) (.inr (by simp; omega))
  have hsender : sender = 1 + (deliver env msg log a).1.length := by
    have := habove (by simp; omega)
    omega
  have hfuel : (first :: a ++ p :: b).length + 1 = a.length + (b.length + 3) := by
    simp
    omega
  -- the sender itself is passed over
  have hself : ([first] ++ (deliver env msg log a).1 ++ p :: b)[
      [first].length + (deliver env msg log a).1.length]? = some p := by
    rw [← List.length_append, List.getElem?_append_right (Nat.le_refl _), Nat.sub_self,
      List.getElem?_cons_zero]
  obtain ⟨sender', -, -, hrest⟩ := broadcastLoop_run env msg [] b
    ([first] ++ (deliver env msg log a).1 ++ [p]) (deliver env msg log a).2 sender 2 (by simp)
    (.inl (by simp; omega))
  have hindex : [first].length + (deliver env msg log a).1.length + 1
      = ([first] ++ (deliver env msg log a).1 ++ [p]).length := by
    simp
    omega
  have hmove : [first] ++ (deliver env msg log a).1 ++ p :: b
      = [first] ++ (deliver env msg log a).1 ++ [p] ++ b ++ [] := by simp
  rw [broadcast, ofFds_fds, hfuel]
  refine hloop.trans ?_
  rw [broadcastLoop]
  simp only [ofFds_fds, hself]
  rw [if_pos (by simp; omega), hindex, hmove]
  refine hrest.trans ?_
  rw [broadcastLoop]
  simp only [ofFds_fds]
  rw [List.getElem?_eq_none (by simp; omega)]
  simp

/-! ## All rounds -/

section Inv
variable {listenFd : Nat} {s s' : Server} {env : Env}

theorem inv_start (listenFd : Nat) : Inv listenFd (start listenFd) :=
  ⟨rfl, List.nodup_singleton listenFd⟩

theorem Inv.record (h : Inv listenFd s) (e : Event) : Inv listenFd (s.record e) := ⟨h.1, h.2⟩

theorem Inv.eq_ofFds (h : Inv listenFd s) : s = ofFds s.fds s.log := by
  rw [ofFds, h.aligned, List.tail_cons]

theorem Inv.removeClient (h : Inv listenFd s) {index : Nat} {cause : Cause}
    (hs : s.removeClient index cause = some s') : Inv listenFd s' := by
  obtain ⟨p, hp, hs⟩ := Option.bind_eq_some_iff.mp hs
  split at hs
  · cases hs
  case isFalse hin =>
    obtain ⟨index, rfl⟩ := Nat.exists_eq_add_one_of_ne_zero fun h0 => hin (.inl h0)
    cases hs
    constructor
    · show (s.fds.eraseIdx (index + 1)).map Pollfd.fd = listenFd :: s.clients.eraseIdx index
      rw [← List.eraseIdx_map, h.aligned, List.eraseIdx_cons_succ]
    · exact h.nodup.sublist ((List.eraseIdx_sublist s.clients index).cons_cons listenFd)

theorem Inv.broadcastLoop {msg : Bytes} (fuel : Nat) :
    ∀ {s s' : Server} {sender i : Nat}, Inv listenFd s →
      broadcastLoop env msg fuel s sender i = some s' → Inv listenFd s' := by
  induction fuel with
  | zero =>
      intro s s' sender i _ hs
      cases hs
  | succ fuel ih =>
      intro s s' sender i h hs
      rw [Server.broadcastLoop] at hs
      split at hs
      · cases hs
        exact h
      · split at hs
        · exact ih h hs
        · simp only at hs
          split at hs
          · exact ih (h.record _) hs
          · obtain ⟨s₁, hremove, hrest⟩ := Option.bind_eq_some_iff.mp hs
            exact ih ((h.record _).removeClient hremove) hrest

theorem Inv.readClient (h : Inv listenFd s) {index : Nat} {alive : Bool}
    (hs : s.readClient env index = some (alive, s')) : Inv listenFd s' := by
  obtain ⟨p, hp, hs⟩ := Option.bind_eq_some_iff.mp hs
  have hread := h.record (.read p.fd)
  have hgone : ∀ {alive : Bool},
      ((s.record (.read p.fd)).removeClient index .recv).bind (fun s => some (false, s))
        = some (alive, s') → Inv listenFd s' := by
    intro alive hs
    obtain ⟨s₁, hremove, heq⟩ := Option.bind_eq_some_iff.mp hs
    cases heq
    exact hread.removeClient hremove
  simp only at hs
  split at hs
  · split at hs
    · obtain ⟨s₁, hbroadcast, heq⟩ := Option.bind_eq_some_iff.mp hs
      cases heq
      exact hread.broadcastLoop _ hbroadcast
    · exact hgone hs
  · cases hs
    exact hread
  · exact hgone hs

theorem Inv.checkErrors (h : Inv listenFd s) {i : Nat} {p : Pollfd}
    (hs : s.checkErrors i p = some s') : Inv listenFd s' := by
  unfold Server.checkErrors at hs
  split at hs
  · exact h.removeClient hs
  · cases hs
    exact h

theorem Inv.serveClient (h : Inv listenFd s) {i : Nat} (hs : s.serveClient env i = some s') :
    Inv listenFd s' := by
  obtain ⟨p, hp, hs⟩ := Option.bind_eq_some_iff.mp hs
  split at hs
  · obtain ⟨⟨alive, s₁⟩, hread, hs⟩ := Option.bind_eq_some_iff.mp hs
    have h₁ := h.readClient hread
    simp only at hs
    split at hs
    · exact h₁.checkErrors hs
    · cases hs
      exact h₁
  · exact h.checkErrors hs

/-- `poll` changes no descriptor. -/
theorem map_fd_poll : ∀ {fds : List Pollfd} {revents : List Revents}, revents.length = fds.length →
    (List.zipWith (fun p r => { p with revents := r }) fds revents).map Pollfd.fd
      = fds.map Pollfd.fd
  | [], [], _ => rfl
  | p :: fds, r :: revents, hlen => by
      rw [List.zipWith_cons_cons, List.map_cons, List.map_cons,
        map_fd_poll (Nat.succ.inj hlen)]

theorem Inv.acceptClient (h : Inv listenFd s) {client : Option Nat}
    (hfresh : ∀ fd ∈ client, fd ∉ listenFd :: s.clients) :
    Inv listenFd (s.acceptClient client) := by
  cases client with
  | none => exact h
  | some fd =>
      rw [Server.acceptClient]
      split
      · exact h
      · constructor
        · show (s.fds ++ [({ fd := fd } : Pollfd)]).map Pollfd.fd = listenFd :: (s.clients ++ [fd])
          rw [List.map_append, h.aligned]
          rfl
        · show (listenFd :: s.clients ++ [fd]).Nodup
          exact List.nodup_append'.mpr ⟨h.nodup, List.nodup_singleton fd,
            List.disjoint_singleton.mpr (hfresh fd rfl)⟩

theorem Inv.opened (h : Inv listenFd s) {revents : List Revents} {client : Option Nat}
    (hlen : revents.length = s.fds.length) (hfresh : ∀ fd ∈ client, fd ∉ s.fds.map Pollfd.fd)
    (hs : s.opened revents client = some s') : Inv listenFd s' := by
  have hpoll : Inv listenFd (s.poll revents) := ⟨(map_fd_poll hlen).trans h.aligned, h.nodup⟩
  rw [h.aligned] at hfresh
  obtain ⟨first, hfirst, hs⟩ := Option.bind_eq_some_iff.mp hs
  cases hs
  split
  · exact hpoll.acceptClient hfresh
  · exact hpoll

/-- The vectors stay aligned. -/
theorem Reaches.inv (h : Reaches listenFd s) : Inv listenFd s := by
  induction h with
  | start => exact inv_start listenFd
  | opened revents client _ hlen hfresh hs ih => exact ih.opened hlen hfresh hs
  | record e _ ih => exact ih.record e
  | serveClient env i _ hs ih => exact ih.serveClient hs

theorem Reaches.serveLoop (env : Env) (n : Nat) :
    ∀ {s s' : Server}, Reaches listenFd s → s.serveLoop env n = some s' → Reaches listenFd s' := by
  induction n with
  | zero =>
      intro s s' h hs
      cases hs
      exact h
  | succ n ih =>
      intro s s' h hs
      cases n with
      | zero =>
          cases hs
          exact h
      | succ i =>
          obtain ⟨s₁, hserve, hrest⟩ := Option.bind_eq_some_iff.mp hs
          exact ih (h.serveClient env (i + 1) hserve) hrest

/-- Rounds lead from reachable servers to reachable servers. -/
theorem Reaches.round {revents : List Revents} {client : Option Nat} (h : Reaches listenFd s)
    (hlen : revents.length = s.fds.length) (hfresh : ∀ fd ∈ client, fd ∉ s.fds.map Pollfd.fd)
    (hs : s.round env revents client = some s') : Reaches listenFd s' := by
  obtain ⟨s₁, hopened, hloop⟩ := Option.bind_eq_some_iff.mp hs
  exact (Reaches.opened revents client h hlen hfresh hopened).serveLoop env _ hloop

end Inv

/-! ## What a broadcast achieves -/

/-- `send_all` of `msg` to `p` has failed. -/
def failed (msg : Bytes) (log : List Event) (p : Pollfd) : Bool :=
  decide (.send p.fd msg false ∈ log)

/-- Nothing but a failed `send_all` to `p` itself counts. -/
theorem failed_cons_of_ne {msg : Bytes} {e : Event} {p : Pollfd} (h : .send p.fd msg false ≠ e)
    (log : List Event) : failed msg (e :: log) p = failed msg log p := by
  simp only [failed, List.mem_cons, h, false_or]

/-- Who is not sent to does not fail. -/
theorem not_failed {msg : Bytes} {log : List Event} {ps : List Pollfd} {p : Pollfd}
    (hsent : log.filterMap Event.sending = ps.map (fun p => (p.fd, msg)))
    (hp : p.fd ∉ ps.map Pollfd.fd) : failed msg log p = false := by
  refine decide_eq_false fun hmem => hp ?_
  have hcall : (p.fd, msg) ∈ log.filterMap Event.sending := List.mem_filterMap.mpr ⟨_, hmem, rfl⟩
  rw [hsent] at hcall
  obtain ⟨q, hq, heq⟩ := List.mem_map.mp hcall
  exact List.mem_map.mpr ⟨q, hq, congrArg Prod.fst heq⟩

/-- Every entry is sent the message once, in order; those whose `send_all` fails
are removed, and the others stay. -/
theorem deliver_spec (env : Env) (msg : Bytes) (ps : List Pollfd) :
    ∀ log : List Event, (ps.map Pollfd.fd).Nodup →
      ∃ new, (deliver env msg log ps).2 = log ++ new ∧
        new.filterMap Event.sending = ps.map (fun p => (p.fd, msg)) ∧
        (deliver env msg log ps).1 = ps.filter (fun p => !failed msg new p) ∧
        new.filterMap Event.removal = (ps.filter (failed msg new)).map Pollfd.fd := by
  induction ps with
  | nil =>
      intro log _
      exact ⟨[], (List.append_nil log).symm, rfl, rfl, rfl⟩
  | cons p ps ih =>
      intro log hnodup
      obtain ⟨hp, hps⟩ := List.nodup_cons.mp hnodup
      -- what happens to `p` does not concern the others
      have hother : ∀ (ok : Bool) (new : List Event), ∀ q ∈ ps,
          failed msg (.send p.fd msg ok :: new) q = failed msg new q := by
        intro ok new q hq
        refine failed_cons_of_ne (fun heq => hp ?_) new
        injection heq with hfd
        exact List.mem_map.mpr ⟨q, hq, hfd⟩
      by_cases hok : env.send log p.fd msg = true
      · obtain ⟨new, hlog, hsent, hkept, hgone⟩ := ih (log ++ [Event.send p.fd msg true]) hps
        have hstays : failed msg (.send p.fd msg true :: new) p = false := by
          rw [failed_cons_of_ne (by simp)]
          exact not_failed hsent hp
        rw [deliver_sent hok, hlog, hkept]
        refine ⟨.send p.fd msg true :: new, List.append_assoc _ _ _, ?_, ?_, ?_⟩
        · rw [List.filterMap_cons, hsent]
          rfl
        · rw [List.filter_cons_of_pos (by simp [hstays])]
          exact congrArg (p :: ·) (List.filter_congr fun q hq => by rw [hother true new q hq])
        · rw [List.filterMap_cons, List.filter_cons_of_neg (by simp [hstays]),
            List.filter_congr (hother true new)]
          exact hgone
      · rw [Bool.not_eq_true] at hok
        obtain ⟨new, hlog, hsent, hkept, hgone⟩ :=
          ih (log ++ [Event.send p.fd msg false, .removed p.fd .send]) hps
        have hafter : ∀ q, failed msg (.removed p.fd .send :: new) q = failed msg new q :=
          fun q => failed_cons_of_ne (by simp) new
        have hfails : failed msg (.send p.fd msg false :: .removed p.fd .send :: new) p = true :=
          decide_eq_true List.mem_cons_self
        have hsame : ∀ q ∈ ps, failed msg (.send p.fd msg false :: .removed p.fd .send :: new) q
            = failed msg new q := fun q hq => (hother false _ q hq).trans (hafter q)
        rw [deliver_failed hok, hlog, hkept]
        refine ⟨.send p.fd msg false :: .removed p.fd .send :: new, List.append_assoc _ _ _,
          ?_, ?_, ?_⟩
        · rw [List.filterMap_cons, List.filterMap_cons, hsent]
          rfl
        · rw [List.filter_cons_of_neg (by simp [hfails])]
          exact List.filter_congr fun q hq => by rw [hsame q hq]
        · rw [List.filterMap_cons, List.filterMap_cons, List.filter_cons_of_pos hfails,
            List.filter_congr hsame, List.map_cons, ← hgone]
          rfl

theorem failed_append {msg : Bytes} {log log' : List Event} {p : Pollfd} :
    failed msg (log ++ log') p = (failed msg log p || failed msg log' p) := by
  simp only [failed, List.mem_append, Bool.decide_or]

/-- The sender's entry, and what lies on its two sides. -/
theorem split_at {fds : List Pollfd} {i : Nat} (hlo : 1 ≤ i) (hlt : i < fds.length) :
    ∃ (first p : Pollfd) (a b : List Pollfd), fds = first :: a ++ p :: b ∧ i = a.length + 1 := by
  obtain ⟨first, rest, rfl⟩ := List.exists_cons_of_length_pos (Nat.zero_lt_of_lt hlt)
  rw [List.length_cons] at hlt
  have hi : i - 1 < rest.length := by omega
  refine ⟨first, rest[i - 1], rest.take (i - 1), rest.drop (i - 1 + 1), ?_, ?_⟩
  · rw [List.cons_append, List.getElem_cons_drop, List.take_append_drop]
  · rw [List.length_take_of_le (Nat.le_of_lt hi)]
    omega

/-- **Broadcasting** from any reachable server: it ends; `send_all` is called with
the message exactly once for every client but the sender, and for nobody else;
those for whom it fails are removed, and the others keep their order; and the
two vectors are aligned before and after. -/
theorem broadcast_reaches_all {listenFd : Nat} {s : Server} (h : Reaches listenFd s) (env : Env)
    {sender : Nat} (hlo : 1 ≤ sender) (hlt : sender < s.fds.length) (msg : Bytes) :
    ∃ s' new, s.broadcast env sender msg = some s' ∧ s'.log = s.log ++ new ∧
      new.filterMap Event.sending = (s.fds.eraseIdx sender).tail.map (fun p => (p.fd, msg)) ∧
      s'.fds = s.fds.filter (fun p => !failed msg new p) ∧
      new.filterMap Event.removal = (s.fds.filter (failed msg new)).map Pollfd.fd ∧
      s.fds.map Pollfd.fd = listenFd :: s.clients ∧ (s.fds.map Pollfd.fd).Nodup ∧
      s'.fds.map Pollfd.fd = listenFd :: s'.clients := by
  have hinv := h.inv
  have hnodup : (s.fds.map Pollfd.fd).Nodup := hinv.aligned ▸ hinv.nodup
  obtain ⟨first, p, a, b, hfds, rfl⟩ := split_at hlo hlt
  have hrun := broadcast_eq env msg first p a b s.log
  rw [← hfds, ← hinv.eq_ofFds] at hrun
  have hinv' : Inv listenFd _ := hinv.broadcastLoop _ hrun
  -- all descriptors are distinct
  have hparts := hnodup
  rw [hfds, List.cons_append, List.map_cons, List.map_append, List.map_cons] at hparts
  obtain ⟨hfirst, hrest⟩ := List.nodup_cons.mp hparts
  obtain ⟨ha, hpb, hapart⟩ := List.nodup_append'.mp hrest
  obtain ⟨hp, hb⟩ := List.nodup_cons.mp hpb
  rw [List.mem_append, List.mem_cons, not_or, not_or] at hfirst
  obtain ⟨newA, hlogA, hsentA, hkeptA, hgoneA⟩ := deliver_spec env msg a s.log ha
  obtain ⟨newB, hlogB, hsentB, hkeptB, hgoneB⟩ := deliver_spec env msg b (s.log ++ newA) hb
  rw [hlogA] at hrun hinv'
  have hfailA : ∀ q ∈ a, failed msg (newA ++ newB) q = failed msg newA q := by
    intro q hq
    have hout : q.fd ∉ b.map Pollfd.fd := fun hmem =>
      hapart (List.mem_map_of_mem hq) (List.mem_cons_of_mem _ hmem)
    rw [failed_append, not_failed hsentB hout, Bool.or_false]
  have hfailB : ∀ q ∈ b, failed msg (newA ++ newB) q = failed msg newB q := by
    intro q hq
    have hout : q.fd ∉ a.map Pollfd.fd := fun hmem =>
      hapart hmem (List.mem_cons_of_mem _ (List.mem_map_of_mem hq))
    rw [failed_append, not_failed hsentA hout, Bool.false_or]
  have hkeep : failed msg (newA ++ newB) first = false ∧ failed msg (newA ++ newB) p = false := by
    have hpa : p.fd ∉ a.map Pollfd.fd := fun hmem => hapart hmem List.mem_cons_self
    constructor
    · rw [failed_append, not_failed hsentA hfirst.1, not_failed hsentB hfirst.2.2, Bool.or_false]
    · rw [failed_append, not_failed hsentA hpa, not_failed hsentB hp, Bool.or_false]
  refine ⟨_, newA ++ newB, hrun, ?_, ?_, ?_, ?_, hinv.aligned, hnodup, ?_⟩
  · rw [ofFds_log, hlogB, List.append_assoc]
  · have herase : (first :: a ++ p :: b).eraseIdx (a.length + 1) = first :: (a ++ b) := by
      rw [List.cons_append, List.eraseIdx_cons_succ,
        List.eraseIdx_append_of_length_le (Nat.le_refl _), Nat.sub_self, List.eraseIdx_cons_zero]
    rw [List.filterMap_append, hsentA, hsentB, hfds, herase, List.tail_cons, List.map_append]
  · rw [ofFds_fds, hfds, hkeptA, hkeptB, List.filter_append,
      List.filter_cons_of_pos (by simp [hkeep.1]), List.filter_cons_of_pos (by simp [hkeep.2]),
      List.filter_congr fun q hq => congrArg not (hfailA q hq),
      List.filter_congr fun q hq => congrArg not (hfailB q hq)]
  · rw [hfds, List.filter_append, List.filter_cons_of_neg (by simp [hkeep.1]),
      List.filter_cons_of_neg (by simp [hkeep.2]), List.filter_congr hfailA,
      List.filter_congr hfailB, List.filterMap_append, hgoneA, hgoneB, List.map_append]
  · exact hinv'.aligned

/-- The clients 4, 5 and 6, of which the last speaks and the second does not listen. -/
theorem broadcast_reaches_all_three :
    ∃ s' new, broadcast ⟨fun _ _ => .eintr, fun _ fd _ => fd ≠ 5⟩
        ⟨[4, 5, 6], [⟨3, { pollin := true }⟩, ⟨4, {}⟩, ⟨5, {}⟩, { fd := 6 }], []⟩ 3 [104, 105]
          = some s' ∧
      new.filterMap Event.sending = [(4, [104, 105]), (5, [104, 105])] ∧
      s'.log = new ∧ s'.fds.map Pollfd.fd = [3, 4, 6] := by
  obtain ⟨s', new, hrun, hlog, hsent, -, -, -, -, -⟩ := @broadcast_reaches_all 3 _ three_clients
    ⟨fun _ _ => .eintr, fun _ fd _ => fd ≠ 5⟩ 3 (by decide) (by decide) [104, 105]
  refine ⟨s', new, hrun, hsent, hlog, ?_⟩
  cases hrun
  rfl

end Server

end CKernel.Net.ChatServer
