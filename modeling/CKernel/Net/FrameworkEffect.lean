/-
# `CKernel.Net.FrameworkEffect` — what a step of `framework_server.cpp` is to one connection

A step is about one connection, or about none.  For the others it is `Quiet`: nothing
of them is read, written or cut off, though a completion may become their output.
What a handler does to its own connection between two calls of `recv` is `Kept`: bytes
that were not read stay unread, and `peer_eof` stays set.

    handlers of other connections                        (`still_endEvent`, `still_afterSend`)
    handlers of this one                                 (`kept_endEvent`, `kept_afterSend`)
    every step                                           (`effect_step`)
-/
import CKernel.Net.FrameworkInv

namespace CKernel.Net.Framework

namespace Server

variable {s s' s₁ s₂ : Server} {c : Connection} {id j : Nat} {flags : Flags} {alive : Bool}

/-! ## What is done about other connections -/

/-- From `s` to `s'` the loop has handled an event of another connection. -/
structure Still (id : Nat) (s s' : Server) : Prop where
  connection : s'.connections id = s.connections id
  peer : s'.peers id = s.peers id
  closings : ∀ state, (id, state) ∈ s'.closings → (id, state) ∈ s.closings
  clients : ∀ fd, s'.clients fd = some id → s.clients fd = some id
  events : s'.events = s.events
  next : s'.next = s.next

theorem Still.refl (id : Nat) (s : Server) : Still id s s :=
  ⟨rfl, rfl, fun _ h => h, fun _ h => h, rfl, rfl⟩

theorem Still.trans (h : Still id s s₁) (h' : Still id s₁ s₂) : Still id s s₂ where
  connection := h'.connection.trans h.connection
  peer := h'.peer.trans h.peer
  closings state hmem := h.closings state (h'.closings state hmem)
  clients fd hfd := h.clients fd (h'.clients fd hfd)
  events := h'.events.trans h.events
  next := h'.next.trans h.next

theorem Only.still (h : Only j s s') (hj : id ≠ j) : Still id s s' where
  connection := h.connections id hj
  peer := h.peers id hj
  closings _ hmem := h.closings ▸ hmem
  clients _ hfd := h.clients ▸ hfd
  events := h.events
  next := h.next

theorem clients_closeConnection {fd : Nat} (hfd : (s.closeConnection j).clients fd = some id) :
    s.clients fd = some id := by
  change (if s.clients (s.connections j).fd = some j then
    Function.update s.clients (s.connections j).fd none else s.clients) fd = some id at hfd
  split at hfd
  case isTrue =>
    by_cases hne : fd = (s.connections j).fd
    · subst hne
      rw [Function.update_self] at hfd
      exact absurd hfd.symm (Option.some_ne_none id)
    · rwa [Function.update_of_ne hne] at hfd
  case isFalse => exact hfd

theorem still_closeConnection (hj : id ≠ j) : Still id s (s.closeConnection j) where
  connection := Function.update_of_ne hj ..
  peer := rfl
  closings state hmem := by
    rcases List.mem_append.mp hmem with hmem | hmem
    · exact hmem
    · exact absurd (Prod.mk.inj (List.mem_singleton.mp hmem)).1 hj
  clients _ hfd := clients_closeConnection hfd
  events := rfl
  next := rfl

theorem only_setEof : Only id s (s.setEof id) := only_setConnection rfl

theorem only_sentAll : Only id s (s.sentAll id) := only_setConnection rfl

theorem only_atEof : Only id s (s.atEof id).1 := by
  unfold atEof
  dsimp only
  split
  case isTrue => exact only_dispatchLine
  case isFalse => exact Only.refl id s

theorem still_finishEvent (hj : id ≠ j) : Still id s (s.finishEvent j alive) := by
  have hat : Still id s (if alive then s.atEof j else (s, false)).1 := by
    cases alive with
    | true => exact only_atEof.still hj
    | false => exact Still.refl id s
  unfold finishEvent
  generalize (if alive then s.atEof j else (s, false)) = r at hat ⊢
  obtain ⟨s₁, alive'⟩ := r
  cases alive' with
  | true => exact ⟨hat.connection, hat.peer, hat.closings, hat.clients, hat.events, hat.next⟩
  | false =>
      have hclose := hat.trans (still_closeConnection hj)
      exact ⟨hclose.connection, hclose.peer, hclose.closings, hclose.clients, hclose.events,
        hclose.next⟩

theorem still_endEvent (hj : id ≠ j) : Still id s (s.endEvent j flags alive) := by
  unfold endEvent
  split
  · exact (only_setEof.still hj).trans (still_finishEvent hj)
  · exact still_finishEvent hj

theorem still_beforeSend (hj : id ≠ j) : Still id s (s.beforeSend j flags alive) := by
  unfold beforeSend
  split
  · exact ⟨rfl, rfl, fun _ h => h, fun _ h => h, rfl, rfl⟩
  · exact still_endEvent hj

theorem still_afterRecv (hj : id ≠ j) : Still id s (s.afterRecv j flags alive) := by
  unfold afterRecv
  cases alive with
  | true => exact (only_dispatchLine.still hj).trans (still_beforeSend hj)
  | false =>
      rw [if_neg Bool.false_ne_true]
      exact still_beforeSend hj

theorem still_afterSend (hj : id ≠ j) : Still id s (s.afterSend j flags alive) := by
  unfold afterSend
  dsimp only
  split
  case isTrue =>
    exact ((only_sentAll.still hj).trans (only_dispatchLine.still hj)).trans (still_endEvent hj)
  case isFalse => exact still_endEvent hj

/-! ## What is done about the connection itself -/

/-- From `s` to `s'` nothing was read of the connection `id`, nor was it listed. -/
structure Kept (id : Nat) (s s' : Server) : Prop where
  eof : (s.connections id).peerEof = true → (s'.connections id).peerEof = true
  unread : (s'.peers id).unread = (s.peers id).unread
  received : (s'.peers id).received = (s.peers id).received
  clients : ∀ fd, s'.clients fd = some id → s.clients fd = some id
  events : s'.events = s.events
  next : s'.next = s.next

theorem Kept.refl (id : Nat) (s : Server) : Kept id s s :=
  ⟨fun h => h, rfl, rfl, fun _ h => h, rfl, rfl⟩

theorem Kept.trans (h : Kept id s s₁) (h' : Kept id s₁ s₂) : Kept id s s₂ where
  eof heof := h'.eof (h.eof heof)
  unread := h'.unread.trans h.unread
  received := h'.received.trans h.received
  clients fd hfd := h.clients fd (h'.clients fd hfd)
  events := h'.events.trans h.events
  next := h'.next.trans h.next

theorem Still.kept (h : Still id s s') : Kept id s s' := by
  refine ⟨?_, ?_, ?_, h.clients, h.events, h.next⟩
  · rw [h.connection]
    exact fun heof => heof
  · rw [h.peer]
  · rw [h.peer]

theorem kept_setConnection (heof : (s.connections id).peerEof = true → c.peerEof = true) :
    Kept id s (s.setConnection id c) := by
  refine ⟨?_, rfl, rfl, fun _ h => h, rfl, rfl⟩
  rw [setConnection_self]
  exact heof

theorem kept_cutLine (line rest : Bytes) : Kept id s (s.cutLine id line rest) := by
  refine ⟨?_, ?_, ?_, fun _ h => h, rfl, rfl⟩
  · rw [cutLine_connection]
    exact fun heof => heof
  · rw [cutLine_peer]
    rfl
  · rw [cutLine_peer]

theorem kept_dispatchLine : Kept id s (s.dispatchLine id).1 := by
  have h := dispatched s id
  generalize s.dispatchLine id = r at h
  cases h with
  | elsewhere hstate => exact Kept.refl id s
  | unfinished hstate hinput => exact Kept.refl id s
  | tooLong hstate line rest hinput hline hlen => exact kept_setConnection fun h => h
  | job hstate line rest hinput hline hlen => exact kept_cutLine line rest

theorem peerEof_dispatchLine :
    ((s.dispatchLine id).1.connections id).peerEof = (s.connections id).peerEof := by
  have h := dispatched s id
  generalize s.dispatchLine id = r at h
  cases h with
  | elsewhere hstate => rfl
  | unfinished hstate hinput => rfl
  | tooLong hstate line rest hinput hline hlen => rw [setConnection_self]
  | job hstate line rest hinput hline hlen => rw [cutLine_connection]

theorem kept_atEof : Kept id s (s.atEof id).1 := by
  unfold atEof
  dsimp only
  split
  case isTrue => exact kept_dispatchLine
  case isFalse => exact Kept.refl id s

theorem kept_setEof : Kept id s (s.setEof id) := kept_setConnection fun _ => rfl

theorem kept_sentAll : Kept id s (s.sentAll id) := kept_setConnection fun h => h

theorem kept_closeConnection : Kept id s (s.closeConnection id) where
  eof heof := by
    rw [closeConnection_connection]
    exact heof
  unread := rfl
  received := rfl
  clients _ hfd := clients_closeConnection hfd
  events := rfl
  next := rfl

theorem kept_finishEvent : Kept id s (s.finishEvent id alive) := by
  have hat : Kept id s (if alive then s.atEof id else (s, false)).1 := by
    cases alive with
    | true => exact kept_atEof
    | false => exact Kept.refl id s
  unfold finishEvent
  generalize (if alive then s.atEof id else (s, false)) = r at hat ⊢
  obtain ⟨s₁, alive'⟩ := r
  cases alive' with
  | true => exact ⟨hat.eof, hat.unread, hat.received, hat.clients, hat.events, hat.next⟩
  | false =>
      have hclose := hat.trans kept_closeConnection
      exact ⟨hclose.eof, hclose.unread, hclose.received, hclose.clients, hclose.events,
        hclose.next⟩

theorem kept_endEvent : Kept id s (s.endEvent id flags alive) := by
  unfold endEvent
  split
  · exact kept_setEof.trans kept_finishEvent
  · exact kept_finishEvent

theorem hangs_endEvent (h : flags.hangs = true) :
    ((s.endEvent id flags alive).connections id).peerEof = true := by
  rw [endEvent, if_pos h]
  apply kept_finishEvent.eof
  rw [setEof_connection]

theorem hangs_afterSend (h : flags.hangs = true) :
    ((s.afterSend id flags alive).connections id).peerEof = true := by
  unfold afterSend
  dsimp only
  split
  · exact hangs_endEvent h
  · exact hangs_endEvent h

theorem kept_wrote {n : Nat} : Kept id s (s.wrote id n) := by
  refine ⟨?_, ?_, ?_, fun _ h => h, rfl, rfl⟩
  · rw [wrote_connection]
    exact fun heof => heof
  · rw [wrote_peer]
    rfl
  · rw [wrote_peer]

theorem kept_beforeSend : Kept id s (s.beforeSend id flags alive) := by
  unfold beforeSend
  split
  · exact ⟨fun h => h, rfl, rfl, fun _ h => h, rfl, rfl⟩
  · exact kept_endEvent

theorem kept_afterSend : Kept id s (s.afterSend id flags alive) := by
  unfold afterSend
  dsimp only
  split
  case isTrue =>
    exact (kept_sentAll.trans kept_dispatchLine).trans kept_endEvent
  case isFalse => exact kept_endEvent

/-! ## What a step is to one connection -/

/-- From `s` to `s'` nothing was read, written or cut off of the connection `id`. -/
structure Quiet (id : Nat) (s s' : Server) : Prop where
  state : (s'.connections id).state ≠ .closed → (s.connections id).state ≠ .closed
  eof : (s'.connections id).peerEof = (s.connections id).peerEof
  input : (s'.connections id).input = (s.connections id).input
  received : (s'.peers id).received = (s.peers id).received
  unread : (s'.peers id).unread = (s.peers id).unread
  cut : (s'.peers id).cut = (s.peers id).cut
  answered : (s'.peers id).answered = (s.peers id).answered
  closings : ∀ state, (id, state) ∈ s'.closings → (id, state) ∈ s.closings
  clients : ∀ fd, s'.clients fd = some id → s.clients fd = some id
  next : s.next ≤ s'.next

theorem Quiet.trans (h : Quiet id s s₁) (h' : Quiet id s₁ s₂) : Quiet id s s₂ where
  state hopen := h.state (h'.state hopen)
  eof := h'.eof.trans h.eof
  input := h'.input.trans h.input
  received := h'.received.trans h.received
  unread := h'.unread.trans h.unread
  cut := h'.cut.trans h.cut
  answered := h'.answered.trans h.answered
  closings state hmem := h.closings state (h'.closings state hmem)
  clients fd hfd := h.clients fd (h'.clients fd hfd)
  next := h.next.trans h'.next

theorem quiet_of_eq (hconn : s'.connections id = s.connections id)
    (hpeer : s'.peers id = s.peers id) (hclosings : s'.closings = s.closings)
    (hclients : ∀ fd, s'.clients fd = some id → s.clients fd = some id)
    (hnext : s.next ≤ s'.next) : Quiet id s s' where
  state := hconn ▸ fun hopen => hopen
  eof := by rw [hconn]
  input := by rw [hconn]
  received := by rw [hpeer]
  unread := by rw [hpeer]
  cut := by rw [hpeer]
  answered := by rw [hpeer]
  closings := hclosings ▸ fun _ hmem => hmem
  clients := hclients
  next := hnext

theorem Still.quiet (h : Still id s s') : Quiet id s s' where
  state := h.connection ▸ fun hopen => hopen
  eof := by rw [h.connection]
  input := by rw [h.connection]
  received := by rw [h.peer]
  unread := by rw [h.peer]
  cut := by rw [h.peer]
  answered := by rw [h.peer]
  closings := h.closings
  clients := h.clients
  next := h.next.ge

/-- The network moves bytes, and changes nothing that the server has seen. -/
theorem quiet_setPeer {p : Peer} (hreceived : p.received = (s.peers j).received)
    (hunread : p.unread = (s.peers j).unread) (hcut : p.cut = (s.peers j).cut)
    (hanswered : p.answered = (s.peers j).answered) : Quiet id s (s.setPeer j p) := by
  by_cases hj : id = j
  · subst hj
    refine ⟨fun h => h, rfl, rfl, ?_, ?_, ?_, ?_, fun _ h => h, fun _ h => h, le_rfl⟩
    all_goals rwa [setPeer_self]
  · exact quiet_of_eq rfl (Function.update_of_ne hj ..) rfl (fun _ h => h) le_rfl

theorem unread_arrive (p : Peer) (n : Nat) : (p.arrive n).unread = p.unread := by
  rw [Peer.unread, Peer.arrive, List.append_assoc, List.take_append_drop, Peer.unread]

theorem quiet_deliver (r : Completion) : Quiet id s (s.deliver r) := by
  by_cases hid : id = r.connection
  · unfold deliver
    dsimp only
    split
    case isTrue =>
      exact ⟨fun h => h, rfl, rfl, rfl, rfl, rfl, rfl, fun _ h => h, fun _ h => h, le_rfl⟩
    case isFalse hc =>
      subst hid
      have hopen : (s.connections r.connection).state ≠ .closed := by
        intro hstate
        simp [hstate] at hc
      refine ⟨fun _ => hopen, ?_, ?_, rfl, rfl, rfl, rfl, fun _ h => h, fun _ h => h, le_rfl⟩
      all_goals
        simp [setConnection, epollMod]
  · refine quiet_of_eq (deliver_of_ne hid) ?_ ?_ ?_ ?_
    all_goals
      unfold deliver
      dsimp only
      split
    all_goals first | rfl | exact fun _ h => h

theorem quiet_drain : Quiet id s s.drain := by
  have key (results : List Completion) (s : Server) :
      Quiet id s (results.foldl deliver s) := by
    induction results generalizing s with
    | nil => exact quiet_of_eq rfl rfl rfl (fun _ h => h) le_rfl
    | cons r results ih => exact (quiet_deliver r).trans (ih _)
  have hdone : Quiet id s { s with done := [] } :=
    quiet_of_eq rfl rfl rfl (fun _ h => h) le_rfl
  exact hdone.trans (key s.done _)

theorem quiet_stop : Quiet id s s.stop := by
  have hconn : s.stop.connections id = s.connections id ∨
      s.stop.connections id = { s.connections id with state := .closed } := by
    by_cases hclient : s.clients (s.connections id).fd = some id
    · exact .inr (if_pos hclient)
    · exact .inl (if_neg hclient)
  rcases hconn with hconn | hconn
  · exact quiet_of_eq hconn rfl rfl (fun fd h => absurd h.symm (Option.some_ne_none id)) le_rfl
  · refine ⟨?_, ?_, ?_, rfl, rfl, rfl, rfl, fun _ h => h,
      fun fd h => absurd h.symm (Option.some_ne_none id), le_rfl⟩
    · rw [hconn]
      exact fun hopen => absurd rfl hopen
    · rw [hconn]
    · rw [hconn]

theorem pc_beforeSend {pc : Pc} (hpc : (s.beforeSend j flags alive).pc = pc) :
    pc = .wait ∨ pc = .send j flags := by
  unfold beforeSend at hpc
  split at hpc
  · exact .inr hpc.symm
  · exact .inl hpc.symm

/-- What a step of the server is to the connection `id`. -/
inductive Effect (id : Nat) (s : Server) : Step → Server → Prop where
  | away {a : Step} {s' : Server} (hquiet : Quiet id s s')
      (hpc : ∀ flags, s'.pc = .recv id flags ∨ s'.pc = .send id flags → s'.pc = s.pc)
      (hstay : ∀ flags, s.pc = .send id flags → s'.pc = s.pc)
      (hevents : ∀ e ∈ s'.events, e ∈ s.events ∨ s.pc = .wait ∧ s.reports e = true) :
      Effect id s a s'
  | accepted (fd : Nat) (bytes : Bytes) (hid : id = s.next) (hpc : s.pc = .accept) :
      Effect id s (.accepted fd bytes) (s.accepted fd bytes)
  | reads (e : Event) (rest : List Event) (fd : Nat) (hpc : s.pc = .wait)
      (hevents : s.events = e :: rest) (htarget : e.target = .client fd)
      (hclient : s.clients fd = some id) (hin : e.flags.epollin = true) :
      Effect id s .event { s with events := rest, pc := .recv id e.flags }
  | turns (e : Event) (rest : List Event) (fd : Nat) (hpc : s.pc = .wait)
      (hevents : s.events = e :: rest) (htarget : e.target = .client fd)
      (hclient : s.clients fd = some id) (hin : e.flags.epollin = false) :
      Effect id s .event ({ s with events := rest }.beforeSend id e.flags true)
  | got (n : Nat) (flags : Flags) (hpc : s.pc = .recv id flags) :
      Effect id s (.got n) (s.got id n)
  | eof (flags : Flags) (hpc : s.pc = .recv id flags) (hunread : (s.peers id).unread = []) :
      Effect id s .eof ((s.setEof id).afterRecv id flags true)
  | recvAgain (flags : Flags) (hpc : s.pc = .recv id flags) :
      Effect id s .recvAgain (s.afterRecv id flags true)
  | recvFail (flags : Flags) (hpc : s.pc = .recv id flags) :
      Effect id s .recvFail (s.afterRecv id flags false)
  | wrote (n : Nat) (flags : Flags) (hpc : s.pc = .send id flags) :
      Effect id s (.wrote n) (s.wrote id n)
  | sent {a : Step} (flags : Flags) (hpc : s.pc = .send id flags) (alive : Bool)
      (halive : alive = false → a = .sendFail) :
      Effect id s a (s.afterSend id flags alive)

/-- The loop stays where it is. -/
theorem effect_same {a : Step} (hquiet : Quiet id s s') (hpc : s'.pc = s.pc)
    (hevents : s'.events = s.events) : Effect id s a s' :=
  .away hquiet (fun _ _ => hpc) (fun _ _ => hpc) fun _ he => .inl (hevents ▸ he)

/-- The loop comes from, and goes to, somewhere else than the connection. -/
theorem effect_other {a : Step} (hquiet : Quiet id s s') (hnot : ∀ flags, s.pc ≠ .send id flags)
    (hpc : ∀ flags, s'.pc ≠ .recv id flags ∧ s'.pc ≠ .send id flags)
    (hevents : ∀ e ∈ s'.events, e ∈ s.events ∨ s.pc = .wait ∧ s.reports e = true) :
    Effect id s a s' :=
  .away hquiet (fun flags h => (h.elim (hpc flags).1 (hpc flags).2).elim)
    (fun flags h => absurd h (hnot flags)) hevents

theorem pc_beforeSend_ne (hj : id ≠ j) (flags' : Flags) :
    (s.beforeSend j flags alive).pc ≠ .recv id flags' ∧
      (s.beforeSend j flags alive).pc ≠ .send id flags' := by
  constructor
  all_goals
    intro hpc
    rcases pc_beforeSend hpc with hpc | hpc
  · cases hpc
  · cases hpc
  · cases hpc
  · cases hpc
    exact hj rfl

theorem pc_afterRecv_ne (hj : id ≠ j) (flags' : Flags) :
    (s.afterRecv j flags alive).pc ≠ .recv id flags' ∧
      (s.afterRecv j flags alive).pc ≠ .send id flags' := by
  unfold afterRecv
  split
  · exact pc_beforeSend_ne hj flags'
  · exact pc_beforeSend_ne hj flags'

theorem pc_afterSend : (s.afterSend j flags alive).pc = .wait := by
  unfold afterSend
  dsimp only
  split
  · rfl
  · rfl

theorem effect_afterRecv {a : Step} (hj : id ≠ j) (hpc : s.pc = .recv j flags)
    (hstill : Still id s s₁) : Effect id s a (s₁.afterRecv j flags alive) := by
  have hafter : Still id s (s₁.afterRecv j flags alive) := hstill.trans (still_afterRecv hj)
  refine effect_other hafter.quiet ?_ (pc_afterRecv_ne hj) fun e he => .inl (hafter.events ▸ he)
  intro flags' hsend
  exact absurd (hpc.symm.trans hsend) Pc.noConfusion

theorem effect_afterSend {a : Step} (hpc : s.pc = .send j flags)
    (halive : alive = false → a = .sendFail) :
    Effect id s a (s.afterSend j flags alive) := by
  by_cases hj : id = j
  · subst hj
    exact .sent flags hpc alive halive
  · have hafter : Still id s (s.afterSend j flags alive) := still_afterSend hj
    refine effect_other hafter.quiet ?_ ?_ fun e he => .inl (hafter.events ▸ he)
    · intro flags' hsend
      cases hpc.symm.trans hsend
      exact hj rfl
    · intro flags'
      rw [pc_afterSend]
      exact ⟨Pc.noConfusion, Pc.noConfusion⟩

theorem effect_handle {e : Event} {rest : List Event} (hpc : s.pc = .wait)
    (hevents : s.events = e :: rest) :
    Effect id s .event ({ s with events := rest }.handle e) := by
  have hnot (flags : Flags) : s.pc ≠ .send id flags := by
    rw [hpc]
    exact Pc.noConfusion
  have hrest {s' : Server} (hs' : s'.events = rest) :
      ∀ e' ∈ s'.events, e' ∈ s.events ∨ s.pc = .wait ∧ s.reports e' = true := by
    intro e' he'
    rw [hs'] at he'
    exact .inl (hevents ▸ List.mem_cons_of_mem e he')
  have hquiet (pc : Pc) : Quiet id s { s with events := rest, pc := pc } :=
    quiet_of_eq rfl rfl rfl (fun _ h => h) le_rfl
  have hnext : Quiet id s { s with events := rest } := hquiet s.pc
  have hwait {s' : Server} (hs' : s'.pc = s.pc) (flags : Flags) :
      s'.pc ≠ .recv id flags ∧ s'.pc ≠ .send id flags := by
    rw [hs', hpc]
    exact ⟨Pc.noConfusion, Pc.noConfusion⟩
  unfold handle
  cases htarget : e.target with
  | listener =>
      exact effect_other (hquiet .accept) hnot (fun _ => ⟨Pc.noConfusion, Pc.noConfusion⟩)
        (hrest rfl)
  | notify =>
      have hdrain : Quiet id s ({ s with events := rest } : Server).drain :=
        hnext.trans quiet_drain
      exact effect_other hdrain hnot (hwait (drain_same _).1) (hrest (drain_same _).2)
  | client fd =>
      dsimp only
      cases hclient : s.clients fd with
      | none => exact effect_other hnext hnot (hwait rfl) (hrest rfl)
      | some j =>
          dsimp only
          by_cases hj : id = j
          · subst hj
            split
            case isTrue hin => exact .reads e rest fd hpc hevents htarget hclient hin
            case isFalse hin =>
              exact .turns e rest fd hpc hevents htarget hclient (Bool.not_eq_true _ ▸ hin)
          · split
            case isTrue =>
              refine effect_other (hquiet _) hnot (fun flags => ⟨?_, Pc.noConfusion⟩) (hrest rfl)
              intro hrecv
              exact hj (Pc.recv.inj hrecv).1.symm
            case isFalse =>
              have hstill : Still id { s with events := rest }
                  (({ s with events := rest } : Server).beforeSend j e.flags true) :=
                still_beforeSend hj
              exact effect_other (hnext.trans hstill.quiet) hnot (pc_beforeSend_ne hj)
                (hrest hstill.events)

theorem effect_step {a : Step} (hstep : step s a = some s') : Effect id s a s' := by
  have hquiet {s' : Server} (hconn : s'.connections = s.connections) (hpeers : s'.peers = s.peers)
      (hclosings : s'.closings = s.closings) (hclients : s'.clients = s.clients)
      (hnext : s'.next = s.next) : Quiet id s s' :=
    quiet_of_eq (congrFun hconn id) (congrFun hpeers id) hclosings (fun _ h => hclients ▸ h)
      hnext.ge
  cases a with
  | wait events =>
      obtain ⟨⟨hpc, -, -, -, hreports⟩, hs'⟩ := Option.ite_none_right_eq_some.mp hstep
      cases hs'
      exact .away (hquiet rfl rfl rfl rfl rfl) (fun _ _ => rfl) (fun _ _ => rfl)
        fun e he => .inr ⟨hpc, hreports e he⟩
  | event =>
      obtain ⟨e, rest, hevents, hpc, rfl⟩ := step_event hstep
      exact effect_handle hpc hevents
  | accepted fd bytes =>
      obtain ⟨⟨hpc, hfd⟩, hs'⟩ := Option.ite_none_right_eq_some.mp hstep
      cases hs'
      by_cases hid : id = s.next
      · exact .accepted fd bytes hid hpc
      · refine effect_same (quiet_of_eq (Function.update_of_ne hid ..)
          (Function.update_of_ne hid ..) rfl ?_ (Nat.le_succ _)) rfl rfl
        intro fd' hfd'
        rw [accepted_clients] at hfd'
        by_cases hne : fd' = fd
        · subst hne
          rw [Function.update_self] at hfd'
          exact absurd (Option.some.inj hfd').symm hid
        · rwa [Function.update_of_ne hne] at hfd'
  | acceptDone =>
      obtain ⟨hpc, hs'⟩ := Option.ite_none_right_eq_some.mp hstep
      cases hs'
      refine effect_other (hquiet rfl rfl rfl rfl rfl) ?_
        (fun _ => ⟨Pc.noConfusion, Pc.noConfusion⟩) fun _ he => .inl he
      rw [hpc]
      exact fun _ => Pc.noConfusion
  | got n =>
      obtain ⟨j, flags, hpc, hstep⟩ := inRecv_eq_some.mp hstep
      obtain ⟨-, hs'⟩ := Option.ite_none_right_eq_some.mp hstep
      cases hs'
      by_cases hj : id = j
      · subst hj
        exact .got n flags hpc
      · exact effect_same (only_got.still hj).quiet rfl rfl
  | eof =>
      obtain ⟨j, flags, hpc, hstep⟩ := inRecv_eq_some.mp hstep
      obtain ⟨⟨hinbox, hfin⟩, hs'⟩ := Option.ite_none_right_eq_some.mp hstep
      cases hs'
      by_cases hj : id = j
      · subst hj
        refine .eof flags hpc ?_
        rw [Peer.unread, hinbox, (s.peers id).ended hfin, List.append_nil]
      · exact effect_afterRecv hj hpc (only_setEof.still hj)
  | recvAgain =>
      obtain ⟨j, flags, hpc, hstep⟩ := inRecv_eq_some.mp hstep
      obtain ⟨-, hs'⟩ := Option.ite_none_right_eq_some.mp hstep
      cases hs'
      by_cases hj : id = j
      · subst hj
        exact .recvAgain flags hpc
      · exact effect_afterRecv hj hpc (Still.refl id s)
  | recvFail =>
      obtain ⟨j, flags, hpc, hstep⟩ := inRecv_eq_some.mp hstep
      cases hstep
      by_cases hj : id = j
      · subst hj
        exact .recvFail flags hpc
      · exact effect_afterRecv hj hpc (Still.refl id s)
  | wrote n =>
      obtain ⟨j, flags, hpc, hstep⟩ := inSend_eq_some.mp hstep
      obtain ⟨⟨-, hn⟩, hs'⟩ := Option.ite_none_right_eq_some.mp hstep
      cases hs'
      by_cases hj : id = j
      · subst hj
        exact .wrote n flags hpc
      · exact effect_same (only_wrote.still hj).quiet rfl rfl
  | sendAgain =>
      obtain ⟨j, flags, hpc, hstep⟩ := inSend_eq_some.mp hstep
      obtain ⟨-, hs'⟩ := Option.ite_none_right_eq_some.mp hstep
      cases hs'
      exact effect_afterSend hpc fun halive => absurd halive.symm Bool.false_ne_true
  | sendFail =>
      obtain ⟨j, flags, hpc, hstep⟩ := inSend_eq_some.mp hstep
      obtain ⟨-, hs'⟩ := Option.ite_none_right_eq_some.mp hstep
      cases hs'
      exact effect_afterSend hpc fun _ => rfl
  | sendDone =>
      obtain ⟨j, flags, hpc, hstep⟩ := inSend_eq_some.mp hstep
      obtain ⟨-, hs'⟩ := Option.ite_none_left_eq_some.mp hstep
      cases hs'
      exact effect_afterSend hpc fun halive => absurd halive.symm Bool.false_ne_true
  | take =>
      obtain ⟨job, jobs, -, rfl⟩ := step_take hstep
      exact effect_same (hquiet rfl rfl rfl rfl rfl) rfl rfl
  | finish i =>
      obtain ⟨job, -, rfl⟩ := step_finish hstep
      exact effect_same (hquiet rfl rfl rfl rfl rfl) rfl rfl
  | arrive i n =>
      obtain ⟨-, hs'⟩ := Option.ite_none_right_eq_some.mp hstep
      cases hs'
      exact effect_same (quiet_setPeer rfl (unread_arrive _ n) rfl rfl) rfl rfl
  | fin i =>
      obtain ⟨hfin, hs'⟩ := Option.dite_none_right_eq_some.mp hstep
      cases hs'
      exact effect_same (quiet_setPeer rfl rfl rfl rfl) rfl rfl
  | stop =>
      obtain ⟨⟨hpc, -⟩, hs'⟩ := Option.ite_none_right_eq_some.mp hstep
      cases hs'
      refine effect_other quiet_stop ?_ (fun _ => ⟨Pc.noConfusion, Pc.noConfusion⟩)
        fun _ he => .inl he
      rw [hpc]
      exact fun _ => Pc.noConfusion

end Server

end CKernel.Net.Framework
