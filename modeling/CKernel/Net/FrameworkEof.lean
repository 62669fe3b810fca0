/-
# `CKernel.Net.FrameworkEof` — what becomes of a client that has sent all its lines

`framework_server.cpp` answers every line of a client that shuts down its sending
direction, unless it stops reading too early: an event with `EPOLLRDHUP` sets
`peer_eof` whether or not `recv` has seen the end, and from then on the interest is
without `EPOLLIN`.  `EPOLLRDHUP` is reported while a request is processed, when
`EPOLLIN` is not, so that what has arrived in the meantime is never read.

    an event makes the loop stop reading                    (`hangsUp`)
    before it, nothing is lost                              (`fine_step`)
    after it, what is unread stays so                       (`doomed_step`)
    all is answered when the loop has read all before it    (`all_answered_iff`)
    a client whose second line is not answered              (`second_line_lost`)
-/
import CKernel.Net.FrameworkEffect

namespace CKernel.Net.Framework

open Lines

/-! ## Lines -/

/-- Ended lines of at most 4096 bytes. -/
def Short (lines : List Bytes) : Prop := ∀ line ∈ lines, newline ∉ line ∧ line.length ≤ 4096

/-- The client sends ended lines of at most 4096 bytes, and nothing else. -/
def Peer.Whole (p : Peer) : Prop := ∃ lines, Short lines ∧ p.sends = unlines newline lines

/-- All that the client sends is read, and all lines of it are answered. -/
structure Finished (c : Connection) (p : Peer) : Prop where
  unread : p.unread = []
  input : c.input = []
  answered : p.answered = answers p.cut

variable {c : Connection} {p : Peer} {q : List Bytes} {lines : List Bytes}

theorem Sound.sends (h : Sound c p) : p.sends = unlines newline p.cut ++ (c.input ++ p.unread) := by
  rw [Peer.sends, h.stream, List.append_assoc]

/-- `dispatch_line` has no reason to close the connection. -/
theorem Sound.short (h : Sound c p) (hwhole : p.Whole) {line rest : Bytes}
    (hinput : c.input = line ++ rest) (hline : newline ∉ line) : line.length ≤ 4096 := by
  obtain ⟨lines, hshort, hsends⟩ := hwhole
  have hcut : ∀ line ∈ p.cut, newline ∉ line := fun line hline => (h.lines line hline).1
  have heq : unlines newline p.cut ++ (line ++ (rest ++ p.unread)) = unlines newline lines := by
    rw [← hsends, h.sends, hinput, List.append_assoc]
  exact length_le_of_unlines hcut hshort heq hline

theorem Good.finished (h : Good c p q) (hwhole : p.Whole) (hstate : c.state = .reading)
    (hinput : newline ∉ c.input) (hunread : p.unread = []) : Finished c p := by
  obtain ⟨lines, hshort, hsends⟩ := hwhole
  have hcut : ∀ line ∈ p.cut, newline ∉ line := fun line hline => (h.lines line hline).1
  have heq := h.sound.sends.symm.trans hsends
  rw [hunread, List.append_nil] at heq
  have hlines := completeLines_eq hcut (fun line hline => (hshort line hline).1) heq
  rw [completeLines_eq_nil hinput, List.append_nil] at hlines
  rw [hlines] at heq
  exact ⟨hunread, List.append_right_eq_self.mp heq, h.of_reading hstate⟩

theorem Finished.answered_all (h : Finished c p) (hsound : Sound c p) (hshort : Short lines)
    (hsends : p.sends = unlines newline lines) : p.answered = answers lines := by
  have heq := hsound.sends.symm.trans hsends
  rw [h.unread, h.input, List.append_nil, List.append_nil] at heq
  have hlines := completeLines_eq (fun line hline => (hsound.lines line hline).1)
    (fun line hline => (hshort line hline).1) ((List.append_nil _).trans heq)
  rw [hlines, completeLines_eq_nil List.not_mem_nil, List.append_nil]
  exact h.answered

theorem answer_ne_nil (line : Bytes) : answer line ≠ [] := by
  simp [answer, ascii]

/-- Something is unread: not all lines are cut off, and not all answered. -/
theorem Sound.answered_ne (h : Sound c p) (hunread : p.unread ≠ []) (hshort : Short lines)
    (hsends : p.sends = unlines newline lines) : p.answered ≠ answers lines := by
  have heq := h.sends.symm.trans hsends
  have hlines := completeLines_eq (fun line hline => (h.lines line hline).1)
    (fun line hline => (hshort line hline).1) heq
  generalize completeLines newline (c.input ++ p.unread) = more at hlines
  cases more with
  | nil =>
      rw [hlines, List.append_nil] at heq
      have hnil := List.append_right_eq_self.mp heq
      exact absurd (List.append_eq_nil_iff.mp hnil).2 hunread
  | cons line more =>
      intro hall
      have hprefix := h.answered.length_le
      rw [hall, hlines, answers, List.flatMap_append, List.flatMap_cons] at hprefix
      have hpos := List.length_pos_of_ne_nil (answer_ne_nil line)
      simp only [answers, List.length_append] at hprefix
      omega

namespace Server

variable {s s' : Server} {id : Nat} {flags : Flags} {alive : Bool}

/-! ## Before the loop stops reading -/

/-- Nothing is lost of the connection: the loop has stopped reading only after all was
read, and closed the connection only after all was answered. -/
structure Fine (s : Server) (id : Nat) : Prop where
  next : ∀ state, (id, state) ∈ s.closings → id < s.next
  unclosed : (s.connections id).state ≠ .closed → ∀ state, (id, state) ∉ s.closings
  eof : (s.connections id).peerEof = true → (s.peers id).unread = []
  ended : ∀ state, (id, state) ∈ s.closings → (s.peers id).Whole →
    Finished (s.connections id) (s.peers id)
  sending : ∀ flags, s.pc = .send id flags → flags.hangs = true → (s.peers id).unread = []

/-- The same in the middle of a handler. -/
structure Fair (s : Server) (id : Nat) (alive : Bool) : Prop where
  mid : Mid s id alive
  unclosed : ∀ state, (id, state) ∉ s.closings
  eof : (s.connections id).peerEof = true → (s.peers id).unread = []
  ended : alive = false → (s.peers id).Whole → Finished (s.connections id) (s.peers id)

namespace Fair

/-- Steps of the handler that read nothing, and call nothing finished that is not. -/
theorem kept (h : Fair s id alive) {alive' : Bool} (hmid : Mid s' id alive')
    (hkept : Kept id s s') (honly : Only id s s')
    (heof : (s'.connections id).peerEof = true → (s.peers id).unread = [])
    (hended : alive' = false → (s'.peers id).Whole →
      Finished (s'.connections id) (s'.peers id)) : Fair s' id alive' where
  mid := hmid
  unclosed := honly.closings ▸ h.unclosed
  eof h' := hkept.unread.trans (heof h')
  ended := hended

theorem setEof (h : Fair s id alive) (hunread : (s.peers id).unread = []) :
    Fair (s.setEof id) id alive := by
  refine h.kept h.mid.setEof kept_setEof only_setEof (fun _ => hunread) ?_
  intro halive hwhole
  rw [setEof_connection]
  have hended := h.ended halive hwhole
  exact ⟨hended.unread, hended.input, hended.answered⟩

theorem dispatchLine (h : Fair s id true) :
    Fair (s.dispatchLine id).1 id (s.dispatchLine id).2 := by
  have hmid := h.mid.dispatchLine
  have hkept : Kept id s (s.dispatchLine id).1 := kept_dispatchLine
  have honly : Only id s (s.dispatchLine id).1 := only_dispatchLine
  have heof : ((s.dispatchLine id).1.connections id).peerEof = (s.connections id).peerEof :=
    peerEof_dispatchLine
  have hd := dispatched s id
  generalize s.dispatchLine id = r at hmid hkept honly heof hd
  refine h.kept hmid hkept honly (fun h' => h.eof (heof ▸ h')) ?_
  cases hd with
  | elsewhere hstate => exact h.ended
  | unfinished hstate hinput => exact h.ended
  | tooLong hstate line rest hinput hline hlen =>
      intro _ hwhole
      have hshort := (h.mid.core.good id).sound.short hwhole hinput hline
      exact absurd hlen (Nat.not_lt.mpr hshort)
  | job hstate line rest hinput hline hlen => exact fun ht => absurd ht.symm Bool.false_ne_true

/-- The only reason to close the connection is its end, with no line in the input. -/
theorem atEof (h : Fair s id true) : Fair (s.atEof id).1 id (s.atEof id).2 := by
  have hmid := h.mid.atEof
  have hd := dispatched s id
  have hfair := h.dispatchLine
  unfold Server.atEof at hmid ⊢
  dsimp only at hmid ⊢
  split
  case isFalse => exact h
  case isTrue hc =>
    rw [if_pos hc] at hmid
    generalize s.dispatchLine id = r at hmid hd hfair ⊢
    refine ⟨hmid, hfair.unclosed, hfair.eof, ?_⟩
    intro hdead hwhole
    cases hd with
    | elsewhere hstate => exact absurd hc.2 hstate
    | unfinished hstate hinput =>
        exact (h.mid.core.good id).finished hwhole hstate hinput (h.eof hc.1)
    | tooLong hstate line rest hinput hline hlen => exact hfair.ended rfl hwhole
    | job hstate line rest hinput hline hlen =>
        simp at hdead

theorem finishEvent (h : Fair s id alive) : Fine (s.finishEvent id alive) id := by
  have hfair : Fair (if alive then s.atEof id else (s, false)).1 id
      (if alive then s.atEof id else (s, false)).2 := by
    cases alive with
    | true => exact h.atEof
    | false => exact h
  unfold Server.finishEvent
  generalize (if alive then s.atEof id else (s, false)) = r at hfair ⊢
  obtain ⟨s₁, alive'⟩ := r
  cases alive' with
  | true =>
      refine ⟨?_, fun _ => hfair.unclosed, hfair.eof, ?_, fun flags hpc => absurd hpc (by simp)⟩
      · exact fun state hmem => absurd hmem (hfair.unclosed state)
      · exact fun state hmem => absurd hmem (hfair.unclosed state)
  | false =>
      have hlisted := hfair.mid.core.listed id (.inr rfl)
      constructor
      case next => exact fun _ _ => (hfair.mid.core.owner _ id hlisted).2
      case unclosed =>
        intro hopen
        exact absurd (congrArg Connection.state closeConnection_connection) hopen
      case eof =>
        intro heof
        replace heof : ((s₁.closeConnection id).connections id).peerEof = true := heof
        rw [closeConnection_connection] at heof
        exact hfair.eof heof
      case ended =>
        intro _ _ hwhole
        have hended := hfair.ended rfl hwhole
        change Finished ((s₁.closeConnection id).connections id) _
        rw [closeConnection_connection]
        exact ⟨hended.unread, hended.input, hended.answered⟩
      case sending => exact fun flags hpc => absurd hpc (by simp)

theorem endEvent (h : Fair s id alive)
    (hhangs : flags.hangs = true → (s.peers id).unread = []) :
    Fine (s.endEvent id flags alive) id := by
  unfold Server.endEvent
  split
  case isTrue hf => exact (h.setEof (hhangs hf)).finishEvent
  case isFalse => exact h.finishEvent

theorem beforeSend (h : Fair s id alive)
    (hhangs : flags.hangs = true → (s.peers id).unread = []) :
    Fine (s.beforeSend id flags alive) id := by
  unfold Server.beforeSend
  split
  case isFalse => exact h.endEvent hhangs
  case isTrue =>
    refine ⟨fun state hmem => absurd hmem (h.unclosed state), fun _ => h.unclosed, h.eof,
      fun state hmem => absurd hmem (h.unclosed state), ?_⟩
    intro flags' hpc hf
    have hpc' : Pc.send id flags = .send id flags' := hpc
    cases hpc'
    exact hhangs hf

end Fair

/-- At the start of a handler, or between its system calls. -/
theorem Fine.fair (h : Fine s id) (hcore : Core s (some id))
    (hclosed : (s.connections id).state ≠ .closed) : Fair s id true where
  mid := ⟨hcore, fun _ => hclosed, fun ht => absurd ht.symm Bool.false_ne_true⟩
  unclosed := h.unclosed hclosed
  eof := h.eof
  ended ht := absurd ht.symm Bool.false_ne_true

theorem Fine.quiet (h : Fine s id) (hq : Quiet id s s')
    (hpc : ∀ flags, s'.pc = .send id flags → flags.hangs = true → (s.peers id).unread = []) :
    Fine s' id where
  next state hmem := (h.next state (hq.closings state hmem)).trans_le hq.next
  unclosed hopen state hmem := h.unclosed (hq.state hopen) state (hq.closings state hmem)
  eof heof := by
    rw [hq.eof] at heof
    exact hq.unread.trans (h.eof heof)
  ended state hmem hwhole := by
    have hsends : (s'.peers id).sends = (s.peers id).sends := by
      rw [Peer.sends, hq.received, hq.unread, Peer.sends]
    have hwhole' : (s.peers id).Whole := by
      obtain ⟨lines, hshort, hlines⟩ := hwhole
      exact ⟨lines, hshort, hsends.symm.trans hlines⟩
    have hended := h.ended state (hq.closings state hmem) hwhole'
    refine ⟨hq.unread.trans hended.unread, hq.input.trans hended.input, ?_⟩
    rw [hq.answered, hq.cut]
    exact hended.answered
  sending flags hsend hhangs := hq.unread.trans (hpc flags hsend hhangs)

theorem Fair.afterRecv (h : Fair s id true)
    (hhangs : flags.hangs = true → (s.peers id).unread = []) :
    Fine (s.afterRecv id flags true) id := by
  refine h.dispatchLine.beforeSend fun hf => ?_
  exact kept_dispatchLine.unread.trans (hhangs hf)

theorem Fine.afterSend (h : Fine s id) (hcore : Core s (some id))
    (hstate : (s.connections id).state = .writing)
    (hhangs : flags.hangs = true → (s.peers id).unread = []) :
    Fine (s.afterSend id flags true) id := by
  have hfair := h.fair hcore (by simp [hstate])
  unfold Server.afterSend
  dsimp only
  split
  case isFalse => exact hfair.endEvent hhangs
  case isTrue hc =>
    have hmid : Mid (s.sentAll id) id true :=
      (core_sentAll hcore hstate hc.2).mid true (by simp) (by simp)
    have hfair' : Fair (s.sentAll id) id true := by
      refine hfair.kept hmid kept_sentAll only_sentAll ?_ fun ht => absurd ht.symm Bool.false_ne_true
      rw [sentAll_connection]
      exact h.eof
    refine hfair'.dispatchLine.endEvent fun hf => ?_
    exact kept_dispatchLine.unread.trans (kept_sentAll.unread.trans (hhangs hf))

/-- The step makes the loop stop reading, as `EPOLLERR`, `EPOLLHUP` or `EPOLLRDHUP` is
reported: at once, or after what there is to read. -/
def hangsUp (id : Nat) (s : Server) : Step → Bool
  | .event =>
      match s.events with
      | ⟨.client fd, flags⟩ :: _ =>
          decide (s.clients fd = some id) && !flags.epollin && flags.hangs
      | _ => false
  | .recvAgain =>
      match s.pc with
      | .recv id' flags => decide (id' = id) && flags.hangs
      | _ => false
  | _ => false

/-- The loop stops reading only when all that the client sends is read. -/
def ReadFirst (id : Nat) (s : Server) (a : Step) : Prop :=
  hangsUp id s a = true → (s.peers id).unread = []

instance (id : Nat) (s : Server) (a : Step) : Decidable (ReadFirst id s a) :=
  inferInstanceAs (Decidable (_ → _))

/-- The step is no socket error. -/
def NoError (a : Step) : Prop := a ≠ .recvFail ∧ a ≠ .sendFail

theorem hangsUp_event {e : Event} {rest : List Event} {fd : Nat} (hevents : s.events = e :: rest)
    (htarget : e.target = .client fd) (hclient : s.clients fd = some id)
    (hin : e.flags.epollin = false) : hangsUp id s .event = e.flags.hangs := by
  obtain ⟨target, flags⟩ := e
  cases htarget
  replace hin : flags.epollin = false := hin
  simp [hangsUp, hevents, hclient, hin]

theorem hangsUp_recvAgain (hpc : s.pc = .recv id flags) :
    hangsUp id s .recvAgain = flags.hangs := by
  simp [hangsUp, hpc]

/-- The connection of an event, and of a handler between its system calls. -/
theorem core_of_turn {e : Event} {rest : List Event} {fd : Nat} (h : Inv s) (hpc : s.pc = .wait)
    (hevents : s.events = e :: rest) (htarget : e.target = .client fd)
    (hclient : s.clients fd = some id) :
    Core { s with events := rest } (some id) ∧ (s.connections id).state ≠ .closed := by
  have hcore := (inv_of_wait hpc).mp h
  exact ⟨hcore.turn hevents htarget hclient,
    (hcore.settled fd id hclient (Option.some_ne_none id).symm).1⟩

theorem fine_step {a : Step} (h : Inv s) (hfine : Fine s id) (herror : NoError a)
    (hread : ReadFirst id s a) (hstep : step s a = some s') : Fine s' id := by
  have heffect : Effect id s a s' := effect_step hstep
  cases heffect with
  | away hquiet hpc hstay hevents =>
      refine hfine.quiet hquiet fun flags hsend hhangs => ?_
      rw [hpc flags (.inr hsend)] at hsend
      exact hfine.sending flags hsend hhangs
  | accepted fd bytes hid hpc =>
      subst hid
      have hnot (state : State) : (s.next, state) ∉ s.closings :=
        fun hmem => absurd (hfine.next state hmem) (Nat.lt_irrefl _)
      refine ⟨fun state hmem => absurd hmem (hnot state), fun _ => hnot, ?_,
        fun state hmem => absurd hmem (hnot state), ?_⟩
      · rw [accepted_connection]
        exact fun heof => absurd heof Bool.false_ne_true
      · intro flags hsend
        have hpc' : (s.accepted fd bytes).pc = .accept := hpc
        exact absurd (hpc'.symm.trans hsend) Pc.noConfusion
  | reads e rest fd hpc hevents htarget hclient hin =>
      refine hfine.quiet (quiet_of_eq rfl rfl rfl (fun _ h => h) le_rfl) ?_
      exact fun flags hsend => absurd hsend Pc.noConfusion
  | turns e rest fd hpc hevents htarget hclient hin =>
      obtain ⟨hcore, hopen⟩ := core_of_turn h hpc hevents htarget hclient
      have hnext : Fine { s with events := rest } id :=
        hfine.quiet (quiet_of_eq rfl rfl rfl (fun _ h => h) le_rfl) hfine.sending
      refine (hnext.fair hcore hopen).beforeSend fun hhangs => ?_
      exact hread ((hangsUp_event hevents htarget hclient hin).trans hhangs)
  | got n flags hpc =>
      have hstate := ((inv_of_recv hpc).mp h).2
      have hnot := hfine.unclosed (by simp [hstate])
      refine ⟨fun state hmem => absurd hmem (hnot state), fun _ => hnot, ?_,
        fun state hmem => absurd hmem (hnot state), ?_⟩
      · rw [got_connection, got_peer]
        intro heof
        obtain ⟨hinbox, htoCome⟩ := List.append_eq_nil_iff.mp (hfine.eof heof)
        change (s.peers id).inbox.drop n ++ (s.peers id).toCome = []
        rw [hinbox, htoCome, List.drop_nil, List.append_nil]
      · intro flags' hsend
        have hpc' : (s.got id n).pc = .recv id flags := hpc
        exact absurd (hpc'.symm.trans hsend) Pc.noConfusion
  | eof flags hpc hunread =>
      obtain ⟨hcore, hstate⟩ := (inv_of_recv hpc).mp h
      have hfair := hfine.fair hcore (by simp [hstate])
      exact (hfair.setEof hunread).afterRecv fun _ => hunread
  | recvAgain flags hpc =>
      obtain ⟨hcore, hstate⟩ := (inv_of_recv hpc).mp h
      refine (hfine.fair hcore (by simp [hstate])).afterRecv fun hhangs => ?_
      exact hread ((hangsUp_recvAgain hpc).trans hhangs)
  | recvFail flags hpc => exact absurd rfl herror.1
  | wrote n flags hpc =>
      have hstate := ((inv_of_send hpc).mp h).2
      have hnot := hfine.unclosed (by simp [hstate])
      refine ⟨fun state hmem => absurd hmem (hnot state), fun _ => hnot, ?_,
        fun state hmem => absurd hmem (hnot state), ?_⟩
      · rw [wrote_connection]
        exact fun heof => kept_wrote.unread.trans (hfine.eof heof)
      · exact fun flags' hsend hhangs => kept_wrote.unread.trans (hfine.sending flags' hsend hhangs)
  | sent flags hpc alive halive =>
      obtain ⟨hcore, hstate⟩ := (inv_of_send hpc).mp h
      cases alive with
      | true => exact hfine.afterSend hcore hstate (hfine.sending flags hpc)
      | false => exact absurd (halive rfl) herror.2

/-! ## After it has stopped reading -/

/-- The loop has stopped reading, or is about to, and there is something unread. -/
structure Doomed (s : Server) (id : Nat) : Prop where
  next : id < s.next
  unread : (s.peers id).unread ≠ []
  eof : (s.connections id).peerEof = true ∨ ∃ flags, s.pc = .send id flags ∧ flags.hangs = true
  away : ∀ flags, s.pc ≠ .recv id flags
  events : ∀ e ∈ s.events, ∀ fd, e.target = .client fd → s.clients fd = some id →
    e.flags.epollin = false

/-- No other event of the batch is of the connection the loop is at. -/
theorem Core.no_events (h : Core s (some id)) {e : Event} (he : e ∈ s.events) {fd : Nat}
    (htarget : e.target = .client fd) : s.clients fd ≠ some id := by
  obtain ⟨j, hj, hne, -⟩ := h.awaited e he fd htarget
  rw [hj]
  exact hne.symm

theorem Core.lt_next (h : Core s (some id)) : id < s.next :=
  (h.owner _ id (h.listed id (.inr rfl))).2

theorem doomed_beforeSend (h : Core s (some id)) (hunread : (s.peers id).unread ≠ [])
    (hhangs : flags.hangs = true ∨ (s.connections id).peerEof = true) :
    Doomed (s.beforeSend id flags alive) id := by
  have hkept : Kept id s (s.beforeSend id flags alive) := kept_beforeSend
  refine ⟨hkept.next ▸ h.lt_next, hkept.unread ▸ hunread, ?_, ?_, ?_⟩
  · rcases hhangs with hhangs | heof
    · unfold beforeSend
      split
      case isTrue => exact .inr ⟨flags, rfl, hhangs⟩
      case isFalse => exact .inl (hangs_endEvent hhangs)
    · exact .inl (hkept.eof heof)
  · intro flags' hpc
    rcases pc_beforeSend hpc with hpc | hpc
    · cases hpc
    · cases hpc
  · intro e he fd htarget hclient
    rw [hkept.events] at he
    exact absurd (hkept.clients fd hclient) (h.no_events he htarget)

theorem doomed_of_hangsUp {a : Step} (h : Inv s) (hhangs : hangsUp id s a = true)
    (hunread : (s.peers id).unread ≠ []) (hstep : step s a = some s') : Doomed s' id := by
  cases a with
  | event =>
      obtain ⟨⟨target, flags⟩, rest, hevents, hpc, rfl⟩ := step_event hstep
      cases target with
      | listener => simp [hangsUp, hevents] at hhangs
      | notify => simp [hangsUp, hevents] at hhangs
      | client fd =>
          simp only [hangsUp, hevents, Bool.and_eq_true, Bool.not_eq_true',
            decide_eq_true_eq] at hhangs
          obtain ⟨⟨hclient, hin⟩, hhangs⟩ := hhangs
          have hcore := (core_of_turn h hpc hevents rfl hclient).1
          simp only [handle, hclient, hin, Bool.false_eq_true, if_false]
          exact doomed_beforeSend hcore hunread (.inl hhangs)
  | recvAgain =>
      obtain ⟨j, flags, hpc, hstep⟩ := inRecv_eq_some.mp hstep
      obtain ⟨-, hs'⟩ := Option.ite_none_right_eq_some.mp hstep
      cases hs'
      simp only [hangsUp, hpc, Bool.and_eq_true, decide_eq_true_eq] at hhangs
      obtain ⟨rfl, hhangs⟩ := hhangs
      obtain ⟨hcore, hstate⟩ := (inv_of_recv hpc).mp h
      have hmid := (hcore.mid true (by simp [hstate]) (by simp [hstate])).dispatchLine
      have hunread' : ((s.dispatchLine j).1.peers j).unread ≠ [] := by
        rw [kept_dispatchLine.unread]
        exact hunread
      exact doomed_beforeSend hmid.core hunread' (.inl hhangs)
  | _ => exact absurd hhangs.symm Bool.true_eq_false.mp

theorem doomed_step {a : Step} (h : Inv s) (hd : Doomed s id) (hstep : step s a = some s') :
    Doomed s' id := by
  have heffect : Effect id s a s' := effect_step hstep
  -- between two events, `peer_eof` is set
  have heof {pc : Pc} (hpc : s.pc = pc) (hne : ∀ flags, pc ≠ .send id flags) :
      (s.connections id).peerEof = true := by
    rcases hd.eof with heof | ⟨flags, hsend, -⟩
    · exact heof
    · exact absurd (hpc.symm.trans hsend) (hne flags)
  cases heffect with
  | away hquiet hpc hstay hevents =>
      refine ⟨hd.next.trans_le hquiet.next, hquiet.unread ▸ hd.unread, ?_, ?_, ?_⟩
      · rcases hd.eof with heof | ⟨flags, hsend, hhangs⟩
        · exact .inl (hquiet.eof.trans heof)
        · exact .inr ⟨flags, (hstay flags hsend).trans hsend, hhangs⟩
      · intro flags hrecv
        exact hd.away flags ((hpc flags (.inl hrecv)).symm.trans hrecv)
      · intro e he fd htarget hclient
        replace hclient := hquiet.clients fd hclient
        rcases hevents e he with he | ⟨hwait, hreports⟩
        · exact hd.events e he fd htarget hclient
        · have hcore := (inv_of_wait hwait).mp h
          have hreg := (hcore.settled fd id hclient (Option.some_ne_none id).symm).2
          have heof := heof hwait fun _ => Pc.noConfusion
          simp only [reports, htarget, hreg, Flags.within, interest, heof, Bool.not_true,
            Bool.and_false, Bool.or_false, Bool.and_eq_true, Bool.not_eq_true'] at hreports
          exact hreports.1.1
  | accepted fd bytes hid hpc => exact absurd hd.next (hid ▸ Nat.lt_irrefl _)
  | reads e rest fd hpc hevents htarget hclient hin =>
      have hnot := hd.events e (hevents ▸ List.mem_cons_self) fd htarget hclient
      exact absurd (hnot.symm.trans hin) Bool.false_ne_true
  | turns e rest fd hpc hevents htarget hclient hin =>
      have hcore := (core_of_turn h hpc hevents htarget hclient).1
      exact doomed_beforeSend hcore hd.unread (.inr (heof hpc fun _ => Pc.noConfusion))
  | got n flags hpc => exact absurd hpc (hd.away flags)
  | eof flags hpc hunread => exact absurd hpc (hd.away flags)
  | recvAgain flags hpc => exact absurd hpc (hd.away flags)
  | recvFail flags hpc => exact absurd hpc (hd.away flags)
  | wrote n flags hpc =>
      have hkept : Kept id s (s.wrote id n) := kept_wrote
      refine ⟨hd.next, hkept.unread ▸ hd.unread, ?_, hd.away, hd.events⟩
      exact hd.eof.imp_left hkept.eof
  | sent flags hpc alive halive =>
      obtain ⟨hcore, hstate⟩ := (inv_of_send hpc).mp h
      have hkept : Kept id s (s.afterSend id flags alive) := kept_afterSend
      refine ⟨hkept.next ▸ hd.next, hkept.unread ▸ hd.unread, .inl ?_, ?_, ?_⟩
      · rcases hd.eof with heof | ⟨flags', hsend, hhangs⟩
        · exact hkept.eof heof
        · cases hpc.symm.trans hsend
          exact hangs_afterSend hhangs
      · rw [pc_afterSend]
        exact fun _ => Pc.noConfusion
      · intro e he fd htarget hclient
        rw [hkept.events] at he
        exact absurd (hkept.clients fd hclient) (hcore.no_events he htarget)

/-! ## Runs -/

theorem fine_start (workers id : Nat) : Fine (start workers) id where
  next _ hmem := absurd hmem List.not_mem_nil
  unclosed _ _ := List.not_mem_nil
  eof _ := rfl
  ended _ hmem := absurd hmem List.not_mem_nil
  sending _ hpc := absurd hpc Pc.noConfusion

/-- **All is answered.**  In a run without socket errors, of a client that sends ended
lines of at most 4096 bytes each and whose connection the loop has closed: all its
lines were answered if and only if the loop stopped reading only after it had read
all that the client sends. -/
theorem all_answered_iff {workers : Nat} {steps : List Step} (h : Reaches workers steps s)
    (herror : ∀ a ∈ steps, NoError a) {lines : List Bytes} (hshort : Short lines)
    (hsends : (s.peers id).sends = unlines newline lines) {state : State}
    (hclosed : (id, state) ∈ s.closings) :
    (s.peers id).answered = answers lines ↔
      Run.Along step (ReadFirst id) (start workers) steps := by
  have hsound := sound_reaches h id
  constructor
  · intro hall
    by_contra hread
    obtain ⟨before, a, after, s₁, s₂, -, hbefore, hfirst, hstep, hafter⟩ :=
      Run.exists_of_not_along hread h
    have hhangs : hangsUp id s₁ a = true ∧ (s₁.peers id).unread ≠ [] := by
      simpa [ReadFirst] using hfirst
    have hinv := inv_reaches hbefore
    have hdoomed := doomed_of_hangsUp hinv hhangs.1 hhangs.2 hstep
    have hkeeps : Inv s ∧ Doomed s id :=
      Run.run_keeps (I := fun s => Inv s ∧ Doomed s id) (fun s a s' hs hstep =>
        ⟨inv_step s a s' hs.1 hstep, doomed_step hs.1 hs.2 hstep⟩) after
        ⟨inv_step s₁ a s₂ hinv hstep, hdoomed⟩ hafter
    exact hsound.answered_ne hkeeps.2.unread hshort hsends hall
  · intro hread
    have hkeeps : Inv s ∧ Fine s id :=
      Run.run_keeps_along (I := fun s => Inv s ∧ Fine s id) (fun s a s' hs ha hstep =>
        ⟨inv_step s a s' hs.1 hstep, fine_step hs.1 hs.2 ha.2 ha.1 hstep⟩) steps
        ⟨inv_start workers, fine_start workers id⟩ (hread.and_forall herror) h
    have hended := hkeeps.2.ended state hclosed ⟨lines, hshort, hsends⟩
    exact hended.answered_all hsound hshort hsends

/-- The client of `hello` gets its answer and shuts down its sending direction. -/
def farewell : List Step :=
  helloAnswer ++ [.wrote 3, .sendDone, .fin 0,
    .wait [⟨.client 5, { epollin := true, epollrdhup := true }⟩], .event, .eof]

theorem isSome_farewell : (Run.run step (start 2) farewell).isSome = true := by decide +kernel

theorem all_answered_farewell :
    (((Run.run step (start 2) farewell).get isSome_farewell).peers 0).answered =
      [79, 75, 32, 72, 73, 10] := by
  have hrun : Reaches 2 farewell _ := (Option.some_get isSome_farewell).symm
  have herror : ∀ a ∈ farewell, NoError a := by
    unfold NoError
    decide
  have hshort : Short [[104, 105]] := by
    unfold Short
    decide
  have hsends : (((Run.run step (start 2) farewell).get isSome_farewell).peers 0).sends =
      unlines newline [[104, 105]] := by decide +kernel
  have hclosed : (0, State.reading) ∈
      ((Run.run step (start 2) farewell).get isSome_farewell).closings := by decide +kernel
  refine ((all_answered_iff hrun herror hshort hsends hclosed).mpr ?_).trans ?_
  all_goals decide +kernel

/-- While `a` is with the pool, `b` and the `FIN` arrive, and `EPOLLRDHUP` is reported. -/
def twoLines : List Step :=
  [.wait [⟨.listener, { epollin := true }⟩], .event, .accepted 5 [97, 10, 98, 10], .acceptDone,
    .arrive 0 2, .wait [⟨.client 5, { epollin := true }⟩], .event, .got 2, .recvAgain,
    .arrive 0 2, .fin 0, .wait [⟨.client 5, { epollrdhup := true }⟩], .event,
    .take, .finish 0, .wait [⟨.notify, { epollin := true }⟩], .event,
    .wait [⟨.client 5, { epollout := true, epollrdhup := true }⟩], .event, .wrote 5, .sendDone]

theorem isSome_twoLines : (Run.run step (start 4) twoLines).isSome = true := by decide +kernel

/-- The second line is never read: the connection is closed after the first answer. -/
theorem second_line_lost :
    ¬ ∀ (workers : Nat) (steps : List Step) (s : Server) (id : Nat) (lines : List Bytes)
      (state : State), Reaches workers steps s → (∀ a ∈ steps, NoError a) → Short lines →
      (s.peers id).sends = unlines newline lines → (id, state) ∈ s.closings →
      (s.peers id).answered = answers lines := by
  intro h
  have hrun : Reaches 4 twoLines _ := (Option.some_get isSome_twoLines).symm
  have herror : ∀ a ∈ twoLines, NoError a := by
    unfold NoError
    decide
  have hshort : Short [[97], [98]] := by
    unfold Short
    decide
  have hall := h 4 twoLines _ 0 [[97], [98]] .reading hrun herror hshort (by decide +kernel)
    (by decide +kernel)
  exact absurd hall (by decide +kernel)

end Server

end CKernel.Net.Framework
