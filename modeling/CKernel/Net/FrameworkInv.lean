/-
# `CKernel.Net.FrameworkInv` — what the event loop of `framework_server.cpp` keeps

The invariant depends on where the loop is: at a connection it reads or writes, the
connection is `reading` or `writing`, and at none all of them are registered.  `Mid`
is what holds in the middle of a handler, where `alive` says what is still allowed.

    what the handler keeps                               (`Mid.dispatchLine`, `Mid.atEof`)
    what it leaves                                       (`Mid.endEvent`, `inv_afterRecv`, `inv_afterSend`)
    every step keeps the invariant                       (`inv_step`)
    one request in flight, and no completion lost        (`one_in_flight`)
    the answers are those of the lines, in order         (`answers_in_order`)
-/
import CKernel.Net.FrameworkTables

namespace CKernel.Net.Framework

open Lines

namespace Server

variable {s s' : Server} {id : Nat}

/-! ## System calls -/

theorem core_setEof (h : Core s (some id)) : Core (s.setEof id) (some id) := by
  refine h.only (only_setConnection rfl) ?_
  rw [setEof_connection]
  exact (h.good id).eof

theorem core_sentAll (h : Core s (some id)) (hstate : (s.connections id).state = .writing)
    (hsent : (s.connections id).sent = (s.connections id).output.length) :
    Core (s.sentAll id) (some id) := by
  refine h.only (only_setConnection rfl) ?_
  rw [sentAll_connection]
  exact (h.good id).sent hstate hsent

theorem only_got {n : Nat} : Only id s (s.got id n) := by
  have hset : Only id s (s.setConnection id { s.connections id with
      input := (s.connections id).input ++ (s.peers id).inbox.take n }) :=
    only_setConnection rfl
  exact hset.trans only_setPeer

theorem only_wrote {n : Nat} : Only id s (s.wrote id n) := by
  have hset : Only id s (s.setConnection id { s.connections id with
      sent := (s.connections id).sent + n }) :=
    only_setConnection rfl
  exact hset.trans only_setPeer

theorem inv_got (h : Core s (some id)) (hstate : (s.connections id).state = .reading) (n : Nat) :
    Core (s.got id n) (some id) ∧ ((s.got id n).connections id).state = .reading := by
  refine ⟨h.only only_got ?_, ?_⟩
  · rw [got_connection, got_peer]
    exact (h.good id).got _ _
  · rw [got_connection]
    exact hstate

theorem inv_wrote (h : Core s (some id)) (hstate : (s.connections id).state = .writing) {n : Nat}
    (hn : (s.connections id).sent + n ≤ (s.connections id).output.length) :
    Core (s.wrote id n) (some id) ∧ ((s.wrote id n).connections id).state = .writing := by
  refine ⟨h.only only_wrote ?_, ?_⟩
  · rw [wrote_connection, wrote_peer]
    exact (h.good id).wrote hstate hn
  · rw [wrote_connection]
    exact hstate

/-! ## Handling one event -/

/-- In the middle of a handler, with its variable `alive`. -/
structure Mid (s : Server) (id : Nat) (alive : Bool) : Prop where
  core : Core s (some id)
  opened : alive = true → (s.connections id).state ≠ .closed
  spared : alive = false → (s.connections id).state ≠ .processing

theorem Core.mid (h : Core s (some id)) (alive : Bool)
    (hclosed : (s.connections id).state ≠ .closed)
    (hprocessing : (s.connections id).state ≠ .processing) : Mid s id alive :=
  ⟨h, fun _ => hclosed, fun _ => hprocessing⟩

/-- After the loop: nothing is listed. -/
structure Halted (s : Server) : Prop where
  unlisted : ∀ fd, s.clients fd = none
  sound : ∀ id, Sound (s.connections id) (s.peers id)
  closings : ∀ x ∈ s.closings, x.2 ≠ .processing
  drained : ∀ x ∈ s.drained, x = (true, .processing)

def Inv (s : Server) : Prop :=
  match s.pc with
  | .wait | .accept => Core s none
  | .recv id _ => Core s (some id) ∧ (s.connections id).state = .reading
  | .send id _ => Core s (some id) ∧ (s.connections id).state = .writing
  | .stopped => Halted s

theorem inv_of_wait (hpc : s.pc = .wait) : Inv s ↔ Core s none := by rw [Inv, hpc]

theorem inv_of_accept (hpc : s.pc = .accept) : Inv s ↔ Core s none := by rw [Inv, hpc]

theorem inv_of_recv {flags : Flags} (hpc : s.pc = .recv id flags) :
    Inv s ↔ Core s (some id) ∧ (s.connections id).state = .reading := by rw [Inv, hpc]

theorem inv_of_send {flags : Flags} (hpc : s.pc = .send id flags) :
    Inv s ↔ Core s (some id) ∧ (s.connections id).state = .writing := by rw [Inv, hpc]

namespace Mid

variable {alive : Bool}

theorem dispatchLine (h : Mid s id true) :
    Mid (s.dispatchLine id).1 id (s.dispatchLine id).2 := by
  have honly : Only id s (s.dispatchLine id).1 := only_dispatchLine
  have hd := dispatched s id
  generalize s.dispatchLine id = r at hd honly
  cases hd with
  | elsewhere hstate => exact h
  | unfinished hstate hinput => exact h
  | tooLong hstate line rest hinput hline hlen =>
      refine ⟨h.core.only honly ?_, fun ht => absurd ht Bool.false_ne_true, fun _ => by simp⟩
      rw [setConnection_self]
      exact (h.core.good id).close (by simp [hstate])
  | job hstate line rest hinput hline hlen =>
      refine ⟨h.core.only honly ?_, fun _ => by simp, fun ht => absurd ht.symm Bool.false_ne_true⟩
      have hnone : s.pending id = [] := (h.core.good id).eq_nil (by simp [hstate])
      have hpending : ((s.cutLine id line rest).pending id).Perm [answer line] :=
        hnone ▸ pending_cutLine line rest
      rw [cutLine_connection, cutLine_peer]
      exact ((h.core.good id).dispatch hstate hinput hline hlen).perm hpending

theorem setEof (h : Mid s id alive) : Mid (s.setEof id) id alive := by
  refine ⟨core_setEof h.core, ?_, ?_⟩
  · rw [setEof_connection]
    exact h.opened
  · rw [setEof_connection]
    exact h.spared

theorem atEof (h : Mid s id true) : Mid (s.atEof id).1 id (s.atEof id).2 := by
  unfold Server.atEof
  dsimp only
  split
  case isTrue hc =>
    have hmid := h.dispatchLine
    refine ⟨hmid.core, ?_, ?_⟩
    · intro ht
      exact hmid.opened (Bool.and_eq_true_iff.mp ht).1
    · intro hf
      rcases Bool.and_eq_false_iff.mp hf with hf | hf
      · exact hmid.spared hf
      · have hreading := not_not.mp (of_decide_eq_false hf)
        rw [hreading]
        decide
  case isFalse => exact h

theorem finishEvent (h : Mid s id alive) : Inv (s.finishEvent id alive) := by
  have hmid : Mid (if alive then s.atEof id else (s, false)).1 id
      (if alive then s.atEof id else (s, false)).2 := by
    cases alive with
    | true => exact h.atEof
    | false => exact h
  unfold Server.finishEvent
  generalize (if alive then s.atEof id else (s, false)) = r at hmid ⊢
  obtain ⟨s', alive'⟩ := r
  change Core _ none
  cases alive' with
  | true => exact (hmid.core.keep (hmid.opened rfl)).setPc .wait
  | false => exact (hmid.core.close (hmid.spared rfl)).setPc .wait

theorem endEvent (h : Mid s id alive) (flags : Flags) : Inv (s.endEvent id flags alive) := by
  unfold Server.endEvent
  split
  · exact h.setEof.finishEvent
  · exact h.finishEvent

theorem beforeSend (h : Mid s id alive) (flags : Flags) : Inv (s.beforeSend id flags alive) := by
  unfold Server.beforeSend
  split
  case isTrue hc =>
    simp only [Bool.and_eq_true, decide_eq_true_eq] at hc
    exact ⟨h.core.setPc _, hc.2⟩
  case isFalse => exact h.endEvent flags

end Mid

theorem inv_afterRecv (h : Core s (some id)) (hstate : (s.connections id).state = .reading)
    (flags : Flags) (alive : Bool) : Inv (s.afterRecv id flags alive) := by
  have hmid (alive : Bool) : Mid s id alive := h.mid alive (by simp [hstate]) (by simp [hstate])
  cases alive with
  | true => exact (hmid true).dispatchLine.beforeSend flags
  | false => exact (hmid false).beforeSend flags

theorem inv_afterSend (h : Core s (some id)) (hstate : (s.connections id).state = .writing)
    (flags : Flags) (alive : Bool) : Inv (s.afterSend id flags alive) := by
  unfold afterSend
  dsimp only
  split
  case isTrue hc =>
    have hmid := (core_sentAll h hstate hc.2).mid true (by simp) (by simp)
    exact hmid.dispatchLine.endEvent flags
  case isFalse => exact (h.mid alive (by simp [hstate]) (by simp [hstate])).endEvent flags

theorem inv_handle {e : Event} {rest : List Event} (h : Core s none) (hpc : s.pc = .wait)
    (hevents : s.events = e :: rest) : Inv ({ s with events := rest }.handle e) := by
  unfold handle
  cases htarget : e.target with
  | listener => exact (h.tail hevents).setPc .accept
  | notify =>
      have hpc' : ({ s with events := rest } : Server).drain.pc = .wait :=
        (drain_same _).1.trans hpc
      exact (inv_of_wait hpc').mpr (h.tail hevents).drain
  | client fd =>
      dsimp only
      cases hclient : s.clients fd with
      | none =>
          have hpc' : ({ s with events := rest } : Server).pc = .wait := hpc
          exact (inv_of_wait hpc').mpr (h.tail hevents)
      | some id =>
          have hcore := h.turn hevents htarget hclient
          have hawaited := h.awaited e (hevents ▸ List.mem_cons_self) fd htarget
          obtain ⟨id', hid', -, hin, -⟩ := hawaited
          cases hid'.symm.trans hclient
          dsimp only
          split
          case isTrue hc => exact ⟨hcore.setPc _, hin hc⟩
          case isFalse =>
            have hclosed := (h.settled fd id hclient (Option.some_ne_none id).symm).1
            have hmid : Mid { s with events := rest } id true :=
              ⟨hcore, fun _ => hclosed, fun ht => absurd ht.symm Bool.false_ne_true⟩
            exact hmid.beforeSend e.flags

/-! ## Steps -/

theorem inRecv_eq_some {f : Nat → Flags → Option Server} :
    s.inRecv f = some s' ↔ ∃ id flags, s.pc = .recv id flags ∧ f id flags = some s' := by
  unfold inRecv
  cases s.pc <;> simp

theorem inSend_eq_some {f : Nat → Flags → Option Server} :
    s.inSend f = some s' ↔ ∃ id flags, s.pc = .send id flags ∧ f id flags = some s' := by
  unfold inSend
  cases s.pc <;> simp

/-- An event is looked at. -/
theorem step_event (hstep : step s .event = some s') : ∃ e rest, s.events = e :: rest ∧
    s.pc = .wait ∧ s' = ({ s with events := rest } : Server).handle e := by
  cases hevents : s.events with
  | nil => simp [step, hevents] at hstep
  | cons e rest =>
      simp only [step, hevents] at hstep
      obtain ⟨hpc, hs'⟩ := Option.ite_none_right_eq_some.mp hstep
      exact ⟨e, rest, rfl, hpc, (Option.some.inj hs').symm⟩

/-- A worker takes a job. -/
theorem step_take (hstep : step s .take = some s') : ∃ job jobs, s.jobs = job :: jobs ∧
    s' = { s with jobs := jobs, held := s.held ++ [job] } := by
  cases hjobs : s.jobs with
  | nil => simp [step, hjobs] at hstep
  | cons job jobs =>
      simp only [step, hjobs] at hstep
      obtain ⟨-, hs'⟩ := Option.ite_none_right_eq_some.mp hstep
      exact ⟨job, jobs, rfl, (Option.some.inj hs').symm⟩

/-- A worker has done one. -/
theorem step_finish {i : Nat} (hstep : step s (.finish i) = some s') :
    ∃ job, s.held[i]? = some job ∧ s' = { s with
      held := s.held.eraseIdx i
      done := s.done ++ [⟨job.connection, response job.line⟩] } := by
  cases hjob : s.held[i]? with
  | none => simp [step, hjob] at hstep
  | some job =>
      simp only [step, hjob, Option.some.injEq] at hstep
      exact ⟨job, rfl, hstep.symm⟩

theorem Halted.outside (h : Halted s) (ho : Outside s s') : Halted s' where
  unlisted := ho.clients ▸ h.unlisted
  sound := by
    intro j
    rw [ho.connections]
    exact (h.sound j).peer (ho.received j) (ho.cut j) (ho.answered j)
  closings := ho.closings ▸ h.closings
  drained := ho.drained ▸ h.drained

theorem inv_outside (h : Inv s) (ho : Outside s s') (hpc : s'.pc = s.pc) : Inv s' := by
  unfold Inv at h ⊢
  rw [hpc]
  cases hs : s.pc with
  | wait | accept =>
      rw [hs] at h
      exact Core.outside h ho
  | recv id flags | send id flags =>
      rw [hs] at h
      refine ⟨h.1.outside ho, ?_⟩
      rw [ho.connections]
      exact h.2
  | stopped =>
      rw [hs] at h
      exact Halted.outside h ho

theorem halted_stop (h : Core s none) : Halted s.stop where
  unlisted _ := rfl
  sound := by
    intro j
    have hsound := (h.good j).sound
    change Sound (if s.clients (s.connections j).fd = some j then
      { s.connections j with state := .closed } else s.connections j) (s.peers j)
    split
    · exact ⟨hsound.stream, hsound.lines, hsound.answered⟩
    · exact hsound
  closings := h.closings
  drained := h.drained

theorem inv_start (workers : Nat) : Inv (start workers) := by
  change Core (start workers) none
  constructor
  case good =>
    intro j
    refine ⟨rfl, ?_, rfl, List.nil_prefix⟩
    intro line hline
    cases hline
  case fresh => exact fun _ _ => rfl
  case owner => exact fun fd j hj => absurd hj.symm (Option.some_ne_none j)
  case listed => exact fun j hj => absurd rfl (hj.resolve_right (Option.some_ne_none j).symm)
  case settled => exact fun fd j hj => absurd hj.symm (Option.some_ne_none j)
  case unlisted => exact fun _ _ => rfl
  case awaited => exact fun e he => absurd he List.not_mem_nil
  case once => exact List.nodup_nil
  case closings => exact fun x hx => absurd hx List.not_mem_nil
  case drained => exact fun x hx => absurd hx List.not_mem_nil

theorem inv_step (s : Server) (a : Step) (s' : Server) (h : Inv s)
    (hstep : step s a = some s') : Inv s' := by
  cases a with
  | wait events =>
      obtain ⟨⟨hpc, -, -, honce, hreports⟩, hs'⟩ := Option.ite_none_right_eq_some.mp hstep
      cases hs'
      have hpc' : ({ s with events := events } : Server).pc = .wait := hpc
      exact (inv_of_wait hpc').mpr (((inv_of_wait hpc).mp h).wait honce hreports)
  | event =>
      obtain ⟨e, rest, hevents, hpc, rfl⟩ := step_event hstep
      exact inv_handle ((inv_of_wait hpc).mp h) hpc hevents
  | accepted fd bytes =>
      obtain ⟨⟨hpc, hfd⟩, hs'⟩ := Option.ite_none_right_eq_some.mp hstep
      cases hs'
      have hpc' : (s.accepted fd bytes).pc = .accept := hpc
      exact (inv_of_accept hpc').mpr (((inv_of_accept hpc).mp h).accepted hfd bytes)
  | acceptDone =>
      obtain ⟨hpc, hs'⟩ := Option.ite_none_right_eq_some.mp hstep
      cases hs'
      exact ((inv_of_accept hpc).mp h).setPc .wait
  | got n =>
      obtain ⟨id, flags, hpc, hstep⟩ := inRecv_eq_some.mp hstep
      obtain ⟨-, hs'⟩ := Option.ite_none_right_eq_some.mp hstep
      cases hs'
      have hpc' : (s.got id n).pc = .recv id flags := hpc
      obtain ⟨hcore, hstate⟩ := (inv_of_recv hpc).mp h
      exact (inv_of_recv hpc').mpr (inv_got hcore hstate n)
  | eof =>
      obtain ⟨id, flags, hpc, hstep⟩ := inRecv_eq_some.mp hstep
      obtain ⟨-, hs'⟩ := Option.ite_none_right_eq_some.mp hstep
      cases hs'
      obtain ⟨hcore, hstate⟩ := (inv_of_recv hpc).mp h
      exact inv_afterRecv (core_setEof hcore) (by simpa using hstate) flags true
  | recvAgain =>
      obtain ⟨id, flags, hpc, hstep⟩ := inRecv_eq_some.mp hstep
      obtain ⟨-, hs'⟩ := Option.ite_none_right_eq_some.mp hstep
      cases hs'
      obtain ⟨hcore, hstate⟩ := (inv_of_recv hpc).mp h
      exact inv_afterRecv hcore hstate flags true
  | recvFail =>
      obtain ⟨id, flags, hpc, hstep⟩ := inRecv_eq_some.mp hstep
      cases hstep
      obtain ⟨hcore, hstate⟩ := (inv_of_recv hpc).mp h
      exact inv_afterRecv hcore hstate flags false
  | wrote n =>
      obtain ⟨id, flags, hpc, hstep⟩ := inSend_eq_some.mp hstep
      obtain ⟨⟨-, hn⟩, hs'⟩ := Option.ite_none_right_eq_some.mp hstep
      cases hs'
      have hpc' : (s.wrote id n).pc = .send id flags := hpc
      obtain ⟨hcore, hstate⟩ := (inv_of_send hpc).mp h
      exact (inv_of_send hpc').mpr (inv_wrote hcore hstate hn)
  | sendAgain =>
      obtain ⟨id, flags, hpc, hstep⟩ := inSend_eq_some.mp hstep
      obtain ⟨-, hs'⟩ := Option.ite_none_right_eq_some.mp hstep
      cases hs'
      obtain ⟨hcore, hstate⟩ := (inv_of_send hpc).mp h
      exact inv_afterSend hcore hstate flags true
  | sendFail =>
      obtain ⟨id, flags, hpc, hstep⟩ := inSend_eq_some.mp hstep
      obtain ⟨-, hs'⟩ := Option.ite_none_right_eq_some.mp hstep
      cases hs'
      obtain ⟨hcore, hstate⟩ := (inv_of_send hpc).mp h
      exact inv_afterSend hcore hstate flags false
  | sendDone =>
      obtain ⟨id, flags, hpc, hstep⟩ := inSend_eq_some.mp hstep
      obtain ⟨-, hs'⟩ := Option.ite_none_left_eq_some.mp hstep
      cases hs'
      obtain ⟨hcore, hstate⟩ := (inv_of_send hpc).mp h
      exact inv_afterSend hcore hstate flags true
  | take =>
      obtain ⟨job, jobs, hjobs, rfl⟩ := step_take hstep
      exact inv_outside h (outside_take hjobs) rfl
  | finish i =>
      obtain ⟨job, hjob, rfl⟩ := step_finish hstep
      exact inv_outside h (outside_finish hjob) rfl
  | arrive id n =>
      obtain ⟨-, hs'⟩ := Option.ite_none_right_eq_some.mp hstep
      cases hs'
      exact inv_outside h (outside_setPeer rfl rfl rfl) rfl
  | fin id =>
      obtain ⟨hp, hs'⟩ := Option.dite_none_right_eq_some.mp hstep
      cases hs'
      exact inv_outside h (outside_setPeer rfl rfl rfl) rfl
  | stop =>
      obtain ⟨⟨hpc, -⟩, hs'⟩ := Option.ite_none_right_eq_some.mp hstep
      cases hs'
      exact halted_stop ((inv_of_wait hpc).mp h)

theorem inv_reaches {workers : Nat} {steps : List Step} (h : Reaches workers steps s) : Inv s :=
  Run.run_keeps inv_step steps (inv_start workers) h

/-! ## One request in flight -/

/-- The jobs queued, the jobs held and the completions pending for a connection. -/
def inFlight (s : Server) (id : Nat) : Nat :=
  s.jobs.countP (·.connection = id) + s.held.countP (·.connection = id) +
    s.done.countP (·.connection = id)

theorem inFlight_eq (s : Server) (id : Nat) : s.inFlight id = (s.pending id).length := by
  simp [inFlight, pending, inPool, List.countP_eq_length_filter, List.filter_map,
    Function.comp_def, Nat.add_assoc]

theorem Core.inFlight {busy : Option Nat} (h : Core s busy) (id : Nat) :
    s.inFlight id = if (s.connections id).state = .processing then 1 else 0 := by
  rw [inFlight_eq]
  by_cases hstate : (s.connections id).state = .processing
  · obtain ⟨r, hr, -⟩ := (h.good id).of_processing hstate
    rw [hr, if_pos hstate, List.length_singleton]
  · rw [(h.good id).eq_nil hstate, if_neg hstate, List.length_nil]

/-- A completion that is pending waits for a connection that waits for it. -/
theorem Core.of_mem_done {busy : Option Nat} (h : Core s busy) {r : Completion} (hr : r ∈ s.done) :
    (s.connections r.connection).state = .processing ∧
      s.clients (s.connections r.connection).fd = some r.connection := by
  have hpending : r.response ∈ s.pending r.connection := by
    refine List.mem_map_of_mem (List.mem_filter.mpr ⟨?_, decide_eq_true rfl⟩)
    exact List.mem_append_right _ hr
  have hstate : (s.connections r.connection).state = .processing := by
    by_contra hstate
    rw [(h.good _).eq_nil hstate] at hpending
    exact List.not_mem_nil hpending
  exact ⟨hstate, h.listed _ (.inl (by simp [hstate]))⟩

theorem deliver_of_ne {r : Completion} {j : Nat} (hj : j ≠ r.connection) :
    (s.deliver r).connections j = s.connections j := by
  unfold deliver
  dsimp only
  split
  case isTrue => rfl
  case isFalse => exact Function.update_of_ne hj ..

/-- Every completion drained becomes the output of its connection. -/
theorem Core.drain_delivers (h : Core s none) {r : Completion} (hr : r ∈ s.done) :
    s.drain.connections r.connection = { s.connections r.connection with
      output := r.response, sent := 0, state := .writing } := by
  have hoff (results : List Completion) (s : Server) (j : Nat)
      (hj : ∀ r ∈ results, r.connection ≠ j) :
      (results.foldl Server.deliver s).connections j = s.connections j := by
    induction results generalizing s with
    | nil => rfl
    | cons r results ih =>
        exact (ih _ fun r' hr' => hj r' (List.mem_cons_of_mem r hr')).trans
          (deliver_of_ne (hj r List.mem_cons_self).symm)
  have key (results : List Completion) (s : Server)
      (h : Core { s with done := results ++ s.done } none) (r : Completion) (hr : r ∈ results) :
      (results.foldl Server.deliver s).connections r.connection = { s.connections r.connection with
        output := r.response, sent := 0, state := .writing } := by
    induction results generalizing s with
    | nil => exact absurd hr List.not_mem_nil
    | cons r₀ results ih =>
        have hfirst : (s.connections r₀.connection).state = .processing ∧
            s.clients (s.connections r₀.connection).fd = some r₀.connection :=
          h.of_mem_done List.mem_cons_self
        have hconn : (s.deliver r₀).connections r₀.connection = { s.connections r₀.connection with
            output := r₀.response, sent := 0, state := .writing } := by
          rw [deliver_eq hfirst.2 hfirst.1]
          exact Function.update_self ..
        have hnext : Core { s.deliver r₀ with done := results ++ (s.deliver r₀).done } none := by
          rw [(deliver_same s r₀).1]
          exact h.deliver
        -- the connection is `writing` now, and no other completion is for it
        have hother : ∀ r' ∈ results, r'.connection ≠ r₀.connection := by
          intro r' hr' heq
          have hstate := (hnext.of_mem_done (List.mem_append_left _ hr')).1
          replace hstate : ((s.deliver r₀).connections r'.connection).state = .processing := hstate
          rw [heq, hconn] at hstate
          exact absurd hstate (by simp)
        rcases List.mem_cons.mp hr with rfl | hr
        · exact (hoff results _ _ hother).trans hconn
        · refine (ih _ hnext hr).trans ?_
          rw [deliver_of_ne (hother r hr)]
  exact key s.done { s with done := [] } (by rwa [List.append_nil]) r hr

/-- **One request in flight, and no completion lost.**  A listed connection has one
request with the pool if it is `processing` and none otherwise, no connection was
closed while `processing`, and every completion drained, and every one there is to
drain, found its connection `processing` and became its output. -/
theorem one_in_flight {workers : Nat} {steps : List Step} (h : Reaches workers steps s) :
    (∀ fd id, s.clients fd = some id →
      s.inFlight id = if (s.connections id).state = .processing then 1 else 0) ∧
    (∀ x ∈ s.closings, x.2 ≠ .processing) ∧
    (∀ x ∈ s.drained, x = (true, .processing)) ∧
    (s.pc = .wait → ∀ r ∈ s.done,
      s.clients (s.connections r.connection).fd = some r.connection ∧
      (s.connections r.connection).state = .processing ∧
      s.drain.connections r.connection = { s.connections r.connection with
        output := r.response, sent := 0, state := .writing }) := by
  have hinv := inv_reaches h
  have hcore {busy : Option Nat} (hcore : Core s busy) :
      (∀ fd id, s.clients fd = some id →
        s.inFlight id = if (s.connections id).state = .processing then 1 else 0) ∧
      (∀ x ∈ s.closings, x.2 ≠ .processing) ∧ (∀ x ∈ s.drained, x = (true, .processing)) :=
    ⟨fun _ id _ => hcore.inFlight id, hcore.closings, hcore.drained⟩
  have hwait (hpc : s.pc = .wait) (r : Completion) (hr : r ∈ s.done) :
      s.clients (s.connections r.connection).fd = some r.connection ∧
      (s.connections r.connection).state = .processing ∧
      s.drain.connections r.connection = { s.connections r.connection with
        output := r.response, sent := 0, state := .writing } := by
    have hidle := (inv_of_wait hpc).mp hinv
    exact ⟨(hidle.of_mem_done hr).2, (hidle.of_mem_done hr).1, hidle.drain_delivers hr⟩
  suffices hthree : _ ∧ _ ∧ _ from ⟨hthree.1, hthree.2.1, hthree.2.2, hwait⟩
  cases hpc : s.pc with
  | wait => exact hcore ((inv_of_wait hpc).mp hinv)
  | accept => exact hcore ((inv_of_accept hpc).mp hinv)
  | recv id flags => exact hcore ((inv_of_recv hpc).mp hinv).1
  | send id flags => exact hcore ((inv_of_send hpc).mp hinv).1
  | stopped =>
      rw [Inv, hpc] at hinv
      replace hinv : Halted s := hinv
      refine ⟨fun fd id hfd => ?_, hinv.closings, hinv.drained⟩
      exact absurd (hfd.symm.trans (hinv.unlisted fd)) (Option.some_ne_none id)

/-- A client sends `hi` and a line feed, and its request is with the pool. -/
def hello : List Step :=
  [.wait [⟨.listener, { epollin := true }⟩], .event, .accepted 5 [104, 105, 10], .acceptDone,
    .arrive 0 3, .wait [⟨.client 5, { epollin := true }⟩], .event, .got 3, .recvAgain]

theorem isSome_hello : (Run.run step (start 2) hello).isSome = true := by decide +kernel

theorem one_in_flight_hello :
    ((Run.run step (start 2) hello).get isSome_hello).inFlight 0 = 1 := by
  have hrun : Reaches 2 hello _ := (Option.some_get isSome_hello).symm
  refine ((one_in_flight hrun).1 5 0 ?_).trans ?_
  all_goals decide +kernel

/-! ## The answers -/

theorem sound_reaches {workers : Nat} {steps : List Step} (h : Reaches workers steps s)
    (id : Nat) : Sound (s.connections id) (s.peers id) := by
  have hinv := inv_reaches h
  cases hpc : s.pc with
  | wait => exact (((inv_of_wait hpc).mp hinv).good id).sound
  | accept => exact (((inv_of_accept hpc).mp hinv).good id).sound
  | recv id' flags => exact (((inv_of_recv hpc).mp hinv).1.good id).sound
  | send id' flags => exact (((inv_of_send hpc).mp hinv).1.good id).sound
  | stopped =>
      rw [Inv, hpc] at hinv
      exact Halted.sound hinv id

/-- What a client is to be answered that has sent these bytes: a line of more than
4096 bytes ends the service. -/
def owed (bytes : Bytes) : Bytes :=
  answers ((completeLines newline bytes).takeWhile fun line => line.length ≤ 4096)

/-- **The answers come in order.**  What was sent on a connection is a prefix of what
is owed for the bytes received on it. -/
theorem answers_in_order {workers : Nat} {steps : List Step} (h : Reaches workers steps s)
    (id : Nat) : (s.peers id).answered <+: owed (s.peers id).received := by
  have hsound := sound_reaches h id
  have hlines : completeLines newline (s.peers id).received =
      (s.peers id).cut ++ completeLines newline (s.connections id).input := by
    rw [hsound.stream]
    exact completeLines_unlines fun line hline => (hsound.lines line hline).1
  have hshort : ∀ line ∈ (s.peers id).cut, decide (line.length ≤ 4096) = true :=
    fun line hline => decide_eq_true (hsound.lines line hline).2
  refine hsound.answered.trans ?_
  rw [owed, hlines, List.takeWhile_append_of_pos hshort, answers, answers, List.flatMap_append]
  exact List.prefix_append ..

/-- The worker is done, and three of the six bytes of its answer are sent. -/
def helloAnswer : List Step :=
  hello ++ [.take, .finish 0, .wait [⟨.notify, { epollin := true }⟩], .event,
    .wait [⟨.client 5, { epollout := true }⟩], .event, .wrote 3]

/-- A client sends `hi` with a carriage return, and is answered in two pieces. -/
def helloReturn : List Step :=
  [.wait [⟨.listener, { epollin := true }⟩], .event, .accepted 5 (ascii "hi\r\n"), .acceptDone,
    .arrive 0 4, .wait [⟨.client 5, { epollin := true }⟩], .event, .got 3, .got 1, .recvAgain,
    .take, .finish 0, .wait [⟨.notify, { epollin := true }⟩], .event,
    .wait [⟨.client 5, { epollout := true }⟩], .event, .wrote 4, .wrote 2, .sendDone]

theorem isSome_helloReturn : (Run.run step (start 2) helloReturn).isSome = true := by
  decide +kernel

theorem answers_in_order_hello :
    ∃ s, Reaches 2 helloReturn s ∧ (s.peers 0).received = ascii "hi\r\n" ∧
      (s.peers 0).answered = ascii "OK HI\n" ∧
      (s.peers 0).answered <+: owed (ascii "hi\r\n") := by
  have hrun : Reaches 2 helloReturn _ := (Option.some_get isSome_helloReturn).symm
  have hreceived : (((Run.run step (start 2) helloReturn).get isSome_helloReturn).peers 0).received =
      ascii "hi\r\n" := by decide +kernel
  refine ⟨_, hrun, hreceived, by decide +kernel, ?_⟩
  rw [← hreceived]
  exact answers_in_order hrun 0

end Server

end CKernel.Net.Framework
