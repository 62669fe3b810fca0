/-
# `CKernel.Net.ChatRound` — one round of the chat server's loop

The loop of `run` takes the indices of `fds_` from the last down to 1.  Erasing
the entry at the index itself, or above it, leaves the entries still to come
where they are.  A `broadcast` erases clients at any index: when one below the
sender's goes, the sender moves down onto an index that is still to come, and
is read again.

    an iteration whose sends to smaller indices succeed moves
      nothing below                                               (`serveClient_good`)
    an iteration in which one of them fails leaves the sender
      below the index                                             (`serveClient_bad`)
    from then on the loop reads someone twice, or leaves the
      vector                                                      (`stale_loop`)
    every client is served once ⟺ no send to a smaller index fails (`round_serves_once_iff`)
-/
import CKernel.Net.ChatServer

namespace CKernel.Net.ChatServer.Server

/-! ## The property and the condition -/

/-- The loop over `orig`, with what has happened in it: no client is read twice;
who has something to read is read, unless removed before; and who is removed for
an error flag has the flag itself. -/
structure ServedOnce (orig : List Pollfd) (log : List Event) : Prop where
  once : ∀ fd, log.count (.read fd) ≤ 1
  served : ∀ p ∈ orig.tail, p.revents.pollin = true →
    .read p.fd ∈ log ∨ ∃ cause, .removed p.fd cause ∈ log
  flagged : ∀ fd owner, .removed fd (.events owner) ∈ log →
    fd = owner ∧ ∃ p ∈ orig.tail, p.fd = fd ∧ p.revents.bad = true

/-- The message that a `recv` brings. -/
def message : Recv → Option Bytes
  | .bytes msg => if 0 < msg.length then some msg else none
  | .eintr => none
  | .error => none

theorem mem_message {r : Recv} {msg : Bytes} :
    msg ∈ message r ↔ r = .bytes msg ∧ 0 < msg.length := by
  cases r with
  | bytes m =>
      rw [message, Option.mem_ite_none_right, Option.mem_some_iff, Recv.bytes.injEq, and_comm]
      exact and_congr_right fun heq => by rw [heq]
  | eintr => simp only [message, Option.mem_def, reduceCtorEq, false_and]
  | error => simp only [message, Option.mem_def, reduceCtorEq, false_and]

/-- `send_all` to each of `ps` in turn succeeds. -/
def AllSent (env : Env) (msg : Bytes) : List Event → List Pollfd → Prop
  | _, [] => True
  | log, p :: ps =>
      env.send log p.fd msg = true ∧ AllSent env msg (log ++ [Event.send p.fd msg true]) ps

instance decAllSent (env : Env) (msg : Bytes) :
    ∀ (log : List Event) (ps : List Pollfd), Decidable (AllSent env msg log ps)
  | _, [] => isTrue trivial
  | log, p :: ps =>
      @instDecidableAnd _ _ inferInstance
        (decAllSent env msg (log ++ [Event.send p.fd msg true]) ps)

/-- If the client at index `i` is read and says something, all clients at
smaller indices can be sent it. -/
def LowerSends (env : Env) (s : Server) (i : Nat) : Prop :=
  ∀ p ∈ s.fds[i]?, p.revents.pollin = true →
    ∀ msg ∈ message (env.recv (s.log ++ [Event.read p.fd]) p.fd),
      AllSent env msg (s.log ++ [Event.read p.fd]) (s.fds.take i).tail

instance (env : Env) (s : Server) (i : Nat) : Decidable (LowerSends env s i) :=
  inferInstanceAs (Decidable (∀ _ ∈ _, _))

/-- So it is in all iterations. -/
def LowerSendsSucceed (env : Env) : Nat → Server → Prop
  | 0, _ => True
  | 1, _ => True
  | i + 2, s =>
      LowerSends env s (i + 1) ∧
        ∀ s' ∈ s.serveClient env (i + 1), LowerSendsSucceed env (i + 1) s'

instance decLowerSendsSucceed (env : Env) :
    ∀ (n : Nat) (s : Server), Decidable (LowerSendsSucceed env n s)
  | 0, _ => isTrue trivial
  | 1, _ => isTrue trivial
  | i + 2, _ =>
      @instDecidableAnd _ _ inferInstance
        (@Option.decidableForallMem _ _ (decLowerSendsSucceed env (i + 1)) _)

/-! ## The log only grows -/

section Log
variable {env : Env} {s s' : Server}

theorem removeClient_log {index : Nat} {cause : Cause} (hs : s.removeClient index cause = some s') :
    s.log <+: s'.log := by
  obtain ⟨p, hp, hs⟩ := Option.bind_eq_some_iff.mp hs
  split at hs
  · cases hs
  · cases hs
    exact List.prefix_append _ _

theorem broadcastLoop_log {msg : Bytes} (fuel : Nat) :
    ∀ {s s' : Server} {sender i : Nat}, broadcastLoop env msg fuel s sender i = some s' →
      s.log <+: s'.log := by
  induction fuel with
  | zero =>
      intro s s' sender i hs
      cases hs
  | succ fuel ih =>
      intro s s' sender i hs
      rw [broadcastLoop] at hs
      split at hs
      · cases hs
        exact List.prefix_refl _
      · split at hs
        · exact ih hs
        · simp only at hs
          split at hs
          · exact (List.prefix_append _ _).trans (ih hs)
          · obtain ⟨s₁, hremove, hrest⟩ := Option.bind_eq_some_iff.mp hs
            exact (List.prefix_append _ _).trans ((removeClient_log hremove).trans (ih hrest))

/-- `read_client` begins with the read. -/
theorem readClient_log {index : Nat} {p : Pollfd} {alive : Bool} (hp : s.fds[index]? = some p)
    (hs : s.readClient env index = some (alive, s')) : (s.log ++ [Event.read p.fd]) <+: s'.log := by
  rw [readClient, hp] at hs
  have hgone : ∀ {alive : Bool},
      ((s.record (.read p.fd)).removeClient index .recv).bind (fun s => some (false, s))
        = some (alive, s') → (s.log ++ [Event.read p.fd]) <+: s'.log := by
    intro alive hs
    obtain ⟨s₁, hremove, heq⟩ := Option.bind_eq_some_iff.mp hs
    cases heq
    exact removeClient_log hremove
  simp only [Option.bind_eq_bind, Option.bind_some] at hs
  split at hs
  · split at hs
    · obtain ⟨s₁, hbroadcast, heq⟩ := Option.bind_eq_some_iff.mp hs
      cases heq
      exact broadcastLoop_log _ hbroadcast
    · exact hgone hs
  · cases hs
    exact List.prefix_refl _
  · exact hgone hs

theorem checkErrors_log {i : Nat} {p : Pollfd} (hs : s.checkErrors i p = some s') :
    s.log <+: s'.log := by
  unfold checkErrors at hs
  split at hs
  · exact removeClient_log hs
  · cases hs
    exact List.prefix_refl _

/-- A client with `POLLIN` is read in its iteration. -/
theorem serveClient_reads {i : Nat} {p : Pollfd} (hp : s.fds[i]? = some p)
    (hin : p.revents.pollin = true) (hs : s.serveClient env i = some s') :
    (s.log ++ [Event.read p.fd]) <+: s'.log := by
  rw [serveClient, hp] at hs
  simp only [Option.bind_eq_bind, Option.bind_some, hin, if_true] at hs
  obtain ⟨⟨alive, s₁⟩, hread, hs⟩ := Option.bind_eq_some_iff.mp hs
  have hlog := readClient_log hp hread
  simp only at hs
  split at hs
  · exact hlog.trans (checkErrors_log hs)
  · cases hs
    exact hlog

theorem serveClient_log {i : Nat} (hs : s.serveClient env i = some s') : s.log <+: s'.log := by
  obtain ⟨p, hp, hrest⟩ := Option.bind_eq_some_iff.mp hs
  split at hrest
  · rename_i hin
    exact (List.prefix_append _ _).trans (serveClient_reads hp hin hs)
  · exact checkErrors_log hrest

theorem serveLoop_log (n : Nat) :
    ∀ {s s' : Server}, s.serveLoop env n = some s' → s.log <+: s'.log := by
  induction n with
  | zero =>
      intro s s' hs
      cases hs
      exact List.prefix_refl _
  | succ n ih =>
      intro s s' hs
      cases n with
      | zero =>
          cases hs
          exact List.prefix_refl _
      | succ i =>
          obtain ⟨s₁, hserve, hrest⟩ := Option.bind_eq_some_iff.mp hs
          exact (serveClient_log hserve).trans (ih hrest)

end Log

/-! ## After a send to a smaller index has failed -/

/-- A second read of the same client. -/
theorem two_reads {log log' : List Event} {fd : Nat} (hread : .read fd ∈ log)
    (hagain : (log ++ [Event.read fd]) <+: log') : 2 ≤ log'.count (.read fd) := by
  have hone : 1 ≤ log.count (.read fd) := List.one_le_count_iff.mpr hread
  have hle := hagain.sublist.count_le (.read fd)
  rw [List.count_append, List.count_singleton_self] at hle
  omega

/-- Erasing an entry above `p`. -/
theorem removeClient_beyond {front rest : List Pollfd} {p : Pollfd} {log : List Event} {i : Nat}
    {cause : Cause} {s' : Server} (hi : front.length < i)
    (hs : (ofFds (front ++ p :: rest) log).removeClient i cause = some s') :
    ∃ rest' log', s' = ofFds (front ++ p :: rest') log' ∧ rest' ⊆ rest ∧ log <+: log' := by
  obtain ⟨q, hq, -⟩ := Option.bind_eq_some_iff.mp hs
  obtain ⟨k, rfl⟩ := Nat.exists_eq_add_of_lt hi
  rw [ofFds_fds, Nat.add_assoc, List.getElem?_append_right (Nat.le_add_right _ _),
    Nat.add_sub_cancel_left, List.getElem?_cons_succ] at hq
  obtain ⟨hk, hget⟩ := List.getElem?_eq_some_iff.mp hq
  have hsplit : rest = rest.take k ++ q :: rest.drop (k + 1) := by
    rw [← hget, List.getElem_cons_drop, List.take_append_drop]
  have hlen : front.length + k + 1 = (front ++ p :: rest.take k).length := by
    rw [List.length_append, List.length_cons, List.length_take_of_le (Nat.le_of_lt hk)]
    omega
  have hmove : front ++ p :: rest = (front ++ p :: rest.take k) ++ q :: rest.drop (k + 1) := by
    rw [List.append_assoc, List.cons_append, ← hsplit]
  rw [hmove, hlen, removeClient_mid q log (by simp), List.append_assoc, List.cons_append] at hs
  cases hs
  refine ⟨_, _, rfl, fun x hx => ?_, List.prefix_append _ _⟩
  rcases List.mem_append.mp hx with hx | hx
  · exact List.mem_of_mem_take hx
  · exact List.mem_of_mem_drop hx

/-- A client that has been read, below the index the loop has come to, with none
but clients that have been served above it: the loop reads one of them again, or
leaves the vector. -/
theorem stale_loop (env : Env) {front : List Pollfd} (hfront : front ≠ []) {p : Pollfd}
    (hp : p.revents.pollin = true) (n : Nat) :
    ∀ {rest : List Pollfd} {log : List Event} {s' : Server}, front.length < n →
      (∀ q ∈ p :: rest, q.revents.pollin = true → .read q.fd ∈ log) →
      (ofFds (front ++ p :: rest) log).serveLoop env n = some s' →
      ∃ fd, 2 ≤ s'.log.count (.read fd) := by
  have hpos : 0 < front.length := List.length_pos_iff.mpr hfront
  induction n with
  | zero =>
      intro rest log s' hn
      exact absurd hn (Nat.not_lt_zero _)
  | succ n ih =>
      intro rest log s' hn hserved hs
      obtain ⟨i, rfl⟩ := Nat.exists_eq_add_one_of_ne_zero (show n ≠ 0 by omega)
      obtain ⟨s₁, hserve, hrest⟩ := Option.bind_eq_some_iff.mp hs
      obtain ⟨q, hq, hbody⟩ := Option.bind_eq_some_iff.mp hserve
      rw [ofFds_fds, List.getElem?_append_right (by omega)] at hq
      by_cases hin : q.revents.pollin = true
      · -- somebody who has been read already
        have hget : (ofFds (front ++ p :: rest) log).fds[i + 1]? = some q := by
          rw [ofFds_fds, List.getElem?_append_right (by omega)]
          exact hq
        have hagain := (serveClient_reads hget hin hserve).trans (serveLoop_log _ hrest)
        exact ⟨q.fd, two_reads (hserved q (List.mem_of_getElem? hq) hin) hagain⟩
      · -- not `p`; at most it is removed
        have hindex : i + 1 - front.length ≠ 0 := by
          intro hzero
          rw [hzero, List.getElem?_cons_zero] at hq
          exact hin (Option.some.inj hq ▸ hp)
        rw [if_neg hin] at hbody
        unfold checkErrors at hbody
        split at hbody
        · obtain ⟨rest', log', rfl, hsub, hlog⟩ := removeClient_beyond (by omega) hbody
          refine ih (by omega) (fun x hx hxin => hlog.subset (hserved x ?_ hxin)) hrest
          exact List.cons_subset_cons p hsub hx
        · cases hbody
          exact ih (by omega) hserved hrest

/-! ## One iteration -/

/-- Nobody is read, and if somebody is removed for an error flag it is `p`, for its own. -/
def Quiet (p : Pollfd) : Event → Prop
  | .read _ => False
  | .send _ _ _ => True
  | .removed _ .recv => True
  | .removed _ .send => True
  | .removed fd (.events owner) => fd = p.fd ∧ owner = p.fd ∧ p.revents.bad = true

section Iteration
variable {env : Env}

/-- What `deliver` does: those who stay are in order, and all of them only if all
sends succeed. -/
theorem deliver_keeps (env : Env) (msg : Bytes) (p : Pollfd) (ps : List Pollfd) :
    ∀ log : List Event, ∃ extra, (deliver env msg log ps).2 = log ++ extra ∧
      (∀ e ∈ extra, Quiet p e) ∧ (deliver env msg log ps).1.Sublist ps ∧
      ((deliver env msg log ps).1.length = ps.length ↔ AllSent env msg log ps) := by
  induction ps with
  | nil =>
      intro log
      exact ⟨[], (List.append_nil log).symm, fun _ he => absurd he List.not_mem_nil,
        List.Sublist.refl _, iff_of_true rfl trivial⟩
  | cons q ps ih =>
      intro log
      by_cases hok : env.send log q.fd msg = true
      · obtain ⟨extra, hlog, hquiet, hsub, hall⟩ := ih (log ++ [Event.send q.fd msg true])
        rw [deliver_sent hok, hlog]
        refine ⟨.send q.fd msg true :: extra, List.append_assoc _ _ _,
          List.forall_mem_cons.mpr ⟨trivial, hquiet⟩, hsub.cons_cons q, ?_⟩
        rw [List.length_cons, List.length_cons, Nat.add_right_cancel_iff, AllSent,
          and_iff_right hok]
        exact hall
      · rw [Bool.not_eq_true] at hok
        obtain ⟨extra, hlog, hquiet, hsub, -⟩ :=
          ih (log ++ [Event.send q.fd msg false, .removed q.fd .send])
        have hle := hsub.length_le
        rw [deliver_failed hok, hlog]
        refine ⟨.send q.fd msg false :: .removed q.fd .send :: extra, List.append_assoc _ _ _,
          List.forall_mem_cons.mpr ⟨trivial, List.forall_mem_cons.mpr ⟨trivial, hquiet⟩⟩,
          hsub.cons q, iff_of_false ?_ ?_⟩
        · rw [List.length_cons]
          omega
        · rintro ⟨hsent, -⟩
          exact absurd (hok.symm.trans hsent) Bool.noConfusion

variable {first p : Pollfd} {a b : List Pollfd} {log : List Event}

/-- The entry `p`, behind `first :: a`. -/
theorem get_mid : (ofFds (first :: a ++ p :: b) log).fds[a.length + 1]? = some p := by
  simp

theorem removeClient_at (cause : Cause) :
    (ofFds (first :: a ++ p :: b) log).removeClient (a.length + 1) cause
      = some (ofFds (first :: a ++ b) (log ++ [Event.removed p.fd cause])) :=
  removeClient_mid p log (List.cons_ne_nil first a) cause

/-- A read that brings a message. -/
theorem readClient_bytes {msg : Bytes}
    (hrecv : env.recv (log ++ [Event.read p.fd]) p.fd = .bytes msg) (hlen : 0 < msg.length) :
    (ofFds (first :: a ++ p :: b) log).readClient env (a.length + 1)
      = some (true, ofFds (first :: (deliver env msg (log ++ [Event.read p.fd]) a).1 ++
            p :: (deliver env msg (deliver env msg (log ++ [Event.read p.fd]) a).2 b).1)
          (deliver env msg (deliver env msg (log ++ [Event.read p.fd]) a).2 b).2) := by
  rw [readClient, get_mid]
  simp only [Option.bind_eq_bind, Option.bind_some, record_ofFds, ofFds_log, hrecv, if_pos hlen]
  rw [broadcast_eq, Option.bind_some]

/-- A read whose sends to smaller indices succeed: nothing below `p` moves, and
`p` stays unless `recv` has ended it. -/
theorem readClient_good
    (hlower : ∀ msg, env.recv (log ++ [Event.read p.fd]) p.fd = .bytes msg → 0 < msg.length →
      AllSent env msg (log ++ [Event.read p.fd]) a) :
    ∃ alive b' extra, (ofFds (first :: a ++ p :: b) log).readClient env (a.length + 1)
        = some (alive, ofFds (first :: a ++ b') (log ++ Event.read p.fd :: extra)) ∧
      (∀ e ∈ extra, Quiet p e) ∧
      ((alive = true ∧ ∃ b₁, b' = p :: b₁ ∧ b₁.Sublist b) ∨ (alive = false ∧ b' = b)) := by
  have hgone : ((ofFds (first :: a ++ p :: b) (log ++ [Event.read p.fd])).removeClient
        (a.length + 1) .recv).bind (fun s => some (false, s))
      = some (false, ofFds (first :: a ++ b)
          (log ++ Event.read p.fd :: [.removed p.fd .recv])) := by
    rw [removeClient_at, Option.bind_some, List.append_assoc, List.singleton_append]
  have hquiet : ∀ e ∈ [Event.removed p.fd .recv], Quiet p e :=
    List.forall_mem_singleton.mpr trivial
  cases hrecv : env.recv (log ++ [Event.read p.fd]) p.fd with
  | bytes msg =>
      by_cases hlen : 0 < msg.length
      · obtain ⟨extraA, hlogA, hquietA, hsubA, hallA⟩ :=
          deliver_keeps env msg p a (log ++ [Event.read p.fd])
        obtain ⟨extraB, hlogB, hquietB, hsubB, -⟩ :=
          deliver_keeps env msg p b (log ++ [Event.read p.fd] ++ extraA)
        have hkept := hsubA.eq_of_length (hallA.mpr (hlower msg hrecv hlen))
        refine ⟨true, _, extraA ++ extraB, ?_, List.forall_mem_append.mpr ⟨hquietA, hquietB⟩,
          .inl ⟨rfl, _, rfl, hsubB⟩⟩
        rw [readClient_bytes hrecv hlen, hlogA, hkept, hlogB]
        simp only [List.append_assoc, List.cons_append, List.nil_append]
      · refine ⟨false, b, _, ?_, hquiet, .inr ⟨rfl, rfl⟩⟩
        rw [readClient, get_mid]
        simp only [Option.bind_eq_bind, Option.bind_some, record_ofFds, ofFds_log, hrecv,
          if_neg hlen]
        exact hgone
  | eintr =>
      refine ⟨true, p :: b, [], ?_, fun _ he => absurd he List.not_mem_nil,
        .inl ⟨rfl, b, rfl, List.Sublist.refl b⟩⟩
      rw [readClient, get_mid]
      simp only [Option.bind_eq_bind, Option.bind_some, record_ofFds, ofFds_log, hrecv]
  | error =>
      refine ⟨false, b, _, ?_, hquiet, .inr ⟨rfl, rfl⟩⟩
      rw [readClient, get_mid]
      simp only [Option.bind_eq_bind, Option.bind_some, record_ofFds, ofFds_log, hrecv]
      exact hgone

/-- The check of the flags, with `p` still at its index. -/
theorem checkErrors_good :
    ∃ b' extra, (ofFds (first :: a ++ p :: b) log).checkErrors (a.length + 1) p
        = some (ofFds (first :: a ++ b') (log ++ extra)) ∧
      (∀ e ∈ extra, Quiet p e) ∧ b'.Sublist (p :: b) := by
  by_cases hbad : p.revents.bad = true
  · refine ⟨b, [.removed p.fd (.events p.fd)], ?_,
      List.forall_mem_singleton.mpr ⟨rfl, rfl, hbad⟩, List.sublist_cons_self p b⟩
    rw [checkErrors, if_pos hbad, removeClient_at]
  · refine ⟨p :: b, [], ?_, fun _ he => absurd he List.not_mem_nil, List.Sublist.refl _⟩
    rw [checkErrors, if_neg hbad, List.append_nil]

/-- The read that an iteration makes for `p`. -/
def readsOf (p : Pollfd) : List Event := if p.revents.pollin then [.read p.fd] else []

/-- An iteration whose sends to smaller indices succeed: what lies below the index
stays, `p` is read if it has something to read, and at most `p` and those above it
are removed. -/
theorem serveClient_good
    (hlower : LowerSends env (ofFds (first :: a ++ p :: b) log) (a.length + 1)) :
    ∃ b' extra, (ofFds (first :: a ++ p :: b) log).serveClient env (a.length + 1)
        = some (ofFds (first :: a ++ b') (log ++ readsOf p ++ extra)) ∧
      (∀ e ∈ extra, Quiet p e) ∧ b'.Sublist (p :: b) := by
  rw [serveClient, get_mid]
  simp only [Option.bind_eq_bind, Option.bind_some, readsOf]
  by_cases hin : p.revents.pollin = true
  · have hsends : ∀ msg, env.recv (log ++ [Event.read p.fd]) p.fd = .bytes msg → 0 < msg.length →
        AllSent env msg (log ++ [Event.read p.fd]) a := by
      intro msg hrecv hlen
      have hall := hlower p get_mid hin msg (mem_message.mpr ⟨hrecv, hlen⟩)
      rwa [ofFds_fds, ofFds_log, List.take_left' (by simp), List.tail_cons] at hall
    obtain ⟨alive, b', extra, hread, hquiet, hend⟩ := @readClient_good env first p a b log hsends
    simp only [hin, if_true]
    rw [hread, Option.bind_some]
    rcases hend with ⟨rfl, b₁, rfl, hsub⟩ | ⟨rfl, rfl⟩
    · obtain ⟨b'', extra', hcheck, hquiet', hsub'⟩ :=
        @checkErrors_good first p a b₁ (log ++ Event.read p.fd :: extra)
      refine ⟨b'', extra ++ extra', ?_, List.forall_mem_append.mpr ⟨hquiet, hquiet'⟩,
        hsub'.trans (hsub.cons_cons p)⟩
      simp only [if_true, hcheck]
      simp only [List.append_assoc, List.cons_append, List.nil_append]
    · refine ⟨b', extra, ?_, hquiet, List.sublist_cons_self p b'⟩
      simp only [Bool.false_eq_true, if_false, List.append_assoc, List.singleton_append]
  · obtain ⟨b', extra, hcheck, hquiet, hsub⟩ := @checkErrors_good first p a b log
    refine ⟨b', extra, ?_, hquiet, hsub⟩
    simp only [hin, Bool.false_eq_true, if_false, hcheck, List.append_nil]

/-- An iteration in which a send to a smaller index fails: what is left of it has
`p` below the index, and above `p` only entries that were there. -/
theorem serveClient_bad {s : Server} (hs : s = ofFds (first :: a ++ p :: b) log)
    (hlower : ¬ LowerSends env s (a.length + 1)) {s' : Server}
    (hserve : s.serveClient env (a.length + 1) = some s') :
    p.revents.pollin = true ∧ ∃ front rest log', s' = ofFds (front ++ p :: rest) log' ∧
      front ≠ [] ∧ front.length < a.length + 1 ∧ rest ⊆ b ∧
      (log ++ [Event.read p.fd]) <+: log' := by
  subst hs
  simp only [LowerSends, not_forall] at hlower
  obtain ⟨q, hq, hin, msg, hmsg, hnot⟩ := hlower
  obtain ⟨hrecv, hlen⟩ := mem_message.mp hmsg
  cases Option.some.inj (get_mid.symm.trans hq)
  rw [ofFds_log] at hrecv
  rw [ofFds_fds, ofFds_log, List.take_left' (by simp), List.tail_cons] at hnot
  refine ⟨hin, ?_⟩
  obtain ⟨extraA, hlogA, -, hsubA, hallA⟩ := deliver_keeps env msg p a (log ++ [Event.read p.fd])
  obtain ⟨extraB, hlogB, -, hsubB, -⟩ :=
    deliver_keeps env msg p b (log ++ [Event.read p.fd] ++ extraA)
  have hfewer : (deliver env msg (log ++ [Event.read p.fd]) a).1.length < a.length :=
    Nat.lt_of_le_of_ne hsubA.length_le fun heq => hnot (hallA.mp heq)
  rw [serveClient, get_mid] at hserve
  simp only [Option.bind_eq_bind, Option.bind_some, hin, if_true] at hserve
  rw [readClient_bytes hrecv hlen, Option.bind_some, hlogA, hlogB] at hserve
  simp only [if_true] at hserve
  generalize (deliver env msg (log ++ [Event.read p.fd]) a).1 = kept at hserve hfewer
  generalize (deliver env msg (log ++ [Event.read p.fd] ++ extraA) b).1 = rest at hserve hsubB
  have hlog : (log ++ [Event.read p.fd]) <+: log ++ [Event.read p.fd] ++ extraA ++ extraB := by
    rw [List.append_assoc _ extraA]
    exact List.prefix_append _ _
  rw [checkErrors] at hserve
  split at hserve
  · obtain ⟨rest', log', rfl, hsub, hlog'⟩ := removeClient_beyond
      (show (first :: kept).length < a.length + 1 by simp; omega) hserve
    exact ⟨first :: kept, rest', log', rfl, List.cons_ne_nil _ _, by simp; omega,
      List.Subset.trans hsub hsubB.subset, hlog.trans hlog'⟩
  · cases hserve
    exact ⟨first :: kept, rest, _, rfl, List.cons_ne_nil _ _, by simp; omega, hsubB.subset, hlog⟩

end Iteration

/-! ## The whole loop -/

/-- The loop over `orig`, with the indices below `k` to come: `rest` is left of the
entries that have been served. -/
structure Halfway (orig : List Pollfd) (k : Nat) (rest : List Pollfd) (log : List Event) :
    Prop where
  left : rest ⊆ orig.drop k
  served : ∀ p ∈ orig.drop k, p.revents.pollin = true → .read p.fd ∈ log
  unread : ∀ p ∈ orig.take k, .read p.fd ∉ log
  once : ∀ fd, log.count (.read fd) ≤ 1
  flagged : ∀ fd owner, .removed fd (.events owner) ∈ log →
    fd = owner ∧ ∃ p ∈ orig.tail, p.fd = fd ∧ p.revents.bad = true

theorem Halfway.servedOnce {orig rest : List Pollfd} {k : Nat} {log : List Event} (hk : k ≤ 1)
    (h : Halfway orig k rest log) : ServedOnce orig log where
  once := h.once
  flagged := h.flagged
  served := by
    intro p hp hin
    refine .inl (h.served p ?_ hin)
    rw [← List.drop_one] at hp
    exact (List.drop_sublist_drop_left orig hk).subset hp

section Step
variable {first p : Pollfd} {a b rest rest' : List Pollfd} {log extra : List Event}

theorem take_below : (first :: a ++ p :: b).take (a.length + 1) = first :: a :=
  List.take_left' rfl

theorem take_upto : (first :: a ++ p :: b).take (a.length + 2) = first :: a ++ [p] := by
  rw [show first :: a ++ p :: b = first :: a ++ [p] ++ b by simp, List.take_left' (by simp)]

theorem drop_below : (first :: a ++ p :: b).drop (a.length + 1) = p :: b :=
  List.drop_left' rfl

theorem drop_upto : (first :: a ++ p :: b).drop (a.length + 2) = b := by
  rw [show first :: a ++ p :: b = first :: a ++ [p] ++ b by simp, List.drop_left' (by simp)]

/-- Who has been read after the iteration for `p`. -/
theorem read_mem_iff (hquiet : ∀ e ∈ extra, Quiet p e) (fd : Nat) :
    .read fd ∈ log ++ readsOf p ++ extra ↔
      .read fd ∈ log ∨ (p.revents.pollin = true ∧ fd = p.fd) := by
  have hextra : .read fd ∉ extra := fun hmem => hquiet _ hmem
  rw [List.mem_append, List.mem_append, readsOf, or_iff_left hextra]
  by_cases hin : p.revents.pollin = true
  · simp only [hin, if_true, List.mem_singleton, Event.read.injEq, true_and]
  · rw [if_neg hin, or_iff_left List.not_mem_nil, or_iff_left fun hread => hin hread.1]

/-- And how often, if `p` had not been read before. -/
theorem read_count_le (hquiet : ∀ e ∈ extra, Quiet p e) (hunread : .read p.fd ∉ log) {fd : Nat}
    (honce : log.count (.read fd) ≤ 1) : (log ++ readsOf p ++ extra).count (.read fd) ≤ 1 := by
  have hextra : extra.count (.read fd) = 0 := List.count_eq_zero.mpr fun hmem => hquiet _ hmem
  rw [List.count_append, List.count_append, hextra, Nat.add_zero, readsOf]
  split
  · by_cases hfd : fd = p.fd
    · rw [hfd, List.count_eq_zero.mpr hunread, List.count_singleton_self]
    · have hnone : [Event.read p.fd].count (.read fd) = 0 :=
        List.count_eq_zero.mpr fun hmem => hfd (by simpa using hmem)
      rw [hnone]
      exact honce
  · exact honce

/-- An iteration without a failed send to a smaller index. -/
theorem Halfway.step (hnodup : ((first :: a ++ p :: b).map Pollfd.fd).Nodup)
    (h : Halfway (first :: a ++ p :: b) (a.length + 2) rest log)
    (hquiet : ∀ e ∈ extra, Quiet p e) (hsub : rest' ⊆ p :: rest) :
    Halfway (first :: a ++ p :: b) (a.length + 1) rest' (log ++ readsOf p ++ extra) := by
  have hunread := h.unread
  rw [take_upto] at hunread
  constructor
  · have hleft := h.left
    rw [drop_upto] at hleft
    rw [drop_below]
    exact List.Subset.trans hsub (List.cons_subset_cons p hleft)
  · have hserved := h.served
    rw [drop_upto] at hserved
    rw [drop_below]
    intro q hq hin
    rw [read_mem_iff hquiet]
    rcases List.mem_cons.mp hq with rfl | hq
    · exact .inr ⟨hin, rfl⟩
    · exact .inl (hserved q hq hin)
  · rw [take_below]
    intro q hq
    rw [read_mem_iff hquiet, not_or]
    refine ⟨hunread q (List.mem_append_left _ hq), ?_⟩
    rintro ⟨-, heq⟩
    rw [List.map_append, List.map_cons] at hnodup
    exact (List.nodup_append'.mp hnodup).2.2 (List.mem_map_of_mem hq) (heq ▸ List.mem_cons_self)
  · intro fd
    exact read_count_le hquiet (hunread p List.mem_concat_self) (h.once fd)
  · intro fd owner hmem
    rw [List.mem_append, List.mem_append] at hmem
    rcases hmem with (hmem | hmem) | hmem
    · exact h.flagged fd owner hmem
    · rw [readsOf] at hmem
      split at hmem
      · cases List.mem_singleton.mp hmem
      · exact absurd hmem List.not_mem_nil
    · obtain ⟨rfl, rfl, hbad⟩ := hquiet _ hmem
      exact ⟨rfl, p, List.mem_append_right a List.mem_cons_self, rfl, hbad⟩

end Step

/-- The loop, from any index on. -/
theorem loop_serves_iff (env : Env) {orig : List Pollfd} (hnodup : (orig.map Pollfd.fd).Nodup)
    (n : Nat) :
    ∀ {rest : List Pollfd} {log : List Event}, n ≤ orig.length → Halfway orig n rest log →
      ((∃ s', (ofFds (orig.take n ++ rest) log).serveLoop env n = some s' ∧
          ServedOnce orig s'.log) ↔
        LowerSendsSucceed env n (ofFds (orig.take n ++ rest) log)) := by
  induction n with
  | zero =>
      intro rest log _ h
      exact iff_of_true ⟨_, rfl, h.servedOnce (Nat.zero_le 1)⟩ trivial
  | succ n ih =>
      intro rest log hn h
      cases n with
      | zero => exact iff_of_true ⟨_, rfl, h.servedOnce (Nat.le_refl 1)⟩ trivial
      | succ i =>
          obtain ⟨first, p, a, b, rfl, hi⟩ := split_at (Nat.succ_pos i) hn
          obtain rfl : i = a.length := Nat.succ.inj hi
          have hfds : (first :: a ++ p :: b).take (a.length + 1 + 1) ++ rest
              = first :: a ++ p :: rest := by
            rw [take_upto, List.append_assoc, List.singleton_append]
          rw [hfds]
          have hloop : ∀ s s' : Server, s.serveLoop env (a.length + 2) = some s' ↔
              ∃ s₁, s.serveClient env (a.length + 1) = some s₁ ∧
                s₁.serveLoop env (a.length + 1) = some s' := fun s s' =>
            Option.bind_eq_some_iff
          by_cases hlower : LowerSends env (ofFds (first :: a ++ p :: rest) log) (a.length + 1)
          · obtain ⟨b', extra, hserve, hquiet, hsub⟩ := serveClient_good hlower
            have hrest := ih (Nat.le_of_succ_le hn) (h.step hnodup hquiet hsub.subset)
            rw [take_below] at hrest
            constructor
            · rintro ⟨s', hs', hserved⟩
              obtain ⟨s₁, hs₁, hs'⟩ := (hloop _ _).mp hs'
              cases hserve.symm.trans hs₁
              refine ⟨hlower, fun s₂ hs₂ => ?_⟩
              cases hserve.symm.trans hs₂
              exact hrest.mp ⟨s', hs', hserved⟩
            · rintro ⟨-, hafter⟩
              obtain ⟨s', hs', hserved⟩ := hrest.mpr (hafter _ hserve)
              exact ⟨s', (hloop _ _).mpr ⟨_, hserve, hs'⟩, hserved⟩
          · refine iff_of_false ?_ fun hall => hlower hall.1
            rintro ⟨s', hs', hserved⟩
            obtain ⟨s₁, hs₁, hs'⟩ := (hloop _ _).mp hs'
            obtain ⟨hin, front, above, log', rfl, hfront, hlt, hsub, hlog⟩ :=
              serveClient_bad rfl hlower hs₁
            -- everyone above the sender has been served
            have hdone : ∀ q ∈ p :: above, q.revents.pollin = true → .read q.fd ∈ log' := by
              intro q hq hqin
              rcases List.mem_cons.mp hq with rfl | hq
              · exact hlog.subset (List.mem_append_right _ List.mem_cons_self)
              · exact hlog.subset (List.mem_append_left _ (h.served q (h.left (hsub hq)) hqin))
            obtain ⟨fd, htwice⟩ := stale_loop env hfront hin _ hlt hdone hs'
            exact absurd (hserved.once fd) (by omega)

/-- **One round of `run`** serves every client once — nobody is read twice, no
index leaves the vectors, and error flags remove their owner — exactly when no
`broadcast` in it fails to send to a client at a smaller index than the
sender's. -/
theorem round_serves_once_iff {listenFd : Nat} {s s₁ : Server} (h : Reaches listenFd s) (env : Env)
    {revents : List Revents} {client : Option Nat} (hlen : revents.length = s.fds.length)
    (hfresh : ∀ fd ∈ client, fd ∉ s.fds.map Pollfd.fd) (hs : s.opened revents client = some s₁) :
    (∃ s', s₁.serveLoop env s₁.fds.length = some s' ∧ ServedOnce s₁.fds s'.log) ↔
      LowerSendsSucceed env s₁.fds.length s₁ := by
  have hinv := (Reaches.opened revents client h hlen hfresh hs).inv
  have hnodup : (s₁.fds.map Pollfd.fd).Nodup := hinv.aligned ▸ hinv.nodup
  have hlog : s₁.log = [] := by
    obtain ⟨first, hfirst, hs⟩ := Option.bind_eq_some_iff.mp hs
    cases hs
    split
    · cases client with
      | none => rfl
      | some fd =>
          rw [acceptClient]
          split <;> rfl
    · rfl
  have hstart : Halfway s₁.fds s₁.fds.length [] [] := by
    refine ⟨List.nil_subset _, ?_, fun _ _ => List.not_mem_nil, fun _ => by simp,
      fun _ _ hmem => absurd hmem List.not_mem_nil⟩
    intro p hp
    rw [List.drop_length] at hp
    exact absurd hp List.not_mem_nil
  have hiff := loop_serves_iff env hnodup s₁.fds.length (Nat.le_refl _) hstart
  rw [List.take_length, List.append_nil, ← hlog, ← hinv.eq_ofFds] at hiff
  exact hiff

/-- Two clients speak, and a third, above them, is not to be reached. -/
theorem round_serves_once_iff_upper :
    ∃ s', serveLoop ⟨fun _ _ => .bytes [104], fun _ fd _ => fd ≠ 6⟩ 4
        ⟨[4, 5, 6], [⟨3, {}⟩, ⟨4, { pollin := true }⟩, ⟨5, { pollin := true, pollhup := true }⟩,
          ⟨6, {}⟩], []⟩ = some s' ∧
      (∀ fd, s'.log.count (.read fd) ≤ 1) ∧ s'.fds.map Pollfd.fd = [3, 4] := by
  obtain ⟨s', hs', hserved⟩ := (@round_serves_once_iff 3 _
    ⟨[4, 5, 6], [⟨3, {}⟩, ⟨4, { pollin := true }⟩, ⟨5, { pollin := true, pollhup := true }⟩,
      ⟨6, {}⟩], []⟩ three_clients ⟨fun _ _ => .bytes [104], fun _ fd _ => fd ≠ 6⟩
    [{}, { pollin := true }, { pollin := true, pollhup := true }, {}] none rfl (by decide) rfl).mpr
    (by decide)
  refine ⟨s', hs', hserved.once, ?_⟩
  cases hs'
  rfl

/-- Client 5 speaks, and client 4, in front of it, is gone: 5 is read a second
time in the same round. -/
theorem sender_read_twice :
    ∃ s s₁ : Server, Reaches 3 s ∧ s.opened [{}, {}, { pollin := true }] none = some s₁ ∧
      ¬ ∀ env : Env, ∃ s', s₁.serveLoop env s₁.fds.length = some s' ∧
        ServedOnce s₁.fds s'.log := by
  refine ⟨_, _, two_clients, rfl, ?_⟩
  intro h
  obtain ⟨s', hs', hserved⟩ := h ⟨fun _ _ => .bytes [104], fun _ fd _ => fd ≠ 4⟩
  cases hs'
  exact absurd (hserved.once 5) (by decide)

end CKernel.Net.ChatServer.Server
