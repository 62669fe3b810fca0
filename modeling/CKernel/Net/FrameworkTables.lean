/-
# `CKernel.Net.FrameworkTables` — connections, the pool and the tables of `framework_server.cpp`

A connection is in order (`Good`) if what was received is the lines cut off and the
input, and what was answered, with what is on its way, is the answers of the lines
cut off.  What is on its way depends on the state: a request with a worker while
`processing`, the rest of the output while `writing`, nothing while `reading`.

`Core s busy` says this of every connection, and what the tables say of it; the
connection `busy`, which the loop is at, need not be registered as it should.  The
events of a batch that are not yet handled were reported in a state that has not
changed since, but for `processing` connections, of which no event says anything.

    a worker's response is the answer to the line         (`response_popCr`)
    every way out of `dispatch_line`                     (`dispatched`)
    changes to the connection the loop is at             (`Core.only`, `Core.keep`, `Core.close`)
    changes outside the event loop                       (`Core.outside`)
    events, new connections and completions              (`Core.wait`, `Core.turn`,
                                                          `Core.accepted`, `Core.drain`)
-/
import CKernel.Net.Framework

namespace CKernel.Net.Framework

open Lines

/-! ## One connection -/

/-- The bytes of an ASCII text. -/
def ascii (text : String) : Bytes := text.toList.map fun c => UInt8.ofNat c.toNat

/-- The letters from `a` to `z` are 32 places behind those from `A` to `Z`. -/
def capital (b : UInt8) : UInt8 :=
  if b.toNat ∈ Finset.Icc 'a'.toNat 'z'.toNat then UInt8.ofNat (b.toNat - 32) else b

/-- A line without the carriage return at its end, if there is one. -/
def chomp : Bytes → Bytes
  | [] => []
  | [b] => if b = 13 then [] else [b]
  | b :: c :: line => b :: chomp (c :: line)

/-- The answer to a line as it came. -/
def answer (line : Bytes) : Bytes := ascii "OK " ++ (chomp line).map capital ++ ascii "\n"

theorem upper_eq (line : Bytes) : upper line = line.map capital := by
  refine List.map_congr_left fun b _ => ?_
  have hlow : (97 ≤ b ∧ b ≤ 122) ↔ b.toNat ∈ Finset.Icc 'a'.toNat 'z'.toNat := by
    rw [Finset.mem_Icc, UInt8.le_iff_toNat_le, UInt8.le_iff_toNat_le]
    rfl
  rw [capital, if_congr hlow rfl rfl]
  split
  case isTrue hletter =>
    obtain ⟨hle, hge⟩ := Finset.mem_Icc.mp hletter
    have hle' : 97 ≤ b.toNat := hle
    have hge' : b.toNat ≤ 122 := hge
    refine UInt8.toNat_inj.mp ?_
    rw [UInt8.toNat_add, UInt8.toNat_sub, UInt8.toNat_ofNat']
    change ((2 ^ 8 - 97 + b.toNat) % 2 ^ 8 + 65) % 2 ^ 8 = (b.toNat - 32) % 2 ^ 8
    omega
  case isFalse => rfl

theorem chomp_concat (line : Bytes) (b : UInt8) :
    chomp (line ++ [b]) = if b = 13 then line else line ++ [b] := by
  induction line with
  | nil => rfl
  | cons c line ih =>
      cases line with
      | nil =>
          rw [List.singleton_append, chomp, chomp]
          split <;> rfl
      | cons d line =>
          rw [List.cons_append, List.cons_append, chomp, ← List.cons_append, ih]
          split <;> rfl

theorem popCr_eq (line : Bytes) : popCr line = chomp line := by
  induction line using List.reverseRecOn with
  | nil => rfl
  | append_singleton line b _ =>
      rw [popCr, chomp_concat, List.getLast?_concat, List.dropLast_concat]
      exact if_congr (Option.some.injEq b 13).to_iff rfl rfl

/-- A worker gives the answer to the line. -/
theorem response_popCr (line : Bytes) : response (popCr line) = answer line := by
  rw [response, upper_eq, popCr_eq]
  rfl

def answers (lines : List Bytes) : Bytes := lines.flatMap answer

theorem answers_concat (lines : List Bytes) (line : Bytes) :
    answers (lines ++ [line]) = answers lines ++ answer line := by
  simp [answers]

/-- What is on its way to the client, by state; `q` is the answers that are with the
pool, from the queue of jobs to the queue of completions. -/
def Paid (c : Connection) (p : Peer) (q : List Bytes) : Prop :=
  match c.state with
  | .reading => q = [] ∧ p.answered = answers p.cut
  | .processing => ∃ r, q = [r] ∧ p.answered ++ r = answers p.cut
  | .writing => q = [] ∧ c.sent ≤ c.output.length ∧
      p.answered ++ c.output.drop c.sent = answers p.cut
  | .closed => q = [] ∧ p.answered <+: answers p.cut

/-- What holds of a connection whatever became of it. -/
structure Sound (c : Connection) (p : Peer) : Prop where
  stream : p.received = unlines newline p.cut ++ c.input
  lines : ∀ line ∈ p.cut, newline ∉ line ∧ line.length ≤ 4096
  answered : p.answered <+: answers p.cut

theorem Sound.peer {c : Connection} {p p' : Peer} (h : Sound c p)
    (hreceived : p'.received = p.received) (hcut : p'.cut = p.cut)
    (hanswered : p'.answered = p.answered) : Sound c p' := by
  refine ⟨?_, ?_, ?_⟩
  · rw [hreceived, hcut]
    exact h.stream
  · rw [hcut]
    exact h.lines
  · rw [hcut, hanswered]
    exact h.answered

structure Good (c : Connection) (p : Peer) (q : List Bytes) : Prop where
  stream : p.received = unlines newline p.cut ++ c.input
  lines : ∀ line ∈ p.cut, newline ∉ line ∧ line.length ≤ 4096
  paid : Paid c p q

namespace Good

variable {c : Connection} {p : Peer} {q q' : List Bytes}

theorem perm (h : Good c p q) (hq : q'.Perm q) : Good c p q' := by
  refine ⟨h.stream, h.lines, ?_⟩
  have hpaid := h.paid
  unfold Paid at hpaid ⊢
  cases hc : c.state with
  | processing =>
      simp only [hc] at hpaid ⊢
      obtain ⟨r, rfl, hr⟩ := hpaid
      exact ⟨r, List.perm_singleton.mp hq, hr⟩
  | reading | writing | closed =>
      simp only [hc] at hpaid ⊢
      obtain ⟨rfl, hrest⟩ := hpaid
      exact ⟨List.perm_nil.mp hq, hrest⟩

theorem sound (h : Good c p q) : Sound c p := by
  refine ⟨h.stream, h.lines, ?_⟩
  have hpaid := h.paid
  unfold Paid at hpaid
  cases hc : c.state with
  | reading =>
      simp only [hc] at hpaid
      rw [hpaid.2]
  | processing =>
      simp only [hc] at hpaid
      obtain ⟨r, -, hr⟩ := hpaid
      exact ⟨r, hr⟩
  | writing =>
      simp only [hc] at hpaid
      exact ⟨_, hpaid.2.2⟩
  | closed =>
      simp only [hc] at hpaid
      exact hpaid.2

/-- Only a `processing` connection has anything with the pool. -/
theorem eq_nil (h : Good c p q) (hc : c.state ≠ .processing) : q = [] := by
  have hpaid := h.paid
  unfold Paid at hpaid
  cases hs : c.state with
  | processing => exact absurd hs hc
  | reading | writing | closed =>
      simp only [hs] at hpaid
      exact hpaid.1

theorem of_reading (h : Good c p q) (hc : c.state = .reading) : p.answered = answers p.cut := by
  have hpaid := h.paid
  simp only [Paid, hc] at hpaid
  exact hpaid.2

theorem of_processing (h : Good c p q) (hc : c.state = .processing) :
    ∃ r, q = [r] ∧ p.answered ++ r = answers p.cut := by
  have hpaid := h.paid
  simp only [Paid, hc] at hpaid
  exact hpaid

theorem of_writing (h : Good c p q) (hc : c.state = .writing) :
    p.answered ++ c.output.drop c.sent = answers p.cut := by
  have hpaid := h.paid
  simp only [Paid, hc] at hpaid
  exact hpaid.2.2

theorem close (h : Good c p q) (hc : c.state ≠ .processing) :
    Good { c with state := .closed } p q :=
  ⟨h.stream, h.lines, h.eq_nil hc, h.sound.answered⟩

theorem eof (h : Good c p q) : Good { c with peerEof := true } p q := ⟨h.stream, h.lines, h.paid⟩

theorem peer (h : Good c p q) {p' : Peer} (hreceived : p'.received = p.received)
    (hcut : p'.cut = p.cut) (hanswered : p'.answered = p.answered) : Good c p' q := by
  refine ⟨?_, ?_, ?_⟩
  · rw [hreceived, hcut]
    exact h.stream
  · rw [hcut]
    exact h.lines
  · have hpaid := h.paid
    unfold Paid at hpaid ⊢
    rwa [hcut, hanswered]

theorem got (h : Good c p q) (bytes inbox : Bytes) :
    Good { c with input := c.input ++ bytes }
      { p with inbox := inbox, received := p.received ++ bytes } q := by
  refine ⟨?_, h.lines, h.paid⟩
  change p.received ++ bytes = unlines newline p.cut ++ (c.input ++ bytes)
  rw [h.stream, List.append_assoc]

theorem wrote (h : Good c p q) (hc : c.state = .writing) {n : Nat}
    (hn : c.sent + n ≤ c.output.length) :
    Good { c with sent := c.sent + n }
      { p with answered := p.answered ++ (c.output.drop c.sent).take n } q := by
  refine ⟨h.stream, h.lines, ?_⟩
  simp only [Paid, hc]
  refine ⟨h.eq_nil (by simp [hc]), hn, ?_⟩
  rw [List.append_assoc, ← List.drop_drop, List.take_append_drop]
  exact h.of_writing hc

/-- All of the output is sent. -/
theorem sent (h : Good c p q) (hc : c.state = .writing) (hsent : c.sent = c.output.length) :
    Good { c with output := [], sent := 0, state := .reading } p q := by
  refine ⟨h.stream, h.lines, h.eq_nil (by simp [hc]), ?_⟩
  have hans := h.of_writing hc
  rwa [hsent, List.drop_length, List.append_nil] at hans

theorem dispatch (h : Good c p q) (hc : c.state = .reading) {line rest : Bytes}
    (hinput : c.input = line ++ newline :: rest) (hline : newline ∉ line)
    (hlen : line.length ≤ 4096) :
    Good { c with input := rest, state := .processing } { p with cut := p.cut ++ [line] }
      [answer line] := by
  refine ⟨?_, ?_, answer line, rfl, ?_⟩
  · change p.received = unlines newline (p.cut ++ [line]) ++ rest
    rw [h.stream, hinput, unlines_concat]
    simp
  · intro l hl
    rcases List.mem_append.mp hl with hl | hl
    · exact h.lines l hl
    · rw [List.mem_singleton.mp hl]
      exact ⟨hline, hlen⟩
  · rw [answers_concat]
    exact congrArg (· ++ answer line) (h.of_reading hc)

/-- An answer that is with the pool is the only one. -/
theorem of_cons {r : Bytes} (h : Good c p (r :: q)) : c.state = .processing ∧ q = [] := by
  have hc : c.state = .processing := by
    by_contra hc
    exact absurd (h.eq_nil hc) (List.cons_ne_nil r q)
  obtain ⟨r', hr', -⟩ := h.of_processing hc
  exact ⟨hc, (List.cons.inj hr').2⟩

theorem deliver {r : Bytes} (h : Good c p (r :: q)) :
    Good { c with output := r, sent := 0, state := .writing } p q := by
  obtain ⟨hc, rfl⟩ := h.of_cons
  obtain ⟨r', hr', hans⟩ := h.of_processing hc
  cases hr'
  exact ⟨h.stream, h.lines, rfl, Nat.zero_le _, hans⟩

end Good

/-- A connection that was never accepted. -/
theorem good_fresh (fd : Nat) (bytes : Bytes) :
    Good { fd := fd } { toCome := bytes } [] := by
  refine ⟨rfl, ?_, rfl, rfl⟩
  intro line hline
  cases hline

/-! ## What is with the pool -/

namespace Server

/-- What the pool will have to hand back, or has. -/
def inPool (s : Server) : List Completion :=
  (s.jobs ++ s.held).map (fun job => ⟨job.connection, response job.line⟩) ++ s.done

/-- The answers to requests of a connection that are with the pool. -/
def pending (s : Server) (id : Nat) : List Bytes :=
  (s.inPool.filter (·.connection = id)).map (·.response)

variable {s s' : Server} {id : Nat}

theorem pending_perm (h : s'.inPool.Perm s.inPool) (j : Nat) :
    (s'.pending j).Perm (s.pending j) :=
  (h.filter _).map _

theorem inPool_submit (line : Bytes) :
    (s.submit id line).inPool.Perm (⟨id, answer line⟩ :: s.inPool) := by
  simp only [inPool, submit, response_popCr, List.map_append, List.append_assoc, List.map_cons,
    List.cons_append, List.nil_append]
  exact List.perm_middle

theorem pending_submit_self (line : Bytes) :
    ((s.submit id line).pending id).Perm (answer line :: s.pending id) := by
  have hpool : (s.submit id line).inPool.Perm (⟨id, answer line⟩ :: s.inPool) := inPool_submit line
  have hperm := (hpool.filter (·.connection = id)).map (·.response)
  simpa only [pending, List.filter_cons, decide_true, if_true, List.map_cons] using hperm

theorem pending_submit_of_ne (line : Bytes) {j : Nat} (hj : j ≠ id) :
    (s.submit id line).pending j = s.pending j := by
  simp [pending, inPool, submit, hj.symm]

theorem pending_cutLine (line rest : Bytes) :
    ((s.cutLine id line rest).pending id).Perm (answer line :: s.pending id) :=
  pending_submit_self line

theorem pending_done_self (r : Completion) (rest : List Completion) :
    (r.response :: { s with done := rest }.pending r.connection).Perm
      ({ s with done := r :: rest }.pending r.connection) := by
  have hpool : (r :: { s with done := rest }.inPool).Perm { s with done := r :: rest }.inPool :=
    List.perm_middle.symm
  have hperm := (hpool.filter (·.connection = r.connection)).map (·.response)
  simpa only [pending, List.filter_cons, decide_true, if_true, List.map_cons] using hperm

theorem pending_done_of_ne (r : Completion) (rest : List Completion) {j : Nat}
    (hj : j ≠ r.connection) :
    { s with done := r :: rest }.pending j = { s with done := rest }.pending j := by
  simp [pending, inPool, hj.symm]

/-! ## What a change leaves at the connection -/

@[simp] theorem setConnection_self (c : Connection) :
    (s.setConnection id c).connections id = c :=
  Function.update_self ..

@[simp] theorem setPeer_self (p : Peer) : (s.setPeer id p).peers id = p :=
  Function.update_self ..

@[simp] theorem cutLine_connection (line rest : Bytes) :
    (s.cutLine id line rest).connections id =
      { s.connections id with input := rest, state := .processing } :=
  Function.update_self ..

@[simp] theorem cutLine_peer (line rest : Bytes) :
    (s.cutLine id line rest).peers id =
      { s.peers id with cut := (s.peers id).cut ++ [line] } :=
  Function.update_self ..

@[simp] theorem setEof_connection :
    (s.setEof id).connections id = { s.connections id with peerEof := true } :=
  setConnection_self _

@[simp] theorem sentAll_connection :
    (s.sentAll id).connections id =
      { s.connections id with output := [], sent := 0, state := .reading } :=
  setConnection_self _

@[simp] theorem closeConnection_connection :
    (s.closeConnection id).connections id = { s.connections id with state := .closed } :=
  Function.update_self ..

@[simp] theorem got_connection (n : Nat) :
    (s.got id n).connections id =
      { s.connections id with input := (s.connections id).input ++ (s.peers id).inbox.take n } :=
  Function.update_self ..

@[simp] theorem got_peer (n : Nat) :
    (s.got id n).peers id = { s.peers id with
      inbox := (s.peers id).inbox.drop n
      received := (s.peers id).received ++ (s.peers id).inbox.take n } :=
  Function.update_self ..

@[simp] theorem wrote_connection (n : Nat) :
    (s.wrote id n).connections id =
      { s.connections id with sent := (s.connections id).sent + n } :=
  Function.update_self ..

@[simp] theorem wrote_peer (n : Nat) :
    (s.wrote id n).peers id = { s.peers id with
      answered := (s.peers id).answered ++
        ((s.connections id).output.drop (s.connections id).sent).take n } :=
  Function.update_self ..

@[simp] theorem accepted_connection (fd : Nat) (bytes : Bytes) :
    (s.accepted fd bytes).connections s.next = { fd := fd } :=
  Function.update_self ..

@[simp] theorem accepted_peer (fd : Nat) (bytes : Bytes) :
    (s.accepted fd bytes).peers s.next = { toCome := bytes } :=
  Function.update_self ..

theorem accepted_clients (fd : Nat) (bytes : Bytes) :
    (s.accepted fd bytes).clients = Function.update s.clients fd (some s.next) :=
  rfl

/-! ## Every way out of `dispatch_line` -/

inductive Dispatched (s : Server) (id : Nat) : Server × Bool → Prop where
  | elsewhere (hstate : (s.connections id).state ≠ .reading) : Dispatched s id (s, true)
  | unfinished (hstate : (s.connections id).state = .reading)
      (hinput : newline ∉ (s.connections id).input) : Dispatched s id (s, true)
  | tooLong (hstate : (s.connections id).state = .reading) (line rest : Bytes)
      (hinput : (s.connections id).input = line ++ rest) (hline : newline ∉ line)
      (hlen : 4096 < line.length) :
      Dispatched s id (s.setConnection id { s.connections id with state := .closed }, false)
  | job (hstate : (s.connections id).state = .reading) (line rest : Bytes)
      (hinput : (s.connections id).input = line ++ newline :: rest) (hline : newline ∉ line)
      (hlen : line.length ≤ 4096) :
      Dispatched s id (s.cutLine id line rest, true)

theorem dispatched (s : Server) (id : Nat) : Dispatched s id (s.dispatchLine id) := by
  unfold dispatchLine
  by_cases hstate : (s.connections id).state = .reading
  · simp only [hstate, ne_eq, not_true_eq_false, if_false]
    cases hfind : (s.connections id).input.findIdx? (· = newline) with
    | none =>
        have hinput := not_mem_of_findIdx hfind
        dsimp only
        split
        case isTrue hlen =>
          exact .tooLong hstate (s.connections id).input [] (List.append_nil _).symm hinput hlen
        case isFalse => exact .unfinished hstate hinput
    | some stop =>
        obtain ⟨hinput, hline, hlen⟩ := cut_of_findIdx hfind
        dsimp only
        split
        case isTrue hstop =>
          exact .tooLong hstate _ _ hinput hline (hstop.trans_eq hlen.symm)
        case isFalse hstop =>
          exact .job hstate _ _ hinput hline (hlen.trans_le (Nat.le_of_not_lt hstop))
  · rw [if_pos hstate]
    exact .elsewhere hstate

/-! ## Changes to one connection -/

/-- From `s` to `s'` only the connection `id` has changed, and not the tables. -/
structure Only (id : Nat) (s s' : Server) : Prop where
  connections : ∀ j ≠ id, s'.connections j = s.connections j
  peers : ∀ j ≠ id, s'.peers j = s.peers j
  pending : ∀ j ≠ id, s'.pending j = s.pending j
  fd : (s'.connections id).fd = (s.connections id).fd
  clients : s'.clients = s.clients
  next : s'.next = s.next
  registered : s'.registered = s.registered
  events : s'.events = s.events
  closings : s'.closings = s.closings
  drained : s'.drained = s.drained

theorem Only.refl (id : Nat) (s : Server) : Only id s s :=
  ⟨fun _ _ => rfl, fun _ _ => rfl, fun _ _ => rfl, rfl, rfl, rfl, rfl, rfl, rfl, rfl⟩

theorem Only.trans {s₁ s₂ s₃ : Server} (h : Only id s₁ s₂) (h' : Only id s₂ s₃) :
    Only id s₁ s₃ where
  connections j hj := (h'.connections j hj).trans (h.connections j hj)
  peers j hj := (h'.peers j hj).trans (h.peers j hj)
  pending j hj := (h'.pending j hj).trans (h.pending j hj)
  fd := h'.fd.trans h.fd
  clients := h'.clients.trans h.clients
  next := h'.next.trans h.next
  registered := h'.registered.trans h.registered
  events := h'.events.trans h.events
  closings := h'.closings.trans h.closings
  drained := h'.drained.trans h.drained

theorem only_setConnection {c : Connection} (hfd : c.fd = (s.connections id).fd) :
    Only id s (s.setConnection id c) where
  connections _ hj := Function.update_of_ne hj ..
  peers _ _ := rfl
  pending _ _ := rfl
  fd := by rw [setConnection_self, hfd]
  clients := rfl
  next := rfl
  registered := rfl
  events := rfl
  closings := rfl
  drained := rfl

theorem only_setPeer {p : Peer} : Only id s (s.setPeer id p) where
  connections _ _ := rfl
  peers _ hj := Function.update_of_ne hj ..
  pending _ _ := rfl
  fd := rfl
  clients := rfl
  next := rfl
  registered := rfl
  events := rfl
  closings := rfl
  drained := rfl

theorem only_submit {line : Bytes} : Only id s (s.submit id line) where
  connections _ _ := rfl
  peers _ hj := Function.update_of_ne hj ..
  pending _ hj := pending_submit_of_ne line hj
  fd := rfl
  clients := rfl
  next := rfl
  registered := rfl
  events := rfl
  closings := rfl
  drained := rfl

theorem only_cutLine {line rest : Bytes} : Only id s (s.cutLine id line rest) := by
  have hset : Only id s (s.setConnection id
      { s.connections id with input := rest, state := .processing }) :=
    only_setConnection rfl
  exact hset.trans only_submit

theorem only_dispatchLine : Only id s (s.dispatchLine id).1 := by
  have h := dispatched s id
  generalize s.dispatchLine id = r at h
  cases h with
  | elsewhere hstate => exact Only.refl id s
  | unfinished hstate hinput => exact Only.refl id s
  | tooLong hstate line rest hinput hline hlen => exact only_setConnection rfl
  | job hstate line rest hinput hline hlen => exact only_cutLine

/-- From `s` to `s'` something has happened outside the event loop. -/
structure Outside (s s' : Server) : Prop where
  connections : s'.connections = s.connections
  clients : s'.clients = s.clients
  next : s'.next = s.next
  registered : s'.registered = s.registered
  events : s'.events = s.events
  closings : s'.closings = s.closings
  drained : s'.drained = s.drained
  received : ∀ j, (s'.peers j).received = (s.peers j).received
  cut : ∀ j, (s'.peers j).cut = (s.peers j).cut
  answered : ∀ j, (s'.peers j).answered = (s.peers j).answered
  pending : ∀ j, (s'.pending j).Perm (s.pending j)

theorem outside_setPeer {p : Peer} (hreceived : p.received = (s.peers id).received)
    (hcut : p.cut = (s.peers id).cut) (hanswered : p.answered = (s.peers id).answered) :
    Outside s (s.setPeer id p) := by
  have hpeers (j : Nat) (hj : j ≠ id) : (s.setPeer id p).peers j = s.peers j :=
    Function.update_of_ne hj ..
  refine ⟨rfl, rfl, rfl, rfl, rfl, rfl, rfl, ?_, ?_, ?_, fun _ => List.Perm.refl _⟩
  all_goals
    intro j
    by_cases hj : j = id
    · subst hj
      rwa [setPeer_self]
    · rw [hpeers j hj]

/-- A worker takes a job, which stays with the pool. -/
theorem outside_take {job : Job} {jobs : List Job} (hjobs : s.jobs = job :: jobs) :
    Outside s { s with jobs := jobs, held := s.held ++ [job] } := by
  refine ⟨rfl, rfl, rfl, rfl, rfl, rfl, rfl, fun _ => rfl, fun _ => rfl, fun _ => rfl, ?_⟩
  apply pending_perm
  have hperm : (jobs ++ (s.held ++ [job])).Perm (s.jobs ++ s.held) := by
    rw [hjobs, ← List.append_assoc]
    exact List.perm_append_singleton job (jobs ++ s.held)
  exact (hperm.map _).append_right _

/-- A worker hands back an answer, which stays with the pool. -/
theorem outside_finish {i : Nat} {job : Job} (hjob : s.held[i]? = some job) :
    Outside s { s with
      held := s.held.eraseIdx i
      done := s.done ++ [⟨job.connection, response job.line⟩] } := by
  refine ⟨rfl, rfl, rfl, rfl, rfl, rfl, rfl, fun _ => rfl, fun _ => rfl, fun _ => rfl, ?_⟩
  apply pending_perm
  obtain ⟨hi, rfl⟩ := List.getElem?_eq_some_iff.mp hjob
  have hheld : (s.held[i] :: s.held.eraseIdx i).Perm s.held := List.getElem_cons_eraseIdx_perm hi
  have hperm : (s.held[i] :: (s.jobs ++ s.held.eraseIdx i)).Perm (s.jobs ++ s.held) :=
    List.perm_middle.symm.trans (hheld.append_left s.jobs)
  have hpool := (hperm.map fun job : Job => (⟨job.connection, response job.line⟩ : Completion))
  refine List.Perm.trans ?_ (hpool.append_right s.done)
  change (List.map _ (s.jobs ++ s.held.eraseIdx i) ++ (s.done ++ [_])).Perm _
  rw [← List.append_assoc]
  exact List.perm_append_singleton ..

/-! ## Completions -/

/-- A completion concerns the connection and its registration only. -/
theorem deliver_same (s : Server) (r : Completion) :
    (s.deliver r).done = s.done ∧ (s.deliver r).pc = s.pc ∧ (s.deliver r).events = s.events := by
  unfold deliver
  dsimp only
  split <;> exact ⟨rfl, rfl, rfl⟩

theorem drain_same (s : Server) : s.drain.pc = s.pc ∧ s.drain.events = s.events := by
  have key (results : List Completion) (s : Server) :
      (results.foldl deliver s).pc = s.pc ∧ (results.foldl deliver s).events = s.events := by
    induction results generalizing s with
    | nil => exact ⟨rfl, rfl⟩
    | cons r results ih =>
        obtain ⟨-, hpc, hevents⟩ := deliver_same s r
        exact ⟨(ih _).1.trans hpc, (ih _).2.trans hevents⟩
  exact key s.done { s with done := [] }

theorem deliver_eq {r : Completion}
    (hclient : s.clients (s.connections r.connection).fd = some r.connection)
    (hstate : (s.connections r.connection).state = .processing) :
    s.deliver r =
      let c := { s.connections r.connection with
        output := r.response, sent := 0, state := .writing }
      { s with
        connections := Function.update s.connections r.connection c
        registered := Function.update s.registered c.fd (some (interest c))
        drained := s.drained ++ [(true, .processing)] } := by
  simp [deliver, hclient, hstate, setConnection, epollMod]

/-! ## The tables -/

/-- An event still to be handled: the state it was reported in has not changed. -/
def Awaited (s : Server) (busy : Option Nat) (e : Event) : Prop :=
  ∀ fd, e.target = .client fd → ∃ id, s.clients fd = some id ∧ busy ≠ some id ∧
    (e.flags.epollin = true → (s.connections id).state = .reading) ∧
    (e.flags.epollout = true → (s.connections id).state = .writing)

structure Core (s : Server) (busy : Option Nat) : Prop where
  good : ∀ id, Good (s.connections id) (s.peers id) (s.pending id)
  fresh : ∀ id, s.next ≤ id → (s.connections id).state = .closed
  owner : ∀ fd id, s.clients fd = some id → (s.connections id).fd = fd ∧ id < s.next
  listed : ∀ id, (s.connections id).state ≠ .closed ∨ busy = some id →
    s.clients (s.connections id).fd = some id
  settled : ∀ fd id, s.clients fd = some id → busy ≠ some id →
    (s.connections id).state ≠ .closed ∧ s.registered fd = some (interest (s.connections id))
  unlisted : ∀ fd, s.clients fd = none → s.registered fd = none
  awaited : ∀ e ∈ s.events, s.Awaited busy e
  once : (s.events.map (·.target)).Nodup
  closings : ∀ x ∈ s.closings, x.2 ≠ .processing
  drained : ∀ x ∈ s.drained, x = (true, .processing)

namespace Core

variable {busy : Option Nat} {fd : Nat}

/-- The loop may do to the connection it is at whatever keeps it in order. -/
theorem only (h : Core s (some id)) (ho : Only id s s')
    (hgood : Good (s'.connections id) (s'.peers id) (s'.pending id)) : Core s' (some id) where
  good := by
    intro j
    by_cases hj : j = id
    · exact hj ▸ hgood
    · rw [ho.connections j hj, ho.peers j hj, ho.pending j hj]
      exact h.good j
  fresh := by
    intro j hj
    rw [ho.next] at hj
    have hne : j ≠ id := by
      rintro rfl
      exact absurd (h.owner _ j (h.listed j (.inr rfl))).2 (Nat.not_lt.mpr hj)
    rw [ho.connections j hne]
    exact h.fresh j hj
  owner := by
    intro fd j hj
    rw [ho.clients] at hj
    rw [ho.next]
    by_cases hne : j = id
    · subst hne
      rw [ho.fd]
      exact h.owner fd j hj
    · rw [ho.connections j hne]
      exact h.owner fd j hj
  listed := by
    intro j hj
    rw [ho.clients]
    by_cases hne : j = id
    · subst hne
      rw [ho.fd]
      exact h.listed j (.inr rfl)
    · rw [ho.connections j hne] at hj ⊢
      exact h.listed j hj
  settled := by
    intro fd j hj hne
    rw [ho.clients] at hj
    have hid : j ≠ id := fun hid => hne (congrArg some hid.symm)
    rw [ho.connections j hid, ho.registered]
    exact h.settled fd j hj hne
  unlisted := by
    intro fd hfd
    rw [ho.clients] at hfd
    rw [ho.registered]
    exact h.unlisted fd hfd
  awaited := by
    intro e he fd hfd
    rw [ho.events] at he
    obtain ⟨j, hj, hne, hin, hout⟩ := h.awaited e he fd hfd
    have hid : j ≠ id := fun hid => hne (congrArg some hid.symm)
    refine ⟨j, ho.clients ▸ hj, hne, ?_⟩
    rw [ho.connections j hid]
    exact ⟨hin, hout⟩
  once := ho.events ▸ h.once
  closings := ho.closings ▸ h.closings
  drained := ho.drained ▸ h.drained

/-- What the workers and the network do is not seen by the event loop. -/
theorem outside (h : Core s busy) (ho : Outside s s') : Core s' busy where
  good := by
    intro j
    rw [ho.connections]
    exact ((h.good j).peer (ho.received j) (ho.cut j) (ho.answered j)).perm (ho.pending j)
  fresh := by
    rw [ho.connections, ho.next]
    exact h.fresh
  owner := by
    rw [ho.connections, ho.next, ho.clients]
    exact h.owner
  listed := by
    rw [ho.connections, ho.clients]
    exact h.listed
  settled := by
    rw [ho.connections, ho.clients, ho.registered]
    exact h.settled
  unlisted := by
    rw [ho.clients, ho.registered]
    exact h.unlisted
  awaited := by
    intro e he
    unfold Awaited
    rw [ho.connections, ho.clients]
    exact h.awaited e (ho.events ▸ he)
  once := ho.events ▸ h.once
  closings := ho.closings ▸ h.closings
  drained := ho.drained ▸ h.drained

theorem setPc (h : Core s busy) (pc : Pc) : Core { s with pc := pc } busy :=
  ⟨h.good, h.fresh, h.owner, h.listed, h.settled, h.unlisted, h.awaited, h.once, h.closings,
    h.drained⟩

/-- The loop has registered what it wants to know of a connection. -/
theorem keep (h : Core s (some id)) (hstate : (s.connections id).state ≠ .closed) :
    Core (s.epollMod (s.connections id).fd (interest (s.connections id))) none where
  good := h.good
  fresh := h.fresh
  owner := h.owner
  listed := by
    intro j hj
    exact h.listed j (.inl (hj.resolve_right (Option.some_ne_none j).symm))
  settled := by
    intro fd j hj _
    by_cases hid : j = id
    · subst hid
      refine ⟨hstate, ?_⟩
      rw [← (h.owner fd j hj).1]
      exact Function.update_self ..
    · have hne : some id ≠ some j := fun he => hid (Option.some.inj he).symm
      refine ⟨(h.settled fd j hj hne).1, ?_⟩
      have hfd : fd ≠ (s.connections id).fd := by
        rintro rfl
        have hid' := h.listed id (.inr rfl)
        exact hne (hid'.symm.trans hj)
      exact (Function.update_of_ne hfd ..).trans (h.settled fd j hj hne).2
  unlisted := by
    intro fd hfd
    have hne : fd ≠ (s.connections id).fd := by
      rintro rfl
      exact Option.some_ne_none id ((h.listed id (.inr rfl)).symm.trans hfd)
    exact (Function.update_of_ne hne ..).trans (h.unlisted fd hfd)
  awaited := by
    intro e he fd hfd
    obtain ⟨j, hj, -, hrest⟩ := h.awaited e he fd hfd
    exact ⟨j, hj, (Option.some_ne_none j).symm, hrest⟩
  once := h.once
  closings := h.closings
  drained := h.drained

theorem close (h : Core s (some id)) (hstate : (s.connections id).state ≠ .processing) :
    Core (s.closeConnection id) none := by
  have hclient : s.clients (s.connections id).fd = some id := h.listed id (.inr rfl)
  have hclients : (s.closeConnection id).clients =
      Function.update s.clients (s.connections id).fd none := if_pos hclient
  have hoff (j : Nat) (hj : j ≠ id) : (s.closeConnection id).connections j = s.connections j :=
    Function.update_of_ne hj ..
  -- a listed connection is another one, with another descriptor
  have hother {fd j : Nat} (hj : (s.closeConnection id).clients fd = some j) :
      s.clients fd = some j ∧ j ≠ id ∧ fd ≠ (s.connections id).fd := by
    rw [hclients] at hj
    by_cases hfd : fd = (s.connections id).fd
    · subst hfd
      rw [Function.update_self] at hj
      exact absurd hj.symm (Option.some_ne_none j)
    · rw [Function.update_of_ne hfd] at hj
      refine ⟨hj, ?_, hfd⟩
      rintro rfl
      exact hfd (h.owner fd j hj).1.symm
  have hbusy {j : Nat} (hj : j ≠ id) : some id ≠ some j := fun he => hj (Option.some.inj he).symm
  constructor
  case good =>
    intro j
    by_cases hj : j = id
    · subst hj
      rw [closeConnection_connection]
      exact (h.good j).close hstate
    · rw [hoff j hj]
      exact h.good j
  case fresh =>
    intro j hj
    by_cases hid : j = id
    · rw [hid, closeConnection_connection]
    · rw [hoff j hid]
      exact h.fresh j hj
  case owner =>
    intro fd j hj
    obtain ⟨hj, hid, -⟩ := hother hj
    rw [hoff j hid]
    exact h.owner fd j hj
  case listed =>
    intro j hj
    replace hj := hj.resolve_right (Option.some_ne_none j).symm
    by_cases hid : j = id
    · rw [hid, closeConnection_connection] at hj
      exact absurd rfl hj
    · rw [hoff j hid] at hj ⊢
      have hfd : (s.connections j).fd ≠ (s.connections id).fd := by
        intro hfd
        have hlisted := h.listed j (.inl hj)
        rw [hfd, hclient] at hlisted
        exact hbusy hid hlisted
      rw [hclients, Function.update_of_ne hfd]
      exact h.listed j (.inl hj)
  case settled =>
    intro fd j hj _
    obtain ⟨hj, hid, hfd⟩ := hother hj
    rw [hoff j hid]
    refine ⟨(h.settled fd j hj (hbusy hid)).1, ?_⟩
    exact (Function.update_of_ne hfd ..).trans (h.settled fd j hj (hbusy hid)).2
  case unlisted =>
    intro fd hfd
    rw [hclients] at hfd
    by_cases hne : fd = (s.connections id).fd
    · rw [hne]
      exact Function.update_self ..
    · rw [Function.update_of_ne hne] at hfd
      exact (Function.update_of_ne hne ..).trans (h.unlisted fd hfd)
  case awaited =>
    intro e he fd hfd
    obtain ⟨j, hj, hne, hrest⟩ := h.awaited e he fd hfd
    have hid : j ≠ id := fun hid => hne (congrArg some hid.symm)
    have hfd' : fd ≠ (s.connections id).fd := by
      rintro rfl
      exact hne (hclient.symm.trans hj)
    refine ⟨j, ?_, (Option.some_ne_none j).symm, ?_⟩
    · rw [hclients, Function.update_of_ne hfd']
      exact hj
    · rw [hoff j hid]
      exact hrest
  case once => exact h.once
  case closings =>
    intro x hx
    rcases List.mem_append.mp hx with hx | hx
    · exact h.closings x hx
    · rw [List.mem_singleton.mp hx]
      exact hstate
  case drained => exact h.drained

/-- `epoll` reports of a connection what it was registered for. -/
theorem wait (h : Core s none) {events : List Event}
    (honce : (events.map (·.target)).Nodup) (hreports : ∀ e ∈ events, s.reports e = true) :
    Core { s with events := events } none := by
  refine ⟨h.good, h.fresh, h.owner, h.listed, h.settled, h.unlisted, ?_, honce, h.closings,
    h.drained⟩
  intro e he fd hfd
  have hreport := hreports e he
  simp only [reports, hfd] at hreport
  cases hclient : s.clients fd with
  | none => simp [h.unlisted fd hclient] at hreport
  | some id =>
      rw [(h.settled fd id hclient (Option.some_ne_none id).symm).2] at hreport
      simp only [Flags.within, interest, Bool.and_eq_true, Bool.or_eq_true, Bool.not_eq_true',
        decide_eq_true_eq] at hreport
      obtain ⟨⟨hin, hout⟩, -⟩ := hreport
      refine ⟨id, rfl, (Option.some_ne_none id).symm, ?_, ?_⟩
      · intro he
        exact (hin.resolve_left (by simp [he])).1
      · intro he
        exact hout.resolve_left (by simp [he])

/-- The loop turns to the next event. -/
theorem tail (h : Core s none) {e : Event} {rest : List Event} (hevents : s.events = e :: rest) :
    Core { s with events := rest } none := by
  have hawaited := h.awaited
  have honce := h.once
  rw [hevents] at hawaited honce
  exact ⟨h.good, h.fresh, h.owner, h.listed, h.settled, h.unlisted,
    fun e' he' => hawaited e' (List.mem_cons_of_mem e he'), (List.nodup_cons.mp honce).2,
    h.closings, h.drained⟩

/-- The next event is of a socket, and the loop is at its connection. -/
theorem turn (h : Core s none) {e : Event} {rest : List Event} (hevents : s.events = e :: rest)
    (htarget : e.target = .client fd) (hclient : s.clients fd = some id) :
    Core { s with events := rest } (some id) := by
  have htail := h.tail hevents
  refine ⟨h.good, h.fresh, h.owner, ?_, ?_, h.unlisted, ?_, htail.once, h.closings, h.drained⟩
  · intro j hj
    rcases hj with hj | hj
    · exact h.listed j (.inl hj)
    · cases hj
      have howner := (h.owner fd id hclient).1
      rw [howner]
      exact hclient
  · intro fd' j hj _
    exact h.settled fd' j hj (Option.some_ne_none j).symm
  · intro e' he' fd' hfd'
    obtain ⟨j, hj, -, hrest⟩ := htail.awaited e' he' fd' hfd'
    refine ⟨j, hj, ?_, hrest⟩
    intro hid
    cases hid
    -- two events of one batch are of different sockets
    have honce := h.once
    rw [hevents, List.map_cons, List.nodup_cons] at honce
    apply honce.1
    have hsame : fd' = fd := (h.owner fd' id hj).1.symm.trans (h.owner fd id hclient).1
    rw [htarget, ← hsame, ← hfd']
    exact List.mem_map_of_mem he'

theorem accepted (h : Core s none) (hfd : s.clients fd = none) (bytes : Bytes) :
    Core (s.accepted fd bytes) none := by
  have hoff (j : Nat) (hj : j ≠ s.next) :
      (s.accepted fd bytes).connections j = s.connections j :=
    Function.update_of_ne hj ..
  have hnone := (h.good s.next).eq_nil (by rw [h.fresh s.next le_rfl]; decide)
  -- whoever else is listed was listed before, with another descriptor
  have hcases {fd' j : Nat} (hj : (s.accepted fd bytes).clients fd' = some j) :
      fd' = fd ∧ j = s.next ∨ fd' ≠ fd ∧ j ≠ s.next ∧ s.clients fd' = some j := by
    rw [accepted_clients] at hj
    by_cases hne : fd' = fd
    · subst hne
      rw [Function.update_self] at hj
      exact .inl ⟨rfl, (Option.some.inj hj).symm⟩
    · rw [Function.update_of_ne hne] at hj
      exact .inr ⟨hne, (h.owner fd' j hj).2.ne, hj⟩
  have hlisted {fd' j : Nat} (hj : s.clients fd' = some j) :
      (s.accepted fd bytes).clients fd' = some j := by
    have hne : fd' ≠ fd := by
      rintro rfl
      exact Option.some_ne_none j (hj.symm.trans hfd)
    exact (Function.update_of_ne hne ..).trans hj
  constructor
  case good =>
    intro j
    by_cases hj : j = s.next
    · subst hj
      have hpending : (s.accepted fd bytes).pending s.next = [] := hnone
      rw [accepted_connection, accepted_peer, hpending]
      exact good_fresh fd bytes
    · have hpeer : (s.accepted fd bytes).peers j = s.peers j := Function.update_of_ne hj ..
      rw [hoff j hj, hpeer]
      exact h.good j
  case fresh =>
    intro j hj
    have hj' : s.next < j := hj
    rw [hoff j hj'.ne']
    exact h.fresh j hj'.le
  case owner =>
    intro fd' j hj
    rcases hcases hj with ⟨rfl, rfl⟩ | ⟨-, hne, hj⟩
    · rw [accepted_connection]
      exact ⟨rfl, Nat.lt_succ_self _⟩
    · rw [hoff j hne]
      exact ⟨(h.owner fd' j hj).1, Nat.lt_succ_of_lt (h.owner fd' j hj).2⟩
  case listed =>
    intro j hj
    replace hj := hj.resolve_right (Option.some_ne_none j).symm
    by_cases hne : j = s.next
    · subst hne
      rw [accepted_connection]
      exact Function.update_self ..
    · rw [hoff j hne] at hj ⊢
      exact hlisted (h.listed j (.inl hj))
  case settled =>
    intro fd' j hj _
    rcases hcases hj with ⟨rfl, rfl⟩ | ⟨hfd', hne, hj⟩
    · rw [accepted_connection]
      exact ⟨by simp, Function.update_self ..⟩
    · rw [hoff j hne]
      have hsettled := h.settled fd' j hj (Option.some_ne_none j).symm
      exact ⟨hsettled.1, (Function.update_of_ne hfd' ..).trans hsettled.2⟩
  case unlisted =>
    intro fd' hfd'
    have hne : fd' ≠ fd := by
      rintro rfl
      exact absurd ((Function.update_self ..).symm.trans hfd') (Option.some_ne_none s.next)
    have hold : s.clients fd' = none := (Function.update_of_ne hne ..).symm.trans hfd'
    exact (Function.update_of_ne hne ..).trans (h.unlisted fd' hold)
  case awaited =>
    intro e he fd' hfd'
    obtain ⟨j, hj, hbusy, hrest⟩ := h.awaited e he fd' hfd'
    refine ⟨j, hlisted hj, hbusy, ?_⟩
    rw [hoff j (h.owner fd' j hj).2.ne]
    exact hrest
  case once => exact h.once
  case closings => exact h.closings
  case drained => exact h.drained

/-- A completion finds its connection waiting for it. -/
theorem deliver {r : Completion} {rest : List Completion}
    (h : Core { s with done := r :: rest } none) :
    Core { s.deliver r with done := rest } none := by
  have hgood : Good (s.connections r.connection) (s.peers r.connection)
      (r.response :: { s with done := rest }.pending r.connection) :=
    (h.good r.connection).perm (pending_done_self r rest)
  have hstate := hgood.of_cons.1
  have hopen : (s.connections r.connection).state ≠ .closed := by simp [hstate]
  have hclient : s.clients (s.connections r.connection).fd = some r.connection :=
    h.listed r.connection (.inl hopen)
  rw [deliver_eq hclient hstate]
  generalize hid : r.connection = id at hgood hstate hclient ⊢
  generalize hc : (⟨(s.connections id).fd, .writing, (s.connections id).input, r.response, 0,
    (s.connections id).peerEof⟩ : Connection) = c
  have hfd : c.fd = (s.connections id).fd := hc ▸ rfl
  have hwriting : c.state = .writing := hc ▸ rfl
  have hnone (j : Nat) : (none : Option Nat) ≠ some j := (Option.some_ne_none j).symm
  have hoff (j : Nat) (hj : j ≠ id) : Function.update s.connections id c j = s.connections j :=
    Function.update_of_ne hj ..
  have hself : Function.update s.connections id c id = c := Function.update_self ..
  -- which connections are listed under which descriptor has not changed
  have hfds (j : Nat) : (Function.update s.connections id c j).fd = (s.connections j).fd := by
    by_cases hj : j = id
    · rw [hj, hself, hfd]
    · rw [hoff j hj]
  constructor
  case good =>
    intro j
    by_cases hj : j = id
    · subst hj
      change Good (Function.update s.connections j c j) (s.peers j)
        ({ s with done := rest }.pending j)
      rw [hself, ← hc]
      exact hgood.deliver
    · change Good (Function.update s.connections id c j) (s.peers j)
        ({ s with done := rest }.pending j)
      rw [hoff j hj, ← pending_done_of_ne r rest (hid ▸ hj)]
      exact h.good j
  case fresh =>
    intro j hj
    have hne : j ≠ id := by
      rintro rfl
      exact absurd (h.fresh j hj) (by simp [hstate])
    exact (congrArg Connection.state (hoff j hne)).trans (h.fresh j hj)
  case owner =>
    intro fd j hj
    exact ⟨(hfds j).trans (h.owner fd j hj).1, (h.owner fd j hj).2⟩
  case listed =>
    intro j hj
    replace hj := hj.resolve_right (hnone j)
    change s.clients (Function.update s.connections id c j).fd = some j
    rw [hfds j]
    by_cases hne : j = id
    · exact hne ▸ hclient
    · replace hj : (Function.update s.connections id c j).state ≠ .closed := hj
      rw [hoff j hne] at hj
      exact h.listed j (.inl hj)
  case settled =>
    intro fd j hj _
    change (Function.update s.connections id c j).state ≠ .closed ∧
      Function.update s.registered c.fd (some (interest c)) fd =
        some (interest (Function.update s.connections id c j))
    rw [hfd]
    have howner : (s.connections j).fd = fd := (h.owner fd j hj).1
    by_cases hne : j = id
    · subst hne
      rw [hself, ← howner, Function.update_self]
      exact ⟨by simp [hwriting], rfl⟩
    · have hfd' : fd ≠ (s.connections id).fd := by
        rintro rfl
        exact hne (Option.some.inj (hj.symm.trans hclient))
      rw [hoff j hne, Function.update_of_ne hfd']
      exact h.settled fd j hj (hnone j)
  case unlisted =>
    intro fd hfd'
    have hne : fd ≠ c.fd := by
      rintro rfl
      rw [hfd] at hfd'
      exact Option.some_ne_none id (hclient.symm.trans hfd')
    exact (Function.update_of_ne hne ..).trans (h.unlisted fd hfd')
  case awaited =>
    intro e he fd hfd'
    obtain ⟨j, hj, -, hin, hout⟩ := h.awaited e he fd hfd'
    refine ⟨j, hj, hnone j, ?_⟩
    change (_ → (Function.update s.connections id c j).state = .reading) ∧
      (_ → (Function.update s.connections id c j).state = .writing)
    by_cases hne : j = id
    · -- nothing is reported of a connection that waits for a worker
      subst hne
      refine ⟨fun he' => ?_, fun he' => ?_⟩
      · exact absurd ((hin he').symm.trans hstate) (by decide)
      · exact absurd ((hout he').symm.trans hstate) (by decide)
    · rw [hoff j hne]
      exact ⟨hin, hout⟩
  case once => exact h.once
  case closings => exact h.closings
  case drained =>
    intro x hx
    rcases List.mem_append.mp hx with hx | hx
    · exact h.drained x hx
    · exact List.mem_singleton.mp hx

theorem drain (h : Core s none) : Core s.drain none := by
  have key (results : List Completion) (s : Server)
      (h : Core { s with done := results ++ s.done } none) :
      Core (results.foldl Server.deliver s) none := by
    induction results generalizing s with
    | nil => exact h
    | cons r results ih =>
        apply ih
        rw [(deliver_same s r).1]
        exact deliver h
  exact key s.done { s with done := [] } (by rwa [List.append_nil])

end Core

end Server

end CKernel.Net.Framework
