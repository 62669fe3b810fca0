/-
# `CKernel.Net.EchoSession` — what a client of the echo server gets back

`check_clients` reads through a copy of the client's buffer and does not store it
back.  What the copy has buffered behind the first line is lost with it.

    what one line echoes and what it drops                         (`readlineb_echoed`)
    all that is read of a client is echoed or dropped, by lines    (`Session.accounted`)
    of a chunk with a line in it the first line is echoed          (`Session.first_lines`)
    so it is in all runs                          (`echo_accounted`, `echo_first_lines`)
-/
import CKernel.Net.EchoPool

namespace CKernel.Net.EchoPool

open Rio (RioT Event rioReadlineb newline rioBufsize feed Behind)

/-! ## What is echoed and what is lost -/

/-- A line that is echoed out of `es`, and what is dropped behind it: the line is the first
one there, up to its newline, or as much of it as fits, or up to the end of the file; and
what is dropped is the end of the last block that was read for it. -/
structure Echoed (es : List Event) (line lost : List UInt8) (es' : List Event) : Prop where
  nonempty : line ≠ []
  short : line.length < maxline
  first : newline ∉ line.dropLast
  whole : line.getLast? = some newline ∨ line.length = maxline - 1 ∨
    (∃ rest, feed es = line.map .val ++ .stop .eof :: rest) ∨ feed es = line.map .val
  read : Feed.vals (feed es) = line ++ lost ++ Feed.vals (feed es')
  behind : lost = [] ∨ Behind es es' lost

/-- `sent` is the lines echoed out of `arrived`, one after the other, down to `es`. -/
inductive Accounted (arrived : List Event) : List Event → List UInt8 → Prop
  | accepted : Accounted arrived arrived []
  | echoed {es es' : List Event} {sent line lost : List UInt8} (h : Accounted arrived es sent)
      (hline : Echoed es line lost es') : Accounted arrived es' (sent ++ line)

section Accounts
variable {arrived es : List Event} {sent : List UInt8} {rp : RioT}

theorem ret_le (t : Feed.Taken UInt8 Rio.Stop) : (Rio.readlinebOut t).ret ≤ t.vals.length := by
  have hpos : (0 : Int) ≤ t.vals.length := Int.natCast_nonneg _
  rw [Rio.readlinebOut]
  split
  · exact neg_one_lt_zero.le.trans hpos
  · split
    · exact hpos
    · exact le_refl _
  · exact le_refl _

theorem ret_ne_zero {t : Feed.Taken UInt8 Rio.Stop} (h : t.vals ≠ []) :
    (Rio.readlinebOut t).ret ≠ 0 := by
  have hlen : (t.vals.length : Int) ≠ 0 :=
    Int.natCast_ne_zero.mpr fun hzero => h (List.length_eq_zero_iff.mp hzero)
  rw [Rio.readlinebOut]
  split
  · exact neg_one_lt_zero.ne
  · rw [if_neg h]
    exact hlen
  · exact hlen

/-- One read, by a reader with an empty buffer. -/
theorem readlineb_echoed (hok : rp.Ok) (hcnt : rp.rioCnt = 0)
    (hret : 0 < (rioReadlineb rp es maxline).out.ret) :
    Echoed es ((rioReadlineb rp es maxline).out.usrbuf.take
        (rioReadlineb rp es maxline).out.ret.toNat)
      (rioReadlineb rp es maxline).rp.unread (rioReadlineb rp es maxline).es := by
  have hbehind := Rio.rioReadlineb_behind hcnt.le es maxline
  have hl := Rio.rioReadlineb_leaves hok es maxline
  rw [RioT.avail_of_nonpos hcnt.le] at hl
  generalize rioReadlineb rp es maxline = r at hl hret hbehind ⊢
  obtain ⟨hout, -, -, hrest⟩ := hl
  have hline : r.out.usrbuf.take r.out.ret.toNat = (Rio.takeLine maxline (feed es)).vals := by
    have hmax : maxline < 2 ^ 31 := by decide
    have hcarried := Rio.carried_out (.readlineb () ⟨maxline, hmax⟩)
      (Rio.takeLine maxline (feed es))
    rwa [Rio.Call.out, ← hout, Rio.Call.carried, if_pos hret.le] at hcarried
  have hsplit : Feed.vals (feed es) = (Rio.takeLine maxline (feed es)).vals ++
      Feed.vals (Rio.takeLine maxline (feed es)).rest := Feed.vals_take (maxline - 1) (feed es)
  rw [hline]
  refine ⟨fun hnil => ?_, ?_, fun hmem => ?_, ?_, ?_, hbehind⟩
  · have hle := ret_le (Rio.takeLine maxline (feed es))
    rw [← hout, hnil] at hle
    exact absurd hret (not_lt.mpr hle)
  · exact Nat.lt_of_le_of_lt (Feed.length_take_le (maxline - 1) (feed es)) (Nat.lt_succ_self _)
  · exact absurd (Feed.last_take (maxline - 1) (feed es) newline hmem) (by simp)
  · cases hstop : (Rio.takeLine maxline (feed es)).stopped with
    | none =>
        rcases Feed.take_full hstop with hlen | ⟨a, ha, hlast⟩
        · exact .inr (.inl hlen)
        · exact .inl (beq_iff_eq.mp hlast ▸ ha)
    | some stop =>
        cases stop with
        | eof =>
            rcases Feed.take_stopped hstop with hmet | ⟨-, hend⟩
            · exact .inr (.inr (.inl hmet))
            · exact .inr (.inr (.inr hend))
        | fail errno =>
            rw [Rio.readlinebOut, hstop] at hout
            rw [hout] at hret
            exact absurd hret (by decide : ¬ (0 : Int) < -1)
  · rw [hsplit, ← hrest, RioT.avail, Feed.vals_block, List.append_assoc]

theorem Session.accounted (h : Session arrived es sent) : Accounted arrived es sent := by
  induction h with
  | accepted => exact .accepted
  | echoed _ hok hcnt hret ih => exact ih.echoed (readlineb_echoed hok hcnt hret)

/-- A client is removed when nothing but the end of the file is left. -/
theorem ended_of_zero (hok : rp.Ok) (hcnt : rp.rioCnt = 0)
    (hret : (rioReadlineb rp es maxline).out.ret = 0) :
    feed es = [] ∨ ∃ f, feed es = .stop .eof :: f := by
  have hl := (Rio.rioReadlineb_leaves hok es maxline).out_eq
  rw [RioT.avail_of_nonpos hcnt.le] at hl
  rw [hl] at hret
  have hvals : (Rio.takeLine maxline (feed es)).vals = [] :=
    by_contra fun hne => ret_ne_zero hne hret
  have hmax : maxline - 1 = 8190 + 1 := rfl
  rw [Rio.takeLine, hmax] at hvals hret
  cases hf : feed es with
  | nil => exact .inl rfl
  | cons item f =>
      rw [hf] at hvals hret
      cases item with
      | stop e =>
          cases e with
          | eof => exact .inr ⟨f, rfl⟩
          | fail errno => cases hret
      | val b =>
          rw [Feed.take] at hvals
          split at hvals <;> cases hvals

end Accounts

/-- In every state the program reaches: what each client has got back are the lines that
were read of what it has sent, one after the other, each of them dropping what was
buffered behind it; who is removed has been read to the end. -/
theorem echo_accounted {listenfd : Int} (h : 0 < listenfd) {rounds : List Round} {s : Server}
    (hrounds : Run.Along (round listenfd) (Lawful listenfd) (start listenfd) rounds)
    (hrun : Run.run (round listenfd) (start listenfd) rounds = some s) :
    (∀ i, 0 < s.pool.clientfd i →
        Accounted (s.conn (s.pool.clientfd i)).arrived (s.conn (s.pool.clientfd i)).es
          (s.conn (s.pool.clientfd i)).out.sent) ∧
      ∀ c ∈ s.closed, ∃ es, Accounted c.arrived es c.out.sent ∧
        (feed es = [] ∨ ∃ f, feed es = .stop .eof :: f) := by
  have hinv := run_inv h hrounds hrun
  refine ⟨fun i hi => (hinv.live i hi).accounted, fun c hc => ?_⟩
  obtain ⟨es, rp, hsession, hok, hcnt, hret, -⟩ := hinv.ended c hc
  exact ⟨es, hsession.accounted, ended_of_zero hok hcnt hret⟩

/-- A first client, that has been served a line. -/
theorem echo_accounted_firstClient :
    ∃ s, Run.run (round 3) (start 3) [firstClient [.data 97 [newline, 98]], clientReady] = some s ∧
      (s.conn 4).out.sent = [97, newline] ∧
        Accounted [.data 97 [newline, 98]] (s.conn 4).es (s.conn 4).out.sent := by
  obtain ⟨hlawful, s, hrun, hfd, hconn⟩ := @run_clientReady [97] [98] 97 [newline, 98] rfl
    (by decide) (by decide) (by decide)
  have hi : 0 < s.pool.clientfd 0 := hfd ▸ by decide
  have hacc := (echo_accounted (by decide) hlawful hrun).1 0 hi
  rw [hfd] at hacc
  refine ⟨s, hrun, by rw [hconn]; rfl, ?_⟩
  rwa [show (s.conn 4).arrived = [.data 97 [newline, 98]] by rw [hconn]] at hacc

/-! ## Chunks -/

/-- A chunk with a line in it, which one `read` brings. -/
structure Chunk where
  line : List UInt8
  more : List UInt8
  newline_notMem : newline ∉ line
  short : line.length + 1 < maxline
  fits : (line ++ newline :: more).length ≤ rioBufsize

namespace Chunk

def bytes (c : Chunk) : List UInt8 := c.line ++ newline :: c.more

def first (c : Chunk) : List UInt8 := c.line ++ [newline]

def event (c : Chunk) : Event :=
  match c.line with
  | [] => .data newline c.more
  | b :: bs => .data b (bs ++ newline :: c.more)

theorem event_eq (c : Chunk) :
    ∃ b bs, c.event = .data b bs ∧ b :: bs = c.line ++ newline :: c.more := by
  rw [event]
  split
  case h_1 hnil => exact ⟨_, _, rfl, by rw [hnil]; rfl⟩
  case h_2 b bs hcons => exact ⟨_, _, rfl, by rw [hcons]; rfl⟩

theorem length_first_le (c : Chunk) : c.first.length ≤ c.bytes.length := by
  rw [first, bytes, List.length_append, List.length_append]
  exact Nat.add_le_add_left (Nat.succ_le_succ (Nat.zero_le _)) _

theorem bytes_of_more_nil {c : Chunk} (h : c.more = []) : c.bytes = c.first := by
  rw [bytes, h, first]

theorem more_nil_of_length {c : Chunk} (h : c.bytes.length ≤ c.first.length) : c.more = [] := by
  rw [first, bytes, List.length_append, List.length_append, List.length_cons,
    List.length_singleton] at h
  exact List.length_eq_zero_iff.mp (by omega)

theorem length_flatMap_first_le (cs : List Chunk) :
    (cs.flatMap first).length ≤ (cs.flatMap bytes).length := by
  induction cs with
  | nil => exact Nat.le_refl _
  | cons c cs ih =>
      rw [List.flatMap_cons, List.flatMap_cons, List.length_append, List.length_append]
      exact Nat.add_le_add c.length_first_le ih

/-- The first lines are everything just when nothing stands behind them. -/
theorem flatMap_first_eq_iff {cs : List Chunk} :
    cs.flatMap first = cs.flatMap bytes ↔ ∀ c ∈ cs, c.more = [] := by
  constructor
  · intro heq
    have hlen := congrArg List.length heq
    clear heq
    induction cs with
    | nil => exact nofun
    | cons c cs ih =>
        rw [List.flatMap_cons, List.flatMap_cons, List.length_append, List.length_append] at hlen
        have hle := length_flatMap_first_le cs
        have hle' := c.length_first_le
        intro d hd
        obtain rfl | hd := List.mem_cons.mp hd
        · exact more_nil_of_length (by omega)
        · exact ih (by omega) d hd
  · intro hall
    exact List.flatMap_congr fun c hc => (bytes_of_more_nil (hall c hc)).symm

end Chunk

/-- Of each chunk read, its first line is echoed. -/
theorem Session.first_lines {chunks : List Chunk} {arrived es : List Event} {sent : List UInt8}
    (h : Session arrived es sent) (harrived : arrived = chunks.map Chunk.event) :
    ∃ k ≤ chunks.length, es = (chunks.drop k).map Chunk.event ∧
      sent = (chunks.take k).flatMap Chunk.first := by
  induction h with
  | accepted => exact ⟨0, Nat.zero_le _, harrived, rfl⟩
  | @echoed es sent rp _ hok hcnt hret ih =>
      obtain ⟨k, hk, hes, hsent⟩ := ih
      subst hes
      cases hdrop : chunks.drop k with
      | nil =>
          rw [hdrop] at hret
          have hl := (Rio.rioReadlineb_leaves hok [] maxline).out_eq
          rw [RioT.avail_of_nonpos hcnt.le] at hl
          rw [List.map_nil, hl] at hret
          exact absurd hret (lt_irrefl 0)
      | cons c rest =>
          have hlt : k < chunks.length := by
            rw [← Nat.sub_pos_iff_lt, ← List.length_drop, hdrop]
            exact Nat.succ_pos _
          have hget : chunks[k]? = some c := by
            rw [← List.head?_drop, hdrop, List.head?_cons]
          have hnext : chunks.drop (k + 1) = rest := by
            rw [← List.drop_drop, hdrop, List.drop_one, List.tail_cons]
          obtain ⟨b, bs, hevent, hbytes⟩ := c.event_eq
          have hsize : (b :: bs).length ≤ rioBufsize := hbytes ▸ c.fits
          obtain ⟨rp', hread, -⟩ :=
            @Rio.readlineb_chunk rp (rest.map Chunk.event) c.line c.more maxline
            bs b hok hcnt hbytes hsize c.newline_notMem c.short
          refine ⟨k + 1, hlt, ?_, ?_⟩
          · rw [List.map_cons, hevent, hread, hnext]
          · have htake : (c.line ++ [newline] ++ [0]).take (c.line.length + 1) = c.first := by
              rw [Chunk.first, List.take_left' (by rw [List.length_append, List.length_singleton])]
            rw [List.map_cons, hevent, hread, hsent, List.take_add_one, hget, List.flatMap_append]
            refine congrArg _ ?_
            rw [Int.toNat_natCast, htake]
            exact (List.append_nil _).symm

/-- Chunks with a line in each: a client gets back the first lines of those that have
been read, and so all it has sent just when nothing stood behind a line. -/
theorem echo_first_lines {listenfd : Int} (h : 0 < listenfd) {rounds : List Round} {s : Server}
    (hrounds : Run.Along (round listenfd) (Lawful listenfd) (start listenfd) rounds)
    (hrun : Run.run (round listenfd) (start listenfd) rounds = some s) {i : Nat}
    (hi : 0 < s.pool.clientfd i) {chunks : List Chunk}
    (harrived : (s.conn (s.pool.clientfd i)).arrived = chunks.map Chunk.event) :
    ∃ k ≤ chunks.length,
      (s.conn (s.pool.clientfd i)).es = (chunks.drop k).map Chunk.event ∧
        (s.conn (s.pool.clientfd i)).out.sent = (chunks.take k).flatMap Chunk.first ∧
          ((s.conn (s.pool.clientfd i)).out.sent = (chunks.take k).flatMap Chunk.bytes ↔
            ∀ c ∈ chunks.take k, c.more = []) := by
  obtain ⟨k, hk, hes, hsent⟩ := ((run_inv h hrounds hrun).live i hi).first_lines harrived
  refine ⟨k, hk, hes, hsent, ?_⟩
  rw [hsent]
  exact Chunk.flatMap_first_eq_iff

/-- Two lines in one chunk. -/
def twoLines : Chunk where
  line := [97]
  more := [98, newline]
  newline_notMem := by decide
  short := by decide
  fits := by decide

/-- The first is echoed, and the second one is dropped. -/
theorem echo_first_lines_twoLines :
    ∃ s, Run.run (round 3) (start 3) [firstClient [twoLines.event], clientReady] = some s ∧
      (s.conn 4).es = [] ∧ (s.conn 4).out.sent = [97, newline] ∧
        ((s.conn 4).out.sent = twoLines.bytes ↔ twoLines.more = []) := by
  obtain ⟨hlawful, s, hrun, hfd, hconn⟩ := @run_clientReady [97] [98, newline] 97
    [newline, 98, newline] rfl (by decide) (by decide) (by decide)
  have hi : 0 < s.pool.clientfd 0 := hfd ▸ by decide
  obtain ⟨k, hk, hes, -, hiff⟩ := @echo_first_lines 3 (by decide) _ _ hlawful hrun 0 hi
    [twoLines] (by rw [hfd, hconn]; rfl)
  rw [hfd, hconn] at hes
  obtain rfl : k = 1 := by
    rcases Nat.le_one_iff_eq_zero_or_eq_one.mp hk with rfl | rfl
    · cases hes
    · rfl
  rw [hfd] at hiff
  refine ⟨s, hrun, by rw [hconn], by rw [hconn]; rfl, ?_⟩
  simpa using hiff

end CKernel.Net.EchoPool
