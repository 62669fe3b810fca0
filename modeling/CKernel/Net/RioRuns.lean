/-
# `CKernel.Net.RioRuns` — runs of Rio calls

Any number of readers on descriptors of their own, with calls in any order, and
writes to a peer whose reads cut what is sent at other places.

The calls ask for sizes that `ssize_t` holds, and `rio_readlineb` for lines that its
`int` counts.

    the calls answer as reads of the feeds, whatever the cuts     (`readers_answer_as_feeds`)
    no byte is lost, read twice or out of place                   (`readers_conserve`)
    what a write sends, and when it reports all                   (`rioWriten_eq`)
    messages that were sent are read back                         (`messages_read_back`)
-/
import CKernel.Lib.Machine
import CKernel.Net.Rio

namespace CKernel.Net.Rio

open Feed (Item Taken)

/-! ## Readers -/

section Readers
variable {ι : Type}

/-- Readers, and the events of each descriptor. -/
structure Readers (ι : Type) where
  rio : ι → RioT
  fds : Int → List Event

/-- The sizes are those that the returned `ssize_t` holds, and for a line those that
`int n` counts up to. -/
inductive Call (ι : Type) where
  | readn (fd : Int) (n : Fin (2 ^ 63))
  | readnb (i : ι) (n : Fin (2 ^ 63))
  | readlineb (i : ι) (maxlen : Fin (2 ^ 31))

/-- Where a call reads: a reader, or a descriptor without one. -/
inductive Source (ι : Type) where
  | reader (i : ι)
  | fd (fd : Int)
  deriving DecidableEq

namespace Readers

/-- What is to be read by a reader. -/
def avail (s : Readers ι) (i : ι) : List (Item UInt8 Stop) :=
  (s.rio i).avail (s.fds (s.rio i).rioFd)

/-- Each reader has a descriptor of its own. -/
structure Apart (s : Readers ι) : Prop where
  ok : ∀ i, (s.rio i).Ok
  inj : Function.Injective fun i => (s.rio i).rioFd

/-- A call on a descriptor without a reader has been made. -/
def putFd (s : Readers ι) (fd : Int) (es : List Event) : Readers ι :=
  { s with fds := Function.update s.fds fd es }

variable {s : Readers ι} {fd fd' : Int} {es : List Event}

@[simp] theorem putFd_rio : (s.putFd fd es).rio = s.rio := rfl

@[simp] theorem putFd_self : (s.putFd fd es).fds fd = es := Function.update_self ..

theorem putFd_of_ne (h : fd' ≠ fd) : (s.putFd fd es).fds fd' = s.fds fd' :=
  Function.update_of_ne h ..

end Readers

def Readers.feeds (s : Readers ι) : Source ι → List (Item UInt8 Stop)
  | .reader i => s.avail i
  | .fd fd => feed (s.fds fd)

/-- The feeds that calls may read: those of the readers, and of descriptors that no
reader has. -/
def Readers.Free (s : Readers ι) : Source ι → Prop
  | .reader _ => True
  | .fd fd => ∀ i, (s.rio i).rioFd ≠ fd

/-- The readers stand for the feeds. -/
structure Stands (free : Source ι → Prop) (s : Readers ι)
    (fs : Source ι → List (Item UInt8 Stop)) : Prop where
  apart : s.Apart
  free_of : ∀ src, free src → s.Free src
  eq : ∀ src, free src → s.feeds src = fs src

theorem Readers.Apart.stands {s : Readers ι} (h : s.Apart) : Stands s.Free s s.feeds where
  apart := h
  free_of _ hsrc := hsrc
  eq _ _ := rfl

variable [DecidableEq ι]

namespace Readers

/-- A call on reader `i` has been made. -/
def put (s : Readers ι) (i : ι) (r : Done) : Readers ι :=
  ⟨Function.update s.rio i r.rp, Function.update s.fds (s.rio i).rioFd r.es⟩

def step (s : Readers ι) : Call ι → Out × Readers ι
  | .readn fd n =>
      let r := rioReadn (s.fds fd) n
      (r.1, s.putFd fd r.2)
  | .readnb i n =>
      let r := rioReadnb (s.rio i) (s.fds (s.rio i).rioFd) n
      (r.out, s.put i r)
  | .readlineb i maxlen =>
      let r := rioReadlineb (s.rio i) (s.fds (s.rio i).rioFd) maxlen
      (r.out, s.put i r)

end Readers

def Call.source : Call ι → Source ι
  | .readn fd _ => .fd fd
  | .readnb i _ => .reader i
  | .readlineb i _ => .reader i

/-- What a call takes of its feed. -/
def Call.taken (f : List (Item UInt8 Stop)) : Call ι → Taken UInt8 Stop
  | .readn _ n => takeN n f
  | .readnb _ n => takeN n f
  | .readlineb _ maxlen => takeLine maxlen f

def Call.out (t : Taken UInt8 Stop) : Call ι → Out
  | .readn _ _ => readnOut t
  | .readnb _ _ => readnOut t
  | .readlineb _ _ => readlinebOut t

/-- The feeds without cuts, buffers and signals. -/
abbrev Feeds (ι : Type) := Source ι → List (Item UInt8 Stop)

/-- A call reads of the feed of its source. -/
def Feeds.step (fs : Feeds ι) (c : Call ι) : Out × Feeds ι :=
  let t := c.taken (fs c.source)
  (c.out t, Function.update fs c.source t.rest)

namespace Readers
variable {s : Readers ι} {i j : ι} {r : Done} {out : Out} {rest : List (Item UInt8 Stop)}

@[simp] theorem put_rio_self : (s.put i r).rio i = r.rp := Function.update_self ..

@[simp] theorem put_fds_self : (s.put i r).fds (s.rio i).rioFd = r.es := Function.update_self ..

theorem put_rio_of_ne (h : j ≠ i) : (s.put i r).rio j = s.rio j := Function.update_of_ne h ..

theorem put_fds_of_ne {fd : Int} (h : fd ≠ (s.rio i).rioFd) : (s.put i r).fds fd = s.fds fd :=
  Function.update_of_ne h ..

theorem put_fd (hl : Leaves (s.rio i) r out rest) (j : ι) :
    ((s.put i r).rio j).rioFd = (s.rio j).rioFd := by
  by_cases hj : j = i
  · subst hj
    rw [put_rio_self, hl.same_fd]
  · rw [put_rio_of_ne hj]

theorem Apart.put (h : s.Apart) (hl : Leaves (s.rio i) r out rest) : (s.put i r).Apart where
  ok j := by
    by_cases hj : j = i
    · subst hj
      rw [put_rio_self]
      exact hl.ok
    · rw [put_rio_of_ne hj]
      exact h.ok j
  inj := by
    intro j k hjk
    simp only [put_fd hl] at hjk
    exact h.inj hjk

theorem avail_put (h : s.Apart) (hl : Leaves (s.rio i) r out rest) :
    (s.put i r).avail = Function.update s.avail i rest := by
  funext j
  by_cases hj : j = i
  · subst hj
    rw [Function.update_self, avail, put_fd hl, put_rio_self, put_fds_self]
    exact hl.avail_eq
  · have hfd : (s.rio j).rioFd ≠ (s.rio i).rioFd := fun heq => hj (h.inj heq)
    rw [Function.update_of_ne hj, avail, put_fd hl, put_rio_of_ne hj, put_fds_of_ne hfd]
    rfl

end Readers

variable {free : Source ι → Prop} {s : Readers ι} {fs : Feeds ι}

theorem Stands.put (h : Stands free s fs) {i : ι} {r : Done} {out : Out}
    {rest : List (Item UInt8 Stop)} (hl : Leaves (s.rio i) r out rest) :
    Stands free (s.put i r) (Function.update fs (.reader i) rest) where
  apart := h.apart.put hl
  free_of src hsrc := by
    cases src with
    | reader j => trivial
    | fd fd =>
        intro j
        rw [Readers.put_fd hl]
        exact h.free_of _ hsrc j
  eq src hsrc := by
    cases src with
    | reader j =>
        rw [Readers.feeds, Readers.avail_put h.apart hl]
        by_cases hj : j = i
        · subst hj
          rw [Function.update_self, Function.update_self]
        · rw [Function.update_of_ne hj, Function.update_of_ne fun heq => hj (Source.reader.inj heq)]
          exact h.eq _ hsrc
    | fd fd =>
        have hne : fd ≠ (s.rio i).rioFd := (h.free_of _ hsrc i).symm
        have hsrc' : Source.fd fd ≠ Source.reader i := nofun
        rw [Function.update_of_ne hsrc', Readers.feeds, Readers.put_fds_of_ne hne]
        exact h.eq _ hsrc

theorem Stands.putFd (h : Stands free s fs) {fd : Int} (hfd : free (.fd fd)) {es : List Event}
    {rest : List (Item UInt8 Stop)} (hes : feed es = rest) :
    Stands free (s.putFd fd es) (Function.update fs (.fd fd) rest) where
  apart := ⟨h.apart.ok, h.apart.inj⟩
  free_of src hsrc := by
    cases src with
    | reader j => trivial
    | fd fd' => exact h.free_of _ hsrc
  eq src hsrc := by
    cases src with
    | reader j =>
        have hne : Source.reader j ≠ Source.fd fd := nofun
        rw [Function.update_of_ne hne, Readers.feeds, Readers.avail, Readers.putFd_rio,
          Readers.putFd_of_ne (h.free_of _ hfd j)]
        exact h.eq _ hsrc
    | fd fd' =>
        rw [Readers.feeds]
        by_cases heq : fd' = fd
        · subst heq
          rw [Readers.putFd_self, Function.update_self]
          exact hes
        · rw [Readers.putFd_of_ne heq, Function.update_of_ne fun h => heq (Source.fd.inj h)]
          exact h.eq _ hsrc

/-- One call, on readers that stand for feeds. -/
theorem step_stands (h : Stands free s fs) (c : Call ι) (hc : free c.source) :
    (s.step c).1 = (fs.step c).1 ∧ Stands free (s.step c).2 (fs.step c).2 := by
  cases c with
  | readn fd n =>
      obtain ⟨hout, hrest⟩ := rioReadn_eq (s.fds fd) n
      have heq : feed (s.fds fd) = fs (.fd fd) := h.eq _ hc
      rw [heq] at hout hrest
      exact ⟨hout, h.putFd hc hrest⟩
  | readnb i n =>
      have hl := rioReadnb_leaves (h.apart.ok i) (s.fds (s.rio i).rioFd) n
      have heq : s.avail i = fs (.reader i) := h.eq _ hc
      rw [Readers.avail] at heq
      rw [heq] at hl
      exact ⟨hl.out_eq, h.put hl⟩
  | readlineb i maxlen =>
      have hl := rioReadlineb_leaves (h.apart.ok i) (s.fds (s.rio i).rioFd) maxlen
      have heq : s.avail i = fs (.reader i) := h.eq _ hc
      rw [Readers.avail] at heq
      rw [heq] at hl
      exact ⟨hl.out_eq, h.put hl⟩

theorem run_stands (calls : List (Call ι)) (h : Stands free s fs)
    (hcalls : ∀ c ∈ calls, free c.source) :
    Machine.answers Readers.step s calls = Machine.answers Feeds.step fs calls ∧
      Stands free (Machine.after Readers.step s calls) (Machine.after Feeds.step fs calls) :=
  Machine.answers_of_simulation (fun _ _ c hstands hc => step_stands hstands c hc) calls h hcalls

/-- Calls in any order answer as reads of the feeds do, and leave what these leave. -/
theorem readers_answer_as_feeds (h : s.Apart) (calls : List (Call ι))
    (hcalls : ∀ c ∈ calls, s.Free c.source) :
    Machine.answers Readers.step s calls = Machine.answers Feeds.step s.feeds calls ∧
      ∀ src, s.Free src →
        (Machine.after Readers.step s calls).feeds src =
          Machine.after Feeds.step s.feeds calls src := by
  obtain ⟨hans, hend⟩ := run_stands calls h.stands hcalls
  exact ⟨hans, hend.eq⟩

/-- Two readers, one of a line in two pieces with a signal between them. -/
def twoReaders : Readers Bool where
  rio b := ⟨if b then 3 else 4, 0, 0, List.replicate rioBufsize 0⟩
  fds fd := if fd = 3 then [.data 97 [], .fail eintr, .data newline [98]] else [.eof]

theorem apart_twoReaders : twoReaders.Apart where
  ok _ := ⟨List.length_replicate, Nat.zero_le _⟩
  inj a b h := by
    cases a <;> cases b
    · rfl
    · exact absurd h (by decide)
    · exact absurd h (by decide)
    · rfl

def twoReads : List (Call Bool) := [.readlineb true 8, .readnb false 2]

theorem free_twoReads : ∀ c ∈ twoReads, twoReaders.Free c.source :=
  List.forall_mem_cons.mpr ⟨trivial, List.forall_mem_singleton.mpr trivial⟩

theorem readers_answer_as_feeds_twoReaders :
    Machine.answers Readers.step twoReaders twoReads = [⟨2, [97, newline, 0]⟩, ⟨0, []⟩] :=
  (readers_answer_as_feeds apart_twoReaders twoReads free_twoReads).1.trans rfl

/-! ## Nothing is lost -/

/-- The bytes of the feed that a call has put into the user's buffer. -/
def Call.carried (o : Out) : Call ι → List UInt8
  | .readn _ _ => o.usrbuf
  | .readnb _ _ => o.usrbuf
  | .readlineb _ _ => if 0 ≤ o.ret then o.usrbuf.take o.ret.toNat else o.usrbuf

/-- What the calls on one source have put into their buffers, in the order of the calls. -/
def carriedFrom (src : Source ι) : List (Call ι) → List Out → List UInt8
  | c :: calls, o :: outs =>
      (if c.source = src then c.carried o else []) ++ carriedFrom src calls outs
  | _, _ => []

omit [DecidableEq ι] in
theorem carried_out (c : Call ι) (t : Taken UInt8 Stop) : c.carried (c.out t) = t.vals := by
  have hline : (t.vals ++ [0]).take ((t.vals.length : Nat) : Int).toNat = t.vals := by
    rw [Int.toNat_natCast, List.take_left]
  cases c with
  | readn fd n =>
      rw [Call.carried, Call.out, readnOut]
      split <;> rfl
  | readnb i n =>
      rw [Call.carried, Call.out, readnOut]
      split <;> rfl
  | readlineb i maxlen =>
      rw [Call.carried, Call.out, readlinebOut]
      split
      · exact if_neg (Int.negSucc_not_nonneg 0).mp
      · split
        case isTrue hnil => exact hnil.symm
        case isFalse _ => exact (if_pos (Int.natCast_nonneg _)).trans hline
      · exact (if_pos (Int.natCast_nonneg _)).trans hline

omit [DecidableEq ι] in
theorem vals_taken (c : Call ι) (f : List (Item UInt8 Stop)) :
    Feed.vals f = (c.taken f).vals ++ Feed.vals (c.taken f).rest := by
  cases c with
  | readn fd n => exact Feed.vals_take n f
  | readnb i n => exact Feed.vals_take n f
  | readlineb i maxlen => exact Feed.vals_take (maxlen - 1) f

theorem feeds_conserve (calls : List (Call ι)) (fs : Feeds ι) (src : Source ι) :
    Feed.vals (fs src) = carriedFrom src calls (Machine.answers Feeds.step fs calls) ++
      Feed.vals (Machine.after Feeds.step fs calls src) := by
  induction calls generalizing fs with
  | nil => rfl
  | cons c calls ih =>
      rw [Machine.answers_cons, Machine.after_cons, carriedFrom, List.append_assoc, ← ih]
      rw [Feeds.step]
      simp only [carried_out]
      split
      case isTrue heq =>
        subst heq
        rw [Function.update_self]
        exact vals_taken c _
      case isFalse hne =>
        rw [Function.update_of_ne fun heq => hne heq.symm]
        rfl

/-- Through errors, ends of file and signals: what the calls have put into their
buffers, in order, and what is still to be read are the bytes there were to read. -/
theorem readers_conserve (h : s.Apart) (calls : List (Call ι))
    (hcalls : ∀ c ∈ calls, s.Free c.source) {src : Source ι} (hsrc : s.Free src) :
    Feed.vals (s.feeds src) =
      carriedFrom src calls (Machine.answers Readers.step s calls) ++
        Feed.vals ((Machine.after Readers.step s calls).feeds src) := by
  obtain ⟨hans, hend⟩ := run_stands calls h.stands hcalls
  rw [hans, hend.eq src hsrc]
  exact feeds_conserve calls s.feeds src

theorem readers_conserve_twoReaders :
    [97, newline, 98] =
      carriedFrom (.reader true) twoReads (Machine.answers Readers.step twoReaders twoReads) ++
        Feed.vals ((Machine.after Readers.step twoReaders twoReads).feeds (.reader true)) :=
  @readers_conserve Bool _ twoReaders apart_twoReaders twoReads free_twoReads (.reader true) trivial

end Readers

/-! ## Writes -/

/-- What happens to a `write`. -/
inductive WEvent where
  | accept (k : Nat)
  | fail (errno : Int)
  deriving DecidableEq, Repr

/-- The descriptor as its writer sees it: what will happen to the next writes, after
which all is accepted, `errno`, and the bytes sent. -/
structure Writer where
  es : List WEvent
  errno : Int
  sent : List UInt8
  deriving DecidableEq, Repr

/-- The loop of `rio_writen`, on the bytes from `bufp` on. -/
def rioWritenLoop (n : Nat) : List WEvent → Int → List UInt8 → List UInt8 → Int × Writer
  | es, errno, [], sent => (n, ⟨es, errno, sent⟩)
  | [], errno, b :: bufp, sent => (n, ⟨[], errno, sent ++ b :: bufp⟩)
  | .accept 0 :: es, errno, b :: bufp, sent =>
      if errno = eintr then rioWritenLoop n es errno (b :: bufp) sent
      else (-1, ⟨es, errno, sent⟩)
  | .accept (k + 1) :: es, errno, b :: bufp, sent =>
      rioWritenLoop n es errno (bufp.drop k) (sent ++ b :: bufp.take k)
  | .fail e :: es, _, b :: bufp, sent =>
      if e = eintr then rioWritenLoop n es e (b :: bufp) sent
      else (-1, ⟨es, e, sent⟩)

def rioWriten (w : Writer) (usrbuf : List UInt8) : Int × Writer :=
  rioWritenLoop usrbuf.length w.es w.errno usrbuf w.sent

/-- How many bytes the writes take before one of them fails, if one does.  A write of
nothing fails unless `errno` still is `EINTR`. -/
def room : List WEvent → Int → Option Nat
  | [], _ => none
  | .accept 0 :: es, errno => if errno = eintr then room es errno else some 0
  | .accept (k + 1) :: es, errno => (room es errno).map (k + 1 + ·)
  | .fail e :: es, _ => if e = eintr then room es e else some 0

/-- What a write of `bufp` returns and has sent, with this room. -/
def sentIn (room : Option Nat) (n : Nat) (bufp sent : List UInt8) : Int × List UInt8 :=
  match room with
  | none => (n, sent ++ bufp)
  | some c => if bufp.length ≤ c then (n, sent ++ bufp) else (-1, sent ++ bufp.take c)

section Write
variable {n : Nat} {errno : Int} {es : List WEvent} {bufp sent : List UInt8}

theorem sentIn_nil (r : Option Nat) : sentIn r n [] sent = ((n : Int), sent) := by
  cases r with
  | none => rw [sentIn, List.append_nil]
  | some c => rw [sentIn, List.length_nil, if_pos (Nat.zero_le c), List.append_nil]

theorem sentIn_zero {b : UInt8} : sentIn (some 0) n (b :: bufp) sent = (-1, sent) := by
  have hlen : ¬ (b :: bufp).length ≤ 0 := Nat.not_succ_le_zero _
  rw [sentIn, if_neg hlen, List.take_zero, List.append_nil]

/-- Room for `k + 1` bytes more. -/
theorem sentIn_succ (k : Nat) (r : Option Nat) {b : UInt8} :
    sentIn (r.map (k + 1 + ·)) n (b :: bufp) sent =
      sentIn r n (bufp.drop k) (sent ++ b :: bufp.take k) := by
  have hwhole : sent ++ b :: bufp.take k ++ bufp.drop k = sent ++ b :: bufp := by
    rw [List.append_assoc, List.cons_append, List.take_append_drop]
  cases r with
  | none => exact congrArg (Prod.mk (n : Int)) hwhole.symm
  | some c =>
      have hiff : (b :: bufp).length ≤ k + 1 + c ↔ (bufp.drop k).length ≤ c := by
        rw [List.length_cons, List.length_drop]
        omega
      have htake : sent ++ b :: bufp.take k ++ (bufp.drop k).take c =
          sent ++ (b :: bufp).take (k + 1 + c) := by
        rw [List.append_assoc, List.cons_append, ← List.take_add, Nat.add_right_comm,
          List.take_succ_cons]
      simp only [Option.map_some, sentIn]
      rw [if_congr hiff rfl rfl, hwhole, htake]

theorem writenLoop_eq :
    ((rioWritenLoop n es errno bufp sent).1, (rioWritenLoop n es errno bufp sent).2.sent) =
      sentIn (room es errno) n bufp sent := by
  induction es generalizing errno bufp sent with
  | nil =>
      cases bufp with
      | nil => exact (sentIn_nil none).symm
      | cons b bufp => rfl
  | cons e es ih =>
      cases bufp with
      | nil =>
          rw [sentIn_nil, rioWritenLoop]
      | cons b bufp =>
          cases e with
          | fail e =>
              rw [rioWritenLoop, room]
              split
              · exact ih
              · exact sentIn_zero.symm
          | accept k =>
              cases k with
              | zero =>
                  rw [rioWritenLoop, room]
                  split
                  · exact ih
                  · exact sentIn_zero.symm
              | succ k =>
                  rw [rioWritenLoop, room, sentIn_succ]
                  exact ih

/-- A write reports all bytes when there is room for them, and then has sent them; if
not, it reports an error and has sent those there was room for. -/
theorem rioWriten_eq (w : Writer) (usrbuf : List UInt8) :
    ((rioWriten w usrbuf).1, (rioWriten w usrbuf).2.sent) =
      sentIn (room w.es w.errno) usrbuf.length usrbuf w.sent :=
  writenLoop_eq

end Write

/-! ## Messages -/

/-- `Rio_writen` for each message, which ends the program at the first that is not
sent whole; and how many are. -/
def sendAll : Writer → List (List UInt8) → Nat × Writer
  | w, [] => (0, w)
  | w, m :: ms =>
      let r := rioWriten w m
      if r.1 ≠ m.length then (0, r.2)
      else ((sendAll r.2 ms).1 + 1, (sendAll r.2 ms).2)

/-- `rio_readnb` on a reader and its descriptor. -/
def readStep (s : RioT × List Event) (n : Nat) : Out × RioT × List Event :=
  let r := rioReadnb s.1 s.2 n
  (r.out, r.rp, r.es)

/-- What the reader gets when `j` of the messages and a part of the next have come
before the end. -/
def received (part : List UInt8) : Nat → List (List UInt8) → List Out
  | _, [] => []
  | 0, _ :: ms => ⟨part.length, part⟩ :: ms.map fun _ => ⟨0, []⟩
  | j + 1, m :: ms => ⟨m.length, m⟩ :: received part j ms

/-- The first `j` messages are sent whole, and of the one after them a strict part. -/
inductive SentTo : List (List UInt8) → Nat → List UInt8 → Prop
  | all : SentTo [] 0 []
  | part {m part : List UInt8} {ms : List (List UInt8)} (hpre : part <+: m)
      (hlt : part.length < m.length) : SentTo (m :: ms) 0 part
  | whole {m part : List UInt8} {ms : List (List UInt8)} {j : Nat} (h : SentTo ms j part) :
      SentTo (m :: ms) (j + 1) part

section Messages
variable {ms : List (List UInt8)} {j : Nat} {part : List UInt8}

theorem rioWriten_cases (w : Writer) (m : List UInt8) :
    ((rioWriten w m).1 = m.length ∧ (rioWriten w m).2.sent = w.sent ++ m) ∨
      (rioWriten w m).1 = -1 ∧
        ∃ part, part <+: m ∧ part.length < m.length ∧
          (rioWriten w m).2.sent = w.sent ++ part := by
  have heq := rioWriten_eq w m
  generalize room w.es w.errno = r at heq
  cases r with
  | none =>
      obtain ⟨hret, hsent⟩ := Prod.mk.inj heq
      exact .inl ⟨hret, hsent⟩
  | some c =>
      simp only [sentIn] at heq
      split at heq
      case isTrue hle =>
        obtain ⟨hret, hsent⟩ := Prod.mk.inj heq
        exact .inl ⟨hret, hsent⟩
      case isFalse hgt =>
        obtain ⟨hret, hsent⟩ := Prod.mk.inj heq
        refine .inr ⟨hret, m.take c, List.take_prefix c m, ?_, hsent⟩
        rw [List.length_take, Nat.min_eq_left (Nat.le_of_not_le hgt)]
        exact Nat.lt_of_not_le hgt

theorem sendAll_sent (w : Writer) (ms : List (List UInt8)) :
    ∃ part, SentTo ms (sendAll w ms).1 part ∧
      (sendAll w ms).2.sent = w.sent ++ (ms.take (sendAll w ms).1).flatten ++ part := by
  induction ms generalizing w with
  | nil => exact ⟨[], .all, by rw [sendAll, List.take_nil, List.flatten_nil, List.append_nil,
      List.append_nil]⟩
  | cons m ms ih =>
      rw [sendAll]
      obtain ⟨hret, hsent⟩ | ⟨hret, part, hpre, hlt, hsent⟩ := rioWriten_cases w m
      · obtain ⟨part, hto, hrest⟩ := ih (rioWriten w m).2
        rw [if_neg (not_not.mpr hret)]
        refine ⟨part, .whole hto, hrest.trans ?_⟩
        rw [hsent, List.take_succ_cons, List.flatten_cons, List.append_assoc w.sent m]
      · have hne : (rioWriten w m).1 ≠ m.length := by omega
        rw [if_pos hne]
        refine ⟨part, .part hpre hlt, hsent.trans ?_⟩
        rw [List.take_zero, List.flatten_nil, List.append_nil]

variable {rp : RioT} {es : List Event}

theorem readStep_eq {n : Nat} {t : Taken UInt8 Stop} (hok : rp.Ok)
    (ht : takeN n (rp.avail es) = t) :
    (readStep (rp, es) n).1 = readnOut t ∧ (readStep (rp, es) n).2.1.Ok ∧
      (readStep (rp, es) n).2.1.avail (readStep (rp, es) n).2.2 = t.rest := by
  have hl := rioReadnb_leaves hok es n
  rw [ht] at hl
  exact ⟨hl.out_eq, hl.ok, hl.avail_eq⟩

/-- At the end of the feed every read finds nothing. -/
theorem answers_ended (hok : rp.Ok) (h : rp.avail es = []) (ms : List (List UInt8)) :
    Machine.answers readStep (rp, es) (ms.map List.length) = ms.map fun _ => ⟨0, []⟩ := by
  induction ms generalizing rp es with
  | nil => rfl
  | cons m ms ih =>
      rw [List.map_cons, Machine.answers_cons, List.map_cons]
      rcases Nat.eq_zero_or_pos m.length with hm | hm
      · have ht : takeN m.length (rp.avail es) = ⟨[], none, []⟩ := by
          rw [hm, h]
          rfl
        obtain ⟨hout, hok', hrest⟩ := readStep_eq hok ht
        exact List.cons_eq_cons.mpr ⟨hout, ih hok' hrest⟩
      · have ht : takeN m.length (rp.avail es) = ⟨[], some .eof, []⟩ := by
          rw [h, takeN_past hm]
        obtain ⟨hout, hok', hrest⟩ := readStep_eq hok ht
        exact List.cons_eq_cons.mpr ⟨hout, ih hok' hrest⟩

theorem answers_received (hto : SentTo ms j part) (hok : rp.Ok)
    (h : rp.avail es = ((ms.take j).flatten ++ part).map .val ++ [.stop .eof]) :
    Machine.answers readStep (rp, es) (ms.map List.length) = received part j ms := by
  induction hto generalizing rp es with
  | all => rfl
  | @part m part ms hpre hlt =>
      have ht : takeN m.length (rp.avail es) = ⟨part, some .eof, []⟩ := by
        have hleft : 0 < m.length - part.length := Nat.sub_pos_of_lt hlt
        rw [h, List.take_zero, List.flatten_nil, List.nil_append, takeN_block hlt.le,
          takeN_eof hleft]
        exact congrArg (fun vs => (⟨vs, some .eof, []⟩ : Taken UInt8 Stop)) (List.append_nil part)
      obtain ⟨hout, hok', hrest⟩ := readStep_eq hok ht
      rw [List.map_cons, Machine.answers_cons, received]
      exact List.cons_eq_cons.mpr ⟨hout, answers_ended hok' hrest ms⟩
  | @whole m part ms j hto ih =>
      have ht : takeN m.length (rp.avail es) =
          ⟨m, none, ((ms.take j).flatten ++ part).map .val ++ [.stop .eof]⟩ := by
        rw [h, List.take_succ_cons, List.flatten_cons, List.append_assoc, List.map_append,
          List.append_assoc]
        exact Feed.take_exact rfl
      obtain ⟨hout, hok', hrest⟩ := readStep_eq hok ht
      rw [List.map_cons, Machine.answers_cons, received]
      exact List.cons_eq_cons.mpr ⟨hout, ih hok' hrest⟩

/-- Messages sent in turn, by a program that ends when a write fails, to a reader that
knows their lengths: it reads those that were sent whole, then the part of the next that
was sent, then nothing, wherever the bytes were cut on either side. -/
theorem messages_read_back (script : List WEvent) (errno : Int) (ms : List (List UInt8))
    (hok : rp.Ok) (hempty : rp.unread = [])
    (hes : feed es = (sendAll ⟨script, errno, []⟩ ms).2.sent.map .val ++ [.stop .eof]) :
    ∃ part, SentTo ms (sendAll ⟨script, errno, []⟩ ms).1 part ∧
      (sendAll ⟨script, errno, []⟩ ms).2.sent =
        (ms.take (sendAll ⟨script, errno, []⟩ ms).1).flatten ++ part ∧
      Machine.answers readStep (rp, es) (ms.map List.length) =
        received part (sendAll ⟨script, errno, []⟩ ms).1 ms := by
  obtain ⟨part, hto, hsent⟩ := sendAll_sent ⟨script, errno, []⟩ ms
  rw [List.nil_append] at hsent
  refine ⟨part, hto, hsent, answers_received hto hok ?_⟩
  rw [RioT.avail, hempty, hes, hsent]
  rfl

/-- Of two messages the second is cut short by an error. -/
theorem messages_read_back_two :
    ∃ part, SentTo [[1, 2], [3, 4]] 1 part ∧ ([1, 2, 3] : List UInt8) = [1, 2] ++ part ∧
      Machine.answers readStep
          (⟨3, 0, 0, List.replicate rioBufsize 0⟩, [.data 1 [], .data 2 [3], .eof]) [2, 2] =
        received part 1 [[1, 2], [3, 4]] :=
  messages_read_back [.accept 1, .fail eintr, .accept 5, .accept 1, .fail 32] 0
    [[1, 2], [3, 4]] ⟨List.length_replicate, Nat.zero_le _⟩ rfl rfl

end Messages

end CKernel.Net.Rio
