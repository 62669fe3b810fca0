/-
# `CKernel.Net.EchoPool` — the echo server on `select`

`chapter12/echoservers.c` keeps its clients in a pool.  A round of `main` waits in
`select`, accepts a client if the listening descriptor is ready, and echoes a line
from each client that is ready.

A round of the model comes with what is ready and, for an accepted client, the
descriptor, what will arrive on it and what its writes will do.  A round that ends
the program, or in which the `int` that counts the bytes overflows, is `none`.

    an accepted client always finds a slot                         (`Inv.available`)
    the loop serves each client that is due once, in order         (`checkLoop_serves`)
    a round keeps the pool consistent and serves who is ready      (`round_serves`)
    so it is in all runs                                           (`run_inv`, `pool_runs`)
-/
import CKernel.Lib.Run
import CKernel.Net.RioRuns

namespace CKernel.Net.EchoPool

open Rio (RioT Event WEvent Writer rioReadlineb rioReadinitb rioWriten rioBufsize newline)

/-! ## The code -/

def fdSetsize : Nat := 1024

def maxline : Nat := 8192

structure Pool where
  maxfd : Int
  readSet : Finset Int
  readySet : Finset Int
  nready : Int
  maxi : Int
  clientfd : Nat → Int
  clientrio : Nat → RioT

/-- A connection: all that arrives on it, what of that is still in the kernel, and
what is written to it. -/
structure Conn where
  arrived : List Event
  es : List Event
  out : Writer

/-- The program, its connections by descriptor, those it has closed, and the
descriptors served in this round. -/
structure Server where
  pool : Pool
  byteCnt : Int
  conn : Int → Conn
  closed : List Conn
  served : List Int

/-- `static pool pool`, whose contents are zero at first. -/
def zeroRio : RioT := ⟨0, 0, 0, List.replicate rioBufsize 0⟩

def initPool (listenfd : Int) : Pool where
  maxi := -1
  clientfd _ := -1
  maxfd := listenfd
  readSet := {listenfd}
  readySet := ∅
  nready := 0
  clientrio _ := zeroRio

/-- The first slot that is available. -/
def Pool.available (p : Pool) : Option Nat :=
  (List.range fdSetsize).find? fun i => decide (p.clientfd i < 0)

/-- `none` is `app_error`. -/
def addClient (connfd : Int) (p : Pool) : Option Pool :=
  p.available.map fun (i : Nat) =>
    { p with
      nready := p.nready - 1
      clientfd := Function.update p.clientfd i connfd
      clientrio := Function.update p.clientrio i (rioReadinitb (p.clientrio i) connfd)
      readSet := insert connfd p.readSet
      maxfd := if connfd > p.maxfd then connfd else p.maxfd
      maxi := if i > p.maxi then i else p.maxi }

/-- The client in slot `i` is ready. -/
def Pool.Due (p : Pool) (i : Nat) : Prop := 0 < p.clientfd i ∧ p.clientfd i ∈ p.readySet

instance (p : Pool) (i : Nat) : Decidable (p.Due i) := inferInstanceAs (Decidable (_ ∧ _))

namespace Server

/-- Events of `fd` have been read. -/
def read (s : Server) (fd : Int) (es : List Event) : Server :=
  { s with conn := Function.update s.conn fd { s.conn fd with es := es } }

/-- `n` bytes in `buf` for the client on `connfd`. -/
def echo (s : Server) (connfd n : Int) (buf : List UInt8) : Option Server :=
  if s.byteCnt + n < 2 ^ 31 then
    let w := rioWriten (s.conn connfd).out (buf.take n.toNat)
    if w.1 = n then
      some { s with
        byteCnt := s.byteCnt + n
        conn := Function.update s.conn connfd { s.conn connfd with out := w.2 } }
    else none
  else none

/-- The end of the file from the client in slot `i`. -/
def remove (s : Server) (i : Nat) : Server :=
  let connfd := s.pool.clientfd i
  { s with
    closed := s.closed ++ [s.conn connfd]
    pool := { s.pool with
      readSet := s.pool.readSet.erase connfd
      clientfd := Function.update s.pool.clientfd i (-1) } }

/-- The client in slot `i` counts as served. -/
def count (s : Server) (i : Nat) : Server :=
  { s with
    pool := { s.pool with nready := s.pool.nready - 1 }
    served := s.served ++ [s.pool.clientfd i] }

/-- The body of the loop of `check_clients`.  `rio` is a copy, which is not stored
back. -/
def serve (s : Server) (i : Nat) : Option Server :=
  let connfd := s.pool.clientfd i
  let rio := s.pool.clientrio i
  if s.pool.Due i then
    let r := rioReadlineb rio (s.conn rio.rioFd).es maxline
    let s := (s.count i).read rio.rioFd r.es
    if r.out.ret < 0 then none
    else if r.out.ret ≠ 0 then s.echo connfd r.out.ret r.out.usrbuf
    else some (s.remove i)
  else some s

/-- The loop of `check_clients` over `k` slots from `i` on. -/
def checkLoop : Nat → Nat → Server → Option Server
  | 0, _, s => some s
  | k + 1, i, s =>
      if 0 < s.pool.nready then (s.serve i).bind (checkLoop k (i + 1)) else some s

def checkClients (s : Server) : Option Server := checkLoop (s.pool.maxi + 1).toNat 0 s

end Server

/-- What a round meets: what can be read, and the next client to be accepted. -/
structure Round where
  readable : Finset Int
  connfd : Int
  arrives : List Event
  script : List WEvent
  errno : Int

/-- `select` looks at the descriptors up to `maxfd`. -/
def Pool.select (p : Pool) (readable : Finset Int) : Pool :=
  let ready := (p.readSet.filter fun fd => fd < p.maxfd + 1) ∩ readable
  { p with readySet := ready, nready := ready.card }

/-- A client is accepted. -/
def Server.accept (s : Server) (r : Round) : Option Server :=
  (addClient r.connfd s.pool).map fun p =>
    { s with
      pool := p
      conn := Function.update s.conn r.connfd ⟨r.arrives, r.arrives, ⟨r.script, r.errno, []⟩⟩ }

/-- The body of the loop of `main`. -/
def round (listenfd : Int) (s : Server) (r : Round) : Option Server :=
  let s := { s with pool := s.pool.select r.readable, served := [] }
  let s := if listenfd ∈ s.pool.readySet then s.accept r else some s
  s.bind Server.checkClients

/-- The program when the loop begins. -/
def start (listenfd : Int) : Server where
  pool := initPool listenfd
  byteCnt := 0
  conn _ := ⟨[], [], ⟨[], 0, []⟩⟩
  closed := []
  served := []

/-! ## What holds of the pool -/

/-- The slots, the sets and the marks of the pool belong together. -/
structure Pool.Inv (listenfd : Int) (p : Pool) : Prop where
  listenfd_pos : 0 < listenfd
  slots : ∀ i, p.clientfd i = -1 ∨ 0 < p.clientfd i
  apart : ∀ i j, 0 < p.clientfd i → p.clientfd i = p.clientfd j → i = j
  listen : ∀ i, p.clientfd i ≠ listenfd
  watched : ∀ fd, fd ∈ p.readSet ↔ fd = listenfd ∨ 0 < fd ∧ ∃ i, p.clientfd i = fd
  high : ∀ i : Nat, 0 < p.clientfd i → i ≤ p.maxi
  maxi_lt : p.maxi < fdSetsize
  maxfd : ∀ fd ∈ p.readSet, fd ≤ p.maxfd
  fits : ∀ i, p.clientfd i < fdSetsize
  bufs : ∀ i, (p.clientrio i).Ok
  readers : ∀ i, 0 < p.clientfd i →
    (p.clientrio i).rioFd = p.clientfd i ∧ (p.clientrio i).rioCnt = 0

/-- The descriptor of an accepted client is new and has a place in an `fd_set`. -/
def Lawful (listenfd : Int) (s : Server) (r : Round) : Prop :=
  listenfd ∈ r.readable → 0 < r.connfd ∧ r.connfd < fdSetsize ∧ r.connfd ∉ s.pool.readSet

namespace Pool
variable {listenfd : Int} {p p' : Pool}

theorem not_pos_free : ¬ (0 : Int) < -1 := by decide

theorem fdSetsize_pos : 0 < fdSetsize := Nat.succ_pos _

theorem inv_init (h : 0 < listenfd) : (initPool listenfd).Inv listenfd where
  listenfd_pos := h
  slots _ := .inl rfl
  apart i _ hi := absurd hi not_pos_free
  listen _ := fun heq : -1 = listenfd => not_pos_free (heq ▸ h)
  watched fd := by
    refine Finset.mem_singleton.trans ⟨.inl, ?_⟩
    rintro (rfl | ⟨hpos, _, rfl⟩)
    · rfl
    · exact absurd hpos not_pos_free
  high _ hi := absurd hi not_pos_free
  maxi_lt := lt_trans neg_one_lt_zero (Int.natCast_pos.mpr fdSetsize_pos)
  maxfd fd hfd := (Finset.mem_singleton.mp hfd).le
  fits _ := lt_trans neg_one_lt_zero (Int.natCast_pos.mpr fdSetsize_pos)
  bufs _ := ⟨List.length_replicate, Nat.zero_le _⟩
  readers _ hi := absurd hi not_pos_free

/-- A pool that differs in what a round sets up. -/
theorem Inv.with_ready (h : p.Inv listenfd) (ready : Finset Int) (n : Int) :
    Inv listenfd { p with readySet := ready, nready := n } :=
  ⟨h.listenfd_pos, h.slots, h.apart, h.listen, h.watched, h.high, h.maxi_lt, h.maxfd, h.fits,
    h.bufs, h.readers⟩

/-- There is always a slot: more clients than slots would have descriptors that do not
fit in an `fd_set`. -/
theorem Inv.available (h : p.Inv listenfd) : ∃ i, p.available = some i := by
  by_contra hnone
  have hfull : ∀ i ∈ Finset.range fdSetsize, 0 < p.clientfd i := by
    intro i hi
    have hnot : ¬ p.clientfd i < 0 := by
      intro hneg
      apply hnone
      have hmem := List.mem_range.mpr (Finset.mem_range.mp hi)
      exact Option.isSome_iff_exists.mp (List.find?_isSome.mpr ⟨i, hmem, decide_eq_true hneg⟩)
    obtain hfree | hpos := h.slots i
    · rw [hfree] at hnot
      exact absurd neg_one_lt_zero hnot
    · exact hpos
  have hmaps : ∀ i ∈ Finset.range fdSetsize, p.clientfd i ∈ Finset.Ioo (0 : Int) fdSetsize :=
    fun i hi => Finset.mem_Ioo.mpr ⟨hfull i hi, h.fits i⟩
  have hinj : Set.InjOn p.clientfd (Finset.range fdSetsize) :=
    fun i hi j _ heq => h.apart i j (hfull i hi) heq
  have hcard := Finset.card_le_card_of_injOn p.clientfd hmaps hinj
  rw [Finset.card_range, Int.card_Ioo] at hcard
  have hsize := fdSetsize_pos
  omega

theorem available_spec {i : Nat} (h : p.Inv listenfd) (hi : p.available = some i) :
    i < fdSetsize ∧ p.clientfd i = -1 := by
  rw [available] at hi
  have hmem : i ∈ List.range fdSetsize := List.mem_of_find?_eq_some hi
  have hlt : i < fdSetsize := List.mem_range.mp hmem
  have hfound := List.find?_some hi
  have hneg : p.clientfd i < 0 := of_decide_eq_true hfound
  obtain hfree | hpos := h.slots i
  · exact ⟨hlt, hfree⟩
  · exact absurd hpos (not_lt.mpr hneg.le)

theorem Inv.select (h : p.Inv listenfd) (readable : Finset Int) :
    (p.select readable).Inv listenfd := h.with_ready _ _

/-- No descriptor in `read_set` is above `maxfd`, where `select` would not see it. -/
theorem Inv.select_ready (h : p.Inv listenfd) (readable : Finset Int) :
    (p.select readable).readySet = p.readSet ∩ readable := by
  have hall : ∀ fd ∈ p.readSet, fd < p.maxfd + 1 :=
    fun fd hfd => Int.lt_add_one_of_le (h.maxfd fd hfd)
  show (p.readSet.filter fun fd => fd < p.maxfd + 1) ∩ readable = p.readSet ∩ readable
  rw [Finset.filter_true_of_mem hall]

theorem ok_readinitb {rp : RioT} (h : rp.Ok) (fd : Int) : (rioReadinitb rp fd).Ok :=
  ⟨h.size, Nat.zero_le _⟩

/-- A client is added to a pool. -/
theorem Inv.addClient {connfd : Int} (h : p.Inv listenfd) (hpos : 0 < connfd)
    (hsize : connfd < fdSetsize) (hnew : connfd ∉ p.readSet)
    (hp : addClient connfd p = some p') : p'.Inv listenfd := by
  obtain ⟨i, hi, rfl⟩ := Option.map_eq_some_iff.mp hp
  obtain ⟨hlt, hfree⟩ := available_spec h hi
  -- No client has the descriptor, for then it would be in `read_set`.
  have hnone : ∀ j, p.clientfd j ≠ connfd := fun j hj =>
    hnew ((h.watched connfd).mpr (.inr ⟨hpos, j, hj⟩))
  have hlisten : connfd ≠ listenfd := fun heq => hnew ((h.watched connfd).mpr (.inl heq))
  have hmaxi : p.maxi ≤ if (i : Int) > p.maxi then (i : Int) else p.maxi := by
    split
    case isTrue hgt => exact hgt.le
    case isFalse _ => exact le_refl _
  have hmaxfd : p.maxfd ≤ if connfd > p.maxfd then connfd else p.maxfd := by
    split
    case isTrue hgt => exact hgt.le
    case isFalse _ => exact le_refl _
  constructor
  case listenfd_pos => exact h.listenfd_pos
  case slots =>
    intro j
    simp only [Function.update_apply]
    split
    · exact .inr hpos
    · exact h.slots j
  case apart =>
    intro j k hj hjk
    simp only [Function.update_apply] at hj hjk
    split_ifs at hj hjk with hji hki hki
    · exact hji.trans hki.symm
    · exact absurd hjk.symm (hnone k)
    · exact absurd hjk (hnone j)
    · exact h.apart j k hj hjk
  case listen =>
    intro j
    simp only [Function.update_apply]
    split
    · exact hlisten
    · exact h.listen j
  case watched =>
    intro fd
    simp only [Finset.mem_insert, h.watched fd, Function.update_apply]
    constructor
    · rintro (rfl | rfl | ⟨hfd, j, hj⟩)
      · exact .inr ⟨hpos, i, if_pos rfl⟩
      · exact .inl rfl
      · refine .inr ⟨hfd, j, ?_⟩
        rw [if_neg ?_, hj]
        rintro rfl
        rw [hfree] at hj
        exact not_pos_free (hj ▸ hfd)
    · rintro (rfl | ⟨hfd, j, hj⟩)
      · exact .inr (.inl rfl)
      · split_ifs at hj with hji
        · exact .inl hj.symm
        · exact .inr (.inr ⟨hfd, j, hj⟩)
  case high =>
    intro j hj
    simp only [Function.update_apply] at hj
    split_ifs at hj with hji
    · subst hji
      show (j : Int) ≤ if (j : Int) > p.maxi then (j : Int) else p.maxi
      split
      case isTrue _ => exact le_refl _
      case isFalse hle => exact not_lt.mp hle
    · exact (h.high j hj).trans hmaxi
  case maxi_lt =>
    show (if (i : Int) > p.maxi then (i : Int) else p.maxi) < fdSetsize
    split
    case isTrue _ => exact Int.ofNat_lt.mpr hlt
    case isFalse _ => exact h.maxi_lt
  case maxfd =>
    intro fd hfd
    rcases Finset.mem_insert.mp hfd with rfl | hfd
    · show fd ≤ if fd > p.maxfd then fd else p.maxfd
      split
      case isTrue _ => exact le_refl _
      case isFalse hle => exact not_lt.mp hle
    · exact (h.maxfd fd hfd).trans hmaxfd
  case fits =>
    intro j
    simp only [Function.update_apply]
    split
    · exact hsize
    · exact h.fits j
  case bufs =>
    intro j
    simp only [Function.update_apply]
    split
    · exact ok_readinitb (h.bufs i) connfd
    · exact h.bufs j
  case readers =>
    intro j hj
    simp only [Function.update_apply] at hj ⊢
    split_ifs at hj ⊢ with hji
    · exact ⟨rfl, rfl⟩
    · exact h.readers j hj

/-- A client is removed from a pool. -/
theorem Inv.remove {i : Nat} (h : p.Inv listenfd) (hi : 0 < p.clientfd i) :
    Inv listenfd { p with
      readSet := p.readSet.erase (p.clientfd i)
      clientfd := Function.update p.clientfd i (-1) } := by
  constructor
  case listenfd_pos => exact h.listenfd_pos
  case slots =>
    intro j
    simp only [Function.update_apply]
    split
    · exact .inl rfl
    · exact h.slots j
  case apart =>
    intro j k hj hjk
    simp only [Function.update_apply] at hj hjk
    split_ifs at hj hjk with hji hki hki
    · exact absurd hj not_pos_free
    · exact absurd hj not_pos_free
    · rw [hjk] at hj
      exact absurd hj not_pos_free
    · exact h.apart j k hj hjk
  case listen =>
    intro j
    simp only [Function.update_apply]
    split
    · exact fun heq => not_pos_free (heq ▸ h.listenfd_pos)
    · exact h.listen j
  case watched =>
    intro fd
    simp only [Finset.mem_erase, h.watched fd, Function.update_apply]
    constructor
    · rintro ⟨hne, rfl | ⟨hfd, j, hj⟩⟩
      · exact .inl rfl
      · refine .inr ⟨hfd, j, ?_⟩
        rw [if_neg ?_, hj]
        rintro rfl
        exact hne hj.symm
    · rintro (rfl | ⟨hfd, j, hj⟩)
      · exact ⟨(h.listen i).symm, .inl rfl⟩
      · split_ifs at hj with hji
        · rw [← hj] at hfd
          exact absurd hfd not_pos_free
        · refine ⟨?_, .inr ⟨hfd, j, hj⟩⟩
          intro heq
          exact hji (h.apart i j hi (heq.symm.trans hj.symm)).symm
  case high =>
    intro j hj
    simp only [Function.update_apply] at hj
    split_ifs at hj with hji
    · exact absurd hj not_pos_free
    · exact h.high j hj
  case maxi_lt => exact h.maxi_lt
  case maxfd => exact fun fd hfd => h.maxfd fd (Finset.mem_of_mem_erase hfd)
  case fits =>
    intro j
    simp only [Function.update_apply]
    split
    · exact lt_trans neg_one_lt_zero (Int.natCast_pos.mpr fdSetsize_pos)
    · exact h.fits j
  case bufs => exact h.bufs
  case readers =>
    intro j hj
    simp only [Function.update_apply] at hj ⊢
    split_ifs at hj ⊢ with hji
    · exact absurd hj not_pos_free
    · exact h.readers j hj

/-- The slots to be served, in order. -/
def due (p : Pool) (i k : Nat) : List Nat := (List.range' i k).filter fun j => decide (p.Due j)

theorem due_succ_of_due {i k : Nat} (h : p.Due i) : p.due i (k + 1) = i :: p.due (i + 1) k := by
  rw [due, List.range'_succ]
  exact List.filter_cons_of_pos (decide_eq_true h)

theorem due_succ_of_not {i k : Nat} (h : ¬ p.Due i) : p.due i (k + 1) = p.due (i + 1) k := by
  rw [due, List.range'_succ]
  exact List.filter_cons_of_neg fun hdue => h (of_decide_eq_true hdue)

theorem due_congr {i k : Nat} (h : ∀ j, i ≤ j → (p.Due j ↔ p'.Due j)) : p.due i k = p'.due i k := by
  refine List.filter_congr fun j hj => ?_
  rw [decide_eq_decide]
  exact h j (List.mem_range'_1.mp hj).1

/-- The clients to be served are those that are ready. -/
theorem Inv.due_ready (h : p.Inv listenfd) (hready : p.readySet ⊆ p.readSet) :
    ((p.due 0 (p.maxi + 1).toNat).map p.clientfd).Nodup ∧
      ((p.due 0 (p.maxi + 1).toNat).map p.clientfd).toFinset = p.readySet.erase listenfd := by
  have hmem : ∀ i, i ∈ p.due 0 (p.maxi + 1).toNat ↔ p.Due i := by
    intro i
    rw [due, List.mem_filter, decide_eq_true_eq, List.mem_range'_1]
    refine ⟨fun hi => hi.2, fun hi => ⟨⟨Nat.zero_le i, ?_⟩, hi⟩⟩
    have hle := h.high i hi.1
    omega
  constructor
  · refine List.Nodup.map_on ?_ (List.Nodup.filter _ List.nodup_range')
    exact fun i hi j _ heq => h.apart i j ((hmem i).mp hi).1 heq
  · ext fd
    rw [List.mem_toFinset, List.mem_map, Finset.mem_erase]
    constructor
    · rintro ⟨i, hi, rfl⟩
      exact ⟨h.listen i, ((hmem i).mp hi).2⟩
    · rintro ⟨hne, hfd⟩
      obtain rfl | ⟨hpos, i, rfl⟩ := (h.watched fd).mp (hready hfd)
      · exact absurd rfl hne
      · exact ⟨i, (hmem i).mpr ⟨hpos, hfd⟩, rfl⟩

theorem Inv.due_count (h : p.Inv listenfd) (hready : p.readySet ⊆ p.readSet) :
    (p.due 0 (p.maxi + 1).toNat).length = (p.readySet.erase listenfd).card := by
  obtain ⟨hnodup, hset⟩ := h.due_ready hready
  rw [← hset, List.toFinset_card_of_nodup hnodup, List.length_map]

end Pool

/-! ## A client on its own -/

/-- What has been read of a connection that brings `arrived`, and echoed to it: each
time a line, through a buffer that is empty at first and then thrown away. -/
inductive Session (arrived : List Event) : List Event → List UInt8 → Prop
  | accepted : Session arrived arrived []
  | echoed {es : List Event} {sent : List UInt8} {rp : RioT} (h : Session arrived es sent)
      (hok : rp.Ok) (hcnt : rp.rioCnt = 0) (hret : 0 < (rioReadlineb rp es maxline).out.ret) :
      Session arrived (rioReadlineb rp es maxline).es
        (sent ++ (rioReadlineb rp es maxline).out.usrbuf.take
          (rioReadlineb rp es maxline).out.ret.toNat)

namespace Conn

def Live (c : Conn) : Prop := Session c.arrived c.es c.out.sent

/-- The last read has found the end of the file. -/
def Ended (c : Conn) : Prop :=
  ∃ es rp, Session c.arrived es c.out.sent ∧ rp.Ok ∧ rp.rioCnt = 0 ∧
    (rioReadlineb rp es maxline).out.ret = 0 ∧ (rioReadlineb rp es maxline).es = c.es

end Conn

/-! ## Rounds -/

namespace Server

/-- The pool is consistent, and each client has been served on its own. -/
structure Inv (listenfd : Int) (s : Server) : Prop where
  pool : s.pool.Inv listenfd
  live : ∀ i, 0 < s.pool.clientfd i → (s.conn (s.pool.clientfd i)).Live
  ended : ∀ c ∈ s.closed, c.Ended

/-- The client in slot `i` has been served. -/
structure Served (i : Nat) (s s' : Server) : Prop where
  nready : s'.pool.nready = s.pool.nready - 1
  served : s'.served = s.served ++ [s.pool.clientfd i]
  readySet : s'.pool.readySet = s.pool.readySet
  maxi : s'.pool.maxi = s.pool.maxi
  others : ∀ j, j ≠ i → s'.pool.clientfd j = s.pool.clientfd j

variable {listenfd : Int} {s s' : Server} {i : Nat}

theorem serve_of_not_due (h : ¬ s.pool.Due i) : s.serve i = some s := if_neg h

theorem Inv.count (h : s.Inv listenfd) (i : Nat) : (s.count i).Inv listenfd :=
  ⟨h.pool.with_ready _ _, h.live, h.ended⟩

@[simp] theorem read_conn_self {fd : Int} {es : List Event} :
    (s.read fd es).conn fd = { s.conn fd with es := es } := Function.update_self ..

theorem read_conn_of_ne {fd fd' : Int} {es : List Event} (h : fd' ≠ fd) :
    (s.read fd es).conn fd' = s.conn fd' := Function.update_of_ne h ..

/-- What is known when an echo has been sent. -/
theorem echo_some {connfd n : Int} {buf : List UInt8} (hs : s.echo connfd n buf = some s') :
    (rioWriten (s.conn connfd).out (buf.take n.toNat)).1 = n ∧
      s' = { s with
        byteCnt := s.byteCnt + n
        conn := Function.update s.conn connfd { s.conn connfd with
          out := (rioWriten (s.conn connfd).out (buf.take n.toNat)).2 } } := by
  rw [echo] at hs
  split at hs
  case isFalse _ => cases hs
  case isTrue _ =>
    dsimp only at hs
    split at hs
    case isTrue hw => exact ⟨hw, (Option.some.inj hs).symm⟩
    case isFalse _ => cases hs

/-- The other clients have other descriptors. -/
theorem Inv.clientfd_ne (h : s.Inv listenfd) {j : Nat} (hj : 0 < s.pool.clientfd j)
    (hne : j ≠ i) : s.pool.clientfd j ≠ s.pool.clientfd i :=
  fun heq => hne (h.pool.apart j i hj heq)

theorem serve_keeps (h : s.Inv listenfd) (hdue : s.pool.Due i) (hs : s.serve i = some s') :
    s'.Inv listenfd ∧ Served i s s' := by
  obtain ⟨hfd, hcnt⟩ := h.pool.readers i hdue.1
  have hok := h.pool.bufs i
  have hlive := h.live i hdue.1
  rw [serve, if_pos hdue] at hs
  simp only [hfd] at hs
  generalize hr : rioReadlineb (s.pool.clientrio i) (s.conn (s.pool.clientfd i)).es maxline = r at hs
  split at hs
  case isTrue _ => cases hs
  case isFalse hneg =>
    split at hs
    case isTrue hne =>
      -- A line: it is sent whole, or the program ends.
      obtain ⟨hw, rfl⟩ := echo_some hs
      rw [read_conn_self] at hw ⊢
      refine ⟨⟨h.pool.with_ready _ _, ?_, h.ended⟩, rfl, rfl, rfl, rfl, fun _ _ => rfl⟩
      intro j hj
      simp only [Function.update_apply]
      split
      case isTrue _ =>
        obtain ⟨-, hsent⟩ | ⟨hbad, -⟩ := Rio.rioWriten_cases (s.conn (s.pool.clientfd i)).out
          (r.out.usrbuf.take r.out.ret.toNat)
        · show Session _ r.es (rioWriten _ _).2.sent
          have hret : 0 < r.out.ret := lt_of_le_of_ne (not_lt.mp hneg) (Ne.symm hne)
          subst hr
          rw [count, hsent]
          exact .echoed hlive hok hcnt hret
        · exact absurd (hw.symm.trans hbad ▸ neg_one_lt_zero) hneg
      case isFalse hother =>
        have hother' : s.pool.clientfd j ≠ s.pool.clientfd i := hother
        show ((s.read _ r.es).conn (s.pool.clientfd j)).Live
        rw [read_conn_of_ne hother']
        exact h.live j hj
    case isFalse hzero =>
      cases hs
      have hzero : r.out.ret = 0 := not_not.mp hzero
      refine ⟨⟨(h.count i).pool.remove hdue.1, ?_, ?_⟩, rfl, rfl, rfl, rfl, ?_⟩
      · intro j hj
        have hj' : 0 < Function.update s.pool.clientfd i (-1) j := hj
        show ((s.read _ r.es).conn (Function.update s.pool.clientfd i (-1) j)).Live
        by_cases hji : j = i
        · rw [hji, Function.update_self] at hj'
          exact absurd hj' Pool.not_pos_free
        · rw [Function.update_of_ne hji] at hj' ⊢
          rw [read_conn_of_ne (h.clientfd_ne hj' hji)]
          exact h.live j hj'
      · intro c hc
        rcases List.mem_append.mp hc with hc | hc
        · exact h.ended c hc
        · obtain rfl := List.mem_singleton.mp hc
          show (((s.count i).read _ r.es).conn (s.pool.clientfd i)).Ended
          rw [read_conn_self]
          subst hr
          exact ⟨_, _, hlive, hok, hcnt, hzero, rfl⟩
      · intro j hj
        exact Function.update_of_ne hj ..

/-- The loop serves the clients that are due, as long as `nready` counts them. -/
theorem checkLoop_serves (k i : Nat) (h : s.Inv listenfd)
    (hn : s.pool.nready = (s.pool.due i k).length) (hs : checkLoop k i s = some s') :
    s'.Inv listenfd ∧ s'.pool.nready = 0 ∧
      s'.served = s.served ++ (s.pool.due i k).map s.pool.clientfd := by
  induction k generalizing i s with
  | zero =>
      cases hs
      exact ⟨h, hn, (List.append_nil _).symm⟩
  | succ k ih =>
      rw [checkLoop] at hs
      split at hs
      case isTrue _ =>
        obtain ⟨s₁, hs₁, hrest⟩ := Option.bind_eq_some_iff.mp hs
        by_cases hdue : s.pool.Due i
        · obtain ⟨hinv, hserved⟩ := serve_keeps h hdue hs₁
          have hlater : s₁.pool.due (i + 1) k = s.pool.due (i + 1) k := by
            refine Pool.due_congr fun j hj => ?_
            rw [Pool.Due, Pool.Due, hserved.readySet, hserved.others j (by omega)]
          have hmap : (s.pool.due (i + 1) k).map s₁.pool.clientfd =
              (s.pool.due (i + 1) k).map s.pool.clientfd := by
            refine List.map_congr_left fun j hj => hserved.others j ?_
            have hle := (List.mem_range'_1.mp (List.mem_of_mem_filter hj)).1
            omega
          rw [Pool.due_succ_of_due hdue] at hn ⊢
          have hn₁ : s₁.pool.nready = (s₁.pool.due (i + 1) k).length := by
            rw [hserved.nready, hn, hlater, List.length_cons]
            omega
          obtain ⟨hinv', hzero, hlog⟩ := ih (i + 1) hinv hn₁ hrest
          refine ⟨hinv', hzero, ?_⟩
          rw [hlog, hserved.served, hlater, hmap, List.append_assoc]
          rfl
        · rw [serve_of_not_due hdue] at hs₁
          cases hs₁
          rw [Pool.due_succ_of_not hdue] at hn ⊢
          exact ih (i + 1) h hn hrest
      case isFalse hnone =>
        have hzero : (s.pool.due i (k + 1)).length = 0 := by omega
        rw [← Option.some.inj hs]
        rw [List.length_eq_zero_iff.mp hzero] at hn ⊢
        exact ⟨h, hn, (List.append_nil _).symm⟩

/-- What a round starts with. -/
theorem Inv.select (h : s.Inv listenfd) (readable : Finset Int) :
    Inv listenfd { s with pool := s.pool.select readable, served := [] } :=
  ⟨h.pool.select readable, h.live, h.ended⟩

theorem Inv.accept {r : Round} (h : s.Inv listenfd) (hpos : 0 < r.connfd)
    (hsize : r.connfd < fdSetsize) (hnew : r.connfd ∉ s.pool.readSet)
    (hs : s.accept r = some s') : s'.Inv listenfd := by
  obtain ⟨p, hp, rfl⟩ := Option.map_eq_some_iff.mp hs
  have hpool := h.pool.addClient hpos hsize hnew hp
  obtain ⟨i, hi, rfl⟩ := Option.map_eq_some_iff.mp hp
  refine ⟨hpool, ?_, h.ended⟩
  intro j hj
  show (Function.update s.conn r.connfd _ (Function.update s.pool.clientfd i r.connfd j)).Live
  have hj' : 0 < Function.update s.pool.clientfd i r.connfd j := hj
  by_cases hji : j = i
  · rw [hji, Function.update_self, Function.update_self]
    exact .accepted
  · rw [Function.update_of_ne hji] at hj' ⊢
    rw [Function.update_of_ne ?_]
    · exact h.live j hj'
    · exact fun heq => hnew ((h.pool.watched _).mpr (.inr ⟨hpos, j, heq⟩))

/-- What is known when `check_clients` begins. -/
theorem checkClients_serves (h : s.Inv listenfd) (hready : s.pool.readySet ⊆ s.pool.readSet)
    (hn : s.pool.nready = (s.pool.readySet.erase listenfd).card)
    (hs : s.checkClients = some s') :
    s'.Inv listenfd ∧ s'.pool.nready = 0 ∧ ∃ fds, s'.served = s.served ++ fds ∧ fds.Nodup ∧
      fds.toFinset = s.pool.readySet.erase listenfd := by
  rw [← h.pool.due_count hready] at hn
  obtain ⟨hinv, hzero, hlog⟩ := checkLoop_serves _ 0 h hn hs
  exact ⟨hinv, hzero, _, hlog, h.pool.due_ready hready⟩

end Server

/-- A round keeps the pool consistent, and serves each client that is ready once. -/
theorem round_serves {listenfd : Int} {s s' : Server} {r : Round} (h : s.Inv listenfd)
    (hr : Lawful listenfd s r) (hs : round listenfd s r = some s') :
    s'.Inv listenfd ∧ s'.pool.nready = 0 ∧ s'.served.Nodup ∧
      s'.served.toFinset = (s.pool.readSet ∩ r.readable).erase listenfd := by
  have hsel := h.select r.readable
  have hready := h.pool.select_ready r.readable
  rw [round] at hs
  obtain ⟨s₁, hs₁, hcheck⟩ := Option.bind_eq_some_iff.mp hs
  have hfacts : s₁.Inv listenfd ∧ s₁.pool.readySet ⊆ s₁.pool.readSet ∧
      s₁.pool.nready = (s₁.pool.readySet.erase listenfd).card ∧ s₁.served = [] ∧
      s₁.pool.readySet = s.pool.readSet ∩ r.readable := by
    split at hs₁
    case isTrue hlisten =>
      have hmem : listenfd ∈ s.pool.readSet ∩ r.readable := hready ▸ hlisten
      obtain ⟨hpos, hsize, hnew⟩ := hr (Finset.mem_inter.mp hmem).2
      have hinv := hsel.accept hpos hsize hnew hs₁
      obtain ⟨p, hp, rfl⟩ := Option.map_eq_some_iff.mp hs₁
      obtain ⟨i, hi, rfl⟩ := Option.map_eq_some_iff.mp hp
      refine ⟨hinv, ?_, ?_, rfl, hready⟩
      · show (s.pool.select r.readable).readySet ⊆ insert r.connfd s.pool.readSet
        rw [hready]
        exact Finset.inter_subset_left.trans (Finset.subset_insert _ _)
      · show ((s.pool.select r.readable).readySet.card : Int) - 1 =
          ((s.pool.select r.readable).readySet.erase listenfd).card
        have hin : listenfd ∈ (s.pool.select r.readable).readySet := hlisten
        have hcard := Finset.card_pos.mpr ⟨_, hin⟩
        rw [Finset.card_erase_of_mem hin]
        omega
    case isFalse hlisten =>
      cases hs₁
      refine ⟨hsel, ?_, ?_, rfl, hready⟩
      · show (s.pool.select r.readable).readySet ⊆ s.pool.readSet
        rw [hready]
        exact Finset.inter_subset_left
      · exact congrArg (fun fds : Finset Int => (fds.card : Int))
          (Finset.erase_eq_of_notMem hlisten).symm
  obtain ⟨hinv, hsub, hn, hserved, hset⟩ := hfacts
  obtain ⟨hinv', hzero, fds, hlog, hnodup, hfds⟩ :=
    Server.checkClients_serves hinv hsub hn hcheck
  rw [hserved, List.nil_append] at hlog
  rw [hlog, ← hset]
  exact ⟨hinv', hzero, hnodup, hfds⟩

theorem inv_start {listenfd : Int} (h : 0 < listenfd) : (start listenfd).Inv listenfd where
  pool := Pool.inv_init h
  live _ hi := absurd hi Pool.not_pos_free
  ended _ hc := absurd hc List.not_mem_nil

theorem run_inv {listenfd : Int} (h : 0 < listenfd) {rounds : List Round} {s : Server}
    (hrounds : Run.Along (round listenfd) (Lawful listenfd) (start listenfd) rounds)
    (hrun : Run.run (round listenfd) (start listenfd) rounds = some s) : s.Inv listenfd :=
  Run.run_keeps_along (fun _ _ _ hs hr hs' => (round_serves hs hr hs').1) rounds (inv_start h)
    hrounds hrun

/-- In every state the program reaches: the pool is consistent, an accepted client
would find a slot, and the next round serves each client that is ready exactly once. -/
theorem pool_runs {listenfd : Int} (h : 0 < listenfd) {rounds : List Round} {s : Server}
    (hrounds : Run.Along (round listenfd) (Lawful listenfd) (start listenfd) rounds)
    (hrun : Run.run (round listenfd) (start listenfd) rounds = some s) :
    s.pool.Inv listenfd ∧ (∃ i, s.pool.available = some i) ∧
      ∀ r s', Lawful listenfd s r → round listenfd s r = some s' →
        s'.pool.nready = 0 ∧ s'.served.Nodup ∧
          s'.served.toFinset = (s.pool.readSet ∩ r.readable).erase listenfd := by
  have hinv := run_inv h hrounds hrun
  exact ⟨hinv.pool, hinv.pool.available, fun r s' hr hs' => (round_serves hinv hr hs').2⟩

/-! ## A first client -/

theorem Server.echo_sent {s : Server} {connfd n : Int} {buf : List UInt8} {w : Writer}
    (hcnt : s.byteCnt + n < 2 ^ 31)
    (hw : rioWriten (s.conn connfd).out (buf.take n.toNat) = (n, w)) :
    s.echo connfd n buf = some { s with
      byteCnt := s.byteCnt + n
      conn := Function.update s.conn connfd { s.conn connfd with out := w } } := by
  rw [echo, if_pos hcnt, hw]
  exact if_pos rfl

/-- A line that is read and sent whole. -/
theorem Server.serve_line {s : Server} {i : Nat} {n : Int} {buf : List UInt8} {rp : RioT}
    {es : List Event} {w : Writer} (hdue : s.pool.Due i)
    (hfd : (s.pool.clientrio i).rioFd = s.pool.clientfd i)
    (hread : rioReadlineb (s.pool.clientrio i) (s.conn (s.pool.clientfd i)).es maxline =
      ⟨⟨n, buf⟩, rp, es⟩) (hn : 0 < n) (hcnt : s.byteCnt + n < 2 ^ 31)
    (hw : rioWriten (s.conn (s.pool.clientfd i)).out (buf.take n.toNat) = (n, w)) :
    ∃ s', s.serve i = some s' ∧ s'.pool.clientfd = s.pool.clientfd ∧
      s'.conn (s.pool.clientfd i) = ⟨(s.conn (s.pool.clientfd i)).arrived, es, w⟩ := by
  have hw' : rioWriten (((s.count i).read (s.pool.clientfd i) es).conn (s.pool.clientfd i)).out
      (buf.take n.toNat) = (n, w) := by
    rw [read_conn_self]
    exact hw
  have hserve : s.serve i =
      ((s.count i).read (s.pool.clientfd i) es).echo (s.pool.clientfd i) n buf := by
    rw [serve, if_pos hdue]
    simp only [hfd, hread]
    rw [if_neg (not_lt.mpr hn.le), if_pos hn.ne']
  refine ⟨_, hserve.trans (Server.echo_sent hcnt hw'), rfl, ?_⟩
  refine (Function.update_self ..).trans ?_
  rw [read_conn_self]
  rfl

/-- A first client, on which these events will arrive. -/
def firstClient (arrives : List Event) : Round := ⟨{3}, 4, arrives, [], 0⟩

/-- It is ready. -/
def clientReady : Round := ⟨{4}, 0, [], [], 0⟩

theorem lawful_firstClient (arrives : List Event) :
    Run.Along (round 3) (Lawful 3) (start 3) [firstClient arrives] := by
  refine ⟨fun _ => ⟨?_, ?_, ?_⟩, ?_⟩
  · exact Int.natCast_pos.mpr (Nat.succ_pos 3)
  · show (4 : Int) < (1024 : Nat)
    decide
  · show (4 : Int) ∉ ({3} : Finset Int)
    decide
  · cases round 3 (start 3) (firstClient arrives) <;> trivial

theorem lawful_clientReady (s : Server) : Lawful 3 s clientReady := by
  intro h
  exact absurd (Finset.mem_singleton.mp h) (by decide)

set_option maxRecDepth 20000 in
/-- The server with its first client. -/
theorem run_firstClient (arrives : List Event) :
    ∃ s, Run.run (round 3) (start 3) [firstClient arrives] = some s ∧ s.pool.clientfd 0 = 4 ∧
      s.conn 4 = ⟨arrives, arrives, ⟨[], 0, []⟩⟩ ∧ s.pool.maxi = 0 ∧ s.byteCnt = 0 :=
  ⟨_, rfl, rfl, rfl, rfl, rfl⟩

/-- A round in which the first client is served its first line. -/
theorem round_clientReady {s : Server} (h : s.Inv 3) (hfd : s.pool.clientfd 0 = 4)
    (hmaxi : s.pool.maxi = 0) (hcnt : s.byteCnt = 0) {line more : List UInt8} {b : UInt8}
    {bs : List UInt8} {es : List Event}
    (hconn : s.conn 4 = ⟨.data b bs :: es, .data b bs :: es, ⟨[], 0, []⟩⟩)
    (hchunk : b :: bs = line ++ newline :: more) (hsize : (b :: bs).length ≤ rioBufsize)
    (hline : newline ∉ line) (hlen : line.length + 1 < maxline) :
    ∃ s', round 3 s clientReady = some s' ∧ s'.pool.clientfd 0 = 4 ∧
      s'.conn 4 = ⟨.data b bs :: es, es, ⟨[], 0, line ++ [newline]⟩⟩ := by
  have hpos : 0 < s.pool.clientfd 0 := hfd ▸ by decide
  obtain ⟨hrio, hempty⟩ := h.pool.readers 0 hpos
  have hmem : (4 : Int) ∈ s.pool.readSet :=
    (h.pool.watched 4).mpr (.inr ⟨by decide, 0, hfd⟩)
  have hready : (s.pool.select clientReady.readable).readySet = {4} := by
    rw [h.pool.select_ready]
    exact Finset.inter_singleton_of_mem hmem
  obtain ⟨rp', hread, -⟩ := @Rio.readlineb_chunk (s.pool.clientrio 0) es line more maxline bs b
    (h.pool.bufs 0) hempty hchunk hsize hline hlen
  let σ : Server := { s with pool := s.pool.select clientReady.readable, served := [] }
  have hdue : σ.pool.Due 0 := by
    refine ⟨hpos, ?_⟩
    show s.pool.clientfd 0 ∈ (s.pool.select clientReady.readable).readySet
    rw [hready, hfd]
    exact Finset.mem_singleton_self 4
  have hconn' : σ.conn (σ.pool.clientfd 0) =
      ⟨.data b bs :: es, .data b bs :: es, ⟨[], 0, []⟩⟩ := by
    show s.conn (s.pool.clientfd 0) = _
    rw [hfd, hconn]
  have hbuf : (line ++ [newline] ++ [0]).take ((line.length + 1 : Nat) : Int).toNat =
      line ++ [newline] := by
    rw [Int.toNat_natCast, List.take_left' (by rw [List.length_append, List.length_singleton])]
  have hwrite : rioWriten ⟨[], 0, []⟩ (line ++ [newline]) =
      (((line.length + 1 : Nat) : Int), ⟨[], 0, line ++ [newline]⟩) := by
    cases line with
    | nil => rfl
    | cons c cs =>
        rw [rioWriten, List.length_append, List.length_singleton]
        rfl
  have hroom : σ.byteCnt + ((line.length + 1 : Nat) : Int) < 2 ^ 31 := by
    have hzero : σ.byteCnt = 0 := hcnt
    have hshort : line.length + 1 < 8192 := hlen
    omega
  obtain ⟨s', hserve, hfds, hconn₁⟩ := @Server.serve_line σ 0 (line.length + 1 : Nat)
    (line ++ [newline] ++ [0]) rp' es ⟨[], 0, line ++ [newline]⟩ hdue hrio
    (by rw [hconn']; exact hread) (by omega) hroom (by rw [hconn', hbuf]; exact hwrite)
  refine ⟨s', ?_, ?_, ?_⟩
  · have hnot : (3 : Int) ∉ σ.pool.readySet := by
      show (3 : Int) ∉ (s.pool.select clientReady.readable).readySet
      rw [hready]
      decide
    have hone : 0 < σ.pool.nready := by
      show (0 : Int) < ((s.pool.select clientReady.readable).readySet.card : Int)
      rw [hready]
      decide
    have hloop : σ.checkClients = Server.checkLoop 1 0 σ := by
      have hmaxi' : σ.pool.maxi = 0 := hmaxi
      rw [Server.checkClients, hmaxi']
      rfl
    rw [round]
    refine (congrArg (Option.bind · Server.checkClients) (if_neg hnot)).trans ?_
    rw [Option.bind_some, hloop, Server.checkLoop, if_pos hone, hserve]
    rfl
  · rw [hfds]
    exact hfd
  · have hself : σ.pool.clientfd 0 = 4 := hfd
    rw [hself] at hconn₁ hconn'
    rw [hconn₁, hconn']

/-- The first client is accepted and served a line. -/
theorem run_clientReady {line more : List UInt8} {b : UInt8} {bs : List UInt8}
    (hchunk : b :: bs = line ++ newline :: more) (hsize : (b :: bs).length ≤ rioBufsize)
    (hline : newline ∉ line) (hlen : line.length + 1 < maxline) :
    Run.Along (round 3) (Lawful 3) (start 3) [firstClient [.data b bs], clientReady] ∧
      ∃ s, Run.run (round 3) (start 3) [firstClient [.data b bs], clientReady] = some s ∧
        s.pool.clientfd 0 = 4 ∧
          s.conn 4 = ⟨[.data b bs], [], ⟨[], 0, line ++ [newline]⟩⟩ := by
  have hlawful := lawful_firstClient [.data b bs]
  obtain ⟨s₁, hrun, hfd, hconn, hmaxi, hcnt⟩ := run_firstClient [.data b bs]
  have hinv := run_inv (by decide) hlawful hrun
  obtain ⟨s, hround, hfd', hconn'⟩ :=
    round_clientReady hinv hfd hmaxi hcnt hconn hchunk hsize hline hlen
  have hfirst : round 3 (start 3) (firstClient [.data b bs]) = some s₁ := by
    rw [Run.run] at hrun
    obtain ⟨s', hs', hdone⟩ := Option.bind_eq_some_iff.mp hrun
    exact hs'.trans hdone
  refine ⟨⟨hlawful.1, ?_⟩, s, ?_, hfd', hconn'⟩
  · rw [hfirst]
    refine ⟨lawful_clientReady s₁, ?_⟩
    rw [hround]
    trivial
  · rw [Run.run, hfirst, Option.bind_some, Run.run, hround]
    rfl

/-- After a first client has been accepted it is served. -/
theorem pool_runs_firstClient :
    ∃ s s', Run.run (round 3) (start 3) [firstClient [.data 97 [newline, 98]]] = some s ∧
      s.pool.Inv 3 ∧ (∃ i, s.pool.available = some i) ∧ round 3 s clientReady = some s' ∧
        s'.served.toFinset = {4} := by
  obtain ⟨s, hrun, hfd, hconn, hmaxi, hcnt⟩ := run_firstClient [.data 97 [newline, 98]]
  obtain ⟨hinv, hslot, hserves⟩ := pool_runs (by decide) (lawful_firstClient _) hrun
  obtain ⟨s', hround, -⟩ := @round_clientReady s (run_inv (by decide) (lawful_firstClient _) hrun)
    hfd hmaxi hcnt [97] [98] 97 [newline, 98] [] hconn rfl (by decide) (by decide) (by decide)
  obtain ⟨-, -, hserved⟩ := hserves clientReady s' (lawful_clientReady s) hround
  have hmem : (4 : Int) ∈ s.pool.readSet :=
    (hinv.watched 4).mpr (.inr ⟨by decide, 0, hfd⟩)
  refine ⟨s, s', hrun, hinv, hslot, hround, ?_⟩
  rw [hserved, show clientReady.readable = {4} from rfl, Finset.inter_singleton_of_mem hmem]
  decide

end CKernel.Net.EchoPool
