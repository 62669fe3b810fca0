/-
# `CKernel.Net.Rio` — the robust I/O package

`csapp_lib/csapp.c` wraps `read` and `write`.  A `read` returns what has arrived, at
most as much as asked for; it may be interrupted by a signal, fail, or find the end
of the file.  `rio_readn` and `rio_writen` go on until they have moved all bytes;
`rio_readnb` and `rio_readlineb` read through a buffer, which `rio_read` fills.

What a descriptor has for its reader is a list of events.  `feed` is the bytes, the
ends of file and the errors in it, without the cuts and the signals.

`rio_readlineb` counts in an `int`, which is enough for a `maxlen` below 2^31 (`Call`).

    `rio_read` is a `read` through the buffer, without signals    (`rioRead_readOf`)
    `rio_readn` reads of the feed                                 (`rioReadn_eq`)
    so does `rio_readnb`, through the buffer                      (`rioReadnb_leaves`)
    `rio_readlineb` reads a line of it                            (`rioReadlineb_leaves`)
-/
import CKernel.Lib.Feed

namespace CKernel.Net.Rio

open Feed (Item Taken unending)

/-! ## The descriptor -/

def eintr : Int := 4

/-- What happens to a `read`. -/
inductive Event where
  | data (b : UInt8) (bs : List UInt8)
  | eof
  | fail (errno : Int)
  deriving DecidableEq, Repr

inductive Got where
  | bytes (bs : List UInt8)
  | error (errno : Int)
  deriving DecidableEq, Repr

/-- Bytes that have arrived, in front of further events. -/
def push : List UInt8 → List Event → List Event
  | [], es => es
  | b :: bs, es => .data b bs :: es

/-- `read(fd, buf, n)`, for `0 < n`. -/
def read (n : Nat) : List Event → Got × List Event
  | [] => (.bytes [], [])
  | .eof :: es => (.bytes [], es)
  | .fail errno :: es => (.error errno, es)
  | .data b bs :: es => (.bytes ((b :: bs).take n), push ((b :: bs).drop n) es)

inductive Stop where
  | eof
  | fail (errno : Int)
  deriving DecidableEq, Repr

/-- What is to be read of the events. -/
def feed : List Event → List (Item UInt8 Stop)
  | [] => []
  | .data b bs :: es => (b :: bs).map .val ++ feed es
  | .eof :: es => .stop .eof :: feed es
  | .fail errno :: es => if errno = eintr then feed es else .stop (.fail errno) :: feed es

/-! ## The code -/

/-- What a call returns and what it has written to `usrbuf`. -/
structure Out where
  ret : Int
  usrbuf : List UInt8
  deriving DecidableEq, Repr

theorem length_read_lt {n : Nat} {es es' : List Event} {errno : Int}
    (h : read n es = (.error errno, es')) : es'.length < es.length := by
  cases es with
  | nil => cases h
  | cons e es =>
      cases e with
      | data b bs => cases h
      | eof => cases h
      | fail errno =>
          cases h
          exact Nat.lt_succ_self _

theorem length_read_le {n : Nat} {es es' : List Event} {b : UInt8} {bs : List UInt8}
    (h : read n es = (.bytes (b :: bs), es')) : es'.length ≤ es.length := by
  cases es with
  | nil => cases h
  | cons e es =>
      cases e with
      | eof => cases h
      | fail errno => cases h
      | data c cs =>
          obtain ⟨-, rfl⟩ := Prod.mk.inj h
          cases (c :: cs).drop n with
          | nil => exact Nat.le_succ _
          | cons d ds => exact Nat.le_refl _

/-- The loop of `rio_readn`. -/
def rioReadnLoop (n : Nat) (es : List Event) (nleft : Nat) (usrbuf : List UInt8) :
    Out × List Event :=
  if 0 < nleft then
    match h : read nleft es with
    | (.error errno, es') =>
        if errno = eintr then rioReadnLoop n es' nleft usrbuf else (⟨-1, usrbuf⟩, es')
    | (.bytes [], es') => (⟨(n - nleft : Nat), usrbuf⟩, es')
    | (.bytes (b :: bs), es') =>
        rioReadnLoop n es' (nleft - (b :: bs).length) (usrbuf ++ b :: bs)
  else (⟨(n - nleft : Nat), usrbuf⟩, es)
termination_by nleft + es.length
decreasing_by
  · exact Nat.add_lt_add_left (length_read_lt h) nleft
  · have hle := length_read_le h
    simp only [List.length_cons]
    omega

def rioReadn (es : List Event) (n : Nat) : Out × List Event := rioReadnLoop n es n []

def rioBufsize : Nat := 8192

/-- `rio_t`, with the position of `rio_bufptr` in `rio_buf`. -/
structure RioT where
  rioFd : Int
  rioCnt : Int
  rioBufptr : Nat
  rioBuf : List UInt8
  deriving DecidableEq, Repr

/-- What a call on a reader returns, the reader and the descriptor after it. -/
structure Done where
  out : Out
  rp : RioT
  es : List Event
  deriving DecidableEq, Repr

/-- The loop `while (rp->rio_cnt <= 0)`, and what `rio_read` returns if it ends there. -/
def refill (rp : RioT) (es : List Event) : Option Int × RioT × List Event :=
  if rp.rioCnt ≤ 0 then
    match h : read rioBufsize es with
    | (.error errno, es') =>
        if errno = eintr then refill { rp with rioCnt := -1 } es'
        else (some (-1), { rp with rioCnt := -1 }, es')
    | (.bytes [], es') => (some 0, { rp with rioCnt := 0 }, es')
    | (.bytes (b :: bs), es') =>
        (none, { rp with
          rioCnt := (b :: bs).length
          rioBufptr := 0
          rioBuf := (b :: bs) ++ rp.rioBuf.drop (b :: bs).length }, es')
  else (none, rp, es)
termination_by es.length
decreasing_by exact length_read_lt h

/-- The copy of `min(n, rp->rio_cnt)` bytes to `usrbuf`. -/
def copyOut (rp : RioT) (es : List Event) (n : Nat) : Done :=
  let cnt := if rp.rioCnt < n then rp.rioCnt.toNat else n
  ⟨⟨cnt, (rp.rioBuf.drop rp.rioBufptr).take cnt⟩,
    { rp with rioBufptr := rp.rioBufptr + cnt, rioCnt := rp.rioCnt - cnt }, es⟩

def rioRead (rp : RioT) (es : List Event) (n : Nat) : Done :=
  match refill rp es with
  | (some rc, rp, es) => ⟨⟨rc, []⟩, rp, es⟩
  | (none, rp, es) => copyOut rp es n

def rioReadinitb (rp : RioT) (fd : Int) : RioT :=
  { rp with rioFd := fd, rioCnt := 0, rioBufptr := 0 }

/-- The loop of `rio_readnb`. -/
def rioReadnbLoop (n : Nat) (rp : RioT) (es : List Event) (nleft : Nat) (usrbuf : List UInt8) :
    Done :=
  if 0 < nleft then
    let r := rioRead rp es nleft
    if r.out.ret < 0 then ⟨⟨-1, usrbuf⟩, r.rp, r.es⟩
    else if r.out.ret = 0 then ⟨⟨(n - nleft : Nat), usrbuf⟩, r.rp, r.es⟩
    else rioReadnbLoop n r.rp r.es (nleft - r.out.ret.toNat) (usrbuf ++ r.out.usrbuf)
  else ⟨⟨(n - nleft : Nat), usrbuf⟩, rp, es⟩
termination_by nleft
decreasing_by
  rename_i hleft hneg hzero
  refine Nat.sub_lt hleft ?_
  have hpos := lt_of_le_of_ne (not_lt.mp hneg) (Ne.symm hzero)
  exact Int.lt_toNat.mpr hpos

def rioReadnb (rp : RioT) (es : List Event) (n : Nat) : Done := rioReadnbLoop n rp es n []

def newline : UInt8 := 10

/-- The loop of `rio_readlineb`, from `n` on. -/
def rioReadlinebLoop (maxlen : Nat) (rp : RioT) (es : List Event) (n : Nat)
    (usrbuf : List UInt8) : Done :=
  if n < maxlen then
    let r := rioRead rp es 1
    if r.out.ret = 1 then
      let c := r.out.usrbuf.headD 0
      if c = newline then ⟨⟨n, usrbuf ++ [c] ++ [0]⟩, r.rp, r.es⟩
      else rioReadlinebLoop maxlen r.rp r.es (n + 1) (usrbuf ++ [c])
    else if r.out.ret = 0 then
      if n = 1 then ⟨⟨0, usrbuf⟩, r.rp, r.es⟩
      else ⟨⟨(n - 1 : Nat), usrbuf ++ [0]⟩, r.rp, r.es⟩
    else ⟨⟨-1, usrbuf⟩, r.rp, r.es⟩
  else ⟨⟨(n - 1 : Nat), usrbuf ++ [0]⟩, rp, es⟩
termination_by maxlen - n

def rioReadlineb (rp : RioT) (es : List Event) (maxlen : Nat) : Done :=
  rioReadlinebLoop maxlen rp es 1 []

/-! ## What the calls read of the feed -/

/-- `rio_readn` and `rio_readnb` return how many bytes they have, or -1. -/
def readnOut (t : Taken UInt8 Stop) : Out :=
  match t.stopped with
  | some (.fail _) => ⟨-1, t.vals⟩
  | _ => ⟨t.vals.length, t.vals⟩

/-- `rio_readlineb` puts a zero after the line, unless it has met the end of the file
with no byte read. -/
def readlinebOut (t : Taken UInt8 Stop) : Out :=
  match t.stopped with
  | some (.fail _) => ⟨-1, t.vals⟩
  | some .eof => if t.vals = [] then ⟨0, []⟩ else ⟨t.vals.length, t.vals ++ [0]⟩
  | none => ⟨t.vals.length, t.vals ++ [0]⟩

def takeN (n : Nat) (f : List (Item UInt8 Stop)) : Taken UInt8 Stop :=
  Feed.take .eof unending n f

def takeLine (maxlen : Nat) (f : List (Item UInt8 Stop)) : Taken UInt8 Stop :=
  Feed.take .eof (· == newline) (maxlen - 1) f

theorem feed_push (bs : List UInt8) (es : List Event) :
    feed (push bs es) = bs.map .val ++ feed es := by
  cases bs with
  | nil => rfl
  | cons b bs => rfl

/-- What one `read` takes of the feed. -/
inductive ReadOf (n : Nat) : List (Item UInt8 Stop) → Got → List (Item UInt8 Stop) → Prop
  | block {block : List UInt8} {f : List (Item UInt8 Stop)} (hne : block ≠ [])
      (hle : block.length ≤ n) : ReadOf n (block.map .val ++ f) (.bytes block) f
  | eof {f : List (Item UInt8 Stop)} : ReadOf n (.stop .eof :: f) (.bytes []) f
  | past : ReadOf n [] (.bytes []) []
  | fail {errno : Int} {f : List (Item UInt8 Stop)} (h : errno ≠ eintr) :
      ReadOf n (.stop (.fail errno) :: f) (.error errno) f
  | intr {f : List (Item UInt8 Stop)} : ReadOf n f (.error eintr) f

theorem read_readOf {n : Nat} (hn : 0 < n) (es : List Event) :
    ReadOf n (feed es) (read n es).1 (feed (read n es).2) := by
  cases es with
  | nil => exact .past
  | cons e es =>
      cases e with
      | eof => exact .eof
      | fail errno =>
          by_cases h : errno = eintr
          · subst h
            exact .intr
          · rw [feed, if_neg h]
            exact .fail h
      | data b bs =>
          have hsplit : feed (.data b bs :: es) =
              ((b :: bs).take n).map .val ++ feed (push ((b :: bs).drop n) es) := by
            rw [feed_push, ← List.append_assoc, ← List.map_append, List.take_append_drop]
            rfl
          rw [hsplit]
          refine .block ?_ (List.length_take_le n _)
          obtain ⟨k, rfl⟩ := Nat.exists_eq_succ_of_ne_zero hn.ne'
          exact List.cons_ne_nil b _

/-! ## A reader and its descriptor -/

namespace RioT

/-- `rio_bufptr` and what is unread behind it lie in `rio_buf`. -/
structure Ok (rp : RioT) : Prop where
  size : rp.rioBuf.length = rioBufsize
  fits : rp.rioBufptr + rp.rioCnt.toNat ≤ rioBufsize

def unread (rp : RioT) : List UInt8 := (rp.rioBuf.drop rp.rioBufptr).take rp.rioCnt.toNat

/-- What is to be read through the buffer. -/
def avail (rp : RioT) (es : List Event) : List (Item UInt8 Stop) :=
  rp.unread.map .val ++ feed es

variable {rp : RioT} {es : List Event}

theorem unread_of_nonpos (h : rp.rioCnt ≤ 0) : rp.unread = [] := by
  rw [unread, Int.toNat_of_nonpos h, List.take_zero]

theorem avail_of_nonpos (h : rp.rioCnt ≤ 0) : rp.avail es = feed es := by
  rw [avail, unread_of_nonpos h]
  rfl

theorem Ok.length_unread (hok : rp.Ok) : rp.unread.length = rp.rioCnt.toNat := by
  have hfits := hok.fits
  rw [unread, List.length_take, List.length_drop, hok.size]
  omega

end RioT

/-- A call on `rp` returns `out` and leaves the reader with `rest` to be read. -/
structure Leaves (rp : RioT) (r : Done) (out : Out) (rest : List (Item UInt8 Stop)) : Prop where
  out_eq : r.out = out
  ok : r.rp.Ok
  same_fd : r.rp.rioFd = rp.rioFd
  avail_eq : r.rp.avail r.es = rest

/-- What a `read` that is not interrupted returns. -/
def Got.out : Got → Out
  | .bytes bs => ⟨bs.length, bs⟩
  | .error _ => ⟨-1, []⟩

section RioRead
variable {rp : RioT} {es : List Event} {n : Nat}

theorem rioRead_of_pos (h : 0 < rp.rioCnt) : rioRead rp es n = copyOut rp es n := by
  rw [rioRead, refill, if_neg (not_le.mpr h)]

theorem rioRead_intr (h : rp.rioCnt ≤ 0) :
    rioRead rp (.fail eintr :: es) n = rioRead { rp with rioCnt := -1 } es n := by
  rw [rioRead, refill, if_pos h]
  rfl

theorem rioRead_fail {errno : Int} (h : rp.rioCnt ≤ 0) (herr : errno ≠ eintr) :
    rioRead rp (.fail errno :: es) n = ⟨⟨-1, []⟩, { rp with rioCnt := -1 }, es⟩ := by
  rw [rioRead, refill, if_pos h]
  simp only [read, if_neg herr]

theorem rioRead_eof (h : rp.rioCnt ≤ 0) :
    rioRead rp (.eof :: es) n = ⟨⟨0, []⟩, { rp with rioCnt := 0 }, es⟩ := by
  rw [rioRead, refill, if_pos h]
  rfl

theorem rioRead_nil (h : rp.rioCnt ≤ 0) :
    rioRead rp [] n = ⟨⟨0, []⟩, { rp with rioCnt := 0 }, []⟩ := by
  rw [rioRead, refill, if_pos h]
  rfl

/-- The reader after a refill with `bs`. -/
def RioT.filled (rp : RioT) (bs : List UInt8) : RioT :=
  { rp with rioCnt := bs.length, rioBufptr := 0, rioBuf := bs ++ rp.rioBuf.drop bs.length }

theorem rioRead_data {b : UInt8} {bs : List UInt8} (h : rp.rioCnt ≤ 0) :
    rioRead rp (.data b bs :: es) n =
      copyOut (rp.filled ((b :: bs).take rioBufsize))
        (push ((b :: bs).drop rioBufsize) es) n := by
  rw [rioRead, refill, if_pos h]
  rfl

namespace RioT

theorem Ok.with_nonpos (hok : rp.Ok) {cnt : Int} (h : cnt ≤ 0) : Ok { rp with rioCnt := cnt } := by
  refine ⟨hok.size, ?_⟩
  have hfits := hok.fits
  show rp.rioBufptr + cnt.toNat ≤ rioBufsize
  rw [Int.toNat_of_nonpos h]
  exact Nat.le_trans (Nat.add_le_add_left (Nat.zero_le _) _) hfits

theorem Ok.filled (hok : rp.Ok) {bs : List UInt8} (h : bs.length ≤ rioBufsize) :
    (rp.filled bs).Ok where
  size := by
    show (bs ++ rp.rioBuf.drop bs.length).length = rioBufsize
    rw [List.length_append, List.length_drop, hok.size, Nat.add_sub_of_le h]
  fits := by
    show 0 + (bs.length : Int).toNat ≤ rioBufsize
    rwa [Nat.zero_add, Int.toNat_natCast]

theorem unread_filled (bs : List UInt8) : (rp.filled bs).unread = bs := by
  show ((bs ++ _).drop 0).take (bs.length : Int).toNat = bs
  rw [List.drop_zero, Int.toNat_natCast, List.take_left]

end RioT

/-- The copy hands out a first part of what is unread. -/
theorem copyOut_leaves (es : List Event) (hok : rp.Ok) (hn : 0 < n) (hpos : 0 < rp.rioCnt) :
    ∃ block rest, block ≠ [] ∧ block.length ≤ n ∧ rp.avail es = block.map .val ++ rest ∧
      Leaves rp (copyOut rp es n) ⟨block.length, block⟩ rest := by
  obtain ⟨k, hk⟩ := Int.eq_ofNat_of_zero_le hpos.le
  have hfits := hok.fits
  have hcnt : (if rp.rioCnt < n then rp.rioCnt.toNat else n) = min k n := by
    rw [hk]
    simp only [Nat.cast_lt, Int.toNat_natCast]
    rcases lt_or_ge k n with hlt | hge
    · rw [if_pos hlt, Nat.min_eq_left hlt.le]
    · rw [if_neg (not_lt.mpr hge), Nat.min_eq_right hge]
  have hkpos : 0 < k := by
    rw [hk] at hpos
    exact Int.natCast_pos.mp hpos
  have hunread : rp.unread.length = k := by rw [hok.length_unread, hk, Int.toNat_natCast]
  have htaken : (rp.rioBuf.drop rp.rioBufptr).take (min k n) = rp.unread.take (min k n) := by
    rw [RioT.unread, hk, Int.toNat_natCast, List.take_take, Nat.min_eq_left (Nat.min_le_left k n)]
  have hlen : (rp.unread.take (min k n)).length = min k n := by
    rw [List.length_take, hunread, Nat.min_eq_left (Nat.min_le_left k n)]
  refine ⟨rp.unread.take (min k n), (rp.unread.drop (min k n)).map .val ++ feed es, ?_, ?_, ?_, ?_⟩
  · intro hnil
    rw [hnil] at hlen
    exact absurd hlen.symm (Nat.lt_min.mpr ⟨hkpos, hn⟩).ne'
  · rw [hlen]
    exact Nat.min_le_right k n
  · rw [← List.append_assoc, ← List.map_append, List.take_append_drop]
    rfl
  · refine ⟨?_, ⟨hok.size, ?_⟩, rfl, ?_⟩
    · rw [copyOut, hcnt, hlen, htaken]
    · rw [copyOut, hcnt]
      simp only
      rw [hk] at hfits ⊢
      simp only [Int.toNat_natCast] at hfits
      omega
    · rw [copyOut, hcnt]
      refine congrArg (fun bs => List.map Item.val bs ++ feed es) ?_
      show (rp.rioBuf.drop (rp.rioBufptr + min k n)).take (rp.rioCnt - (min k n : Nat)).toNat =
        rp.unread.drop (min k n)
      rw [RioT.unread, hk, Int.toNat_natCast, List.drop_take, List.drop_drop]
      congr 1
      omega

/-- `rio_read` is a `read` of what is to be read through the buffer. -/
theorem rioRead_readOf (hok : rp.Ok) (hn : 0 < n) (es : List Event) :
    ∃ got rest, got ≠ .error eintr ∧ ReadOf n (rp.avail es) got rest ∧
      Leaves rp (rioRead rp es n) got.out rest := by
  rcases lt_or_ge 0 rp.rioCnt with hpos | hcnt
  · obtain ⟨block, rest, hne, hle, havail, hleaves⟩ := copyOut_leaves es hok hn hpos
    refine ⟨.bytes block, rest, nofun, ?_, ?_⟩
    · rw [havail]
      exact .block hne hle
    · rw [rioRead_of_pos hpos]
      exact hleaves
  · induction es generalizing rp with
    | nil =>
        rw [rioRead_nil hcnt, RioT.avail_of_nonpos hcnt]
        exact ⟨.bytes [], [], nofun, .past, rfl, hok.with_nonpos (le_refl 0), rfl,
          RioT.avail_of_nonpos (le_refl 0)⟩
    | cons e es ih =>
        cases e with
        | eof =>
            rw [rioRead_eof hcnt, RioT.avail_of_nonpos hcnt]
            exact ⟨.bytes [], feed es, nofun, .eof, rfl, hok.with_nonpos (le_refl 0), rfl,
              RioT.avail_of_nonpos (le_refl 0)⟩
        | fail errno =>
            have hneg : (-1 : Int) ≤ 0 := by decide
            by_cases herr : errno = eintr
            · subst herr
              obtain ⟨got, rest, hgot, hread, hout, hok', hfd, havail⟩ :=
                ih (hok.with_nonpos hneg) hneg
              rw [RioT.avail_of_nonpos hneg] at hread
              rw [rioRead_intr hcnt, RioT.avail_of_nonpos hcnt, feed, if_pos rfl]
              exact ⟨got, rest, hgot, hread, hout, hok', hfd, havail⟩
            · rw [rioRead_fail hcnt herr, RioT.avail_of_nonpos hcnt, feed, if_neg herr]
              refine ⟨.error errno, feed es, ?_, .fail herr, rfl, hok.with_nonpos hneg, rfl,
                RioT.avail_of_nonpos hneg⟩
              rintro ⟨⟩
              exact herr rfl
        | data b bs =>
            have hlen := List.length_take_le rioBufsize (b :: bs)
            have hfill : 0 < (rp.filled ((b :: bs).take rioBufsize)).rioCnt :=
              Int.natCast_pos.mpr (Nat.succ_pos _)
            obtain ⟨block, rest, hne, hle, havail, hleaves⟩ :=
              copyOut_leaves (push ((b :: bs).drop rioBufsize) es) (hok.filled hlen) hn hfill
            refine ⟨.bytes block, rest, nofun, ?_, ?_⟩
            · have hsame : rp.avail (.data b bs :: es) =
                  (rp.filled ((b :: bs).take rioBufsize)).avail
                    (push ((b :: bs).drop rioBufsize) es) := by
                rw [RioT.avail_of_nonpos hcnt, RioT.avail, RioT.unread_filled, feed_push,
                  ← List.append_assoc, ← List.map_append, List.take_append_drop]
                rfl
              rw [hsame, havail]
              exact .block hne hle
            · rw [rioRead_data hcnt]
              exact ⟨hleaves.out_eq, hleaves.ok, hleaves.same_fd, hleaves.avail_eq⟩

end RioRead

/-! ## Reads of `n` bytes -/

section Readn
variable {n nleft : Nat} {f : List (Item UInt8 Stop)} {es : List Event} {usrbuf : List UInt8}

theorem takeN_eof (h : 0 < n) : takeN n (.stop .eof :: f) = ⟨[], some .eof, f⟩ := by
  obtain ⟨k, rfl⟩ := Nat.exists_eq_succ_of_ne_zero h.ne'
  rfl

theorem takeN_past (h : 0 < n) : takeN n [] = ⟨[], some .eof, []⟩ := by
  obtain ⟨k, rfl⟩ := Nat.exists_eq_succ_of_ne_zero h.ne'
  rfl

theorem takeN_fail {errno : Int} (h : 0 < n) :
    takeN n (.stop (.fail errno) :: f) = ⟨[], some (.fail errno), f⟩ := by
  obtain ⟨k, rfl⟩ := Nat.exists_eq_succ_of_ne_zero h.ne'
  rfl

theorem takeN_block {block : List UInt8} (h : block.length ≤ n) :
    takeN n (block.map .val ++ f) = (takeN (n - block.length) f).prepend block :=
  Feed.take_unending_block h

theorem readnOut_none (h : usrbuf.length = n) :
    readnOut ((⟨[], none, f⟩ : Taken UInt8 Stop).prepend usrbuf) = ⟨n, usrbuf⟩ := by
  show (⟨((usrbuf ++ []).length : Nat), usrbuf ++ []⟩ : Out) = ⟨n, usrbuf⟩
  rw [List.append_nil, h]

theorem readnOut_eof (h : usrbuf.length = n) :
    readnOut ((⟨[], some .eof, f⟩ : Taken UInt8 Stop).prepend usrbuf) = ⟨n, usrbuf⟩ :=
  @readnOut_none n f usrbuf h

theorem readnOut_fail {errno : Int} :
    readnOut ((⟨[], some (.fail errno), f⟩ : Taken UInt8 Stop).prepend usrbuf) = ⟨-1, usrbuf⟩ := by
  show (⟨-1, usrbuf ++ []⟩ : Out) = ⟨-1, usrbuf⟩
  rw [List.append_nil]

theorem rioReadnLoop_eq (hlen : usrbuf.length + nleft = n) :
    (rioReadnLoop n es nleft usrbuf).1 =
        readnOut ((takeN nleft (feed es)).prepend usrbuf) ∧
      feed (rioReadnLoop n es nleft usrbuf).2 = (takeN nleft (feed es)).rest := by
  -- The measure of the loop: every `read` takes a byte off `nleft` or an event off `es`.
  induction hm : nleft + es.length using Nat.strong_induction_on
    generalizing nleft es usrbuf with
  | _ m ih =>
    rcases Nat.eq_zero_or_pos nleft with rfl | hpos
    · rw [rioReadnLoop, if_neg (Nat.lt_irrefl 0), takeN, Feed.take_zero, readnOut_none hlen]
      exact ⟨rfl, rfl⟩
    · have hread := read_readOf hpos es
      have hdone : usrbuf.length = n - nleft := Nat.eq_sub_of_add_eq hlen
      rw [rioReadnLoop, if_pos hpos]
      split
      case h_1 errno es' heq =>
        have hless := length_read_lt heq
        rw [heq] at hread
        split
        case isTrue herr =>
          subst herr
          generalize feed es = f at hread
          cases hread with
          | fail herr => exact absurd rfl herr
          | intr => exact ih _ (by omega) hlen rfl
        case isFalse herr =>
          generalize feed es = f at hread
          cases hread with
          | intr => exact absurd rfl herr
          | fail _ =>
              rw [takeN_fail hpos, readnOut_fail]
              exact ⟨rfl, rfl⟩
      case h_2 es' heq =>
        rw [heq] at hread
        generalize feed es = f at hread
        generalize hf' : feed es' = f' at hread
        cases hread with
        | block hne => exact absurd rfl hne
        | eof =>
            rw [takeN_eof hpos, readnOut_eof hdone]
            exact ⟨rfl, rfl⟩
        | past =>
            rw [takeN_past hpos, readnOut_eof hdone]
            exact ⟨rfl, rfl⟩
      case h_3 b bs es' heq =>
        have hle' := length_read_le heq
        rw [heq] at hread
        generalize feed es = f at hread
        cases hread with
        | block hne hle =>
            have hpos' : 0 < (b :: bs).length := Nat.succ_pos _
            have hlen' : (usrbuf ++ b :: bs).length + (nleft - (b :: bs).length) = n := by
              rw [List.length_append]
              omega
            rw [takeN_block hle, Feed.Taken.prepend_prepend, Feed.Taken.prepend_rest]
            exact ih _ (by omega) hlen' rfl

/-- `rio_readn` reads of the feed. -/
theorem rioReadn_eq (es : List Event) (n : Nat) :
    (rioReadn es n).1 = readnOut (takeN n (feed es)) ∧
      feed (rioReadn es n).2 = (takeN n (feed es)).rest :=
  rioReadnLoop_eq (Nat.zero_add n)

variable {rp : RioT}

theorem rioReadnbLoop_leaves (hok : rp.Ok) (hlen : usrbuf.length + nleft = n) :
    Leaves rp (rioReadnbLoop n rp es nleft usrbuf)
      (readnOut ((takeN nleft (rp.avail es)).prepend usrbuf))
      (takeN nleft (rp.avail es)).rest := by
  induction nleft using Nat.strong_induction_on generalizing rp es usrbuf with
  | _ nleft ih =>
    rcases Nat.eq_zero_or_pos nleft with rfl | hpos
    · rw [rioReadnbLoop, if_neg (Nat.lt_irrefl 0), takeN, Feed.take_zero, readnOut_none hlen]
      exact ⟨rfl, hok, rfl, rfl⟩
    · obtain ⟨got, rest, hgot, hread, hout, hok', hfd, hrest⟩ :=
        rioRead_readOf hok hpos es
      have hdone : usrbuf.length = n - nleft := Nat.eq_sub_of_add_eq hlen
      rw [rioReadnbLoop, if_pos hpos]
      simp only [hout]
      generalize rp.avail es = f at hread
      cases hread with
      | intr => exact absurd rfl hgot
      | fail _ =>
          rw [takeN_fail hpos, readnOut_fail]
          exact ⟨rfl, hok', hfd, hrest⟩
      | eof =>
          rw [takeN_eof hpos, readnOut_eof hdone]
          exact ⟨rfl, hok', hfd, hrest⟩
      | past =>
          rw [takeN_past hpos, readnOut_eof hdone]
          exact ⟨rfl, hok', hfd, hrest⟩
      | @block block _ hne hle =>
          have hpos' : 0 < block.length := List.length_pos_iff.mpr hne
          have hlen' : (usrbuf ++ block).length + (nleft - block.length) = n := by
            rw [List.length_append]
            omega
          have hret : (Got.bytes block).out.ret = (block.length : Int) := rfl
          rw [hret, if_neg (by omega), if_neg (by omega), Int.toNat_natCast, takeN_block hle,
            Feed.Taken.prepend_prepend, Feed.Taken.prepend_rest, ← hrest]
          have hloop := @ih (nleft - block.length) (Nat.sub_lt hpos hpos') (rioRead rp es nleft).es
            (usrbuf ++ block) (rioRead rp es nleft).rp hok' hlen'
          exact ⟨hloop.out_eq, hloop.ok, hloop.same_fd.trans hfd, hloop.avail_eq⟩

/-- `rio_readnb` reads what is to be read through the buffer. -/
theorem rioReadnb_leaves (hok : rp.Ok) (es : List Event) (n : Nat) :
    Leaves rp (rioReadnb rp es n) (readnOut (takeN n (rp.avail es)))
      (takeN n (rp.avail es)).rest :=
  rioReadnbLoop_leaves hok (Nat.zero_add n)

end Readn

/-! ## Lines -/

section Readline
variable {maxlen k : Nat} {f : List (Item UInt8 Stop)} {usrbuf : List UInt8} {rp : RioT}

/-- What a read of one byte takes of the feed. -/
inductive ByteOf : List (Item UInt8 Stop) → Got → List (Item UInt8 Stop) → Prop
  | byte {c : UInt8} {f : List (Item UInt8 Stop)} : ByteOf (.val c :: f) (.bytes [c]) f
  | eof {f : List (Item UInt8 Stop)} : ByteOf (.stop .eof :: f) (.bytes []) f
  | past : ByteOf [] (.bytes []) []
  | fail {errno : Int} {f : List (Item UInt8 Stop)} :
      ByteOf (.stop (.fail errno) :: f) (.error errno) f

theorem ReadOf.byteOf {got : Got} {rest : List (Item UInt8 Stop)} (h : ReadOf 1 f got rest)
    (hgot : got ≠ .error eintr) : ByteOf f got rest := by
  cases h with
  | intr => exact absurd rfl hgot
  | fail _ => exact .fail
  | eof => exact .eof
  | past => exact .past
  | @block block _ hne hle =>
      obtain ⟨c, rfl⟩ := List.length_eq_one_iff.mp
        (Nat.le_antisymm hle (List.length_pos_iff.mpr hne))
      exact .byte

theorem readlinebOut_none {line : List UInt8} (hlen : (usrbuf ++ line).length = k) :
    readlinebOut ((⟨line, none, f⟩ : Taken UInt8 Stop).prepend usrbuf) =
      ⟨k, usrbuf ++ line ++ [0]⟩ := by
  show (⟨((usrbuf ++ line).length : Nat), usrbuf ++ line ++ [0]⟩ : Out) = _
  rw [hlen]

theorem readlinebOut_eof (hlen : usrbuf.length = k + 1) :
    readlinebOut ((⟨[], some .eof, f⟩ : Taken UInt8 Stop).prepend usrbuf) =
      ⟨(k + 1 : Nat), usrbuf ++ [0]⟩ := by
  have hne : usrbuf ≠ [] := List.length_pos_iff.mp (hlen ▸ Nat.succ_pos k)
  show (if usrbuf ++ [] = [] then (⟨0, []⟩ : Out)
    else ⟨((usrbuf ++ []).length : Nat), usrbuf ++ [] ++ [0]⟩) = _
  rw [List.append_nil, if_neg hne, hlen]

theorem readlinebOut_fail {errno : Int} :
    readlinebOut ((⟨[], some (.fail errno), f⟩ : Taken UInt8 Stop).prepend usrbuf) =
      ⟨-1, usrbuf⟩ := by
  show (⟨-1, usrbuf ++ []⟩ : Out) = ⟨-1, usrbuf⟩
  rw [List.append_nil]

/-- The end of the file, met when `k` bytes have been read. -/
theorem eof_leaves {r : Done} (hk : usrbuf.length = k) (hok : r.rp.Ok)
    (hfd : r.rp.rioFd = rp.rioFd) (hrest : r.rp.avail r.es = f) :
    Leaves rp
      (if k + 1 = 1 then ⟨⟨0, usrbuf⟩, r.rp, r.es⟩
        else ⟨⟨(k + 1 - 1 : Nat), usrbuf ++ [0]⟩, r.rp, r.es⟩)
      (readlinebOut ((⟨[], some .eof, f⟩ : Taken UInt8 Stop).prepend usrbuf)) f := by
  cases k with
  | zero =>
      obtain rfl := List.length_eq_zero_iff.mp hk
      exact ⟨rfl, hok, hfd, hrest⟩
  | succ k =>
      rw [readlinebOut_eof hk, if_neg (by omega)]
      exact ⟨rfl, hok, hfd, hrest⟩

theorem rioReadlinebLoop_leaves (hok : rp.Ok) (es : List Event) {left : Nat}
    (hk : usrbuf.length = k) (hleft : maxlen - (k + 1) = left) :
    Leaves rp (rioReadlinebLoop maxlen rp es (k + 1) usrbuf)
      (readlinebOut ((Feed.take .eof (· == newline) left (rp.avail es)).prepend usrbuf))
      (Feed.take .eof (· == newline) left (rp.avail es)).rest := by
  induction left generalizing rp es k usrbuf with
  | zero =>
      have hlen : (usrbuf ++ []).length = k := by rwa [List.append_nil]
      rw [rioReadlinebLoop, if_neg (by omega), Feed.take_zero, readlinebOut_none hlen,
        List.append_nil]
      exact ⟨rfl, hok, rfl, rfl⟩
  | succ left ih =>
      obtain ⟨got, rest, hgot, hread, hout, hok', hfd, hrest⟩ :=
        rioRead_readOf hok Nat.one_pos es
      rw [rioReadlinebLoop, if_pos (by omega)]
      simp only [hout]
      generalize rp.avail es = f at hread
      have heof : (0 : Int) ≠ 1 := by decide
      cases hread.byteOf hgot with
      | fail =>
          simp only [Got.out]
          rw [Feed.take, readlinebOut_fail]
          exact ⟨rfl, hok', hfd, hrest⟩
      | eof =>
          simp only [Got.out, List.length_nil, Nat.cast_zero, if_neg heof, if_true]
          exact eof_leaves hk hok' hfd hrest
      | past =>
          simp only [Got.out, List.length_nil, Nat.cast_zero, if_neg heof, if_true]
          exact eof_leaves hk hok' hfd hrest
      | @byte c =>
          simp only [Got.out, List.length_singleton, Nat.cast_one, if_true, List.headD_cons]
          split
          case isTrue hc =>
            have hlast : (c == newline) = true := beq_iff_eq.mpr hc
            have hlen : (usrbuf ++ [c]).length = k + 1 := by rw [List.length_append, hk]; rfl
            rw [@Feed.take_val_last _ _ _ (· == newline) _ _ _ hlast]
            exact ⟨(readlinebOut_none hlen).symm, hok', hfd, hrest⟩
          case isFalse hc =>
            have hmid : (c == newline) = false := beq_eq_false_iff_ne.mpr hc
            have hlen : (usrbuf ++ [c]).length = k + 1 := by rw [List.length_append, hk]; rfl
            rw [@Feed.take_val _ _ _ (· == newline) _ _ _ hmid, Feed.Taken.prepend_prepend,
              Feed.Taken.prepend_rest, ← hrest]
            have hloop := ih hok' (rioRead rp es 1).es hlen (by omega)
            exact ⟨hloop.out_eq, hloop.ok, hloop.same_fd.trans hfd, hloop.avail_eq⟩

/-- `rio_readlineb` reads a line of what is to be read through the buffer. -/
theorem rioReadlineb_leaves (hok : rp.Ok) (es : List Event) (maxlen : Nat) :
    Leaves rp (rioReadlineb rp es maxlen) (readlinebOut (takeLine maxlen (rp.avail es)))
      (takeLine maxlen (rp.avail es)).rest :=
  rioReadlinebLoop_leaves hok es rfl rfl

end Readline

/-! ## A line out of one chunk -/

section Chunk
variable {rp : RioT} {es : List Event} {c : UInt8} {cs line more usrbuf : List UInt8}
  {k maxlen : Nat}

/-- The reader holds these bytes and no others. -/
structure Holds (rp : RioT) (bs : List UInt8) : Prop where
  ok : rp.Ok
  unread : rp.unread = bs
  cnt : rp.rioCnt = bs.length

theorem holds_filled (hok : rp.Ok) {bs : List UInt8} (h : bs.length ≤ rioBufsize) :
    Holds (rp.filled bs) bs :=
  ⟨hok.filled h, RioT.unread_filled bs, rfl⟩

/-- A byte is copied out. -/
theorem Holds.copy (h : Holds rp (c :: cs)) (es : List Event) :
    ∃ rp', rioRead rp es 1 = ⟨⟨1, [c]⟩, rp', es⟩ ∧ Holds rp' cs := by
  obtain ⟨hok, hunread, hcnt⟩ := h
  have hlen : rp.rioCnt = (cs.length + 1 : Nat) := hcnt
  have hone : (if rp.rioCnt < (1 : Nat) then rp.rioCnt.toNat else 1) = 1 :=
    if_neg (by omega)
  rw [RioT.unread, hlen, Int.toNat_natCast] at hunread
  obtain ⟨t, ht⟩ : ∃ t, rp.rioBuf.drop rp.rioBufptr = c :: t := by
    cases hdrop : rp.rioBuf.drop rp.rioBufptr with
    | nil => rw [hdrop, List.take_nil] at hunread; cases hunread
    | cons d t =>
        rw [hdrop, List.take_succ_cons] at hunread
        exact ⟨t, congrArg (· :: t) (List.cons.inj hunread).1⟩
  have htake : t.take cs.length = cs := by
    rw [ht, List.take_succ_cons] at hunread
    exact (List.cons.inj hunread).2
  have hnext : rp.rioBuf.drop (rp.rioBufptr + 1) = t := by
    rw [← List.drop_drop, ht, List.drop_one, List.tail_cons]
  have hrest : rp.rioCnt - 1 = (cs.length : Int) := by omega
  refine ⟨{ rp with rioBufptr := rp.rioBufptr + 1, rioCnt := rp.rioCnt - 1 }, ?_, ?_⟩
  · rw [rioRead_of_pos (by omega), copyOut, hone, ht]
    rfl
  · refine ⟨⟨hok.size, ?_⟩, ?_, hrest⟩
    · have hfits := hok.fits
      show rp.rioBufptr + 1 + (rp.rioCnt - 1).toNat ≤ rioBufsize
      rw [hrest, Int.toNat_natCast]
      rw [hlen, Int.toNat_natCast] at hfits
      omega
    · show (rp.rioBuf.drop (rp.rioBufptr + 1)).take (rp.rioCnt - 1).toNat = cs
      rw [hrest, Int.toNat_natCast, hnext, htake]

/-- The loop finds a line in what the reader holds. -/
theorem Holds.readline (h : Holds rp (line ++ newline :: more)) (es : List Event)
    (hline : newline ∉ line) (hlen : k + 1 + line.length < maxlen) :
    ∃ rp', rioReadlinebLoop maxlen rp es (k + 1) usrbuf =
        ⟨⟨(k + 1 + line.length : Nat), usrbuf ++ line ++ [newline] ++ [0]⟩, rp', es⟩ ∧
      Holds rp' more := by
  induction line generalizing rp k usrbuf with
  | nil =>
      obtain ⟨rp', hread, hmore⟩ := h.copy es
      have hmax : k + 1 < maxlen := hlen
      refine ⟨rp', ?_, hmore⟩
      rw [rioReadlinebLoop, if_pos hmax, hread, List.append_nil]
      rfl
  | cons c line ih =>
      obtain ⟨rp₁, hread, hrest⟩ := h.copy es
      have hc : c ≠ newline := fun heq => hline (heq ▸ List.mem_cons_self)
      have hline' : newline ∉ line := fun hmem => hline (List.mem_cons_of_mem c hmem)
      rw [List.length_cons] at hlen
      obtain ⟨rp', hloop, hmore⟩ := @ih rp₁ (usrbuf ++ [c]) (k + 1) hrest hline' (by omega)
      refine ⟨rp', ?_, hmore⟩
      rw [rioReadlinebLoop, if_pos (by omega), hread]
      have hword : usrbuf ++ [c] ++ line = usrbuf ++ c :: line :=
        (List.append_cons usrbuf c line).symm
      refine (if_neg hc).trans (hloop.trans ?_)
      rw [hword, List.length_cons, ← Nat.add_assoc, Nat.add_right_comm (k + 1)]

/-- A client's first chunk with a line in it: a read by a reader with an empty buffer
takes the chunk, hands out its first line and buffers the rest. -/
theorem readlineb_chunk {bs : List UInt8} {b : UInt8} (hok : rp.Ok) (hcnt : rp.rioCnt = 0)
    (hchunk : b :: bs = line ++ newline :: more) (hsize : (b :: bs).length ≤ rioBufsize)
    (hline : newline ∉ line) (hlen : line.length + 1 < maxlen) :
    ∃ rp', rioReadlineb rp (.data b bs :: es) maxlen =
        ⟨⟨(line.length + 1 : Nat), line ++ [newline] ++ [0]⟩, rp', es⟩ ∧
      Holds rp' more := by
  have hholds := holds_filled hok hsize
  have hpos : 0 < (rp.filled (b :: bs)).rioCnt := Int.natCast_pos.mpr (Nat.succ_pos _)
  have hfirst : rioRead rp (.data b bs :: es) 1 = rioRead (rp.filled (b :: bs)) es 1 := by
    rw [rioRead_data hcnt.le, rioRead_of_pos hpos, List.take_of_length_le hsize,
      List.drop_of_length_le hsize]
    rfl
  have hstart : rioReadlineb rp (.data b bs :: es) maxlen =
      rioReadlinebLoop maxlen (rp.filled (b :: bs)) es 1 [] := by
    rw [rioReadlineb, rioReadlinebLoop, rioReadlinebLoop, hfirst]
    have hmax : 1 < maxlen := by omega
    rw [if_pos hmax, if_pos hmax]
  rw [hchunk] at hholds
  obtain ⟨rp', hloop, hmore⟩ := @Holds.readline _ line more [] 0 maxlen hholds es hline (by omega)
  refine ⟨rp', ?_, hmore⟩
  rw [hstart, hchunk, hloop, Nat.add_right_comm, Nat.zero_add, Nat.add_comm]
  rfl

end Chunk

/-! ## What is buffered behind a line -/

/-- Blocks that `read` brings, one after the other. -/
inductive Fills : List Event → List (List UInt8) → List Event → Prop
  | done {es : List Event} : Fills es [] es
  | intr {es es' : List Event} {blocks : List (List UInt8)} (h : Fills es blocks es') :
      Fills (.fail eintr :: es) blocks es'
  | block {b : UInt8} {bs : List UInt8} {es es' : List Event} {blocks : List (List UInt8)}
      (h : Fills (push ((b :: bs).drop rioBufsize) es) blocks es') :
      Fills (.data b bs :: es) ((b :: bs).take rioBufsize :: blocks) es'

/-- These bytes are the end of the last block that was read. -/
def Behind (es es' : List Event) (lost : List UInt8) : Prop :=
  ∃ blocks block, Fills es (blocks ++ [block]) es' ∧ lost <:+ block ∧ lost.length < block.length

/-- What a call leaves in the buffer: nothing, an end of what was there, or of a block. -/
def Left (rp : RioT) (es : List Event) (r : Done) : Prop :=
  r.rp.unread = [] ∨ r.es = es ∧ r.rp.unread <:+ rp.unread ∨ Behind es r.es r.rp.unread

section Behind
variable {rp : RioT} {es es' es'' : List Event} {blocks blocks' : List (List UInt8)}

theorem Fills.append (h : Fills es blocks es') (h' : Fills es' blocks' es'') :
    Fills es (blocks ++ blocks') es'' := by
  induction h with
  | done => exact h'
  | intr _ ih => exact .intr (ih h')
  | block _ ih => exact .block (ih h')

theorem unread_copyOut (h : 0 < rp.rioCnt) :
    (copyOut rp es 1).out.ret = 1 ∧ (copyOut rp es 1).rp.unread = rp.unread.tail := by
  have hone : (if rp.rioCnt < (1 : Nat) then rp.rioCnt.toNat else 1) = 1 := if_neg (by omega)
  rw [copyOut, hone]
  refine ⟨rfl, ?_⟩
  show (rp.rioBuf.drop (rp.rioBufptr + 1)).take (rp.rioCnt - 1).toNat = rp.unread.tail
  rw [RioT.unread, ← List.drop_one, List.drop_take, List.drop_drop]
  congr 1
  omega

/-- With nothing in the buffer, a byte comes from a block that is read, or none comes. -/
theorem rioRead_refilled (hcnt : rp.rioCnt ≤ 0) :
    (∃ block, block ≠ [] ∧ Fills es [block] (rioRead rp es 1).es ∧
        (rioRead rp es 1).rp.unread = block.tail) ∨
      (rioRead rp es 1).out.ret ≠ 1 ∧ (rioRead rp es 1).rp.unread = [] := by
  have hneg : (-1 : Int) ≤ 0 := by decide
  induction es generalizing rp with
  | nil =>
      rw [rioRead_nil hcnt]
      exact .inr ⟨(by decide : (0 : Int) ≠ 1), RioT.unread_of_nonpos (le_refl 0)⟩
  | cons e es ih =>
      cases e with
      | eof =>
          rw [rioRead_eof hcnt]
          exact .inr ⟨(by decide : (0 : Int) ≠ 1), RioT.unread_of_nonpos (le_refl 0)⟩
      | fail errno =>
          by_cases herr : errno = eintr
          · subst herr
            rw [rioRead_intr hcnt]
            refine (@ih { rp with rioCnt := -1 } hneg).imp_left ?_
            rintro ⟨block, hne, hfill, hunread⟩
            exact ⟨block, hne, .intr hfill, hunread⟩
          · rw [rioRead_fail hcnt herr]
            exact .inr ⟨(by decide : (-1 : Int) ≠ 1), RioT.unread_of_nonpos hneg⟩
      | data b bs =>
          have hfill : 0 < (rp.filled ((b :: bs).take rioBufsize)).rioCnt :=
            Int.natCast_pos.mpr (Nat.succ_pos _)
          rw [rioRead_data hcnt]
          refine .inl ⟨(b :: bs).take rioBufsize, List.cons_ne_nil _ _, .block .done, ?_⟩
          rw [(unread_copyOut hfill).2, RioT.unread_filled]

theorem rioRead_left (rp : RioT) (es : List Event) : Left rp es (rioRead rp es 1) := by
  rcases lt_or_ge 0 rp.rioCnt with hpos | hcnt
  · rw [rioRead_of_pos hpos]
    refine .inr (.inl ⟨rfl, ?_⟩)
    rw [(unread_copyOut hpos).2]
    exact List.tail_suffix _
  · rcases @rioRead_refilled rp es hcnt with ⟨block, hne, hfill, hunread⟩ | ⟨-, hunread⟩
    · refine .inr (.inr ⟨[], block, hfill, ?_, ?_⟩)
      · rw [hunread]
        exact List.tail_suffix block
      · rw [hunread, List.length_tail]
        exact Nat.sub_lt (List.length_pos_iff.mpr hne) Nat.one_pos
    · exact .inl hunread

/-- A byte that was read, and what a call after it leaves. -/
theorem Left.after_byte {r : Done} (hret : (rioRead rp es 1).out.ret = 1)
    (h : Left (rioRead rp es 1).rp (rioRead rp es 1).es r) : Left rp es r := by
  rcases lt_or_ge 0 rp.rioCnt with hpos | hcnt
  · rw [rioRead_of_pos hpos] at h
    refine h.imp_right (Or.imp_left fun hsame => ⟨hsame.1, ?_⟩)
    rw [(unread_copyOut hpos).2] at hsame
    exact hsame.2.trans (List.tail_suffix _)
  · rcases @rioRead_refilled rp es hcnt with ⟨block, hne, hfill, hunread⟩ | ⟨hnone, -⟩
    · rcases h with hnil | ⟨hes, hsuffix⟩ | ⟨blocks, last, hfills, hbehind⟩
      · exact .inl hnil
      · rw [hunread] at hsuffix
        refine .inr (.inr ⟨[], block, hes ▸ hfill, hsuffix.trans (List.tail_suffix _), ?_⟩)
        have hlen := hsuffix.length_le
        have hpos := List.length_pos_iff.mpr hne
        rw [List.length_tail] at hlen
        omega
      · exact .inr (.inr ⟨block :: blocks, last, hfill.append hfills, hbehind⟩)
    · exact absurd hret hnone

theorem rioReadlinebLoop_left {maxlen n left : Nat} {usrbuf : List UInt8}
    (hleft : maxlen - n = left) : Left rp es (rioReadlinebLoop maxlen rp es n usrbuf) := by
  induction left generalizing rp es n usrbuf with
  | zero =>
      rw [rioReadlinebLoop, if_neg (by omega)]
      exact .inr (.inl ⟨rfl, List.suffix_refl _⟩)
  | succ left ih =>
      have hone := rioRead_left rp es
      rw [rioReadlinebLoop, if_pos (by omega)]
      dsimp only
      split
      case isTrue hret =>
        split
        case isTrue _ => exact hone
        case isFalse _ => exact (ih (by omega)).after_byte hret
      case isFalse _ =>
        split
        case isTrue _ =>
          split
          case isTrue _ => exact hone
          case isFalse _ => exact hone
        case isFalse _ => exact hone

/-- A line that is read with nothing in the buffer leaves nothing there, or the end of the
last block that was read for it. -/
theorem rioReadlineb_behind (hcnt : rp.rioCnt ≤ 0) (es : List Event) (maxlen : Nat) :
    (rioReadlineb rp es maxlen).rp.unread = [] ∨
      Behind es (rioReadlineb rp es maxlen).es (rioReadlineb rp es maxlen).rp.unread := by
  rcases @rioReadlinebLoop_left rp es maxlen 1 _ [] rfl with hnil | ⟨-, hsuffix⟩ | hbehind
  · exact .inl hnil
  · rw [RioT.unread_of_nonpos hcnt] at hsuffix
    exact .inl (List.suffix_nil.mp hsuffix)
  · exact .inr hbehind

end Behind

end CKernel.Net.Rio
