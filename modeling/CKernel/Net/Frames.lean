/-
# `CKernel.Net.Frames` — length-prefixed frames over a byte stream, `net.hpp`

`send_frame` writes a length in network order and a body, `recv_frame` reads them
back; both are loops around system calls that may transfer less than asked, or be
interrupted.  A call's fortune is a list of answers of the kernel, used up one for
each system call; when it is used up, the kernel transfers all it can.

    `send_all` writes the bytes, `recv_exact` a field, or says why not
                                              (`sendAll_ok`, `recvExact_full`, `recvExact_short`)
    what was framed is received, and what was not is refused    (`frames_survive`)
-/
import Mathlib

namespace CKernel.Net.Frames

/-! ## The code -/

/-- What a `send` or `recv` comes back with: `EINTR`, another error, or at most `n`
bytes. -/
inductive Answer where
  | eintr
  | error
  | bytes (n : Nat)
  deriving DecidableEq, Repr

/-- `send_all(fd, bytes)`: what was written, and the answers left. -/
def sendAll : List Answer → List UInt8 → Except String (List UInt8 × List Answer)
  | script, [] => .ok ([], script)
  | [], bytes => .ok (bytes, [])
  | .eintr :: script, bytes => sendAll script bytes
  | .error :: _, _ => .error "send"
  | .bytes n :: script, bytes =>
      if min n bytes.length = 0 then .error "send made no progress"
      else do
        let (sent, script) ← sendAll script (bytes.drop n)
        .ok (bytes.take n ++ sent, script)

/-- What `recv_exact` returns and fills, the rest of the stream, and the answers left. -/
structure Received where
  full : Bool
  bytes : List UInt8
  stream : List UInt8
  script : List Answer
  deriving DecidableEq, Repr

/-- `recv_exact(fd, bytes)` for `size` bytes, of which `done` are there.  A `recv`
returns at least one byte unless the stream has ended. -/
def recvExact (size : Nat) (script : List Answer) (stream done : List UInt8) :
    Except String Received :=
  if size ≤ done.length then .ok ⟨true, done, stream, script⟩
  else
    match script with
    | .eintr :: script => recvExact size script stream done
    | .error :: _ => .error "recv"
    | .bytes n :: script =>
        if stream = [] then
          if done = [] then .ok ⟨false, done, stream, script⟩
          else .error "EOF in the middle of a field"
        else
          let n := min (max n 1) (size - done.length)
          recvExact size script (stream.drop n) (done ++ stream.take n)
    | [] =>
        if stream = [] then
          if done = [] then .ok ⟨false, done, stream, []⟩
          else .error "EOF in the middle of a field"
        else
          let n := size - done.length
          recvExact size [] (stream.drop n) (done ++ stream.take n)
termination_by script.length + (size - done.length)
decreasing_by
  · exact Nat.add_lt_add_right (Nat.lt_succ_self _) _
  · rw [List.length_append, List.length_cons]
    omega
  · have hpos := List.length_pos_of_ne_nil ‹¬ stream = []›
    rw [List.length_append, List.length_take]
    omega

/-- `max_frame` -/
def maxFrame : Nat := 1024 * 1024

/-- The bytes of `htonl(n)`. -/
def htonl (n : Nat) : List UInt8 :=
  [UInt8.ofNat (n / 2 ^ 24), UInt8.ofNat (n / 2 ^ 16), UInt8.ofNat (n / 2 ^ 8), UInt8.ofNat n]

/-- `ntohl` of four bytes. -/
def ntohl (bytes : List UInt8) : Nat := bytes.foldl (fun n b => n * 2 ^ 8 + b.toNat) 0

/-- `send_frame(fd, body)` -/
def sendFrame (script : List Answer) (body : List UInt8) :
    Except String (List UInt8 × List Answer) :=
  if body.length > maxFrame then .error "frame too large"
  else do
    let (header, script) ← sendAll script (htonl body.length)
    let (rest, script) ← sendAll script body
    .ok (header ++ rest, script)

/-- `recv_frame(fd, body)`: `none` for `false`, else the body. -/
def recvFrame (script : List Answer) (stream : List UInt8) :
    Except String (Option (List UInt8) × List UInt8 × List Answer) := do
  let header ← recvExact 4 script stream []
  if !header.full then .ok (none, header.stream, header.script)
  else
    let size := ntohl header.bytes
    if size > maxFrame then .error "frame too large"
    else do
      let body ← recvExact size header.script header.stream []
      if !body.full then .error "EOF before body"
      else .ok (some body.bytes, body.stream, body.script)

/-! ## Repeated calls -/

/-- One `send_frame` for each body: what was written. -/
def sendFrames : List Answer → List (List UInt8) → Except String (List UInt8)
  | _, [] => .ok []
  | script, body :: bodies => do
      let (sent, script) ← sendFrame script body
      let rest ← sendFrames script bodies
      .ok (sent ++ rest)

inductive Ending where
  | more
  | eof
  | threw (what : String)
  deriving DecidableEq, Repr

/-- Up to `n` calls of `recv_frame`: the bodies, and how it ended. -/
def recvFrames : Nat → List Answer → List UInt8 → List (List UInt8) × Ending
  | 0, _, _ => ([], .more)
  | n + 1, script, stream =>
      match recvFrame script stream with
      | .error what => ([], .threw what)
      | .ok (none, _, _) => ([], .eof)
      | .ok (some body, stream, script) =>
          let (bodies, ending) := recvFrames n script stream
          (body :: bodies, ending)

/-! ## What the results say -/

/-- A body and its length before it. -/
def frame (body : List UInt8) : List UInt8 := htonl body.length ++ body

/-- Frames, one after the other. -/
def frames (bodies : List (List UInt8)) : List UInt8 := (bodies.map frame).flatten

def Small (bodies : List (List UInt8)) : Prop := ∀ body ∈ bodies, body.length ≤ maxFrame

/-- `EINTR` and short transfers, but no other failure. -/
def Interrupted (script : List Answer) : Prop := Answer.error ∉ script ∧ Answer.bytes 0 ∉ script

/-- No complete frame of at most `max_frame` bytes at the front. -/
def Broken (stream : List UInt8) : Prop :=
  stream ≠ [] ∧ ∀ body rest, body.length ≤ maxFrame → stream ≠ frame body ++ rest

variable {script script' : List Answer} {stream done body rest bytes : List UInt8} {size : Nat}

theorem Interrupted.tail {a : Answer} (h : Interrupted (a :: script)) : Interrupted script :=
  ⟨fun hmem => h.1 (List.mem_cons_of_mem _ hmem), fun hmem => h.2 (List.mem_cons_of_mem _ hmem)⟩

/-! ## The two loops -/

theorem sendAll_ok (h : Interrupted script) (bytes : List UInt8) :
    ∃ script', sendAll script bytes = .ok (bytes, script') ∧ Interrupted script' := by
  induction script generalizing bytes with
  | nil =>
      cases bytes with
      | nil => exact ⟨[], rfl, h⟩
      | cons b bytes => exact ⟨[], rfl, h⟩
  | cons a script ih =>
      cases bytes with
      | nil => exact ⟨_, rfl, h⟩
      | cons b bytes =>
          cases a with
          | eintr => exact ih h.tail (b :: bytes)
          | error => exact absurd List.mem_cons_self h.1
          | bytes n =>
              have hn : n ≠ 0 := by
                rintro rfl
                exact h.2 List.mem_cons_self
              have hmin : min n (b :: bytes).length ≠ 0 := by
                rw [List.length_cons]
                omega
              obtain ⟨script', hsent, hscript'⟩ := ih h.tail ((b :: bytes).drop n)
              refine ⟨script', ?_, hscript'⟩
              rw [sendAll, if_neg hmin, hsent]
              · show Except.ok ((b :: bytes).take n ++ (b :: bytes).drop n, script') = _
                rw [List.take_append_drop]
              · exact List.cons_ne_nil b bytes

/-- The pieces that come in change nothing about what has come and will. -/
theorem append_take_drop (done stream : List UInt8) (n : Nat) :
    done ++ stream.take n ++ stream.drop n = done ++ stream := by
  rw [List.append_assoc, List.take_append_drop]

/-- The field is there: it is read, however it comes in pieces. -/
theorem recvExact_full (size : Nat) (script : List Answer) (stream done : List UInt8)
    (h : Interrupted script) (hdone : done.length ≤ size) (hsize : size ≤ (done ++ stream).length) :
    ∃ script', recvExact size script stream done =
      .ok ⟨true, (done ++ stream).take size, (done ++ stream).drop size, script'⟩ ∧
      Interrupted script' := by
  fun_induction recvExact size script stream done with
  | case1 script stream done hfull =>
      have hlen : done.length = size := Nat.le_antisymm hdone hfull
      refine ⟨script, ?_, h⟩
      rw [← hlen, List.take_left, List.drop_left]
  | case2 stream done hmore script ih => exact ih h.tail hdone hsize
  | case3 stream done hmore script => exact absurd List.mem_cons_self h.1
  | case4 n script hmore => exact absurd hsize hmore
  | case5 done hmore n script hne =>
      rw [List.append_nil] at hsize
      exact absurd hsize hmore
  | case6 stream done hmore k script hstream n ih =>
      have hle : (done ++ stream.take n).length ≤ size := by
        rw [List.length_append, List.length_take]
        omega
      have hres := ih h.tail hle (by rw [append_take_drop]; exact hsize)
      rwa [append_take_drop] at hres
  | case7 hmore => exact absurd hsize hmore
  | case8 done hmore hne =>
      rw [List.append_nil] at hsize
      exact absurd hsize hmore
  | case9 stream done hmore hstream n ih =>
      have hle : (done ++ stream.take n).length ≤ size := by
        rw [List.length_append, List.length_take]
        omega
      have hres := ih h hle (by rw [append_take_drop]; exact hsize)
      rwa [append_take_drop] at hres

/-- The stream ends inside the field. -/
theorem recvExact_short (size : Nat) (script : List Answer) (stream done : List UInt8)
    (h : Interrupted script) (hne : done ++ stream ≠ []) (hsize : (done ++ stream).length < size) :
    recvExact size script stream done = .error "EOF in the middle of a field" := by
  fun_induction recvExact size script stream done with
  | case1 script stream done hfull =>
      rw [List.length_append] at hsize
      omega
  | case2 stream done hmore script ih => exact ih h.tail hne hsize
  | case3 stream done hmore script => exact absurd List.mem_cons_self h.1
  | case4 n script hmore => exact absurd rfl hne
  | case5 done hmore n script hdone => rfl
  | case6 stream done hmore k script hstream n ih =>
      rw [append_take_drop] at ih
      exact ih h.tail hne hsize
  | case7 hmore => exact absurd rfl hne
  | case8 done hmore hdone => rfl
  | case9 stream done hmore hstream n ih =>
      rw [append_take_drop] at ih
      exact ih h hne hsize

/-- The stream ends before the field. -/
theorem recvExact_none (hsize : 0 < size) (h : Interrupted script) :
    ∃ script', recvExact size script [] [] = .ok ⟨false, [], [], script'⟩ := by
  have hmore : ¬ size ≤ ([] : List UInt8).length := Nat.not_le_of_lt hsize
  induction script with
  | nil =>
      rw [recvExact, if_neg hmore]
      exact ⟨[], rfl⟩
  | cons a script ih =>
      cases a with
      | eintr =>
          rw [recvExact, if_neg hmore]
          exact ih h.tail
      | error => exact absurd List.mem_cons_self h.1
      | bytes n =>
          rw [recvExact, if_neg hmore]
          exact ⟨script, rfl⟩

/-! ## Lengths -/

theorem length_htonl (n : Nat) : (htonl n).length = 4 := rfl

theorem ntohl_htonl {n : Nat} (h : n < 2 ^ 32) : ntohl (htonl n) = n := by
  simp only [htonl, ntohl, List.foldl_cons, List.foldl_nil, UInt8.toNat_ofNat']
  omega

theorem htonl_ntohl {header : List UInt8} (h : header.length = 4) :
    htonl (ntohl header) = header := by
  obtain ⟨a, b, c, d, rfl⟩ : ∃ a b c d, header = [a, b, c, d] := by
    cases header with
    | nil => cases h
    | cons a header =>
        obtain ⟨b, c, d, rfl⟩ := List.length_eq_three.mp (Nat.succ.inj h)
        exact ⟨a, b, c, d, rfl⟩
  have ha := a.toNat_lt
  have hb := b.toNat_lt
  have hc := c.toNat_lt
  have hd := d.toNat_lt
  simp only [htonl, ntohl, List.foldl_cons, List.foldl_nil, List.cons.injEq, and_true]
  refine ⟨?_, ?_, ?_, ?_⟩
  all_goals
    refine UInt8.toNat_inj.mp ?_
    rw [UInt8.toNat_ofNat']
    omega

/-! ## One frame -/

theorem sendFrame_ok (h : Interrupted script) (hbody : body.length ≤ maxFrame) :
    ∃ script', sendFrame script body = .ok (frame body, script') ∧ Interrupted script' := by
  obtain ⟨script₁, hheader, h₁⟩ := sendAll_ok h (htonl body.length)
  obtain ⟨script₂, hrest, h₂⟩ := sendAll_ok h₁ body
  refine ⟨script₂, ?_, h₂⟩
  rw [sendFrame, if_neg (Nat.not_lt_of_le hbody), hheader]
  show (sendAll script₁ body).bind _ = _
  rw [hrest]
  rfl

theorem recvFrame_ok (h : Interrupted script) (hbody : body.length ≤ maxFrame)
    (rest : List UInt8) :
    ∃ script', recvFrame script (frame body ++ rest) = .ok (some body, rest, script') ∧
      Interrupted script' := by
  have hlen : body.length < 2 ^ 32 := Nat.lt_of_le_of_lt hbody (by decide)
  obtain ⟨script₁, hheader, h₁⟩ := recvExact_full 4 script (frame body ++ rest) [] h
    (Nat.zero_le _) (by simp [frame, length_htonl])
  obtain ⟨script₂, hrest, h₂⟩ := recvExact_full body.length script₁ (body ++ rest) [] h₁
    (Nat.zero_le _) (by simp)
  refine ⟨script₂, ?_, h₂⟩
  rw [List.nil_append, frame, List.append_assoc, List.take_left' (length_htonl _),
    List.drop_left' (length_htonl _)] at hheader
  rw [List.nil_append, List.take_left, List.drop_left] at hrest
  rw [recvFrame, frame, List.append_assoc, hheader]
  show (if ntohl (htonl body.length) > maxFrame then _ else _) = _
  rw [ntohl_htonl hlen, if_neg (Nat.not_lt_of_le hbody)]
  show (recvExact body.length script₁ (body ++ rest) []).bind _ = _
  rw [hrest]
  rfl

theorem recvFrame_eof (h : Interrupted script) :
    ∃ script', recvFrame script [] = .ok (none, [], script') := by
  obtain ⟨script', hheader⟩ := recvExact_none (show 0 < 4 by decide) h
  refine ⟨script', ?_⟩
  rw [recvFrame, hheader]
  rfl

theorem recvFrame_broken (h : Interrupted script) (hstream : Broken stream) :
    ∃ what, recvFrame script stream = .error what := by
  obtain ⟨hne, hno⟩ := hstream
  by_cases hheader : stream.length < 4
  · -- the stream ends in the header
    rw [recvFrame, recvExact_short 4 script stream [] h hne hheader]
    exact ⟨_, rfl⟩
  · have hle : 4 ≤ stream.length := Nat.le_of_not_lt hheader
    obtain ⟨script₁, hread, h₁⟩ := recvExact_full 4 script stream [] h (Nat.zero_le _) hle
    rw [List.nil_append] at hread
    have hrecv : recvFrame script stream = if ntohl (stream.take 4) > maxFrame then
        .error "frame too large"
      else (recvExact (ntohl (stream.take 4)) script₁ (stream.drop 4) []).bind fun body =>
        if !body.full then .error "EOF before body"
        else .ok (some body.bytes, body.stream, body.script) := by
      rw [recvFrame, hread]
      rfl
    rw [hrecv]
    by_cases hbig : ntohl (stream.take 4) > maxFrame
    · rw [if_pos hbig]
      exact ⟨_, rfl⟩
    · rw [if_neg hbig]
      have hshort : (stream.drop 4).length < ntohl (stream.take 4) := by
        by_contra hlong
        -- otherwise the frame is complete
        have hlen : (stream.take 4).length = 4 := List.length_take_of_le hle
        refine hno ((stream.drop 4).take (ntohl (stream.take 4)))
          ((stream.drop 4).drop (ntohl (stream.take 4))) ?_ ?_
        · rw [List.length_take]
          omega
        · rw [frame, List.length_take_of_le (Nat.le_of_not_lt hlong), htonl_ntohl hlen,
            List.append_assoc, List.take_append_drop, List.take_append_drop]
      cases hrest : stream.drop 4 with
      | nil =>
          rw [hrest] at hshort
          obtain ⟨script₂, hbody⟩ := recvExact_none hshort h₁
          rw [hbody]
          exact ⟨_, rfl⟩
      | cons b rest =>
          rw [hrest] at hshort
          rw [recvExact_short _ script₁ (b :: rest) [] h₁ (List.cons_ne_nil b rest) hshort]
          exact ⟨_, rfl⟩

/-! ## Streams -/

theorem sendFrames_ok {bodies : List (List UInt8)} (hbodies : Small bodies)
    (h : Interrupted script) : sendFrames script bodies = .ok (frames bodies) := by
  induction bodies generalizing script with
  | nil => rfl
  | cons body bodies ih =>
      obtain ⟨script', hsent, h'⟩ := sendFrame_ok h (hbodies body List.mem_cons_self)
      have hrest := ih (fun b hb => hbodies b (List.mem_cons_of_mem _ hb)) h'
      rw [sendFrames, hsent]
      show (sendFrames script' bodies).bind _ = _
      rw [hrest]
      rfl

/-- Whole frames at the front of the stream are received one by one. -/
theorem recvFrames_append {bodies : List (List UInt8)} (hbodies : Small bodies)
    (h : Interrupted script) (rest : List UInt8) :
    ∃ script', Interrupted script' ∧
      ∀ n, recvFrames (bodies.length + n) script (frames bodies ++ rest) =
        (bodies ++ (recvFrames n script' rest).1, (recvFrames n script' rest).2) := by
  induction bodies generalizing script with
  | nil =>
      refine ⟨script, h, fun n => ?_⟩
      rw [List.length_nil, Nat.zero_add]
      rfl
  | cons body bodies ih =>
      obtain ⟨script₁, hbody, h₁⟩ :=
        recvFrame_ok h (hbodies body List.mem_cons_self) (frames bodies ++ rest)
      obtain ⟨script', h', hrest⟩ := ih (fun b hb => hbodies b (List.mem_cons_of_mem _ hb)) h₁
      refine ⟨script', h', fun n => ?_⟩
      have hframes : frames (body :: bodies) ++ rest = frame body ++ (frames bodies ++ rest) := by
        rw [frames, List.map_cons, List.flatten_cons, List.append_assoc]
        rfl
      rw [hframes, List.length_cons, Nat.add_right_comm, recvFrames, hbody]
      simp only
      rw [hrest]
      rfl

/-- Every stream is some complete frames, and then nothing or a broken one. -/
theorem exists_frames (stream : List UInt8) :
    ∃ bodies rest, Small bodies ∧ stream = frames bodies ++ rest ∧ (rest = [] ∨ Broken rest) := by
  induction hlen : stream.length using Nat.strong_induction_on generalizing stream with
  | _ n ih =>
      by_cases hbroken : stream = [] ∨ Broken stream
      · exact ⟨[], stream, fun b hb => absurd hb List.not_mem_nil, rfl, hbroken⟩
      · rw [not_or, Broken, not_and, not_forall] at hbroken
        obtain ⟨body, hbody⟩ := hbroken.2 hbroken.1
        simp only [not_forall, not_not] at hbody
        obtain ⟨tail, hsmall, rfl⟩ := hbody
        have hlt : tail.length < n := by
          rw [← hlen, frame, List.length_append, List.length_append, length_htonl]
          omega
        obtain ⟨bodies, rest, hbodies, rfl, hrest⟩ := ih tail.length hlt tail rfl
        refine ⟨body :: bodies, rest, ?_, ?_, hrest⟩
        · intro b hb
          rcases List.mem_cons.mp hb with rfl | hb
          · exact hsmall
          · exact hbodies b hb
        · rw [frames, frames, List.map_cons, List.flatten_cons, List.append_assoc]

theorem recvFrames_eof (h : Interrupted script) (n : Nat) :
    recvFrames (n + 1) script [] = ([], .eof) := by
  obtain ⟨script', heof⟩ := recvFrame_eof h
  rw [recvFrames, heof]

/-- Bodies of at most `max_frame` bytes that were sent are received, one a call and
in order, and then `false`; from any other stream the complete frames at its front
are received, and then `recv_frame` throws. -/
theorem frames_survive :
    (∀ bodies sendScript recvScript, Small bodies → Interrupted sendScript →
      Interrupted recvScript → ∃ stream, sendFrames sendScript bodies = .ok stream ∧
        ∀ n, bodies.length < n → recvFrames n recvScript stream = (bodies, .eof)) ∧
    (∀ stream recvScript, Interrupted recvScript →
      (∀ bodies, Small bodies → stream ≠ frames bodies) →
        ∃ bodies rest what, Small bodies ∧ stream = frames bodies ++ rest ∧ Broken rest ∧
          ∀ n, bodies.length < n → recvFrames n recvScript stream = (bodies, .threw what)) := by
  constructor
  · intro bodies sendScript recvScript hbodies hsend hrecv
    refine ⟨frames bodies, sendFrames_ok hbodies hsend, fun n hn => ?_⟩
    obtain ⟨k, rfl⟩ := Nat.exists_eq_add_of_lt hn
    obtain ⟨script', h', hres⟩ := recvFrames_append hbodies hrecv []
    have hend := hres (k + 1)
    rw [recvFrames_eof h', List.append_nil, List.append_nil] at hend
    exact hend
  · intro stream recvScript hrecv hother
    obtain ⟨bodies, rest, hbodies, rfl, hrest⟩ := exists_frames stream
    have hbroken : Broken rest := by
      refine hrest.resolve_left ?_
      rintro rfl
      exact hother bodies hbodies (List.append_nil _)
    obtain ⟨script', h', hres⟩ := recvFrames_append hbodies hrecv rest
    obtain ⟨what, hthrow⟩ := recvFrame_broken h' hbroken
    refine ⟨bodies, rest, what, hbodies, rfl, hbroken, fun n hn => ?_⟩
    obtain ⟨k, rfl⟩ := Nat.exists_eq_add_of_lt hn
    have hend := hres (k + 1)
    rw [recvFrames, hthrow, List.append_nil] at hend
    exact hend

/-- An empty frame and one of two bytes, sent and received in small pieces. -/
theorem frames_survive_pieces :
    ∃ stream, sendFrames [.bytes 1, .eintr, .bytes 3] [[], [7, 8]] = .ok stream ∧
      ∀ n, 2 < n → recvFrames n [.eintr, .bytes 1, .bytes 2] stream = ([[], [7, 8]], .eof) :=
  frames_survive.1 [[], [7, 8]] [.bytes 1, .eintr, .bytes 3] [.eintr, .bytes 1, .bytes 2]
    (by simp [Small, maxFrame]) (by simp [Interrupted]) (by simp [Interrupted])

end CKernel.Net.Frames
