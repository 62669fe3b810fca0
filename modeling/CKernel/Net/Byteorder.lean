/-
# `CKernel.Net.Byteorder` — the TLV echo of `base_byteorder`

A message goes out as two bytes of type and four of length, in network order, and the
body.  The client has `send_message` and `recv_message`, the server reads a header and
a body and echoes them; each converts on its own host.  `read`, `async_read` and `write`
transfer exactly the bytes of their buffers, which outlive them.  So does `async_write`,
but the buffers it is given by `echo_back` are two locals and the body: what the socket
takes at the call (`Sending.atCall`) is the header, what it takes after `echo_back` has
returned is whatever the dead frame holds by then (`Sending.after`).

    a message comes back behind its echoed header              (`readHeader_frame`)
    the server echoes the messages behind such headers         (`serve_messages`)
    and of any other stream a prefix, with headers as they
    came where the socket takes them at the call               (`serve_prefix`)
    it echoes the bytes it received, and the client reads back
    what it sent, whatever the dead frames hold, just if every
    header is taken at the call                                (`echo_exact_iff`)
-/
import CKernel.Lib.Wire

namespace CKernel.Net.Byteorder

open Wire

/-! ## The code -/

/-- `HEADER_SIZE` -/
def headerSize : Nat := 6

/-- `MAX_BODY` -/
def maxBody : UInt32 := 4 * 1024 * 1024

structure Message where
  type : UInt16
  body : List UInt8
  deriving DecidableEq, Repr

/-- `send_message(sock, type, body)`: the three buffers, one after the other. -/
def sendMessage (host : Endian) (type : UInt16) (body : List UInt8) : List UInt8 :=
  let netType := host.htons type
  let netLen := host.htonl (UInt32.ofNat body.length)
  host.store 2 netType.toNat ++ host.store 4 netLen.toNat ++ body

/-- `recv_message(sock)`; `none` when `read` throws at the end of the stream. -/
def recvMessage (host : Endian) (sock : List (List UInt8)) :
    Option (Message × List (List UInt8)) := do
  let (header, sock) ← readExact headerSize sock
  let netType := UInt16.ofNat (host.load (header.take 2))
  let type := host.ntohs netType
  let netLen := UInt32.ofNat (host.load ((header.drop 2).take 4))
  let bodyLen := host.ntohl netLen
  if bodyLen > 0 then
    let (body, sock) ← readExact bodyLen.toNat sock
    some (⟨type, body⟩, sock)
  else some (⟨type, []⟩, sock)

/-- What the frame of `echo_back` holds where `net_type` and `net_len` were, once it
has returned. -/
structure DeadFrame where
  bytes : List UInt8
  length_bytes : bytes.length = headerSize

/-- How an `async_write` goes: how many bytes the socket takes at the call, and what
the others find in the frame of `echo_back`. -/
structure Sending where
  atCall : Nat
  after : DeadFrame

/-- What `echo_back(type, body)` has written when its `async_write` completes.  The
body is kept by the handler; `&net_type` and `&net_len` are of the frame. -/
def echoBack (host : Endian) (type : UInt16) (body : List UInt8) (sending : Sending) :
    List UInt8 :=
  let netType := host.htons type
  let netLen := host.htonl (UInt32.ofNat body.length)
  let locals := host.store 2 netType.toNat ++ host.store 4 netLen.toNat
  locals.take sending.atCall ++ sending.after.bytes.drop sending.atCall ++ body

/-- `read_body(type, len)` up to the end of the write of `echo_back`. -/
def readBody (host : Endian) (type : UInt16) (len : UInt32) (sending : Sending)
    (sock : List (List UInt8)) : Option (List UInt8 × List (List UInt8)) :=
  if len = 0 then some (echoBack host type [] sending, sock)
  else do
    let (body, sock) ← readExact len.toNat sock
    some (echoBack host type body sending, sock)

/-- `read_header()` up to the end of the write of `echo_back`; `none` when the session
ends, at the end of the stream or with a body too large. -/
def readHeader (host : Endian) (sending : Sending) (sock : List (List UInt8)) :
    Option (List UInt8 × List (List UInt8)) := do
  let (headerBuf, sock) ← readExact headerSize sock
  let netType := UInt16.ofNat (host.load (headerBuf.take 2))
  let hostType := host.ntohs netType
  let netLen := UInt32.ofNat (host.load ((headerBuf.drop 2).take 4))
  let hostLen := host.ntohl netLen
  if hostLen > maxBody then none else readBody host hostType hostLen sending sock

/-! ## What the results say -/

/-- The header both ends lay out. -/
def header (type : UInt16) (len : UInt32) : List UInt8 :=
  Endian.big.store 2 type.toNat ++ Endian.big.store 4 len.toNat

def frame (m : Message) : List UInt8 := header m.type (UInt32.ofNat m.body.length) ++ m.body

def sendMessages (host : Endian) (msgs : List Message) : List UInt8 :=
  (msgs.map fun m => sendMessage host m.type m.body).flatten

/-- `n` calls of `recv_message`. -/
def recvMessages (host : Endian) :
    Nat → List (List UInt8) → Option (List Message × List (List UInt8))
  | 0, sock => some ([], sock)
  | n + 1, sock => do
      let (m, sock) ← recvMessage host sock
      let (msgs, sock) ← recvMessages host n sock
      some (m :: msgs, sock)

/-- The header of an echo: what was taken at the call, then the dead frame. -/
def echoed (header : List UInt8) (sending : Sending) : List UInt8 :=
  header.take sending.atCall ++ sending.after.bytes.drop sending.atCall

/-- The echo of a message. -/
def echoFrame (m : Message) (sending : Sending) : List UInt8 :=
  echoed (header m.type (UInt32.ofNat m.body.length)) sending ++ m.body

/-- The echoes of messages, the `i`-th one as `sending i` goes. -/
def echoes : (Nat → Sending) → List Message → List UInt8
  | _, [] => []
  | sending, m :: msgs => echoFrame m (sending 0) ++ echoes (fun i => sending (i + 1)) msgs

variable {host : Endian} {sock rest : List (List UInt8)} {bytes body tail : List UInt8}
  {type : UInt16} {len : UInt32} {m : Message} {sending : Sending}

/-! ## Headers -/

@[simp] theorem length_header : (header type len).length = headerSize := by
  rw [header, List.length_append, Endian.length_store, Endian.length_store]
  rfl

theorem sendMessage_eq : sendMessage host type body = frame ⟨type, body⟩ := by
  rw [sendMessage, Endian.store_htons, Endian.store_htonl]
  rfl

theorem echoBack_eq : echoBack host type body sending = echoFrame ⟨type, body⟩ sending := by
  rw [echoBack, Endian.store_htons, Endian.store_htonl]
  rfl

theorem length_echoed (h : bytes.length = headerSize) :
    (echoed bytes sending).length = headerSize := by
  rw [echoed, List.length_append, List.length_take, List.length_drop, h,
    sending.after.length_bytes]
  omega

theorem length_echoFrame : (echoFrame m sending).length = headerSize + m.body.length := by
  rw [echoFrame, List.length_append, length_echoed length_header]

/-- A header taken whole at the call is the header. -/
theorem echoed_eq (h : bytes.length = headerSize) (hcall : headerSize ≤ sending.atCall) :
    echoed bytes sending = bytes := by
  have hall : bytes.take sending.atCall = bytes :=
    List.take_of_length_le (by rw [h]; exact hcall)
  have hnone : sending.after.bytes.drop sending.atCall = [] :=
    List.drop_eq_nil_of_le (by rw [sending.after.length_bytes]; exact hcall)
  rw [echoed, hall, hnone, List.append_nil]

/-- A dead frame in which no byte is as it was. -/
def DeadFrame.changed (bytes : List UInt8) (h : bytes.length = headerSize) : DeadFrame :=
  ⟨bytes.map (· + 1), by rw [List.length_map, h]⟩

/-- Such a frame is seen as soon as a byte of the header is taken after the call. -/
theorem atCall_of_echoed (h : bytes.length = headerSize) {n : Nat}
    (hsame : echoed bytes ⟨n, .changed bytes h⟩ = bytes) : headerSize ≤ n := by
  by_contra hless
  have hn : n < bytes.length := by
    rw [h]
    exact Nat.lt_of_not_le hless
  have hdrop : (bytes.map (· + 1)).drop n = bytes.drop n := by
    have happend : bytes.take n ++ (bytes.map (· + 1)).drop n = bytes.take n ++ bytes.drop n := by
      rw [List.take_append_drop]
      exact hsame
    exact List.append_cancel_left happend
  have hbyte : bytes[n] + 1 = bytes[n] := by
    have hget := congrArg (·[0]?) hdrop
    simp only [List.getElem?_drop, Nat.add_zero, List.getElem?_map,
      List.getElem?_eq_getElem hn, Option.map_some] at hget
    exact Option.some.inj hget
  have hone : (1 : UInt8) = 0 := UInt8.add_eq_left.mp hbyte
  cases hone

/-- What both ends make of six bytes. -/
def typeOf (bytes : List UInt8) : UInt16 := UInt16.ofNat (Endian.big.load (bytes.take 2))

def lenOf (bytes : List UInt8) : UInt32 := UInt32.ofNat (Endian.big.load ((bytes.drop 2).take 4))

theorem parse_header (host : Endian) (h : bytes.length = headerSize) :
    host.ntohs (UInt16.ofNat (host.load (bytes.take 2))) = typeOf bytes ∧
      host.ntohl (UInt32.ofNat (host.load ((bytes.drop 2).take 4))) = lenOf bytes := by
  refine ⟨host.ntohs_load ?_, host.ntohl_load ?_⟩
  · rw [List.length_take, h]
    rfl
  · rw [List.length_take, List.length_drop, h]
    rfl

theorem header_of_bytes (h : bytes.length = headerSize) :
    header (typeOf bytes) (lenOf bytes) = bytes := by
  have htype : (bytes.take 2).length = 2 := by
    rw [List.length_take, h]
    rfl
  have hlen : ((bytes.drop 2).take 4).length = 4 := by
    rw [List.length_take, List.length_drop, h]
    rfl
  have hall : (bytes.drop 2).take 4 = bytes.drop 2 := by
    refine List.take_of_length_le ?_
    rw [List.length_drop, h]
    exact Nat.le_refl 4
  rw [header, typeOf, lenOf, Endian.store_load16 _ htype, Endian.store_load32 _ hlen, hall,
    List.take_append_drop]

theorem typeOf_header : typeOf (header type len) = type := by
  have htake : (header type len).take 2 = Endian.big.store 2 type.toNat :=
    List.take_left' (Endian.length_store _)
  rw [typeOf, htake, Endian.load_store16]

theorem lenOf_header : lenOf (header type len) = len := by
  have hdrop : (header type len).drop 2 = Endian.big.store 4 len.toNat :=
    List.drop_left' (Endian.length_store _)
  rw [lenOf, hdrop, List.take_of_length_le (Nat.le_of_eq (Endian.length_store _)),
    Endian.load_store32]

/-! ## The server -/

theorem readBody_some (h : readBody host type len sending sock = some (bytes, rest)) :
    rest.flatten.length ≤ sock.flatten.length := by
  rw [readBody] at h
  split at h
  case isTrue hzero =>
    cases h
    exact Nat.le_refl _
  case isFalse hpos =>
    obtain ⟨⟨body, sock'⟩, hread, h⟩ := Option.bind_eq_some_iff.mp h
    cases h
    obtain ⟨-, hsplit⟩ := readExact_some hread
    rw [hsplit, List.length_append]
    exact Nat.le_add_left _ _

/-- A turn of the server takes a header at least. -/
theorem readHeader_some (h : readHeader host sending sock = some (bytes, rest)) :
    headerSize + rest.flatten.length ≤ sock.flatten.length := by
  obtain ⟨⟨headerBuf, sock'⟩, hread, h⟩ := Option.bind_eq_some_iff.mp h
  obtain ⟨hlen, hsplit⟩ := readExact_some hread
  have hbody : rest.flatten.length ≤ sock'.flatten.length := by
    dsimp only at h
    split at h
    · cases h
    · exact readBody_some h
  rw [hsplit, List.length_append, hlen]
  exact Nat.add_le_add_left hbody _

/-- A body is echoed as it came, behind its header where that is taken at the call. -/
theorem readBody_echoes (hcall : headerSize ≤ sending.atCall)
    (h : readBody host type len sending sock = some (bytes, rest)) :
    header type len ++ sock.flatten = bytes ++ rest.flatten := by
  rw [readBody] at h
  split at h
  case isTrue hzero =>
    cases h
    rw [echoBack_eq, echoFrame, echoed_eq length_header hcall, hzero, List.append_nil]
    rfl
  case isFalse hpos =>
    obtain ⟨⟨body, sock'⟩, hread, h⟩ := Option.bind_eq_some_iff.mp h
    cases h
    obtain ⟨hlen, hsplit⟩ := readExact_some hread
    rw [echoBack_eq, echoFrame, echoed_eq length_header hcall, hlen, UInt32.ofNat_toNat,
      hsplit, List.append_assoc]

theorem readHeader_echoes (hcall : headerSize ≤ sending.atCall)
    (h : readHeader host sending sock = some (bytes, rest)) :
    sock.flatten = bytes ++ rest.flatten := by
  obtain ⟨⟨headerBuf, sock'⟩, hread, h⟩ := Option.bind_eq_some_iff.mp h
  obtain ⟨hlen, hsplit⟩ := readExact_some hread
  obtain ⟨htype, hbody⟩ := parse_header host hlen
  simp only [htype, hbody] at h
  split at h
  · cases h
  · have hechoed := readBody_echoes hcall h
    rw [header_of_bytes hlen] at hechoed
    exact hsplit.trans hechoed

/-- A session: all it writes until it ends. -/
def serve (host : Endian) (sending : Nat → Sending) (sock : List (List UInt8)) : List UInt8 :=
  match _h : readHeader host (sending 0) sock with
  | none => []
  | some (echo, rest) => echo ++ serve host (fun i => sending (i + 1)) rest
termination_by sock.flatten.length
decreasing_by
  have hless := readHeader_some ‹_›
  rw [headerSize] at hless
  omega

theorem serve_none {sending : Nat → Sending} (h : readHeader host (sending 0) sock = none) :
    serve host sending sock = [] := by
  rw [serve]
  split
  · rfl
  · rename_i h'
    rw [h] at h'
    cases h'

theorem serve_some {sending : Nat → Sending}
    (h : readHeader host (sending 0) sock = some (bytes, rest)) :
    serve host sending sock = bytes ++ serve host (fun i => sending (i + 1)) rest := by
  rw [serve]
  split
  · rename_i h'
    rw [h] at h'
    cases h'
  · rename_i h'
    rw [h] at h'
    cases h'
    rfl

/-- Nothing is echoed where nothing came. -/
theorem serve_nil {sending : Nat → Sending} (h : sock.flatten = []) :
    serve host sending sock = [] := by
  refine serve_none ?_
  cases hturn : readHeader host (sending 0) sock with
  | none => rfl
  | some turn =>
      have hless := readHeader_some hturn
      rw [h, headerSize, List.length_nil] at hless
      omega

/-- Whatever arrives, headers that are taken at the call go back with their bodies as
they came, up to where the session ends. -/
theorem serve_prefix (host : Endian) (sending : Nat → Sending) (sock : List (List UInt8))
    (hcall : ∀ i, headerSize ≤ (sending i).atCall) :
    serve host sending sock <+: sock.flatten := by
  induction hn : sock.flatten.length using Nat.strong_induction_on generalizing sock sending with
  | _ n ih =>
      cases hturn : readHeader host (sending 0) sock with
      | none =>
          rw [serve_none hturn]
          exact List.nil_prefix
      | some turn =>
          obtain ⟨bytes, rest⟩ := turn
          have hless := readHeader_some hturn
          rw [hn, headerSize] at hless
          have hrest : serve host (fun i => sending (i + 1)) rest <+: rest.flatten :=
            ih _ (by omega) _ _ (fun i => hcall (i + 1)) rfl
          rw [serve_some hturn, readHeader_echoes (hcall 0) hturn]
          exact List.prefix_append_right_inj bytes |>.mpr hrest

/-! ## Messages -/

theorem length_ofNat (h : m.body.length ≤ maxBody.toNat) :
    (UInt32.ofNat m.body.length).toNat = m.body.length :=
  UInt32.toNat_ofNat_of_lt' (Nat.lt_of_le_of_lt h maxBody.toNat_lt)

/-- The header of a message that comes next. -/
theorem readExact_header (hsock : sock.flatten = frame m ++ tail) :
    ∃ sock', readExact headerSize sock =
        some (header m.type (UInt32.ofNat m.body.length), sock') ∧
      sock'.flatten = m.body ++ tail := by
  have hlen : headerSize ≤ sock.flatten.length := by simp [hsock, frame]
  obtain ⟨sock', hread, hrest⟩ := readExact_eq hlen
  rw [hsock, frame, List.append_assoc, List.take_left' length_header] at hread
  rw [hsock, frame, List.append_assoc, List.drop_left' length_header] at hrest
  exact ⟨sock', hread, hrest⟩

/-- Its body. -/
theorem readExact_body (hsock : sock.flatten = body ++ tail) :
    ∃ sock', readExact body.length sock = some (body, sock') ∧ sock'.flatten = tail := by
  have hlen : body.length ≤ sock.flatten.length := by simp [hsock]
  obtain ⟨sock', hread, hrest⟩ := readExact_eq hlen
  rw [hsock, List.take_left] at hread
  rw [hsock, List.drop_left] at hrest
  exact ⟨sock', hread, hrest⟩

/-- What both ends make of it. -/
theorem parse_message (host : Endian) (m : Message) :
    let bytes := header m.type (UInt32.ofNat m.body.length)
    host.ntohs (UInt16.ofNat (host.load (bytes.take 2))) = m.type ∧
      host.ntohl (UInt32.ofNat (host.load ((bytes.drop 2).take 4))) =
        UInt32.ofNat m.body.length := by
  obtain ⟨htype, hlen⟩ := parse_header host
    (@length_header m.type (UInt32.ofNat m.body.length))
  rw [typeOf_header] at htype
  rw [lenOf_header] at hlen
  exact ⟨htype, hlen⟩

theorem readHeader_frame (host : Endian) (sending : Sending) (hm : m.body.length ≤ maxBody.toNat)
    (hsock : sock.flatten = frame m ++ tail) :
    ∃ rest, readHeader host sending sock = some (echoFrame m sending, rest) ∧
      rest.flatten = tail := by
  obtain ⟨sock', hread, hsock'⟩ := readExact_header hsock
  obtain ⟨htype, hlen⟩ := parse_message host m
  have hsmall : ¬ UInt32.ofNat m.body.length > maxBody := by
    rw [gt_iff_lt, UInt32.lt_iff_toNat_lt, length_ofNat hm]
    exact Nat.not_lt_of_le hm
  have hturn : readHeader host sending sock =
      readBody host m.type (UInt32.ofNat m.body.length) sending sock' := by
    rw [readHeader, hread, Option.bind_eq_bind, Option.bind_some]
    simp only [htype, hlen]
    rw [if_neg hsmall]
  rw [hturn, readBody]
  split
  case isTrue hzero =>
    have hnil : m.body = [] := by
      rw [← List.length_eq_zero_iff, ← length_ofNat hm, hzero]
      rfl
    refine ⟨sock', ?_, ?_⟩
    · rw [echoBack_eq, ← hnil]
    · rw [hsock', hnil, List.nil_append]
  case isFalse hpos =>
    obtain ⟨rest, hbody, hrest⟩ := readExact_body hsock'
    refine ⟨rest, ?_, hrest⟩
    rw [length_ofNat hm, hbody, ← @echoBack_eq host]
    rfl

theorem recvMessage_frame (host : Endian) (hm : m.body.length ≤ maxBody.toNat)
    (hsock : sock.flatten = frame m ++ tail) :
    ∃ rest, recvMessage host sock = some (m, rest) ∧ rest.flatten = tail := by
  obtain ⟨sock', hread, hsock'⟩ := readExact_header hsock
  obtain ⟨htype, hlen⟩ := parse_message host m
  rw [recvMessage, hread, Option.bind_eq_bind, Option.bind_some]
  simp only [htype, hlen]
  split
  case isTrue hpos =>
    obtain ⟨rest, hbody, hrest⟩ := readExact_body hsock'
    refine ⟨rest, ?_, hrest⟩
    rw [length_ofNat hm, hbody, Option.bind_some]
  case isFalse hzero =>
    have hnil : m.body = [] := by
      rw [gt_iff_lt, UInt32.lt_iff_toNat_lt, length_ofNat hm] at hzero
      exact List.length_eq_zero_iff.mp (Nat.eq_zero_of_not_pos hzero)
    refine ⟨sock', ?_, ?_⟩
    · rw [← hnil]
    · rw [hsock', hnil, List.nil_append]

/-! ## Sequences of messages -/

theorem sendMessages_cons (m : Message) (msgs : List Message) :
    sendMessages host (m :: msgs) = frame m ++ sendMessages host msgs := by
  rw [sendMessages, List.map_cons, List.flatten_cons, sendMessage_eq]
  rfl

theorem serve_messages (client server : Endian) {msgs : List Message}
    (hmsgs : ∀ m ∈ msgs, m.body.length ≤ maxBody.toNat) (sending : Nat → Sending)
    (hsock : sock.flatten = sendMessages client msgs) :
    serve server sending sock = echoes sending msgs := by
  induction msgs generalizing sock sending with
  | nil => exact serve_nil hsock
  | cons m msgs ih =>
      rw [sendMessages_cons] at hsock
      obtain ⟨rest, hturn, hrest⟩ :=
        readHeader_frame server (sending 0) (hmsgs m List.mem_cons_self) hsock
      rw [serve_some hturn,
        ih (fun m hm => hmsgs m (List.mem_cons_of_mem _ hm)) (fun i => sending (i + 1)) hrest]
      rfl

/-- Headers taken at the call are echoed as they came. -/
theorem echoes_eq {msgs : List Message} {sending : Nat → Sending}
    (hcall : ∀ i < msgs.length, headerSize ≤ (sending i).atCall) :
    echoes sending msgs = sendMessages host msgs := by
  induction msgs generalizing sending with
  | nil => rfl
  | cons m msgs ih =>
      have hhead : echoFrame m (sending 0) = frame m := by
        rw [echoFrame, echoed_eq length_header (hcall 0 (Nat.succ_pos _))]
        rfl
      have htail : echoes (fun i => sending (i + 1)) msgs = sendMessages host msgs :=
        ih fun i hi => hcall (i + 1) (Nat.succ_lt_succ hi)
      rw [echoes, sendMessages_cons, hhead, htail]

/-- The dead frames that no header survives in. -/
def changedFrames : List Message → Nat → DeadFrame
  | [], _ => .changed (header 0 0) length_header
  | m :: _, 0 => .changed (header m.type (UInt32.ofNat m.body.length)) length_header
  | _ :: msgs, i + 1 => changedFrames msgs i

/-- With these frames the echoes are right only where every header is taken at the call. -/
theorem atCall_of_echoes {msgs : List Message} {atCall : Nat → Nat}
    (h : echoes (fun i => ⟨atCall i, changedFrames msgs i⟩) msgs = sendMessages host msgs) :
    ∀ i < msgs.length, headerSize ≤ atCall i := by
  induction msgs generalizing atCall with
  | nil => exact fun i hi => absurd hi (Nat.not_lt_zero i)
  | cons m msgs ih =>
      rw [echoes, sendMessages_cons] at h
      have hlen : (echoFrame m ⟨atCall 0, changedFrames (m :: msgs) 0⟩).length =
          (frame m).length := by
        rw [length_echoFrame, frame, List.length_append, length_header]
      obtain ⟨hhead, htail⟩ := List.append_inj h hlen
      intro i hi
      cases i with
      | zero => exact atCall_of_echoed length_header (List.append_cancel_right hhead)
      | succ i => exact ih htail i (Nat.lt_of_succ_lt_succ hi)

theorem recvMessages_all (client : Endian) {msgs : List Message}
    (hmsgs : ∀ m ∈ msgs, m.body.length ≤ maxBody.toNat)
    (hsock : sock.flatten = sendMessages client msgs) :
    ∃ rest, recvMessages client msgs.length sock = some (msgs, rest) ∧ rest.flatten = [] := by
  induction msgs generalizing sock with
  | nil => exact ⟨sock, rfl, hsock⟩
  | cons m msgs ih =>
      rw [sendMessages_cons] at hsock
      obtain ⟨sock', hrecv, hsock'⟩ :=
        recvMessage_frame client (hmsgs m List.mem_cons_self) hsock
      obtain ⟨rest, hrecvs, hrest⟩ := ih (fun m hm => hmsgs m (List.mem_cons_of_mem _ hm)) hsock'
      refine ⟨rest, ?_, hrest⟩
      rw [List.length_cons, recvMessages, hrecv]
      show (recvMessages client msgs.length sock').bind _ = _
      rw [hrecvs]
      rfl

/-- The echo of a session is exact: the server sends the bytes it received, and the
client reads back the messages, and no more. -/
def Exact (client server : Endian) (sending : Nat → Sending) (msgs : List Message)
    (toServer : List (List UInt8)) : Prop :=
  serve server sending toServer = toServer.flatten ∧
    ∀ toClient : List (List UInt8), toClient.flatten = serve server sending toServer →
      ∃ rest, recvMessages client msgs.length toClient = some (msgs, rest) ∧
        rest.flatten = []

/-- Messages with bodies of at most `MAX_BODY` bytes, on whatever hosts and however the
streams come in pieces: the echo is exact, whatever the frames of `echo_back` hold after
it, just if the socket takes the header of every echo at the call. -/
theorem echo_exact_iff (client server : Endian) (msgs : List Message)
    (hmsgs : ∀ m ∈ msgs, m.body.length ≤ maxBody.toNat) (toServer : List (List UInt8))
    (hsent : toServer.flatten = sendMessages client msgs) (atCall : Nat → Nat) :
    (∀ after : Nat → DeadFrame,
        Exact client server (fun i => ⟨atCall i, after i⟩) msgs toServer) ↔
      ∀ i < msgs.length, headerSize ≤ atCall i := by
  constructor
  · intro hexact
    obtain ⟨hserved, -⟩ := hexact (changedFrames msgs)
    rw [serve_messages client server hmsgs _ hsent, hsent] at hserved
    exact atCall_of_echoes hserved
  · intro hcall after
    have hechoed : serve server (fun i => ⟨atCall i, after i⟩) toServer =
        sendMessages client msgs := by
      rw [serve_messages client server hmsgs _ hsent]
      exact echoes_eq hcall
    refine ⟨hechoed.trans hsent.symm, fun toClient hclient => ?_⟩
    exact recvMessages_all client hmsgs (hclient.trans hechoed)

def twoMessages : List Message := [⟨1, []⟩, ⟨0xFFFE, [7, 8, 9]⟩]

/-- What a little-endian client sends for them, a byte at a time. -/
def bytewise : List (List UInt8) := (sendMessages .little twoMessages).map ([·])

theorem echo_exact_iff_bytewise :
    bytewise.flatten = [0, 1, 0, 0, 0, 0, 255, 254, 0, 0, 0, 3, 7, 8, 9] ∧
      ∀ atCall : Nat → Nat,
        ((∀ after : Nat → DeadFrame,
            Exact .little .big (fun i => ⟨atCall i, after i⟩) twoMessages bytewise) ↔
          ∀ i < twoMessages.length, headerSize ≤ atCall i) :=
  ⟨by decide, echo_exact_iff .little .big twoMessages (by decide) bytewise (by decide)⟩

/-- The first echo is taken at the call; the second finds the send buffer full, and its
header is read when the frame of `echo_back` has been used again. -/
def sendBufferFull : Nat → Sending
  | 0 => ⟨headerSize, ⟨[0, 0, 0, 0, 0, 0], rfl⟩⟩
  | _ + 1 => ⟨0, ⟨[0, 0, 0, 0, 0, 0], rfl⟩⟩

/-- The second message comes back with type 0, and without its body. -/
theorem echo_dead_frame :
    serve .little sendBufferFull bytewise =
        [0, 1, 0, 0, 0, 0, 0, 0, 0, 0, 0, 0, 7, 8, 9] ∧
      recvMessages .little 2 [serve .little sendBufferFull bytewise] =
        some ([⟨1, []⟩, ⟨0, []⟩], [[7, 8, 9]]) ∧
      ¬ Exact .little .little sendBufferFull twoMessages bytewise := by
  have hserved : serve .little sendBufferFull bytewise =
      [0, 1, 0, 0, 0, 0, 0, 0, 0, 0, 0, 0, 7, 8, 9] := by
    have htwo := @serve_messages bytewise .little .little twoMessages (by decide)
      sendBufferFull (by decide)
    rw [htwo]
    decide
  refine ⟨hserved, ?_, fun hexact => ?_⟩
  · rw [hserved]
    decide
  · have hsame := hexact.1
    rw [hserved] at hsame
    exact absurd hsame (by decide)

end CKernel.Net.Byteorder
