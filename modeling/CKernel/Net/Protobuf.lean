/-
# `CKernel.Net.Protobuf` — the two `recv_protobuf` of `base_protobuf`

A frame is four bytes of total length, header included, two of type, and the body.
Server and client each read one, and only the server checks the total.  A `read`
returns exactly the bytes asked for, or fails at the end of the stream.

    where the server takes the total, they do the same           (`recv_agree`)
    where it does not, the client makes room for far too much     (`resized_unbounded`)
    so they agree and stay in bounds exactly on checked totals    (`receivers_agree_iff`)
-/
import CKernel.Lib.Wire

namespace CKernel.Net.Protobuf

open Wire

/-! ## The code -/

/-- `HEADER_SIZE` -/
def headerSize : Nat := 6

/-- `MAX_BODY` -/
def maxBody : UInt32 := 4 * 1024 * 1024

/-- What a call returns, leaves in `body_out` and `msg_type_out` and in the stream, and
the size it gave `body_out`, if any. -/
structure Received where
  ok : Bool
  bodyOut : List UInt8
  msgTypeOut : UInt16
  sock : List UInt8
  resized : Option Nat
  deriving DecidableEq, Repr

/-- `body_out.resize(n)` -/
def resize (bodyOut : List UInt8) (n : Nat) : List UInt8 :=
  bodyOut.take n ++ List.replicate (n - bodyOut.length) 0

/-- `read(sock, buffer(buf), ec)`: `ec`, the buffer, and the stream left. -/
def read (sock buf : List UInt8) : Bool × List UInt8 × List UInt8 :=
  (sock.length < buf.length, sock.take buf.length ++ buf.drop sock.length, sock.drop buf.length)

/-- `recv_protobuf` of `echo_server.cpp` -/
def recvProtobufServer (host : Endian) (sock bodyOut : List UInt8) (msgTypeOut : UInt16) :
    Received :=
  let (ec, header, sock) := read sock (List.replicate headerSize 0)
  if ec then ⟨false, bodyOut, msgTypeOut, sock, none⟩
  else
    let netTotal := UInt32.ofNat (host.load (header.take 4))
    let total := host.ntohl netTotal
    let netType := UInt16.ofNat (host.load ((header.drop 4).take 2))
    let msgTypeOut := host.ntohs netType
    if total.toNat < headerSize ∨ total > maxBody then ⟨false, bodyOut, msgTypeOut, sock, none⟩
    else
      let bodyLen := total - UInt32.ofNat headerSize
      let bodyOut := resize bodyOut bodyLen.toNat
      if bodyLen > 0 then
        let (ec, bodyOut, sock) := read sock bodyOut
        if ec then ⟨false, bodyOut, msgTypeOut, sock, some bodyLen.toNat⟩
        else ⟨true, bodyOut, msgTypeOut, sock, some bodyLen.toNat⟩
      else ⟨true, bodyOut, msgTypeOut, sock, some bodyLen.toNat⟩

/-- `recv_protobuf` of `echo_client.cpp` -/
def recvProtobufClient (host : Endian) (sock bodyOut : List UInt8) (msgTypeOut : UInt16) :
    Received :=
  let (ec, header, sock) := read sock (List.replicate headerSize 0)
  if ec then ⟨false, bodyOut, msgTypeOut, sock, none⟩
  else
    let total := host.ntohl (UInt32.ofNat (host.load (header.take 4)))
    let msgTypeOut := host.ntohs (UInt16.ofNat (host.load ((header.drop 4).take 2)))
    -- the total is not checked, and a small one wraps
    let bodyLen := total - UInt32.ofNat headerSize
    let bodyOut := resize bodyOut bodyLen.toNat
    if bodyLen > 0 then
      let (ec, bodyOut, sock) := read sock bodyOut
      ⟨!ec, bodyOut, msgTypeOut, sock, some bodyLen.toNat⟩
    else ⟨true, bodyOut, msgTypeOut, sock, some bodyLen.toNat⟩

/-! ## What the results say -/

/-- Both fail, or both succeed with the same type and body, and have read the same bytes. -/
def SameOutcome (a b : Received) : Prop :=
  a.ok = b.ok ∧
    (a.ok = true → a.msgTypeOut = b.msgTypeOut ∧ a.bodyOut = b.bodyOut ∧ a.sock = b.sock)

/-- `body_out` was not resized beyond what a frame may hold. -/
def Bounded (a : Received) : Prop := ∀ n ∈ a.resized, n ≤ maxBody.toNat - headerSize

/-- The total of the frame at the front. -/
def total (sock : List UInt8) : Nat := Endian.big.load (sock.take 4)

/-- What the server takes: a stream that ends in the header, or a total in bounds. -/
def Checked (sock : List UInt8) : Prop :=
  sock.length < headerSize ∨ headerSize ≤ total sock ∧ total sock ≤ maxBody.toNat

variable {host : Endian} {sock bodyOut : List UInt8} {msgTypeOut : UInt16}

/-! ## Reading -/

theorem read_full {buf : List UInt8} (h : buf.length ≤ sock.length) :
    read sock buf = (false, sock.take buf.length, sock.drop buf.length) := by
  rw [read, List.drop_of_length_le h, List.append_nil, decide_eq_false (Nat.not_lt_of_le h)]

theorem length_resize (bodyOut : List UInt8) (n : Nat) : (resize bodyOut n).length = n := by
  rw [resize, List.length_append, List.length_take, List.length_replicate]
  omega

/-! ## Headers -/

/-- The type of the frame at the front. -/
def msgType (sock : List UInt8) : UInt16 := UInt16.ofNat (Endian.big.load ((sock.drop 4).take 2))

/-- The length of its body, as it is computed from the total. -/
def bodyLen (sock : List UInt8) : UInt32 := UInt32.ofNat (total sock) - UInt32.ofNat headerSize

theorem length_first (h : headerSize ≤ sock.length) : (sock.take 4).length = 4 := by
  rw [headerSize] at h
  exact List.length_take_of_le (by omega)

theorem total_lt (h : headerSize ≤ sock.length) : total sock < 2 ^ 32 :=
  Endian.big.load_lt (length_first h)

theorem header_total (host : Endian) (h : headerSize ≤ sock.length) :
    host.ntohl (UInt32.ofNat (host.load ((sock.take headerSize).take 4))) =
      UInt32.ofNat (total sock) := by
  have htake : (sock.take headerSize).take 4 = sock.take 4 := List.take_take ..
  rw [htake, host.ntohl_load (length_first h), total]

theorem header_type (host : Endian) (h : headerSize ≤ sock.length) :
    host.ntohs (UInt16.ofNat (host.load (((sock.take headerSize).drop 4).take 2))) =
      msgType sock := by
  have htake : ((sock.take headerSize).drop 4).take 2 = (sock.drop 4).take 2 := by
    rw [List.drop_take, List.take_take]
    rfl
  have hlen : ((sock.drop 4).take 2).length = 2 := by
    rw [headerSize] at h
    rw [List.length_take, List.length_drop]
    omega
  rw [htake, host.ntohs_load hlen, msgType]

theorem toNat_bodyLen (h : headerSize ≤ sock.length) (hle : headerSize ≤ total sock) :
    (bodyLen sock).toNat = total sock - headerSize := by
  have htotal : (UInt32.ofNat (total sock)).toNat = total sock :=
    UInt32.toNat_ofNat_of_lt' (total_lt h)
  have hsub : UInt32.ofNat headerSize ≤ UInt32.ofNat (total sock) := by
    rw [UInt32.le_iff_toNat_le, htotal]
    exact hle
  rw [bodyLen, UInt32.toNat_sub_of_le _ _ hsub, htotal]
  rfl

/-- A total below the header's own size wraps. -/
theorem toNat_bodyLen_small (h : headerSize ≤ sock.length) (hlt : total sock < headerSize) :
    (bodyLen sock).toNat = 2 ^ 32 + total sock - headerSize := by
  have htotal : (UInt32.ofNat (total sock)).toNat = total sock :=
    UInt32.toNat_ofNat_of_lt' (total_lt h)
  have hsize : (UInt32.ofNat headerSize).toNat = headerSize := rfl
  rw [bodyLen, UInt32.toNat_sub, htotal, hsize]
  rw [headerSize] at hlt ⊢
  omega

/-! ## One frame -/

/-- What both do once they have a length. -/
def recvBody (sock bodyOut : List UInt8) (msgTypeOut : UInt16) (bodyLen : UInt32) : Received :=
  if bodyLen > 0 then
    let (ec, bodyOut, sock) := read sock (resize bodyOut bodyLen.toNat)
    ⟨!ec, bodyOut, msgTypeOut, sock, some bodyLen.toNat⟩
  else ⟨true, resize bodyOut bodyLen.toNat, msgTypeOut, sock, some bodyLen.toNat⟩

theorem resized_recvBody {len : UInt32} :
    (recvBody sock bodyOut msgTypeOut len).resized = some len.toNat := by
  rw [recvBody]
  split <;> rfl

/-- What is read does not depend on what `body_out` held. -/
theorem recvBody_same (sock b b' : List UInt8) (t : UInt16) (len : UInt32) :
    SameOutcome (recvBody sock b t len) (recvBody sock b' t len) := by
  rw [recvBody, recvBody]
  split
  case isTrue hpos =>
    simp only [read, length_resize]
    refine ⟨rfl, fun hok => ⟨rfl, ?_, rfl⟩⟩
    have hfull : len.toNat ≤ sock.length := by simpa using hok
    have hdrop (c : List UInt8) : (resize c len.toNat).drop sock.length = [] :=
      List.drop_of_length_le (by rw [length_resize]; exact hfull)
    simp only [hdrop]
  case isFalse hzero =>
    have hnil : len.toNat = 0 := by
      rw [gt_iff_lt, UInt32.lt_iff_toNat_lt] at hzero
      exact Nat.eq_zero_of_not_pos hzero
    refine ⟨rfl, fun _ => ⟨rfl, ?_, rfl⟩⟩
    simp [resize, hnil]

theorem read_header (h : headerSize ≤ sock.length) :
    read sock (List.replicate headerSize 0) =
      (false, sock.take headerSize, sock.drop headerSize) := by
  have hread := @read_full sock (List.replicate headerSize 0)
  rw [List.length_replicate] at hread
  exact hread h

theorem recvProtobufServer_short (h : sock.length < headerSize) :
    (recvProtobufServer host sock bodyOut msgTypeOut).ok = false ∧
      (recvProtobufServer host sock bodyOut msgTypeOut).resized = none := by
  simp [recvProtobufServer, read, h]

theorem recvProtobufClient_short (h : sock.length < headerSize) :
    (recvProtobufClient host sock bodyOut msgTypeOut).ok = false ∧
      (recvProtobufClient host sock bodyOut msgTypeOut).resized = none := by
  simp [recvProtobufClient, read, h]

theorem recvProtobufServer_checked (h : headerSize ≤ sock.length) (hlow : headerSize ≤ total sock)
    (hhigh : total sock ≤ maxBody.toNat) :
    recvProtobufServer host sock bodyOut msgTypeOut =
      recvBody (sock.drop headerSize) bodyOut (msgType sock) (bodyLen sock) := by
  have htotal : (UInt32.ofNat (total sock)).toNat = total sock :=
    UInt32.toNat_ofNat_of_lt' (total_lt h)
  have hchecked : ¬ ((UInt32.ofNat (total sock)).toNat < headerSize ∨
      UInt32.ofNat (total sock) > maxBody) := by
    rw [gt_iff_lt, UInt32.lt_iff_toNat_lt, htotal]
    omega
  simp only [recvProtobufServer, read_header h, header_total host h, header_type host h]
  rw [if_neg Bool.false_ne_true, if_neg hchecked, recvBody, bodyLen]
  split
  · split
    next hec => simp [hec]
    next hec => simp [hec]
  · rfl

theorem recvProtobufClient_long (h : headerSize ≤ sock.length) :
    recvProtobufClient host sock bodyOut msgTypeOut =
      recvBody (sock.drop headerSize) bodyOut (msgType sock) (bodyLen sock) := by
  simp only [recvProtobufClient, read_header h, header_total host h, header_type host h]
  rw [if_neg Bool.false_ne_true, recvBody, bodyLen]

/-- Where the server takes the total. -/
theorem recv_agree (server client : Endian) (b b' : List UInt8) (t t' : UInt16)
    (h : Checked sock) :
    SameOutcome (recvProtobufServer server sock b t) (recvProtobufClient client sock b' t') ∧
      Bounded (recvProtobufServer server sock b t) ∧
      Bounded (recvProtobufClient client sock b' t') := by
  by_cases hlen : headerSize ≤ sock.length
  · obtain ⟨hlow, hhigh⟩ := h.resolve_left (Nat.not_lt_of_le hlen)
    have hbound : (bodyLen sock).toNat ≤ maxBody.toNat - headerSize := by
      rw [toNat_bodyLen hlen hlow]
      exact Nat.sub_le_sub_right hhigh headerSize
    rw [recvProtobufServer_checked hlen hlow hhigh, recvProtobufClient_long hlen]
    refine ⟨recvBody_same .., ?_, ?_⟩
    all_goals
      intro n hn
      rw [resized_recvBody, Option.mem_some_iff] at hn
      exact hn ▸ hbound
  · have hshort : sock.length < headerSize := Nat.lt_of_not_le hlen
    obtain ⟨hserver, hserver'⟩ := @recvProtobufServer_short server sock b t hshort
    obtain ⟨hclient, hclient'⟩ := @recvProtobufClient_short client sock b' t' hshort
    refine ⟨⟨hserver.trans hclient.symm, fun hok => ?_⟩, ?_, ?_⟩
    · rw [hserver] at hok
      cases hok
    · intro n hn
      rw [hserver'] at hn
      cases hn
    · intro n hn
      rw [hclient'] at hn
      cases hn

/-- Where it does not, the client resizes all the same. -/
theorem resized_unbounded (h : ¬ Checked sock) :
    ¬ Bounded (recvProtobufClient host sock bodyOut msgTypeOut) := by
  rw [Checked, not_or, Nat.not_lt] at h
  obtain ⟨hlen, hout⟩ := h
  have hlt := total_lt hlen
  have hmax : maxBody.toNat = 4194304 := rfl
  intro hbounded
  have hle : (bodyLen sock).toNat ≤ maxBody.toNat - headerSize := by
    refine hbounded _ ?_
    rw [recvProtobufClient_long hlen, resized_recvBody]
    exact rfl
  by_cases hlow : headerSize ≤ total sock
  · rw [toNat_bodyLen hlen hlow] at hle
    rw [headerSize] at *
    omega
  · rw [toNat_bodyLen_small hlen (Nat.lt_of_not_le hlow)] at hle
    rw [headerSize] at *
    omega

/-- On a stream, client and server have the same outcome and neither makes more room
than a frame may need, if and only if the server's check lets the total pass. -/
theorem receivers_agree_iff (server client : Endian) (sock b b' : List UInt8) (t t' : UInt16) :
    (SameOutcome (recvProtobufServer server sock b t) (recvProtobufClient client sock b' t') ∧
      Bounded (recvProtobufServer server sock b t) ∧
      Bounded (recvProtobufClient client sock b' t')) ↔ Checked sock := by
  constructor
  · intro ⟨_, _, hclient⟩
    by_contra h
    exact resized_unbounded h hclient
  · intro h
    exact recv_agree server client b b' t t' h

/-- A header with a total of zero. -/
theorem receivers_disagree :
    ¬ ∀ sock : List UInt8,
      SameOutcome (recvProtobufServer .little sock [] 0) (recvProtobufClient .little sock [] 0) ∧
        Bounded (recvProtobufServer .little sock [] 0) ∧
        Bounded (recvProtobufClient .little sock [] 0) := by
  intro hall
  obtain ⟨-, -, hclient⟩ := hall [0, 0, 0, 0, 0, 3]
  have hle : 4294967290 ≤ maxBody.toNat - headerSize := hclient 4294967290 (by decide +kernel)
  exact absurd hle (by decide)

end CKernel.Net.Protobuf
