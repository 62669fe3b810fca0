/-
# `CKernel.Net.SessionReads` — reads beside writes in `base_asio/session.cpp`

A session that writes as in `CKernel.Net.Session` receives `RECVSIZE` bytes at a time:
`read_from_socket` starts an `async_read_some`, and `read_call_back` starts another for
what is missing, with the callback of the writes.

    a wrong callback changes the send queue or finds it empty   (`writeCallback_changes`)
    so a read leaves the writes alone exactly when it is the
      first of what is received                                 (`completeRead_iff`)
    and a run does, when all its reads are                      (`reads_undisturbed_iff`)
    two reads of one byte, nothing to send                      (`second_read_faults`)
-/
import CKernel.Net.Session

namespace CKernel.Net

open Run

/-! ## The code -/

/-- `RECVSIZE` -/
def recvSize : Nat := 1024

/-- `msg_node` of a receiver, without the bytes. -/
structure RecvNode where
  totalLen : Nat
  curLen : Nat
  deriving DecidableEq, Repr

inductive ReadCallback where
  | readCallBack
  | writeCallback
  deriving DecidableEq, Repr

/-- An `async_read_some` under way, for as many bytes as `offered`. -/
structure PendingRead where
  offered : Nat
  callback : ReadCallback
  deriving DecidableEq, Repr

/-- A session that reads and writes.  `received` counts the bytes delivered since
`_recv_node` was allocated, by whatever read. -/
structure Duplex where
  writes : Session
  recvNode : Option RecvNode
  recvPending : Bool
  reads : List PendingRead
  received : Nat
  deriving DecidableEq, Repr

namespace Duplex

def make : Duplex := ⟨.make, none, false, [], 0⟩

def asyncReadSome (s : Duplex) (offered : Nat) (callback : ReadCallback) : Duplex :=
  { s with reads := s.reads ++ [⟨offered, callback⟩] }

/-- `read_from_socket()` -/
def readFromSocket (s : Duplex) : Duplex :=
  if s.recvPending then s
  else
    let s := { s with recvNode := some ⟨recvSize, 0⟩, received := 0 }.asyncReadSome recvSize
      .readCallBack
    { s with recvPending := true }

/-- `read_call_back(ec, bytes_transferred)`; `none` is a null `_recv_node`. -/
def readCallBack (s : Duplex) (bytesTransferred : Nat) : Option Duplex := do
  let node ← s.recvNode
  let node := { node with curLen := node.curLen + bytesTransferred }
  if node.curLen < node.totalLen then
    some ({ s with recvNode := some node }.asyncReadSome (node.totalLen - node.curLen)
      .writeCallback)
  else some { s with recvPending := false, recvNode := none }

/-- The `i`-th read under way delivers `n` bytes and its handler runs. -/
def completeRead (s : Duplex) (i n : Nat) : Option Duplex := do
  let r ← s.reads[i]?
  let s := { s with reads := s.reads.eraseIdx i, received := s.received + n }
  match r.callback with
  | .readCallBack => s.readCallBack n
  | .writeCallback => do
      let writes ← s.writes.writeCallback n
      some { s with writes := writes }

inductive Op where
  | readFromSocket
  | write2socket (buf : List UInt8)
  | completeWrite (i n : Nat)
  | completeRead (i n : Nat)
  deriving DecidableEq, Repr

def step (s : Duplex) : Op → Option Duplex
  | .readFromSocket => some s.readFromSocket
  | .write2socket buf => (s.writes.write2socket buf).map fun writes => { s with writes := writes }
  | .completeWrite i n => (s.writes.complete i n).map fun writes => { s with writes := writes }
  | .completeRead i n => s.completeRead i n

/-- What completions without an error deliver: of a read between one byte and what was
offered, of a write as in `Session.Contract`. -/
def Contract (s : Duplex) : Op → Prop
  | .completeWrite i n => s.writes.Contract (.complete i n)
  | .completeRead i n => ∃ r ∈ s.reads[i]?, 0 < n ∧ n ≤ r.offered
  | _ => True

/-! ## What the results say -/

/-- `_recv_pending` is reset. -/
def Reset (s s' : Duplex) : Prop := s.recvPending = true ∧ s'.recvPending = false

/-- A read completes without touching the queue that is to be sent, the progress of its
nodes or `_send_pending`, and ends the receiving exactly with the last of `RECVSIZE`
bytes; nothing else ends it. -/
def Undisturbed (s : Duplex) : Op → Prop
  | .completeRead i n => ∃ s', s.completeRead i n = some s' ∧
      s'.writes.sendQueue = s.writes.sendQueue ∧ s'.writes.sendPending = s.writes.sendPending ∧
      (Reset s s' ↔ s.received + n = recvSize)
  | op => ∀ s', step s op = some s' → ¬ Reset s s'

/-- A read that completes is the first since `read_from_socket`. -/
def FirstRead (s : Duplex) : Op → Prop
  | .completeRead _ _ => s.received = 0
  | _ => True

/-- The reading side: at rest, before the first byte, or after some. -/
inductive Receiving : Option RecvNode → Bool → List PendingRead → Nat → Prop
  | idle (received : Nat) : Receiving none false [] received
  | first : Receiving (some ⟨recvSize, 0⟩) true [⟨recvSize, .readCallBack⟩] 0
  | partly (received : Nat) (hpos : 0 < received) (hlt : received < recvSize) :
      Receiving (some ⟨recvSize, received⟩) true [⟨recvSize - received, .writeCallback⟩] received

def Inv (s : Duplex) : Prop := Receiving s.recvNode s.recvPending s.reads s.received

variable {s s' : Duplex} {i n : Nat}

theorem make_inv : Inv make := .idle 0

/-! ## One completion -/

/-- The send queue is another one after `write_callback`, if that returns. -/
theorem writeCallback_changes {w w' : Session} (hn : 0 < n) (h : w.writeCallback n = some w') :
    w'.sendQueue ≠ w.sendQueue := by
  rw [Session.writeCallback] at h
  cases hqueue : w.sendQueue with
  | nil =>
      rw [hqueue] at h
      cases h
  | cons node rest =>
      rw [hqueue] at h
      simp only at h
      split at h
      · cases h
        intro hsame
        have hlen := congrArg MsgNode.curLen (List.cons.inj hsame).1
        have hlen' : node.curLen + n = node.curLen := hlen
        omega
      · cases h
        have hrest : (Session.sendNext { w with sendQueue := rest }).sendQueue = rest := by
          rw [Session.sendNext]
          cases rest with
          | nil => rfl
          | cons => rfl
        rw [hrest]
        exact fun hsame => List.cons_ne_self node rest hsame.symm

/-- The first read of what is received. -/
theorem completeRead_first (writes : Session) (hn : 0 < n) (hle : n ≤ recvSize) :
    ∃ s', completeRead ⟨writes, some ⟨recvSize, 0⟩, true, [⟨recvSize, .readCallBack⟩], 0⟩ 0 n =
        some s' ∧ s'.writes = writes ∧ Inv s' ∧ (s'.recvPending = false ↔ n = recvSize) := by
  by_cases hlt : n < recvSize
  · refine ⟨⟨writes, some ⟨recvSize, n⟩, true, [⟨recvSize - n, .writeCallback⟩], n⟩, ?_, rfl,
      .partly n hn hlt, ?_⟩
    · simp [completeRead, readCallBack, asyncReadSome, hlt]
    · exact iff_of_false Bool.noConfusion (Nat.ne_of_lt hlt)
  · refine ⟨⟨writes, none, false, [], n⟩, ?_, rfl, .idle n, ?_⟩
    · simp [completeRead, readCallBack, hlt]
    · exact iff_of_true rfl (Nat.le_antisymm hle (Nat.le_of_not_lt hlt))

/-- A read that is not the first runs the callback of the writes. -/
theorem completeRead_partly {writes : Session} {node : Option RecvNode} {received offered : Nat}
    (hn : 0 < n) :
    ¬ Undisturbed ⟨writes, node, true, [⟨offered, .writeCallback⟩], received⟩
      (.completeRead 0 n) := by
  rintro ⟨s', hs', hqueue, -⟩
  obtain ⟨w, hw, hs'⟩ := Option.bind_eq_some_iff.mp hs'
  cases hs'
  exact writeCallback_changes hn hw hqueue

theorem completeRead_iff (h : Inv s) (hcontract : Contract s (.completeRead i n)) :
    (Undisturbed s (.completeRead i n) ↔ s.received = 0) ∧
      (s.received = 0 → ∀ s', s.completeRead i n = some s' → Inv s') := by
  obtain ⟨r, hr, hn, hle⟩ := hcontract
  obtain ⟨writes, recvNode, recvPending, reads, received⟩ := s
  change Receiving recvNode recvPending reads received at h
  cases h with
  | idle => cases hr
  | first =>
      cases i with
      | succ i => cases hr
      | zero =>
          obtain rfl : ⟨recvSize, .readCallBack⟩ = r := Option.some.inj hr
          obtain ⟨s', hs', hwrites, hinv, hreset⟩ := completeRead_first writes hn hle
          refine ⟨iff_of_true ⟨s', hs', ?_, ?_, ?_⟩ rfl, fun _ s₁ hs₁ => ?_⟩
          · rw [hwrites]
          · rw [hwrites]
          · rw [Nat.zero_add]
            exact (and_iff_right rfl).trans hreset
          · rw [hs'] at hs₁
            exact Option.some.inj hs₁ ▸ hinv
  | partly received hpos hlt =>
      cases i with
      | succ i => cases hr
      | zero =>
          refine ⟨iff_of_false (completeRead_partly hn) (Nat.ne_of_gt hpos), fun hzero => ?_⟩
          exact absurd hzero (Nat.ne_of_gt hpos)

/-! ## The other operations -/

theorem readFromSocket_inv (h : Inv s) : Inv s.readFromSocket := by
  obtain ⟨writes, recvNode, recvPending, reads, received⟩ := s
  change Receiving recvNode recvPending reads received at h
  cases h with
  | idle => exact .first
  | first => exact .first
  | partly received hpos hlt => exact .partly received hpos hlt

theorem step_keeps {op : Op} (h : Inv s) (hcontract : Contract s op) (hfirst : FirstRead s op)
    (hs : step s op = some s') : Inv s' := by
  cases op with
  | readFromSocket =>
      cases hs
      exact readFromSocket_inv h
  | write2socket buf =>
      obtain ⟨writes, -, rfl⟩ := Option.map_eq_some_iff.mp hs
      exact h
  | completeWrite i n =>
      obtain ⟨writes, -, rfl⟩ := Option.map_eq_some_iff.mp hs
      exact h
  | completeRead i n => exact (completeRead_iff h hcontract).2 hfirst s' hs

theorem step_undisturbed_iff (op : Op) (h : Inv s) (hcontract : Contract s op) :
    Undisturbed s op ↔ FirstRead s op := by
  cases op with
  | readFromSocket =>
      refine iff_of_true (fun s' hs' hreset => ?_) trivial
      cases hs'
      obtain ⟨hpending, hreset⟩ := hreset
      rw [readFromSocket, if_pos hpending, hpending] at hreset
      cases hreset
  | write2socket buf =>
      refine iff_of_true (fun s' hs' hreset => ?_) trivial
      obtain ⟨writes, -, rfl⟩ := Option.map_eq_some_iff.mp hs'
      exact Bool.noConfusion (hreset.1.symm.trans hreset.2)
  | completeWrite i n =>
      refine iff_of_true (fun s' hs' hreset => ?_) trivial
      obtain ⟨writes, -, rfl⟩ := Option.map_eq_some_iff.mp hs'
      exact Bool.noConfusion (hreset.1.symm.trans hreset.2)
  | completeRead i n => exact (completeRead_iff h hcontract).1

/-! ## Runs -/

/-- In every run whose completions deliver what is documented, the reads leave the writes
alone and end with `RECVSIZE` bytes if and only if every read that completes is the first
since its `read_from_socket`. -/
theorem reads_undisturbed_iff (ops : List Op) (h : Along step Contract make ops) :
    Along step Undisturbed make ops ↔ Along step FirstRead make ops :=
  along_congr (I := Inv)
    (fun _ op _ hinv hcontract hop hs =>
      step_keeps hinv hcontract ((step_undisturbed_iff op hinv hcontract).mp hop) hs)
    (fun _ op hinv hcontract => step_undisturbed_iff op hinv hcontract) ops make_inv h

instance (s : Duplex) : (op : Op) → Decidable (Contract s op)
  | .completeWrite _ _ => inferInstanceAs (Decidable (∃ w ∈ _, _))
  | .completeRead _ _ => inferInstanceAs (Decidable (∃ r ∈ _, _))
  | .readFromSocket => isTrue trivial
  | .write2socket _ => isTrue trivial

instance (s : Duplex) : (op : Op) → Decidable (FirstRead s op)
  | .completeRead _ _ => inferInstanceAs (Decidable (_ = _))
  | .completeWrite _ _ => isTrue trivial
  | .readFromSocket => isTrue trivial
  | .write2socket _ => isTrue trivial

/-- All of `RECVSIZE` at once, between two parts of a write, and part of another. -/
def wholeReads : List Op :=
  [.readFromSocket, .write2socket [1, 2], .completeWrite 0 1, .completeRead 0 1024,
    .completeWrite 0 1, .readFromSocket, .completeRead 0 7]

theorem reads_undisturbed_iff_whole : Along step Undisturbed make wholeReads :=
  (reads_undisturbed_iff wholeReads (by decide +kernel)).mpr (by decide +kernel)

/-- One byte, and one more: `write_callback` takes the front of an empty queue. -/
theorem second_read_faults :
    ¬ ∀ ops : List Op, Along step Contract make ops → Along step Undisturbed make ops := by
  intro h
  have hall := h [.readFromSocket, .completeRead 0 1, .completeRead 0 1] (by decide +kernel)
  exact completeRead_partly (by decide) hall.2.2.1

end Duplex

end CKernel.Net
