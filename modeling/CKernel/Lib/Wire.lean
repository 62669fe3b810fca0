/-
# `CKernel.Lib.Wire` — byte order, and exact reads from a stream in pieces

A host stores a word with its least or its most significant byte first; the network
has the most significant one first, and `htons`, `htonl` and their inverses swap the
bytes on the hosts that have it the other way round.  Words are naturals below
`256 ^ w`, in `w` bytes.

A stream arrives in pieces, and a read of `n` bytes puts pieces together until it
has them.

    what a host stores it loads                                  (`load_store`, `store_load`)
    swapped and stored, a word is in network order               (`store_hton`, `ntoh_load`)
    a read gets the bytes, whatever the pieces                   (`readExact_eq`, `readExact_short`)
-/
import Mathlib

namespace CKernel.Wire

/-! ## Byte order -/

/-- The low `w` bytes of `n`, least significant first. -/
def bytesLE : Nat → Nat → List UInt8
  | 0, _ => []
  | w + 1, n => UInt8.ofNat n :: bytesLE w (n / 256)

def natLE : List UInt8 → Nat
  | [] => 0
  | b :: bytes => b.toNat + 256 * natLE bytes

inductive Endian where
  | little
  | big
  deriving DecidableEq, Repr

namespace Endian

/-- The object representation of a word of `w` bytes. -/
def store : Endian → Nat → Nat → List UInt8
  | .little, w, n => bytesLE w n
  | .big, w, n => (bytesLE w n).reverse

/-- The word with this object representation. -/
def load : Endian → List UInt8 → Nat
  | .little, bytes => natLE bytes
  | .big, bytes => natLE bytes.reverse

/-- `htons` and `htonl`, and as well `ntohs` and `ntohl`. -/
def hton : Endian → Nat → Nat → Nat
  | .little, w, n => natLE (bytesLE w n).reverse
  | .big, _, n => n

def htons (e : Endian) (x : UInt16) : UInt16 := UInt16.ofNat (e.hton 2 x.toNat)

def htonl (e : Endian) (x : UInt32) : UInt32 := UInt32.ofNat (e.hton 4 x.toNat)

def ntohs : Endian → UInt16 → UInt16 := htons

def ntohl : Endian → UInt32 → UInt32 := htonl

end Endian

variable {w n : Nat} {bytes : List UInt8}

@[simp] theorem length_bytesLE (w n : Nat) : (bytesLE w n).length = w := by
  induction w generalizing n with
  | zero => rfl
  | succ w ih => rw [bytesLE, List.length_cons, ih]

theorem natLE_bytesLE (w n : Nat) : natLE (bytesLE w n) = n % 256 ^ w := by
  induction w generalizing n with
  | zero => rw [bytesLE, natLE, pow_zero, Nat.mod_one]
  | succ w ih =>
      have hbyte : (UInt8.ofNat n).toNat = n % 256 := UInt8.toNat_ofNat'
      rw [bytesLE, natLE, ih, hbyte, pow_succ', Nat.mod_mul]

theorem natLE_lt (bytes : List UInt8) : natLE bytes < 256 ^ bytes.length := by
  induction bytes with
  | nil => exact Nat.one_pos
  | cons b bytes ih =>
      have hb : b.toNat < 256 := b.toNat_lt
      rw [natLE, List.length_cons, pow_succ']
      omega

theorem bytesLE_natLE (bytes : List UInt8) : bytesLE bytes.length (natLE bytes) = bytes := by
  induction bytes with
  | nil => rfl
  | cons b bytes ih =>
      have hb : b.toNat < 256 := b.toNat_lt
      have hdiv : (b.toNat + 256 * natLE bytes) / 256 = natLE bytes := by omega
      have hmod : UInt8.ofNat (b.toNat + 256 * natLE bytes) = b := by
        refine UInt8.toNat_inj.mp ?_
        rw [UInt8.toNat_ofNat', Nat.add_mul_mod_self_left, Nat.mod_eq_of_lt hb]
      rw [List.length_cons, natLE, bytesLE, hdiv, hmod, ih]

namespace Endian

variable (e : Endian)

@[simp] theorem length_store : (e.store w n).length = w := by
  cases e with
  | little => exact length_bytesLE w n
  | big => rw [store, List.length_reverse, length_bytesLE]

theorem load_store : e.load (e.store w n) = n % 256 ^ w := by
  cases e with
  | little => exact natLE_bytesLE w n
  | big => rw [store, load, List.reverse_reverse, natLE_bytesLE]

theorem load_lt (h : bytes.length = w) : e.load bytes < 256 ^ w := by
  cases e with
  | little => exact h ▸ natLE_lt bytes
  | big =>
      have hlt := natLE_lt bytes.reverse
      rwa [List.length_reverse, h] at hlt

theorem store_load (h : bytes.length = w) : e.store w (e.load bytes) = bytes := by
  cases e with
  | little => exact h ▸ bytesLE_natLE bytes
  | big =>
      have hrev := bytesLE_natLE bytes.reverse
      rw [List.length_reverse, h] at hrev
      rw [store, load, hrev, List.reverse_reverse]

/-- What is sent does not depend on the sender. -/
theorem store_hton : e.store w (e.hton w n) = big.store w n := by
  cases e with
  | little => exact little.store_load (by rw [List.length_reverse, length_bytesLE])
  | big => rfl

/-- What is received does not depend on the receiver. -/
theorem ntoh_load (h : bytes.length = w) : e.hton w (e.load bytes) = big.load bytes := by
  cases e with
  | little =>
      have hstore : bytesLE w (natLE bytes) = bytes := little.store_load h
      show natLE (bytesLE w (natLE bytes)).reverse = natLE bytes.reverse
      rw [hstore]
  | big => rfl

theorem hton_lt (h : n < 256 ^ w) : e.hton w n < 256 ^ w := by
  cases e with
  | little =>
      have hlt := natLE_lt (bytesLE w n).reverse
      rwa [List.length_reverse, length_bytesLE] at hlt
  | big => exact h

theorem toNat_htons (x : UInt16) : (e.htons x).toNat = e.hton 2 x.toNat :=
  UInt16.toNat_ofNat'.trans (Nat.mod_eq_of_lt (e.hton_lt (w := 2) x.toNat_lt))

theorem toNat_htonl (x : UInt32) : (e.htonl x).toNat = e.hton 4 x.toNat :=
  UInt32.toNat_ofNat'.trans (Nat.mod_eq_of_lt (e.hton_lt (w := 4) x.toNat_lt))

theorem store_htons (x : UInt16) : e.store 2 (e.htons x).toNat = big.store 2 x.toNat := by
  rw [toNat_htons, store_hton]

theorem store_htonl (x : UInt32) : e.store 4 (e.htonl x).toNat = big.store 4 x.toNat := by
  rw [toNat_htonl, store_hton]

theorem ntohs_load (h : bytes.length = 2) :
    e.ntohs (UInt16.ofNat (e.load bytes)) = UInt16.ofNat (big.load bytes) := by
  have hload : (UInt16.ofNat (e.load bytes)).toNat = e.load bytes :=
    UInt16.toNat_ofNat_of_lt' (e.load_lt h)
  rw [ntohs, htons, hload, ntoh_load e h]

theorem ntohl_load (h : bytes.length = 4) :
    e.ntohl (UInt32.ofNat (e.load bytes)) = UInt32.ofNat (big.load bytes) := by
  have hload : (UInt32.ofNat (e.load bytes)).toNat = e.load bytes :=
    UInt32.toNat_ofNat_of_lt' (e.load_lt h)
  rw [ntohl, htonl, hload, ntoh_load e h]

theorem load_store16 (x : UInt16) : UInt16.ofNat (e.load (e.store 2 x.toNat)) = x := by
  have hmod : x.toNat % 256 ^ 2 = x.toNat := Nat.mod_eq_of_lt x.toNat_lt
  rw [load_store, hmod, UInt16.ofNat_toNat]

theorem load_store32 (x : UInt32) : UInt32.ofNat (e.load (e.store 4 x.toNat)) = x := by
  have hmod : x.toNat % 256 ^ 4 = x.toNat := Nat.mod_eq_of_lt x.toNat_lt
  rw [load_store, hmod, UInt32.ofNat_toNat]

theorem store_load16 (h : bytes.length = 2) :
    e.store 2 (UInt16.ofNat (e.load bytes)).toNat = bytes := by
  rw [UInt16.toNat_ofNat_of_lt' (e.load_lt h), e.store_load h]

theorem store_load32 (h : bytes.length = 4) :
    e.store 4 (UInt32.ofNat (e.load bytes)).toNat = bytes := by
  rw [UInt32.toNat_ofNat_of_lt' (e.load_lt h), e.store_load h]

end Endian

/-! ## Streams in pieces -/

/-- Read `n` bytes of what arrives in these pieces: the bytes, and the pieces left;
`none` if the stream ends before. -/
def readExact {α : Type} : Nat → List (List α) → Option (List α × List (List α))
  | 0, pieces => some ([], pieces)
  | _ + 1, [] => none
  | n + 1, piece :: pieces =>
      if n + 1 < piece.length then some (piece.take (n + 1), piece.drop (n + 1) :: pieces)
      else (readExact (n + 1 - piece.length) pieces).map fun (bytes, rest) => (piece ++ bytes, rest)

variable {α : Type}

theorem readExact_eq {n : Nat} {pieces : List (List α)} (h : n ≤ pieces.flatten.length) :
    ∃ rest, readExact n pieces = some (pieces.flatten.take n, rest) ∧
      rest.flatten = pieces.flatten.drop n := by
  induction pieces generalizing n with
  | nil =>
      obtain rfl := Nat.le_zero.mp h
      exact ⟨[], rfl, rfl⟩
  | cons piece pieces ih =>
      cases n with
      | zero => exact ⟨piece :: pieces, rfl, rfl⟩
      | succ n =>
          rw [readExact]
          split
          case isTrue hlt =>
            refine ⟨piece.drop (n + 1) :: pieces, ?_, ?_⟩
            · rw [List.flatten_cons, List.take_append_of_le_length (Nat.le_of_lt hlt)]
            · rw [List.flatten_cons, List.flatten_cons,
                List.drop_append_of_le_length (Nat.le_of_lt hlt)]
          case isFalse hge =>
            have hle : piece.length ≤ n + 1 := Nat.le_of_not_lt hge
            rw [List.flatten_cons, List.length_append] at h
            obtain ⟨rest, hread, hrest⟩ := ih (n := n + 1 - piece.length) (by omega)
            refine ⟨rest, ?_, ?_⟩
            · rw [hread, Option.map_some, List.flatten_cons, List.take_append,
                List.take_of_length_le hle]
            · rw [hrest, List.flatten_cons, List.drop_append, List.drop_of_length_le hle,
                List.nil_append]

theorem readExact_short {n : Nat} {pieces : List (List α)} (h : pieces.flatten.length < n) :
    readExact n pieces = none := by
  induction pieces generalizing n with
  | nil =>
      cases n with
      | zero => cases h
      | succ n => rfl
  | cons piece pieces ih =>
      rw [List.flatten_cons, List.length_append] at h
      cases n with
      | zero => cases h
      | succ n =>
          rw [readExact, if_neg (by omega), ih (by omega), Option.map_none]

/-- The bytes read and those left are the stream. -/
theorem readExact_some {n : Nat} {pieces rest : List (List α)} {bytes : List α}
    (h : readExact n pieces = some (bytes, rest)) :
    bytes.length = n ∧ pieces.flatten = bytes ++ rest.flatten := by
  by_cases hle : n ≤ pieces.flatten.length
  · obtain ⟨rest', hread, hrest⟩ := readExact_eq hle
    obtain ⟨rfl, rfl⟩ := Prod.mk.inj (Option.some.inj (h.symm.trans hread))
    rw [hrest, List.take_append_drop]
    exact ⟨List.length_take_of_le hle, rfl⟩
  · rw [readExact_short (Nat.lt_of_not_le hle)] at h
    cases h

end CKernel.Wire
