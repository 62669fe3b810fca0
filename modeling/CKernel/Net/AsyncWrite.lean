/-
# `CKernel.Net.AsyncWrite` — `async_write` on a socket

`async_write` writes all of a buffer, in as many pieces as it takes.  Nothing keeps a
program from having two of them under way on one socket; then the pieces of both come
in any order.
-/
import Mathlib

namespace CKernel.Net

/-- An `async_write` under way: whose buffer it writes, and what is left of it. -/
structure Write (β : Type) where
  buffer : β
  rest : List UInt8
  deriving DecidableEq, Repr

/-- The writes under way, and the bytes written. -/
structure Socket (β : Type) where
  inFlight : List (Write β)
  accepted : List UInt8
  deriving DecidableEq, Repr

namespace Socket

variable {β : Type}

def make : Socket β := ⟨[], []⟩

/-- `async_write(sock, buffer(..), handler)` -/
def asyncWrite (s : Socket β) (buffer : β) (bytes : List UInt8) : Socket β :=
  { s with inFlight := s.inFlight ++ [⟨buffer, bytes⟩] }

/-- `n` more bytes of the `i`-th write are written, and whether it is complete now.
Only an empty buffer is written with no bytes. -/
def write (s : Socket β) (i n : Nat) : Option (Socket β × Bool) := do
  let w ← s.inFlight[i]?
  if n ≤ w.rest.length ∧ (0 < n ∨ w.rest = []) then
    let accepted := s.accepted ++ w.rest.take n
    if n = w.rest.length then some (⟨s.inFlight.eraseIdx i, accepted⟩, true)
    else some (⟨s.inFlight.set i { w with rest := w.rest.drop n }, accepted⟩, false)
  else none

/-- The next `n` bytes complete the `i`-th write. -/
def Completes (s : Socket β) (i n : Nat) : Prop := ∀ w ∈ s.inFlight[i]?, n = w.rest.length

instance (s : Socket β) (i n : Nat) : Decidable (s.Completes i n) :=
  inferInstanceAs (Decidable (∀ w ∈ _, _))

/-- Nothing is written where nothing is under way. -/
theorem write_idle {s : Socket β} (h : s.inFlight = []) (i n : Nat) : s.write i n = none := by
  rw [write, h]
  rfl

/-- The only write under way goes on, or completes. -/
theorem write_only {s s' : Socket β} {w : Write β} {i n : Nat} {done : Bool}
    (h : s.inFlight = [w]) (hs : s.write i n = some (s', done)) :
    i = 0 ∧ s'.accepted = s.accepted ++ w.rest.take n ∧
      (done = true ∧ n = w.rest.length ∧ s'.inFlight = [] ∨
        done = false ∧ n ≠ w.rest.length ∧ s'.inFlight = [{ w with rest := w.rest.drop n }]) := by
  rw [write, h] at hs
  cases i with
  | succ i => cases hs
  | zero =>
      rw [List.getElem?_cons_zero, Option.bind_eq_bind, Option.bind_some] at hs
      split at hs
      · split at hs
        case isTrue hall =>
          cases hs
          exact ⟨rfl, rfl, .inl ⟨rfl, hall, rfl⟩⟩
        case isFalse hmore =>
          cases hs
          exact ⟨rfl, rfl, .inr ⟨rfl, hmore, rfl⟩⟩
      · cases hs

end Socket

end CKernel.Net
