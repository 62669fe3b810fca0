/-
# `CKernel.Lib.Throws` — programs that throw and do not roll back

A C++ function with exceptions is an `EStateM`: what was written before a throw stays
written.  `left` is that state, whether the program returned or threw, and `Keeps f` says
that the program leaves `f` of the state as it was in both cases.

    a sequence, after a first part that returns or throws     (`bind_of_ok`, `bind_of_error`)
    how a sequence ends, if not with an error of its first
    part                                                      (`ends_bind`)
    what both parts of a sequence keep, the sequence keeps    (`Keeps.bind`)
    what a program keeps is there where it throws             (`Keeps.of_error`)
-/
import Mathlib

namespace CKernel.Throws

variable {ε σ α β γ : Type}

/-- The state that is left. -/
def left : EStateM.Result ε σ α → σ
  | .ok _ s => s
  | .error _ s => s

@[simp] theorem left_ok (a : α) (s : σ) : left (.ok a s : EStateM.Result ε σ α) = s := rfl

@[simp] theorem left_error (e : ε) (s : σ) : left (.error e s : EStateM.Result ε σ α) = s := rfl

/-! ## Sequences -/

variable {x : EStateM ε σ α} {g : α → EStateM ε σ β} {s s' : σ}

theorem bind_of_ok {a : α} (h : x s = .ok a s') : (x >>= g) s = g a s' := by
  show EStateM.bind x g s = g a s'
  rw [EStateM.bind, h]

theorem bind_of_error {e : ε} (h : x s = .error e s') : (x >>= g) s = .error e s' := by
  show EStateM.bind x g s = .error e s'
  rw [EStateM.bind, h]

theorem get_bind (g : σ → EStateM ε σ β) : ((get : EStateM ε σ σ) >>= g) s = g s s := rfl

theorem modify_bind (u : σ → σ) (g : PUnit → EStateM ε σ β) :
    ((modify u : EStateM ε σ PUnit) >>= g) s = g ⟨⟩ (u s) := rfl

/-! ## How a program ends -/

/-- `x` returns as `Q` says or throws as `E` says. -/
def Ends (x : EStateM ε σ α) (s : σ) (Q : α → σ → Prop) (E : ε → σ → Prop) : Prop :=
  match x s with
  | .ok a s' => Q a s'
  | .error e s' => E e s'

/-- `x` returns, as `Q` says. -/
def Returns (x : EStateM ε σ α) (s : σ) (Q : α → σ → Prop) : Prop := Ends x s Q fun _ _ => False

section Ends

variable {Q : α → σ → Prop} {E : ε → σ → Prop}

theorem ends_of_ok {a : α} (h : x s = .ok a s') : Ends x s Q E ↔ Q a s' := by
  rw [Ends, h]

theorem ends_of_error {e : ε} (h : x s = .error e s') : Ends x s Q E ↔ E e s' := by
  rw [Ends, h]

theorem returns_of_ok {a : α} (h : x s = .ok a s') : Returns x s Q ↔ Q a s' := ends_of_ok h

theorem not_returns_of_error {e : ε} (h : x s = .error e s') : ¬ Returns x s Q :=
  (ends_of_error h).mp

theorem returns_congr {R : α → σ → Prop} (h : ∀ a s', x s = .ok a s' → (Q a s' ↔ R a s')) :
    Returns x s Q ↔ Returns x s R := by
  cases hx : x s with
  | ok a s' => rw [returns_of_ok hx, returns_of_ok hx, h a s' hx]
  | error e s' => exact iff_of_false (not_returns_of_error hx) (not_returns_of_error hx)

/-- A sequence whose first part does not throw as `E` says. -/
theorem ends_bind {R : β → σ → Prop} {g : α → EStateM ε σ β}
    (hx : ∀ e s', x s = .error e s' → ¬ E e s') :
    Ends (x >>= g) s R E ↔ Returns x s fun a s' => Ends (g a) s' R E := by
  cases h : x s with
  | ok a s' => rw [returns_of_ok h, Ends, Ends, bind_of_ok h]
  | error e s' =>
      refine iff_of_false (fun hends => ?_) (not_returns_of_error h)
      exact hx e s' h ((ends_of_error (bind_of_error h)).mp hends)

end Ends

/-! ## What is kept -/

/-- `f` of the state is the same after `x`, which may throw. -/
def Keeps (f : σ → γ) (x : EStateM ε σ α) : Prop := ∀ s, f (left (x s)) = f s

namespace Keeps

variable {f : σ → γ}

theorem of_error {e : ε} (hx : Keeps f x) (h : x s = .error e s') : f s' = f s := by
  rw [← hx s, h, left_error]

theorem of_ok {a : α} (hx : Keeps f x) (h : x s = .ok a s') : f s' = f s := by
  rw [← hx s, h, left_ok]

/-- What follows from what is kept is kept. -/
theorem comp {δ : Type} (hx : Keeps f x) (u : γ → δ) : Keeps (fun s => u (f s)) x :=
  fun s => congrArg u (hx s)

theorem throw (e : ε) : Keeps f (throw e : EStateM ε σ α) := fun _ => rfl

theorem get : Keeps f (get : EStateM ε σ σ) := fun _ => rfl

theorem modify {u : σ → σ} (h : ∀ s, f (u s) = f s) : Keeps f (modify u : EStateM ε σ PUnit) := h

theorem bind (hx : Keeps f x) (hg : ∀ a, Keeps f (g a)) : Keeps f (x >>= g) := by
  intro s
  cases h : x s with
  | ok a s' =>
      rw [bind_of_ok h]
      exact (hg a s').trans (hx.of_ok h)
  | error e s' =>
      rw [bind_of_error h]
      exact hx.of_error h

end Keeps

end CKernel.Throws
