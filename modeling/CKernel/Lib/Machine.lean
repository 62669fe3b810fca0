/-
# `CKernel.Lib.Machine` — machines that answer

A machine takes an input in a state, answers and goes to a next state.  `answers`
are those of a list of inputs, `after` the state they lead to.  One machine
simulates another if related states answer alike and lead to related states.

    a simulation gives the answers of the simulated machine     (`answers_of_simulation`)
-/
import Mathlib

namespace CKernel.Machine

variable {σ τ ι ω : Type} (step : σ → ι → ω × σ)

def after : σ → List ι → σ
  | s, [] => s
  | s, i :: is => after (step s i).2 is

def answers : σ → List ι → List ω
  | _, [] => []
  | s, i :: is => (step s i).1 :: answers (step s i).2 is

variable {step}

@[simp] theorem after_cons (s : σ) (i : ι) (is : List ι) :
    after step s (i :: is) = after step (step s i).2 is := rfl

@[simp] theorem answers_cons (s : σ) (i : ι) (is : List ι) :
    answers step s (i :: is) = (step s i).1 :: answers step (step s i).2 is := rfl

/-- Simulation: related states answer alike and stay related. -/
theorem answers_of_simulation {R : σ → τ → Prop} {spec : τ → ι → ω × τ} {Q : ι → Prop}
    (hstep : ∀ s t i, R s t → Q i →
      (step s i).1 = (spec t i).1 ∧ R (step s i).2 (spec t i).2)
    (is : List ι) {s : σ} {t : τ} (h : R s t) (hQ : ∀ i ∈ is, Q i) :
    answers step s is = answers spec t is ∧ R (after step s is) (after spec t is) := by
  induction is generalizing s t with
  | nil => exact ⟨rfl, h⟩
  | cons i is ih =>
      obtain ⟨hans, hnext⟩ := hstep s t i h (hQ i List.mem_cons_self)
      obtain ⟨hrest, hend⟩ := ih hnext fun j hj => hQ j (List.mem_cons_of_mem i hj)
      exact ⟨List.cons_eq_cons.mpr ⟨hans, hrest⟩, hend⟩

end CKernel.Machine
