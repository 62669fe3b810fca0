/-
# `CKernel.Lib.Run` — runs of a partial step function

A program with a state and calls is a step function `σ → ο → Option σ`, where
`none` is a call that does not return.  `run` makes the calls of a list in turn,
and `Along` asks a condition of every call in the state in which it is made.

The rules below turn one fact about a call into one about every run.

    calls that return and follow another step function        (`run_simulates`)
    calls that return and keep an invariant                    (`run_invariant`)
    runs that return and follow another step function          (`run_follows`)
    steps that need not be possible, as in an interleaving     (`run_keeps_along`, `run_keeps`)
    conditions that agree while an invariant holds             (`along_congr`)
    where a run first fails a condition                        (`exists_of_not_along`)
    calls that keep an invariant just when they meet one       (`along_iff`)
    the same where not every step is possible                  (`along_iff_of_run`)
    nothing counted, nothing done                              (`tally_eq_zero`)
    histories whose entries follow from those before them      (`recorded_concat`)
-/
import Mathlib

namespace CKernel.Run

variable {σ ο τ : Type} (step : σ → ο → Option σ) (P : σ → ο → Prop)

def run : σ → List ο → Option σ
  | s, [] => some s
  | s, op :: ops => (step s op).bind fun s => run s ops

/-- Every call meets `P` when it is made. -/
def Along : σ → List ο → Prop
  | _, [] => True
  | s, op :: ops => P s op ∧
      match step s op with
      | none => True
      | some s => Along s ops

instance decidableAlong [∀ s op, Decidable (P s op)] :
    ∀ (s : σ) (ops : List ο), Decidable (Along step P s ops)
  | _, [] => isTrue trivial
  | s, op :: ops =>
      have : Decidable (match step s op with | none => True | some s => Along step P s ops) :=
        match step s op with
        | none => isTrue trivial
        | some s => decidableAlong s ops
      inferInstanceAs (Decidable (_ ∧ _))

variable {step P}

theorem along_of_all (h : ∀ s op, P s op) (s : σ) (ops : List ο) : Along step P s ops := by
  induction ops generalizing s with
  | nil => trivial
  | cons op ops ih =>
      refine ⟨h s op, ?_⟩
      cases step s op with
      | none => trivial
      | some s' => exact ih s'

/-- What a run shows of its calls. -/
theorem along_returns (hP : ∀ s op s', step s op = some s' → P s op) (ops : List ο) {s s' : σ}
    (hrun : run step s ops = some s') : Along step P s ops := by
  induction ops generalizing s with
  | nil => trivial
  | cons op ops ih =>
      obtain ⟨s₁, hs₁, hrest⟩ := Option.bind_eq_some_iff.mp hrun
      rw [Along, hs₁]
      exact ⟨hP s op s₁ hs₁, ih hrest⟩

/-- A condition on the calls alone. -/
theorem along_of_forall {Q : ο → Prop} {ops : List ο} (h : ∀ op ∈ ops, Q op) (s : σ) :
    Along step (fun _ op => Q op) s ops := by
  induction ops generalizing s with
  | nil => trivial
  | cons op ops ih =>
      refine ⟨h op List.mem_cons_self, ?_⟩
      cases step s op with
      | none => trivial
      | some s' => exact ih (fun op' hop' => h op' (List.mem_cons_of_mem _ hop')) s'

theorem Along.and {Q : σ → ο → Prop} {ops : List ο} {s : σ} (hP : Along step P s ops)
    (hQ : Along step Q s ops) : Along step (fun s op => P s op ∧ Q s op) s ops := by
  induction ops generalizing s with
  | nil => trivial
  | cons op ops ih =>
      refine ⟨⟨hP.1, hQ.1⟩, ?_⟩
      have hrest := hP.2
      have hrest' := hQ.2
      cases hs : step s op with
      | none => trivial
      | some s' =>
          rw [hs] at hrest hrest'
          exact ih hrest hrest'

theorem Along.and_forall {Q : ο → Prop} {ops : List ο} {s : σ} (hP : Along step P s ops)
    (hQ : ∀ op ∈ ops, Q op) : Along step (fun s op => P s op ∧ Q op) s ops :=
  hP.and (along_of_forall hQ s)

theorem Along.take {ops : List ο} {s : σ} (hP : Along step P s ops) (n : Nat) :
    Along step P s (ops.take n) := by
  induction ops generalizing s n with
  | nil =>
      rw [List.take_nil]
      trivial
  | cons op ops ih =>
      cases n with
      | zero => trivial
      | succ n =>
          refine ⟨hP.1, ?_⟩
          have hrest := hP.2
          cases hs : step s op with
          | none => trivial
          | some s' =>
              rw [hs] at hrest
              exact ih hrest n

theorem run_append {ops ops' : List ο} (s : σ) :
    run step s (ops ++ ops') = (run step s ops).bind fun s => run step s ops' := by
  induction ops generalizing s with
  | nil => rfl
  | cons op ops ih =>
      rw [List.cons_append, run, run]
      cases step s op with
      | none => rfl
      | some s' => exact ih s'

/-- Simulation: calls that return and follow `spec` make runs that do. -/
theorem run_simulates {R : σ → τ → Prop} {spec : τ → ο → τ}
    (hstep : ∀ s t op, R s t → P s op → ∃ s', step s op = some s' ∧ R s' (spec t op))
    (ops : List ο) {s : σ} {t : τ} (h : R s t) (hP : Along step P s ops) :
    ∃ s', run step s ops = some s' ∧ R s' (ops.foldl spec t) := by
  induction ops generalizing s t with
  | nil => exact ⟨s, rfl, h⟩
  | cons op ops ih =>
      obtain ⟨s₁, hs₁, h₁⟩ := hstep s t op h hP.1
      have hrest := hP.2
      rw [hs₁] at hrest
      obtain ⟨s', hrun, h'⟩ := ih h₁ hrest
      refine ⟨s', ?_, h'⟩
      rw [run, hs₁]
      exact hrun

/-- Invariance: calls that return and keep `I` make runs that do. -/
theorem run_invariant {I : σ → Prop}
    (hstep : ∀ s op, I s → P s op → ∃ s', step s op = some s' ∧ I s')
    (ops : List ο) {s : σ} (h : I s) (hP : Along step P s ops) :
    ∃ s', run step s ops = some s' ∧ I s' :=
  @run_simulates σ ο Unit step P (fun s _ => I s) (fun t _ => t)
    (fun s _ op hs hop => hstep s op hs hop) ops s () h hP

/-- Steps that follow `spec` wherever they are possible make runs that do. -/
theorem run_follows {R : σ → τ → Prop} {spec : τ → ο → τ}
    (hstep : ∀ s t op s', R s t → step s op = some s' → R s' (spec t op))
    (ops : List ο) {s s' : σ} {t : τ} (h : R s t) (hrun : run step s ops = some s') :
    R s' (ops.foldl spec t) := by
  induction ops generalizing s t with
  | nil =>
      cases hrun
      exact h
  | cons op ops ih =>
      obtain ⟨s₁, hs₁, hrest⟩ := Option.bind_eq_some_iff.mp hrun
      exact ih (hstep s t op s₁ h hs₁) hrest

/-- Preservation: what every possible step that meets `P` keeps. -/
theorem run_keeps_along {I : σ → Prop}
    (hstep : ∀ s op s', I s → P s op → step s op = some s' → I s')
    (ops : List ο) {s s' : σ} (h : I s) (hP : Along step P s ops)
    (hrun : run step s ops = some s') : I s' := by
  induction ops generalizing s with
  | nil =>
      cases hrun
      exact h
  | cons op ops ih =>
      obtain ⟨s₁, hs₁, hrest⟩ := Option.bind_eq_some_iff.mp hrun
      have hP₁ := hP.2
      rw [hs₁] at hP₁
      exact ih (hstep s op s₁ h hP.1 hs₁) hP₁ hrest

/-- Preservation by every possible step. -/
theorem run_keeps {I : σ → Prop} (hstep : ∀ s op s', I s → step s op = some s' → I s')
    (ops : List ο) {s s' : σ} (h : I s) (hrun : run step s ops = some s') : I s' :=
  run_keeps_along (fun s op s' hs _ => hstep s op s' hs) ops h
    (along_of_forall (fun _ _ => trivial) s) hrun

/-- Two conditions that agree on lawful calls wherever `I` holds agree along lawful runs
from there, if the calls that meet one of them keep `I`. -/
theorem along_congr {I : σ → Prop} {L Q : σ → ο → Prop}
    (hkeep : ∀ s op s', I s → L s op → P s op → step s op = some s' → I s')
    (hiff : ∀ s op, I s → L s op → (P s op ↔ Q s op))
    (ops : List ο) {s : σ} (h : I s) (hL : Along step L s ops) :
    Along step P s ops ↔ Along step Q s ops := by
  induction ops generalizing s with
  | nil => exact Iff.rfl
  | cons op ops ih =>
      have hop := hiff s op h hL.1
      have hrest := hL.2
      rw [Along, Along, ← hop]
      refine and_congr_right fun hP => ?_
      cases hs : step s op with
      | none => exact Iff.rfl
      | some s' =>
          rw [hs] at hrest
          exact ih (hkeep s op s' h hL.1 hP hs) hrest

/-- What lawful calls meet wherever `I` holds, and they keep it. -/
theorem Along.imp {I : σ → Prop} {Q : σ → ο → Prop} {ops : List ο} {s : σ}
    (hP : Along step P s ops) (hkeep : ∀ s op s', I s → P s op → step s op = some s' → I s')
    (himp : ∀ s op, I s → P s op → Q s op) (h : I s) : Along step Q s ops :=
  (along_congr (fun s op s' hs hop _ => hkeep s op s' hs hop)
    (fun s op hs hop => iff_of_true trivial (himp s op hs hop)) ops h hP).mp
    (along_of_all (fun _ _ => trivial) s ops)

/-- A run that does not meet `P` throughout has a first call that does not. -/
theorem exists_of_not_along {ops : List ο} {s s' : σ} (hP : ¬ Along step P s ops)
    (hrun : run step s ops = some s') :
    ∃ before op after s₁ s₂, ops = before ++ op :: after ∧ run step s before = some s₁ ∧
      ¬ P s₁ op ∧ step s₁ op = some s₂ ∧ run step s₂ after = some s' := by
  induction ops generalizing s with
  | nil => exact absurd trivial hP
  | cons op ops ih =>
      obtain ⟨s₁, hs₁, hrest⟩ := Option.bind_eq_some_iff.mp hrun
      by_cases hop : P s op
      · have hP₁ : ¬ Along step P s₁ ops := by
          intro hP₁
          apply hP
          rw [Along, hs₁]
          exact ⟨hop, hP₁⟩
        obtain ⟨before, op', after, s₂, s₃, hops, hbefore, hrest⟩ := ih hP₁ hrest
        refine ⟨op :: before, op', after, s₂, s₃, congrArg (op :: ·) hops, ?_, hrest⟩
        rw [run, hs₁]
        exact hbefore
      · exact ⟨[], op, ops, s, s₁, rfl, rfl, hop, hs₁, hrest⟩

/-- Exactness: where the calls that return keep `I` if and only if they meet `P`, and
in states that meet `I` all return, the states of a run all meet `I` if and only if
its calls all meet `P`. -/
theorem along_iff_of_returns {I : σ → Prop}
    (hstep : ∀ s op s', I s → step s op = some s' → (I s' ↔ P s op))
    (ops : List ο) {s : σ} (h : I s)
    (hreturns : Along step (fun s op => I s → ∃ s', step s op = some s') s ops) :
    Along step P s ops ↔ ∀ n s', run step s (ops.take n) = some s' → I s' := by
  induction ops generalizing s with
  | nil =>
      refine ⟨fun _ n s' hrun => ?_, fun _ => trivial⟩
      rw [List.take_nil] at hrun
      cases hrun
      exact h
  | cons op ops ih =>
      obtain ⟨s₁, hs₁⟩ := hreturns.1 h
      have hrest := hreturns.2
      rw [hs₁] at hrest
      have hkeep := hstep s op s₁ h hs₁
      have hrun (n : Nat) : run step s ((op :: ops).take (n + 1)) = run step s₁ (ops.take n) := by
        rw [List.take_succ_cons, run, hs₁]
        rfl
      have halong : Along step P s (op :: ops) ↔ P s op ∧ Along step P s₁ ops := by
        rw [Along, hs₁]
      rw [halong]
      constructor
      · intro ⟨hP, hafter⟩ n s' hs'
        cases n with
        | zero =>
            cases hs'
            exact h
        | succ n =>
            rw [hrun] at hs'
            exact (ih (hkeep.mpr hP) hrest).mp hafter n s' hs'
      · intro hall
        have h₁ : I s₁ := hall 1 s₁ (by rw [hrun, List.take_zero, run])
        refine ⟨hkeep.mp h₁, (ih h₁ hrest).mpr fun n s' hs' => ?_⟩
        rw [← hrun] at hs'
        exact hall (n + 1) s' hs'

/-- Exactness for calls that return. -/
theorem along_iff {I : σ → Prop}
    (hstep : ∀ s op, I s → ∃ s', step s op = some s' ∧ (I s' ↔ P s op))
    (ops : List ο) {s : σ} (h : I s) :
    Along step P s ops ↔ ∀ n s', run step s (ops.take n) = some s' → I s' := by
  refine along_iff_of_returns (fun s op s' hs hs' => ?_) ops h
    (along_of_all (fun s op hs => ?_) s ops)
  · obtain ⟨s₁, hs₁, hkeep⟩ := hstep s op hs
    rw [hs₁] at hs'
    cases hs'
    exact hkeep
  · obtain ⟨s₁, hs₁, -⟩ := hstep s op hs
    exact ⟨s₁, hs₁⟩

/-- Exactness for the runs that are possible. -/
theorem along_iff_of_run {I : σ → Prop}
    (hstep : ∀ s op s', I s → step s op = some s' → (I s' ↔ P s op))
    (ops : List ο) {s s' : σ} (h : I s) (hrun : run step s ops = some s') :
    Along step P s ops ↔ ∀ n s', run step s (ops.take n) = some s' → I s' :=
  along_iff_of_returns hstep ops h (along_returns (fun _ _ s' hs _ => ⟨s', hs⟩) ops hrun)

/-! ## Counting -/

/-- What `f` counts of each call, in the state in which it is made, added up. -/
def tally (step : σ → ο → Option σ) (f : σ → ο → Nat) : σ → List ο → Nat
  | _, [] => 0
  | s, op :: ops => f s op +
      match step s op with
      | none => 0
      | some s => tally step f s ops

theorem tally_eq_zero {f : σ → ο → Nat} {ops : List ο} {s : σ} :
    tally step f s ops = 0 ↔ Along step (fun s op => f s op = 0) s ops := by
  induction ops generalizing s with
  | nil => exact ⟨fun _ => trivial, fun _ => rfl⟩
  | cons op ops ih =>
      rw [tally, Along, Nat.add_eq_zero_iff]
      cases step s op with
      | none => exact and_congr_right fun _ => ⟨fun _ => trivial, fun _ => rfl⟩
      | some s' => exact and_congr_right fun _ => ih

/-! ## Histories -/

/-- Each entry of a history is rightful after those before it. -/
def Recorded {α : Type} (R : List α → α → Prop) (log : List α) : Prop :=
  ∀ before e after, log = before ++ e :: after → R before e

section Histories
variable {α : Type} {R : List α → α → Prop} {log : List α} {e : α}

theorem recorded_nil : Recorded R [] := by
  intro before e after h
  exact absurd h.symm (List.append_ne_nil_of_right_ne_nil before (List.cons_ne_nil e after))

theorem recorded_concat : Recorded R (log ++ [e]) ↔ Recorded R log ∧ R log e := by
  constructor
  · intro h
    refine ⟨fun before e' after hlog => ?_, h log e [] rfl⟩
    exact h before e' (after ++ [e]) (by rw [hlog, List.append_assoc, List.cons_append])
  · intro ⟨h, he⟩ before e' after hlog
    rcases List.eq_nil_or_concat after with rfl | ⟨after', last, rfl⟩
    · obtain ⟨rfl, hlast⟩ := List.append_inj' hlog rfl
      cases hlast
      exact he
    · rw [List.concat_eq_append, ← List.cons_append, ← List.append_assoc] at hlog
      exact h before e' after' (List.append_inj' hlog rfl).1

/-- What is in a history was rightful when it was recorded. -/
theorem Recorded.of_mem (h : Recorded R log) (he : e ∈ log) :
    ∃ before, before ⊆ log ∧ R before e := by
  obtain ⟨before, after, rfl⟩ := List.append_of_mem he
  exact ⟨before, List.subset_append_left _ _, h before e after rfl⟩

end Histories

end CKernel.Run
