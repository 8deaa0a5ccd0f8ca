/-!
# Runs of operations that may be rejected

An operation answers with a result or an error and leaves a state in either case. A run
is a list of operations, each applied to the state that the one before it left, rejected
or not.
-/

namespace FallibleRuns

variable {σ ω ε ρ : Type}

/-- `P` holds of each operation of a run in the state that it meets. -/
def Along (step : σ → ω → Except ε ρ × σ) (P : σ → ω → Prop) : σ → List ω → Prop
  | _, [] => True
  | s, op :: ops => P s op ∧ Along step P (step s op).2 ops

/-- If it is rejected, the operation changes nothing. -/
def Atomic (step : σ → ω → Except ε ρ × σ) (s : σ) (op : ω) : Prop :=
  ∀ e, (step s op).1 = .error e → (step s op).2 = s

variable {step : σ → ω → Except ε ρ × σ} {P Q : σ → ω → Prop} {s : σ} {op : ω}

theorem along_congr (h : ∀ s op, P s op ↔ Q s op) (ops : List ω) :
    Along step P s ops ↔ Along step Q s ops := by
  induction ops generalizing s with
  | nil => exact Iff.rfl
  | cons op ops ih =>
      show P s op ∧ Along step P (step s op).2 ops ↔ Q s op ∧ Along step Q (step s op).2 ops
      rw [h, ih]

theorem atomic_of_ok {r : ρ} (h : (step s op).1 = .ok r) : Atomic step s op := by
  intro e he
  rw [h] at he
  cases he

theorem atomic_iff_of_error {e : ε} (h : (step s op).1 = .error e) :
    Atomic step s op ↔ (step s op).2 = s :=
  ⟨fun hatomic => hatomic e h, fun heq _ _ => heq⟩

end FallibleRuns
