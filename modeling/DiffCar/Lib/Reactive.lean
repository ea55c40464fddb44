import Mathlib.Data.List.Basic
import Mathlib.Data.List.Forall2

/-!
# Reactive machines

A loop body that reads an input, updates its state and emits an output is a
function `step : σ → ι → σ × ω`. `final` and `outputs` run it over a list of
inputs; the rest of the module is what one proves about such runs: an
invariant carried along, and a relation between two runs whose steps are
related.
-/

namespace Reactive

variable {σ ι ω σ' ι' ω' : Type*}

/-- The state after the inputs `is`. -/
def final (step : σ → ι → σ × ω) (s : σ) : List ι → σ
  | [] => s
  | i :: is => final step (step s i).1 is

/-- The outputs emitted on the inputs `is`, one per input. -/
def outputs (step : σ → ι → σ × ω) (s : σ) : List ι → List ω
  | [] => []
  | i :: is => (step s i).2 :: outputs step (step s i).1 is

section Single

variable (step : σ → ι → σ × ω)

@[simp] theorem final_nil (s : σ) : final step s [] = s := rfl

@[simp] theorem final_cons (s : σ) (i : ι) (is : List ι) :
    final step s (i :: is) = final step (step s i).1 is := rfl

@[simp] theorem outputs_nil (s : σ) : outputs step s [] = [] := rfl

@[simp] theorem outputs_cons (s : σ) (i : ι) (is : List ι) :
    outputs step s (i :: is) = (step s i).2 :: outputs step (step s i).1 is := rfl

theorem final_append (s : σ) (is js : List ι) :
    final step s (is ++ js) = final step (final step s is) js := by
  induction is generalizing s with
  | nil => rfl
  | cons i is ih => exact ih (step s i).1

theorem outputs_append (s : σ) (is js : List ι) :
    outputs step s (is ++ js)
      = outputs step s is ++ outputs step (final step s is) js := by
  induction is generalizing s with
  | nil => rfl
  | cons i is ih => simp [ih]

/-- The output at a position, by the state the inputs before it left. -/
theorem outputs_getElem? (s : σ) {is : List ι} {k : ℕ} (hk : k < is.length) :
    (outputs step s is)[k]?
      = some (step (final step s (is.take k)) is[k]).2 := by
  induction is generalizing s k with
  | nil => exact absurd hk (Nat.not_lt_zero _)
  | cons i is ih =>
      cases k with
      | zero => rfl
      | succ k => exact ih (step s i).1 (Nat.lt_of_succ_lt_succ hk)

variable {step} {P : σ → Prop} {A : ι → Prop}

/-- **The invariant rule**: what every step on an admissible input
preserves holds at the end of every run. -/
theorem final_inv (hstep : ∀ s i, P s → A i → P (step s i).1) {s : σ}
    (hs : P s) {is : List ι} (his : ∀ i ∈ is, A i) :
    P (final step s is) := by
  induction is generalizing s with
  | nil => exact hs
  | cons i is ih =>
      have hi : A i := his i (by simp)
      exact ih (hstep s i hs hi) (fun j hj => his j (by simp [hj]))

end Single

section Two

variable {step : σ → ι → σ × ω} {step' : σ' → ι' → σ' × ω'}
  {R : σ → σ' → Prop} {I : ι → ι' → Prop}

/-- **The relational rule**: two machines whose steps keep a relation of
their states keep it over runs on related inputs. -/
theorem final_rel
    (hstep : ∀ s s' i i', R s s' → I i i' → R (step s i).1 (step' s' i').1)
    {s : σ} {s' : σ'} (hs : R s s') {is : List ι} {is' : List ι'}
    (his : List.Forall₂ I is is') :
    R (final step s is) (final step' s' is') := by
  induction his generalizing s s' with
  | nil => exact hs
  | cons hi _ ih => exact ih (hstep _ _ _ _ hs hi)

end Two

end Reactive
