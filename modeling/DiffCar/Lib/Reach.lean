import Mathlib.Data.List.Basic

/-!
# Reachability in an interleaving

An interleaving is a partial step function `step : σ → α → Option σ`: an
action is a thread's next move, and `none` means that the thread cannot make
it now. `Reach step s₀` are the states some schedule leads to, `ReachWhile ok step s₀`
those where every action on the way met `ok`; `exec` runs one schedule.
-/

namespace Interleave

variable {σ α : Type*}

/-- States reached from `s₀` by enabled actions, in any order. -/
inductive Reach (step : σ → α → Option σ) (s₀ : σ) : σ → Prop
  | refl : Reach step s₀ s₀
  | tail {s t : σ} (a : α) : Reach step s₀ s → step s a = some t → Reach step s₀ t

variable {step : σ → α → Option σ} {s₀ s : σ}

/-- **The invariant rule**: what every enabled action preserves holds in
every state of every interleaving. -/
theorem Reach.inv {P : σ → Prop} (h : Reach step s₀ s) (h₀ : P s₀)
    (hstep : ∀ s a t, P s → step s a = some t → P t) : P s := by
  induction h with
  | refl => exact h₀
  | tail a _ hs ih => exact hstep _ a _ ih hs

theorem Reach.trans {t : σ} (h : Reach step s₀ s) (ht : Reach step s t) : Reach step s₀ t := by
  induction ht with
  | refl => exact h
  | tail a _ hs ih => exact ih.tail a hs

/-- States reached by actions that all meet `ok`, a condition on the action
and on the state before it. -/
inductive ReachWhile (ok : σ → α → Prop) (step : σ → α → Option σ) (s₀ : σ) : σ → Prop
  | refl : ReachWhile ok step s₀ s₀
  | tail {s t : σ} (a : α) :
      ReachWhile ok step s₀ s → ok s a → step s a = some t → ReachWhile ok step s₀ t

/-- The invariant rule for such runs. -/
theorem ReachWhile.inv {ok : σ → α → Prop} {P : σ → Prop} (h : ReachWhile ok step s₀ s)
    (h₀ : P s₀) (hstep : ∀ s a t, P s → ok s a → step s a = some t → P t) : P s := by
  induction h with
  | refl => exact h₀
  | tail a _ hok hs ih => exact hstep _ a _ ih hok hs

/-- The state after a schedule, `none` when some action of it is refused. -/
def exec (step : σ → α → Option σ) (s : σ) : List α → Option σ
  | [] => some s
  | a :: as => (step s a).bind fun t => exec step t as

/-- A schedule that is not refused leads to a reachable state. -/
theorem Reach.exec {as : List α} {t : σ} (h : Reach step s₀ s)
    (hrun : exec step s as = some t) : Reach step s₀ t := by
  induction as generalizing s with
  | nil =>
      simp only [Interleave.exec, Option.some.injEq] at hrun
      exact hrun ▸ h
  | cons a as ih =>
      simp only [Interleave.exec, Option.bind_eq_some_iff] at hrun
      obtain ⟨u, hu, hrun⟩ := hrun
      exact ih (h.tail a hu) hrun

/-- The state after a schedule, `none` also when some action does not meet
`ok`. -/
def execWhile (ok : σ → α → Prop) [∀ s a, Decidable (ok s a)] (step : σ → α → Option σ) (s : σ) :
    List α → Option σ
  | [] => some s
  | a :: as => if ok s a then (step s a).bind fun t => execWhile ok step t as else none

theorem ReachWhile.exec {ok : σ → α → Prop} [∀ s a, Decidable (ok s a)] {as : List α} {t : σ}
    (h : ReachWhile ok step s₀ s) (hrun : execWhile ok step s as = some t) :
    ReachWhile ok step s₀ t := by
  induction as generalizing s with
  | nil =>
      simp only [execWhile, Option.some.injEq] at hrun
      exact hrun ▸ h
  | cons a as ih =>
      rw [execWhile, Option.ite_none_right_eq_some] at hrun
      obtain ⟨hok, hrun⟩ := hrun
      obtain ⟨u, hu, hrun⟩ := Option.bind_eq_some_iff.mp hrun
      exact ih (h.tail a hok hu) hrun

/-- One schedule after another. -/
theorem exec_append (as bs : List α) :
    exec step s (as ++ bs) = (exec step s as).bind fun t => exec step t bs := by
  induction as generalizing s with
  | nil => rfl
  | cons a as ih =>
      simp only [List.cons_append, exec, Option.bind_assoc]
      congr 1
      funext t
      exact ih

/-- One more action at the end of a schedule. -/
theorem exec_concat {as : List α} {a : α} {t : σ} (h : exec step s as = some t) :
    exec step s (as ++ [a]) = step t a := by
  rw [exec_append, h, Option.bind_some]
  simp only [exec, Option.bind_fun_some]

end Interleave
