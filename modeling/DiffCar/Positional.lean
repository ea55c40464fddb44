import DiffCar.PidHistory

/-!
# Positional — the controller and the textbook PID

The positional form of a discrete PID adds `d` times the increase of the
error. `Pid::calc` adds `_d * (_pre_err - err)`, which is `d` times its
decrease. Proportional and integral terms are those of the recurrence, so a
call returns the positional value only where the derivative term is zero or
the output limit hides its sign.
-/

namespace DiffCar

open Clamp

/-! ## The recurrence -/

/-- `e_k`, the error of the `k`-th call; `e_0` is `0`. -/
def err (es : List ℚ) (k : ℕ) : ℚ := (0 :: es).getD k 0

/-- `S_k`, the clamped sum of the first `k` errors. -/
def integral (es : List ℚ) : ℕ → ℚ
  | 0 => 0
  | k + 1 => clamp (-100000) 100000 (integral es k + err es (k + 1))

/-- The proportional and integral terms of the `k`-th call. -/
def proportionalIntegral (p i : ℚ) (es : List ℚ) (k : ℕ) : ℚ :=
  p * err es k + i * integral es k

/-- The `k`-th value of the positional PID, for `k` from `1`. -/
def positional (p i d : ℚ) (es : List ℚ) (k : ℕ) : ℚ :=
  clamp (-100000) 100000
    (proportionalIntegral p i es k + d * (err es k - err es (k - 1)))

/-! ## The controller follows it up to the sign of the derivative term -/

section Limits

variable {s : Pid ℚ}

/-- After `k` calls from cleared memory `_sum` and `_pre_err` are those of
the recurrence. -/
theorem Pid.Limits.final_errStep (h : s.Limits) (es : List ℚ) {k : ℕ}
    (hk : k ≤ es.length) :
    Reactive.final s.errStep (0, 0) (es.take k) = (integral es k, err es k) := by
  induction k with
  | zero => rfl
  | succ k ih =>
      have herr : err es (k + 1) = es[k] := by
        rw [err, List.getD_cons_succ, List.getD_eq_getElem?_getD,
          List.getElem?_eq_getElem hk]
        rfl
      rw [List.take_succ_eq_append_getElem hk, Reactive.final_append,
        ih (by omega), integral, herr, ← h.clampSum_eq]
      rfl

/-- What the call at position `k` returns. -/
theorem Pid.Limits.output_errStep (h : s.Limits) (es : List ℚ) {k : ℕ}
    (hk : k < es.length) :
    (Reactive.outputs s.errStep (0, 0) es)[k]?
      = some (clamp (-100000) 100000
          (proportionalIntegral s.p s.i es (k + 1)
            - s.d * (err es (k + 1) - err es k))) := by
  have hstate := h.final_errStep es hk.le
  have hnext := h.final_errStep es hk
  rw [List.take_succ_eq_append_getElem hk, Reactive.final_append, hstate] at hnext
  have hsum := congrArg Prod.fst hnext
  have herr := congrArg Prod.snd hnext
  simp only [Reactive.final_cons, Reactive.final_nil] at hsum herr
  rw [Reactive.outputs_getElem? _ _ hk, hstate]
  simp only [Pid.errStep] at hsum herr ⊢
  rw [hsum, herr, h.clampOut_eq, proportionalIntegral]
  congr 2
  ring

end Limits

/-- A clamp does not tell a term from its opposite exactly when the term is
zero or its magnitude does not reach inside the limits. -/
theorem clamp_sub_eq_clamp_add_iff {lo hi : ℚ} (h : lo < hi) (a x : ℚ) :
    clamp lo hi (a - x) = clamp lo hi (a + x)
      ↔ x = 0 ∨ hi ≤ a - |x| ∨ a + |x| ≤ lo := by
  rw [clamp_eq_iff h]
  have hx : a - x = a + x ↔ x = 0 := by
    constructor
    · intro heq
      linarith
    · intro hzero
      rw [hzero, sub_zero, add_zero]
  have hhi : (hi ≤ a - x ∧ hi ≤ a + x) ↔ hi ≤ a - |x| := by
    rcases abs_cases x with ⟨habs, _⟩ | ⟨habs, _⟩
    · rw [habs]
      constructor
      · exact fun h => h.1
      · exact fun h => ⟨h, by linarith⟩
    · rw [habs]
      constructor
      · intro h
        linarith [h.2]
      · intro h
        exact ⟨by linarith, by linarith⟩
  have hlo : (a - x ≤ lo ∧ a + x ≤ lo) ↔ a + |x| ≤ lo := by
    rcases abs_cases x with ⟨habs, _⟩ | ⟨habs, _⟩
    · rw [habs]
      constructor
      · exact fun h => h.2
      · exact fun h => ⟨by linarith, h⟩
    · rw [habs]
      constructor
      · intro h
        linarith [h.1]
      · intro h
        exact ⟨by linarith, by linarith⟩
  rw [hx, hhi, hlo]

/-- **When a call is positional.** In any history from cleared memory, with
the limits of the program and any gains, the call at position `k` returns the
positional value if and only if its derivative term is zero, or the other two
terms lie beyond a limit by at least the term's magnitude. -/
theorem positional_iff (mem : Pid ℚ) (hsum : mem.sum = 0) (hpre : mem.preErr = 0)
    (ref p i d : ℚ) (cs : List (PidCall ℚ)) (k : ℕ)
    (hk : k < (errors ref cs).length) :
    let es := errors ref cs
    let change := d * (err es (k + 1) - err es k)
    ((Pid.construct mem ref p i d 100000 (-100000)).returns cs)[k]?
        = some (positional p i d es (k + 1))
      ↔ change = 0
        ∨ 100000 ≤ proportionalIntegral p i es (k + 1) - |change|
        ∨ proportionalIntegral p i es (k + 1) + |change| ≤ -100000 := by
  intro es change
  have hout := (Pid.Limits.construct mem ref p i d).output_errStep es hk
  have hreturns : (Pid.construct mem ref p i d 100000 (-100000)).returns cs
      = Reactive.outputs (Pid.construct mem ref p i d 100000 (-100000)).errStep
          (0, 0) es := by
    rw [Pid.returns_construct, hsum, hpre]
  rw [hreturns, hout, Option.some.injEq, positional,
    ← clamp_sub_eq_clamp_add_iff (by norm_num)]
  rfl

/-- A step of the reference, and a feedback that stays. -/
def stepResponse : List (PidCall ℚ) := [.calc 0, .setRef 1, .calc 0, .calc 0]

/-- A controller of the program in cleared memory. -/
def clearedPid : Pid ℚ :=
  Pid.construct ⟨0, 0, 0, 0, 0, 0, 0, 0, 0⟩ 0 800 2 1 100000 (-100000)

/-- The third call sees the error of the second and is positional. -/
theorem positional_iff_stepResponse :
    (clearedPid.returns stepResponse)[2]?
      = some (positional 800 2 1 (errors 0 stepResponse) 3) :=
  (positional_iff ⟨0, 0, 0, 0, 0, 0, 0, 0, 0⟩ rfl rfl 0 800 2 1 stepResponse 2
    (by decide)).mpr (.inl (by norm_num [stepResponse, errors, err]))

/-- The second call sees the step: it returns 801 for 803. -/
theorem positional_broken :
    (clearedPid.returns stepResponse)[1]?
      ≠ some (positional 800 2 1 (errors 0 stepResponse) 2) := by
  decide +kernel

end DiffCar
