import DiffCar.PidHistory
import Mathlib.Tactic.FieldSimp

/-!
# Integrator — the limits the integrator respects

The integrator's clamp tests against `±100000` and assigns `_max` or `_min`.
Limits that reach at least as far as the two literals bound `_sum`, and the
clamp is then monotone, though not continuous: past the literal it jumps to
the limit. Limits inside the literals are passed by.
-/

namespace DiffCar

/-- The limits of an object reach as far as the literals of its clamp. -/
structure Pid.Covers (s : Pid ℚ) : Prop where
  max_ge : 100000 ≤ s.max
  min_le : s.min ≤ -100000

section Covers

variable {s : Pid ℚ}

/-- No call changes the limits. -/
theorem Pid.limits_after (s : Pid ℚ) (cs : List (PidCall ℚ)) :
    (s.after cs).max = s.max ∧ (s.after cs).min = s.min := by
  have hstep : ∀ (t : Pid ℚ) (c : PidCall ℚ), t.max = s.max ∧ t.min = s.min →
      True → (t.call c).1.max = s.max ∧ (t.call c).1.min = s.min := by
    intro t c ht _
    rcases c with ref | feed
    · exact ht
    · exact ht
  exact Reactive.final_inv hstep ⟨rfl, rfl⟩ (fun _ _ => trivial)

theorem Pid.Covers.after (h : s.Covers) (cs : List (PidCall ℚ)) :
    (s.after cs).Covers := by
  obtain ⟨hmax, hmin⟩ := s.limits_after cs
  exact ⟨hmax ▸ h.max_ge, hmin ▸ h.min_le⟩

theorem Pid.Covers.clampSum_mem (h : s.Covers) (x : ℚ) :
    s.min ≤ s.clampSum x ∧ s.clampSum x ≤ s.max := by
  have hmax := h.max_ge
  have hmin := h.min_le
  by_cases hhi : 100000 < x
  · rw [Pid.clampSum_of_gt hhi]
    exact ⟨by linarith, le_rfl⟩
  · by_cases hlo : x < -100000
    · rw [Pid.clampSum_of_lt hlo]
      exact ⟨le_rfl, by linarith⟩
    · rw [Pid.clampSum_of_mem (not_lt.mp hlo) (not_lt.mp hhi)]
      exact ⟨by linarith, by linarith⟩

theorem Pid.Covers.clampSum_mono (h : s.Covers) : Monotone s.clampSum := by
  intro x y hxy
  by_cases hx : x < -100000
  · rw [Pid.clampSum_of_lt hx]
    exact (h.clampSum_mem y).1
  · by_cases hy : 100000 < y
    · rw [Pid.clampSum_of_gt hy]
      exact (h.clampSum_mem x).2
    · -- neither branch of the clamp is taken
      have hx := not_lt.mp hx
      have hy := not_lt.mp hy
      rw [Pid.clampSum_of_mem hx (hxy.trans hy), Pid.clampSum_of_mem (hx.trans hxy) hy]
      exact hxy

end Covers

/-- **When the integrator respects its limits.** For any limits and a cleared
`_sum`: over every history `_sum` stays within them and is monotone in the
error of each call, if and only if they reach as far as `±100000`. -/
theorem integrator_iff (mem : Pid ℚ) (hsum : mem.sum = 0) (ref p i d max min : ℚ) :
    let s := Pid.construct mem ref p i d max min
    ((∀ (cs : List (PidCall ℚ)) (feed : ℚ),
        min ≤ ((s.after cs).calc feed).1.sum ∧ ((s.after cs).calc feed).1.sum ≤ max)
      ∧ ∀ (cs : List (PidCall ℚ)) (feed feed' : ℚ),
        (s.after cs).ref - feed ≤ (s.after cs).ref - feed' →
          ((s.after cs).calc feed).1.sum ≤ ((s.after cs).calc feed').1.sum)
      ↔ 100000 ≤ max ∧ min ≤ -100000 := by
  intro s
  constructor
  · rintro ⟨hmem, -⟩
    -- one call on an error between the limit and the literal
    have hfirst : ∀ e : ℚ, -100000 ≤ e → e ≤ 100000 → min ≤ e ∧ e ≤ max := by
      intro e hlo hhi
      have hcall : ((s.after []).calc (ref - e)).1.sum = e := by
        show s.clampSum (mem.sum + (ref - (ref - e))) = e
        rw [hsum, zero_add, sub_sub_cancel, Pid.clampSum_of_mem hlo hhi]
      have := hmem [] (ref - e)
      rwa [hcall] at this
    constructor
    · exact (hfirst 100000 (by norm_num) le_rfl).2
    · exact (hfirst (-100000) le_rfl (by norm_num)).1
  · rintro ⟨hhi, hlo⟩
    have hcovers : s.Covers := ⟨hhi, hlo⟩
    constructor
    · intro cs feed
      have hmem := (hcovers.after cs).clampSum_mem
        ((s.after cs).sum + ((s.after cs).ref - feed))
      obtain ⟨hmax', hmin'⟩ := s.limits_after cs
      rw [hmax', hmin'] at hmem
      exact hmem
    · intro cs feed feed' herr
      apply (hcovers.after cs).clampSum_mono
      linarith

/-- Limits wider than the literals. -/
theorem integrator_iff_wide :
    let s := Pid.construct ⟨0, 0, 0, 0, 0, 0, 0, 0, 0⟩ 0 800 2 1 200000 (-100000)
    (∀ (cs : List (PidCall ℚ)) (feed : ℚ),
        -100000 ≤ ((s.after cs).calc feed).1.sum
          ∧ ((s.after cs).calc feed).1.sum ≤ 200000)
      ∧ ∀ (cs : List (PidCall ℚ)) (feed feed' : ℚ),
        (s.after cs).ref - feed ≤ (s.after cs).ref - feed' →
          ((s.after cs).calc feed).1.sum ≤ ((s.after cs).calc feed').1.sum :=
  (integrator_iff ⟨0, 0, 0, 0, 0, 0, 0, 0, 0⟩ rfl 0 800 2 1 200000 (-100000)).mpr
    ⟨by norm_num, le_rfl⟩

/-- Limits of `±10`, and an error of 50 in the first call. -/
theorem integrator_passes_limit :
    ¬ ((((Pid.construct ⟨0, 0, 0, 0, 0, 0, 0, 0, 0⟩ 0 1 1 0 10 (-10)).after
        [.setRef 50]).calc (0 : ℚ)).1.sum ≤ 10) := by
  decide +kernel

end DiffCar
