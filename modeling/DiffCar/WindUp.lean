import DiffCar.Positional

/-!
# WindUp — how long a stalled controller pushes the wrong way

After one call the integrator is within its limits, whatever the memory held
(`abs_sum_le`). From there errors of one sign and of a least magnitude take
it past zero in a bounded number of calls, each of which moves it by that
magnitude until a limit stops it (`sum_le_of_errors_le`). The derivative term
has the other sign than the errors, but no more weight than the proportional
one, so then the output has the sign of the errors.

The machine of errors is odd under negation (`errStep_neg`), which carries
the results for negative errors over to positive ones.
-/

namespace DiffCar

open Clamp

section Machine

variable {s : Pid ℚ} {m : ℚ × ℚ} {es : List ℚ} {delta : ℚ}

/-- Whatever the memory held, one call brings `_sum` within the limits. -/
theorem Pid.Limits.abs_sum_le (h : s.Limits) (m : ℚ × ℚ) (hes : es ≠ []) :
    |(Reactive.final s.errStep m es).1| ≤ 100000 := by
  obtain ⟨es', e, rfl⟩ := (List.eq_nil_or_concat' es).resolve_left hes
  rw [Reactive.final_append]
  show |s.clampSum _| ≤ 100000
  rw [h.clampSum_eq]
  exact abs_le.mpr ⟨le_clamp _ _ _, clamp_le (by norm_num) _⟩

/-- Errors of at most `-delta` take `_sum` down by `delta` each, until the
lower limit stops it. -/
theorem Pid.Limits.sum_le_of_errors_le (h : s.Limits) (hdelta : 0 ≤ delta)
    (hes : ∀ e ∈ es, e ≤ -delta) :
    (Reactive.final s.errStep m es).1
      ≤ Max.max (-100000) (m.1 - es.length * delta) := by
  induction es generalizing m with
  | nil => simp
  | cons e es ih =>
      have he : e ≤ -delta := hes e (by simp)
      have hrest := ih (m := (s.errStep m e).1) (fun e' he' => hes e' (by simp [he']))
      have hsum : (s.errStep m e).1.1 ≤ Max.max (-100000) (m.1 - delta) := by
        show s.clampSum (m.1 + e) ≤ _
        rw [h.clampSum_eq]
        refine max_le_max le_rfl ((min_le_right _ _).trans ?_)
        linarith
      have hlen : ((e :: es).length : ℚ) * delta = es.length * delta + delta := by
        rw [List.length_cons]
        push_cast
        ring
      have hpos : 0 ≤ es.length * delta :=
        mul_nonneg (Nat.cast_nonneg _) hdelta
      rw [Reactive.final_cons, hlen]
      refine hrest.trans (max_le (le_max_left _ _) ?_)
      rcases le_max_iff.mp hsum with hlimit | hmoved
      · exact le_max_of_le_left (by linarith)
      · exact le_max_of_le_right (by linarith)

/-- A second error in a row of at most `-delta` gives a negative output once
`_sum` is not positive. -/
theorem Pid.Limits.output_neg (h : s.Limits) (hp : 0 < s.p) (hi : 0 ≤ s.i)
    (hd : 0 ≤ s.d) (hdp : s.d ≤ s.p) (hdelta : 0 < delta) {e : ℚ}
    (he : e ≤ -delta) (hpre : m.2 ≤ -delta) (hsum : (s.errStep m e).1.1 ≤ 0) :
    (s.errStep m e).2 < 0 := by
  have hsum : s.clampSum (m.1 + e) ≤ 0 := hsum
  show s.clampOut (s.p * e + s.i * s.clampSum (m.1 + e) + s.d * (m.2 - e)) < 0
  have hprop : (s.p - s.d) * e ≤ (s.p - s.d) * -delta :=
    mul_le_mul_of_nonneg_left he (by linarith)
  have hderiv : s.d * m.2 ≤ s.d * -delta := mul_le_mul_of_nonneg_left hpre hd
  have hint : s.i * s.clampSum (m.1 + e) ≤ 0 := mul_nonpos_of_nonneg_of_nonpos hi hsum
  have hgain : 0 < s.p * delta := mul_pos hp hdelta
  rw [h.clampOut_eq]
  refine clamp_lt (by norm_num) ?_
  linarith

/-- **Recovery from errors of the negative sign.** -/
theorem Pid.Limits.last_output_neg (h : s.Limits) (hp : 0 < s.p) (hi : 0 ≤ s.i)
    (hd : 0 ≤ s.d) (hdp : s.d ≤ s.p) (hm : |m.1| ≤ 100000) (hdelta : 0 < delta)
    (htwo : 2 ≤ es.length) (hlong : 100000 ≤ es.length * delta)
    (hes : ∀ e ∈ es, e ≤ -delta) :
    ∃ out, (Reactive.outputs s.errStep m es).getLast? = some out ∧ out < 0 := by
  have hne : es ≠ [] := by
    rintro rfl
    exact absurd htwo (by decide)
  obtain ⟨es', e, rfl⟩ := (List.eq_nil_or_concat' es).resolve_left hne
  have hne' : es' ≠ [] := by
    rintro rfl
    simp at htwo
  obtain ⟨es'', e', rfl⟩ := (List.eq_nil_or_concat' es').resolve_left hne'
  have hsum := h.sum_le_of_errors_le (m := m) hdelta.le hes
  rw [Reactive.final_append] at hsum
  -- the last but one error is what the last call finds in _pre_err
  have hpre : (Reactive.final s.errStep m (es'' ++ [e'])).2 = e' := by
    rw [Reactive.final_append]
    rfl
  refine ⟨_, ?_, h.output_neg hp hi hd hdp hdelta (e := e)
    (m := Reactive.final s.errStep m (es'' ++ [e'])) (hes e (by simp)) ?_ ?_⟩
  · rw [Reactive.outputs_append]
    simp
  · rw [hpre]
    exact hes e' (by simp)
  · refine hsum.trans (max_le (by norm_num) ?_)
    have := (abs_le.mp hm).2
    linarith

/-- The machine is odd: opposite errors from the opposite state. -/
theorem Pid.Limits.errStep_neg (h : s.Limits) (m : ℚ × ℚ) (e : ℚ) :
    s.errStep (-m) (-e) = -s.errStep m e := by
  have hsum : s.clampSum ((-m).1 + -e) = -s.clampSum (m.1 + e) := by
    have harg : (-m).1 + -e = -(m.1 + e) := by
      show -m.1 + -e = _
      ring
    rw [harg, h.clampSum_eq, h.clampSum_eq, Clamp.clamp_neg (by norm_num)]
  have harg : s.p * -e + s.i * -s.clampSum (m.1 + e) + s.d * ((-m).2 - -e)
      = -(s.p * e + s.i * s.clampSum (m.1 + e) + s.d * (m.2 - e)) := by
    show s.p * -e + s.i * -s.clampSum (m.1 + e) + s.d * (-m.2 - -e) = _
    ring
  simp only [Pid.errStep, hsum, harg]
  rw [h.clampOut_eq, h.clampOut_eq, Clamp.clamp_neg (by norm_num)]
  rfl

theorem Pid.Limits.outputs_neg (h : s.Limits) (m : ℚ × ℚ) (es : List ℚ) :
    Reactive.outputs s.errStep (-m) (es.map fun e => -e)
      = (Reactive.outputs s.errStep m es).map fun out => -out := by
  induction es generalizing m with
  | nil => rfl
  | cons e es ih =>
      simp only [List.map_cons, Reactive.outputs_cons, h.errStep_neg]
      exact congrArg (_ :: ·) (ih _)

/-- **Recovery from errors of the positive sign.** -/
theorem Pid.Limits.last_output_pos (h : s.Limits) (hp : 0 < s.p) (hi : 0 ≤ s.i)
    (hd : 0 ≤ s.d) (hdp : s.d ≤ s.p) (hm : |m.1| ≤ 100000) (hdelta : 0 < delta)
    (htwo : 2 ≤ es.length) (hlong : 100000 ≤ es.length * delta)
    (hes : ∀ e ∈ es, delta ≤ e) :
    ∃ out, (Reactive.outputs s.errStep m es).getLast? = some out ∧ 0 < out := by
  have hneg : ∀ e ∈ es.map (fun e => -e), e ≤ -delta := by
    intro e he
    obtain ⟨e', he', rfl⟩ := List.mem_map.mp he
    exact neg_le_neg (hes e' he')
  have hm' : |(-m).1| ≤ 100000 := by
    show |-m.1| ≤ 100000
    rw [abs_neg]
    exact hm
  obtain ⟨out, hout, hlt⟩ := h.last_output_neg hp hi hd hdp hm' hdelta
    (by rw [List.length_map]; exact htwo) (by rw [List.length_map]; exact hlong) hneg
  rw [h.outputs_neg, List.getLast?_map, Option.map_eq_some_iff] at hout
  obtain ⟨out', hout', rfl⟩ := hout
  exact ⟨out', hout', by linarith⟩

end Machine

/-- **Bounded wind-up recovery.** With the limits of the program and gains
with `0 ≤ d ≤ p`, after any history with at least one call of `calc`, from
any memory: when the next `n` calls all have an error of at least `delta` in
magnitude and of one sign, with `n * delta` at least the limit, the last of
them returns a value of that sign. -/
theorem windup_recovery (mem : Pid ℚ) (ref p i d : ℚ) (hp : 0 < p) (hi : 0 ≤ i)
    (hd : 0 ≤ d) (hdp : d ≤ p) (cs : List (PidCall ℚ)) (hcs : errors ref cs ≠ [])
    (delta : ℚ) (hdelta : 0 < delta) (n : ℕ) (htwo : 2 ≤ n)
    (hlong : 100000 ≤ n * delta) (ds : List (PidCall ℚ)) :
    let s := (Pid.construct mem ref p i d 100000 (-100000)).after cs
    (errors s.ref ds).length = n →
      ((∀ e ∈ errors s.ref ds, e ≤ -delta) →
          ∃ out, (s.returns ds).getLast? = some out ∧ out < 0)
        ∧ ((∀ e ∈ errors s.ref ds, delta ≤ e) →
          ∃ out, (s.returns ds).getLast? = some out ∧ 0 < out) := by
  intro s hn
  have h := Pid.Limits.construct mem ref p i d
  have hm := h.abs_sum_le (mem.sum, mem.preErr) hcs
  subst hn
  have hreturns := Pid.returns_after (Pid.construct mem ref p i d 100000 (-100000)) cs ds
  constructor
  · intro hes
    rw [hreturns]
    exact h.last_output_neg hp hi hd hdp hm hdelta htwo hlong hes
  · intro hes
    rw [hreturns]
    exact h.last_output_pos hp hi hd hdp hm hdelta htwo hlong hes

/-- A stall that winds the integrator up in two calls, then two calls that
unwind it. -/
theorem windup_recovery_two :
    ∃ out : ℚ, (((Pid.construct ⟨7, 0, 0, 5, 0, 0, 0, 0, 0⟩ 0 800 2 1 100000
        (-100000)).after [.setRef 90000, .calc 0, .calc 0]).returns
          [.setRef 0, .calc 50000, .calc 50000]).getLast? = some out ∧ out < 0 :=
  (windup_recovery ⟨7, 0, 0, 5, 0, 0, 0, 0, 0⟩ 0 800 2 1 (by norm_num) (by norm_num)
    (by norm_num) (by norm_num) [.setRef 90000, .calc 0, .calc 0]
    (by simp) 50000 (by norm_num) 2 le_rfl (by norm_num)
    [.setRef 0, .calc 50000, .calc 50000] rfl).1 (by norm_num [errors])

end DiffCar
