import DiffCar.Positional

/-!
# StaleMemory — what a controller remembers of the memory it is built in

The constructor sets six members and leaves `_sum` and `_pre_err` as they
are. Both enter the first call of `calc`, and the integrator keeps its part.
Two objects built alike return the same over every history exactly when the
memory held the same two values, and for gains like the program's no history
has to be long to tell: three calls bring out a difference of `_sum`
(`sum_le_of_outputs`), one call a difference of `_pre_err`
(`preErr_eq_of_outputs`).
-/

namespace DiffCar

open Clamp

/-- Nothing else of the memory is ever read. -/
theorem Pid.returns_of_memory {T : Type} [Add T] [Sub T] [Mul T] [LT T]
    [DecidableLT T] [RatCast T] {mem mem' : Pid T} (hsum : mem.sum = mem'.sum)
    (hpre : mem.preErr = mem'.preErr) (ref p i d max min : T)
    (cs : List (PidCall T)) :
    (Pid.construct mem ref p i d max min).returns cs
      = (Pid.construct mem' ref p i d max min).returns cs := by
  rw [Pid.returns_construct, Pid.returns_construct, hsum, hpre]
  rfl

section Machine

variable {s : Pid ℚ} {m m' : ℚ × ℚ}

/-- Three errors that make integrals of opposite signs and show them. -/
theorem sum_le_of_outputs (h : s.Limits) (hi : 0 < s.i)
    (heq : ∀ es, Reactive.outputs s.errStep m es = Reactive.outputs s.errStep m' es) :
    m.1 ≤ m'.1 := by
  by_contra hlt
  have hlt : m'.1 < m.1 := not_le.mp hlt
  -- the first error takes the two sums to either side of zero
  have hout := congrArg (fun l => l.getLast?) (heq [-((m.1 + m'.1) / 2), 0, 0])
  have hpos : 0 < m.1 + -((m.1 + m'.1) / 2) := by linarith
  have hneg : m'.1 + -((m.1 + m'.1) / 2) < 0 := by linarith
  have hkept : ∀ x : ℚ, clamp (-100000) 100000 (clamp (-100000) 100000 x)
      = clamp (-100000) 100000 x := clamp_clamp (by norm_num)
  simp only [Reactive.outputs_cons, Reactive.outputs_nil, Pid.errStep,
    List.getLast?_cons_cons, List.getLast?_singleton, Option.some.injEq,
    h.clampSum_eq, h.clampOut_eq, mul_zero, zero_add, sub_zero,
    add_zero, hkept] at hout
  have hup : 0 < clamp (-100000) 100000 (m.1 + -((m.1 + m'.1) / 2)) :=
    lt_clamp (by norm_num) hpos
  have hdown : clamp (-100000) 100000 (m'.1 + -((m.1 + m'.1) / 2)) < 0 :=
    clamp_lt (by norm_num) hneg
  have hleft : 0 < clamp (-100000) 100000
      (s.i * clamp (-100000) 100000 (m.1 + -((m.1 + m'.1) / 2))) :=
    lt_clamp (by norm_num) (mul_pos hi hup)
  have hright : clamp (-100000) 100000
      (s.i * clamp (-100000) 100000 (m'.1 + -((m.1 + m'.1) / 2))) < 0 :=
    clamp_lt (by norm_num) (mul_neg_of_pos_of_neg hi hdown)
  rw [hout] at hleft
  exact lt_asymm hleft hright

/-- The integral as a function of the error meets any line that falls. -/
theorem exists_error_of_output_zero {q i : ℚ} (hq : 0 < q) (hi : 0 ≤ i)
    (sum c : ℚ) :
    ∃ e, q * e + i * clamp (-100000) 100000 (sum + e) + c = 0 := by
  by_cases hhi : 100000 ≤ sum + (-(i * 100000) - c) / q
  · refine ⟨(-(i * 100000) - c) / q, ?_⟩
    rw [clamp_of_ge (by norm_num) hhi]
    field_simp
    ring
  · by_cases hlo : sum + (i * 100000 - c) / q ≤ -100000
    · refine ⟨(i * 100000 - c) / q, ?_⟩
      rw [clamp_of_le hlo]
      field_simp
      ring
    · -- in between the integral does not saturate
      have hqi : 0 < q + i := by linarith
      refine ⟨-(i * sum + c) / (q + i), ?_⟩
      have hup : sum * q - c < (q + i) * 100000 := by
        have hlt := mul_lt_mul_of_pos_right (not_le.mp hhi) hq
        rw [add_mul, div_mul_cancel₀ _ hq.ne'] at hlt
        linarith
      have hdown : -((q + i) * 100000) < sum * q - c := by
        have hlt := mul_lt_mul_of_pos_right (not_le.mp hlo) hq
        rw [add_mul, div_mul_cancel₀ _ hq.ne'] at hlt
        linarith
      have hsum : sum + -(i * sum + c) / (q + i) = (sum * q - c) / (q + i) := by
        field_simp
        ring
      rw [hsum, clamp_of_mem (by rw [le_div_iff₀ hqi]; linarith)
        (by rw [div_le_iff₀ hqi]; linarith)]
      field_simp
      ring

/-- One error at which one of the two objects returns zero. -/
theorem preErr_eq_of_outputs (h : s.Limits) (hi : 0 ≤ s.i) (hd : 0 < s.d)
    (hdp : s.d < s.p) (hsum : m.1 = m'.1)
    (heq : ∀ es, Reactive.outputs s.errStep m es = Reactive.outputs s.errStep m' es) :
    m.2 = m'.2 := by
  obtain ⟨e, he⟩ := exists_error_of_output_zero (sub_pos.mpr hdp) hi m.1 (s.d * m.2)
  have hout := heq [e]
  simp only [Reactive.outputs_cons, Reactive.outputs_nil, Pid.errStep,
    List.cons.injEq, and_true, h.clampSum_eq, h.clampOut_eq, ← hsum]
    at hout
  have hzero : s.p * e + s.i * clamp (-100000) 100000 (m.1 + e) + s.d * (m.2 - e)
      = 0 := by
    rw [← he]
    ring
  rw [hzero, clamp_of_mem (x := (0 : ℚ)) (by norm_num) (by norm_num)] at hout
  have hzero' := (clamp_eq_of_mem (by norm_num) (by norm_num)).mp hout.symm
  have hterm : s.d * (m.2 - m'.2) = 0 := by linarith
  rcases mul_eq_zero.mp hterm with hbad | hsub
  · exact absurd hbad hd.ne'
  · exact sub_eq_zero.mp hsub

end Machine

/-- With the limits of the program and `0 < d < p`, `0 < i`, the histories
tell all differences of the two members. -/
theorem Pid.returns_eq_iff_memory (mem mem' : Pid ℚ) (ref : ℚ) {p i d : ℚ}
    (hi : 0 < i) (hd : 0 < d) (hdp : d < p) :
    (∀ cs, (Pid.construct mem ref p i d 100000 (-100000)).returns cs
        = (Pid.construct mem' ref p i d 100000 (-100000)).returns cs)
      ↔ mem.sum = mem'.sum ∧ mem.preErr = mem'.preErr := by
  constructor
  · intro heq
    have h := Pid.Limits.construct mem ref p i d
    have houtputs : ∀ es,
        Reactive.outputs (Pid.construct mem ref p i d 100000 (-100000)).errStep
            (mem.sum, mem.preErr) es
          = Reactive.outputs (Pid.construct mem ref p i d 100000 (-100000)).errStep
            (mem'.sum, mem'.preErr) es := by
      intro es
      have hcs := heq (es.map fun e => .calc (ref - e))
      have herrors : errors ref (es.map fun e => PidCall.calc (ref - e)) = es :=
        errors_surjective (fun x => by ring) es
      rw [Pid.returns_construct, Pid.returns_construct, herrors] at hcs
      exact hcs
    have hsum : mem.sum = mem'.sum :=
      le_antisymm (sum_le_of_outputs h hi houtputs)
        (sum_le_of_outputs h hi fun es => (houtputs es).symm)
    exact ⟨hsum, preErr_eq_of_outputs h hi.le hd hdp hsum houtputs⟩
  · rintro ⟨hsum, hpre⟩ cs
    exact Pid.returns_of_memory hsum hpre ref p i d 100000 (-100000) cs

/-- **When the memory does not show.** Two objects constructed with the same
six arguments return the same over every history, whatever the arguments,
exactly when the memory held the same `_sum` and `_pre_err`. With the limits
of the program the condition is no weaker for any gains with `0 < i` and
`0 < d < p`, the program's own among them. -/
theorem stale_memory_iff (mem mem' : Pid ℚ) :
    ((∀ (ref p i d max min : ℚ) (cs : List (PidCall ℚ)),
        (Pid.construct mem ref p i d max min).returns cs
          = (Pid.construct mem' ref p i d max min).returns cs)
      ↔ mem.sum = mem'.sum ∧ mem.preErr = mem'.preErr)
    ∧ ∀ ref p i d : ℚ, 0 < i → 0 < d → d < p →
      ((∀ cs : List (PidCall ℚ),
          (Pid.construct mem ref p i d 100000 (-100000)).returns cs
            = (Pid.construct mem' ref p i d 100000 (-100000)).returns cs)
        ↔ mem.sum = mem'.sum ∧ mem.preErr = mem'.preErr) := by
  constructor
  · constructor
    · intro heq
      have hdp : (1 : ℚ) < 800 := by norm_num
      have hprogram := Pid.returns_eq_iff_memory mem mem' 0 two_pos one_pos hdp
      exact hprogram.mp (heq 0 800 2 1 100000 (-100000))
    · rintro ⟨hsum, hpre⟩ ref p i d max min cs
      exact Pid.returns_of_memory hsum hpre ref p i d max min cs
  · intro ref p i d hi hd hdp
    exact Pid.returns_eq_iff_memory mem mem' ref hi hd hdp

/-- A controller of the program built where a one was left in `_sum`: its
first call on no error returns 2 where the other returns 0. -/
theorem stale_memory_shows :
    (Pid.construct ⟨0, 0, 0, 1, 0, 0, 0, 0, 0⟩ 0 800 2 1 100000 (-100000)).returns
        [.calc (0 : ℚ)]
      ≠ clearedPid.returns [.calc 0] := by
  decide +kernel

end DiffCar
