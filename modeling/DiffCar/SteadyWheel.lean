import DiffCar.Reconstruction
import Mathlib.Tactic.FieldSimp

/-!
# SteadyWheel — the speed of a wheel that turns steadily

A wheel that turns by `c` counts a tick is sampled at any schedule. A call
that comes in the tick of the previous reading finds no displacement, takes
the elapsed time for one tick and pushes a rate of zero; every other call
pushes the rate of the wheel. The mean is then short of it by the part of the
window that calls of the first kind fill, the very first call of the object
among them when both its readings fall in one tick.
-/

namespace DiffCar

/-- The wheel turns by `c` counts in each elapsed tick. -/
def Move.Steady (c : ℚ) (m : Move) : Prop := (m.disp : ℚ) = c * m.elapsed

/-- At least one tick has passed since the previous reading. -/
abbrev Move.Later (m : Move) : Prop := 0 < m.elapsed

/-- The speed of a wheel in revolutions per minute, at `c` counts a tick. -/
def steadySpeed (c : ℚ) (cpr : BitVec 16) : ℚ := c * 60000 / cpr.toNat

/-- The rate pushed is the speed, or zero within one tick. -/
theorem Move.Steady.rate {c : ℚ} {m : Move} (h : m.Steady c) (cpr : BitVec 16) :
    m.rate cpr = if m.Later then steadySpeed c cpr else 0 := by
  rw [Move.rate, h]
  by_cases hlater : m.Later
  · have hmax : max 1 m.elapsed = m.elapsed := max_eq_right hlater
    have hne : (m.elapsed : ℚ) ≠ 0 := by exact_mod_cast hlater.ne'
    rw [if_pos hlater, hmax, steadySpeed]
    field_simp
  · have hzero : m.elapsed = 0 := by omega
    rw [if_neg hlater, hzero]
    simp

theorem sum_steady_rates {c : ℚ} {ms : List Move} (hms : ∀ m ∈ ms, m.Steady c)
    (cpr : BitVec 16) :
    (ms.map fun m => m.rate cpr).sum
      = steadySpeed c cpr * ms.countP fun m => m.Later := by
  induction ms with
  | nil => simp
  | cons m ms ih =>
      have hm : m.Steady c := hms m (by simp)
      have hrest := ih fun m' hm' => hms m' (by simp [hm'])
      rw [List.map_cons, List.sum_cons, hrest, hm.rate, List.countP_cons]
      by_cases hlater : m.Later
      · simp only [hlater, if_true, decide_true]
        push_cast
        ring
      · simp only [hlater, if_false, decide_false, Bool.false_eq_true]
        push_cast
        ring

/-- A part of the speed is the speed exactly when the part is the whole. -/
theorem part_eq_iff {speed : ℚ} {n : ℕ} (hn : 0 < n) {ms : List Move}
    (hlen : ms.length = n) :
    speed * (ms.countP fun m => m.Later) / n = speed
      ↔ speed = 0 ∨ ∀ m ∈ ms, m.Later := by
  subst hlen
  have hpos : (ms.length : ℚ) ≠ 0 := by exact_mod_cast hn.ne'
  rw [mul_div_assoc]
  constructor
  · intro heq
    by_cases hzero : speed = 0
    · exact .inl hzero
    · right
      have hpart := mul_left_cancel₀ hzero (heq.trans (mul_one speed).symm)
      rw [div_eq_one_iff_eq hpos] at hpart
      have hcount := List.countP_eq_length.mp (Nat.cast_injective hpart)
      intro m hm
      exact of_decide_eq_true (hcount m hm)
  · rintro (hzero | hall)
    · rw [hzero, zero_mul]
    · have hcount : ms.countP (fun m => m.Later) = ms.length :=
        List.countP_eq_length.mpr fun m hm => decide_eq_true (hall m hm)
      rw [hcount, div_self hpos, mul_one]

theorem signed_speed_eq_zero_iff (b : Bool) (c : ℚ) {cpr : BitVec 16} (hcpr : cpr ≠ 0) :
    ((if b then -1 else 1 : ℤ) : ℚ) * (c * 60000 / cpr.toNat) = 0 ↔ c = 0 := by
  have hinv : ((if b then -1 else 1 : ℤ) : ℚ) ≠ 0 := by
    cases b
    · norm_num
    · norm_num
  have hcprpos : (cpr.toNat : ℚ) ≠ 0 := by
    intro hzero
    exact hcpr (BitVec.eq_of_toNat_eq (by exact_mod_cast hzero))
  rw [mul_eq_zero, or_iff_right hinv, div_eq_zero_iff, or_iff_left hcprpos,
    mul_eq_zero, or_iff_left (by norm_num)]

/-! ## An object over its calls -/

/-- `st` is what the calls after the moves `ms` leave of an estimator and its
wheel. -/
structure Sampled (n : ℕ) (inverse : ℤ) (cpr : BitVec 16) (ms : List Move)
    (st : CalcSpeed ℚ × Wheel) : Prop where
  holds : Holds st.1.filter (ms.map fun m => m.rate cpr)
  memLen : st.1.filter.memLen = n
  tracks : Tracks st.1 st.2
  cpr : st.1.cpr = cpr
  inverse : st.1.inverse = inverse

section Sampled

variable {n : ℕ} {inverse : ℤ} {cpr : BitVec 16} {ms : List Move}
  {st : CalcSpeed ℚ × Wheel}

theorem Sampled.construct (hn : 0 < n) (mem : ℕ → ℚ) {name : String}
    (hname : IsEncoder name) (cpr : BitVec 16) (b : Bool) (w : Wheel) :
    Sampled n (if b then -1 else 1) cpr []
      ((CalcSpeed.construct n mem name cpr).setInverse b, w) where
  tracks := Tracks.of_first hname rfl w
  cpr := rfl
  inverse := rfl
  memLen := rfl
  holds := Holds.construct hn mem

theorem Sampled.step (h : Sampled n inverse cpr ms st) {m : Move} (hm : m.Fits) :
    Sampled n inverse cpr (ms ++ [m]) (encoderStep st m).1 where
  tracks := encoderStep_tracks st m h.tracks
  cpr := (encoderStep_cpr st m).trans h.cpr
  inverse := (sampled_inverse st.1 _).trans h.inverse
  memLen := by
    show ((st.1.sampled _).filter).memLen = n
    rw [sampled_filter, push_memLen, h.memLen]
  holds := by
    have hrpm := h.tracks.rpm hm
    rw [h.cpr] at hrpm
    rw [List.map_append, List.map_singleton, ← hrpm]
    exact h.holds.push _

theorem Sampled.run (h : Sampled n inverse cpr ms st) {ms' : List Move}
    (hms : ∀ m ∈ ms', m.Fits) :
    Sampled n inverse cpr (ms ++ ms') (Reactive.final encoderStep st ms') := by
  induction ms' generalizing ms st with
  | nil =>
      rw [List.append_nil]
      exact h
  | cons m ms' ih =>
      have hm : m.Fits := hms m (by simp)
      have hrest := ih (h.step hm) fun m' hm' => hms m' (by simp [hm'])
      rw [List.append_assoc] at hrest
      exact hrest

/-- What the call after one more move returns, and whether it is valid. -/
theorem Sampled.calc (h : Sampled n inverse cpr ms st) {m : Move} (hm : m.Fits) :
    (st.1.calc (st.2.reads st.1.encodeName m)).2
        = inverse * windowMean n ((ms ++ [m]).map fun m => m.rate cpr)
      ∧ ((st.1.calc (st.2.reads st.1.encodeName m)).1.isValid = true
        ↔ n ≤ (ms ++ [m]).length) := by
  have hrpm := h.tracks.rpm hm
  rw [h.cpr] at hrpm
  constructor
  · rw [calc_snd_of_holds h.holds, h.memLen, h.inverse, hrpm, List.map_append]
    rfl
  · have hnext := h.step hm
    show (encoderStep st m).1.1.filter.isFull = true ↔ _
    rw [hnext.holds.full, hnext.memLen, decide_eq_true_iff, List.length_map]

end Sampled

/-- **A steady wheel.** For any window, either direction, any counter and
tick to start from and any schedule: a call that leaves the object valid
returns the speed of the wheel times the part of the last `n` calls that came
at least a tick after the reading before them. It is the speed itself exactly
when the wheel stands or all of them did. -/
theorem steady_wheel (n : ℕ) (hn : 0 < n) (mem : ℕ → ℚ) (name : String)
    (hname : IsEncoder name) (cpr : BitVec 16) (hcpr : cpr ≠ 0) (b : Bool)
    (w : Wheel) (c : ℚ) (ms : List Move) (hms : ∀ m ∈ ms, m.Fits)
    (hsteady : ∀ m ∈ ms, m.Steady c) (k : ℕ) (hk : k < ms.length) :
    let st := Reactive.final encoderStep
      ((CalcSpeed.construct n mem name cpr).setInverse b, w) (ms.take k)
    let result := st.1.calc (st.2.reads st.1.encodeName ms[k])
    let speed := ((if b then -1 else 1 : ℤ) : ℚ) * (c * 60000 / cpr.toNat)
    let last := (ms.take (k + 1)).rtake n
    result.1.isValid = true →
      result.2 = speed * (last.countP fun m => m.Later) / n
        ∧ (result.2 = speed ↔ c = 0 ∨ ∀ m ∈ last, m.Later) := by
  intro st result speed last hvalid
  have hstate : Sampled n (if b then -1 else 1) cpr (ms.take k) st :=
    (Sampled.construct hn mem hname cpr b w).run
      fun m hm => hms m (List.mem_of_mem_take hm)
  have hcalc := hstate.calc (hms ms[k] (List.getElem_mem hk))
  rw [← List.take_succ_eq_append_getElem hk] at hcalc
  obtain ⟨hvalue, hlen⟩ := hcalc
  have hlen : n ≤ (ms.take (k + 1)).length := hlen.mp hvalid
  have hlast : ∀ m ∈ last, m.Steady c := fun m hm =>
    hsteady m (List.mem_of_mem_take (List.mem_of_mem_rtake hm))
  have hresult : result.2 = speed * (last.countP fun m => m.Later) / n := by
    rw [hvalue, windowMean_eq_sum (by rw [List.length_map]; exact hlen),
      ← List.map_rtake, sum_steady_rates hlast, ← mul_div_assoc, ← mul_assoc]
    rfl
  have hfull : last.length = n := by
    rw [List.length_rtake]
    omega
  refine ⟨hresult, ?_⟩
  rw [hresult, part_eq_iff hn hfull, signed_speed_eq_zero_iff b c hcpr]

/-- A first call, two calls a tick apart, and one more within the same tick,
as when the thread reports. -/
def steadyMoves : List Move := [⟨0, 0, 0⟩, ⟨5, 1, 0⟩, ⟨5, 1, 0⟩, ⟨0, 0, 0⟩]

/-- The object and its wheel before the calls: a window of two. -/
def steadyStart : CalcSpeed ℚ × Wheel :=
  ((CalcSpeed.construct 2 (fun _ => 0) "htm2" 60000).setInverse false,
    ⟨Timers.zero, 0⟩)

/-- The third call returns the speed of the wheel. -/
theorem steady_wheel_third :
    let st := Reactive.final encoderStep steadyStart (steadyMoves.take 2)
    (st.1.calc (st.2.reads st.1.encodeName steadyMoves[2])).2
      = ((if false then -1 else 1 : ℤ) : ℚ) * (5 * 60000 / (60000 : BitVec 16).toNat) :=
  (steady_wheel 2 two_pos (fun _ => 0) "htm2" (.inl rfl) 60000 (by decide) false
    ⟨Timers.zero, 0⟩ 5 steadyMoves
    (by
      intro m hm
      simp only [steadyMoves, List.mem_cons, List.not_mem_nil, or_false] at hm
      rcases hm with rfl | rfl | rfl | rfl
      · exact ⟨by decide, by decide⟩
      · exact ⟨by decide, by decide⟩
      · exact ⟨by decide, by decide⟩
      · exact ⟨by decide, by decide⟩)
    (by
      intro m hm
      simp only [steadyMoves, List.mem_cons, List.not_mem_nil, or_false] at hm
      rcases hm with rfl | rfl | rfl | rfl <;> norm_num [Move.Steady])
    2 (by decide) (by decide +kernel)).2.mpr (.inr (by decide))

/-- The fourth call returns half of it. -/
theorem steady_wheel_halved :
    let st := Reactive.final encoderStep steadyStart (steadyMoves.take 3)
    (st.1.calc (st.2.reads st.1.encodeName steadyMoves[3])).1.isValid = true
      ∧ (st.1.calc (st.2.reads st.1.encodeName steadyMoves[3])).2
        ≠ 1 * (5 * 60000 / (60000 : ℚ)) := by
  decide +kernel

end DiffCar
