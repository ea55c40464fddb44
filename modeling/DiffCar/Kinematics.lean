import DiffCar.SpeedThread
import Mathlib.Tactic.FieldSimp

/-!
# Kinematics — the path of a saturated command

A command `(v, w)` asks the car for a speed and a turning rate. Its inverse
kinematics are the speeds of the two wheels, and `speedThread` cuts each of
them to `±200` on its own. The car then moves along the commanded path, only
slower, exactly when both wheels were cut by one factor.
-/

namespace DiffCar

open Clamp

/-! ## The car -/

/-- The speeds of the left and the right wheel in revolutions per minute that
move the car at `c.1` metres and `c.2` radians a second. -/
def inverseKinematics (c : ℚ × ℚ) : ℚ × ℚ :=
  ((c.1 - wheelBase / 2 * c.2) * 60 / circumference,
    (c.1 + wheelBase / 2 * c.2) * 60 / circumference)

/-- How the car moves at these speeds of its wheels. -/
def forwardKinematics (wheels : ℚ × ℚ) : ℚ × ℚ :=
  ((wheels.1 + wheels.2) / 2 * circumference / 60,
    (wheels.2 - wheels.1) * circumference / 60 / wheelBase)

theorem wheelBase_pos : 0 < wheelBase := by norm_num [wheelBase]

theorem circumference_pos : (0 : ℚ) < circumference := by
  norm_num [circumference, wheelRadius]

theorem forward_inverse (c : ℚ × ℚ) :
    forwardKinematics (inverseKinematics c) = c := by
  have hcirc := circumference_pos.ne'
  have hbase := wheelBase_pos.ne'
  apply Prod.ext
  · simp only [forwardKinematics, inverseKinematics]
    field_simp
    ring
  · simp only [forwardKinematics, inverseKinematics]
    field_simp
    ring

/-- The turning rate has the sign of the wheels' difference. -/
theorem sign_turn (c : ℚ × ℚ) :
    SignType.sign ((inverseKinematics c).2 - (inverseKinematics c).1)
      = SignType.sign c.2 := by
  have hdiff : (inverseKinematics c).2 - (inverseKinematics c).1
      = wheelBase * 60 / circumference * c.2 := by
    simp only [inverseKinematics]
    ring
  have hpos : (0 : ℚ) < wheelBase * 60 / circumference :=
    div_pos (mul_pos wheelBase_pos (by norm_num)) circumference_pos
  rw [hdiff, sign_mul, sign_pos hpos, one_mul]

/-- Two pairs of wheel speeds move the car along the same circle exactly when
they are proportional. -/
theorem same_circle_iff (a b : ℚ × ℚ) :
    (forwardKinematics a).1 * (forwardKinematics b).2
        = (forwardKinematics b).1 * (forwardKinematics a).2
      ↔ a.1 * b.2 = b.1 * a.2 := by
  have hcirc : (circumference : ℚ) ^ 2 / 3600 / wheelBase ≠ 0 :=
    (div_pos (div_pos (pow_pos circumference_pos 2) (by norm_num))
      wheelBase_pos).ne'
  have hdiff : (forwardKinematics a).1 * (forwardKinematics b).2
        - (forwardKinematics b).1 * (forwardKinematics a).2
      = circumference ^ 2 / 3600 / wheelBase * (a.1 * b.2 - b.1 * a.2) := by
    simp only [forwardKinematics]
    ring
  rw [← sub_eq_zero, hdiff, mul_eq_zero, or_iff_right hcirc, sub_eq_zero]

/-! ## Cutting two wheels one at a time -/

/-- Both wheels are cut by one factor: neither is too fast, or both are as
fast as each other, or one stands. -/
def KeepsPath (wheels : ℚ × ℚ) : Prop :=
  (|wheels.1| ≤ 200 ∧ |wheels.2| ≤ 200) ∨ |wheels.1| = |wheels.2|
    ∨ wheels.1 = 0 ∨ wheels.2 = 0

/-- Both wheels are cut at the same end. -/
def SameSide (wheels : ℚ × ℚ) : Prop :=
  (200 ≤ wheels.1 ∧ 200 ≤ wheels.2) ∨ (wheels.1 ≤ -200 ∧ wheels.2 ≤ -200)

instance (wheels : ℚ × ℚ) : Decidable (SameSide wheels) :=
  inferInstanceAs (Decidable (_ ∨ _))

theorem keepsPath_iff_scale (wheels : ℚ × ℚ) :
    KeepsPath wheels
      ↔ scale 200 wheels.1 = scale 200 wheels.2 ∨ wheels.1 = 0 ∨ wheels.2 = 0 := by
  rw [scale_eq_iff (by norm_num), KeepsPath, or_assoc]

/-- One factor for both wheels. -/
theorem common_factor_iff (wheels : ℚ × ℚ) :
    (∃ f : ℚ, 0 < f ∧ f ≤ 1 ∧ clamp (-200) 200 wheels.1 = f * wheels.1
        ∧ clamp (-200) 200 wheels.2 = f * wheels.2)
      ↔ KeepsPath wheels := by
  have h200 : (0 : ℚ) < 200 := by norm_num
  rw [keepsPath_iff_scale, clamp_eq_scale_mul h200, clamp_eq_scale_mul h200]
  constructor
  · rintro ⟨f, -, -, hleft, hright⟩
    rcases mul_eq_mul_right_iff.mp hleft with hleft | hzero
    · rcases mul_eq_mul_right_iff.mp hright with hright | hzero
      · exact .inl (hleft.trans hright.symm)
      · exact .inr (.inr hzero)
    · exact .inr (.inl hzero)
  · rintro (hscale | hzero | hzero)
    · exact ⟨scale 200 wheels.1, scale_pos h200 _, scale_le_one h200 _, rfl,
        by rw [hscale]⟩
    · exact ⟨scale 200 wheels.2, scale_pos h200 _, scale_le_one h200 _,
        by rw [hzero, mul_zero, mul_zero], rfl⟩
    · exact ⟨scale 200 wheels.1, scale_pos h200 _, scale_le_one h200 _, rfl,
        by rw [hzero, mul_zero, mul_zero]⟩

/-- The cut wheels are proportional to the wheels. -/
theorem proportional_iff (wheels : ℚ × ℚ) :
    clamp (-200) 200 wheels.1 * wheels.2 = wheels.1 * clamp (-200) 200 wheels.2
      ↔ KeepsPath wheels := by
  have h200 : (0 : ℚ) < 200 := by norm_num
  rw [keepsPath_iff_scale, clamp_eq_scale_mul h200, clamp_eq_scale_mul h200,
    mul_assoc, mul_left_comm wheels.1, mul_eq_mul_right_iff, mul_eq_zero]

/-! ## The setpoints of an iteration -/

/-- The thread computes the inverse kinematics. -/
theorem kinematics_eq (c : ℚ × ℚ) :
    (leftKinematics c, rightKinematics c) = inverseKinematics c := by
  simp only [leftKinematics, rightKinematics, inverseKinematics, Rat.cast_id]
  apply Prod.ext
  · ring
  · ring

theorem setpoints_eq (s : SpeedThread ℚ) (inp : Inputs ℚ) :
    (speedThread s inp).1.pleft.ref
        = clamp (-200) 200 (inverseKinematics (inp.msg.getD s.speed)).1
      ∧ (speedThread s inp).1.pright.ref
        = clamp (-200) 200 (inverseKinematics (inp.msg.getD s.speed)).2 := by
  rw [speedThread_pleft, speedThread_pright, ← kinematics_eq]
  exact ⟨saturate_eq_clamp _, saturate_eq_clamp _⟩

/-- **What saturation keeps of a command.** In every iteration, for the
command in force: the setpoints lie within `±200`; they are the inverse
kinematics when neither wheel is faster; in general each wheel is cut on its
own. They are the wheels times one factor in `(0, 1]`, and move the car along
the same circle, exactly for the commands of `KeepsPath`. The car turns to the
commanded side or, when both wheels are cut at the same end, not at all. -/
theorem saturation_path (s : SpeedThread ℚ) (inp : Inputs ℚ) :
    let command := inp.msg.getD s.speed
    let wheels := inverseKinematics command
    let left := (speedThread s inp).1.pleft.ref
    let right := (speedThread s inp).1.pright.ref
    let moved := forwardKinematics (left, right)
    (|left| ≤ 200 ∧ |right| ≤ 200)
      ∧ (left = clamp (-200) 200 wheels.1 ∧ right = clamp (-200) 200 wheels.2)
      ∧ (|wheels.1| ≤ 200 ∧ |wheels.2| ≤ 200 → (left, right) = wheels)
      ∧ ((∃ f, 0 < f ∧ f ≤ 1 ∧ left = f * wheels.1 ∧ right = f * wheels.2)
        ↔ KeepsPath wheels)
      ∧ (moved.1 * command.2 = command.1 * moved.2 ↔ KeepsPath wheels)
      ∧ SignType.sign (right - left)
        = if SameSide wheels then 0 else SignType.sign command.2 := by
  intro command wheels left right moved
  obtain ⟨hleft, hright⟩ := setpoints_eq s inp
  have hleft : left = clamp (-200) 200 wheels.1 := hleft
  have hright : right = clamp (-200) 200 wheels.2 := hright
  have hcommand : command = forwardKinematics wheels := (forward_inverse command).symm
  refine ⟨⟨?_, ?_⟩, ⟨hleft, hright⟩, ?_, ?_, ?_, ?_⟩
  · rw [hleft]
    exact abs_le.mpr ⟨le_clamp _ _ _, clamp_le (by norm_num) _⟩
  · rw [hright]
    exact abs_le.mpr ⟨le_clamp _ _ _, clamp_le (by norm_num) _⟩
  · rintro ⟨hslow, hslow'⟩
    obtain ⟨hlo, hhi⟩ := abs_le.mp hslow
    obtain ⟨hlo', hhi'⟩ := abs_le.mp hslow'
    rw [hleft, hright, clamp_of_mem hlo hhi, clamp_of_mem hlo' hhi']
  · rw [hleft, hright]
    exact common_factor_iff wheels
  · rw [hcommand]
    have hcircle := same_circle_iff (left, right) wheels
    have hprop := proportional_iff wheels
    rw [← hleft, ← hright] at hprop
    exact hcircle.trans hprop
  · rw [hleft, hright, sign_clamp_sub (by norm_num), sign_turn]
    rfl

/-- A command to go straight and turn: both wheels are cut to 200, and the
car does not turn. -/
theorem saturation_loses_turn :
    let inp : Inputs ℚ :=
      let idle : Reads := ⟨0, Timers.zero, Timers.zero, 0, 0⟩
      ⟨some (2, 1), idle, idle, idle, idle⟩
    let s := (speedThread (SpeedThread.start Stack.zero) inp).1
    SignType.sign (s.pright.ref - s.pleft.ref) ≠ SignType.sign (1 : ℚ) := by
  decide +kernel

end DiffCar
