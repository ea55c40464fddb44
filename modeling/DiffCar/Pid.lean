import DiffCar.Double
import DiffCar.Lib.Clamp
import Mathlib.Tactic.Linarith
import Mathlib.Tactic.Ring

/-!
# Pid — the wheel controller

`applications/pid.h`. The constructor sets the reference, the gains and the
limits; `_pre_err`, `_feed` and `_sum` keep what the memory held, so it takes
the previous contents of the object as an argument.

The integrator's clamp tests against the literal `100000` and assigns `_max`
or `_min`. Both callers pass `100000` and `-100000` for these (`Limits`), and
then it is a clamp to `[_min, _max]`, symmetric about zero like the clamp of
the output.
-/

namespace DiffCar

/-- `class Pid`. -/
structure Pid (T : Type) where
  preErr : T
  ref : T
  feed : T
  sum : T
  max : T
  min : T
  p : T
  i : T
  d : T

section Generic

variable {T : Type}

/-- `Pid::Pid`, in memory that held `mem`. -/
def Pid.construct (mem : Pid T) (ref p i d max min : T) : Pid T :=
  { mem with ref := ref, p := p, i := i, d := d, max := max, min := min }

/-- `Pid::setRef`. The source declares a result and returns none; the
reference is what callers use. -/
def Pid.setRef (s : Pid T) (ref : T) : Pid T := { s with ref := ref }

variable [Add T] [Sub T] [Mul T] [LT T] [DecidableLT T] [RatCast T]

/-- The integrator's clamp, `if(_sum > 0) ... else ...`. -/
def Pid.clampSum (s : Pid T) (sum : T) : T :=
  if ((0 : ℚ) : T) < sum then
    if ((100000 : ℚ) : T) < sum then s.max else sum
  else
    if sum < ((-100000 : ℚ) : T) then s.min else sum

/-- The output's clamp: the two conditional assignments, in their order. -/
def Pid.clampOut (s : Pid T) (out : T) : T :=
  let out := if s.max < out then s.max else out
  if out < s.min then s.min else out

/-- `_sum` after a call with this feedback. -/
def Pid.nextSum (s : Pid T) (feed : T) : T := s.clampSum (s.sum + (s.ref - feed))

/-- The value `Pid::calc` returns. -/
def Pid.output (s : Pid T) (feed : T) : T :=
  let err := s.ref - feed
  s.clampOut (s.p * err + s.i * s.nextSum feed + s.d * (s.preErr - err))

/-- `Pid::calc`: the object after the call and the returned value. -/
def Pid.calc (s : Pid T) (feed : T) : Pid T × T :=
  ({ s with sum := s.nextSum feed, preErr := s.ref - feed }, s.output feed)

@[simp] theorem Pid.calc_snd (s : Pid T) (feed : T) :
    (s.calc feed).2 = s.output feed := rfl

@[simp] theorem Pid.calc_sum (s : Pid T) (feed : T) :
    (s.calc feed).1.sum = s.nextSum feed := rfl

end Generic

namespace Pid

/-! ## The integrator's clamp, branch by branch -/

section Branches

variable {s : Pid ℚ} {x : ℚ}

/-- Between the literals the clamp is the identity. -/
theorem clampSum_of_mem (hlo : -100000 ≤ x) (hhi : x ≤ 100000) :
    s.clampSum x = x := by
  simp only [clampSum, Rat.cast_id, if_neg (not_lt.mpr hlo),
    if_neg (not_lt.mpr hhi), ite_self]

theorem clampSum_of_gt (hx : 100000 < x) : s.clampSum x = s.max := by
  have hpos : 0 < x := by linarith
  simp only [clampSum, Rat.cast_id, if_pos hpos, if_pos hx]

theorem clampSum_of_lt (hx : x < -100000) : s.clampSum x = s.min := by
  have hneg : ¬ 0 < x := by linarith
  simp only [clampSum, Rat.cast_id, if_neg hneg, if_pos hx]

end Branches

/-! ## The two objects of the program: limits `±100000` -/

/-- The limits both callers pass. -/
structure Limits (s : Pid ℚ) : Prop where
  max_eq : s.max = 100000
  min_eq : s.min = -100000

variable {s : Pid ℚ}

theorem Limits.construct (mem : Pid ℚ) (ref p i d : ℚ) :
    Limits (Pid.construct mem ref p i d 100000 (-100000)) :=
  ⟨rfl, rfl⟩

theorem Limits.setRef (h : Limits s) (ref : ℚ) : Limits (s.setRef ref) :=
  ⟨h.max_eq, h.min_eq⟩

theorem Limits.calc (h : Limits s) (feed : ℚ) : Limits (s.calc feed).1 :=
  ⟨h.max_eq, h.min_eq⟩

/-- With these limits the integrator's clamp is a clamp. -/
theorem Limits.clampSum_eq (h : Limits s) (x : ℚ) :
    s.clampSum x = Clamp.clamp (-100000) 100000 x := by
  by_cases hhi : 100000 < x
  · rw [clampSum_of_gt hhi, h.max_eq, Clamp.clamp_of_ge (by norm_num) hhi.le]
  · by_cases hlo : x < -100000
    · rw [clampSum_of_lt hlo, h.min_eq, Clamp.clamp_of_le hlo.le]
    · have hmem := And.intro (not_lt.mp hlo) (not_lt.mp hhi)
      rw [clampSum_of_mem hmem.1 hmem.2, Clamp.clamp_of_mem hmem.1 hmem.2]

/-- The output's clamp is a clamp whenever the limits are in order. -/
theorem clampOut_eq (hle : s.min ≤ s.max) (x : ℚ) :
    s.clampOut x = Clamp.clamp s.min s.max x := by
  simp only [clampOut]
  split_ifs with hhi hlo hlo
  -- the second test cannot hold of a value the first one has cut
  · exact absurd hlo (not_lt.mpr hle)
  · rw [Clamp.clamp_of_ge hle hhi.le]
  · rw [Clamp.clamp_of_le hlo.le]
  · rw [Clamp.clamp_of_mem (not_lt.mp hlo) (not_lt.mp hhi)]

theorem Limits.min_le_max (h : Limits s) : s.min ≤ s.max := by
  rw [h.max_eq, h.min_eq]
  norm_num

theorem Limits.clampOut_eq (h : Limits s) (x : ℚ) :
    s.clampOut x = Clamp.clamp (-100000) 100000 x := by
  rw [Pid.clampOut_eq h.min_le_max, h.max_eq, h.min_eq]

/-- Whatever the object holds, `calc` returns a value within its limits. -/
theorem output_mem_limits (hle : s.min ≤ s.max) (feed : ℚ) :
    s.min ≤ s.output feed ∧ s.output feed ≤ s.max := by
  rw [output, clampOut_eq hle]
  exact ⟨Clamp.le_clamp _ _ _, Clamp.clamp_le hle _⟩

theorem Limits.abs_output_le (h : Limits s) (feed : ℚ) :
    |s.output feed| ≤ 100000 := by
  obtain ⟨hlo, hhi⟩ := output_mem_limits h.min_le_max feed
  rw [h.min_eq] at hlo
  rw [h.max_eq] at hhi
  exact abs_le.mpr ⟨hlo, hhi⟩

/-! ## Mirror images

A controller and its mirror image share gains and limits; their reference,
integral and last error are opposite. -/

/-- `s'` is the mirror image of `s`. -/
structure Mirror (s s' : Pid ℚ) : Prop where
  limits : Limits s
  limits' : Limits s'
  preErr : s'.preErr = -s.preErr
  sum : s'.sum = -s.sum
  p : s'.p = s.p
  i : s'.i = s.i
  d : s'.d = s.d

theorem Mirror.clampSum {s s' : Pid ℚ} (h : Mirror s s') (x : ℚ) :
    s'.clampSum (-x) = -s.clampSum x := by
  rw [h.limits.clampSum_eq, h.limits'.clampSum_eq, Clamp.clamp_neg (by norm_num)]

theorem Mirror.clampOut {s s' : Pid ℚ} (h : Mirror s s') (x : ℚ) :
    s'.clampOut (-x) = -s.clampOut x := by
  rw [h.limits.clampOut_eq, h.limits'.clampOut_eq, Clamp.clamp_neg (by norm_num)]

theorem Mirror.nextSum {s s' : Pid ℚ} (h : Mirror s s')
    (href : s'.ref = -s.ref) (feed : ℚ) :
    s'.nextSum (-feed) = -s.nextSum feed := by
  have harg : s'.sum + (s'.ref - -feed) = -(s.sum + (s.ref - feed)) := by
    rw [h.sum, href]; ring
  rw [Pid.nextSum, Pid.nextSum, harg, h.clampSum]

/-- **Opposite feedback gives the opposite output.** -/
theorem Mirror.output {s s' : Pid ℚ} (h : Mirror s s')
    (href : s'.ref = -s.ref) (feed : ℚ) :
    s'.output (-feed) = -s.output feed := by
  have harg : s'.p * (s'.ref - -feed) + s'.i * s'.nextSum (-feed)
        + s'.d * (s'.preErr - (s'.ref - -feed))
      = -(s.p * (s.ref - feed) + s.i * s.nextSum feed
          + s.d * (s.preErr - (s.ref - feed))) := by
    rw [h.nextSum href, h.p, h.i, h.d, h.preErr, href]; ring
  rw [Pid.output, Pid.output, harg, h.clampOut]

/-- A call with opposite feedback leaves mirror images. -/
theorem Mirror.calc {s s' : Pid ℚ} (h : Mirror s s')
    (href : s'.ref = -s.ref) (feed : ℚ) :
    Mirror (s.calc feed).1 (s'.calc (-feed)).1 where
  limits := h.limits.calc feed
  limits' := h.limits'.calc (-feed)
  preErr := by
    show s'.ref - -feed = -(s.ref - feed)
    rw [href]; ring
  sum := h.nextSum href feed
  p := h.p
  i := h.i
  d := h.d

theorem Mirror.setRef {s s' : Pid ℚ} (h : Mirror s s') (ref ref' : ℚ) :
    Mirror (s.setRef ref) (s'.setRef ref') :=
  ⟨h.limits.setRef ref, h.limits'.setRef ref', h.preErr, h.sum, h.p, h.i, h.d⟩

end Pid

end DiffCar
