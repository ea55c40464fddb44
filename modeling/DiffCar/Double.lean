import DiffCar.Lib.ExtRat
import Mathlib.Data.Rat.Floor

/-!
# The `double`s of the controller

The controller's templates are instantiated at `double`. The model keeps
them generic in a type `T` with the operations the source uses; literals and
integers enter by `RatCast`. Two instances are used: `ℚ`, where a `double` is
an exact rational, and `ExtRat`, where it may also be an infinity or `NaN`.
-/

namespace DiffCar

/-- `fabs`. -/
def fabs {T : Type} [Neg T] [LT T] [DecidableLT T] [RatCast T] (x : T) : T :=
  if x < ((0 : ℚ) : T) then -x else x

@[simp] theorem fabs_rat (x : ℚ) : fabs x = |x| := by
  unfold fabs
  split
  · rename_i h
    exact (abs_of_neg h).symm
  · rename_i h
    exact (abs_of_nonneg (not_lt.mp h)).symm

/-- The conversion of a `double` argument to an `rt_uint32_t` parameter:
truncation toward zero. Outside `(-1, 2^32)` C leaves it undefined. -/
class ToUInt32 (T : Type) where
  toUInt32 : T → ℕ

export ToUInt32 (toUInt32)

instance : ToUInt32 ℚ := ⟨fun x => ⌊x⌋₊ % 2 ^ 32⟩

instance : ToUInt32 ExtRat where
  toUInt32
    | .fin x => toUInt32 x
    | .inf _ => 0
    | .nan => 0

/-- In the range of the pulses the conversion is the floor. -/
theorem toUInt32_eq_floor {x : ℚ} (h : x ≤ 100000) : toUInt32 x = ⌊x⌋₊ := by
  have hle : ⌊x⌋₊ ≤ 100000 := by
    have := Nat.floor_le_floor h
    simpa using this
  show ⌊x⌋₊ % 2 ^ 32 = ⌊x⌋₊
  exact Nat.mod_eq_of_lt (by omega)

end DiffCar
