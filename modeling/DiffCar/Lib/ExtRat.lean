import Mathlib.Algebra.Order.Ring.Rat
import Mathlib.Data.Rat.Cast.Defs

/-!
# Rationals with infinities and NaN

The values of a floating-point variable whose finite arithmetic is exact:
`NaN` absorbs, comparisons with it are false, `∞ - ∞`, `0 * ∞` and `∞ / ∞`
are `NaN`, and a finite number over zero is an infinity. Zero has one sign.
-/

/-- A floating-point value with exact finite part; `inf true` is `-∞`. -/
inductive ExtRat where
  | fin (q : ℚ)
  | inf (neg : Bool)
  | nan
  deriving DecidableEq

namespace ExtRat

protected def add : ExtRat → ExtRat → ExtRat
  | .fin a, .fin b => .fin (a + b)
  | .nan, _ => .nan
  | _, .nan => .nan
  | .inf s, .fin _ => .inf s
  | .fin _, .inf s => .inf s
  | .inf s, .inf t => if s = t then .inf s else .nan

protected def neg : ExtRat → ExtRat
  | .fin a => .fin (-a)
  | .inf s => .inf (!s)
  | .nan => .nan

protected def mul : ExtRat → ExtRat → ExtRat
  | .fin a, .fin b => .fin (a * b)
  | .nan, _ => .nan
  | _, .nan => .nan
  | .inf s, .fin a => if a = 0 then .nan else .inf (xor s (decide (a < 0)))
  | .fin a, .inf s => if a = 0 then .nan else .inf (xor s (decide (a < 0)))
  | .inf s, .inf t => .inf (xor s t)

protected def div : ExtRat → ExtRat → ExtRat
  | .nan, _ => .nan
  | _, .nan => .nan
  | .fin a, .fin b =>
      if b = 0 then (if a = 0 then .nan else .inf (decide (a < 0)))
      else .fin (a / b)
  | .fin _, .inf _ => .fin 0
  | .inf s, .fin b => .inf (xor s (decide (b < 0)))
  | .inf _, .inf _ => .nan

/-- The comparison `a < b`, false as soon as one side is `NaN`. -/
protected def blt : ExtRat → ExtRat → Bool
  | .fin a, .fin b => decide (a < b)
  | .fin _, .inf s => !s
  | .inf s, .fin _ => s
  | .inf s, .inf t => s && !t
  | .nan, _ => false
  | _, .nan => false

instance : Add ExtRat := ⟨ExtRat.add⟩
instance : Neg ExtRat := ⟨ExtRat.neg⟩
instance : Sub ExtRat := ⟨fun a b => a + -b⟩
instance : Mul ExtRat := ⟨ExtRat.mul⟩
instance : Div ExtRat := ⟨ExtRat.div⟩
instance : LT ExtRat := ⟨fun a b => ExtRat.blt a b = true⟩
instance : DecidableLT ExtRat := fun a b =>
  inferInstanceAs (Decidable (ExtRat.blt a b = true))
instance : RatCast ExtRat := ⟨.fin⟩

/-- Neither an infinity nor `NaN`. -/
def IsFin (x : ExtRat) : Prop := ∃ q, x = .fin q

instance : DecidablePred IsFin := fun x =>
  match x with
  | .fin q => .isTrue ⟨q, rfl⟩
  | .inf _ => .isFalse fun h => nomatch h
  | .nan => .isFalse fun h => nomatch h

@[simp] theorem isFin_fin (q : ℚ) : IsFin (.fin q) := ⟨q, rfl⟩

@[simp] theorem not_isFin_nan : ¬ IsFin .nan := fun h => nomatch h

@[simp] theorem cast_eq (q : ℚ) : ((q : ℚ) : ExtRat) = .fin q := rfl

/-! ## Finite arithmetic is the arithmetic of `ℚ` -/

@[simp] theorem fin_add (a b : ℚ) : fin a + fin b = fin (a + b) := rfl

@[simp] theorem neg_fin (a : ℚ) : -fin a = fin (-a) := rfl

@[simp] theorem fin_sub (a b : ℚ) : fin a - fin b = fin (a - b) := by
  show fin (a + -b) = fin (a - b)
  rw [sub_eq_add_neg]

@[simp] theorem fin_mul (a b : ℚ) : fin a * fin b = fin (a * b) := rfl

theorem fin_div (a : ℚ) {b : ℚ} (hb : b ≠ 0) : fin a / fin b = fin (a / b) := by
  show ExtRat.div (fin a) (fin b) = fin (a / b)
  simp [ExtRat.div, hb]

@[simp] theorem fin_lt_fin (a b : ℚ) : fin a < fin b ↔ a < b :=
  decide_eq_true_iff

/-! ## `NaN` absorbs -/

@[simp] theorem nan_add (x : ExtRat) : nan + x = nan := by cases x <;> rfl

@[simp] theorem add_nan (x : ExtRat) : x + nan = nan := by cases x <;> rfl

@[simp] theorem neg_nan : -nan = nan := rfl

@[simp] theorem nan_sub (x : ExtRat) : nan - x = nan := nan_add (-x)

@[simp] theorem nan_mul (x : ExtRat) : nan * x = nan := by cases x <;> rfl

@[simp] theorem mul_nan (x : ExtRat) : x * nan = nan := by cases x <;> rfl

@[simp] theorem nan_div (x : ExtRat) : nan / x = nan := by cases x <;> rfl

@[simp] theorem not_nan_lt (x : ExtRat) : ¬ nan < x := by
  cases x <;> exact Bool.false_ne_true

@[simp] theorem not_lt_nan (x : ExtRat) : ¬ x < nan := by
  cases x <;> exact Bool.false_ne_true

/-! ## Where `NaN` comes from

Scaling by a finite positive factor makes no `NaN`; adding makes one exactly
from opposite infinities. -/

@[simp] theorem neg_inf (s : Bool) : -inf s = inf (!s) := rfl

theorem fin_mul_eq_nan {a : ℚ} (ha : a ≠ 0) (x : ExtRat) :
    fin a * x = nan ↔ x = nan := by
  cases x with
  | fin q => simp
  | nan => simp
  | inf s =>
      show (if a = 0 then nan else inf _) = nan ↔ inf s = nan
      simp [ha]

theorem mul_fin_eq_nan {a : ℚ} (ha : a ≠ 0) (x : ExtRat) :
    x * fin a = nan ↔ x = nan := by
  cases x with
  | fin q => simp
  | nan => simp
  | inf s =>
      show (if a = 0 then nan else inf _) = nan ↔ inf s = nan
      simp [ha]

theorem div_fin_eq_nan {b : ℚ} (hb : b ≠ 0) (x : ExtRat) :
    x / fin b = nan ↔ x = nan := by
  cases x with
  | fin q => simp [fin_div q hb]
  | nan => simp
  | inf s =>
      show inf _ = nan ↔ inf s = nan
      simp

theorem fin_mul_inf {a : ℚ} (ha : 0 < a) (s : Bool) : fin a * inf s = inf s := by
  show (if a = 0 then nan else inf (xor s (decide (a < 0)))) = inf s
  simp [ha.ne', ha.not_gt]

theorem add_eq_nan (x y : ExtRat) :
    x + y = nan ↔ x = nan ∨ y = nan ∨ ∃ s, x = inf s ∧ y = inf (!s) := by
  cases x with
  | nan => simp
  | fin a =>
      cases y with
      | nan => simp
      | fin b => simp
      | inf t =>
          show inf t = nan ↔ _
          simp
  | inf s =>
      cases y with
      | nan => simp
      | fin b =>
          show inf s = nan ↔ _
          simp
      | inf t =>
          show (if s = t then inf s else nan) = nan ↔ _
          cases s <;> cases t <;> simp

theorem sub_eq_nan (x y : ExtRat) :
    x - y = nan ↔ x = nan ∨ y = nan ∨ ∃ s, x = inf s ∧ y = inf s := by
  show x + -y = nan ↔ _
  rw [add_eq_nan]
  cases y with
  | nan => simp
  | fin b => simp
  | inf t => cases t <;> simp

/-! ## Closure of the finite values -/

theorem IsFin.add {x y : ExtRat} (hx : IsFin x) (hy : IsFin y) :
    IsFin (x + y) := by
  obtain ⟨a, rfl⟩ := hx
  obtain ⟨b, rfl⟩ := hy
  exact ⟨a + b, rfl⟩

theorem IsFin.sub {x y : ExtRat} (hx : IsFin x) (hy : IsFin y) :
    IsFin (x - y) := by
  obtain ⟨a, rfl⟩ := hx
  obtain ⟨b, rfl⟩ := hy
  exact ⟨a - b, fin_sub a b⟩

theorem IsFin.mul {x y : ExtRat} (hx : IsFin x) (hy : IsFin y) :
    IsFin (x * y) := by
  obtain ⟨a, rfl⟩ := hx
  obtain ⟨b, rfl⟩ := hy
  exact ⟨a * b, rfl⟩

theorem IsFin.div {x : ExtRat} (hx : IsFin x) {b : ℚ} (hb : b ≠ 0) :
    IsFin (x / fin b) := by
  obtain ⟨a, rfl⟩ := hx
  exact ⟨a / b, fin_div a hb⟩

/-- A sum of finite values started from a finite value is finite. -/
theorem IsFin.foldl_add {xs : List ExtRat} (hxs : ∀ x ∈ xs, IsFin x)
    {acc : ExtRat} (hacc : IsFin acc) : IsFin (xs.foldl (· + ·) acc) := by
  induction xs generalizing acc with
  | nil => exact hacc
  | cons x xs ih =>
      have hx : IsFin x := hxs x (by simp)
      exact ih (fun y hy => hxs y (by simp [hy])) (hacc.add hx)

end ExtRat
