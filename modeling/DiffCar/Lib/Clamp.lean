import Mathlib.Algebra.Order.Field.Basic
import Mathlib.Algebra.Order.Group.MinMax
import Mathlib.Data.Sign.Basic

/-!
# Clamping to an interval

`clamp lo hi x` is the value of `[lo, hi]` nearest to `x`, in any linear
order. A clamp is monotone, it is the identity inside its interval, and it
forgets its argument only beyond one of the two ends (`clamp_eq_iff`). About
zero it multiplies its argument by a factor (`scale`), which two arguments
share when both lie inside or their magnitudes are equal (`scale_eq_iff`).
-/

namespace Clamp

section Order

variable {α : Type*} [LinearOrder α] {lo hi x y : α}

/-- `x`, or the end of `[lo, hi]` it lies beyond. -/
def clamp (lo hi x : α) : α := max lo (min hi x)

theorem le_clamp (lo hi x : α) : lo ≤ clamp lo hi x := le_max_left _ _

theorem clamp_le (h : lo ≤ hi) (x : α) : clamp lo hi x ≤ hi :=
  max_le h (min_le_left _ _)

theorem clamp_mono (lo hi : α) : Monotone (clamp lo hi) := by
  intro x y hxy
  exact max_le_max le_rfl (min_le_min le_rfl hxy)

theorem clamp_of_mem (hlo : lo ≤ x) (hhi : x ≤ hi) : clamp lo hi x = x := by
  rw [clamp, min_eq_right hhi, max_eq_right hlo]

theorem clamp_of_ge (h : lo ≤ hi) (hx : hi ≤ x) : clamp lo hi x = hi := by
  rw [clamp, min_eq_left hx, max_eq_right h]

theorem clamp_of_le (hx : x ≤ lo) : clamp lo hi x = lo :=
  max_eq_left ((min_le_right _ _).trans hx)

theorem clamp_clamp (h : lo ≤ hi) (x : α) :
    clamp lo hi (clamp lo hi x) = clamp lo hi x :=
  clamp_of_mem (le_clamp lo hi x) (clamp_le h x)

theorem clamp_lt (hlo : lo < y) (hx : x < y) : clamp lo hi x < y :=
  max_lt hlo ((min_le_right _ _).trans_lt hx)

theorem lt_clamp (hhi : y < hi) (hx : y < x) : y < clamp lo hi x :=
  lt_max_of_lt_right (lt_min hhi hx)

/-- A value strictly inside the interval is the clamp of itself only. -/
theorem clamp_eq_of_mem (hlo : lo < y) (hhi : y < hi) :
    clamp lo hi x = y ↔ x = y := by
  constructor
  · intro h
    rcases le_total x lo with hx | hx
    · rw [clamp_of_le hx] at h
      exact absurd h hlo.ne
    · rcases le_total hi x with hx' | hx'
      · rw [clamp_of_ge (hlo.trans hhi).le hx'] at h
        exact absurd h hhi.ne'
      · rwa [clamp_of_mem hx hx'] at h
  · rintro rfl
    exact clamp_of_mem hlo.le hhi.le

/-- **What a clamp forgets**: two values have the same clamp if they are
equal or lie beyond the same end. -/
theorem clamp_eq_iff (h : lo < hi) :
    clamp lo hi x = clamp lo hi y
      ↔ x = y ∨ (hi ≤ x ∧ hi ≤ y) ∨ (x ≤ lo ∧ y ≤ lo) := by
  constructor
  · intro heq
    rcases le_or_gt y lo with hylo | hylo
    · right
      right
      rw [clamp_of_le hylo] at heq
      refine ⟨?_, hylo⟩
      by_contra hx
      have hgt : lo < min hi x := lt_min h (not_le.mp hx)
      rw [clamp, max_eq_right hgt.le] at heq
      exact absurd heq hgt.ne'
    · rcases le_or_gt hi y with hyhi | hyhi
      · right
        left
        rw [clamp_of_ge h.le hyhi] at heq
        refine ⟨?_, hyhi⟩
        by_contra hx
        have hlt : clamp lo hi x < hi :=
          max_lt h ((min_le_right _ _).trans_lt (not_le.mp hx))
        exact absurd heq hlt.ne
      · left
        rw [clamp_of_mem hylo.le hyhi.le] at heq
        exact (clamp_eq_of_mem hylo hyhi).mp heq
  · rintro (rfl | ⟨hx, hy⟩ | ⟨hx, hy⟩)
    · rfl
    · rw [clamp_of_ge h.le hx, clamp_of_ge h.le hy]
    · rw [clamp_of_le hx, clamp_of_le hy]

end Order

section Group

variable {α : Type*} [AddCommGroup α] [LinearOrder α] [IsOrderedAddMonoid α]

/-- A clamp to an interval about zero commutes with negation. -/
theorem clamp_neg {m : α} (hm : 0 ≤ m) (x : α) :
    clamp (-m) m (-x) = -clamp (-m) m x := by
  have hle : -m ≤ m := (neg_nonpos.mpr hm).trans hm
  rw [clamp, clamp, ← min_neg_neg, ← max_neg_neg, neg_neg,
    max_min_distrib_left, max_eq_right hle]

/-- **The order of two clamped values** is theirs, unless both lie beyond the
same end. -/
theorem sign_clamp_sub {lo hi : α} (h : lo < hi) (x y : α) :
    SignType.sign (clamp lo hi y - clamp lo hi x)
      = if (hi ≤ x ∧ hi ≤ y) ∨ (x ≤ lo ∧ y ≤ lo) then 0
        else SignType.sign (y - x) := by
  by_cases hside : (hi ≤ x ∧ hi ≤ y) ∨ (x ≤ lo ∧ y ≤ lo)
  · have heq : clamp lo hi x = clamp lo hi y := (clamp_eq_iff h).mpr (.inr hside)
    rw [if_pos hside, heq, sub_self, sign_zero]
  · have hinj : clamp lo hi x = clamp lo hi y → x = y := by
      intro heq
      exact ((clamp_eq_iff h).mp heq).resolve_right hside
    rw [if_neg hside]
    rcases lt_trichotomy x y with hlt | rfl | hgt
    · have hclamp : clamp lo hi x < clamp lo hi y :=
        lt_of_le_of_ne (clamp_mono lo hi hlt.le) fun heq => hlt.ne (hinj heq)
      rw [sign_pos (sub_pos.mpr hclamp), sign_pos (sub_pos.mpr hlt)]
    · rw [sub_self, sub_self]
    · have hclamp : clamp lo hi y < clamp lo hi x :=
        lt_of_le_of_ne (clamp_mono lo hi hgt.le) fun heq => hgt.ne' (hinj heq.symm)
      rw [sign_neg (sub_neg.mpr hclamp), sign_neg (sub_neg.mpr hgt)]

end Group

section Field

variable {α : Type*} [Field α] [LinearOrder α] [IsStrictOrderedRing α] {m : α}

/-- The factor by which clamping to `[-m, m]` multiplies. -/
def scale (m x : α) : α := if |x| ≤ m then 1 else m / |x|

omit [IsStrictOrderedRing α] in
theorem scale_of_le {x : α} (h : |x| ≤ m) : scale m x = 1 := if_pos h

omit [IsStrictOrderedRing α] in
theorem scale_of_gt {x : α} (h : m < |x|) : scale m x = m / |x| :=
  if_neg (not_le.mpr h)

theorem scale_pos (hm : 0 < m) (x : α) : 0 < scale m x := by
  by_cases hx : |x| ≤ m
  · rw [scale_of_le hx]
    exact one_pos
  · rw [scale_of_gt (not_le.mp hx)]
    exact div_pos hm (hm.trans (not_le.mp hx))

theorem scale_le_one (hm : 0 < m) (x : α) : scale m x ≤ 1 := by
  by_cases hx : |x| ≤ m
  · rw [scale_of_le hx]
  · rw [scale_of_gt (not_le.mp hx)]
    exact (div_le_one (hm.trans (not_le.mp hx))).mpr (not_le.mp hx).le

/-- **Clamping about zero is scaling**, by a factor in `(0, 1]`. -/
theorem clamp_eq_scale_mul (hm : 0 < m) (x : α) :
    clamp (-m) m x = scale m x * x := by
  have hle : -m ≤ m := (neg_neg_of_pos hm).le.trans hm.le
  by_cases hx : |x| ≤ m
  · obtain ⟨hlo, hhi⟩ := abs_le.mp hx
    rw [clamp_of_mem hlo hhi, scale_of_le hx, one_mul]
  · have hx := not_le.mp hx
    have hne : |x| ≠ 0 := (hm.trans hx).ne'
    rw [scale_of_gt hx]
    rcases lt_abs.mp hx with hpos | hneg
    · have habs : |x| = x := abs_of_pos (hm.trans hpos)
      rw [clamp_of_ge hle hpos.le, habs, div_mul_cancel₀ _ (habs ▸ hne)]
    · have habs : |x| = -x := abs_of_neg (neg_pos.mp (hm.trans hneg))
      have hxne : -x ≠ 0 := habs ▸ hne
      rw [clamp_of_le (le_neg_of_le_neg hneg.le), habs, div_mul_eq_mul_div,
        eq_div_iff hxne, neg_mul_neg]

/-- Two values are scaled alike if both lie inside, or at the same distance
from zero. -/
theorem scale_eq_iff (hm : 0 < m) (x y : α) :
    scale m x = scale m y ↔ (|x| ≤ m ∧ |y| ≤ m) ∨ |x| = |y| := by
  have hlt : ∀ z : α, m < |z| → m / |z| < 1 := by
    intro z hz
    exact (div_lt_one (hm.trans hz)).mpr hz
  constructor
  · intro heq
    by_cases hx : |x| ≤ m
    · left
      refine ⟨hx, ?_⟩
      by_contra hy
      have hy := not_le.mp hy
      rw [scale_of_le hx, scale_of_gt hy] at heq
      exact absurd heq.symm (hlt y hy).ne
    · have hx := not_le.mp hx
      right
      by_cases hy : |y| ≤ m
      · rw [scale_of_le hy, scale_of_gt hx] at heq
        exact absurd heq (hlt x hx).ne
      · have hy := not_le.mp hy
        rw [scale_of_gt hx, scale_of_gt hy,
          div_eq_div_iff (hm.trans hx).ne' (hm.trans hy).ne'] at heq
        exact (mul_left_cancel₀ hm.ne' heq).symm
  · rintro (⟨hx, hy⟩ | heq)
    · rw [scale_of_le hx, scale_of_le hy]
    · rw [scale, scale, heq]

end Field

end Clamp
