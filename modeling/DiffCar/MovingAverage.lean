import DiffCar.SlideWindow
import DiffCar.Lib.Reactive

/-!
# MovingAverage — a sliding window from its construction on

Whatever the array held, a window that `l` was pushed into holds the last
`memLen` values of `l` (`Holds.pushes`). So the slots the `memset` misses are
written before they are read, and what the operations return depends on the
pushes alone. No operation touches a slot outside the array.
-/

namespace DiffCar

section Generic

variable {T : Type} [RatCast T]

/-- The window after the pushes `l`. -/
def SlideWindow.pushes (w : SlideWindow T) (l : List T) : SlideWindow T :=
  Reactive.final SlideWindow.push w l

/-- Every index the pushes `l` touch, push by push. -/
def SlideWindow.touched (w : SlideWindow T) (l : List T) : List (List ℕ) :=
  Reactive.outputs SlideWindow.push w l

theorem pushes_memLen (w : SlideWindow T) (l : List T) :
    (w.pushes l).memLen = w.memLen := by
  induction l generalizing w with
  | nil => rfl
  | cons value l ih =>
      have hrest := ih (w.push value).1
      rw [push_memLen] at hrest
      exact hrest

theorem Holds.pushes {w : SlideWindow T} {l : List T} (h : Holds w l)
    (l' : List T) : Holds (w.pushes l') (l ++ l') := by
  induction l' generalizing w l with
  | nil =>
      rw [List.append_nil]
      exact h
  | cons value l' ih =>
      have hrest := ih (h.push value)
      rw [List.append_assoc] at hrest
      exact hrest

/-! ## The indices touched -/

/-- `k` rounds of the shift loop touch the slots up to `k`. -/
theorem shift_rounds_touched (array : List T) (log : List ℕ) (k : ℕ) :
    ∀ j ∈ ((List.range k).foldl shiftRound (array, log)).2, j ∈ log ∨ j ≤ k := by
  induction k with
  | zero =>
      intro j hj
      exact .inl hj
  | succ k ih =>
      intro j hj
      simp only [List.range_succ, List.foldl_append, List.foldl_cons,
        List.foldl_nil, shiftRound, List.mem_append, List.mem_cons,
        List.not_mem_nil, or_false] at hj
      rcases hj with hj | rfl | rfl
      · rcases ih j hj with hlog | hle
        · exact .inl hlog
        · right
          omega
      · exact .inr le_rfl
      · right
        omega

/-- The summing loop touches the slots below `k`. -/
theorem sum_rounds_touched [Add T] (array : List T) (acc : T) (log : List ℕ)
    (k : ℕ) :
    ((List.range k).foldl (sumRound array) (acc, log)).2 = log ++ List.range k := by
  induction k with
  | zero => simp
  | succ k ih =>
      simp only [List.range_succ, List.foldl_append, List.foldl_cons,
        List.foldl_nil, sumRound, ih, List.append_assoc]

omit [RatCast T] in
theorem Holds.back_lt {w : SlideWindow T} {l : List T} (h : Holds w l) :
    w.back < w.memLen := by
  have hpos := h.pos
  have hback := h.back
  omega

/-- **A push stays in the array**, in both phases. -/
theorem Holds.push_touched {w : SlideWindow T} {l : List T} (h : Holds w l)
    (value : T) : ∀ j ∈ (w.push value).2, j < w.memLen := by
  have hback := h.back_lt
  intro j hj
  cases hfull : w.isFull with
  | false =>
      have htouched : (w.push value).2 = [w.back] := by
        rw [SlideWindow.push, hfull]
        simp only [Bool.not_false, if_true]
        split
        · rfl
        · rfl
      rw [htouched, List.mem_singleton] at hj
      rw [hj]
      exact hback
  | true =>
      -- the shift loop, then the last slot
      rw [SlideWindow.push, hfull] at hj
      simp only [Bool.not_true, Bool.false_eq_true, if_false, List.mem_append,
        List.mem_singleton] at hj
      rcases hj with hshift | rfl
      · rcases shift_rounds_touched w.array [] (w.memLen - 1) j hshift with hlog | hle
        · exact absurd hlog List.not_mem_nil
        · omega
      · exact hback

theorem Holds.touched {w : SlideWindow T} {l : List T} (h : Holds w l)
    (l' : List T) : ∀ js ∈ w.touched l', ∀ j ∈ js, j < w.memLen := by
  induction l' generalizing w l with
  | nil =>
      intro js hjs
      exact absurd hjs List.not_mem_nil
  | cons value l' ih =>
      intro js hjs
      rcases List.mem_cons.mp hjs with rfl | hjs
      · exact h.push_touched value
      · have hrest := ih (h.push value) js hjs
        rw [push_memLen] at hrest
        exact hrest

/-- What `getFilterValue` touches depends on the number of pushes alone. -/
theorem Holds.filter_touched [Add T] [Div T] {w : SlideWindow T} {l : List T}
    (h : Holds w l) :
    w.getFilterValue.2 = if l.length < w.memLen then [] else List.range w.memLen := by
  rw [SlideWindow.getFilterValue]
  by_cases hl : l.length < w.memLen
  · rw [h.not_full hl, if_pos hl]
    rfl
  · rw [h.is_full (Nat.not_lt.mp hl), if_neg hl]
    simp only [Bool.not_true, Bool.false_eq_true, if_false, sum_rounds_touched,
      List.nil_append]

end Generic

/-! ## From the construction on -/

section Construct

variable {n : ℕ} (hn : 0 < n) (mem : ℕ → ℚ) (l : List ℚ)

include hn

theorem construct_holds : Holds ((SlideWindow.construct n mem).pushes l) l :=
  (Holds.construct hn mem).pushes l

theorem construct_isValid :
    ((SlideWindow.construct n mem).pushes l).isValid = decide (n ≤ l.length) := by
  rw [SlideWindow.isValid, (construct_holds hn mem l).full, pushes_memLen]
  rfl

/-- What the filter returns and touches, without a trace of `mem`. -/
theorem construct_filter :
    ((SlideWindow.construct n mem).pushes l).getFilterValue
      = (windowMean n l, if l.length < n then [] else List.range n) := by
  have h := construct_holds hn mem l
  apply Prod.ext
  · rw [h.filter_eq, pushes_memLen]
    rfl
  · rw [h.filter_touched, pushes_memLen]
    rfl

end Construct

/-- **A window is the mean of its last `n` pushes.** For every positive `n`,
whatever the array held, after any pushes `l`: every index touched so far and
by `getFilterValue` is in the array; the window is valid exactly from the
`n`-th push on; its value is zero before and afterwards the mean of the last
`n` values of `l`; and over any other array the results are the same. -/
theorem moving_average (n : ℕ) (hn : 0 < n) (mem : ℕ → ℚ) (l : List ℚ) :
    (∀ js ∈ (SlideWindow.construct n mem).touched l, ∀ j ∈ js, j < n)
      ∧ let w := (SlideWindow.construct n mem).pushes l
      (∀ j ∈ w.getFilterValue.2, j < n)
      ∧ (w.isValid = true ↔ n ≤ l.length)
      ∧ (l.length < n → w.getFilterValue.1 = 0)
      ∧ (n ≤ l.length → w.getFilterValue.1 = (l.drop (l.length - n)).sum / n)
      ∧ ∀ mem' : ℕ → ℚ,
        let w' := (SlideWindow.construct n mem').pushes l
        w'.isValid = w.isValid ∧ w'.getFilterValue = w.getFilterValue := by
  refine ⟨(Holds.construct hn mem).touched l, ?_, ?_, ?_, ?_, ?_⟩
  · intro j hj
    rw [construct_filter hn] at hj
    by_cases hl : l.length < n
    · rw [if_pos hl] at hj
      exact absurd hj List.not_mem_nil
    · rw [if_neg hl] at hj
      exact List.mem_range.mp hj
  · rw [construct_isValid hn, decide_eq_true_iff]
  · intro hl
    rw [construct_filter hn, windowMean, if_pos hl, Rat.cast_id]
  · intro hl
    rw [construct_filter hn, windowMean_eq_sum hl, List.rtake]
  · intro mem' w'
    constructor
    · exact (construct_isValid hn mem' l).trans (construct_isValid hn mem l).symm
    · exact (construct_filter hn mem' l).trans (construct_filter hn mem l).symm

/-- A window of one slot, and the second push into it. -/
theorem moving_average_one :
    ((SlideWindow.construct 1 fun _ => (9 : ℚ)).pushes [3, 5]).getFilterValue.1
      = ([5] : List ℚ).sum / (1 : ℕ) :=
  (moving_average 1 one_pos (fun _ => 9) [3, 5]).2.2.2.2.1 (by decide)

end DiffCar
