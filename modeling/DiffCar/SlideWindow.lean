import DiffCar.Lib.Window
import DiffCar.Double
import Mathlib.Algebra.BigOperators.Group.List.Basic
import Mathlib.Tactic.Linarith

/-!
# SlideWindow — the moving average

`applications/slide_window.h`. The array is a list, `back_ptr_` its offset
from the start of the array. `push` fills the array from the front; once it
is full every push shifts the whole array by one slot in place and writes the
last one. Each operation also returns the indices of the array it touched.

`Holds w l` says that `w` is what pushing the values `l` into a fresh window
leaves: it is the abstraction the rest of the development reasons with. The
invariant changes shape when the window fills, so `push` has one lemma for
each phase (`push_filling`, `push_shifting`).
-/

namespace DiffCar

/-- `class SlideWindowBase`: the members and the array they point into. -/
structure SlideWindow (T : Type) where
  memLen : ℕ
  array : List T
  back : ℕ
  isFull : Bool

section Generic

variable {T : Type} [RatCast T]

/-- `SlideWindow<T, N>::SlideWindow()` over an array that held `mem`. The
`memset` clears `MEM_LEN_` bytes, which is one element of a `double` array in
eight; an element it clears in part still holds something arbitrary. -/
def SlideWindow.construct (n : ℕ) (mem : ℕ → T) : SlideWindow T where
  memLen := n
  array := (List.range n).map fun i => if i < n / 8 then ((0 : ℚ) : T) else mem i
  back := 0
  isFull := false

/-- One round of the shift loop, `static_array_[i] = static_array_[i+1]`:
the array, and the indices touched so far. -/
def shiftRound (s : List T × List ℕ) (i : ℕ) : List T × List ℕ :=
  (s.1.set i (s.1.getD (i + 1) ((0 : ℚ) : T)), s.2 ++ [i + 1, i])

/-- The shift loop, `for(int i = 0; i < MEM_LEN_ - 1; i++)`. -/
def shiftLoop (array : List T) (memLen : ℕ) : List T × List ℕ :=
  (List.range (memLen - 1)).foldl shiftRound (array, [])

/-- `SlideWindowBase::push`. -/
def SlideWindow.push (w : SlideWindow T) (value : T) :
    SlideWindow T × List ℕ :=
  if !w.isFull then
    let array := w.array.set w.back value
    let back := w.back + 1
    if w.memLen ≤ back then
      ({ w with array := array, isFull := true, back := w.memLen - 1 }, [w.back])
    else
      ({ w with array := array, back := back }, [w.back])
  else
    let s := shiftLoop w.array w.memLen
    ({ w with array := s.1.set w.back value }, s.2 ++ [w.back])

/-- One round of the summing loop, `tmp += static_array_[i]`. -/
def sumRound [Add T] (array : List T) (s : T × List ℕ) (i : ℕ) : T × List ℕ :=
  (s.1 + array.getD i ((0 : ℚ) : T), s.2 ++ [i])

/-- `SlideWindowBase::getFilterValue`. -/
def SlideWindow.getFilterValue [Add T] [Div T] (w : SlideWindow T) : T × List ℕ :=
  if !w.isFull then (((0 : ℚ) : T), [])
  else
    let s := (List.range w.memLen).foldl (sumRound w.array) (((0 : ℚ) : T), [])
    (s.1 / ((w.memLen : ℚ) : T), s.2)

/-- `SlideWindowBase::isValid`. -/
def SlideWindow.isValid (w : SlideWindow T) : Bool := w.isFull

/-! ## The shift loop -/

theorem shift_rounds_length (array : List T) (log : List ℕ) (k : ℕ) :
    ((List.range k).foldl shiftRound (array, log)).1.length = array.length := by
  induction k with
  | zero => rfl
  | succ k ih =>
      simp only [List.range_succ, List.foldl_append, List.foldl_cons,
        List.foldl_nil, shiftRound, List.length_set, ih]

/-- After `k` rounds the first `k` slots hold their right neighbours; the
rest is untouched, so each round still reads the original neighbour. -/
theorem shift_rounds_getElem? (array : List T) (log : List ℕ) {k : ℕ}
    (hk : k < array.length) (j : ℕ) :
    ((List.range k).foldl shiftRound (array, log)).1[j]?
      = if j < k then array[j + 1]? else array[j]? := by
  induction k generalizing j with
  | zero => simp
  | succ k ih =>
      have ih := ih (by omega)
      -- the rounds so far wrote below k only, so slot k + 1 is the original
      have hread : ((List.range k).foldl shiftRound (array, log)).1.getD (k + 1)
          ((0 : ℚ) : T) = array[k + 1] := by
        rw [List.getD_eq_getElem?_getD, ih, if_neg (by omega),
          List.getElem?_eq_getElem hk]
        rfl
      simp only [List.range_succ, List.foldl_append, List.foldl_cons,
        List.foldl_nil, shiftRound, hread, List.getElem?_set,
        shift_rounds_length, ih]
      rcases Nat.lt_trichotomy j k with hj | rfl | hj
      · rw [if_neg (by omega), if_pos hj, if_pos (by omega)]
      · rw [if_pos rfl, if_pos (by omega), if_pos (by omega),
          List.getElem?_eq_getElem hk]
      · rw [if_neg (by omega), if_neg (by omega), if_neg (by omega)]

/-- Shifting and writing the last slot drops the oldest element. -/
theorem shiftLoop_set_last {array : List T} {n : ℕ} (hlen : array.length = n)
    (hn : 0 < n) (value : T) :
    (shiftLoop array n).1.set (n - 1) value = array.tail ++ [value] := by
  apply List.ext_getElem?
  intro j
  rw [List.getElem?_set, shiftLoop, shift_rounds_length,
    shift_rounds_getElem? _ _ (by omega)]
  rcases Nat.lt_trichotomy j (n - 1) with hj | rfl | hj
  · rw [if_neg (by omega), if_pos hj,
      List.getElem?_append_left (by simp; omega), List.getElem?_tail]
  · rw [if_pos rfl, if_pos (by omega),
      List.getElem?_append_right (by simp; omega)]
    simp [hlen]
  · rw [if_neg (by omega), if_neg (by omega),
      List.getElem?_eq_none (by omega),
      List.getElem?_eq_none (by simp; omega)]

/-! ## The window holds the last pushes -/

/-- `w` is what pushing the values `l`, oldest first, leaves of a window. -/
structure Holds (w : SlideWindow T) (l : List T) : Prop where
  pos : 0 < w.memLen
  len : w.array.length = w.memLen
  full : w.isFull = decide (w.memLen ≤ l.length)
  back : w.back = min l.length (w.memLen - 1)
  content : w.array.take l.length = l.rtake w.memLen

theorem Holds.construct {n : ℕ} (hn : 0 < n) (mem : ℕ → T) :
    Holds (SlideWindow.construct n mem) [] where
  pos := hn
  len := by simp [SlideWindow.construct]
  full := by simp [SlideWindow.construct]; omega
  back := by simp [SlideWindow.construct]
  content := by simp

omit [RatCast T] in
theorem Holds.not_full {w : SlideWindow T} {l : List T} (h : Holds w l)
    (hl : l.length < w.memLen) : w.isFull = false := by
  rw [h.full, decide_eq_false_iff_not]
  omega

omit [RatCast T] in
theorem Holds.is_full {w : SlideWindow T} {l : List T} (h : Holds w l)
    (hl : w.memLen ≤ l.length) : w.isFull = true := by
  rw [h.full, decide_eq_true_iff]
  exact hl

/-- The filling phase: the value lands behind the ones pushed before. -/
theorem Holds.push_filling {w : SlideWindow T} {l : List T} (h : Holds w l)
    (hl : l.length < w.memLen) (value : T) :
    Holds (w.push value).1 (l ++ [value]) := by
  have hback : w.back = l.length := by rw [h.back]; omega
  have htake : w.array.take l.length = l := by
    rw [h.content, List.rtake_of_length_le hl.le]
  have hset : (w.array.set w.back value).take (l.length + 1) = l ++ [value] := by
    rw [List.take_add_one, List.take_set_of_le (by omega), htake,
      List.getElem?_set]
    simp [hback, h.len, hl]
  have hrtake : (l ++ [value]).rtake w.memLen = l ++ [value] :=
    List.rtake_of_length_le (by simp; omega)
  rw [SlideWindow.push, h.not_full hl]
  simp only [Bool.not_false, if_true]
  -- whether this push is the one that fills the window
  split
  · rename_i hfull
    exact ⟨h.pos, by simp [h.len], by simp; omega, by simp; omega,
      by simpa [hrtake] using hset⟩
  · rename_i hfull
    exact ⟨h.pos, by simp [h.len], by simp; omega,
      by simp; omega, by simpa [hrtake] using hset⟩

/-- The shifting phase: the oldest value leaves the array. -/
theorem Holds.push_shifting {w : SlideWindow T} {l : List T} (h : Holds w l)
    (hl : w.memLen ≤ l.length) (value : T) :
    Holds (w.push value).1 (l ++ [value]) := by
  have hback : w.back = w.memLen - 1 := by rw [h.back]; omega
  -- a full window is the whole array
  have harray : w.array = l.rtake w.memLen := by
    rw [← h.content, List.take_of_length_le (by rw [h.len]; exact hl)]
  have hnew : (shiftLoop w.array w.memLen).1.set w.back value
      = (l ++ [value]).rtake w.memLen := by
    rw [hback, shiftLoop_set_last h.len h.pos, harray,
      List.rtake_concat_tail hl h.pos]
  rw [SlideWindow.push, h.is_full hl]
  simp only [Bool.not_true, Bool.false_eq_true, if_false]
  refine ⟨h.pos, ?_, ?_, ?_, ?_⟩
  · simp [shiftLoop, shift_rounds_length, h.len]
  · simp; omega
  · simp [hback]; omega
  · show List.take _ _ = _
    rw [hnew, List.take_of_length_le]
    rw [List.length_rtake, List.length_append]
    omega

/-- **A push appends to the history.** -/
theorem Holds.push {w : SlideWindow T} {l : List T} (h : Holds w l) (value : T) :
    Holds (w.push value).1 (l ++ [value]) := by
  rcases Nat.lt_or_ge l.length w.memLen with hl | hl
  · exact h.push_filling hl value
  · exact h.push_shifting hl value

@[simp] theorem push_memLen (w : SlideWindow T) (value : T) :
    (w.push value).1.memLen = w.memLen := by
  rw [SlideWindow.push]
  split
  · dsimp only
    split <;> rfl
  · rfl

/-! ## The filtered value -/

section Filter

variable [Add T]

theorem sum_rounds (array : List T) (acc : T) (log : List ℕ) {k : ℕ}
    (hk : k ≤ array.length) :
    ((List.range k).foldl (sumRound array) (acc, log)).1
      = (array.take k).foldl (· + ·) acc := by
  induction k with
  | zero => rfl
  | succ k ih =>
      have hget : array.getD k ((0 : ℚ) : T) = array[k] := by
        rw [List.getD_eq_getElem?_getD, List.getElem?_eq_getElem hk]
        rfl
      rw [List.range_succ, List.foldl_append, List.take_add_one,
        List.getElem?_eq_getElem hk, List.foldl_append]
      simp only [List.foldl_cons, List.foldl_nil, sumRound, Option.toList_some,
        ih (by omega), hget]

variable [Div T]

/-- The mean `getFilterValue` computes over a full window `l`. -/
def windowMean (n : ℕ) (l : List T) : T :=
  if l.length < n then ((0 : ℚ) : T)
  else (l.rtake n).foldl (· + ·) ((0 : ℚ) : T) / ((n : ℚ) : T)

/-- **The filter is the mean of the last `memLen` pushes**, and `0` before
there are that many. -/
theorem Holds.filter_eq {w : SlideWindow T} {l : List T} (h : Holds w l) :
    w.getFilterValue.1 = windowMean w.memLen l := by
  rw [SlideWindow.getFilterValue, windowMean]
  rcases Nat.lt_or_ge l.length w.memLen with hl | hl
  · rw [h.not_full hl, if_pos hl]
    rfl
  · have harray : w.array.take w.memLen = l.rtake w.memLen := by
      rw [← h.content, List.take_of_length_le (by rw [h.len]),
        List.take_of_length_le (by rw [h.len]; exact hl)]
    rw [h.is_full hl, if_neg (Nat.not_lt.mpr hl)]
    simp only [Bool.not_true, Bool.false_eq_true, if_false]
    rw [sum_rounds _ _ _ h.len.ge, harray]

end Filter

end Generic

/-! ## The mean over `ℚ` -/

theorem windowMean_eq_sum {n : ℕ} {l : List ℚ} (h : n ≤ l.length) :
    windowMean n l = (l.rtake n).sum / n := by
  rw [windowMean, if_neg (Nat.not_lt.mpr h), List.sum_eq_foldl]
  rfl

/-- Opposite samples have opposite means. -/
theorem windowMean_neg (n : ℕ) (l : List ℚ) :
    windowMean n (l.map fun x => -x) = -windowMean n l := by
  rcases Nat.lt_or_ge l.length n with hl | hl
  · rw [windowMean, windowMean, List.length_map, if_pos hl, if_pos hl]
    simp
  · rw [windowMean_eq_sum (by simpa using hl), windowMean_eq_sum hl,
      ← List.map_rtake, ← List.sum_neg, neg_div]

end DiffCar
