import DiffCar.Encoder
import DiffCar.SlideWindow

/-!
# CalcSpeed — wheel speed from an encoder

`applications/calc_speed.h`. One `calc()` reads the tick and the counter,
differences them against the previous reading, pushes the rate into the
window and returns the signed mean. What it reads is its argument, a `Reads`:
the first call also reads both once before the reading proper.
-/

namespace DiffCar

/-- What one call of `CalcSpeed::calc` reads, in the order it reads it. The
first two are read by the first call only. `stale` is what the stack slot of
`now_cnt` held, which a name without a counter leaves there. -/
structure Reads where
  firstTick : BitVec 32
  firstTim : Timers
  tim : Timers
  tick : BitVec 32
  stale : BitVec 16

/-- `class CalcSpeed`. -/
structure CalcSpeed (T : Type) where
  filter : SlideWindow T
  encodeName : String
  lastCnt : BitVec 16
  lastTime : BitVec 32
  cpr : BitVec 16
  first : Bool
  inverse : ℤ

section Generic

variable {T : Type}

/-- `CalcSpeed::setInverse`. -/
def CalcSpeed.setInverse (s : CalcSpeed T) (inverse : Bool) : CalcSpeed T :=
  { s with inverse := if inverse then -1 else 1 }

/-- The block `if(_first)`. -/
def CalcSpeed.initialise (s : CalcSpeed T) (r : Reads) : CalcSpeed T :=
  if s.first then
    { s with
      first := false
      lastTime := r.firstTick
      lastCnt := (encodeCounter s.encodeName r.firstTim).getD s.lastCnt }
  else s

/-- `now_cnt`. -/
def CalcSpeed.nowCnt (s : CalcSpeed T) (r : Reads) : BitVec 16 :=
  (encodeCounter s.encodeName r.tim).getD r.stale

/-- `diff_cnt`: the `int` difference of two `rt_int16_t`, narrowed again. -/
def CalcSpeed.diffCnt (s : CalcSpeed T) (r : Reads) : BitVec 16 :=
  WrapCounter.signedDiff (s.nowCnt r) (s.initialise r).lastCnt

/-- `diff_t`, never zero. -/
def CalcSpeed.diffT (s : CalcSpeed T) (r : Reads) : BitVec 32 :=
  let diffT := r.tick - (s.initialise r).lastTime
  if diffT = 0 then 1 else diffT

/-- `CalcSpeed::isValid`. -/
def CalcSpeed.isValid (s : CalcSpeed T) : Bool := s.filter.isValid

@[simp] theorem initialise_cpr (s : CalcSpeed T) (r : Reads) :
    (s.initialise r).cpr = s.cpr := by
  unfold CalcSpeed.initialise
  split <;> rfl

@[simp] theorem initialise_encodeName (s : CalcSpeed T) (r : Reads) :
    (s.initialise r).encodeName = s.encodeName := by
  unfold CalcSpeed.initialise
  split <;> rfl

@[simp] theorem initialise_inverse (s : CalcSpeed T) (r : Reads) :
    (s.initialise r).inverse = s.inverse := by
  unfold CalcSpeed.initialise
  split <;> rfl

@[simp] theorem initialise_first (s : CalcSpeed T) (r : Reads) :
    (s.initialise r).first = false := by
  unfold CalcSpeed.initialise
  split
  · rfl
  · rename_i h
    simpa using h

/-- Past the first call the block `if(_first)` is skipped. -/
theorem initialise_of_not_first {s : CalcSpeed T} (h : s.first = false)
    (r : Reads) : s.initialise r = s := by
  rw [CalcSpeed.initialise, h]
  simp

theorem diffT_ne_zero (s : CalcSpeed T) (r : Reads) : (s.diffT r).toNat ≠ 0 := by
  unfold CalcSpeed.diffT
  dsimp only
  split
  · decide
  · rename_i h
    intro hzero
    exact h (BitVec.eq_of_toNat_eq hzero)

variable [RatCast T]

/-- `CalcSpeed<T, N>::CalcSpeed`, the window's array in memory that held
`mem`. -/
def CalcSpeed.construct (n : ℕ) (mem : ℕ → T) (name : String)
    (cntPerR : BitVec 16) : CalcSpeed T where
  filter := SlideWindow.construct n mem
  encodeName := name
  lastCnt := 0
  lastTime := 0
  cpr := cntPerR
  first := true
  inverse := 1

variable [Mul T] [Div T]

/-- `rpm`, the value a call pushes into the filter. -/
def CalcSpeed.rpm (s : CalcSpeed T) (r : Reads) : T :=
  ((((s.diffCnt r).toInt : ℚ) : T) * ((60 : ℚ) : T) * ((1000 : ℚ) : T)
      / ((s.cpr.toNat : ℚ) : T))
    / (((s.diffT r).toNat : ℚ) : T)

/-- The object after a call. -/
def CalcSpeed.sampled (s : CalcSpeed T) (r : Reads) : CalcSpeed T :=
  { s.initialise r with
    filter := (s.filter.push (s.rpm r)).1
    lastCnt := s.nowCnt r
    lastTime := r.tick }

@[simp] theorem sampled_filter (s : CalcSpeed T) (r : Reads) :
    (s.sampled r).filter = (s.filter.push (s.rpm r)).1 := rfl

@[simp] theorem sampled_cpr (s : CalcSpeed T) (r : Reads) :
    (s.sampled r).cpr = s.cpr := initialise_cpr s r

@[simp] theorem sampled_encodeName (s : CalcSpeed T) (r : Reads) :
    (s.sampled r).encodeName = s.encodeName := initialise_encodeName s r

@[simp] theorem sampled_inverse (s : CalcSpeed T) (r : Reads) :
    (s.sampled r).inverse = s.inverse := initialise_inverse s r

@[simp] theorem sampled_first (s : CalcSpeed T) (r : Reads) :
    (s.sampled r).first = false := initialise_first s r

@[simp] theorem sampled_lastCnt (s : CalcSpeed T) (r : Reads) :
    (s.sampled r).lastCnt = s.nowCnt r := rfl

variable [Add T]

/-- `CalcSpeed::calc`: the object after the call and the returned speed. -/
def CalcSpeed.calc (s : CalcSpeed T) (r : Reads) : CalcSpeed T × T :=
  let s' := s.sampled r
  (s', ((s'.inverse : ℚ) : T) * s'.filter.getFilterValue.1)

/-- **A call returns the signed mean of the rates up to its own.** -/
theorem calc_snd_of_holds {s : CalcSpeed T} {l : List T}
    (h : Holds s.filter l) (r : Reads) :
    (s.calc r).2
      = ((s.inverse : ℚ) : T) * windowMean s.filter.memLen (l ++ [s.rpm r]) := by
  have hpush : Holds (s.sampled r).filter (l ++ [s.rpm r]) := h.push _
  show (((s.sampled r).inverse : ℚ) : T) * (s.sampled r).filter.getFilterValue.1 = _
  rw [hpush.filter_eq, sampled_inverse, sampled_filter, push_memLen]

end Generic

end DiffCar
