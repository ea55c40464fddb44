import DiffCar.CalcSpeed
import DiffCar.Pid
import DiffCar.Pwm
import DiffCar.Lib.Reactive

/-!
# SpeedThread — the control loop

`applications/main.cpp`, `speedThread`. One iteration is a step of a reactive
machine: the state is the thread's locals and the static `speed`, the input is
what `rt_mq_recv` delivers and what the calls of `calc()` read, the output
records the locals of the iteration and its effects in order. The body up to
the dispatch (`control`) and the periodic printing (`report`) are separate
functions, since the source's loop is one after the other.

The arguments of the `rt_kprintf` call may be evaluated in either order; the
two `calc()` calls in it work on different objects and each has its own
readings in the input, so the order does not show.
-/

namespace DiffCar

/-- What `speedThread`'s stack held before its locals were constructed. -/
structure Stack (T : Type) where
  left : ℕ → T
  right : ℕ → T
  pleft : Pid T
  pright : Pid T

/-- A stack full of zeros. -/
def Stack.zero {T : Type} [RatCast T] : Stack T :=
  let z : T := ((0 : ℚ) : T)
  let pid : Pid T := ⟨z, z, z, z, z, z, z, z, z⟩
  ⟨fun _ => z, fun _ => z, pid, pid⟩

/-- The locals of `speedThread` that live across iterations, and the static
array `speed`. -/
structure SpeedThread (T : Type) where
  cnt : BitVec 8
  left : CalcSpeed T
  right : CalcSpeed T
  pleft : Pid T
  pright : Pid T
  rightPwm : Pwm
  leftPwm : Pwm
  speed : T × T

/-- What one iteration reads: the message `rt_mq_recv` copies into `speed`,
if any, and the readings of the calls of `calc()`, the last two only when the
iteration reports. -/
structure Inputs (T : Type) where
  msg : Option (T × T)
  left : Reads
  right : Reads
  repLeft : Reads
  repRight : Reads

/-- What an iteration does: the conversion of a `double` to a pulse, a call
of `rt_pwm_set`, and the report. -/
inductive Effect (T : Type) where
  | convert (x : T)
  | pwmSet (c : PwmSet)
  | kprintf (left right leftSpeed rightSpeed : T)

/-- The `rt_pwm_set` calls among the effects. -/
def pwmCalls {T : Type} (es : List (Effect T)) : List PwmSet :=
  es.filterMap fun
    | .pwmSet c => some c
    | _ => none

/-- The locals of one iteration and the effects of its three parts. -/
structure Iteration (T : Type) where
  leftSpeed : T
  rightSpeed : T
  leftP : T
  rightP : T
  leftEffects : List (Effect T)
  rightEffects : List (Effect T)
  reportEffects : List (Effect T)

/-- The effects of an iteration in order. -/
def Iteration.effects {T : Type} (it : Iteration T) : List (Effect T) :=
  it.leftEffects ++ it.rightEffects ++ it.reportEffects

section Model

variable {T : Type} [Add T] [Sub T] [Mul T] [Div T] [Neg T] [LT T]
  [DecidableLT T] [RatCast T] [ToUInt32 T]

/-- The constructions before the loop. -/
def SpeedThread.start (mem : Stack T) : SpeedThread T where
  cnt := 0
  left := CalcSpeed.construct 50 mem.left "htm2" 30000
  right := CalcSpeed.construct 50 mem.right "htm4" 32000
  pleft := Pid.construct mem.pleft ((0 : ℚ) : T) ((800 : ℚ) : T) ((2 : ℚ) : T)
    ((1 : ℚ) : T) ((100000 : ℚ) : T) ((-100000 : ℚ) : T)
  pright := Pid.construct mem.pright ((0 : ℚ) : T) ((800 : ℚ) : T) ((2 : ℚ) : T)
    ((1 : ℚ) : T) ((100000 : ℚ) : T) ((-100000 : ℚ) : T)
  rightPwm := Pwm.construct pwmDevices "pwm1" 100000 1 2
  leftPwm := Pwm.construct pwmDevices "pwm3" 100000 1 2
  speed := (((0 : ℚ) : T), ((0 : ℚ) : T))

/-- `wheel_base`, in metres. -/
def wheelBase : ℚ := 21 / 100

/-- `wheel_radius`, in metres. -/
def wheelRadius : ℚ := 35 / 1000

/-- A wheel's circumference as the source computes it, `2*3.14*wheel_radius`. -/
def circumference : T :=
  ((2 : ℚ) : T) * ((157 / 50 : ℚ) : T) * ((wheelRadius : ℚ) : T)

/-- `left_speed` before saturation. -/
def leftKinematics (speed : T × T) : T :=
  (((60 : ℚ) : T)
      * (((2 : ℚ) : T) * speed.1 - ((wheelBase : ℚ) : T) * speed.2)
      * ((1 / 2 : ℚ) : T))
    / circumference

/-- `right_speed` before saturation. -/
def rightKinematics (speed : T × T) : T :=
  (((60 : ℚ) : T)
      * (((2 : ℚ) : T) * speed.1 + ((wheelBase : ℚ) : T) * speed.2)
      * ((1 / 2 : ℚ) : T))
    / circumference

/-- `if(fabs(x) > 200) x = x > 0 ? 200 : -200`. -/
def saturate (x : T) : T :=
  if ((200 : ℚ) : T) < fabs x then
    if ((0 : ℚ) : T) < x then ((200 : ℚ) : T) else ((-200 : ℚ) : T)
  else x

/-- The three-way dispatch of a controller output to a motor. -/
def dispatch (pwm : Pwm) (p : T) : List (Effect T) :=
  if ((0 : ℚ) : T) < p then
    .convert p :: (pwm.setCW (toUInt32 p)).map .pwmSet
  else if p < ((0 : ℚ) : T) then
    .convert (-p) :: (pwm.setCCW (toUInt32 (-p))).map .pwmSet
  else
    (pwm.setCW 0).map .pwmSet

/-- The loop body up to the dispatch of both motors. -/
def control (s : SpeedThread T) (inp : Inputs T) :
    SpeedThread T × Iteration T :=
  let speed := inp.msg.getD s.speed
  let leftSpeed := saturate (leftKinematics speed)
  let rightSpeed := saturate (rightKinematics speed)
  let pleft := s.pleft.setRef leftSpeed
  let pright := s.pright.setRef rightSpeed
  let left := s.left.calc inp.left
  let leftP := pleft.calc left.2
  let right := s.right.calc inp.right
  let rightP := pright.calc right.2
  ({ s with
      speed := speed
      left := left.1
      right := right.1
      pleft := leftP.1
      pright := rightP.1 },
   { leftSpeed := leftSpeed
     rightSpeed := rightSpeed
     leftP := leftP.2
     rightP := rightP.2
     leftEffects := dispatch s.leftPwm leftP.2
     rightEffects := dispatch s.rightPwm rightP.2
     reportEffects := [] })

/-- Whether the iteration reports, `cnt++ >= 100`. -/
def SpeedThread.reports (s : SpeedThread T) : Prop := 100 ≤ s.cnt.toNat

instance (s : SpeedThread T) : Decidable s.reports :=
  inferInstanceAs (Decidable (100 ≤ s.cnt.toNat))

/-- The periodic printing. -/
def report (s : SpeedThread T) (inp : Inputs T) (it : Iteration T) :
    SpeedThread T × List (Effect T) :=
  if s.reports then
    let left := s.left.calc inp.repLeft
    let right := s.right.calc inp.repRight
    ({ s with cnt := 0, left := left.1, right := right.1 },
     [.kprintf left.2 right.2 it.leftSpeed it.rightSpeed])
  else
    ({ s with cnt := s.cnt + 1 }, [])

/-- One iteration of the loop `while (1)`. -/
def speedThread (s : SpeedThread T) (inp : Inputs T) :
    SpeedThread T × Iteration T :=
  let c := control s inp
  let r := report c.1 inp c.2
  (r.1, { c.2 with reportEffects := r.2 })

/-! ## What an iteration leaves of each part of the state -/

omit [Sub T] [Neg T] [LT T] [DecidableLT T] [ToUInt32 T] in
theorem report_of_reports {s : SpeedThread T} (h : s.reports) (inp : Inputs T)
    (it : Iteration T) :
    (report s inp it).1
      = { s with
          cnt := 0
          left := s.left.sampled inp.repLeft
          right := s.right.sampled inp.repRight } := by
  rw [report, if_pos h]
  rfl

omit [Sub T] [Neg T] [LT T] [DecidableLT T] [ToUInt32 T] in
theorem report_of_not_reports {s : SpeedThread T} (h : ¬ s.reports)
    (inp : Inputs T) (it : Iteration T) :
    (report s inp it).1 = { s with cnt := s.cnt + 1 } := by
  rw [report, if_neg h]

/-- The state after an iteration, by whether it reports. -/
theorem speedThread_fst (s : SpeedThread T) (inp : Inputs T) :
    (speedThread s inp).1
      = if s.reports then
          { (control s inp).1 with
            cnt := 0
            left := (s.left.sampled inp.left).sampled inp.repLeft
            right := (s.right.sampled inp.right).sampled inp.repRight }
        else { (control s inp).1 with cnt := s.cnt + 1 } := by
  by_cases hrep : s.reports
  · rw [if_pos hrep]
    exact report_of_reports (s := (control s inp).1) hrep inp (control s inp).2
  · rw [if_neg hrep]
    exact report_of_not_reports (s := (control s inp).1) hrep inp (control s inp).2

theorem speedThread_cnt (s : SpeedThread T) (inp : Inputs T) :
    (speedThread s inp).1.cnt = if s.reports then 0 else s.cnt + 1 := by
  rw [speedThread_fst, apply_ite SpeedThread.cnt]

theorem speedThread_left (s : SpeedThread T) (inp : Inputs T) :
    (speedThread s inp).1.left
      = if s.reports then (s.left.sampled inp.left).sampled inp.repLeft
        else s.left.sampled inp.left := by
  rw [speedThread_fst, apply_ite SpeedThread.left]
  rfl

theorem speedThread_right (s : SpeedThread T) (inp : Inputs T) :
    (speedThread s inp).1.right
      = if s.reports then (s.right.sampled inp.right).sampled inp.repRight
        else s.right.sampled inp.right := by
  rw [speedThread_fst, apply_ite SpeedThread.right]
  rfl

theorem speedThread_speed (s : SpeedThread T) (inp : Inputs T) :
    (speedThread s inp).1.speed = inp.msg.getD s.speed := by
  rw [speedThread_fst]
  split <;> rfl

theorem speedThread_pleft (s : SpeedThread T) (inp : Inputs T) :
    (speedThread s inp).1.pleft
      = ((s.pleft.setRef (saturate (leftKinematics (inp.msg.getD s.speed)))).calc
          (s.left.calc inp.left).2).1 := by
  rw [speedThread_fst]
  split <;> rfl

theorem speedThread_pright (s : SpeedThread T) (inp : Inputs T) :
    (speedThread s inp).1.pright
      = ((s.pright.setRef (saturate (rightKinematics (inp.msg.getD s.speed)))).calc
          (s.right.calc inp.right).2).1 := by
  rw [speedThread_fst]
  split <;> rfl

theorem speedThread_leftPwm (s : SpeedThread T) (inp : Inputs T) :
    (speedThread s inp).1.leftPwm = s.leftPwm := by
  rw [speedThread_fst]
  split <;> rfl

theorem speedThread_rightPwm (s : SpeedThread T) (inp : Inputs T) :
    (speedThread s inp).1.rightPwm = s.rightPwm := by
  rw [speedThread_fst]
  split <;> rfl

end Model

/-- Over the rationals a setpoint is the wheel's speed cut to `±200`. -/
theorem saturate_eq_clamp (x : ℚ) : saturate x = Clamp.clamp (-200) 200 x := by
  simp only [saturate, fabs_rat, Rat.cast_id]
  by_cases hlarge : 200 < |x|
  · rw [if_pos hlarge]
    rcases lt_abs.mp hlarge with hpos | hneg
    · rw [if_pos (by linarith), Clamp.clamp_of_ge (by norm_num) hpos.le]
    · rw [if_neg (by linarith), Clamp.clamp_of_le (by linarith)]
  · obtain ⟨hlo, hhi⟩ := abs_le.mp (not_lt.mp hlarge)
    rw [if_neg hlarge, Clamp.clamp_of_mem hlo hhi]

/-! ## What the constructor calls wired in

The parts of the state an iteration never changes, and the window's history. -/

section Wiring

variable {T : Type} [RatCast T]

/-- A speed estimator of the program: its encoder, its counts per revolution,
and the rates pushed so far. -/
structure CalcSpeed.Wired (s : CalcSpeed T) (name : String) (cpr : BitVec 16)
    (hist : List T) : Prop where
  encodeName : s.encodeName = name
  cpr : s.cpr = cpr
  inverse : s.inverse = 1
  memLen : s.filter.memLen = 50
  holds : Holds s.filter hist

/-- The gains and limits both controllers are constructed with. -/
structure Pid.Wired (s : Pid T) : Prop where
  p : s.p = ((800 : ℚ) : T)
  i : s.i = ((2 : ℚ) : T)
  d : s.d = ((1 : ℚ) : T)
  max : s.max = ((100000 : ℚ) : T)
  min : s.min = ((-100000 : ℚ) : T)

/-- The thread is wired, with these rates in its two windows. -/
structure SpeedThread.Wired (s : SpeedThread T) (hl hr : List T) : Prop where
  left : s.left.Wired "htm2" 30000 hl
  right : s.right.Wired "htm4" 32000 hr
  pleft : s.pleft.Wired
  pright : s.pright.Wired
  rightPwm : s.rightPwm = Pwm.construct pwmDevices "pwm1" 100000 1 2
  leftPwm : s.leftPwm = Pwm.construct pwmDevices "pwm3" 100000 1 2

theorem CalcSpeed.Wired.construct (mem : ℕ → T) (name : String)
    (cpr : BitVec 16) :
    (CalcSpeed.construct 50 mem name cpr).Wired name cpr [] :=
  ⟨rfl, rfl, rfl, rfl, Holds.construct (by decide) mem⟩

theorem Pid.Wired.setRef {s : Pid T} (h : s.Wired) (ref : T) :
    (s.setRef ref).Wired :=
  ⟨h.p, h.i, h.d, h.max, h.min⟩

theorem SpeedThread.Wired.start (mem : Stack T) :
    (SpeedThread.start mem).Wired [] [] where
  left := CalcSpeed.Wired.construct mem.left "htm2" 30000
  right := CalcSpeed.Wired.construct mem.right "htm4" 32000
  pleft := ⟨rfl, rfl, rfl, rfl, rfl⟩
  pright := ⟨rfl, rfl, rfl, rfl, rfl⟩
  rightPwm := rfl
  leftPwm := rfl

variable [Mul T] [Div T]

theorem CalcSpeed.Wired.sampled {s : CalcSpeed T} {name : String}
    {cpr : BitVec 16} {hist : List T} (h : s.Wired name cpr hist) (r : Reads) :
    (s.sampled r).Wired name cpr (hist ++ [s.rpm r]) where
  encodeName := (sampled_encodeName s r).trans h.encodeName
  cpr := (sampled_cpr s r).trans h.cpr
  inverse := (sampled_inverse s r).trans h.inverse
  memLen := by rw [sampled_filter, push_memLen, h.memLen]
  holds := h.holds.push _

variable [Add T]

theorem CalcSpeed.Wired.calc_snd {s : CalcSpeed T} {name : String}
    {cpr : BitVec 16} {hist : List T} (h : s.Wired name cpr hist) (r : Reads) :
    (s.calc r).2 = ((1 : ℚ) : T) * windowMean 50 (hist ++ [s.rpm r]) := by
  rw [calc_snd_of_holds h.holds, h.inverse, h.memLen, Int.cast_one]

variable {s : SpeedThread T} {hl hr : List T}

/-- A report pushes one more. -/
theorem SpeedThread.Wired.report_yes (h : s.Wired hl hr) (hrep : s.reports)
    (inp : Inputs T) (it : Iteration T) :
    (report s inp it).1.Wired (hl ++ [s.left.rpm inp.repLeft])
      (hr ++ [s.right.rpm inp.repRight]) := by
  rw [DiffCar.report, if_pos hrep]
  exact ⟨h.left.sampled inp.repLeft, h.right.sampled inp.repRight, h.pleft,
    h.pright, h.rightPwm, h.leftPwm⟩

theorem SpeedThread.Wired.report_no (h : s.Wired hl hr) (hrep : ¬ s.reports)
    (inp : Inputs T) (it : Iteration T) :
    (report s inp it).1.Wired hl hr := by
  rw [DiffCar.report, if_neg hrep]
  exact ⟨h.left, h.right, h.pleft, h.pright, h.rightPwm, h.leftPwm⟩

variable [Sub T] [LT T] [DecidableLT T]

omit [Div T] in
theorem Pid.Wired.calc {s : Pid T} (h : s.Wired) (feed : T) :
    (s.calc feed).1.Wired :=
  ⟨h.p, h.i, h.d, h.max, h.min⟩

variable [Neg T] [ToUInt32 T]

/-- The control part pushes one rate into each window. -/
theorem SpeedThread.Wired.control (h : s.Wired hl hr) (inp : Inputs T) :
    (control s inp).1.Wired (hl ++ [s.left.rpm inp.left])
      (hr ++ [s.right.rpm inp.right]) where
  left := h.left.sampled inp.left
  right := h.right.sampled inp.right
  pleft := (h.pleft.setRef _).calc _
  pright := (h.pright.setRef _).calc _
  rightPwm := h.rightPwm
  leftPwm := h.leftPwm

/-- Some rates are in the windows after every iteration. -/
theorem SpeedThread.Wired.step (h : ∃ hl hr, s.Wired hl hr) (inp : Inputs T) :
    ∃ hl hr, (speedThread s inp).1.Wired hl hr := by
  obtain ⟨hl, hr, h⟩ := h
  have hc := h.control inp
  by_cases hrep : (DiffCar.control s inp).1.reports
  · exact ⟨_, _, hc.report_yes hrep inp _⟩
  · exact ⟨_, _, hc.report_no hrep inp _⟩

end Wiring

end DiffCar
