import DiffCar.Envelope
import Mathlib.Tactic.NormNum

/-!
# Telemetry — what the periodic report does to the control

Every hundred and first iteration prints the two speeds. It asks for them by
`calc()`, which is also what samples the encoders: the report pushes one more
rate into each window and moves the reference count and time. `control` alone
is the loop with the reporting block removed; the module compares the
`rt_pwm_set` calls of the two loops in one environment.

An environment gives every iteration its message and its readings. Those of
the report are simply not read by the loop without it.
-/

namespace DiffCar

/-- The inputs of the first `n` iterations in an environment. -/
def firstInputs {T : Type} (env : ℕ → Inputs T) (n : ℕ) : List (Inputs T) :=
  (List.range n).map env

theorem firstInputs_succ {T : Type} (env : ℕ → Inputs T) (n : ℕ) :
    firstInputs env (n + 1) = firstInputs env n ++ [env n] := by
  rw [firstInputs, List.range_succ, List.map_append]
  rfl

/-! ## Up to the first report -/

section Generic

variable {T : Type} [Add T] [Sub T] [Mul T] [Div T] [Neg T] [LT T]
  [DecidableLT T] [RatCast T] [ToUInt32 T]

/-- Both loops make the calls of the control part. -/
theorem pwmCalls_control (s : SpeedThread T) (inp : Inputs T) :
    pwmCalls (speedThread s inp).2.effects = pwmCalls (control s inp).2.effects := by
  rw [pwmCalls_speedThread]
  show _ = pwmCalls (_ ++ _ ++ [])
  rw [List.append_nil, pwmCalls_append]
  rfl

/-- Until it reports, the loop only counts: its state is that of the loop
without the block, but for `cnt`. -/
theorem final_up_to_report (mem : Stack T) (env : ℕ → Inputs T) {n : ℕ}
    (hn : n ≤ 100) :
    Reactive.final speedThread (SpeedThread.start mem) (firstInputs env n)
      = { Reactive.final control (SpeedThread.start mem) (firstInputs env n) with
          cnt := BitVec.ofNat 8 n } := by
  induction n with
  | zero => rfl
  | succ n ih =>
      have ih := ih (by omega)
      rw [firstInputs_succ, Reactive.final_append, Reactive.final_append, ih]
      simp only [Reactive.final_cons, Reactive.final_nil]
      have hcnt : (BitVec.ofNat 8 n).toNat = n := by
        rw [BitVec.toNat_ofNat]
        omega
      have hrep : ¬ (control { Reactive.final control (SpeedThread.start mem)
          (firstInputs env n) with cnt := BitVec.ofNat 8 n } (env n)).1.reports := by
        show ¬ 100 ≤ (BitVec.ofNat 8 n).toNat
        omega
      show (report _ _ _).1 = _
      rw [report_of_not_reports hrep]
      rw [BitVec.ofNat_add]
      rfl

/-- The first report: the loop's state is then that of the loop without the
block, each estimator sampled once more. -/
theorem final_after_report {mem : Stack T} {env : ℕ → Inputs T}
    {s : SpeedThread T}
    (hs : Reactive.final control (SpeedThread.start mem) (firstInputs env 101) = s) :
    Reactive.final speedThread (SpeedThread.start mem) (firstInputs env 101)
      = { s with
          cnt := 0
          left := s.left.sampled (env 100).repLeft
          right := s.right.sampled (env 100).repRight } := by
  rw [firstInputs_succ, Reactive.final_append] at hs
  rw [firstInputs_succ, Reactive.final_append,
    final_up_to_report mem env le_rfl, ← hs]
  have hrep : (control { Reactive.final control (SpeedThread.start mem)
      (firstInputs env 100) with cnt := BitVec.ofNat 8 100 } (env 100)).1.reports := by
    show 100 ≤ (BitVec.ofNat 8 100).toNat
    decide
  show (report _ (env 100) _).1 = _
  rw [report_of_reports hrep]
  rfl

/-- **The report does not show before it has happened**: its own iteration
prints after the dispatch, so 101 iterations agree. -/
theorem pwmTrace_up_to_report (mem : Stack T) (env : ℕ → Inputs T) {n : ℕ}
    (hn : n ≤ 101) :
    pwmTrace speedThread (SpeedThread.start mem) (firstInputs env n)
      = pwmTrace control (SpeedThread.start mem) (firstInputs env n) := by
  induction n with
  | zero => rfl
  | succ n ih =>
      have ih := ih (by omega)
      rw [firstInputs_succ, pwmTrace_append, pwmTrace_append, ih,
        pwmTrace_singleton, pwmTrace_singleton, pwmCalls_control,
        final_up_to_report mem env (by omega)]
      rfl

omit [Add T] [Sub T] [Mul T] [Div T] in
/-- Every dispatch makes two calls, so every iteration makes four. -/
theorem length_pwmCalls_dispatch (pwm : Pwm) (p : T) :
    (pwmCalls (dispatch pwm p)).length = 2 := by
  rw [pwmCalls_dispatch]
  split_ifs <;> rfl

theorem length_pwmCalls_iteration (s : SpeedThread T) (inp : Inputs T) :
    (pwmCalls (speedThread s inp).2.effects).length = 4 := by
  rw [pwmCalls_speedThread, List.length_append, length_pwmCalls_dispatch,
    length_pwmCalls_dispatch]

/-- Loops that agree on `n + 1` iterations agree on `n`. -/
theorem pwmTrace_of_succ (mem : Stack T) (env : ℕ → Inputs T) (n : ℕ)
    (h : pwmTrace speedThread (SpeedThread.start mem) (firstInputs env (n + 1))
      = pwmTrace control (SpeedThread.start mem) (firstInputs env (n + 1))) :
    pwmTrace speedThread (SpeedThread.start mem) (firstInputs env n)
      = pwmTrace control (SpeedThread.start mem) (firstInputs env n) := by
  rw [firstInputs_succ, pwmTrace_append, pwmTrace_append, pwmTrace_singleton,
    pwmTrace_singleton] at h
  refine (List.append_inj' h ?_).1
  rw [← pwmCalls_control, length_pwmCalls_iteration, length_pwmCalls_iteration]

end Generic

/-! ## Wheels at rest -/

/-- Nothing has moved in the first `n` iterations and nothing was asked. -/
structure AtRest (n : ℕ) (s : SpeedThread ℚ) : Prop where
  wired : s.Wired (List.replicate n 0) (List.replicate n 0)
  leftCnt : s.left.first = false → s.left.lastCnt = 0
  rightCnt : s.right.first = false → s.right.lastCnt = 0
  pleft : s.pleft.sum = 0 ∧ s.pleft.preErr = 0
  pright : s.pright.sum = 0 ∧ s.pright.preErr = 0
  speed : s.speed = (0, 0)

/-- A reading of the counters at a tick. -/
def readAt (tim : Timers) (tick : ℕ) : Reads where
  firstTick := BitVec.ofNat 32 tick
  firstTim := tim
  tim := tim
  tick := BitVec.ofNat 32 tick
  stale := 0

/-- A rate is zero when the counter shows its reference. -/
theorem rpm_of_unmoved {s : CalcSpeed ℚ} {r : Reads}
    (h : s.nowCnt r = (s.initialise r).lastCnt) : s.rpm r = 0 := by
  rw [CalcSpeed.rpm, CalcSpeed.diffCnt, h, WrapCounter.signedDiff_eq_sub,
    BitVec.sub_self]
  simp

/-- The counter of a still wheel is read as zero, and so is the reference. -/
theorem unmoved_of_still {s : CalcSpeed ℚ} {r : Reads}
    (hnow : encodeCounter s.encodeName r.tim = some 0)
    (hfirst : encodeCounter s.encodeName r.firstTim = some 0)
    (hlast : s.first = false → s.lastCnt = 0) :
    s.nowCnt r = 0 ∧ (s.initialise r).lastCnt = 0 := by
  constructor
  · rw [CalcSpeed.nowCnt, hnow, Option.getD_some]
  · cases hf : s.first with
    | true =>
        rw [CalcSpeed.initialise, hf, if_pos rfl]
        show (encodeCounter s.encodeName r.firstTim).getD s.lastCnt = 0
        rw [hfirst, Option.getD_some]
    | false =>
        rw [initialise_of_not_first hf]
        exact hlast hf

theorem setpoint_zero :
    saturate (leftKinematics ((0, 0) : ℚ × ℚ)) = 0
      ∧ saturate (rightKinematics ((0, 0) : ℚ × ℚ)) = 0 := by
  constructor
  · simp [leftKinematics, saturate]
  · simp [rightKinematics, saturate]

/-- The answer of a controller at rest to a small error. -/
theorem Pid.Wired.output_of_rest {s : Pid ℚ} (h : s.Wired) (hsum : s.sum = 0)
    (hpre : s.preErr = 0) {feed : ℚ} (hsmall : |s.ref - feed| ≤ 100) :
    s.output feed = 801 * (s.ref - feed) := by
  obtain ⟨hlo, hhi⟩ := abs_le.mp hsmall
  have hnext : s.nextSum feed = s.ref - feed := by
    rw [Pid.nextSum, hsum, zero_add,
      Pid.clampSum_of_mem (by linarith) (by linarith)]
  have harg : s.p * (s.ref - feed) + s.i * s.nextSum feed
      + s.d * (s.preErr - (s.ref - feed)) = 801 * (s.ref - feed) := by
    rw [hnext, h.p, h.i, h.d, hpre]
    simp only [Rat.cast_id]
    ring
  rw [Pid.output, harg, h.limits.clampOut_eq,
    Clamp.clamp_of_mem (by linarith) (by linarith)]

/-- A controller at rest that sees no error stays at rest. -/
theorem Pid.calc_of_rest {s : Pid ℚ} (hsum : s.sum = 0) (href : s.ref = 0) :
    (s.calc 0).1.sum = 0 ∧ (s.calc 0).1.preErr = 0 := by
  constructor
  · rw [Pid.calc_sum, Pid.nextSum, hsum, href, sub_zero, add_zero,
      Pid.clampSum_of_mem (by norm_num) (by norm_num)]
  · show s.ref - 0 = 0
    rw [href, sub_zero]

theorem windowMean_replicate_zero (n m : ℕ) :
    windowMean n (List.replicate m (0 : ℚ)) = 0 := by
  rcases Nat.lt_or_ge m n with h | h
  · rw [windowMean, if_pos (by simpa using h)]
    rfl
  · rw [windowMean_eq_sum (by simpa using h), List.rtake_replicate h,
      List.sum_replicate, nsmul_zero, zero_div]

theorem AtRest.start (mem : Stack ℚ)
    (hleft : mem.pleft.sum = 0 ∧ mem.pleft.preErr = 0)
    (hright : mem.pright.sum = 0 ∧ mem.pright.preErr = 0) :
    AtRest 0 (SpeedThread.start mem) where
  wired := SpeedThread.Wired.start mem
  leftCnt := fun _ => rfl
  rightCnt := fun _ => rfl
  pleft := hleft
  pright := hright
  speed := rfl

/-- What a still wheel pushes and what its estimator then returns. -/
theorem CalcSpeed.Wired.still {s : CalcSpeed ℚ} {name : String}
    {cpr : BitVec 16} {n : ℕ} (h : s.Wired name cpr (List.replicate n 0))
    (hlast : s.first = false → s.lastCnt = 0) {r : Reads}
    (hnow : encodeCounter name r.tim = some 0)
    (hfirst : encodeCounter name r.firstTim = some 0) :
    (s.sampled r).Wired name cpr (List.replicate (n + 1) 0)
      ∧ (s.sampled r).lastCnt = 0 ∧ (s.calc r).2 = 0 := by
  rw [← h.encodeName] at hnow hfirst
  obtain ⟨hcnt, href⟩ := unmoved_of_still hnow hfirst hlast
  have hrpm : s.rpm r = 0 := rpm_of_unmoved (hcnt.trans href.symm)
  have hhist : List.replicate n (0 : ℚ) ++ [s.rpm r] = List.replicate (n + 1) 0 := by
    rw [hrpm, List.replicate_succ']
  refine ⟨?_, hcnt, ?_⟩
  · rw [← hhist]
    exact h.sampled r
  · rw [h.calc_snd, hhist, windowMean_replicate_zero, mul_zero]

/-- **Rest lasts** while nothing arrives and nothing turns. -/
theorem AtRest.control {n : ℕ} {s : SpeedThread ℚ} (h : AtRest n s)
    {inp : Inputs ℚ} (hmsg : inp.msg = none) {t t' : ℕ}
    (hleft : inp.left = readAt Timers.zero t)
    (hright : inp.right = readAt Timers.zero t') :
    AtRest (n + 1) (control s inp).1 := by
  obtain ⟨hlw, hlc, hlf⟩ := h.wired.left.still h.leftCnt (r := inp.left)
    (by rw [hleft]; rfl) (by rw [hleft]; rfl)
  obtain ⟨hrw, hrc, hrf⟩ := h.wired.right.still h.rightCnt (r := inp.right)
    (by rw [hright]; rfl) (by rw [hright]; rfl)
  have hspeed : inp.msg.getD s.speed = (0, 0) := by
    rw [hmsg, Option.getD_none, h.speed]
  have hw := h.wired.control inp
  refine ⟨⟨hlw, hrw, hw.pleft, hw.pright, hw.rightPwm, hw.leftPwm⟩,
    fun _ => hlc, fun _ => hrc, ?_, ?_, hspeed⟩
  · have hnext : (DiffCar.control s inp).1.pleft = ((s.pleft.setRef 0).calc 0).1 := by
      show ((s.pleft.setRef (saturate (leftKinematics (inp.msg.getD s.speed)))).calc
        (s.left.calc inp.left).2).1 = _
      rw [hspeed, setpoint_zero.1, hlf]
    rw [hnext]
    exact Pid.calc_of_rest h.pleft.1 rfl
  · have hnext :
        (DiffCar.control s inp).1.pright = ((s.pright.setRef 0).calc 0).1 := by
      show ((s.pright.setRef (saturate (rightKinematics (inp.msg.getD s.speed)))).calc
        (s.right.calc inp.right).2).1 = _
      rw [hspeed, setpoint_zero.2, hrf]
    rw [hnext]
    exact Pid.calc_of_rest h.pright.1 rfl

/-- The left wheel has turned by one count. -/
def countOne : Timers := Timers.zero.turn "htm2" 1

/-- The environment of the comparison: no message, a tick of two between
iterations, and one count of the left wheel just before the report of the
iteration `100`. -/
def oneCount (k : ℕ) : Inputs ℚ where
  msg := none
  left := readAt (if k ≤ 100 then Timers.zero else countOne) (2 * k)
  right := readAt (if k ≤ 100 then Timers.zero else countOne) (2 * k)
  repLeft := readAt (if k < 100 then Timers.zero else countOne) (2 * k)
  repRight := readAt (if k < 100 then Timers.zero else countOne) (2 * k)

theorem atRest_oneCount {mem : Stack ℚ}
    (hleft : mem.pleft.sum = 0 ∧ mem.pleft.preErr = 0)
    (hright : mem.pright.sum = 0 ∧ mem.pright.preErr = 0) {n : ℕ} (hn : n ≤ 101) :
    AtRest n
      (Reactive.final control (SpeedThread.start mem) (firstInputs oneCount n)) := by
  induction n with
  | zero => exact AtRest.start mem hleft hright
  | succ n ih =>
      have ih := ih (by omega)
      rw [firstInputs_succ, Reactive.final_append]
      have hread : readAt (if n ≤ 100 then Timers.zero else countOne) (2 * n)
          = readAt Timers.zero (2 * n) := by
        rw [if_pos (by omega)]
      exact ih.control rfl hread hread

/-! ## One count before the first report -/

/-- A mean over a window whose older part is zero. -/
theorem windowMean_recent {l : List ℚ} {m : ℕ} (hm : 50 ≤ m) (hl : l.length ≤ 50) :
    windowMean 50 (List.replicate m 0 ++ l) = l.sum / 50 := by
  have hlen : 50 ≤ (List.replicate m (0 : ℚ) ++ l).length := by
    simp only [List.length_append, List.length_replicate]
    omega
  rw [windowMean_eq_sum hlen, List.rtake_append hl, List.sum_append,
    List.rtake_replicate (by omega), List.sum_replicate, nsmul_zero, zero_add]
  norm_num

/-- The rate of one count since the last reading, for the left wheel. -/
theorem CalcSpeed.Wired.rpm_oneCount {s : CalcSpeed ℚ} {hist : List ℚ}
    (h : s.Wired "htm2" 30000 hist) (hfirst : s.first = false)
    (hlast : s.lastCnt = 0) {t d : ℕ}
    (htime : (s.diffT (readAt countOne t)).toNat = d) : s.rpm (readAt countOne t) = 2 / d := by
  have hdiff : s.diffCnt (readAt countOne t) = 1 := by
    rw [CalcSpeed.diffCnt, initialise_of_not_first hfirst, hlast,
      CalcSpeed.nowCnt, h.encodeName]
    rfl
  have hone : (1 : BitVec 16).toInt = 1 := by decide
  have hcpr : (30000 : BitVec 16).toNat = 30000 := by decide
  rw [CalcSpeed.rpm, hdiff, htime, h.cpr, hone, hcpr]
  norm_num

theorem diffT_of_lastTime {s : CalcSpeed ℚ} (hfirst : s.first = false) {t : ℕ}
    (hlast : s.lastTime = BitVec.ofNat 32 t) (tim : Timers) (t' : ℕ) :
    s.diffT (readAt tim t')
      = if BitVec.ofNat 32 t' - BitVec.ofNat 32 t = 0 then 1
        else BitVec.ofNat 32 t' - BitVec.ofNat 32 t := by
  rw [CalcSpeed.diffT, initialise_of_not_first hfirst, hlast]
  rfl

/-- The state in which the report of the iteration `100` finds the thread. -/
structure BeforeReport (s : SpeedThread ℚ) : Prop extends AtRest 101 s where
  leftFirst : s.left.first = false
  leftTime : s.left.lastTime = BitVec.ofNat 32 200

theorem beforeReport {mem : Stack ℚ}
    (hleft : mem.pleft.sum = 0 ∧ mem.pleft.preErr = 0)
    (hright : mem.pright.sum = 0 ∧ mem.pright.preErr = 0) :
    BeforeReport (Reactive.final control (SpeedThread.start mem)
      (firstInputs oneCount 101)) where
  toAtRest := atRest_oneCount hleft hright (by decide)
  leftFirst := by
    rw [firstInputs_succ, Reactive.final_append]
    exact sampled_first _ _
  leftTime := by
    rw [firstInputs_succ, Reactive.final_append]
    rfl

/-- The first call of the iteration that follows, by what the left estimator
returns there. -/
theorem BeforeReport.head {s : SpeedThread ℚ} (h : BeforeReport s)
    (cnt : BitVec 8) (left right : CalcSpeed ℚ) {feed : ℚ}
    (hfeed : (left.calc (oneCount 101).left).2 = feed) (hpos : 0 < feed)
    (hsmall : feed ≤ 100) :
    (pwmCalls (control { s with cnt := cnt, left := left, right := right }
        (oneCount 101)).2.effects).head?
      = some (s.leftPwm.set s.leftPwm.channelCcw (toUInt32 (801 * feed))) := by
  have hspeed : (oneCount 101).msg.getD s.speed = (0, 0) := by
    rw [h.speed]
    rfl
  have hrest : |(s.pleft.setRef 0).ref - feed| ≤ 100 := by
    show |0 - feed| ≤ 100
    rw [zero_sub, abs_neg, abs_of_pos hpos]
    exact hsmall
  have hout : (control { s with cnt := cnt, left := left, right := right }
      (oneCount 101)).2.leftP = -(801 * feed) := by
    show (s.pleft.setRef (saturate (leftKinematics
      ((oneCount 101).msg.getD s.speed)))).output (left.calc (oneCount 101).left).2 = _
    rw [hspeed, setpoint_zero.1, hfeed,
      (h.wired.pleft.setRef 0).output_of_rest h.pleft.1 h.pleft.2 hrest]
    show 801 * (0 - feed) = -(801 * feed)
    ring
  have hneg : -(801 * feed) < 0 := by linarith
  have hinv : s.leftPwm.inverse = false := h.wired.leftMotor.inverse
  rw [← pwmCalls_control, pwmCalls_speedThread, hout, pwmCalls_dispatch,
    if_neg (by simpa using hneg.le), if_pos (by simpa using hneg), hinv, neg_neg]
  rfl

/-- Without the report the count is the rate of two ticks. -/
theorem BeforeReport.feed_without {s : SpeedThread ℚ} (h : BeforeReport s) :
    (s.left.calc (oneCount 101).left).2 = 1 / 50 := by
  have htime : (s.left.diffT (readAt countOne 202)).toNat = 2 := by
    rw [diffT_of_lastTime h.leftFirst h.leftTime]
    decide
  have hrpm : s.left.rpm (readAt countOne 202) = 1 := by
    rw [h.wired.left.rpm_oneCount h.leftFirst (h.leftCnt h.leftFirst) htime]
    norm_num
  show (s.left.calc (readAt countOne 202)).2 = 1 / 50
  rw [h.wired.left.calc_snd, hrpm, windowMean_recent (by decide) (by decide)]
  norm_num

/-- With it the report has already counted it, as the rate of one tick. -/
theorem BeforeReport.feed_with {s : SpeedThread ℚ} (h : BeforeReport s) :
    ((s.left.sampled (oneCount 100).repLeft).calc (oneCount 101).left).2
      = 1 / 25 := by
  have htime : (s.left.diffT (readAt countOne 200)).toNat = 1 := by
    rw [diffT_of_lastTime h.leftFirst h.leftTime]
    decide
  have hrpm : s.left.rpm (readAt countOne 200) = 2 := by
    rw [h.wired.left.rpm_oneCount h.leftFirst (h.leftCnt h.leftFirst) htime]
    norm_num
  have hw := h.wired.left.sampled (readAt countOne 200)
  have hzero : (s.left.sampled (readAt countOne 200)).rpm (readAt countOne 202) = 0 := by
    refine rpm_of_unmoved ?_
    rw [initialise_of_not_first (sampled_first _ _), sampled_lastCnt,
      CalcSpeed.nowCnt, CalcSpeed.nowCnt, hw.encodeName, h.wired.left.encodeName]
    rfl
  show ((s.left.sampled (readAt countOne 200)).calc (readAt countOne 202)).2 = 1 / 25
  rw [hw.calc_snd, hzero, hrpm, List.append_assoc,
    windowMean_recent (by decide) (by decide)]
  norm_num

/-- **One count seen by the report changes the next pulse.** -/
theorem pwmTrace_oneCount {mem : Stack ℚ}
    (hleft : mem.pleft.sum = 0 ∧ mem.pleft.preErr = 0)
    (hright : mem.pright.sum = 0 ∧ mem.pright.preErr = 0) :
    pwmTrace speedThread (SpeedThread.start mem) (firstInputs oneCount 102)
      ≠ pwmTrace control (SpeedThread.start mem) (firstInputs oneCount 102) := by
  intro heq
  have h := beforeReport hleft hright
  obtain ⟨s, hs⟩ : ∃ s, Reactive.final control (SpeedThread.start mem)
      (firstInputs oneCount 101) = s := ⟨_, rfl⟩
  rw [hs] at h
  -- cancel the iterations that agree
  rw [firstInputs_succ, pwmTrace_append, pwmTrace_append,
    pwmTrace_up_to_report mem oneCount le_rfl, List.append_cancel_left_eq,
    pwmTrace_singleton, pwmTrace_singleton, pwmCalls_control,
    final_after_report hs, hs] at heq
  have hfirst := congrArg List.head? heq
  rw [h.head _ _ _ h.feed_with (by norm_num) (by norm_num),
    h.head s.cnt s.left s.right h.feed_without (by norm_num) (by norm_num),
    Option.some.injEq] at hfirst
  have hpulse : toUInt32 (801 * (1 / 25) : ℚ) = toUInt32 (801 * (1 / 50) : ℚ) :=
    congrArg PwmSet.pulse hfirst
  have hwith : ⌊(801 * (1 / 25) : ℚ)⌋₊ = 32 := by
    rw [Nat.floor_eq_iff (by norm_num)]
    norm_num
  have hwithout : ⌊(801 * (1 / 50) : ℚ)⌋₊ = 16 := by
    rw [Nat.floor_eq_iff (by norm_num)]
    norm_num
  rw [toUInt32_eq_floor (by norm_num), toUInt32_eq_floor (by norm_num), hwith,
    hwithout] at hpulse
  omega

/-- **Telemetry and control.** The loop makes the same `rt_pwm_set` calls with
and without its reporting block, in every environment, for at most 101
iterations; for any number beyond, some environment tells them apart. -/
theorem telemetry_iff (n : ℕ) :
    (∀ (mem : Stack ℚ) (env : ℕ → Inputs ℚ),
        pwmTrace speedThread (SpeedThread.start mem) (firstInputs env n)
          = pwmTrace control (SpeedThread.start mem) (firstInputs env n))
      ↔ n ≤ 101 := by
  constructor
  · intro h
    by_contra hn
    -- a disagreement after 102 iterations is one after every larger number
    have hprefix : ∀ m, 102 ≤ m →
        pwmTrace speedThread (SpeedThread.start Stack.zero) (firstInputs oneCount m)
          ≠ pwmTrace control (SpeedThread.start Stack.zero) (firstInputs oneCount m) := by
      intro m hm
      induction m, hm using Nat.le_induction with
      | base => exact pwmTrace_oneCount ⟨rfl, rfl⟩ ⟨rfl, rfl⟩
      | succ m _ ih =>
          intro heq
          exact ih (pwmTrace_of_succ _ _ m heq)
    exact hprefix n (by omega) (h Stack.zero oneCount)
  · intro hn mem env
    exact pwmTrace_up_to_report mem env hn

/-- The loops differ in the iteration after the first report. -/
theorem telemetry_disturbs :
    pwmTrace speedThread (SpeedThread.start Stack.zero) (firstInputs oneCount 102)
      ≠ pwmTrace control (SpeedThread.start Stack.zero) (firstInputs oneCount 102) :=
  pwmTrace_oneCount ⟨rfl, rfl⟩ ⟨rfl, rfl⟩

end DiffCar
