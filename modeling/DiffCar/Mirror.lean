import DiffCar.Envelope
import DiffCar.Reconstruction

/-!
# Mirror — driving backwards is driving forwards

Two runs of the control loop, every command and every wheel displacement of
one opposite to those of the other, the clock and the arrival times the same.
The physical side of the loop is a `Plant`: the registers and the clock as
seen by each of the two encoders. A `Scene` is what an iteration meets there.

The two states stay mirror images (`MirrorRun`): opposite commands, opposite
rates in the windows, mirror controllers. Nothing ties the counters of one run
to those of the other; each run only tracks its own wheels.
-/

namespace DiffCar

/-- The registers and the clock behind each of the two estimators. -/
structure Plant where
  left : Wheel
  right : Wheel

/-- What one iteration meets: the message that arrived, if any, and the moves
of the wheels before the readings of its `calc()` calls. The last two happen
only when the iteration reports. -/
structure Scene where
  msg : Option (ℚ × ℚ)
  left : Move
  right : Move
  repLeft : Move
  repRight : Move

/-- The plant at the readings of the control part. -/
def Plant.driven (p : Plant) (sc : Scene) : Plant where
  left := p.left.after "htm2" sc.left
  right := p.right.after "htm4" sc.right

/-- The plant at the readings of the report. -/
def Plant.reported (p : Plant) (sc : Scene) : Plant where
  left := p.left.after "htm2" sc.repLeft
  right := p.right.after "htm4" sc.repRight

/-- What the thread reads of a scene. -/
def Plant.inputs (p : Plant) (sc : Scene) : Inputs ℚ where
  msg := sc.msg
  left := p.left.reads "htm2" sc.left
  right := p.right.reads "htm4" sc.right
  repLeft := (p.driven sc).left.reads "htm2" sc.repLeft
  repRight := (p.driven sc).right.reads "htm4" sc.repRight

/-- One iteration in the physical world. -/
def closedLoop (st : SpeedThread ℚ × Plant) (sc : Scene) :
    (SpeedThread ℚ × Plant) × Iteration ℚ :=
  let r := speedThread st.1 (st.2.inputs sc)
  let plant := st.2.driven sc
  ((r.1, if st.1.reports then plant.reported sc else plant), r.2)

theorem closedLoop_thread (st : SpeedThread ℚ × Plant) (sc : Scene) :
    (closedLoop st sc).1.1 = (speedThread st.1 (st.2.inputs sc)).1 := rfl

/-- A wheel moves before the control part reads it, and again before a report
does. -/
theorem closedLoop_left (st : SpeedThread ℚ × Plant) (sc : Scene) :
    (closedLoop st sc).1.2.left
      = if st.1.reports then
          (st.2.left.after "htm2" sc.left).after "htm2" sc.repLeft
        else st.2.left.after "htm2" sc.left :=
  apply_ite Plant.left _ _ _

theorem closedLoop_right (st : SpeedThread ℚ × Plant) (sc : Scene) :
    (closedLoop st sc).1.2.right
      = if st.1.reports then
          (st.2.right.after "htm4" sc.right).after "htm4" sc.repRight
        else st.2.right.after "htm4" sc.right :=
  apply_ite Plant.right _ _ _

/-! ## What it means to be the mirror image -/

/-- The opposite displacement in the same time, and one that fits. -/
structure Move.Mirror (m m' : Move) : Prop where
  disp : m'.disp = -m.disp
  elapsed : m'.elapsed = m.elapsed
  fits : |m.disp| < 2 ^ 15

/-- The opposite command, or none in both. -/
def MirrorMsg (c c' : Option (ℚ × ℚ)) : Prop :=
  c' = c.map fun v => (-v.1, -v.2)

/-- The same arrivals and times, everything signed negated. -/
structure Scene.Mirror (sc sc' : Scene) : Prop where
  msg : MirrorMsg sc.msg sc'.msg
  left : sc.left.Mirror sc'.left
  right : sc.right.Mirror sc'.right
  repLeft : sc.repLeft.Mirror sc'.repLeft
  repRight : sc.repRight.Mirror sc'.repRight

/-- The mirror image of a move and of a scene. -/
def Move.negate (m : Move) : Move := { m with disp := -m.disp }

def Scene.negate (sc : Scene) : Scene where
  msg := sc.msg.map fun v => (-v.1, -v.2)
  left := sc.left.negate
  right := sc.right.negate
  repLeft := sc.repLeft.negate
  repRight := sc.repRight.negate

theorem Move.mirror_negate {m : Move} (h : |m.disp| < 2 ^ 15) :
    m.Mirror m.negate :=
  ⟨rfl, rfl, h⟩

/-- The controllers' unset members are opposite; the rest of the memory is
arbitrary in both. -/
structure Stack.Mirror (mem mem' : Stack ℚ) : Prop where
  leftSum : mem'.pleft.sum = -mem.pleft.sum
  leftPreErr : mem'.pleft.preErr = -mem.pleft.preErr
  rightSum : mem'.pright.sum = -mem.pright.sum
  rightPreErr : mem'.pright.preErr = -mem.pright.preErr

/-- The clocks agree; the counters need not. -/
structure Plant.SameClock (p p' : Plant) : Prop where
  left : p'.left.tick = p.left.tick
  right : p'.right.tick = p.right.tick

/-! ## Two estimators -/

/-- Estimators of one encoder with opposite rates in their windows, each
tracking its own wheel, under one clock. -/
structure CalcSpeed.Mirror (s s' : CalcSpeed ℚ) (w w' : Wheel) (name : String)
    (cpr : BitVec 16) : Prop where
  hist : ∃ l, s.Wired name cpr l ∧ s'.Wired name cpr (l.map fun x => -x)
  tracks : Tracks s w
  tracks' : Tracks s' w'
  tick : w'.tick = w.tick

section Estimators

variable {s s' : CalcSpeed ℚ} {w w' : Wheel} {name : String} {cpr : BitVec 16}
  {m m' : Move}

theorem CalcSpeed.Mirror.encodeName (h : s.Mirror s' w w' name cpr) :
    s.encodeName = name := by
  obtain ⟨l, hw, _⟩ := h.hist
  exact hw.encodeName

theorem CalcSpeed.Mirror.encodeName' (h : s.Mirror s' w w' name cpr) :
    s'.encodeName = name := by
  obtain ⟨l, _, hw⟩ := h.hist
  exact hw.encodeName

/-- Under one clock both calls measure the same time, wrapped or not. -/
theorem CalcSpeed.Mirror.diffT (h : s.Mirror s' w w' name cpr)
    (hm : m.Mirror m') :
    s'.diffT (w'.reads name m') = s.diffT (w.reads name m) := by
  have hlast := (h.tracks.initialise m).2
  have hlast' := (h.tracks'.initialise m').2
  rw [h.encodeName] at hlast
  rw [h.encodeName'] at hlast'
  have htick : (w'.reads name m').tick = (w.reads name m).tick := by
    show w'.tick + BitVec.ofNat 32 m'.elapsed = w.tick + BitVec.ofNat 32 m.elapsed
    rw [h.tick, hm.elapsed]
  unfold CalcSpeed.diffT
  rw [hlast, hlast', htick, h.tick]

/-- **Opposite displacements give opposite rates.** -/
theorem CalcSpeed.Mirror.rpm (h : s.Mirror s' w w' name cpr)
    (hm : m.Mirror m') :
    s'.rpm (w'.reads name m') = -s.rpm (w.reads name m) := by
  have hfits' : |m'.disp| < 2 ^ 15 := by
    rw [hm.disp, abs_neg]
    exact hm.fits
  have hdisp := h.tracks.diffCnt hm.fits
  have hdisp' := h.tracks'.diffCnt hfits'
  rw [h.encodeName] at hdisp
  rw [h.encodeName'] at hdisp'
  have hcpr : s'.cpr = s.cpr := by
    obtain ⟨l, hw, hw'⟩ := h.hist
    rw [hw.cpr, hw'.cpr]
  rw [CalcSpeed.rpm, CalcSpeed.rpm, hdisp, hdisp', h.diffT hm, hcpr, hm.disp]
  simp only [Rat.cast_id]
  push_cast
  ring

theorem CalcSpeed.Mirror.construct (mem mem' : ℕ → ℚ) (hname : IsEncoder name)
    (cpr : BitVec 16) (htick : w'.tick = w.tick) :
    (CalcSpeed.construct 50 mem name cpr).Mirror
      (CalcSpeed.construct 50 mem' name cpr) w w' name cpr where
  hist := ⟨[], CalcSpeed.Wired.construct mem name cpr,
    CalcSpeed.Wired.construct mem' name cpr⟩
  tracks := Tracks.of_first hname rfl w
  tracks' := Tracks.of_first hname rfl w'
  tick := htick

/-- **A call keeps the two estimators mirror images.** -/
theorem CalcSpeed.Mirror.sampled (h : s.Mirror s' w w' name cpr)
    (hm : m.Mirror m') :
    (s.sampled (w.reads name m)).Mirror (s'.sampled (w'.reads name m'))
      (w.after name m) (w'.after name m') name cpr where
  hist := by
    obtain ⟨l, hw, hw'⟩ := h.hist
    refine ⟨l ++ [s.rpm (w.reads name m)], hw.sampled _, ?_⟩
    have hnext := hw'.sampled (w'.reads name m')
    rw [h.rpm hm] at hnext
    rw [List.map_append]
    exact hnext
  tracks := by
    have hnext := h.tracks.sampled m
    rw [h.encodeName] at hnext
    exact hnext
  tracks' := by
    have hnext := h.tracks'.sampled m'
    rw [h.encodeName'] at hnext
    exact hnext
  tick := by
    show w'.tick + BitVec.ofNat 32 m'.elapsed = w.tick + BitVec.ofNat 32 m.elapsed
    rw [h.tick, hm.elapsed]

/-- The speeds the two calls return are opposite, whether or not the windows
are full. -/
theorem CalcSpeed.Mirror.calc_snd (h : s.Mirror s' w w' name cpr)
    (hm : m.Mirror m') :
    (s'.calc (w'.reads name m')).2 = -(s.calc (w.reads name m)).2 := by
  obtain ⟨l, hw, hw'⟩ := h.hist
  have hlist : (l.map fun x => -x) ++ [s'.rpm (w'.reads name m')]
      = (l ++ [s.rpm (w.reads name m)]).map fun x => -x := by
    rw [h.rpm hm, List.map_append]
    rfl
  rw [hw.calc_snd, hw'.calc_snd, hlist, windowMean_neg, mul_neg]

/-- **One wheel.** Mirror images of estimator and controller, given opposite
setpoints, put out opposite values and stay mirror images. -/
theorem Pid.Mirror.wheel {pid pid' : Pid ℚ} (hpid : pid.Mirror pid')
    (h : s.Mirror s' w w' name cpr) (hm : m.Mirror m') {ref ref' : ℚ}
    (href : ref' = -ref) :
    ((pid'.setRef ref').calc (s'.calc (w'.reads name m')).2).2
        = -((pid.setRef ref).calc (s.calc (w.reads name m)).2).2
      ∧ ((pid.setRef ref).calc (s.calc (w.reads name m)).2).1.Mirror
        ((pid'.setRef ref').calc (s'.calc (w'.reads name m')).2).1 := by
  have hset := hpid.setRef ref ref'
  rw [h.calc_snd hm]
  constructor
  · rw [Pid.calc_snd, Pid.calc_snd]
    exact hset.output href _
  · exact hset.calc href _

end Estimators

/-! ## Setpoints and dispatch -/

theorem leftKinematics_neg (c : ℚ × ℚ) :
    leftKinematics (-c.1, -c.2) = -leftKinematics c := by
  simp only [leftKinematics]
  ring

theorem rightKinematics_neg (c : ℚ × ℚ) :
    rightKinematics (-c.1, -c.2) = -rightKinematics c := by
  simp only [rightKinematics]
  ring

theorem saturate_neg (x : ℚ) : saturate (-x) = -saturate x := by
  rw [saturate_eq_clamp, saturate_eq_clamp, Clamp.clamp_neg (by norm_num)]

/-- The channels of a motor hold in one world what they hold the other way
round in the other. -/
structure Swapped (pwm : Pwm) (dev : String) (l l' : Lines) : Prop where
  cw : l' dev pwm.channelCw = l dev pwm.channelCcw
  ccw : l' dev pwm.channelCcw = l dev pwm.channelCw

/-- **Opposite outputs leave swapped channels**, whatever they held. -/
theorem swapped_dispatch {pwm : Pwm} {dev : String} (hm : Motor pwm dev)
    (l l' : Lines) (p : ℚ) :
    Swapped pwm dev (l.after (pwmCalls (dispatch pwm p)))
      (l'.after (pwmCalls (dispatch pwm (-p)))) := by
  rw [pwmCalls_dispatch, pwmCalls_dispatch, hm.inverse]
  simp only [Rat.cast_id, Bool.not_false, neg_neg]
  rcases lt_trichotomy p 0 with hneg | rfl | hpos
  · rw [if_neg hneg.not_gt, if_pos hneg, if_pos (by linarith)]
    have hfst := Pwm.after_drive hm.device hm.channels l false (toUInt32 (-p))
    have hsnd := Pwm.after_drive hm.device hm.channels l' true (toUInt32 (-p))
    exact ⟨hsnd.1.trans hfst.1.symm, hsnd.2.trans hfst.2.symm⟩
  · simp only [neg_zero, lt_irrefl, if_false]
    have hfst := Pwm.after_drive hm.device hm.channels l true 0
    have hsnd := Pwm.after_drive hm.device hm.channels l' true 0
    exact ⟨hsnd.1.trans hfst.2.symm, hsnd.2.trans hfst.1.symm⟩
  · rw [if_pos hpos, if_neg (by linarith), if_pos (by linarith)]
    have hfst := Pwm.after_drive hm.device hm.channels l true (toUInt32 p)
    have hsnd := Pwm.after_drive hm.device hm.channels l' false (toUInt32 p)
    exact ⟨hsnd.2.trans hfst.2.symm, hsnd.1.trans hfst.1.symm⟩

/-! ## The two threads -/

/-- The two states are mirror images, each with its own plant. -/
structure MirrorRun (st st' : SpeedThread ℚ × Plant) : Prop where
  cnt : st'.1.cnt = st.1.cnt
  left : st.1.left.Mirror st'.1.left st.2.left st'.2.left "htm2" 30000
  right : st.1.right.Mirror st'.1.right st.2.right st'.2.right "htm4" 32000
  pleft : st.1.pleft.Mirror st'.1.pleft
  pright : st.1.pright.Mirror st'.1.pright
  leftPwm : Motor st.1.leftPwm "pwm3" ∧ st'.1.leftPwm = st.1.leftPwm
  rightPwm : Motor st.1.rightPwm "pwm1" ∧ st'.1.rightPwm = st.1.rightPwm
  speed : st'.1.speed = (-st.1.speed.1, -st.1.speed.2)

theorem MirrorRun.start {mem mem' : Stack ℚ} (hmem : mem.Mirror mem')
    {p p' : Plant} (hclock : p.SameClock p') :
    MirrorRun (SpeedThread.start mem, p) (SpeedThread.start mem', p') where
  cnt := rfl
  left := CalcSpeed.Mirror.construct _ _ (.inl rfl) _ hclock.left
  right := CalcSpeed.Mirror.construct _ _ (.inr rfl) _ hclock.right
  pleft := ⟨⟨rfl, rfl⟩, ⟨rfl, rfl⟩, hmem.leftPreErr, hmem.leftSum, rfl, rfl, rfl⟩
  pright :=
    ⟨⟨rfl, rfl⟩, ⟨rfl, rfl⟩, hmem.rightPreErr, hmem.rightSum, rfl, rfl, rfl⟩
  leftPwm := ⟨motor_construct (by decide) _, rfl⟩
  rightPwm := ⟨motor_construct (by decide) _, rfl⟩
  speed := by
    show ((0 : ℚ), (0 : ℚ)) = (-0, -0)
    rw [neg_zero]

section Step

variable {st st' : SpeedThread ℚ × Plant} {sc sc' : Scene}

/-- The commands the two iterations act on are opposite. -/
theorem MirrorRun.command (h : MirrorRun st st') (hsc : sc.Mirror sc') :
    sc'.msg.getD st'.1.speed
      = (-(sc.msg.getD st.1.speed).1, -(sc.msg.getD st.1.speed).2) := by
  have hmsg : sc'.msg = sc.msg.map fun v => (-v.1, -v.2) := hsc.msg
  rw [hmsg]
  cases sc.msg with
  | none => exact h.speed
  | some c => rfl

theorem MirrorRun.leftRef (h : MirrorRun st st') (hsc : sc.Mirror sc') :
    saturate (leftKinematics (sc'.msg.getD st'.1.speed))
      = -saturate (leftKinematics (sc.msg.getD st.1.speed)) := by
  rw [h.command hsc, leftKinematics_neg, saturate_neg]

theorem MirrorRun.rightRef (h : MirrorRun st st') (hsc : sc.Mirror sc') :
    saturate (rightKinematics (sc'.msg.getD st'.1.speed))
      = -saturate (rightKinematics (sc.msg.getD st.1.speed)) := by
  rw [h.command hsc, rightKinematics_neg, saturate_neg]

/-- The controller outputs of the two iterations are opposite. -/
theorem MirrorRun.leftP (h : MirrorRun st st') (hsc : sc.Mirror sc') :
    (closedLoop st' sc').2.leftP = -(closedLoop st sc).2.leftP :=
  (h.pleft.wheel h.left hsc.left (h.leftRef hsc)).1

theorem MirrorRun.rightP (h : MirrorRun st st') (hsc : sc.Mirror sc') :
    (closedLoop st' sc').2.rightP = -(closedLoop st sc).2.rightP :=
  (h.pright.wheel h.right hsc.right (h.rightRef hsc)).1

/-- The two threads report in the same iterations. -/
theorem MirrorRun.reports (h : MirrorRun st st') :
    st'.1.reports ↔ st.1.reports := by
  unfold SpeedThread.reports
  rw [h.cnt]

/-- **A step keeps the mirror image**, whether or not it reports. -/
theorem MirrorRun.step (h : MirrorRun st st') (hsc : sc.Mirror sc') :
    MirrorRun (closedLoop st sc).1 (closedLoop st' sc').1 where
  cnt := by
    rw [closedLoop_thread, closedLoop_thread, speedThread_cnt, speedThread_cnt,
      h.cnt]
    simp only [h.reports]
  left := by
    rw [closedLoop_thread, closedLoop_thread, speedThread_left, speedThread_left,
      closedLoop_left, closedLoop_left]
    -- the report samples both estimators once more
    by_cases hrep : st.1.reports
    · simp only [h.reports, if_pos hrep]
      exact (h.left.sampled hsc.left).sampled hsc.repLeft
    · simp only [h.reports, if_neg hrep]
      exact h.left.sampled hsc.left
  right := by
    rw [closedLoop_thread, closedLoop_thread, speedThread_right, speedThread_right,
      closedLoop_right, closedLoop_right]
    by_cases hrep : st.1.reports
    · simp only [h.reports, if_pos hrep]
      exact (h.right.sampled hsc.right).sampled hsc.repRight
    · simp only [h.reports, if_neg hrep]
      exact h.right.sampled hsc.right
  pleft := by
    rw [closedLoop_thread, closedLoop_thread, speedThread_pleft, speedThread_pleft]
    exact (h.pleft.wheel h.left hsc.left (h.leftRef hsc)).2
  pright := by
    rw [closedLoop_thread, closedLoop_thread, speedThread_pright,
      speedThread_pright]
    exact (h.pright.wheel h.right hsc.right (h.rightRef hsc)).2
  leftPwm := by
    rw [closedLoop_thread, closedLoop_thread, speedThread_leftPwm,
      speedThread_leftPwm]
    exact h.leftPwm
  rightPwm := by
    rw [closedLoop_thread, closedLoop_thread, speedThread_rightPwm,
      speedThread_rightPwm]
    exact h.rightPwm
  speed := by
    rw [closedLoop_thread, closedLoop_thread, speedThread_speed,
      speedThread_speed]
    exact h.command hsc

/-- **The channels after an iteration of each** are swapped, whatever they
held before. -/
theorem MirrorRun.swapped (h : MirrorRun st st') (hsc : sc.Mirror sc')
    (l l' : Lines) :
    Swapped st.1.leftPwm "pwm3"
        (l.after (pwmCalls (closedLoop st sc).2.effects))
        (l'.after (pwmCalls (closedLoop st' sc').2.effects))
      ∧ Swapped st.1.rightPwm "pwm1"
        (l.after (pwmCalls (closedLoop st sc).2.effects))
        (l'.after (pwmCalls (closedLoop st' sc').2.effects)) := by
  have hcalls : pwmCalls (closedLoop st sc).2.effects
      = pwmCalls (dispatch st.1.leftPwm (closedLoop st sc).2.leftP)
        ++ pwmCalls (dispatch st.1.rightPwm (closedLoop st sc).2.rightP) :=
    pwmCalls_speedThread _ _
  have hcalls' : pwmCalls (closedLoop st' sc').2.effects
      = pwmCalls (dispatch st.1.leftPwm (-(closedLoop st sc).2.leftP))
        ++ pwmCalls (dispatch st.1.rightPwm (-(closedLoop st sc).2.rightP)) := by
    rw [← h.leftP hsc, ← h.rightP hsc, ← h.leftPwm.2, ← h.rightPwm.2]
    exact pwmCalls_speedThread _ _
  rw [hcalls, hcalls', Lines.after_append, Lines.after_append]
  constructor
  · -- the right dispatch is on the other device
    have hleft := swapped_dispatch h.leftPwm.1 l l' (closedLoop st sc).2.leftP
    have hother : ∀ p : ℚ, ∀ c ∈ pwmCalls (dispatch st.1.rightPwm p),
        c.device ≠ some "pwm3" := by
      intro p c hc
      rw [device_of_mem_dispatch hc, h.rightPwm.1.device]
      decide
    exact ⟨by rw [Lines.after_other (hother _), Lines.after_other (hother _)]
              exact hleft.cw,
           by rw [Lines.after_other (hother _), Lines.after_other (hother _)]
              exact hleft.ccw⟩
  · exact swapped_dispatch h.rightPwm.1 _ _ _

end Step

/-- The lines after a run of the closed loop from these constructions. -/
def linesAfter (mem : Stack ℚ) (p : Plant) (l : Lines) (scs : List Scene) :
    Lines :=
  l.after (pwmTrace closedLoop (SpeedThread.start mem, p) scs)

/-- The motors are the ones constructed, after any run. -/
theorem closedLoop_pwm (mem : Stack ℚ) (p : Plant) (scs : List Scene) :
    let st := Reactive.final closedLoop (SpeedThread.start mem, p) scs
    st.1.leftPwm = (SpeedThread.start mem).leftPwm
      ∧ st.1.rightPwm = (SpeedThread.start mem).rightPwm := by
  refine Reactive.final_inv
    (P := fun st : SpeedThread ℚ × Plant =>
      st.1.leftPwm = (SpeedThread.start mem).leftPwm
        ∧ st.1.rightPwm = (SpeedThread.start mem).rightPwm)
    (A := fun _ => True) ?_ ⟨rfl, rfl⟩ (fun _ _ => trivial)
  intro st sc h _
  exact ⟨(speedThread_leftPwm _ _).trans h.1, (speedThread_rightPwm _ _).trans h.2⟩

/-- **Forward/backward symmetry of the control loop.** Two runs of any length
under one clock, from any counters, with opposite commands, displacements and
initial controller memory: after every iteration each motor's channels hold in
one run what they hold, the other way round, in the other. -/
theorem mirror_symmetry (mem mem' : Stack ℚ) (hmem : mem.Mirror mem')
    (p p' : Plant) (hclock : p.SameClock p') (l l' : Lines)
    (scs scs' : List Scene) (hscs : List.Forall₂ Scene.Mirror scs scs')
    (k : ℕ) (hk : k < scs.length) :
    Swapped (SpeedThread.start mem).leftPwm "pwm3"
        (linesAfter mem p l (scs.take (k + 1)))
        (linesAfter mem' p' l' (scs'.take (k + 1)))
      ∧ Swapped (SpeedThread.start mem).rightPwm "pwm1"
        (linesAfter mem p l (scs.take (k + 1)))
        (linesAfter mem' p' l' (scs'.take (k + 1))) := by
  have hk' : k < scs'.length := hscs.length_eq ▸ hk
  have hsc : scs[k].Mirror scs'[k] := hscs.get hk hk'
  have hrun := Reactive.final_rel (I := Scene.Mirror)
    (fun _ _ _ _ h hsc => MirrorRun.step h hsc)
    (MirrorRun.start hmem hclock) (List.forall₂_take k hscs)
  -- the last iteration starts from mirror images, whatever the lines hold
  obtain ⟨hleft, hright⟩ := closedLoop_pwm mem p (scs.take k)
  rw [← hleft, ← hright, List.take_succ_eq_append_getElem hk,
    List.take_succ_eq_append_getElem hk', linesAfter, linesAfter,
    pwmTrace_append, pwmTrace_append, Lines.after_append, Lines.after_append,
    pwmTrace_singleton, pwmTrace_singleton]
  exact hrun.swapped hsc _ _

/-- A turn to the left, the wheels already moving. -/
def turning : Scene :=
  ⟨some (1 / 5, 1), ⟨-40, 1, 0⟩, ⟨300, 1, 0⟩, ⟨0, 0, 0⟩, ⟨5, 1, 0⟩⟩

/-- One turn and the other, each longer than the window. -/
def bothTurns : List Scene := List.replicate 60 turning ++ List.replicate 60 turning.negate

theorem bothTurns_mirror :
    List.Forall₂ Scene.Mirror bothTurns (bothTurns.map Scene.negate) := by
  rw [List.forall₂_map_right_iff, List.forall₂_same]
  intro sc hsc
  have hcase : sc = turning ∨ sc = turning.negate := by
    rcases List.mem_append.mp hsc with hsc | hsc
    · exact .inl (List.eq_of_mem_replicate hsc)
    · exact .inr (List.eq_of_mem_replicate hsc)
  rcases hcase with rfl | rfl
  · exact ⟨rfl, Move.mirror_negate (by decide), Move.mirror_negate (by decide),
      Move.mirror_negate (by decide), Move.mirror_negate (by decide)⟩
  · exact ⟨rfl, Move.mirror_negate (by decide), Move.mirror_negate (by decide),
      Move.mirror_negate (by decide), Move.mirror_negate (by decide)⟩

/-- Controllers that start with these in `sum` and `preErr`. -/
def Stack.holding (sum preErr : ℚ) : Stack ℚ where
  left := fun _ => 1
  right := fun _ => 1
  pleft := ⟨0, 0, 0, 0, sum, preErr, 0, 0, 0⟩
  pright := ⟨0, 0, 0, 0, sum, preErr, 0, 0, 0⟩

/-- From different counters, the right one about to wrap in one world, and
controllers that do not start at rest. After 120 iterations both windows have
been full since the 50th. -/
theorem mirror_symmetry_turning :
    Swapped (SpeedThread.start (Stack.holding 40 (-3))).rightPwm "pwm1"
      (linesAfter (Stack.holding 40 (-3)) ⟨⟨⟨7, 65500⟩, 9⟩, ⟨⟨7, 65500⟩, 9⟩⟩ (fun _ _ => 0)
        bothTurns)
      (linesAfter (Stack.holding (-40) 3) ⟨⟨⟨0, 12⟩, 9⟩, ⟨⟨0, 12⟩, 9⟩⟩ (fun _ _ => 1)
        (bothTurns.map Scene.negate)) := by
  have hlength : bothTurns.length = 120 := by simp [bothTurns]
  have hlast := (mirror_symmetry (Stack.holding 40 (-3)) (Stack.holding (-40) 3)
    ⟨rfl, by simp [Stack.holding], rfl, by simp [Stack.holding]⟩
    ⟨⟨⟨7, 65500⟩, 9⟩, ⟨⟨7, 65500⟩, 9⟩⟩ ⟨⟨⟨0, 12⟩, 9⟩, ⟨⟨0, 12⟩, 9⟩⟩ ⟨rfl, rfl⟩
    (fun _ _ => 0) (fun _ _ => 1) bothTurns (bothTurns.map Scene.negate) bothTurns_mirror
    119 (by rw [hlength]; decide)).2
  have htake : bothTurns.take (119 + 1) = bothTurns := List.take_of_length_le hlength.le
  have htake' : (bothTurns.map Scene.negate).take (119 + 1) = bothTurns.map Scene.negate := by
    rw [← List.map_take, htake]
  rw [htake, htake'] at hlast
  exact hlast

end DiffCar
