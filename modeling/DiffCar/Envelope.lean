import DiffCar.SpeedThread

/-!
# Envelope — what reaches the motors

The clamps of `Pid::calc` bound every output whatever the controller held
before, so the three-way dispatch converts only values between zero and the
period, and leaves the pulse of the output on the channel of its sign and
nothing on the other.
-/

namespace DiffCar

/-! ## The dispatch of one output -/

section Dispatch

variable {T : Type} [Neg T] [LT T] [DecidableLT T] [RatCast T] [ToUInt32 T]

omit [Neg T] [LT T] [DecidableLT T] [RatCast T] [ToUInt32 T] in
@[simp] theorem pwmCalls_append (es es' : List (Effect T)) :
    pwmCalls (es ++ es') = pwmCalls es ++ pwmCalls es' := by
  simp [pwmCalls]

omit [Neg T] [LT T] [DecidableLT T] [RatCast T] [ToUInt32 T] in
@[simp] theorem pwmCalls_convert (x : T) (es : List (Effect T)) :
    pwmCalls (.convert x :: es) = pwmCalls es := rfl

omit [Neg T] [LT T] [DecidableLT T] [RatCast T] [ToUInt32 T] in
@[simp] theorem pwmCalls_map (cs : List PwmSet) :
    pwmCalls (cs.map (Effect.pwmSet (T := T))) = cs := by
  simp [pwmCalls, List.filterMap_map]

/-- The calls of a dispatch are one drive, of the magnitude of the output in
the direction of its sign. -/
theorem pwmCalls_dispatch (pwm : Pwm) (p : T) :
    pwmCalls (dispatch pwm p)
      = if ((0 : ℚ) : T) < p then pwm.drive (!pwm.inverse) (toUInt32 p)
        else if p < ((0 : ℚ) : T) then pwm.drive pwm.inverse (toUInt32 (-p))
        else pwm.drive (!pwm.inverse) 0 := by
  unfold dispatch
  split_ifs
  · rw [pwmCalls_convert, pwmCalls_map, Pwm.setCW_eq_drive]
  · rw [pwmCalls_convert, pwmCalls_map, Pwm.setCCW_eq_drive]
  · rw [pwmCalls_map, Pwm.setCW_eq_drive]

theorem device_of_mem_dispatch {pwm : Pwm} {p : T} {c : PwmSet}
    (h : c ∈ pwmCalls (dispatch pwm p)) : c.device = pwm.pwmDev := by
  rw [pwmCalls_dispatch] at h
  split_ifs at h
  · exact Pwm.device_of_mem_drive h
  · exact Pwm.device_of_mem_drive h
  · exact Pwm.device_of_mem_drive h

end Dispatch

/-! ## The calls of a run -/

section Trace

variable {T : Type} [Add T] [Sub T] [Mul T] [Div T] [Neg T] [LT T]
  [DecidableLT T] [RatCast T] [ToUInt32 T]

omit [Sub T] [Neg T] [LT T] [DecidableLT T] [ToUInt32 T] in
/-- A report calls `rt_pwm_set` nowhere. -/
theorem pwmCalls_report (s : SpeedThread T) (inp : Inputs T) (it : Iteration T) :
    pwmCalls (report s inp it).2 = [] := by
  unfold report
  split <;> rfl

/-- The calls of an iteration are those of its two dispatches. -/
theorem pwmCalls_speedThread (s : SpeedThread T) (inp : Inputs T) :
    pwmCalls (speedThread s inp).2.effects
      = pwmCalls (dispatch s.leftPwm (control s inp).2.leftP)
        ++ pwmCalls (dispatch s.rightPwm (control s inp).2.rightP) := by
  show pwmCalls (_ ++ _ ++ (report _ _ _).2) = _
  rw [pwmCalls_append, pwmCalls_report, List.append_nil, pwmCalls_append]
  rfl

/-- The `rt_pwm_set` calls of a run of a loop, in order. -/
def pwmTrace {σ ι : Type} (step : σ → ι → σ × Iteration T) (s : σ)
    (is : List ι) : List PwmSet :=
  (Reactive.outputs step s is).flatMap fun it => pwmCalls it.effects

omit [Add T] [Sub T] [Mul T] [Div T] [Neg T] [LT T] [DecidableLT T] [RatCast T]
  [ToUInt32 T] in
theorem pwmTrace_append {σ ι : Type} (step : σ → ι → σ × Iteration T) (s : σ)
    (is js : List ι) :
    pwmTrace step s (is ++ js)
      = pwmTrace step s is ++ pwmTrace step (Reactive.final step s is) js := by
  rw [pwmTrace, Reactive.outputs_append, List.flatMap_append]
  rfl

omit [Add T] [Sub T] [Mul T] [Div T] [Neg T] [LT T] [DecidableLT T] [RatCast T]
  [ToUInt32 T] in
@[simp] theorem pwmTrace_singleton {σ ι : Type} (step : σ → ι → σ × Iteration T)
    (s : σ) (i : ι) : pwmTrace step s [i] = pwmCalls (step s i).2.effects := by
  simp [pwmTrace]

end Trace

/-! ## Outputs within the limits -/

/-- The only value a dispatch converts is the magnitude of the output. -/
theorem convert_mem_dispatch {pwm : Pwm} {p x : ℚ}
    (h : .convert x ∈ dispatch pwm p) : x = |p| := by
  unfold dispatch at h
  split_ifs at h with hpos hneg
  · have hpos : 0 < p := hpos
    simp only [List.mem_cons, Effect.convert.injEq, List.mem_map, reduceCtorEq,
      and_false, exists_false, or_false] at h
    rw [h, abs_of_pos hpos]
  · have hneg : p < 0 := hneg
    simp only [List.mem_cons, Effect.convert.injEq, List.mem_map, reduceCtorEq,
      and_false, exists_false, or_false] at h
    rw [h, abs_of_neg hneg]
  · simp at h

/-- The channel of the output's sign holds the pulse `⌊|out|⌋`, the opposite
one none; both none when the output is zero. -/
structure HoldsPulse (pwm : Pwm) (dev : String) (l : Lines) (out : ℚ) : Prop where
  forward : 0 < out →
    l dev pwm.channelCw = ⌊|out|⌋₊ ∧ l dev pwm.channelCcw = 0
  backward : out < 0 →
    l dev pwm.channelCcw = ⌊|out|⌋₊ ∧ l dev pwm.channelCw = 0
  stopped : out = 0 → l dev pwm.channelCw = 0 ∧ l dev pwm.channelCcw = 0

/-- A motor as the program wires it: its device is there, its channels are
distinct and its directions are not swapped. -/
structure Motor (pwm : Pwm) (dev : String) : Prop where
  device : pwm.pwmDev = some dev
  channels : pwm.channelCw ≠ pwm.channelCcw
  inverse : pwm.inverse = false

/-- **The dispatch of an output within the limits**, whatever the channels
held before. -/
theorem holdsPulse_dispatch {pwm : Pwm} {dev : String} (hm : Motor pwm dev)
    {p : ℚ} (hp : |p| ≤ 100000) (l : Lines) :
    HoldsPulse pwm dev (l.after (pwmCalls (dispatch pwm p))) p := by
  have hfloor : toUInt32 |p| = ⌊|p|⌋₊ := toUInt32_eq_floor hp
  rw [pwmCalls_dispatch, hm.inverse]
  simp only [Rat.cast_id, Bool.not_false]
  split_ifs with hpos hneg
  · have hcw := Pwm.after_drive hm.device hm.channels l true (toUInt32 p)
    rw [abs_of_pos hpos] at hfloor
    exact ⟨fun _ => by rw [abs_of_pos hpos, ← hfloor]; exact hcw,
      fun h => absurd h (not_lt.mpr hpos.le), fun h => absurd h hpos.ne'⟩
  · have hccw := Pwm.after_drive hm.device hm.channels l false (toUInt32 (-p))
    rw [abs_of_neg hneg] at hfloor
    exact ⟨fun h => absurd h hpos,
      fun _ => by rw [abs_of_neg hneg, ← hfloor]; exact hccw,
      fun h => absurd h hneg.ne⟩
  · have hstop := Pwm.after_drive hm.device hm.channels l true 0
    exact ⟨fun h => absurd h hpos, fun h => absurd h hneg, fun _ => hstop⟩

/-! ## The dispatch of both motors in a wired thread -/

theorem motor_construct {name : String} (h : name ∈ pwmDevices) (period : ℕ) :
    Motor (Pwm.construct pwmDevices name period 1 2) name where
  device := if_pos h
  channels := by
    show (1 : ℕ) ≠ 2
    decide
  inverse := rfl

theorem SpeedThread.Wired.leftMotor {s : SpeedThread ℚ} {hl hr : List ℚ}
    (h : s.Wired hl hr) : Motor s.leftPwm "pwm3" := by
  rw [h.leftPwm]
  exact motor_construct (by decide) _

theorem SpeedThread.Wired.rightMotor {s : SpeedThread ℚ} {hl hr : List ℚ}
    (h : s.Wired hl hr) : Motor s.rightPwm "pwm1" := by
  rw [h.rightPwm]
  exact motor_construct (by decide) _

theorem Pid.Wired.limits {s : Pid ℚ} (h : s.Wired) : s.Limits :=
  ⟨h.max, h.min⟩

/-- Both outputs of an iteration are within the limits of the controllers. -/
theorem SpeedThread.Wired.abs_leftP_le {s : SpeedThread ℚ} {hl hr : List ℚ}
    (h : s.Wired hl hr) (inp : Inputs ℚ) :
    |(speedThread s inp).2.leftP| ≤ 100000 :=
  ((h.pleft.setRef _).limits).abs_output_le _

theorem SpeedThread.Wired.abs_rightP_le {s : SpeedThread ℚ} {hl hr : List ℚ}
    (h : s.Wired hl hr) (inp : Inputs ℚ) :
    |(speedThread s inp).2.rightP| ≤ 100000 :=
  ((h.pright.setRef _).limits).abs_output_le _

/-- A report converts nothing. -/
theorem convert_not_mem_report (s : SpeedThread ℚ) (inp : Inputs ℚ)
    (it : Iteration ℚ) (x : ℚ) : .convert x ∉ (report s inp it).2 := by
  unfold report
  split
  · simp
  · simp

/-- The thread after the iterations of a run. -/
def threadAfter (mem : Stack ℚ) (inps : List (Inputs ℚ)) : SpeedThread ℚ :=
  Reactive.final speedThread (SpeedThread.start mem) inps

theorem threadAfter_wired (mem : Stack ℚ) (inps : List (Inputs ℚ)) :
    ∃ hl hr, (threadAfter mem inps).Wired hl hr :=
  Reactive.final_inv (P := fun s : SpeedThread ℚ => ∃ hl hr, s.Wired hl hr)
    (A := fun _ => True) (fun _ inp h _ => SpeedThread.Wired.step h inp)
    ⟨[], [], SpeedThread.Wired.start mem⟩ (fun _ _ => trivial)

/-- **The actuation envelope.** In the iteration that follows any run, from
any memory and whatever the channels hold: every value converted to a pulse
is between zero and the period of both motors, and at the end of each
motor's dispatch its channels hold the pulse of its controller's output. -/
theorem actuation_envelope (mem : Stack ℚ) (inps : List (Inputs ℚ))
    (inp : Inputs ℚ) (l : Lines) :
    let s := threadAfter mem inps
    let it := (speedThread s inp).2
    (∀ x : ℚ, .convert x ∈ it.effects →
        0 ≤ x ∧ x ≤ s.leftPwm.period ∧ x ≤ s.rightPwm.period)
      ∧ HoldsPulse s.leftPwm "pwm3" (l.after (pwmCalls it.leftEffects)) it.leftP
      ∧ HoldsPulse s.rightPwm "pwm1"
          (l.after (pwmCalls (it.leftEffects ++ it.rightEffects))) it.rightP := by
  intro s it
  obtain ⟨hl, hr, h⟩ := threadAfter_wired mem inps
  have hleft : |it.leftP| ≤ 100000 := h.abs_leftP_le inp
  have hright : |it.rightP| ≤ 100000 := h.abs_rightP_le inp
  refine ⟨?_, ?_, ?_⟩
  · intro x hx
    have hmag : 0 ≤ x ∧ x ≤ 100000 := by
      simp only [Iteration.effects, List.mem_append] at hx
      rcases hx with (hx | hx) | hx
      · rw [convert_mem_dispatch hx]
        exact ⟨abs_nonneg _, hleft⟩
      · rw [convert_mem_dispatch hx]
        exact ⟨abs_nonneg _, hright⟩
      · exact absurd hx (convert_not_mem_report _ _ _ _)
    have hl : (s.leftPwm.period : ℚ) = 100000 := by
      rw [h.leftPwm]
      rfl
    have hr : (s.rightPwm.period : ℚ) = 100000 := by
      rw [h.rightPwm]
      rfl
    rw [hl, hr]
    exact ⟨hmag.1, hmag.2, hmag.2⟩
  · exact holdsPulse_dispatch h.leftMotor hleft l
  · -- the right dispatch starts from what the left one left
    rw [pwmCalls_append, Lines.after_append]
    exact holdsPulse_dispatch h.rightMotor hright _

end DiffCar
