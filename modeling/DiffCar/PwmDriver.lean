import DiffCar.BadPacket
import DiffCar.Envelope
import DiffCar.Interlock
import Mathlib.Logic.Function.Basic

/-!
# PwmDriver — from `rt_pwm_set` to the registers

`drv_pwm_set` of `drivers/drv_pwm.c` on the STM32F1 of the board. `Lines` is
what the program asked for last; here is what the timers are told. All
channels of a timer share its prescaler and its period, and a pulse is kept
between `MIN_PULSE` and the period. A line that was set to zero is still on
for one tick of the timer in every period.
-/

namespace DiffCar

/-- The registers of a timer, of 16 bits; the compare registers by their
number. -/
structure TimerRegs where
  psc : ℕ
  arr : ℕ
  ccr : ℕ → ℕ

/-- The line of a channel in `TIM_OCMODE_PWM1`: on while the counter, which goes
from zero up to `arr`, is below the compare register. -/
def TimerRegs.on (t : TimerRegs) (ch counter : ℕ) : Bool := decide (counter < t.ccr ch)

/-- `MAX_PERIOD` -/
def maxPeriod : ℕ := 65535

/-- `MIN_PERIOD` -/
def minPeriod : ℕ := 3

/-- `MIN_PULSE` -/
def minPulse : ℕ := 2

/-- `tim_clock` in MHz, for what `HAL_RCC_GetPCLK1Freq` returns. -/
def timClock (pclk1 : ℕ) : ℕ := pclk1 * 2 % 2 ^ 32 / 1000000

/-- The register that `__HAL_TIM_SET_COMPARE` stores to: the channel number of
the HAL is `0x04 * (channel - 1)`, in 32 bits. -/
def compareRegister (channel : ℕ) : ℕ :=
  match 4 * (channel + (2 ^ 32 - 1)) % 2 ^ 32 with
  | 0 => 1
  | 4 => 2
  | 8 => 3
  | _ => 4

/-- `drv_pwm_set`. The products are below `2 ^ 64`; `period` and `pulse` are
of 32 bits. -/
def drvPwmSet (timClock : ℕ) (t : TimerRegs) (channel period pulse : ℕ) : TimerRegs :=
  let ticks := period * timClock / 1000 % 2 ^ 32
  let psc := ticks / maxPeriod + 1
  let ticks := ticks / psc
  let ticks := if ticks < minPeriod then minPeriod else ticks
  let pulse := pulse * timClock / psc / 1000 % 2 ^ 32
  let pulse := if pulse < minPulse then minPulse else if ticks < pulse then ticks else pulse
  { psc := (psc - 1) % 2 ^ 16
    arr := (ticks - 1) % 2 ^ 16
    ccr := Function.update t.ccr (compareRegister channel) ((pulse - 1) % 2 ^ 16) }

/-- The registers of the timers, by the names of their devices. -/
abbrev Registers := String → TimerRegs

/-- `rt_pwm_set` with the driver behind it. -/
def Registers.set (timClock : ℕ) (r : Registers) (c : PwmSet) : Registers :=
  match c.device with
  | none => r
  | some dev => Function.update r dev (drvPwmSet timClock (r dev) c.channel c.period c.pulse)

/-- The registers after a sequence of calls. -/
def Registers.after (timClock : ℕ) (r : Registers) (cs : List PwmSet) : Registers :=
  cs.foldl (Registers.set timClock) r

/-! ## One call -/

/-- How many ticks of the clock the timer counts as one. -/
def prescaler (timClock period : ℕ) : ℕ := period * timClock / 1000 % 2 ^ 32 / maxPeriod + 1

/-- The period in those. -/
def periodTicks (timClock period : ℕ) : ℕ :=
  max minPeriod (period * timClock / 1000 % 2 ^ 32 / prescaler timClock period)

/-- The pulse in those. -/
def pulseTicks (timClock period pulse : ℕ) : ℕ :=
  max minPulse (min (periodTicks timClock period)
    (pulse * timClock / prescaler timClock period / 1000 % 2 ^ 32))

section Ticks

variable {timClock period pulse : ℕ}

theorem periodTicks_bounds :
    3 ≤ periodTicks timClock period ∧ periodTicks timClock period ≤ 65534 := by
  have hmin : minPeriod = 3 := rfl
  have hmax : maxPeriod = 65535 := rfl
  unfold periodTicks prescaler
  generalize period * timClock / 1000 % 2 ^ 32 = ticks
  -- the prescaler is what makes the period fit
  have hfit : ticks / (ticks / maxPeriod + 1) < maxPeriod := by
    refine Nat.div_lt_of_lt_mul ?_
    have hdiv := Nat.div_add_mod ticks maxPeriod
    have hmod := Nat.mod_lt ticks (show 0 < maxPeriod by decide)
    rw [Nat.add_mul, Nat.one_mul, Nat.mul_comm]
    omega
  omega

theorem pulseTicks_bounds :
    2 ≤ pulseTicks timClock period pulse
      ∧ pulseTicks timClock period pulse ≤ periodTicks timClock period := by
  obtain ⟨hlow, -⟩ := @periodTicks_bounds timClock period
  have hmin : minPulse = 2 := rfl
  unfold pulseTicks
  omega

/-- **`drv_pwm_set`** in terms of the three. -/
theorem drvPwmSet_eq (t : TimerRegs) (channel : ℕ) :
    drvPwmSet timClock t channel period pulse
      = ⟨(prescaler timClock period - 1) % 2 ^ 16, periodTicks timClock period - 1,
        Function.update t.ccr (compareRegister channel)
          (pulseTicks timClock period pulse - 1)⟩ := by
  have hperiod : (if period * timClock / 1000 % 2 ^ 32 / prescaler timClock period < minPeriod
      then minPeriod else period * timClock / 1000 % 2 ^ 32 / prescaler timClock period)
      = periodTicks timClock period := by
    unfold periodTicks
    split_ifs <;> omega
  have hlow : minPulse ≤ periodTicks timClock period :=
    le_trans (by decide) (@periodTicks_bounds timClock period).1
  have hpulse : ∀ ticks, (if ticks < minPulse then minPulse
      else if periodTicks timClock period < ticks then periodTicks timClock period else ticks)
      = max minPulse (min (periodTicks timClock period) ticks) := by
    intro ticks
    split_ifs <;> omega
  obtain ⟨-, hhigh⟩ := @periodTicks_bounds timClock period
  obtain ⟨-, hfits⟩ := @pulseTicks_bounds timClock period pulse
  have harr : (periodTicks timClock period - 1) % 2 ^ 16 = periodTicks timClock period - 1 :=
    Nat.mod_eq_of_lt (by omega)
  have hccr : (pulseTicks timClock period pulse - 1) % 2 ^ 16
      = pulseTicks timClock period pulse - 1 := Nat.mod_eq_of_lt (by omega)
  unfold drvPwmSet
  dsimp only
  rw [← prescaler, hperiod, hpulse, ← pulseTicks, harr, hccr]

/-- **A period that the registers can hold** is met, but for less than one tick
of the timer. -/
theorem period_met (hlow : 3 ≤ period * timClock / 1000)
    (hhigh : period * timClock / 1000 < 65536 * 65535) :
    prescaler timClock period ≤ 65536
      ∧ periodTicks timClock period = period * timClock / 1000 / prescaler timClock period := by
  have hmin : minPeriod = 3 := rfl
  have hmax : maxPeriod = 65535 := rfl
  have hwidth : period * timClock / 1000 % 2 ^ 32 = period * timClock / 1000 :=
    Nat.mod_eq_of_lt (by omega)
  unfold periodTicks prescaler
  rw [hwidth, hmin, hmax]
  generalize period * timClock / 1000 = ticks at hlow hhigh
  have hthree : 3 * (ticks / 65535 + 1) ≤ ticks := by omega
  refine ⟨by omega, max_eq_right ?_⟩
  exact (Nat.le_div_iff_mul_le (Nat.succ_pos _)).mpr hthree

/-- **A pulse within it** is met likewise, but for the shortest. -/
theorem pulse_met (hlow : 3 ≤ period * timClock / 1000)
    (hhigh : period * timClock / 1000 < 65536 * 65535) (hpulse : pulse ≤ period) :
    pulseTicks timClock period pulse
      = max minPulse (pulse * timClock / 1000 / prescaler timClock period) := by
  obtain ⟨-, hperiod⟩ := period_met hlow hhigh
  have hticks : pulse * timClock / 1000 ≤ period * timClock / 1000 :=
    Nat.div_le_div_right (Nat.mul_le_mul_right _ hpulse)
  have hcomm : pulse * timClock / prescaler timClock period / 1000
      = pulse * timClock / 1000 / prescaler timClock period := Nat.div_right_comm ..
  have hself := Nat.div_le_self (pulse * timClock / 1000) (prescaler timClock period)
  rw [pulseTicks, hcomm, Nat.mod_eq_of_lt (by omega), hperiod,
    min_eq_right (Nat.div_le_div_right hticks)]

theorem compareRegister_eq {channel : ℕ} (hlow : 1 ≤ channel) (hhigh : channel ≤ 4) :
    compareRegister channel = channel := by
  have hfour : channel = 1 ∨ channel = 2 ∨ channel = 3 ∨ channel = 4 := by omega
  rcases hfour with rfl | rfl | rfl | rfl
  · rfl
  · rfl
  · rfl
  · rfl

end Ticks

/-! ## The registers and the lines -/

section Calls

variable {timClock : ℕ} {dev : String} {ch : ℕ} {cs : List PwmSet} {c : PwmSet}
  {r : Registers} {l : Lines}

theorem Registers.after_append (cs' : List PwmSet) :
    r.after timClock (cs ++ cs') = Registers.after timClock (r.after timClock cs) cs' :=
  List.foldl_append

theorem Registers.set_same (hdev : c.device = some dev) :
    r.set timClock c dev = drvPwmSet timClock (r dev) c.channel c.period c.pulse := by
  rw [Registers.set, hdev]
  exact Function.update_self ..

theorem Registers.set_other (hdev : c.device ≠ some dev) : r.set timClock c dev = r dev := by
  unfold Registers.set
  cases hd : c.device with
  | none => rfl
  | some d =>
      refine Function.update_of_ne ?_ _ _
      rintro rfl
      exact hdev hd

theorem rtPwmSet_device (hdev : c.device = some dev) :
    rtPwmSet l c dev ch = if ch = c.channel then c.pulse else l dev ch := by
  simp [rtPwmSet, hdev]

theorem rtPwmSet_else (hdev : c.device ≠ some dev) : rtPwmSet l c dev ch = l dev ch := by
  have hother : l.after [c] dev ch = l dev ch := by
    apply Lines.after_other
    intro c' hc'
    obtain rfl := List.mem_singleton.mp hc'
    exact hdev
  exact hother

/-- A call has set this channel. -/
def SetBy (cs : List PwmSet) (dev : String) (ch : ℕ) : Prop :=
  ∃ c ∈ cs, c.device = some dev ∧ c.channel = ch

/-- The calls are for channels that there are, each device with its period. -/
def Plain (period : String → ℕ) (cs : List PwmSet) : Prop :=
  ∀ c ∈ cs, (1 ≤ c.channel ∧ c.channel ≤ 4) ∧ ∀ dev, c.device = some dev → c.period = period dev

/-- The registers are what the driver makes of the period, and on this channel
of the pulse. -/
structure OnTimer (timClock period pulse : ℕ) (t : TimerRegs) (ch : ℕ) : Prop where
  psc : t.psc = (prescaler timClock period - 1) % 2 ^ 16
  arr : t.arr = periodTicks timClock period - 1
  ccr : t.ccr ch = pulseTicks timClock period pulse - 1

/-- Nothing was asked for yet. -/
def noPulses : Lines := fun _ _ => 0

/-- **The registers show what was asked for last.** -/
theorem Plain.onTimer {period : String → ℕ} (h : Plain period cs) (r : Registers) (l : Lines)
    (hset : SetBy cs dev ch) :
    OnTimer timClock (period dev) (l.after cs dev ch) (r.after timClock cs dev) ch := by
  induction cs using List.reverseRecOn with
  | nil =>
      obtain ⟨c, hc, -⟩ := hset
      exact absurd hc List.not_mem_nil
  | append_singleton cs c ih =>
      have hrest : Plain period cs := fun c' hc' => h c' (List.mem_append_left _ hc')
      obtain ⟨⟨hlow, hhigh⟩, hperiod⟩ := h c (by simp)
      have hlines : l.after (cs ++ [c]) dev ch = rtPwmSet (l.after cs) c dev ch := by
        rw [Lines.after_append]
        rfl
      have hregs : r.after timClock (cs ++ [c]) dev
          = (r.after timClock cs).set timClock c dev := by
        rw [Registers.after_append]
        rfl
      -- an earlier call has set the channel unless the last one does
      have hearlier : ¬ (c.device = some dev ∧ c.channel = ch) → SetBy cs dev ch := by
        intro hnot
        obtain ⟨c', hc', hat⟩ := hset
        rcases List.mem_append.mp hc' with hc' | hc'
        · exact ⟨c', hc', hat⟩
        · obtain rfl := List.mem_singleton.mp hc'
          exact absurd hat hnot
      rw [hlines, hregs]
      by_cases hdev : c.device = some dev
      · rw [Registers.set_same hdev, rtPwmSet_device hdev, hperiod dev hdev, drvPwmSet_eq]
        refine ⟨rfl, rfl, ?_⟩
        dsimp only
        rw [compareRegister_eq hlow hhigh]
        by_cases hch : ch = c.channel
        · rw [if_pos hch, hch, Function.update_self]
        · have hprev := ih hrest (hearlier fun hat => hch hat.2.symm)
          rw [if_neg hch, Function.update_of_ne hch, hprev.ccr]
      · rw [Registers.set_other hdev, rtPwmSet_else hdev]
        exact ih hrest (hearlier fun hat => hdev hat.1)

end Calls

/-- **The registers refine the lines.** After any calls for the four channels,
each device with one period: every channel that was set is on at the beginning
of a period of its timer and off at the end of it. When the period that was
asked for is at least three ticks of the clock and no more than the registers
can hold, the timer has it but for less than one tick of its own, and a pulse
that was not longer than the period shows on the compare register, rounded down
to ticks of the timer, as two at least and less one. -/
theorem lines_on_registers (timClock : ℕ) (period : String → ℕ) (cs : List PwmSet)
    (h : Plain period cs) (r : Registers) (l : Lines) (dev : String) (ch : ℕ)
    (hset : SetBy cs dev ch) :
    let t := r.after timClock cs dev
    let ticks := period dev * timClock / 1000
    let pulse := l.after cs dev ch
    t.arr ≤ 65533 ∧ t.on ch 0 = true ∧ t.on ch t.arr = false
      ∧ (3 ≤ ticks → ticks < 65536 * 65535 →
        (t.psc + 1) * (t.arr + 1) ≤ ticks ∧ ticks < (t.psc + 1) * (t.arr + 2)
          ∧ (pulse ≤ period dev →
            t.ccr ch + 1 = max 2 (pulse * timClock / 1000 / (t.psc + 1)))) := by
  intro t ticks pulse
  obtain ⟨hpsc, harr, hccr⟩ := @Plain.onTimer timClock dev ch cs period h r l hset
  obtain ⟨hlow, hhigh⟩ := @periodTicks_bounds timClock (period dev)
  obtain ⟨hpulse, hfits⟩ := @pulseTicks_bounds timClock (period dev) pulse
  have harr : t.arr = periodTicks timClock (period dev) - 1 := harr
  have hccr : t.ccr ch = pulseTicks timClock (period dev) pulse - 1 := hccr
  refine ⟨by omega, decide_eq_true (by omega), decide_eq_false (by omega), ?_⟩
  intro hleast hmost
  obtain ⟨hfew, hmet⟩ := period_met hleast hmost
  have hpos : 0 < prescaler timClock (period dev) := Nat.succ_pos _
  have hdiv : t.psc + 1 = prescaler timClock (period dev) := by
    have hpsc : t.psc = (prescaler timClock (period dev) - 1) % 2 ^ 16 := hpsc
    rw [hpsc, Nat.mod_eq_of_lt (by omega)]
    omega
  have hone : t.arr + 1 = ticks / prescaler timClock (period dev) := by
    show t.arr + 1 = period dev * timClock / 1000 / _
    omega
  have htwo : t.arr + 2 = ticks / prescaler timClock (period dev) + 1 := by omega
  rw [hdiv, hone, htwo]
  refine ⟨Nat.mul_div_le _ _, Nat.lt_mul_div_succ _ hpos, ?_⟩
  intro hwithin
  have hshown := pulse_met hleast hmost hwithin
  have hmin : minPulse = 2 := rfl
  omega

/-- A motor goes forward with half of the period. -/
def halfRight : List PwmSet := rightMotor.setCW 50000

theorem lines_on_registers_half :
    let t := Registers.after 72 (fun _ => ⟨0, 0, fun _ => 0⟩) halfRight "pwm1"
    t.on 1 t.arr = false ∧ (t.psc + 1) * (t.arr + 1) ≤ 7200 ∧ 7200 < (t.psc + 1) * (t.arr + 2)
      ∧ t.ccr 1 + 1 = max 2 (3600 / (t.psc + 1)) := by
  have hplain : Plain (fun _ => 100000) halfRight := by
    intro c hc
    rw [halfRight, rightMotor, Pwm.setCW_eq_drive] at hc
    rcases List.mem_pair.mp hc with rfl | rfl
    · exact ⟨by decide, fun _ _ => rfl⟩
    · exact ⟨by decide, fun _ _ => rfl⟩
  obtain ⟨-, -, hoff, hshown⟩ := lines_on_registers 72 (fun _ => 100000) halfRight hplain
    (fun _ => ⟨0, 0, fun _ => 0⟩) noPulses "pwm1" 1
    ⟨⟨some "pwm1", 1, 100000, 50000⟩, by decide, rfl, rfl⟩
  obtain ⟨hlow, hhigh, hpulse⟩ := hshown (by decide) (by decide)
  exact ⟨hoff, hlow, hhigh, hpulse (by decide)⟩

/-! ## What the controllers' outputs become -/

/-- The compare registers of a motor for an output: the channel of its sign
has the pulse, the other one tick; both one tick when the output is zero. -/
structure HoldsCompare (timClock : ℕ) (pwm : Pwm) (t : TimerRegs) (out : ℚ) : Prop where
  psc : t.psc = 0
  arr : t.arr + 1 = 100 * timClock
  forward : 0 < out → t.ccr pwm.channelCw + 1 = max 2 (⌊|out|⌋₊ * timClock / 1000)
    ∧ t.ccr pwm.channelCcw = 1
  backward : out < 0 → t.ccr pwm.channelCcw + 1 = max 2 (⌊|out|⌋₊ * timClock / 1000)
    ∧ t.ccr pwm.channelCw = 1
  stopped : out = 0 → t.ccr pwm.channelCw = 1 ∧ t.ccr pwm.channelCcw = 1

section Outputs

variable {timClock pulse : ℕ} {t : TimerRegs} {ch : ℕ}

/-- A pulse within the period of 100 µs, which is not divided for such a
clock. -/
theorem OnTimer.plain (h : OnTimer timClock 100000 pulse t ch) (hclock : 1 ≤ timClock)
    (hmax : timClock ≤ 655) (hpulse : pulse ≤ 100000) :
    t.psc = 0 ∧ t.arr + 1 = 100 * timClock
      ∧ t.ccr ch + 1 = max 2 (pulse * timClock / 1000) := by
  have hticks : 100000 * timClock / 1000 % 2 ^ 32 = 100 * timClock := by omega
  have hpsc : prescaler timClock 100000 = 1 := by
    have hfits : 100 * timClock < maxPeriod :=
      lt_of_le_of_lt (Nat.mul_le_mul_left 100 hmax) (by decide)
    rw [prescaler, hticks, Nat.div_eq_of_lt hfits]
  have hperiod : periodTicks timClock 100000 = 100 * timClock := by
    have hmin : minPeriod = 3 := rfl
    rw [periodTicks, hpsc, hticks]
    omega
  have hproduct : pulse * timClock ≤ 100000 * timClock := Nat.mul_le_mul_right _ hpulse
  have hwidth : pulse * timClock / 1 / 1000 % 2 ^ 32 = pulse * timClock / 1000 := by
    rw [Nat.div_one]
    exact Nat.mod_eq_of_lt (by omega)
  have hcompare : pulseTicks timClock 100000 pulse = max 2 (pulse * timClock / 1000) := by
    have hmin : minPulse = 2 := rfl
    rw [pulseTicks, hpsc, hperiod, hwidth]
    omega
  refine ⟨?_, ?_, ?_⟩
  · rw [h.psc, hpsc]
    rfl
  · rw [h.arr, hperiod]
    omega
  · rw [h.ccr, hcompare]
    omega

/-- A dispatch is one drive of the motor. -/
theorem exists_drive (pwm : Pwm) (p : ℚ) :
    ∃ cw pulse, pwmCalls (dispatch pwm p) = pwm.drive cw pulse := by
  rw [pwmCalls_dispatch]
  split_ifs
  · exact ⟨_, _, rfl⟩
  · exact ⟨_, _, rfl⟩
  · exact ⟨_, _, rfl⟩

/-- The calls of a drive, for a motor as the program wires it. -/
theorem plain_drive {pwm : Pwm} {dev : String} (hdev : pwm.pwmDev = some dev)
    (hcw : pwm.channelCw = 1) (hccw : pwm.channelCcw = 2) (hperiod : pwm.period = 100000)
    (cw : Bool) (pulse : ℕ) :
    Plain (fun _ => 100000) (pwm.drive cw pulse) ∧ SetBy (pwm.drive cw pulse) dev 1
      ∧ SetBy (pwm.drive cw pulse) dev 2 := by
  have hch : ∀ b, (1 ≤ pwm.driven b ∧ pwm.driven b ≤ 4) := by
    intro b
    rw [Pwm.driven, hcw, hccw]
    cases b <;> decide
  refine ⟨?_, ?_, ?_⟩
  · intro c hc
    rcases List.mem_pair.mp hc with rfl | rfl
    · exact ⟨hch cw, fun _ _ => hperiod⟩
    · exact ⟨hch (!cw), fun _ _ => hperiod⟩
  · cases cw with
    | true => exact ⟨pwm.set pwm.channelCw pulse, by simp [Pwm.drive, Pwm.driven], hdev, hcw⟩
    | false => exact ⟨pwm.set pwm.channelCw 0, by simp [Pwm.drive, Pwm.driven], hdev, hcw⟩
  · cases cw with
    | true => exact ⟨pwm.set pwm.channelCcw 0, by simp [Pwm.drive, Pwm.driven], hdev, hccw⟩
    | false => exact ⟨pwm.set pwm.channelCcw pulse, by simp [Pwm.drive, Pwm.driven], hdev, hccw⟩

/-- **The dispatch of an output on the registers**, whatever they held. -/
theorem holdsCompare_dispatch {pwm : Pwm} {dev : String} (hm : Motor pwm dev)
    (hcw : pwm.channelCw = 1) (hccw : pwm.channelCcw = 2) (hperiod : pwm.period = 100000)
    {p : ℚ} (hp : |p| ≤ 100000) (hclock : 1 ≤ timClock) (hmax : timClock ≤ 655)
    (r : Registers) :
    HoldsCompare timClock pwm (r.after timClock (pwmCalls (dispatch pwm p)) dev) p := by
  have hpulse : HoldsPulse pwm dev (noPulses.after (pwmCalls (dispatch pwm p))) p :=
    holdsPulse_dispatch hm hp noPulses
  obtain ⟨cw, pulse, hdrive⟩ := exists_drive pwm p
  obtain ⟨hplain, hone, htwo⟩ := plain_drive hm.device hcw hccw hperiod cw pulse
  rw [← hdrive] at hplain hone htwo
  have hfloor : ⌊|p|⌋₊ ≤ 100000 := Nat.floor_le_of_le (by exact_mod_cast hp)
  have hshow : ∀ ch n, SetBy (pwmCalls (dispatch pwm p)) dev ch →
      noPulses.after (pwmCalls (dispatch pwm p)) dev ch = n → n ≤ 100000 →
      let t := r.after timClock (pwmCalls (dispatch pwm p)) dev
      t.psc = 0 ∧ t.arr + 1 = 100 * timClock ∧ t.ccr ch + 1 = max 2 (n * timClock / 1000) := by
    intro ch n hset hlast hn
    have hshown := @Plain.onTimer timClock dev ch _ _ hplain r noPulses hset
    rw [hlast] at hshown
    exact hshown.plain hclock hmax hn
  -- a pulse of zero takes one tick
  have hzero : ∀ ch, SetBy (pwmCalls (dispatch pwm p)) dev ch →
      noPulses.after (pwmCalls (dispatch pwm p)) dev ch = 0 →
      (r.after timClock (pwmCalls (dispatch pwm p)) dev).ccr ch = 1 := by
    intro ch hset hlast
    obtain ⟨-, -, hccr⟩ := hshow ch 0 hset hlast (Nat.zero_le _)
    rw [Nat.zero_mul, Nat.zero_div] at hccr
    omega
  rw [← hcw] at hone
  rw [← hccw] at htwo
  obtain ⟨hpsc, harr, -⟩ : (r.after timClock (pwmCalls (dispatch pwm p)) dev).psc = 0
      ∧ (r.after timClock (pwmCalls (dispatch pwm p)) dev).arr + 1 = 100 * timClock ∧ True := by
    rcases lt_trichotomy p 0 with hneg | hnone | hpos
    · obtain ⟨-, hother⟩ := hpulse.backward hneg
      obtain ⟨hpsc, harr, -⟩ := hshow _ 0 hone hother (Nat.zero_le _)
      exact ⟨hpsc, harr, trivial⟩
    · obtain ⟨hother, -⟩ := hpulse.stopped hnone
      obtain ⟨hpsc, harr, -⟩ := hshow _ 0 hone hother (Nat.zero_le _)
      exact ⟨hpsc, harr, trivial⟩
    · obtain ⟨-, hother⟩ := hpulse.forward hpos
      obtain ⟨hpsc, harr, -⟩ := hshow _ 0 htwo hother (Nat.zero_le _)
      exact ⟨hpsc, harr, trivial⟩
  refine ⟨hpsc, harr, ?_, ?_, ?_⟩
  · intro hpos
    obtain ⟨hdriven, hother⟩ := hpulse.forward hpos
    exact ⟨(hshow _ _ hone hdriven hfloor).2.2, hzero _ htwo hother⟩
  · intro hneg
    obtain ⟨hdriven, hother⟩ := hpulse.backward hneg
    exact ⟨(hshow _ _ htwo hdriven hfloor).2.2, hzero _ hone hother⟩
  · intro hnone
    obtain ⟨hcw', hccw'⟩ := hpulse.stopped hnone
    exact ⟨hzero _ hone hcw', hzero _ htwo hccw'⟩

end Outputs

/-- **From the controllers to the registers.** In the iteration that follows
any run, from any memory and whatever the registers hold, for every clock of
the timers from 1 MHz up to 655 MHz: after each motor's dispatch its timer
counts 100 µs, the compare register of the sign of its controller's output
has the output in ticks, and the other one, as both of a stopped motor, has
one tick. -/
theorem registers_envelope (pclk1 : ℕ) (hclock : 1 ≤ timClock pclk1)
    (hmax : timClock pclk1 ≤ 655) (mem : Stack ℚ) (inps : List (Inputs ℚ)) (inp : Inputs ℚ)
    (r : Registers) :
    let s := threadAfter mem inps
    let it := (speedThread s inp).2
    HoldsCompare (timClock pclk1) s.leftPwm
        (r.after (timClock pclk1) (pwmCalls it.leftEffects) "pwm3") it.leftP
      ∧ HoldsCompare (timClock pclk1) s.rightPwm
        (r.after (timClock pclk1) (pwmCalls (it.leftEffects ++ it.rightEffects)) "pwm1")
        it.rightP := by
  intro s it
  obtain ⟨hl, hr, h⟩ := threadAfter_wired mem inps
  have hleft : |it.leftP| ≤ 100000 := h.abs_leftP_le inp
  have hright : |it.rightP| ≤ 100000 := h.abs_rightP_le inp
  refine ⟨?_, ?_⟩
  · refine holdsCompare_dispatch h.leftMotor ?_ ?_ ?_ hleft hclock hmax r
    · rw [h.leftPwm]
      rfl
    · rw [h.leftPwm]
      rfl
    · rw [h.leftPwm]
      rfl
  · -- the right dispatch starts from what the left one left
    rw [pwmCalls_append, Registers.after_append]
    refine holdsCompare_dispatch h.rightMotor ?_ ?_ ?_ hright hclock hmax _
    · rw [h.rightPwm]
      rfl
    · rw [h.rightPwm]
      rfl
    · rw [h.rightPwm]
      rfl

/-- The board has 36 MHz on the bus: 7200 ticks, for a car that has just been
switched on. -/
theorem registers_envelope_board : ((Registers.after (timClock 36000000)
    (fun _ => ⟨0, 0, fun _ => 0⟩) (pwmCalls (speedThread (threadAfter Stack.zero [])
      ⟨some (1, 0), idleReads, idleReads, idleReads, idleReads⟩).2.leftEffects)) "pwm3").arr
      = 7199 := by
  obtain ⟨hleft, -⟩ := registers_envelope 36000000 (by decide) (by decide) Stack.zero []
    ⟨some (1, 0), idleReads, idleReads, idleReads, idleReads⟩ fun _ => ⟨0, 0, fun _ => 0⟩
  have harr := hleft.arr
  have hclock : timClock 36000000 = 72 := by decide
  rw [hclock] at harr ⊢
  omega

end DiffCar
