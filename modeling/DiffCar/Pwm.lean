import Mathlib.Data.List.Basic

/-!
# Pwm — the two channels of a motor

`applications/pwm.h`. A motor hangs on two channels of one PWM device; each
direction call writes both, the driven one first. `Lines` is what the devices
were last told: the pulse of the last `rt_pwm_set` on every channel.
-/

namespace DiffCar

/-- A call `rt_pwm_set(device, channel, period, pulse)`. -/
structure PwmSet where
  device : Option String
  channel : ℕ
  period : ℕ
  pulse : ℕ
  deriving DecidableEq

/-- The pulse last set, by device and channel. -/
abbrev Lines := String → ℕ → ℕ

/-- `rt_pwm_set`, which refuses a null device. -/
def rtPwmSet (l : Lines) (c : PwmSet) : Lines :=
  match c.device with
  | none => l
  | some dev => fun d ch => if d = dev ∧ ch = c.channel then c.pulse else l d ch

/-- The lines after a sequence of calls. -/
def Lines.after (l : Lines) (cs : List PwmSet) : Lines := cs.foldl rtPwmSet l

/-- The lines after each single call of a sequence. -/
def Lines.visited (l : Lines) : List PwmSet → List Lines
  | [] => []
  | c :: cs => rtPwmSet l c :: Lines.visited (rtPwmSet l c) cs

theorem Lines.after_append (l : Lines) (cs cs' : List PwmSet) :
    l.after (cs ++ cs') = (l.after cs).after cs' :=
  List.foldl_append

theorem Lines.visited_append (l : Lines) (cs cs' : List PwmSet) :
    l.visited (cs ++ cs') = l.visited cs ++ (l.after cs).visited cs' := by
  induction cs generalizing l with
  | nil => rfl
  | cons c cs ih => exact congrArg (rtPwmSet l c :: ·) (ih _)

/-- Calls on other devices change nothing on this one. -/
theorem Lines.after_other {dev : String} {cs : List PwmSet}
    (h : ∀ c ∈ cs, c.device ≠ some dev) (l : Lines) (ch : ℕ) :
    l.after cs dev ch = l dev ch := by
  induction cs generalizing l with
  | nil => rfl
  | cons c cs ih =>
      have hc : c.device ≠ some dev := h c (by simp)
      have hset : rtPwmSet l c dev ch = l dev ch := by
        cases hd : c.device with
        | none => simp [rtPwmSet, hd]
        | some d =>
            have hne : dev ≠ d := by
              rintro rfl
              exact hc hd
            simp [rtPwmSet, hd, hne]
      exact (ih (fun c' hc' => h c' (by simp [hc'])) _).trans hset

/-- The PWM devices `stm32_pwm_init` registers for this board
(`BSP_USING_PWM1`, `BSP_USING_PWM3`). -/
def pwmDevices : List String := ["pwm1", "pwm3"]

/-- `rt_device_find` among the registered devices. -/
def rtDeviceFind (devices : List String) (name : String) : Option String :=
  if name ∈ devices then some name else none

/-- `class Pwm`. -/
structure Pwm where
  pwmDev : Option String
  period : ℕ
  channelCw : ℕ
  channelCcw : ℕ
  inverse : Bool

namespace Pwm

/-- `Pwm::Pwm`; `init()` looks the device up by name. -/
def construct (devices : List String) (name : String) (period : ℕ)
    (channelCw channelCcw : ℕ) : Pwm where
  pwmDev := rtDeviceFind devices name
  period := period
  channelCw := channelCw
  channelCcw := channelCcw
  inverse := false

/-- `Pwm::setInverse`. -/
def setInverse (p : Pwm) (inverse : Bool) : Pwm := { p with inverse := inverse }

/-- The call `rt_pwm_set(_pwm_dev, channel, _period, pulse)`. -/
def set (p : Pwm) (channel pulse : ℕ) : PwmSet :=
  ⟨p.pwmDev, channel, p.period, pulse⟩

/-- `Pwm::setCW`. -/
def setCW (p : Pwm) (pulse : ℕ) : List PwmSet :=
  if !p.inverse then
    [p.set p.channelCw pulse, p.set p.channelCcw 0]
  else
    [p.set p.channelCcw pulse, p.set p.channelCw 0]

/-- `Pwm::setCCW`. -/
def setCCW (p : Pwm) (pulse : ℕ) : List PwmSet :=
  if !p.inverse then
    [p.set p.channelCcw pulse, p.set p.channelCw 0]
  else
    [p.set p.channelCw pulse, p.set p.channelCcw 0]

@[simp] theorem setInverse_pwmDev (p : Pwm) (b : Bool) :
    (p.setInverse b).pwmDev = p.pwmDev := rfl

@[simp] theorem setInverse_channelCw (p : Pwm) (b : Bool) :
    (p.setInverse b).channelCw = p.channelCw := rfl

@[simp] theorem setInverse_channelCcw (p : Pwm) (b : Bool) :
    (p.setInverse b).channelCcw = p.channelCcw := rfl

@[simp] theorem setInverse_inverse (p : Pwm) (b : Bool) :
    (p.setInverse b).inverse = b := rfl

/-- The channel that a drive in the direction of the cw channel, or of the
ccw channel, puts its pulse on. -/
def driven (p : Pwm) (cw : Bool) : ℕ := if cw then p.channelCw else p.channelCcw

/-- Both direction calls are one drive: the pulse on the driven channel, then
zero on the other. `_inverse` swaps which call drives which channel. -/
def drive (p : Pwm) (cw : Bool) (pulse : ℕ) : List PwmSet :=
  [p.set (p.driven cw) pulse, p.set (p.driven !cw) 0]

theorem setCW_eq_drive (p : Pwm) (pulse : ℕ) :
    p.setCW pulse = p.drive (!p.inverse) pulse := by
  unfold setCW drive driven
  cases p.inverse <;> rfl

theorem setCCW_eq_drive (p : Pwm) (pulse : ℕ) :
    p.setCCW pulse = p.drive p.inverse pulse := by
  unfold setCCW drive driven
  cases p.inverse <;> rfl

theorem driven_ne {p : Pwm} (h : p.channelCw ≠ p.channelCcw) (cw : Bool) :
    p.driven cw ≠ p.driven !cw := by
  cases cw
  · exact h.symm
  · exact h

/-- A drive makes calls on the object's device only. -/
theorem device_of_mem_drive {p : Pwm} {cw : Bool} {pulse : ℕ} {c : PwmSet}
    (h : c ∈ p.drive cw pulse) : c.device = p.pwmDev := by
  rw [drive, List.mem_pair] at h
  rcases h with rfl | rfl <;> rfl

/-! ## A call on a device that is there -/

variable {p : Pwm} {dev : String}

theorem rtPwmSet_same (hdev : p.pwmDev = some dev) (l : Lines) (ch pulse : ℕ) :
    rtPwmSet l (p.set ch pulse) dev ch = pulse := by
  simp [rtPwmSet, set, hdev]

theorem rtPwmSet_other (hdev : p.pwmDev = some dev) (l : Lines) {ch ch' : ℕ}
    (h : ch' ≠ ch) (pulse : ℕ) :
    rtPwmSet l (p.set ch pulse) dev ch' = l dev ch' := by
  simp [rtPwmSet, set, hdev, h]

/-- A drive leaves its pulse on the driven channel and zero on the other. -/
theorem after_drive (hdev : p.pwmDev = some dev)
    (hch : p.channelCw ≠ p.channelCcw) (l : Lines) (cw : Bool) (pulse : ℕ) :
    l.after (p.drive cw pulse) dev (p.driven cw) = pulse
      ∧ l.after (p.drive cw pulse) dev (p.driven !cw) = 0 := by
  have hne := driven_ne hch cw
  constructor
  · show rtPwmSet (rtPwmSet l _) _ dev _ = pulse
    rw [rtPwmSet_other hdev _ hne, rtPwmSet_same hdev]
  · exact rtPwmSet_same hdev _ _ _

end Pwm

end DiffCar
