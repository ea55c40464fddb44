import DiffCar.Pwm
import DiffCar.Lib.Reactive
import Mathlib.Data.List.Chain

/-!
# Interlock — both half bridges at once

The direction calls write the driven channel before they clear the other one.
Between the two writes of a reversal both channels carry a pulse. The history
of a `Pwm` object, seen through `_inverse`, is a list of drives (direction,
pulse); the interlock holds at every single `rt_pwm_set` exactly when no drive
with a pulse follows one in the other direction that also had a pulse.
-/

namespace DiffCar

/-- The calls the program makes on a `Pwm` object. -/
inductive PwmCall where
  | setCW (pulse : ℕ)
  | setCCW (pulse : ℕ)
  | setInverse (inverse : Bool)

/-- One call: the object after it and the `rt_pwm_set` calls it makes. -/
def Pwm.call (p : Pwm) : PwmCall → Pwm × List PwmSet
  | .setCW pulse => (p, p.setCW pulse)
  | .setCCW pulse => (p, p.setCCW pulse)
  | .setInverse inverse => (p.setInverse inverse, [])

/-- The `rt_pwm_set` calls a history of calls makes, in order. -/
def Pwm.calls (p : Pwm) (cs : List PwmCall) : List PwmSet :=
  (Reactive.outputs Pwm.call p cs).flatten

/-- Not both channels of the object carry a pulse. -/
def Pwm.Safe (p : Pwm) (dev : String) (l : Lines) : Prop :=
  l dev p.channelCw = 0 ∨ l dev p.channelCcw = 0

/-- **The interlock**: it is never given up, after any single `rt_pwm_set`. -/
def Pwm.Interlocked (p : Pwm) (dev : String) (l : Lines) (cs : List PwmCall) :
    Prop :=
  ∀ l' ∈ l.visited (p.calls cs), p.Safe dev l'

instance (p : Pwm) (dev : String) (l : Lines) : Decidable (p.Safe dev l) :=
  inferInstanceAs (Decidable (_ ∨ _))

instance (p : Pwm) (dev : String) (l : Lines) (cs : List PwmCall) :
    Decidable (p.Interlocked dev l cs) :=
  inferInstanceAs (Decidable (∀ l' ∈ l.visited (p.calls cs), p.Safe dev l'))

/-- The drives of a history: whether the cw channel is the driven one, and
the pulse. -/
def drives : Bool → List PwmCall → List (Bool × ℕ)
  | _, [] => []
  | inverse, .setCW pulse :: cs => (!inverse, pulse) :: drives inverse cs
  | inverse, .setCCW pulse :: cs => (inverse, pulse) :: drives inverse cs
  | _, .setInverse inverse :: cs => drives inverse cs

/-- The second drive reverses the first while both carry a pulse. -/
def HotReversal (a b : Bool × ℕ) : Prop := a.1 ≠ b.1 ∧ a.2 ≠ 0 ∧ b.2 ≠ 0

/-- No drive of the history is a hot reversal of the one before it. -/
def NoHotReversal (inverse : Bool) (cs : List PwmCall) : Prop :=
  (drives inverse cs).IsChain fun a b => ¬ HotReversal a b

/-- The lines show this drive on the object's channels. -/
def Pwm.Shows (p : Pwm) (dev : String) (l : Lines) (a : Bool × ℕ) : Prop :=
  l dev (p.driven a.1) = a.2 ∧ l dev (p.driven !a.1) = 0

section Object

variable {p : Pwm} {dev : String} {l : Lines}

theorem safe_iff_driven (cw : Bool) :
    p.Safe dev l ↔ l dev (p.driven cw) = 0 ∨ l dev (p.driven !cw) = 0 := by
  cases cw
  · exact or_comm
  · exact Iff.rfl

/-- **One drive**: it keeps the interlock at both of its writes exactly when
it is not a hot reversal of the drive the lines show. -/
theorem drive_safe_iff (hdev : p.pwmDev = some dev)
    (hch : p.channelCw ≠ p.channelCcw) {a : Bool × ℕ} (ha : p.Shows dev l a)
    (b : Bool × ℕ) :
    (∀ l' ∈ l.visited (p.drive b.1 b.2), p.Safe dev l') ↔ ¬ HotReversal a b := by
  have hne := Pwm.driven_ne hch b.1
  have hafter := Pwm.after_drive hdev hch l b.1 b.2
  -- the state between the two writes decides; after both the other is clear
  have hmid : p.Safe dev (rtPwmSet l (p.set (p.driven b.1) b.2))
      ↔ b.2 = 0 ∨ l dev (p.driven !b.1) = 0 := by
    rw [safe_iff_driven b.1, Pwm.rtPwmSet_same hdev,
      Pwm.rtPwmSet_other hdev l hne.symm]
  have hlast : p.Safe dev (l.after (p.drive b.1 b.2)) :=
    (safe_iff_driven b.1).mpr (.inr hafter.2)
  have hboth : (∀ l' ∈ l.visited (p.drive b.1 b.2), p.Safe dev l')
      ↔ b.2 = 0 ∨ l dev (p.driven !b.1) = 0 := by
    rw [← hmid]
    constructor
    · intro h
      exact h _ (by simp [Pwm.drive, Lines.visited])
    · intro h l' hl'
      simp only [Pwm.drive, Lines.visited, List.mem_cons, List.not_mem_nil,
        or_false] at hl'
      rcases hl' with rfl | rfl
      · exact h
      · exact hlast
  rw [hboth, HotReversal]
  by_cases hdir : a.1 = b.1
  · rw [← hdir, ha.2]
    simp
  · have hb : b.1 = !a.1 := by
      revert hdir
      cases a.1 <;> cases b.1 <;> simp
    rw [hb, Bool.not_not, ha.1]
    have : a.1 ≠ !a.1 := by cases a.1 <;> simp
    tauto

/-- A call that does not change the object: the states it visits, then those
of the calls that follow. -/
theorem interlocked_cons {c : PwmCall} {ws : List PwmSet}
    (hcall : p.call c = (p, ws)) (cs : List PwmCall) :
    p.Interlocked dev l (c :: cs)
      ↔ (∀ l' ∈ l.visited ws, p.Safe dev l')
        ∧ p.Interlocked dev (l.after ws) cs := by
  simp only [Pwm.Interlocked, Pwm.calls, Reactive.outputs_cons, hcall,
    List.flatten_cons, Lines.visited_append, List.mem_append]
  constructor
  · intro h
    exact ⟨fun l' hl' => h l' (.inl hl'), fun l' hl' => h l' (.inr hl')⟩
  · intro h l' hl'
    rcases hl' with hl' | hl'
    · exact h.1 l' hl'
    · exact h.2 l' hl'

/-- The same for a history of drives, from what the lines show. -/
theorem interlocked_iff_chain (hdev : p.pwmDev = some dev)
    (hch : p.channelCw ≠ p.channelCcw) {a : Bool × ℕ} (ha : p.Shows dev l a)
    (cs : List PwmCall) :
    p.Interlocked dev l cs
      ↔ (a :: drives p.inverse cs).IsChain fun a b => ¬ HotReversal a b := by
  induction cs generalizing p l a with
  | nil => simp [Pwm.Interlocked, Pwm.calls, Lines.visited, drives]
  | cons c cs ih =>
      -- both direction calls are drives, in the direction _inverse gives them
      have hdrive : ∀ (b : Bool × ℕ), p.call c = (p, p.drive b.1 b.2) →
          drives p.inverse (c :: cs) = b :: drives p.inverse cs →
          (p.Interlocked dev l (c :: cs)
            ↔ (a :: drives p.inverse (c :: cs)).IsChain
                fun a b => ¬ HotReversal a b) := by
        intro b hcall hdrives
        have hshows : p.Shows dev (l.after (p.drive b.1 b.2)) b :=
          Pwm.after_drive hdev hch l b.1 b.2
        rw [interlocked_cons hcall, hdrives, List.isChain_cons_cons,
          drive_safe_iff hdev hch ha, ih hdev hch hshows]
      cases c with
      | setCW pulse =>
          exact hdrive (!p.inverse, pulse)
            (by rw [Pwm.call, Pwm.setCW_eq_drive]) rfl
      | setCCW pulse =>
          exact hdrive (p.inverse, pulse)
            (by rw [Pwm.call, Pwm.setCCW_eq_drive]) rfl
      | setInverse inverse =>
          -- no write: the next drive is compared with the same one
          exact ih (p := p.setInverse inverse) hdev hch ha

end Object

/-- **When the interlock holds.** From two clear channels, over any history
of calls: exactly when the history has no hot reversal. -/
theorem interlock_iff (p : Pwm) (dev : String) (l : Lines) (cs : List PwmCall)
    (hdev : p.pwmDev = some dev) (hch : p.channelCw ≠ p.channelCcw)
    (hcw : l dev p.channelCw = 0) (hccw : l dev p.channelCcw = 0) :
    p.Interlocked dev l cs ↔ NoHotReversal p.inverse cs := by
  rw [interlocked_iff_chain hdev hch (a := (true, 0)) ⟨hcw, hccw⟩, NoHotReversal]
  cases drives p.inverse cs with
  | nil => simp
  | cons b bs => simp [List.isChain_cons_cons, HotReversal]

/-- The right motor of the program. -/
def rightMotor : Pwm := Pwm.construct pwmDevices "pwm1" 100000 1 2

instance (inverse : Bool) (cs : List PwmCall) : Decidable (NoHotReversal inverse cs) :=
  inferInstanceAs (Decidable ((drives inverse cs).IsChain fun a b =>
    ¬ (a.1 ≠ b.1 ∧ a.2 ≠ 0 ∧ b.2 ≠ 0)))

/-- A reversal by way of a stop keeps the interlock. -/
theorem interlock_iff_reversal :
    NoHotReversal false [.setCCW 60000, .setCW 0, .setCW 60000]
      ∧ rightMotor.Interlocked "pwm1" (fun _ _ => 0)
        [.setCCW 60000, .setCW 0, .setCW 60000] := by
  have hno : NoHotReversal false [.setCCW 60000, .setCW 0, .setCW 60000] := by decide
  exact ⟨hno, (interlock_iff rightMotor "pwm1" (fun _ _ => 0) _ (by decide) (by decide)
    rfl rfl).mpr hno⟩

/-- A reversal from 60% of the period to 60% the other way. -/
theorem interlock_broken :
    ¬ rightMotor.Interlocked "pwm1" (fun _ _ => 0)
        [.setCCW 60000, .setCW 60000] := by
  decide

end DiffCar
