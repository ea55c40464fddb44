import DiffCar.SpeedThread
import Mathlib.Tactic.NormNum

/-!
# BadPacket — commands that are not numbers

`recvCb` checks the length of a packet and nothing else, so the sixteen bytes
of a command may decode to any `double`. The saturation of `speedThread` and
the clamps of `Pid::calc` catch the infinities. They are comparisons, and
`NaN` passes every one of them into the integrator, where it stays: the sum
of `NaN` and anything is `NaN`, and the clamp keeps it.
-/

namespace DiffCar

open ExtRat

/-- The commands whose kinematics has no value: a component is `NaN`, or both
are infinite, which cancel on one of the two wheels. -/
def Poison (c : ExtRat × ExtRat) : Prop :=
  c.1 = .nan ∨ c.2 = .nan ∨ ∃ s t, c.1 = .inf s ∧ c.2 = .inf t

/-- Both components are finite. -/
def FiniteCommand (c : ExtRat × ExtRat) : Prop := IsFin c.1 ∧ IsFin c.2

theorem FiniteCommand.not_poison {c : ExtRat × ExtRat} (h : FiniteCommand c) :
    ¬ Poison c := by
  obtain ⟨⟨v, hv⟩, ⟨w, hw⟩⟩ := h
  simp [Poison, hv, hw]

/-! ## The wheel setpoints -/

theorem circumference_fin :
    ∃ q : ℚ, q ≠ 0 ∧ (circumference : ExtRat) = .fin q :=
  ⟨2 * (157 / 50) * wheelRadius, by rw [wheelRadius]; norm_num, rfl⟩

/-- The scaling around the two sums of the kinematics makes no `NaN`. -/
theorem scaled_eq_nan (x : ExtRat) :
    (fin 60 * x * fin (1 / 2)) / circumference = .nan ↔ x = .nan := by
  obtain ⟨q, hq, hc⟩ := circumference_fin
  rw [hc, div_fin_eq_nan hq, mul_fin_eq_nan (by norm_num),
    fin_mul_eq_nan (by norm_num)]

theorem fin_mul_eq_inf {a : ℚ} (ha : 0 < a) (x : ExtRat) (s : Bool) :
    fin a * x = .inf s ↔ x = .inf s := by
  cases x with
  | fin q => simp
  | inf t => rw [fin_mul_inf ha]
  | nan => simp

theorem leftKinematics_eq_nan (c : ExtRat × ExtRat) :
    leftKinematics c = .nan
      ↔ c.1 = .nan ∨ c.2 = .nan ∨ ∃ s, c.1 = .inf s ∧ c.2 = .inf s := by
  have hbase : (0 : ℚ) < wheelBase := by rw [wheelBase]; norm_num
  unfold leftKinematics
  simp only [ExtRat.cast_eq]
  rw [scaled_eq_nan, sub_eq_nan, fin_mul_eq_nan (by norm_num),
    fin_mul_eq_nan hbase.ne']
  simp only [fin_mul_eq_inf (show (0 : ℚ) < 2 by norm_num), fin_mul_eq_inf hbase]

theorem rightKinematics_eq_nan (c : ExtRat × ExtRat) :
    rightKinematics c = .nan
      ↔ c.1 = .nan ∨ c.2 = .nan ∨ ∃ s, c.1 = .inf s ∧ c.2 = .inf (!s) := by
  have hbase : (0 : ℚ) < wheelBase := by rw [wheelBase]; norm_num
  unfold rightKinematics
  simp only [ExtRat.cast_eq]
  rw [scaled_eq_nan, add_eq_nan, fin_mul_eq_nan (by norm_num),
    fin_mul_eq_nan hbase.ne']
  simp only [fin_mul_eq_inf (show (0 : ℚ) < 2 by norm_num), fin_mul_eq_inf hbase]

/-- **A command is poison exactly when a wheel's setpoint has no value.** -/
theorem poison_iff (c : ExtRat × ExtRat) :
    Poison c ↔ leftKinematics c = .nan ∨ rightKinematics c = .nan := by
  rw [leftKinematics_eq_nan, rightKinematics_eq_nan, Poison]
  constructor
  · rintro (h | h | ⟨s, t, h1, h2⟩)
    · exact .inl (.inl h)
    · exact .inl (.inr (.inl h))
    · -- infinities of one sign cancel on the left, of opposite signs on the right
      by_cases hst : t = s
      · exact .inl (.inr (.inr ⟨s, h1, by rw [h2, hst]⟩))
      · have hneg : t = !s := by
          cases s <;> cases t <;> simp at hst ⊢
        exact .inr (.inr (.inr ⟨s, h1, by rw [h2, hneg]⟩))
  · rintro ((h | h | ⟨s, h1, h2⟩) | (h | h | ⟨s, h1, h2⟩))
    · exact .inl h
    · exact .inr (.inl h)
    · exact .inr (.inr ⟨s, s, h1, h2⟩)
    · exact .inl h
    · exact .inr (.inl h)
    · exact .inr (.inr ⟨s, !s, h1, h2⟩)

theorem saturate_nan : saturate ExtRat.nan = .nan := by
  simp [saturate, fabs]

/-- Saturation makes every value but `NaN` finite, and lets `NaN` through. -/
theorem isFin_saturate (x : ExtRat) : IsFin (saturate x) ↔ x ≠ .nan := by
  cases x with
  | fin q =>
      have hfin : IsFin (saturate (.fin q)) := by
        unfold saturate
        split_ifs <;> simp
      simp [hfin]
  | inf s =>
      have hfabs : fabs (.inf s) = ExtRat.inf false := by cases s <;> rfl
      have hlarge : ((200 : ℚ) : ExtRat) < .inf false := rfl
      have hfin : IsFin (saturate (.inf s)) := by
        unfold saturate
        rw [hfabs, if_pos hlarge]
        split_ifs <;> simp
      simp [hfin]
  | nan => simp [saturate_nan]

/-! ## The controllers -/

/-- The members of a controller that change are finite. -/
structure Pid.FiniteState (s : Pid ExtRat) : Prop where
  sum : IsFin s.sum
  preErr : IsFin s.preErr

theorem Pid.FiniteState.setRef {s : Pid ExtRat} (h : s.FiniteState)
    (ref : ExtRat) : (s.setRef ref).FiniteState :=
  ⟨h.sum, h.preErr⟩

section Controllers

variable {s : Pid ExtRat}

theorem Pid.clampSum_nan (s : Pid ExtRat) : s.clampSum .nan = .nan := by
  simp [Pid.clampSum]

/-- **`NaN` stays in the integrator**, whatever comes after. -/
theorem Pid.nextSum_of_sum (h : s.sum = .nan) (feed : ExtRat) :
    s.nextSum feed = .nan := by
  rw [Pid.nextSum, h, nan_add, Pid.clampSum_nan]

/-- A setpoint that is `NaN` reaches the integrator. -/
theorem Pid.nextSum_of_ref (h : s.ref = .nan) (feed : ExtRat) :
    s.nextSum feed = .nan := by
  rw [Pid.nextSum, h, nan_sub, add_nan, Pid.clampSum_nan]

theorem Pid.Wired.isFin_clampSum (h : s.Wired) {x : ExtRat} (hx : IsFin x) :
    IsFin (s.clampSum x) := by
  unfold Pid.clampSum
  rw [h.max, h.min]
  split_ifs
  · simp
  · exact hx
  · simp
  · exact hx

theorem Pid.Wired.isFin_clampOut (h : s.Wired) {x : ExtRat} (hx : IsFin x) :
    IsFin (s.clampOut x) := by
  unfold Pid.clampOut
  rw [h.max, h.min]
  dsimp only
  split_ifs
  · simp
  · simp
  · simp
  · exact hx

theorem Pid.Wired.isFin_nextSum (h : s.Wired) (hs : s.FiniteState)
    (href : IsFin s.ref) {feed : ExtRat} (hfeed : IsFin feed) :
    IsFin (s.nextSum feed) :=
  h.isFin_clampSum (hs.sum.add (href.sub hfeed))

theorem Pid.Wired.isFin_output (h : s.Wired) (hs : s.FiniteState)
    (href : IsFin s.ref) {feed : ExtRat} (hfeed : IsFin feed) :
    IsFin (s.output feed) := by
  have herr : IsFin (s.ref - feed) := href.sub hfeed
  have hp : IsFin (s.p * (s.ref - feed)) := by
    rw [h.p]
    exact (isFin_fin _).mul herr
  have hi : IsFin (s.i * s.nextSum feed) := by
    rw [h.i]
    exact (isFin_fin _).mul (h.isFin_nextSum hs href hfeed)
  have hd : IsFin (s.d * (s.preErr - (s.ref - feed))) := by
    rw [h.d]
    exact (isFin_fin _).mul (hs.preErr.sub herr)
  exact h.isFin_clampOut ((hp.add hi).add hd)

theorem Pid.Wired.finiteState_calc (h : s.Wired) (hs : s.FiniteState)
    (href : IsFin s.ref) {feed : ExtRat} (hfeed : IsFin feed) :
    (s.calc feed).1.FiniteState :=
  ⟨h.isFin_nextSum hs href hfeed, href.sub hfeed⟩

end Controllers

/-! ## The measured speeds -/

theorem isFin_of_mem_concat {l : List ExtRat} {a : ExtRat}
    (hl : ∀ x ∈ l, IsFin x) (ha : IsFin a) : ∀ x ∈ l ++ [a], IsFin x := by
  intro x hx
  rcases List.mem_append.mp hx with hx | hx
  · exact hl x hx
  · rw [List.mem_singleton.mp hx]
    exact ha

theorem isFin_windowMean {n : ℕ} (hn : n ≠ 0) {l : List ExtRat}
    (hl : ∀ x ∈ l, IsFin x) : IsFin (windowMean n l) := by
  have hcast : (n : ℚ) ≠ 0 := Nat.cast_ne_zero.mpr hn
  unfold windowMean
  split
  · simp
  · refine IsFin.div (IsFin.foldl_add ?_ (isFin_fin 0)) hcast
    intro x hx
    exact hl x (List.mem_of_mem_rtake hx)

/-- Whatever the counters and the tick show, a rate is finite. -/
theorem CalcSpeed.Wired.isFin_rpm {s : CalcSpeed ExtRat} {name : String}
    {cpr : BitVec 16} {hist : List ExtRat} (h : s.Wired name cpr hist)
    (hcpr : cpr.toNat ≠ 0) (r : Reads) : IsFin (s.rpm r) := by
  have hdiff : ((s.diffT r).toNat : ℚ) ≠ 0 :=
    Nat.cast_ne_zero.mpr (diffT_ne_zero s r)
  have hc : (s.cpr.toNat : ℚ) ≠ 0 := by
    rw [h.cpr]
    exact Nat.cast_ne_zero.mpr hcpr
  exact IsFin.div (IsFin.div (((isFin_fin _).mul (isFin_fin 60)).mul
    (isFin_fin 1000)) hc) hdiff

theorem CalcSpeed.Wired.isFin_calc {s : CalcSpeed ExtRat} {name : String}
    {cpr : BitVec 16} {hist : List ExtRat} (h : s.Wired name cpr hist)
    (hcpr : cpr.toNat ≠ 0) (hhist : ∀ x ∈ hist, IsFin x) (r : Reads) :
    IsFin (s.calc r).2 := by
  rw [h.calc_snd]
  have hrates := isFin_of_mem_concat hhist (h.isFin_rpm hcpr r)
  exact (isFin_fin 1).mul (isFin_windowMean (by decide) hrates)

/-! ## The thread -/

/-- The two windows hold finite rates only. -/
def SpeedThread.FiniteRates (s : SpeedThread ExtRat) : Prop :=
  ∃ hl hr, s.Wired hl hr ∧ (∀ x ∈ hl, IsFin x) ∧ ∀ x ∈ hr, IsFin x

/-- **Finite controller state**: the rates in the two windows and the members
of the two controllers are finite, and the command in force is no poison. -/
structure SpeedThread.FiniteState (s : SpeedThread ExtRat) : Prop where
  rates : s.FiniteRates
  pleft : s.pleft.FiniteState
  pright : s.pright.FiniteState
  speed : ¬ Poison s.speed

/-- The constructions make a finite state of finite memory; what the windows'
arrays held does not matter. -/
theorem SpeedThread.FiniteState.start {mem : Stack ExtRat}
    (hleft : mem.pleft.FiniteState) (hright : mem.pright.FiniteState) :
    (SpeedThread.start mem).FiniteState where
  rates := ⟨[], [], SpeedThread.Wired.start mem, by simp, by simp⟩
  pleft := ⟨hleft.sum, hleft.preErr⟩
  pright := ⟨hright.sum, hright.preErr⟩
  speed := FiniteCommand.not_poison ⟨isFin_fin 0, isFin_fin 0⟩

/-- The iteration receives a poison command. -/
def Inputs.Poisoned (inp : Inputs ExtRat) : Prop := ∃ c ∈ inp.msg, Poison c

/-- What the iteration leaves and computes is finite: both setpoints, both
integrators and both controller outputs. -/
structure FiniteIteration (r : SpeedThread ExtRat × Iteration ExtRat) : Prop where
  leftSpeed : IsFin r.2.leftSpeed
  rightSpeed : IsFin r.2.rightSpeed
  leftSum : IsFin r.1.pleft.sum
  rightSum : IsFin r.1.pright.sum
  leftP : IsFin r.2.leftP
  rightP : IsFin r.2.rightP

section Thread

variable {s : SpeedThread ExtRat}

theorem SpeedThread.FiniteRates.step (h : s.FiniteRates) (inp : Inputs ExtRat) :
    (speedThread s inp).1.FiniteRates := by
  obtain ⟨hl, hr, hw, hhl, hhr⟩ := h
  have hc := hw.control inp
  have hcl := isFin_of_mem_concat hhl (hw.left.isFin_rpm (by decide) inp.left)
  have hcr := isFin_of_mem_concat hhr (hw.right.isFin_rpm (by decide) inp.right)
  by_cases hrep : (control s inp).1.reports
  · exact ⟨_, _, hc.report_yes hrep inp _,
      isFin_of_mem_concat hcl (hc.left.isFin_rpm (by decide) inp.repLeft),
      isFin_of_mem_concat hcr (hc.right.isFin_rpm (by decide) inp.repRight)⟩
  · exact ⟨_, _, hc.report_no hrep inp _, hcl, hcr⟩

/-- The command an iteration acts on is no poison unless it receives one. -/
theorem SpeedThread.FiniteState.not_poison (h : s.FiniteState)
    {inp : Inputs ExtRat} (hinp : ¬ inp.Poisoned) :
    ¬ Poison (inp.msg.getD s.speed) := by
  cases hmsg : inp.msg with
  | none => exact h.speed
  | some c =>
      intro hc
      exact hinp ⟨c, hmsg, hc⟩

/-- **A step on a command that is no poison** computes finite values only,
and its state stays finite. -/
theorem SpeedThread.FiniteState.step (h : s.FiniteState) {inp : Inputs ExtRat}
    (hinp : ¬ inp.Poisoned) :
    (speedThread s inp).1.FiniteState ∧ FiniteIteration (speedThread s inp) := by
  obtain ⟨hl, hr, hw, hhl, hhr⟩ := h.rates
  have hspeed := h.not_poison hinp
  obtain ⟨hleftNan, hrightNan⟩ := not_or.mp ((poison_iff _).not.mp hspeed)
  have hleftRef := (isFin_saturate _).mpr hleftNan
  have hrightRef := (isFin_saturate _).mpr hrightNan
  have hleftFeed := hw.left.isFin_calc (by decide) hhl inp.left
  have hrightFeed := hw.right.isFin_calc (by decide) hhr inp.right
  have hleft : (speedThread s inp).1.pleft.FiniteState := by
    rw [speedThread_pleft]
    exact (hw.pleft.setRef _).finiteState_calc (h.pleft.setRef _) hleftRef hleftFeed
  have hright : (speedThread s inp).1.pright.FiniteState := by
    rw [speedThread_pright]
    exact (hw.pright.setRef _).finiteState_calc (h.pright.setRef _) hrightRef
      hrightFeed
  have hleftP : IsFin (speedThread s inp).2.leftP :=
    (hw.pleft.setRef _).isFin_output (h.pleft.setRef _) hleftRef hleftFeed
  have hrightP : IsFin (speedThread s inp).2.rightP :=
    (hw.pright.setRef _).isFin_output (h.pright.setRef _) hrightRef hrightFeed
  constructor
  · refine ⟨h.rates.step inp, hleft, hright, ?_⟩
    rw [speedThread_speed]
    exact hspeed
  · exact ⟨hleftRef, hrightRef, hleft.sum, hright.sum, hleftP, hrightP⟩

/-- An integrator has lost its value. -/
def SpeedThread.SumLost (s : SpeedThread ExtRat) : Prop :=
  s.pleft.sum = .nan ∨ s.pright.sum = .nan

/-- **A poison command reaches an integrator.** -/
theorem sumLost_of_poisoned (s : SpeedThread ExtRat) {inp : Inputs ExtRat}
    (hinp : inp.Poisoned) : (speedThread s inp).1.SumLost := by
  obtain ⟨c, hmsg, hc⟩ := hinp
  have hspeed : inp.msg.getD s.speed = c := by
    rw [Option.mem_def.mp hmsg, Option.getD_some]
  rw [SpeedThread.SumLost, speedThread_pleft, speedThread_pright, hspeed]
  rcases (poison_iff c).mp hc with hk | hk
  · left
    rw [hk, saturate_nan]
    exact Pid.nextSum_of_ref rfl _
  · right
    rw [hk, saturate_nan]
    exact Pid.nextSum_of_ref rfl _

/-- **An integrator that is `NaN` stays so**, whatever the commands and the
readings are. -/
theorem SpeedThread.SumLost.step (h : s.SumLost) (inp : Inputs ExtRat) :
    (speedThread s inp).1.SumLost := by
  rw [SpeedThread.SumLost, speedThread_pleft, speedThread_pright]
  rcases h with h | h
  · left
    refine Pid.nextSum_of_sum ?_ _
    exact h
  · right
    refine Pid.nextSum_of_sum ?_ _
    exact h

theorem SpeedThread.SumLost.not_finiteIteration
    {r : SpeedThread ExtRat × Iteration ExtRat} (h : r.1.SumLost) :
    ¬ FiniteIteration r := by
  intro hfin
  rcases h with h | h
  · exact not_isFin_nan (h ▸ hfin.leftSum)
  · exact not_isFin_nan (h ▸ hfin.rightSum)

/-- After a run without poison the state is finite. -/
theorem SpeedThread.FiniteState.run (h : s.FiniteState)
    {inps : List (Inputs ExtRat)} (hinps : ∀ i ∈ inps, ¬ i.Poisoned) :
    (Reactive.final speedThread s inps).FiniteState :=
  Reactive.final_inv (fun _ _ h hi => (h.step hi).1) h hinps

/-- After a run with a poison command in it an integrator is `NaN`. -/
theorem sumLost_run (s : SpeedThread ExtRat) {inps : List (Inputs ExtRat)}
    {i : Inputs ExtRat} (hmem : i ∈ inps) (hi : i.Poisoned) :
    (Reactive.final speedThread s inps).SumLost := by
  -- from the poison command on, NaN is an invariant
  obtain ⟨before, after, rfl⟩ := List.append_of_mem hmem
  rw [Reactive.final_append, Reactive.final_cons]
  exact Reactive.final_inv (A := fun _ => True) (fun _ inp h _ => h.step inp)
    (sumLost_of_poisoned _ hi) (fun _ _ => trivial)

end Thread

/-- **Recovery from a bad packet.** Take any run from finite controller state
and a later iteration that receives a finite command: it computes finite
values and leaves finite integrators if and only if no command received
before it was poison. -/
theorem bad_packet_recovery (s : SpeedThread ExtRat) (hs : s.FiniteState)
    (inps : List (Inputs ExtRat)) (inp : Inputs ExtRat) (c : ExtRat × ExtRat)
    (hmsg : inp.msg = some c) (hc : FiniteCommand c) :
    FiniteIteration (speedThread (Reactive.final speedThread s inps) inp)
      ↔ ∀ i ∈ inps, ¬ i.Poisoned := by
  constructor
  · intro h i hmem hi
    exact ((sumLost_run s hmem hi).step inp).not_finiteIteration h
  · intro h
    have hinp : ¬ inp.Poisoned := by
      rintro ⟨c', hc', hpoison⟩
      rw [hmsg, Option.mem_some_iff] at hc'
      rw [← hc'] at hpoison
      exact hc.not_poison hpoison
    exact ((hs.run h).step hinp).2

/-! ## One `NaN` packet -/

/-- A stopped wheel under a stopped clock. -/
def idleReads : Reads := ⟨0, Timers.zero, Timers.zero, 0, 0⟩

/-- An iteration with idle wheels that receives the command. -/
def receive (c : ExtRat × ExtRat) : Inputs ExtRat :=
  ⟨some c, idleReads, idleReads, idleReads, idleReads⟩

theorem SpeedThread.FiniteState.zero : (SpeedThread.start Stack.zero).FiniteState :=
  SpeedThread.FiniteState.start ⟨isFin_fin 0, isFin_fin 0⟩
    ⟨isFin_fin 0, isFin_fin 0⟩

theorem bad_packet_recovery_infinite :
    FiniteIteration (speedThread
      (Reactive.final speedThread (SpeedThread.start Stack.zero)
        [receive (.inf false, .fin 1)]) (receive (.fin 1, .fin 0))) :=
  (bad_packet_recovery (SpeedThread.start Stack.zero) SpeedThread.FiniteState.zero
    [receive (.inf false, .fin 1)] (receive (.fin 1, .fin 0)) (.fin 1, .fin 0) rfl
    ⟨isFin_fin 1, isFin_fin 0⟩).mpr (by
      intro i hi
      rw [List.mem_singleton] at hi
      subst hi
      rintro ⟨c, hc, hpoison⟩
      rw [receive, Option.mem_some_iff] at hc
      subst hc
      simp [Poison] at hpoison)

/-- A `NaN` packet, then a stop command: the controllers do not recover. -/
theorem bad_packet_persists :
    (SpeedThread.start Stack.zero).FiniteState ∧ FiniteCommand (.fin 0, .fin 0)
      ∧ ¬ FiniteIteration (speedThread
        (Reactive.final speedThread (SpeedThread.start Stack.zero)
          [receive (.nan, .fin 0)]) (receive (.fin 0, .fin 0))) :=
  ⟨SpeedThread.FiniteState.zero, ⟨isFin_fin 0, isFin_fin 0⟩,
    ((sumLost_run _ (List.mem_singleton_self _)
      ⟨(.nan, .fin 0), rfl, .inl rfl⟩).step _).not_finiteIteration⟩

end DiffCar
