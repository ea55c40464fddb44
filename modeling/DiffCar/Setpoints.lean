import DiffCar.Delivery
import DiffCar.SpeedThread

/-!
# Setpoints — from the queue to the wheels

`Link` runs `speedThread` as far as its messages go, byte by byte and
preempted anywhere; `SpeedThread` runs the whole iteration on a message it is
given. Here the two meet: whatever the interleaving, the pairs its iterations
used are those in force in a run of `speedThread` on the messages that
`rt_mq_recv` delivered, and so are their setpoints.
-/

namespace DiffCar

open Interleave

/-- One iteration, as far as commands go: what `rt_mq_recv` delivered, if
anything, is in force from now on. -/
def commandStep (speed : Message) (msg : Option Message) : Message × Message :=
  (msg.getD speed, msg.getD speed)

/-! ## The commands of an interleaving -/

/-- What the control thread has made of its current iteration, the earlier
ones having received `msgs`. -/
def Link.Underway (s : Link) (msgs : List (Option Message)) : Prop :=
  match s.control with
  | .recv => s.speed = Reactive.final commandStep zeroPair msgs
      ∧ s.history.delivered = msgs.filterMap id
  | .copying _ _ => s.history.delivered = msgs.filterMap id
  | .computing => ∃ msg : Option Message,
      s.speed = msg.getD (Reactive.final commandStep zeroPair msgs)
        ∧ s.history.delivered = (msgs ++ [msg]).filterMap id

/-- The iterations so far received `msgs`, and used the pairs in force. -/
structure Link.Commands (s : Link) (msgs : List (Option Message)) : Prop where
  used : s.history.used.map Use.pair
    = Reactive.outputs commandStep zeroPair msgs
  underway : s.Underway msgs

theorem Link.Commands.start (next : ℕ → Option ℕ) (body : ℕ → Message) :
    (Link.start next body).Commands [] :=
  ⟨rfl, rfl, rfl⟩

section Steps

variable {s t : Link} {msgs : List (Option Message)}

/-- Steps of the parser's thread are nothing to the control thread. -/
theorem Link.Commands.frame (h : s.Commands msgs) (hcontrol : t.control = s.control)
    (hspeed : t.speed = s.speed)
    (hdelivered : t.history.delivered = s.history.delivered)
    (hused : t.history.used = s.history.used) : t.Commands msgs where
  used := by
    rw [hused]
    exact h.used
  underway := by
    have hunder := h.underway
    unfold Link.Underway at hunder ⊢
    rw [hcontrol, hspeed, hdelivered]
    exact hunder

theorem Link.Commands.receive (h : s.Commands msgs) {data : List UInt8}
    {alloc : Bool} (hs : s.receive data alloc = some t) : t.Commands msgs := by
  obtain ⟨_, ⟨_, rfl⟩ | ⟨_, _, rfl⟩ | ⟨_, _, rfl⟩⟩ := Link.receive_cases hs
  · exact h.frame rfl rfl rfl rfl
  · exact h.frame rfl rfl rfl rfl
  · exact h.frame rfl rfl rfl rfl

theorem Link.Commands.stepParser (h : s.Commands msgs)
    (hs : s.stepParser = some t) : t.Commands msgs := by
  obtain ⟨mq, parser, control, speed, history⟩ := s
  cases parser with
  | idle => exact absurd hs (by simp [Link.stepParser])
  | urgent buff =>
      simp only [Link.stepParser] at hs
      split at hs
      · obtain rfl := Option.some.inj hs
        exact h.frame rfl rfl rfl rfl
      · obtain rfl := Option.some.inj hs
        exact h.frame rfl rfl rfl rfl
  | copying buff msg k =>
      simp only [Link.stepParser] at hs
      split_ifs at hs
      · obtain rfl := Option.some.inj hs
        exact h.frame rfl rfl rfl rfl
      · obtain rfl := Option.some.inj hs
        exact h.frame rfl rfl rfl rfl
  | leaving =>
      obtain rfl := Option.some.inj hs
      exact h.frame rfl rfl rfl rfl
  | faulted => exact absurd hs (by simp [Link.stepParser])

/-- **The control thread makes a step**: the end of an iteration adds what it
received to `msgs`. -/
theorem Link.Commands.stepControl (h : s.Commands msgs)
    (hs : s.stepControl = some t) : ∃ msgs', t.Commands msgs' := by
  obtain ⟨mq, parser, control, speed, history⟩ := s
  have hunder := h.underway
  cases control with
  | recv =>
      obtain ⟨hspeed, hdelivered⟩ := hunder
      simp only [Link.stepControl] at hs
      by_cases hzero : mq.entry = 0
      · -- nothing delivered in this iteration
        rw [if_pos hzero] at hs
        obtain rfl := Option.some.inj hs
        refine ⟨msgs, h.used, none, hspeed, ?_⟩
        rw [List.filterMap_append]
        exact hdelivered.trans (List.append_nil _).symm
      · rw [if_neg hzero] at hs
        split at hs
        · exact absurd hs (by simp)
        · obtain rfl := Option.some.inj hs
          exact ⟨msgs, h.used, hdelivered⟩
  | copying msg k =>
      have hdelivered : history.delivered = msgs.filterMap id := hunder
      simp only [Link.stepControl] at hs
      split_ifs at hs
      · obtain rfl := Option.some.inj hs
        exact ⟨msgs, h.used, hdelivered⟩
      · obtain rfl := Option.some.inj hs
        refine ⟨msgs, h.used, some speed, rfl, ?_⟩
        show history.delivered ++ [speed] = _
        rw [hdelivered, List.filterMap_append]
        rfl
  | computing =>
      obtain ⟨msg, hspeed, hdelivered⟩ := hunder
      obtain rfl := Option.some.inj hs
      refine ⟨msgs ++ [msg], ?_, ?_, hdelivered⟩
      · show (history.used ++ [_]).map Use.pair = _
        rw [List.map_append, Reactive.outputs_append, h.used]
        exact congrArg (_ ++ [·]) hspeed
      · show speed = _
        rw [Reactive.final_append]
        exact hspeed

theorem Link.Commands.step (h : s.Commands msgs) {a : Action}
    (hs : s.step a = some t) : ∃ msgs', t.Commands msgs' := by
  cases a with
  | receive data alloc => exact ⟨msgs, h.receive hs⟩
  | parser => exact ⟨msgs, h.stepParser hs⟩
  | control => exact h.stepControl hs

end Steps

theorem Link.Reachable.commands {next : ℕ → Option ℕ} {body : ℕ → Message}
    {s : Link} (h : Link.Reachable next body s) : ∃ msgs, s.Commands msgs := by
  refine Reach.inv (P := fun s : Link => ∃ msgs, s.Commands msgs) h
    ⟨[], Link.Commands.start next body⟩ ?_
  intro s a t hcommands hs
  obtain ⟨msgs, hcommands⟩ := hcommands
  exact hcommands.step hs

/-- What the iterations received is the beginning of what was delivered: all
of it, but for the message of an iteration that is not over. -/
theorem Link.Commands.received_prefix {s : Link} {msgs : List (Option Message)}
    (h : s.Commands msgs) : msgs.filterMap id <+: s.history.delivered := by
  have hunder := h.underway
  unfold Link.Underway at hunder
  cases hc : s.control with
  | recv =>
      rw [hc] at hunder
      rw [hunder.2]
  | copying msg k =>
      rw [hc] at hunder
      rw [hunder]
  | computing =>
      rw [hc] at hunder
      obtain ⟨msg, _, hdelivered⟩ := hunder
      rw [hdelivered, List.filterMap_append]
      exact List.prefix_append _ _

/-! ## The setpoints of a run -/

section Run

variable {T : Type} [Add T] [Sub T] [Mul T] [Div T] [Neg T] [LT T]
  [DecidableLT T] [RatCast T] [ToUInt32 T]

/-- The two setpoints of a command. -/
def setpoints (speed : T × T) : T × T :=
  (saturate (leftKinematics speed), saturate (rightKinematics speed))

/-- The two setpoints of an iteration. -/
def Iteration.setpoints (it : Iteration T) : T × T :=
  (it.leftSpeed, it.rightSpeed)

/-- A run of `speedThread` computes the setpoints of the pairs in force,
whatever its readings are. -/
theorem setpoints_of_messages (decode : Message → T × T) {s : SpeedThread T}
    {speed : Message} (hspeed : s.speed = decode speed) {inps : List (Inputs T)}
    {msgs : List (Option Message)}
    (hmsgs : List.Forall₂ (fun inp msg => inp.msg = msg.map decode) inps msgs) :
    (Reactive.outputs speedThread s inps).map Iteration.setpoints
      = (Reactive.outputs commandStep speed msgs).map
          fun c => setpoints (decode c) := by
  induction hmsgs generalizing s speed with
  | nil => rfl
  | @cons inp msg inps msgs hmsg _ ih =>
      have hforce : inp.msg.getD s.speed = decode (msg.getD speed) := by
        rw [hmsg, hspeed]
        cases msg <;> rfl
      have hnext : (speedThread s inp).1.speed = decode (msg.getD speed) := by
        rw [speedThread_speed, hforce]
      have hhead : (speedThread s inp).2.setpoints
          = DiffCar.setpoints (decode (msg.getD speed)) := by
        rw [← hforce]
        rfl
      rw [Reactive.outputs_cons, Reactive.outputs_cons, List.map_cons,
        List.map_cons, hhead, ih hnext]
      rfl

/-- **The link drives the control loop.** For every interleaving there are
messages, in the order of their delivery, on which any run of `speedThread`
computes exactly the setpoints of the pairs that the iterations used. -/
theorem Link.Reachable.setpoints {next : ℕ → Option ℕ} {body : ℕ → Message}
    {s : Link} (h : Link.Reachable next body s) (decode : Message → T × T)
    (hzero : decode zeroPair = (((0 : ℚ) : T), ((0 : ℚ) : T))) :
    ∃ msgs : List (Option Message), msgs.filterMap id <+: s.history.delivered
      ∧ ∀ (mem : Stack T) (inps : List (Inputs T)),
        List.Forall₂ (fun inp msg => inp.msg = msg.map decode) inps msgs →
        (Reactive.outputs speedThread (SpeedThread.start mem) inps).map
            Iteration.setpoints
          = s.history.used.map fun u => DiffCar.setpoints (decode u.pair) := by
  obtain ⟨msgs, hcommands⟩ := h.commands
  refine ⟨msgs, hcommands.received_prefix, ?_⟩
  intro mem inps hmsgs
  have hrun := setpoints_of_messages decode (s := SpeedThread.start mem)
    hzero.symm hmsgs
  rw [hrun, ← hcommands.used, List.map_map]
  rfl

end Run

end DiffCar
