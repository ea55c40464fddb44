import DiffCar.Pid
import DiffCar.Lib.Reactive

/-!
# PidHistory — a controller over its calls

What a `Pid` object does over a history of calls of `setRef` and `calc`. The
references and feedbacks enter only as the errors of the `calc` calls, and
only `_sum` and `_pre_err` change from call to call: over any history the
object is the machine `errStep`, run on the errors from these two members
(`returns_eq`). The results about histories are proved on that machine.
-/

namespace DiffCar

/-- The calls the program makes on a `Pid` object. -/
inductive PidCall (T : Type) where
  | setRef (ref : T)
  | calc (feed : T)

section Generic

variable {T : Type} [Add T] [Sub T] [Mul T] [LT T] [DecidableLT T] [RatCast T]

/-- One call: the object after it, and the value if it is one of `calc`. -/
def Pid.call (s : Pid T) : PidCall T → Pid T × Option T
  | .setRef ref => (s.setRef ref, none)
  | .calc feed => ((s.calc feed).1, some (s.calc feed).2)

/-- The object after a history of calls. -/
def Pid.after (s : Pid T) (cs : List (PidCall T)) : Pid T :=
  Reactive.final Pid.call s cs

/-- The values the `calc` calls of a history return, in order. -/
def Pid.returns (s : Pid T) (cs : List (PidCall T)) : List T :=
  (Reactive.outputs Pid.call s cs).filterMap id

/-- The errors of the `calc` calls of a history that starts with this
reference. -/
def errors (ref : T) : List (PidCall T) → List T
  | [] => []
  | .setRef ref' :: cs => errors ref' cs
  | .calc feed :: cs => (ref - feed) :: errors ref cs

/-- A call of `calc` by its error: the next `_sum` and `_pre_err`, and the
returned value. The object gives the gains and the limits. -/
def Pid.errStep (s : Pid T) (st : T × T) (err : T) : (T × T) × T :=
  let sum := s.clampSum (st.1 + err)
  ((sum, err), s.clampOut (s.p * err + s.i * sum + s.d * (st.2 - err)))

omit [Add T] [Mul T] [LT T] [DecidableLT T] [RatCast T] in
@[simp] theorem errors_setRef (ref ref' : T) (cs : List (PidCall T)) :
    errors ref (.setRef ref' :: cs) = errors ref' cs := rfl

omit [Add T] [Mul T] [LT T] [DecidableLT T] [RatCast T] in
@[simp] theorem errors_calc (ref feed : T) (cs : List (PidCall T)) :
    errors ref (.calc feed :: cs) = (ref - feed) :: errors ref cs := rfl

/-- **Over a history the object is its machine of errors**: what it returns. -/
theorem Pid.returns_eq (s : Pid T) (cs : List (PidCall T)) :
    s.returns cs
      = Reactive.outputs s.errStep (s.sum, s.preErr) (errors s.ref cs) := by
  induction cs generalizing s with
  | nil => rfl
  | cons c cs ih =>
      rcases c with ref | feed
      · exact ih (s.setRef ref)
      · exact congrArg (_ :: ·) (ih (s.calc feed).1)

/-- From the construction on, memory enters by the two members. -/
theorem Pid.returns_construct (mem : Pid T) (ref p i d max min : T)
    (cs : List (PidCall T)) :
    (Pid.construct mem ref p i d max min).returns cs
      = Reactive.outputs (Pid.construct mem ref p i d max min).errStep
          (mem.sum, mem.preErr) (errors ref cs) :=
  Pid.returns_eq _ cs

/-- And what it leaves in the two members that change. -/
theorem Pid.after_eq (s : Pid T) (cs : List (PidCall T)) :
    ((s.after cs).sum, (s.after cs).preErr)
      = Reactive.final s.errStep (s.sum, s.preErr) (errors s.ref cs) := by
  induction cs generalizing s with
  | nil => rfl
  | cons c cs ih =>
      rcases c with ref | feed
      · exact ih (s.setRef ref)
      · exact ih (s.calc feed).1

/-- No call changes the gains and the limits. -/
theorem Pid.errStep_after (s : Pid T) (cs : List (PidCall T)) :
    (s.after cs).errStep = s.errStep := by
  induction cs generalizing s with
  | nil => rfl
  | cons c cs ih =>
      rcases c with ref | feed
      · exact ih (s.setRef ref)
      · exact ih (s.calc feed).1

/-- What a history returns that follows another one. -/
theorem Pid.returns_after (s : Pid T) (cs ds : List (PidCall T)) :
    (s.after cs).returns ds
      = Reactive.outputs s.errStep
          (Reactive.final s.errStep (s.sum, s.preErr) (errors s.ref cs))
          (errors (s.after cs).ref ds) := by
  rw [Pid.returns_eq, Pid.errStep_after, Pid.after_eq]

omit [Add T] [Mul T] [LT T] [DecidableLT T] [RatCast T] in
/-- Every list of errors is that of some history. -/
theorem errors_surjective {z : T} (hz : ∀ x : T, z - (z - x) = x) (es : List T) :
    errors z (es.map fun e => .calc (z - e)) = es := by
  induction es with
  | nil => rfl
  | cons e es ih => rw [List.map_cons, errors_calc, hz, ih]

end Generic

end DiffCar
