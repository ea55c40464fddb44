import DiffCar.Lib.Reactive
import DiffCar.Lib.WrapCounter

/-!
# Button — a debounced key

`applications/button.h`. A poll, `isTrigger` or `isPress`, reads the pin in
the condition of its `if` and, where that fails, once more in the condition of
its `else if`. Neither branch is taken when the second read is active and the
first was not, or when it continues a press that has started; the poll then
compares the tick with `_last_t`.

`Readings` is what the calls inside a poll return. `Poll` places them on a
clock that does not wrap; the registers show its instants modulo `2^32`.
-/

namespace DiffCar

/-- The members of `class Button` that its polls use. `lastT` is not
initialised by the constructor. -/
structure Button where
  state : Bool
  jitter : BitVec 16
  lastT : BitVec 32
  start : Bool
  triggered : Bool
  deriving DecidableEq

/-- `Button::Button`, in memory that held `mem` in `_last_t`. -/
def Button.construct (mem : BitVec 32) (state : Bool) (jitter : BitVec 16) :
    Button :=
  { state := state
    jitter := jitter
    lastT := mem
    start := false
    triggered := false }

/-- What the calls of one poll return, in the order of the source:
`rt_pin_read` twice, `rt_tick_get` for `_last_t` and for `now`. -/
structure Readings where
  first : ℤ
  second : ℤ
  startTick : BitVec 32
  now : BitVec 32

/-- `RT_TICK_PER_SECOND`. -/
def rtTickPerSecond : BitVec 32 := 1000

section Source

variable (b : Button) (r : Readings)

/-- `rt_pin_read(_gpio) == _state`, the `bool` promoted to `int`. -/
def Button.isActive (level : ℤ) : Bool := level == b.state.toInt

/-- The condition of the `if`. -/
def Button.begins : Bool := b.isActive r.first && !b.start

/-- The `if` and the `else if`: the members after them, and whether the poll
goes on to the comparison. -/
def Button.sample : Button × Bool :=
  if b.begins r then
    ({ b with start := true, lastT := r.startTick, triggered := false }, true)
  else if !b.isActive r.second then
    ({ b with start := false }, false)
  else (b, true)

/-- `(now - _last_t) * 1000 / RT_TICK_PER_SECOND >= _jitter`, in
`rt_uint32_t`. -/
def Button.elapsed (now : BitVec 32) : Bool :=
  b.jitter.setWidth 32 ≤ (now - b.lastT) * 1000 / rtTickPerSecond

/-- **The elapsed time as the comparison sees it**: the product wraps. -/
theorem Button.elapsed_iff {b : Button} {start now : ℕ}
    (hlast : b.lastT = .ofNat 32 start) (h : start ≤ now) :
    b.elapsed (.ofNat 32 now) = true
      ↔ b.jitter.toNat * 1000 ≤ (now - start) * 1000 % 2 ^ 32 := by
  have hj : b.jitter.toNat < 2 ^ 32 :=
    lt_of_lt_of_le b.jitter.isLt (by decide)
  rw [elapsed, decide_eq_true_eq, BitVec.le_def, BitVec.toNat_setWidth,
    Nat.mod_eq_of_lt hj, BitVec.toNat_udiv, BitVec.toNat_mul, hlast,
    WrapCounter.toNat_sub_ofNat h]
  have hmul : ((now - start) % 2 ^ 32 * BitVec.toNat (1000 : BitVec 32)) % 2 ^ 32
      = (now - start) * 1000 % 2 ^ 32 := Nat.mod_mul_mod _ _ _
  rw [hmul]
  exact Nat.le_div_iff_mul_le (by decide)

/-- The wrap never makes the time seem longer. -/
theorem Button.le_of_elapsed {b : Button} {start now : ℕ}
    (hlast : b.lastT = .ofNat 32 start) (h : start ≤ now)
    (he : b.elapsed (.ofNat 32 now) = true) :
    start + b.jitter.toNat ≤ now := by
  have hle := (elapsed_iff hlast h).mp he
  have hmod : (now - start) * 1000 % 2 ^ 32 ≤ (now - start) * 1000 := Nat.mod_le _ _
  omega

/-- `Button::isTrigger`. -/
def Button.isTrigger : Button × Bool :=
  match b.sample r with
  | (b, false) => (b, false)
  | (b, true) =>
      if b.elapsed r.now && !b.triggered then ({ b with triggered := true }, true)
      else (b, false)

/-- `Button::isPress`. -/
def Button.isPress : Button × Bool :=
  match b.sample r with
  | (b, false) => (b, false)
  | (b, true) => if b.elapsed r.now then (b, true) else (b, false)

end Source

/-! ## Polls on a clock -/

/-- The two methods. -/
inductive ButtonMethod where
  | isTrigger
  | isPress
  deriving DecidableEq

/-- One call of a method. -/
def Button.call (b : Button) (r : Readings) : ButtonMethod → Button × Bool
  | .isTrigger => b.isTrigger r
  | .isPress => b.isPress r

/-- What a method does once it reaches the comparison: `isTrigger` answers
once and remembers it in `_triggered`. -/
def Button.compare (b : Button) (m : ButtonMethod) (now : BitVec 32) : Button × Bool :=
  ({ b with triggered := b.triggered || m == .isTrigger && b.elapsed now },
    b.elapsed now && !(m == .isTrigger && b.triggered))

theorem Button.elapsed_of_compare {b : Button} {m : ButtonMethod} {now : BitVec 32}
    (h : (b.compare m now).2 = true) : b.elapsed now = true :=
  (Bool.and_eq_true_iff.mp h).1

theorem Button.compare_of_elapsed {b : Button} {now : BitVec 32}
    (he : b.elapsed now = true) (ht : b.triggered = false) (m : ButtonMethod) :
    (b.compare m now).2 = true := by
  simp [compare, he, ht]

/-- Both methods in one form. -/
theorem Button.call_eq (b : Button) (r : Readings) (m : ButtonMethod) :
    b.call r m = match b.sample r with
      | (b, false) => (b, false)
      | (b, true) => b.compare m r.now := by
  cases m with
  | isTrigger =>
      simp only [call, isTrigger]
      rcases b.sample r with ⟨⟨state, jitter, lastT, start, triggered⟩, _ | _⟩
      · rfl
      · cases hd : Button.elapsed ⟨state, jitter, lastT, start, triggered⟩ r.now <;>
          cases triggered <;> simp [compare, hd]
  | isPress =>
      simp only [call, isPress]
      rcases b.sample r with ⟨⟨state, jitter, lastT, start, triggered⟩, _ | _⟩
      · rfl
      · cases hd : Button.elapsed ⟨state, jitter, lastT, start, triggered⟩ r.now <;>
          simp [compare, hd]

/-- A poll without its instants: the method and what its reads of the pin
return. `second` is what the second read would return where it is not made. -/
structure Sample where
  method : ButtonMethod
  first : ℤ
  second : ℤ
  deriving DecidableEq

/-- A poll and the instants, in ticks, of what it does: of the first read, of
the second read or of `_last_t = rt_tick_get()` in its place, of
`now = rt_tick_get()`. -/
structure Poll extends Sample where
  firstAt : ℕ
  secondAt : ℕ
  now : ℕ
  deriving DecidableEq

/-- What the calls inside the poll return. -/
def Poll.readings (p : Poll) : Readings where
  first := p.first
  second := p.second
  startTick := .ofNat 32 p.secondAt
  now := .ofNat 32 p.now

/-- One `rt_pin_read`: its result and its instant. -/
structure PinRead where
  level : ℤ
  instant : ℕ
  deriving DecidableEq

/-- What of a poll is seen: its result and the reads it made. -/
structure Polled where
  result : Bool
  reads : List PinRead
  deriving DecidableEq

/-- The reads a poll makes of the pin: the `else if` reads it again. -/
def Button.pinReads (b : Button) (p : Poll) : List PinRead :=
  if b.begins p.readings then [⟨p.first, p.firstAt⟩]
  else [⟨p.first, p.firstAt⟩, ⟨p.second, p.secondAt⟩]

/-- One poll: the object after it and what of it is seen. -/
def Button.poll (b : Button) (p : Poll) : Button × Polled :=
  let r := b.call p.readings p.method
  (r.1, { result := r.2, reads := b.pinReads p })

/-- **A poll by its reads**: it begins a press, gives it up, or goes on with
what the last press left. -/
theorem Button.poll_cases (b : Button) (p : Poll) :
    (b.isActive p.first = true ∧ b.start = false ∧
        b.pinReads p = [⟨p.first, p.firstAt⟩] ∧
        ((b.poll p).1, (b.poll p).2.result)
          = Button.compare { b with
              start := true, lastT := .ofNat 32 p.secondAt, triggered := false }
            p.method (.ofNat 32 p.now)) ∨
      ((b.isActive p.first = true → b.start = true) ∧
        b.pinReads p = [⟨p.first, p.firstAt⟩, ⟨p.second, p.secondAt⟩] ∧
        (b.isActive p.second = false ∧
            (b.poll p).1 = { b with start := false } ∧ (b.poll p).2.result = false ∨
          b.isActive p.second = true ∧
            ((b.poll p).1, (b.poll p).2.result)
              = b.compare p.method (.ofNat 32 p.now))) := by
  have hpoll : ((b.poll p).1, (b.poll p).2.result) = b.call p.readings p.method := rfl
  by_cases hb : b.begins p.readings
  · left
    have hb' : b.isActive p.first = true ∧ b.start = false := by
      simpa [begins, Poll.readings] using hb
    refine ⟨hb'.1, hb'.2, ?_, ?_⟩
    · rw [pinReads, if_pos hb]
    · rw [hpoll, call_eq, sample, if_pos hb]
      rfl
  · right
    have hb' : b.isActive p.first = true → b.start = true := by
      intro hf
      by_contra hs
      exact hb (by simp [begins, Poll.readings, hf, hs])
    refine ⟨hb', ?_, ?_⟩
    · rw [pinReads, if_neg hb]
    · by_cases h2 : b.isActive p.second
      · right
        have hgo : (!b.isActive p.readings.second) = false := by
          simpa [Poll.readings] using h2
        refine ⟨h2, ?_⟩
        rw [hpoll, call_eq, sample, if_neg hb, hgo]
        rfl
      · left
        have hgo : (!b.isActive p.readings.second) = true := by
          simpa [Poll.readings] using h2
        rw [call_eq, sample, if_neg hb, if_pos hgo, Prod.mk.injEq] at hpoll
        exact ⟨by simpa using h2, hpoll.1, hpoll.2⟩

/-- The object after the polls `past`. -/
def Button.after (b : Button) (past : List Poll) : Button :=
  Reactive.final Button.poll b past

/-- The reads made by the polls `past`. -/
def Button.readsOf (b : Button) (past : List Poll) : List PinRead :=
  (Reactive.outputs Button.poll b past).flatMap Polled.reads

/-- What the poll `p` after the polls `past` returns. -/
def Button.answer (b : Button) (past : List Poll) (p : Poll) : Bool :=
  ((b.after past).poll p).2.result

/-- The instants of the polls, in the order of what happens at them. -/
def instants (ps : List Poll) : List ℕ :=
  ps.flatMap fun p => [p.firstAt, p.secondAt, p.now]

/-- Time does not run backwards. -/
def Ordered (ps : List Poll) : Prop := (instants ps).Pairwise (· ≤ ·)

instance (ps : List Poll) : Decidable (Ordered ps) :=
  inferInstanceAs (Decidable (List.Pairwise _ _))

section Runs

variable {b : Button} {past ps : List Poll} {p : Poll}

@[simp] theorem Button.after_concat :
    b.after (past ++ [p]) = ((b.after past).poll p).1 := by
  rw [after, Reactive.final_append]
  rfl

@[simp] theorem Button.readsOf_concat :
    b.readsOf (past ++ [p]) = b.readsOf past ++ (b.after past).pinReads p := by
  rw [readsOf, Reactive.outputs_append, List.flatMap_append]
  simp [readsOf, after, poll]

@[simp] theorem instants_concat :
    instants (past ++ [p]) = instants past ++ [p.firstAt, p.secondAt, p.now] := by
  simp [instants]

theorem Ordered.of_prefix (h : Ordered ps) (hp : past <+: ps) : Ordered past := by
  obtain ⟨rest, rfl⟩ := hp
  rw [Ordered, instants, List.flatMap_append] at h
  exact (List.pairwise_append.mp h).1

/-- Nothing that has happened is later than the last reading of the tick. -/
theorem Ordered.le_now (h : Ordered (past ++ [p])) {t : ℕ}
    (ht : t ∈ instants (past ++ [p])) : t ≤ p.now := by
  have hsplit : instants (past ++ [p])
      = (instants past ++ [p.firstAt, p.secondAt]) ++ [p.now] := by simp
  rw [Ordered, hsplit, List.pairwise_append] at h
  rw [hsplit, List.mem_append, List.mem_singleton] at ht
  rcases ht with ht | rfl
  · exact h.2.2 t ht _ (by simp)
  · exact le_rfl

theorem secondAt_mem_instants (hp : p ∈ ps) : p.secondAt ∈ instants ps :=
  List.mem_flatMap.mpr ⟨p, hp, by simp⟩

end Runs

end DiffCar
