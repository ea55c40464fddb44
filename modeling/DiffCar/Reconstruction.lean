import DiffCar.CalcSpeed
import DiffCar.Lib.Reactive
import Mathlib.Tactic.Ring

/-!
# Reconstruction — what the readings say about the wheel

The physical side of an encoder: between two readings the wheel turns by a
signed number of counts and some ticks pass (`Move`). The timer registers and
the tick counter follow modulo their widths (`Wheel`), and `calc()` sees only
these. `Tracks` ties the object's reference reading to them; with it every
call recovers the displacement and the elapsed time, however often either
counter has wrapped.
-/

namespace DiffCar

/-- What happens between the previous reading and the reading of this call;
for the first call, between its two readings. -/
structure Move where
  disp : ℤ
  elapsed : ℕ
  stale : BitVec 16

/-- The registers a `CalcSpeed` reads. -/
structure Wheel where
  tim : Timers
  tick : BitVec 32

/-- The registers after a move of the wheel on the named encoder. -/
def Wheel.after (w : Wheel) (name : String) (m : Move) : Wheel where
  tim := w.tim.turn name m.disp
  tick := w.tick + BitVec.ofNat 32 m.elapsed

/-- What a call reads when this move precedes its reading. -/
def Wheel.reads (w : Wheel) (name : String) (m : Move) : Reads where
  firstTick := w.tick
  firstTim := w.tim
  tim := (w.after name m).tim
  tick := (w.after name m).tick
  stale := m.stale

/-- The displacements and the times the code promises to tell apart: less
than half the range of the counter, less than the range of the tick. -/
structure Move.Fits (m : Move) : Prop where
  disp : |m.disp| < 2 ^ 15
  elapsed : m.elapsed < 2 ^ 32

/-- The object's reference reading is the wheel's last reading. -/
structure Tracks {T : Type} (s : CalcSpeed T) (w : Wheel) : Prop where
  encoder : IsEncoder s.encodeName
  lastCnt : s.first = false → encodeCounter s.encodeName w.tim = some s.lastCnt
  lastTime : s.first = false → s.lastTime = w.tick

section Generic

variable {T : Type}

theorem Tracks.of_first {s : CalcSpeed T} (he : IsEncoder s.encodeName)
    (hf : s.first = true) (w : Wheel) : Tracks s w where
  encoder := he
  lastCnt := fun h => absurd (hf.symm.trans h) (by decide)
  lastTime := fun h => absurd (hf.symm.trans h) (by decide)

/-- Whether or not this is the first call, after `if(_first)` the reference
is what the registers show before the move. -/
theorem Tracks.initialise {s : CalcSpeed T} {w : Wheel} (h : Tracks s w)
    (m : Move) :
    encodeCounter s.encodeName w.tim
        = some (s.initialise (w.reads s.encodeName m)).lastCnt
      ∧ (s.initialise (w.reads s.encodeName m)).lastTime = w.tick := by
  obtain ⟨c, hc⟩ := h.encoder.read w.tim
  cases hf : s.first with
  | true =>
      -- the first call takes its reference from the registers
      rw [CalcSpeed.initialise, hf, if_pos rfl]
      refine ⟨?_, rfl⟩
      show encodeCounter s.encodeName w.tim
        = some ((encodeCounter s.encodeName w.tim).getD s.lastCnt)
      rw [hc, Option.getD_some]
  | false =>
      rw [initialise_of_not_first hf]
      exact ⟨h.lastCnt hf, h.lastTime hf⟩

/-- The counter reading of a call is the reference plus the displacement. -/
theorem Tracks.nowCnt {s : CalcSpeed T} {w : Wheel} (h : Tracks s w) (m : Move) :
    s.nowCnt (w.reads s.encodeName m)
      = (s.initialise (w.reads s.encodeName m)).lastCnt
        + BitVec.ofInt 16 m.disp := by
  have hread := h.encoder.read_turn w.tim (h.initialise m).1 m.disp
  show (encodeCounter s.encodeName (w.tim.turn s.encodeName m.disp)).getD _ = _
  rw [hread, Option.getD_some]

/-- **`diff_cnt` is the displacement.** -/
theorem Tracks.diffCnt {s : CalcSpeed T} {w : Wheel} (h : Tracks s w) {m : Move}
    (hm : |m.disp| < 2 ^ 15) :
    (s.diffCnt (w.reads s.encodeName m)).toInt = m.disp := by
  obtain ⟨hlo, hhi⟩ := abs_lt.mp hm
  rw [CalcSpeed.diffCnt, h.nowCnt m]
  exact WrapCounter.toInt_signedDiff _ (by omega) (by omega)

/-- `diff_t` is the elapsed time, at least one tick. -/
theorem Tracks.diffT {s : CalcSpeed T} {w : Wheel} (h : Tracks s w) {m : Move}
    (hm : m.elapsed < 2 ^ 32) :
    (s.diffT (w.reads s.encodeName m)).toNat = max 1 m.elapsed := by
  have hsub : (w.reads s.encodeName m).tick
        - (s.initialise (w.reads s.encodeName m)).lastTime
      = w.tick + BitVec.ofNat 32 m.elapsed - w.tick := by
    rw [(h.initialise m).2]
    rfl
  have hnat := WrapCounter.toNat_elapsed w.tick hm
  simp only [CalcSpeed.diffT, hsub]
  -- below 2^32 ticks the wrapped difference is zero for no time only
  split
  · rename_i hzero
    have hzero : m.elapsed = 0 := by rw [← hnat, hzero]; rfl
    rw [hzero]
    rfl
  · rename_i hne
    have hpos : m.elapsed ≠ 0 := by
      intro hzero
      exact hne (BitVec.eq_of_toNat_eq (by rw [hnat, hzero]; rfl))
    rw [hnat]
    omega

variable [RatCast T] [Mul T] [Div T]

/-- The reading a call leaves behind is the next call's reference. -/
theorem Tracks.sampled {s : CalcSpeed T} {w : Wheel} (h : Tracks s w) (m : Move) :
    Tracks (s.sampled (w.reads s.encodeName m)) (w.after s.encodeName m) where
  encoder := by
    rw [sampled_encodeName]
    exact h.encoder
  lastCnt := fun _ => by
    rw [sampled_encodeName, sampled_lastCnt, h.nowCnt m]
    exact h.encoder.read_turn w.tim (h.initialise m).1 m.disp
  lastTime := fun _ => rfl

end Generic

/-- The rate a move stands for, in revolutions per minute. -/
def Move.rate (m : Move) (cpr : BitVec 16) : ℚ :=
  m.disp * 60000 / cpr.toNat / (max 1 m.elapsed : ℕ)

theorem Tracks.rpm {s : CalcSpeed ℚ} {w : Wheel} (h : Tracks s w) {m : Move}
    (hm : m.Fits) : s.rpm (w.reads s.encodeName m) = m.rate s.cpr := by
  rw [CalcSpeed.rpm, h.diffCnt hm.disp, h.diffT hm.elapsed, Move.rate]
  simp only [Rat.cast_id]
  ring

/-- One `calc()` in the physical world: the object and the registers after
it, and the counts it consumed. -/
def encoderStep (st : CalcSpeed ℚ × Wheel) (m : Move) :
    (CalcSpeed ℚ × Wheel) × ℤ :=
  let r := st.2.reads st.1.encodeName m
  (((st.1.calc r).1, st.2.after st.1.encodeName m), (st.1.diffCnt r).toInt)

theorem encoderStep_tracks (st : CalcSpeed ℚ × Wheel) (m : Move)
    (h : Tracks st.1 st.2) :
    Tracks (encoderStep st m).1.1 (encoderStep st m).1.2 :=
  h.sampled m

theorem encoderStep_cpr (st : CalcSpeed ℚ × Wheel) (m : Move) :
    (encoderStep st m).1.1.cpr = st.1.cpr :=
  sampled_cpr st.1 _

/-- The counts consumed add up to the total displacement. -/
theorem consumed_sum {st : CalcSpeed ℚ × Wheel} (h : Tracks st.1 st.2)
    {ms : List Move} (hms : ∀ m ∈ ms, m.Fits) :
    (Reactive.outputs encoderStep st ms).sum = (ms.map Move.disp).sum := by
  induction ms generalizing st with
  | nil => rfl
  | cons m ms ih =>
      have hm : m.Fits := hms m (by simp)
      rw [Reactive.outputs_cons, List.sum_cons, List.map_cons, List.sum_cons,
        ih (encoderStep_tracks st m h) (fun m' hm' => hms m' (by simp [hm']))]
      exact congrArg (· + _) (h.diffCnt hm.disp)

/-- **Encoder reconstruction.** From any counter and tick, on either encoder,
over any number of calls: each call pushes exactly the rate of the move
before it, and the counts consumed so far are the displacement so far. -/
theorem encoder_reconstruction (n : ℕ) (mem : ℕ → ℚ) (name : String)
    (hname : IsEncoder name) (cpr : BitVec 16) (w : Wheel) (ms : List Move)
    (hms : ∀ m ∈ ms, m.Fits) (k : ℕ) (hk : k < ms.length) :
    let st₀ := (CalcSpeed.construct n mem name cpr, w)
    let st := Reactive.final encoderStep st₀ (ms.take k)
    (encoderStep st ms[k]).1.1.filter
        = (st.1.filter.push
            (ms[k].disp * 60000 / cpr.toNat / (max 1 ms[k].elapsed : ℕ))).1
      ∧ (Reactive.outputs encoderStep st₀ (ms.take (k + 1))).sum
        = ((ms.take (k + 1)).map Move.disp).sum := by
  intro st₀ st
  have htracks₀ : Tracks st₀.1 st₀.2 := Tracks.of_first hname rfl w
  have hinv : Tracks st.1 st.2 ∧ st.1.cpr = cpr :=
    Reactive.final_inv
      (P := fun st => Tracks st.1 st.2 ∧ st.1.cpr = cpr) (A := fun _ => True)
      (fun st m h _ =>
        ⟨encoderStep_tracks st m h.1, (encoderStep_cpr st m).trans h.2⟩)
      ⟨htracks₀, rfl⟩ (fun _ _ => trivial)
  have hfits : ms[k].Fits := hms _ (List.getElem_mem hk)
  constructor
  · show (st.1.filter.push (st.1.rpm _)).1 = _
    rw [hinv.1.rpm hfits, hinv.2]
    rfl
  · exact consumed_sum htracks₀ fun m hm => hms m (List.mem_of_mem_take hm)

/-- The counter passes its top and the tick its `2^32`, then the wheel turns
back within one tick. -/
def wrappingMoves : List Move := [⟨5, 3, 0⟩, ⟨-7, 0, 0⟩]

theorem encoder_reconstruction_wrapping :
    (Reactive.outputs encoderStep
        (CalcSpeed.construct 50 (fun _ => 0) "htm4" 32000,
          ⟨⟨0, 65534⟩, BitVec.ofNat 32 (2 ^ 32 - 1)⟩)
        wrappingMoves).sum = -2 :=
  (encoder_reconstruction 50 (fun _ => 0) "htm4" (.inr rfl) 32000
    ⟨⟨0, 65534⟩, BitVec.ofNat 32 (2 ^ 32 - 1)⟩ wrappingMoves
    (by
      intro m hm
      simp only [wrappingMoves, List.mem_cons, List.not_mem_nil, or_false] at hm
      rcases hm with rfl | rfl <;> exact ⟨by decide, by decide⟩)
    1 (by decide)).2

end DiffCar
