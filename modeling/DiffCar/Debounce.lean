import DiffCar.Button
import DiffCar.Lib.Hold

/-!
# Debounce — what a press is

The pin is constant within every poll. A hold is a run of polls that see the
active level; `isPress` is to answer once the hold is `_jitter` milliseconds
old, `isTrigger` at the first of its polls in the hold for which that is so.
The button is a detector of holds in the sense of `Hold`, with an age that the
product by 1000 wraps: it is the slower of two detectors, and meets the
specification exactly where the wrap hides no age that is due.
-/

namespace DiffCar

/-- The poll sees the active level. -/
def Poll.isActive (state : Bool) (p : Poll) : Bool := p.first == state.toInt

/-- The poll is one of `isTrigger`. -/
def Poll.isTrigger (p : Poll) : Bool := p.method == .isTrigger

/-- At least `jitter` milliseconds have passed at `p` since the poll `s`. -/
def Settled (jitter : BitVec 16) (s p : Poll) : Prop :=
  jitter.toNat ≤ p.now - s.secondAt

/-- The same as the code sees it. -/
def Shown (jitter : BitVec 16) (s p : Poll) : Prop :=
  jitter.toNat * 1000 ≤ (p.now - s.secondAt) * 1000 % 2 ^ 32

instance (jitter : BitVec 16) : DecidableRel (Settled jitter) :=
  fun _ _ => inferInstanceAs (Decidable (_ ≤ _))

instance (jitter : BitVec 16) : DecidableRel (Shown jitter) :=
  fun _ _ => inferInstanceAs (Decidable (_ ≤ _))

/-- **The specification**: the poll `p` is to return `true` after the polls
`past` when it is active, its hold has settled and, for `isTrigger`, had not
settled at an earlier `isTrigger` poll of the hold. -/
def Specified (state : Bool) (jitter : BitVec 16) (past : List Poll) (p : Poll) :
    Prop :=
  Hold.Expected (Poll.isActive state) Poll.isTrigger (Settled jitter) past p

/-- The pin does not change within a poll. -/
def ConstantWithin (ps : List Poll) : Prop := ∀ p ∈ ps, p.second = p.first

/-- Every hold is shorter than `2^32` ticks. -/
def ShortHolds (state : Bool) (ps : List Poll) : Prop :=
  ∀ past p, past ++ [p] <+: ps → p.isActive state →
    p.now - (Hold.first (Poll.isActive state) past p).firstAt < 2 ^ 32

theorem Shown.settled {jitter : BitVec 16} {s p : Poll} (h : Shown jitter s p) :
    Settled jitter s p := by
  have hmod : (p.now - s.secondAt) * 1000 % 2 ^ 32 ≤ (p.now - s.secondAt) * 1000 :=
    Nat.mod_le _ _
  unfold Shown at h
  unfold Settled
  omega

/-- The detector the button is. -/
abbrev shownStep (state : Bool) (jitter : BitVec 16) :
    Option (Poll × Bool) → Poll → Option (Poll × Bool) × Bool :=
  Hold.step (Poll.isActive state) Poll.isTrigger (Shown jitter)

/-- The members of the object are those of the detector in the state `σ`. -/
structure Button.Tracks (b : Button) (state : Bool) (jitter : BitVec 16)
    (σ : Option (Poll × Bool)) : Prop where
  state_eq : b.state = state
  jitter_eq : b.jitter = jitter
  start_eq : b.start = σ.isSome
  memory : ∀ s ∈ σ, b.lastT = .ofNat 32 s.1.secondAt ∧ b.triggered = s.2

section Simulation

variable {b : Button} {state : Bool} {jitter : BitVec 16} {σ : Option (Poll × Bool)}
  {p s : Poll}

theorem Button.Tracks.isActive_eq (h : b.Tracks state jitter σ) (level : ℤ) :
    b.isActive level = (level == state.toInt) := by
  rw [Button.isActive, h.state_eq]

/-- The comparison is one active observation of the detector. -/
theorem Button.Tracks.compare {fired : Bool}
    (h : b.Tracks state jitter (some (s, fired))) (hle : s.secondAt ≤ p.now) :
    Tracks (b.compare p.method (.ofNat 32 p.now)).1 state jitter
        (Hold.observe Poll.isTrigger (Shown jitter) s fired p).1 ∧
      (b.compare p.method (.ofNat 32 p.now)).2
        = (Hold.observe Poll.isTrigger (Shown jitter) s fired p).2 := by
  obtain ⟨hlast, htrig⟩ := h.memory _ rfl
  have helapsed : b.elapsed (.ofNat 32 p.now) = decide (Shown jitter s p) := by
    rw [Bool.eq_iff_iff, decide_eq_true_eq, Shown, ← h.jitter_eq]
    exact Button.elapsed_iff hlast hle
  constructor
  · exact {
      state_eq := h.state_eq
      jitter_eq := h.jitter_eq
      start_eq := h.start_eq
      memory := by
        intro x hx
        cases hx
        refine ⟨hlast, ?_⟩
        simp only [Button.compare, helapsed, htrig, Poll.isTrigger] }
  · simp only [Button.compare, Hold.observe, helapsed, htrig, Poll.isTrigger]

/-- A poll of the active level begins a hold or continues one. -/
theorem Button.Tracks.poll_active (h : b.Tracks state jitter σ)
    (hconst : p.second = p.first) (hσ : ∀ s ∈ σ, s.1.secondAt ≤ p.now)
    (hp : p.secondAt ≤ p.now) (ha : p.isActive state) :
    Tracks (b.poll p).1 state jitter (shownStep state jitter σ p).1 ∧
      (b.poll p).2.result = (shownStep state jitter σ p).2 := by
  have hfirst : b.isActive p.first = true := by
    rw [h.isActive_eq]
    exact ha
  rcases b.poll_cases p with ⟨_, hs, _, hcmp⟩ | ⟨hgo, _, ⟨hact, _⟩ | ⟨_, hcmp⟩⟩
  · have hnone : σ = none := by
      rw [← Option.isNone_iff_eq_none, ← Option.not_isSome, ← h.start_eq, hs]
      rfl
    have hstep : shownStep state jitter σ p
        = Hold.observe Poll.isTrigger (Shown jitter) p false p := by
      rw [hnone]
      exact Hold.step_none ha
    have hbegun : Tracks { b with
        start := true, lastT := .ofNat 32 p.secondAt, triggered := false }
        state jitter (some (p, false)) :=
      { h with start_eq := rfl, memory := by simp }
    rw [Prod.mk.injEq] at hcmp
    rw [hstep, hcmp.1, hcmp.2]
    exact hbegun.compare hp
  · rw [hconst, hfirst] at hact
    exact absurd hact (by simp)
  · obtain ⟨⟨s, fired⟩, rfl⟩ : ∃ s, σ = some s :=
      Option.isSome_iff_exists.mp (h.start_eq.symm.trans (hgo hfirst))
    have hstep : shownStep state jitter (some (s, fired)) p
        = Hold.observe Poll.isTrigger (Shown jitter) s fired p :=
      Hold.step_some ha
    rw [Prod.mk.injEq] at hcmp
    rw [hstep, hcmp.1, hcmp.2]
    exact h.compare (hσ _ rfl)

/-- A poll of the inactive level ends it. -/
theorem Button.Tracks.poll_inactive (h : b.Tracks state jitter σ)
    (hconst : p.second = p.first) (ha : ¬ p.isActive state) :
    Tracks (b.poll p).1 state jitter (shownStep state jitter σ p).1 ∧
      (b.poll p).2.result = (shownStep state jitter σ p).2 := by
  have hfirst : b.isActive p.first = false := by
    rw [h.isActive_eq]
    simpa [Poll.isActive] using ha
  have hstep : shownStep state jitter σ p = (none, false) := Hold.step_inactive ha
  rw [hstep]
  rcases b.poll_cases p with ⟨hact, _⟩ | ⟨_, _, ⟨_, hafter, hres⟩ | ⟨hact, _⟩⟩
  · rw [hfirst] at hact
    exact absurd hact (by simp)
  · refine ⟨?_, hres⟩
    rw [hafter]
    exact { h with start_eq := rfl, memory := by simp }
  · rw [hconst, hfirst] at hact
    exact absurd hact (by simp)

/-- **One poll** is one observation of the detector. -/
theorem Button.Tracks.poll (h : b.Tracks state jitter σ) (hconst : p.second = p.first)
    (hσ : ∀ s ∈ σ, s.1.secondAt ≤ p.now) (hp : p.secondAt ≤ p.now) :
    Tracks (b.poll p).1 state jitter (shownStep state jitter σ p).1 ∧
      (b.poll p).2.result = (shownStep state jitter σ p).2 := by
  by_cases ha : p.isActive state
  · exact h.poll_active hconst hσ hp ha
  · exact h.poll_inactive hconst ha

/-- A new object has seen no hold. -/
theorem Button.Tracks.construct (mem : BitVec 32) (state : Bool) (jitter : BitVec 16) :
    (Button.construct mem state jitter).Tracks state jitter none where
  state_eq := rfl
  jitter_eq := rfl
  start_eq := rfl
  memory := by simp

end Simulation

section Runs

variable {b : Button} {mem : BitVec 32} {state : Bool} {jitter : BitVec 16}
  {past ps : List Poll} {p : Poll}

theorem ConstantWithin.of_prefix (h : ConstantWithin ps) (hp : past <+: ps) :
    ConstantWithin past :=
  fun q hq => h q (hp.subset hq)

/-- The instant a hold began at is past. -/
theorem hold_began {s : Poll × Bool}
    (hs : s ∈ Reactive.final (shownStep state jitter) none past)
    (hord : Ordered (past ++ [p])) : s.1.secondAt ≤ p.now := by
  have hmem : s.1 ∈ past := Hold.mem_of_final hs
  exact hord.le_now (secondAt_mem_instants (List.mem_append_left _ hmem))

/-- One poll of a run. -/
theorem Button.Tracks.poll_last
    (h : b.Tracks state jitter (Reactive.final (shownStep state jitter) none past))
    (hord : Ordered (past ++ [p])) (hconst : ConstantWithin (past ++ [p])) :
    Tracks (b.poll p).1 state jitter
        (shownStep state jitter (Reactive.final (shownStep state jitter) none past) p).1 ∧
      (b.poll p).2.result
        = (shownStep state jitter
            (Reactive.final (shownStep state jitter) none past) p).2 := by
  apply h.poll (hconst p (by simp))
  · intro s hs
    exact hold_began hs hord
  · exact hord.le_now (secondAt_mem_instants (by simp))

/-- **The button is the detector**, over every run. -/
theorem tracks_after (mem : BitVec 32) (state : Bool) (jitter : BitVec 16)
    (hord : Ordered ps) (hconst : ConstantWithin ps) :
    ((Button.construct mem state jitter).after ps).Tracks state jitter
      (Reactive.final (shownStep state jitter) none ps) := by
  induction ps using List.reverseRecOn with
  | nil => exact Button.Tracks.construct mem state jitter
  | append_singleton past p ih =>
      have hpre : past <+: past ++ [p] := past.prefix_append [p]
      have hpast := ih (hord.of_prefix hpre) (hconst.of_prefix hpre)
      rw [Button.after_concat, Reactive.final_append]
      exact (hpast.poll_last hord hconst).1

theorem answer_eq (hord : Ordered (past ++ [p])) (hconst : ConstantWithin (past ++ [p])) :
    (Button.construct mem state jitter).answer past p
      = Hold.answer (Poll.isActive state) Poll.isTrigger (Shown jitter) past p := by
  have hpre : past <+: past ++ [p] := past.prefix_append [p]
  have hpast := tracks_after mem state jitter (hord.of_prefix hpre)
    (hconst.of_prefix hpre)
  exact (hpast.poll_last hord hconst).2

/-- At one poll, meeting the specification is agreeing with the detector that
sees the true age. -/
theorem meets_iff (hord : Ordered (past ++ [p])) (hconst : ConstantWithin (past ++ [p])) :
    ((Button.construct mem state jitter).answer past p = true
        ↔ Specified state jitter past p)
      ↔ Hold.answer (Poll.isActive state) Poll.isTrigger (Shown jitter) past p
          = Hold.answer (Poll.isActive state) Poll.isTrigger (Settled jitter) past p := by
  rw [answer_eq hord hconst, Specified, ← Hold.answer_iff]
  exact Bool.eq_iff_iff.symm

/-- **When the button debounces**: it returns what it is to return at every
poll of a run exactly when, at every poll that is to return `true`, the age of
the hold in milliseconds, its product by 1000 taken modulo `2^32`, still
reaches `_jitter`. -/
theorem debounce_iff (mem : BitVec 32) (state : Bool) (jitter : BitVec 16)
    (ps : List Poll) (hord : Ordered ps) (hconst : ConstantWithin ps) :
    (∀ past p, past ++ [p] <+: ps →
        ((Button.construct mem state jitter).answer past p = true
          ↔ Specified state jitter past p))
      ↔ ∀ past p, past ++ [p] <+: ps → Specified state jitter past p →
          jitter.toNat * 1000
            ≤ (p.now - (Hold.first (Poll.isActive state) past p).secondAt) * 1000
              % 2 ^ 32 := by
  have hweak : ∀ s q, Shown jitter s q → Settled jitter s q := fun _ _ h => h.settled
  have hagree := Hold.answers_agree_iff (Poll.isActive state) Poll.isTrigger hweak ps
  constructor
  · intro h
    apply hagree.mp
    intro past p hp
    exact (meets_iff (hord.of_prefix hp) (hconst.of_prefix hp)).mp (h past p hp)
  · intro h past p hp
    apply (meets_iff (hord.of_prefix hp) (hconst.of_prefix hp)).mpr
    exact hagree.mpr h past p hp

/-- A call of `isPress` at the tick `t` that sees the low level. -/
def lowAt (t : ℕ) : Poll := ⟨⟨.isPress, 0, 0⟩, t, t, t⟩

/-- A key held down, polled at the tick 0 and 4294968 ticks later. -/
def longPress : List Poll := [lowAt 0, lowAt 4294968]

/-- The second poll is to return `true`, and the wrapped product is 704. -/
theorem debounce_broken :
    Ordered longPress ∧ ConstantWithin longPress ∧ ShortHolds false longPress ∧
      ¬ ∀ past p, past ++ [p] <+: longPress →
        ((Button.construct 0 false 30).answer past p = true
          ↔ Specified false 30 past p) := by
  refine ⟨by decide, ?_, ?_, ?_⟩
  · simp [ConstantWithin, longPress, lowAt]
  · intro past p hp _
    have hmem : p ∈ longPress := hp.subset (by simp)
    have hnow : ∀ q ∈ longPress, q.now < 2 ^ 32 := by decide
    have hlt := hnow p hmem
    omega
  · intro h
    have hlast := h [lowAt 0] (lowAt 4294968) (List.prefix_refl longPress)
    have hspec : Specified false 30 [lowAt 0] (lowAt 4294968) :=
      ⟨by decide, by decide, fun htrig => absurd htrig (by decide)⟩
    have hfalse : (Button.construct 0 false 30).answer [lowAt 0] (lowAt 4294968)
        = false := by decide
    rw [hlast.mpr hspec] at hfalse
    exact absurd hfalse (by decide)

/-- The same key, polled again after 40 ticks. -/
def shortPress : List Poll := [lowAt 0, lowAt 40]

/-- The age is 40000 microseconds, and the second poll returns `true`. -/
theorem debounce_iff_shortPress :
    Specified false 30 [lowAt 0] (lowAt 40)
      ∧ (Button.construct 0 false 30).answer [lowAt 0] (lowAt 40) = true
      ∧ ∀ past p, past ++ [p] <+: shortPress →
        ((Button.construct 0 false 30).answer past p = true ↔ Specified false 30 past p) := by
  have hall : ∀ past p, past ++ [p] <+: shortPress →
      ((Button.construct 0 false 30).answer past p = true ↔ Specified false 30 past p) := by
    refine (debounce_iff 0 false 30 shortPress (by decide)
      (by simp [ConstantWithin, shortPress, lowAt])).mpr ?_
    intro past p hp hspec
    have hmem : p ∈ shortPress := hp.subset (by simp)
    have hnow : ∀ q ∈ shortPress, q.now ≤ 40 := by decide
    have hle := hnow p hmem
    rw [Nat.mod_eq_of_lt (by omega)]
    exact Nat.mul_le_mul_right _ hspec.2.1
  have hspec : Specified false 30 [lowAt 0] (lowAt 40) :=
    ⟨by decide, by decide, fun htrig => absurd htrig (by decide)⟩
  exact ⟨hspec, (hall [lowAt 0] (lowAt 40) (List.prefix_refl shortPress)).mpr hspec, hall⟩

/-- **Presses that last less than 2^32 microseconds are debounced as
specified**: as long as every active poll finds its hold that young. -/
theorem debounced_of_short (hord : Ordered ps) (hconst : ConstantWithin ps)
    (hshort : ∀ past p, past ++ [p] <+: ps → p.isActive state →
      (p.now - (Hold.first (Poll.isActive state) past p).secondAt) * 1000 < 2 ^ 32)
    (hp : past ++ [p] <+: ps) :
    (Button.construct mem state jitter).answer past p = true
      ↔ Specified state jitter past p := by
  apply (meets_iff (hord.of_prefix hp) (hconst.of_prefix hp)).mpr
  have hweak : ∀ s q, Shown jitter s q → Settled jitter s q := fun _ _ h => h.settled
  refine (Hold.answers_agree_iff _ _ hweak ps).mpr ?_ past p hp
  intro past' q hq hspec
  have hsettled := hspec.2.1
  have hlt := hshort past' q hq hspec.1
  rw [Shown, Nat.mod_eq_of_lt hlt]
  exact Nat.mul_le_mul_right _ hsettled

end Runs

end DiffCar
