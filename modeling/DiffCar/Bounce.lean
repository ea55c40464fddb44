import DiffCar.Button
import Mathlib.Data.List.Induction

/-!
# Bounce — two reads in one poll

Within a poll the pin may change. A poll that reads the inactive level first
and the active level second neither begins a press nor gives one up, and
compares the tick with what `_last_t` holds from an earlier press, or from
before the object was constructed. That is the only way to an undebounced
press: without such polls `Button.Guards` holds in every run, whatever the
timing; with one of them some timing makes it.
-/

namespace DiffCar

/-- The poll reads the inactive level first and the active level second. -/
def Sample.Bounces (state : Bool) (s : Sample) : Prop :=
  s.first ≠ state.toInt ∧ s.second = state.toInt

/-- **No undebounced press**: at a poll that returns `true`, every read that
returned the inactive level is `_jitter` milliseconds old, and none is of the
poll itself unless `_jitter` is zero. -/
def Button.NoUndebouncedPress (b : Button) (ps : List Poll) : Prop :=
  ∀ past p, past ++ [p] <+: ps → b.answer past p = true →
    (∀ r ∈ b.readsOf (past ++ [p]), r.level ≠ b.state.toInt →
        r.instant + b.jitter.toNat ≤ p.now) ∧
      (0 < b.jitter.toNat → ∀ r ∈ (b.after past).pinReads p,
        r.level = b.state.toInt)

/-- The tick does not wrap, and no two instants are `2^22` ticks apart. -/
def ShortRun (ps : List Poll) : Prop :=
  (∀ t ∈ instants ps, t < 2 ^ 32) ∧
    ∀ t ∈ instants ps, ∀ u ∈ instants ps, u - t < 2 ^ 22

instance (ps : List Poll) : Decidable (ShortRun ps) :=
  inferInstanceAs (Decidable (_ ∧ _))

/-- While a press has started, `_last_t` shows an instant of the past, and no
read of the inactive level is later. -/
structure Button.Guards (b : Button) (state : Bool) (jitter : BitVec 16)
    (past : List Poll) (rs : List PinRead) : Prop where
  state_eq : b.state = state
  jitter_eq : b.jitter = jitter
  since : b.start = true → ∃ t ∈ instants past, b.lastT = .ofNat 32 t ∧
    ∀ r ∈ rs, r.level ≠ state.toInt → r.instant ≤ t

section Reads

variable {b : Button} {p : Poll} {ps past : List Poll} {r : PinRead}

theorem pinReads_instant (hr : r ∈ b.pinReads p) :
    r.instant = p.firstAt ∨ r.instant = p.secondAt := by
  unfold Button.pinReads at hr
  split at hr
  · left
    rw [List.mem_singleton.mp hr]
  · simp only [List.mem_cons, List.not_mem_nil, or_false] at hr
    rcases hr with rfl | rfl
    · exact .inl rfl
    · exact .inr rfl

theorem instant_mem_of_readsOf (hr : r ∈ b.readsOf ps) : r.instant ∈ instants ps := by
  induction ps using List.reverseRecOn with
  | nil => simp [Button.readsOf] at hr
  | append_singleton past p ih =>
      rw [Button.readsOf_concat, List.mem_append] at hr
      rw [instants_concat, List.mem_append]
      rcases hr with hr | hr
      · exact .inl (ih hr)
      · right
        rcases pinReads_instant hr with h | h <;> simp [h]

/-- Nothing that has happened is later than the second reading of a poll. -/
theorem Ordered.le_secondAt (h : Ordered (past ++ [p])) {t : ℕ}
    (ht : t ∈ instants past) : t ≤ p.secondAt := by
  rw [Ordered, instants_concat, List.pairwise_append] at h
  exact h.2.2 t ht _ (by simp)

end Reads

section Quiet

variable {b : Button} {state : Bool} {jitter : BitVec 16} {past ps : List Poll}
  {rs : List PinRead} {p : Poll}

/-- A poll that does not bounce gives the press up, or it has read nothing but
the active level and the press has started, now or before. -/
theorem Button.poll_quiet (hquiet : ¬ p.Bounces b.state) :
    ((b.poll p).1 = { b with start := false } ∧ (b.poll p).2.result = false) ∨
      ∃ b' : Button, b'.state = b.state ∧ b'.jitter = b.jitter ∧ b'.start = true ∧
        (b'.lastT = .ofNat 32 p.secondAt ∨ b.start = true ∧ b'.lastT = b.lastT) ∧
        (∀ r ∈ b.pinReads p, r.level = b.state.toInt) ∧
        ((b.poll p).1, (b.poll p).2.result)
          = b'.compare p.method (.ofNat 32 p.now) := by
  have hlevel : ∀ level, b.isActive level = true ↔ level = b.state.toInt := by
    intro level
    exact beq_iff_eq
  rcases b.poll_cases p with ⟨h1, _, hreads, hcmp⟩ |
    ⟨hgo, hreads, ⟨_, hafter, hres⟩ | ⟨h2, hcmp⟩⟩
  · right
    refine ⟨{ b with start := true, lastT := .ofNat 32 p.secondAt, triggered := false },
      rfl, rfl, rfl, .inl rfl, ?_, hcmp⟩
    simpa [hreads] using (hlevel _).mp h1
  · exact .inl ⟨hafter, hres⟩
  · right
    have h1 : p.first = b.state.toInt := by
      by_contra hne
      exact hquiet ⟨hne, (hlevel _).mp h2⟩
    have hstart : b.start = true := hgo ((hlevel _).mpr h1)
    refine ⟨b, rfl, rfl, hstart, .inr ⟨hstart, rfl⟩, ?_, hcmp⟩
    simpa [hreads] using ⟨h1, (hlevel _).mp h2⟩

/-- **One poll keeps the guard.** -/
theorem Button.Guards.poll (h : b.Guards state jitter past rs)
    (hrs : ∀ r ∈ rs, r.instant ∈ instants past) (hord : Ordered (past ++ [p]))
    (hquiet : ¬ p.Bounces state) :
    (b.poll p).1.Guards state jitter (past ++ [p]) (rs ++ b.pinReads p) := by
  have hstate := h.state_eq
  rw [← hstate] at hquiet
  rcases Button.poll_quiet hquiet with
    ⟨hafter, _⟩ | ⟨b', hs, hj, hstart, hlast, hreads, hcmp⟩
  · rw [hafter]
    exact { state_eq := h.state_eq, jitter_eq := h.jitter_eq, since := by simp }
  · rw [Prod.mk.injEq] at hcmp
    rw [hcmp.1]
    refine { state_eq := hs.trans h.state_eq, jitter_eq := hj.trans h.jitter_eq,
             since := fun _ => ?_ }
    -- the reads of this poll were all active, so a bound on the earlier ones stays
    have hextend : ∀ t, (∀ r ∈ rs, r.level ≠ state.toInt → r.instant ≤ t) →
        ∀ r ∈ rs ++ b.pinReads p, r.level ≠ state.toInt → r.instant ≤ t := by
      intro t hle r hr hne
      rcases List.mem_append.mp hr with hr | hr
      · exact hle r hr hne
      · rw [← hstate] at hne
        exact absurd (hreads r hr) hne
    rcases hlast with hlast | ⟨hbefore, hlast⟩
    · refine ⟨p.secondAt, by simp, hlast, hextend _ ?_⟩
      intro r hr _
      exact hord.le_secondAt (hrs r hr)
    · obtain ⟨t, ht, htl, hle⟩ := h.since hbefore
      exact ⟨t, by simp [ht], hlast.trans htl, hextend t hle⟩

/-- **The guard holds in every run without a bounce**, whatever the timing. -/
theorem guards_after (mem : BitVec 32) (jitter : BitVec 16) (hord : Ordered ps)
    (hquiet : ∀ p ∈ ps, ¬ p.Bounces state) :
    ((Button.construct mem state jitter).after ps).Guards state jitter ps
      ((Button.construct mem state jitter).readsOf ps) := by
  induction ps using List.reverseRecOn with
  | nil => exact { state_eq := rfl, jitter_eq := rfl, since := nofun }
  | append_singleton past p ih =>
      have hpast := ih (hord.of_prefix (past.prefix_append [p]))
        fun q hq => hquiet q (by simp [hq])
      rw [Button.after_concat, Button.readsOf_concat]
      exact hpast.poll (fun r hr => instant_mem_of_readsOf hr) hord
        (hquiet p (by simp))

/-- **A press of a run without a bounce is debounced.** -/
theorem noUndebouncedPress_of_quiet (mem : BitVec 32) (hord : Ordered ps)
    (hquiet : ∀ p ∈ ps, ¬ p.Bounces state) :
    (Button.construct mem state jitter).NoUndebouncedPress ps := by
  intro past p hp hans
  have hord := hord.of_prefix hp
  have hq : ∀ q ∈ past ++ [p], ¬ q.Bounces state := fun q hq => hquiet q (hp.subset hq)
  have hpast := guards_after mem jitter
    (hord.of_prefix (past.prefix_append [p])) fun q h => hq q (by simp [h])
  have hafter := guards_after mem jitter hord hq
  have hquietp : ¬ p.Bounces ((Button.construct mem state jitter).after past).state := by
    rw [hpast.state_eq]
    exact hq p (by simp)
  rcases Button.poll_quiet hquietp with
    ⟨_, hres⟩ | ⟨b', _, _, hstart, _, hreads, hcmp⟩
  · rw [Button.answer, hres] at hans
    exact absurd hans (by simp)
  · rw [Prod.mk.injEq] at hcmp
    rw [hpast.state_eq] at hreads
    refine ⟨?_, fun _ => hreads⟩
    rw [Button.after_concat, hcmp.1] at hafter
    obtain ⟨t, ht, hlast, hle⟩ := hafter.since hstart
    have helapsed : b'.elapsed (.ofNat 32 p.now) = true :=
      Button.elapsed_of_compare (hcmp.2.symm.trans hans)
    have hage := Button.le_of_elapsed hlast (hord.le_now ht) helapsed
    rw [hafter.jitter_eq] at hage
    intro r hr hne
    exact le_trans (Nat.add_le_add_right (hle r hr hne) _) hage

/-- A button without `_jitter` has none to wait for. -/
theorem noUndebouncedPress_of_zero (mem : BitVec 32) (hord : Ordered ps) :
    (Button.construct mem state 0).NoUndebouncedPress ps := by
  intro past p hp _
  refine ⟨?_, fun h => absurd h (Nat.lt_irrefl 0)⟩
  intro r hr _
  exact (hord.of_prefix hp).le_now (instant_mem_of_readsOf hr)

end Quiet

/-! ## A timing that shows a bounce -/

/-- A poll with all of its instants at `t`. -/
def Sample.place (t : ℕ) (s : Sample) : Poll :=
  { s with firstAt := t, secondAt := t, now := t }

/-- The instants of polls that happen all at once. -/
theorem eq_of_mem_instants_place {t u : ℕ} {ss : List Sample}
    (h : u ∈ instants (ss.map (Sample.place t))) : u = t := by
  simp only [instants, List.mem_flatMap, List.mem_map] at h
  obtain ⟨_, ⟨s, _, rfl⟩, hu⟩ := h
  simpa [Sample.place] using hu

/-- The polls `pre` at the tick 0, the polls `post` at the tick `t`. -/
def placed (t : ℕ) (pre post : List Sample) : List Poll :=
  pre.map (Sample.place 0) ++ post.map (Sample.place t)

section Timing

variable {t : ℕ} {pre post : List Sample}

theorem mem_instants_placed {u : ℕ} (h : u ∈ instants (placed t pre post)) :
    u = 0 ∨ u = t := by
  rw [placed, instants, List.flatMap_append, List.mem_append] at h
  rcases h with h | h
  · exact .inl (eq_of_mem_instants_place h)
  · exact .inr (eq_of_mem_instants_place h)

theorem placed_ordered : Ordered (placed t pre post) := by
  have hconst : ∀ u (ss : List Sample),
      (instants (ss.map (Sample.place u))).Pairwise (· ≤ ·) := by
    intro u ss
    apply List.pairwise_of_forall_mem_list
    intro v hv w hw
    rw [eq_of_mem_instants_place hv, eq_of_mem_instants_place hw]
  rw [Ordered, placed, instants, List.flatMap_append, List.pairwise_append]
  refine ⟨hconst 0 pre, hconst t post, ?_⟩
  intro u hu v _
  rw [eq_of_mem_instants_place hu]
  exact Nat.zero_le v

theorem placed_short (ht : t < 2 ^ 22) : ShortRun (placed t pre post) := by
  constructor
  · intro u hu
    rcases mem_instants_placed hu with rfl | rfl <;> omega
  · intro u _ v hv
    rcases mem_instants_placed hv with rfl | rfl <;> omega

end Timing

section Stale

variable {b : Button} {state : Bool} {jitter : BitVec 16} {p : Poll}

/-- `_last_t` shows the tick 0 and no press was due yet. -/
structure Button.Waits (b : Button) (state : Bool) (jitter : BitVec 16) : Prop where
  state_eq : b.state = state
  jitter_eq : b.jitter = jitter
  lastT_eq : b.lastT = .ofNat 32 0
  triggered_eq : b.triggered = false

/-- Nothing is due at the tick 0. -/
theorem Button.Waits.compare (h : b.Waits state jitter) (hj : 0 < jitter.toNat)
    (m : ButtonMethod) : (b.compare m (.ofNat 32 0)).1.Waits state jitter := by
  have hnot : b.elapsed (.ofNat 32 0) = false := by
    rw [Bool.eq_false_iff]
    intro he
    have hle := Button.le_of_elapsed h.lastT_eq le_rfl he
    rw [h.jitter_eq] at hle
    omega
  exact { h with triggered_eq := by simp [Button.compare, h.triggered_eq, hnot] }

theorem Button.Waits.poll (h : b.Waits state jitter) (hj : 0 < jitter.toNat)
    (s : Sample) : (b.poll (s.place 0)).1.Waits state jitter := by
  rcases b.poll_cases (s.place 0) with
    ⟨_, _, _, hcmp⟩ | ⟨_, _, ⟨_, hafter, _⟩ | ⟨_, hcmp⟩⟩
  · rw [(Prod.mk.inj hcmp).1]
    have hbegun : Waits { b with
        start := true, lastT := .ofNat 32 0, triggered := false } state jitter :=
      { h with lastT_eq := rfl, triggered_eq := rfl }
    exact hbegun.compare hj _
  · rw [hafter]
    exact { h with }
  · rw [(Prod.mk.inj hcmp).1]
    exact h.compare hj _

/-- However often it is polled at the tick 0. -/
theorem waits_after (state : Bool) (hj : 0 < jitter.toNat) (pre : List Sample) :
    ((Button.construct 0 state jitter).after (pre.map (Sample.place 0))).Waits
      state jitter := by
  rw [Button.after]
  apply Reactive.final_inv (P := fun b : Button => b.Waits state jitter)
    (A := fun p : Poll => ∃ s : Sample, p = s.place 0)
  · rintro b _ hb ⟨s, rfl⟩
    exact hb.poll hj s
  · exact { state_eq := rfl, jitter_eq := rfl, lastT_eq := rfl, triggered_eq := rfl }
  · intro p hp
    obtain ⟨s, _, rfl⟩ := List.mem_map.mp hp
    exact ⟨s, rfl⟩

/-- **A bounce at the tick `_jitter` returns `true`**, after a read of the
inactive level. -/
theorem Button.Waits.bounce (h : b.Waits state jitter) {s : Sample}
    (hs : s.Bounces state) :
    (b.poll (s.place jitter.toNat)).2.result = true ∧
      ⟨s.first, jitter.toNat⟩ ∈ b.pinReads (s.place jitter.toNat) := by
  have h1 : b.isActive s.first = false := by
    rw [Button.isActive, h.state_eq]
    simpa using hs.1
  have h2 : b.isActive s.second = true := by
    rw [Button.isActive, h.state_eq]
    simpa using hs.2
  have hdue : b.elapsed (.ofNat 32 jitter.toNat) = true := by
    rw [Button.elapsed_iff h.lastT_eq (Nat.zero_le _), h.jitter_eq]
    have hlt := jitter.isLt
    omega
  rcases b.poll_cases (s.place jitter.toNat) with
    ⟨hact, _⟩ | ⟨_, hreads, ⟨hact, _⟩ | ⟨_, hcmp⟩⟩
  · exact absurd (h1.symm.trans hact) (by simp)
  · exact absurd (h2.symm.trans hact) (by simp)
  · refine ⟨?_, ?_⟩
    · rw [(Prod.mk.inj hcmp).2]
      exact Button.compare_of_elapsed hdue h.triggered_eq _
    · rw [hreads]
      simp [Sample.place]

/-- With a bounce among the polls some timing makes an undebounced press. -/
theorem undebounced_of_bounce (hj : 0 < jitter.toNat) {s : Sample}
    (hs : s.Bounces state) (pre post : List Sample) :
    ¬ (Button.construct 0 state jitter).NoUndebouncedPress
      (placed jitter.toNat pre (s :: post)) := by
  intro h
  have hwaits := waits_after state hj pre
  obtain ⟨hans, hread⟩ := hwaits.bounce hs
  have hprefix : pre.map (Sample.place 0) ++ [s.place jitter.toNat]
      <+: placed jitter.toNat pre (s :: post) :=
    ⟨post.map (Sample.place jitter.toNat), by simp [placed]⟩
  exact hs.1 ((h _ _ hprefix hans).2 hj _ hread)

end Stale

/-- **What keeps the button from undebounced presses**: whatever the memory it
is constructed in and whatever the timing of the polls, short or not, exactly
that `_jitter` is zero or no poll reads the inactive level first and the active
level second. -/
theorem no_undebounced_press_iff (state : Bool) (jitter : BitVec 16)
    (script : List Sample) :
    ((∀ mem ps, ps.map Poll.toSample = script → Ordered ps → ShortRun ps →
        (Button.construct mem state jitter).NoUndebouncedPress ps)
      ↔ jitter = 0 ∨ ∀ s ∈ script, ¬ s.Bounces state) ∧
    ((∀ mem ps, ps.map Poll.toSample = script → Ordered ps →
        (Button.construct mem state jitter).NoUndebouncedPress ps)
      ↔ jitter = 0 ∨ ∀ s ∈ script, ¬ s.Bounces state) := by
  have hall : (jitter = 0 ∨ ∀ s ∈ script, ¬ s.Bounces state) →
      ∀ mem ps, ps.map Poll.toSample = script → Ordered ps →
        (Button.construct mem state jitter).NoUndebouncedPress ps := by
    intro hcond mem ps hps hord
    rcases hcond with rfl | hquiet
    · exact noUndebouncedPress_of_zero mem hord
    · apply noUndebouncedPress_of_quiet mem hord
      intro p hp
      exact hquiet _ (hps ▸ List.mem_map_of_mem hp)
  have hsome : (∀ mem ps, ps.map Poll.toSample = script → Ordered ps → ShortRun ps →
      (Button.construct mem state jitter).NoUndebouncedPress ps) →
        jitter = 0 ∨ ∀ s ∈ script, ¬ s.Bounces state := by
    intro h
    by_contra hnot
    push Not at hnot
    obtain ⟨hj, s, hs, hbounce⟩ := hnot
    obtain ⟨pre, post, rfl⟩ := List.append_of_mem hs
    have hpos : 0 < jitter.toNat := by
      rw [Nat.pos_iff_ne_zero]
      intro hz
      exact hj (BitVec.eq_of_toNat_eq hz)
    have hlt := jitter.isLt
    refine undebounced_of_bounce hpos hbounce pre post
      (h 0 _ ?_ placed_ordered (placed_short (by omega)))
    simp [placed, Sample.place, Function.comp_def]
  constructor
  · exact ⟨hsome, fun hcond mem ps hps hord _ => hall hcond mem ps hps hord⟩
  · exact ⟨fun h => hsome fun mem ps hps hord _ => h mem ps hps hord, hall⟩

/-- A call of `isPress` at the tick 1000, the pin on its way down between the
two reads. -/
def bounce : List Poll := [⟨⟨.isPress, 1, 0⟩, 1000, 1000, 1000⟩]

/-- The first poll of a key constructed over a zero returns `true`. -/
theorem bounce_presses :
    Ordered bounce ∧ ShortRun bounce ∧
      ¬ (Button.construct 0 false 30).NoUndebouncedPress bounce := by
  refine ⟨by decide, by decide, ?_⟩
  intro h
  have hlast := (h [] _ (List.prefix_refl bounce) (by decide)).2 (by decide)
  exact absurd (hlast ⟨1, 1000⟩ (by decide)) (by decide)

end DiffCar
