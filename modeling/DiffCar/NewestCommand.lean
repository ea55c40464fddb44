import DiffCar.Delivery

/-!
# NewestCommand — which packet the control loop uses

An iteration uses the last packet that found a slot (`Link.Inv`). That is the
newest one as long as every call of `rt_mq_urgent` starts with a slot on the
free list. A call that does not drops its packet, and the next iteration can
still be made to use the one before.
-/

namespace DiffCar

open Interleave

section Steps

variable {s t : Link} {o : Holder} {m : Message}

/-- All that a step of `speedThread` can do to the history. -/
theorem Link.stepControl_history (hs : s.stepControl = some t) :
    t.parser = s.parser ∧ t.history.received = s.history.received
      ∧ t.history.queued = s.history.queued
      ∧ ((t.history.quiet = s.quietNow ∧ t.history.used = s.history.used)
        ∨ (t.history.quiet = s.history.quiet ∧ t.history.used = s.history.used)
        ∨ (t.history.quiet = s.history.quiet
          ∧ t.history.used = s.history.used ++ [⟨s.history.quiet, s.speed⟩])) := by
  unfold Link.stepControl at hs
  split at hs
  · dsimp only at hs
    split_ifs at hs
    · obtain rfl := Option.some.inj hs
      exact ⟨rfl, rfl, rfl, .inl ⟨rfl, rfl⟩⟩
    · split at hs
      · exact absurd hs (by simp)
      · obtain rfl := Option.some.inj hs
        exact ⟨rfl, rfl, rfl, .inl ⟨rfl, rfl⟩⟩
  · split_ifs at hs
    · obtain rfl := Option.some.inj hs
      exact ⟨rfl, rfl, rfl, .inr (.inl ⟨rfl, rfl⟩)⟩
    · obtain rfl := Option.some.inj hs
      exact ⟨rfl, rfl, rfl, .inr (.inl ⟨rfl, rfl⟩)⟩
  · obtain rfl := Option.some.inj hs
    exact ⟨rfl, rfl, rfl, .inr (.inr ⟨rfl, rfl⟩)⟩

/-- Outside the pool and before the copy the slot holds the last packet
queued. -/
theorem Link.Inv.last_queued (h : s.Inv o m) (hpool : o ≠ .pool) (hsender : o ≠ .sender) :
    s.history.queued.getLast? = some (s.mq.body 0) := by
  have hbody : s.mq.body 0 = m := by
    refine h.body ?_
    cases o with
    | pool => exact absurd rfl hpool
    | sender => exact absurd rfl hsender
    | queue => exact .inl rfl
    | receiver => exact .inr rfl
  rw [h.queued, if_neg hpool, hbody]
  simp

/-! ## Runs with a free slot for every packet -/

/-- **The newest packet is the last one queued**, but for the one that is about
to be. -/
structure Link.Newest (s : Link) : Prop where
  current : (∀ buff, s.parser ≠ .urgent buff) →
    s.history.queued.getLast? = s.history.received.getLast?
  quiet : ∀ q ∈ s.history.quiet, q.lastQueued = q.newest
  used : ∀ u ∈ s.history.used, ∀ q ∈ u.quiet, q.lastQueued = q.newest

theorem Link.Newest.start (next : ℕ → Option ℕ) (body : ℕ → Message) :
    (Link.start next body).Newest where
  current := fun _ => rfl
  quiet := fun _ hq => nomatch hq
  used := fun _ hu => nomatch hu

theorem Link.Newest.receive (h : s.Newest) {data : List UInt8} {alloc : Bool}
    (hs : s.receive data alloc = some t) : t.Newest := by
  obtain ⟨hidle, hcase⟩ := Link.receive_cases hs
  have hcurrent := h.current (by simp [hidle])
  rcases hcase with ⟨-, rfl⟩ | ⟨-, -, rfl⟩ | ⟨-, -, rfl⟩
  · exact ⟨fun _ => hcurrent, h.quiet, h.used⟩
  · exact ⟨fun _ => hcurrent, h.quiet, h.used⟩
  · exact ⟨fun hno => absurd rfl (hno data), h.quiet, h.used⟩

/-- The parser's thread calls `rt_mq_urgent`. -/
theorem Link.Newest.stepParser_urgent (h : s.Newest) (hinv : s.Inv o m) {buff : List UInt8}
    (hp : s.parser = .urgent buff) (hok : s.mq.free ≠ none ∨ s.mq.body 0 = pairOf buff)
    (hs : s.stepParser = some t) : t.Newest := by
  have hparser := hinv.parser
  rw [Link.ParserInv, hp] at hparser
  obtain ⟨hsender, before, hreceived, -⟩ := hparser
  have hnewest : s.history.received.getLast? = some (pairOf buff) := by
    rw [hreceived]
    simp
  simp only [Link.stepParser, hp, hinv.slot.urgentTake] at hs
  by_cases hpool : o = .pool
  · rw [if_pos hpool] at hs
    obtain rfl := Option.some.inj hs
    refine ⟨fun _ => ?_, h.quiet, h.used⟩
    show (s.history.queued ++ [pairOf buff]).getLast? = s.history.received.getLast?
    rw [hnewest]
    simp
  · -- nothing is lost where the slot holds the same pair
    have hfull : s.mq.free = none := by
      rw [hinv.slot.free, if_neg hpool]
    have hsame : s.mq.body 0 = pairOf buff := hok.resolve_left fun hfree => hfree hfull
    rw [if_neg hpool] at hs
    obtain rfl := Option.some.inj hs
    refine ⟨fun _ => ?_, h.quiet, h.used⟩
    show s.history.queued.getLast? = s.history.received.getLast?
    rw [hnewest, hinv.last_queued hpool hsender, hsame]

theorem Link.Newest.stepParser (h : s.Newest) (hinv : s.Inv o m) (hok : s.SlotFree .parser)
    (hs : s.stepParser = some t) : t.Newest := by
  cases hp : s.parser with
  | idle => exact absurd hs (by simp [Link.stepParser, hp])
  | urgent buff =>
      unfold Link.SlotFree at hok
      simp only [hp] at hok
      exact h.stepParser_urgent hinv hp hok hs
  | copying buff msg k =>
      have hcurrent := h.current (by simp [hp])
      simp only [Link.stepParser, hp] at hs
      split_ifs at hs
      · obtain rfl := Option.some.inj hs
        exact ⟨fun _ => hcurrent, h.quiet, h.used⟩
      · obtain rfl := Option.some.inj hs
        exact ⟨fun _ => hcurrent, h.quiet, h.used⟩
  | leaving =>
      have hcurrent := h.current (by simp [hp])
      simp only [Link.stepParser, hp] at hs
      obtain rfl := Option.some.inj hs
      exact ⟨fun _ => hcurrent, h.quiet, h.used⟩
  | faulted => exact absurd hs (by simp [Link.stepParser, hp])

/-- `speedThread` takes down what is in force when it calls `rt_mq_recv`. -/
theorem Link.Newest.stepControl (h : s.Newest) (hs : s.stepControl = some t) : t.Newest := by
  obtain ⟨hparser, hreceived, hqueued, hcase⟩ := Link.stepControl_history hs
  have hcurrent : (∀ buff, t.parser ≠ .urgent buff) →
      t.history.queued.getLast? = t.history.received.getLast? := by
    rw [hparser, hreceived, hqueued]
    exact h.current
  rcases hcase with ⟨hquiet, hused⟩ | ⟨hquiet, hused⟩ | ⟨hquiet, hused⟩
  · refine ⟨hcurrent, ?_, hused ▸ h.used⟩
    intro q hq
    rw [hquiet] at hq
    obtain ⟨hidle, hnewest, hlast⟩ := Link.quietNow_eq_some hq
    rw [hlast, List.getLastD_eq_getLast?, h.current (by simp [hidle]), hnewest]
    rfl
  · exact ⟨hcurrent, hquiet ▸ h.quiet, hused ▸ h.used⟩
  · refine ⟨hcurrent, hquiet ▸ h.quiet, ?_⟩
    intro u hu
    rw [hused] at hu
    rcases List.mem_append.mp hu with hu | hu
    · exact h.used u hu
    · rw [List.mem_singleton.mp hu]
      exact h.quiet

theorem Link.Newest.step (h : s.Newest) (hinv : s.Inv o m) {a : Action} (hok : s.SlotFree a)
    (hs : s.step a = some t) : t.Newest := by
  cases a with
  | receive data alloc => exact h.receive hs
  | parser => exact h.stepParser hinv hok hs
  | control => exact h.stepControl hs

/-! ## One iteration to its end -/

/-- The iteration under way comes to its end with nothing but its own steps. -/
def Link.Finishes (s : Link) : Prop :=
  ∃ t p, Reach Link.step s t ∧ t.control = .recv ∧ t.parser = s.parser
    ∧ t.history.received = s.history.received ∧ t.history.queued = s.history.queued
    ∧ t.history.used = s.history.used ++ [⟨s.history.quiet, p⟩]

theorem Link.finishes_of_computing (hc : s.control = .computing) : s.Finishes := by
  have hstep : s.step .control = some
      { s with
        control := .recv
        history := { s.history with
          used := s.history.used ++ [⟨s.history.quiet, s.speed⟩] } } := by
    simp [Link.step, Link.stepControl, hc]
  exact ⟨_, s.speed, .tail .control .refl hstep, rfl, rfl, rfl, rfl, rfl⟩

/-- A byte is copied, or the slot is put back. -/
theorem Link.copying_step {msg k : ℕ} (hc : s.control = .copying msg k) :
    ∃ t, s.step .control = some t
      ∧ (t.control = .computing ∨ (k < 16 ∧ t.control = .copying msg (k + 1)))
      ∧ t.parser = s.parser ∧ t.history.received = s.history.received
      ∧ t.history.queued = s.history.queued ∧ t.history.used = s.history.used
      ∧ t.history.quiet = s.history.quiet := by
  simp only [Link.step, Link.stepControl, hc]
  by_cases hlt : k < min s.mq.msgSize 16
  · rw [dif_pos hlt]
    exact ⟨_, rfl, .inr ⟨by omega, rfl⟩, rfl, rfl, rfl, rfl, rfl⟩
  · rw [dif_neg hlt]
    exact ⟨_, rfl, .inl rfl, rfl, rfl, rfl, rfl, rfl⟩

theorem Link.finishes_of_copying {msg k n : ℕ} (hc : s.control = .copying msg k)
    (hn : 16 ≤ k + n) : s.Finishes := by
  induction n generalizing s k with
  | zero =>
      obtain ⟨t, hstep, hcase, hparser, hreceived, hqueued, hused, hquiet⟩ :=
        Link.copying_step hc
      rcases hcase with hcomputing | ⟨hlt, -⟩
      · obtain ⟨u, p, hreach, hend⟩ := Link.finishes_of_computing hcomputing
        rw [hparser, hreceived, hqueued, hused, hquiet] at hend
        exact ⟨u, p, (Reach.tail .control .refl hstep).trans hreach, hend⟩
      · omega
  | succ n ih =>
      obtain ⟨t, hstep, hcase, hparser, hreceived, hqueued, hused, hquiet⟩ :=
        Link.copying_step hc
      have hfinish : t.Finishes := by
        rcases hcase with hcomputing | ⟨-, hcopying⟩
        · exact Link.finishes_of_computing hcomputing
        · exact ih hcopying (by omega)
      obtain ⟨u, p, hreach, hend⟩ := hfinish
      rw [hparser, hreceived, hqueued, hused, hquiet] at hend
      exact ⟨u, p, (Reach.tail .control .refl hstep).trans hreach, hend⟩

theorem Link.finishes (hc : s.control ≠ .recv) : s.Finishes := by
  cases hcontrol : s.control with
  | recv => exact absurd hcontrol hc
  | copying msg k => exact Link.finishes_of_copying hcontrol (Nat.le_add_left 16 k)
  | computing => exact Link.finishes_of_computing hcontrol

/-- The next iteration, from its `rt_mq_recv` on. -/
theorem Link.Inv.iteration (h : s.Inv o m) (hc : s.control = .recv) :
    ∃ t p, Reach Link.step s t ∧ t.history.used = s.history.used ++ [⟨s.quietNow, p⟩] := by
  have hcall : ∃ t, s.step .control = some t ∧ t.control ≠ .recv
      ∧ t.history.quiet = s.quietNow ∧ t.history.used = s.history.used := by
    simp only [Link.step, Link.stepControl, hc]
    by_cases hqueue : o = .queue
    · subst hqueue
      obtain ⟨mq, htake, -⟩ := h.slot.recvTake
      have hentry : s.mq.entry = 1 := h.slot.entry
      rw [hentry, if_neg (by decide), htake]
      exact ⟨_, rfl, by simp, rfl, rfl⟩
    · have hentry : s.mq.entry = 0 := by
        rw [h.slot.entry, if_neg hqueue]
      rw [if_pos hentry]
      exact ⟨_, rfl, by simp, rfl, rfl⟩
  obtain ⟨t, hstep, hcontrol, hquiet, hused⟩ := hcall
  obtain ⟨u, p, hreach, -, -, -, -, hend⟩ := Link.finishes hcontrol
  rw [hquiet, hused] at hend
  exact ⟨u, p, (Reach.tail .control .refl hstep).trans hreach, hend⟩

/-- `-RT_EFULL`: the packet is dropped and `recvCb` returns. -/
theorem Link.dropped {buff : List UInt8} (hp : s.parser = .urgent buff)
    (hfree : s.mq.free = none) :
    Reach Link.step s { s with parser := .idle } := by
  obtain ⟨e, htake⟩ : ∃ e, rtMqUrgentTake s.mq 16 = .error e := by
    unfold rtMqUrgentTake
    rw [hfree]
    split_ifs
    · exact ⟨_, rfl⟩
    · exact ⟨_, rfl⟩
  have hdrop : s.step .parser = some { s with parser := .leaving } := by
    simp only [Link.step, Link.stepParser, hp, htake]
  exact (Reach.tail .parser .refl hdrop).tail .parser rfl

end Steps

/-- **A call without a free slot can lose the newest command**: from then on
there is a run in which an iteration uses an older packet. -/
theorem Link.loses {next : ℕ → Option ℕ} {body : ℕ → Message} {s : Link}
    (h : Link.Reachable next body s) (hno : ¬ s.SlotFree .parser) :
    ∃ t us u q, Reach Link.step s t ∧ t.history.used = s.history.used ++ us ++ [u]
      ∧ u.quiet = some q ∧ u.pair ≠ q.newest := by
  obtain ⟨o, m, hinv⟩ := h.inv
  -- the parser's thread is at a call that finds no slot
  obtain ⟨buff, hp, hfree, hother⟩ : ∃ buff, s.parser = .urgent buff ∧ s.mq.free = none
      ∧ s.mq.body 0 ≠ pairOf buff := by
    unfold Link.SlotFree at hno
    cases hp : s.parser with
    | urgent buff =>
        simp only [hp, not_or, not_not] at hno
        exact ⟨buff, rfl, hno⟩
    | _ => simp [hp] at hno
  have hparser := hinv.parser
  rw [Link.ParserInv, hp] at hparser
  obtain ⟨hsender, before, hreceived, -⟩ := hparser
  have hpool : o ≠ .pool := by
    rintro rfl
    rw [hinv.slot.free] at hfree
    exact absurd hfree (by simp)
  have hlast := hinv.last_queued hpool hsender
  have hdrop := Link.dropped hp hfree
  -- the iteration under way, if there is one, comes to its end
  obtain ⟨t, us, hreach, hcontrol, hidle, hreceived', hqueued, hused⟩ :
      ∃ t us, Reach Link.step s t ∧ t.control = .recv ∧ t.parser = .idle
        ∧ t.history.received = s.history.received ∧ t.history.queued = s.history.queued
        ∧ t.history.used = s.history.used ++ us := by
    by_cases hcontrol : s.control = .recv
    · exact ⟨_, [], hdrop, hcontrol, rfl, rfl, rfl, (List.append_nil _).symm⟩
    · obtain ⟨t, p, hreach, hend⟩ :=
        Link.finishes (s := { s with parser := .idle }) hcontrol
      exact ⟨t, _, hdrop.trans hreach, hend⟩
  -- and the next one finds the older packet
  have hquiet : t.quietNow = some ⟨pairOf buff, s.mq.body 0⟩ := by
    have hnewest : t.history.received.getLast? = some (pairOf buff) := by
      rw [hreceived', hreceived]
      simp
    unfold Link.quietNow
    rw [hidle, hnewest, List.getLastD_eq_getLast?, hqueued, hlast]
    rfl
  obtain ⟨o', m', hinv'⟩ := Link.Reachable.inv (h.trans hreach)
  obtain ⟨u, p, hreach', hused'⟩ := hinv'.iteration hcontrol
  rw [hquiet, hused] at hused'
  obtain ⟨o'', m'', hinv''⟩ := Link.Reachable.inv ((h.trans hreach).trans hreach')
  have hpair : p = s.mq.body 0 :=
    (hinv''.used ⟨some ⟨pairOf buff, s.mq.body 0⟩, p⟩ (by rw [hused']; simp)).quiet _ rfl
  refine ⟨u, us, _, _, hreach.trans hreach', hused', rfl, ?_⟩
  show p ≠ pairOf buff
  rw [hpair]
  exact hother

/-- **Newest command wins, or not.** In every run in which each call of
`rt_mq_urgent` starts with a free slot, or finds its own pair in the only one,
every iteration that calls `rt_mq_recv` outside any `recvCb` uses the newest
packet. From every call that does not start so, there is a run on in which one
uses an older packet. -/
theorem newest_command_wins (next : ℕ → Option ℕ) (body : ℕ → Message) :
    (∀ s, ReachWhile Link.SlotFree Link.step (Link.start next body) s →
      ∀ u ∈ s.history.used, ∀ q, u.quiet = some q → u.pair = q.newest)
    ∧ ∀ s, Link.Reachable next body s → ¬ s.SlotFree .parser →
      ∃ t us u q, Reach Link.step s t ∧ t.history.used = s.history.used ++ us ++ [u]
        ∧ u.quiet = some q ∧ u.pair ≠ q.newest := by
  constructor
  · intro s hs u hu q hq
    have hinv : (∃ o m, s.Inv o m) ∧ s.Newest := by
      refine ReachWhile.inv (P := fun s : Link => (∃ o m, s.Inv o m) ∧ s.Newest) hs
        ⟨⟨_, _, Link.Inv.start next body⟩, Link.Newest.start next body⟩ ?_
      intro s a t ⟨⟨o, m, hinv⟩, hnewest⟩ hok hstep
      exact ⟨hinv.step hstep, hnewest.step hinv hok hstep⟩
    obtain ⟨⟨o, m, hinv⟩, hnewest⟩ := hinv
    rw [(hinv.used u hu).quiet q hq]
    exact hnewest.used u hu q hq
  · intro s hs hno
    exact Link.loses hs hno

/-! ## Two packets -/

/-- Each packet is handled and then received by an iteration. -/
def onePacketEach : List Action :=
  .receive drivePacket true :: List.replicate 19 .parser ++ List.replicate 19 .control
    ++ .receive stopPacket true :: List.replicate 19 .parser ++ List.replicate 19 .control

/-- Both calls start with the slot on the free list, and the second iteration
stops the car. -/
theorem newest_command_wins_stop :
    ∃ s, ReachWhile Link.SlotFree Link.step (Link.start (fun _ => none) fun _ => zeroPair) s
      ∧ s.history.used.map Use.quiet
        = [some ⟨pairOf drivePacket, pairOf drivePacket⟩,
          some ⟨pairOf stopPacket, pairOf stopPacket⟩]
      ∧ s.history.used.map Use.pair = [pairOf drivePacket, pairOf stopPacket]
      ∧ ∀ u ∈ s.history.used, ∀ q, u.quiet = some q → u.pair = q.newest := by
  have hrun : (execWhile Link.SlotFree Link.step (Link.start (fun _ => none) fun _ => zeroPair)
      onePacketEach).map (fun s => (s.history.used.map Use.quiet, s.history.used.map Use.pair))
    = some ([some ⟨pairOf drivePacket, pairOf drivePacket⟩,
        some ⟨pairOf stopPacket, pairOf stopPacket⟩],
      [pairOf drivePacket, pairOf stopPacket]) := by
    decide +kernel
  obtain ⟨s, hs, hhist⟩ := Option.map_eq_some_iff.mp hrun
  obtain ⟨hquiet, hpair⟩ := Prod.mk.inj hhist
  have hreach := ReachWhile.exec .refl hs
  exact ⟨s, hreach, hquiet, hpair, (newest_command_wins _ _).1 s hreach⟩

/-- Without an iteration between the packets the stop command is received,
nothing is in progress, and the car drives on. -/
theorem newest_command_lost :
    ∃ s, Link.Reachable (fun _ => none) (fun _ => zeroPair) s
      ∧ ∃ u ∈ s.history.used, ∃ q, u.quiet = some q
        ∧ q.newest = pairOf stopPacket ∧ u.pair = pairOf drivePacket
        ∧ u.pair ≠ q.newest := by
  have hrun : (exec Link.step (Link.start (fun _ => none) fun _ => zeroPair) twoPackets).map
      (fun s => s.history.used.map fun u => (u.quiet, u.pair))
    = some [(some ⟨pairOf stopPacket, pairOf drivePacket⟩, pairOf drivePacket)] := by
    decide +kernel
  obtain ⟨s, hs, hused⟩ := Option.map_eq_some_iff.mp hrun
  obtain ⟨u, hu, hrecord⟩ : ∃ u ∈ s.history.used,
      (u.quiet, u.pair) = (some ⟨pairOf stopPacket, pairOf drivePacket⟩, pairOf drivePacket) := by
    rw [← List.mem_map, hused]
    exact List.mem_singleton_self _
  obtain ⟨hquiet, hpair⟩ := Prod.mk.inj hrecord
  refine ⟨s, Reach.exec .refl hs, u, hu, _, hquiet, rfl, hpair, ?_⟩
  rw [hpair]
  decide

end DiffCar
