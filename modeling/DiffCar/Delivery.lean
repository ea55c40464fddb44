import DiffCar.Link
import Mathlib.Data.List.Basic

/-!
# Delivery — what arrives, and which command is in force

The queue has one slot, so between the two threads there is at most one
message, wherever it is: being written, linked, or being read out. That is
the invariant (`Link.Inv`), with the holder of the slot and the message it
stands for. So what is delivered is a subsequence of what was received, and
the pair in force is that of the last packet that found the slot free.
-/

namespace DiffCar

open Interleave

/-- What the record of an iteration says. -/
structure Use.Sound (u : Use) (received : List Message) : Prop where
  pair : u.pair = zeroPair ∨ u.pair ∈ received
  quiet : ∀ q ∈ u.quiet, u.pair = q.lastQueued

/-- The parser's thread, by where it is: whether it holds the slot, and what it
has written into it. -/
def Link.ParserInv (s : Link) (o : Holder) (m : Message) : Prop :=
  match s.parser with
  | .idle | .leaving => o ≠ .sender
  | .urgent buff => o ≠ .sender
      ∧ ∃ before, s.history.received = before ++ [pairOf buff]
          ∧ s.history.queued.Sublist before
  | .copying buff msg k => o = .sender ∧ msg = 0 ∧ pairOf buff = m ∧ k ≤ 16
      ∧ ∀ j : Fin 16, j.val < k → s.mq.body 0 j = m j
  | .faulted => o ≠ .sender

/-- The control thread, by where it is: whether it holds the slot, and what
`speed` is. -/
def Link.ControlInv (s : Link) (o : Holder) (m : Message) : Prop :=
  match s.control with
  | .recv => o ≠ .receiver ∧ s.speed = s.history.delivered.getLastD zeroPair
  | .copying msg k => o = .receiver ∧ msg = 0 ∧ k ≤ 16
      ∧ (∀ j : Fin 16, j.val < k → s.speed j = m j)
      ∧ ∀ q ∈ s.history.quiet, m = q.lastQueued
  | .computing => o ≠ .receiver
      ∧ s.speed = s.history.delivered.getLastD zeroPair
      ∧ ∀ q ∈ s.history.quiet, s.speed = q.lastQueued

/-- **The invariant of the link.** `o` holds the slot, which stands for the
message `m` unless it lies in the pool. -/
structure Link.Inv (s : Link) (o : Holder) (m : Message) : Prop where
  slot : Slot1 s.mq o
  body : o = .queue ∨ o = .receiver → s.mq.body 0 = m
  queued : s.history.queued
    = s.history.delivered ++ if o = .pool then [] else [m]
  received : s.history.queued.Sublist s.history.received
  parser : s.ParserInv o m
  control : s.ControlInv o m
  used : ∀ u ∈ s.history.used, u.Sound s.history.received

theorem Link.Inv.start (next : ℕ → Option ℕ) (body : ℕ → Message) :
    (Link.start next body).Inv .pool zeroPair where
  slot := slot1_init next body
  body := by simp
  queued := rfl
  received := List.Sublist.refl []
  parser := fun h => nomatch h
  control := ⟨by decide, rfl⟩
  used := by
    intro u hu
    exact absurd hu List.not_mem_nil

theorem Use.Sound.mono {u : Use} {received : List Message}
    (h : u.Sound received) (x : Message) : u.Sound (received ++ [x]) where
  pair := by
    rcases h.pair with hz | hmem
    · exact .inl hz
    · exact .inr (List.mem_append_left _ hmem)
  quiet := h.quiet

/-- Handing the slot to or from the parser's thread is nothing to the control
thread, which is not holding it. -/
theorem Link.ControlInv.handOver {s : Link} {o o' : Holder} {m m' : Message}
    (h : s.ControlInv o m) (ho : o ≠ .receiver) (ho' : o' ≠ .receiver) :
    s.ControlInv o' m' := by
  unfold Link.ControlInv at h ⊢
  cases hc : s.control with
  | recv =>
      rw [hc] at h
      exact ⟨ho', h.2⟩
  | copying msg k =>
      rw [hc] at h
      exact absurd h.1 ho
  | computing =>
      rw [hc] at h
      exact ⟨ho', h.2⟩

/-- The same for the parser's thread, while the control thread moves the slot. -/
theorem Link.ParserInv.handOver {s s' : Link} {o o' : Holder} {m m' : Message}
    (h : s.ParserInv o m) (ho : o ≠ .sender) (ho' : o' ≠ .sender)
    (hparser : s'.parser = s.parser)
    (hreceived : s'.history.received = s.history.received)
    (hqueued : s'.history.queued = s.history.queued) : s'.ParserInv o' m' := by
  unfold Link.ParserInv at h ⊢
  rw [hparser, hreceived, hqueued]
  cases hp : s.parser with
  | idle => exact ho'
  | urgent buff =>
      rw [hp] at h
      exact ⟨ho', h.2⟩
  | copying buff msg k =>
      rw [hp] at h
      exact absurd h.1 ho
  | leaving => exact ho'
  | faulted => exact ho'

/-! ## A copy, byte by byte -/

/-- One more byte of a copy, in front of what is there. -/
theorem copied_succ {dst src : Message} {k : ℕ} (hlt : k < 16)
    (h : ∀ j : Fin 16, j.val < k → dst j = src j) (j : Fin 16)
    (hj : j.val < k + 1) :
    Function.update dst ⟨k, hlt⟩ (src ⟨k, hlt⟩) j = src j := by
  by_cases hjk : j = ⟨k, hlt⟩
  · rw [hjk, Function.update_self]
  · rw [Function.update_of_ne hjk]
    have hne : j.val ≠ k := fun heq => hjk (Fin.ext heq)
    exact h j (by omega)

theorem eq_of_copied {dst src : Message} {k : ℕ} (hk : ¬ k < 16)
    (h : ∀ j : Fin 16, j.val < k → dst j = src j) : dst = src := by
  funext j
  exact h j (by omega)

/-! ## What each step preserves -/

section Steps

variable {s t : Link} {o : Holder} {m : Message}

/-- **A packet arrives.** -/
theorem Link.Inv.receive (h : s.Inv o m) {data : List UInt8} {alloc : Bool}
    (hs : s.receive data alloc = some t) : ∃ o' m', t.Inv o' m' := by
  obtain ⟨hidle, hcase⟩ := Link.receive_cases hs
  have hparser := h.parser
  unfold Link.ParserInv at hparser
  rw [hidle] at hparser
  rcases hcase with ⟨_, rfl⟩ | ⟨_, _, rfl⟩ | ⟨_, _, rfl⟩
  · exact ⟨o, m, h.slot, h.body, h.queued, h.received, hparser, h.control,
      h.used⟩
  · exact ⟨o, m, h.slot, h.body, h.queued, h.received, hparser, h.control,
      h.used⟩
  · refine ⟨o, m, h.slot, h.body, h.queued,
      h.received.trans (List.sublist_append_left _ _),
      ⟨hparser, _, rfl, h.received⟩, h.control, ?_⟩
    intro u hu
    exact (h.used u hu).mono _

/-- The parser's thread calls `rt_mq_urgent`: the packet gets the slot if it
is free and is dropped otherwise. -/
theorem Link.Inv.stepParser_urgent (h : s.Inv o m) {buff : List UInt8}
    (hp : s.parser = .urgent buff) (hs : s.stepParser = some t) :
    ∃ o' m', t.Inv o' m' := by
  obtain ⟨mq, parser, control, speed, history⟩ := s
  obtain rfl : parser = .urgent buff := hp
  obtain ⟨hsender, before, hbefore, hsub⟩ := h.parser
  simp only [Link.stepParser, h.slot.urgentTake] at hs
  by_cases ho : o = .pool
  · -- a free slot: the packet is the last one queued
    subst ho
    obtain rfl := Option.some.inj hs
    have hqueued : history.queued = history.delivered := by
      have hall := h.queued
      simpa using hall
    refine ⟨.sender, pairOf buff, h.slot.taken, by simp, ?_, ?_,
      ⟨rfl, rfl, rfl, Nat.zero_le _, ?_⟩,
      h.control.handOver (by decide) (by decide), h.used⟩
    · show history.queued ++ [pairOf buff] = history.delivered ++ [pairOf buff]
      rw [hqueued]
    · show (history.queued ++ [pairOf buff]).Sublist history.received
      rw [hbefore]
      exact hsub.append (List.Sublist.refl _)
    · intro j hj
      exact absurd hj (Nat.not_lt_zero _)
  · -- -RT_EFULL
    rw [if_neg ho] at hs
    obtain rfl := Option.some.inj hs
    exact ⟨o, m, h.slot, h.body, h.queued, h.received, hsender, h.control, h.used⟩

/-- The parser's thread copies a byte into the slot, or is done and links it. -/
theorem Link.Inv.stepParser_copying (h : s.Inv o m) {buff : List UInt8}
    {msg k : ℕ} (hp : s.parser = .copying buff msg k)
    (hs : s.stepParser = some t) : ∃ o' m', t.Inv o' m' := by
  obtain ⟨mq, parser, control, speed, history⟩ := s
  obtain rfl : parser = .copying buff msg k := hp
  obtain ⟨ho, hmsg, hbuff, hk, hcopied⟩ := h.parser
  subst ho hmsg hbuff
  simp only [Link.stepParser] at hs
  split_ifs at hs with hlt
  · obtain rfl := Option.some.inj hs
    refine ⟨.sender, pairOf buff, h.slot.writeByte _ _ _, by simp, h.queued,
      h.received, ⟨rfl, rfl, rfl, hlt, ?_⟩,
      h.control.handOver (by decide) (by decide), h.used⟩
    intro j hj
    show Function.update mq.body 0 (Function.update (mq.body 0) ⟨k, hlt⟩ _) 0 j = _
    rw [Function.update_self]
    exact copied_succ hlt hcopied j hj
  · obtain rfl := Option.some.inj hs
    have hbody : mq.body 0 = pairOf buff := eq_of_copied hlt hcopied
    exact ⟨.queue, pairOf buff, h.slot.urgentLink, fun _ => hbody, h.queued,
      h.received, (fun h => nomatch h), h.control.handOver (by decide) (by decide), h.used⟩

/-- **The parser's thread makes a step.** -/
theorem Link.Inv.stepParser (h : s.Inv o m) (hs : s.stepParser = some t) :
    ∃ o' m', t.Inv o' m' := by
  cases hp : s.parser with
  | idle => exact absurd hs (by simp [Link.stepParser, hp])
  | urgent buff => exact h.stepParser_urgent hp hs
  | copying buff msg k => exact h.stepParser_copying hp hs
  | leaving =>
      obtain ⟨mq, parser, control, speed, history⟩ := s
      obtain rfl : parser = .leaving := hp
      obtain rfl := Option.some.inj hs
      exact ⟨o, m, h.slot, h.body, h.queued, h.received, h.parser, h.control,
        h.used⟩
  | faulted => exact absurd hs (by simp [Link.stepParser, hp])

/-- What is recorded of a call of `rt_mq_recv` outside `recvCb`. -/
theorem Link.quietNow_eq_some {q : Quiet} (hq : s.quietNow = some q) :
    s.parser = .idle ∧ s.history.received.getLast? = some q.newest
      ∧ q.lastQueued = s.history.queued.getLastD zeroPair := by
  unfold Link.quietNow at hq
  split at hq
  · next newest hidle hlast =>
      obtain rfl := Option.some.inj hq
      exact ⟨hidle, hlast, rfl⟩
  · exact absurd hq (by simp)

/-- The control thread calls `rt_mq_recv`: it takes the slot if the slot is
linked, and leaves `speed` as it is otherwise. -/
theorem Link.Inv.stepControl_recv (h : s.Inv o m) (hc : s.control = .recv)
    (hs : s.stepControl = some t) : ∃ o' m', t.Inv o' m' := by
  have hquiet : ∀ q ∈ s.quietNow, q.lastQueued = s.history.queued.getLastD zeroPair
      ∧ o ≠ .sender := by
    intro q hq
    obtain ⟨hidle, -, hlast⟩ := Link.quietNow_eq_some hq
    have hparser := h.parser
    rw [Link.ParserInv, hidle] at hparser
    exact ⟨hlast, hparser⟩
  obtain ⟨mq, parser, control, speed, history⟩ := s
  obtain rfl : control = .recv := hc
  obtain ⟨hreceiver, hspeed⟩ := h.control
  have hentry := h.slot.entry
  simp only [Link.stepControl] at hs
  by_cases ho : o = .queue
  · -- the linked message is the last one queued
    subst ho
    obtain ⟨mq', htake, hslot, hbody⟩ := h.slot.recvTake
    have hone : mq.entry = 1 := hentry
    rw [hone, if_neg (by decide), htake] at hs
    obtain rfl := Option.some.inj hs
    have hm : mq.body 0 = m := h.body (.inl rfl)
    refine ⟨.receiver, m, hslot, fun _ => by rw [hbody, hm], h.queued,
      h.received, h.parser.handOver (by decide) (by decide) rfl rfl rfl,
      ⟨rfl, rfl, Nat.zero_le _, ?_, ?_⟩, h.used⟩
    · intro j hj
      exact absurd hj (Nat.not_lt_zero _)
    · intro q hq
      obtain ⟨hlast, -⟩ := hquiet q hq
      have hqueued : history.queued = history.delivered ++ [m] := h.queued
      rw [hlast, hqueued]
      simp
  · have hzero : mq.entry = 0 := by
      rw [hentry, if_neg ho]
    rw [if_pos hzero] at hs
    obtain rfl := Option.some.inj hs
    refine ⟨o, m, h.slot, h.body, h.queued, h.received, h.parser,
      ⟨hreceiver, hspeed, ?_⟩, h.used⟩
    intro q hq
    obtain ⟨hlast, hsender⟩ := hquiet q hq
    -- outside recvCb an empty queue has its slot in the pool
    have hpool : o = .pool := by
      cases o with
      | pool => rfl
      | sender => exact absurd rfl hsender
      | queue => exact absurd rfl ho
      | receiver => exact absurd rfl hreceiver
    have hqueued : history.queued = history.delivered := by
      have hall := h.queued
      rw [if_pos hpool, List.append_nil] at hall
      exact hall
    rw [hlast, hqueued]
    exact hspeed

/-- The control thread copies a byte of the slot, or is done and frees it. -/
theorem Link.Inv.stepControl_copying (h : s.Inv o m) {msg k : ℕ}
    (hc : s.control = .copying msg k) (hs : s.stepControl = some t) :
    ∃ o' m', t.Inv o' m' := by
  obtain ⟨mq, parser, control, speed, history⟩ := s
  obtain rfl : control = .copying msg k := hc
  obtain ⟨ho, hmsg, hk, hcopied, hq⟩ := h.control
  subst ho hmsg
  have hm : mq.body 0 = m := h.body (.inr rfl)
  have hsize : mq.msgSize = 16 := h.slot.msgSize
  simp only [Link.stepControl, hsize, Nat.min_self] at hs
  split_ifs at hs with hlt
  · obtain rfl := Option.some.inj hs
    refine ⟨.receiver, m, h.slot, h.body, h.queued, h.received, h.parser,
      ⟨rfl, rfl, hlt, ?_, hq⟩, h.used⟩
    intro j hj
    show Function.update speed ⟨k, hlt⟩ (mq.body 0 ⟨k, hlt⟩) j = m j
    rw [hm]
    exact copied_succ hlt hcopied j hj
  · obtain rfl := Option.some.inj hs
    have hspeed : speed = m := eq_of_copied hlt hcopied
    refine ⟨.pool, m, h.slot.recvFree, by simp, ?_, h.received,
      h.parser.handOver (by decide) (by decide) rfl rfl rfl,
      ⟨by decide, ?_, ?_⟩, h.used⟩
    · -- what was queued is now delivered
      show history.queued = history.delivered ++ [speed] ++ []
      rw [h.queued, hspeed]
      simp
    · show speed = (history.delivered ++ [speed]).getLastD zeroPair
      simp
    · intro q hq'
      rw [hspeed]
      exact hq q hq'

/-- The control thread turns `speed` into setpoints. -/
theorem Link.Inv.stepControl_computing (h : s.Inv o m)
    (hc : s.control = .computing) (hs : s.stepControl = some t) :
    ∃ o' m', t.Inv o' m' := by
  obtain ⟨mq, parser, control, speed, history⟩ := s
  obtain rfl : control = .computing := hc
  obtain ⟨hreceiver, hspeed, hq⟩ := h.control
  obtain rfl := Option.some.inj hs
  refine ⟨o, m, h.slot, h.body, h.queued, h.received, h.parser,
    ⟨hreceiver, hspeed⟩, ?_⟩
  intro u hu
  rcases List.mem_append.mp hu with hu | hu
  · exact h.used u hu
  · rw [List.mem_singleton.mp hu]
    refine ⟨?_, hq⟩
    show speed = zeroPair ∨ speed ∈ history.received
    rcases List.mem_cons.mp
      (List.getLastD_mem_cons (l := history.delivered) (a := zeroPair))
      with hz | hmem
    · exact .inl (hspeed.trans hz)
    · right
      have hqueued : history.delivered.getLastD zeroPair ∈ history.queued := by
        rw [h.queued]
        exact List.mem_append_left _ hmem
      rw [← hspeed] at hqueued
      exact h.received.subset hqueued

/-- **The control thread makes a step.** -/
theorem Link.Inv.stepControl (h : s.Inv o m) (hs : s.stepControl = some t) :
    ∃ o' m', t.Inv o' m' := by
  cases hc : s.control with
  | recv => exact h.stepControl_recv hc hs
  | copying msg k => exact h.stepControl_copying hc hs
  | computing => exact h.stepControl_computing hc hs

theorem Link.Inv.step (h : s.Inv o m) {a : Action} (hs : s.step a = some t) :
    ∃ o' m', t.Inv o' m' := by
  cases a with
  | receive data alloc => exact h.receive hs
  | parser => exact h.stepParser hs
  | control => exact h.stepControl hs

end Steps

/-- The invariant holds in every state of every interleaving. -/
theorem Link.Reachable.inv {next : ℕ → Option ℕ} {body : ℕ → Message} {s : Link}
    (h : Link.Reachable next body s) : ∃ o m, s.Inv o m := by
  refine Reach.inv (P := fun s : Link => ∃ o m, s.Inv o m) h
    ⟨_, _, Link.Inv.start next body⟩ ?_
  intro s a t hinv hs
  obtain ⟨o, m, hinv⟩ := hinv
  exact hinv.step hs

/-- **No torn, duplicated or reordered command.** In every interleaving what
`rt_mq_recv` delivered is a subsequence of what was received, and every pair
turned into setpoints is the initial one or one received packet's. -/
theorem delivered_in_order (next : ℕ → Option ℕ) (body : ℕ → Message) (s : Link)
    (h : Link.Reachable next body s) :
    s.history.delivered.Sublist s.history.received
      ∧ ∀ u ∈ s.history.used, u.pair = zeroPair ∨ u.pair ∈ s.history.received := by
  obtain ⟨o, m, hinv⟩ := h.inv
  constructor
  · have hqueued : s.history.delivered.Sublist s.history.queued := by
      rw [hinv.queued]
      exact List.sublist_append_left _ _
    exact hqueued.trans hinv.received
  · intro u hu
    exact (hinv.used u hu).pair

/-! ## Two packets before one iteration -/

/-- A packet carrying a command to drive. -/
def drivePacket : List UInt8 := List.replicate 16 64

/-- A packet carrying a command to stop. -/
def stopPacket : List UInt8 := List.replicate 16 0

/-- Both packets are handled, then the control loop runs one iteration. -/
def twoPackets : List Action :=
  .receive drivePacket true :: List.replicate 19 .parser
    ++ .receive stopPacket true :: List.replicate 2 .parser
    ++ List.replicate 19 .control

/-- The second packet found no slot, and only the first one is delivered. -/
theorem delivered_in_order_twoPackets :
    ∃ s, Link.Reachable (fun _ => none) (fun _ => zeroPair) s
      ∧ s.history.received = [pairOf drivePacket, pairOf stopPacket]
      ∧ s.history.delivered = [pairOf drivePacket]
      ∧ s.history.used.map Use.pair = [pairOf drivePacket]
      ∧ s.history.delivered.Sublist s.history.received := by
  have hrun : (exec Link.step (Link.start (fun _ => none) fun _ => zeroPair) twoPackets).map
      (fun s => (s.history.received, s.history.delivered, s.history.used.map Use.pair))
    = some ([pairOf drivePacket, pairOf stopPacket], [pairOf drivePacket],
      [pairOf drivePacket]) := by
    decide +kernel
  obtain ⟨s, hs, hhist⟩ := Option.map_eq_some_iff.mp hrun
  simp only [Prod.mk.injEq] at hhist
  obtain ⟨hreceived, hdelivered, hused⟩ := hhist
  have hreach : Link.Reachable (fun _ => none) (fun _ => zeroPair) s := Reach.exec .refl hs
  exact ⟨s, hreach, hreceived, hdelivered, hused, (delivered_in_order _ _ s hreach).1⟩

end DiffCar
