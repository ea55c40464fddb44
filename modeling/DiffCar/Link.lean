import DiffCar.Lib.Reach
import DiffCar.MessageQueue

/-!
# Link — from the packet to the control loop

The AT parser's thread runs `recvCb` (`applications/tcpserver_esp8266.cpp`)
for every packet, `speedThread` (`applications/main.cpp`) receives at the top
of its loop. Either may preempt the other wherever interrupts are enabled, so
an action of the system is one atomic section of the queue, or one byte of a
copy, of either thread.

`History` is ghost state: what was handed over so far, and what the control
loop used. Nothing in the program reads it.
-/

namespace DiffCar

open Interleave

/-- The two doubles at the front of a packet, as bytes. -/
def pairOf (data : List UInt8) : Message := fun k => data.getD k 0

/-- The initial `{0.0, 0.0}`. -/
def zeroPair : Message := fun _ => 0

/-- Where the parser's thread is. -/
inductive Parser where
  /-- outside `recvCb` -/
  | idle
  /-- about to call `rt_mq_urgent` -/
  | urgent (buff : List UInt8)
  /-- inside `rt_mq_urgent`, `k` bytes copied into the slot -/
  | copying (buff : List UInt8) (msg k : ℕ)
  /-- about to free `buff` and return -/
  | leaving
  /-- `rt_malloc` failed and `memcpy` wrote through the null pointer -/
  | faulted

/-- Where `speedThread` is. -/
inductive Control where
  /-- about to call `rt_mq_recv` -/
  | recv
  /-- inside `rt_mq_recv`, `k` bytes of the slot copied into `speed` -/
  | copying (msg k : ℕ)
  /-- past `rt_mq_recv`, about to turn `speed` into setpoints -/
  | computing

/-- What held when an iteration called `rt_mq_recv` outside any `recvCb`: the
last packet received, and the last one that had found a slot. -/
structure Quiet where
  newest : Message
  lastQueued : Message
  deriving DecidableEq

/-- The pair an iteration turned into setpoints, and how it came to it. -/
structure Use where
  quiet : Option Quiet
  pair : Message

/-- Ghost state. `received` lists the pairs of the packets of at least 16
bytes that `recvCb` was called with, `queued` those whose `rt_mq_urgent` found
a slot, `delivered` those that `rt_mq_recv` returned. -/
structure History where
  received : List Message
  queued : List Message
  delivered : List Message
  quiet : Option Quiet
  used : List Use

/-- The two threads, the queue between them, and the static `speed`. -/
structure Link where
  mq : MessageQueue
  parser : Parser
  control : Control
  speed : Message
  history : History

/-- After `at_client_test_init`, whatever the pool held. -/
def Link.start (next : ℕ → Option ℕ) (body : ℕ → Message) : Link where
  mq := rtMqInit next body 16 (2 * 2 * 8)
  parser := .idle
  control := .recv
  speed := zeroPair
  history := ⟨[], [], [], none, []⟩

/-- The next move of the system: a packet arrives (and `rt_malloc` finds
memory for it or not), or one of the threads goes on. -/
inductive Action where
  | receive (data : List UInt8) (alloc : Bool)
  | parser
  | control

/-- `recvCb` is called. -/
def Link.receive (s : Link) (data : List UInt8) (alloc : Bool) : Option Link :=
  match s.parser with
  | .idle =>
      -- memcpy comes before the length check
      if !alloc then some { s with parser := .faulted }
      else if data.length < 16 then some { s with parser := .leaving }
      else some
        { s with
          parser := .urgent data
          history := { s.history with
            received := s.history.received ++ [pairOf data] } }
  | _ => none

/-- All that a call of `recvCb` can do at first, by the length and the
allocation. -/
theorem Link.receive_cases {s t : Link} {data : List UInt8} {alloc : Bool}
    (hs : s.receive data alloc = some t) :
    s.parser = .idle
      ∧ ((alloc = false ∧ t = { s with parser := .faulted })
        ∨ (alloc = true ∧ data.length < 16 ∧ t = { s with parser := .leaving })
        ∨ (alloc = true ∧ ¬ data.length < 16 ∧ t =
            { s with
              parser := .urgent data
              history := { s.history with
                received := s.history.received ++ [pairOf data] } })) := by
  unfold Link.receive at hs
  split at hs
  · rename_i hidle
    refine ⟨hidle, ?_⟩
    split_ifs at hs with halloc hshort
    · exact .inl ⟨by simpa using halloc, (Option.some.inj hs).symm⟩
    · exact .inr (.inl ⟨by simpa using halloc, hshort, (Option.some.inj hs).symm⟩)
    · exact .inr (.inr ⟨by simpa using halloc, hshort, (Option.some.inj hs).symm⟩)
  · exact absurd hs (by simp)

/-- The parser's thread goes on in `recvCb`. -/
def Link.stepParser (s : Link) : Option Link :=
  match s.parser with
  | .idle => none
  | .urgent buff =>
      match rtMqUrgentTake s.mq 16 with
      | .error _ => some { s with parser := .leaving }
      | .ok (mq, msg) => some
          { s with
            mq := mq
            parser := .copying buff msg 0
            history := { s.history with
              queued := s.history.queued ++ [pairOf buff] } }
  | .copying buff msg k =>
      if h : k < 16 then some
        { s with
          mq := s.mq.writeByte msg ⟨k, h⟩ (buff.getD k 0)
          parser := .copying buff msg (k + 1) }
      else some { s with mq := rtMqUrgentLink s.mq msg, parser := .leaving }
  | .leaving => some { s with parser := .idle }
  | .faulted => none

/-- The ghost record of a call of `rt_mq_recv`. -/
def Link.quietNow (s : Link) : Option Quiet :=
  match s.parser, s.history.received.getLast? with
  | .idle, some newest => some ⟨newest, s.history.queued.getLastD zeroPair⟩
  | _, _ => none

/-- `speedThread` goes on. -/
def Link.stepControl (s : Link) : Option Link :=
  match s.control with
  | .recv =>
      let history := { s.history with quiet := s.quietNow }
      if s.mq.entry = 0 then
        -- the timeout is 0: -RT_ETIMEOUT, and speed stays
        some { s with control := .computing, history := history }
      else
        match rtMqRecvTake s.mq with
        | none => none
        | some (mq, msg) =>
            some { s with mq := mq, control := .copying msg 0, history := history }
  | .copying msg k =>
      if h : k < min s.mq.msgSize 16 then
        let k' : Fin 16 := ⟨k, by omega⟩
        some
          { s with
            speed := Function.update s.speed k' (s.mq.body msg k')
            control := .copying msg (k + 1) }
      else some
        { s with
          mq := rtMqRecvFree s.mq msg
          control := .computing
          history := { s.history with
            delivered := s.history.delivered ++ [s.speed] } }
  | .computing => some
      { s with
        control := .recv
        history := { s.history with
          used := s.history.used ++ [⟨s.history.quiet, s.speed⟩] } }

/-- One action of the system. -/
def Link.step (s : Link) : Action → Option Link
  | .receive data alloc => s.receive data alloc
  | .parser => s.stepParser
  | .control => s.stepControl

/-- The states any interleaving leads to. -/
abbrev Link.Reachable (next : ℕ → Option ℕ) (body : ℕ → Message) : Link → Prop :=
  Reach Link.step (Link.start next body)

/-- What a call of `rt_mq_urgent` has to start with: a slot on the free list,
or the packet's own pair in the only slot. -/
def Link.SlotFree (s : Link) (a : Action) : Prop :=
  match a, s.parser with
  | .parser, .urgent buff => s.mq.free ≠ none ∨ s.mq.body 0 = pairOf buff
  | _, _ => True

instance : (s : Link) → (a : Action) → Decidable (s.SlotFree a)
  | ⟨mq, .urgent buff, _, _, _⟩, .parser =>
      inferInstanceAs (Decidable (mq.free ≠ none ∨ mq.body 0 = pairOf buff))
  | ⟨_, .idle, _, _, _⟩, .parser => .isTrue trivial
  | ⟨_, .copying _ _ _, _, _, _⟩, .parser => .isTrue trivial
  | ⟨_, .leaving, _, _, _⟩, .parser => .isTrue trivial
  | ⟨_, .faulted, _, _, _⟩, .parser => .isTrue trivial
  | _, .receive _ _ => .isTrue trivial
  | _, .control => .isTrue trivial

end DiffCar
