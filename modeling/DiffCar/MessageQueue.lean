import Mathlib.Data.Fintype.Pi
import Mathlib.Logic.Function.Basic

/-!
# MessageQueue — the kernel's message queue

`rt-thread/src/ipc.c`. The pool is cut into slots, each a header with the
`next` pointer and a message; a slot is named by its index in the pool, a null
pointer is `none`. The functions run with interrupts disabled except while
they copy, so each is modelled as its atomic sections: `rt_mq_urgent` takes a
slot off the free list and later links it at the head (`rt_mq_send` behind the
tail), `rt_mq_recv` takes the head off the queue and later puts it back on the
free list. The copies run
between the sections.

Nobody ever waits on this queue: its one reader passes a timeout of zero and
its one writer never blocks, so the lists of suspended threads are left out.

`Slot1 mq o` is the shape of a queue of one slot with `o` its holder. The
sections hand the slot around: pool, sender, queue, receiver, pool.
-/

namespace DiffCar

/-- The `2*sizeof(double)` bytes of a message. -/
abbrev Message := Fin 16 → UInt8

/-- `struct rt_messagequeue`, with the headers and bodies of its slots. The
members `msg_size`, `max_msgs` and `entry` are of 16 bits. -/
structure MessageQueue where
  msgSize : ℕ
  maxMsgs : ℕ
  head : Option ℕ
  tail : Option ℕ
  free : Option ℕ
  entry : ℕ
  next : ℕ → Option ℕ
  body : ℕ → Message

/-- `RT_ALIGN_SIZE`. -/
def rtAlignSize : ℕ := 4

/-- `RT_ALIGN(size, align)`, for a power of two. -/
def rtAlign (size align : ℕ) : ℕ := (size + align - 1) / align * align

/-- `sizeof(struct rt_mq_message)`: one pointer. -/
def sizeofMqMessage : ℕ := 4

/-- One round of the loop of `rt_mq_init` that builds the free list. -/
def initRound (mq : MessageQueue) (temp : ℕ) : MessageQueue :=
  { mq with next := Function.update mq.next temp mq.free, free := some temp }

/-- `rt_mq_init` over a pool whose slots held `next` and `body`. -/
def rtMqInit (next : ℕ → Option ℕ) (body : ℕ → Message) (msgSize poolSize : ℕ) :
    MessageQueue :=
  let msgSize := rtAlign msgSize rtAlignSize % 2 ^ 16
  let maxMsgs := poolSize / (msgSize + sizeofMqMessage) % 2 ^ 16
  (List.range maxMsgs).foldl initRound
    { msgSize := msgSize
      maxMsgs := maxMsgs
      head := none
      tail := none
      free := none
      entry := 0
      next := next
      body := body }

/-- How a sender fails. -/
inductive MqError where
  /-- `-RT_ERROR`: longer than a message -/
  | error
  /-- `-RT_EFULL` -/
  | full

/-- The first section of `rt_mq_urgent`: a slot off the free list. -/
def rtMqUrgentTake (mq : MessageQueue) (size : ℕ) : Except MqError (MessageQueue × ℕ) :=
  if mq.msgSize < size then .error .error
  else
    match mq.free with
    | none => .error .full
    | some msg => .ok ({ mq with free := mq.next msg }, msg)

/-- The second section of `rt_mq_urgent`: link the slot at the head. -/
def rtMqUrgentLink (mq : MessageQueue) (msg : ℕ) : MessageQueue :=
  { mq with
    next := Function.update mq.next msg mq.head
    head := some msg
    tail := if mq.tail = none then some msg else mq.tail
    entry := (mq.entry + 1) % 2 ^ 16 }

/-- The first section of `rt_mq_recv` on a queue whose `entry` is not zero:
the head off the queue. There is no result when the head is null. -/
def rtMqRecvTake (mq : MessageQueue) : Option (MessageQueue × ℕ) :=
  match mq.head with
  | none => none
  | some msg => some
      ({ mq with
          head := mq.next msg
          tail := if mq.tail = some msg then none else mq.tail
          entry := (mq.entry + (2 ^ 16 - 1)) % 2 ^ 16 }, msg)

/-- The second section of `rt_mq_recv`: the slot back on the free list. -/
def rtMqRecvFree (mq : MessageQueue) (msg : ℕ) : MessageQueue :=
  { mq with next := Function.update mq.next msg mq.free, free := some msg }

/-- The first section of `rt_mq_send_wait` with a timeout of zero, which is
how `rt_mq_send` calls it. -/
def rtMqSendTake (mq : MessageQueue) (size : ℕ) : Except MqError (MessageQueue × ℕ) :=
  if mq.msgSize < size then .error .error
  else
    match mq.free with
    | none => .error .full
    | some msg => .ok ({ mq with free := mq.next msg }, msg)

/-- `msg->next = RT_NULL` of `rt_mq_send_wait`, with interrupts enabled. -/
def rtMqSendClear (mq : MessageQueue) (msg : ℕ) : MessageQueue :=
  { mq with next := Function.update mq.next msg none }

/-- The second section of `rt_mq_send_wait`: link the slot behind the tail. -/
def rtMqSendLink (mq : MessageQueue) (msg : ℕ) : MessageQueue :=
  { mq with
    next :=
      match mq.tail with
      | none => mq.next
      | some tail => Function.update mq.next tail (some msg)
    tail := some msg
    head := if mq.head = none then some msg else mq.head
    entry := (mq.entry + 1) % 2 ^ 16 }

/-- One byte of the copy of a sender into a slot. -/
def MessageQueue.writeByte (mq : MessageQueue) (msg : ℕ) (k : Fin 16)
    (b : UInt8) : MessageQueue :=
  { mq with body := Function.update mq.body msg (Function.update (mq.body msg) k b) }

/-- `rt_mq_urgent` of a whole message with nothing in between: both sections
and the copy. There is no result when it fails. -/
def rtMqUrgent (mq : MessageQueue) (buffer : Message) : Option MessageQueue :=
  match rtMqUrgentTake mq 16 with
  | .error _ => none
  | .ok (mq, msg) =>
      some (rtMqUrgentLink
        ((List.finRange 16).foldl (fun mq k => mq.writeByte msg k (buffer k)) mq) msg)

/-! ## A queue of one slot -/

/-- Who holds the only slot. -/
inductive Holder where
  | pool
  | sender
  | queue
  | receiver
  deriving DecidableEq

/-- The shape of a queue with one slot, by its holder. -/
structure Slot1 (mq : MessageQueue) (o : Holder) : Prop where
  msgSize : mq.msgSize = 16
  free : mq.free = if o = .pool then some 0 else none
  head : mq.head = if o = .queue then some 0 else none
  tail : mq.tail = if o = .queue then some 0 else none
  entry : mq.entry = if o = .queue then 1 else 0
  next : mq.next 0 = none

variable {mq : MessageQueue}

/-- **A pool of two messages' bytes holds one message**: the slots' headers
take the rest. -/
theorem slot1_init (next : ℕ → Option ℕ) (body : ℕ → Message) :
    Slot1 (rtMqInit next body 16 (2 * 2 * 8)) .pool where
  msgSize := rfl
  free := rfl
  head := rfl
  tail := rfl
  entry := rfl
  next := by
    show Function.update next 0 none 0 = none
    rw [Function.update_self]

/-- `rt_mq_urgent` finds a slot exactly when it lies in the pool. -/
theorem Slot1.urgentTake {o : Holder} (h : Slot1 mq o) :
    rtMqUrgentTake mq 16
      = if o = .pool then .ok ({ mq with free := none }, 0) else .error .full := by
  rw [rtMqUrgentTake, h.msgSize, if_neg (lt_irrefl 16), h.free]
  by_cases ho : o = .pool
  · rw [if_pos ho, if_pos ho, ← h.next]
  · rw [if_neg ho, if_neg ho]

theorem Slot1.taken (h : Slot1 mq .pool) :
    Slot1 { mq with free := none } .sender where
  msgSize := h.msgSize
  free := rfl
  head := h.head
  tail := h.tail
  entry := h.entry
  next := h.next

theorem Slot1.urgentLink (h : Slot1 mq .sender) :
    Slot1 (rtMqUrgentLink mq 0) .queue where
  msgSize := h.msgSize
  free := h.free
  head := rfl
  tail := by
    show (if mq.tail = none then some 0 else mq.tail) = some 0
    rw [h.tail]
    rfl
  entry := by
    show (mq.entry + 1) % 2 ^ 16 = 1
    rw [h.entry]
    rfl
  next := by
    show Function.update mq.next 0 mq.head 0 = none
    rw [Function.update_self, h.head]
    rfl

/-- `rt_mq_recv` on a queue with a message takes the slot. -/
theorem Slot1.recvTake (h : Slot1 mq .queue) :
    ∃ mq', rtMqRecvTake mq = some (mq', 0) ∧ Slot1 mq' .receiver
      ∧ mq'.body = mq.body := by
  rw [rtMqRecvTake, h.head]
  refine ⟨_, rfl, ⟨h.msgSize, h.free, h.next, ?_, ?_, h.next⟩, rfl⟩
  · show (if mq.tail = some 0 then none else mq.tail) = none
    rw [h.tail]
    rfl
  · show (mq.entry + (2 ^ 16 - 1)) % 2 ^ 16 = 0
    rw [h.entry]
    rfl

theorem Slot1.recvFree (h : Slot1 mq .receiver) :
    Slot1 (rtMqRecvFree mq 0) .pool where
  msgSize := h.msgSize
  free := rfl
  head := h.head
  tail := h.tail
  entry := h.entry
  next := by
    show Function.update mq.next 0 mq.free 0 = none
    rw [Function.update_self, h.free]
    rfl

theorem Slot1.writeByte {o : Holder} (h : Slot1 mq o) (msg : ℕ) (k : Fin 16)
    (b : UInt8) : Slot1 (mq.writeByte msg k b) o :=
  ⟨h.msgSize, h.free, h.head, h.tail, h.entry, h.next⟩

end DiffCar
