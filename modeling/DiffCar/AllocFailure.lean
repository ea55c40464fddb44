import DiffCar.HeapBalance

/-!
# AllocFailure — a packet for which memory runs out

`urc_recv_func` checks its `rt_calloc` and cleans the line instead. `recvCb`
does not check its `rt_malloc`: a packet that has come through whole is then
copied to address zero.
-/

namespace DiffCar

/-- The queue after the calls of `rt_mq_urgent` among these events. -/
def queueAfter (mq : MessageQueue) (events : List UrcEvent) : MessageQueue :=
  (messages events).foldl (fun mq message => (rtMqUrgent mq message).getD mq) mq

theorem messages_drain (fuel : ℕ) (bfsz tempSize : BitVec 32) (timeout : ℤ)
    (serial : List (Option UInt8)) :
    messages (drain fuel bfsz tempSize timeout serial).1 = [] := by
  induction fuel generalizing tempSize serial with
  | zero => rfl
  | succ fuel ih =>
      rw [drain]
      by_cases hlt : tempSize < bfsz
      · rw [if_pos hlt]
        exact ih _ _
      · rw [if_neg hlt]
        rfl

/-- A packet that is not received hands nothing over and faults nowhere. -/
theorem clean_of_not_received {n : Notification} (h : ¬ n.Received) (fuel : ℕ)
    (heap : BlockHeap) :
    (urcRecvFunc fuel heap n).status ≠ .faulted
      ∧ messages (urcRecvFunc fuel heap n).events = [] := by
  rcases urcRecvFunc_of_not_delivers h fuel heap with hcall | hcall | hcall
  · rw [hcall]
    exact ⟨nofun, rfl⟩
  · rw [hcall]
    constructor
    · show (if _ then UrcStatus.returned else .draining) ≠ .faulted
      split
      · decide
      · decide
    · exact messages_drain fuel _ _ _ _
  · rw [hcall]
    exact ⟨nofun, rfl⟩

/-- With memory for its copy `recvCb` does not fault. -/
theorem status_recvCb (h : BlockHeap) (data : List UInt8) (urgent : Bool) :
    (recvCb h data true urgent).status = .returned := by
  unfold recvCb
  simp only [Bool.not_true, Bool.false_eq_true, if_false]
  split
  · rfl
  · rfl

theorem status_of_received {n : Notification} (h : n.Received) (fuel : ℕ)
    (heap : BlockHeap) :
    (urcRecvFunc fuel heap n).status = if n.malloc then .returned else .faulted := by
  obtain ⟨payload, hdelivers, hcalloc⟩ := h
  rw [urcRecvFunc_of_delivers hdelivers hcalloc]
  cases hmalloc : n.malloc with
  | false => rfl
  | true => exact status_recvCb _ _ _

/-- With both allocations a payload of 16 bytes or more is one call of
`rt_mq_urgent`. -/
theorem queueAfter_of_delivers {n : Notification} {payload : List UInt8}
    (h : n.Delivers payload) (hcalloc : n.calloc = true) (hmalloc : n.malloc = true)
    (hlen : 16 ≤ payload.length) (fuel : ℕ) (heap : BlockHeap) (mq : MessageQueue) :
    queueAfter mq (urcRecvFunc fuel heap n).events
      = (rtMqUrgent mq (pairOf payload)).getD mq := by
  have hmessages : messages (urcRecvFunc fuel heap n).events = [pairOf payload] := by
    rw [urcRecvFunc_of_delivers h hcalloc, hmalloc, recvCb]
    simp only [Bool.not_true, Bool.false_eq_true, if_false,
      if_neg (Nat.not_lt.mpr hlen)]
    cases n.urgent
    · rfl
    · rfl
  rw [queueAfter, hmessages]
  rfl

/-- The packet is handled without a fault, and if one of the two allocations
fails the queue is what it was. -/
def Clean (fuel : ℕ) (heap : BlockHeap) (mq : MessageQueue) (n : Notification) :
    Prop :=
  (urcRecvFunc fuel heap n).status ≠ .faulted
    ∧ (n.calloc = false ∨ n.malloc = false →
      queueAfter mq (urcRecvFunc fuel heap n).events = mq)

/-- **When running out of memory is clean.** For every packet, heap and queue
and every outcome of the two allocations: exactly when `recvCb` finds memory,
or the packet is not received and `recvCb` is not called. -/
theorem alloc_failure_iff (fuel : ℕ) (heap : BlockHeap) (mq : MessageQueue)
    (n : Notification) :
    Clean fuel heap mq n ↔ n.malloc = true ∨ ¬ n.Received := by
  constructor
  · rintro ⟨hstatus, -⟩
    by_cases hreceived : n.Received
    · left
      rw [status_of_received hreceived] at hstatus
      by_contra hmalloc
      rw [if_neg hmalloc] at hstatus
      exact hstatus rfl
    · exact .inr hreceived
  · intro hcond
    by_cases hreceived : n.Received
    · have hmalloc : n.malloc = true := hcond.resolve_right (not_not.mpr hreceived)
      constructor
      · rw [status_of_received hreceived, if_pos hmalloc]
        decide
      · -- received and copied: no allocation failed
        obtain ⟨_, _, hcalloc⟩ := hreceived
        rintro (hfail | hfail)
        · exact absurd (hcalloc.symm.trans hfail) (by decide)
        · exact absurd (hmalloc.symm.trans hfail) (by decide)
    · obtain ⟨hstatus, hmessages⟩ := clean_of_not_received hreceived fuel heap
      refine ⟨hstatus, ?_⟩
      intro _
      rw [queueAfter, hmessages]
      rfl

/-- A stop command is received, and there is no memory for the copy. -/
theorem alloc_failure_faults :
    (urcRecvFunc 0 BlockHeap.empty { stopNotification with malloc := false }).status
      = .faulted := by
  decide

end DiffCar
