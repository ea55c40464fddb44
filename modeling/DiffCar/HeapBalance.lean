import DiffCar.TcpServer

/-!
# HeapBalance — who frees the receive buffer

`recvCb` frees its own copy on every path, `urc_recv_func` frees its receive
buffer when the read fails. When the read succeeds nobody does: each packet
that is received leaves one block behind.
-/

namespace DiffCar

/-- The payload of the notification is received: the header announces one,
memory is found for it, and the serial line delivers it. -/
def Notification.Received (n : Notification) : Prop :=
  ∃ payload, n.Delivers payload ∧ n.calloc = true

/-- **`recvCb` is balanced**, whatever the queue says. -/
theorem live_recvCb (h : BlockHeap) (data : List UInt8) (urgent : Bool) :
    (recvCb h data true urgent).heap.live = h.live := by
  unfold recvCb
  simp only [Bool.not_true, Bool.false_eq_true, if_false]
  split
  · exact h.live_alloc_free
  · exact h.live_alloc_free

/-- **A received packet leaves its buffer behind.** -/
theorem live_of_received {n : Notification} (h : n.Received)
    (hmalloc : n.malloc = true) (fuel : ℕ) (heap : BlockHeap) :
    (urcRecvFunc fuel heap n).heap.live = heap.alloc.1.live := by
  obtain ⟨payload, hdelivers, hcalloc⟩ := h
  rw [urcRecvFunc_of_delivers hdelivers hcalloc, hmalloc]
  exact live_recvCb _ _ _

/-- One call is balanced exactly when it receives nothing. -/
theorem live_urcRecvFunc_iff {n : Notification} (hmalloc : n.malloc = true)
    (fuel : ℕ) (heap : BlockHeap) :
    (urcRecvFunc fuel heap n).heap.live = heap.live ↔ ¬ n.Received := by
  constructor
  · intro hlive hreceived
    rw [live_of_received hreceived hmalloc] at hlive
    exact heap.live_alloc_ne hlive
  · intro hreceived
    exact live_of_not_delivers hreceived fuel heap

/-- The heap after the calls for these notifications. -/
def heapAfter (fuel : ℕ) (h : BlockHeap) (ns : List Notification) : BlockHeap :=
  Reactive.final (urcStep fuel) h ns

/-- **Heap balance of the packet path.** Over any sequence of notifications
for which `recvCb` finds memory, every call leaves the live blocks as it found
them if and only if no notification's payload is received. -/
theorem heap_balance_iff (fuel : ℕ) (h : BlockHeap) (ns : List Notification)
    (hmalloc : ∀ n ∈ ns, n.malloc = true) :
    (∀ k, k < ns.length →
        (heapAfter fuel h (ns.take (k + 1))).live
          = (heapAfter fuel h (ns.take k)).live)
      ↔ ∀ n ∈ ns, ¬ n.Received := by
  -- the call at position k is one call, from the heap the calls before it left
  have hcall : ∀ k (hk : k < ns.length),
      (heapAfter fuel h (ns.take (k + 1))).live
          = (heapAfter fuel h (ns.take k)).live
        ↔ ¬ ns[k].Received := by
    intro k hk
    rw [List.take_succ_eq_append_getElem hk, heapAfter, Reactive.final_append]
    exact live_urcRecvFunc_iff (hmalloc _ (List.getElem_mem hk)) fuel _
  constructor
  · intro hbalance n hn
    obtain ⟨k, hk, rfl⟩ := List.getElem_of_mem hn
    exact (hcall k hk).mp (hbalance k hk)
  · intro hnone k hk
    exact (hcall k hk).mpr (hnone _ (List.getElem_mem hk))

/-- A stop command whose line falls silent after eight bytes. -/
def cutNotification : Notification :=
  { stopNotification with serial := List.replicate 8 (some 0) }

theorem heap_balance_cut :
    (heapAfter 0 BlockHeap.empty [cutNotification]).live = BlockHeap.empty.live :=
  (heap_balance_iff 0 BlockHeap.empty [cutNotification] (by
    intro n hn
    rw [List.mem_singleton.mp hn]
    rfl)).mpr (by
      intro n hn
      rw [List.mem_singleton.mp hn]
      rintro ⟨payload, hdelivers, _⟩
      have hrecv := atClientObjRecv_eq_some.mpr
        ⟨hdelivers.length.symm, hdelivers.length ▸ hdelivers.serial⟩
      have hnone : (atClientObjRecv (parseHeader cutNotification.data).2.toNat
          cutNotification.serial).1 = none := rfl
      rw [hnone] at hrecv
      exact Option.some_ne_none payload hrecv.symm) 0 (by decide)

/-- One stop command received: one block more is live. -/
theorem heap_balance_broken :
    stopNotification.malloc = true
      ∧ (urcRecvFunc 0 BlockHeap.empty stopNotification).heap.live
        ≠ BlockHeap.empty.live := by
  refine ⟨rfl, ?_⟩
  decide

end DiffCar
