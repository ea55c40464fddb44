import DiffCar.Lib.Chain
import DiffCar.Lib.Deque
import DiffCar.MessageQueue

/-!
# MessagePool — the message queue under any number of threads

`rt-thread/src/ipc.c`: `rt_mq_send`, `rt_mq_urgent` and `rt_mq_recv`, all
without waiting, over a pool of any size (`max_msgs` is 16 bits wide) and any
threads. Between two sections with interrupts disabled any other thread may
run, so an action is one section, one byte of a copy, or the store
`msg->next = RT_NULL` that `rt_mq_send` makes with interrupts enabled.

The ghost `log` takes down an operation of the abstract `Deque` at the section
that makes it visible. `Layout` is the shape of the memory: two chains of
slots, and an owner for every slot.
-/

namespace DiffCar

open Interleave LinkedCells

variable {τ : Type*}

/-! ## The threads -/

/-- How the last call of a thread ended. -/
inductive Outcome where
  | none
  /-- `RT_EOK` of a sender -/
  | sent
  /-- `-RT_ERROR` or `-RT_EFULL` of a sender -/
  | failed (e : MqError)
  /-- `-RT_ETIMEOUT` -/
  | timeout
  /-- `RT_EOK` of a receiver, with its buffer -/
  | received (buffer : Message)

/-- Where a thread is. -/
inductive Stage where
  /-- outside the three functions -/
  | outside (last : Outcome)
  /-- in `rt_mq_send_wait`, about to store `RT_NULL` -/
  | clearing (buffer : Message) (msg : ℕ)
  /-- in a sender, `k` bytes copied into the slot -/
  | filling (urgent : Bool) (buffer : Message) (msg k : ℕ)
  /-- in `rt_mq_recv`, `k` bytes copied out of the slot -/
  | reading (msg k : ℕ) (buffer : Message)

/-- The slot that a thread alone has a pointer to. -/
def Stage.slot : Stage → Option ℕ
  | .outside _ => none
  | .clearing _ msg => some msg
  | .filling _ _ msg _ => some msg
  | .reading msg _ _ => some msg

/-- The message that is being copied out. -/
def Stage.incoming (mq : MessageQueue) : Stage → List Message
  | .reading msg _ _ => [mq.body msg]
  | _ => []

/-- The queue, its threads, the operations so far, and the buffers that each
thread's finished calls of `rt_mq_recv` left. -/
structure MessagePool (τ : Type*) where
  mq : MessageQueue
  thread : τ → Stage
  log : List (DequeOp τ Message)
  received : τ → List Message

/-- After `rt_mq_init` over a pool of `poolSize` bytes. -/
def MessagePool.start (next : ℕ → Option ℕ) (body : ℕ → Message) (poolSize : ℕ) :
    MessagePool τ where
  mq := rtMqInit next body 16 poolSize
  thread := fun _ => .outside .none
  log := []
  received := fun _ => []

/-- A call of one of the three functions with 16 bytes at `buffer`. -/
inductive Call where
  | send (buffer : Message)
  | urgent (buffer : Message)
  | recv (buffer : Message)

/-- A thread's next move: a call, or going on in one. -/
inductive PoolAction (τ : Type*) where
  | call (t : τ) (c : Call)
  | go (t : τ)

/-- The thread is now at another place. -/
def MessagePool.goto [DecidableEq τ] (s : MessagePool τ) (t : τ) (st : Stage) : MessagePool τ :=
  { s with thread := Function.update s.thread t st }

section Step

variable [DecidableEq τ]

/-- A call up to the end of its first section. There is no result when a null
head would be followed. -/
def MessagePool.call (s : MessagePool τ) (t : τ) : Call → Option (MessagePool τ)
  | .send buffer =>
      match rtMqSendTake s.mq 16 with
      | .error e => some (s.goto t (.outside (.failed e)))
      | .ok (mq, msg) => some { s.goto t (.clearing buffer msg) with mq := mq }
  | .urgent buffer =>
      match rtMqUrgentTake s.mq 16 with
      | .error e => some (s.goto t (.outside (.failed e)))
      | .ok (mq, msg) => some { s.goto t (.filling true buffer msg 0) with mq := mq }
  | .recv buffer =>
      if s.mq.entry = 0 then some (s.goto t (.outside .timeout))
      else
        match rtMqRecvTake s.mq with
        | none => none
        | some (mq, msg) => some
            { s.goto t (.reading msg 0 buffer) with
              mq := mq
              log := s.log ++ [.pop t] }

/-- The thread goes on in its call. -/
def MessagePool.go (s : MessagePool τ) (t : τ) : Option (MessagePool τ) :=
  match s.thread t with
  | .outside _ => none
  | .clearing buffer msg => some
      { s.goto t (.filling false buffer msg 0) with mq := rtMqSendClear s.mq msg }
  | .filling urgent buffer msg k =>
      if h : k < 16 then some
        { s.goto t (.filling urgent buffer msg (k + 1)) with
          mq := s.mq.writeByte msg ⟨k, h⟩ (buffer ⟨k, h⟩) }
      else if urgent then some
        { s.goto t (.outside .sent) with
          mq := rtMqUrgentLink s.mq msg
          log := s.log ++ [.prepend buffer] }
      else some
        { s.goto t (.outside .sent) with
          mq := rtMqSendLink s.mq msg
          log := s.log ++ [.append buffer] }
  | .reading msg k buffer =>
      if h : k < min s.mq.msgSize 16 then
        let k' : Fin 16 := ⟨k, by omega⟩
        some (s.goto t
          (.reading msg (k + 1) (Function.update buffer k' (s.mq.body msg k'))))
      else some
        { s.goto t (.outside (.received buffer)) with
          mq := rtMqRecvFree s.mq msg
          received := Function.update s.received t (s.received t ++ [buffer]) }

/-- One action of the system. A thread makes one call at a time. -/
def MessagePool.step (s : MessagePool τ) : PoolAction τ → Option (MessagePool τ)
  | .call t c =>
      match s.thread t with
      | .outside _ => s.call t c
      | _ => none
  | .go t => s.go t

end Step

/-! ## The shape of the memory -/

/-- Who has a slot. -/
inductive Place (τ : Type*) where
  | nowhere
  | pool
  | queue
  | thread (t : τ)

/-- **The shape of the memory**: the slots of the queue and the free slots are
two chains, and every slot of the pool has one owner. -/
structure Layout (mq : MessageQueue) (slots : τ → Option ℕ) (owner : ℕ → Place τ)
    (queue free : List ℕ) : Prop where
  msgSize : mq.msgSize = 16
  queued : Chain mq.next mq.head queue
  pooled : Chain mq.next mq.free free
  tail : mq.tail = queue.getLast?
  entry : mq.entry = queue.length
  inQueue : ∀ msg, msg ∈ queue ↔ owner msg = .queue
  inPool : ∀ msg, msg ∈ free ↔ owner msg = .pool
  held : ∀ t msg, slots t = some msg ↔ owner msg = .thread t
  bound : ∀ msg, owner msg = .nowhere ↔ mq.maxMsgs ≤ msg
  small : mq.maxMsgs < 2 ^ 16

section Layout

variable {mq : MessageQueue} {slots : τ → Option ℕ} {owner : ℕ → Place τ}
  {queue free : List ℕ} {msg : ℕ} {t : τ}

/-- A list of slots that nobody's move touches keeps its place. -/
theorem mem_place_of_ne {l : List ℕ} {o place : Place τ}
    (h : ∀ x, x ∈ l ↔ owner x = place) (hmsg : owner msg ≠ place) (ho : o ≠ place)
    (x : ℕ) : x ∈ l ↔ Function.update owner msg o x = place := by
  by_cases hx : x = msg
  · subst hx
    rw [Function.update_self, h x]
    simp [hmsg, ho]
  · rw [Function.update_of_ne hx]
    exact h x

/-- A slot that joins a list goes to its place. -/
theorem mem_place_of_join {l l' : List ℕ} {place : Place τ}
    (h : ∀ x, x ∈ l ↔ owner x = place) (hl : ∀ x, x ∈ l' ↔ x = msg ∨ x ∈ l) (x : ℕ) :
    x ∈ l' ↔ Function.update owner msg place x = place := by
  rw [hl x]
  by_cases hx : x = msg
  · subst hx
    simp
  · rw [Function.update_of_ne hx, ← h x]
    simp [hx]

/-- The slot that leaves a list at its front. -/
theorem mem_place_of_leave {l : List ℕ} {o place : Place τ}
    (h : ∀ x, x ∈ msg :: l ↔ owner x = place) (hnodup : (msg :: l).Nodup)
    (ho : o ≠ place) (x : ℕ) : x ∈ l ↔ Function.update owner msg o x = place := by
  by_cases hx : x = msg
  · subst hx
    rw [Function.update_self]
    simp [ho, (List.nodup_cons.mp hnodup).1]
  · rw [Function.update_of_ne hx, ← h x, List.mem_cons]
    simp [hx]

/-- Slots outside the pool stay outside. -/
theorem bound_of_move {n : ℕ} {o : Place τ} (h : ∀ x, owner x = .nowhere ↔ n ≤ x)
    (hmsg : owner msg ≠ .nowhere) (ho : o ≠ .nowhere) (x : ℕ) :
    Function.update owner msg o x = .nowhere ↔ n ≤ x := by
  rw [← h x]
  by_cases hx : x = msg
  · subst hx
    rw [Function.update_self]
    simp [hmsg, ho]
  · rw [Function.update_of_ne hx]

/-- A thread that held nothing gets a slot that no thread held. -/
theorem held_acquire [DecidableEq τ] (h : ∀ u x, slots u = some x ↔ owner x = .thread u)
    (ht : slots t = none) (hmsg : ∀ u, owner msg ≠ .thread u) (u : τ) (x : ℕ) :
    Function.update slots t (some msg) u = some x
      ↔ Function.update owner msg (.thread t) x = .thread u := by
  by_cases hu : u = t
  · subst hu
    rw [Function.update_self]
    by_cases hx : x = msg
    · subst hx
      rw [Function.update_self]
      simp
    · rw [Function.update_of_ne hx, ← h u x, ht]
      simp [Ne.symm hx]
  · rw [Function.update_of_ne hu, h u x]
    by_cases hx : x = msg
    · subst hx
      rw [Function.update_self]
      simp [hmsg u, Ne.symm hu]
    · rw [Function.update_of_ne hx]

/-- A thread gives its slot to someone who is no thread. -/
theorem held_release [DecidableEq τ] (h : ∀ u x, slots u = some x ↔ owner x = .thread u)
    (ht : slots t = some msg) {o : Place τ} (ho : ∀ u, o ≠ .thread u) (u : τ)
    (x : ℕ) :
    Function.update slots t none u = some x
      ↔ Function.update owner msg o x = .thread u := by
  have hown := (h t msg).mp ht
  by_cases hu : u = t
  · subst hu
    rw [Function.update_self]
    by_cases hx : x = msg
    · subst hx
      rw [Function.update_self]
      simp [ho u]
    · rw [Function.update_of_ne hx, ← h u x, ht]
      simp [Ne.symm hx]
  · rw [Function.update_of_ne hu, h u x]
    by_cases hx : x = msg
    · subst hx
      rw [Function.update_self, hown]
      simp [ho u, Ne.symm hu]
    · rw [Function.update_of_ne hx]

variable (h : Layout mq slots owner queue free)
include h

theorem Layout.notMem_queue (ht : slots t = some msg) : msg ∉ queue := by
  intro hmem
  have h₁ := (h.inQueue msg).mp hmem
  rw [(h.held t msg).mp ht] at h₁
  exact absurd h₁ (by simp)

theorem Layout.notMem_free (ht : slots t = some msg) : msg ∉ free := by
  intro hmem
  have h₁ := (h.inPool msg).mp hmem
  rw [(h.held t msg).mp ht] at h₁
  exact absurd h₁ (by simp)

/-- Two threads hold different slots. -/
theorem Layout.ne_of_held {u : τ} {x : ℕ} (ht : slots t = some msg)
    (hu : slots u = some x) (hne : u ≠ t) : x ≠ msg := by
  rintro rfl
  have h₁ := (h.held t x).mp ht
  rw [(h.held u x).mp hu] at h₁
  exact hne (Place.thread.inj h₁)

theorem Layout.writeByte (k : Fin 16) (b : UInt8) :
    Layout (mq.writeByte msg k b) slots owner queue free :=
  ⟨h.msgSize, h.queued, h.pooled, h.tail, h.entry, h.inQueue, h.inPool, h.held,
    h.bound, h.small⟩

/-- A thread writes the `next` of its own slot. -/
theorem Layout.clear (ht : slots t = some msg) :
    Layout (rtMqSendClear mq msg) slots owner queue free where
  msgSize := h.msgSize
  queued := h.queued.update (h.notMem_queue ht) none
  pooled := h.pooled.update (h.notMem_free ht) none
  tail := h.tail
  entry := h.entry
  inQueue := h.inQueue
  inPool := h.inPool
  held := h.held
  bound := h.bound
  small := h.small

/-- There are no more messages than slots. -/
theorem Layout.length_le : queue.length ≤ mq.maxMsgs := by
  have hsub : queue ⊆ List.range mq.maxMsgs := by
    intro msg hmsg
    have hown := (h.inQueue msg).mp hmsg
    rw [List.mem_range]
    by_contra hge
    rw [(h.bound msg).mpr (by omega)] at hown
    exact absurd hown (by simp)
  have hle := (h.queued.nodup.subperm hsub).length_le
  rwa [List.length_range] at hle

/-- A thread with a slot has left room in the queue for it. -/
theorem Layout.length_lt (ht : slots t = some msg) : queue.length < mq.maxMsgs := by
  have hown := (h.held t msg).mp ht
  have hsub : msg :: queue ⊆ List.range mq.maxMsgs := by
    intro x hx
    rw [List.mem_range]
    by_contra hge
    have hout := (h.bound x).mpr (by omega)
    rcases List.mem_cons.mp hx with rfl | hx
    · rw [hown] at hout
      exact absurd hout (by simp)
    · rw [(h.inQueue x).mp hx] at hout
      exact absurd hout (by simp)
  have hnodup : (msg :: queue).Nodup :=
    List.nodup_cons.mpr ⟨h.notMem_queue ht, h.queued.nodup⟩
  have hle := (hnodup.subperm hsub).length_le
  rwa [List.length_cons, List.length_range] at hle

/-- `entry` counts one more. -/
theorem Layout.entry_succ (ht : slots t = some msg) :
    (mq.entry + 1) % 2 ^ 16 = queue.length + 1 := by
  have hlt := h.length_lt ht
  have hsmall := h.small
  rw [h.entry]
  exact Nat.mod_eq_of_lt (by omega)

variable [DecidableEq τ]

/-- The free list's first slot goes to a sender. -/
theorem Layout.take (hfree : mq.free = some msg) (ht : slots t = none) :
    ∃ free', free = msg :: free'
      ∧ Layout { mq with free := mq.next msg } (Function.update slots t (some msg))
          (Function.update owner msg (.thread t)) queue free' := by
  obtain ⟨free', rfl, hpooled⟩ := (hfree ▸ h.pooled).pop
  have hown : owner msg = .pool := (h.inPool msg).mp List.mem_cons_self
  refine ⟨free', rfl, h.msgSize, h.queued, hpooled, h.tail, h.entry, ?_, ?_, ?_, ?_, h.small⟩
  · exact mem_place_of_ne h.inQueue (by simp [hown]) (by simp)
  · exact mem_place_of_leave h.inPool h.pooled.nodup (by simp)
  · exact held_acquire h.held ht (by simp [hown])
  · exact bound_of_move h.bound (by simp [hown]) (by simp)

theorem Layout.urgentLink (ht : slots t = some msg) :
    Layout (rtMqUrgentLink mq msg) (Function.update slots t none)
      (Function.update owner msg .queue) (msg :: queue) free where
  msgSize := h.msgSize
  queued := h.queued.push (h.notMem_queue ht)
  pooled := h.pooled.update (h.notMem_free ht) mq.head
  tail := by
    show (if mq.tail = none then some msg else mq.tail) = _
    rw [h.tail]
    cases queue with
    | nil => rfl
    | cons x queue => simp [List.getLast?_cons]
  entry := by
    show (mq.entry + 1) % 2 ^ 16 = _
    rw [h.entry_succ ht, List.length_cons]
  inQueue := mem_place_of_join h.inQueue (fun x => List.mem_cons)
  inPool := mem_place_of_ne h.inPool (by simp [(h.held t msg).mp ht]) (by simp)
  held := held_release h.held ht (by simp)
  bound := bound_of_move h.bound (by simp [(h.held t msg).mp ht]) (by simp)
  small := h.small

/-- `rt_mq_send` links behind the tail; the slot's own `next` is null by then. -/
theorem Layout.sendLink (ht : slots t = some msg) (hnull : mq.next msg = none) :
    Layout (rtMqSendLink mq msg) (Function.update slots t none)
      (Function.update owner msg .queue) (queue ++ [msg]) free := by
  have hqueue := h.notMem_queue ht
  have hheld := (h.held t msg).mp ht
  have hlists :
      Chain (rtMqSendLink mq msg).next (rtMqSendLink mq msg).head (queue ++ [msg])
        ∧ Chain (rtMqSendLink mq msg).next mq.free free := by
    cases hlast : queue.getLast? with
    | none =>
        obtain rfl := List.getLast?_eq_none_iff.mp hlast
        have htail : mq.tail = none := h.tail.trans hlast
        have hhead : mq.head = none := h.queued
        simp only [rtMqSendLink, htail, hhead, if_true]
        exact ⟨⟨rfl, hnull⟩, h.pooled⟩
    | some z =>
        have htail : mq.tail = some z := h.tail.trans hlast
        have hhead : mq.head ≠ none := by
          rw [Ne, h.queued.eq_none_iff]
          rintro rfl
          simp at hlast
        have hz : z ∉ free := by
          intro hmem
          have h₁ := (h.inPool z).mp hmem
          rw [(h.inQueue z).mp (List.mem_of_getLast? hlast)] at h₁
          exact absurd h₁ (by simp)
        simp only [rtMqSendLink, htail, if_neg hhead]
        exact ⟨h.queued.append hlast hqueue hnull, h.pooled.update hz (some msg)⟩
  refine ⟨h.msgSize, hlists.1, hlists.2, ?_, ?_, ?_, ?_, ?_, ?_, h.small⟩
  · exact (List.getLast?_concat).symm
  · show (mq.entry + 1) % 2 ^ 16 = _
    rw [h.entry_succ ht, List.length_append, List.length_singleton]
  · exact mem_place_of_join h.inQueue (fun x => by simp [or_comm])
  · exact mem_place_of_ne h.inPool (by simp [hheld]) (by simp)
  · exact held_release h.held ht (by simp)
  · exact bound_of_move h.bound (by simp [hheld]) (by simp)

/-- The first slot of the queue goes to a receiver. -/
theorem Layout.recvTake (hentry : mq.entry ≠ 0) (ht : slots t = none) :
    ∃ msg queue' mq', queue = msg :: queue' ∧ rtMqRecvTake mq = some (mq', msg)
      ∧ mq'.next = mq.next ∧ mq'.body = mq.body
      ∧ Layout mq' (Function.update slots t (some msg))
          (Function.update owner msg (.thread t)) queue' free := by
  cases queue with
  | nil => exact absurd h.entry hentry
  | cons msg queue =>
      have hown : owner msg = .queue := (h.inQueue msg).mp List.mem_cons_self
      obtain ⟨hhead, hqueued⟩ := h.queued
      have htake : rtMqRecvTake mq = some
          ({ mq with
              head := mq.next msg
              tail := if mq.tail = some msg then none else mq.tail
              entry := (mq.entry + (2 ^ 16 - 1)) % 2 ^ 16 }, msg) := by
        rw [rtMqRecvTake, hhead]
      refine ⟨msg, queue, _, rfl, htake, rfl, rfl,
        h.msgSize, hqueued, h.pooled, ?_, ?_, ?_, ?_, ?_, ?_, h.small⟩
      · show (if mq.tail = some msg then none else mq.tail) = _
        have hnotMem := (List.nodup_cons.mp h.queued.nodup).1
        rw [h.tail]
        cases hlast : queue.getLast? with
        | none =>
            obtain rfl := List.getLast?_eq_none_iff.mp hlast
            simp
        | some z =>
            have hne : z ≠ msg := by
              rintro rfl
              exact hnotMem (List.mem_of_getLast? hlast)
            simp [List.getLast?_cons, hlast, hne]
      · show (mq.entry + (2 ^ 16 - 1)) % 2 ^ 16 = _
        have hle := h.length_le
        have hsmall := h.small
        rw [List.length_cons] at hle
        rw [h.entry, List.length_cons]
        omega
      · exact mem_place_of_leave h.inQueue h.queued.nodup (by simp)
      · exact mem_place_of_ne h.inPool (by simp [hown]) (by simp)
      · exact held_acquire h.held ht (by simp [hown])
      · exact bound_of_move h.bound (by simp [hown]) (by simp)

/-- A receiver puts its slot back. -/
theorem Layout.recvFree (ht : slots t = some msg) :
    Layout (rtMqRecvFree mq msg) (Function.update slots t none)
      (Function.update owner msg .pool) queue (msg :: free) where
  msgSize := h.msgSize
  queued := h.queued.update (h.notMem_queue ht) mq.free
  pooled := h.pooled.push (h.notMem_free ht)
  tail := h.tail
  entry := h.entry
  inQueue := mem_place_of_ne h.inQueue (by simp [(h.held t msg).mp ht]) (by simp)
  inPool := mem_place_of_join h.inPool (fun x => List.mem_cons)
  held := held_release h.held ht (by simp)
  bound := bound_of_move h.bound (by simp [(h.held t msg).mp ht]) (by simp)
  small := h.small

end Layout

section Count

variable {mq : MessageQueue} {slots : τ → Option ℕ} {owner : ℕ → Place τ}
  {queue free : List ℕ} (h : Layout mq slots owner queue free)
include h

/-- With an empty free list every slot is queued or held. -/
theorem Layout.mem_of_free_nil (hnil : free = []) (msg : ℕ) (hmsg : msg < mq.maxMsgs) :
    msg ∈ queue ∨ ∃ t, slots t = some msg := by
  cases hown : owner msg with
  | nowhere =>
      have hle := (h.bound msg).mp hown
      omega
  | pool =>
      have hmem := (h.inPool msg).mpr hown
      rw [hnil] at hmem
      exact absurd hmem List.not_mem_nil
  | queue => exact .inl ((h.inQueue msg).mpr hown)
  | thread t => exact .inr ⟨t, (h.held t msg).mpr hown⟩

/-- A free slot lies in the pool, and it is neither queued nor held. -/
theorem Layout.free_nil_of_mem
    (hall : ∀ msg < mq.maxMsgs, msg ∈ queue ∨ ∃ t, slots t = some msg) : free = [] := by
  cases hfree : free with
  | nil => rfl
  | cons msg rest =>
      have hmem : msg ∈ free := by
        rw [hfree]
        exact List.mem_cons_self
      have hown := (h.inPool msg).mp hmem
      have hmsg : msg < mq.maxMsgs := by
        by_contra hge
        rw [(h.bound msg).mpr (by omega)] at hown
        exact absurd hown (by simp)
      rcases hall msg hmsg with hq | ⟨t, ht⟩
      · rw [(h.inQueue msg).mp hq] at hown
        exact absurd hown (by simp)
      · rw [(h.held t msg).mp ht] at hown
        exact absurd hown (by simp)

/-- With every thread outside, the slots are the queued and the free ones. -/
theorem Layout.count (hquiet : ∀ t, slots t = none) :
    queue.length + free.length = mq.maxMsgs := by
  have hnodup : (queue ++ free).Nodup := by
    refine List.nodup_append.mpr ⟨h.queued.nodup, h.pooled.nodup, ?_⟩
    intro x hx y hy
    rintro rfl
    have hown := (h.inQueue x).mp hx
    rw [(h.inPool x).mp hy] at hown
    exact absurd hown (by simp)
  have hperm : (queue ++ free).Perm (List.range mq.maxMsgs) := by
    refine (List.perm_ext_iff_of_nodup hnodup List.nodup_range).mpr ?_
    intro msg
    rw [List.mem_append, h.inQueue, h.inPool, List.mem_range]
    have hbound := h.bound msg
    have hheld := fun t => h.held t msg
    cases hown : owner msg with
    | nowhere =>
        have hle := hbound.mp hown
        simp only [reduceCtorEq, or_self, false_iff]
        omega
    | pool =>
        simp only [hown, reduceCtorEq, false_iff] at hbound
        simp only [or_true, true_iff, reduceCtorEq]
        omega
    | queue =>
        simp only [hown, reduceCtorEq, false_iff] at hbound
        simp only [true_or, true_iff, reduceCtorEq]
        omega
    | thread t =>
        have ht := (hheld t).mpr hown
        rw [hquiet t] at ht
        exact absurd ht (by simp)
  have hlen := hperm.length_eq
  rw [List.length_append, List.length_range] at hlen
  exact hlen

end Count

/-! ## The pool after rt_mq_init -/

/-- What the first `n` rounds of the loop have built. -/
theorem initRound_range (mq : MessageQueue) (hfree : mq.free = none) (n : ℕ) :
    ∃ next, (List.range n).foldl initRound mq
        = { mq with next := next, free := (List.range n).reverse.head? }
      ∧ Chain next (List.range n).reverse.head? (List.range n).reverse := by
  induction n with
  | zero =>
      refine ⟨mq.next, ?_, rfl⟩
      cases mq
      cases hfree
      rfl
  | succ n ih =>
      obtain ⟨next, hfold, hchain⟩ := ih
      have hn : n ∉ (List.range n).reverse := by simp
      refine ⟨Function.update next n (List.range n).reverse.head?, ?_, ?_⟩
      · rw [List.range_succ, List.foldl_append, hfold]
        simp [initRound]
      · rw [List.range_succ, List.reverse_append]
        exact hchain.push hn

/-- **The pool as `rt_mq_init` leaves it**: every slot is free. -/
theorem layout_init (next : ℕ → Option ℕ) (body : ℕ → Message) (poolSize : ℕ) :
    ∃ owner : ℕ → Place τ, ∃ free,
      Layout (rtMqInit next body 16 poolSize) (fun _ => none) owner [] free := by
  set n := poolSize / 20 % 2 ^ 16 with hn
  set mq₀ : MessageQueue :=
    { msgSize := 16, maxMsgs := n, head := none, tail := none
      free := none, entry := 0, next := next, body := body } with hmq₀
  have hinit : rtMqInit next body 16 poolSize = (List.range n).foldl initRound mq₀ := rfl
  obtain ⟨next', hfold, hchain⟩ := initRound_range mq₀ rfl n
  refine ⟨fun x => if x < n then .pool else .nowhere, (List.range n).reverse, ?_⟩
  rw [hinit, hfold]
  refine ⟨rfl, rfl, hchain, rfl, rfl, ?_, ?_, ?_, ?_, Nat.mod_lt _ (by decide)⟩
  · intro msg
    by_cases h : msg < n <;> simp [h]
  · intro msg
    by_cases h : msg < n <;> simp [h]
  · intro t msg
    by_cases h : msg < n <;> simp [h]
  · intro msg
    by_cases h : msg < n
    · simp [h, hmq₀, Nat.not_le.mpr h]
    · simp [h, hmq₀, Nat.not_lt.mp h]

end DiffCar
