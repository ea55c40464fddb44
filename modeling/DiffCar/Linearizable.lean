import DiffCar.MessagePool

/-!
# Linearizable — the message queue behaves like a list

Each section of `DiffCar.MessagePool` keeps `Sound`: the operations so far run
on the abstract queue, its messages are the bytes in the slots of the chain,
and every thread inside a call has copied what its place says.
-/

namespace DiffCar

open Interleave LinkedCells

variable {τ : Type*}

/-! ## The bytes -/

/-- What a thread's place says of the slot it holds and of its buffers so far. -/
def Stage.Ok (mq : MessageQueue) (received : List Message) : Stage → Prop
  | .outside (.received buffer) => received.getLast? = some buffer
  | .outside _ => True
  | .clearing _ _ => True
  | .filling urgent buffer msg k =>
      (urgent = false → mq.next msg = none) ∧ ∀ i : Fin 16, i < k → mq.body msg i = buffer i
  | .reading msg k buffer => ∀ i : Fin 16, i < k → buffer i = mq.body msg i

/-- Nobody else writes to a slot that a thread holds. -/
theorem Stage.Ok.frame {mq mq' : MessageQueue} {received : List Message} {st : Stage}
    (h : st.Ok mq received)
    (hsame : ∀ msg, st.slot = some msg → mq'.next msg = mq.next msg ∧ mq'.body msg = mq.body msg) :
    st.Ok mq' received := by
  cases st with
  | outside last => cases last <;> exact h
  | clearing buffer msg => trivial
  | filling urgent buffer msg k =>
      obtain ⟨hnext, hbody⟩ := hsame msg rfl
      simp only [Stage.Ok, hnext, hbody]
      exact h
  | reading msg k buffer =>
      obtain ⟨hnext, hbody⟩ := hsame msg rfl
      simp only [Stage.Ok, hbody]
      exact h

theorem Stage.incoming_frame {mq mq' : MessageQueue} {st : Stage}
    (hsame : ∀ msg, st.slot = some msg → mq'.body msg = mq.body msg) :
    st.incoming mq' = st.incoming mq := by
  cases st with
  | reading msg k buffer =>
      rw [Stage.incoming, Stage.incoming, hsame msg rfl]
  | _ => rfl

variable [DecidableEq τ]

/-- **The refinement**: the operations so far run on the abstract queue, the
slots on the chain hold its messages, and each thread has received what it was
given, up to the message it is copying out. -/
structure MessagePool.Sound (s : MessagePool τ) (owner : ℕ → Place τ)
    (queue free : List ℕ) (d : Deque τ Message) : Prop where
  layout : Layout s.mq (fun t => (s.thread t).slot) owner queue free
  runs : exec Deque.step Deque.empty s.log = some d
  bodies : queue.map s.mq.body = d.queue
  given : ∀ t, d.given t = s.received t ++ (s.thread t).incoming s.mq
  threads : ∀ t, (s.thread t).Ok s.mq (s.received t)

theorem sound_start (next : ℕ → Option ℕ) (body : ℕ → Message) (poolSize : ℕ) :
    ∃ owner queue free,
      (MessagePool.start next body poolSize : MessagePool τ).Sound owner queue free
        Deque.empty := by
  obtain ⟨owner, free, h⟩ := layout_init (τ := τ) next body poolSize
  exact ⟨owner, [], free, h, rfl, rfl, fun _ => rfl, fun _ => trivial⟩

/-- The slots of the threads after one of them moved. -/
theorem slot_goto (s : MessagePool τ) (t : τ) (st : Stage) :
    (fun u => ((s.goto t st).thread u).slot)
      = Function.update (fun u => (s.thread u).slot) t st.slot := by
  funext u
  by_cases hu : u = t
  · subst hu
    simp [MessagePool.goto]
  · simp [MessagePool.goto, hu]

section Moves

variable {s s' : MessagePool τ} {owner : ℕ → Place τ} {queue free : List ℕ}
  {d : Deque τ Message} {t : τ}

/-- **One thread moves**: what is left to show is about the memory, the
abstract queue and that thread, as long as the slots of the others are as they
were. -/
theorem MessagePool.Sound.move (h : s.Sound owner queue free d) {mq' : MessageQueue}
    {st : Stage} {log' : List (DequeOp τ Message)} {received' : τ → List Message}
    {owner' : ℕ → Place τ} {queue' free' : List ℕ} {d' : Deque τ Message}
    (hlayout : Layout mq' (Function.update (fun u => (s.thread u).slot) t st.slot)
      owner' queue' free')
    (hruns : exec Deque.step Deque.empty log' = some d')
    (hbodies : queue'.map mq'.body = d'.queue)
    (hgiven : d'.given t = received' t ++ st.incoming mq') (hst : st.Ok mq' (received' t))
    (hother : ∀ u, u ≠ t → d'.given u = d.given u ∧ received' u = s.received u)
    (hsame : ∀ u x, u ≠ t → (s.thread u).slot = some x →
      mq'.next x = s.mq.next x ∧ mq'.body x = s.mq.body x) :
    ({ s.goto t st with mq := mq', log := log', received := received' } : MessagePool τ).Sound
      owner' queue' free' d' := by
  refine ⟨?_, hruns, hbodies, ?_, ?_⟩
  · rw [← slot_goto] at hlayout
    exact hlayout
  · intro u
    show d'.given u = received' u ++ (Function.update s.thread t st u).incoming mq'
    by_cases hu : u = t
    · subst hu
      rw [Function.update_self]
      exact hgiven
    · obtain ⟨hlog, hreceived⟩ := hother u hu
      rw [Function.update_of_ne hu, hlog, hreceived, h.given u,
        Stage.incoming_frame fun x hx => (hsame u x hu hx).2]
  · intro u
    show (Function.update s.thread t st u).Ok mq' (received' u)
    by_cases hu : u = t
    · subst hu
      rw [Function.update_self]
      exact hst
    · rw [Function.update_of_ne hu, (hother u hu).2]
      exact (h.threads u).frame fun x hx => hsame u x hu hx

/-- A thread goes on without touching the queue. -/
theorem MessagePool.Sound.stay (h : s.Sound owner queue free d) {st : Stage}
    (hslot : st.slot = (s.thread t).slot)
    (hincoming : st.incoming s.mq = (s.thread t).incoming s.mq) (hst : st.Ok s.mq (s.received t)) :
    (s.goto t st).Sound owner queue free d := by
  refine h.move ?_ h.runs h.bodies ?_ hst (fun _ _ => ⟨rfl, rfl⟩) (fun _ _ _ _ => ⟨rfl, rfl⟩)
  have hself : Function.update (fun u => (s.thread u).slot) t st.slot
      = fun u => (s.thread u).slot := by
    rw [hslot]
    exact Function.update_eq_self t _
  · rw [hself]
    exact h.layout
  · rw [hincoming]
    exact h.given t

/-- With the message size that `rt_mq_init` gives, a sender fails exactly on an
empty free list. -/
theorem rtMqSendTake_eq {mq : MessageQueue} (h : mq.msgSize = 16) :
    rtMqSendTake mq 16
      = mq.free.elim (.error .full) fun msg => .ok ({ mq with free := mq.next msg }, msg) := by
  rw [rtMqSendTake, h, if_neg (lt_irrefl 16)]
  cases mq.free <;> rfl

theorem rtMqUrgentTake_eq {mq : MessageQueue} (h : mq.msgSize = 16) :
    rtMqUrgentTake mq 16
      = mq.free.elim (.error .full) fun msg => .ok ({ mq with free := mq.next msg }, msg) := by
  rw [rtMqUrgentTake, h, if_neg (lt_irrefl 16)]
  cases mq.free <;> rfl

theorem Stage.incoming_of_slot {mq : MessageQueue} {st : Stage} (h : st.slot = none) :
    st.incoming mq = [] := by
  cases st with
  | reading msg k buffer => exact absurd h (by simp [Stage.slot])
  | _ => rfl

/-- A sender gets a slot. -/
theorem MessagePool.Sound.take (h : s.Sound owner queue free d)
    (ht : (s.thread t).slot = none) {msg : ℕ} (hfree : s.mq.free = some msg)
    (st : Stage) (hslot : st.slot = some msg) (hincoming : ∀ mq, st.incoming mq = [])
    (hst : st.Ok { s.mq with free := s.mq.next msg } (s.received t)) :
    ∃ owner' free',
      ({ s.goto t st with mq := { s.mq with free := s.mq.next msg } } :
        MessagePool τ).Sound owner' queue free' d := by
  obtain ⟨free', rfl, hlayout⟩ := h.layout.take hfree ht
  rw [← hslot] at hlayout
  refine ⟨_, free', h.move hlayout h.runs h.bodies ?_ hst (fun _ _ => ⟨rfl, rfl⟩)
    (fun _ _ _ _ => ⟨rfl, rfl⟩)⟩
  rw [h.given t, Stage.incoming_of_slot ht, hincoming]
  rfl

/-- Calls keep the refinement. -/
theorem MessagePool.Sound.call (h : s.Sound owner queue free d)
    (ht : (s.thread t).slot = none) {c : Call} (hs : s.call t c = some s') :
    ∃ owner' queue' free' d', s'.Sound owner' queue' free' d' := by
  cases c with
  | send buffer =>
      simp only [MessagePool.call, rtMqSendTake_eq h.layout.msgSize] at hs
      cases hfree : s.mq.free with
      | none =>
          simp only [hfree, Option.elim_none, Option.some.injEq] at hs
          subst hs
          exact ⟨owner, queue, free, d,
            h.stay ht.symm (Stage.incoming_of_slot ht).symm trivial⟩
      | some msg =>
          simp only [hfree, Option.elim_some, Option.some.injEq] at hs
          subst hs
          obtain ⟨owner', free', h'⟩ :=
            h.take ht hfree (.clearing buffer msg) rfl (fun _ => rfl) trivial
          exact ⟨owner', queue, free', d, h'⟩
  | urgent buffer =>
      simp only [MessagePool.call, rtMqUrgentTake_eq h.layout.msgSize] at hs
      cases hfree : s.mq.free with
      | none =>
          simp only [hfree, Option.elim_none, Option.some.injEq] at hs
          subst hs
          exact ⟨owner, queue, free, d,
            h.stay ht.symm (Stage.incoming_of_slot ht).symm trivial⟩
      | some msg =>
          simp only [hfree, Option.elim_some, Option.some.injEq] at hs
          subst hs
          obtain ⟨owner', free', h'⟩ :=
            h.take ht hfree (.filling true buffer msg 0) rfl (fun _ => rfl)
              ⟨fun hf => absurd hf (by simp), fun i hi => absurd hi (Nat.not_lt_zero _)⟩
          exact ⟨owner', queue, free', d, h'⟩
  | recv buffer =>
      simp only [MessagePool.call] at hs
      by_cases hentry : s.mq.entry = 0
      · simp only [hentry, if_true, Option.some.injEq] at hs
        subst hs
        exact ⟨owner, queue, free, d, h.stay ht.symm (Stage.incoming_of_slot ht).symm trivial⟩
      · obtain ⟨msg, queue', mq', rfl, htake, hnext, hbody, hlayout⟩ :=
          h.layout.recvTake hentry ht
        simp only [hentry, if_false, htake, Option.some.injEq] at hs
        subst hs
        -- the abstract queue hands out the message in the slot
        have hqueue : d.queue = s.mq.body msg :: queue'.map s.mq.body := h.bodies.symm
        refine ⟨_, queue', free,
          ⟨queue'.map s.mq.body, d.popped ++ [(t, s.mq.body msg)]⟩,
          h.move hlayout ?_ ?_ ?_ ?_ ?_ ?_⟩
        · rw [exec_concat h.runs, Deque.step, hqueue]
        · rw [hbody]
        · rw [Deque.given_pop, h.given t, Stage.incoming_of_slot ht, List.append_nil,
            Stage.incoming, hbody]
          rfl
        · exact fun i hi => absurd hi (Nat.not_lt_zero _)
        · intro u hu
          exact ⟨Deque.given_pop_of_ne hu, rfl⟩
        · intro u x _ _
          rw [hnext, hbody]
          exact ⟨rfl, rfl⟩

/-- The bytes of a slot that is not being written. -/
theorem writeByte_body_of_ne {mq : MessageQueue} {msg x : ℕ} {k : Fin 16} {b : UInt8}
    (hx : x ≠ msg) : (mq.writeByte msg k b).body x = mq.body x :=
  Function.update_of_ne hx _ _

/-- One more byte of the copy into a slot. -/
theorem writeByte_filled {mq : MessageQueue} {msg k : ℕ} {buffer : Message} (hk : k < 16)
    (h : ∀ i : Fin 16, i < k → mq.body msg i = buffer i) (i : Fin 16) (hi : i < k + 1) :
    (mq.writeByte msg ⟨k, hk⟩ (buffer ⟨k, hk⟩)).body msg i = buffer i := by
  show Function.update mq.body msg _ msg i = buffer i
  rw [Function.update_self]
  by_cases hik : i = ⟨k, hk⟩
  · subst hik
    rw [Function.update_self]
  · rw [Function.update_of_ne hik]
    have hne : (i : ℕ) ≠ k := fun heq => hik (Fin.ext heq)
    exact h i (by omega)

/-- The list behind which, or in front of which, a filled slot is linked. -/
theorem MessagePool.Sound.link (h : s.Sound owner queue free d) {urgent : Bool}
    {buffer : Message} {msg k : ℕ} (hst : s.thread t = .filling urgent buffer msg k)
    (hk : ¬ k < 16) :
    s.mq.body msg = buffer ∧ (urgent = false → s.mq.next msg = none) := by
  have hok := h.threads t
  rw [hst] at hok
  refine ⟨?_, hok.1⟩
  funext i
  exact hok.2 i (by omega)

/-- Moves inside a call keep the refinement. -/
theorem MessagePool.Sound.go (h : s.Sound owner queue free d) (hs : s.go t = some s') :
    ∃ owner' queue' free' d', s'.Sound owner' queue' free' d' := by
  have hok := h.threads t
  unfold MessagePool.go at hs
  cases hst : s.thread t with
  | outside last => simp [hst] at hs
  | clearing buffer msg =>
      have hslot : (s.thread t).slot = some msg := by rw [hst]; rfl
      simp only [hst, Option.some.injEq] at hs
      subst hs
      have hgiven := h.given t
      rw [hst] at hgiven
      refine ⟨owner, queue, free, d,
        h.move ?_ h.runs h.bodies hgiven ?_ (fun _ _ => ⟨rfl, rfl⟩) ?_⟩
      · have hself : Function.update (fun u => (s.thread u).slot) t (some msg)
            = fun u => (s.thread u).slot := by
          rw [← hslot]
          exact Function.update_eq_self t _
        show Layout _ (Function.update (fun u => (s.thread u).slot) t (some msg)) _ _ _
        rw [hself]
        exact h.layout.clear hslot
      · exact ⟨fun _ => Function.update_self _ _ _, fun i hi => absurd hi (Nat.not_lt_zero _)⟩
      · intro u x hu hx
        exact ⟨Function.update_of_ne (h.layout.ne_of_held hslot hx hu) _ _, rfl⟩
  | filling urgent buffer msg k =>
      have hslot : (s.thread t).slot = some msg := by rw [hst]; rfl
      have hother : ∀ u x, u ≠ t → (s.thread u).slot = some x → x ≠ msg :=
        fun u x hu hx => h.layout.ne_of_held hslot hx hu
      have hqueue := h.layout.notMem_queue hslot
      have hgiven := h.given t
      rw [hst] at hgiven
      simp only [hst] at hs
      by_cases hk : k < 16
      · rw [dif_pos hk, Option.some.injEq] at hs
        subst hs
        rw [hst] at hok
        refine ⟨owner, queue, free, d,
          h.move ?_ h.runs ?_ hgiven ?_ (fun _ _ => ⟨rfl, rfl⟩) ?_⟩
        · have hself : Function.update (fun u => (s.thread u).slot) t (some msg)
              = fun u => (s.thread u).slot := by
            rw [← hslot]
            exact Function.update_eq_self t _
          show Layout _ (Function.update (fun u => (s.thread u).slot) t (some msg)) _ _ _
          rw [hself]
          exact h.layout.writeByte _ _
        · rw [← h.bodies]
          refine List.map_congr_left ?_
          intro x hx
          refine writeByte_body_of_ne ?_
          rintro rfl
          exact hqueue hx
        · exact ⟨hok.1, writeByte_filled hk hok.2⟩
        · intro u x hu hx
          exact ⟨rfl, writeByte_body_of_ne (hother u x hu hx)⟩
      · obtain ⟨hbody, hnull⟩ := h.link hst hk
        rw [dif_neg hk] at hs
        cases urgent with
        | true =>
            simp only [if_true, Option.some.injEq] at hs
            subst hs
            refine ⟨_, _, _, { d with queue := buffer :: d.queue },
              h.move (h.layout.urgentLink hslot) ?_ ?_ hgiven trivial
                (fun _ _ => ⟨rfl, rfl⟩) ?_⟩
            · rw [exec_concat h.runs, Deque.step]
            · show s.mq.body msg :: queue.map s.mq.body = buffer :: d.queue
              rw [hbody, h.bodies]
            · intro u x hu hx
              exact ⟨Function.update_of_ne (hother u x hu hx) _ _, rfl⟩
        | false =>
            simp only [Bool.false_eq_true, if_false, Option.some.injEq] at hs
            subst hs
            refine ⟨_, _, _, { d with queue := d.queue ++ [buffer] },
              h.move (h.layout.sendLink hslot (hnull rfl)) ?_ ?_ hgiven trivial
                (fun _ _ => ⟨rfl, rfl⟩) ?_⟩
            · rw [exec_concat h.runs, Deque.step]
            · show (queue ++ [msg]).map s.mq.body = d.queue ++ [buffer]
              rw [List.map_append, h.bodies, List.map_singleton, hbody]
            · intro u x hu hx
              refine ⟨?_, rfl⟩
              -- the tail is queued, so no thread holds it
              cases htail : s.mq.tail with
              | none => simp only [rtMqSendLink, htail]
              | some z =>
                  simp only [rtMqSendLink, htail]
                  refine Function.update_of_ne ?_ _ _
                  rintro rfl
                  rw [h.layout.tail] at htail
                  exact h.layout.notMem_queue hx (List.mem_of_getLast? htail)
  | reading msg k buffer =>
      have hslot : (s.thread t).slot = some msg := by rw [hst]; rfl
      simp only [hst, h.layout.msgSize, min_self] at hs
      rw [hst] at hok
      by_cases hk : k < 16
      · rw [dif_pos hk, Option.some.injEq] at hs
        subst hs
        refine ⟨owner, queue, free, d, h.stay hslot.symm (by rw [hst]; rfl) ?_⟩
        intro i hi
        by_cases hik : i = ⟨k, hk⟩
        · subst hik
          rw [Function.update_self]
        · rw [Function.update_of_ne hik]
          have hne : (i : ℕ) ≠ k := fun heq => hik (Fin.ext heq)
          exact hok i (by omega)
      · rw [dif_neg hk, Option.some.injEq] at hs
        subst hs
        have hbuffer : buffer = s.mq.body msg := by
          funext i
          exact hok i (by omega)
        refine ⟨_, _, _, d, h.move (h.layout.recvFree hslot) h.runs h.bodies ?_ ?_ ?_ ?_⟩
        · rw [h.given t, hst, Function.update_self, hbuffer]
          exact (List.append_nil _).symm
        · rw [Function.update_self]
          exact List.getLast?_concat
        · intro u hu
          exact ⟨rfl, Function.update_of_ne hu _ _⟩
        · intro u x hu hx
          exact ⟨Function.update_of_ne (h.layout.ne_of_held hslot hx hu) _ _, rfl⟩

/-- **Every action keeps the refinement.** -/
theorem MessagePool.Sound.step (h : s.Sound owner queue free d) {a : PoolAction τ}
    (hs : s.step a = some s') :
    ∃ owner' queue' free' d', s'.Sound owner' queue' free' d' := by
  cases a with
  | call t c =>
      unfold MessagePool.step at hs
      cases hst : s.thread t with
      | outside last =>
          simp only [hst] at hs
          exact h.call (by rw [hst]; rfl) hs
      | clearing buffer msg => simp [hst] at hs
      | filling urgent buffer msg k => simp [hst] at hs
      | reading msg k buffer => simp [hst] at hs
  | go t => exact h.go hs

end Moves

/-! ## Whole runs -/

/-- The states any interleaving of any threads' calls leads to. -/
abbrev MessagePool.Reachable (next : ℕ → Option ℕ) (body : ℕ → Message)
    (poolSize : ℕ) : MessagePool τ → Prop :=
  Reach MessagePool.step (MessagePool.start next body poolSize)

section Runs

variable {next : ℕ → Option ℕ} {body : ℕ → Message} {poolSize : ℕ}
  {s : MessagePool τ}

theorem MessagePool.Reachable.sound (h : MessagePool.Reachable next body poolSize s) :
    ∃ owner queue free d, s.Sound owner queue free d := by
  refine Reach.inv (P := fun s => ∃ owner queue free d, s.Sound owner queue free d) h ?_ ?_
  · obtain ⟨owner, queue, free, h₀⟩ := sound_start (τ := τ) next body poolSize
    exact ⟨owner, queue, free, _, h₀⟩
  · intro s a s' ⟨owner, queue, free, d, h⟩ hs
    exact h.step hs

/-- **Every slot has one owner, and no call follows a null head**: the memory
keeps its shape in every interleaving, and any thread outside may call any of
the three functions. -/
theorem mq_slots_owned (next : ℕ → Option ℕ) (body : ℕ → Message) (poolSize : ℕ)
    (s : MessagePool τ) (h : MessagePool.Reachable next body poolSize s) :
    (∃ owner queue free, Layout s.mq (fun t => (s.thread t).slot) owner queue free)
      ∧ ∀ t last c, s.thread t = .outside last → (s.step (.call t c)).isSome := by
  obtain ⟨owner, queue, free, d, h⟩ := h.sound
  refine ⟨⟨owner, queue, free, h.layout⟩, ?_⟩
  intro t last c ht
  simp only [MessagePool.step, ht]
  cases c with
  | send buffer =>
      simp only [MessagePool.call]
      cases rtMqSendTake s.mq 16 <;> rfl
  | urgent buffer =>
      simp only [MessagePool.call]
      cases rtMqUrgentTake s.mq 16 <;> rfl
  | recv buffer =>
      simp only [MessagePool.call]
      by_cases hentry : s.mq.entry = 0
      · rw [if_pos hentry]
        rfl
      · obtain ⟨msg, queue', mq', _, htake, _⟩ :=
          h.layout.recvTake hentry (by rw [ht]; rfl)
        rw [if_neg hentry, htake]
        rfl

/-- **When a sender is refused**: `rt_mq_send` of 16 bytes never answers
`-RT_ERROR`, and `-RT_EFULL` exactly when every slot of the pool is queued or
held by some thread; with every thread outside, exactly when `max_msgs`
messages are queued. -/
theorem mq_send_refused_iff (next : ℕ → Option ℕ) (body : ℕ → Message) (poolSize : ℕ)
    (s : MessagePool τ) (h : MessagePool.Reachable next body poolSize s) (t : τ)
    (last : Outcome) (ht : s.thread t = .outside last) (m : Message) :
    s.step (.call t (.send m)) ≠ some (s.goto t (.outside (.failed .error)))
      ∧ (s.step (.call t (.send m)) = some (s.goto t (.outside (.failed .full)))
        ↔ ∃ queue, Chain s.mq.next s.mq.head queue
          ∧ ∀ msg < s.mq.maxMsgs, msg ∈ queue ∨ ∃ u, (s.thread u).slot = some msg)
      ∧ ((∀ u, (s.thread u).slot = none) →
          (s.step (.call t (.send m)) = some (s.goto t (.outside (.failed .full)))
            ↔ s.mq.entry = s.mq.maxMsgs)) := by
  obtain ⟨owner, queue, free, d, h⟩ := h.sound
  -- where the call leaves the thread tells the cases apart
  have hplace : ∀ st, s.step (.call t (.send m)) = some (s.goto t st) →
      (s.mq.free = none ∧ st = .outside (.failed .full))
        ∨ ∃ msg, s.mq.free = some msg ∧ st = .clearing m msg := by
    intro st heq
    simp only [MessagePool.step, ht, MessagePool.call, rtMqSendTake_eq h.layout.msgSize] at heq
    cases hfree : s.mq.free with
    | none =>
        simp only [hfree, Option.elim_none, Option.some.injEq] at heq
        have hthread := congrFun (congrArg MessagePool.thread heq) t
        simp only [MessagePool.goto, Function.update_self] at hthread
        exact .inl ⟨rfl, hthread.symm⟩
    | some msg =>
        simp only [hfree, Option.elim_some, Option.some.injEq] at heq
        have hthread := congrFun (congrArg MessagePool.thread heq) t
        simp only [MessagePool.goto, Function.update_self] at hthread
        exact .inr ⟨msg, rfl, hthread.symm⟩
  have hrefused : s.step (.call t (.send m)) = some (s.goto t (.outside (.failed .full)))
      ↔ free = [] := by
    rw [← h.layout.pooled.eq_none_iff]
    constructor
    · intro heq
      rcases hplace _ heq with ⟨hfree, -⟩ | ⟨msg, -, hst⟩
      · exact hfree
      · exact absurd hst (by simp)
    · intro hfree
      simp only [MessagePool.step, ht, MessagePool.call, rtMqSendTake_eq h.layout.msgSize,
        hfree, Option.elim_none]
  refine ⟨?_, ?_, ?_⟩
  · intro heq
    rcases hplace _ heq with ⟨-, hst⟩ | ⟨msg, -, hst⟩
    · exact absurd hst (by simp)
    · exact absurd hst (by simp)
  · rw [hrefused]
    constructor
    · intro hnil
      exact ⟨queue, h.layout.queued, h.layout.mem_of_free_nil hnil⟩
    · intro ⟨queue', hchain, hall⟩
      obtain rfl := h.layout.queued.unique hchain
      exact h.layout.free_nil_of_mem hall
  · intro hquiet
    have hcount := h.layout.count hquiet
    rw [hrefused, h.layout.entry, ← List.length_eq_zero_iff]
    omega

/-! ## Two threads -/

/-- On a pool of two slots: one thread sends, another sends urgently, and the
first receives. -/
def twoThreads : List (PoolAction Bool) :=
  .call true (.send fun _ => 1) :: List.replicate 18 (.go true)
    ++ .call false (.urgent fun _ => 2) :: List.replicate 17 (.go false)
    ++ .call true (.recv fun _ => 0) :: List.replicate 17 (.go true)

/-- What `twoThreads` leads to. -/
theorem twoThreads_run : ∃ s : MessagePool Bool,
    MessagePool.Reachable (fun _ => none) (fun _ _ => 0) 40 s
      ∧ s.log = [.append fun _ => 1, .prepend fun _ => 2, .pop true]
      ∧ s.thread false = .outside .sent
      ∧ s.mq.maxMsgs = 2 := by
  have hrun : (exec MessagePool.step
      (MessagePool.start (fun _ => none) (fun _ _ => 0) 40) twoThreads).map
        (fun s => (s.log, s.thread false, s.mq.maxMsgs))
    = some ([.append fun _ => 1, .prepend fun _ => 2, .pop true],
      .outside .sent, 2) := rfl
  obtain ⟨s, hs, heq⟩ := Option.map_eq_some_iff.mp hrun
  obtain ⟨hlog, heq⟩ := Prod.mk.inj heq
  obtain ⟨hthread, hmax⟩ := Prod.mk.inj heq
  exact ⟨s, Reach.exec .refl hs, hlog, hthread, hmax⟩

theorem mq_slots_owned_twoThreads : ∃ s : MessagePool Bool,
    s.mq.maxMsgs = 2 ∧ (s.step (.call false (.recv fun _ => 0))).isSome := by
  obtain ⟨s, hs, _, hthread, hmax⟩ := twoThreads_run
  exact ⟨s, hmax, (mq_slots_owned _ _ _ s hs).2 false _ _ hthread⟩

/-- The other thread sends a third message. -/
def thirdMessage : List (PoolAction Bool) :=
  .call false (.send fun _ => 3) :: List.replicate 18 (.go false)

/-- With one of two messages queued the third one is taken, and after it no
other is. -/
theorem mq_send_refused_iff_twoThreads : ∃ s u : MessagePool Bool,
    MessagePool.Reachable (fun _ => none) (fun _ _ => 0) 40 s
      ∧ s.step (.call false (.send fun _ => 3)) ≠ some (s.goto false (.outside (.failed .full)))
      ∧ MessagePool.Reachable (fun _ => none) (fun _ _ => 0) 40 u
      ∧ u.step (.call false (.send fun _ => 4))
        = some (u.goto false (.outside (.failed .full))) := by
  have hrun : (exec MessagePool.step
      (MessagePool.start (fun _ => none) (fun _ _ => 0) 40) twoThreads).map
        (fun s => (s.mq.entry, s.mq.maxMsgs, (s.thread true).slot, s.thread false))
    = some (1, 2, none, .outside .sent) := rfl
  have hrun' : (exec MessagePool.step
      (MessagePool.start (fun _ => none) (fun _ _ => 0) 40) (twoThreads ++ thirdMessage)).map
        (fun s => (s.mq.entry, s.mq.maxMsgs, (s.thread true).slot, s.thread false))
    = some (2, 2, none, .outside .sent) := rfl
  obtain ⟨s, hs, hstate⟩ := Option.map_eq_some_iff.mp hrun
  obtain ⟨u, hu, hstate'⟩ := Option.map_eq_some_iff.mp hrun'
  simp only [Prod.mk.injEq] at hstate hstate'
  obtain ⟨hentry, hmax, htrue, hfalse⟩ := hstate
  obtain ⟨hentry', hmax', htrue', hfalse'⟩ := hstate'
  have hs : MessagePool.Reachable (fun _ => none) (fun _ _ => 0) 40 s := Reach.exec .refl hs
  have hu : MessagePool.Reachable (fun _ => none) (fun _ _ => 0) 40 u := Reach.exec .refl hu
  refine ⟨s, u, hs, ?_, hu, ?_⟩
  · intro hfull
    have heq := ((mq_send_refused_iff _ _ _ s hs false _ hfalse _).2.2 (by
      intro t
      cases t with
      | true => exact htrue
      | false =>
          rw [hfalse]
          rfl)).mp hfull
    omega
  · refine ((mq_send_refused_iff _ _ _ u hu false _ hfalse' _).2.2 (by
      intro t
      cases t with
      | true => exact htrue'
      | false =>
          rw [hfalse']
          rfl)).mpr ?_
    omega

end Runs

end DiffCar
