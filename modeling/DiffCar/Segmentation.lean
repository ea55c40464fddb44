import DiffCar.TcpServer
import Mathlib.Data.List.Forall2

/-!
# Segmentation — one chunk, one command

A TCP connection carries the commands as a stream of bytes; the modem cuts it
into `+IPD` chunks wherever it likes. `recvCb` looks at one chunk at a time:
it drops a chunk of fewer than 16 bytes, takes the first 16 bytes of any
other, and keeps nothing for the next. So the commands come through exactly
when the modem cuts between them and nowhere else.
-/

namespace DiffCar

/-- The bytes of a message on the wire. -/
def bytesOf (m : Message) : List UInt8 := List.ofFn m

/-- The bytes of a sequence of commands. -/
def streamOf (commands : List Message) : List UInt8 :=
  (commands.map bytesOf).flatten

@[simp] theorem bytesOf_length (m : Message) : (bytesOf m).length = 16 := by
  simp [bytesOf]

@[simp] theorem pairOf_bytesOf (m : Message) : pairOf (bytesOf m) = m := by
  funext k
  have hk : k.val < (bytesOf m).length := by
    rw [bytesOf_length]
    exact k.isLt
  rw [pairOf, List.getD_eq_getElem?_getD, List.getElem?_eq_getElem hk,
    Option.getD_some]
  exact List.getElem_ofFn hk

theorem streamOf_length (commands : List Message) :
    (streamOf commands).length = 16 * commands.length := by
  induction commands with
  | nil => rfl
  | cons m ms ih =>
      have hcons : streamOf (m :: ms) = bytesOf m ++ streamOf ms := rfl
      rw [hcons, List.length_append, bytesOf_length, ih, List.length_cons]
      omega

/-- The messages handed to `rt_mq_urgent` over a sequence of notifications. -/
def handed (fuel : ℕ) (h : BlockHeap) (ns : List Notification) : List Message :=
  (Reactive.outputs (urcStep fuel) h ns).flatMap fun r => messages r.events

/-- What `recvCb` makes of a sequence of chunks: the front of every chunk
that is long enough. -/
def fronts (chunks : List (List UInt8)) : List Message :=
  (chunks.filter fun c => decide (16 ≤ c.length)).map pairOf

/-! ## What is handed over -/

theorem messages_recvCb (h : BlockHeap) (data : List UInt8) (urgent : Bool) :
    messages (recvCb h data true urgent).events
      = if 16 ≤ data.length then [pairOf data] else [] := by
  unfold recvCb
  simp only [Bool.not_true, Bool.false_eq_true, if_false]
  by_cases hlen : 16 ≤ data.length
  · rw [if_neg (by omega), if_pos hlen]
    cases urgent <;> simp [messages]
  · rw [if_pos (by omega), if_neg hlen]
    rfl

/-- **Each delivered chunk hands over its front**, if it has one, whatever
came before. -/
theorem handed_eq_fronts {ns : List Notification} {chunks : List (List UInt8)}
    (hdel : List.Forall₂ Notification.Delivers ns chunks)
    (halloc : ∀ n ∈ ns, n.calloc = true ∧ n.malloc = true) (fuel : ℕ)
    (h : BlockHeap) : handed fuel h ns = fronts chunks := by
  induction hdel generalizing h with
  | nil => rfl
  | @cons n c ns chunks hn _ ih =>
      obtain ⟨hcalloc, hmalloc⟩ := halloc n (by simp)
      have hrest := ih (fun n' hn' => halloc n' (by simp [hn']))
        (urcRecvFunc fuel h n).heap
      have hcall : messages (urcRecvFunc fuel h n).events
          = if 16 ≤ c.length then [pairOf c] else [] := by
        rw [urcRecvFunc_of_delivers hn hcalloc, hmalloc, ← messages_recvCb]
        rfl
      have hcons : handed fuel h (n :: ns)
          = messages (urcRecvFunc fuel h n).events
            ++ handed fuel (urcRecvFunc fuel h n).heap ns := rfl
      rw [hcons, hcall, hrest, fronts, fronts]
      by_cases hlen : 16 ≤ c.length
      · simp [hlen]
      · simp [hlen]

/-! ## When that is what was sent -/

/-- Chunks of 16 bytes each that carry the stream are the commands. -/
theorem fronts_of_aligned {chunks : List (List UInt8)} {commands : List Message}
    (hcut : chunks.flatten = streamOf commands)
    (hlen : ∀ c ∈ chunks, c.length = 16) : fronts chunks = commands := by
  induction chunks generalizing commands with
  | nil =>
      have hzero := congrArg List.length hcut
      rw [streamOf_length, List.flatten_nil, List.length_nil] at hzero
      have hnil : commands = [] := List.eq_nil_of_length_eq_zero (by omega)
      rw [hnil]
      rfl
  | cons c cs ih =>
      have hc : c.length = 16 := hlen c (by simp)
      cases commands with
      | nil =>
          have hzero := congrArg List.length hcut
          rw [streamOf_length, List.flatten_cons, List.length_append, hc] at hzero
          simp at hzero
      | cons m ms =>
          -- both start with 16 bytes, so the first chunk is the first command
          have hsplit : c ++ cs.flatten = bytesOf m ++ streamOf ms := hcut
          obtain ⟨hhead, htail⟩ := List.append_inj hsplit (by simp [hc])
          have hrest := ih htail (fun c' hc' => hlen c' (by simp [hc']))
          have hfront : fronts (c :: cs) = pairOf c :: fronts cs := by
            simp [fronts, hc]
          rw [hfront, hrest, hhead, pairOf_bytesOf]

/-- A front is at most a chunk; with nothing left over every chunk is one. -/
theorem fronts_length {chunks : List (List UInt8)} (hne : ∀ c ∈ chunks, c ≠ []) :
    16 * (fronts chunks).length ≤ chunks.flatten.length
      ∧ (16 * (fronts chunks).length = chunks.flatten.length →
          ∀ c ∈ chunks, c.length = 16) := by
  induction chunks with
  | nil => simp [fronts]
  | cons c cs ih =>
      obtain ⟨hle, hall⟩ := ih (fun c' hc' => hne c' (by simp [hc']))
      have hpos : 0 < c.length := List.length_pos_of_ne_nil (hne c (by simp))
      have hflat : (c :: cs).flatten.length = c.length + cs.flatten.length := by
        rw [List.flatten_cons, List.length_append]
      by_cases hlen : 16 ≤ c.length
      · have hfront : (fronts (c :: cs)).length = (fronts cs).length + 1 := by
          simp [fronts, hlen]
        rw [hfront, hflat]
        refine ⟨by omega, ?_⟩
        intro heq c' hc'
        rcases List.mem_cons.mp hc' with rfl | hc'
        · omega
        · exact hall (by omega) c' hc'
      · -- a short chunk brings bytes but no front, so equality is lost
        have hfront : (fronts (c :: cs)).length = (fronts cs).length := by
          simp [fronts, hlen]
        rw [hfront, hflat]
        exact ⟨by omega, fun heq => by omega⟩

/-- **Segmentation of the command stream.** For any commands and any cutting
of their bytes into chunks that are all received: what is handed to
`rt_mq_urgent` are the fronts of the chunks that have one, and these are the
commands if and only if every chunk has exactly 16 bytes. -/
theorem segmentation (fuel : ℕ) (h : BlockHeap) (commands : List Message)
    (chunks : List (List UInt8)) (hcut : chunks.flatten = streamOf commands)
    (ns : List Notification) (hdel : List.Forall₂ Notification.Delivers ns chunks)
    (halloc : ∀ n ∈ ns, n.calloc = true ∧ n.malloc = true) :
    handed fuel h ns = fronts chunks
      ∧ (handed fuel h ns = commands ↔ ∀ c ∈ chunks, c.length = 16) := by
  have hhanded := handed_eq_fronts hdel halloc fuel h
  refine ⟨hhanded, ?_⟩
  rw [hhanded]
  constructor
  · intro heq
    have hne : ∀ c ∈ chunks, c ≠ [] := by
      intro c hc
      obtain ⟨k, hk, rfl⟩ := List.getElem_of_mem hc
      exact (hdel.get (hdel.length_eq ▸ hk) hk).nonempty
    refine (fronts_length hne).2 ?_
    rw [heq, hcut, streamOf_length]
  · exact fronts_of_aligned hcut

/-- Half of a stop command, with a header for `+IPD,0,8:`. -/
def halfChunk : Notification where
  data := [43, 73, 80, 68, 44, 48, 44, 56, 58]
  calloc := true
  serial := List.replicate 8 (some 0)
  malloc := true
  urgent := true

/-- A chunk of a whole command of 16 such bytes, with a header for
`+IPD,0,16:`. -/
def wholeChunk (b : UInt8) : Notification where
  data := [43, 73, 80, 68, 44, 48, 44, 49, 54, 58]
  calloc := true
  serial := List.replicate 16 (some b)
  malloc := true
  urgent := true

theorem halfChunk_delivers : halfChunk.Delivers (List.replicate 8 0) :=
  ⟨by decide, by decide, by decide, by decide⟩

/-- Three commands in a chunk each. -/
theorem segmentation_whole :
    handed 0 BlockHeap.empty [wholeChunk 64, wholeChunk 192, wholeChunk 0]
      = [fun _ => 64, fun _ => 192, zeroPair] :=
  (segmentation 0 BlockHeap.empty [fun _ => 64, fun _ => 192, zeroPair]
    [List.replicate 16 64, List.replicate 16 192, List.replicate 16 0] (by decide)
    [wholeChunk 64, wholeChunk 192, wholeChunk 0]
    (.cons ⟨by decide, by decide, by decide, by decide⟩
      (.cons ⟨by decide, by decide, by decide, by decide⟩
        (.cons ⟨by decide, by decide, by decide, by decide⟩ .nil)))
    (by decide)).2.mpr (by decide)

/-- The same command cut into halves: both are received, nothing comes
through. -/
theorem segmentation_halves :
    (List.replicate 2 (List.replicate 8 0)).flatten = streamOf [zeroPair]
      ∧ List.Forall₂ Notification.Delivers [halfChunk, halfChunk]
          (List.replicate 2 (List.replicate 8 0))
      ∧ (∀ n ∈ [halfChunk, halfChunk], n.calloc = true ∧ n.malloc = true)
      ∧ handed 0 BlockHeap.empty [halfChunk, halfChunk] ≠ [zeroPair] := by
  refine ⟨by decide, .cons halfChunk_delivers (.cons halfChunk_delivers .nil),
    by decide, ?_⟩
  intro heq
  exact absurd (congrArg List.length heq) (by decide)

end DiffCar
