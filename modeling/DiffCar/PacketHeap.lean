import DiffCar.AllocFailure
import DiffCar.Commands
import DiffCar.HeapRuns
import Mathlib.Algebra.Order.BigOperators.Group.List
import Mathlib.Algebra.Order.Group.Nat

/-!
# PacketHeap — the packet path on the heap of the kernel

`urc_recv_func` and `recvCb` with the calls of `mem.c`, while other threads
use the same heap between them. The receive buffer of a packet that came
through is never given back (`Received`), so it stays out for good. A length of
-1 to -3 for which there is a block ends the run: `rt_calloc` does not return.
-/

namespace DiffCar

open Interleave Segments

/-- Where the parser's thread is in `urc_recv_func`. -/
inductive UrcCall where
  | idle
  /-- before `at_client_obj_recv` -/
  | reading (n : Notification) (recvBuf : ℕ)
  /-- in `recvCb`, before `rt_malloc` -/
  | received (n : Notification) (payload : List UInt8)
  /-- in `recvCb`, before `rt_free` -/
  | copied (n : Notification) (payload : List UInt8) (buff : ℕ)
  | draining
  | faulted

/-- The heap, the parser's thread, the payloads that `recvCb` got, each with
its receive buffer, and the calls that are over, with what the heap had for
them. -/
structure PacketHeap where
  run : HeapRun
  call : UrcCall
  received : List (ℕ × List UInt8)
  calls : List Notification

/-- The buffers that the call under way has allocated and will free. -/
def UrcCall.buffers : UrcCall → List (ℕ × ℕ)
  | .reading n recvBuf => [(recvBuf, (parseHeader n.data).2.toNat)]
  | .copied _ payload buff => [(buff, payload.length)]
  | _ => []

/-- The parser's blocks, and what was asked for them. -/
def PacketHeap.owned (s : PacketHeap) : List (ℕ × ℕ) :=
  s.call.buffers ++ s.received.map fun b => (b.1, b.2.length)

/-- What happens next: a call of another thread, a packet, or the next call of
the parser's thread. -/
inductive PacketAction where
  | malloc (size : ℕ)
  | free (rmem : ℕ)
  | packet (n : Notification)
  | parser

/-- `urc_recv_func` up to `rt_calloc`. -/
def PacketHeap.packet (fuel : ℕ) (s : PacketHeap) (n : Notification) : Option PacketHeap :=
  let bfsz := (parseHeader n.data).2
  if (parseHeader n.data).1 < 0 ∨ bfsz = 0 then some { s with calls := s.calls ++ [n] }
  else
    (s.run.calloc 1 bfsz.toNat).map fun
      | (run, none) =>
          let n := { n with calloc := false }
          { s with
            run := run
            call := if (drain fuel bfsz 0 (recvTimeout bfsz) n.serial).2 then .idle
              else .draining
            calls := s.calls ++ [n] }
      | (run, some p) => { s with run := run, call := .reading { n with calloc := true } p }

/-- The next call of the parser's thread: `at_client_obj_recv`, then
`recvCb`'s `rt_malloc` and `rt_free`. -/
def PacketHeap.parser (s : PacketHeap) : Option PacketHeap :=
  match s.call with
  | .reading n recvBuf =>
      match (atClientObjRecv (parseHeader n.data).2.toNat n.serial).1 with
      | none =>
          (s.run.free recvBuf).map fun run =>
            { s with run := run, call := .idle, calls := s.calls ++ [n] }
      | some payload =>
          some { s with
            call := .received n payload, received := s.received ++ [(recvBuf, payload)] }
  | .received n payload =>
      (s.run.malloc payload.length).map fun
        | (run, none) =>
            { s with
              run := run, call := .faulted, calls := s.calls ++ [{ n with malloc := false }] }
        | (run, some buff) =>
            { s with run := run, call := .copied { n with malloc := true } payload buff }
  | .copied n _ buff =>
      (s.run.free buff).map fun run =>
        { s with run := run, call := .idle, calls := s.calls ++ [n] }
  | _ => none

/-- One action. Other threads do not free the parser's blocks. -/
def PacketHeap.step (fuel : ℕ) (s : PacketHeap) : PacketAction → Option PacketHeap
  | .malloc size => (s.run.malloc size).map fun r => { s with run := r.1 }
  | .free rmem =>
      if rmem ∈ s.owned.map Prod.fst then none
      else (s.run.free rmem).map fun run => { s with run := run }
  | .packet n =>
      match s.call with
      | .idle => s.packet fuel n
      | _ => none
  | .parser => s.parser

/-! ## What a step can do -/

/-- What `urc_recv_func` does up to `rt_calloc`. -/
inductive PacketHeap.Enters (fuel : ℕ) (s : PacketHeap) (n : Notification) : PacketHeap → Prop
  /-- the header announces nothing to be read -/
  | passed (hguard : (parseHeader n.data).1 < 0 ∨ (parseHeader n.data).2 = 0) :
      Enters fuel s n { s with calls := s.calls ++ [n] }
  | noMemory {run : HeapRun} {call : UrcCall}
      (hcalloc : s.run.calloc 1 (parseHeader n.data).2.toNat = some (run, none))
      (hcall : call = .idle ∨ call = .draining) :
      Enters fuel s n
        { s with run := run, call := call, calls := s.calls ++ [{ n with calloc := false }] }
  | reading {run : HeapRun} {recvBuf : ℕ}
      (hguard : ¬ ((parseHeader n.data).1 < 0 ∨ (parseHeader n.data).2 = 0))
      (hcalloc : s.run.calloc 1 (parseHeader n.data).2.toNat = some (run, some recvBuf)) :
      Enters fuel s n { s with run := run, call := .reading { n with calloc := true } recvBuf }

/-- What the parser's thread does next. -/
inductive PacketHeap.Goes (s : PacketHeap) : PacketHeap → Prop
  /-- the read has timed out -/
  | givenUp {n : Notification} {recvBuf : ℕ} {run : HeapRun} (hcall : s.call = .reading n recvBuf)
      (hrecv : (atClientObjRecv (parseHeader n.data).2.toNat n.serial).1 = none)
      (hfree : s.run.free recvBuf = some run) :
      Goes s { s with run := run, call := .idle, calls := s.calls ++ [n] }
  | received {n : Notification} {recvBuf : ℕ} {payload : List UInt8}
      (hcall : s.call = .reading n recvBuf)
      (hrecv : (atClientObjRecv (parseHeader n.data).2.toNat n.serial).1 = some payload) :
      Goes s
        { s with call := .received n payload, received := s.received ++ [(recvBuf, payload)] }
  /-- `memcpy` to the null pointer -/
  | faulted {n : Notification} {payload : List UInt8} {run : HeapRun}
      (hcall : s.call = .received n payload)
      (hmalloc : s.run.malloc payload.length = some (run, none)) :
      Goes s
        { s with run := run, call := .faulted, calls := s.calls ++ [{ n with malloc := false }] }
  | copied {n : Notification} {payload : List UInt8} {run : HeapRun} {buff : ℕ}
      (hcall : s.call = .received n payload)
      (hmalloc : s.run.malloc payload.length = some (run, some buff)) :
      Goes s { s with run := run, call := .copied { n with malloc := true } payload buff }
  | handed {n : Notification} {payload : List UInt8} {buff : ℕ} {run : HeapRun}
      (hcall : s.call = .copied n payload buff) (hfree : s.run.free buff = some run) :
      Goes s { s with run := run, call := .idle, calls := s.calls ++ [n] }

section Cases

variable {fuel : ℕ} {s t : PacketHeap}

theorem PacketHeap.packet_enters {n : Notification} (hs : s.packet fuel n = some t) :
    s.Enters fuel n t := by
  unfold PacketHeap.packet at hs
  dsimp only at hs
  by_cases hguard : (parseHeader n.data).1 < 0 ∨ (parseHeader n.data).2 = 0
  · rw [if_pos hguard] at hs
    obtain rfl := Option.some.inj hs
    exact .passed hguard
  · rw [if_neg hguard] at hs
    obtain ⟨⟨run, res⟩, hcalloc, ht⟩ := Option.map_eq_some_iff.mp hs
    cases res with
    | none =>
        obtain rfl := ht
        refine .noMemory hcalloc ?_
        split
        · exact .inl rfl
        · exact .inr rfl
    | some recvBuf =>
        obtain rfl := ht
        exact .reading hguard hcalloc

theorem PacketHeap.parser_goes (hs : s.parser = some t) : s.Goes t := by
  unfold PacketHeap.parser at hs
  cases hcall : s.call with
  | idle => simp [hcall] at hs
  | draining => simp [hcall] at hs
  | faulted => simp [hcall] at hs
  | reading n recvBuf =>
      simp only [hcall] at hs
      cases hrecv : (atClientObjRecv (parseHeader n.data).2.toNat n.serial).1 with
      | none =>
          simp only [hrecv] at hs
          obtain ⟨run, hfree, rfl⟩ := Option.map_eq_some_iff.mp hs
          exact .givenUp hcall hrecv hfree
      | some payload =>
          simp only [hrecv] at hs
          obtain rfl := Option.some.inj hs
          exact .received hcall hrecv
  | received n payload =>
      simp only [hcall] at hs
      obtain ⟨⟨run, res⟩, hmalloc, ht⟩ := Option.map_eq_some_iff.mp hs
      cases res with
      | none =>
          obtain rfl := ht
          exact .faulted hcall hmalloc
      | some buff =>
          obtain rfl := ht
          exact .copied hcall hmalloc
  | copied n payload buff =>
      simp only [hcall] at hs
      obtain ⟨run, hfree, rfl⟩ := Option.map_eq_some_iff.mp hs
      exact .handed hcall hfree

theorem PacketHeap.step_packet {n : Notification} (hs : s.step fuel (.packet n) = some t) :
    s.call = .idle ∧ s.Enters fuel n t := by
  rw [PacketHeap.step] at hs
  cases hcall : s.call with
  | idle =>
      simp only [hcall] at hs
      exact ⟨rfl, PacketHeap.packet_enters hs⟩
  | _ => simp [hcall] at hs

theorem PacketHeap.step_free {rmem : ℕ} (hs : s.step fuel (.free rmem) = some t) :
    rmem ∉ s.owned.map Prod.fst
      ∧ ∃ run, s.run.free rmem = some run ∧ t = { s with run := run } := by
  rw [PacketHeap.step] at hs
  obtain ⟨hnot, hs⟩ := Option.ite_none_left_eq_some.mp hs
  obtain ⟨run, hfree, rfl⟩ := Option.map_eq_some_iff.mp hs
  exact ⟨hnot, run, hfree, rfl⟩

end Cases

/-! ## Runs -/

/-- States in any run from the memory between these addresses. -/
def PacketHeap.Reachable (fuel beginAddr endAddr : ℕ) (s : PacketHeap) : Prop :=
  ∃ h, rtSystemHeapInit beginAddr endAddr = some h
    ∧ Reach (PacketHeap.step fuel) ⟨⟨h, []⟩, .idle, [], []⟩ s

/-- The state after these actions. -/
def PacketHeap.after (fuel beginAddr endAddr : ℕ) (actions : List PacketAction) :
    Option PacketHeap :=
  (rtSystemHeapInit beginAddr endAddr).bind fun h =>
    exec (PacketHeap.step fuel) ⟨⟨h, []⟩, .idle, [], []⟩ actions

theorem PacketHeap.Reachable.of_after {fuel beginAddr endAddr : ℕ} {actions : List PacketAction}
    {s : PacketHeap} (h : PacketHeap.after fuel beginAddr endAddr actions = some s) :
    s.Reachable fuel beginAddr endAddr := by
  obtain ⟨heap, hinit, hrun⟩ := Option.bind_eq_some_iff.mp h
  exact ⟨heap, hinit, Reach.refl.exec hrun⟩

/-! ## The parser's blocks stay out -/

/-- **The parser's blocks are blocks of their own.** -/
structure PacketHeap.Inv (s : PacketHeap) : Prop where
  heap : ∃ segs bs, s.run.Inv segs bs
  own : (s.owned.map Prod.fst).Nodup
  live : ∀ b ∈ s.owned, b ∈ s.run.live

section Inv

variable {r : HeapRun} {s t : PacketHeap} {segs : List Seg} {bs : List (ℕ × ℕ)} {fuel : ℕ}

theorem HeapRun.Inv.nodup (h : r.Inv segs bs) : (r.live.map Prod.fst).Nodup := by
  refine List.pairwise_map.mpr (h.apart.imp ?_)
  intro x y happart heq
  have hhdr : sizeofStructMem = 12 := rfl
  omega

/-- What is out after `rt_malloc`. -/
theorem HeapRun.Inv.malloc_live (h : r.Inv segs bs) {size : ℕ} {r' : HeapRun} {res : Option ℕ}
    (hcall : r.malloc size = some (r', res)) : (∃ segs' bs', r'.Inv segs' bs')
      ∧ r'.live = (res.map fun p => (p, size)).toList ++ r.live := by
  obtain ⟨t, res', hcall', hinv, -, hlive⟩ := h.malloc size
  rw [hcall] at hcall'
  simp only [Option.some.injEq, Prod.mk.injEq] at hcall'
  obtain ⟨rfl, rfl⟩ := hcall'
  exact ⟨hinv, hlive⟩

/-- And after the program's `rt_calloc(1, bfsz)`. -/
theorem HeapRun.Inv.calloc_live (h : r.Inv segs bs) {bfsz : BitVec 32} {r' : HeapRun}
    {res : Option ℕ} (hcall : r.calloc 1 bfsz.toNat = some (r', res)) :
    (∃ segs' bs', r'.Inv segs' bs')
      ∧ r'.live = (res.map fun p => (p, bfsz.toNat)).toList ++ r.live := by
  have hsize : 1 * bfsz.toNat % 2 ^ 32 = bfsz.toNat := by
    rw [Nat.one_mul]
    exact Nat.mod_eq_of_lt bfsz.isLt
  rcases h.calloc 1 bfsz.toNat with ⟨t, res', hcall', hinv, -, hlive⟩ | ⟨hnone, -⟩
  · rw [hcall] at hcall'
    simp only [Option.some.injEq, Prod.mk.injEq] at hcall'
    obtain ⟨rfl, rfl⟩ := hcall'
    rw [hsize] at hlive
    exact ⟨hinv, hlive⟩
  · rw [hcall] at hnone
    exact absurd hnone (by simp)

/-- The other blocks stay out. -/
theorem HeapRun.Inv.free_keeps (h : r.Inv segs bs) {rmem : ℕ} {r' : HeapRun}
    (hcall : r.free rmem = some r') :
    (∃ segs' bs', r'.Inv segs' bs') ∧ ∀ b ∈ r.live, b.1 ≠ rmem → b ∈ r'.live := by
  by_cases hout : rmem ∈ r.live.map Prod.fst
  · obtain ⟨t, hcall', hinv, -, hlive⟩ := h.free hout
    rw [hcall] at hcall'
    obtain rfl := Option.some.inj hcall'
    refine ⟨hinv, ?_⟩
    intro b hb hne
    rw [hlive]
    exact (List.mem_eraseP_of_neg (by simpa using hne)).mpr hb
  · rw [HeapRun.free, if_neg hout] at hcall
    exact absurd hcall (by simp)

/-- The parser's thread keeps what it has. -/
theorem PacketHeap.Inv.of_owned (h : s.Inv) (hrun : t.run = s.run)
    (howned : t.owned = s.owned) : t.Inv := by
  refine ⟨?_, ?_, ?_⟩
  · rw [hrun]
    exact h.heap
  · rw [howned]
    exact h.own
  · rw [howned, hrun]
    exact h.live

/-- It gets a block, which is none of those that are out. -/
theorem PacketHeap.Inv.gets (h : s.Inv) {b : ℕ × ℕ} (hheap : ∃ segs bs, t.run.Inv segs bs)
    (hlive : t.run.live = b :: s.run.live) (howned : t.owned = b :: s.owned) : t.Inv := by
  obtain ⟨segs, bs, hinv⟩ := hheap
  have hnodup := hinv.nodup
  rw [hlive, List.map_cons] at hnodup
  obtain ⟨hnew, -⟩ := List.nodup_cons.mp hnodup
  refine ⟨⟨segs, bs, hinv⟩, ?_, ?_⟩
  · rw [howned, List.map_cons]
    refine List.nodup_cons.mpr ⟨?_, h.own⟩
    intro hmem
    obtain ⟨c, hc, hp⟩ := List.mem_map.mp hmem
    exact hnew (List.mem_map.mpr ⟨c, h.live c hc, hp⟩)
  · intro c hb
    rw [hlive]
    rw [howned] at hb
    rcases List.mem_cons.mp hb with rfl | hb
    · exact List.mem_cons_self
    · exact List.mem_cons_of_mem _ (h.live c hb)

/-- It gives one back. -/
theorem PacketHeap.Inv.free (h : s.Inv) {p size : ℕ} {run : HeapRun}
    (hcall : s.run.free p = some run) (hrun : t.run = run)
    (howned : s.owned = (p, size) :: t.owned) : t.Inv := by
  obtain ⟨segs, bs, hinv⟩ := h.heap
  obtain ⟨hheap, hkeeps⟩ := hinv.free_keeps hcall
  have hown := h.own
  rw [howned, List.map_cons] at hown
  obtain ⟨hnot, hown⟩ := List.nodup_cons.mp hown
  refine ⟨hrun ▸ hheap, hown, ?_⟩
  intro b hb
  rw [hrun]
  refine hkeeps b (h.live b (by rw [howned]; exact List.mem_cons_of_mem _ hb)) ?_
  intro heq
  exact hnot (List.mem_map.mpr ⟨b, hb, heq⟩)

/-- Other threads leave the parser's blocks alone. -/
theorem PacketHeap.Inv.other (h : s.Inv) {run : HeapRun} (hheap : ∃ segs bs, run.Inv segs bs)
    (hkeeps : ∀ b ∈ s.owned, b ∈ run.live) : ({ s with run := run } : PacketHeap).Inv :=
  ⟨hheap, h.own, hkeeps⟩

theorem PacketHeap.Inv.packet (h : s.Inv) (hidle : s.call = .idle) {n : Notification}
    (hs : s.Enters fuel n t) : t.Inv := by
  have howned : s.owned = s.received.map fun b => (b.1, b.2.length) := by
    rw [PacketHeap.owned, hidle]
    rfl
  cases hs with
  | passed => exact h.of_owned rfl rfl
  | @noMemory run call hcalloc hcall =>
      obtain ⟨segs, bs, hinv⟩ := h.heap
      obtain ⟨hheap, hlive⟩ := hinv.calloc_live hcalloc
      have hsame : (PacketHeap.mk run call s.received
          (s.calls ++ [{ n with calloc := false }])).owned = s.owned := by
        rw [howned]
        rcases hcall with rfl | rfl
        · rfl
        · rfl
      refine ⟨hheap, ?_, ?_⟩
      · rw [hsame]
        exact h.own
      · rw [hsame]
        show ∀ b ∈ s.owned, b ∈ run.live
        rw [hlive]
        exact h.live
  | reading _ hcalloc =>
      obtain ⟨segs, bs, hinv⟩ := h.heap
      obtain ⟨hheap, hlive⟩ := hinv.calloc_live hcalloc
      refine h.gets hheap hlive ?_
      rw [howned]
      rfl

theorem PacketHeap.Inv.parser (h : s.Inv) (hs : s.Goes t) : t.Inv := by
  cases hs with
  | @givenUp n recvBuf run hcall _ hfree =>
      have howned : s.owned = (recvBuf, (parseHeader n.data).2.toNat)
          :: s.received.map fun b => (b.1, b.2.length) := by
        rw [PacketHeap.owned, hcall]
        rfl
      exact h.free hfree rfl howned
  | @received n recvBuf payload hcall hrecv =>
      -- the buffer goes from the call to the blocks that stay
      obtain ⟨hlen, -⟩ := atClientObjRecv_eq_some.mp hrecv
      have hperm : (s.received.map (fun b => (b.1, b.2.length))
          ++ [(recvBuf, payload.length)]).Perm s.owned := by
        rw [PacketHeap.owned, hcall, hlen]
        exact List.perm_append_singleton ..
      have hnew : (PacketHeap.mk s.run (.received n payload)
          (s.received ++ [(recvBuf, payload)]) s.calls).owned
          = s.received.map (fun b => (b.1, b.2.length)) ++ [(recvBuf, payload.length)] := by
        simp [PacketHeap.owned, UrcCall.buffers]
      refine ⟨h.heap, ?_, ?_⟩
      · rw [hnew]
        exact (hperm.map Prod.fst).nodup_iff.mpr h.own
      · rw [hnew]
        exact fun b hb => h.live b (hperm.mem_iff.mp hb)
  | @faulted n payload run hcall hmalloc =>
      obtain ⟨segs, bs, hinv⟩ := h.heap
      obtain ⟨hheap, hlive⟩ := hinv.malloc_live hmalloc
      have hown := h.own
      have hkept := h.live
      rw [PacketHeap.owned, hcall] at hown hkept
      refine ⟨hheap, hown, ?_⟩
      intro b hb
      show b ∈ run.live
      rw [hlive]
      exact hkept b hb
  | copied hcall hmalloc =>
      obtain ⟨segs, bs, hinv⟩ := h.heap
      obtain ⟨hheap, hlive⟩ := hinv.malloc_live hmalloc
      refine h.gets hheap hlive ?_
      rw [PacketHeap.owned, PacketHeap.owned, hcall]
      rfl
  | @handed n payload buff run hcall hfree =>
      have howned : s.owned = (buff, payload.length)
          :: s.received.map fun b => (b.1, b.2.length) := by
        rw [PacketHeap.owned, hcall]
        rfl
      exact h.free hfree rfl howned

theorem PacketHeap.Inv.step (h : s.Inv) {a : PacketAction} (hs : s.step fuel a = some t) :
    t.Inv := by
  obtain ⟨segs, bs, hinv⟩ := h.heap
  cases a with
  | malloc size =>
      obtain ⟨⟨run, res⟩, hcall, rfl⟩ := Option.map_eq_some_iff.mp hs
      obtain ⟨hheap, hlive⟩ := hinv.malloc_live hcall
      refine h.other hheap ?_
      rw [hlive]
      exact fun b hb => List.mem_append_right _ (h.live b hb)
  | free rmem =>
      obtain ⟨hnot, run, hcall, rfl⟩ := PacketHeap.step_free hs
      obtain ⟨hheap, hkeeps⟩ := hinv.free_keeps hcall
      refine h.other hheap ?_
      intro b hb
      refine hkeeps b (h.live b hb) ?_
      intro heq
      exact hnot (List.mem_map.mpr ⟨b, hb, heq⟩)
  | packet n =>
      obtain ⟨hidle, hs⟩ := PacketHeap.step_packet hs
      exact h.packet hidle hs
  | parser => exact h.parser (PacketHeap.parser_goes hs)

/-- What happens on the heap is a run of its own. -/
theorem PacketHeap.step_run {a : PacketAction} (hs : s.step fuel a = some t) :
    t.run = s.run ∨ ∃ b, s.run.step b = some t.run := by
  have hmalloc : ∀ {size : ℕ} {run : HeapRun} {res : Option ℕ},
      s.run.malloc size = some (run, res) → ∃ b, s.run.step b = some run := by
    intro size run res hcall
    exact ⟨.malloc size, by rw [HeapRun.step, hcall]; rfl⟩
  have hcalloc : ∀ {count size : ℕ} {run : HeapRun} {res : Option ℕ},
      s.run.calloc count size = some (run, res) → ∃ b, s.run.step b = some run := by
    intro count size run res hcall
    exact ⟨.calloc count size, by rw [HeapRun.step, hcall]; rfl⟩
  cases a with
  | malloc size =>
      obtain ⟨⟨run, res⟩, hcall, rfl⟩ := Option.map_eq_some_iff.mp hs
      exact .inr (hmalloc hcall)
  | free rmem =>
      obtain ⟨-, run, hcall, rfl⟩ := PacketHeap.step_free hs
      exact .inr ⟨.free rmem, hcall⟩
  | packet n =>
      cases (PacketHeap.step_packet hs).2 with
      | passed => exact .inl rfl
      | noMemory hcall => exact .inr (hcalloc hcall)
      | reading _ hcall => exact .inr (hcalloc hcall)
  | parser =>
      cases PacketHeap.parser_goes hs with
      | givenUp _ _ hcall => exact .inr ⟨.free _, hcall⟩
      | received => exact .inl rfl
      | faulted _ hcall => exact .inr (hmalloc hcall)
      | copied _ hcall => exact .inr (hmalloc hcall)
      | handed _ hcall => exact .inr ⟨.free _, hcall⟩

theorem PacketHeap.Reachable.run {beginAddr endAddr : ℕ}
    (h : s.Reachable fuel beginAddr endAddr) : s.run.Reachable beginAddr endAddr := by
  obtain ⟨heap, hinit, hreach⟩ := h
  refine ⟨heap, hinit, ?_⟩
  refine Reach.inv (P := fun s => Reach HeapRun.step ⟨heap, []⟩ s.run) hreach .refl ?_
  intro s a t hs hstep
  rcases PacketHeap.step_run hstep with heq | ⟨b, hb⟩
  · rw [heq]
    exact hs
  · exact hs.tail b hb

theorem PacketHeap.Reachable.inv {beginAddr endAddr : ℕ} (hroom : HeapRoom beginAddr endAddr)
    (hend : endAddr < 2 ^ 32) (h : s.Reachable fuel beginAddr endAddr) : s.Inv := by
  obtain ⟨heap, hinit, hreach⟩ := h
  have hleast := memSizeAligned_of_room hroom hinit
  refine Reach.inv (P := PacketHeap.Inv) hreach ⟨?_, .nil, ?_⟩ fun s a t hs hstep => hs.step hstep
  · exact ⟨_, [], rtSystemHeapInit_holds hend hinit hleast, .refl _, .nil⟩
  · exact fun b hb => absurd hb List.not_mem_nil

end Inv

/-! ## How many packets there can be -/

section Bound

variable {fuel beginAddr endAddr : ℕ} {s : PacketHeap}

/-- **The packets there will ever be.** In every run of packets and of any
threads' calls, the receive buffer of each packet that came through is still
out. All of them are in the memory with their headers, so after fewer than one
packet for each 24 bytes of it the car is deaf. -/
theorem packets_bound (hroom : HeapRoom beginAddr endAddr) (hbegin : beginAddr + 3 < 2 ^ 32)
    (hend : endAddr < 2 ^ 32) (h : s.Reachable fuel beginAddr endAddr) :
    (∀ b ∈ s.received, (b.1, b.2.length) ∈ s.run.live)
      ∧ beginAddr + sizeofStructMem
        + (s.received.map fun b => sizeofStructMem + request b.2.length).sum ≤ endAddr
      ∧ beginAddr + sizeofStructMem
        + s.received.length * (sizeofStructMem + minSizeAligned) ≤ endAddr := by
  have hinv := h.inv hroom hend
  have hmem : ∀ b ∈ s.received, (b.1, b.2.length) ∈ s.owned := by
    intro b hb
    exact List.mem_append_right _ (List.mem_map.mpr ⟨b, hb, rfl⟩)
  have hfits : beginAddr + sizeofStructMem
      + (s.received.map fun b => sizeofStructMem + request b.2.length).sum ≤ endAddr := by
    obtain ⟨segs, bs, hheap⟩ := hinv.heap
    obtain ⟨hlow, -⟩ := hheap.usedMem
    have hused := hheap.usedMem_le
    have hroom := h.run.heapEnd_le hroom hbegin hend
    -- the parser's blocks are some of those that are out
    obtain ⟨l, hperm, hsub⟩ := (hinv.own.of_map _).subperm hinv.live
    have hsum : (s.owned.map fun b => sizeofStructMem + request b.2).sum
        ≤ (s.run.live.map fun b => sizeofStructMem + request b.2).sum := by
      rw [← (hperm.map _).sum_eq]
      exact (hsub.map _).sum_le_sum fun _ _ => Nat.zero_le _
    rw [PacketHeap.owned, List.map_append, List.sum_append, List.map_map] at hsum
    have hkept : (s.received.map fun b => sizeofStructMem + request b.2.length).sum
        ≤ (s.run.live.map fun b => sizeofStructMem + request b.2).sum :=
      le_of_add_le_right hsum
    omega
  refine ⟨fun b hb => hinv.live _ (hmem b hb), hfits, ?_⟩
  have hcount : ∀ l : List (ℕ × List UInt8), l.length * (sizeofStructMem + minSizeAligned)
      ≤ (l.map fun b => sizeofStructMem + request b.2.length).sum := by
    intro l
    induction l with
    | nil => exact le_rfl
    | cons b l ih =>
        have hb := le_request b.2.length
        rw [List.length_cons, Nat.add_mul, Nat.one_mul, List.map_cons, List.sum_cons]
        omega
  have hreceived := hcount s.received
  omega

/-- A stop command comes in while another thread uses the heap. -/
def stopActions : List PacketAction :=
  [.malloc 8, .packet stopNotification, .parser, .malloc 5, .parser, .parser, .free 12]

def UrcCall.isIdle : UrcCall → Bool
  | .idle => true
  | _ => false

theorem UrcCall.isIdle_eq {c : UrcCall} (h : c.isIdle = true) : c = .idle := by
  cases c with
  | idle => rfl
  | _ => exact absurd h (by simp [UrcCall.isIdle])

theorem exists_stopActions : ∃ s : PacketHeap, s.Reachable 0 0 200 ∧ s.call = .idle
    ∧ s.received = [(36, List.replicate 16 0)] := by
  have hrun : (PacketHeap.after 0 0 200 stopActions).map (fun s => (s.call.isIdle, s.received))
      = some (true, [(36, List.replicate 16 0)]) := by decide +kernel
  obtain ⟨s, hs, heq⟩ := Option.map_eq_some_iff.mp hrun
  obtain ⟨hidle, hreceived⟩ := Prod.mk.inj heq
  exact ⟨s, .of_after hs, UrcCall.isIdle_eq hidle, hreceived⟩

theorem packets_bound_stop : ∃ s : PacketHeap, s.Reachable 0 0 200
    ∧ s.received = [(36, List.replicate 16 0)] ∧ (36, 16) ∈ s.run.live := by
  obtain ⟨s, hs, -, hreceived⟩ := exists_stopActions
  obtain ⟨hlive, -⟩ := packets_bound (by decide) (by decide) (by decide) hs
  exact ⟨s, hs, hreceived, hlive (36, List.replicate 16 0) (by rw [hreceived]; decide)⟩

end Bound

/-! ## The heap of live blocks -/

/-- The payload that a call under way has received but not yet handed over. -/
def UrcCall.pending : UrcCall → List (List UInt8)
  | .received _ payload => [payload]
  | .copied _ payload _ => [payload]
  | _ => []

/-- What is known of the packet of a call under way. -/
def UrcCall.Got : UrcCall → Prop
  | .reading n _ =>
      n.calloc = true ∧ ¬ ((parseHeader n.data).1 < 0 ∨ (parseHeader n.data).2 = 0)
  | .received n payload => n.Delivers payload ∧ n.calloc = true
  | .copied n payload _ => n.Delivers payload ∧ n.calloc = true ∧ n.malloc = true
  | _ => True

section Calls

variable {fuel : ℕ} {n : Notification} {ns : List Notification} {s t : PacketHeap}

theorem heapAfter_concat (h : BlockHeap) :
    heapAfter fuel h (ns ++ [n]) = (urcRecvFunc fuel (heapAfter fuel h ns) n).heap := by
  rw [heapAfter, Reactive.final_append]
  rfl

theorem handed_concat (h : BlockHeap) : handed fuel h (ns ++ [n])
    = handed fuel h ns ++ messages (urcRecvFunc fuel (heapAfter fuel h ns) n).events := by
  rw [handed, handed, Reactive.outputs_append, List.flatMap_append]
  congr 1
  exact List.append_nil _

/-- A packet that is not received. -/
theorem calls_of_not_received (fuel : ℕ) (ns : List Notification) (h : ¬ n.Received) :
    (heapAfter fuel .empty (ns ++ [n])).live.card = (heapAfter fuel .empty ns).live.card
      ∧ handed fuel .empty (ns ++ [n]) = handed fuel .empty ns := by
  obtain ⟨-, hmessages⟩ := clean_of_not_received h fuel (heapAfter fuel .empty ns)
  refine ⟨?_, ?_⟩
  · rw [heapAfter_concat, live_of_not_delivers h]
  · rw [handed_concat, hmessages, List.append_nil]

/-- One that is. -/
theorem calls_of_received (fuel : ℕ) (ns : List Notification) {payload : List UInt8}
    (h : n.Delivers payload) (hcalloc : n.calloc = true) :
    (heapAfter fuel .empty (ns ++ [n])).live.card = (heapAfter fuel .empty ns).live.card + 1
      ∧ (n.malloc = true →
        handed fuel .empty (ns ++ [n]) = handed fuel .empty ns ++ fronts [payload]) := by
  refine ⟨?_, ?_⟩
  · have hlive : ∀ g : BlockHeap, (recvCb g payload n.malloc n.urgent).heap.live = g.live := by
      intro g
      cases n.malloc with
      | true => exact live_recvCb g payload n.urgent
      | false => rfl
    rw [heapAfter_concat, urcRecvFunc_of_delivers h hcalloc]
    dsimp only
    rw [hlive, BlockHeap.card_alloc]
  · intro hmalloc
    rw [handed_concat, urcRecvFunc_of_delivers h hcalloc, hmalloc]
    congr 1
    have hfront := messages_recvCb (heapAfter fuel .empty ns).alloc.1 payload n.urgent
    refine hfront.trans ?_
    by_cases hlen : 16 ≤ payload.length <;> simp [fronts, hlen]

/-- **The abstract heap counts the parser's blocks.** -/
structure PacketHeap.Counts (fuel : ℕ) (s : PacketHeap) : Prop where
  got : s.call.Got
  card : (heapAfter fuel .empty s.calls).live.card + s.call.pending.length = s.received.length
  handed : s.call ≠ .faulted →
    handed fuel .empty s.calls ++ fronts s.call.pending = fronts (s.received.map Prod.snd)

/-- A call that is over and received nothing. -/
theorem PacketHeap.Counts.not_received (h : s.Counts fuel) (hpending : s.call.pending = [])
    (hfault : s.call ≠ .faulted) (hn : ¬ n.Received) {run : HeapRun} {call : UrcCall}
    (hgot : call.Got) (hnone : call.pending = []) :
    (PacketHeap.mk run call s.received (s.calls ++ [n])).Counts fuel := by
  have hcard := h.card
  have hhanded := h.handed hfault
  obtain ⟨hlive, hmessages⟩ := calls_of_not_received fuel s.calls hn
  rw [hpending] at hcard hhanded
  refine ⟨hgot, ?_, ?_⟩
  · dsimp only
    rw [hlive, hnone]
    exact hcard
  · intro _
    dsimp only
    rw [hmessages, hnone]
    exact hhanded

/-- With a silence in the read nothing is received. -/
theorem not_received_of_none
    (hrecv : (atClientObjRecv (parseHeader n.data).2.toNat n.serial).1 = none) :
    ¬ n.Received := by
  rintro ⟨payload, hdelivers, -⟩
  have hsome := atClientObjRecv_eq_some.mpr
    ⟨hdelivers.length.symm, hdelivers.length ▸ hdelivers.serial⟩
  rw [hrecv] at hsome
  exact absurd hsome (by simp)

theorem not_received_of_guard
    (hguard : (parseHeader n.data).1 < 0 ∨ (parseHeader n.data).2 = 0) : ¬ n.Received := by
  rintro ⟨payload, hdelivers, -⟩
  rcases hguard with hneg | hzero
  · exact absurd hdelivers.socket (not_le.mpr hneg)
  · have hlen := hdelivers.length
    rw [hzero] at hlen
    exact hdelivers.nonempty (List.eq_nil_of_length_eq_zero hlen.symm)

/-- Without one the payload is delivered. -/
theorem delivers_of_some {payload : List UInt8}
    (hguard : ¬ ((parseHeader n.data).1 < 0 ∨ (parseHeader n.data).2 = 0))
    (hrecv : (atClientObjRecv (parseHeader n.data).2.toNat n.serial).1 = some payload) :
    n.Delivers payload := by
  obtain ⟨hneg, hbfsz⟩ := not_or.mp hguard
  obtain ⟨hlen, hserial⟩ := atClientObjRecv_eq_some.mp hrecv
  refine ⟨not_lt.mp hneg, ?_, hlen.symm, ?_⟩
  · rintro rfl
    exact hbfsz (BitVec.eq_of_toNat_eq hlen.symm)
  · rw [hlen]
    exact hserial

theorem PacketHeap.Counts.packet (h : s.Counts fuel) (hidle : s.call = .idle)
    (hs : s.Enters fuel n t) : t.Counts fuel := by
  have hpending : s.call.pending = [] := by rw [hidle]; rfl
  have hfault : s.call ≠ .faulted := by rw [hidle]; simp
  cases hs with
  | passed hguard =>
      exact h.not_received hpending hfault (not_received_of_guard hguard) h.got hpending
  | noMemory _ hcall =>
      have hnot : ¬ ({ n with calloc := false } : Notification).Received := by
        rintro ⟨payload, -, hcalloc⟩
        exact absurd hcalloc (by simp)
      rcases hcall with rfl | rfl
      · exact h.not_received hpending hfault hnot trivial rfl
      · exact h.not_received hpending hfault hnot trivial rfl
  | reading hguard =>
      have hcard := h.card
      have hhanded := h.handed hfault
      rw [hpending] at hcard hhanded
      exact ⟨⟨rfl, hguard⟩, hcard, fun _ => hhanded⟩

theorem PacketHeap.Counts.parser (h : s.Counts fuel) (hs : s.Goes t) : t.Counts fuel := by
  have hgot := h.got
  have hcard := h.card
  have hhanded := h.handed
  cases hs with
  | givenUp hcall hrecv =>
      exact h.not_received (by rw [hcall]; rfl) (by rw [hcall]; simp)
        (not_received_of_none hrecv) trivial rfl
  | @received n recvBuf payload hcall hrecv =>
      rw [hcall] at hgot hcard hhanded
      obtain ⟨hcalloc, hguard⟩ := hgot
      refine ⟨⟨delivers_of_some hguard hrecv, hcalloc⟩, ?_, ?_⟩
      · show (heapAfter fuel .empty s.calls).live.card + 1
          = (s.received ++ [(recvBuf, payload)]).length
        rw [List.length_append, List.length_singleton, ← hcard]
        rfl
      · intro _
        have hold := hhanded (by simp)
        show DiffCar.handed fuel .empty s.calls ++ fronts [payload]
          = fronts ((s.received ++ [(recvBuf, payload)]).map Prod.snd)
        rw [List.map_append, fronts_append, ← hold]
        simp [UrcCall.pending, fronts]
  | @faulted n payload run hcall _ =>
      rw [hcall] at hgot hcard
      obtain ⟨hdelivers, hcalloc⟩ := hgot
      have hdelivers' : ({ n with malloc := false } : Notification).Delivers payload :=
        ⟨hdelivers.socket, hdelivers.nonempty, hdelivers.length, hdelivers.serial⟩
      obtain ⟨hlive, -⟩ := calls_of_received fuel s.calls hdelivers' hcalloc
      refine ⟨trivial, ?_, fun hne => absurd rfl hne⟩
      show (heapAfter fuel .empty (s.calls ++ [{ n with malloc := false }])).live.card + 0 = _
      rw [hlive]
      exact hcard
  | @copied n payload run buff hcall _ =>
      rw [hcall] at hgot hcard hhanded
      obtain ⟨hdelivers, hcalloc⟩ := hgot
      have hdelivers' : ({ n with malloc := true } : Notification).Delivers payload :=
        ⟨hdelivers.socket, hdelivers.nonempty, hdelivers.length, hdelivers.serial⟩
      exact ⟨⟨hdelivers', hcalloc, rfl⟩, hcard, fun _ => hhanded (by simp)⟩
  | @handed n payload buff run hcall _ =>
      rw [hcall] at hgot hcard hhanded
      obtain ⟨hdelivers, hcalloc, hmalloc⟩ := hgot
      obtain ⟨hlive, hmessages⟩ := calls_of_received fuel s.calls hdelivers hcalloc
      refine ⟨trivial, ?_, ?_⟩
      · show (heapAfter fuel .empty (s.calls ++ [n])).live.card + 0 = _
        rw [hlive]
        exact hcard
      · intro _
        show DiffCar.handed fuel .empty (s.calls ++ [n]) ++ fronts [] = _
        rw [hmessages hmalloc, ← hhanded (by simp)]
        exact List.append_nil _

theorem PacketHeap.Counts.step (h : s.Counts fuel) {a : PacketAction}
    (hs : s.step fuel a = some t) : t.Counts fuel := by
  cases a with
  | malloc size =>
      obtain ⟨r, -, rfl⟩ := Option.map_eq_some_iff.mp hs
      exact ⟨h.got, h.card, h.handed⟩
  | free rmem =>
      obtain ⟨-, run, -, rfl⟩ := PacketHeap.step_free hs
      exact ⟨h.got, h.card, h.handed⟩
  | packet n =>
      obtain ⟨hidle, hs⟩ := PacketHeap.step_packet hs
      exact h.packet hidle hs
  | parser => exact h.parser (PacketHeap.parser_goes hs)

end Calls

end DiffCar
