import DiffCar.Lib.BlockHeap
import DiffCar.Lib.Reactive
import DiffCar.Lib.Scan
import DiffCar.Link

/-!
# TcpServer — the packet path

`applications/tcpserver_esp8266.cpp`: the AT client calls `urc_recv_func` when
a line `+IPD,<id>,<length>:` has come in. It allocates a buffer, reads the
payload from the serial line into it and calls `recvCb`, which hands the first
16 bytes to the message queue. What the call does shows in its events; the
heap is its set of live blocks.

The environment of a call is its `Notification`: the line, what the serial
line delivers byte by byte, and whether each allocation and the queue have
room. `recvCb` here is the sequential function; `Link` has its interleaving.
-/

namespace DiffCar

/-- The circumstances of one call of `urc_recv_func`. A read from the serial
line gives a byte or times out; past the end of `serial` every read does. -/
structure Notification where
  data : List UInt8
  calloc : Bool
  serial : List (Option UInt8)
  malloc : Bool
  urgent : Bool

/-- What a call does besides using the heap. -/
inductive UrcEvent where
  /-- a call of `at_client_obj_recv` -/
  | request (size : ℕ) (timeout : ℤ)
  /-- a call of `rt_mq_urgent` -/
  | urgent (message : Message)
  /-- a line of the log -/
  | log (format : String) (args : List ℤ)

/-- How far a call has come. -/
inductive UrcStatus where
  | returned
  /-- still in the loop that cleans the coming data -/
  | draining
  /-- `memcpy` wrote through a null pointer -/
  | faulted
  deriving DecidableEq

/-- The heap after a call, its events in order, and its status. -/
structure UrcResult where
  heap : BlockHeap
  events : List UrcEvent
  status : UrcStatus

/-- `recvCb`. -/
def recvCb (h : BlockHeap) (data : List UInt8) (malloc urgent : Bool) :
    UrcResult :=
  -- the result of rt_malloc is not checked, and memcpy comes first
  if !malloc then ⟨h, [], .faulted⟩
  else
    let buff := h.alloc
    if data.length < 16 then ⟨buff.1.free buff.2, [], .returned⟩
    else
      ⟨buff.1.free buff.2,
        .urgent (pairOf data)
          :: if urgent then [] else [.log "rt_mq_urgent ERR\n" []],
        .returned⟩

/-- `at_client_obj_recv`: the bytes read, or `none` when it returns `0`
because a read timed out, and the rest of the serial line. -/
def atClientObjRecv : ℕ → List (Option UInt8) →
    Option (List UInt8) × List (Option UInt8)
  | 0, serial => (some [], serial)
  | _ + 1, [] => (none, [])
  | _ + 1, none :: serial => (none, serial)
  | size + 1, some ch :: serial =>
      let r := atClientObjRecv size serial
      (r.1.map (ch :: ·), r.2)

/-- `sizeof(temp)`. -/
def sizeofTemp : BitVec 32 := 8

/-- The loop that reads and cleans the coming data. Its result says whether
it has ended within the given number of rounds. -/
def drain : ℕ → BitVec 32 → BitVec 32 → ℤ → List (Option UInt8) →
    List UrcEvent × Bool
  | 0, _, _, _, _ => ([], false)
  | fuel + 1, bfsz, tempSize, timeout, serial =>
      if tempSize < bfsz then
        let size :=
          if sizeofTemp < bfsz - tempSize then sizeofTemp else bfsz - tempSize
        let r := atClientObjRecv size.toNat serial
        let d := drain fuel bfsz (tempSize + sizeofTemp) timeout r.2
        (.request size.toNat timeout :: d.1, d.2)
      else ([], true)

/-- `"+IPD,%d,%d:"`. -/
def ipdFormat : List Scan.Directive :=
  [.lit 43, .lit 73, .lit 80, .lit 68, .lit 44, .int, .lit 44, .int, .lit 58]

/-- `device_socket` and `bfsz` after the `sscanf`; both start at `0`. -/
def parseHeader (data : List UInt8) : ℤ × BitVec 32 :=
  let vs := Scan.scan ipdFormat (Scan.cstr data)
  (vs.getD 0 0, BitVec.ofInt 32 (vs.getD 1 0))

/-- `timeout`, not less than 10. -/
def recvTimeout (bfsz : BitVec 32) : ℤ := if 10 < bfsz then bfsz.toInt else 10

/-- `urc_recv_func`, its draining loop given `fuel` rounds. -/
def urcRecvFunc (fuel : ℕ) (h : BlockHeap) (n : Notification) : UrcResult :=
  let deviceSocket := (parseHeader n.data).1
  let bfsz := (parseHeader n.data).2
  let timeout := recvTimeout bfsz
  if deviceSocket < 0 ∨ bfsz = 0 then ⟨h, [], .returned⟩
  else if !n.calloc then
    let d := drain fuel bfsz 0 timeout n.serial
    ⟨h, .log "no memory receive buffer(%d)." [bfsz.toInt] :: d.1,
      if d.2 then .returned else .draining⟩
  else
    let recvBuf := h.alloc
    match (atClientObjRecv bfsz.toNat n.serial).1 with
    | none =>
        ⟨recvBuf.1.free recvBuf.2,
          [.request bfsz.toNat timeout,
            .log "urc device receive size(%d) data failed." [bfsz.toInt]],
          .returned⟩
    | some payload =>
        -- recv_buf is not freed on this path
        let r := recvCb recvBuf.1 payload n.malloc n.urgent
        { r with events := .request bfsz.toNat timeout :: r.events }

/-- The calls for a sequence of notifications, one after the other. -/
def urcStep (fuel : ℕ) (h : BlockHeap) (n : Notification) :
    BlockHeap × UrcResult :=
  ((urcRecvFunc fuel h n).heap, urcRecvFunc fuel h n)

/-- The messages handed to `rt_mq_urgent`. -/
def messages (events : List UrcEvent) : List Message :=
  events.filterMap fun
    | .urgent message => some message
    | _ => none

/-- The sizes of the requests made on the serial line. -/
def requests (events : List UrcEvent) : List ℕ :=
  events.filterMap fun
    | .request size _ => some size
    | _ => none

/-! ## What a notification delivers -/

/-- The notification announces exactly this payload and the serial line
delivers it. -/
structure Notification.Delivers (n : Notification) (payload : List UInt8) :
    Prop where
  socket : 0 ≤ (parseHeader n.data).1
  nonempty : payload ≠ []
  length : (parseHeader n.data).2.toNat = payload.length
  serial : n.serial.take payload.length = payload.map some

/-- `at_client_obj_recv` succeeds exactly on the bytes that are there. -/
theorem atClientObjRecv_eq_some {size : ℕ} {serial : List (Option UInt8)}
    {payload : List UInt8} :
    (atClientObjRecv size serial).1 = some payload
      ↔ payload.length = size ∧ serial.take size = payload.map some := by
  induction size generalizing serial payload with
  | zero =>
      show some [] = some payload ↔ _
      constructor
      · intro h
        obtain rfl := Option.some.inj h
        simp
      · rintro ⟨hlen, _⟩
        rw [List.eq_nil_of_length_eq_zero hlen]
  | succ size ih =>
      match serial with
      | [] =>
          show none = some payload ↔ _
          constructor
          · intro h
            exact absurd h (by simp)
          · rintro ⟨hlen, htake⟩
            have hnil : payload = [] := by simpa using htake.symm
            rw [hnil] at hlen
            exact absurd hlen (by simp)
      | none :: serial =>
          show none = some payload ↔ _
          constructor
          · intro h
            exact absurd h (by simp)
          · rintro ⟨hlen, htake⟩
            cases payload with
            | nil => exact absurd hlen (by simp)
            | cons b payload => exact absurd htake (by simp)
      | some ch :: serial =>
          show (atClientObjRecv size serial).1.map (ch :: ·) = some payload ↔ _
          rw [Option.map_eq_some_iff]
          constructor
          · rintro ⟨rest, hrest, rfl⟩
            obtain ⟨hlen, htake⟩ := ih.mp hrest
            exact ⟨by simp [hlen], by simp [htake]⟩
          · rintro ⟨hlen, htake⟩
            cases payload with
            | nil => exact absurd hlen (by simp)
            | cons b rest =>
                simp only [List.take_succ_cons, List.map_cons, List.cons.injEq,
                  Option.some.injEq] at htake
                obtain ⟨rfl, htake⟩ := htake
                refine ⟨rest, ih.mpr ⟨by simpa using hlen, htake⟩, rfl⟩

/-! ## The paths of `urc_recv_func` -/

section Paths

variable {n : Notification}

theorem urcRecvFunc_of_guard
    (h : (parseHeader n.data).1 < 0 ∨ (parseHeader n.data).2 = 0) (fuel : ℕ)
    (heap : BlockHeap) : urcRecvFunc fuel heap n = ⟨heap, [], .returned⟩ := by
  rw [urcRecvFunc]
  simp only [if_pos h]

/-- Without a receive buffer the line is cleaned. -/
theorem urcRecvFunc_of_no_memory (hcalloc : n.calloc = false)
    (hsocket : 0 ≤ (parseHeader n.data).1) (hbfsz : (parseHeader n.data).2 ≠ 0)
    (fuel : ℕ) (heap : BlockHeap) :
    let bfsz := (parseHeader n.data).2
    let d := drain fuel bfsz 0 (recvTimeout bfsz) n.serial
    urcRecvFunc fuel heap n
      = ⟨heap, .log "no memory receive buffer(%d)." [bfsz.toInt] :: d.1,
          if d.2 then .returned else .draining⟩ := by
  have hguard := not_or.mpr ⟨not_lt.mpr hsocket, hbfsz⟩
  rw [urcRecvFunc]
  simp only [if_neg hguard, hcalloc, Bool.not_false, if_true]

/-- A read that times out is given up. -/
theorem urcRecvFunc_of_timeout (hcalloc : n.calloc = true)
    (hsocket : 0 ≤ (parseHeader n.data).1) (hbfsz : (parseHeader n.data).2 ≠ 0)
    (hrecv : (atClientObjRecv (parseHeader n.data).2.toNat n.serial).1 = none)
    (fuel : ℕ) (heap : BlockHeap) :
    let bfsz := (parseHeader n.data).2
    urcRecvFunc fuel heap n
      = ⟨heap.alloc.1.free heap.alloc.2,
          [.request bfsz.toNat (recvTimeout bfsz),
            .log "urc device receive size(%d) data failed." [bfsz.toInt]],
          .returned⟩ := by
  have hguard := not_or.mpr ⟨not_lt.mpr hsocket, hbfsz⟩
  rw [urcRecvFunc]
  simp only [if_neg hguard, hcalloc, Bool.not_true, Bool.false_eq_true, if_false,
    hrecv]

theorem urcRecvFunc_of_payload (hcalloc : n.calloc = true)
    (hsocket : 0 ≤ (parseHeader n.data).1) (hbfsz : (parseHeader n.data).2 ≠ 0)
    {payload : List UInt8}
    (hrecv : (atClientObjRecv (parseHeader n.data).2.toNat n.serial).1 = some payload)
    (fuel : ℕ) (heap : BlockHeap) :
    let bfsz := (parseHeader n.data).2
    let r := recvCb heap.alloc.1 payload n.malloc n.urgent
    urcRecvFunc fuel heap n
      = { r with events := .request bfsz.toNat (recvTimeout bfsz) :: r.events } := by
  have hguard := not_or.mpr ⟨not_lt.mpr hsocket, hbfsz⟩
  rw [urcRecvFunc]
  simp only [if_neg hguard, hcalloc, Bool.not_true, Bool.false_eq_true, if_false,
    hrecv]

/-- **A delivered payload reaches `recvCb`.** -/
theorem urcRecvFunc_of_delivers {payload : List UInt8} (h : n.Delivers payload)
    (hcalloc : n.calloc = true) (fuel : ℕ) (heap : BlockHeap) :
    urcRecvFunc fuel heap n
      = let r := recvCb heap.alloc.1 payload n.malloc n.urgent
        { r with
          events := .request payload.length (recvTimeout (parseHeader n.data).2)
            :: r.events } := by
  have hbfsz : (parseHeader n.data).2 ≠ 0 := by
    intro hzero
    have hlen := h.length
    rw [hzero] at hlen
    exact h.nonempty (List.eq_nil_of_length_eq_zero hlen.symm)
  have hrecv : (atClientObjRecv (parseHeader n.data).2.toNat n.serial).1
      = some payload := by
    rw [h.length]
    exact atClientObjRecv_eq_some.mpr ⟨rfl, h.serial⟩
  rw [urcRecvFunc_of_payload hcalloc h.socket hbfsz hrecv, h.length]

/-- All that a call does which gets no payload: it returns at once, or
cleans the line without memory, or gives up the read. -/
theorem urcRecvFunc_of_not_delivers
    (h : ¬ ∃ payload, n.Delivers payload ∧ n.calloc = true) (fuel : ℕ)
    (heap : BlockHeap) :
    let bfsz := (parseHeader n.data).2
    let d := drain fuel bfsz 0 (recvTimeout bfsz) n.serial
    urcRecvFunc fuel heap n = ⟨heap, [], .returned⟩
      ∨ urcRecvFunc fuel heap n
        = ⟨heap, .log "no memory receive buffer(%d)." [bfsz.toInt] :: d.1,
            if d.2 then .returned else .draining⟩
      ∨ urcRecvFunc fuel heap n
        = ⟨heap.alloc.1.free heap.alloc.2,
            [.request bfsz.toNat (recvTimeout bfsz),
              .log "urc device receive size(%d) data failed." [bfsz.toInt]],
            .returned⟩ := by
  intro bfsz d
  by_cases hguard : (parseHeader n.data).1 < 0 ∨ (parseHeader n.data).2 = 0
  · exact .inl (urcRecvFunc_of_guard hguard fuel heap)
  · right
    obtain ⟨hneg, hbfsz⟩ := not_or.mp hguard
    have hsocket := not_lt.mp hneg
    cases hcalloc : n.calloc with
    | false => exact .inl (urcRecvFunc_of_no_memory hcalloc hsocket hbfsz fuel heap)
    | true =>
        right
        cases hrecv : (atClientObjRecv (parseHeader n.data).2.toNat n.serial).1 with
        | none => exact urcRecvFunc_of_timeout hcalloc hsocket hbfsz hrecv fuel heap
        | some payload =>
            obtain ⟨hlen, hserial⟩ := atClientObjRecv_eq_some.mp hrecv
            refine absurd ⟨payload, ⟨hsocket, ?_, hlen.symm, ?_⟩, hcalloc⟩ h
            · rintro rfl
              exact hbfsz (BitVec.eq_of_toNat_eq hlen.symm)
            · rw [hlen]
              exact hserial

/-- A call that gets no payload frees what it allocated. -/
theorem live_of_not_delivers
    (h : ¬ ∃ payload, n.Delivers payload ∧ n.calloc = true) (fuel : ℕ)
    (heap : BlockHeap) : (urcRecvFunc fuel heap n).heap.live = heap.live := by
  rcases urcRecvFunc_of_not_delivers h fuel heap with hcall | hcall | hcall
  · rw [hcall]
  · rw [hcall]
  · rw [hcall]
    exact heap.live_alloc_free

end Paths

/-- A stop command that comes through whole: `+IPD,0,16:` and 16 zero bytes. -/
def stopNotification : Notification where
  data := [43, 73, 80, 68, 44, 48, 44, 49, 54, 58]
  calloc := true
  serial := List.replicate 16 (some 0)
  malloc := true
  urgent := true

/-- `recvCb` hands over what its interleaved model records as received. -/
theorem Link.receive_messages {s t : Link} {data : List UInt8} {malloc : Bool}
    (hs : s.receive data malloc = some t) (heap : BlockHeap) (urgent : Bool) :
    t.history.received
      = s.history.received ++ messages (recvCb heap data malloc urgent).events := by
  unfold recvCb
  obtain ⟨_, ⟨rfl, rfl⟩ | ⟨rfl, hshort, rfl⟩ | ⟨rfl, hlong, rfl⟩⟩ :=
    Link.receive_cases hs
  · simp [messages]
  · simp [messages, hshort]
  · cases urgent <;> simp [messages, hlong]

end DiffCar
