import DiffCar.AllocFailure
import DiffCar.AtClient
import DiffCar.Header
import DiffCar.Segmentation

/-!
# AtStream — the modem's stream, cut up again

What the modem sends is a sequence of lines and packets. A packet is its
announcement `+IPD,<id>,<length>:` and that many bytes, which may be anything:
line ends, colons, announcements. The parser with the table of
`tcpserver_esp8266.cpp` cuts the stream at exactly these places
(`clientParser_wire`), because the function it calls takes off exactly the payload,
with memory or without.
-/

namespace DiffCar

open Scan

/-- `AT_CLIENT_RECV_BUFF_LEN`. -/
def atClientRecvBuffLen : ℕ := 512

/-- `"+IPD"`. -/
def ipdCommand : List UInt8 := [43, 73, 80, 68]

/-! ## What a call leaves on the serial line -/

/-- Whether memory and the queue have room during one call. -/
structure Supply where
  calloc : Bool
  malloc : Bool
  urgent : Bool

/-- The program around the parser: the heap, the calls of `urc_recv_func` so
far, and the lines that were no URC. -/
structure World where
  heap : BlockHeap
  results : List UrcResult
  lines : List (List UInt8)

/-- A line or a packet. -/
inductive Token where
  | line (text : List UInt8)
  | packet (header payload : List UInt8)

/-- A line is free of `"\r\n"` and of URCs, and may have any length. A packet
is announced with its own length; the announcement fits into the buffer. -/
def Token.Sound : Token → Prop
  | .line text =>
      ¬ [13, 10] <:+: text
        ∧ ¬ (ipdCommand <+: text ∧ 58 ∈ text.take atClientRecvBuffLen)
  | .packet header payload =>
      Header header payload.length ∧ header.length ≤ atClientRecvBuffLen

/-- The lines that fit into the buffer, with their ends. -/
def keptLines (ts : List Token) : List (List UInt8) :=
  ts.filterMap fun
    | .line text =>
        if (text ++ [13, 10]).length ≤ atClientRecvBuffLen then some (text ++ [13, 10])
        else none
    | .packet _ _ => none

/-- The notifications of the packets, the first of them the `k`-th of all. -/
def notifications (supply : ℕ → Supply) : ℕ → List Token → List Notification
  | _, [] => []
  | k, .line _ :: ts => notifications supply k ts
  | k, .packet header payload :: ts =>
      ⟨header, (supply k).calloc, payload.map some, (supply k).malloc, (supply k).urgent⟩
        :: notifications supply (k + 1) ts

/-- The world after these tokens: one call for each packet, in order, and the
lines that fit. -/
def World.after (fuel : ℕ) (supply : ℕ → Supply) (w : World) (ts : List Token) : World where
  heap := Reactive.final (urcStep fuel) w.heap (notifications supply w.results.length ts)
  results := w.results
    ++ Reactive.outputs (urcStep fuel) w.heap (notifications supply w.results.length ts)
  lines := w.lines ++ keptLines ts

/-! ## A payload is taken off exactly -/

section Cut

variable {fuel : ℕ} {supply : ℕ → Supply}

/-- An announcement is one byte string up to its colon. -/
theorem Header.body {header : List UInt8} {len : ℕ} (h : Header header len) :
    ∃ body, header = body ++ [58] ∧ 58 ∉ body ∧ 13 ∉ body ∧ ipdCommand <+: body := by
  obtain ⟨id, size, rfl, hid, hsize, -⟩ := h
  refine ⟨ipdPrefix ++ (id ++ ([44] ++ size)), by simp, ?_, ?_, ?_⟩
  · intro hmem
    simp only [List.mem_append] at hmem
    rcases hmem with hmem | hmem | hmem | hmem
    · exact absurd hmem (by decide)
    · exact absurd (hid.digit 58 hmem) (by decide)
    · exact absurd hmem (by decide)
    · exact absurd (hsize.digit 58 hmem) (by decide)
  · intro hmem
    simp only [List.mem_append] at hmem
    rcases hmem with hmem | hmem | hmem | hmem
    · exact absurd hmem (by decide)
    · exact absurd (hid.digit 13 hmem) (by decide)
    · exact absurd hmem (by decide)
    · exact absurd (hsize.digit 13 hmem) (by decide)
  · exact ⟨[44] ++ (id ++ ([44] ++ size)), by simp [ipdPrefix, ipdCommand]⟩

end Cut

/-! ## The whole stream -/

theorem World.after_nil (fuel : ℕ) (supply : ℕ → Supply) (w : World) :
    w.after fuel supply [] = w := by
  simp [World.after, notifications, keptLines]

/-- Nothing called yet. -/
def World.start (heap : BlockHeap) : World := ⟨heap, [], []⟩

end DiffCar
