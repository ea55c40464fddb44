import DiffCar.Lib.Reach
import DiffCar.Lib.Ring

/-!
# SerialDma — the serial line in front of the parser

`serial.c` and `drv_usart.c` for a line that is opened with
`RT_DEVICE_FLAG_DMA_RX`, and `at_client_getchar`. The DMA writes the bytes
round and round into the buffer of a `rt_serial_rx_fifo`; the interrupts of
the UART (line idle) and of the DMA (half and end of the buffer) move
`put_index` up to where it is, and the parser reads behind `get_index`.

The DMA goes on at any time. Its interrupt comes before the one of the UART
(their priorities are 0 and 1), also between two sections of it that disable
interrupts, and the parser's thread goes on only when neither is in progress.
-/

namespace DiffCar

/-- `struct rt_serial_rx_fifo`. The indices are 16 bits wide. -/
structure RxFifo where
  buffer : List UInt8
  putIndex : ℕ
  getIndex : ℕ
  isFull : Bool

/-- `_serial_fifo_calc_recved_len` -/
def serialFifoCalcRecvedLen (bufsz : ℕ) (f : RxFifo) : ℕ :=
  if f.putIndex = f.getIndex then
    if f.isFull then bufsz else 0
  else if f.getIndex < f.putIndex then f.putIndex - f.getIndex
  else bufsz - (f.getIndex - f.putIndex)

/-- `rt_dma_recv_update_get_index` -/
def rtDmaRecvUpdateGetIndex (bufsz : ℕ) (f : RxFifo) (len : ℕ) : RxFifo :=
  let getIndex := (f.getIndex + len) % 2 ^ 16
  { f with
    isFull := if f.isFull && len != 0 then false else f.isFull
    getIndex := if bufsz ≤ getIndex then getIndex % bufsz else getIndex }

/-- `rt_dma_recv_update_put_index` -/
def rtDmaRecvUpdatePutIndex (bufsz : ℕ) (f : RxFifo) (len : ℕ) : RxFifo :=
  let putIndex := (f.putIndex + len) % 2 ^ 16
  let f :=
    if f.getIndex ≤ f.putIndex then
      if bufsz ≤ putIndex then
        { f with
          putIndex := putIndex % bufsz
          isFull := if f.getIndex ≤ putIndex % bufsz then true else f.isFull }
      else { f with putIndex := putIndex }
    else if f.getIndex ≤ putIndex then
      { f with
        putIndex := if bufsz ≤ putIndex then putIndex % bufsz else putIndex
        isFull := true }
    else { f with putIndex := putIndex }
  if f.isFull then { f with getIndex := f.putIndex } else f

/-- `_serial_dma_rx`, what `rt_device_read` does: the bytes and the fifo after
them. -/
def serialDmaRx (bufsz : ℕ) (f : RxFifo) (length : ℕ) : List UInt8 × RxFifo :=
  let fifoRecvedLen := serialFifoCalcRecvedLen bufsz f
  let recvLen := if length < fifoRecvedLen then length else fifoRecvedLen
  let data :=
    if f.getIndex + recvLen < bufsz then (f.buffer.drop f.getIndex).take recvLen
    else (f.buffer.drop f.getIndex).take (bufsz - f.getIndex)
      ++ f.buffer.take (recvLen + f.getIndex - bufsz)
  (data, rtDmaRecvUpdateGetIndex bufsz f recvLen)

/-- `recv_total_index`, from the DMA's counter. -/
def recvTotalIndex (bufsz counter : ℕ) : BitVec 32 :=
  BitVec.ofNat 32 bufsz - BitVec.ofNat 32 counter

/-- `recv_len` in `uart_isr`. -/
def uartRecvLen (recvTotalIndex lastIndex : BitVec 32) : BitVec 32 :=
  recvTotalIndex - lastIndex

/-- `recv_len` in `dma_isr`. -/
def dmaRecvLen (bufsz : ℕ) (recvTotalIndex lastIndex : BitVec 32) : BitVec 32 :=
  if recvTotalIndex = 0 then BitVec.ofNat 32 bufsz - lastIndex
  else recvTotalIndex - lastIndex

/-- The length that `rt_hw_serial_isr` gets out of the event
`RT_SERIAL_EVENT_RX_DMADONE | (recv_len << 8)`. -/
def eventLength (recvLen : BitVec 32) : BitVec 32 :=
  let event := 0x03#32 ||| (recvLen <<< 8)
  (event &&& ~~~0xff#32).sshiftRight 8

/-- Above its lowest byte the event is the length. -/
theorem event_getLsbD (r : BitVec 32) {i : ℕ} (hi : i < 24) :
    ((0x03#32 ||| (r <<< 8)) &&& ~~~0xff#32).getLsbD (8 + i) = r.getLsbD i := by
  have hconst : ∀ n < 256, n.testBit (8 + i) = false := by
    intro n hn
    refine Nat.testBit_lt_two_pow (lt_of_lt_of_le (show n < 2 ^ 8 from hn) ?_)
    exact Nat.pow_le_pow_right Nat.two_pos (Nat.le_add_right 8 i)
  have hin : 8 + i < 32 := by omega
  rw [BitVec.getLsbD_and, BitVec.getLsbD_or, BitVec.getLsbD_not, BitVec.getLsbD_shiftLeft,
    BitVec.getLsbD_ofNat, BitVec.getLsbD_ofNat, hconst 3 (by decide), hconst 0xff (by decide)]
  have hshift : ¬ 8 + i < 8 := by omega
  simp [hin, hshift]

theorem eventLength_getLsbD (r : BitVec 32) {i : ℕ} (hi : i < 24) :
    (eventLength r).getLsbD i = r.getLsbD i := by
  have hin : 8 + i < 32 := by omega
  have hwidth : ¬ 32 ≤ i := by omega
  unfold eventLength
  dsimp only
  rw [BitVec.getLsbD_sshiftRight, if_pos hin, event_getLsbD r hi, decide_eq_false hwidth]
  rfl

/-- A length below `2 ^ 23` goes through the event. -/
theorem eventLength_eq {r : BitVec 32} (hr : r.toNat < 2 ^ 23) : eventLength r = r := by
  have hhigh : ∀ j, 23 ≤ j → r.getLsbD j = false := by
    intro j hj
    refine Nat.testBit_lt_two_pow (lt_of_lt_of_le hr ?_)
    exact Nat.pow_le_pow_right Nat.two_pos hj
  refine BitVec.eq_of_getLsbD_eq ?_
  intro i hi
  by_cases hlow : i < 24
  · exact eventLength_getLsbD r hlow
  · have hout : ¬ 8 + i < 32 := by omega
    unfold eventLength
    dsimp only
    rw [BitVec.getLsbD_sshiftRight, if_neg hout, BitVec.msb_eq_getLsbD_last,
      event_getLsbD r (i := 23) (by decide), hhigh 23 le_rfl, hhigh i (by omega), Bool.and_false]

/-- Its 16 low bits always do. -/
theorem eventLength_mod (r : BitVec 32) : (eventLength r).toNat % 2 ^ 16 = r.toNat % 2 ^ 16 := by
  refine Nat.eq_of_testBit_eq ?_
  intro i
  rw [Nat.testBit_mod_two_pow, Nat.testBit_mod_two_pow]
  by_cases hi : i < 16
  · rw [decide_eq_true hi, Bool.true_and, Bool.true_and]
    exact eventLength_getLsbD r (by omega)
  · rw [decide_eq_false hi, Bool.false_and, Bool.false_and]

/-! ## The parties -/

/-- Where an interrupt routine is: `recv_len` has been found, or the fifo has
been updated and holds `length` bytes. -/
inductive IsrStage where
  | out
  | update (recvLen : BitVec 32)
  | indicate (length : ℕ)

/-- Where `at_client_getchar` is: about to read, to reset the semaphore, to
take it, or suspended on it. -/
inductive GetcharStage where
  | read
  | reset
  | take
  | asleep
deriving DecidableEq

/-- What has happened so far. -/
structure ReceiverHistory where
  /-- the bytes the DMA has written -/
  received : List UInt8
  /-- the bytes the parser has read -/
  got : List UInt8
  /-- how many bytes had been written when `last_index` was stored last -/
  sampled : ℕ
  /-- a routine started when the DMA was past the end of the round in which
  `last_index` had been stored -/
  late : Bool
  /-- a byte was written over one that had not been read -/
  overrun : Bool
  /-- `rx_notice` has been released since the last read that got nothing -/
  indicated : Bool

/-- The serial device, its two interrupts and its reader. -/
structure Receiver where
  fifo : RxFifo
  /-- the DMA's counter of bytes to go -/
  counter : ℕ
  lastIndex : BitVec 32
  uart : IsrStage
  dma : IsrStage
  rxNotice : ℕ
  reader : GetcharStage
  history : ReceiverHistory

/-- After `rt_serial_open` and `stm32_dma_config`. -/
def Receiver.start (bufsz : ℕ) : Receiver where
  fifo := ⟨List.replicate bufsz 0, 0, 0, false⟩
  counter := bufsz
  lastIndex := 0
  uart := .out
  dma := .out
  rxNotice := 0
  reader := .read
  history := ⟨[], [], 0, false, false, false⟩

/-- What can happen next. -/
inductive ReceiverAction where
  /-- the DMA writes a byte -/
  | byte (ch : UInt8)
  /-- the interrupt of the UART, the line being idle -/
  | uart
  /-- the interrupt of the DMA, at half or at the end of the buffer -/
  | dma
  /-- the routine of the UART goes on -/
  | uartOn
  /-- the routine of the DMA goes on -/
  | dmaOn
  /-- the parser goes on -/
  | reader
  /-- its wait times out -/
  | timeout

def IsrStage.isOut : IsrStage → Bool
  | .out => true
  | _ => false

/-- A byte comes in. The DMA is circular: its counter is set anew at zero. -/
def Receiver.byte (bufsz : ℕ) (r : Receiver) (ch : UInt8) : Receiver :=
  let h := r.history
  { r with
    fifo := { r.fifo with buffer := r.fifo.buffer.set (bufsz - r.counter) ch }
    counter := if r.counter - 1 = 0 then bufsz else r.counter - 1
    history :=
      { h with
        received := h.received ++ [ch]
        overrun := h.overrun || decide (h.got.length + bufsz ≤ h.received.length) } }

/-- An interrupt routine stores where the DMA is; `inTime` tells whether it is
where the routine takes it to be. -/
def Receiver.sample (bufsz : ℕ) (r : Receiver) (inTime : Bool) : Receiver :=
  let h := r.history
  { r with
    lastIndex := recvTotalIndex bufsz r.counter
    history := { h with sampled := h.received.length, late := h.late || !inTime } }

/-- Where it is then; without new bytes it is done. -/
def IsrStage.start (recvLen : BitVec 32) : IsrStage :=
  if recvLen = 0 then .out else .update recvLen

/-- The sections behind it: `rt_hw_serial_isr`, and `at_client_rx_ind`, which
wakes the parser when it is suspended. -/
def Receiver.serialIsr (bufsz : ℕ) (r : Receiver) : IsrStage → Option (Receiver × IsrStage)
  | .out => none
  | .update recvLen =>
      let fifo := rtDmaRecvUpdatePutIndex bufsz r.fifo (eventLength recvLen).toNat
      some ({ r with fifo := fifo }, .indicate (serialFifoCalcRecvedLen bufsz fifo))
  | .indicate length =>
      if 0 < length then
        let h := { r.history with indicated := true }
        if r.reader = .asleep then some ({ r with reader := .read, history := h }, .out)
        else some ({ r with rxNotice := (r.rxNotice + 1) % 2 ^ 16, history := h }, .out)
      else some (r, .out)

/-- `at_client_getchar`, called again and again. -/
def Receiver.getchar (bufsz : ℕ) (r : Receiver) : Option Receiver :=
  match r.reader with
  | .read =>
      let d := serialDmaRx bufsz r.fifo 1
      let h := r.history
      some
        { r with
          fifo := d.2
          reader := if d.1.length = 0 then .reset else .read
          history :=
            { h with
              got := h.got ++ d.1
              indicated := if d.1.length = 0 then false else h.indicated } }
  | .reset => some { r with rxNotice := 0, reader := .take }
  | .take =>
      if 0 < r.rxNotice then some { r with rxNotice := r.rxNotice - 1, reader := .read }
      else some { r with reader := .asleep }
  | .asleep => none

/-- The DMA has not begun another round since `last_index` was stored. -/
def Receiver.sameRound (bufsz : ℕ) (r : Receiver) : Bool :=
  r.history.received.length / bufsz = r.history.sampled / bufsz

/-- The DMA is at the end of its round at most, and there for the first time. -/
def Receiver.roundEnd (bufsz : ℕ) (r : Receiver) : Bool :=
  r.history.received.length ≤ (r.history.sampled / bufsz + 1) * bufsz
    && !(r.history.received.length = r.history.sampled
      && r.history.received.length % bufsz = 0)

def Receiver.step (bufsz : ℕ) (r : Receiver) : ReceiverAction → Option Receiver
  | .byte ch => some (r.byte bufsz ch)
  | .uart =>
      if r.uart.isOut && r.dma.isOut then
        let len := uartRecvLen (recvTotalIndex bufsz r.counter) r.lastIndex
        some { r.sample bufsz (r.sameRound bufsz) with uart := .start len }
      else none
  | .dma =>
      if r.dma.isOut then
        let len := dmaRecvLen bufsz (recvTotalIndex bufsz r.counter) r.lastIndex
        some { r.sample bufsz (r.roundEnd bufsz) with dma := .start len }
      else none
  | .uartOn =>
      if r.dma.isOut then
        (r.serialIsr bufsz r.uart).map fun s => { s.1 with uart := s.2 }
      else none
  | .dmaOn => (r.serialIsr bufsz r.dma).map fun s => { s.1 with dma := s.2 }
  | .reader => if r.uart.isOut && r.dma.isOut then r.getchar bufsz else none
  | .timeout =>
      if r.uart.isOut && r.dma.isOut && decide (r.reader = .asleep) then
        some { r with reader := .read }
      else none

/-- States of the device in any order of events. -/
def Receiver.Reachable (bufsz : ℕ) : Receiver → Prop :=
  Interleave.Reach (Receiver.step bufsz) (Receiver.start bufsz)

end DiffCar
