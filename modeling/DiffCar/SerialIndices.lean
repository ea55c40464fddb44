import DiffCar.SerialStream

/-!
# SerialIndices — what a late interrupt cannot break

An interrupt that is late takes a step back for `recv_len`: a difference that
is less than zero, in 32 bits, goes through 24 bits of an event into an index
of 16 bits. When the size of the buffer divides `2 ^ 16`, the index comes out
right all the same.
-/

namespace DiffCar

open Interleave

variable {bufsz : ℕ}

/-- `put_index` after the update, whatever the length. -/
theorem rtDmaRecvUpdatePutIndex_mod (hpos : 0 < bufsz) (hdvd : bufsz ∣ 2 ^ 16) {f : RxFifo}
    (hget : f.getIndex < bufsz) (len : ℕ) :
    (rtDmaRecvUpdatePutIndex bufsz f len).putIndex = (f.putIndex + len) % bufsz
      ∧ (rtDmaRecvUpdatePutIndex bufsz f len).getIndex < bufsz := by
  have hmod : (f.putIndex + len) % 2 ^ 16 % bufsz = (f.putIndex + len) % bufsz :=
    Nat.mod_mod_of_dvd _ hdvd
  have hlt := Nat.mod_lt (f.putIndex + len) hpos
  have hlow : ¬ bufsz ≤ (f.putIndex + len) % 2 ^ 16 →
      (f.putIndex + len) % 2 ^ 16 = (f.putIndex + len) % bufsz := by
    intro hlow
    rw [← hmod, Nat.mod_eq_of_lt (not_le.mp hlow)]
  have hput : (rtDmaRecvUpdatePutIndex bufsz f len).putIndex = (f.putIndex + len) % bufsz := by
    unfold rtDmaRecvUpdatePutIndex
    dsimp only
    by_cases hover : bufsz ≤ (f.putIndex + len) % 2 ^ 16
    · have hbeyond : f.getIndex ≤ (f.putIndex + len) % 2 ^ 16 := by omega
      rw [if_pos hover, if_pos hover, if_pos hbeyond, hmod]
      split_ifs <;> rfl
    · rw [if_neg hover, if_neg hover]
      split_ifs <;> exact hlow hover
  have hupdate : (rtDmaRecvUpdatePutIndex bufsz f len).getIndex
        = (rtDmaRecvUpdatePutIndex bufsz f len).putIndex
      ∨ (rtDmaRecvUpdatePutIndex bufsz f len).getIndex = f.getIndex := by
    unfold rtDmaRecvUpdatePutIndex
    dsimp only
    split_ifs <;> first | exact .inl rfl | exact .inr rfl
  refine ⟨hput, ?_⟩
  rcases hupdate with hupdate | hupdate
  · rw [hupdate, hput]
    exact hlt
  · rw [hupdate]
    exact hget

theorem rtDmaRecvUpdateGetIndex_lt (hpos : 0 < bufsz) (f : RxFifo) (len : ℕ) :
    (rtDmaRecvUpdateGetIndex bufsz f len).getIndex < bufsz := by
  unfold rtDmaRecvUpdateGetIndex
  dsimp only
  by_cases hover : bufsz ≤ (f.getIndex + len) % 2 ^ 16
  · rw [if_pos hover]
    exact Nat.mod_lt _ hpos
  · rw [if_neg hover]
    exact not_le.mp hover

theorem serialFifoCalcRecvedLen_le {f : RxFifo} (hput : f.putIndex < bufsz) :
    serialFifoCalcRecvedLen bufsz f ≤ bufsz := by
  unfold serialFifoCalcRecvedLen
  split_ifs <;> omega

/-- The indices are where the DMA was seen last, up to whole rounds. -/
structure Receiver.InStep (bufsz : ℕ) (r : Receiver) : Prop where
  size : r.fifo.buffer.length = bufsz
  counter : 0 < r.counter ∧ r.counter ≤ bufsz
  last : r.lastIndex.toNat < bufsz
  put : r.fifo.putIndex < bufsz
  get : r.fifo.getIndex < bufsz
  step : (r.fifo.putIndex + r.uart.pending + r.dma.pending) % bufsz = r.lastIndex.toNat

section InStep

variable {r t : Receiver}

theorem Receiver.InStep.start (hpos : 0 < bufsz) : (Receiver.start bufsz).InStep bufsz where
  size := List.length_replicate
  counter := ⟨hpos, le_rfl⟩
  last := hpos
  put := hpos
  get := hpos
  step := Nat.zero_mod bufsz

/-- The place of the DMA is a cell of the buffer. -/
theorem Receiver.InStep.total (h : r.InStep bufsz) (hdvd : bufsz ∣ 2 ^ 16) :
    (recvTotalIndex bufsz r.counter).toNat = bufsz - r.counter
      ∧ (recvTotalIndex bufsz r.counter).toNat < bufsz := by
  have hle := Nat.le_of_dvd (by decide) hdvd
  obtain ⟨hpos, hcounter⟩ := h.counter
  have heq : (recvTotalIndex bufsz r.counter).toNat = bufsz - r.counter := by
    rw [recvTotalIndex, BitVec.toNat_sub, BitVec.toNat_ofNat, BitVec.toNat_ofNat,
      Nat.mod_eq_of_lt (by omega : bufsz < 2 ^ 32),
      Nat.mod_eq_of_lt (by omega : r.counter < 2 ^ 32)]
    omega
  exact ⟨heq, by omega⟩

/-- A difference in 32 bits is right up to whole rounds. -/
theorem add_sub_mod_round (hdvd : bufsz ∣ 2 ^ 16) (total last : BitVec 32) (n : ℕ) :
    (last.toNat + (total - last).toNat + n) % bufsz = (total.toNat + n) % bufsz := by
  have hround : bufsz ∣ 2 ^ 32 := hdvd.trans (by decide)
  have hlt := last.isLt
  rw [BitVec.toNat_sub]
  have hmod : (last.toNat + (2 ^ 32 - last.toNat + total.toNat) % 2 ^ 32 + n) % 2 ^ 32
      = (total.toNat + n) % 2 ^ 32 := by
    omega
  rw [← Nat.mod_mod_of_dvd _ hround, hmod, Nat.mod_mod_of_dvd _ hround]

theorem IsrStage.start_toNat (len : BitVec 32) : (IsrStage.start len).pending = len.toNat := by
  unfold IsrStage.start
  by_cases hzero : len = 0
  · rw [if_pos hzero, hzero]
    rfl
  · rw [if_neg hzero]
    rfl

theorem eventLength_mod_round (hdvd : bufsz ∣ 2 ^ 16) (r : BitVec 32) :
    (eventLength r).toNat % bufsz = r.toNat % bufsz := by
  rw [← Nat.mod_mod_of_dvd _ hdvd, eventLength_mod, Nat.mod_mod_of_dvd _ hdvd]

/-- The DMA writes a byte. -/
theorem Receiver.InStep.byte (h : r.InStep bufsz) (ch : UInt8) :
    (r.byte bufsz ch).InStep bufsz := by
  obtain ⟨hpos, hle⟩ := h.counter
  refine ⟨(List.length_set ..).trans h.size, ?_, h.last, h.put, h.get, h.step⟩
  show 0 < (if r.counter - 1 = 0 then bufsz else r.counter - 1)
    ∧ (if r.counter - 1 = 0 then bufsz else r.counter - 1) ≤ bufsz
  by_cases hzero : r.counter - 1 = 0
  · rw [if_pos hzero]
    omega
  · rw [if_neg hzero]
    omega

/-- The interrupt of the UART, in time or late. -/
theorem Receiver.InStep.uartStart (h : r.InStep bufsz) (hdvd : bufsz ∣ 2 ^ 16)
    (hs : r.step bufsz .uart = some t) : t.InStep bufsz := by
  simp only [Receiver.step, Option.ite_none_right_eq_some, Option.some.injEq,
    Bool.and_eq_true] at hs
  obtain ⟨⟨hu, hd⟩, rfl⟩ := hs
  obtain ⟨-, hlt⟩ := h.total hdvd
  have hold := h.step
  rw [IsrStage.isOut_eq hu, IsrStage.isOut_eq hd] at hold
  refine ⟨h.size, h.counter, hlt, h.put, h.get, ?_⟩
  show (r.fifo.putIndex + (IsrStage.start _).pending + r.dma.pending) % bufsz
    = (recvTotalIndex bufsz r.counter).toNat
  have hput : r.fifo.putIndex = r.lastIndex.toNat := by
    rw [← hold]
    exact (Nat.mod_eq_of_lt h.put).symm
  rw [IsrStage.start_toNat, IsrStage.isOut_eq hd, hput, uartRecvLen]
  exact (add_sub_mod_round hdvd _ _ 0).trans (Nat.mod_eq_of_lt hlt)

/-- The interrupt of the DMA, in time or late. -/
theorem Receiver.InStep.dmaStart (h : r.InStep bufsz) (hdvd : bufsz ∣ 2 ^ 16)
    (hs : r.step bufsz .dma = some t) : t.InStep bufsz := by
  simp only [Receiver.step, Option.ite_none_right_eq_some, Option.some.injEq] at hs
  obtain ⟨hd, rfl⟩ := hs
  obtain ⟨-, hlt⟩ := h.total hdvd
  have hold := h.step
  rw [IsrStage.isOut_eq hd] at hold
  refine ⟨h.size, h.counter, hlt, h.put, h.get, ?_⟩
  show (r.fifo.putIndex + r.uart.pending + (IsrStage.start _).pending) % bufsz
    = (recvTotalIndex bufsz r.counter).toNat
  have hle := Nat.le_of_dvd (by decide) hdvd
  have hlast : (r.fifo.putIndex + r.uart.pending) % bufsz = r.lastIndex.toNat := hold
  rw [IsrStage.start_toNat, ← Nat.mod_add_mod, hlast, dmaRecvLen]
  by_cases hzero : recvTotalIndex bufsz r.counter = 0
  · rw [if_pos hzero, hzero]
    have hround := add_sub_mod_round hdvd (BitVec.ofNat 32 bufsz) r.lastIndex 0
    rw [BitVec.toNat_ofNat, Nat.mod_eq_of_lt (by omega : bufsz < 2 ^ 32)] at hround
    exact hround.trans (Nat.mod_self bufsz)
  · rw [if_neg hzero]
    exact (add_sub_mod_round hdvd _ _ 0).trans (Nat.mod_eq_of_lt hlt)

/-- What a routine does behind its first section keeps the sum of the index
and the bytes it has not added yet. -/
theorem Receiver.InStep.serialIsr (h : r.InStep bufsz) (hpos : 0 < bufsz)
    (hdvd : bufsz ∣ 2 ^ 16) {stage : IsrStage} {s : Receiver × IsrStage}
    (hs : r.serialIsr bufsz stage = some s) :
    ∃ fifo notice reader indicated, s.1 =
        { r with
          fifo := fifo, rxNotice := notice, reader := reader
          history := { r.history with indicated := indicated } }
      ∧ fifo.buffer = r.fifo.buffer ∧ fifo.putIndex < bufsz ∧ fifo.getIndex < bufsz
      ∧ s.2.pending = 0
      ∧ ∀ n, (fifo.putIndex + n) % bufsz = (r.fifo.putIndex + stage.pending + n) % bufsz := by
  cases stage with
  | out => exact absurd hs (by simp [Receiver.serialIsr])
  | update recvLen =>
      obtain rfl := Option.some.inj hs
      obtain ⟨hput, hget⟩ :=
        rtDmaRecvUpdatePutIndex_mod hpos hdvd h.get (eventLength recvLen).toNat
      refine ⟨_, _, _, _, rfl, rtDmaRecvUpdatePutIndex_buffer _ _, ?_, hget, rfl, ?_⟩
      · rw [hput]
        exact Nat.mod_lt _ hpos
      · intro n
        have hlen := eventLength_mod_round hdvd recvLen
        rw [hput, Nat.mod_add_mod]
        exact ((Nat.ModEq.add_left r.fifo.putIndex hlen).add_right n)
  | indicate length =>
      simp only [Receiver.serialIsr] at hs
      split_ifs at hs <;> obtain rfl := Option.some.inj hs <;>
        exact ⟨_, _, _, _, rfl, rfl, h.put, h.get, rfl, fun _ => rfl⟩

/-- **Every event keeps the indices in step**, in time or late. -/
theorem Receiver.InStep.next (h : r.InStep bufsz) (hpos : 0 < bufsz) (hdvd : bufsz ∣ 2 ^ 16)
    {a : ReceiverAction} (hs : r.step bufsz a = some t) : t.InStep bufsz := by
  cases a with
  | byte ch =>
      obtain rfl := Option.some.inj hs
      exact h.byte ch
  | uart => exact h.uartStart hdvd hs
  | dma => exact h.dmaStart hdvd hs
  | uartOn =>
      simp only [Receiver.step, Option.ite_none_right_eq_some, Option.map_eq_some_iff] at hs
      obtain ⟨-, s, hs, rfl⟩ := hs
      obtain ⟨fifo, _, _, _, heq, hbuffer, hput, hget, hpending, hsum⟩ :=
        h.serialIsr hpos hdvd hs
      rw [heq]
      refine ⟨hbuffer ▸ h.size, h.counter, h.last, hput, hget, ?_⟩
      show (fifo.putIndex + s.2.pending + r.dma.pending) % bufsz = r.lastIndex.toNat
      rw [hpending, Nat.add_zero, hsum]
      exact h.step
  | dmaOn =>
      simp only [Receiver.step, Option.map_eq_some_iff] at hs
      obtain ⟨s, hs, rfl⟩ := hs
      obtain ⟨fifo, _, _, _, heq, hbuffer, hput, hget, hpending, hsum⟩ :=
        h.serialIsr hpos hdvd hs
      rw [heq]
      refine ⟨hbuffer ▸ h.size, h.counter, h.last, hput, hget, ?_⟩
      show (fifo.putIndex + r.uart.pending + s.2.pending) % bufsz = r.lastIndex.toNat
      rw [hpending, Nat.add_zero, hsum, Nat.add_right_comm]
      exact h.step
  | reader =>
      simp only [Receiver.step, Option.ite_none_right_eq_some] at hs
      obtain ⟨-, hs⟩ := hs
      unfold Receiver.getchar at hs
      cases hreader : r.reader with
      | read =>
          simp only [hreader, Option.some.injEq] at hs
          subst hs
          exact ⟨h.size, h.counter, h.last, h.put, rtDmaRecvUpdateGetIndex_lt hpos _ _, h.step⟩
      | reset =>
          simp only [hreader, Option.some.injEq] at hs
          subst hs
          exact ⟨h.size, h.counter, h.last, h.put, h.get, h.step⟩
      | take =>
          simp only [hreader] at hs
          split_ifs at hs <;> obtain rfl := Option.some.inj hs <;>
            exact ⟨h.size, h.counter, h.last, h.put, h.get, h.step⟩
      | asleep => simp [hreader] at hs
  | timeout =>
      simp only [Receiver.step, Option.ite_none_right_eq_some, Option.some.injEq] at hs
      obtain ⟨-, rfl⟩ := hs
      exact ⟨h.size, h.counter, h.last, h.put, h.get, h.step⟩

end InStep

/-- **The indices never lose the DMA.** In every order of events, however late
an interrupt is: the DMA and the indices stay inside the buffer, a read copies
as many bytes as it says, and with no interrupt in progress `put_index` is
where the DMA was seen last. -/
theorem receiver_in_step (hpos : 0 < bufsz) (hdvd : bufsz ∣ 2 ^ 16) (r : Receiver)
    (h : Receiver.Reachable bufsz r) :
    bufsz - r.counter < r.fifo.buffer.length ∧ r.fifo.putIndex < bufsz
      ∧ r.fifo.getIndex < bufsz
      ∧ (∀ length, (serialDmaRx bufsz r.fifo length).1.length
        = min length (serialFifoCalcRecvedLen bufsz r.fifo))
      ∧ (r.uart = .out → r.dma = .out → r.fifo.putIndex = r.lastIndex.toNat) := by
  have hstep : r.InStep bufsz :=
    Reach.inv h (Receiver.InStep.start hpos) fun _ _ _ h hs => h.next hpos hdvd hs
  obtain ⟨hcounter, -⟩ := hstep.counter
  refine ⟨?_, hstep.put, hstep.get, ?_, ?_⟩
  · rw [hstep.size]
    omega
  · intro length
    have hle := serialFifoCalcRecvedLen_le hstep.put
    have hget := hstep.get
    have hlen : (if length < serialFifoCalcRecvedLen bufsz r.fifo then length
        else serialFifoCalcRecvedLen bufsz r.fifo)
        = min length (serialFifoCalcRecvedLen bufsz r.fifo) := by
      by_cases hlt : length < serialFifoCalcRecvedLen bufsz r.fifo
      · rw [if_pos hlt, min_eq_left (by omega)]
      · rw [if_neg hlt, min_eq_right (by omega)]
    unfold serialDmaRx
    dsimp only
    rw [hlen]
    by_cases hover : r.fifo.getIndex + min length (serialFifoCalcRecvedLen bufsz r.fifo) < bufsz
    · rw [if_pos hover, List.length_take, List.length_drop, hstep.size]
      omega
    · rw [if_neg hover, List.length_append, List.length_take, List.length_drop,
        List.length_take, hstep.size]
      omega
  · intro hu hd
    have hsum := hstep.step
    rw [hu, hd] at hsum
    rw [← hsum]
    exact (Nat.mod_eq_of_lt hstep.put).symm

/-- The interrupt of the UART comes when the DMA is one byte into the next
round, and that of the DMA has not been served. -/
def lateRun : List ReceiverAction :=
  [.byte 1, .byte 2, .byte 3, .uart, .uartOn, .uartOn, .byte 4, .byte 5, .uart, .uartOn, .uartOn]

theorem receiver_in_step_late : ∃ r : Receiver,
    r.history.late = true ∧ r.fifo.putIndex = r.lastIndex.toNat := by
  have hrun : (exec (Receiver.step 4) (Receiver.start 4) lateRun).map
        (fun r => (r.history.late, r.uart.isOut, r.dma.isOut)) = some (true, true, true) := by
    decide
  obtain ⟨r, hr, heq⟩ := Option.map_eq_some_iff.mp hrun
  obtain ⟨hlate, hu, hd⟩ : r.history.late = true ∧ r.uart.isOut = true
      ∧ r.dma.isOut = true := by simpa using heq
  exact ⟨r, hlate, (@receiver_in_step 4 (by decide) (by decide) r
    (Reach.exec .refl hr)).2.2.2.2 (IsrStage.isOut_eq hu) (IsrStage.isOut_eq hd)⟩

end DiffCar
