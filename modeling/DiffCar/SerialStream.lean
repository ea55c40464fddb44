import DiffCar.SerialDma

/-!
# SerialStream — the parser reads what the line brought

The fifo by the numbers of the bytes: `Fifo f g p` says that bytes `g` to `p`
of all are in it. As long as every interrupt comes before the DMA is past the
end of its round, the indices stay at these numbers, and the bytes read are
the bytes received, unless one was written over before it was read.
-/

namespace DiffCar

open Interleave

variable {bufsz : ℕ}

/-! ## The fifo -/

/-- A step forward by no more than a round. -/
theorem add_mod_round {x k : ℕ} (hk : k ≤ bufsz) (hpos : 0 < bufsz) :
    (x + k) % bufsz = if x % bufsz + k < bufsz then x % bufsz + k else x % bufsz + k - bufsz := by
  have hlt := Nat.mod_lt x hpos
  rw [← Nat.mod_add_mod]
  by_cases hover : x % bufsz + k < bufsz
  · rw [if_pos hover, Nat.mod_eq_of_lt hover]
  · rw [if_neg hover, Nat.mod_eq_sub_mod (by omega), Nat.mod_eq_of_lt (by omega)]

/-- Bytes `g` to `p` of all are in the fifo. -/
structure RxFifo.Fifo (bufsz : ℕ) (f : RxFifo) (g p : ℕ) : Prop where
  put : f.putIndex = p % bufsz
  get : f.getIndex = g % bufsz
  full : f.isFull = decide (p = g + bufsz)
  le : g ≤ p
  room : p ≤ g + bufsz

section Fifo

variable {f : RxFifo} {g p len : ℕ}

/-- Where `put_index` is, seen from `get_index`. -/
theorem RxFifo.Fifo.apart (h : f.Fifo bufsz g p) (hpos : 0 < bufsz) :
    f.getIndex < bufsz ∧ (f.getIndex + (p - g) < bufsz ∧ f.putIndex = f.getIndex + (p - g)
      ∨ bufsz ≤ f.getIndex + (p - g) ∧ f.putIndex + bufsz = f.getIndex + (p - g)) := by
  have hle := h.le
  have hroom := h.room
  have hlt := Nat.mod_lt g hpos
  have hmod := add_mod_round (x := g) (k := p - g) (by omega) hpos
  rw [Nat.add_sub_cancel' hle] at hmod
  rw [h.get, h.put, hmod]
  refine ⟨hlt, ?_⟩
  by_cases hover : g % bufsz + (p - g) < bufsz
  · exact .inl ⟨hover, if_pos hover⟩
  · rw [if_neg hover]
    exact .inr ⟨by omega, by omega⟩

/-- The length is that of the bytes in the fifo. -/
theorem RxFifo.Fifo.recved (h : f.Fifo bufsz g p) (hpos : 0 < bufsz) :
    serialFifoCalcRecvedLen bufsz f = p - g := by
  obtain ⟨hget, hput⟩ := h.apart hpos
  have hle := h.le
  have hroom := h.room
  unfold serialFifoCalcRecvedLen
  by_cases heq : f.putIndex = f.getIndex
  · rw [if_pos heq, h.full]
    by_cases hfull : p = g + bufsz
    · rw [decide_eq_true hfull, if_pos rfl]
      omega
    · rw [decide_eq_false hfull, if_neg (by simp)]
      omega
  · rw [if_neg heq]
    by_cases hlt : f.getIndex < f.putIndex
    · rw [if_pos hlt]
      omega
    · rw [if_neg hlt]
      omega

/-- Reading moves the start. -/
theorem RxFifo.Fifo.take (h : f.Fifo bufsz g p) (hpos : 0 < bufsz) (hsize : bufsz ≤ 2 ^ 15)
    (hlen : len ≤ p - g) : (rtDmaRecvUpdateGetIndex bufsz f len).Fifo bufsz (g + len) p := by
  obtain ⟨hget, -⟩ := h.apart hpos
  have hle := h.le
  have hroom := h.room
  have hmod := add_mod_round (x := g) (k := len) (by omega) hpos
  refine ⟨h.put, ?_, ?_, by omega, by omega⟩
  · unfold rtDmaRecvUpdateGetIndex
    dsimp only
    rw [hmod, ← h.get, Nat.mod_eq_of_lt (by omega : f.getIndex + len < 2 ^ 16)]
    by_cases hover : f.getIndex + len < bufsz
    · rw [if_neg (by omega), if_pos hover]
    · rw [if_pos (by omega), if_neg hover, Nat.mod_eq_sub_mod (by omega),
        Nat.mod_eq_of_lt (by omega)]
  · unfold rtDmaRecvUpdateGetIndex
    dsimp only
    rw [h.full]
    by_cases hzero : len = 0
    · subst hzero
      simp
    · rw [decide_eq_false (by omega : ¬ p = g + len + bufsz)]
      simp [hzero]

/-- New bytes move the end, and the start when there is no room for them. -/
theorem RxFifo.Fifo.append (h : f.Fifo bufsz g p) (hpos : 0 < bufsz) (hsize : bufsz ≤ 2 ^ 15)
    (hlen : len ≤ bufsz) (hne : 0 < len) :
    (rtDmaRecvUpdatePutIndex bufsz f len).Fifo bufsz (max g (p + len - bufsz)) (p + len) := by
  obtain ⟨hget, hput⟩ := h.apart hpos
  have hle := h.le
  have hroom := h.room
  have hmod := add_mod_round (x := p) (k := len) hlen hpos
  have hputlt : f.putIndex < bufsz := by
    rw [h.put]
    exact Nat.mod_lt p hpos
  rw [← h.put] at hmod
  have hsmall : f.putIndex + len < 2 ^ 16 := by omega
  have hwrap : bufsz ≤ f.putIndex + len →
      (f.putIndex + len) % bufsz = f.putIndex + len - bufsz := by
    intro hover
    rcases Nat.lt_or_ge (f.putIndex + len - bufsz) bufsz with hlt | hge
    · rw [Nat.mod_eq_sub_mod hover, Nat.mod_eq_of_lt hlt]
    · omega
  -- whether the fifo is full afterwards
  have hupdate : rtDmaRecvUpdatePutIndex bufsz f len
      = if p + len < g + bufsz then { f with putIndex := (p + len) % bufsz }
        else { f with
          putIndex := (p + len) % bufsz, getIndex := (p + len) % bufsz, isFull := true } := by
    unfold rtDmaRecvUpdatePutIndex
    dsimp only
    rw [Nat.mod_eq_of_lt hsmall, hmod]
    by_cases hin : p + len < g + bufsz
    · have hnot : f.isFull = false := by
        rw [h.full]
        exact decide_eq_false (by omega)
      rw [if_pos hin]
      by_cases horder : f.getIndex ≤ f.putIndex
      · by_cases hover : bufsz ≤ f.putIndex + len
        · have hbehind : ¬ f.getIndex ≤ f.putIndex + len - bufsz := by omega
          simp only [horder, hover, hwrap hover, hbehind, hnot, if_true, if_false,
            Bool.false_eq_true, if_neg (not_lt.mpr hover)]
        · simp only [horder, hover, hnot, if_true, if_false, Bool.false_eq_true,
            if_pos (not_le.mp hover)]
      · have hbehind : ¬ f.getIndex ≤ f.putIndex + len := by omega
        have hover : f.putIndex + len < bufsz := by omega
        simp only [horder, hbehind, hover, hnot, if_true, if_false, Bool.false_eq_true]
    · rw [if_neg hin]
      by_cases horder : f.getIndex ≤ f.putIndex
      · by_cases hfull : p = g + bufsz
        · have hi : f.isFull = true := by rw [h.full, decide_eq_true hfull]
          by_cases hover : bufsz ≤ f.putIndex + len
          · simp only [horder, hover, hwrap hover, hi, ite_self, if_true,
              if_neg (not_lt.mpr hover)]
          · simp only [horder, hover, hi, if_true, if_false, if_pos (not_le.mp hover)]
        · have hover : bufsz ≤ f.putIndex + len := by omega
          have hbeyond : f.getIndex ≤ f.putIndex + len - bufsz := by omega
          simp only [horder, hover, hwrap hover, hbeyond, if_true, if_neg (not_lt.mpr hover)]
      · have hbeyond : f.getIndex ≤ f.putIndex + len := by omega
        by_cases hover : bufsz ≤ f.putIndex + len
        · simp only [horder, hbeyond, hover, hwrap hover, if_true, if_false,
            if_neg (not_lt.mpr hover)]
        · simp only [horder, hbeyond, hover, if_true, if_false, if_pos (not_le.mp hover)]
  rw [hupdate]
  by_cases hin : p + len < g + bufsz
  · rw [if_pos hin, max_eq_left (by omega)]
    refine ⟨rfl, h.get, ?_, by omega, by omega⟩
    rw [h.full, decide_eq_false (by omega), decide_eq_false (by omega)]
  · rw [if_neg hin, max_eq_right (by omega)]
    refine ⟨rfl, ?_, ?_, by omega, by omega⟩
    · have heq : p + len = p + len - bufsz + bufsz := by omega
      show (p + len) % bufsz = _
      rw [heq, Nat.add_mod_right]
      congr 1
      omega
    · exact (decide_eq_true (by omega)).symm

/-- **A read takes the first bytes of the fifo.** -/
theorem RxFifo.Fifo.read (h : f.Fifo bufsz g p) (hpos : 0 < bufsz) (hsize : bufsz ≤ 2 ^ 15)
    (hbuf : f.buffer.length = bufsz) (length : ℕ) :
    (serialDmaRx bufsz f length).1 = Ring.window f.buffer (g % bufsz) (min length (p - g))
      ∧ (serialDmaRx bufsz f length).2.Fifo bufsz (g + min length (p - g)) p
      ∧ (serialDmaRx bufsz f length).2.buffer = f.buffer := by
  obtain ⟨hget, -⟩ := h.apart hpos
  have hlen : (if length < serialFifoCalcRecvedLen bufsz f then length
      else serialFifoCalcRecvedLen bufsz f) = min length (p - g) := by
    rw [h.recved hpos]
    by_cases hlt : length < p - g
    · rw [if_pos hlt, min_eq_left (by omega)]
    · rw [if_neg hlt, min_eq_right (by omega)]
  unfold serialDmaRx
  dsimp only
  rw [hlen]
  refine ⟨?_, h.take hpos hsize (min_le_right _ _), rfl⟩
  have hall : (f.buffer.drop f.getIndex).take (bufsz - f.getIndex)
      = f.buffer.drop f.getIndex := by
    refine List.take_of_length_le ?_
    rw [List.length_drop, hbuf]
  rw [hall, ← h.get, Ring.window, hbuf, Nat.add_comm (min length (p - g))]

end Fifo

/-! ## The stream -/

/-- The bytes that an interrupt routine is about to add. -/
def IsrStage.pending : IsrStage → ℕ
  | .update recvLen => recvLen.toNat
  | _ => 0

/-- The lengths in the routine are those of a round, and not zero. -/
def IsrStage.Ok (bufsz : ℕ) : IsrStage → Prop
  | .out => True
  | .update recvLen => 0 < recvLen.toNat ∧ recvLen.toNat ≤ bufsz
  | .indicate length => 0 < length

/-- The routine is about to release the semaphore. -/
def IsrStage.isIndicate : IsrStage → Bool
  | .indicate _ => true
  | _ => false

/-- **What holds while no interrupt is late**: bytes `g` to `p` of all are in
the fifo. -/
structure Receiver.Stream (bufsz : ℕ) (r : Receiver) (g p : ℕ) : Prop where
  size : r.fifo.buffer.length = bufsz
  written : Ring.Written r.fifo.buffer r.history.received
  counter : r.counter = bufsz - r.history.received.length % bufsz
  last : r.lastIndex.toNat = r.history.sampled % bufsz
  sampled : r.history.sampled ≤ r.history.received.length
  fifo : r.fifo.Fifo bufsz g p
  pending : p + r.uart.pending + r.dma.pending = r.history.sampled
  uart : r.uart.Ok bufsz
  dma : r.dma.Ok bufsz
  inOrder : r.history.overrun = false →
    r.history.got = r.history.received.take g ∧ r.history.received.length ≤ g + bufsz
  -- the fifo is as full as the semaphore says
  filled : r.uart.isIndicate = true ∨ r.dma.isIndicate = true → g < p
  waiting : r.reader ≠ .read →
    (g < p ↔ r.history.indicated = true ∨ r.uart.isIndicate = true ∨ r.dma.isIndicate = true)

section Stream

variable {r t : Receiver} {g p : ℕ}

theorem Receiver.Stream.start (hpos : 0 < bufsz) : (Receiver.start bufsz).Stream bufsz 0 0 where
  size := List.length_replicate
  written := Ring.written_nil _
  counter := (Nat.sub_zero bufsz).symm
  last := (Nat.zero_mod bufsz).symm
  sampled := le_rfl
  fifo := ⟨(Nat.zero_mod bufsz).symm, (Nat.zero_mod bufsz).symm,
    (decide_eq_false (by omega)).symm, le_rfl, Nat.zero_le _⟩
  pending := rfl
  uart := trivial
  dma := trivial
  inOrder := fun _ => ⟨rfl, Nat.zero_le _⟩
  filled := by simp [Receiver.start, IsrStage.isIndicate]
  waiting := fun h => absurd rfl h

/-- The DMA writes a byte. -/
theorem Receiver.Stream.byte (h : r.Stream bufsz g p) (hpos : 0 < bufsz) (ch : UInt8) :
    (r.byte bufsz ch).Stream bufsz g p := by
  have hlt := Nat.mod_lt r.history.received.length hpos
  have hcell : bufsz - r.counter = r.history.received.length % bufsz := by
    rw [h.counter]
    omega
  refine ⟨?_, ?_, ?_, h.last, ?_, ⟨h.fifo.put, h.fifo.get, h.fifo.full, h.fifo.le, h.fifo.room⟩,
    h.pending, h.uart, h.dma, ?_, h.filled, h.waiting⟩
  · exact (List.length_set ..).trans h.size
  · have hwrite := h.written.write (by rw [h.size]; exact hpos) ch
    rw [h.size, ← hcell] at hwrite
    exact hwrite
  · show (if r.counter - 1 = 0 then bufsz else r.counter - 1)
      = bufsz - (r.history.received ++ [ch]).length % bufsz
    rw [List.length_append, List.length_singleton, add_mod_round (by omega) hpos, h.counter]
    by_cases hover : r.history.received.length % bufsz + 1 < bufsz
    · rw [if_neg (by omega), if_pos hover]
      omega
    · rw [if_pos (by omega), if_neg hover]
      omega
  · show r.history.sampled ≤ (r.history.received ++ [ch]).length
    have hle := h.sampled
    rw [List.length_append]
    omega
  · intro hover
    obtain ⟨hover, hroom⟩ := Bool.or_eq_false_iff.mp hover
    obtain ⟨hgot, -⟩ := h.inOrder hover
    have hle := h.fifo.le
    have hp := h.pending
    have hsampled := h.sampled
    have hlen : r.history.got.length = g := by
      rw [hgot, List.length_take]
      omega
    have hroom := of_decide_eq_false hroom
    constructor
    · show r.history.got = (r.history.received ++ [ch]).take g
      rw [List.take_append_of_le_length (by omega)]
      exact hgot
    · show (r.history.received ++ [ch]).length ≤ g + bufsz
      rw [List.length_append, List.length_singleton]
      omega

/-- What the DMA's counter says. -/
theorem Receiver.Stream.total (h : r.Stream bufsz g p) (hpos : 0 < bufsz)
    (hsize : bufsz ≤ 2 ^ 15) :
    (recvTotalIndex bufsz r.counter).toNat = r.history.received.length % bufsz := by
  have hlt := Nat.mod_lt r.history.received.length hpos
  rw [recvTotalIndex, h.counter, BitVec.toNat_sub, BitVec.toNat_ofNat, BitVec.toNat_ofNat,
    Nat.mod_eq_of_lt (by omega : bufsz < 2 ^ 32),
    Nat.mod_eq_of_lt (by omega : bufsz - r.history.received.length % bufsz < 2 ^ 32)]
  omega

/-- In the same round the difference of the places is that of the numbers. -/
theorem sub_of_same_round {m n : ℕ} (hle : m ≤ n) (h : n / bufsz = m / bufsz) :
    m % bufsz ≤ n % bufsz ∧ n % bufsz - m % bufsz = n - m := by
  have hm := Nat.div_add_mod m bufsz
  have hn := Nat.div_add_mod n bufsz
  rw [h] at hn
  omega

/-- `recv_len` of the UART's routine, in time. -/
theorem Receiver.Stream.uartRecvLen (h : r.Stream bufsz g p) (hpos : 0 < bufsz)
    (hsize : bufsz ≤ 2 ^ 15) (htime : r.sameRound bufsz = true) :
    (DiffCar.uartRecvLen (recvTotalIndex bufsz r.counter) r.lastIndex).toNat
        = r.history.received.length - r.history.sampled
      ∧ r.history.received.length - r.history.sampled ≤ bufsz := by
  have hround := of_decide_eq_true htime
  obtain ⟨hle, hsub⟩ := sub_of_same_round h.sampled hround
  have hlt := Nat.mod_lt r.history.received.length hpos
  refine ⟨?_, by omega⟩
  rw [DiffCar.uartRecvLen, BitVec.toNat_sub, h.total hpos hsize, h.last]
  omega

/-- `recv_len` of the DMA's routine, in time. -/
theorem Receiver.Stream.dmaRecvLen (h : r.Stream bufsz g p) (hpos : 0 < bufsz)
    (hsize : bufsz ≤ 2 ^ 15) (htime : r.roundEnd bufsz = true) :
    (DiffCar.dmaRecvLen bufsz (recvTotalIndex bufsz r.counter) r.lastIndex).toNat
        = r.history.received.length - r.history.sampled
      ∧ r.history.received.length - r.history.sampled ≤ bufsz := by
  obtain ⟨hend, hnew⟩ := (Bool.and_eq_true _ _).mp htime
  have hend := of_decide_eq_true hend
  have hle := h.sampled
  have htotal := h.total hpos hsize
  have hlt := Nat.mod_lt r.history.sampled hpos
  have hdiv := Nat.div_add_mod r.history.sampled bufsz
  rw [Nat.add_mul, Nat.one_mul, Nat.mul_comm] at hend
  refine ⟨?_, by omega⟩
  rw [DiffCar.dmaRecvLen]
  by_cases hzero : recvTotalIndex bufsz r.counter = 0
  · rw [hzero] at htotal
    have hmod : r.history.received.length % bufsz = 0 := htotal.symm
    have hne : r.history.received.length ≠ r.history.sampled := by
      intro heq
      rw [Bool.not_eq_true', Bool.and_eq_false_iff] at hnew
      rcases hnew with hnew | hnew
      · exact absurd heq (of_decide_eq_false hnew)
      · exact absurd hmod (of_decide_eq_false hnew)
    -- the DMA is at the end of the round in which it was
    have hat : r.history.received.length = bufsz * (r.history.sampled / bufsz) + bufsz := by
      obtain ⟨q, hq⟩ := Nat.dvd_of_mod_eq_zero hmod
      have hlow : r.history.sampled / bufsz < q := by
        by_contra hge
        have hmul := Nat.mul_le_mul_left bufsz (not_lt.mp hge)
        omega
      have hmul := Nat.mul_le_mul_left bufsz hlow
      rw [Nat.mul_succ] at hmul
      omega
    rw [if_pos hzero, BitVec.toNat_sub, BitVec.toNat_ofNat, h.last,
      Nat.mod_eq_of_lt (by omega : bufsz < 2 ^ 32)]
    omega
  · have hmod : r.history.received.length % bufsz ≠ 0 := by
      intro heq
      rw [heq] at htotal
      exact hzero (BitVec.eq_of_toNat_eq htotal)
    have hround : r.history.received.length / bufsz = r.history.sampled / bufsz := by
      refine Nat.div_eq_of_lt_le ?_ ?_
      · rw [Nat.mul_comm]
        omega
      · rw [Nat.succ_mul, Nat.mul_comm]
        rcases Nat.lt_or_eq_of_le hend with hlt | heq
        · exact hlt
        · refine absurd ?_ hmod
          rw [heq, Nat.mul_add_mod, Nat.mod_self]
    obtain ⟨hsame, hsub⟩ := sub_of_same_round hle hround
    have hlt' := Nat.mod_lt r.history.received.length hpos
    rw [if_neg hzero, BitVec.toNat_sub, htotal, h.last]
    omega

/-- Where a routine is after its first section. -/
theorem IsrStage.start_pending {len : BitVec 32} {k : ℕ} (hlen : len.toNat = k)
    (hk : k ≤ bufsz) :
    (IsrStage.start len).pending = k ∧ (IsrStage.start len).Ok bufsz
      ∧ (IsrStage.start len).isIndicate = false := by
  unfold IsrStage.start
  by_cases hzero : len = 0
  · have hk : k = 0 := by
      rw [← hlen, hzero]
      rfl
    rw [if_pos hzero]
    exact ⟨hk.symm, trivial, rfl⟩
  · have hne : len.toNat ≠ 0 := fun h => hzero (BitVec.eq_of_toNat_eq h)
    rw [if_neg hzero]
    exact ⟨hlen, ⟨by omega, by omega⟩, rfl⟩

theorem IsrStage.isOut_eq {stage : IsrStage} (h : stage.isOut = true) : stage = .out := by
  cases stage with
  | out => rfl
  | update recvLen => cases h
  | indicate length => cases h

/-- The interrupt of the UART, in time. -/
theorem Receiver.Stream.uartStart (h : r.Stream bufsz g p) (hpos : 0 < bufsz)
    (hsize : bufsz ≤ 2 ^ 15) (hs : r.step bufsz .uart = some t) (hlate : t.history.late = false) :
    t.Stream bufsz g p := by
  simp only [Receiver.step, Option.ite_none_right_eq_some, Option.some.injEq,
    Bool.and_eq_true] at hs
  obtain ⟨⟨hu, hd⟩, rfl⟩ := hs
  have hu := IsrStage.isOut_eq hu
  obtain ⟨-, htime⟩ := Bool.or_eq_false_iff.mp hlate
  obtain ⟨hlen, hround⟩ := h.uartRecvLen hpos hsize (by simpa using htime)
  obtain ⟨hpending, hok, hout⟩ := IsrStage.start_pending hlen hround
  have hold := h.pending
  have hfilled := h.filled
  have hwaiting := h.waiting
  have hle := h.sampled
  rw [hu] at hold hfilled hwaiting
  refine ⟨h.size, h.written, h.counter, h.total hpos hsize, le_rfl, h.fifo, ?_, hok, h.dma,
    h.inOrder, ?_, ?_⟩
  · show p + (IsrStage.start _).pending + r.dma.pending = r.history.received.length
    rw [hpending]
    simp only [IsrStage.pending] at hold ⊢
    omega
  · intro hind
    refine hfilled ?_
    rcases hind with hind | hind
    · exact absurd (hout.symm.trans hind) Bool.false_ne_true
    · exact .inr hind
  · intro hreader
    refine (hwaiting hreader).trans ?_
    have hnone : IsrStage.out.isIndicate = false := rfl
    show _ ↔ _ ∨ (IsrStage.start _).isIndicate = true ∨ _
    rw [hout, hnone]
    exact Iff.rfl

/-- The interrupt of the DMA, in time. -/
theorem Receiver.Stream.dmaStart (h : r.Stream bufsz g p) (hpos : 0 < bufsz)
    (hsize : bufsz ≤ 2 ^ 15) (hs : r.step bufsz .dma = some t) (hlate : t.history.late = false) :
    t.Stream bufsz g p := by
  simp only [Receiver.step, Option.ite_none_right_eq_some, Option.some.injEq] at hs
  obtain ⟨hd, rfl⟩ := hs
  have hd := IsrStage.isOut_eq hd
  obtain ⟨-, htime⟩ := Bool.or_eq_false_iff.mp hlate
  obtain ⟨hlen, hround⟩ := h.dmaRecvLen hpos hsize (by simpa using htime)
  obtain ⟨hpending, hok, hout⟩ := IsrStage.start_pending hlen hround
  have hold := h.pending
  have hfilled := h.filled
  have hwaiting := h.waiting
  have hle := h.sampled
  rw [hd] at hold hfilled hwaiting
  refine ⟨h.size, h.written, h.counter, h.total hpos hsize, le_rfl, h.fifo, ?_, h.uart, hok,
    h.inOrder, ?_, ?_⟩
  · show p + r.uart.pending + (IsrStage.start _).pending = r.history.received.length
    rw [hpending]
    simp only [IsrStage.pending] at hold ⊢
    omega
  · intro hind
    refine hfilled ?_
    rcases hind with hind | hind
    · exact .inl hind
    · exact absurd (hout.symm.trans hind) Bool.false_ne_true
  · intro hreader
    refine (hwaiting hreader).trans ?_
    have hnone : IsrStage.out.isIndicate = false := rfl
    show _ ↔ _ ∨ _ ∨ (IsrStage.start _).isIndicate = true
    rw [hout, hnone]
    exact Iff.rfl

theorem rtDmaRecvUpdatePutIndex_buffer (f : RxFifo) (len : ℕ) :
    (rtDmaRecvUpdatePutIndex bufsz f len).buffer = f.buffer := by
  unfold rtDmaRecvUpdatePutIndex
  dsimp only
  split_ifs <;> rfl

/-- What a routine has done when it goes on from `stage` to `next`. -/
structure Receiver.Served (bufsz : ℕ) (r : Receiver) (g p : ℕ) (stage next : IsrStage)
    (fifo : RxFifo) (reader : GetcharStage) (indicated : Bool) (g' : ℕ) : Prop where
  buffer : fifo.buffer = r.fifo.buffer
  fifo : fifo.Fifo bufsz g' (p + stage.pending)
  filled : g' < p + stage.pending
  kept : r.history.overrun = false → g' = g
  pending : next.pending = 0
  ok : next.Ok bufsz
  told : reader ≠ .read → indicated = true ∨ next.isIndicate = true

/-- **A routine goes on**: it adds its bytes, and bytes are dropped only if one
was written over; then it tells the parser. -/
theorem Receiver.Stream.serialIsr (h : r.Stream bufsz g p) (hpos : 0 < bufsz)
    (hsize : bufsz ≤ 2 ^ 15) {stage : IsrStage} {s : Receiver × IsrStage}
    (hs : r.serialIsr bufsz stage = some s) (hok : stage.Ok bufsz)
    (hroom : p + stage.pending ≤ r.history.sampled)
    (hfilled : stage.isIndicate = true → g < p) :
    ∃ fifo notice reader indicated g', s.1 =
        { r with
          fifo := fifo, rxNotice := notice, reader := reader
          history := { r.history with indicated := indicated } }
      ∧ r.Served bufsz g p stage s.2 fifo reader indicated g' := by
  cases stage with
  | out => exact absurd hs (by simp [Receiver.serialIsr])
  | update recvLen =>
      obtain rfl := Option.some.inj hs
      obtain ⟨hne, hle⟩ := hok
      simp only [IsrStage.pending] at hroom
      have heq : eventLength recvLen = recvLen := eventLength_eq (by omega)
      have hfifo := h.fifo.append hpos hsize hle hne
      have hlen := hfifo.recved hpos
      have hsampled := h.sampled
      have hold := h.fifo.le
      rw [heq]
      refine ⟨_, _, _, _, _, rfl, rtDmaRecvUpdatePutIndex_buffer _ _, hfifo, ?_, ?_, rfl, ?_,
        fun _ => .inr rfl⟩
      · simp only [IsrStage.pending]
        omega
      · intro hover
        obtain ⟨-, hunread⟩ := h.inOrder hover
        exact max_eq_left (by omega)
      · simp only [IsrStage.Ok]
        omega
  | indicate length =>
      have hlt := hfilled rfl
      simp only [Receiver.serialIsr, if_pos (show 0 < length from hok)] at hs
      by_cases hasleep : r.reader = .asleep
      · rw [if_pos hasleep] at hs
        obtain rfl := Option.some.inj hs
        exact ⟨_, _, _, _, g, rfl, rfl, h.fifo, hlt, fun _ => rfl, rfl, trivial,
          fun _ => .inl rfl⟩
      · rw [if_neg hasleep] at hs
        obtain rfl := Option.some.inj hs
        exact ⟨_, _, _, _, g, rfl, rfl, h.fifo, hlt, fun _ => rfl, rfl, trivial,
          fun _ => .inl rfl⟩

/-- The routine of the UART goes on. -/
theorem Receiver.Stream.uartOn (h : r.Stream bufsz g p) (hpos : 0 < bufsz)
    (hsize : bufsz ≤ 2 ^ 15) (hs : r.step bufsz .uartOn = some t) :
    ∃ g' p', t.Stream bufsz g' p' := by
  simp only [Receiver.step, Option.ite_none_right_eq_some, Option.map_eq_some_iff] at hs
  obtain ⟨-, s, hs, rfl⟩ := hs
  have hpending := h.pending
  obtain ⟨fifo, notice, reader, indicated, g', heq, hserved⟩ :=
    h.serialIsr hpos hsize hs h.uart (by omega) fun hind => h.filled (.inl hind)
  have hnext := hserved.pending
  rw [heq]
  refine ⟨g', _, hserved.buffer ▸ h.size, hserved.buffer ▸ h.written, h.counter, h.last,
    h.sampled, hserved.fifo, ?_, hserved.ok, h.dma, ?_, fun _ => hserved.filled, ?_⟩
  · dsimp only
    omega
  · intro hover
    rw [hserved.kept hover]
    exact h.inOrder hover
  · intro hreader
    refine ⟨fun _ => ?_, fun _ => hserved.filled⟩
    rcases hserved.told hreader with htold | htold
    · exact .inl htold
    · exact .inr (.inl htold)

/-- The routine of the DMA goes on. -/
theorem Receiver.Stream.dmaOn (h : r.Stream bufsz g p) (hpos : 0 < bufsz)
    (hsize : bufsz ≤ 2 ^ 15) (hs : r.step bufsz .dmaOn = some t) :
    ∃ g' p', t.Stream bufsz g' p' := by
  simp only [Receiver.step, Option.map_eq_some_iff] at hs
  obtain ⟨s, hs, rfl⟩ := hs
  have hpending := h.pending
  obtain ⟨fifo, notice, reader, indicated, g', heq, hserved⟩ :=
    h.serialIsr hpos hsize hs h.dma (by omega) fun hind => h.filled (.inr hind)
  have hnext := hserved.pending
  rw [heq]
  refine ⟨g', _, hserved.buffer ▸ h.size, hserved.buffer ▸ h.written, h.counter, h.last,
    h.sampled, hserved.fifo, ?_, h.uart, hserved.ok, ?_, fun _ => hserved.filled, ?_⟩
  · dsimp only
    omega
  · intro hover
    rw [hserved.kept hover]
    exact h.inOrder hover
  · intro hreader
    refine ⟨fun _ => ?_, fun _ => hserved.filled⟩
    rcases hserved.told hreader with htold | htold
    · exact .inl htold
    · exact .inr (.inr htold)

/-- The parser goes on. -/
theorem Receiver.Stream.getchar (h : r.Stream bufsz g p) (hpos : 0 < bufsz)
    (hsize : bufsz ≤ 2 ^ 15) (hs : r.step bufsz .reader = some t) :
    ∃ g' p', t.Stream bufsz g' p' := by
  simp only [Receiver.step, Option.ite_none_right_eq_some, Bool.and_eq_true] at hs
  obtain ⟨⟨hu, hd⟩, hs⟩ := hs
  have hu := IsrStage.isOut_eq hu
  have hd := IsrStage.isOut_eq hd
  unfold Receiver.getchar at hs
  cases hreader : r.reader with
  | read =>
      simp only [hreader, Option.some.injEq] at hs
      subst hs
      obtain ⟨hdata, hfifo, hbuffer⟩ := h.fifo.read hpos hsize h.size 1
      have hle := h.fifo.le
      have hroom := h.fifo.room
      have hp := h.pending
      have hsampled := h.sampled
      have hlen : (serialDmaRx bufsz r.fifo 1).1.length = min 1 (p - g) := by
        rw [hdata]
        refine Ring.window_length ?_ (by rw [h.size]; omega)
        rw [h.size]
        exact Nat.mod_lt g hpos
      refine ⟨g + min 1 (p - g), p, hbuffer ▸ h.size, hbuffer ▸ h.written, h.counter, h.last,
        h.sampled, hfifo, h.pending, h.uart, h.dma, ?_, ?_, ?_⟩
      · intro hover
        obtain ⟨hgot, hunread⟩ := h.inOrder hover
        refine ⟨?_, by show r.history.received.length ≤ _; omega⟩
        have hwindow := h.written.window_eq (g := g) (m := min 1 (p - g))
          (by rw [h.size]; exact hpos) (by rw [h.size]; omega) (by omega)
        rw [h.size] at hwindow
        show r.history.got ++ (serialDmaRx bufsz r.fifo 1).1 = _
        rw [hdata, hwindow, hgot, List.take_add]
      · intro hind
        simp only [hu, hd, IsrStage.isIndicate, Bool.false_eq_true, or_self] at hind
      · intro hstop
        by_cases hempty : p = g
        · have hzero : (serialDmaRx bufsz r.fifo 1).1.length = 0 := by omega
          simp only [hzero, if_true, hu, hd, IsrStage.isIndicate, Bool.false_eq_true, or_self,
            iff_false]
          omega
        · refine absurd ?_ hstop
          have hone : ¬ (serialDmaRx bufsz r.fifo 1).1.length = 0 := by omega
          exact if_neg hone
  | reset =>
      simp only [hreader, Option.some.injEq] at hs
      subst hs
      exact ⟨g, p, h.size, h.written, h.counter, h.last, h.sampled, h.fifo, h.pending, h.uart,
        h.dma, h.inOrder, h.filled, fun _ => h.waiting (by rw [hreader]; decide)⟩
  | take =>
      simp only [hreader] at hs
      by_cases hnotice : 0 < r.rxNotice
      · rw [if_pos hnotice] at hs
        obtain rfl := Option.some.inj hs
        exact ⟨g, p, h.size, h.written, h.counter, h.last, h.sampled, h.fifo, h.pending, h.uart,
          h.dma, h.inOrder, h.filled, fun hread => absurd rfl hread⟩
      · rw [if_neg hnotice] at hs
        obtain rfl := Option.some.inj hs
        exact ⟨g, p, h.size, h.written, h.counter, h.last, h.sampled, h.fifo, h.pending, h.uart,
          h.dma, h.inOrder, h.filled, fun _ => h.waiting (by rw [hreader]; decide)⟩
  | asleep => simp [hreader] at hs

theorem Receiver.serialIsr_late {stage : IsrStage} {s : Receiver × IsrStage}
    (hs : r.serialIsr bufsz stage = some s) : s.1.history.late = r.history.late := by
  cases stage with
  | out => exact absurd hs (by simp [Receiver.serialIsr])
  | update recvLen =>
      obtain rfl := Option.some.inj hs
      rfl
  | indicate length =>
      simp only [Receiver.serialIsr] at hs
      split_ifs at hs <;> obtain rfl := Option.some.inj hs <;> rfl

/-- An interrupt that was late is not forgotten. -/
theorem Receiver.late_mono {a : ReceiverAction} (hs : r.step bufsz a = some t)
    (hlate : t.history.late = false) : r.history.late = false := by
  cases a with
  | byte ch =>
      obtain rfl := Option.some.inj hs
      exact hlate
  | uart =>
      simp only [Receiver.step, Option.ite_none_right_eq_some, Option.some.injEq] at hs
      obtain ⟨-, rfl⟩ := hs
      exact (Bool.or_eq_false_iff.mp hlate).1
  | dma =>
      simp only [Receiver.step, Option.ite_none_right_eq_some, Option.some.injEq] at hs
      obtain ⟨-, rfl⟩ := hs
      exact (Bool.or_eq_false_iff.mp hlate).1
  | uartOn =>
      simp only [Receiver.step, Option.ite_none_right_eq_some, Option.map_eq_some_iff] at hs
      obtain ⟨-, s, hs, rfl⟩ := hs
      rw [← Receiver.serialIsr_late hs]
      exact hlate
  | dmaOn =>
      simp only [Receiver.step, Option.map_eq_some_iff] at hs
      obtain ⟨s, hs, rfl⟩ := hs
      rw [← Receiver.serialIsr_late hs]
      exact hlate
  | reader =>
      simp only [Receiver.step, Option.ite_none_right_eq_some] at hs
      obtain ⟨-, hs⟩ := hs
      unfold Receiver.getchar at hs
      cases hreader : r.reader <;> simp only [hreader] at hs
      case take => split_ifs at hs <;> obtain rfl := Option.some.inj hs <;> exact hlate
      case asleep => exact absurd hs (by simp)
      all_goals
        obtain rfl := Option.some.inj hs
        exact hlate
  | timeout =>
      simp only [Receiver.step, Option.ite_none_right_eq_some, Option.some.injEq] at hs
      obtain ⟨-, rfl⟩ := hs
      exact hlate

/-- **Every event keeps the numbers**, as long as no interrupt is late. -/
theorem Receiver.Stream.step (h : r.Stream bufsz g p) (hpos : 0 < bufsz) (hsize : bufsz ≤ 2 ^ 15)
    {a : ReceiverAction} (hs : r.step bufsz a = some t) (hlate : t.history.late = false) :
    ∃ g' p', t.Stream bufsz g' p' := by
  cases a with
  | byte ch =>
      obtain rfl := Option.some.inj hs
      exact ⟨g, p, h.byte hpos ch⟩
  | uart => exact ⟨g, p, h.uartStart hpos hsize hs hlate⟩
  | dma => exact ⟨g, p, h.dmaStart hpos hsize hs hlate⟩
  | uartOn => exact h.uartOn hpos hsize hs
  | dmaOn => exact h.dmaOn hpos hsize hs
  | reader => exact h.getchar hpos hsize hs
  | timeout =>
      simp only [Receiver.step, Option.ite_none_right_eq_some, Option.some.injEq] at hs
      obtain ⟨-, rfl⟩ := hs
      exact ⟨g, p, h.size, h.written, h.counter, h.last, h.sampled, h.fifo, h.pending, h.uart,
        h.dma, h.inOrder, h.filled, fun hread => absurd rfl hread⟩

theorem Receiver.Reachable.stream (h : Receiver.Reachable bufsz r) (hpos : 0 < bufsz)
    (hsize : bufsz ≤ 2 ^ 15) (hlate : r.history.late = false) : ∃ g p, r.Stream bufsz g p := by
  refine Reach.inv (P := fun r => r.history.late = false → ∃ g p, r.Stream bufsz g p) h ?_ ?_
    hlate
  · exact fun _ => ⟨0, 0, Receiver.Stream.start hpos⟩
  · intro r a t ih hs hlate
    obtain ⟨g, p, hstream⟩ := ih (Receiver.late_mono hs hlate)
    exact hstream.step hpos hsize hs hlate

end Stream

/-- **The parser reads what the line brought.** In every order of events in
which no interrupt is late, what can be read now are bytes of the line from
some place on, each the last that went into its cell of the buffer. As long as
no byte is written over before it is read, what has been read and what can be
read now is the beginning of what came, all of it up to where the last
interrupt saw the DMA. -/
theorem receiver_stream (hpos : 0 < bufsz) (hsize : bufsz ≤ 2 ^ 15) (r : Receiver)
    (h : Receiver.Reachable bufsz r) (hlate : r.history.late = false) :
    let received := r.history.received
    let ready := (serialDmaRx bufsz r.fifo bufsz).1
    (∃ g, ready.length ≤ bufsz ∧ g + ready.length ≤ received.length ∧ ∀ k < ready.length,
        ready[k]? = received[Ring.latest bufsz received.length (g + k)]?)
      ∧ (r.history.overrun = false →
        r.history.got ++ ready <+: received
          ∧ (r.uart = .out → r.dma = .out →
            r.history.got ++ ready = received.take r.history.sampled)) := by
  intro received ready
  obtain ⟨g, p, hstream⟩ := h.stream hpos hsize hlate
  obtain ⟨hdata, -, -⟩ := hstream.fifo.read hpos hsize hstream.size bufsz
  have hle := hstream.fifo.le
  have hroom := hstream.fifo.room
  have hp := hstream.pending
  have hsampled := hstream.sampled
  have hbuf : 0 < r.fifo.buffer.length := by rw [hstream.size]; exact hpos
  have hready : ready = Ring.window r.fifo.buffer (g % bufsz) (p - g) := by
    show (serialDmaRx bufsz r.fifo bufsz).1 = _
    rw [hdata, min_eq_right (by omega)]
  have hlen : ready.length = p - g := by
    rw [hready]
    refine Ring.window_length ?_ (by rw [hstream.size]; omega)
    rw [hstream.size]
    exact Nat.mod_lt g hpos
  have hend : p ≤ received.length := by
    show p ≤ r.history.received.length
    omega
  refine ⟨⟨g, by omega, by omega, ?_⟩, ?_⟩
  · intro k hk
    have hcell := hstream.written.window hbuf (g := g) (m := p - g)
      (by rw [hstream.size]; omega) (by omega) k (by omega)
    rw [hstream.size] at hcell
    rw [hready]
    exact hcell
  · intro hover
    obtain ⟨hgot, hunread⟩ := hstream.inOrder hover
    have hwindow := hstream.written.window_eq hbuf (g := g) (m := p - g)
      (by rw [hstream.size]; omega) (by omega)
    rw [hstream.size] at hwindow
    have hall : r.history.got ++ ready = received.take p := by
      rw [hready, hwindow, hgot, ← List.take_add, Nat.add_sub_cancel' hle]
    refine ⟨?_, ?_⟩
    · rw [hall]
      exact List.take_prefix p received
    · intro hu hd
      rw [hu, hd] at hp
      rw [hall, ← hp]
      rfl

/-- Three bytes come in and two of them are read, then a fourth at the end of
the round and a fifth. -/
def roundRun : List ReceiverAction :=
  [.byte 1, .byte 2, .byte 3, .uart, .uartOn, .uartOn, .reader, .reader, .byte 4, .dma, .dmaOn,
    .dmaOn, .byte 5]

theorem receiver_stream_round : ∃ r : Receiver,
    r.history.received = [1, 2, 3, 4, 5] ∧ r.history.got = [1, 2]
      ∧ r.history.got ++ (serialDmaRx 4 r.fifo 4).1 = r.history.received.take 4 := by
  have hrun : (exec (Receiver.step 4) (Receiver.start 4) roundRun).map
        (fun r => (r.history.late, r.history.overrun, r.history.received, r.history.got))
      = some (false, false, [1, 2, 3, 4, 5], [1, 2]) := by decide
  have hrest : (exec (Receiver.step 4) (Receiver.start 4) roundRun).map
        (fun r => (r.uart.isOut, r.dma.isOut, r.history.sampled)) = some (true, true, 4) := by
    decide
  obtain ⟨r, hr, heq⟩ := Option.map_eq_some_iff.mp hrun
  rw [hr] at hrest
  obtain ⟨hu, hd, hsampled⟩ : r.uart.isOut = true ∧ r.dma.isOut = true
      ∧ r.history.sampled = 4 := by simpa using hrest
  obtain ⟨hlate, hover, hreceived, hgot⟩ : r.history.late = false ∧ r.history.overrun = false
      ∧ r.history.received = [1, 2, 3, 4, 5] ∧ r.history.got = [1, 2] := by simpa using heq
  have hall := ((@receiver_stream 4 (by decide) (by decide) r (Reach.exec .refl hr)
    hlate).2 hover).2 (IsrStage.isOut_eq hu) (IsrStage.isOut_eq hd)
  rw [hsampled] at hall
  exact ⟨r, hreceived, hgot, hall⟩

/-- **When the parser sleeps over bytes it could read.** `at_client_getchar`
resets the semaphore after a read that got nothing. With no interrupt in
progress, it is asleep with bytes in the fifo exactly when the semaphore has
been released since that read; those bytes wait for the next interrupt.
Otherwise it is asleep only when it has read all that the interrupts have
seen. -/
theorem getchar_asleep (hpos : 0 < bufsz) (hsize : bufsz ≤ 2 ^ 15) (r : Receiver)
    (h : Receiver.Reachable bufsz r) (hlate : r.history.late = false)
    (hreader : r.reader = .asleep) (hu : r.uart = .out) (hd : r.dma = .out) :
    (serialFifoCalcRecvedLen bufsz r.fifo ≠ 0 ↔ r.history.indicated = true)
      ∧ (r.history.overrun = false →
        (r.history.got = r.history.received.take r.history.sampled
          ↔ r.history.indicated = false)) := by
  obtain ⟨g, p, hstream⟩ := h.stream hpos hsize hlate
  have hle := hstream.fifo.le
  have hp := hstream.pending
  have hsampled := hstream.sampled
  have hwaiting := hstream.waiting (by rw [hreader]; decide)
  rw [hu, hd] at hp hwaiting
  simp only [IsrStage.pending, IsrStage.isIndicate, Bool.false_eq_true, or_false,
    Nat.add_zero] at hp hwaiting
  refine ⟨?_, ?_⟩
  · rw [hstream.fifo.recved hpos, ← hwaiting]
    omega
  · intro hover
    obtain ⟨hgot, -⟩ := hstream.inOrder hover
    rw [hgot, ← hp, ← Bool.not_eq_true, ← hwaiting]
    constructor
    · intro heq
      have hlen := congrArg List.length heq
      rw [List.length_take, List.length_take] at hlen
      omega
    · intro hempty
      have heq : g = p := by omega
      rw [heq]

/-- The parser finds nothing to read; a byte comes in and its interrupt is
served before the parser resets the semaphore. -/
def lostRun : List ReceiverAction :=
  [.reader, .byte 1, .uart, .uartOn, .uartOn, .reader, .reader]

theorem getchar_asleep_lost : ∃ r : Receiver,
    r.reader = .asleep ∧ serialFifoCalcRecvedLen 4 r.fifo ≠ 0 := by
  have hrun : (exec (Receiver.step 4) (Receiver.start 4) lostRun).map
        (fun r => (r.history.late, r.reader, r.uart.isOut, r.dma.isOut, r.history.indicated))
      = some (false, .asleep, true, true, true) := by decide
  obtain ⟨r, hr, heq⟩ := Option.map_eq_some_iff.mp hrun
  obtain ⟨hlate, hreader, hu, hd, hind⟩ : r.history.late = false ∧ r.reader = .asleep
      ∧ r.uart.isOut = true ∧ r.dma.isOut = true ∧ r.history.indicated = true := by
    simpa using heq
  exact ⟨r, hreader, (@getchar_asleep 4 (by decide) (by decide) r
    (Reach.exec .refl hr) hlate hreader (IsrStage.isOut_eq hu) (IsrStage.isOut_eq hd)).1.mpr hind⟩

end DiffCar
