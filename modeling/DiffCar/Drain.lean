import DiffCar.TcpServer
import Mathlib.Algebra.BigOperators.Group.List.Basic
import Mathlib.Algebra.Ring.Nat

/-!
# Drain — cleaning the line when memory is out

Without a buffer the payload is read away in chunks of `sizeof(temp)`, the
last one shorter. The counter takes a full step even for that one. As long as
the step does not carry it past `2^32` it ends the loop; for the top seven
lengths it lands on zero and the loop starts over, for good.
-/

namespace DiffCar

@[simp] theorem requests_request (size : ℕ) (timeout : ℤ)
    (events : List UrcEvent) :
    requests (.request size timeout :: events) = size :: requests events := rfl

@[simp] theorem toNat_sizeofTemp : sizeofTemp.toNat = 8 := rfl

/-- The chunk a round asks for: `sizeof(temp)`, or what is left. -/
def chunk (bfsz tempSize : BitVec 32) : BitVec 32 :=
  if sizeofTemp < bfsz - tempSize then sizeofTemp else bfsz - tempSize

theorem chunk_toNat {bfsz tempSize : BitVec 32} (h : tempSize < bfsz) :
    (chunk bfsz tempSize).toNat = min 8 (bfsz.toNat - tempSize.toNat) := by
  have hsub : (bfsz - tempSize).toNat = bfsz.toNat - tempSize.toNat :=
    BitVec.toNat_sub_of_le (BitVec.le_of_lt h)
  rw [chunk]
  by_cases hlt : sizeofTemp < bfsz - tempSize
  · have hlt' := BitVec.lt_def.mp hlt
    rw [hsub, toNat_sizeofTemp] at hlt'
    rw [if_pos hlt, toNat_sizeofTemp]
    omega
  · have hlt' := mt BitVec.lt_def.mpr hlt
    rw [hsub, toNat_sizeofTemp] at hlt'
    rw [if_neg hlt, hsub]
    omega

/-- One round of the loop. -/
theorem drain_succ {bfsz tempSize : BitVec 32} (h : tempSize < bfsz) (fuel : ℕ)
    (timeout : ℤ) (serial : List (Option UInt8)) :
    ∃ rest, drain (fuel + 1) bfsz tempSize timeout serial
      = (.request (chunk bfsz tempSize).toNat timeout
          :: (drain fuel bfsz (tempSize + sizeofTemp) timeout rest).1,
        (drain fuel bfsz (tempSize + sizeofTemp) timeout rest).2) := by
  refine ⟨(atClientObjRecv (chunk bfsz tempSize).toNat serial).2, ?_⟩
  rw [drain, if_pos h]
  rfl

/-- A counter that is not below the length ends the loop. -/
theorem drain_of_ge {bfsz tempSize : BitVec 32} (h : ¬ tempSize < bfsz) (fuel : ℕ)
    (timeout : ℤ) (serial : List (Option UInt8)) :
    drain (fuel + 1) bfsz tempSize timeout serial = ([], true)
      ∧ bfsz.toNat - tempSize.toNat = 0 := by
  have hle := mt BitVec.lt_def.mpr h
  constructor
  · rw [drain, if_neg h]
  · omega

/-- **Where the counter cannot wrap the loop ends**, after requests for
exactly what was left. -/
theorem drain_ends {bfsz : BitVec 32} (hbfsz : bfsz.toNat + 8 ≤ 2 ^ 32) (k : ℕ)
    (tempSize : BitVec 32) (hk : bfsz.toNat - tempSize.toNat ≤ 8 * k) (timeout : ℤ)
    (serial : List (Option UInt8)) :
    let d := drain (k + 1) bfsz tempSize timeout serial
    d.2 = true ∧ (∀ size ∈ requests d.1, 1 ≤ size ∧ size ≤ 8)
      ∧ (requests d.1).sum = bfsz.toNat - tempSize.toNat := by
  induction k generalizing tempSize serial with
  | zero =>
      have hge : ¬ tempSize < bfsz := by
        intro hlt
        have := BitVec.lt_def.mp hlt
        omega
      obtain ⟨hdone, hzero⟩ := drain_of_ge hge 0 timeout serial
      rw [hdone, hzero]
      exact ⟨rfl, fun _ hsize => absurd hsize List.not_mem_nil, rfl⟩
  | succ k ih =>
      by_cases hlt : tempSize < bfsz
      · have hlt' := BitVec.lt_def.mp hlt
        have hnext : (tempSize + sizeofTemp).toNat = tempSize.toNat + 8 := by
          rw [BitVec.toNat_add_of_lt, toNat_sizeofTemp]
          rw [toNat_sizeofTemp]
          omega
        obtain ⟨rest, hround⟩ := drain_succ hlt (k + 1) timeout serial
        obtain ⟨hend, hsizes, hsum⟩ :=
          ih (tempSize + sizeofTemp) (by rw [hnext]; omega) rest
        have hchunk := chunk_toNat hlt
        rw [hround]
        refine ⟨hend, ?_, ?_⟩
        · intro size hsize
          rw [requests_request, List.mem_cons] at hsize
          rcases hsize with rfl | hsize
          · omega
          · exact hsizes size hsize
        · rw [requests_request, List.sum_cons, hsum, hnext]
          omega
      · obtain ⟨hdone, hzero⟩ := drain_of_ge hlt (k + 1) timeout serial
        rw [hdone, hzero]
        exact ⟨rfl, fun _ hsize => absurd hsize List.not_mem_nil, rfl⟩

/-- **Where it can wrap the loop never ends**: a multiple of eight is never
past the top seven values. -/
theorem drain_never_ends {bfsz : BitVec 32} (hbfsz : 2 ^ 32 < bfsz.toNat + 8)
    (tempSize : BitVec 32) (hdvd : 8 ∣ tempSize.toNat) (fuel : ℕ) (timeout : ℤ)
    (serial : List (Option UInt8)) :
    (drain fuel bfsz tempSize timeout serial).2 = false := by
  induction fuel generalizing tempSize serial with
  | zero => rfl
  | succ fuel ih =>
      have hlt : tempSize < bfsz := by
        apply BitVec.lt_def.mpr
        have hbound := tempSize.isLt
        omega
      have hnext : 8 ∣ (tempSize + sizeofTemp).toNat := by
        rw [BitVec.toNat_add, toNat_sizeofTemp]
        omega
      obtain ⟨rest, hround⟩ := drain_succ hlt fuel timeout serial
      rw [hround]
      exact ih (tempSize + sizeofTemp) hnext rest

/-- The drain ends, in requests of at most `sizeof(temp)` bytes that add up
to the length of the payload. -/
def Drained (heap : BlockHeap) (n : Notification) : Prop :=
  ∃ fuel, (urcRecvFunc fuel heap n).status = .returned
    ∧ (∀ size ∈ requests (urcRecvFunc fuel heap n).events,
        1 ≤ size ∧ size ≤ sizeofTemp.toNat)
    ∧ (requests (urcRecvFunc fuel heap n).events).sum
        = (parseHeader n.data).2.toNat

/-- **When the drain ends.** For every header that leaves a length to receive
and no memory to receive it: the loop ends and has asked for exactly that
length if and only if the length is at least `sizeof(temp)` below `2^32`. -/
theorem drain_iff (heap : BlockHeap) (n : Notification) (hcalloc : n.calloc = false)
    (hsocket : 0 ≤ (parseHeader n.data).1) (hbfsz : (parseHeader n.data).2 ≠ 0) :
    Drained heap n ↔ (parseHeader n.data).2.toNat + sizeofTemp.toNat ≤ 2 ^ 32 := by
  have hcall := fun fuel =>
    urcRecvFunc_of_no_memory hcalloc hsocket hbfsz fuel heap
  constructor
  · rintro ⟨fuel, hreturned, -, -⟩
    by_contra hwraps
    have hdraining := drain_never_ends (not_le.mp hwraps) 0 (Nat.dvd_zero 8)
      fuel (recvTimeout (parseHeader n.data).2) n.serial
    rw [hcall, hdraining] at hreturned
    cases hreturned
  · intro hfits
    obtain ⟨hend, hsizes, hsum⟩ := drain_ends hfits (parseHeader n.data).2.toNat 0
      (by omega) (recvTimeout (parseHeader n.data).2) n.serial
    refine ⟨(parseHeader n.data).2.toNat + 1, ?_, ?_, ?_⟩
    · rw [hcall, hend]
      rfl
    · rw [hcall]
      exact hsizes
    · rw [hcall]
      exact hsum

/-- A stop command that finds no memory. -/
theorem drain_iff_stop :
    Drained BlockHeap.empty { stopNotification with calloc := false } :=
  (drain_iff BlockHeap.empty { stopNotification with calloc := false } rfl
    (by decide) (by decide)).mpr (by decide)

/-- The header `+IPD,0,-1:`. -/
def negativeLength : Notification :=
  { stopNotification with
    data := [43, 73, 80, 68, 44, 48, 44, 45, 49, 58]
    calloc := false }

/-- Its length is read as `2^32 - 1`, and the call does not return. -/
theorem drain_wraps :
    (parseHeader negativeLength.data).2 ≠ 0 ∧ ¬ Drained BlockHeap.empty negativeLength := by
  refine ⟨by decide, ?_⟩
  rintro ⟨fuel, hreturned, -, -⟩
  have hwraps : 2 ^ 32 < (parseHeader negativeLength.data).2.toNat + 8 := by decide
  have hdraining := drain_never_ends hwraps 0 (Nat.dvd_zero 8) fuel
    (recvTimeout (parseHeader negativeLength.data).2) negativeLength.serial
  rw [urcRecvFunc_of_no_memory rfl (by decide) (by decide), hdraining] at hreturned
  cases hreturned

end DiffCar
