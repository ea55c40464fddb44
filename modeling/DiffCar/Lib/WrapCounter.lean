import Mathlib.Algebra.Ring.Int.Defs
import Mathlib.Algebra.Ring.Nat

/-!
# Free-running counters

A hardware counter of `w` bits that counts in both directions shows the true
count modulo `2^w`. Two readings give the true displacement between them as
long as that fits in `w` signed bits, however often the counter has wrapped.
-/

namespace WrapCounter

/-- The signed difference of two readings, computed in a wider type and
narrowed to the counter's width. -/
def signedDiff {w : Nat} (now last : BitVec w) : BitVec w :=
  BitVec.ofInt w (now.toInt - last.toInt)

theorem signedDiff_eq_sub {w : Nat} (now last : BitVec w) :
    signedDiff now last = now - last := by
  apply BitVec.eq_of_toInt_eq
  rw [signedDiff, BitVec.toInt_ofInt, BitVec.toInt_sub]

/-- **A displacement that fits is read back exactly.** -/
theorem toInt_signedDiff {w : Nat} (last : BitVec w) {d : Int}
    (hlo : -2 ^ w ≤ d * 2) (hhi : d * 2 < 2 ^ w) :
    (signedDiff (last + BitVec.ofInt w d) last).toInt = d := by
  have hsub : last + BitVec.ofInt w d - last = BitVec.ofInt w d := by
    rw [BitVec.add_comm, BitVec.add_sub_cancel]
  rw [signedDiff_eq_sub, hsub, BitVec.toInt_ofInt]
  exact Int.bmod_eq_of_le_mul_two (by push_cast; exact hlo)
    (by push_cast; exact hhi)

/-- An unsigned elapsed time below `2^w` is read back exactly. -/
theorem toNat_elapsed {w : Nat} (last : BitVec w) {e : Nat} (h : e < 2 ^ w) :
    (last + BitVec.ofNat w e - last).toNat = e := by
  rw [BitVec.add_comm, BitVec.add_sub_cancel, BitVec.toNat_ofNat,
    Nat.mod_eq_of_lt h]

/-- The difference of two readings of a counter that only counts up. -/
theorem toNat_sub_ofNat {w a b : Nat} (h : a ≤ b) :
    (BitVec.ofNat w b - BitVec.ofNat w a).toNat = (b - a) % 2 ^ w := by
  have hb : BitVec.ofNat w b = BitVec.ofNat w (b - a) + BitVec.ofNat w a := by
    rw [← BitVec.ofNat_add, Nat.sub_add_cancel h]
  rw [hb, BitVec.add_sub_cancel, BitVec.toNat_ofNat]

/-- A counter whose period is a full `2^w`: turning it by `d` adds `d`. -/
theorem ofNat_turn (w c : Nat) (d : Int) :
    BitVec.ofNat w (((c : Int) + d) % 2 ^ w).toNat
      = BitVec.ofNat w c + BitVec.ofInt w d := by
  have hpos : (0 : Int) < 2 ^ w := Int.pow_pos (by decide)
  have hcast : ((((c : Int) + d) % 2 ^ w).toNat : Int) = ((c : Int) + d) % 2 ^ w :=
    Int.toNat_of_nonneg (Int.emod_nonneg _ (by omega))
  rw [← BitVec.ofInt_natCast w c, ← BitVec.ofInt_add, ← BitVec.ofInt_natCast,
    hcast]
  apply BitVec.eq_of_toInt_eq
  simp only [BitVec.toInt_ofInt]
  have : (2 ^ w : Int) = ((2 ^ w : Nat) : Int) := by push_cast; rfl
  rw [this, Int.emod_bmod]

end WrapCounter
