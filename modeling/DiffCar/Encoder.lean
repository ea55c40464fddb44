import DiffCar.Lib.WrapCounter
import Mathlib.Data.Fintype.Basic

/-!
# Encoder — the two counters

`applications/drv_encoder.c`. Timers 2 and 4 run in encoder mode: the wheel
drives the counter up and down between `0` and the `Period` the init
functions set, and `getCounter` narrows the register to `rt_int16_t`.
-/

namespace DiffCar

/-- `htim2.Init.Period`, set by `MX_TIM2_Init`. -/
def mxTim2Period : ℕ := 65535

/-- `htim4.Init.Period`, set by `MX_TIM4_Init`. -/
def mxTim4Period : ℕ := 65535

/-- The counter registers of the two encoder timers. -/
structure Timers where
  htim2 : Fin (mxTim2Period + 1)
  htim4 : Fin (mxTim4Period + 1)

/-- Both counters at zero. -/
def Timers.zero : Timers := ⟨0, 0⟩

/-- A register after its wheel turned by `d` counts. -/
def turnCounter {p : ℕ} (c : Fin (p + 1)) (d : ℤ) : Fin (p + 1) :=
  Fin.ofNat (p + 1) (((c.val : ℤ) + d) % ((p + 1 : ℕ) : ℤ)).toNat

/-- `getCounter`. For any other argument the function ends without a
`return`, so there is no value. -/
def getCounter (tim : Timers) (cnt : ℤ) : Option (BitVec 16) :=
  if cnt = 4 then some (BitVec.ofNat 16 tim.htim4.val)
  else if cnt = 2 then some (BitVec.ofNat 16 tim.htim2.val)
  else none

/-- The encoder dispatch of `CalcSpeed`, `strcmp(_encode_name, ...)`. -/
def encodeCounter (name : String) (tim : Timers) : Option (BitVec 16) :=
  if name = "htm4" then getCounter tim 4
  else if name = "htm2" then getCounter tim 2
  else none

/-- The names under which a counter is read. -/
def IsEncoder (name : String) : Prop := name = "htm2" ∨ name = "htm4"

/-- The wheel on the named encoder turns by `d` counts. -/
def Timers.turn (tim : Timers) (name : String) (d : ℤ) : Timers :=
  if name = "htm4" then { tim with htim4 := turnCounter tim.htim4 d }
  else if name = "htm2" then { tim with htim2 := turnCounter tim.htim2 d }
  else tim

/-- A period of `2^16 - 1` makes the counter one of 16 bits. -/
theorem ofNat_turnCounter (c : Fin (65535 + 1)) (d : ℤ) :
    BitVec.ofNat 16 (turnCounter c d).val
      = BitVec.ofNat 16 c.val + BitVec.ofInt 16 d := by
  have hval : (turnCounter c d).val = (((c.val : ℤ) + d) % 2 ^ 16).toNat := by
    show (((c.val : ℤ) + d) % 65536).toNat % 65536 = _
    omega
  rw [hval, WrapCounter.ofNat_turn]

theorem IsEncoder.read {name : String} (h : IsEncoder name) (tim : Timers) :
    ∃ c, encodeCounter name tim = some c := by
  rcases h with rfl | rfl
  · exact ⟨_, rfl⟩
  · exact ⟨_, rfl⟩

/-- Turning the wheel adds the displacement to what its encoder shows. -/
theorem IsEncoder.read_turn {name : String} (h : IsEncoder name) (tim : Timers)
    {c : BitVec 16} (hc : encodeCounter name tim = some c) (d : ℤ) :
    encodeCounter name (tim.turn name d) = some (c + BitVec.ofInt 16 d) := by
  rcases h with rfl | rfl
  · have hc : some (BitVec.ofNat 16 tim.htim2.val) = some c := hc
    rw [← Option.some.inj hc]
    exact congrArg some (ofNat_turnCounter tim.htim2 d)
  · have hc : some (BitVec.ofNat 16 tim.htim4.val) = some c := hc
    rw [← Option.some.inj hc]
    exact congrArg some (ofNat_turnCounter tim.htim4 d)

end DiffCar
