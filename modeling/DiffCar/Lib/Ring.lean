import Mathlib.Data.List.Basic
import Mathlib.Data.Nat.ModEq

/-!
# A buffer written round and round

Items are written into the cells of a buffer one after the other, and after
the last cell the first is written again. `Written buf xs` says what the
buffer holds after the items `xs`: of each cell the last item that went there.
A window of it starts at any cell and goes over the end to the front.
-/

namespace Ring

variable {α : Type*}

/-- Of the first `n` items, the last that goes where item `i` goes. -/
def latest (cap n i : ℕ) : ℕ := n - 1 - (n - 1 - i) % cap

/-- The buffer after the items `xs`. -/
structure Written (buf xs : List α) : Prop where
  cell : ∀ j < xs.length, xs.length ≤ j + buf.length → buf[j % buf.length]? = xs[j]?

variable {buf xs : List α} {cap n i : ℕ}

theorem latest_lt (h : i < n) : latest cap n i < n := by
  unfold latest
  omega

theorem latest_mod (h : i < n) : latest cap n i % cap = i % cap := by
  have hdiv := Nat.div_add_mod (n - 1 - i) cap
  have heq : latest cap n i = i + cap * ((n - 1 - i) / cap) := by
    unfold latest
    omega
  rw [heq, Nat.add_mul_mod_self_left]

theorem le_latest (hcap : 0 < cap) (n i : ℕ) : n ≤ latest cap n i + cap := by
  have hlt := Nat.mod_lt (n - 1 - i) hcap
  have hle := Nat.mod_le (n - 1 - i) cap
  unfold latest
  omega

/-- An item that has not been written over is the last in its cell. -/
theorem latest_self (h : n ≤ i + cap) (hi : i < n) : latest cap n i = i := by
  unfold latest
  rw [Nat.mod_eq_of_lt (by omega)]
  omega

theorem written_nil (buf : List α) : Written buf [] := ⟨fun _ h => absurd h (Nat.not_lt_zero _)⟩

/-- **One more item.** -/
theorem Written.write (h : Written buf xs) (hcap : 0 < buf.length) (x : α) :
    Written (buf.set (xs.length % buf.length) x) (xs ++ [x]) := by
  refine ⟨?_⟩
  intro j hj hroom
  rw [List.length_append, List.length_singleton] at hj hroom
  rw [List.length_set] at hroom ⊢
  by_cases hlast : j = xs.length
  · subst hlast
    have hlt := Nat.mod_lt xs.length hcap
    rw [List.getElem?_set_self hlt, List.getElem?_concat_length]
  · have hne : xs.length % buf.length ≠ j % buf.length := by
      intro heq
      have hdvd := (Nat.modEq_iff_dvd' (by omega : j ≤ xs.length)).mp heq.symm
      have hle := Nat.le_of_dvd (by omega) hdvd
      omega
    rw [List.getElem?_set_ne hne, h.cell j (by omega) (by omega),
      List.getElem?_append_left (by omega)]

/-- **What a cell holds.** -/
theorem Written.get (h : Written buf xs) (hcap : 0 < buf.length) (hi : i < xs.length) :
    buf[i % buf.length]? = xs[latest buf.length xs.length i]? := by
  have hmod := @latest_mod buf.length _ _ hi
  rw [← hmod]
  exact h.cell _ (latest_lt hi) (le_latest hcap _ _)

/-- `m` cells from cell `g` on, over the end and on from the front. -/
def window (buf : List α) (g m : ℕ) : List α :=
  if g + m < buf.length then (buf.drop g).take m
  else buf.drop g ++ buf.take (g + m - buf.length)

theorem window_length {g m : ℕ} (hg : g < buf.length) (hm : m ≤ buf.length) :
    (window buf g m).length = m := by
  unfold window
  by_cases hover : g + m < buf.length
  · rw [if_pos hover, List.length_take, List.length_drop]
    omega
  · rw [if_neg hover, List.length_append, List.length_drop, List.length_take]
    omega

theorem window_getElem? {g m k : ℕ} (hg : g < buf.length) (hm : m ≤ buf.length) (hk : k < m) :
    (window buf g m)[k]? = buf[(g + k) % buf.length]? := by
  unfold window
  by_cases hover : g + m < buf.length
  · rw [if_pos hover, List.getElem?_take_of_lt hk, List.getElem?_drop,
      Nat.mod_eq_of_lt (by omega)]
  · rw [if_neg hover]
    by_cases hend : k < buf.length - g
    · rw [List.getElem?_append_left (by rw [List.length_drop]; exact hend), List.getElem?_drop,
        Nat.mod_eq_of_lt (by omega)]
    · rw [List.getElem?_append_right (by rw [List.length_drop]; omega), List.length_drop,
        List.getElem?_take_of_lt (by omega), Nat.mod_eq_sub_mod (by omega),
        Nat.mod_eq_of_lt (by omega)]
      congr 1
      omega

/-- **A window on what was written**: the items from `g` on, each with the last
that has gone into its cell. -/
theorem Written.window (h : Written buf xs) (hcap : 0 < buf.length) {g m : ℕ}
    (hm : m ≤ buf.length) (hend : g + m ≤ xs.length) (k : ℕ) (hk : k < m) :
    (Ring.window buf (g % buf.length) m)[k]? = xs[latest buf.length xs.length (g + k)]? := by
  rw [window_getElem? (Nat.mod_lt g hcap) hm hk, Nat.mod_add_mod]
  exact h.get hcap (by omega)

/-- When nothing in it has been written over, it is a piece of what was written. -/
theorem Written.window_eq (h : Written buf xs) (hcap : 0 < buf.length) {g m : ℕ}
    (hroom : xs.length ≤ g + buf.length) (hend : g + m ≤ xs.length) :
    Ring.window buf (g % buf.length) m = (xs.drop g).take m := by
  have hm : m ≤ buf.length := by omega
  have hg := Nat.mod_lt g hcap
  refine List.ext_getElem? ?_
  intro k
  by_cases hk : k < m
  · rw [h.window hcap hm hend k hk, latest_self (by omega) (by omega),
      List.getElem?_take_of_lt hk, List.getElem?_drop]
  · have hlen := window_length hg hm
    rw [List.getElem?_eq_none (by omega), List.getElem?_eq_none (by simp; omega)]

end Ring
