import Mathlib.Data.List.DropRight

/-!
# The window of the last `n` elements

What a sliding window of `n` slots holds of the history `l` pushed into it is
`l.rtake n`. These are the facts about it that a proof about such a window
needs: its size, what pushing does to it, and how it maps.
-/

namespace List

variable {α β : Type*}

theorem rtake_of_length_le {n : Nat} {l : List α} (h : l.length ≤ n) :
    l.rtake n = l := by
  rw [rtake, Nat.sub_eq_zero_of_le h, drop_zero]

theorem length_rtake (n : Nat) (l : List α) :
    (l.rtake n).length = min l.length n := by
  rw [rtake, length_drop]
  omega

theorem mem_of_mem_rtake {n : Nat} {l : List α} {a : α} (h : a ∈ l.rtake n) :
    a ∈ l :=
  mem_of_mem_drop h

theorem map_rtake (f : α → β) (n : Nat) (l : List α) :
    (l.rtake n).map f = (l.map f).rtake n := by
  simp [rtake, map_drop]

/-- Pushing onto a history that already fills the window drops the oldest
element of the window and appends the new one. -/
theorem rtake_concat_tail {n : Nat} {l : List α} (h : n ≤ l.length)
    (hn : 0 < n) (a : α) : (l ++ [a]).rtake n = (l.rtake n).tail ++ [a] := by
  obtain ⟨m, rfl⟩ : ∃ m, n = m + 1 := ⟨n - 1, by omega⟩
  have htail : (l.rtake (m + 1)).tail = l.rtake m := by
    rw [rtake, rtake, tail_drop, show l.length - (m + 1) + 1 = l.length - m by omega]
  rw [rtake_concat_succ, htail]

/-- A window that reaches past the recent part `l'` of a history. -/
theorem rtake_append {n : Nat} {l l' : List α} (h : l'.length ≤ n) :
    (l ++ l').rtake n = l.rtake (n - l'.length) ++ l' := by
  have hdrop : (l ++ l').length - n ≤ l.length := by
    rw [length_append]
    omega
  rw [rtake, rtake, drop_append_of_le_length hdrop, length_append,
    show l.length + l'.length - n = l.length - (n - l'.length) by omega]

/-- A history of equal elements that fills the window fills it with them. -/
theorem rtake_replicate {n m : Nat} (h : n ≤ m) (a : α) :
    (replicate m a).rtake n = replicate n a := by
  rw [rtake, length_replicate, drop_replicate, show m - (m - n) = n by omega]

end List
