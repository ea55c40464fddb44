import Mathlib.Data.List.Nodup
import Mathlib.Logic.Function.Basic

/-!
# Chains — singly linked lists in a memory of `next` fields

Cells are named by elements of any type, `next c` is the pointer stored in
the cell `c` and `none` is the null pointer. `Chain next p l` says that
following `next` from `p` visits exactly the cells of `l` and then reaches
null. Each operation on the pointers is one lemma that says what list it
leaves; a cell that is not in the list may be written freely.
-/

namespace LinkedCells

variable {α : Type*} {next : α → Option α} {p q : Option α} {a z : α} {l m : List α}

/-- The list of cells reached from `p`. -/
def Chain (next : α → Option α) : Option α → List α → Prop
  | p, [] => p = none
  | p, a :: l => p = some a ∧ Chain next (next a) l

@[simp] theorem chain_nil : Chain next p [] ↔ p = none := Iff.rfl

@[simp] theorem chain_cons :
    Chain next p (a :: l) ↔ p = some a ∧ Chain next (next a) l := Iff.rfl

/-- A chain starts at the first of its cells. -/
theorem Chain.head (h : Chain next p l) : p = l.head? := by
  cases l with
  | nil => exact h
  | cons a l => exact h.1

theorem chain_none : Chain next none l ↔ l = [] := by
  cases l with
  | nil => simp
  | cons a l => simp

/-- A null test on the head is a test for the empty list. -/
theorem Chain.eq_none_iff (h : Chain next p l) : p = none ↔ l = [] := by
  rw [h.head, List.head?_eq_none_iff]

/-- Taking the first cell off. -/
theorem Chain.pop (h : Chain next (some a) l) :
    ∃ m, l = a :: m ∧ Chain next (next a) m := by
  cases l with
  | nil => exact absurd h (by simp)
  | cons b m =>
      obtain ⟨hb, hm⟩ := h
      obtain rfl := Option.some.inj hb
      exact ⟨m, rfl, hm⟩

/-- Two walks from one pointer visit the same cells. -/
theorem Chain.unique (h : Chain next p l) (h' : Chain next p m) : l = m := by
  induction l generalizing p m with
  | nil =>
      obtain rfl : p = none := h
      exact (chain_none.mp h').symm
  | cons a l ih =>
      obtain ⟨rfl, hl⟩ := h
      obtain ⟨m', rfl, hm⟩ := h'.pop
      rw [ih hl hm]

/-- The rest of a walk, from any cell on it. -/
theorem Chain.suffix (h : Chain next p (l ++ a :: m)) :
    Chain next (some a) (a :: m) := by
  induction l generalizing p with
  | nil => exact ⟨rfl, h.2⟩
  | cons b l ih => exact ih h.2

/-- **A chain that ends visits no cell twice.** -/
theorem Chain.nodup (h : Chain next p l) : l.Nodup := by
  induction l generalizing p with
  | nil => exact List.nodup_nil
  | cons a l ih =>
      refine List.nodup_cons.mpr ⟨?_, ih h.2⟩
      intro hmem
      obtain ⟨s, t, rfl⟩ := List.append_of_mem hmem
      -- the two walks from `a` would have different lengths
      have heq := (Chain.suffix (l := []) h).unique
        (Chain.suffix (l := a :: s) h)
      have hlen := congrArg List.length heq
      simp only [List.length_cons, List.length_append] at hlen
      omega

section Update

variable [DecidableEq α]

/-- **The frame rule**: a cell off the list may be written. -/
theorem Chain.update (h : Chain next p l) (ha : a ∉ l) (q : Option α) :
    Chain (Function.update next a q) p l := by
  induction l generalizing p with
  | nil => exact h
  | cons b l ih =>
      rw [List.mem_cons, not_or] at ha
      refine ⟨h.1, ?_⟩
      rw [Function.update_of_ne (Ne.symm ha.1)]
      exact ih h.2 ha.2

/-- Linking a cell in front. -/
theorem Chain.push (h : Chain next p l) (ha : a ∉ l) :
    Chain (Function.update next a p) (some a) (a :: l) := by
  refine ⟨rfl, ?_⟩
  rw [Function.update_self]
  exact h.update ha p

/-- Linking a cell whose `next` is null behind the last one. -/
theorem Chain.append (h : Chain next p l) (hz : l.getLast? = some z) (ha : a ∉ l)
    (hnull : next a = none) :
    Chain (Function.update next z (some a)) p (l ++ [a]) := by
  induction l generalizing p with
  | nil => simp at hz
  | cons b l ih =>
      have hnodup := List.nodup_cons.mp h.nodup
      rw [List.mem_cons, not_or] at ha
      refine ⟨h.1, ?_⟩
      cases l with
      | nil =>
          obtain rfl : b = z := by simpa using hz
          rw [Function.update_self]
          refine ⟨rfl, ?_⟩
          rw [Function.update_of_ne ha.1]
          exact hnull
      | cons c l =>
          rw [List.getLast?_cons_cons] at hz
          have hne : b ≠ z := by
            rintro rfl
            exact hnodup.1 (List.mem_of_getLast? hz)
          rw [Function.update_of_ne hne]
          exact ih h.2 hz ha.2

end Update

end LinkedCells
