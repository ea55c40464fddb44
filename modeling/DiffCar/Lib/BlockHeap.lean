import Mathlib.Data.Finset.Card

/-!
# A heap of live blocks

What an allocator owes its callers when only the set of live blocks matters:
an allocation returns a block that was not live, and freeing a block makes it
not live again. The field `fresh` is the invariant that makes `next` a new
block.
-/

/-- The live blocks, and the next block an allocation returns. -/
structure BlockHeap where
  live : Finset ℕ
  next : ℕ
  fresh : ∀ b ∈ live, b < next

namespace BlockHeap

/-- Nothing allocated. -/
def empty : BlockHeap := ⟨∅, 0, fun b hb => absurd hb (Finset.notMem_empty b)⟩

/-- An allocation: the heap after it and the new block. -/
def alloc (h : BlockHeap) : BlockHeap × ℕ :=
  (⟨insert h.next h.live, h.next + 1, by
      intro b hb
      rcases Finset.mem_insert.mp hb with rfl | hb
      · exact Nat.lt_succ_self _
      · exact Nat.lt_succ_of_lt (h.fresh b hb)⟩, h.next)

/-- The block is given back. -/
def free (h : BlockHeap) (b : ℕ) : BlockHeap :=
  ⟨h.live.erase b, h.next, fun c hc => h.fresh c (Finset.mem_of_mem_erase hc)⟩

theorem next_notMem_live (h : BlockHeap) : h.next ∉ h.live :=
  fun hmem => Nat.lt_irrefl _ (h.fresh _ hmem)

/-- **Freeing what was just allocated** leaves the live blocks as they were. -/
theorem live_alloc_free (h : BlockHeap) :
    (h.alloc.1.free h.alloc.2).live = h.live :=
  Finset.erase_insert h.next_notMem_live

/-- An allocation alone changes the live blocks. -/
theorem live_alloc_ne (h : BlockHeap) : h.alloc.1.live ≠ h.live := by
  intro heq
  have hmem : h.next ∈ h.alloc.1.live := Finset.mem_insert_self _ _
  rw [heq] at hmem
  exact h.next_notMem_live hmem

theorem card_alloc (h : BlockHeap) : h.alloc.1.live.card = h.live.card + 1 :=
  Finset.card_insert_of_notMem h.next_notMem_live

end BlockHeap
