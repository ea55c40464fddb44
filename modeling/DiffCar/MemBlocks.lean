import DiffCar.Mem

/-!
# MemBlocks — the blocks of the heap

`Heap.Run` reads the headers: from one offset to another the memory is cut
into segments that are linked both ways. Each function of `mem.c` is followed
through the headers once, and what it does is said in terms of the segments.
-/

namespace DiffCar

open Segments

/-- The header at `ptr` is that of a block of this size, and the block before
it is at `prev`. -/
structure HeapMem.Of (m : HeapMem) (prev ptr : ℕ) (s : Seg) : Prop where
  magic : m.magic = heapMagic
  used : m.used = s.used
  next : m.next = ptr + sizeofStructMem + s.size
  prev : m.prev = prev

/-- From `a` to `b` the memory is cut into these segments; the block before
`a` is at `p`, and the last one before `b` is at `q`. -/
def Heap.Run (h : Heap) (p a : ℕ) : List Seg → ℕ → ℕ → Prop
  | [], q, b => q = p ∧ b = a
  | s :: segs, q, b =>
      (h.mem a).Of p a s ∧ h.Run a (a + sizeofStructMem + s.size) segs q b

section Run

variable {h h' : Heap} {p a q b : ℕ} {s : Seg} {segs pre post : List Seg}

theorem Heap.Run.length (hrun : h.Run p a segs q b) : b = a + total sizeofStructMem segs := by
  induction segs generalizing p a with
  | nil => exact hrun.2
  | cons s segs ih =>
      obtain ⟨-, hrest⟩ := hrun
      rw [ih hrest, total_cons]
      omega

theorem Heap.run_append : h.Run p a (pre ++ post) q b
    ↔ ∃ q', h.Run p a pre q' (a + total sizeofStructMem pre)
      ∧ h.Run q' (a + total sizeofStructMem pre) post q b := by
  induction pre generalizing p a with
  | nil =>
      constructor
      · intro hrun
        exact ⟨p, ⟨rfl, rfl⟩, hrun⟩
      · rintro ⟨q', ⟨rfl, -⟩, hrun⟩
        exact hrun
  | cons s pre ih =>
      have hsum : a + total sizeofStructMem (s :: pre)
          = a + sizeofStructMem + s.size + total sizeofStructMem pre := by
        rw [total_cons]
        omega
      rw [hsum]
      constructor
      · intro ⟨hof, hrun⟩
        obtain ⟨q', hpre, hpost⟩ := ih.mp hrun
        exact ⟨q', ⟨hof, hpre⟩, hpost⟩
      · intro ⟨q', ⟨hof, hpre⟩, hpost⟩
        exact ⟨hof, ih.mpr ⟨q', hpre, hpost⟩⟩

/-- The segments are read from the headers between `a` and `b` alone. -/
theorem Heap.Run.congr (hrun : h.Run p a segs q b)
    (hsame : ∀ x, a ≤ x → x < b → h'.mem x = h.mem x) : h'.Run p a segs q b := by
  induction segs generalizing p a with
  | nil => exact hrun
  | cons s segs ih =>
      obtain ⟨hof, hrest⟩ := hrun
      have hlen := hrest.length
      have hpos : 0 < sizeofStructMem := by decide
      refine ⟨?_, ih hrest ?_⟩
      · rw [hsame a le_rfl (by omega)]
        exact hof
      · intro x hle hlt
        exact hsame x (by omega) hlt

/-- The segments in front stay, and those behind are replaced. -/
theorem Heap.Run.replace {m : ℕ} (hpre : h.Run p 0 pre m (total sizeofStructMem pre))
    (hsame : ∀ x < total sizeofStructMem pre, h'.mem x = h.mem x)
    (hpost : h'.Run m (total sizeofStructMem pre) post q b) : h'.Run p 0 (pre ++ post) q b := by
  refine Heap.run_append.mpr ⟨m, ?_, ?_⟩
  · rw [Nat.zero_add]
    exact hpre.congr fun x _ hlt => hsame x hlt
  · rw [Nat.zero_add]
    exact hpost

/-- Where the last block is. -/
theorem Heap.Run.last (hrun : h.Run p a (pre ++ [s]) q b) :
    q = a + total sizeofStructMem pre := by
  obtain ⟨q', -, ⟨-, hnil⟩⟩ := Heap.run_append.mp hrun
  exact hnil.1

/-- A new block in front of the first one, or of the end. -/
theorem Heap.Run.setPrev (hrun : h.Run p a segs q b) (hne : segs ≠ []) (p' : ℕ) :
    (h.setPrev a p').Run p' a segs q b := by
  cases segs with
  | nil => exact absurd rfl hne
  | cons s segs =>
      obtain ⟨hof, hrest⟩ := hrun
      refine ⟨?_, hrest.congr ?_⟩
      · have hmem : (h.setPrev a p').mem a = { h.mem a with prev := p' } :=
          Function.update_self ..
        rw [hmem]
        exact ⟨hof.magic, hof.used, hof.next, rfl⟩
      · intro x hle _
        have hpos : 0 < sizeofStructMem := by decide
        exact Function.update_of_ne (by omega) ..

end Run

/-! ## The loops -/

/-- The segment is free and large enough. -/
def Fits (size : ℕ) (s : Seg) : Prop := s.used = false ∧ size ≤ s.size

theorem sub32_of_le {a b : ℕ} (h : b ≤ a) (ha : a < 2 ^ 32) : sub32 a b = a - b := by
  unfold sub32
  omega

section Loops

variable {h : Heap} {p a q size : ℕ} {segs : List Seg}

/-- **What the loop of `rt_malloc` finds**: the first free segment that is
large enough, unless that is the last one and has no byte to spare. -/
theorem findBlock_run (hrun : h.Run p a segs q h.heapEnd) (hsize : size ≤ h.memSizeAligned)
    (hmax : h.heapEnd < 2 ^ 32) {fuel : ℕ} (hfuel : segs.length < fuel) :
    (∃ pre s post, segs = pre ++ s :: post ∧ Fits size s ∧ ¬ (post = [] ∧ s.size = size)
        ∧ (∀ t ∈ pre, ¬ Fits size t)
        ∧ findBlock h size fuel a = some (some (a + total sizeofStructMem pre)))
      ∨ (∀ pre s post, segs = pre ++ s :: post → Fits size s → post = [] ∧ s.size = size)
        ∧ findBlock h size fuel a = some none := by
  have hend : h.heapEnd = h.memSizeAligned + sizeofStructMem := rfl
  have hhdr : sizeofStructMem = 12 := rfl
  have hsub : sub32 h.memSizeAligned size = h.memSizeAligned - size :=
    sub32_of_le hsize (by omega)
  induction segs generalizing p a fuel with
  | nil =>
      refine .inr ⟨?_, ?_⟩
      · intro pre s post heq
        exact absurd heq (by simp)
      · obtain ⟨fuel, rfl⟩ : ∃ k, fuel = k + 1 := ⟨fuel - 1, by omega⟩
        have hat := hrun.2
        rw [findBlock, hsub, if_neg (by omega)]
  | cons s segs ih =>
      obtain ⟨fuel, rfl⟩ : ∃ k, fuel = k + 1 := ⟨fuel - 1, by omega⟩
      have hlen := hrun.length
      obtain ⟨hof, hrest⟩ := hrun
      rw [total_cons] at hlen
      rw [findBlock, hsub]
      by_cases hlow : a < h.memSizeAligned - size
      · rw [if_pos hlow]
        dsimp only
        have hroom : sub32 (h.mem a).next (a + sizeofStructMem) = s.size := by
          rw [hof.next, sub32_of_le (by omega) (by omega)]
          omega
        rw [hroom, hof.used]
        by_cases hfits : Fits size s
        · refine .inl ⟨[], s, segs, rfl, hfits, ?_, fun _ h => absurd h List.not_mem_nil, ?_⟩
          · rintro ⟨rfl, hexact⟩
            rw [total_nil] at hlen
            omega
          · obtain ⟨hfree, hle⟩ := hfits
            simp [hfree, hle]
        · have hskip : ¬ (!s.used && decide (size ≤ s.size)) = true := by
            intro hboth
            simp only [Bool.and_eq_true, Bool.not_eq_true', decide_eq_true_eq] at hboth
            exact hfits hboth
          rw [if_neg hskip, hof.next]
          rcases ih hrest (by simpa using hfuel) with
            ⟨pre, t, post, rfl, ht, hnot, hpre, hfind⟩ | ⟨hnone, hfind⟩
          · refine .inl ⟨s :: pre, t, post, rfl, ht, hnot, ?_, ?_⟩
            · intro u hu
              rcases List.mem_cons.mp hu with rfl | hu
              · exact hfits
              · exact hpre u hu
            · rw [hfind, total_cons]
              congr 2
              omega
          · refine .inr ⟨?_, hfind⟩
            intro pre t post heq ht
            cases pre with
            | nil =>
                obtain ⟨rfl, -⟩ := List.cons.inj heq
                exact absurd ht hfits
            | cons u pre =>
                obtain ⟨-, heq⟩ := List.cons.inj heq
                exact hnone pre t post heq ht
      · rw [if_neg hlow]
        refine .inr ⟨?_, rfl⟩
        intro pre t post heq ht
        -- there is no room for anything behind such a segment
        have hall := congrArg (total sizeofStructMem) heq
        simp only [total_append, total_cons] at hall
        obtain ⟨-, hle⟩ := ht
        cases post with
        | nil =>
            rw [total_nil] at hall
            exact ⟨rfl, by omega⟩
        | cons u post =>
            rw [total_cons] at hall
            omega

/-- **The next free block.** -/
theorem nextFree_run (hrun : h.Run p a segs q h.heapEnd) {fuel : ℕ}
    (hfuel : segs.length < fuel) :
    nextFree h fuel a = some (a + front sizeofStructMem segs) := by
  induction segs generalizing p a fuel with
  | nil =>
      obtain ⟨fuel, rfl⟩ : ∃ k, fuel = k + 1 := ⟨fuel - 1, by omega⟩
      have hat := hrun.2
      rw [nextFree, if_neg (by simp [hat])]
      rfl
  | cons s segs ih =>
      obtain ⟨fuel, rfl⟩ : ∃ k, fuel = k + 1 := ⟨fuel - 1, by omega⟩
      have hlen := hrun.length
      obtain ⟨hof, hrest⟩ := hrun
      have hhdr : sizeofStructMem = 12 := rfl
      rw [total_cons] at hlen
      obtain ⟨m, used⟩ := s
      cases used with
      | false =>
          have hused : (h.mem a).used = false := hof.used
          rw [nextFree, if_neg (by simp [hused]), front_free]
          rfl
      | true =>
          have hused : (h.mem a).used = true := hof.used
          have hne : a ≠ h.heapEnd := by omega
          rw [nextFree, if_pos (by simp [hused, hne]), hof.next, ih hrest (by simpa using hfuel)]
          have hfront : front sizeofStructMem ([⟨m, true⟩] ++ segs)
              = total sizeofStructMem [⟨m, true⟩] + front sizeofStructMem segs :=
            front_append (by simp)
          rw [List.singleton_append] at hfront
          rw [hfront, total_cons, total_nil]
          congr 1
          omega

end Loops

/-! ## The headers that change -/

section Stores

variable {h : Heap} {p a q b m k ptr x : ℕ} {u v : Bool} {segs pre post : List Seg}

theorem Heap.set_mem_ne (hne : x ≠ ptr) (c : HeapMem) : (h.set ptr c).mem x = h.mem x :=
  Function.update_of_ne hne ..

theorem Heap.set_mem_self (c : HeapMem) : (h.set ptr c).mem ptr = c := Function.update_self ..

/-- **Two blocks become one.** -/
theorem Heap.Run.join (hrun : h.Run p a (⟨m, u⟩ :: ⟨k, v⟩ :: post) q b) :
    let next := a + sizeofStructMem + m + sizeofStructMem + k
    ∃ q', ((h.setNext a next).setPrev next a).Run p a
      (⟨m + sizeofStructMem + k, u⟩ :: post) q' b := by
  intro next
  obtain ⟨hof, -, hpost⟩ := hrun
  have hhdr : sizeofStructMem = 12 := rfl
  have hnext : a + sizeofStructMem + (m + sizeofStructMem + k) = next := by
    show _ = a + sizeofStructMem + m + sizeofStructMem + k
    omega
  have hne : a ≠ next := by omega
  have hpost' : (h.setNext a next).Run (a + sizeofStructMem + m) next post q b := by
    refine Heap.Run.congr hpost ?_
    intro x hle _
    exact Heap.set_mem_ne (by omega) _
  have hself : ((h.setNext a next).setPrev next a).mem a = { h.mem a with next := next } := by
    rw [Heap.setPrev, Heap.set_mem_ne hne, Heap.setNext, Heap.set_mem_self]
  have hmerged : (((h.setNext a next).setPrev next a).mem a).Of p a
      ⟨m + sizeofStructMem + k, u⟩ := by
    rw [hself]
    exact ⟨hof.magic, hof.used, hnext.symm, hof.prev⟩
  by_cases hempty : post = []
  · subst hempty
    exact ⟨a, hmerged, rfl, hpost.2.trans hnext.symm⟩
  · refine ⟨q, hmerged, ?_⟩
    show Heap.Run _ _ (a + sizeofStructMem + (m + sizeofStructMem + k)) _ _ _
    rw [hnext]
    exact hpost'.setPrev hempty a

/-- **A block is split**: a new header behind the first part. -/
theorem Heap.Run.split (hrun : h.Run p a (⟨m, false⟩ :: post) q b) {n : ℕ}
    (hroom : n + sizeofStructMem ≤ m) :
    let next := a + sizeofStructMem + m
    let ptr2 := a + sizeofStructMem + n
    let t := ((h.set ptr2 ⟨heapMagic, false, next, a⟩).setNext a ptr2).setUsed a true
    ∃ q', (if next ≠ b then t.setPrev next ptr2 else t).Run p a
      (⟨n, true⟩ :: ⟨m - (n + sizeofStructMem), false⟩ :: post) q' b := by
  intro next ptr2 t
  obtain ⟨hof, hpost⟩ := hrun
  have hhdr : sizeofStructMem = 12 := rfl
  have hnext : ptr2 + sizeofStructMem + (m - (n + sizeofStructMem)) = next := by
    show a + sizeofStructMem + n + sizeofStructMem + _ = a + sizeofStructMem + m
    omega
  have hlt : a < ptr2 := by
    show a < a + sizeofStructMem + n
    omega
  have hlt2 : ptr2 < next := by omega
  have htself : t.mem a = ⟨heapMagic, true, ptr2, (h.mem a).prev⟩ := by
    simp only [t, Heap.setUsed, Heap.setNext, Heap.set_mem_self]
    rw [Heap.set_mem_ne (by omega)]
  have htptr2 : t.mem ptr2 = ⟨heapMagic, false, next, a⟩ := by
    simp only [t, Heap.setUsed, Heap.setNext]
    rw [Heap.set_mem_ne (by omega), Heap.set_mem_ne (by omega), Heap.set_mem_self]
  have htpost : t.Run a next post q b := by
    refine Heap.Run.congr hpost ?_
    intro x hle _
    have hx : next ≤ x := hle
    simp only [t, Heap.setUsed, Heap.setNext]
    rw [Heap.set_mem_ne (by omega), Heap.set_mem_ne (by omega), Heap.set_mem_ne (by omega)]
  have hfirst : ∀ t' : Heap, t'.mem a = t.mem a → (t'.mem a).Of p a ⟨n, true⟩ := by
    intro t' ht'
    rw [ht', htself]
    exact ⟨rfl, rfl, rfl, hof.prev⟩
  have hsecond : ∀ t' : Heap, t'.mem ptr2 = t.mem ptr2 →
      (t'.mem ptr2).Of a ptr2 ⟨m - (n + sizeofStructMem), false⟩ := by
    intro t' ht'
    rw [ht', htptr2]
    exact ⟨rfl, rfl, hnext.symm, rfl⟩
  have hlen := htpost.length
  by_cases hempty : post = []
  · subst hempty
    have hb : next = b := hlen.symm
    rw [if_neg (by simp [hb])]
    refine ⟨ptr2, hfirst t rfl, hsecond t rfl, ?_⟩
    exact ⟨rfl, hb.symm.trans hnext.symm⟩
  · have hb : next ≠ b := by
      intro heq
      cases post with
      | nil => exact hempty rfl
      | cons s post =>
          rw [total_cons] at hlen
          omega
    rw [if_pos hb]
    refine ⟨q, hfirst _ (Heap.set_mem_ne (by omega) _),
      hsecond _ (Heap.set_mem_ne (by omega) _), ?_⟩
    show Heap.Run _ _ (ptr2 + sizeofStructMem + (m - (n + sizeofStructMem))) _ _ _
    rw [hnext]
    exact htpost.setPrev hempty ptr2

/-- A block changes from free to used, or back. -/
theorem Heap.Run.setUsed (hrun : h.Run p a (⟨m, u⟩ :: post) q b) (v : Bool) :
    (h.setUsed a v).Run p a (⟨m, v⟩ :: post) q b := by
  obtain ⟨hof, hpost⟩ := hrun
  have hhdr : sizeofStructMem = 12 := rfl
  refine ⟨?_, Heap.Run.congr hpost ?_⟩
  · rw [Heap.setUsed, Heap.set_mem_self]
    exact ⟨rfl, rfl, hof.next, hof.prev⟩
  · intro x hle _
    exact Heap.set_mem_ne (by omega) _

end Stores

end DiffCar
