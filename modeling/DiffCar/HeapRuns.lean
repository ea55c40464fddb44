import DiffCar.Lib.Reach
import DiffCar.Malloc

/-!
# HeapRuns — the heap over whole runs

Any threads call `rt_malloc`, `rt_calloc` and `rt_free` in any order and give
back only what they have been given. `live` are the pointers that are out, each
with the size that was asked for. The memory has room for a block (`HeapRoom`):
in less, `rt_malloc` looks for its end behind it.
-/

namespace DiffCar

open Interleave Segments

/-- The heap and the pointers that are out. -/
structure HeapRun where
  heap : Heap
  live : List (ℕ × ℕ)

/-- What a thread may do. -/
inductive HeapAction where
  | malloc (size : ℕ)
  | calloc (count size : ℕ)
  | free (rmem : ℕ)

/-- A call of `rt_malloc`, and the pointer that it returns. -/
def HeapRun.malloc (r : HeapRun) (size : ℕ) : Option (HeapRun × Option ℕ) :=
  (rtMalloc r.heap size).map fun
    | (heap, none) => (⟨heap, r.live⟩, none)
    | (heap, some p) => (⟨heap, (p, size) :: r.live⟩, some p)

/-- A call of `rt_calloc`, and the pointer that it returns. -/
def HeapRun.calloc (r : HeapRun) (count size : ℕ) : Option (HeapRun × Option ℕ) :=
  (rtCalloc r.heap count size).map fun
    | (heap, none) => (⟨heap, r.live⟩, none)
    | (heap, some p) => (⟨heap, (p, count * size % 2 ^ 32) :: r.live⟩, some p)

/-- A call of `rt_free`, for a pointer that is out. -/
def HeapRun.free (r : HeapRun) (rmem : ℕ) : Option HeapRun :=
  if rmem ∈ r.live.map Prod.fst then
    (rtFree r.heap rmem).map fun heap => ⟨heap, r.live.eraseP fun b => b.1 = rmem⟩
  else none

/-- One call. There is no next state when a loop does not end, when an
assertion fails, when `rt_memset` leaves the heap, or for a pointer that is not
out. -/
def HeapRun.step (r : HeapRun) : HeapAction → Option HeapRun
  | .malloc size => (r.malloc size).map Prod.fst
  | .calloc count size => (r.calloc count size).map Prod.fst
  | .free rmem => r.free rmem

/-- Besides the two headers at its ends, the memory has room for the smallest
block that `rt_malloc` gives. -/
abbrev HeapRoom (beginAddr endAddr : ℕ) : Prop :=
  rtAlignWord beginAddr + 2 * sizeofStructMem + minSizeAligned ≤ endAddr / 4 * 4

/-- States of the heap in any run from the memory between these addresses. -/
def HeapRun.Reachable (beginAddr endAddr : ℕ) (r : HeapRun) : Prop :=
  ∃ h, rtSystemHeapInit beginAddr endAddr = some h ∧ Reach HeapRun.step ⟨h, []⟩ r

/-- The state after these calls. -/
def HeapRun.after (beginAddr endAddr : ℕ) (calls : List HeapAction) : Option HeapRun :=
  (rtSystemHeapInit beginAddr endAddr).bind fun h => exec HeapRun.step ⟨h, []⟩ calls

theorem HeapRun.Reachable.of_after {beginAddr endAddr : ℕ} {calls : List HeapAction}
    {r : HeapRun} (h : HeapRun.after beginAddr endAddr calls = some r) :
    HeapRun.Reachable beginAddr endAddr r := by
  obtain ⟨heap, hinit, hrun⟩ := Option.bind_eq_some_iff.mp h
  exact ⟨heap, hinit, Reach.refl.exec hrun⟩

/-! ## The used blocks -/

/-- The used blocks: where the bytes behind their headers are, and how many. -/
def blocks : ℕ → List Seg → List (ℕ × ℕ)
  | _, [] => []
  | a, ⟨m, true⟩ :: segs => (a + sizeofStructMem, m) :: blocks (a + sizeofStructMem + m) segs
  | a, ⟨m, false⟩ :: segs => blocks (a + sizeofStructMem + m) segs

section Blocks

variable {a m n : ℕ} {pre post segs : List Seg}

theorem blocks_append : blocks a (pre ++ post)
    = blocks a pre ++ blocks (a + total sizeofStructMem pre) post := by
  induction pre generalizing a with
  | nil => rfl
  | cons s pre ih =>
      obtain ⟨m, used⟩ := s
      have hsum : a + total sizeofStructMem (⟨m, used⟩ :: pre)
          = a + sizeofStructMem + m + total sizeofStructMem pre := by
        rw [total_cons]
        dsimp only
        omega
      rw [hsum]
      cases used with
      | true => rw [List.cons_append, blocks, blocks, ih, List.cons_append]
      | false => rw [List.cons_append, blocks, blocks, ih]

/-- Carving up a block adds one that is large enough, and hardly larger. -/
theorem blocks_carve (a : ℕ) (post : List Seg) (hle : n ≤ m) : ∃ c, n ≤ c
    ∧ c < n + sizeofStructMem + minSizeAligned
    ∧ blocks a (carve sizeofStructMem minSizeAligned n m ++ post)
      = (a + sizeofStructMem, c) :: blocks (a + sizeofStructMem + m) post := by
  unfold carve
  by_cases hsplit : n + sizeofStructMem + minSizeAligned ≤ m
  · refine ⟨n, le_rfl, Nat.lt_add_right _ (Nat.lt_add_of_pos_right (by decide)), ?_⟩
    have hsum : a + sizeofStructMem + n + sizeofStructMem + (m - (n + sizeofStructMem))
        = a + sizeofStructMem + m := by omega
    rw [if_pos hsplit]
    simp only [List.cons_append, List.nil_append, blocks]
    rw [hsum]
  · refine ⟨m, hle, not_le.mp hsplit, ?_⟩
    rw [if_neg hsplit]
    rfl

/-- Releasing one leaves the others as they are. -/
theorem blocks_release : blocks a (release sizeofStructMem pre m post)
    = blocks a pre
      ++ blocks (a + total sizeofStructMem pre + sizeofStructMem + m) post := by
  have hnext : ∀ b, blocks (b + (mergeNext sizeofStructMem m post).1)
      (mergeNext sizeofStructMem m post).2 = blocks (b + m) post := by
    intro b
    unfold mergeNext
    split
    next k post =>
      rw [blocks]
      congr 1
      omega
    next => rfl
  unfold release
  dsimp only
  have hk := hnext (a + total sizeofStructMem pre + sizeofStructMem)
  generalize mergeNext sizeofStructMem m post = next at hk
  rw [← hk]
  cases pre using List.reverseRecOn with
  | nil => rfl
  | append_singleton pre s =>
      obtain ⟨j, used⟩ := s
      cases used with
      | true =>
          rw [mergePrev_used, blocks_append, blocks]
      | false =>
          have hsum : a + total sizeofStructMem pre + sizeofStructMem
                + (j + sizeofStructMem + next.1)
              = a + total sizeofStructMem (pre ++ [⟨j, false⟩]) + sizeofStructMem + next.1 := by
            rw [total_append, total_cons, total_nil]
            dsimp only
            omega
          rw [mergePrev_free, blocks_append, blocks_append, blocks, blocks, hsum]
          simp [blocks]

/-- Every used block is inside the memory. -/
theorem blocks_bounds {b : ℕ × ℕ} (hb : b ∈ blocks a segs) :
    a + sizeofStructMem ≤ b.1 ∧ b.1 + b.2 ≤ a + total sizeofStructMem segs := by
  induction segs generalizing a with
  | nil => exact absurd hb List.not_mem_nil
  | cons s segs ih =>
      obtain ⟨m, used⟩ := s
      rw [total_cons]
      dsimp only
      cases used with
      | true =>
          rcases List.mem_cons.mp hb with rfl | hb
          · dsimp only
            omega
          · have hrest := ih hb
            omega
      | false =>
          have hrest := ih hb
          omega

/-- Where a used block stands among the others. -/
theorem blocks_split {b : ℕ × ℕ} (hb : b ∈ blocks a segs) :
    ∃ pre post, segs = pre ++ ⟨b.2, true⟩ :: post
      ∧ b.1 = a + total sizeofStructMem pre + sizeofStructMem := by
  induction segs generalizing a with
  | nil => exact absurd hb List.not_mem_nil
  | cons s segs ih =>
      obtain ⟨m, used⟩ := s
      have hcons : b ∈ blocks (a + sizeofStructMem + m) segs → ∃ pre post,
          ⟨m, used⟩ :: segs = pre ++ ⟨b.2, true⟩ :: post
            ∧ b.1 = a + total sizeofStructMem pre + sizeofStructMem := by
        intro hb
        obtain ⟨pre, post, rfl, hat⟩ := ih hb
        refine ⟨⟨m, used⟩ :: pre, post, rfl, ?_⟩
        rw [hat, total_cons]
        dsimp only
        omega
      cases used with
      | true =>
          rcases List.mem_cons.mp hb with rfl | hb
          · exact ⟨[], segs, rfl, rfl⟩
          · exact hcons hb
      | false => exact hcons hb

/-- Behind each used block there is a header before the next. -/
theorem blocks_pairwise (a : ℕ) (segs : List Seg) :
    (blocks a segs).Pairwise fun x y => x.1 + x.2 + sizeofStructMem ≤ y.1 := by
  induction segs generalizing a with
  | nil => exact .nil
  | cons s segs ih =>
      obtain ⟨m, used⟩ := s
      cases used with
      | true =>
          refine List.pairwise_cons.mpr ⟨?_, ih _⟩
          intro y hy
          exact (blocks_bounds hy).1
      | false => exact ih _

theorem free_of_blocks (h : blocks a segs = []) : ∀ s ∈ segs, s.used = false := by
  intro s hs
  obtain ⟨pre, post, rfl⟩ := List.append_of_mem hs
  obtain ⟨m, used⟩ := s
  cases used with
  | false => rfl
  | true =>
      rw [blocks_append, blocks] at h
      exact absurd h (by simp)

theorem usedBytes_blocks (a : ℕ) (segs : List Seg) :
    ((blocks a segs).map fun b => sizeofStructMem + b.2).sum = usedBytes segs := by
  induction segs generalizing a with
  | nil => rfl
  | cons s segs ih =>
      obtain ⟨m, used⟩ := s
      cases used with
      | true => rw [blocks, List.map_cons, List.sum_cons, ih, usedBytes_used]
      | false => rw [blocks, ih, usedBytes_free]

end Blocks

/-! ## The invariant -/

/-- The last sizes are taken for small ones when they are aligned. -/
theorem le_request_self_iff {size : ℕ} : size ≤ request size ↔ size + 3 < 2 ^ 32 := by
  have hmin : minSizeAligned = 12 := rfl
  unfold request rtAlignWord
  constructor
  · intro hle
    by_contra hwrap
    split_ifs at hle <;> omega
  · intro hsmall
    rw [Nat.mod_eq_of_lt hsmall]
    split_ifs <;> omega

/-- The pointer is that of the block, and the block is as large as it has to
be, or larger by less than another block. -/
def Serves (l b : ℕ × ℕ) : Prop :=
  l.1 = b.1 ∧ request l.2 ≤ b.2 ∧ b.2 < request l.2 + sizeofStructMem + minSizeAligned

/-- **The pointers that are out are the used blocks.** -/
structure HeapRun.Inv (r : HeapRun) (segs : List Seg) (bs : List (ℕ × ℕ)) : Prop where
  holds : r.heap.Holds segs
  perm : (blocks 0 segs).Perm bs
  serves : List.Forall₂ Serves r.live bs

section Inv

variable {r t : HeapRun} {segs : List Seg} {bs : List (ℕ × ℕ)}

/-- The partner of one entry. -/
theorem forall₂_split {ls ks : List (ℕ × ℕ)} {l : ℕ × ℕ}
    (h : List.Forall₂ Serves (ls ++ l :: ks) bs) :
    ∃ front b back, bs = front ++ b :: back ∧ List.Forall₂ Serves ls front ∧ Serves l b
      ∧ List.Forall₂ Serves ks back := by
  induction ls generalizing bs with
  | nil =>
      obtain ⟨b, back, hb, hback, rfl⟩ := List.forall₂_cons_left_iff.mp h
      exact ⟨[], b, back, rfl, .nil, hb, hback⟩
  | cons k ls ih =>
      obtain ⟨c, rest, hc, hrest, rfl⟩ := List.forall₂_cons_left_iff.mp h
      obtain ⟨front, b, back, rfl, hfront, hb, hback⟩ := ih hrest
      exact ⟨c :: front, b, back, rfl, .cons hc hfront, hb, hback⟩

/-- **`rt_malloc`** returns, and adds a block or finds none. -/
theorem HeapRun.Inv.malloc (h : r.Inv segs bs) (size : ℕ) :
    ∃ t res, r.malloc size = some (t, res) ∧ (∃ segs' bs', t.Inv segs' bs')
      ∧ t.heap.memSizeAligned = r.heap.memSizeAligned
      ∧ t.live = (res.map fun p => (p, size)).toList ++ r.live := by
  by_cases hsize : size = 0
  · refine ⟨r, none, ?_, ⟨segs, bs, h⟩, rfl, rfl⟩
    rw [HeapRun.malloc, hsize, rtMalloc, if_pos rfl]
    rfl
  · rcases rtMalloc_holds h.holds hsize with
      ⟨pre, m, post, heap, rfl, hle, -, -, hcall, hholds, hmem⟩ | ⟨-, hcall⟩
    · obtain ⟨c, hc, hclt, hblocks⟩ :=
        blocks_carve (0 + total sizeofStructMem pre) post hle
      refine ⟨⟨heap, (total sizeofStructMem pre + sizeofStructMem, size) :: r.live⟩,
        some (total sizeofStructMem pre + sizeofStructMem), ?_, ?_, hmem, rfl⟩
      · rw [HeapRun.malloc, hcall]
        rfl
      · refine ⟨_, (total sizeofStructMem pre + sizeofStructMem, c) :: bs, hholds, ?_,
          .cons ⟨rfl, hc, hclt⟩ h.serves⟩
        have hperm := h.perm
        rw [blocks_append, blocks, Nat.zero_add] at hperm
        rw [blocks_append, hblocks, Nat.zero_add]
        exact List.perm_middle.trans (hperm.cons _)
    · refine ⟨r, none, ?_, ⟨segs, bs, h⟩, rfl, rfl⟩
      rw [HeapRun.malloc, hcall]
      rfl

/-- The newest pointer that is out, and its block. -/
theorem HeapRun.Inv.newest (h : r.Inv segs bs) {l : ℕ × ℕ} {live : List (ℕ × ℕ)}
    (hlive : r.live = l :: live) : ∃ pre m post, segs = pre ++ ⟨m, true⟩ :: post
      ∧ l.1 = total sizeofStructMem pre + sizeofStructMem ∧ request l.2 ≤ m := by
  have hserves := h.serves
  rw [hlive] at hserves
  obtain ⟨b, rest, ⟨hptr, hle, -⟩, -, rfl⟩ := List.forall₂_cons_left_iff.mp hserves
  have hmem : b ∈ blocks 0 segs := h.perm.mem_iff.mpr (by simp)
  obtain ⟨pre, post, rfl, hat⟩ := blocks_split hmem
  exact ⟨pre, b.2, post, rfl, by omega, hle⟩

/-- `rt_calloc` is `rt_malloc`, and `rt_memset` on what it gave. -/
theorem HeapRun.calloc_eq (r : HeapRun) (count size : ℕ) :
    r.calloc count size = (r.malloc (count * size % 2 ^ 32)).bind fun
      | (t, none) => some (t, none)
      | (t, some p) => (rtMemset t.heap p (count * size % 2 ^ 32)).map fun heap =>
          (⟨heap, t.live⟩, some p) := by
  unfold HeapRun.calloc rtCalloc HeapRun.malloc
  cases rtMalloc r.heap (count * size % 2 ^ 32) with
  | none => rfl
  | some res =>
      obtain ⟨heap, _ | p⟩ := res
      · rfl
      · simp only [Option.bind_some, Option.map_some, Option.map_map]
        cases rtMemset heap p (count * size % 2 ^ 32) <;> rfl

/-- **`rt_calloc`** returns as `rt_malloc` does, but for the three largest sizes:
of these `rt_malloc` gives a block of the smallest size. -/
theorem HeapRun.Inv.calloc (h : r.Inv segs bs) (count size : ℕ) :
    (∃ t res, r.calloc count size = some (t, res) ∧ (∃ segs' bs', t.Inv segs' bs')
        ∧ t.heap.memSizeAligned = r.heap.memSizeAligned
        ∧ t.live = (res.map fun p => (p, count * size % 2 ^ 32)).toList ++ r.live)
      ∨ r.calloc count size = none ∧ 2 ^ 32 ≤ count * size % 2 ^ 32 + 3 := by
  rw [HeapRun.calloc_eq]
  obtain ⟨t, res, hcall, ⟨segs', bs', hinv⟩, hsize, hlive⟩ := h.malloc (count * size % 2 ^ 32)
  rw [hcall, Option.bind_some]
  cases res with
  | none => exact .inl ⟨t, none, rfl, ⟨segs', bs', hinv⟩, hsize, hlive⟩
  | some p =>
      obtain ⟨pre, m, post, rfl, hptr, hle⟩ := hinv.newest hlive
      dsimp only at hptr hle ⊢
      by_cases hbig : 2 ^ 32 ≤ count * size % 2 ^ 32 + 3
      · refine .inr ⟨?_, hbig⟩
        obtain ⟨-, hmax⟩ := hinv.holds.memSize
        have hhdr : sizeofStructMem = 12 := rfl
        rw [rtMemset, if_neg (by omega)]
        rfl
      · have hfits := le_request_self_iff.mpr (not_le.mp hbig)
        obtain ⟨heap, hset, hholds, hkept⟩ := rtMemset_holds hinv.holds (hfits.trans hle)
        rw [hptr, hset]
        refine .inl ⟨⟨heap, t.live⟩, some (total sizeofStructMem pre + sizeofStructMem), rfl,
          ⟨_, bs', hholds, hinv.perm, hinv.serves⟩, hkept.trans hsize, ?_⟩
        rw [← hptr]
        exact hlive

/-- **`rt_free`** takes a pointer that is out, and only its block goes. -/
theorem HeapRun.Inv.free (h : r.Inv segs bs) {rmem : ℕ} (hout : rmem ∈ r.live.map Prod.fst) :
    ∃ t, r.free rmem = some t ∧ (∃ segs' bs', t.Inv segs' bs')
      ∧ t.heap.memSizeAligned = r.heap.memSizeAligned
      ∧ t.live = r.live.eraseP fun b => b.1 = rmem := by
  obtain ⟨l, hl, rfl⟩ := List.mem_map.mp hout
  -- the first entry with that pointer, and its block
  obtain ⟨l', front, back, -, hfirst, hlive, herase⟩ :=
    List.exists_of_eraseP (p := fun b => decide (b.1 = l.1)) hl (by simp)
  have hserves := h.serves
  rw [hlive] at hserves
  obtain ⟨bfront, b, bback, rfl, hbfront, hb, hbback⟩ := forall₂_split hserves
  have hmem : b ∈ blocks 0 segs := h.perm.mem_iff.mpr (by simp)
  obtain ⟨pre, post, rfl, hat⟩ := blocks_split hmem
  obtain ⟨heap, hcall, hholds, hsize⟩ := rtFree_holds h.holds
  have hptr : total sizeofStructMem pre + sizeofStructMem = l.1 := by
    have hfirst := of_decide_eq_true hfirst
    rw [← hfirst, hb.1, hat]
    omega
  rw [hptr] at hcall
  refine ⟨⟨heap, r.live.eraseP fun b => decide (b.1 = l.1)⟩, ?_, ?_, hsize, rfl⟩
  · rw [HeapRun.free, if_pos hout, hcall]
    rfl
  · refine ⟨_, bfront ++ bback, hholds, ?_, ?_⟩
    · have hperm := h.perm
      rw [blocks_append, blocks] at hperm
      rw [blocks_release]
      have hb2 : (0 + total sizeofStructMem pre + sizeofStructMem, b.2) = b := by
        rw [← hat]
      rw [hb2] at hperm
      exact List.Perm.cons_inv (List.perm_middle.symm.trans (hperm.trans List.perm_middle))
    · show List.Forall₂ Serves (r.live.eraseP _) _
      rw [herase]
      exact List.rel_append hbfront hbback

theorem memSizeAligned_of_room {beginAddr endAddr : ℕ} {h : Heap}
    (hroom : HeapRoom beginAddr endAddr) (hinit : rtSystemHeapInit beginAddr endAddr = some h) :
    minSizeAligned ≤ h.memSizeAligned := by
  unfold rtSystemHeapInit at hinit
  obtain ⟨-, hinit⟩ := Option.ite_none_right_eq_some.mp hinit
  obtain rfl := Option.some.inj hinit
  have hhdr : sizeofStructMem = 12 := rfl
  dsimp only
  omega

/-- The memory after `rt_system_heap_init` is one free block. -/
theorem rtSystemHeapInit_holds {beginAddr endAddr : ℕ} {h : Heap} (hend : endAddr < 2 ^ 32)
    (hinit : rtSystemHeapInit beginAddr endAddr = some h)
    (hleast : minSizeAligned ≤ h.memSizeAligned) : h.Holds [⟨h.memSizeAligned, false⟩] := by
  unfold rtSystemHeapInit at hinit
  dsimp only at hinit
  rw [Option.ite_none_right_eq_some] at hinit
  obtain ⟨⟨hroom, hle⟩, hinit⟩ := hinit
  obtain rfl := Option.some.inj hinit
  have hhdr : sizeofStructMem = 12 := rfl
  have hmin : minSizeAligned = 12 := rfl
  have hdvd : 4 ∣ rtAlignWord beginAddr := Nat.dvd_mul_left 4 _
  dsimp only at hleast ⊢
  refine ⟨⟨0, ⟨rfl, rfl, ?_, rfl⟩, rfl, ?_⟩, rfl, ?_, ?_, ?_, rfl, hleast, ?_⟩
  · simp only [if_true]
    omega
  · simp only [Heap.heapEnd]
    omega
  · exact List.isChain_singleton _
  · intro s hs
    obtain rfl := List.mem_singleton.mp hs
    exact ⟨hleast, by dsimp only; omega⟩
  · rw [front_free]
  · simp only [Heap.heapEnd]
    omega

theorem HeapRun.Inv.step (h : r.Inv segs bs) {a : HeapAction} (hs : r.step a = some t) :
    (∃ segs' bs', t.Inv segs' bs') ∧ t.heap.memSizeAligned = r.heap.memSizeAligned := by
  cases a with
  | malloc size =>
      obtain ⟨t', res, hcall, hinv, hsize, -⟩ := h.malloc size
      rw [HeapRun.step, hcall] at hs
      obtain rfl := Option.some.inj hs
      exact ⟨hinv, hsize⟩
  | calloc count size =>
      rw [HeapRun.step] at hs
      rcases h.calloc count size with ⟨t', res, hcall, hinv, hsize, -⟩ | ⟨hcall, -⟩
      · rw [hcall] at hs
        obtain rfl := Option.some.inj hs
        exact ⟨hinv, hsize⟩
      · rw [hcall] at hs
        exact absurd hs (by simp)
  | free rmem =>
      by_cases hout : rmem ∈ r.live.map Prod.fst
      · obtain ⟨t', hcall, hinv, hsize, -⟩ := h.free hout
        obtain rfl := Option.some.inj (hcall.symm.trans hs)
        exact ⟨hinv, hsize⟩
      · rw [HeapRun.step, HeapRun.free, if_neg hout] at hs
        exact absurd hs (by simp)

theorem HeapRun.Reachable.inv {beginAddr endAddr : ℕ} (hroom : HeapRoom beginAddr endAddr)
    (hend : endAddr < 2 ^ 32) (h : HeapRun.Reachable beginAddr endAddr r) :
    ∃ segs bs, r.Inv segs bs := by
  obtain ⟨heap, hinit, hreach⟩ := h
  have hleast := memSizeAligned_of_room hroom hinit
  refine Reach.inv (P := fun r => ∃ segs bs, r.Inv segs bs) hreach ?_ ?_
  · exact ⟨_, [], rtSystemHeapInit_holds hend hinit hleast, .refl _, .nil⟩
  · intro r a t ⟨segs, bs, hinv⟩ hs
    exact (hinv.step hs).1

end Inv

/-! ## One free block -/

section One

variable {h : Heap} {segs : List Seg} {m size : ℕ}

/-- Without a used block there is one block. -/
theorem Heap.Holds.one_block (hh : h.Holds segs) (hfree : ∀ s ∈ segs, s.used = false) :
    segs = [⟨h.memSizeAligned, false⟩] := by
  have htotal := hh.total
  have hhdr : sizeofStructMem = 12 := rfl
  have hlen := hh.merged.all_free hfree
  cases segs with
  | nil =>
      rw [total_nil] at htotal
      omega
  | cons s rest =>
      obtain rfl : rest = [] := by
        rw [List.length_cons] at hlen
        exact List.eq_nil_of_length_eq_zero (by omega)
      obtain ⟨m, used⟩ := s
      obtain rfl : used = false := hfree ⟨m, used⟩ (by simp)
      rw [total_cons, total_nil] at htotal
      dsimp only at htotal
      obtain rfl : m = h.memSizeAligned := by omega
      rfl

/-- It serves every smaller request. -/
theorem Heap.Holds.malloc_one (hh : h.Holds [⟨m, false⟩]) (hsize : size ≠ 0)
    (hlt : request size < m) : ∃ t, rtMalloc h size = some (t, some sizeofStructMem) := by
  rcases rtMalloc_holds hh hsize with ⟨pre, m', post, t, heq, -, -, -, hcall, -⟩ | ⟨hnone, -⟩
  · obtain rfl : pre = [] := by
      cases pre with
      | nil => rfl
      | cons s pre => exact absurd (List.cons.inj heq).2 (by simp)
    exact ⟨t, by simpa using hcall⟩
  · obtain ⟨-, hexact⟩ := hnone [] _ [] rfl ⟨rfl, hlt.le⟩
    exact absurd hexact hlt.ne'

end One

/-! ## What the invariant says of the pointers -/

section Pointers

variable {r : HeapRun} {segs : List Seg} {bs : List (ℕ × ℕ)}

/-- A pointer and its bytes are in the heap. -/
theorem HeapRun.Inv.bounds (h : r.Inv segs bs) {l : ℕ × ℕ} (hl : l ∈ r.live) :
    l.1 % 4 = 0 ∧ sizeofStructMem ≤ l.1 ∧ l.1 + request l.2 ≤ r.heap.heapEnd := by
  have htotal := h.holds.total
  have hends : r.heap.heapEnd = r.heap.memSizeAligned + sizeofStructMem := rfl
  have hhdr : sizeofStructMem = 12 := rfl
  obtain ⟨front, back, hlive⟩ := List.append_of_mem hl
  have hserves := h.serves
  rw [hlive] at hserves
  obtain ⟨bfront, b, bback, rfl, -, ⟨hptr, hle, -⟩, -⟩ := forall₂_split hserves
  have hmem : b ∈ blocks 0 segs := h.perm.mem_iff.mpr (by simp)
  have hbounds := blocks_bounds hmem
  obtain ⟨pre, post, rfl, hat⟩ := blocks_split hmem
  have hdvd := total_dvd fun s hs => (h.holds.sizes s (List.mem_append_left _ hs)).2
  exact ⟨by omega, by omega, by omega⟩

/-- **The pointers are kept apart.** -/
theorem HeapRun.Inv.apart (h : r.Inv segs bs) :
    r.live.Pairwise fun x y => x.1 + request x.2 + sizeofStructMem ≤ y.1
      ∨ y.1 + request y.2 + sizeofStructMem ≤ x.1 := by
  have hpair : bs.Pairwise fun x y => x.1 + x.2 + sizeofStructMem ≤ y.1
      ∨ y.1 + y.2 + sizeofStructMem ≤ x.1 :=
    h.perm.pairwise ((blocks_pairwise 0 segs).imp fun h => .inl h) fun h => h.symm
  have hserves := h.serves
  generalize r.live = live at hserves
  clear h
  induction hserves with
  | nil => exact .nil
  | @cons l b live bs hlb hserves ih =>
      obtain ⟨hb, hbs⟩ := List.pairwise_cons.mp hpair
      refine List.pairwise_cons.mpr ⟨?_, ih hbs⟩
      intro k hk
      obtain ⟨front, back, rfl⟩ := List.append_of_mem hk
      obtain ⟨_, c, _, rfl, -, ⟨hptr, hle, -⟩, -⟩ := forall₂_split hserves
      obtain ⟨hptr', hle', -⟩ := hlb
      have happart := hb c (by simp)
      omega

/-- **What `used_mem` is**, up to what was not worth splitting off. -/
theorem HeapRun.Inv.usedMem (h : r.Inv segs bs) :
    (r.live.map fun l => sizeofStructMem + request l.2).sum ≤ r.heap.usedMem
      ∧ r.heap.usedMem ≤ (r.live.map fun l => sizeofStructMem + request l.2).sum
        + r.live.length * (sizeofStructMem + minSizeAligned) := by
  have hsum : (bs.map fun b => sizeofStructMem + b.2).sum = r.heap.usedMem := by
    rw [h.holds.usedMem, ← usedBytes_blocks 0 segs]
    exact (h.perm.map _).sum_eq.symm
  have hserves := h.serves
  rw [← hsum]
  generalize r.live = live at hserves
  clear h hsum
  induction hserves with
  | nil => exact ⟨le_rfl, le_rfl⟩
  | @cons l b live bs hlb _ ih =>
      obtain ⟨-, hle, hlt⟩ := hlb
      obtain ⟨hlow, hhigh⟩ := ih
      simp only [List.map_cons, List.sum_cons, List.length_cons, Nat.add_mul, Nat.one_mul]
      exact ⟨by omega, by omega⟩

theorem HeapRun.Inv.usedMem_le (h : r.Inv segs bs) : r.heap.usedMem ≤ r.heap.heapEnd := by
  rw [h.holds.usedMem]
  exact (usedBytes_le segs).trans_eq h.holds.total

end Pointers

/-- The heap keeps its size, and it is inside the memory. -/
theorem HeapRun.Reachable.heapEnd_le {beginAddr endAddr : ℕ} (hroom : HeapRoom beginAddr endAddr)
    (hbegin : beginAddr + 3 < 2 ^ 32) (hend : endAddr < 2 ^ 32) {r : HeapRun}
    (h : HeapRun.Reachable beginAddr endAddr r) :
    beginAddr + r.heap.heapEnd + sizeofStructMem ≤ endAddr := by
  obtain ⟨heap, hinit, hreach⟩ := h
  have hleast := memSizeAligned_of_room hroom hinit
  have hstart : beginAddr + heap.heapEnd + sizeofStructMem ≤ endAddr := by
    unfold rtSystemHeapInit at hinit
    dsimp only at hinit
    rw [Option.ite_none_right_eq_some] at hinit
    obtain ⟨⟨hroom, hle⟩, hinit⟩ := hinit
    obtain rfl := Option.some.inj hinit
    have hhdr : sizeofStructMem = 12 := rfl
    simp only [Heap.heapEnd]
    unfold rtAlignWord at hle ⊢
    rw [Nat.mod_eq_of_lt hbegin] at hle ⊢
    omega
  have hholds := rtSystemHeapInit_holds hend hinit hleast
  have hkept : (∃ segs bs, r.Inv segs bs) ∧ r.heap.memSizeAligned = heap.memSizeAligned := by
    refine Reach.inv (P := fun r => (∃ segs bs, r.Inv segs bs)
      ∧ r.heap.memSizeAligned = heap.memSizeAligned) hreach ?_ ?_
    · exact ⟨⟨_, [], hholds, .refl _, .nil⟩, rfl⟩
    · rintro r a t ⟨⟨segs, bs, hinv⟩, hsize⟩ hs
      obtain ⟨hinv', hsize'⟩ := hinv.step hs
      exact ⟨hinv', hsize'.trans hsize⟩
  rw [Heap.heapEnd, hkept.2]
  exact hstart

/-- There is one first element with a property. -/
theorem first_unique {α : Type*} {P : α → Prop} {pre pre' post post' : List α} {x x' : α}
    (heq : pre ++ x :: post = pre' ++ x' :: post') (hx : P x) (hx' : P x')
    (hpre : ∀ y ∈ pre, ¬ P y) (hpre' : ∀ y ∈ pre', ¬ P y) : pre = pre' := by
  induction pre generalizing pre' with
  | nil =>
      cases pre' with
      | nil => rfl
      | cons y pre' =>
          obtain ⟨rfl, -⟩ := List.cons.inj heq
          exact absurd hx (hpre' x (by simp))
  | cons y pre ih =>
      cases pre' with
      | nil =>
          obtain ⟨rfl, -⟩ := List.cons.inj heq
          exact absurd hx' (hpre y (by simp))
      | cons z pre' =>
          obtain ⟨rfl, htail⟩ := List.cons.inj heq
          have hrest := ih htail (fun u hu => hpre u (List.mem_cons_of_mem _ hu))
            fun u hu => hpre' u (List.mem_cons_of_mem _ hu)
          rw [hrest]

/-! ## Whole runs -/

section Runs

variable {beginAddr endAddr : ℕ} {r : HeapRun}

/-- **Blocks that are out never overlap.** In every run of any threads' calls:
each is aligned, lies inside the heap and is kept apart from the others by a
header. A block has all the bytes that were asked for unless the size is one of
the three largest, and every call returns, without a failed assertion, unless it
is one of `rt_calloc` for these. -/
theorem heap_blocks (hroom : HeapRoom beginAddr endAddr) (hend : endAddr < 2 ^ 32)
    (h : HeapRun.Reachable beginAddr endAddr r) :
    (∀ l ∈ r.live, l.1 % 4 = 0 ∧ sizeofStructMem ≤ l.1 ∧ l.1 + request l.2 ≤ r.heap.heapEnd
        ∧ (l.2 ≤ request l.2 ↔ l.2 + 3 < 2 ^ 32))
      ∧ r.live.Pairwise (fun x y => x.1 + request x.2 + sizeofStructMem ≤ y.1
        ∨ y.1 + request y.2 + sizeofStructMem ≤ x.1)
      ∧ (∀ size, (r.step (.malloc size)).isSome)
      ∧ (∀ count size, count * size % 2 ^ 32 + 3 < 2 ^ 32 → (r.step (.calloc count size)).isSome)
      ∧ ∀ rmem ∈ r.live.map Prod.fst, (r.step (.free rmem)).isSome := by
  obtain ⟨segs, bs, hinv⟩ := h.inv hroom hend
  refine ⟨?_, hinv.apart, ?_, ?_, ?_⟩
  · intro l hl
    obtain ⟨haligned, hlow, hhigh⟩ := hinv.bounds hl
    exact ⟨haligned, hlow, hhigh, le_request_self_iff⟩
  · intro size
    obtain ⟨t, res, hcall, -⟩ := hinv.malloc size
    rw [HeapRun.step, hcall]
    rfl
  · intro count size hsmall
    rcases hinv.calloc count size with ⟨t, res, hcall, -⟩ | ⟨-, hbig⟩
    · rw [HeapRun.step, hcall]
      rfl
    · exact absurd hsmall (not_lt.mpr hbig)
  · intro rmem hout
    obtain ⟨t, hcall, -⟩ := hinv.free hout
    rw [HeapRun.step, hcall]
    rfl

/-- Three blocks, the second of them given back. -/
def threeCalls : List HeapAction := [.malloc 5, .calloc 2 8, .malloc 30, .free 36]

theorem exists_threeCalls : ∃ r, HeapRun.Reachable 2 200 r ∧ r.live = [(64, 30), (12, 5)] := by
  have hlive : (HeapRun.after 2 200 threeCalls).map HeapRun.live
      = some [(64, 30), (12, 5)] := by decide
  obtain ⟨r, hr, hlive⟩ := Option.map_eq_some_iff.mp hlive
  exact ⟨r, .of_after hr, hlive⟩

theorem heap_blocks_three : ∃ r, HeapRun.Reachable 2 200 r ∧ r.live = [(64, 30), (12, 5)]
    ∧ (r.step (.malloc 1000)).isSome ∧ (r.step (.calloc 3 4)).isSome
    ∧ (r.step (.free 64)).isSome := by
  obtain ⟨r, hr, hlive⟩ := exists_threeCalls
  obtain ⟨-, -, hmalloc, hcalloc, hfree⟩ := heap_blocks (by decide) (by decide) hr
  exact ⟨r, hr, hlive, hmalloc 1000, hcalloc 3 4 (by decide), hfree 64 (by rw [hlive]; decide)⟩

/-- **`used_mem` tells the truth.** In every run `used_mem` is what the
pointers that are out take with their headers, each for its request as
`rt_malloc` rounds it, up to 24 bytes for each, and no more than there is. -/
theorem heap_accounts (hroom : HeapRoom beginAddr endAddr) (hbegin : beginAddr + 3 < 2 ^ 32)
    (hend : endAddr < 2 ^ 32)    (h : HeapRun.Reachable beginAddr endAddr r) :
    (r.live.map fun l => sizeofStructMem + request l.2).sum ≤ r.heap.usedMem
      ∧ r.heap.usedMem ≤ (r.live.map fun l => sizeofStructMem + request l.2).sum
        + r.live.length * (sizeofStructMem + minSizeAligned)
      ∧ beginAddr + r.heap.usedMem + sizeofStructMem ≤ endAddr := by
  obtain ⟨segs, bs, hinv⟩ := h.inv hroom hend
  obtain ⟨hlow, hhigh⟩ := hinv.usedMem
  have hle := hinv.usedMem_le
  have hmem := h.heapEnd_le hroom hbegin hend
  exact ⟨hlow, hhigh, by omega⟩

theorem heap_accounts_three : ∃ r, HeapRun.Reachable 2 200 r ∧ r.live = [(64, 30), (12, 5)]
    ∧ 68 ≤ r.heap.usedMem ∧ r.heap.usedMem ≤ 116 := by
  obtain ⟨r, hr, hlive⟩ := exists_threeCalls
  obtain ⟨hlow, hhigh, -⟩ := heap_accounts (by decide) (by decide) (by decide) hr
  rw [hlive] at hlow hhigh
  exact ⟨r, hr, hlive, hlow, hhigh⟩

/-- **`rt_malloc` takes the lowest block that fits.** In every run the memory
is cut into blocks, no two free ones next to each other, and a request is
served by the first free one that is large enough. It fails exactly when there
is none, or only the last block of the memory and that to the byte. -/
theorem malloc_first_fit (hroom : HeapRoom beginAddr endAddr) (hend : endAddr < 2 ^ 32)
    (h : HeapRun.Reachable beginAddr endAddr r) :
    ∃ segs, (∃ q, r.heap.Run 0 0 segs q r.heap.heapEnd) ∧ Merged segs
      ∧ ∀ size, size ≠ 0 →
        (∀ p, (∃ t, rtMalloc r.heap size = some (t, some p))
          ↔ ∃ pre s post, segs = pre ++ s :: post ∧ Fits (request size) s
            ∧ (∀ t ∈ pre, ¬ Fits (request size) t)
            ∧ ¬ (post = [] ∧ s.size = request size)
            ∧ p = total sizeofStructMem pre + sizeofStructMem)
          ∧ (rtMalloc r.heap size = some (r.heap, none)
            ↔ ∀ pre s post, segs = pre ++ s :: post → Fits (request size) s →
              post = [] ∧ s.size = request size) := by
  obtain ⟨segs, bs, hinv⟩ := h.inv hroom hend
  refine ⟨segs, hinv.holds.run, hinv.holds.merged, ?_⟩
  intro size hsize
  rcases rtMalloc_holds hinv.holds hsize with
    ⟨pre, m, post, t, heq, hle, hnot, hfirst, hcall, -⟩ | ⟨hnone, hcall⟩
  · refine ⟨?_, ?_⟩
    · intro p
      constructor
      · intro ⟨t', ht'⟩
        rw [hcall] at ht'
        simp only [Option.some.injEq, Prod.mk.injEq] at ht'
        exact ⟨pre, ⟨m, false⟩, post, heq, ⟨rfl, hle⟩, hfirst, hnot, ht'.2.symm⟩
      · rintro ⟨pre', s, post', heq', hfits, hfirst', -, hp⟩
        have hsame : pre = pre' :=
          first_unique (heq.symm.trans heq') ⟨rfl, hle⟩ hfits hfirst hfirst'
        rw [hp, ← hsame]
        exact ⟨t, hcall⟩
    · constructor
      · intro hfail
        rw [hcall] at hfail
        exact absurd hfail (by simp)
      · intro hnone
        exact absurd (hnone pre ⟨m, false⟩ post heq ⟨rfl, hle⟩) hnot
  · refine ⟨?_, ?_⟩
    · intro p
      constructor
      · intro ⟨t, ht⟩
        rw [hcall] at ht
        exact absurd ht (by simp)
      · rintro ⟨pre, s, post, heq, hfits, -, hnot, -⟩
        exact absurd (hnone pre s post heq hfits) hnot
    · exact ⟨fun _ => hnone, fun _ => hcall⟩

/-- A request for 20 bytes passes over the block of 16 that was given back. -/
theorem malloc_first_fit_three : ∃ r, HeapRun.Reachable 2 200 r ∧ r.live = [(64, 30), (12, 5)]
    ∧ ∃ segs, total sizeofStructMem segs = r.heap.heapEnd
      ∧ ∃ pre s post, segs = pre ++ s :: post ∧ Fits 20 s ∧ (∀ t ∈ pre, ¬ Fits 20 t)
        ∧ 108 = total sizeofStructMem pre + sizeofStructMem := by
  have hcalls : (HeapRun.after 2 200 threeCalls).map
        (fun r => (r.live, (rtMalloc r.heap 20).map Prod.snd))
      = some ([(64, 30), (12, 5)], some (some 108)) := by decide +kernel
  obtain ⟨r, hr, heq⟩ := Option.map_eq_some_iff.mp hcalls
  obtain ⟨hlive, hmalloc⟩ := Prod.mk.inj heq
  obtain ⟨⟨t, _⟩, hmalloc, rfl⟩ := Option.map_eq_some_iff.mp hmalloc
  obtain ⟨segs, ⟨q, hrun⟩, -, hfit⟩ :=
    malloc_first_fit (by decide) (by decide) (HeapRun.Reachable.of_after hr)
  obtain ⟨pre, s, post, hsegs, hfits, hfirst, -, hp⟩ :=
    ((hfit 20 (by decide)).1 108).mp ⟨t, hmalloc⟩
  refine ⟨r, .of_after hr, hlive, segs, ?_, pre, s, post, hsegs, hfits, hfirst, hp⟩
  rw [hrun.length, Nat.zero_add]

/-- **Nothing is left of past calls.** Whenever everything has been given
back, in whatever order, the heap is one free block as at the beginning, and
every request that is below the size of it as `rt_malloc` rounds it is served
at its start. -/
theorem heap_restored (hroom : HeapRoom beginAddr endAddr) (hend : endAddr < 2 ^ 32)
    (h : HeapRun.Reachable beginAddr endAddr r) (hempty : r.live = []) :
    r.heap.mem 0 = ⟨heapMagic, false, r.heap.heapEnd, 0⟩ ∧ r.heap.lfree = 0
      ∧ r.heap.usedMem = 0
      ∧ ∀ size, size ≠ 0 → request size < r.heap.memSizeAligned →
        ∃ t, rtMalloc r.heap size = some (t, some sizeofStructMem) := by
  obtain ⟨segs, bs, hinv⟩ := h.inv hroom hend
  have hserves := hinv.serves
  rw [hempty] at hserves
  obtain rfl := List.forall₂_nil_left_iff.mp hserves
  obtain rfl := hinv.holds.one_block (free_of_blocks hinv.perm.eq_nil)
  obtain ⟨q, hof, -⟩ := hinv.holds.run
  refine ⟨?_, ?_, ?_, ?_⟩
  · obtain ⟨hmagic, hused, hnext, hprev⟩ := hof
    cases hm : r.heap.mem 0 with
    | mk magic used next prev =>
        rw [hm] at hmagic hused hnext hprev
        dsimp only at hmagic hused hnext hprev
        rw [hmagic, hused, hnext, hprev, Heap.heapEnd, Nat.zero_add, Nat.add_comm]
  · rw [hinv.holds.lfree, front_free]
  · rw [hinv.holds.usedMem, usedBytes_free]
    rfl
  · intro size hsize hlt
    exact hinv.holds.malloc_one hsize hlt

/-- All three given back, the first one last. -/
theorem heap_restored_three : ∃ r, HeapRun.Reachable 2 200 r ∧ r.live = [] ∧ r.heap.lfree = 0
    ∧ r.heap.usedMem = 0 ∧ ∃ t, rtMalloc r.heap 98 = some (t, some 12) := by
  have hcalls : (HeapRun.after 2 200 (threeCalls ++ [.free 64, .free 12])).map
        (fun r => (r.live, r.heap.memSizeAligned)) = some ([], 172) := by decide +kernel
  obtain ⟨r, hr, heq⟩ := Option.map_eq_some_iff.mp hcalls
  obtain ⟨hlive, hsize⟩ := Prod.mk.inj heq
  obtain ⟨-, hlfree, hused, hserved⟩ :=
    heap_restored (by decide) (by decide) (.of_after hr) hlive
  exact ⟨r, .of_after hr, hlive, hlfree, hused,
    hserved 98 (by decide) (by rw [hsize]; decide)⟩

end Runs

end DiffCar
