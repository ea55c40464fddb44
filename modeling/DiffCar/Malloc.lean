import DiffCar.MemBlocks

/-!
# Malloc — `rt_malloc` and `rt_free` on the blocks

`Heap.Holds h segs` is the whole invariant: the headers cut the memory into
the segments `segs`, no two free ones are neighbours, `lfree` is the lowest
free one and `used_mem` counts the used ones. The calls do to the segments
what the library says: `carve` and `release`.
-/

namespace DiffCar

open Segments

/-- What `used_mem` counts. -/
def usedBytes (segs : List Seg) : ℕ := total sizeofStructMem (segs.filter (·.used))

/-- **The invariant of the heap.** -/
structure Heap.Holds (h : Heap) (segs : List Seg) : Prop where
  run : ∃ q, h.Run 0 0 segs q h.heapEnd
  last : (h.mem h.heapEnd).used = true
  merged : Merged segs
  sizes : ∀ s ∈ segs, minSizeAligned ≤ s.size ∧ 4 ∣ s.size
  lfree : h.lfree = front sizeofStructMem segs
  usedMem : h.usedMem = usedBytes segs
  memSize : minSizeAligned ≤ h.memSizeAligned ∧ h.heapEnd + sizeofStructMem < 2 ^ 32

/-- The size that `rt_malloc` looks for. -/
def request (size : ℕ) : ℕ :=
  if rtAlignWord size < minSizeAligned then minSizeAligned else rtAlignWord size

theorem usedBytes_append (pre post : List Seg) :
    usedBytes (pre ++ post) = usedBytes pre + usedBytes post := by
  simp [usedBytes]

theorem usedBytes_used (m : ℕ) (post : List Seg) :
    usedBytes (⟨m, true⟩ :: post) = sizeofStructMem + m + usedBytes post := by
  simp [usedBytes]

theorem usedBytes_free (m : ℕ) (post : List Seg) :
    usedBytes (⟨m, false⟩ :: post) = usedBytes post := by
  simp [usedBytes]

/-- The used bytes are bytes of the memory. -/
theorem usedBytes_le (segs : List Seg) : usedBytes segs ≤ total sizeofStructMem segs := by
  induction segs with
  | nil => exact le_rfl
  | cons s segs ih =>
      obtain ⟨m, used⟩ := s
      cases used with
      | true =>
          rw [usedBytes_used, total_cons]
          dsimp only
          omega
      | false =>
          rw [usedBytes_free, total_cons]
          omega

theorem le_request (size : ℕ) : minSizeAligned ≤ request size := by
  unfold request
  split_ifs with h
  · exact le_rfl
  · exact not_lt.mp h

theorem request_dvd (size : ℕ) : 4 ∣ request size := by
  unfold request
  split_ifs
  · decide
  · exact Nat.dvd_mul_left 4 _

section Holds

variable {h t : Heap} {pre post segs : List Seg} {m size : ℕ}

theorem Heap.Holds.total (hh : h.Holds segs) :
    Segments.total sizeofStructMem segs = h.memSizeAligned + sizeofStructMem := by
  obtain ⟨q, hrun⟩ := hh.run
  have hlen := hrun.length
  rw [Nat.zero_add] at hlen
  exact hlen.symm

/-- There are fewer blocks than the loops may go round. -/
theorem length_le_total (segs : List Seg) :
    segs.length ≤ Segments.total sizeofStructMem segs := by
  induction segs with
  | nil => exact le_rfl
  | cons s segs ih =>
      have hhdr : sizeofStructMem = 12 := rfl
      rw [List.length_cons, total_cons]
      omega

/-- **`takeBlock` carves up the block.** -/
theorem takeBlock_run {q : ℕ} (hrun : h.Run 0 0 (pre ++ ⟨m, false⟩ :: post) q h.heapEnd)
    (hlast : (h.mem h.heapEnd).used = true) (hmax : h.heapEnd < 2 ^ 32) {n : ℕ} :
    (∃ q', (takeBlock h n (Segments.total sizeofStructMem pre)).Run 0 0
        (pre ++ (carve sizeofStructMem minSizeAligned n m ++ post)) q' h.heapEnd)
      ∧ ((takeBlock h n (Segments.total sizeofStructMem pre)).mem h.heapEnd).used = true
      ∧ (takeBlock h n (Segments.total sizeofStructMem pre)).lfree = h.lfree
      ∧ (takeBlock h n (Segments.total sizeofStructMem pre)).memSizeAligned = h.memSizeAligned
      ∧ (takeBlock h n (Segments.total sizeofStructMem pre)).usedMem
        = h.usedMem + usedBytes (carve sizeofStructMem minSizeAligned n m) := by
  obtain ⟨q', hpre, hblock⟩ := Heap.run_append.mp hrun
  rw [Nat.zero_add] at hpre hblock
  set a := Segments.total sizeofStructMem pre with ha
  have hlen := hblock.length
  rw [total_cons] at hlen
  dsimp only at hlen
  have hhdr : sizeofStructMem = 12 := rfl
  have hmin : minSizeAligned = 12 := rfl
  have hof := hblock.1
  have hnext : (h.mem a).next = a + sizeofStructMem + m := hof.next
  have hroom : sub32 (h.mem a).next (a + sizeofStructMem) = m := by
    rw [hnext, sub32_of_le (by omega) (by omega)]
    omega
  unfold takeBlock carve
  dsimp only
  rw [hroom]
  by_cases hsplit : n + sizeofStructMem + minSizeAligned ≤ m
  · rw [if_pos hsplit, if_pos hsplit, hnext]
    obtain ⟨q'', hrun'⟩ := Heap.Run.split hblock (n := n) (by omega)
    set t := ((h.set (a + sizeofStructMem + n)
      ⟨heapMagic, false, a + sizeofStructMem + m, a⟩).setNext a
        (a + sizeofStructMem + n)).setUsed a true with ht
    have hend : t.heapEnd = h.heapEnd := rfl
    rw [hend]
    have hbefore : ∀ x, x ≠ a → x ≠ a + sizeofStructMem + n → t.mem x = h.mem x := by
      intro x hxa hxn
      simp only [ht, Heap.setUsed, Heap.setNext]
      rw [Heap.set_mem_ne hxa, Heap.set_mem_ne hxa, Heap.set_mem_ne hxn]
    by_cases hinner : a + sizeofStructMem + m ≠ h.heapEnd
    · rw [if_pos hinner] at hrun' ⊢
      refine ⟨⟨q'', ?_⟩, ?_, rfl, rfl, ?_⟩
      · refine hpre.replace ?_ (Heap.Run.congr hrun' fun _ _ _ => rfl)
        intro x hlt
        exact (Heap.set_mem_ne (by omega) _).trans (hbefore x (by omega) (by omega))
      · show ((t.setPrev _ _).mem h.heapEnd).used = true
        rw [Heap.setPrev, Heap.set_mem_ne hinner.symm, hbefore _ (by omega) (by omega)]
        exact hlast
      · rw [usedBytes_used, usedBytes_free]
        show h.usedMem + (n + sizeofStructMem) = h.usedMem + (sizeofStructMem + n + 0)
        omega
    · rw [if_neg hinner] at hrun' ⊢
      refine ⟨⟨q'', ?_⟩, ?_, rfl, rfl, ?_⟩
      · refine hpre.replace ?_ (Heap.Run.congr hrun' fun _ _ _ => rfl)
        intro x hlt
        exact hbefore x (by omega) (by omega)
      · show (t.mem h.heapEnd).used = true
        rw [hbefore _ (by omega) (by omega)]
        exact hlast
      · rw [usedBytes_used, usedBytes_free]
        show h.usedMem + (n + sizeofStructMem) = h.usedMem + (sizeofStructMem + n + 0)
        omega
  · rw [if_neg hsplit, if_neg hsplit]
    refine ⟨⟨q, ?_⟩, ?_, rfl, rfl, ?_⟩
    · refine hpre.replace ?_ (Heap.Run.congr (hblock.setUsed true) fun _ _ _ => rfl)
      intro x hlt
      exact Heap.set_mem_ne (by omega) _
    · show ((h.setUsed a true).mem h.heapEnd).used = true
      rw [Heap.setUsed, Heap.set_mem_ne (by omega)]
      exact hlast
    · rw [usedBytes_used, hnext, sub32_of_le (by omega) (by omega)]
      show h.usedMem + (a + sizeofStructMem + m - a) = h.usedMem + (sizeofStructMem + m + 0)
      omega

/-- The segments in front of the lowest free one, and the others. -/
theorem Heap.Holds.lowest (hh : h.Holds segs) :
    ∃ low rest, segs = low ++ rest ∧ (∀ s ∈ low, s.used = true)
      ∧ h.lfree = Segments.total sizeofStructMem low
      ∧ (rest = [] ∨ ∃ k post, rest = ⟨k, false⟩ :: post) := by
  have hlfree := hh.lfree
  rcases all_used_or_free segs with hall | ⟨low, k, post, rfl, hlow⟩
  · refine ⟨segs, [], (List.append_nil _).symm, hall, ?_, .inl rfl⟩
    have hfront : front sizeofStructMem (segs ++ [])
        = Segments.total sizeofStructMem segs + front sizeofStructMem [] := front_append hall
    rw [List.append_nil] at hfront
    rw [hlfree, hfront]
    rfl
  · refine ⟨low, ⟨k, false⟩ :: post, rfl, hlow, ?_, .inr ⟨k, post, rfl⟩⟩
    rw [hlfree, front_append hlow, front_free, Nat.add_zero]

/-- The pieces of a block are blocks. -/
theorem carve_sizes {n : ℕ} (hn : minSizeAligned ≤ n ∧ 4 ∣ n) (hm : minSizeAligned ≤ m ∧ 4 ∣ m) :
    ∀ s ∈ carve sizeofStructMem minSizeAligned n m, minSizeAligned ≤ s.size ∧ 4 ∣ s.size := by
  intro s hs
  have hhdr : sizeofStructMem = 12 := rfl
  obtain ⟨hnle, hndvd⟩ := hn
  obtain ⟨hmle, hmdvd⟩ := hm
  unfold carve at hs
  by_cases hsplit : n + sizeofStructMem + minSizeAligned ≤ m
  · rw [if_pos hsplit] at hs
    rcases List.mem_cons.mp hs with rfl | hs
    · exact ⟨hnle, hndvd⟩
    · obtain rfl := List.mem_singleton.mp hs
      dsimp only
      omega
  · rw [if_neg hsplit] at hs
    obtain rfl := List.mem_singleton.mp hs
    exact ⟨hmle, hmdvd⟩

/-- Blocks begin at multiples of four. -/
theorem total_dvd (hsizes : ∀ s ∈ pre, 4 ∣ s.size) :
    4 ∣ Segments.total sizeofStructMem pre := by
  induction pre with
  | nil => exact ⟨0, rfl⟩
  | cons s pre ih =>
      have hrest := ih fun u hu => hsizes u (List.mem_cons_of_mem _ hu)
      have hs := hsizes s (by simp)
      rw [total_cons]
      exact Nat.dvd_add (Nat.dvd_add (by decide) hs) hrest

/-- A request for more than there is at all. -/
theorem rtMalloc_big (hsize : size ≠ 0) (hbig : h.memSizeAligned < rtAlignWord size) :
    rtMalloc h size = some (h, none) := by
  rw [rtMalloc, if_neg hsize]
  exact if_pos hbig

/-- Any other request. -/
theorem rtMalloc_search (hsize : size ≠ 0) (hbig : ¬ h.memSizeAligned < rtAlignWord size) :
    rtMalloc h size = (findBlock h (request size) (h.heapEnd + 1) h.lfree).bind fun
      | none => some (h, none)
      | some ptr =>
          let t := takeBlock h (request size) ptr
          if ptr + sizeofStructMem + request size ≤ t.heapEnd ∧ ptr % 4 = 0 then
            if ptr = t.lfree then
              (nextFree t (t.heapEnd + 1) t.lfree).map fun lfree =>
                ({ t with lfree := lfree }, some (ptr + sizeofStructMem))
            else some (t, some (ptr + sizeofStructMem))
          else none := by
  rw [rtMalloc, if_neg hsize]
  exact if_neg hbig

/-- The invariant but for `lfree`. -/
structure Heap.Lays (h : Heap) (segs : List Seg) : Prop where
  run : ∃ q, h.Run 0 0 segs q h.heapEnd
  last : (h.mem h.heapEnd).used = true
  merged : Merged segs
  sizes : ∀ s ∈ segs, minSizeAligned ≤ s.size ∧ 4 ∣ s.size
  usedMem : h.usedMem = usedBytes segs
  memSize : minSizeAligned ≤ h.memSizeAligned ∧ h.heapEnd + sizeofStructMem < 2 ^ 32

/-- It holds already. -/
theorem Heap.Lays.holds (hl : t.Lays segs) (hlfree : t.lfree = front sizeofStructMem segs) :
    t.Holds segs :=
  ⟨hl.run, hl.last, hl.merged, hl.sizes, hlfree, hl.usedMem, hl.memSize⟩

/-- The lowest free block is all that is left to store. -/
theorem Heap.Lays.setLfree (hl : t.Lays segs) {x : ℕ} (hx : x = front sizeofStructMem segs) :
    ({ t with lfree := x } : Heap).Holds segs
      ∧ ({ t with lfree := x } : Heap).memSizeAligned = t.memSizeAligned := by
  obtain ⟨q, hrun⟩ := hl.run
  exact ⟨⟨⟨q, Heap.Run.congr hrun fun _ _ _ => rfl⟩, hl.last, hl.merged, hl.sizes, hx, hl.usedMem,
    hl.memSize⟩, rfl⟩

/-- **A block taken**, before `lfree` is stored. -/
theorem takeBlock_lays (hh : h.Holds (pre ++ ⟨m, false⟩ :: post)) :
    (takeBlock h (request size) (Segments.total sizeofStructMem pre)).Lays
        (pre ++ (carve sizeofStructMem minSizeAligned (request size) m ++ post))
      ∧ (takeBlock h (request size) (Segments.total sizeofStructMem pre)).lfree = h.lfree
      ∧ (takeBlock h (request size) (Segments.total sizeofStructMem pre)).memSizeAligned
        = h.memSizeAligned := by
  obtain ⟨hleast, hmax⟩ := hh.memSize
  obtain ⟨q, hrun⟩ := hh.run
  obtain ⟨⟨q', htrun⟩, htlast, htlfree, htsize, htused⟩ :=
    takeBlock_run hrun hh.last (by omega) (n := request size)
  generalize takeBlock h (request size) (Segments.total sizeofStructMem pre) = t
    at htrun htlast htlfree htsize htused
  have htend : t.heapEnd = h.heapEnd := by
    rw [Heap.heapEnd, htsize]
    rfl
  have hcarve := carve_sizes (m := m) ⟨le_request size, request_dvd size⟩
    (hh.sizes ⟨m, false⟩ (by simp))
  have hsizes : ∀ s ∈ pre ++ (carve sizeofStructMem minSizeAligned (request size) m ++ post),
      minSizeAligned ≤ s.size ∧ 4 ∣ s.size := by
    intro s hs
    rcases List.mem_append.mp hs with hs | hs
    · exact hh.sizes s (List.mem_append_left _ hs)
    · rcases List.mem_append.mp hs with hs | hs
      · exact hcarve s hs
      · exact hh.sizes s (List.mem_append_right _ (List.mem_cons_of_mem _ hs))
  have hused : t.usedMem = usedBytes (pre
      ++ (carve sizeofStructMem minSizeAligned (request size) m ++ post)) := by
    rw [htused, hh.usedMem]
    simp only [usedBytes_append, usedBytes_free]
    omega
  refine ⟨⟨⟨q', ?_⟩, ?_, hh.merged.carve, hsizes, hused, ?_⟩, htlfree, htsize⟩
  · rw [htend]
    exact htrun
  · rw [htend]
    exact htlast
  · rw [htend, htsize]
    exact ⟨hleast, hmax⟩

/-- **The call that takes a block**: `lfree` is stored again where it was the
block taken, which is the one behind the used ones in front. -/
theorem rtMalloc_taken {low mid : List Seg} (hh : h.Holds (low ++ mid ++ ⟨m, false⟩ :: post))
    (hlow : ∀ s ∈ low, s.used = true) (hlfree : h.lfree = Segments.total sizeofStructMem low)
    (hmid : mid = [] ∨ ∃ k rest, mid = ⟨k, false⟩ :: rest) (hle : request size ≤ m)
    (hsize : size ≠ 0) (hbig : ¬ h.memSizeAligned < rtAlignWord size)
    (hfind : findBlock h (request size) (h.heapEnd + 1) h.lfree
      = some (some (Segments.total sizeofStructMem (low ++ mid)))) :
    ∃ t, rtMalloc h size
        = some (t, some (Segments.total sizeofStructMem (low ++ mid) + sizeofStructMem))
      ∧ t.Holds (low ++ mid ++ (carve sizeofStructMem minSizeAligned (request size) m ++ post))
      ∧ t.memSizeAligned = h.memSizeAligned := by
  obtain ⟨hlays, htlfree, htsize⟩ := takeBlock_lays hh
  have hcall := rtMalloc_search hsize hbig
  rw [hfind, Option.bind_some] at hcall
  dsimp only at hcall
  generalize takeBlock h (request size) (Segments.total sizeofStructMem (low ++ mid)) = t
    at hlays htlfree htsize hcall
  have hhdr : sizeofStructMem = 12 := rfl
  have htend : t.heapEnd = h.memSizeAligned + sizeofStructMem := by
    rw [Heap.heapEnd, htsize]
  have hroom : Segments.total sizeofStructMem (low ++ mid) + sizeofStructMem + request size
        ≤ t.heapEnd ∧ Segments.total sizeofStructMem (low ++ mid) % 4 = 0 := by
    have hdvd := total_dvd fun s hs => (hh.sizes s (List.mem_append_left _ hs)).2
    have htotal := hh.total
    rw [total_append, total_cons] at htotal
    dsimp only at htotal
    exact ⟨by omega, Nat.mod_eq_zero_of_dvd hdvd⟩
  rw [if_pos hroom] at hcall
  rcases hmid with rfl | ⟨k, rest, rfl⟩
  · -- it is the lowest free block that was taken
    rw [List.append_nil] at hlays hcall ⊢
    have hat : Segments.total sizeofStructMem low = t.lfree := (htlfree.trans hlfree).symm
    obtain ⟨q, htrun⟩ := hlays.run
    obtain ⟨_, -, htrest⟩ := Heap.run_append.mp htrun
    rw [Nat.zero_add] at htrest
    have htcount : (carve sizeofStructMem minSizeAligned (request size) m ++ post).length
        < t.heapEnd + 1 := by
      have hlen := htrest.length
      have hle := length_le_total
        (carve sizeofStructMem minSizeAligned (request size) m ++ post)
      omega
    rw [if_pos hat, ← hat, nextFree_run htrest htcount, Option.map_some] at hcall
    obtain ⟨hholds, hkept⟩ := hlays.setLfree (front_append hlow).symm
    exact ⟨_, hcall, hholds, hkept.trans htsize⟩
  · -- the lowest free block stays
    have hat : Segments.total sizeofStructMem (low ++ ⟨k, false⟩ :: rest) ≠ t.lfree := by
      rw [htlfree, hlfree, total_append, total_cons]
      omega
    rw [if_neg hat] at hcall
    refine ⟨t, hcall, hlays.holds ?_, htsize⟩
    rw [htlfree, hlfree, List.append_assoc, front_append hlow, List.cons_append,
      front_free, Nat.add_zero]

/-- **`rt_malloc`** carves up the first free segment that is large enough, or
finds none but a last one without a byte to spare. It always returns. -/
theorem rtMalloc_holds (hh : h.Holds segs) (hsize : size ≠ 0) :
    (∃ pre m post t, segs = pre ++ ⟨m, false⟩ :: post ∧ request size ≤ m
        ∧ ¬ (post = [] ∧ m = request size) ∧ (∀ s ∈ pre, ¬ Fits (request size) s)
        ∧ rtMalloc h size = some (t, some (Segments.total sizeofStructMem pre + sizeofStructMem))
        ∧ t.Holds (pre ++ (carve sizeofStructMem minSizeAligned (request size) m ++ post))
        ∧ t.memSizeAligned = h.memSizeAligned)
      ∨ (∀ pre s post, segs = pre ++ s :: post → Fits (request size) s →
          post = [] ∧ s.size = request size)
        ∧ rtMalloc h size = some (h, none) := by
  have htotal := hh.total
  have hhdr : sizeofStructMem = 12 := rfl
  have hmin : minSizeAligned = 12 := rfl
  have hend : h.heapEnd = h.memSizeAligned + sizeofStructMem := rfl
  obtain ⟨hleast, hmax⟩ := hh.memSize
  obtain ⟨q, hrun⟩ := hh.run
  by_cases hbig : h.memSizeAligned < rtAlignWord size
  · refine .inr ⟨?_, ?_⟩
    · intro pre s post heq hfits
      have hlen := congrArg (Segments.total sizeofStructMem) heq
      rw [total_append, total_cons] at hlen
      obtain ⟨-, hle⟩ := hfits
      have hreq : rtAlignWord size ≤ request size := by
        unfold request
        split_ifs <;> omega
      omega
    · exact rtMalloc_big hsize hbig
  · have hfitsMem : request size ≤ h.memSizeAligned := by
      unfold request
      split_ifs <;> omega
    obtain ⟨low, rest, rfl, hlow, hlfree, hrest⟩ := hh.lowest
    obtain ⟨q', hlowRun, hrestRun⟩ := Heap.run_append.mp hrun
    rw [Nat.zero_add, ← hlfree] at hrestRun
    have hcount : rest.length < h.heapEnd + 1 := by
      have hlen := length_le_total rest
      rw [total_append] at htotal
      omega
    rcases findBlock_run hrestRun hfitsMem (by omega) hcount with
      ⟨mid, s, post, rfl, hfits, hnot, hfirst, hfind⟩ | ⟨hnone, hfind⟩
    · refine .inl ?_
      obtain ⟨m, used⟩ := s
      obtain ⟨hfree, hle⟩ := hfits
      obtain rfl : used = false := hfree
      have hlen : h.lfree + Segments.total sizeofStructMem mid
          = Segments.total sizeofStructMem (low ++ mid) := by
        rw [total_append, hlfree]
      have hmid : mid = [] ∨ ∃ k rest, mid = ⟨k, false⟩ :: rest := by
        cases mid with
        | nil => exact .inl rfl
        | cons s mid =>
            rcases hrest with hnil | ⟨k, rest, heq⟩
            · exact absurd hnil (by simp)
            · obtain ⟨rfl, -⟩ := List.cons.inj heq
              exact .inr ⟨k, mid, rfl⟩
      rw [← List.append_assoc] at hh
      rw [hlen] at hfind
      obtain ⟨t, hcall, hholds, htsize⟩ :=
        rtMalloc_taken hh hlow hlfree hmid hle hsize hbig hfind
      refine ⟨low ++ mid, m, post, t, by simp, hle, hnot, ?_, hcall, hholds, htsize⟩
      intro s hs
      rcases List.mem_append.mp hs with hs | hs
      · exact fun hfits => absurd (hlow s hs) (by rw [hfits.1]; simp)
      · exact hfirst s hs
    · refine .inr ⟨?_, ?_⟩
      · intro pre s post heq hfits
        -- it is not one of those in front of `lfree`
        rcases List.append_eq_append_iff.mp heq with ⟨mid, hpre, hrest'⟩ | ⟨mid, hlow', hpost⟩
        · exact hnone mid s post hrest' hfits
        · cases mid with
          | nil =>
              rw [List.nil_append] at hpost
              exact hnone [] s post hpost.symm hfits
          | cons u mid =>
              obtain ⟨rfl, -⟩ := List.cons.inj hpost
              have hs := hlow s (by rw [hlow']; simp)
              exact absurd hs (by rw [hfits.1]; simp)
      · rw [rtMalloc_search hsize hbig, hfind]
        rfl

/-! ## `rt_free` -/

/-- A free block between these, the lowest free block stored and all. -/
structure Heap.Freed (h : Heap) (pre : List Seg) (m : ℕ) (post : List Seg) : Prop where
  run : ∃ q, h.Run 0 0 (pre ++ ⟨m, false⟩ :: post) q h.heapEnd
  last : (h.mem h.heapEnd).used = true
  lfree : h.lfree = front sizeofStructMem (pre ++ ⟨m, false⟩ :: post)

/-- What `plug_holes` leaves alone. -/
structure Heap.Same (h t : Heap) : Prop where
  lfree : t.lfree = h.lfree
  memSize : t.memSizeAligned = h.memSizeAligned
  usedMem : t.usedMem = h.usedMem

theorem Heap.Same.refl (h : Heap) : h.Same h := ⟨rfl, rfl, rfl⟩

/-- What either half of `plug_holes` stores: the block at `a` ends where the
next one did. -/
theorem joined_run {p q a k : ℕ} (ha : a = Segments.total sizeofStructMem pre)
    (hpre : h.Run 0 0 pre p a) (hblocks : h.Run p a (⟨k, false⟩ :: ⟨m, false⟩ :: post) q h.heapEnd)
    (hlast : (h.mem h.heapEnd).used = true) :
    let next := a + sizeofStructMem + k + sizeofStructMem + m
    (∃ q', ((h.setNext a next).setPrev next a).Run 0 0
        (pre ++ ⟨k + sizeofStructMem + m, false⟩ :: post) q' h.heapEnd)
      ∧ (((h.setNext a next).setPrev next a).mem h.heapEnd).used = true
      ∧ h.Same ((h.setNext a next).setPrev next a) := by
  intro next
  obtain ⟨q', hjoin⟩ := hblocks.join
  have hhdr : sizeofStructMem = 12 := rfl
  have hnext : next = a + sizeofStructMem + k + sizeofStructMem + m := rfl
  have hlen := hblocks.length
  simp only [total_cons] at hlen
  subst ha
  refine ⟨⟨q', hpre.replace ?_ hjoin⟩, ?_, rfl, rfl, rfl⟩
  · intro x hlt
    rw [Heap.setPrev, Heap.set_mem_ne (by omega), Heap.setNext, Heap.set_mem_ne (by omega)]
  · rw [Heap.setPrev]
    by_cases heq : h.heapEnd = next
    · rw [← heq, Heap.set_mem_self, Heap.setNext, Heap.set_mem_ne (by omega)]
      exact hlast
    · rw [Heap.set_mem_ne heq, Heap.setNext, Heap.set_mem_ne (by omega)]
      exact hlast

/-- **`plug_holes` forward.** -/
theorem plugForward_freed (hf : h.Freed pre m post) :
    (∃ q, (plugForward h (Segments.total sizeofStructMem pre)).Run 0 0
        (pre ++ ⟨(mergeNext sizeofStructMem m post).1, false⟩
          :: (mergeNext sizeofStructMem m post).2) q h.heapEnd)
      ∧ ((plugForward h (Segments.total sizeofStructMem pre)).mem h.heapEnd).used = true
      ∧ h.Same (plugForward h (Segments.total sizeofStructMem pre)) := by
  obtain ⟨q, hrun⟩ := hf.run
  have hlow : h.lfree ≤ Segments.total sizeofStructMem pre := by
    rw [hf.lfree]
    exact front_le_free
  obtain ⟨q', hpre, hblock⟩ := Heap.run_append.mp hrun
  rw [Nat.zero_add] at hpre hblock
  set a := Segments.total sizeofStructMem pre with ha
  have hhdr : sizeofStructMem = 12 := rfl
  have hnext : (h.mem a).next = a + sizeofStructMem + m := hblock.1.next
  -- without a free block behind it nothing happens
  have hstay : ¬ ((h.mem (a + sizeofStructMem + m)).used = false
      ∧ a + sizeofStructMem + m ≠ h.heapEnd) → plugForward h a = h := by
    intro hno
    unfold plugForward
    dsimp only
    rw [hnext, if_neg]
    exact fun hall => hno hall.2
  cases post with
  | nil =>
      have hend : a + sizeofStructMem + m = h.heapEnd := hblock.2.2.symm
      rw [hstay (fun hno => hno.2 hend)]
      exact ⟨⟨q, hrun⟩, hf.last, Heap.Same.refl h⟩
  | cons s post =>
      obtain ⟨k, used⟩ := s
      have hof := hblock.2.1
      cases used with
      | true =>
          have hused : (h.mem (a + sizeofStructMem + m)).used = true := hof.used
          rw [hstay (fun hno => absurd (hused.symm.trans hno.1) (by simp))]
          exact ⟨⟨q, hrun⟩, hf.last, Heap.Same.refl h⟩
      | false =>
          have hlen := hblock.length
          simp only [total_cons] at hlen
          have hnext' : (h.mem (a + sizeofStructMem + m)).next
              = a + sizeofStructMem + m + sizeofStructMem + k := hof.next
          have hgo : plugForward h a
              = (h.setNext a (a + sizeofStructMem + m + sizeofStructMem + k)).setPrev
                (a + sizeofStructMem + m + sizeofStructMem + k) a := by
            unfold plugForward
            dsimp only
            rw [hnext, if_pos ⟨by omega, hof.used, by omega⟩, if_neg (by omega), hnext']
          rw [hgo]
          exact joined_run ha hpre hblock hf.last

/-- **`plug_holes` backward.** -/
theorem plugBackward_freed (hf : h.Freed pre m post) :
    (∃ q, (plugBackward h (Segments.total sizeofStructMem pre)).Run 0 0
        ((mergePrev sizeofStructMem m pre).1
          ++ ⟨(mergePrev sizeofStructMem m pre).2, false⟩ :: post) q h.heapEnd)
      ∧ ((plugBackward h (Segments.total sizeofStructMem pre)).mem h.heapEnd).used = true
      ∧ h.Same (plugBackward h (Segments.total sizeofStructMem pre)) := by
  obtain ⟨q, hrun⟩ := hf.run
  obtain ⟨q', hpre, hblock⟩ := Heap.run_append.mp hrun
  rw [Nat.zero_add] at hpre hblock
  have hhdr : sizeofStructMem = 12 := rfl
  have hprev : (h.mem (Segments.total sizeofStructMem pre)).prev = q' := hblock.1.prev
  cases pre using List.reverseRecOn with
  | nil =>
      have hq : q' = 0 := hpre.1
      have hstay : plugBackward h (Segments.total sizeofStructMem []) = h := by
        unfold plugBackward
        dsimp only
        rw [hprev, hq, if_neg]
        exact fun hno => hno.1 rfl
      rw [hstay]
      exact ⟨⟨q, hrun⟩, hf.last, Heap.Same.refl h⟩
  | append_singleton pre s =>
      obtain ⟨j, used⟩ := s
      have hq := hpre.last
      rw [Nat.zero_add] at hq
      obtain ⟨p, hfront, hlast, -⟩ := Heap.run_append.mp hpre
      rw [Nat.zero_add] at hfront hlast
      rw [total_append, total_cons, total_nil] at hprev hblock
      rw [total_append, total_cons, total_nil]
      cases used with
      | true =>
          have hstay : plugBackward h
              (Segments.total sizeofStructMem pre + (sizeofStructMem + j + 0)) = h := by
            unfold plugBackward
            dsimp only
            rw [hprev, hq, if_neg]
            exact fun hno => absurd (hlast.used.symm.trans hno.2) (by simp)
          rw [hstay, mergePrev_used]
          exact ⟨⟨q, hrun⟩, hf.last, Heap.Same.refl h⟩
      | false =>
          set b := Segments.total sizeofStructMem pre with hb
          have hlow : h.lfree ≤ b := by
            have hlfree := hf.lfree
            rw [List.append_assoc] at hlfree
            rw [hlfree]
            exact front_le_free
          have hnext : (h.mem (b + (sizeofStructMem + j + 0))).next
              = b + (sizeofStructMem + j + 0) + sizeofStructMem + m := hblock.1.next
          have hsum : b + (sizeofStructMem + j + 0) + sizeofStructMem + m
              = b + sizeofStructMem + j + sizeofStructMem + m := by omega
          have hgo : plugBackward h (b + (sizeofStructMem + j + 0))
              = (h.setNext b (b + sizeofStructMem + j + sizeofStructMem + m)).setPrev
                (b + sizeofStructMem + j + sizeofStructMem + m) b := by
            unfold plugBackward
            dsimp only
            rw [hprev, hq, if_pos ⟨by omega, hlast.used⟩, if_neg (by omega), hnext, hsum]
          have hboth : h.Run p b (⟨j, false⟩ :: ⟨m, false⟩ :: post) q h.heapEnd := by
            rw [List.append_assoc] at hrun
            obtain ⟨p', hfront', hrest⟩ := Heap.run_append.mp hrun
            rw [Nat.zero_add] at hrest
            obtain ⟨hof, hrest⟩ := hrest
            exact ⟨hlast, hrest⟩
          rw [hgo, mergePrev_free]
          exact joined_run hb hfront hboth hf.last

/-- `rt_free` up to `plug_holes`. -/
theorem rtFree_mark (hh : h.Holds (pre ++ ⟨m, true⟩ :: post)) :
    ∃ t, rtFree h (Segments.total sizeofStructMem pre + sizeofStructMem)
        = some (plugHoles t (Segments.total sizeofStructMem pre))
      ∧ t.Freed pre m post ∧ t.memSizeAligned = h.memSizeAligned
      ∧ t.usedMem = usedBytes pre + usedBytes post := by
  have htotal := hh.total
  have hhdr : sizeofStructMem = 12 := rfl
  have hend : h.heapEnd = h.memSizeAligned + sizeofStructMem := rfl
  obtain ⟨-, hmax⟩ := hh.memSize
  have hused := hh.usedMem
  have hbytes := (usedBytes_le (pre ++ ⟨m, true⟩ :: post)).trans_eq htotal
  rw [usedBytes_append, usedBytes_used] at hused hbytes
  obtain ⟨q, hrun⟩ := hh.run
  obtain ⟨q', hpre, hblock⟩ := Heap.run_append.mp hrun
  rw [Nat.zero_add] at hpre hblock
  rw [total_append, total_cons] at htotal
  dsimp only at htotal
  have hof := hblock.1
  have hdvd := total_dvd fun s hs => (hh.sizes s (List.mem_append_left _ hs)).2
  set a := Segments.total sizeofStructMem pre with ha
  have hback : a + sizeofStructMem - sizeofStructMem = a := Nat.add_sub_cancel ..
  have hnext : ((h.setUsed a false).mem a).next = a + sizeofStructMem + m := by
    rw [Heap.setUsed, Heap.set_mem_self]
    exact hof.next
  have hguard : (a + sizeofStructMem) % 4 = 0 ∧ a + sizeofStructMem < h.heapEnd
      ∧ (h.mem a).used = true ∧ (h.mem a).magic = heapMagic
      ∧ sizeofStructMem ≤ a + sizeofStructMem := by
    obtain ⟨hleast, -⟩ := hh.sizes ⟨m, true⟩ (by simp)
    have hmin : minSizeAligned = 12 := rfl
    dsimp only at hleast
    exact ⟨by omega, by omega, hof.used, hof.magic, Nat.le_add_left ..⟩
  have hfront : (if a < h.lfree then a else h.lfree)
      = front sizeofStructMem (pre ++ ⟨m, false⟩ :: post) := by
    rw [hh.lfree]
    rcases all_used_or_free pre with hall | ⟨low, k, rest, rfl, hlow⟩
    · have hbehind : front sizeofStructMem (pre ++ ⟨m, true⟩ :: post)
          = a + front sizeofStructMem (⟨m, true⟩ :: post) := front_append hall
      have hone : front sizeofStructMem ([⟨m, true⟩] ++ post)
          = Segments.total sizeofStructMem [⟨m, true⟩] + front sizeofStructMem post :=
        front_append (by simp)
      rw [List.singleton_append, total_cons, total_nil] at hone
      have hat : front sizeofStructMem (pre ++ ⟨m, false⟩ :: post) = a := by
        rw [front_append hall, front_free, Nat.add_zero]
      have hbeyond : a < front sizeofStructMem (pre ++ ⟨m, true⟩ :: post) := by
        rw [hbehind, hone]
        omega
      rw [hat, if_pos hbeyond]
    · have hbelow : Segments.total sizeofStructMem low < a := by
        rw [ha, total_append, total_cons]
        omega
      rw [List.append_assoc, List.append_assoc, front_append hlow, front_append hlow,
        List.cons_append, List.cons_append, front_free, front_free, if_neg (by omega)]
  refine ⟨{ h.setUsed a false with
    lfree := if a < h.lfree then a else h.lfree
    usedMem := usedBytes pre + usedBytes post }, ?_, ⟨⟨q, ?_⟩, ?_, hfront⟩, rfl, rfl⟩
  · have hsub : sub32 h.usedMem (sub32 (a + sizeofStructMem + m) a)
        = usedBytes pre + usedBytes post := by
      rw [sub32_of_le (by omega : a ≤ a + sizeofStructMem + m) (by omega), hused,
        sub32_of_le (by omega) (by omega)]
      omega
    rw [rtFree, hback, if_pos hguard]
    dsimp only
    by_cases hlow : a < h.lfree
    · rw [if_pos (show a < (h.setUsed a false).lfree from hlow), if_pos hlow, hnext]
      exact congrArg (fun n => some (plugHoles { h.setUsed a false with
        lfree := a, usedMem := n } a)) hsub
    · rw [if_neg (show ¬ a < (h.setUsed a false).lfree from hlow), if_neg hlow, hnext]
      exact congrArg (fun n => some (plugHoles { h.setUsed a false with usedMem := n } a)) hsub
  · refine Heap.Run.congr (h := h.setUsed a false) ?_ fun _ _ _ => rfl
    exact hpre.replace (fun x hlt => Heap.set_mem_ne (by omega) _) (hblock.setUsed false)
  · show ((h.setUsed a false).mem h.heapEnd).used = true
    rw [Heap.setUsed, Heap.set_mem_ne (by omega)]
    exact hh.last

/-- The blocks after a release are blocks. -/
theorem release_sizes
    (hsizes : ∀ s ∈ pre ++ ⟨m, true⟩ :: post, minSizeAligned ≤ s.size ∧ 4 ∣ s.size) :
    ∀ s ∈ release sizeofStructMem pre m post, minSizeAligned ≤ s.size ∧ 4 ∣ s.size := by
  have hhdr : sizeofStructMem = 12 := rfl
  have hpre : ∀ s ∈ pre, minSizeAligned ≤ s.size ∧ 4 ∣ s.size :=
    fun s hs => hsizes s (List.mem_append_left _ hs)
  have hpost : ∀ s ∈ post, minSizeAligned ≤ s.size ∧ 4 ∣ s.size :=
    fun s hs => hsizes s (by simp [hs])
  obtain ⟨hleast, hdvd⟩ := hsizes ⟨m, true⟩ (by simp)
  dsimp only at hleast hdvd
  -- the block with what is behind it
  have hnext : (minSizeAligned ≤ (mergeNext sizeofStructMem m post).1
      ∧ 4 ∣ (mergeNext sizeofStructMem m post).1)
      ∧ ∀ s ∈ (mergeNext sizeofStructMem m post).2, minSizeAligned ≤ s.size ∧ 4 ∣ s.size := by
    unfold mergeNext
    split
    next k post =>
      obtain ⟨-, hk⟩ := hpost ⟨k, false⟩ (by simp)
      dsimp only at hk ⊢
      refine ⟨⟨by omega, by omega⟩, fun s hs => hpost s (List.mem_cons_of_mem _ hs)⟩
    next => exact ⟨⟨hleast, hdvd⟩, hpost⟩
  unfold release
  dsimp only
  generalize mergeNext sizeofStructMem m post = next at hnext
  obtain ⟨⟨hleast', hdvd'⟩, hrest⟩ := hnext
  -- and with what is in front of it
  have hprev : (minSizeAligned ≤ (mergePrev sizeofStructMem next.1 pre).2
      ∧ 4 ∣ (mergePrev sizeofStructMem next.1 pre).2)
      ∧ ∀ s ∈ (mergePrev sizeofStructMem next.1 pre).1, minSizeAligned ≤ s.size ∧ 4 ∣ s.size := by
    cases pre using List.reverseRecOn with
    | nil => exact ⟨⟨hleast', hdvd'⟩, hpre⟩
    | append_singleton pre s =>
        obtain ⟨j, used⟩ := s
        obtain ⟨-, hj⟩ := hpre ⟨j, used⟩ (by simp)
        dsimp only at hj
        cases used with
        | false =>
            rw [mergePrev_free]
            refine ⟨⟨by omega, by omega⟩, fun s hs => hpre s (List.mem_append_left _ hs)⟩
        | true =>
            rw [mergePrev_used]
            exact ⟨⟨hleast', hdvd'⟩, hpre⟩
  intro s hs
  rcases List.mem_append.mp hs with hs | hs
  · exact hprev.2 s hs
  · rcases List.mem_cons.mp hs with rfl | hs
    · exact hprev.1
    · exact hrest s hs

theorem usedBytes_release : usedBytes (release sizeofStructMem pre m post)
    = usedBytes pre + usedBytes post := by
  have hnext : usedBytes (mergeNext sizeofStructMem m post).2 = usedBytes post := by
    unfold mergeNext
    split
    · exact (usedBytes_free _ _).symm
    · rfl
  have hprev : ∀ k, usedBytes (mergePrev sizeofStructMem k pre).1 = usedBytes pre := by
    intro k
    cases pre using List.reverseRecOn with
    | nil => rfl
    | append_singleton pre s =>
        obtain ⟨j, used⟩ := s
        cases used with
        | false =>
            rw [mergePrev_free, usedBytes_append, usedBytes_free]
            rfl
        | true => rw [mergePrev_used]
  unfold release
  rw [usedBytes_append, usedBytes_free, hprev, hnext]

/-- **`rt_free`** gives the block back and merges it with its neighbours. -/
theorem rtFree_holds (hh : h.Holds (pre ++ ⟨m, true⟩ :: post)) :
    ∃ t, rtFree h (Segments.total sizeofStructMem pre + sizeofStructMem) = some t
      ∧ t.Holds (release sizeofStructMem pre m post) ∧ t.memSizeAligned = h.memSizeAligned := by
  obtain ⟨t, hcall, hfreed, htsize, htused⟩ := rtFree_mark hh
  obtain ⟨⟨q, hrun⟩, hlast, hsame⟩ := plugForward_freed hfreed
  have htend : t.heapEnd = h.heapEnd := by rw [Heap.heapEnd, htsize]; rfl
  rw [plugHoles] at hcall
  generalize plugForward t (Segments.total sizeofStructMem pre) = u at hcall hrun hlast hsame
  have huend : u.heapEnd = t.heapEnd := by rw [Heap.heapEnd, hsame.memSize]; rfl
  have hunext : u.Freed pre (mergeNext sizeofStructMem m post).1
      (mergeNext sizeofStructMem m post).2 := by
    refine ⟨⟨q, huend ▸ hrun⟩, huend ▸ hlast, ?_⟩
    rw [hsame.lfree, hfreed.lfree]
    rcases all_used_or_free pre with hall | ⟨low, k, rest, rfl, hlow⟩
    · rw [front_append hall, front_append hall, front_free, front_free]
    · rw [List.append_assoc, List.append_assoc, front_append hlow, front_append hlow,
        List.cons_append, List.cons_append, front_free, front_free]
  obtain ⟨⟨q', hrun'⟩, hlast', hsame'⟩ := plugBackward_freed hunext
  generalize plugBackward u (Segments.total sizeofStructMem pre) = v
    at hcall hrun' hlast' hsame'
  have hvend : v.heapEnd = u.heapEnd := by rw [Heap.heapEnd, hsame'.memSize]; rfl
  have hvsize : v.memSizeAligned = h.memSizeAligned := by
    rw [hsame'.memSize, hsame.memSize, htsize]
  have hmem : minSizeAligned ≤ v.memSizeAligned ∧ v.heapEnd + sizeofStructMem < 2 ^ 32 := by
    rw [hvsize, hvend, huend, htend]
    exact hh.memSize
  refine ⟨v, hcall, ⟨⟨q', hvend ▸ hrun'⟩, hvend ▸ hlast', hh.merged.release,
    release_sizes hh.sizes, ?_, ?_, hmem⟩, hvsize⟩
  · rw [hsame'.lfree, hsame.lfree, hfreed.lfree, front_release]
  · rw [hsame'.usedMem, hsame.usedMem, htused, usedBytes_release]

/-- What `rt_memset` leaves alone. -/
theorem rtMemset_frame {p count : ℕ} (hs : rtMemset h p count = some t) :
    t.lfree = h.lfree ∧ t.memSizeAligned = h.memSizeAligned ∧ t.usedMem = h.usedMem
      ∧ ∀ x, x < p ∨ p + count ≤ x → t.mem x = h.mem x := by
  obtain ⟨-, hs⟩ := Option.ite_none_right_eq_some.mp hs
  obtain rfl := Option.some.inj hs
  refine ⟨rfl, rfl, rfl, ?_⟩
  intro x hx
  exact if_neg (by omega)

/-- **Setting bytes of a block to zero** loses no header. -/
theorem rtMemset_holds {count : ℕ} (hh : h.Holds (pre ++ ⟨m, true⟩ :: post)) (hcount : count ≤ m) :
    ∃ t, rtMemset h (Segments.total sizeofStructMem pre + sizeofStructMem) count = some t
      ∧ t.Holds (pre ++ ⟨m, true⟩ :: post) ∧ t.memSizeAligned = h.memSizeAligned := by
  obtain ⟨q, hrun⟩ := hh.run
  have htotal := hh.total
  rw [total_append, total_cons] at htotal
  dsimp only at htotal
  have hhdr : sizeofStructMem = 12 := rfl
  have hend : h.heapEnd = h.memSizeAligned + sizeofStructMem := rfl
  obtain ⟨t, ht⟩ : ∃ t,
      rtMemset h (Segments.total sizeofStructMem pre + sizeofStructMem) count = some t :=
    ⟨_, if_pos (by omega)⟩
  obtain ⟨hlfree, hsize, hused, hmem⟩ := rtMemset_frame ht
  have htend : t.heapEnd = h.heapEnd := by rw [Heap.heapEnd, hsize]; rfl
  obtain ⟨q', hpre, hof, hpost⟩ := Heap.run_append.mp hrun
  rw [Nat.zero_add] at hpre hof hpost
  refine ⟨t, ht, ⟨⟨q, ?_⟩, ?_, hh.merged, hh.sizes, hlfree.trans hh.lfree,
    hused.trans hh.usedMem, ?_⟩, hsize⟩
  · rw [htend]
    refine Heap.Run.replace hpre ?_ ⟨?_, hpost.congr ?_⟩
    · intro x hx
      exact hmem x (by omega)
    · rw [hmem _ (by omega)]
      exact hof
    · intro x hx _
      dsimp only at hx
      exact hmem x (by omega)
  · rw [htend, hmem _ (by omega)]
    exact hh.last
  · rw [htend, hsize]
    exact hh.memSize

end Holds

end DiffCar
