import Mathlib.Algebra.BigOperators.Group.List.Basic
import Mathlib.Algebra.Ring.Nat
import Mathlib.Data.List.Chain
import Mathlib.Data.List.TakeWhile

/-!
# An interval cut into segments

An interval of memory is cut into segments, each with a header of `hdr` bytes
in front; a segment is used or free. A free segment is carved up for a
request, and a segment that is given back is merged with the free ones next
to it, so that no two free segments are ever neighbours (`Merged`).
-/

namespace Segments

/-- A segment: the bytes behind its header. -/
structure Seg where
  size : ℕ
  used : Bool
deriving DecidableEq

variable {hdr least n m : ℕ} {pre post segs : List Seg}

/-- The length of the interval. -/
def total (hdr : ℕ) (segs : List Seg) : ℕ := (segs.map fun s => hdr + s.size).sum

@[simp] theorem total_nil : total hdr [] = 0 := rfl

@[simp] theorem total_cons (s : Seg) : total hdr (s :: segs) = hdr + s.size + total hdr segs := by
  simp [total]

@[simp] theorem total_append : total hdr (pre ++ post) = total hdr pre + total hdr post := by
  simp [total]

/-- Of two neighbours one is used. -/
def Merged (segs : List Seg) : Prop := segs.IsChain fun a b => a.used = true ∨ b.used = true

/-! ## The lowest free segment -/

/-- Where the lowest free segment begins, or where the interval ends. -/
def front (hdr : ℕ) (segs : List Seg) : ℕ := total hdr (segs.takeWhile (·.used))

/-- It is behind segments that are all used. -/
theorem front_append (hpre : ∀ s ∈ pre, s.used = true) :
    front hdr (pre ++ post) = total hdr pre + front hdr post := by
  rw [front, List.takeWhile_append_of_pos hpre, total_append]
  rfl

theorem front_free : front hdr (⟨m, false⟩ :: post) = 0 := by
  simp [front]

/-- Either all segments are used, or there is a first free one. -/
theorem all_used_or_free (segs : List Seg) : (∀ s ∈ segs, s.used = true)
    ∨ ∃ pre m post, segs = pre ++ ⟨m, false⟩ :: post ∧ ∀ s ∈ pre, s.used = true := by
  induction segs with
  | nil => exact .inl fun _ h => absurd h List.not_mem_nil
  | cons s segs ih =>
      obtain ⟨m, used⟩ := s
      cases used with
      | false => exact .inr ⟨[], m, segs, rfl, fun _ h => absurd h List.not_mem_nil⟩
      | true =>
          rcases ih with hall | ⟨pre, k, post, rfl, hpre⟩
          · refine .inl ?_
            intro s hs
            rcases List.mem_cons.mp hs with rfl | hs
            · rfl
            · exact hall s hs
          · refine .inr ⟨⟨m, true⟩ :: pre, k, post, rfl, ?_⟩
            intro s hs
            rcases List.mem_cons.mp hs with rfl | hs
            · rfl
            · exact hpre s hs

/-- No free segment is below the lowest. -/
theorem front_le_free : front hdr (pre ++ ⟨m, false⟩ :: post) ≤ total hdr pre := by
  rcases all_used_or_free pre with hall | ⟨low, k, rest, rfl, hlow⟩
  · rw [front_append hall, front_free, Nat.add_zero]
  · rw [List.append_assoc, front_append hlow, List.cons_append, front_free, total_append]
    omega

/-! ## Taking -/

/-- A free segment of `m` bytes after a request of `n`: the rest is a segment
of its own if it has room for a header and `least` bytes. -/
def carve (hdr least n m : ℕ) : List Seg :=
  if n + hdr + least ≤ m then [⟨n, true⟩, ⟨m - (n + hdr), false⟩] else [⟨m, true⟩]

/-- **Taking from a free segment keeps the others apart.** -/
theorem Merged.carve (h : Merged (pre ++ ⟨m, false⟩ :: post)) :
    Merged (pre ++ (Segments.carve hdr least n m ++ post)) := by
  obtain ⟨hpre, hfree, -⟩ := List.isChain_append.mp h
  obtain ⟨hnext, hpost⟩ := List.isChain_cons.mp hfree
  -- what stands behind the free segment is used
  have hused : ∀ y ∈ post.head?, y.used = true := by
    intro y hy
    rcases hnext y hy with hfalse | hy
    · exact absurd hfalse Bool.false_ne_true
    · exact hy
  unfold Segments.carve
  by_cases hroom : n + hdr + least ≤ m
  · rw [if_pos hroom]
    refine List.isChain_append.mpr ⟨hpre, ?_, ?_⟩
    · refine List.isChain_cons.mpr ⟨fun _ _ => .inl rfl, List.isChain_cons.mpr ⟨?_, hpost⟩⟩
      exact fun y hy => .inr (hused y hy)
    · intro x _ y hy
      obtain rfl := Option.some.inj hy
      exact .inr rfl
  · rw [if_neg hroom]
    refine List.isChain_append.mpr ⟨hpre, ?_, ?_⟩
    · exact List.isChain_cons.mpr ⟨fun _ _ => .inl rfl, hpost⟩
    · intro x _ y hy
      obtain rfl := Option.some.inj hy
      exact .inr rfl

/-! ## Giving back -/

/-- A free segment of `m` bytes with the free one behind it, and the rest. -/
def mergeNext (hdr m : ℕ) : List Seg → ℕ × List Seg
  | ⟨k, false⟩ :: post => (m + hdr + k, post)
  | post => (m, post)

/-- A free segment of `m` bytes with the free one in front of it. -/
def mergePrev (hdr m : ℕ) (pre : List Seg) : List Seg × ℕ :=
  match pre.getLast? with
  | some ⟨j, false⟩ => (pre.dropLast, j + hdr + m)
  | _ => (pre, m)

/-- The segments after one of `m` bytes is given back. -/
def release (hdr : ℕ) (pre : List Seg) (m : ℕ) (post : List Seg) : List Seg :=
  let next := mergeNext hdr m post
  let prev := mergePrev hdr next.1 pre
  prev.1 ++ ⟨prev.2, false⟩ :: next.2

theorem mergePrev_nil : mergePrev hdr m [] = ([], m) := rfl

theorem mergePrev_free (k : ℕ) : mergePrev hdr m (pre ++ [⟨k, false⟩]) = (pre, k + hdr + m) := by
  simp [mergePrev]

theorem mergePrev_used (k : ℕ) :
    mergePrev hdr m (pre ++ [⟨k, true⟩]) = (pre ++ [⟨k, true⟩], m) := by
  simp [mergePrev]

/-- Merging keeps the lowest free segment where it is. -/
theorem front_release :
    front hdr (release hdr pre m post) = front hdr (pre ++ ⟨m, false⟩ :: post) := by
  unfold release
  dsimp only
  generalize mergeNext hdr m post = next
  rcases all_used_or_free pre with hall | ⟨low, k, rest, rfl, hlow⟩
  · have hprev : mergePrev hdr next.1 pre = (pre, next.1) := by
      cases pre using List.reverseRecOn with
      | nil => rfl
      | append_singleton pre s =>
          obtain ⟨j, used⟩ := s
          obtain rfl : used = true := hall ⟨j, used⟩ (by simp)
          exact mergePrev_used j
    rw [hprev, front_append hall, front_append hall, front_free, front_free]
  · rw [List.append_assoc, front_append hlow, List.cons_append, front_free]
    cases rest using List.reverseRecOn with
    | nil => rw [mergePrev_free, front_append hlow, front_free]
    | append_singleton rest s =>
        rw [← List.cons_append, ← List.append_assoc]
        obtain ⟨j, used⟩ := s
        cases used with
        | false => rw [mergePrev_free, List.append_assoc, front_append hlow, List.cons_append,
            front_free]
        | true => rw [mergePrev_used, List.append_assoc, List.append_assoc, front_append hlow,
            List.cons_append, front_free]

/-- What is left behind the segment begins with a used one. -/
theorem mergeNext_used (hdr : ℕ) (h : Merged (⟨m, true⟩ :: post)) :
    Merged (mergeNext hdr m post).2 ∧ ∀ y ∈ (mergeNext hdr m post).2.head?, y.used = true := by
  obtain ⟨-, hpost⟩ := List.isChain_cons.mp h
  unfold mergeNext
  split
  next k post =>
    obtain ⟨hnext, hpost⟩ := List.isChain_cons.mp hpost
    refine ⟨hpost, ?_⟩
    intro y hy
    rcases hnext y hy with hfalse | hy
    · exact absurd hfalse Bool.false_ne_true
    · exact hy
  next post hne =>
    refine ⟨hpost, ?_⟩
    intro y hy
    obtain ⟨k, used⟩ := y
    cases used with
    | true => rfl
    | false =>
        obtain ⟨rest, rfl⟩ := List.head?_eq_some_iff.mp hy
        exact absurd rfl (hne k rest)

/-- What is left in front of it ends with a used one. -/
theorem mergePrev_last (hdr m : ℕ) (h : Merged pre) :
    Merged (mergePrev hdr m pre).1 ∧ ∀ x ∈ (mergePrev hdr m pre).1.getLast?, x.used = true := by
  cases pre using List.reverseRecOn with
  | nil => exact ⟨h, fun x hx => by simp [mergePrev_nil] at hx⟩
  | append_singleton pre s =>
      obtain ⟨k, used⟩ := s
      cases used with
      | false =>
          rw [mergePrev_free]
          obtain ⟨hpre, -, hlast⟩ := List.isChain_append.mp h
          refine ⟨hpre, ?_⟩
          intro x hx
          rcases hlast x hx ⟨k, false⟩ rfl with hx | hfalse
          · exact hx
          · exact absurd hfalse Bool.false_ne_true
      | true =>
          rw [mergePrev_used]
          refine ⟨h, ?_⟩
          intro x hx
          rw [List.getLast?_concat] at hx
          obtain rfl := Option.some.inj hx
          rfl

/-- **Giving back merges.** -/
theorem Merged.release (h : Merged (pre ++ ⟨m, true⟩ :: post)) :
    Merged (Segments.release hdr pre m post) := by
  obtain ⟨hpre, hused, -⟩ := List.isChain_append.mp h
  obtain ⟨hpost, hfirst⟩ := mergeNext_used hdr hused
  obtain ⟨hfront, hlast⟩ := mergePrev_last hdr (mergeNext hdr m post).1 hpre
  unfold Segments.release
  refine List.isChain_append.mpr ⟨hfront, List.isChain_cons.mpr ⟨?_, hpost⟩, ?_⟩
  · exact fun y hy => .inr (hfirst y hy)
  · exact fun x hx y _ => .inl (hlast x hx)

/-- **When nothing is used there is one segment.** -/
theorem Merged.all_free (h : Merged segs) (hfree : ∀ s ∈ segs, s.used = false) :
    segs.length ≤ 1 := by
  cases segs with
  | nil => exact Nat.zero_le 1
  | cons s segs =>
      cases segs with
      | nil => exact le_rfl
      | cons t segs =>
          obtain ⟨hst, -⟩ := List.isChain_cons_cons.mp h
          rcases hst with hs | ht
          · exact absurd (hs.symm.trans (hfree s (by simp))) Bool.true_eq_false.mp
          · exact absurd (ht.symm.trans (hfree t (by simp))) Bool.true_eq_false.mp

end Segments
