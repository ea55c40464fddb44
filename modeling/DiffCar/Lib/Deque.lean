import DiffCar.Lib.Reach
import Mathlib.Data.List.Induction
import Mathlib.Data.List.Perm.Basic

/-!
# A queue shared by clients

What a queue between the clients `τ` owes them, each operation one step: items
of any type `β` go in at the back or at the front, and the front item goes to
one client. A list of operations runs on it by `Interleave.exec`.
-/

namespace Interleave

variable {τ β : Type*}

/-- The queue, and what it has handed out and to whom. -/
structure Deque (τ β : Type*) where
  queue : List β
  popped : List (τ × β)

/-- Nothing put in yet. -/
def Deque.empty : Deque τ β := ⟨[], []⟩

/-- What it has handed to the client `t`. -/
def Deque.given [DecidableEq τ] (d : Deque τ β) (t : τ) : List β :=
  (d.popped.filter fun p => p.1 = t).map Prod.snd

theorem Deque.given_pop [DecidableEq τ] {d : Deque τ β} {queue : List β} {t : τ} {m : β} :
    (⟨queue, d.popped ++ [(t, m)]⟩ : Deque τ β).given t = d.given t ++ [m] := by
  simp [Deque.given]

theorem Deque.given_pop_of_ne [DecidableEq τ] {d : Deque τ β} {queue : List β} {t u : τ} {m : β}
    (hu : u ≠ t) : (⟨queue, d.popped ++ [(t, m)]⟩ : Deque τ β).given u = d.given u := by
  simp [Deque.given, Ne.symm hu]

/-- An item at the back, an item at the front, or the front item to `t`. -/
inductive DequeOp (τ β : Type*) where
  | append (m : β)
  | prepend (m : β)
  | pop (t : τ)

/-- One operation; an empty queue has nothing to hand out. -/
def Deque.step [DecidableEq τ] (d : Deque τ β) : DequeOp τ β → Option (Deque τ β)
  | .append m => some { d with queue := d.queue ++ [m] }
  | .prepend m => some { d with queue := m :: d.queue }
  | .pop t =>
      match d.queue with
      | [] => none
      | m :: queue => some ⟨queue, d.popped ++ [(t, m)]⟩

/-- The item an operation puts in. -/
def DequeOp.put : DequeOp τ β → Option β
  | .append m => some m
  | .prepend m => some m
  | .pop _ => none

section Deque

variable [DecidableEq τ] {log : List (DequeOp τ β)} {d : Deque τ β}

/-- Without `prepend` the queue is first in, first out. -/
theorem Deque.fifo (h : exec Deque.step Deque.empty log = some d)
    (hurgent : ∀ m, DequeOp.prepend m ∉ log) :
    d.popped.map Prod.snd ++ d.queue = log.filterMap DequeOp.put := by
  induction log using List.reverseRecOn generalizing d with
  | nil =>
      obtain rfl := Option.some.inj h
      rfl
  | append_singleton log op ih =>
      rw [exec_append] at h
      obtain ⟨e, he, h⟩ := Option.bind_eq_some_iff.mp h
      simp only [exec, Option.bind_fun_some] at h
      have heq := ih he fun m hm => hurgent m (List.mem_append_left _ hm)
      rw [List.filterMap_append, ← heq]
      cases op with
      | append m =>
          obtain rfl := Option.some.inj h
          exact (List.append_assoc _ _ _).symm
      | prepend m => exact absurd (by simp) (hurgent m)
      | pop t =>
          simp only [Deque.step] at h
          cases hq : e.queue with
          | nil => simp [hq] at h
          | cons m queue =>
              simp only [hq, Option.some.injEq] at h
              subst h
              have hput : [(DequeOp.pop t : DequeOp τ β)].filterMap DequeOp.put = [] := rfl
              rw [hput, List.append_nil, List.map_append, List.append_assoc]
              rfl

end Deque

end Interleave
