import DiffCar.Lib.Reactive
import Mathlib.Data.List.DropRight

/-!
# Holds — how long a signal has been active

A signal is observed at discrete points. The hold an observation belongs to is
the run of active observations that leads up to it. A detector answers at an
observation once the hold is due there, as a relation `due` between the first
observation of the hold and that one; an observation marked `once` answers only
if no marked one of the hold was due before.

`Expected` says so over the whole past; `step` is the detector that remembers
no more than the first observation of the hold and whether a marked one was
due. `answer_iff` says the two agree, `answers_agree_iff` compares two
detectors of which one is slower than the other.
-/

namespace Hold

variable {ι : Type*}

section Past

variable (active : ι → Bool)

/-- The hold at the end of a past: its trailing run of active observations. -/
def current (past : List ι) : List ι := past.rtakeWhile active

/-- The first observation of the hold that `p` continues, or begins. -/
def first (past : List ι) (p : ι) : ι := (current active past).headD p

variable {active}

theorem current_concat (past : List ι) (p : ι) :
    current active (past ++ [p])
      = if active p then current active past ++ [p] else [] :=
  List.rtakeWhile_concat active past p

/-- Every active observation leaves the hold's first one where it was. -/
theorem head?_current_concat {past : List ι} {p : ι} (hp : active p) :
    (current active (past ++ [p])).head? = some (first active past p) := by
  rw [current_concat, if_pos hp, first]
  cases current active past <;> rfl

end Past

section Detector

variable (active once : ι → Bool) (due : ι → ι → Prop)

/-- What the detector is to answer at `p` after a past. -/
def Expected (past : List ι) (p : ι) : Prop :=
  active p ∧ due (first active past p) p ∧
    (once p → ∀ q ∈ current active past, once q → ¬ due (first active past p) q)

variable [DecidableRel due]

/-- An active observation of the hold that began at `s`, of which a marked
observation was due before or not. -/
def observe (s : ι) (fired : Bool) (p : ι) : Option (ι × Bool) × Bool :=
  (some (s, fired || once p && decide (due s p)),
    decide (due s p) && !(once p && fired))

/-- One observation: the state is the first observation of the hold and
whether a marked one was due. -/
def step (s : Option (ι × Bool)) (p : ι) : Option (ι × Bool) × Bool :=
  if active p then
    match s with
    | none => observe once due p false p
    | some (s, fired) => observe once due s fired p
  else (none, false)

variable {active once due}

theorem step_none {p : ι} (hp : active p) :
    step active once due none p = observe once due p false p := if_pos hp

theorem step_some {s : ι} {fired : Bool} {p : ι} (hp : active p) :
    step active once due (some (s, fired)) p = observe once due s fired p := if_pos hp

theorem step_inactive {s : Option (ι × Bool)} {p : ι} (hp : ¬ active p) :
    step active once due s p = (none, false) := if_neg hp

variable (active once due) in
/-- What the detector answers at `p` after a past. -/
def answer (past : List ι) (p : ι) : Bool :=
  (step active once due (Reactive.final (step active once due) none past) p).2

/-- **What the detector remembers of a past.** -/
theorem final_eq (past : List ι) :
    Reactive.final (step active once due) none past
      = (current active past).head?.map fun s =>
          (s, (current active past).any fun q => once q && decide (due s q)) := by
  induction past using List.reverseRecOn with
  | nil => rfl
  | append_singleton past p ih =>
      rw [Reactive.final_append, ih]
      by_cases hp : active p
      · rw [head?_current_concat hp, current_concat, if_pos hp, first]
        cases current active past with
        | nil => simp [step_none hp, observe]
        | cons s rest => simp [step_some hp, observe, Bool.or_assoc]
      · simp [step_inactive hp, current_concat, hp]

variable (once due) in
theorem first_eq (past : List ι) (p : ι) :
    first active past p
      = ((Reactive.final (step active once due) none past).map Prod.fst).getD p := by
  rw [final_eq, first]
  cases current active past <;> rfl

theorem mem_of_final {past : List ι} {s : ι × Bool}
    (hs : s ∈ Reactive.final (step active once due) none past) : s.1 ∈ past := by
  rw [final_eq, Option.mem_def, Option.map_eq_some_iff] at hs
  obtain ⟨q, hq, rfl⟩ := hs
  exact (List.rtakeWhile_suffix active past).subset (List.mem_of_mem_head? hq)

/-- **The detector answers exactly what is expected** after every past. -/
theorem answer_iff (past : List ι) (p : ι) :
    answer active once due past p = true ↔ Expected active once due past p := by
  rw [answer, final_eq, Expected, first]
  by_cases hp : active p
  · cases current active past with
    | nil => simp [step_none hp, observe, hp]
    | cons s rest =>
        have hfired : ((s :: rest).any fun q => once q && decide (due s q)) = false
            ↔ ∀ q ∈ s :: rest, once q → ¬ due s q := by
          rw [List.any_eq_false]
          simp only [Bool.and_eq_true, decide_eq_true_eq, not_and]
        rw [List.headD_cons, ← hfired]
        simp only [List.head?_cons, Option.map_some, step_some hp, observe, hp]
        generalize ((s :: rest).any fun q => once q && decide (due s q)) = fired
        cases once p <;> cases fired <;> simp
  · simp [step_inactive hp, hp]

end Detector

section Two

variable {active once : ι → Bool} {due due' : ι → ι → Prop} [DecidableRel due]
  [DecidableRel due']

/-- An active observation on which the faster detector answers only what is
due for the slower one too. -/
theorem observe_agree {s : ι} {fired : Bool} {p : ι}
    (hweak : due s p → due' s p)
    (hdue : (observe once due' s fired p).2 = true → due s p) :
    observe once due s fired p = observe once due' s fired p := by
  by_cases hd' : due' s p
  · by_cases hf : once p && fired
    · -- neither answers, and both have fired before
      have hboth : once p = true ∧ fired = true := Bool.and_eq_true_iff.mp hf
      simp [observe, hboth.1, hboth.2]
    · have hd : due s p := hdue (by simp [observe, hd', hf])
      simp only [observe, hd, hd', decide_true]
  · have hd : ¬ due s p := fun hd => hd' (hweak hd)
    simp only [observe, hd, hd', decide_false]

/-- Any observation. -/
theorem step_agree {s : Option (ι × Bool)} {p : ι}
    (hweak : ∀ q r, due q r → due' q r)
    (hdue : (step active once due' s p).2 = true →
      due ((s.map Prod.fst).getD p) p) :
    step active once due s p = step active once due' s p := by
  by_cases hp : active p
  · cases s with
    | none =>
        rw [step_none hp] at hdue
        rw [step_none hp, step_none hp]
        exact observe_agree (hweak p p) hdue
    | some s =>
        rw [step_some hp] at hdue
        rw [step_some hp, step_some hp]
        exact observe_agree (hweak s.1 p) hdue
  · rw [step_inactive hp, step_inactive hp]

/-- As long as every answer of the faster detector is due for the slower one
too, the two remember the same. -/
theorem final_agree (hweak : ∀ q r, due q r → due' q r) {ps : List ι}
    (hdue : ∀ past p, past ++ [p] <+: ps →
      answer active once due' past p = true → due (first active past p) p) :
    Reactive.final (step active once due) none ps
      = Reactive.final (step active once due') none ps := by
  induction ps using List.reverseRecOn with
  | nil => rfl
  | append_singleton ps p ih =>
      have hpast := ih fun past q hq => hdue past q (hq.trans (ps.prefix_append [p]))
      have hlast := hdue ps p List.prefix_rfl
      rw [answer, first_eq once due'] at hlast
      rw [Reactive.final_append, Reactive.final_append, hpast]
      simp only [Reactive.final_cons, Reactive.final_nil, step_agree hweak hlast]

/-- **Two detectors of one signal**: the slower one answers like the faster
one all along exactly when every answer of the faster one is due for it. -/
theorem answers_agree_iff (active once : ι → Bool)
    (hweak : ∀ q r, due q r → due' q r) (ps : List ι) :
    (∀ past p, past ++ [p] <+: ps →
        answer active once due past p = answer active once due' past p)
      ↔ ∀ past p, past ++ [p] <+: ps →
          Expected active once due' past p → due (first active past p) p := by
  constructor
  · intro h past p hp hexp
    rw [← answer_iff, ← h past p hp, answer_iff] at hexp
    exact hexp.2.1
  · intro h past p hp
    have hdue : ∀ past q, past ++ [q] <+: ps →
        answer active once due' past q = true → due (first active past q) q :=
      fun past q hq ha => h past q hq ((answer_iff past q).mp ha)
    have hfinal := final_agree hweak fun past' q hq =>
      hdue past' q (hq.trans ((past.prefix_append [p]).trans hp))
    have hlast := hdue past p hp
    rw [answer, first_eq once due'] at hlast
    rw [answer, answer, hfinal, step_agree hweak hlast]

end Two

end Hold
