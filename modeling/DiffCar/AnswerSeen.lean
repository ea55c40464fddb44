import DiffCar.Answered

/-!
# AnswerSeen — what the caller of `at_obj_exec_cmd` reads

The invariant of the objects themselves, and with the one of the calls, what
the readers of a response return after a call.
-/

namespace DiffCar

open Interleave Scan

variable {τ : Type*}

/-- A response object keeps its size and its `line_num`. -/
structure AtResponse.Like (resp made : AtResponse) : Prop where
  size : resp.buf.length = resp.bufSize
  bufSize : resp.bufSize = made.bufSize
  lineNum : resp.lineNum = made.lineNum

theorem AtResponse.Like.store {a : Answer} {made : AtResponse} (h : a.resp.Like made)
    (line : List UInt8) : (a.store line).resp.Like made := by
  unfold Answer.store AtResponse.copy
  by_cases hfits : a.resp.bufLen + line.length < a.resp.bufSize
  · rw [if_pos hfits]
    refine ⟨?_, h.bufSize, h.lineNum⟩
    have hsize := h.size
    simp only [List.length_append, List.length_take, List.length_drop]
    omega
  · rw [if_neg hfits]
    exact h

/-- The command has been sent. -/
def CmdStage.sent : CmdStage → Bool
  | .status => false
  | .pointer => false
  | .length => false
  | .counts => false
  | _ => true

/-- What the objects are in every run, timed out or not. -/
structure AtSystem.Made (made : ℕ → AtResponse) (s : AtSystem τ) : Prop where
  like : ∀ obj, (s.object obj).Like (made obj)
  reset : ∀ t obj, s.caller = some ⟨t, some obj, .counts⟩ → s.history.lines = [] →
    (s.object obj).bufLen = 0
  opened : ∀ t obj stage, s.caller = some ⟨t, some obj, stage⟩ → stage.sent = true →
    s.history.early = false →
    s.history.opened.Like (made obj) ∧ Captured s.history.opened []

theorem AtSystem.Made.start {made : ℕ → AtResponse}
    (h : ∀ obj, (made obj).buf.length = (made obj).bufSize) :
    (AtSystem.start made : AtSystem τ).Made made where
  like := fun obj => ⟨h obj, rfl, rfl⟩
  reset := nofun
  opened := nofun

section Made

variable {made : ℕ → AtResponse} {s t : AtSystem τ}

/-- All that the parser can do to the objects and to what was taken down. -/
theorem AtSystem.stepParser_object (hs : s.stepParser = some t) :
    t.history.opened = s.history.opened
      ∧ ((t.object = s.object ∧ t.history.lines = s.history.lines)
        ∨ ∃ obj line, t.object = Function.update s.object obj
            ((Answer.mk (s.object obj) s.status).store line).resp
          ∧ t.history.lines ≠ []) := by
  unfold AtSystem.stepParser at hs
  cases hp : s.parser with
  | idle => simp [hp] at hs
  | test line =>
      simp only [hp] at hs
      split_ifs at hs <;> obtain rfl := Option.some.inj hs <;> exact ⟨rfl, .inl ⟨rfl, rfl⟩⟩
  | load line =>
      simp only [hp] at hs
      split at hs <;> obtain rfl := Option.some.inj hs <;> exact ⟨rfl, .inl ⟨rfl, rfl⟩⟩
  | store obj line =>
      simp only [hp, Option.some.injEq] at hs
      subst hs
      exact ⟨rfl, .inr ⟨obj, zeroLast line, rfl, by simp⟩⟩
  | judge obj line =>
      simp only [hp] at hs
      split at hs <;> obtain rfl := Option.some.inj hs <;> exact ⟨rfl, .inl ⟨rfl, rfl⟩⟩
  | clear =>
      simp only [hp, Option.some.injEq] at hs
      subst hs
      exact ⟨rfl, .inl ⟨rfl, rfl⟩⟩
  | release =>
      simp only [hp, Option.some.injEq] at hs
      subst hs
      exact ⟨rfl, .inl ⟨rfl, rfl⟩⟩
  | faulted => simp [hp] at hs

theorem AtSystem.Made.stepParser (h : s.Made made) (hs : s.stepParser = some t) :
    t.Made made := by
  obtain ⟨hcaller, hearly, -⟩ := AtSystem.stepParser_frame hs
  obtain ⟨hopened, hobject⟩ := AtSystem.stepParser_object hs
  refine ⟨?_, ?_, ?_⟩
  · intro obj
    rcases hobject with ⟨hobject, -⟩ | ⟨obj', line, hobject, -⟩
    · rw [hobject]
      exact h.like obj
    · rw [hobject]
      by_cases heq : obj = obj'
      · subst heq
        rw [Function.update_self]
        exact AtResponse.Like.store (h.like obj) line
      · rw [Function.update_of_ne heq]
        exact h.like obj
  · intro u obj hc hlines
    rcases hobject with ⟨hobject, hsame⟩ | ⟨_, _, _, hne⟩
    · rw [hobject]
      exact h.reset u obj (hcaller ▸ hc) (hsame ▸ hlines)
    · exact absurd hlines hne
  · intro u obj stage hc hsent he
    rw [hopened]
    exact h.opened u obj stage (hcaller ▸ hc) hsent (hearly ▸ he)

/-- A call resets its object, and takes it down when nothing has come yet. -/
theorem AtSystem.Made.stepCaller (h : s.Made made) (hs : s.stepCaller = some t) :
    t.Made made := by
  unfold AtSystem.stepCaller at hs
  rcases hc : s.caller with _ | ⟨thread, _ | obj, stage⟩
  · simp [hc] at hs
  · -- without an object there is nothing to keep track of
    rw [hc] at hs
    cases stage with
    | length => cases hs
    | counts => cases hs
    | wait =>
        by_cases hnotice : s.notice = 0
        · simp [hnotice] at hs
        · simp only [hnotice, if_false, Option.some.injEq] at hs
          subst hs
          exact ⟨h.like, nofun, nofun⟩
    | _ =>
        obtain rfl := Option.some.inj hs
        exact ⟨h.like, nofun, nofun⟩
  · rw [hc] at hs
    cases stage with
    | status =>
        obtain rfl := Option.some.inj hs
        refine ⟨h.like, nofun, ?_⟩
        intro u obj' stage hc' hsent
        cases hc'
        cases hsent
    | pointer =>
        obtain rfl := Option.some.inj hs
        refine ⟨h.like, nofun, ?_⟩
        intro u obj' stage hc' hsent
        cases hc'
        cases hsent
    | length =>
        obtain rfl := Option.some.inj hs
        refine ⟨?_, ?_, ?_⟩
        · intro obj'
          by_cases heq : obj' = obj
          · subst heq
            dsimp only
            rw [Function.update_self]
            exact ⟨(h.like obj').size, (h.like obj').bufSize, (h.like obj').lineNum⟩
          · dsimp only
            rw [Function.update_of_ne heq]
            exact h.like obj'
        · intro u obj' hc' _
          cases hc'
          dsimp only
          rw [Function.update_self]
        · intro u obj' stage hc' hsent
          cases hc'
          cases hsent
    | counts =>
        obtain rfl := Option.some.inj hs
        have hlike : ({ s.object obj with lineCounts := 0 } : AtResponse).Like (made obj) :=
          ⟨(h.like obj).size, (h.like obj).bufSize, (h.like obj).lineNum⟩
        refine ⟨?_, nofun, ?_⟩
        · intro obj'
          by_cases heq : obj' = obj
          · subst heq
            dsimp only
            rw [Function.update_self]
            exact hlike
          · dsimp only
            rw [Function.update_of_ne heq]
            exact h.like obj'
        · intro u obj' stage hc' _ he
          cases hc'
          refine ⟨hlike, ?_⟩
          have hlines : s.history.lines = [] := by simpa using he
          have hlen := h.reset thread obj hc hlines
          refine ⟨hlike.size, rfl, hlen, ?_, .inl hlen⟩
          show (s.object obj).buf.take (s.object obj).bufLen = []
          rw [hlen]
          rfl
    | wait =>
        by_cases hnotice : s.notice = 0
        · simp [hnotice] at hs
        · simp only [hnotice, if_false, Option.some.injEq] at hs
          subst hs
          refine ⟨h.like, nofun, ?_⟩
          intro u obj' stage hc' _ he
          cases hc'
          exact h.opened thread obj .wait hc rfl he
    | unlock result =>
        obtain rfl := Option.some.inj hs
        exact ⟨h.like, nofun, nofun⟩
    | _ =>
        obtain rfl := Option.some.inj hs
        refine ⟨h.like, nofun, ?_⟩
        intro u obj' stage hc' _ he
        cases hc'
        exact h.opened thread obj _ hc rfl he

theorem AtSystem.Made.step (h : s.Made made) {a : CmdAction τ} (hs : s.step a = some t) :
    t.Made made := by
  cases a with
  | enter thread client resp =>
      obtain rfl | ⟨-, rfl⟩ := AtSystem.enter_cases hs
      · exact h
      · refine ⟨h.like, nofun, ?_⟩
        intro u obj stage hc' hsent
        cases hc'
        cases hsent
  | caller => exact h.stepCaller hs
  | timeout =>
      obtain ⟨thread, resp, hc, -, rfl⟩ := AtSystem.timeout_eq hs
      refine ⟨h.like, nofun, ?_⟩
      intro u obj stage hc' _ he
      cases hc'
      exact h.opened thread obj .wait hc rfl he
  | line line =>
      obtain ⟨-, rfl⟩ := AtSystem.line_eq hs
      exact ⟨h.like, h.reset, h.opened⟩
  | parser => exact h.stepParser hs

end Made

end DiffCar
