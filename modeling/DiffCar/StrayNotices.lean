import DiffCar.Answered

/-!
# StrayNotices — notices that nobody waits for

A wait can time out while the parser is between finding the end of the
response and releasing the notice. The notice then stays, and completes the
next command before its answer has come. `Bounded` counts what may still be
released against the timeouts.
-/

namespace DiffCar

open Interleave

variable {τ : Type*}

/-- The parser is past `resp = client->resp` and has not released yet. -/
def RespStage.claims : RespStage → Bool
  | .store _ _ => true
  | .judge _ _ => true
  | .clear => true
  | .release => true
  | _ => false

/-- The call has stored `client->resp` and its wait is not over. -/
def CmdStage.waits : CmdStage → Bool
  | .length => true
  | .counts => true
  | .send => true
  | .wait => true
  | _ => false

namespace AtSystem

/-- A notice on its way to a call that is no longer there. -/
def stale (s : AtSystem τ) : ℕ :=
  if s.parser.claims = true ∧ s.history.claim ≠ s.history.calls then 1 else 0

/-- A notice that the latest call may still get. -/
def own (s : AtSystem τ) : ℕ :=
  if (s.parser.claims = true ∧ s.history.claim = s.history.calls) ∨ s.resp ≠ none then 1
  else 0

/-- One notice is allowed to a call that waits for it with its object. -/
def allowance (s : AtSystem τ) : ℕ :=
  match s.caller with
  | some c => if c.resp ≠ none ∧ c.stage.waits = true then 1 else 0
  | none => 0

theorem allowance_le_one (s : AtSystem τ) : s.allowance ≤ 1 := by
  unfold allowance
  split
  · split_ifs
    · exact le_rfl
    · exact Nat.zero_le 1
  · exact Nat.zero_le 1

/-- **The notices are accounted for**: there is one too many at most for every
timeout. -/
structure Bounded (s : AtSystem τ) : Prop where
  owed : s.notice + s.stale + s.own ≤ s.history.timeouts + s.allowance
  claim : s.history.claim ≤ s.history.calls
  outside : s.caller = none → s.resp = none
  before : ∀ t resp, s.caller = some ⟨t, resp, .status⟩ ∨ s.caller = some ⟨t, resp, .pointer⟩ →
    s.resp = none ∧ ¬ (s.parser.claims = true ∧ s.history.claim = s.history.calls)
  unlock : ∀ t resp r, s.caller = some ⟨t, resp, .unlock r⟩ → s.resp = none
  release : s.parser = .release → s.history.claim = s.history.calls → s.resp = none

theorem bounded_start (object : ℕ → AtResponse) : (AtSystem.start object : AtSystem τ).Bounded where
  owed := by simp [AtSystem.start, stale, own, allowance, RespStage.claims]
  claim := le_rfl
  outside := fun _ => rfl
  before := by
    intro t obj h
    rcases h with h | h <;> cases h
  unlock := by
    intro t obj r h
    cases h
  release := fun _ _ => rfl

section Bounded

variable {s t : AtSystem τ}

/-- A call in a later stage has stored `client->resp` already. -/
theorem not_opening {P : Prop} {c : Caller τ} {u : τ} {resp : Option ℕ}
    (hstatus : c.stage ≠ .status) (hpointer : c.stage ≠ .pointer)
    (h : some c = some ⟨u, resp, .status⟩ ∨ some c = some ⟨u, resp, .pointer⟩) : P := by
  rcases h with h | h
  · cases h
    exact absurd rfl hstatus
  · cases h
    exact absurd rfl hpointer

theorem Bounded.enter (h : s.Bounded) {thread : τ} {client : Option AtStatus}
    {resp : Option ℕ} (hs : s.enter thread client resp = some t) : t.Bounded := by
  obtain rfl | ⟨hc, rfl⟩ := enter_cases hs
  · exact h
  have hresp := h.outside hc
  have howed := h.owed
  have hclaim := h.claim
  refine ⟨?_, ?_, ?_, ?_, ?_, ?_⟩
  · simp only [stale, own, allowance, hc, hresp, CmdStage.waits] at howed ⊢
    split_ifs at howed ⊢ <;> simp_all
  · show s.history.claim ≤ s.history.calls + 1
    omega
  · intro h
    cases h
  · intro t obj _
    refine ⟨hresp, ?_⟩
    intro ⟨_, heq⟩
    have heq' : s.history.claim = s.history.calls + 1 := heq
    omega
  · intro t obj r h
    cases h
  · intro _ _
    exact hresp

theorem Bounded.timeout (h : s.Bounded) (hs : s.timeout = some t) : t.Bounded := by
  obtain ⟨thread, resp, hc, hnotice, rfl⟩ := timeout_eq hs
  have howed := h.owed
  refine ⟨?_, h.claim, ?_, ?_, ?_, h.release⟩
  · -- the call waits no longer, and its timeout pays for the notice
    have hone := s.allowance_le_one
    show s.notice + s.stale + s.own ≤ s.history.timeouts + 1 + _
    omega
  · intro h
    cases h
  · exact fun _ _ => not_opening nofun nofun
  · intro t obj r h
    cases h

theorem Bounded.line (h : s.Bounded) {line : List UInt8}
    (hs : s.step (.line line) = some t) : t.Bounded := by
  obtain ⟨hp, rfl⟩ := line_eq hs
  have howed := h.owed
  refine ⟨?_, h.claim, h.outside, ?_, h.unlock, ?_⟩
  · simp only [stale, own, allowance, hp, RespStage.claims] at howed ⊢
    exact howed
  · intro t obj hc
    refine ⟨(h.before t obj hc).1, ?_⟩
    intro ⟨hclaims, _⟩
    exact absurd hclaims (by simp [RespStage.claims])
  · intro hp
    cases hp

/-- The parser's move, with the calls as they are. -/
theorem Bounded.stepParser (h : s.Bounded) (hs : s.stepParser = some t) : t.Bounded := by
  obtain ⟨howed, hclaim, houtside, hbefore, hunlock, hrelease⟩ := h
  unfold AtSystem.stepParser at hs
  cases hp : s.parser with
  | idle => simp [hp] at hs
  | test line =>
      simp only [hp] at hs
      by_cases hresp : s.resp = none
      · rw [if_pos hresp, Option.some.injEq] at hs
        subst hs
        refine ⟨?_, hclaim, houtside, ?_, hunlock, ?_⟩
        · simp only [stale, own, allowance, hp, RespStage.claims] at howed ⊢
          exact howed
        · intro t obj hc
          exact ⟨(hbefore t obj hc).1, by simp [RespStage.claims]⟩
        · intro hp
          cases hp
      · rw [if_neg hresp, Option.some.injEq] at hs
        subst hs
        refine ⟨?_, hclaim, houtside, ?_, hunlock, ?_⟩
        · simp only [stale, own, allowance, hp, RespStage.claims] at howed ⊢
          exact howed
        · intro t obj hc
          exact absurd (hbefore t obj hc).1 hresp
        · intro hp
          cases hp
  | load line =>
      simp only [hp] at hs
      cases hresp : s.resp with
      | none =>
          simp only [hresp, Option.some.injEq] at hs
          subst hs
          refine ⟨?_, hclaim, fun _ => rfl, ?_, fun _ _ _ _ => rfl, ?_⟩
          · simp only [stale, own, allowance, hp, hresp, RespStage.claims] at howed ⊢
            exact howed
          · intro t obj hc
            exact ⟨rfl, by simp [RespStage.claims]⟩
          · intro hp
            cases hp
      | some obj =>
          simp only [hresp, Option.some.injEq] at hs
          subst hs
          refine ⟨?_, le_rfl, ?_, ?_, ?_, ?_⟩
          · -- the claim is on the call that has stored the pointer
            simp only [stale, own, allowance, hp, hresp, RespStage.claims] at howed ⊢
            simpa using howed
          · intro hc
            exact absurd (houtside hc) (by simp [hresp])
          · intro t obj hc
            exact absurd (hbefore t obj hc).1 (by simp [hresp])
          · intro t obj r hc
            exact absurd (hunlock t obj r hc) (by simp [hresp])
          · intro hp
            cases hp
  | store obj line =>
      simp only [hp, Option.some.injEq] at hs
      subst hs
      refine ⟨?_, hclaim, houtside, ?_, hunlock, ?_⟩
      · simp only [stale, own, allowance, hp, RespStage.claims] at howed ⊢
        exact howed
      · intro t obj hc
        have hb := hbefore t obj hc
        rw [hp] at hb
        exact hb
      · intro hp
        cases hp
  | judge obj line =>
      simp only [hp] at hs
      cases hjudge : (s.object obj).judge (zeroLast line) with
      | none =>
          simp only [hjudge, Option.some.injEq] at hs
          subst hs
          refine ⟨?_, hclaim, houtside, ?_, hunlock, ?_⟩
          · simp only [stale, own, allowance, hp, RespStage.claims] at howed ⊢
            split_ifs at howed ⊢ <;> simp_all <;> omega
          · intro t obj hc
            exact ⟨(hbefore t obj hc).1, by simp [RespStage.claims]⟩
          · intro hp
            cases hp
      | some v =>
          simp only [hjudge, Option.some.injEq] at hs
          subst hs
          refine ⟨?_, hclaim, houtside, ?_, hunlock, ?_⟩
          · simp only [stale, own, allowance, hp, RespStage.claims] at howed ⊢
            exact howed
          · intro t obj hc
            have hb := hbefore t obj hc
            rw [hp] at hb
            exact hb
          · intro hp
            cases hp
  | clear =>
      simp only [hp, Option.some.injEq] at hs
      subst hs
      refine ⟨?_, hclaim, fun _ => rfl, ?_, fun _ _ _ _ => rfl, fun _ _ => rfl⟩
      · simp only [stale, own, allowance, hp, RespStage.claims] at howed ⊢
        split_ifs at howed ⊢ <;> simp_all
        omega
      · intro t obj hc
        have hb := (hbefore t obj hc).2
        rw [hp] at hb
        exact ⟨rfl, hb⟩
  | release =>
      simp only [hp, Option.some.injEq] at hs
      subst hs
      refine ⟨?_, hclaim, houtside, ?_, hunlock, ?_⟩
      · have hnull := hrelease hp
        have hvalue : (s.notice + 1) % 2 ^ 16 ≤ s.notice + 1 := Nat.mod_le _ _
        refine le_trans (Nat.add_le_add_right (Nat.add_le_add_right hvalue _) _) ?_
        simp only [stale, own, allowance, hp, RespStage.claims] at howed ⊢
        by_cases heq : s.history.claim = s.history.calls
        · simp only [heq, hnull heq] at howed ⊢
          simpa using howed
        · simp only [heq, ne_eq, not_false_eq_true, and_self, if_true, and_false, false_or,
            Bool.false_eq_true, false_and, if_false, Nat.add_zero] at howed ⊢
          exact howed
      · intro t obj hc
        exact ⟨(hbefore t obj hc).1, by simp [RespStage.claims]⟩
      · intro hp
        cases hp
  | faulted => simp [hp] at hs

/-- The call's move, with the parser as it is. -/
theorem Bounded.stepCaller (h : s.Bounded) (hs : s.stepCaller = some t) : t.Bounded := by
  obtain ⟨howed, hclaim, houtside, hbefore, hunlock, hrelease⟩ := h
  have hone := s.allowance_le_one
  unfold AtSystem.stepCaller at hs
  rcases hc : s.caller with _ | ⟨thread, resp, stage⟩
  · simp [hc] at hs
  · rw [hc] at hs
    cases stage with
    | status =>
        obtain rfl := Option.some.inj hs
        simp only [allowance, hc] at howed
        have hb := hbefore thread resp (.inl hc)
        exact ⟨howed, hclaim, nofun, fun _ _ _ => hb, nofun, hrelease⟩
    | pointer =>
        obtain ⟨hresp, hfresh⟩ := hbefore thread resp (.inr hc)
        have hrelease' : s.parser = .release → s.history.claim = s.history.calls → False := by
          intro hp heq
          exact hfresh ⟨by rw [hp]; rfl, heq⟩
        have hown : s.own = 0 := if_neg (by simp [hresp, hfresh])
        rw [hown] at howed
        cases resp with
        | none =>
            obtain rfl := Option.some.inj hs
            refine ⟨?_, hclaim, nofun, ?_, nofun, fun _ _ => rfl⟩
            · simp only [allowance, hc] at howed
              simp only [own, allowance, stale] at howed ⊢
              simpa [hfresh] using howed
            · exact fun _ _ => not_opening nofun nofun
        | some obj =>
            obtain rfl := Option.some.inj hs
            refine ⟨?_, hclaim, nofun, ?_, nofun, ?_⟩
            · -- the call may now get a notice, and it waits for one
              simp only [allowance, hc] at howed
              simp only [own, allowance, CmdStage.waits, stale] at howed ⊢
              simpa using howed
            · exact fun _ _ => not_opening nofun nofun
            · intro hp heq
              exact (hrelease' hp heq).elim
    | wait =>
        by_cases hnotice : s.notice = 0
        · simp [hnotice] at hs
        · simp only [hnotice, if_false, Option.some.injEq] at hs
          subst hs
          refine ⟨?_, hclaim, nofun, ?_, nofun, hrelease⟩
          · show s.notice - 1 + s.stale + s.own ≤ s.history.timeouts + _
            omega
          · exact fun _ _ => not_opening nofun nofun
    | leave result =>
        obtain rfl := Option.some.inj hs
        refine ⟨?_, hclaim, nofun, ?_, fun _ _ _ _ => rfl, fun _ _ => rfl⟩
        · simp only [own, allowance, hc, CmdStage.waits, stale] at howed ⊢
          split_ifs at howed ⊢ <;> simp_all <;> omega
        · exact fun _ _ => not_opening nofun nofun
    | unlock result =>
        obtain rfl := Option.some.inj hs
        have hresp := hunlock thread resp result hc
        refine ⟨?_, hclaim, fun _ => hresp, nofun, nofun, hrelease⟩
        show s.notice + s.stale + s.own ≤ s.history.timeouts + 0
        simpa [allowance, hc, CmdStage.waits] using howed
    | send =>
        simp only [allowance, hc] at howed
        cases resp with
        | none =>
            obtain rfl := Option.some.inj hs
            exact ⟨howed, hclaim, nofun, fun _ _ => not_opening nofun nofun, nofun, hrelease⟩
        | some obj =>
            obtain rfl := Option.some.inj hs
            exact ⟨howed, hclaim, nofun, fun _ _ => not_opening nofun nofun, nofun, hrelease⟩
    | check =>
        obtain rfl := Option.some.inj hs
        simp only [allowance, hc] at howed
        exact ⟨howed, hclaim, nofun, fun _ _ => not_opening nofun nofun, nofun, hrelease⟩
    | late =>
        obtain rfl := Option.some.inj hs
        simp only [allowance, hc] at howed
        exact ⟨howed, hclaim, nofun, fun _ _ => not_opening nofun nofun, nofun, hrelease⟩
    | _ =>
        simp only [allowance, hc] at howed
        cases resp with
        | none => cases hs
        | some obj =>
            obtain rfl := Option.some.inj hs
            exact ⟨howed, hclaim, nofun, fun _ _ => not_opening nofun nofun, nofun, hrelease⟩

theorem Bounded.step (h : s.Bounded) {a : CmdAction τ} (hs : s.step a = some t) :
    t.Bounded := by
  cases a with
  | enter thread client resp => exact h.enter hs
  | caller => exact h.stepCaller hs
  | timeout => exact h.timeout hs
  | line line => exact h.line hs
  | parser => exact h.stepParser hs

end Bounded

end AtSystem

/-- **Every stray notice has cost a timeout.** In every run at most one notice
more is there than calls have timed out; and with no call inside, when any
notice there is would complete the next call before its answer, no more than
have timed out. -/
theorem stray_notices (object : ℕ → AtResponse) (s : AtSystem τ)
    (h : AtSystem.Reachable object s) :
    s.notice ≤ s.history.timeouts + 1
      ∧ (s.caller = none → s.notice ≤ s.history.timeouts) := by
  have hbounded : s.Bounded :=
    Reach.inv h (AtSystem.bounded_start object) fun _ _ _ h hs => h.step hs
  have howed := hbounded.owed
  constructor
  · have hone := s.allowance_le_one
    omega
  · intro hc
    have hzero : s.allowance = 0 := by
      unfold AtSystem.allowance
      rw [hc]
    omega

/-- The first call's wait times out just before the parser releases its
notice; a second call follows. -/
def strayRun : List (CmdAction Unit) :=
  .enter () (some .initialized) (some 0) :: List.replicate 5 .caller
    ++ .line [79, 75, 13, 10] :: List.replicate 5 .parser
    ++ .timeout :: List.replicate 3 .caller ++ [.parser]

/-- What that leads to. -/
theorem strayRun_run : ∃ s : AtSystem Unit,
    AtSystem.Reachable (fun _ => atCreateResp 64 0) s
      ∧ s.caller = none ∧ s.notice = 1 ∧ s.history.timeouts = 1 := by
  have hrun : (exec AtSystem.step (AtSystem.start fun _ => atCreateResp 64 0) strayRun).map
        (fun s => (s.caller, s.notice, s.history.timeouts))
      = some (none, 1, 1) := rfl
  obtain ⟨s, hs, heq⟩ := Option.map_eq_some_iff.mp hrun
  obtain ⟨hcaller, heq⟩ := Prod.mk.inj heq
  obtain ⟨hnotice, htimeouts⟩ := Prod.mk.inj heq
  exact ⟨s, Reach.exec .refl hs, hcaller, hnotice, htimeouts⟩

theorem stray_notices_run : ∃ s : AtSystem Unit,
    s.caller = none ∧ s.notice = 1 ∧ s.notice ≤ s.history.timeouts := by
  obtain ⟨s, hs, hcaller, hnotice, -⟩ := strayRun_run
  exact ⟨s, hcaller, hnotice, (stray_notices _ s hs).2 hcaller⟩

end DiffCar
