import DiffCar.AtCommand

/-!
# Answered — a command gets its own answer

In runs in which no call has timed out, the notice a call takes is the one
for its own response, and its response object is what `Answer.collect` makes
of the lines that came in. A call without a response object leaves no trace.
`Inv` says so for every place the call and the parser can be at.
-/

namespace DiffCar

open Interleave Scan

variable {τ : Type*}

/-- The parser is not in the middle of a response. -/
def RespStage.Quiet : RespStage → Prop
  | .idle => True
  | .test _ => True
  | _ => False

/-- The parser may be in the middle of the response in `obj`, undecided. -/
def RespStage.Handles (obj : ℕ) (lines : List (List UInt8)) : RespStage → Prop
  | .idle => True
  | .test _ => True
  | .load _ => True
  | .store obj' _ => obj' = obj
  | .judge obj' _ => obj' = obj ∧ lines ≠ []
  | _ => False

namespace AtSystem

variable {s t : AtSystem τ} {obj : ℕ}

/-- Nothing is on its way to a call. -/
structure Rest (s : AtSystem τ) : Prop where
  resp : s.resp = none
  notice : s.notice = 0
  parser : s.parser.Quiet

/-- The response of the call that is inside has not ended. -/
structure Waiting (s : AtSystem τ) (obj : ℕ) : Prop where
  resp : s.resp = some obj
  notice : s.notice = 0
  verdict : s.history.verdict = none
  parser : s.parser.Handles obj s.history.lines
  status : s.history.lines = [] → s.status = .ok

/-- It has ended, and the notice is on its way or there. -/
structure Decided (s : AtSystem τ) (v : RespStatus) : Prop where
  verdict : s.history.verdict = some v
  status : s.status = v
  lines : s.history.lines ≠ []
  parser : (s.parser = .clear ∧ s.notice = 0)
    ∨ (s.parser = .release ∧ s.resp = none ∧ s.notice = 0)
    ∨ (s.parser.Quiet ∧ s.resp = none ∧ s.notice = 1)

/-- The answer as the command was sent. -/
def answer (s : AtSystem τ) : Answer := ⟨s.history.opened, .ok⟩

/-- **The object follows the lines**: object and status are what the lines so
far make of the answer the command started with. -/
def Followed (s : AtSystem τ) (obj : ℕ) : Prop :=
  match s.history.verdict, s.parser with
  | some v, _ => s.answer.collect s.history.lines = (⟨s.object obj, v⟩, some [])
  | none, .judge _ line => ∃ init a, s.history.lines = init ++ [line]
      ∧ s.answer.collect init = (a, none)
      ∧ a.store (zeroLast line) = ⟨s.object obj, s.status⟩
  | none, _ => s.answer.collect s.history.lines = (⟨s.object obj, s.status⟩, none)

/-- The response has ended with this verdict, and nothing is on its way. -/
def Ended (s : AtSystem τ) (obj : ℕ) (v : RespStatus) : Prop :=
  s.Rest ∧ s.history.verdict = some v ∧ (s.history.early = false → s.Followed obj)

/-- **The invariant of runs without a timeout**, by where the call inside is. -/
def Inv (s : AtSystem τ) : Prop :=
  match s.caller with
  | none => s.Rest
  | some ⟨_, _, .status⟩ => s.Rest ∧ s.history.lines = [] ∧ s.history.verdict = none
  | some ⟨_, _, .pointer⟩ =>
      s.Rest ∧ s.history.lines = [] ∧ s.history.verdict = none ∧ s.status = .ok
  | some ⟨_, none, .send⟩ => s.Rest
  | some ⟨_, none, .leave result⟩ => s.Rest ∧ result = 0
  | some ⟨_, none, .unlock result⟩ => s.Rest ∧ result = 0
  | some ⟨_, none, _⟩ => False
  | some ⟨_, some obj, .length⟩ => s.Waiting obj ∨ ∃ v, s.Decided v
  | some ⟨_, some obj, .counts⟩ => s.Waiting obj ∨ ∃ v, s.Decided v
  | some ⟨_, some obj, .send⟩ =>
      (s.Waiting obj ∨ ∃ v, s.Decided v) ∧ (s.history.early = false → s.Followed obj)
  | some ⟨_, some obj, .wait⟩ =>
      (s.Waiting obj ∨ ∃ v, s.Decided v) ∧ (s.history.early = false → s.Followed obj)
  | some ⟨_, some obj, .check⟩ => s.Ended obj s.status
  | some ⟨_, some _, .late⟩ => False
  | some ⟨_, some obj, .leave result⟩ => ∃ v, result = execResult v ∧ s.Ended obj v
  | some ⟨_, some obj, .unlock result⟩ => ∃ v, result = execResult v ∧ s.Ended obj v

end AtSystem

/-- One more line of a response that has not ended. -/
theorem collect_concat {a b : Answer} {lines : List (List UInt8)}
    (h : a.collect lines = (b, none)) (line : List UInt8) :
    a.collect (lines ++ [line])
      = ((b.receive line).1, if (b.receive line).2 then some [] else none) := by
  induction lines generalizing a with
  | nil =>
      obtain ⟨rfl, -⟩ := Prod.mk.inj h
      rw [List.nil_append, Answer.collect]
      cases hreceive : a.receive line with
      | mk c done => cases done <;> rfl
  | cons l lines ih =>
      rw [Answer.collect] at h
      rw [List.cons_append, Answer.collect]
      cases hreceive : a.receive l with
      | mk c done =>
          rw [hreceive] at h
          cases done with
          | true => exact absurd (Prod.mk.inj h).2 (by simp)
          | false => exact ih h

namespace AtSystem

section Parser

variable {s t : AtSystem τ} {obj : ℕ}

/-- At rest the parser only drops lines. -/
theorem Rest.stepParser (h : s.Rest) (hs : s.stepParser = some t) :
    t = { s with parser := .idle } ∧ t.Rest := by
  obtain ⟨hresp, hnotice, hparser⟩ := h
  unfold AtSystem.stepParser at hs
  cases hp : s.parser with
  | idle => simp [hp] at hs
  | test line =>
      simp only [hp] at hs
      rw [if_pos hresp, Option.some.injEq] at hs
      subst hs
      exact ⟨rfl, hresp, hnotice, trivial⟩
  | load line => simp [hp, RespStage.Quiet] at hparser
  | store obj line => simp [hp, RespStage.Quiet] at hparser
  | judge obj line => simp [hp, RespStage.Quiet] at hparser
  | clear => simp [hp, RespStage.Quiet] at hparser
  | release => simp [hp, RespStage.Quiet] at hparser
  | faulted => simp [hp, RespStage.Quiet] at hparser

/-- A verdict stays, whatever the parser does next. -/
theorem Followed.of_verdict {v : RespStatus} (h : s.Followed obj)
    (hv : s.history.verdict = some v) (hobject : t.object obj = s.object obj)
    (hhistory : t.history = s.history) : t.Followed obj := by
  unfold Followed at h ⊢
  rw [hhistory, hv]
  rw [hv] at h
  show t.answer.collect _ = _
  rw [show t.answer = s.answer by rw [answer, answer, hhistory], hobject]
  exact h

theorem Ended.stepParser {v : RespStatus} (h : s.Ended obj v)
    (hs : s.stepParser = some t) : t.Ended obj v := by
  obtain ⟨hrest, hverdict, hfollowed⟩ := h
  obtain ⟨rfl, hrest'⟩ := hrest.stepParser hs
  exact ⟨hrest', hverdict, fun hearly => (hfollowed hearly).of_verdict hverdict rfl rfl⟩

/-- What `receive` is, by the verdict on the stored line. -/
theorem receive_eq {a b : Answer} {line : List UInt8} (hstore : a.store (zeroLast line) = b) :
    a.receive line = match b.resp.judge (zeroLast line) with
      | some status => (⟨b.resp, status⟩, true)
      | none => (b, false) := by
  subst hstore
  rfl

/-- **The parser keeps track of an open response.** -/
theorem Waiting.stepParser (h : s.Waiting obj) (hs : s.stepParser = some t) :
    (t.Waiting obj ∨ ∃ v, t.Decided v) ∧ (s.Followed obj → t.Followed obj) := by
  obtain ⟨hresp, hnotice, hverdict, hparser, hstatus⟩ := h
  unfold AtSystem.stepParser at hs
  cases hp : s.parser with
  | idle => simp [hp] at hs
  | test line =>
      simp only [hp] at hs
      rw [if_neg (by simp [hresp]), Option.some.injEq] at hs
      subst hs
      refine ⟨.inl ⟨hresp, hnotice, hverdict, trivial, hstatus⟩, ?_⟩
      intro hfollowed
      simp only [Followed, hverdict, hp] at hfollowed ⊢
      exact hfollowed
  | load line =>
      simp only [hp, hresp, Option.some.injEq] at hs
      subst hs
      refine ⟨.inl ⟨rfl, hnotice, hverdict, rfl, hstatus⟩, ?_⟩
      intro hfollowed
      simp only [Followed, hverdict, hp] at hfollowed ⊢
      exact hfollowed
  | store obj' line =>
      obtain rfl : obj' = obj := by
        rw [hp] at hparser
        exact hparser
      simp only [hp, Option.some.injEq] at hs
      subst hs
      refine ⟨.inl ⟨hresp, hnotice, hverdict, ⟨rfl, by simp⟩, ?_⟩, ?_⟩
      · intro hnil
        exact absurd hnil (by simp)
      · intro hfollowed
        simp only [Followed, hverdict, hp] at hfollowed ⊢
        refine ⟨s.history.lines, _, rfl, hfollowed, ?_⟩
        rw [Function.update_self]
  | judge obj' line =>
      obtain ⟨rfl, hlines⟩ : obj' = obj ∧ s.history.lines ≠ [] := by
        rw [hp] at hparser
        exact hparser
      simp only [hp] at hs
      -- the verdict on the line is the one `receive` gives
      have hreceive : s.Followed obj' → ∃ init a, s.history.lines = init ++ [line]
          ∧ s.answer.collect init = (a, none)
          ∧ a.receive line = match (s.object obj').judge (zeroLast line) with
            | some status => (⟨s.object obj', status⟩, true)
            | none => (⟨s.object obj', s.status⟩, false) := by
        intro hfollowed
        simp only [Followed, hverdict, hp] at hfollowed
        obtain ⟨init, a, hinit, hcollect, hstore⟩ := hfollowed
        exact ⟨init, a, hinit, hcollect, receive_eq hstore⟩
      cases hjudge : (s.object obj').judge (zeroLast line) with
      | none =>
          simp only [hjudge, Option.some.injEq] at hs
          subst hs
          refine ⟨.inl ⟨hresp, hnotice, hverdict, trivial, hstatus⟩, ?_⟩
          intro hfollowed
          obtain ⟨init, a, hinit, hcollect, hrec⟩ := hreceive hfollowed
          rw [hjudge] at hrec
          simp only [Followed, hverdict]
          show s.answer.collect s.history.lines = (⟨s.object obj', s.status⟩, none)
          rw [hinit, collect_concat hcollect, hrec]
          rfl
      | some v =>
          simp only [hjudge, Option.some.injEq] at hs
          subst hs
          refine ⟨.inr ⟨v, rfl, rfl, hlines, .inl ⟨rfl, hnotice⟩⟩, ?_⟩
          intro hfollowed
          obtain ⟨init, a, hinit, hcollect, hrec⟩ := hreceive hfollowed
          rw [hjudge] at hrec
          show s.answer.collect s.history.lines = (⟨s.object obj', v⟩, some [])
          rw [hinit, collect_concat hcollect, hrec]
          rfl
  | clear => simp [hp, RespStage.Handles] at hparser
  | release => simp [hp, RespStage.Handles] at hparser
  | faulted => simp [hp, RespStage.Handles] at hparser

/-- A decided response only waits for its notice. -/
theorem Decided.stepParser {v : RespStatus} (h : s.Decided v) (hs : s.stepParser = some t) :
    t.Decided v ∧ t.history = s.history ∧ t.object = s.object := by
  obtain ⟨hverdict, hstatus, hlines, hparser⟩ := h
  unfold AtSystem.stepParser at hs
  rcases hparser with ⟨hp, hnotice⟩ | ⟨hp, hresp, hnotice⟩ | ⟨hquiet, hresp, hnotice⟩
  · simp only [hp, Option.some.injEq] at hs
    subst hs
    exact ⟨⟨hverdict, hstatus, hlines, .inr (.inl ⟨rfl, rfl, hnotice⟩)⟩, rfl, rfl⟩
  · simp only [hp, Option.some.injEq] at hs
    subst hs
    refine ⟨⟨hverdict, hstatus, hlines, .inr (.inr ⟨trivial, hresp, ?_⟩)⟩, rfl, rfl⟩
    show (s.notice + 1) % 2 ^ 16 = 1
    rw [hnotice]
    rfl
  · cases hp : s.parser with
    | idle => simp [hp] at hs
    | test line =>
        simp only [hp] at hs
        rw [if_pos hresp, Option.some.injEq] at hs
        subst hs
        exact ⟨⟨hverdict, hstatus, hlines, .inr (.inr ⟨trivial, hresp, hnotice⟩)⟩, rfl, rfl⟩
    | load line => simp [hp, RespStage.Quiet] at hquiet
    | store obj line => simp [hp, RespStage.Quiet] at hquiet
    | judge obj line => simp [hp, RespStage.Quiet] at hquiet
    | clear => simp [hp, RespStage.Quiet] at hquiet
    | release => simp [hp, RespStage.Quiet] at hquiet
    | faulted => simp [hp, RespStage.Quiet] at hquiet

/-- Open or decided, the parser's next move is accounted for. -/
theorem open_stepParser (h : s.Waiting obj ∨ ∃ v, s.Decided v) (hs : s.stepParser = some t) :
    (t.Waiting obj ∨ ∃ v, t.Decided v) ∧ (s.Followed obj → t.Followed obj) := by
  rcases h with h | ⟨v, h⟩
  · exact h.stepParser hs
  · obtain ⟨h', hhistory, hobject⟩ := h.stepParser hs
    exact ⟨.inr ⟨v, h'⟩, fun hfollowed =>
      hfollowed.of_verdict h.verdict (congrFun hobject obj) hhistory⟩

/-- The parser leaves the calls alone. -/
theorem stepParser_frame (hs : s.stepParser = some t) :
    t.caller = s.caller ∧ t.history.early = s.history.early
      ∧ t.history.timeouts = s.history.timeouts ∧ t.history.calls = s.history.calls := by
  unfold AtSystem.stepParser at hs
  split at hs
  · exact absurd hs (by simp)
  · split_ifs at hs <;> obtain rfl := Option.some.inj hs <;> exact ⟨rfl, rfl, rfl, rfl⟩
  · split at hs <;> obtain rfl := Option.some.inj hs <;> exact ⟨rfl, rfl, rfl, rfl⟩
  · obtain rfl := Option.some.inj hs
    exact ⟨rfl, rfl, rfl, rfl⟩
  · split at hs <;> obtain rfl := Option.some.inj hs <;> exact ⟨rfl, rfl, rfl, rfl⟩
  · obtain rfl := Option.some.inj hs
    exact ⟨rfl, rfl, rfl, rfl⟩
  · obtain rfl := Option.some.inj hs
    exact ⟨rfl, rfl, rfl, rfl⟩
  · exact absurd hs (by simp)

theorem Inv.stepParser (h : s.Inv) (hs : s.stepParser = some t) : t.Inv := by
  obtain ⟨hcaller, hearly, -⟩ := stepParser_frame hs
  unfold Inv at h ⊢
  rw [hcaller]
  -- inside a call the parser either rests or handles this call's response
  rcases hc : s.caller with _ | ⟨thread, _ | obj, stage⟩
  · rw [hc] at h
    exact (Rest.stepParser h hs).2
  · rw [hc] at h
    cases stage with
    | status =>
        obtain ⟨hrest, hlines, hverdict⟩ := h
        obtain ⟨rfl, hrest'⟩ := hrest.stepParser hs
        exact ⟨hrest', hlines, hverdict⟩
    | pointer =>
        obtain ⟨hrest, hlines, hverdict, hstatus⟩ := h
        obtain ⟨rfl, hrest'⟩ := hrest.stepParser hs
        exact ⟨hrest', hlines, hverdict, hstatus⟩
    | send => exact (Rest.stepParser h hs).2
    | leave result => exact ⟨(Rest.stepParser h.1 hs).2, h.2⟩
    | unlock result => exact ⟨(Rest.stepParser h.1 hs).2, h.2⟩
    | _ => exact h
  · rw [hc] at h
    cases stage with
    | status =>
        obtain ⟨hrest, hlines, hverdict⟩ := h
        obtain ⟨rfl, hrest'⟩ := hrest.stepParser hs
        exact ⟨hrest', hlines, hverdict⟩
    | pointer =>
        obtain ⟨hrest, hlines, hverdict, hstatus⟩ := h
        obtain ⟨rfl, hrest'⟩ := hrest.stepParser hs
        exact ⟨hrest', hlines, hverdict, hstatus⟩
    | length => exact (open_stepParser h hs).1
    | counts => exact (open_stepParser h hs).1
    | send =>
        obtain ⟨hopen, hfollowed⟩ := h
        obtain ⟨hopen', hkeeps⟩ := open_stepParser hopen hs
        refine ⟨hopen', fun he => hkeeps (hfollowed ?_)⟩
        rw [← hearly, he]
    | wait =>
        obtain ⟨hopen, hfollowed⟩ := h
        obtain ⟨hopen', hkeeps⟩ := open_stepParser hopen hs
        refine ⟨hopen', fun he => hkeeps (hfollowed ?_)⟩
        rw [← hearly, he]
    | check =>
        have hended : s.Ended obj s.status := h
        have hstatus : t.status = s.status := by
          obtain ⟨rfl, -⟩ := hended.1.stepParser hs
          rfl
        show t.Ended obj t.status
        rw [hstatus]
        exact hended.stepParser hs
    | late => exact h
    | leave result =>
        obtain ⟨v, hresult, hended⟩ := h
        exact ⟨v, hresult, hended.stepParser hs⟩
    | unlock result =>
        obtain ⟨v, hresult, hended⟩ := h
        exact ⟨v, hresult, hended.stepParser hs⟩

end Parser

section Caller

variable {s t : AtSystem τ} {obj : ℕ}

/-- A line comes in while the parser is idle: it is only about to be tested. -/
theorem Inv.line (h : s.Inv) (hp : s.parser = .idle) {line : List UInt8}
    (ht : t = { s with parser := .test line }) : t.Inv := by
  have hcaller : t.caller = s.caller := by rw [ht]
  have hearly : t.history = s.history := by rw [ht]
  have hstatus : t.status = s.status := by rw [ht]
  have hrest : s.Rest → t.Rest := by
    intro h
    rw [ht]
    exact ⟨h.resp, h.notice, trivial⟩
  have hfollowed : ∀ obj, s.Followed obj → t.Followed obj := by
    intro obj h
    rw [ht]
    unfold Followed at h ⊢
    cases hv : s.history.verdict with
    | none =>
        simp only [hv, hp] at h
        exact h
    | some v =>
        simp only [hv] at h
        exact h
  have hopen : ∀ obj, (s.Waiting obj ∨ ∃ v, s.Decided v) →
      (t.Waiting obj ∨ ∃ v, t.Decided v) := by
    intro obj h
    rw [ht]
    rcases h with h | ⟨v, h⟩
    · exact .inl ⟨h.resp, h.notice, h.verdict, trivial, h.status⟩
    · refine .inr ⟨v, h.verdict, h.status, h.lines, ?_⟩
      rcases h.parser with ⟨hp', -⟩ | ⟨hp', -⟩ | ⟨-, hrest⟩
      · rw [hp] at hp'
        cases hp'
      · rw [hp] at hp'
        cases hp'
      · exact .inr (.inr ⟨trivial, hrest⟩)
  have hended : ∀ obj v, s.Ended obj v → t.Ended obj v := by
    intro obj v ⟨h, hverdict, hkeeps⟩
    refine ⟨hrest h, ?_, ?_⟩
    · rw [hearly, hverdict]
    · intro he
      rw [hearly] at he
      exact hfollowed obj (hkeeps he)
  unfold Inv at h ⊢
  rw [hcaller]
  rcases hc : s.caller with _ | ⟨thread, _ | obj, stage⟩
  · rw [hc] at h
    exact hrest h
  · rw [hc] at h
    cases stage with
    | status =>
        dsimp only
        rw [hearly]
        exact ⟨hrest h.1, h.2⟩
    | pointer =>
        dsimp only
        rw [hearly, hstatus]
        exact ⟨hrest h.1, h.2⟩
    | send => exact hrest h
    | leave result => exact ⟨hrest h.1, h.2⟩
    | unlock result => exact ⟨hrest h.1, h.2⟩
    | _ => exact h
  · rw [hc] at h
    cases stage with
    | status =>
        dsimp only
        rw [hearly]
        exact ⟨hrest h.1, h.2⟩
    | pointer =>
        dsimp only
        rw [hearly, hstatus]
        exact ⟨hrest h.1, h.2⟩
    | length => exact hopen obj h
    | counts => exact hopen obj h
    | send =>
        dsimp only
        rw [hearly]
        exact ⟨hopen obj h.1, fun he => hfollowed obj (h.2 he)⟩
    | wait =>
        dsimp only
        rw [hearly]
        exact ⟨hopen obj h.1, fun he => hfollowed obj (h.2 he)⟩
    | check =>
        dsimp only
        rw [hstatus]
        exact hended obj _ h
    | late => exact h
    | leave result =>
        obtain ⟨v, hresult, h⟩ := h
        exact ⟨v, hresult, hended obj v h⟩
    | unlock result =>
        obtain ⟨v, hresult, h⟩ := h
        exact ⟨v, hresult, hended obj v h⟩

/-- With the lines of a response still to come, nothing has been stored. -/
theorem Waiting.followed_of_nil (h : s.Waiting obj) (hlines : s.history.lines = [])
    (hopened : s.history.opened = s.object obj) : s.Followed obj := by
  have hanswer : s.answer = ⟨s.object obj, s.status⟩ := by
    rw [answer, hopened, h.status hlines]
  have hparser := h.parser
  unfold Followed
  rw [h.verdict, hlines, hanswer]
  cases hp : s.parser with
  | judge obj' line =>
      rw [hp] at hparser
      exact absurd hlines hparser.2
  | idle => rfl
  | test line => rfl
  | load line => rfl
  | store obj' line => rfl
  | clear => rfl
  | release => rfl
  | faulted => rfl

/-- The call goes on. -/
theorem Inv.stepCaller (h : s.Inv) (hs : s.stepCaller = some t) : t.Inv := by
  unfold Inv at h
  unfold AtSystem.stepCaller at hs
  rcases hc : s.caller with _ | ⟨thread, _ | obj, stage⟩
  · simp [hc] at hs
  · rw [hc] at h hs
    cases stage with
    | status =>
        obtain rfl := Option.some.inj hs
        obtain ⟨hrest, hlines, hverdict⟩ := h
        exact ⟨⟨hrest.resp, hrest.notice, hrest.parser⟩, hlines, hverdict, rfl⟩
    | pointer =>
        obtain rfl := Option.some.inj hs
        obtain ⟨hrest, -⟩ := h
        exact ⟨rfl, hrest.notice, hrest.parser⟩
    | send =>
        obtain rfl := Option.some.inj hs
        have hrest : s.Rest := h
        exact ⟨⟨hrest.resp, hrest.notice, hrest.parser⟩, rfl⟩
    | leave result =>
        obtain rfl := Option.some.inj hs
        obtain ⟨hrest, hresult⟩ := h
        exact ⟨⟨rfl, hrest.notice, hrest.parser⟩, hresult⟩
    | unlock result =>
        obtain rfl := Option.some.inj hs
        obtain ⟨hrest, -⟩ := h
        exact ⟨hrest.resp, hrest.notice, hrest.parser⟩
    | _ => exact h.elim
  · rw [hc] at h hs
    cases stage with
    | status =>
        obtain rfl := Option.some.inj hs
        obtain ⟨hrest, hlines, hverdict⟩ := h
        exact ⟨⟨hrest.resp, hrest.notice, hrest.parser⟩, hlines, hverdict, rfl⟩
    | pointer =>
        obtain rfl := Option.some.inj hs
        obtain ⟨hrest, hlines, hverdict, hstatus⟩ := h
        have hhandles : s.parser.Handles obj s.history.lines := by
          have hquiet := hrest.parser
          cases hp : s.parser <;> rw [hp] at hquiet <;> trivial
        exact .inl ⟨rfl, hrest.notice, hverdict, hhandles, fun _ => hstatus⟩
    | length =>
        obtain rfl := Option.some.inj hs
        rcases h with h | ⟨v, h⟩
        · exact .inl ⟨h.resp, h.notice, h.verdict, h.parser, h.status⟩
        · exact .inr ⟨v, h.verdict, h.status, h.lines, h.parser⟩
    | counts =>
        obtain rfl := Option.some.inj hs
        refine ⟨?_, ?_⟩
        · rcases h with h | ⟨v, h⟩
          · exact .inl ⟨h.resp, h.notice, h.verdict, h.parser, h.status⟩
          · exact .inr ⟨v, h.verdict, h.status, h.lines, h.parser⟩
        · intro hearly
          have hlines : s.history.lines = [] := by simpa using hearly
          rcases h with h | ⟨v, h⟩
          · refine Waiting.followed_of_nil
              ⟨h.resp, h.notice, h.verdict, h.parser, h.status⟩ hlines ?_
            show { s.object obj with lineCounts := 0 }
              = Function.update s.object obj { s.object obj with lineCounts := 0 } obj
            rw [Function.update_self]
          · exact absurd hlines h.lines
    | send =>
        obtain rfl := Option.some.inj hs
        obtain ⟨hopen, hfollowed⟩ := h
        refine ⟨?_, hfollowed⟩
        rcases hopen with h | ⟨v, h⟩
        · exact .inl ⟨h.resp, h.notice, h.verdict, h.parser, h.status⟩
        · exact .inr ⟨v, h.verdict, h.status, h.lines, h.parser⟩
    | wait =>
        obtain ⟨hopen, hfollowed⟩ := h
        by_cases hnotice : s.notice = 0
        · simp [hnotice] at hs
        · simp only [hnotice, if_false, Option.some.injEq] at hs
          subst hs
          rcases hopen with h | ⟨v, h⟩
          · exact absurd h.notice hnotice
          · obtain ⟨hverdict, hstatus, -, ⟨-, hzero⟩ | ⟨-, -, hzero⟩ | ⟨hquiet, hresp, hone⟩⟩ := h
            · exact absurd hzero hnotice
            · exact absurd hzero hnotice
            · have hnone : s.notice - 1 = 0 := by omega
              subst hstatus
              exact ⟨⟨hresp, hnone, hquiet⟩, hverdict, fun he =>
                (hfollowed he).of_verdict hverdict rfl rfl⟩
    | check =>
        obtain rfl := Option.some.inj hs
        have hended : s.Ended obj s.status := h
        obtain ⟨hrest, hverdict, hfollowed⟩ := hended
        exact ⟨s.status, rfl, ⟨hrest.resp, hrest.notice, hrest.parser⟩, hverdict, hfollowed⟩
    | late => exact h.elim
    | leave result =>
        obtain rfl := Option.some.inj hs
        obtain ⟨v, hresult, hrest, hverdict, hfollowed⟩ := h
        exact ⟨v, hresult, ⟨rfl, hrest.notice, hrest.parser⟩, hverdict, hfollowed⟩
    | unlock result =>
        obtain rfl := Option.some.inj hs
        obtain ⟨v, hresult, hrest, hverdict, hfollowed⟩ := h
        exact ⟨hrest.resp, hrest.notice, hrest.parser⟩

end Caller

/-! ## Whole runs -/

/-- A call leaves the parser and the counts alone. -/
theorem stepCaller_frame {s t : AtSystem τ} (hs : s.stepCaller = some t) :
    t.parser = s.parser ∧ t.history.timeouts = s.history.timeouts
      ∧ t.history.calls = s.history.calls ∧ t.history.claim = s.history.claim := by
  unfold AtSystem.stepCaller at hs
  rcases hc : s.caller with _ | ⟨thread, resp, stage⟩
  · simp [hc] at hs
  · rw [hc] at hs
    cases stage with
    | wait =>
        by_cases hnotice : s.notice = 0
        · simp [hnotice] at hs
        · simp only [hnotice, if_false, Option.some.injEq] at hs
          subst hs
          exact ⟨rfl, rfl, rfl, rfl⟩
    | _ =>
        cases resp <;> cases hs <;> exact ⟨rfl, rfl, rfl, rfl⟩

/-- A timeout is counted. -/
theorem timeout_eq {s t : AtSystem τ} (hs : s.timeout = some t) :
    ∃ thread resp, s.caller = some ⟨thread, resp, .wait⟩ ∧ s.notice = 0
      ∧ t = { s with
          caller := some ⟨thread, resp, .late⟩
          history := { s.history with timeouts := s.history.timeouts + 1 } } := by
  unfold AtSystem.timeout at hs
  split at hs
  · rename_i thread resp hc
    split_ifs at hs with hnotice
    exact ⟨thread, resp, hc, hnotice, (Option.some.inj hs).symm⟩
  · exact absurd hs (by simp)

/-- A call returns at once and changes nothing, or comes in when no one is
inside. -/
theorem enter_cases {s t : AtSystem τ} {thread : τ} {client : Option AtStatus}
    {resp : Option ℕ} (hs : s.enter thread client resp = some t) :
    t = s ∨ (s.caller = none ∧ t = { s with
      caller := some ⟨thread, resp, .status⟩
      history := { s.history with
        calls := s.history.calls + 1, lines := [], verdict := none } }) := by
  unfold AtSystem.enter at hs
  split at hs
  · exact .inl (Option.some.inj hs).symm
  · cases hs
  · rename_i hc
    exact .inr ⟨hc, (Option.some.inj hs).symm⟩

/-- A line comes in while the parser is idle. -/
theorem line_eq {s t : AtSystem τ} {line : List UInt8} (hs : s.step (.line line) = some t) :
    s.parser = .idle ∧ t = { s with parser := .test line } := by
  simp only [step] at hs
  split at hs
  · rename_i hp
    exact ⟨hp, (Option.some.inj hs).symm⟩
  · exact absurd hs (by simp)

/-- No action takes a timeout back. -/
theorem timeouts_mono {s t : AtSystem τ} {a : CmdAction τ} (hs : s.step a = some t) :
    s.history.timeouts ≤ t.history.timeouts := by
  cases a with
  | enter thread client resp =>
      obtain rfl | ⟨-, rfl⟩ := enter_cases hs
      · exact le_rfl
      · exact le_rfl
  | caller => exact (stepCaller_frame hs).2.1.ge
  | timeout =>
      obtain ⟨_, _, -, -, rfl⟩ := timeout_eq hs
      exact Nat.le_succ _
  | line line =>
      obtain ⟨-, rfl⟩ := line_eq hs
      exact le_rfl
  | parser => exact (stepParser_frame hs).2.2.1.ge

/-- **Every action but a timeout keeps the invariant.** -/
theorem Inv.step {s t : AtSystem τ} (h : s.Inv) {a : CmdAction τ} (hs : s.step a = some t)
    (htimeouts : t.history.timeouts = s.history.timeouts) : t.Inv := by
  cases a with
  | enter thread client resp =>
      obtain rfl | ⟨hc, rfl⟩ := enter_cases hs
      · exact h
      · unfold Inv at h
        rw [hc] at h
        exact ⟨⟨h.resp, h.notice, h.parser⟩, rfl, rfl⟩
  | caller => exact h.stepCaller hs
  | timeout =>
      obtain ⟨_, _, -, -, rfl⟩ := timeout_eq hs
      exact absurd htimeouts (Nat.succ_ne_self _)
  | line line =>
      obtain ⟨hp, ht⟩ := line_eq hs
      exact h.line hp ht
  | parser => exact h.stepParser hs

theorem Reachable.inv {object : ℕ → AtResponse} {s : AtSystem τ}
    (h : AtSystem.Reachable object s) (htimeouts : s.history.timeouts = 0) : s.Inv := by
  refine Reach.inv (P := fun s => s.history.timeouts = 0 → s.Inv) h ?_ ?_ htimeouts
  · intro _
    exact ⟨rfl, rfl, trivial⟩
  · intro s a t ih hs ht
    have hmono := timeouts_mono hs
    have hzero : s.history.timeouts = 0 := by omega
    exact (ih hzero).step hs (by omega)

/-- What a call that has its result can tell from the invariant. -/
theorem Inv.leave {s : AtSystem τ} (h : s.Inv) {thread : τ} {obj : ℕ} {result : ℤ}
    (hcaller : s.caller = some ⟨thread, some obj, .leave result⟩) :
    ∃ v, s.history.verdict = some v ∧ result = execResult v ∧ s.notice = 0
      ∧ (s.history.early = false →
        (Answer.mk s.history.opened .ok).collect s.history.lines
          = (⟨s.object obj, v⟩, some [])) := by
  unfold Inv at h
  rw [hcaller] at h
  obtain ⟨v, hresult, hrest, hverdict, hfollowed⟩ := h
  refine ⟨v, hverdict, hresult, hrest.notice, ?_⟩
  intro hearly
  have h := hfollowed hearly
  unfold Followed at h
  rw [hverdict] at h
  exact h

end AtSystem

end DiffCar
