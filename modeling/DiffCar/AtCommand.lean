import DiffCar.AtResponse
import DiffCar.Lib.Reach
import Mathlib.Algebra.Ring.Nat
import Mathlib.Logic.Function.Basic

/-!
# AtCommand — a command and the parser

`at_client.c`: `at_obj_exec_cmd`, called by any thread, and the branch of
`client_parser` for the lines of its response. They share `client->resp`,
`client->resp_status`, the response object and the semaphore
`client->resp_notice`; `client->lock` lets one command in at a time. A command
without a response object does not wait. An action is one of the statements
that touch what is shared; the three that put a line into the response object
are one action, since nobody else touches it once the command has been sent.

The ghost `history` counts the calls and the timeouts, and takes down for the
call that is inside which lines were put into its object, how the object
looked when the command was sent, and the verdict.
-/

namespace DiffCar

open Interleave

/-- `client->status`. -/
inductive AtStatus where
  | uninitialized
  | initialized
  | cli
deriving DecidableEq

/-- What `at_obj_exec_cmd` returns before it takes the lock, if it does: without
a client `-RT_ERROR`, with a response object in the CLI mode `-RT_EBUSY`. The
client is given by the `client->status` that the call finds. -/
def execRefused : Option AtStatus → Option ℕ → Option ℤ
  | none, _ => some (-1)
  | some .cli, some _ => some (-7)
  | some _, _ => none

/-- Where a call of `at_obj_exec_cmd` is: about to do what the name says. -/
inductive CmdStage where
  /-- `client->resp_status = AT_RESP_OK` -/
  | status
  /-- `client->resp = resp` -/
  | pointer
  /-- `resp->buf_len = 0` -/
  | length
  /-- `resp->line_counts = 0` -/
  | counts
  /-- `at_vprintfln` -/
  | send
  /-- `rt_sem_take` -/
  | wait
  /-- it was taken: look at `client->resp_status` -/
  | check
  /-- it was not: `client->resp_status = AT_RESP_TIMEOUT` -/
  | late
  /-- `client->resp = RT_NULL` -/
  | leave (result : ℤ)
  /-- `rt_mutex_release` and return -/
  | unlock (result : ℤ)

/-- The call that holds `client->lock`: its thread, its response object unless
`resp` is `RT_NULL`. -/
structure Caller (τ : Type*) where
  thread : τ
  resp : Option ℕ
  stage : CmdStage

/-- Where the parser is with a line that is no URC. -/
inductive RespStage where
  | idle
  /-- `client->resp != RT_NULL` -/
  | test (line : List UInt8)
  /-- `resp = client->resp` -/
  | load (line : List UInt8)
  /-- copy the line, or `AT_RESP_BUFF_FULL` -/
  | store (obj : ℕ) (line : List UInt8)
  /-- "check response result" -/
  | judge (obj : ℕ) (line : List UInt8)
  /-- `client->resp = RT_NULL` -/
  | clear
  /-- `rt_sem_release` -/
  | release
  /-- `resp` was null -/
  | faulted

/-- Ghost state. `opened` is the response object as the command was sent and
`early` whether a line had come into it before; `claim` is the number of the
call whose response the parser handles or handled last. -/
structure CmdHistory where
  calls : ℕ
  timeouts : ℕ
  lines : List (List UInt8)
  verdict : Option RespStatus
  opened : AtResponse
  early : Bool
  claim : ℕ

/-- What the calls and the parser share, and where they are. -/
structure AtSystem (τ : Type*) where
  caller : Option (Caller τ)
  parser : RespStage
  resp : Option ℕ
  status : RespStatus
  notice : ℕ
  object : ℕ → AtResponse
  history : CmdHistory

variable {τ : Type*}

/-- After `at_client_init`; `object` are the response objects there will be. -/
def AtSystem.start (object : ℕ → AtResponse) : AtSystem τ where
  caller := none
  parser := .idle
  resp := none
  status := .ok
  notice := 0
  object := object
  history := ⟨0, 0, [], none, atCreateResp 0 0, false, 0⟩

/-- A thread calls, the call goes on, its wait times out; a line comes in, the
parser goes on. Nothing but `execRefused` reads `client->status`, so a call may
find any. -/
inductive CmdAction (τ : Type*) where
  | enter (thread : τ) (client : Option AtStatus) (resp : Option ℕ)
  | caller
  | timeout
  | line (line : List UInt8)
  | parser

/-- A call returns at once, or its `rt_mutex_take` succeeds. -/
def AtSystem.enter (s : AtSystem τ) (thread : τ) (client : Option AtStatus)
    (resp : Option ℕ) : Option (AtSystem τ) :=
  match execRefused client resp, s.caller with
  | some _, _ => some s
  | none, some _ => none
  | none, none => some
      { s with
        caller := some ⟨thread, resp, .status⟩
        history := { s.history with calls := s.history.calls + 1, lines := [], verdict := none } }

/-- What `at_obj_exec_cmd` returns for a status: `-RT_ERROR` unless it is OK. -/
def execResult (status : RespStatus) : ℤ := if status ≠ .ok then -1 else 0

/-- The call goes on. -/
def AtSystem.stepCaller (s : AtSystem τ) : Option (AtSystem τ) :=
  match s.caller with
  | none => none
  | some ⟨t, resp, .status⟩ => some
      { s with status := .ok, caller := some ⟨t, resp, .pointer⟩ }
  | some ⟨t, none, .pointer⟩ => some
      { s with resp := none, caller := some ⟨t, none, .send⟩ }
  | some ⟨t, some obj, .pointer⟩ => some
      { s with resp := some obj, caller := some ⟨t, some obj, .length⟩ }
  -- there is no object to reset
  | some ⟨_, none, .length⟩ => none
  | some ⟨_, none, .counts⟩ => none
  | some ⟨t, some obj, .length⟩ => some
      { s with
        object := Function.update s.object obj { s.object obj with bufLen := 0 }
        caller := some ⟨t, some obj, .counts⟩ }
  | some ⟨t, some obj, .counts⟩ =>
      let opened := { s.object obj with lineCounts := 0 }
      some
        { s with
          object := Function.update s.object obj opened
          caller := some ⟨t, some obj, .send⟩
          history := { s.history with
            opened := opened, early := decide (s.history.lines ≠ []) } }
  | some ⟨t, none, .send⟩ => some { s with caller := some ⟨t, none, .leave 0⟩ }
  | some ⟨t, some obj, .send⟩ => some { s with caller := some ⟨t, some obj, .wait⟩ }
  | some ⟨t, resp, .wait⟩ =>
      if s.notice = 0 then none
      else some { s with notice := s.notice - 1, caller := some ⟨t, resp, .check⟩ }
  | some ⟨t, resp, .check⟩ => some
      { s with caller := some ⟨t, resp, .leave (execResult s.status)⟩ }
  | some ⟨t, resp, .late⟩ => some
      { s with status := .timeout, caller := some ⟨t, resp, .leave (-2)⟩ }
  | some ⟨t, resp, .leave result⟩ => some
      { s with resp := none, caller := some ⟨t, resp, .unlock result⟩ }
  | some ⟨_, _, .unlock _⟩ => some { s with caller := none }

/-- The wait for the notice times out. -/
def AtSystem.timeout (s : AtSystem τ) : Option (AtSystem τ) :=
  match s.caller with
  | some ⟨t, resp, .wait⟩ =>
      if s.notice = 0 then some
        { s with
          caller := some ⟨t, resp, .late⟩
          history := { s.history with timeouts := s.history.timeouts + 1 } }
      else none
  | _ => none

/-- The parser goes on. -/
def AtSystem.stepParser (s : AtSystem τ) : Option (AtSystem τ) :=
  match s.parser with
  | .idle => none
  | .test line =>
      if s.resp = none then some { s with parser := .idle }
      else some { s with parser := .load line }
  | .load line =>
      match s.resp with
      | none => some { s with parser := .faulted }
      | some obj => some
          { s with
            parser := .store obj line
            history := { s.history with claim := s.history.calls } }
  | .store obj line =>
      let a := (Answer.mk (s.object obj) s.status).store (zeroLast line)
      some
        { s with
          object := Function.update s.object obj a.resp
          status := a.status
          parser := .judge obj line
          history := { s.history with lines := s.history.lines ++ [line] } }
  | .judge obj line =>
      match (s.object obj).judge (zeroLast line) with
      | none => some { s with parser := .idle }
      | some status => some
          { s with
            status := status
            parser := .clear
            history := { s.history with verdict := some status } }
  | .clear => some { s with resp := none, parser := .release }
  -- `sem->value` has 16 bits
  | .release => some { s with notice := (s.notice + 1) % 2 ^ 16, parser := .idle }
  | .faulted => none

/-- One action of the system. -/
def AtSystem.step (s : AtSystem τ) : CmdAction τ → Option (AtSystem τ)
  | .enter thread client resp => s.enter thread client resp
  | .caller => s.stepCaller
  | .timeout => s.timeout
  | .line line =>
      match s.parser with
      | .idle => some { s with parser := .test line }
      | _ => none
  | .parser => s.stepParser

/-- The states any interleaving leads to. -/
abbrev AtSystem.Reachable (object : ℕ → AtResponse) : AtSystem τ → Prop :=
  Reach AtSystem.step (AtSystem.start object)

end DiffCar
