import DiffCar.Lib.Scan
import Mathlib.Data.List.Infix

/-!
# AtResponse — what a command's caller gets to see

`at_client.c`: the branch of `client_parser` for a line of a response, and
`at_resp_get_line` and `at_resp_get_line_by_kw`, which walk over what it has
written. The last byte of a line is overwritten with zero, so the buffer is a
row of strings; a line that does not fit is left out and the ones after it
may come in again.

`Captured` says which strings the buffer holds. The readers are right about
them as long as no line has a zero byte inside (`get_line_eq`).
-/

namespace DiffCar

open Scan

/-- `at_resp_status_t`. -/
inductive RespStatus where
  | ok
  | error
  | timeout
  | buffFull
  deriving DecidableEq

/-- `struct at_response`; `buf` is all of the buffer. -/
structure AtResponse where
  buf : List UInt8
  bufSize : ℕ
  bufLen : ℕ
  lineNum : ℕ
  lineCounts : ℕ

/-- `at_create_resp`, with memory. -/
def atCreateResp (bufSize lineNum : ℕ) : AtResponse :=
  ⟨List.replicate bufSize 0, bufSize, 0, lineNum, 0⟩

/-- The two stores with which a command is begun. -/
def AtResponse.reset (resp : AtResponse) : AtResponse :=
  { resp with bufLen := 0, lineCounts := 0 }

/-- `"OK"`. -/
def atRespEndOk : List UInt8 := [79, 75]

/-- `"ERROR"`. -/
def atRespEndError : List UInt8 := [69, 82, 82, 79, 82]

/-- `"FAIL"`. -/
def atRespEndFail : List UInt8 := [70, 65, 73, 76]

/-- `recv_line_buf[recv_line_len - 1] = '\0'`. -/
def zeroLast (line : List UInt8) : List UInt8 := line.dropLast ++ [0]

/-- The line into the buffer, or `none` when it does not fit. -/
def AtResponse.copy (resp : AtResponse) (line : List UInt8) : Option AtResponse :=
  if resp.bufLen + line.length < resp.bufSize then some
    { resp with
      buf := resp.buf.take resp.bufLen ++ line
        ++ resp.buf.drop (resp.bufLen + line.length)
      bufLen := resp.bufLen + line.length
      lineCounts := resp.lineCounts + 1 }
  else none

/-- "check response result": the status that ends the response, or `none` for
a line in the middle of it. -/
def AtResponse.judge (resp : AtResponse) (line : List UInt8) : Option RespStatus :=
  if atRespEndOk <+: line ∧ resp.lineNum = 0 then some .ok
  else if atRespEndError <:+: cstr line ∨ atRespEndFail <+: line then some .error
  else if resp.lineCounts = resp.lineNum ∧ resp.lineNum ≠ 0 then some .ok
  else none

/-- The response and `client->resp_status`. -/
structure Answer where
  resp : AtResponse
  status : RespStatus

/-- The line, its last byte zero already, into the buffer. -/
def Answer.store (a : Answer) (line : List UInt8) : Answer :=
  match a.resp.copy line with
  | some resp => ⟨resp, a.status⟩
  | none => ⟨a.resp, .buffFull⟩

/-- The branch of `client_parser` for a line of a response. It says whether
the response is complete. -/
def Answer.receive (a : Answer) (line : List UInt8) : Answer × Bool :=
  let line := zeroLast line
  let b := a.store line
  match b.resp.judge line with
  | some status => (⟨b.resp, status⟩, true)
  | none => (b, false)

/-- Lines up to the one that completes the response; `none` when none does. -/
def Answer.collect (a : Answer) : List (List UInt8) → Answer × Option (List (List UInt8))
  | [] => (a, none)
  | line :: lines =>
      match a.receive line with
      | (a, true) => (a, some lines)
      | (a, false) => a.collect lines

/-- `strlen`. -/
def strlen (mem : List UInt8) : ℕ := (cstr mem).length

/-- The loop of `at_resp_get_line`, at the offset `off` of the buffer. -/
def getLineLoop (buf : List UInt8) (respLine : ℕ) : ℕ → ℕ → ℕ → Option ℕ
  | 0, _, _ => none
  | rounds + 1, lineNum, off =>
      if respLine = lineNum then some off
      else getLineLoop buf respLine rounds (lineNum + 1) (off + (strlen (buf.drop off) + 1))

/-- `at_resp_get_line`: an offset into the buffer. -/
def atRespGetLine (resp : AtResponse) (respLine : ℕ) : Option ℕ :=
  if resp.lineCounts < respLine ∨ respLine ≤ 0 then none
  else getLineLoop resp.buf respLine resp.lineCounts 1 0

/-- The loop of `at_resp_get_line_by_kw`. -/
def getLineByKwLoop (buf keyword : List UInt8) : ℕ → ℕ → Option ℕ
  | 0, _ => none
  | rounds + 1, off =>
      if keyword <:+: cstr (buf.drop off) then some off
      else getLineByKwLoop buf keyword rounds (off + (strlen (buf.drop off) + 1))

/-- `at_resp_get_line_by_kw`. -/
def atRespGetLineByKw (resp : AtResponse) (keyword : List UInt8) : Option ℕ :=
  getLineByKwLoop resp.buf keyword resp.lineCounts 0

/-! ## What the buffer holds -/

/-- The strings of a buffer, each with its zero. -/
def strings (texts : List (List UInt8)) : List UInt8 := (texts.map (· ++ [0])).flatten

/-- **The buffer holds these strings**, and there is a byte left behind them. -/
structure Captured (resp : AtResponse) (texts : List (List UInt8)) : Prop where
  size : resp.buf.length = resp.bufSize
  counts : resp.lineCounts = texts.length
  len : resp.bufLen = (strings texts).length
  bytes : resp.buf.take resp.bufLen = strings texts
  room : resp.bufLen = 0 ∨ resp.bufLen < resp.bufSize

/-- The lines that fit one after the other, with `used` bytes taken: each one
that does not fit is left out. -/
def fitting (bufSize : ℕ) : ℕ → List (List UInt8) → List (List UInt8)
  | _, [] => []
  | used, line :: lines =>
      if used + line.length < bufSize then
        line.dropLast :: fitting bufSize (used + line.length) lines
      else fitting bufSize used lines

@[simp] theorem strings_nil : strings [] = [] := rfl

@[simp] theorem strings_cons (text : List UInt8) (texts : List (List UInt8)) :
    strings (text :: texts) = text ++ 0 :: strings texts := by
  simp [strings]

theorem strings_append (texts texts' : List (List UInt8)) :
    strings (texts ++ texts') = strings texts ++ strings texts' := by
  simp [strings]

@[simp] theorem zeroLast_length {line : List UInt8} (h : line ≠ []) :
    (zeroLast line).length = line.length := by
  have hpos := List.length_pos_iff.mpr h
  rw [zeroLast, List.length_append, List.length_dropLast, List.length_singleton]
  omega

section Capture

variable {resp : AtResponse} {texts : List (List UInt8)} {line : List UInt8}

theorem captured_create (bufSize lineNum : ℕ) :
    Captured (atCreateResp bufSize lineNum) [] :=
  ⟨List.length_replicate, rfl, rfl, rfl, .inl rfl⟩

/-- A reset forgets the strings, whatever the buffer held. -/
theorem Captured.reset (h : Captured resp texts) : Captured resp.reset [] :=
  ⟨h.size, rfl, rfl, rfl, .inl rfl⟩

/-- A line that does not fit. -/
theorem copy_of_not_fits (hline : line ≠ [])
    (hfits : ¬ resp.bufLen + line.length < resp.bufSize) :
    resp.copy (zeroLast line) = none := by
  rw [AtResponse.copy, zeroLast_length hline, if_neg hfits]

/-- A line that fits is one more string. -/
theorem Captured.copy (h : Captured resp texts) (hline : line ≠ [])
    (hfits : resp.bufLen + line.length < resp.bufSize) :
    ∃ resp', resp.copy (zeroLast line) = some resp'
      ∧ Captured resp' (texts ++ [line.dropLast])
      ∧ resp'.bufLen = resp.bufLen + line.length
      ∧ resp'.bufSize = resp.bufSize ∧ resp'.lineNum = resp.lineNum := by
  have hlen := zeroLast_length hline
  have htake : (resp.buf.take resp.bufLen).length = resp.bufLen := by
    rw [List.length_take, h.size]
    omega
  have hstrings : strings (texts ++ [line.dropLast]) = strings texts ++ zeroLast line := by
    rw [strings_append, strings_cons, strings_nil]
    rfl
  have hcopy : resp.copy (zeroLast line) = some
      { resp with
        buf := resp.buf.take resp.bufLen ++ zeroLast line
          ++ resp.buf.drop (resp.bufLen + line.length)
        bufLen := resp.bufLen + line.length
        lineCounts := resp.lineCounts + 1 } := by
    rw [AtResponse.copy, hlen, if_pos hfits]
  refine ⟨_, hcopy, ⟨?_, ?_, ?_, ?_, ?_⟩, rfl, rfl, rfl⟩
  · simp only [List.length_append, htake, hlen, List.length_drop, h.size]
    omega
  · simp [h.counts]
  · rw [hstrings, List.length_append, ← h.len, hlen]
  · have hfront : (resp.buf.take resp.bufLen ++ zeroLast line).length
        = resp.bufLen + line.length := by
      rw [List.length_append, htake, hlen]
    show (resp.buf.take resp.bufLen ++ zeroLast line ++ _).take _ = _
    rw [← hfront, List.take_left, h.bytes, hstrings]
  · exact .inr hfits

/-- **One line of a response**: it is kept if it fits. -/
theorem Captured.receive {a : Answer} (h : Captured a.resp texts) (hline : line ≠ []) :
    Captured (a.receive line).1.resp
        (texts ++ fitting a.resp.bufSize a.resp.bufLen [line])
      ∧ (a.receive line).1.resp.bufSize = a.resp.bufSize
      ∧ (a.receive line).1.resp.lineNum = a.resp.lineNum
      ∧ (a.receive line).1.resp.bufLen
        = if a.resp.bufLen + line.length < a.resp.bufSize then a.resp.bufLen + line.length
          else a.resp.bufLen := by
  -- the verdict changes the status only
  have hresp : (a.receive line).1.resp
      = (a.resp.copy (zeroLast line)).getD a.resp := by
    rw [Answer.receive, Answer.store]
    cases a.resp.copy (zeroLast line) with
    | none =>
        dsimp only
        cases a.resp.judge (zeroLast line) <;> rfl
    | some resp =>
        dsimp only
        cases resp.judge (zeroLast line) <;> rfl
  rw [hresp]
  by_cases hfits : a.resp.bufLen + line.length < a.resp.bufSize
  · obtain ⟨resp', hcopy, hcaptured, hlen, hsize, hnum⟩ := h.copy hline hfits
    rw [hcopy, if_pos hfits, fitting, if_pos hfits]
    exact ⟨hcaptured, hsize, hnum, hlen⟩
  · rw [copy_of_not_fits hline hfits, if_neg hfits, fitting, if_neg hfits]
    exact ⟨by rw [fitting, List.append_nil]; exact h, rfl, rfl, rfl⟩

/-- What fits of one line and what follows it. -/
theorem fitting_cons (bufSize used : ℕ) (lines : List (List UInt8)) :
    fitting bufSize used (line :: lines)
      = fitting bufSize used [line]
        ++ fitting bufSize (if used + line.length < bufSize then used + line.length else used)
          lines := by
  rw [fitting, fitting]
  by_cases hfits : used + line.length < bufSize
  · rw [if_pos hfits, if_pos hfits, if_pos hfits]
    rfl
  · rw [if_neg hfits, if_neg hfits, if_neg hfits]
    rfl

/-- **A response holds the lines that fit**, up to the one that completed it. -/
theorem Captured.collect {a : Answer} (h : Captured a.resp texts)
    (lines : List (List UInt8)) (hlines : ∀ line ∈ lines, line ≠ []) :
    ∃ taken, lines = taken ++ (a.collect lines).2.getD []
      ∧ Captured (a.collect lines).1.resp
          (texts ++ fitting a.resp.bufSize a.resp.bufLen taken) := by
  induction lines generalizing a texts with
  | nil => exact ⟨[], rfl, by rw [fitting, List.append_nil]; exact h⟩
  | cons line lines ih =>
      obtain ⟨hcaptured, hsize, -, hlen⟩ := h.receive (hlines line List.mem_cons_self)
      rw [Answer.collect]
      cases hreceive : a.receive line with
      | mk b done =>
          rw [hreceive] at hcaptured hsize hlen
          cases done with
          | true => exact ⟨[line], rfl, hcaptured⟩
          | false =>
              obtain ⟨taken, htaken, hrest⟩ :=
                ih hcaptured fun l hl => hlines l (List.mem_cons_of_mem _ hl)
              refine ⟨line :: taken, congrArg (line :: ·) htaken, ?_⟩
              rw [fitting_cons, ← List.append_assoc]
              rw [hsize, hlen] at hrest
              exact hrest

theorem mem_fitting {bufSize used : ℕ} {lines : List (List UInt8)} {text : List UInt8}
    (h : text ∈ fitting bufSize used lines) : ∃ l ∈ lines, text = l.dropLast := by
  induction lines generalizing used with
  | nil => exact absurd h List.not_mem_nil
  | cons line lines ih =>
      rw [fitting] at h
      split_ifs at h with hfits
      · rcases List.mem_cons.mp h with rfl | h
        · exact ⟨line, List.mem_cons_self, rfl⟩
        · obtain ⟨l, hl, heq⟩ := ih h
          exact ⟨l, List.mem_cons_of_mem _ hl, heq⟩
      · obtain ⟨l, hl, heq⟩ := ih h
        exact ⟨l, List.mem_cons_of_mem _ hl, heq⟩

/-- Lines behind the one that completed the response do not matter. -/
theorem collect_append {a : Answer} {lines : List (List UInt8)}
    (h : (a.collect lines).2 = some []) (rest : List (List UInt8)) :
    a.collect (lines ++ rest) = ((a.collect lines).1, some rest) := by
  induction lines generalizing a with
  | nil => exact absurd h (by simp [Answer.collect])
  | cons line lines ih =>
      rw [List.cons_append]
      rw [Answer.collect] at h ⊢
      rw [Answer.collect]
      cases hreceive : a.receive line with
      | mk b done =>
          rw [hreceive] at h
          cases done with
          | true =>
              obtain rfl : lines = [] := Option.some.inj h
              rfl
          | false => exact ih h

end Capture

/-! ## The verdict -/

/-- A line that completes a response that waits for its end. -/
def Final (line : List UInt8) : Prop :=
  atRespEndOk <+: zeroLast line ∨ atRespEndError <:+: cstr (zeroLast line)
    ∨ atRespEndFail <+: zeroLast line

instance (line : List UInt8) : Decidable (Final line) :=
  inferInstanceAs (Decidable (_ ∨ _ ∨ _))

section Verdict

variable {a : Answer}

theorem receive_lineNum (a : Answer) (line : List UInt8) :
    (a.receive line).1.resp.lineNum = a.resp.lineNum := by
  rw [Answer.receive, Answer.store]
  cases hcopy : a.resp.copy (zeroLast line) with
  | none =>
      dsimp only
      cases a.resp.judge (zeroLast line) <;> rfl
  | some resp =>
      rw [AtResponse.copy] at hcopy
      split_ifs at hcopy
      obtain rfl := Option.some.inj hcopy
      dsimp only
      split <;> rfl

/-- The verdict on a line does not depend on whether it was kept. -/
theorem receive_snd (hnum : a.resp.lineNum = 0) (line : List UInt8) :
    ((a.receive line).2 = true ↔ Final line)
      ∧ (Final line → (a.receive line).1.status
        = if atRespEndOk <+: zeroLast line then .ok else .error) := by
  have hjudge : ∀ resp : AtResponse, resp.lineNum = 0 →
      resp.judge (zeroLast line)
        = if atRespEndOk <+: zeroLast line then some .ok
          else if Final line then some .error else none := by
    intro resp hresp
    rw [AtResponse.judge, hresp]
    by_cases hok : atRespEndOk <+: zeroLast line
    · simp [hok]
    · simp [hok, Final]
  have hcopied : ∀ resp, a.resp.copy (zeroLast line) = some resp → resp.lineNum = 0 := by
    intro resp hcopy
    rw [AtResponse.copy] at hcopy
    split_ifs at hcopy
    obtain rfl := Option.some.inj hcopy
    exact hnum
  have hok : atRespEndOk <+: zeroLast line → Final line := .inl
  rw [Answer.receive, Answer.store]
  cases hcopy : a.resp.copy (zeroLast line) with
  | none =>
      dsimp only
      rw [hjudge _ hnum]
      by_cases h : atRespEndOk <+: zeroLast line
      · simp [h, hok h]
      · by_cases hfinal : Final line <;> simp [h, hfinal]
  | some resp =>
      dsimp only
      rw [hjudge _ (hcopied resp hcopy)]
      by_cases h : atRespEndOk <+: zeroLast line
      · simp [h, hok h]
      · by_cases hfinal : Final line <;> simp [h, hfinal]

/-- **The first line that ends the response decides**, and its beginning alone
decides how. -/
theorem collect_verdict (hnum : a.resp.lineNum = 0) (init : List (List UInt8))
    (hinit : ∀ l ∈ init, ¬ Final l) (last : List UInt8) (hlast : Final last)
    (rest : List (List UInt8)) :
    (a.collect (init ++ last :: rest)).2 = some rest
      ∧ (a.collect (init ++ last :: rest)).1.status
        = if atRespEndOk <+: zeroLast last then .ok else .error := by
  induction init generalizing a with
  | nil =>
      obtain ⟨hdone, hstatus⟩ := receive_snd hnum last
      rw [List.nil_append, Answer.collect]
      cases hreceive : a.receive last with
      | mk b done =>
          rw [hreceive] at hdone hstatus
          obtain rfl : done = true := hdone.mpr hlast
          exact ⟨rfl, hstatus hlast⟩
  | cons l init ih =>
      obtain ⟨hdone, -⟩ := receive_snd hnum l
      have hnum' := receive_lineNum a l
      rw [List.cons_append, Answer.collect]
      cases hreceive : a.receive l with
      | mk b done =>
          rw [hreceive] at hdone hnum'
          cases done with
          | true => exact absurd (hdone.mp rfl) (hinit l List.mem_cons_self)
          | false =>
              exact ih (hnum'.trans hnum) fun l hl => hinit l (List.mem_cons_of_mem _ hl)

end Verdict

/-! ## Walking over the strings -/

section Walk

variable {buf tail : List UInt8} {texts : List (List UInt8)}

/-- The string at the front of a row. -/
theorem cstr_strings {text : List UInt8} (htext : 0 ∉ text) :
    cstr (strings (text :: texts) ++ tail) = text := by
  rw [strings_cons, List.append_assoc, cstr, List.takeWhile_append_of_pos]
  · simp
  · intro b hb
    have hne : b ≠ 0 := by
      rintro rfl
      exact htext hb
    simpa using hne

/-- `strlen + 1` steps over it. -/
theorem drop_strings {text : List UInt8} (htext : 0 ∉ text) {off : ℕ}
    (hoff : buf.drop off = strings (text :: texts) ++ tail) :
    buf.drop (off + (strlen (buf.drop off) + 1)) = strings texts ++ tail := by
  rw [← List.drop_drop, hoff, strlen, cstr_strings htext, strings_cons]
  have hassoc : text ++ 0 :: strings texts ++ tail = (text ++ [0]) ++ (strings texts ++ tail) := by
    simp
  have hlen : text.length + 1 = (text ++ [0]).length := by simp
  rw [hassoc, hlen, List.drop_left]

theorem getLineLoop_strings (htexts : ∀ text ∈ texts, 0 ∉ text) {off : ℕ}
    (hoff : buf.drop off = strings texts ++ tail) {lineNum j : ℕ} (hj : j < texts.length) :
    (getLineLoop buf (lineNum + j) texts.length lineNum off).map (fun off => cstr (buf.drop off))
      = texts[j]? := by
  induction texts generalizing off lineNum j with
  | nil => exact absurd hj (Nat.not_lt_zero _)
  | cons text texts ih =>
      have htext := htexts text List.mem_cons_self
      rw [List.length_cons, getLineLoop]
      cases j with
      | zero =>
          rw [if_pos (Nat.add_zero lineNum), Option.map_some, hoff, cstr_strings htext]
          rfl
      | succ j =>
          rw [List.length_cons] at hj
          rw [if_neg (by omega), List.getElem?_cons_succ]
          have hnext : lineNum + (j + 1) = lineNum + 1 + j := by omega
          rw [hnext]
          exact ih (fun t ht => htexts t (List.mem_cons_of_mem _ ht))
            (drop_strings htext hoff) (by omega)

theorem getLineByKwLoop_strings (htexts : ∀ text ∈ texts, 0 ∉ text) (keyword : List UInt8)
    {off : ℕ} (hoff : buf.drop off = strings texts ++ tail) :
    (getLineByKwLoop buf keyword texts.length off).map (fun off => cstr (buf.drop off))
      = texts.find? fun text => decide (keyword <:+: text) := by
  induction texts generalizing off with
  | nil => rfl
  | cons text texts ih =>
      have htext := htexts text List.mem_cons_self
      rw [List.length_cons, getLineByKwLoop, List.find?_cons, hoff, cstr_strings htext]
      by_cases hkeyword : keyword <:+: text
      · rw [if_pos hkeyword, decide_eq_true hkeyword, Option.map_some, hoff,
          cstr_strings htext]
      · rw [if_neg hkeyword, decide_eq_false hkeyword, ← hoff]
        exact ih (fun t ht => htexts t (List.mem_cons_of_mem _ ht))
          (drop_strings htext hoff)

end Walk

/-- **The readers return what was captured**: line `k` is the `k`-th string,
counted from one, and the search by a keyword finds the first string with the
keyword in it. -/
theorem Captured.readers {resp : AtResponse} {texts : List (List UInt8)}
    (h : Captured resp texts) (htexts : ∀ text ∈ texts, 0 ∉ text) :
    (∀ k, (atRespGetLine resp (k + 1)).map (fun off => cstr (resp.buf.drop off)) = texts[k]?)
      ∧ ∀ keyword, (atRespGetLineByKw resp keyword).map (fun off => cstr (resp.buf.drop off))
        = texts.find? fun text => decide (keyword <:+: text) := by
  have hbuf : resp.buf.drop 0 = strings texts ++ resp.buf.drop resp.bufLen := by
    rw [List.drop_zero, ← h.bytes, List.take_append_drop]
  constructor
  · intro k
    rw [atRespGetLine, h.counts]
    by_cases hk : k < texts.length
    · rw [if_neg (by omega), Nat.add_comm k 1]
      exact getLineLoop_strings htexts hbuf hk
    · rw [if_pos (by omega), List.getElem?_eq_none (by omega)]
      rfl
  · intro keyword
    rw [atRespGetLineByKw, h.counts]
    exact getLineByKwLoop_strings htexts keyword hbuf

/-- **What a caller sees of a response that waits for its end.** Whatever the
size of the buffer, the first line that begins with `OK` or `FAIL` or has
`ERROR` in it completes the response, with the status OK exactly if it begins
with `OK`. The readers then return the lines that fitted, in order, without
their last bytes; that some did not fit shows nowhere. -/
theorem response_seen (bufSize : ℕ) (old : AtResponse) (texts : List (List UInt8))
    (hold : Captured old texts) (hsize : old.bufSize = bufSize) (hnum : old.lineNum = 0)
    (init : List (List UInt8)) (last : List UInt8) (rest : List (List UInt8))
    (hne : ∀ l ∈ init ++ [last], l ≠ []) (hzero : ∀ l ∈ init ++ [last], 0 ∉ l.dropLast)
    (hinit : ∀ l ∈ init, ¬ Final l) (hlast : Final last) :
    let r := (Answer.mk old.reset .ok).collect (init ++ last :: rest)
    let seen := fitting bufSize 0 (init ++ [last])
    r.2 = some rest
      ∧ (r.1.status = if atRespEndOk <+: zeroLast last then .ok else .error)
      ∧ (∀ k, (atRespGetLine r.1.resp (k + 1)).map (fun off => cstr (r.1.resp.buf.drop off))
        = seen[k]?)
      ∧ ∀ keyword, (atRespGetLineByKw r.1.resp keyword).map
          (fun off => cstr (r.1.resp.buf.drop off))
        = seen.find? fun text => decide (keyword <:+: text) := by
  intro r seen
  have hdone := collect_verdict (a := ⟨old.reset, .ok⟩) hnum init hinit last hlast []
  obtain ⟨hrest, hstatus⟩ := collect_verdict (a := ⟨old.reset, .ok⟩) hnum init hinit last hlast
    rest
  obtain ⟨taken, htaken, hcaptured⟩ :=
    (Captured.reset hold).collect (a := ⟨old.reset, .ok⟩) (init ++ [last]) hne
  rw [hdone.1, Option.getD_some, List.append_nil] at htaken
  subst htaken
  have hwhole : (Answer.mk old.reset .ok).collect (init ++ last :: rest)
      = (((Answer.mk old.reset .ok).collect (init ++ [last])).1, some rest) := by
    have happ := collect_append hdone.1 rest
    rw [List.append_assoc] at happ
    exact happ
  have hseen : Captured r.1.resp seen := by
    show Captured ((Answer.mk old.reset .ok).collect (init ++ last :: rest)).1.resp seen
    rw [hwhole]
    show Captured _ (fitting bufSize 0 _)
    rw [← hsize]
    exact hcaptured
  obtain ⟨hline, hkeyword⟩ := hseen.readers (by
    intro text htext
    obtain ⟨l, hl, rfl⟩ := mem_fitting htext
    exact hzero l hl)
  exact ⟨hrest, hstatus, hline, hkeyword⟩

/-- An answer of two lines into a buffer of eight bytes: the first does not
fit, the second is `OK`. -/
theorem response_seen_overflow :
    let r := (Answer.mk (atCreateResp 8 0).reset .ok).collect
      [[43, 67, 73, 70, 83, 82, 58, 49, 13, 10], [79, 75, 13, 10]]
    r.2 = some [] ∧ r.1.status = .ok
      ∧ (atRespGetLine r.1.resp 1).map (fun off => cstr (r.1.resp.buf.drop off))
        = some [79, 75, 13] := by
  have hseen := response_seen 8 (atCreateResp 8 0) [] (captured_create 8 0) rfl rfl
    [[43, 67, 73, 70, 83, 82, 58, 49, 13, 10]] [79, 75, 13, 10] [] (by decide) (by decide)
    (by decide) (by decide)
  exact ⟨hseen.1, hseen.2.1.trans (by decide), (hseen.2.2.1 0).trans (by decide)⟩

end DiffCar
