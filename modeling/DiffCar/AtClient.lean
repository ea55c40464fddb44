import DiffCar.TcpServer
import Mathlib.Data.List.ReduceOption

/-!
# AtClient — the parser's thread

`at_client.c`: `get_urc_obj`, `at_recv_readline` and `client_parser`. The
parser cuts what the modem sends into lines. A line ends at `"\r\n"`, at the
end sign if there is one, or as soon as its bytes are a URC; a URC's function
then reads on from the serial line by itself.

The serial line is a list of what it does next: a byte, or a silence longer
than a reader with a timeout waits. `at_recv_readline` waits forever, so it
does not see the silences. A round of the parser's loop takes a line off.

`Ended` is where a line ends in terms of the line alone, and
`atRecvReadline_iff` says that `at_recv_readline` finds the first such place.
-/

namespace DiffCar

/-- What the serial line does next. -/
abbrev Serial := List (Option UInt8)

/-- `struct at_urc`. Its function gets a state, the line and the serial line
behind it, and leaves the rest of it, or does not return. The strings are
given without the zero byte that ends them. -/
structure AtUrc (σ : Type*) where
  cmdPrefix : List UInt8
  cmdSuffix : List UInt8
  func : Option (σ → List UInt8 → Serial → σ × Option Serial)

/-- The client's parameters: `recv_bufsz`, the end sign (zero when there is
none), the tables of URCs, and what becomes of a line that is no URC. -/
structure AtClient (σ : Type*) where
  recvBufsz : ℕ
  endSign : UInt8
  urcTable : List (List (AtUrc σ))
  respond : σ → List UInt8 → σ

variable {σ : Type*}

/-- The test of `get_urc_obj` for one entry of the table. -/
def AtUrc.test (urc : AtUrc σ) (buffer : List UInt8) : Bool :=
  urc.cmdPrefix.length + urc.cmdSuffix.length ≤ buffer.length
    && buffer.take urc.cmdPrefix.length == urc.cmdPrefix
    && buffer.drop (buffer.length - urc.cmdSuffix.length) == urc.cmdSuffix

/-- `get_urc_obj`: the first entry of the tables that matches. -/
def getUrcObj (c : AtClient σ) (buffer : List UInt8) : Option (AtUrc σ) :=
  c.urcTable.findSome? fun table => table.find? fun urc => urc.test buffer

/-- The variables of `at_recv_readline`: the filled part of `recv_line_buf`,
`last_ch` and `is_full`. -/
structure Reading where
  buf : List UInt8
  lastCh : UInt8
  isFull : Bool

/-- Before the first byte. -/
def Reading.start : Reading := ⟨[], 0, false⟩

/-- The variables after one more byte. -/
def Reading.put (c : AtClient σ) (r : Reading) (ch : UInt8) : Reading :=
  if r.buf.length < c.recvBufsz then ⟨r.buf ++ [ch], ch, r.isFull⟩
  else ⟨r.buf, ch, true⟩

/-- "is newline or URC data". -/
def Reading.done (c : AtClient σ) (r : Reading) (ch : UInt8) : Bool :=
  (ch == 10 && r.lastCh == 13) || (c.endSign != 0 && ch == c.endSign)
    || (getUrcObj c (r.put c ch).buf).isSome

/-- `at_recv_readline`: the line, or `none` for `-RT_EFULL`, and the rest of
the serial line. There is no result while the line has not ended. -/
def atRecvReadline (c : AtClient σ) :
    Reading → Serial → Option (Option (List UInt8) × Serial)
  | _, [] => none
  | r, none :: serial => atRecvReadline c r serial
  | r, some ch :: serial =>
      if r.done c ch then
        some (if (r.put c ch).isFull then none else some (r.put c ch).buf, serial)
      else atRecvReadline c (r.put c ch) serial

/-- The line `p` ends with its last byte. -/
def Ended (c : AtClient σ) (p : List UInt8) : Prop :=
  [13, 10] <:+ p ∨ (c.endSign ≠ 0 ∧ p.getLast? = some c.endSign)
    ∨ (getUrcObj c (p.take c.recvBufsz)).isSome

/-- What becomes of a line that has ended: it is dropped when it does not fit. -/
def kept (c : AtClient σ) (p : List UInt8) : Option (List UInt8) :=
  if p.length ≤ c.recvBufsz then some p else none

/-- The variables after the bytes `p` of a line, computed from `p` alone. -/
def Reading.after (c : AtClient σ) (p : List UInt8) : Reading :=
  ⟨p.take c.recvBufsz, p.getLastD 0, decide (c.recvBufsz < p.length)⟩

section Readline

variable {c : AtClient σ} {p q : List UInt8} {ch : UInt8} {serial rest : Serial}

@[simp] theorem Reading.after_nil : Reading.after c [] = .start := by
  simp [Reading.after, Reading.start]

/-- **A byte takes the variables from the line before it to the line with it.** -/
theorem Reading.put_after : (Reading.after c p).put c ch = .after c (p ++ [ch]) := by
  unfold Reading.put Reading.after
  by_cases hroom : p.length < c.recvBufsz
  · have hp : (p.take c.recvBufsz).length < c.recvBufsz := by
      rw [List.length_take]
      omega
    rw [if_pos hp, List.take_of_length_le (by omega),
      List.take_of_length_le (by simp; omega)]
    simp only [List.length_append, List.length_singleton, Reading.mk.injEq, true_and]
    refine ⟨by simp, ?_⟩
    have h₁ : ¬ c.recvBufsz < p.length := by omega
    have h₂ : ¬ c.recvBufsz < p.length + 1 := by omega
    simp [h₁, h₂]
  · have hp : ¬ (p.take c.recvBufsz).length < c.recvBufsz := by
      rw [List.length_take]
      omega
    rw [if_neg hp, List.take_append_of_le_length (by omega)]
    simp only [List.length_append, List.length_singleton, Reading.mk.injEq, true_and]
    refine ⟨by simp, ?_⟩
    have h₂ : c.recvBufsz < p.length + 1 := by omega
    simp [h₂]

/-- A list ends in two given elements. -/
theorem suffix_pair_iff {α : Type*} {l : List α} {a b x : α} :
    [a, b] <:+ l ++ [x] ↔ x = b ∧ l.getLast? = some a := by
  constructor
  · intro ⟨t, ht⟩
    have hsplit : (t ++ [a]) ++ [b] = l ++ [x] := by simpa using ht
    obtain ⟨rfl, hx⟩ := List.append_inj' hsplit rfl
    exact ⟨(List.singleton_inj.mp hx).symm, List.getLast?_concat⟩
  · intro ⟨hx, hl⟩
    obtain ⟨t, rfl⟩ := List.getLast?_eq_some_iff.mp hl
    exact ⟨t, by simp [hx]⟩

theorem Reading.done_after :
    (Reading.after c p).done c ch = true ↔ Ended c (p ++ [ch]) := by
  have hlast : p.getLastD 0 = 13 ↔ p.getLast? = some 13 := by
    cases h : p.getLast? with
    | none =>
        rw [List.getLast?_eq_none_iff] at h
        subst h
        decide
    | some x => simp [List.getLastD_eq_getLast?, h]
  rw [Reading.done, Reading.put_after, Ended, suffix_pair_iff]
  simp only [Reading.after, Bool.or_eq_true, Bool.and_eq_true, beq_iff_eq, bne_iff_ne, hlast,
    List.getLast?_concat, Option.some.injEq, or_assoc]

/-- One byte of `at_recv_readline`, in terms of the line. -/
theorem atRecvReadline_after :
    atRecvReadline c (.after c p) (some ch :: serial)
      = if (Reading.after c p).done c ch then some (kept c (p ++ [ch]), serial)
        else atRecvReadline c (.after c (p ++ [ch])) serial := by
  rw [atRecvReadline, Reading.put_after]
  congr 2
  simp only [kept, Reading.after, decide_eq_true_eq]
  by_cases hfull : c.recvBufsz < (p ++ [ch]).length
  · rw [if_pos hfull, if_neg (Nat.not_le.mpr hfull)]
  · have hle := Nat.not_lt.mp hfull
    rw [if_neg hfull, if_pos hle, List.take_of_length_le hle]

/-- A line comes off the serial line: nothing of it ends the line before its
last byte, and what follows is left. -/
theorem atRecvReadline_append {s : Serial} (hs : s.getLast? ≠ some none)
    (hne : s.reduceOption ≠ []) (hend : Ended c (p ++ s.reduceOption))
    (hfirst : ∀ q, q <+: s.reduceOption → q ≠ [] → q ≠ s.reduceOption →
      ¬ Ended c (p ++ q)) :
    atRecvReadline c (.after c p) (s ++ rest) = some (kept c (p ++ s.reduceOption), rest) := by
  induction s generalizing p with
  | nil => exact absurd rfl hne
  | cons o s ih =>
      cases o with
      | none =>
          rw [List.reduceOption_cons_of_none] at hne hend hfirst ⊢
          refine ih ?_ hne hend hfirst
          intro hlast
          rw [List.getLast?_cons, hlast] at hs
          exact hs rfl
      | some ch =>
          rw [List.reduceOption_cons_of_some] at hend hfirst ⊢
          rw [List.cons_append, atRecvReadline_after]
          by_cases hmore : s.reduceOption = []
          · -- the last byte of the line is the last thing in `s`
            have hnil : s = [] := by
              cases hl : s.getLast? with
              | none => exact List.getLast?_eq_none_iff.mp hl
              | some o =>
                  obtain ⟨t, rfl⟩ := List.getLast?_eq_some_iff.mp hl
                  rw [List.reduceOption_append, List.append_eq_nil_iff] at hmore
                  cases o with
                  | none =>
                      rw [List.getLast?_cons, hl] at hs
                      exact absurd rfl hs
                  | some b => exact absurd hmore.2 (by simp [List.reduceOption_cons_of_some])
            subst hnil
            rw [if_pos (Reading.done_after.mpr hend)]
            rfl
          · have hnot : ¬ Ended c (p ++ [ch]) := by
              refine hfirst [ch] ⟨s.reduceOption, rfl⟩ (by simp) ?_
              intro heq
              exact hmore (List.cons.inj heq).2.symm
            rw [if_neg (mt Reading.done_after.mp hnot)]
            have happ : ∀ q : List UInt8, p ++ ch :: q = p ++ [ch] ++ q := by simp
            rw [happ s.reduceOption] at hend ⊢
            refine ih ?_ hmore hend ?_
            · intro hlast
              rw [List.getLast?_cons, hlast] at hs
              exact hs rfl
            · intro q hq hqne hqs
              rw [← happ]
              refine hfirst (ch :: q) ((List.prefix_cons_inj ch).mpr hq) (by simp) ?_
              intro heq
              exact hqs (List.cons.inj heq).2

/-- What was taken off for a line, going on from the bytes `p` of it. -/
theorem atRecvReadline_split {res : Option (List UInt8)}
    (h : atRecvReadline c (.after c p) serial = some (res, rest)) :
    ∃ s, serial = s ++ rest ∧ s.getLast? ≠ some none ∧ s.reduceOption ≠ []
      ∧ Ended c (p ++ s.reduceOption)
      ∧ (∀ q, q <+: s.reduceOption → q ≠ [] → q ≠ s.reduceOption → ¬ Ended c (p ++ q))
      ∧ res = kept c (p ++ s.reduceOption) := by
  induction serial generalizing p with
  | nil => exact absurd h (by simp [atRecvReadline])
  | cons o serial ih =>
      cases o with
      | none =>
          obtain ⟨s, rfl, hlast, hne, hend, hfirst, hres⟩ := ih h
          refine ⟨none :: s, rfl, ?_, hne, hend, hfirst, hres⟩
          cases hl : s.getLast? with
          | none =>
              rw [List.getLast?_eq_none_iff] at hl
              subst hl
              exact absurd rfl hne
          | some o =>
              rw [List.getLast?_cons, hl]
              rw [hl] at hlast
              exact hlast
      | some ch =>
          rw [atRecvReadline_after] at h
          by_cases hdone : (Reading.after c p).done c ch = true
          · rw [if_pos hdone] at h
            obtain ⟨hres, rfl⟩ := Prod.mk.inj (Option.some.inj h)
            refine ⟨[some ch], rfl, by simp, by simp [List.reduceOption_cons_of_some],
              Reading.done_after.mp hdone, ?_, hres.symm⟩
            intro q hq hqne hqs
            rw [List.reduceOption_cons_of_some, List.reduceOption_nil] at hq hqs
            cases q with
            | nil => exact absurd rfl hqne
            | cons b q =>
                obtain ⟨rfl, hnil⟩ := List.cons_prefix_cons.mp hq
                rw [List.prefix_nil.mp hnil] at hqs
                exact absurd rfl hqs
          · rw [if_neg hdone] at h
            obtain ⟨s, rfl, hlast, hne, hend, hfirst, hres⟩ := ih h
            have happ : ∀ q : List UInt8, p ++ ch :: q = p ++ [ch] ++ q := by simp
            refine ⟨some ch :: s, rfl, ?_, by simp [List.reduceOption_cons_of_some], ?_, ?_, ?_⟩
            · cases hl : s.getLast? with
              | none => simp [List.getLast?_cons, hl]
              | some o =>
                  rw [List.getLast?_cons, hl]
                  rw [hl] at hlast
                  exact hlast
            · rw [List.reduceOption_cons_of_some, happ]
              exact hend
            · intro q hq hqne hqs
              rw [List.reduceOption_cons_of_some] at hq hqs
              cases q with
              | nil => exact absurd rfl hqne
              | cons b q =>
                  obtain ⟨rfl, hq'⟩ := List.cons_prefix_cons.mp hq
                  rw [happ q]
                  by_cases hnil : q = []
                  · subst hnil
                    rw [List.append_nil]
                    exact mt Reading.done_after.mpr hdone
                  · refine hfirst q hq' hnil ?_
                    rintro rfl
                    exact hqs rfl
            · rw [List.reduceOption_cons_of_some, happ]
              exact hres

/-- **What `at_recv_readline` takes for a line**: the shortest run of bytes,
however slow they come, that ends a line. It is dropped when it does not fit
into `recv_bufsz`, but it is off the serial line all the same. -/
theorem atRecvReadline_iff (c : AtClient σ) (serial rest : Serial)
    (res : Option (List UInt8)) :
    atRecvReadline c .start serial = some (res, rest)
      ↔ ∃ s, serial = s ++ rest ∧ s.getLast? ≠ some none ∧ s.reduceOption ≠ []
        ∧ Ended c s.reduceOption
        ∧ (∀ q, q <+: s.reduceOption → q ≠ [] → q ≠ s.reduceOption → ¬ Ended c q)
        ∧ res = kept c s.reduceOption := by
  rw [← Reading.after_nil (c := c)]
  constructor
  · exact atRecvReadline_split
  · intro ⟨s, hserial, hlast, hne, hend, hfirst, hres⟩
    rw [hserial, hres]
    exact atRecvReadline_append hlast hne hend hfirst

end Readline

end DiffCar
