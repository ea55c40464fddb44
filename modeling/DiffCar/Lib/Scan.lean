import Mathlib.Algebra.Ring.Int.Defs
import Mathlib.Data.List.TakeWhile

/-!
# Scanning a C string

`sscanf` for the directives `%d` and literal characters, over bytes. A string
ends at its first zero byte. `%d` skips white space and reads an optional sign
and decimal digits; it fails without a digit, and a value out of the range of
a 32-bit `long` saturates, as `strtol` does. The scan stops at the first
directive that fails; what it has assigned before stays.

`Field` is the grammar of what `%d` reads: `scanInt` takes a field that no
digit follows (`Field.scanInt`) and nothing else (`field_of_scanInt`). What a
scan assigns follows from its directives one by one (`scan_lits_getElem?`,
`scan_int_getElem?_succ`).
-/

namespace Scan

/-- A directive of a format. -/
inductive Directive where
  | lit (c : UInt8)
  | int

/-- `isspace` in the C locale. -/
def isSpace (b : UInt8) : Bool := (9 ≤ b && b ≤ 13) || b == 32

/-- `isdigit`. -/
def isDigit (b : UInt8) : Bool := 48 ≤ b && b ≤ 57

/-- The string that starts at the first of these bytes. -/
def cstr (bytes : List UInt8) : List UInt8 := bytes.takeWhile (· ≠ 0)

/-- The value of a run of decimal digits. -/
def decimal (digits : List UInt8) : ℕ :=
  digits.foldl (fun acc b => 10 * acc + (b.toNat - 48)) 0

/-- The nearest value of a 32-bit `long`. -/
def saturate32 (v : ℤ) : ℤ := max (-2 ^ 31) (min (2 ^ 31 - 1) v)

/-- An optional sign: whether it is a minus, and the rest. -/
def scanSign : List UInt8 → Bool × List UInt8
  | 43 :: s => (false, s)
  | 45 :: s => (true, s)
  | s => (false, s)

/-- `%d`: the value and the rest, or a matching failure. -/
def scanInt (s : List UInt8) : Option (ℤ × List UInt8) :=
  let r := scanSign (s.dropWhile isSpace)
  let digits := r.2.takeWhile isDigit
  if digits = [] then none
  else
    let v : ℤ := decimal digits
    some (saturate32 (if r.1 then -v else v), r.2.dropWhile isDigit)

/-- The values a scan assigns, in order. -/
def scan : List Directive → List UInt8 → List ℤ
  | [], _ => []
  | .lit _ :: _, [] => []
  | .lit c :: ds, b :: s => if b = c then scan ds s else []
  | .int :: ds, s =>
      match scanInt s with
      | none => []
      | some (v, s) => v :: scan ds s

/-! ## What `%d` reads -/

/-- A sign as it is written: none, plus or minus. -/
def signText : Option Bool → List UInt8
  | none => []
  | some false => [43]
  | some true => [45]

/-- A number in decimal digits. -/
structure Digits (digits : List UInt8) : Prop where
  ne_nil : digits ≠ []
  digit : ∀ b ∈ digits, isDigit b = true

/-- The text of a number, blanks in front and an optional sign: what `%d`
reads, and the value it stands for. -/
def Field (field : List UInt8) (v : ℤ) : Prop :=
  ∃ (blanks : List UInt8) (sign : Option Bool) (digits : List UInt8),
    field = blanks ++ (signText sign ++ digits)
      ∧ (∀ b ∈ blanks, isSpace b = true) ∧ Digits digits
      ∧ v = if sign = some true then -(decimal digits : ℤ) else decimal digits

theorem Digits.ne_zero {digits : List UInt8} (h : Digits digits) :
    ∀ b ∈ digits, b ≠ 0 := by
  rintro b hb rfl
  exact absurd (h.digit 0 hb) (by decide)

/-- Digits alone are a field. -/
theorem Digits.field {digits : List UInt8} (h : Digits digits) :
    Field digits (decimal digits) :=
  ⟨[], none, digits, rfl, fun _ hb => absurd hb List.not_mem_nil, h, rfl⟩

/-- No digit comes first. -/
def Stops (rest : List UInt8) : Prop := ∀ b ∈ rest.head?, isDigit b = false

theorem isSpace_of_isDigit {b : UInt8} (h : isDigit b = true) : isSpace b = false := by
  simp only [isDigit, Bool.and_eq_true, decide_eq_true_eq, UInt8.le_iff_toNat_le] at h
  simp only [isSpace, Bool.or_eq_false_iff, Bool.and_eq_false_iff,
    decide_eq_false_iff_not, UInt8.le_iff_toNat_le, beq_eq_false_iff_ne, ne_eq,
    ← UInt8.toNat_inj]
  have h48 : (48 : UInt8).toNat = 48 := rfl
  have h13 : (13 : UInt8).toNat = 13 := rfl
  have h32 : (32 : UInt8).toNat = 32 := rfl
  omega

/-- A sign or a digit in front stops the blanks. -/
theorem Digits.isSpace_head {digits : List UInt8} (h : Digits digits)
    (sign : Option Bool) (rest : List UInt8) :
    (signText sign ++ (digits ++ rest)).dropWhile isSpace
      = signText sign ++ (digits ++ rest) := by
  obtain ⟨b, ds, rfl⟩ := List.exists_cons_of_ne_nil h.ne_nil
  have hb : isSpace b = false := isSpace_of_isDigit (h.digit b (by simp))
  match sign with
  | none => simp [signText, hb]
  | some false => rfl
  | some true => rfl

theorem Digits.scanSign {digits : List UInt8} (h : Digits digits)
    (sign : Option Bool) (rest : List UInt8) :
    scanSign (signText sign ++ (digits ++ rest))
      = (decide (sign = some true), digits ++ rest) := by
  match sign with
  | some false => rfl
  | some true => rfl
  | none =>
      obtain ⟨b, ds, rfl⟩ := List.exists_cons_of_ne_nil h.ne_nil
      have hb : isDigit b = true := h.digit b (by simp)
      have hplus : b ≠ 43 := by
        rintro rfl
        exact absurd hb (by decide)
      have hminus : b ≠ 45 := by
        rintro rfl
        exact absurd hb (by decide)
      show Scan.scanSign (b :: (ds ++ rest)) = (false, b :: (ds ++ rest))
      unfold Scan.scanSign
      split
      · rename_i heq
        exact absurd (List.cons.inj heq).1 hplus
      · rename_i heq
        exact absurd (List.cons.inj heq).1 hminus
      · rfl

/-- Every text is an optional sign and what `scanSign` leaves. -/
theorem exists_signText (s : List UInt8) :
    ∃ sign, s = signText sign ++ (Scan.scanSign s).2
      ∧ (Scan.scanSign s).1 = decide (sign = some true) := by
  unfold Scan.scanSign
  split
  · exact ⟨some false, rfl, rfl⟩
  · exact ⟨some true, rfl, rfl⟩
  · exact ⟨none, rfl, rfl⟩

/-- **`%d` reads nothing but a field**, and all digits of it. -/
theorem field_of_scanInt {s rest : List UInt8} {v : ℤ}
    (h : scanInt s = some (v, rest)) :
    ∃ (field : List UInt8) (u : ℤ), s = field ++ rest ∧ Field field u
      ∧ v = saturate32 u ∧ Stops rest := by
  obtain ⟨sign, htext, hminus⟩ := exists_signText (s.dropWhile isSpace)
  simp only [scanInt] at h
  split at h
  · exact absurd h (by simp)
  · rename_i hne
    obtain ⟨hv, hrest⟩ := Prod.mk.inj (Option.some.inj h)
    refine ⟨s.takeWhile isSpace ++ (signText sign
        ++ (Scan.scanSign (s.dropWhile isSpace)).2.takeWhile isDigit), _, ?_,
      ⟨_, sign, _, rfl, fun b hb => List.mem_takeWhile_imp hb,
        ⟨hne, fun b hb => List.mem_takeWhile_imp hb⟩, rfl⟩, ?_, ?_⟩
    · rw [← hrest, List.append_assoc, List.append_assoc,
        List.takeWhile_append_dropWhile, ← htext, List.takeWhile_append_dropWhile]
    · rw [← hv, hminus]
      simp only [decide_eq_true_eq]
    · intro b hb
      have hhead := List.head?_dropWhile_not isDigit
        (Scan.scanSign (s.dropWhile isSpace)).2
      rw [hrest, Option.mem_def.mp hb] at hhead
      simpa using hhead

theorem Stops.spans {rest : List UInt8} (h : Stops rest) :
    rest.takeWhile isDigit = [] ∧ rest.dropWhile isDigit = rest := by
  cases rest with
  | nil => exact ⟨rfl, rfl⟩
  | cons b rest =>
      have hb : isDigit b = false := h b rfl
      simp [hb]

/-- **`%d` reads every field** that no digit follows. -/
theorem Field.scanInt {field rest : List UInt8} {u : ℤ} (h : Field field u)
    (hstops : Stops rest) :
    Scan.scanInt (field ++ rest) = some (saturate32 u, rest) := by
  obtain ⟨blanks, sign, digits, rfl, hblanks, hdigits, rfl⟩ := h
  have hdrop : (blanks ++ (signText sign ++ digits) ++ rest).dropWhile isSpace
      = signText sign ++ (digits ++ rest) := by
    rw [List.append_assoc, List.dropWhile_append_of_pos hblanks, List.append_assoc,
      hdigits.isSpace_head]
  simp only [Scan.scanInt, hdrop, hdigits.scanSign,
    List.takeWhile_append_of_pos hdigits.digit,
    List.dropWhile_append_of_pos hdigits.digit, hstops.spans.1, hstops.spans.2,
    List.append_nil, if_neg hdigits.ne_nil, decide_eq_true_eq]

theorem saturate32_nonneg_iff (v : ℤ) : 0 ≤ saturate32 v ↔ 0 ≤ v := by
  unfold saturate32
  omega

theorem saturate32_of_lt {v : ℤ} (hlo : 0 ≤ v) (hhi : v < 2 ^ 31) :
    saturate32 v = v := by
  unfold saturate32
  omega

/-- The 32 bits of a saturated value are zero for zero only. -/
theorem ofInt_saturate32_eq_zero_iff (v : ℤ) :
    BitVec.ofInt 32 (saturate32 v) = 0 ↔ v = 0 := by
  constructor
  · intro h
    have hint := congrArg BitVec.toInt h
    rw [BitVec.toInt_ofInt] at hint
    have hrange : saturate32 v < 2 ^ 31 ∧ -2 ^ 31 ≤ saturate32 v := by
      unfold saturate32
      omega
    rw [Int.bmod_eq_of_le_mul_two (by push_cast; omega) (by push_cast; omega)] at hint
    have hzero : saturate32 v = 0 := hint
    unfold saturate32 at hzero
    omega
  · rintro rfl
    rfl

/-! ## What a scan assigns -/

/-- Literals in front have to be there, and assign nothing. -/
theorem scan_lits_getElem? (p : List UInt8) (ds : List Directive)
    (s : List UInt8) (k : ℕ) (v : ℤ) :
    (scan (p.map .lit ++ ds) s)[k]? = some v
      ↔ ∃ s', s = p ++ s' ∧ (scan ds s')[k]? = some v := by
  induction p generalizing s with
  | nil => simp
  | cons c p ih =>
      cases s with
      | nil => simp [scan]
      | cons b s =>
          rw [List.map_cons, List.cons_append, scan]
          by_cases hb : b = c
          · rw [if_pos hb, ih, hb]
            simp
          · rw [if_neg hb]
            simp [hb]

theorem scan_int_getElem?_zero (ds : List Directive) (s : List UInt8) (v : ℤ) :
    (scan (.int :: ds) s)[0]? = some v ↔ ∃ rest, scanInt s = some (v, rest) := by
  rw [scan]
  cases h : scanInt s with
  | none => simp
  | some r =>
      obtain ⟨u, rest⟩ := r
      simp

theorem scan_int_getElem?_succ (ds : List Directive) (s : List UInt8) (k : ℕ)
    (v : ℤ) :
    (scan (.int :: ds) s)[k + 1]? = some v
      ↔ ∃ u rest, scanInt s = some (u, rest) ∧ (scan ds rest)[k]? = some v := by
  rw [scan]
  cases h : scanInt s with
  | none => simp
  | some r =>
      obtain ⟨u, rest⟩ := r
      simp only [List.getElem?_cons_succ, Option.some.injEq, Prod.mk.injEq]
      constructor
      · intro hv
        exact ⟨u, rest, ⟨rfl, rfl⟩, hv⟩
      · rintro ⟨_, _, ⟨rfl, rfl⟩, hv⟩
        exact hv

end Scan
