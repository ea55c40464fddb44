import DiffCar.Drain

/-!
# Header — which lines announce a payload

The AT client passes a line that begins with `+IPD` and ends with its first
`:`. The announcement proper is `+IPD,<id>,<length>:`. `sscanf` matches it
loosely, and how much of it has matched nobody asks: blanks and signs come
through, and so does anything after the length. All that is checked is that
the two numbers it has left are a socket and a length (`passes_iff`).
-/

namespace DiffCar

open Scan

/-- `"+IPD,"`. -/
def ipdPrefix : List UInt8 := [43, 73, 80, 68, 44]

/-- `data` is the announcement of `len` bytes: `"+IPD,"`, a decimal id, a
comma, the length in decimal and a colon. -/
def Header (data : List UInt8) (len : ℕ) : Prop :=
  ∃ id size : List UInt8,
    data = ipdPrefix ++ (id ++ ([44] ++ (size ++ [58])))
      ∧ Digits id ∧ Digits size ∧ decimal id < 2 ^ 31
      ∧ decimal size = len ∧ len < 2 ^ 31 ∧ 0 < len

/-- Up to its first zero byte `data` has the looser form that is taken for an
announcement: the numbers may have blanks and signs, the id is not negative,
the length not zero, and anything but a digit may follow it. -/
def Passes (data : List UInt8) : Prop :=
  ∃ (id size rest : List UInt8) (u v : ℤ),
    cstr data = ipdPrefix ++ (id ++ ([44] ++ (size ++ rest)))
      ∧ Field id u ∧ Field size v ∧ Stops rest ∧ 0 ≤ u ∧ v ≠ 0

/-! ## What the scan leaves -/

theorem ipdFormat_eq :
    ipdFormat = ipdPrefix.map .lit ++ (.int :: ([44].map .lit ++ [.int, .lit 58])) :=
  rfl

theorem stops_comma (rest : List UInt8) : Stops ([44] ++ rest) := by
  intro b hb
  obtain rfl := Option.some.inj hb
  rfl

/-- A line with both numbers leaves both. -/
theorem scan_of_fields {s id size rest : List UInt8} {u v : ℤ}
    (hs : s = ipdPrefix ++ (id ++ ([44] ++ (size ++ rest)))) (hid : Field id u)
    (hsize : Field size v) (hstops : Stops rest) :
    (scan ipdFormat s)[0]? = some (saturate32 u)
      ∧ (scan ipdFormat s)[1]? = some (saturate32 v) := by
  have hfirst : scanInt (id ++ ([44] ++ (size ++ rest)))
      = some (saturate32 u, [44] ++ (size ++ rest)) :=
    hid.scanInt (stops_comma _)
  have hsecond : scanInt (size ++ rest) = some (saturate32 v, rest) :=
    hsize.scanInt hstops
  rw [ipdFormat_eq]
  constructor
  · rw [scan_lits_getElem?]
    exact ⟨_, hs, (scan_int_getElem?_zero _ _ _).mpr ⟨_, hfirst⟩⟩
  · rw [scan_lits_getElem?]
    refine ⟨_, hs, (scan_int_getElem?_succ _ _ _ _).mpr ⟨_, _, hfirst, ?_⟩⟩
    rw [scan_lits_getElem?]
    exact ⟨_, rfl, (scan_int_getElem?_zero _ _ _).mpr ⟨_, hsecond⟩⟩

/-- A length is left only by a line with both numbers. -/
theorem fields_of_scan {s : List UInt8} {w : ℤ}
    (h : (scan ipdFormat s)[1]? = some w) :
    ∃ (id size rest : List UInt8) (u v : ℤ),
      s = ipdPrefix ++ (id ++ ([44] ++ (size ++ rest))) ∧ Field id u ∧ Field size v
        ∧ Stops rest := by
  rw [ipdFormat_eq, scan_lits_getElem?] at h
  obtain ⟨s₁, hs, h⟩ := h
  obtain ⟨_, s₂, hfirst, h⟩ := (scan_int_getElem?_succ _ _ _ _).mp h
  rw [scan_lits_getElem?] at h
  obtain ⟨s₃, hs₂, h⟩ := h
  obtain ⟨rest, hsecond⟩ := (scan_int_getElem?_zero _ _ _).mp h
  obtain ⟨id, u, hs₁, hid, _, _⟩ := field_of_scanInt hfirst
  obtain ⟨size, v, hs₃, hsize, _, hstops⟩ := field_of_scanInt hsecond
  refine ⟨id, size, rest, u, v, ?_, hid, hsize, hstops⟩
  rw [hs, hs₁, hs₂, hs₃]

theorem parseHeader_of_fields {data id size rest : List UInt8} {u v : ℤ}
    (hs : cstr data = ipdPrefix ++ (id ++ ([44] ++ (size ++ rest))))
    (hid : Field id u) (hsize : Field size v) (hstops : Stops rest) :
    parseHeader data = (saturate32 u, BitVec.ofInt 32 (saturate32 v)) := by
  obtain ⟨hfirst, hsecond⟩ := scan_of_fields hs hid hsize hstops
  simp only [parseHeader, List.getD_eq_getElem?_getD, hfirst, hsecond,
    Option.getD_some]

/-- **What passes for an announcement.** -/
theorem passes_iff (data : List UInt8) :
    0 ≤ (parseHeader data).1 ∧ (parseHeader data).2 ≠ 0 ↔ Passes data := by
  constructor
  · rintro ⟨hsocket, hbfsz⟩
    have hvalue : ∃ w, (scan ipdFormat (cstr data))[1]? = some w := by
      apply Option.ne_none_iff_exists'.mp
      intro hnone
      apply hbfsz
      simp only [parseHeader, List.getD_eq_getElem?_getD, hnone, Option.getD_none]
      rfl
    obtain ⟨w, hw⟩ := hvalue
    obtain ⟨id, size, rest, u, v, hs, hid, hsize, hstops⟩ := fields_of_scan hw
    rw [parseHeader_of_fields hs hid hsize hstops] at hsocket hbfsz
    refine ⟨id, size, rest, u, v, hs, hid, hsize, hstops, ?_, ?_⟩
    · exact (saturate32_nonneg_iff u).mp hsocket
    · intro hv
      exact hbfsz ((ofInt_saturate32_eq_zero_iff v).mpr hv)
  · rintro ⟨id, size, rest, u, v, hs, hid, hsize, hstops, hu, hv⟩
    rw [parseHeader_of_fields hs hid hsize hstops]
    refine ⟨(saturate32_nonneg_iff u).mpr hu, ?_⟩
    intro hzero
    exact hv ((ofInt_saturate32_eq_zero_iff v).mp hzero)

/-! ## Announcements proper -/

theorem Header.cstr {data : List UInt8} {len : ℕ} (h : Header data len) :
    Scan.cstr data = data := by
  obtain ⟨id, size, rfl, hid, hsize, -⟩ := h
  apply List.takeWhile_eq_self_iff.mpr
  intro b hb
  have hne : b ≠ 0 := by
    simp only [List.mem_append] at hb
    rcases hb with hb | hb | hb | hb | hb
    · rintro rfl
      exact absurd hb (by decide)
    · exact hid.ne_zero b hb
    · rintro rfl
      exact absurd hb (by decide)
    · exact hsize.ne_zero b hb
    · rintro rfl
      exact absurd hb (by decide)
  simpa using hne

/-- An announcement proper is read as it is meant. -/
theorem Header.parse {data : List UInt8} {len : ℕ} (h : Header data len) :
    0 ≤ (parseHeader data).1 ∧ (parseHeader data).2 ≠ 0
      ∧ (parseHeader data).2.toNat = len := by
  have hcstr := h.cstr
  obtain ⟨id, size, hdata, hid, hsize, hidlt, rfl, hlt, hpos⟩ := h
  have hstops : Stops [58] := by
    intro b hb
    obtain rfl := Option.some.inj hb
    rfl
  have hparse := parseHeader_of_fields (hcstr.trans hdata) hid.field hsize.field hstops
  have hvalue : saturate32 (decimal size : ℤ) = decimal size :=
    saturate32_of_lt (by omega) (by omega)
  have hnat : (parseHeader data).2.toNat = decimal size := by
    rw [hparse, hvalue, BitVec.ofInt_natCast, BitVec.toNat_ofNat]
    omega
  refine ⟨?_, ?_, hnat⟩
  · rw [hparse]
    exact (saturate32_nonneg_iff _).mpr (Int.natCast_nonneg _)
  · intro hzero
    rw [hzero] at hnat
    have hzero : 0 = decimal size := hnat
    omega

/-! ## What the call does with a line -/

theorem requests_recvCb (h : BlockHeap) (data : List UInt8) (malloc urgent : Bool) :
    requests (recvCb h data malloc urgent).events = [] := by
  unfold recvCb
  split
  · rfl
  · dsimp only
    split
    · rfl
    · cases urgent
      · rfl
      · rfl

/-- With memory the payload is requested in one piece. -/
theorem requests_of_memory {n : Notification} (hsocket : 0 ≤ (parseHeader n.data).1)
    (hbfsz : (parseHeader n.data).2 ≠ 0) (hcalloc : n.calloc = true) (fuel : ℕ)
    (heap : BlockHeap) :
    requests (urcRecvFunc fuel heap n).events = [(parseHeader n.data).2.toNat] := by
  cases hrecv : (atClientObjRecv (parseHeader n.data).2.toNat n.serial).1 with
  | none =>
      rw [urcRecvFunc_of_timeout hcalloc hsocket hbfsz hrecv]
      rfl
  | some payload =>
      rw [urcRecvFunc_of_payload hcalloc hsocket hbfsz hrecv]
      exact congrArg (_ :: ·) (requests_recvCb _ _ _ _)

/-- The call returns without doing anything exactly for the lines that do not
pass. -/
theorem returns_at_once_iff (fuel : ℕ) (heap : BlockHeap) (n : Notification) :
    urcRecvFunc fuel heap n = ⟨heap, [], .returned⟩ ↔ ¬ Passes n.data := by
  constructor
  · intro hcall hpasses
    obtain ⟨hsocket, hbfsz⟩ := (passes_iff n.data).mpr hpasses
    cases hcalloc : n.calloc with
    | false =>
        rw [urcRecvFunc_of_no_memory hcalloc hsocket hbfsz] at hcall
        exact absurd (congrArg UrcResult.events hcall) (by simp)
    | true =>
        have hrequests := requests_of_memory hsocket hbfsz hcalloc fuel heap
        rw [hcall] at hrequests
        exact absurd hrequests (by simp [requests])
  · intro hpasses
    have hguard : (parseHeader n.data).1 < 0 ∨ (parseHeader n.data).2 = 0 := by
      by_contra hguard
      obtain ⟨hsocket, hbfsz⟩ := not_or.mp hguard
      exact hpasses ((passes_iff n.data).mp ⟨not_lt.mp hsocket, hbfsz⟩)
    exact urcRecvFunc_of_guard hguard fuel heap

/-- For an announcement proper exactly its length is requested, if there is
memory; any other line is left alone. -/
def AsAnnounced (n : Notification) : Prop :=
  (∀ len, Header n.data len → n.calloc = true → ∀ (fuel : ℕ) (heap : BlockHeap),
      requests (urcRecvFunc fuel heap n).events = [len])
    ∧ ((∀ len, ¬ Header n.data len) → ∀ (fuel : ℕ) (heap : BlockHeap),
      urcRecvFunc fuel heap n = ⟨heap, [], .returned⟩)

/-- **When a line is handled as its grammar says.** For every line: if it is
an announcement proper, or does not even have the looser form, and only
then. -/
theorem header_iff (n : Notification) :
    AsAnnounced n ↔ (∃ len, Header n.data len) ∨ ¬ Passes n.data := by
  constructor
  · rintro ⟨-, hother⟩
    by_cases hheader : ∃ len, Header n.data len
    · exact .inl hheader
    · right
      have hcall := hother (not_exists.mp hheader) 0 BlockHeap.empty
      exact (returns_at_once_iff 0 BlockHeap.empty n).mp hcall
  · intro hcond
    constructor
    · intro len hheader hcalloc fuel heap
      obtain ⟨hsocket, hbfsz, hlen⟩ := hheader.parse
      rw [requests_of_memory hsocket hbfsz hcalloc, hlen]
    · intro hheader fuel heap
      have hpasses := hcond.resolve_left (not_exists.mpr hheader)
      exact (returns_at_once_iff fuel heap n).mpr hpasses

/-- The line `+IPD,0,16x:`. -/
def trailingJunk : Notification :=
  { stopNotification with data := [43, 73, 80, 68, 44, 48, 44, 49, 54, 120, 58] }

/-- It ends with its first colon, it is no announcement, and 16 bytes are
requested. -/
theorem header_accepts_junk :
    trailingJunk.data.take 4 = [43, 73, 80, 68]
      ∧ trailingJunk.data.takeWhile (· ≠ 58) ++ [58] = trailingJunk.data
      ∧ (∀ len, ¬ Header trailingJunk.data len)
      ∧ requests (urcRecvFunc 0 BlockHeap.empty trailingJunk).events = [16] := by
  refine ⟨by decide, by decide, ?_, by decide⟩
  rintro len ⟨id, size, hdata, hid, hsize, -⟩
  -- the x would have to be a digit of one of the numbers
  have hx : 120 ∈ trailingJunk.data := by decide
  rw [hdata] at hx
  simp only [List.mem_append] at hx
  rcases hx with hx | hx | hx | hx | hx
  · exact absurd hx (by decide)
  · exact absurd (hid.digit 120 hx) (by decide)
  · exact absurd hx (by decide)
  · exact absurd (hsize.digit 120 hx) (by decide)
  · exact absurd hx (by decide)

end DiffCar
