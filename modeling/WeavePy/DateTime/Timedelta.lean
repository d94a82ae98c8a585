import WeavePy.Lib.Wrapping
import WeavePy.Lib.ByteOrder
import Mathlib.Tactic.Ring
import Mathlib.Tactic.NormNum

/-!
Durations as days, seconds and microseconds: their arithmetic in 128 bits and the two words a
normalized one is packed into.
-/

namespace WeavePy.DateTime

def maxDays : ℤ := 999999999

def usPerDay : ℤ := 86400000000

/-- The fields of a `timedelta`. -/
structure Td where
  days : ℤ
  seconds : ℤ
  us : ℤ
  deriving DecidableEq, Repr

def Td.total (t : Td) : ℤ := (t.days * 86400 + t.seconds) * 1000000 + t.us

structure Td.Valid (t : Td) : Prop where
  days : |t.days| ≤ maxDays
  seconds : 0 ≤ t.seconds ∧ t.seconds < 86400
  us : 0 ≤ t.us ∧ t.us < 1000000

/-- The packed storage of a `timedelta`. -/
structure PackedTd where
  word : BitVec 64
  aux : ℕ
  deriving DecidableEq, Repr

def PackedTd.td (p : PackedTd) : Td := ⟨p.word.toInt, (p.aux >>> 20 : ℕ), (p.aux &&& 0xFFFFF : ℕ)⟩

def overflowMessage (days : ℤ) : String :=
  "days=" ++ toString days ++ "; must have magnitude <= 999999999"

/-- The normalized `timedelta` of `total` microseconds, or the text of the `OverflowError`. -/
def ofTotal (total : ℤ) : Except String PackedTd :=
  -- The division in 64 bits, where `total` fits, gives the same two numbers.
  let days := total / usPerDay
  let rest := total % usPerDay
  if maxDays < |days| then .error (overflowMessage days)
  else .ok ⟨BitVec.ofInt 64 days, (rest / 1000000).toNat <<< 20 ||| (rest % 1000000).toNat⟩

/-- A normalized `timedelta` from unnormalized components. -/
def newTd (b : Build) (d s us : ℤ) : Outcome (Except String PackedTd) := do
  let d ← b.signed 128 (d * usPerDay)
  let s ← b.signed 128 (s * 1000000)
  let total ← b.signed 128 (d + s)
  let total ← b.signed 128 (total + us)
  return ofTotal total

def tdAdd (b : Build) (p q : Td) : Outcome (Except String PackedTd) := do
  let d ← b.signed 128 (p.days + q.days)
  let s ← b.signed 128 (p.seconds + q.seconds)
  let us ← b.signed 128 (p.us + q.us)
  newTd b d s us

def tdSub (b : Build) (p q : Td) : Outcome (Except String PackedTd) := do
  let d ← b.signed 128 (p.days - q.days)
  let s ← b.signed 128 (p.seconds - q.seconds)
  let us ← b.signed 128 (p.us - q.us)
  newTd b d s us

def tdNeg (b : Build) (p : Td) : Outcome (Except String PackedTd) := do
  let d ← b.signed 128 (-p.days)
  let s ← b.signed 128 (-p.seconds)
  let us ← b.signed 128 (-p.us)
  newTd b d s us

def tdMul (b : Build) (p : Td) (k : ℤ) : Outcome (Except String PackedTd) := do
  let d ← b.signed 128 (p.days * k)
  let s ← b.signed 128 (p.seconds * k)
  let us ← b.signed 128 (p.us * k)
  newTd b d s us

/-- The integer arguments of a `timedelta(...)` call. -/
structure TdParams where
  days : ℤ
  seconds : ℤ
  microseconds : ℤ
  milliseconds : ℤ
  minutes : ℤ
  hours : ℤ
  weeks : ℤ

def constructTd (b : Build) (v : TdParams) : Outcome (Except String PackedTd) := do
  let weeks ← b.signed 128 (v.weeks * 7)
  let days ← b.signed 128 (v.days + weeks)
  let minutes ← b.signed 128 (v.minutes * 60)
  let seconds ← b.signed 128 (v.seconds + minutes)
  let hours ← b.signed 128 (v.hours * 3600)
  let seconds ← b.signed 128 (seconds + hours)
  let ms ← b.signed 128 (v.milliseconds * 1000)
  let us ← b.signed 128 (v.microseconds + ms)
  newTd b days seconds us

/-- The outcome is the normalized duration of exactly `total` microseconds, or the error that its
days are out of range. -/
def Exact (total : ℤ) : Outcome (Except String PackedTd) → Prop
  | .ok (.ok t) => t.td.Valid ∧ t.td.total = total
  | .ok (.error message) => maxDays < |total / usPerDay| ∧ message = overflowMessage (total / usPerDay)
  | .error _ => False

/-- An operation on durations, with its arguments. -/
inductive TdCall where
  | add (p q : Td)
  | sub (p q : Td)
  | neg (p : Td)
  | mul (p : Td) (k : ℤ)
  | construct (v : TdParams)

namespace TdCall

def run (b : Build) : TdCall → Outcome (Except String PackedTd)
  | .add p q => tdAdd b p q
  | .sub p q => tdSub b p q
  | .neg p => tdNeg b p
  | .mul p k => tdMul b p k
  | .construct v => constructTd b v

/-- The operands are durations, the numbers 64-bit integers. -/
def Valid : TdCall → Prop
  | .add p q => p.Valid ∧ q.Valid
  | .sub p q => p.Valid ∧ q.Valid
  | .neg p => p.Valid
  | .mul p k => p.Valid ∧ Signed 64 k
  | .construct v => Signed 64 v.days ∧ Signed 64 v.seconds ∧ Signed 64 v.microseconds ∧
      Signed 64 v.milliseconds ∧ Signed 64 v.minutes ∧ Signed 64 v.hours ∧ Signed 64 v.weeks

/-- The exact number of microseconds. -/
def total : TdCall → ℤ
  | .add p q => p.total + q.total
  | .sub p q => p.total - q.total
  | .neg p => -p.total
  | .mul p k => p.total * k
  | .construct v => ((v.weeks * 7 + v.days) * 24 + v.hours) * 3600000000 + v.minutes * 60000000 +
      v.seconds * 1000000 + v.milliseconds * 1000 + v.microseconds

/-- A multiplier that leaves the days and the whole duration within 128 bits of microseconds. -/
def Fits : TdCall → Prop
  | .mul p k => Signed 128 (p.days * usPerDay * k) ∧ Signed 128 (p.total * k)
  | _ => True

end TdCall

theorem PackedTd.td_pack {days secs us : ℤ} (hdays : Signed 64 days) (hsecs : 0 ≤ secs)
    (hus : 0 ≤ us) (hlt : us < 1000000) :
    PackedTd.td ⟨BitVec.ofInt 64 days, secs.toNat <<< 20 ||| us.toNat⟩ = ⟨days, secs, us⟩ := by
  have hlt' : us.toNat < 2 ^ 20 := by omega
  have hword : (BitVec.ofInt 64 days).toInt = days := by
    apply BitVec.toInt_ofInt_eq_self (by decide)
    · exact hdays.1
    · exact hdays.2
  have haux := Bytes.shiftLeft_lor (a := secs.toNat) hlt'
  have hmask : 0xFFFFF = 2 ^ 20 - 1 := rfl
  rw [haux]
  unfold PackedTd.td
  dsimp only
  rw [hword, hmask, Nat.and_two_pow_sub_one_eq_mod, Nat.shiftRight_eq_div_pow, Td.mk.injEq]
  refine ⟨rfl, ?_, ?_⟩
  · omega
  · omega

theorem exact_ofTotal (total : ℤ) : Exact total (.ok (ofTotal total)) := by
  have hdiv := Int.mul_ediv_add_emod total usPerDay
  have hrest : 0 ≤ total % usPerDay := Int.emod_nonneg total (by decide)
  have hlt : total % usPerDay < usPerDay := Int.emod_lt_of_pos total (by decide)
  unfold ofTotal
  dsimp only
  split_ifs with hdays
  · exact ⟨hdays, rfl⟩
  · generalize total / usPerDay = days at hdiv hdays
    generalize total % usPerDay = rest at hdiv hrest hlt
    unfold usPerDay at hdiv hlt
    have hdays' : |days| ≤ maxDays := not_lt.mp hdays
    have hsigned : Signed 64 days := Signed.of_abs hdays' (by decide)
    have hsecs : 0 ≤ rest / 1000000 := by omega
    have hus : 0 ≤ rest % 1000000 := by omega
    have htd := PackedTd.td_pack hsigned hsecs hus (by omega)
    change (PackedTd.td _).Valid ∧ (PackedTd.td _).total = total
    rw [htd]
    refine ⟨⟨hdays', ?_, ?_⟩, ?_⟩
    · dsimp only
      omega
    · dsimp only
      omega
    · unfold Td.total
      dsimp only
      omega

/-- Where nothing overflows, the components add up exactly. -/
theorem newTd_exact {b : Build} {d s us total : ℤ} (hd : Signed 128 (d * usPerDay))
    (hs : Signed 128 (s * 1000000)) (hds : Signed 128 (d * usPerDay + s * 1000000))
    (htotal : d * usPerDay + s * 1000000 + us = total) (hfits : Signed 128 total) :
    Exact total (newTd b d s us) := by
  unfold newTd
  rw [Build.signed_of hd, Build.signed_of hs]
  change Exact total (b.signed 128 (d * usPerDay + s * 1000000) >>= fun x =>
    b.signed 128 (x + us) >>= fun x => pure (ofTotal x))
  rw [Build.signed_of hds]
  change Exact total (b.signed 128 (d * usPerDay + s * 1000000 + us) >>= fun x => pure (ofTotal x))
  rw [htotal, Build.signed_of hfits]
  exact exact_ofTotal total

theorem signed_128 {x : ℤ} : Signed 128 x ↔ -170141183460469231731687303715884105728 ≤ x ∧
    x < 170141183460469231731687303715884105728 := by norm_num [Signed]

theorem signed_64 {x : ℤ} : Signed 64 x ↔ -9223372036854775808 ≤ x ∧ x < 9223372036854775808 := by
  norm_num [Signed]

/-- A number that 128 bits hold with room for the microseconds of that many days. -/
def Small (x : ℤ) : Prop := -2 ^ 80 ≤ x ∧ x ≤ 2 ^ 80

theorem Small.signed {x : ℤ} (h : Small x) : Signed 128 x := by
  obtain ⟨hl, hr⟩ := h
  rw [signed_128]
  omega

theorem newTd_small {b : Build} {d s us total : ℤ} (hd : Small d) (hs : Small s) (hus : Small us)
    (htotal : d * usPerDay + s * 1000000 + us = total) : Exact total (newTd b d s us) := by
  unfold Small at hd hs hus
  unfold usPerDay at htotal
  apply newTd_exact
  all_goals
    simp only [usPerDay, signed_128]
    omega

theorem Td.Valid.bounds {t : Td} (h : t.Valid) : -999999999 ≤ t.days ∧ t.days ≤ 999999999 ∧
    0 ≤ t.seconds ∧ t.seconds < 86400 ∧ 0 ≤ t.us ∧ t.us < 1000000 := by
  obtain ⟨hdays, hsecs, hus⟩ := h
  obtain ⟨hl, hr⟩ := abs_le.mp hdays
  exact ⟨hl, hr, hsecs.1, hsecs.2, hus.1, hus.2⟩

/-- Three components, each computed without an overflow. -/
theorem exact_of_components {b : Build} {d s us total : ℤ} (hd : Small d) (hs : Small s)
    (hus : Small us) (htotal : d * usPerDay + s * 1000000 + us = total) :
    Exact total (do
      let d ← b.signed 128 d
      let s ← b.signed 128 s
      let us ← b.signed 128 us
      newTd b d s us) := by
  rw [Build.signed_of hd.signed, Build.signed_of hs.signed, Build.signed_of hus.signed]
  exact newTd_small hd hs hus htotal

theorem tdAdd_exact (b : Build) {p q : Td} (hp : p.Valid) (hq : q.Valid) :
    Exact (p.total + q.total) (tdAdd b p q) := by
  have hp := hp.bounds
  have hq := hq.bounds
  apply exact_of_components
  · exact ⟨by omega, by omega⟩
  · exact ⟨by omega, by omega⟩
  · exact ⟨by omega, by omega⟩
  · unfold Td.total usPerDay
    ring

theorem tdSub_exact (b : Build) {p q : Td} (hp : p.Valid) (hq : q.Valid) :
    Exact (p.total - q.total) (tdSub b p q) := by
  have hp := hp.bounds
  have hq := hq.bounds
  apply exact_of_components
  · exact ⟨by omega, by omega⟩
  · exact ⟨by omega, by omega⟩
  · exact ⟨by omega, by omega⟩
  · unfold Td.total usPerDay
    ring

theorem tdNeg_exact (b : Build) {p : Td} (hp : p.Valid) : Exact (-p.total) (tdNeg b p) := by
  have hp := hp.bounds
  apply exact_of_components
  · exact ⟨by omega, by omega⟩
  · exact ⟨by omega, by omega⟩
  · exact ⟨by omega, by omega⟩
  · unfold Td.total usPerDay
    ring

theorem constructTd_exact (b : Build) {v : TdParams} (h : (TdCall.construct v).Valid) :
    Exact (TdCall.construct v).total (constructTd b v) := by
  obtain ⟨hdays, hseconds, hus, hms, hminutes, hhours, hweeks⟩ := h
  rw [signed_64] at hdays hseconds hus hms hminutes hhours hweeks
  have hsigned : ∀ x : ℤ, Small x → b.signed 128 x = .ok x := fun x hx =>
    Build.signed_of hx.signed
  unfold constructTd
  rw [hsigned (v.weeks * 7) ⟨by omega, by omega⟩]
  change Exact _ (b.signed 128 (v.days + v.weeks * 7) >>= _)
  rw [hsigned (v.days + v.weeks * 7) ⟨by omega, by omega⟩]
  change Exact _ (b.signed 128 (v.minutes * 60) >>= _)
  rw [hsigned (v.minutes * 60) ⟨by omega, by omega⟩]
  change Exact _ (b.signed 128 (v.seconds + v.minutes * 60) >>= _)
  rw [hsigned (v.seconds + v.minutes * 60) ⟨by omega, by omega⟩]
  change Exact _ (b.signed 128 (v.hours * 3600) >>= _)
  rw [hsigned (v.hours * 3600) ⟨by omega, by omega⟩]
  change Exact _ (b.signed 128 (v.seconds + v.minutes * 60 + v.hours * 3600) >>= _)
  rw [hsigned (v.seconds + v.minutes * 60 + v.hours * 3600) ⟨by omega, by omega⟩]
  change Exact _ (b.signed 128 (v.milliseconds * 1000) >>= _)
  rw [hsigned (v.milliseconds * 1000) ⟨by omega, by omega⟩]
  change Exact _ (b.signed 128 (v.microseconds + v.milliseconds * 1000) >>= _)
  rw [hsigned (v.microseconds + v.milliseconds * 1000) ⟨by omega, by omega⟩]
  apply newTd_small
  · exact ⟨by omega, by omega⟩
  · exact ⟨by omega, by omega⟩
  · exact ⟨by omega, by omega⟩
  · unfold TdCall.total usPerDay
    ring

/-- The part of a multiple without its microseconds lies between the days' and the whole. -/
theorem tdMul_exact (b : Build) {p : Td} {k : ℤ} (hp : p.Valid) (hk : Signed 64 k)
    (hfits : (TdCall.mul p k).Fits) : Exact (p.total * k) (tdMul b p k) := by
  obtain ⟨hdays, htotal⟩ := hfits
  have hb := hp.bounds
  have hkabs : |k| ≤ 2 ^ 63 := hk.abs_bound
  have hproduct : ∀ x : ℤ, |x| ≤ maxDays → Signed 128 (x * k) := fun x hx =>
    Signed.of_mul hx hkabs (by decide)
  have hseconds : |p.seconds| ≤ maxDays := abs_le.mpr ⟨by unfold maxDays; omega, by unfold maxDays; omega⟩
  have hus : |p.us| ≤ maxDays := abs_le.mpr ⟨by unfold maxDays; omega, by unfold maxDays; omega⟩
  unfold tdMul
  rw [Build.signed_of (hproduct _ hp.days), Build.signed_of (hproduct _ hseconds),
    Build.signed_of (hproduct _ hus)]
  have hdays' : p.days * k * usPerDay = p.days * usPerDay * k := by ring
  have hseconds' : p.seconds * k * 1000000 = p.seconds * 1000000 * k := by ring
  apply newTd_exact _ _ _ _ htotal
  · rw [hdays']
    exact hdays
  · rw [hseconds']
    apply Signed.of_mul (m := 86400000000) _ hkabs (by decide)
    exact abs_le.mpr ⟨by omega, by omega⟩
  · rw [hdays', hseconds', ← Int.add_mul]
    have hlow : p.days * usPerDay ≤ p.days * usPerDay + p.seconds * 1000000 := by omega
    have hhigh : p.days * usPerDay + p.seconds * 1000000 ≤ p.total := by
      unfold Td.total usPerDay
      omega
    rcases Int.le_total 0 k with hk | hk
    · exact hdays.between htotal (Int.mul_le_mul_of_nonneg_right hlow hk)
        (Int.mul_le_mul_of_nonneg_right hhigh hk)
    · exact htotal.between hdays (Int.mul_le_mul_of_nonpos_right hhigh hk)
        (Int.mul_le_mul_of_nonpos_right hlow hk)
  · unfold Td.total usPerDay
    ring

/-- With overflow checks, an exact multiple shows that nothing overflowed. -/
theorem tdMul_fits {p : Td} {k total : ℤ} (h : Exact total (tdMul .checked p k)) :
    (TdCall.mul p k).Fits := by
  obtain ⟨r, hr⟩ : ∃ r, tdMul .checked p k = .ok r := by
    cases hrun : tdMul .checked p k with
    | ok r => exact ⟨r, rfl⟩
    | error x =>
      rw [hrun] at h
      exact h.elim
  simp only [tdMul, newTd, bind_eq_ok, Build.checked_eq_ok] at hr
  obtain ⟨_, ⟨-, rfl⟩, _, ⟨-, rfl⟩, _, ⟨-, rfl⟩, _, ⟨hdays, rfl⟩, _, ⟨-, rfl⟩, _, ⟨-, rfl⟩, _,
    ⟨htotal, rfl⟩, -⟩ := hr
  constructor
  · have : p.days * usPerDay * k = p.days * k * usPerDay := by ring
    rwa [this]
  · have : p.total * k = p.days * k * usPerDay + p.seconds * k * 1000000 + p.us * k := by
      unfold Td.total usPerDay
      ring
    rwa [this]

/-- Under either build an operation is exact, except for a multiple whose microseconds, or those of
its days alone, need more than 128 bits. -/
theorem timedelta_exact (c : TdCall) (hc : c.Valid) :
    (∀ b, Exact c.total (c.run b)) ↔ c.Fits := by
  cases c with
  | add p q => exact ⟨fun _ => trivial, fun _ b => tdAdd_exact b hc.1 hc.2⟩
  | sub p q => exact ⟨fun _ => trivial, fun _ b => tdSub_exact b hc.1 hc.2⟩
  | neg p => exact ⟨fun _ => trivial, fun _ b => tdNeg_exact b hc⟩
  | mul p k => exact ⟨fun h => tdMul_fits (h .checked), fun h b => tdMul_exact b hc.1 hc.2 h⟩
  | construct v => exact ⟨fun _ => trivial, fun _ b => constructTd_exact b hc⟩

theorem three_days : Exact 259200000000 (tdMul .checked ⟨1, 0, 0⟩ 3) :=
  (timedelta_exact (.mul ⟨1, 0, 0⟩ 3) ⟨⟨by decide, by decide, by decide⟩, by decide⟩).mpr
    ⟨by decide, by decide⟩ .checked

/-- The product of the greatest number of days wraps around into the valid range. -/
theorem multiple_wraps : (TdCall.mul ⟨999999999, 0, 0⟩ 3938453324782648504).Valid ∧
    tdMul .wrapping ⟨999999999, 0, 0⟩ 3938453324782648504
      = .ok (.ok ⟨243108354, 37031 <<< 20 ||| 788544⟩) ∧
    tdMul .checked ⟨999999999, 0, 0⟩ 3938453324782648504 = .error .panic ∧
    maxDays < (TdCall.mul ⟨999999999, 0, 0⟩ 3938453324782648504).total / usPerDay ∧
    ¬ ∀ b, Exact (TdCall.mul ⟨999999999, 0, 0⟩ 3938453324782648504).total
      ((TdCall.mul ⟨999999999, 0, 0⟩ 3938453324782648504).run b) := by
  have hvalid : Td.Valid ⟨999999999, 0, 0⟩ := ⟨by decide, by decide, by decide⟩
  have hchecked : tdMul .checked ⟨999999999, 0, 0⟩ 3938453324782648504 = .error .panic := by decide
  refine ⟨⟨hvalid, by decide⟩, by decide, hchecked, by decide, fun h => ?_⟩
  have := h .checked
  change Exact _ (tdMul .checked ⟨999999999, 0, 0⟩ 3938453324782648504) at this
  rw [hchecked] at this
  exact this

end WeavePy.DateTime
