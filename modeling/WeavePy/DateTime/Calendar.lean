import WeavePy.Rust
import WeavePy.Lib.Gregorian
import Mathlib.Data.List.GetD
import Mathlib.Tactic.Ring

/-!
Calendar arithmetic: ordinals of dates, the date of an ordinal by cycles of 400, 100 and 4 years,
and which dates are valid. Between the years 1 and 9999 every number stays far inside 64 bits.
-/

namespace WeavePy.DateTime

open Gregorian

def maxOrdinal : ℤ := 3652059

def daysInMonthTable : List ℤ := [31, 28, 31, 30, 31, 30, 31, 31, 30, 31, 30, 31]

def daysBeforeMonth : List ℤ := [0, 31, 59, 90, 120, 151, 181, 212, 243, 273, 304, 334]

def isLeap (y : ℤ) : Bool := y.tmod 4 == 0 && (y.tmod 100 != 0 || y.tmod 400 == 0)

/-- `table[(m - 1) as usize]`. -/
def atMonth (table : List ℤ) (m : ℤ) : Outcome ℤ := index table ((m - 1) % 2 ^ 64).toNat

def daysInMonth (y m : ℤ) : Outcome ℤ := do
  let days ← atMonth daysInMonthTable m
  return days + if m = 2 ∧ isLeap y then 1 else 0

def ymd2ord (y m d : ℤ) : Outcome ℤ := do
  let y1 := y - 1
  let before ← atMonth daysBeforeMonth m
  return y1 * 365 + y1.tdiv 4 - y1.tdiv 100 + y1.tdiv 400 + before +
    (if 2 < m ∧ isLeap y then 1 else 0) + d

/-- The loop over the months: the month that `rem` days lead into, and the days left over. -/
def monthFrom (leap : Bool) : List ℤ → ℤ → ℤ → ℤ × ℤ
  | [], month, rem => (month, rem)
  | dim :: dims, month, rem =>
    let dim := dim + if month = 2 ∧ leap then 1 else 0
    if rem < dim then (month, rem) else monthFrom leap dims (month + 1) (rem - dim)

def ord2ymd (n : ℤ) : ℤ × ℤ × ℤ :=
  let n := n - 1
  let n400 := n.tdiv 146097
  let n := n.tmod 146097
  let n100 := n.tdiv 36524
  let n := n.tmod 36524
  let n4 := n.tdiv 1461
  let n := n.tmod 1461
  let n1 := n.tdiv 365
  let rem := n.tmod 365
  let year := n400 * 400 + n100 * 100 + n4 * 4 + n1 + 1
  if n1 = 4 ∨ n100 = 4 then (year - 1, 12, 31)
  else
    let found := monthFrom (isLeap year) daysInMonthTable 1 rem
    (year, found.1, found.2 + 1)

def validDate (y m d : ℤ) : Outcome Bool :=
  if (1 ≤ y ∧ y ≤ 9999) ∧ (1 ≤ m ∧ m ≤ 12) ∧ 1 ≤ d then do
    let dim ← daysInMonth y m
    return d ≤ dim
  else return false

variable {y m d : ℤ}

theorem isLeap_iff (hy : 1 ≤ y) : isLeap y = true ↔ Leap y := by
  have hmod : ∀ k : ℤ, y.tmod k = y % k := fun k => Int.tmod_eq_emod_of_nonneg (by omega)
  simp [isLeap, Leap, hmod]

theorem atMonth_eq {table : List ℤ} (hm : 1 ≤ m ∧ m ≤ 12) (hlen : table.length = 12) :
    atMonth table m = .ok (table.getD (m - 1).toNat 0) := by
  have hmod : (m - 1) % 2 ^ 64 = m - 1 := Int.emod_eq_of_lt (by omega) (by omega)
  have hlt : (m - 1).toNat < table.length := by omega
  rw [atMonth, hmod, index, List.getElem?_eq_getElem hlt, List.getD_eq_getElem _ _ hlt]
  rfl

theorem leapDay_eq (hy : 1 ≤ y) (c : Prop) [Decidable c] :
    (if c ∧ isLeap y then (1 : ℤ) else 0) = if c then leapDay y else 0 := by
  unfold leapDay
  by_cases hc : c
  · simp [hc, isLeap_iff hy]
  · simp [hc]

theorem daysInMonth_eq (hy : 1 ≤ y) (hm : 1 ≤ m ∧ m ≤ 12) :
    daysInMonth y m = .ok (monthLength y m) := by
  rw [daysInMonth, atMonth_eq hm rfl, leapDay_eq hy]
  rfl

theorem ymd2ord_eq (hy : 1 ≤ y) (hm : 1 ≤ m ∧ m ≤ 12) : ymd2ord y m d = .ok (ordinal y m d) := by
  have hdiv : ∀ k : ℤ, (y - 1).tdiv k = (y - 1) / k := fun k =>
    Int.tdiv_eq_ediv_of_nonneg (by omega)
  rw [ymd2ord, atMonth_eq hm rfl, leapDay_eq hy]
  simp only [hdiv]
  change Except.ok _ = Except.ok _
  congr 1
  unfold ordinal yearStart monthStart starts daysBeforeMonth
  ring

theorem validDate_iff : ∃ b, validDate y m d = .ok b ∧ (b = true ↔ y ≤ 9999 ∧ Valid y m d) := by
  unfold validDate
  by_cases h : (1 ≤ y ∧ y ≤ 9999) ∧ (1 ≤ m ∧ m ≤ 12) ∧ 1 ≤ d
  · obtain ⟨⟨hy, hy'⟩, hm, hd⟩ := h
    rw [if_pos ⟨⟨hy, hy'⟩, hm, hd⟩, daysInMonth_eq hy hm]
    refine ⟨decide (d ≤ monthLength y m), rfl, ?_⟩
    rw [decide_eq_true_iff]
    exact ⟨fun hle => ⟨hy', hy, hm, hd, hle⟩, fun hv => hv.2.day.2⟩
  · rw [if_neg h]
    refine ⟨false, rfl, ?_⟩
    simp only [Bool.false_eq_true, false_iff]
    exact fun hv => h ⟨⟨hv.2.year, hv.1⟩, hv.2.month, hv.2.day.1⟩

theorem validDate_of (hy : y ≤ 9999) (h : Valid y m d) : validDate y m d = .ok true := by
  obtain ⟨b, hb, hiff⟩ := validDate_iff (y := y) (m := m) (d := d)
  rw [hb, hiff.mpr ⟨hy, h⟩]

/-- From any month up to `m` on, the loop stops in `m`. -/
theorem monthFrom_drop (hy : 1 ≤ y) {r : ℤ} (hr : 0 ≤ r) (hrm : r < monthLength y m) (i : ℕ)
    (him : (i : ℤ) + 1 ≤ m) (hm : m ≤ 12) :
    monthFrom (isLeap y) (daysInMonthTable.drop i) (i + 1)
      (monthStart y m - monthStart y (i + 1) + r) = (m, r) := by
  have hlt : i < daysInMonthTable.length := by
    have : daysInMonthTable.length = 12 := rfl
    omega
  have hdim : daysInMonthTable[i] + (if (i : ℤ) + 1 = 2 ∧ isLeap y then 1 else 0)
      = monthLength y (i + 1) := by
    rw [leapDay_eq hy, monthLength, Int.add_sub_cancel, Int.toNat_natCast,
      List.getD_eq_getElem lengths 0 hlt]
    rfl
  rw [List.drop_eq_getElem_cons hlt, monthFrom, hdim]
  rcases Int.lt_or_eq_of_le him with hlt' | rfl
  · have hstart := monthStart_succ (y := y) (m := i + 1) (by omega) (by omega)
    have hle := monthStart_le (y := y) (by omega) hlt' hm
    rw [if_neg (by omega)]
    have ih := monthFrom_drop hy hr hrm (i + 1) (by omega) hm
    have hrem : monthStart y m - monthStart y (i + 1) + r - monthLength y (i + 1)
        = monthStart y m - monthStart y (i + 1 + 1) + r := by omega
    rw [hrem]
    exact ih
  · rw [if_pos (by omega), Int.sub_self, Int.zero_add]
termination_by 12 - i

/-- A year as whole cycles of 400, 100 and 4 years, and the years after them. -/
theorem exists_cycles (y : ℤ) : ∃ a b c e, y = 400 * a + 100 * b + 4 * c + e + 1 ∧
    (0 ≤ b ∧ b < 4) ∧ (0 ≤ c ∧ c < 25) ∧ 0 ≤ e ∧ e < 4 :=
  ⟨(y - 1) / 400, (y - 1) % 400 / 100, (y - 1) % 100 / 4, (y - 1) % 4, by omega, by omega, by omega,
    by omega⟩

/-- The day `r` of the year `y`, as the divisions of its ordinal see it: the last day of a leap year
shows up as a fifth year of four, or a fifth century. -/
theorem ordinal_cycles {r : ℤ} (hr : 0 ≤ r) (hr' : r < 365 + leapDay y) :
    ∃ n400 n100 n4 n1 rest, (yearStart y + r) / 146097 = n400 ∧
      (yearStart y + r) % 146097 / 36524 = n100 ∧
      (yearStart y + r) % 146097 % 36524 / 1461 = n4 ∧
      (yearStart y + r) % 146097 % 36524 % 1461 / 365 = n1 ∧
      (yearStart y + r) % 146097 % 36524 % 1461 % 365 = rest ∧
      ((n1 = 4 ∨ n100 = 4) ∧ n400 * 400 + n100 * 100 + n4 * 4 + n1 = y ∧ r = 365 ∨
        n1 ≠ 4 ∧ n100 ≠ 4 ∧ n400 * 400 + n100 * 100 + n4 * 4 + n1 + 1 = y ∧ rest = r) := by
  obtain ⟨a, b, c, e, rfl, hb, hc, he⟩ := exists_cycles y
  have hstart : yearStart (400 * a + 100 * b + 4 * c + e + 1)
      = 146097 * a + 36524 * b + 1461 * c + 365 * e := by
    unfold yearStart
    omega
  have hleap : r = 365 → e = 3 ∧ (c ≠ 24 ∨ b = 3) := by
    rintro rfl
    have hleap : Leap (400 * a + 100 * b + 4 * c + e + 1) := by
      by_contra h
      rw [leapDay, if_neg h] at hr'
      omega
    unfold Leap at hleap
    omega
  have hday : r ≤ 365 := by
    have := leapDay_cases (400 * a + 100 * b + 4 * c + e + 1)
    omega
  rw [hstart]
  generalize hn : 146097 * a + 36524 * b + 1461 * c + 365 * e + r = n
  refine ⟨_, _, _, _, _, rfl, rfl, rfl, rfl, rfl, ?_⟩
  by_cases hlast : r = 365
  · obtain ⟨rfl, hcentury⟩ := hleap hlast
    by_cases hc24 : c = 24
    · have h400 : n / 146097 = a ∧ n % 146097 = 146096 := by omega
      rw [h400.1, h400.2]
      omega
    · have h400 : n / 146097 = a ∧ n % 146097 = 36524 * b + 1461 * c + 1460 := by omega
      rw [h400.1, h400.2]
      generalize hk : 36524 * b + 1461 * c + 1460 = k
      have h100 : k / 36524 = b ∧ k % 36524 = 1461 * c + 1460 := by omega
      rw [h100.1, h100.2]
      omega
  · have h400 : n / 146097 = a ∧ n % 146097 = 36524 * b + 1461 * c + 365 * e + r := by omega
    rw [h400.1, h400.2]
    generalize hk : 36524 * b + 1461 * c + 365 * e + r = k
    have h100 : k / 36524 = b ∧ k % 36524 = 1461 * c + 365 * e + r := by omega
    rw [h100.1, h100.2]
    have h4 : (1461 * c + 365 * e + r) / 1461 = c ∧
        (1461 * c + 365 * e + r) % 1461 = 365 * e + r := by omega
    rw [h4.1, h4.2]
    omega

theorem ord2ymd_ordinal (h : Valid y m d) : ord2ymd (ordinal y m d) = (y, m, d) := by
  obtain ⟨hlow, hhigh⟩ := h.dayOfYear
  have hn : ordinal y m d - 1 = yearStart y + (monthStart y m + d - 1) := by
    unfold ordinal
    omega
  have hstart := yearStart_mono h.year
  have hone : yearStart 1 = 0 := rfl
  obtain ⟨n400, n100, n4, n1, rest, h400, h100, h4, h1, hrest, hcase⟩ :=
    ordinal_cycles (y := y) (show 0 ≤ monthStart y m + d - 1 by omega) (by omega)
  have hpos : 0 ≤ yearStart y + (monthStart y m + d - 1) := by omega
  have hmod : ∀ k x : ℤ, 0 ≤ x → x.tmod k = x % k := fun k x hx => Int.tmod_eq_emod_of_nonneg hx
  have hdiv : ∀ k x : ℤ, 0 ≤ x → x.tdiv k = x / k := fun k x hx => Int.tdiv_eq_ediv_of_nonneg hx
  unfold ord2ymd
  simp only [hn]
  rw [hdiv _ _ hpos, hmod _ _ hpos]
  generalize yearStart y + (monthStart y m + d - 1) = n at h400 h100 h4 h1 hrest hpos ⊢
  have h400' : 0 ≤ n % 146097 := by omega
  have h100' : 0 ≤ n % 146097 % 36524 := by omega
  have h4' : 0 ≤ n % 146097 % 36524 % 1461 := by omega
  rw [hdiv _ _ h400', hmod _ _ h400', hdiv _ _ h100', hmod _ _ h100', hdiv _ _ h4', hmod _ _ h4',
    h400, h100, h4, h1, hrest]
  rcases hcase with ⟨hfull, hyear, hlast⟩ | ⟨hn1, hn100, hyear, rfl⟩
  · obtain ⟨rfl, rfl⟩ := h.eq_last hlast
    rw [if_pos hfull, hyear, Int.add_sub_cancel]
  · have hmonth := monthFrom_drop h.year (r := d - 1) (by have := h.day; omega)
      (by have := h.day; omega) 0 h.month.1 h.month.2
    have hrem : monthStart y m - monthStart y ((0 : ℕ) + 1) + (d - 1) = monthStart y m + d - 1 := by
      have : monthStart y ((0 : ℕ) + 1) = 0 := rfl
      omega
    rw [hrem] at hmonth
    have hmonth' : monthFrom (isLeap y) daysInMonthTable 1 (monthStart y m + d - 1) = (m, d - 1) :=
      hmonth
    rw [if_neg (by simp [hn1, hn100]), hyear, hmonth', Int.sub_add_cancel]

/-- Every ordinal up to that of the last day of the year 9999 is that of a valid date. -/
theorem ord2ymd_valid {n : ℤ} (hn : 1 ≤ n) (hmax : n ≤ maxOrdinal) :
    ∃ y m d, ord2ymd n = (y, m, d) ∧ y ≤ 9999 ∧ Valid y m d ∧ ordinal y m d = n := by
  obtain ⟨y, m, d, hv, hord⟩ := exists_valid hn
  refine ⟨y, m, d, by rw [← hord]; exact ord2ymd_ordinal hv, ?_, hv, hord⟩
  by_contra hy
  have hstart : yearStart 10000 = maxOrdinal := by decide
  have := yearStart_mono (show 10000 ≤ y by omega)
  have := hv.dayOfYear
  unfold ordinal at hord
  omega

theorem ordinal_le_max (hy : y ≤ 9999) (h : Valid y m d) : ordinal y m d ≤ maxOrdinal := by
  have hstart : yearStart 10000 = maxOrdinal := by decide
  have := yearStart_mono (show y + 1 ≤ 10000 by omega)
  have := yearStart_succ y
  have := h.dayOfYear
  unfold ordinal
  omega

end WeavePy.DateTime
