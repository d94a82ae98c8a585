import Mathlib.Tactic.Common
import Mathlib.Tactic.IntervalCases

/-!
The proleptic Gregorian calendar: days counted from the first day of the year 1.
-/

namespace WeavePy.Gregorian

def Leap (y : ℤ) : Prop := y % 4 = 0 ∧ (y % 100 ≠ 0 ∨ y % 400 = 0)

instance (y : ℤ) : Decidable (Leap y) := inferInstanceAs (Decidable (_ ∧ _))

def leapDay (y : ℤ) : ℤ := if Leap y then 1 else 0

/-- The days before the year `y`. -/
def yearStart (y : ℤ) : ℤ := (y - 1) * 365 + (y - 1) / 4 - (y - 1) / 100 + (y - 1) / 400

def lengths : List ℤ := [31, 28, 31, 30, 31, 30, 31, 31, 30, 31, 30, 31]

def starts : List ℤ := [0, 31, 59, 90, 120, 151, 181, 212, 243, 273, 304, 334]

def monthLength (y m : ℤ) : ℤ := lengths.getD (m - 1).toNat 0 + if m = 2 then leapDay y else 0

/-- The days of the year `y` before its month `m`. -/
def monthStart (y m : ℤ) : ℤ := starts.getD (m - 1).toNat 0 + if 2 < m then leapDay y else 0

def ordinal (y m d : ℤ) : ℤ := yearStart y + monthStart y m + d

structure Valid (y m d : ℤ) : Prop where
  year : 1 ≤ y
  month : 1 ≤ m ∧ m ≤ 12
  day : 1 ≤ d ∧ d ≤ monthLength y m

variable {y m d y' m' d' : ℤ}

theorem leapDay_cases (y : ℤ) : leapDay y = 0 ∨ leapDay y = 1 := by
  unfold leapDay
  split <;> simp

theorem yearStart_succ (y : ℤ) : yearStart (y + 1) = yearStart y + 365 + leapDay y := by
  unfold yearStart leapDay
  by_cases h : Leap y
  · rw [if_pos h]
    unfold Leap at h
    omega
  · rw [if_neg h]
    unfold Leap at h
    omega

theorem yearStart_mono (h : y ≤ y') : yearStart y ≤ yearStart y' := by
  induction y', h using Int.leInduction with
  | base => exact Int.le_refl _
  | succ z _ ih =>
    have := yearStart_succ z
    have := leapDay_cases z
    omega

theorem monthStart_one : monthStart y 1 = 0 := rfl

theorem monthStart_succ (hm : 1 ≤ m) (hm' : m < 12) :
    monthStart y (m + 1) = monthStart y m + monthLength y m := by
  unfold monthStart monthLength
  interval_cases m <;> simp [starts, lengths] <;> omega

/-- The last month ends with the year. -/
theorem monthStart_twelve : monthStart y 12 + monthLength y 12 = 365 + leapDay y := by
  simp [monthStart, monthLength, starts, lengths]
  omega

theorem monthLength_pos (hm : 1 ≤ m) (hm' : m ≤ 12) : 28 ≤ monthLength y m := by
  have := leapDay_cases y
  unfold monthLength
  interval_cases m <;> simp [lengths] <;> omega

theorem monthLength_le (hm : 1 ≤ m) (hm' : m ≤ 12) : monthLength y m ≤ 31 := by
  have := leapDay_cases y
  unfold monthLength
  interval_cases m <;> simp [lengths] <;> omega

theorem monthStart_le (hm : 1 ≤ m) (h : m < m') (hm' : m' ≤ 12) :
    monthStart y m + monthLength y m ≤ monthStart y m' := by
  induction m', (show m + 1 ≤ m' from h) using Int.leInduction with
  | base => exact (monthStart_succ hm (by omega)).ge
  | succ k hk ih =>
    have := ih (by omega) (by omega)
    have := monthStart_succ (y := y) (m := k) (by omega) (by omega)
    have := monthLength_pos (y := y) (m := k) (by omega) (by omega)
    omega

theorem Valid.dayOfYear (h : Valid y m d) :
    1 ≤ monthStart y m + d ∧ monthStart y m + d ≤ 365 + leapDay y := by
  obtain ⟨-, ⟨hm, hm'⟩, hd, hd'⟩ := h
  have htwelve := monthStart_twelve (y := y)
  have hlow : 0 ≤ monthStart y m := by
    rcases Int.lt_or_eq_of_le hm with hm | rfl
    · have := monthStart_le (y := y) (Int.le_refl 1) hm hm'
      have := monthLength_pos (y := y) (Int.le_refl 1) (by omega)
      rw [monthStart_one] at *
      omega
    · exact (monthStart_one (y := y)).ge
  have hhigh : monthStart y m + monthLength y m ≤ 365 + leapDay y := by
    rcases Int.lt_or_eq_of_le hm' with hm' | rfl
    · have := monthStart_le (y := y) hm hm' (Int.le_refl 12)
      have := monthLength_pos (y := y) (m := 12) (by omega) (by omega)
      omega
    · exact htwelve.le
  omega

/-- Later dates have greater ordinals. -/
theorem ordinal_lt (h : Valid y m d) (h' : Valid y' m' d')
    (hlt : y < y' ∨ y = y' ∧ (m < m' ∨ m = m' ∧ d < d')) : ordinal y m d < ordinal y' m' d' := by
  unfold ordinal
  rcases hlt with hy | ⟨rfl, hm | ⟨rfl, hd⟩⟩
  · have := h.dayOfYear
    have := h'.dayOfYear
    have := yearStart_mono (show y + 1 ≤ y' from hy)
    have := yearStart_succ y
    omega
  · have := monthStart_le (y := y) h.month.1 hm h'.month.2
    have := h.day
    have := h'.day
    omega
  · omega

theorem ordinal_lt_iff (h : Valid y m d) (h' : Valid y' m' d') :
    ordinal y m d < ordinal y' m' d' ↔ y < y' ∨ y = y' ∧ (m < m' ∨ m = m' ∧ d < d') := by
  constructor
  · intro hlt
    by_contra hge
    obtain ⟨rfl, rfl, rfl⟩ | hgt : (y = y' ∧ m = m' ∧ d = d') ∨
        (y' < y ∨ y' = y ∧ (m' < m ∨ m' = m ∧ d' < d)) := by omega
    · omega
    · have := ordinal_lt h' h hgt
      omega
  · exact ordinal_lt h h'

theorem ordinal_pos (h : Valid y m d) : 1 ≤ ordinal y m d := by
  have := h.dayOfYear
  have := yearStart_mono h.year
  unfold ordinal
  have hone : yearStart 1 = 0 := rfl
  omega

/-- The last day of a leap year is New Year's Eve. -/
theorem Valid.eq_last (h : Valid y m d) (hlast : monthStart y m + d - 1 = 365) :
    m = 12 ∧ d = 31 := by
  have htwelve := monthStart_twelve (y := y)
  have hlen : monthLength y 12 = 31 := rfl
  have hday := h.dayOfYear
  have hleap := leapDay_cases y
  have heve : Valid y 12 31 := ⟨h.year, ⟨by decide, by decide⟩, by decide, hlen.ge⟩
  by_contra hne
  have hm := h.month
  have hd := h.day
  have hlt : m < 12 ∨ m = 12 ∧ d < 31 := by
    rcases Int.lt_or_eq_of_le hm.2 with hlt | rfl
    · exact Or.inl hlt
    · rw [hlen] at hd
      omega
  have := ordinal_lt h heve (Or.inr ⟨rfl, hlt⟩)
  unfold ordinal at this
  omega

/-- Every day from the first on is a date. -/
theorem exists_valid {n : ℤ} (hn : 1 ≤ n) : ∃ y m d, Valid y m d ∧ ordinal y m d = n := by
  induction n, hn using Int.leInduction with
  | base => exact ⟨1, 1, 1, ⟨by decide, by decide, by decide⟩, by decide⟩
  | succ n hn ih =>
    obtain ⟨y, m, d, ⟨hy, ⟨hm, hm'⟩, hd, hd'⟩, hord⟩ := ih
    unfold ordinal at hord ⊢
    by_cases hday : d < monthLength y m
    · exact ⟨y, m, d + 1, ⟨hy, ⟨hm, hm'⟩, by omega, by omega⟩, by omega⟩
    · obtain rfl : d = monthLength y m := by omega
      by_cases hmonth : m < 12
      · have hlen := monthLength_pos (y := y) (m := m + 1) (by omega) (by omega)
        have hstart := monthStart_succ (y := y) hm hmonth
        exact ⟨y, m + 1, 1, ⟨hy, ⟨by omega, by omega⟩, Int.le_refl 1, by omega⟩, by omega⟩
      · obtain rfl : m = 12 := by omega
        have hlen := monthLength_pos (y := y + 1) (m := 1) (by omega) (by omega)
        have hstart := monthStart_twelve (y := y)
        have hyear := yearStart_succ y
        have hone := monthStart_one (y := y + 1)
        exact ⟨y + 1, 1, 1, ⟨by omega, ⟨Int.le_refl 1, by omega⟩, Int.le_refl 1, by omega⟩, by omega⟩

end WeavePy.Gregorian
