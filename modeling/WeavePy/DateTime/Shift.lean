import WeavePy.DateTime.Packed

/-!
A datetime plus or minus a duration: the general path over the fields and the one that stays within
the day and works on the packed word.
-/

namespace WeavePy.DateTime

open Gregorian

variable {τ : Type}

/-- Microseconds since 0001-01-01T00:00, less a day. -/
def Dt.instant (f : Dt τ) : ℤ :=
  (ordinal f.y f.m f.d * 86400 + f.hh * 3600 + f.mm * 60 + f.ss) * 1000000 + f.us

/-- The same by the source's count. -/
def dtUs (f : Dt τ) : Outcome ℤ := do
  let ord ← ymd2ord f.y f.m f.d
  return (ord * 86400 + (f.hh * 3600 + f.mm * 60 + f.ss)) * 1000000 + f.us

/-- A native datetime: its word and `tzinfo`, or, for an instance built another way, its fields. -/
inductive DtObj (τ : Type) where
  | packed (w : BitVec 64) (tz : TzInfo τ)
  | fields (f : Dt τ)

def fromWord (w : BitVec 64) (tz : TzInfo τ) : Dt τ :=
  let (y, m, d) := wordYmd w
  let (hh, mm, ss, us, fold) := wordTime w
  ⟨y, m, d, hh, mm, ss, us, tz, fold⟩

def wordUs (w : BitVec 64) : Outcome ℤ := do
  let (y, m, d) := wordYmd w
  let (hh, mm, ss, us, _) := wordTime w
  let ord ← ymd2ord y m d
  return (ord * 86400 + hh * 3600 + mm * 60 + ss) * 1000000 + us

def dtFields : DtObj τ → Dt τ
  | .packed w tz => fromWord w tz
  | .fields f => f

/-- The clock fields are in range. -/
def Dt.clockOk (f : Dt τ) : Bool :=
  (0 ≤ f.hh && f.hh < 24) && (0 ≤ f.mm && f.mm < 60) && (0 ≤ f.ss && f.ss < 60) &&
    (0 ≤ f.us && f.us < 1000000)

def newDt (f : Dt τ) : Outcome (DtObj τ) := do
  let date ← validDate f.y f.m f.d
  if date && f.clockOk && (0 ≤ f.fold && f.fold ≤ 1) then
    match f.tz with
    | .none => return .packed (packDt f) .none
    | .instance_ tz => return .packed (packDt f) (.instance_ tz)
    | .other _ => return .fields f
  else return .fields f

/-- The fields of the instant `total`, with `tz`. -/
def ofInstant (tz : TzInfo τ) (total : ℤ) : Dt τ :=
  let rest := total % usPerDay
  let (y, m, d) := ord2ymd (total / usPerDay)
  let secs := rest / 1000000
  ⟨y, m, d, secs / 3600, secs % 3600 / 60, secs % 60, rest % 1000000, tz, 0⟩

/-- `datetime` fields shifted by `delta` microseconds, or `none` past the representable range. -/
def dtShift (f : Dt τ) (delta : ℤ) : Outcome (Option (Dt τ)) := do
  let date ← validDate f.y f.m f.d
  if date && f.clockOk then do
    let ord ← ymd2ord f.y f.m f.d
    let base := (ord * 86400 + f.hh * 3600 + f.mm * 60 + f.ss) * 1000000 + f.us
    -- A delta that fits no `i64` lands out of range; so does a sum.
    if Signed 64 delta ∧ Signed 64 (base + delta) then
      let total := base + delta
      if 1 ≤ total / usPerDay ∧ total / usPerDay ≤ maxOrdinal then return some (ofInstant f.tz total)
      else return none
    else return none
  else return none

/-- A packed `datetime` shifted within its day; `none` when the result leaves the day. -/
def dtShiftInDay (w : BitVec 64) (tz : TzInfo τ) (delta : ℤ) : Option (DtObj τ) :=
  if usPerDay ≤ |delta| then none
  else
    let (hh, mm, ss, us, _) := wordTime w
    let n := ((hh * 3600 + mm * 60 + ss) * 1000000 + us) + delta
    if 0 ≤ n ∧ n < usPerDay then
      let secs := n / 1000000
      let us := n % 1000000
      some (.packed (w &&& ~~~(1 <<< wDay - 1 : BitVec 64) ||| BitVec.ofInt 64 (secs / 3600) <<< wHh |||
        BitVec.ofInt 64 (secs % 3600 / 60) <<< wMm ||| BitVec.ofInt 64 (secs % 60) <<< wSs |||
        BitVec.ofInt 64 us <<< wUs) tz)
    else none

def outOfRange : String := "date value out of range"

/-- Both `dt_add` and `dt_sub`, once the delta is known; `none` is not the native's case. -/
def dtMove (x : DtObj τ) (delta : ℤ) : Outcome (Option (Except String (DtObj τ))) :=
  let inDay := match x with
    | .packed w tz => dtShiftInDay w tz delta
    | .fields _ => none
  match inDay with
  | some r => .ok (some (.ok r))
  | none => do
    let f := dtFields x
    let date ← validDate f.y f.m f.d
    if date then
      match ← dtShift f delta with
      | some g => do
        let r ← newDt g
        return some (.ok r)
      | none => return some (.error outOfRange)
    else return none

def dtAdd (x : DtObj τ) (td : Td) : Outcome (Option (Except String (DtObj τ))) := dtMove x td.total

def dtSub (x : DtObj τ) (td : Td) : Outcome (Option (Except String (DtObj τ))) :=
  dtMove x (-td.total)

/-- An object that the constructors build. -/
def DtObj.Valid : DtObj τ → Prop
  | .packed w tz => ∃ f : Dt τ, f.Valid ∧ packDt f = w ∧ f.tz = tz
  | .fields f => f.Valid

variable {f g : Dt τ}

theorem fromWord_packDt (h : f.Valid) : fromWord (packDt f) f.tz = f := by
  obtain ⟨hymd, htime⟩ := word_packDt h
  unfold fromWord
  rw [hymd, htime]

theorem DtObj.Valid.dt {x : DtObj τ} (h : x.Valid) : (dtFields x).Valid := by
  cases x with
  | packed w tz =>
    obtain ⟨f, hf, rfl, rfl⟩ := h
    rw [dtFields, fromWord_packDt hf]
    exact hf
  | fields f => exact h

theorem Dt.Valid.clockOk (h : f.Valid) : f.clockOk = true := by
  obtain ⟨-, -, hhh, hmm, hss, hus, -⟩ := h
  simp [Dt.clockOk, hhh, hmm, hss, hus]

theorem newDt_valid (h : f.Valid) : ∃ x, newDt f = .ok x ∧ x.Valid ∧ dtFields x = f := by
  have hok : (f.clockOk && (0 ≤ f.fold && f.fold ≤ 1)) = true := by
    simp [h.clockOk, h.fold]
  unfold newDt
  rw [validDate_of h.year h.date]
  change ∃ x, (if true && f.clockOk && (0 ≤ f.fold && f.fold ≤ 1) then _ else _ : Outcome _) = _ ∧ _
  rw [Bool.true_and, if_pos hok]
  have hback := fromWord_packDt h
  rcases htz : f.tz with _ | tz | o
  · rw [htz] at hback
    exact ⟨_, rfl, ⟨f, h, rfl, htz⟩, hback⟩
  · rw [htz] at hback
    exact ⟨_, rfl, ⟨f, h, rfl, htz⟩, hback⟩
  · exact ⟨_, rfl, h, rfl⟩

theorem dtUs_eq (h : f.Valid) : dtUs f = .ok f.instant := by
  unfold dtUs
  rw [ymd2ord_eq h.date.year h.date.month]
  change Except.ok _ = Except.ok _
  unfold Dt.instant
  congr 1
  ring

theorem wordUs_eq (h : f.Valid) : wordUs (packDt f) = .ok f.instant := by
  obtain ⟨hymd, htime⟩ := word_packDt h
  unfold wordUs
  rw [hymd, htime]
  dsimp only
  rw [ymd2ord_eq h.date.year h.date.month]
  rfl

/-- The instant as the day and the time of the day. -/
theorem Dt.Valid.instant_day (h : f.Valid) : f.instant / usPerDay = ordinal f.y f.m f.d ∧
    f.instant % usPerDay = ((f.hh * 3600 + f.mm * 60 + f.ss) * 1000000 + f.us) := by
  obtain ⟨-, -, hhh, hmm, hss, hus, -⟩ := h
  unfold Dt.instant usPerDay
  omega

theorem Dt.Valid.day_bounds (h : f.Valid) :
    1 ≤ ordinal f.y f.m f.d ∧ ordinal f.y f.m f.d ≤ maxOrdinal :=
  ⟨ordinal_pos h.date, ordinal_le_max h.year h.date⟩

/-- An instant of the years 1 to 9999. -/
def InRange (total : ℤ) : Prop := 1 ≤ total / usPerDay ∧ total / usPerDay ≤ maxOrdinal

instance (total : ℤ) : Decidable (InRange total) := inferInstanceAs (Decidable (_ ∧ _))

theorem ofInstant_spec (tz : TzInfo τ) {total : ℤ} (h : InRange total) :
    (ofInstant tz total).Valid ∧ (ofInstant tz total).instant = total := by
  obtain ⟨y, m, d, hymd, hy, hvalid, hord⟩ := ord2ymd_valid h.1 h.2
  have hdiv := Int.mul_ediv_add_emod total usPerDay
  have hrest : 0 ≤ total % usPerDay := Int.emod_nonneg total (by decide)
  have hlt : total % usPerDay < usPerDay := Int.emod_lt_of_pos total (by decide)
  unfold ofInstant
  rw [hymd]
  dsimp only
  generalize total % usPerDay = rest at hdiv hrest hlt
  unfold usPerDay at hlt
  constructor
  · exact ⟨hvalid, hy, by dsimp only; omega, by dsimp only; omega, by dsimp only; omega,
      by dsimp only; omega, by dsimp only; omega⟩
  · unfold Dt.instant
    dsimp only
    rw [hord]
    unfold usPerDay at hdiv ⊢
    omega

theorem dtShift_eq (h : f.Valid) (delta : ℤ) :
    dtShift f delta = .ok (if InRange (f.instant + delta)
      then some (ofInstant f.tz (f.instant + delta)) else none) := by
  obtain ⟨hlow, hhigh⟩ := h.day_bounds
  have hday := h.instant_day
  unfold dtShift
  rw [validDate_of h.year h.date]
  change (if true && f.clockOk then _ else _ : Outcome _) = _
  rw [Bool.true_and, if_pos h.clockOk, ymd2ord_eq h.date.year h.date.month]
  change (if Signed 64 delta ∧ Signed 64 (f.instant + delta) then
    (if InRange (f.instant + delta) then .ok (some (ofInstant f.tz (f.instant + delta)))
      else .ok none) else .ok none : Outcome _) = _
  have hrange : InRange (f.instant + delta) → Signed 64 delta ∧ Signed 64 (f.instant + delta) := by
    rintro ⟨hl, hr⟩
    unfold maxOrdinal usPerDay at *
    rw [signed_64, signed_64]
    omega
  by_cases hin : InRange (f.instant + delta)
  · rw [if_pos (hrange hin), if_pos hin, if_pos hin]
  · rw [if_neg hin]
    split <;> simp

/-- Clearing the bits below `k`. -/
theorem toNat_clear {w : BitVec 64} {k : ℕ} (hk : k < 64)
    (hmask : (1 <<< k - 1 : BitVec 64).toNat = 2 ^ k - 1) :
    (w &&& ~~~(1 <<< k - 1 : BitVec 64)).toNat = w.toNat / 2 ^ k * 2 ^ k := by
  apply Nat.eq_of_testBit_eq
  intro i
  have hpow : 2 ^ k < 2 ^ 64 := Nat.pow_lt_pow_right (by decide) hk
  have hpos := Nat.two_pow_pos k
  have hnot : 2 ^ 64 - 1 - (2 ^ k - 1) = 2 ^ 64 - (2 ^ k - 1 + 1) := by omega
  rw [BitVec.toNat_and, BitVec.toNat_not, hmask, hnot, Nat.testBit_and, Nat.testBit_mul_two_pow,
    Nat.testBit_two_pow_sub_succ (by omega), Nat.testBit_two_pow_sub_one]
  by_cases hki : k ≤ i
  · rw [Nat.testBit_div_two_pow, Nat.sub_add_cancel hki]
    by_cases hi : i < 64
    · simp [hki, hi, Nat.not_lt.mpr hki]
    · have hfalse : w.toNat.testBit i = false :=
        Nat.testBit_lt_two_pow (w.isLt.trans_le (Nat.pow_le_pow_right (by decide) (by omega)))
      simp [hfalse]
  · simp [hki, Nat.lt_of_not_le hki]

/-- The in-day path packs the fields that the general path computes. -/
theorem dtShiftInDay_eq (h : f.Valid) {delta : ℤ} {x : DtObj τ}
    (hx : dtShiftInDay (packDt f) f.tz delta = some x) :
    InRange (f.instant + delta) ∧ x = .packed (packDt (ofInstant f.tz (f.instant + delta))) f.tz := by
  obtain ⟨hlow, hhigh⟩ := h.day_bounds
  obtain ⟨hday, hclock⟩ := h.instant_day
  unfold dtShiftInDay at hx
  rw [(word_packDt h).2] at hx
  dsimp only at hx
  split_ifs at hx with hbig hin
  generalize hn : (f.hh * 3600 + f.mm * 60 + f.ss) * 1000000 + f.us + delta = n at hx hin
  have hq : (f.instant + delta) / usPerDay = ordinal f.y f.m f.d ∧
      (f.instant + delta) % usPerDay = n := by
    unfold usPerDay at *
    omega
  have hrange : InRange (f.instant + delta) := by
    unfold InRange
    rw [hq.1]
    exact ⟨hlow, hhigh⟩
  refine ⟨hrange, ?_⟩
  rw [← Option.some.inj hx]
  congr 1
  have hg := (ofInstant_spec f.tz hrange).1
  have hword := packDt_toNat hg
  have hbounds := hg.clockBounds
  have hdate : ord2ymd (ordinal f.y f.m f.d) = (f.y, f.m, f.d) := ord2ymd_ordinal h.date
  unfold ofInstant at hword hbounds ⊢
  rw [hq.1, hq.2, hdate] at hword hbounds ⊢
  dsimp only at hword hbounds ⊢
  obtain ⟨hhh, hmm, hss, hus⟩ := hbounds
  have hclear := toNat_clear (w := packDt f) (k := 38) (by decide) (by decide)
  have hfold := h.fold
  have hbits := h.clockBits_lt
  have hhigh : (packDt f).toNat / 2 ^ 38 = f.dateBits := by
    rw [packDt_toNat h]
    omega
  rw [hhigh] at hclear
  apply BitVec.eq_of_toNat_eq
  rw [hword]
  refine (toNat_clock hclear hhh hmm hss hus).trans ?_
  unfold Dt.dateBits Dt.clockBits
  simp only [Int.toNat_zero]
  ring

/-- The outcome of moving `f` by `delta`: the exact instant with the same `tzinfo` and no fold, or
the error that it is not in the years 1 to 9999. -/
def Moved (f : Dt τ) (delta : ℤ) (r : Outcome (Option (Except String (DtObj τ)))) : Prop :=
  if InRange (f.instant + delta) then
    ∃ x, r = .ok (some (.ok x)) ∧ x.Valid ∧ (dtFields x).instant = f.instant + delta ∧
      (dtFields x).tz = f.tz ∧ (dtFields x).fold = 0
  else r = .ok (some (.error outOfRange))

theorem ofInstant_tz (tz : TzInfo τ) (total : ℤ) :
    (ofInstant tz total).tz = tz ∧ (ofInstant tz total).fold = 0 := ⟨rfl, rfl⟩

/-- Without the in-day path. -/
theorem moved_general (h : f.Valid) (delta : ℤ) : Moved f delta (do
    let date ← validDate f.y f.m f.d
    if date then
      match ← dtShift f delta with
      | some g => do
        let r ← newDt g
        return some (.ok r)
      | none => return some (.error outOfRange)
    else return none) := by
  unfold Moved
  rw [validDate_of h.year h.date]
  change if _ then ∃ x, (dtShift f delta >>= _ : Outcome _) = _ ∧ _ else (_ : Outcome _) = _
  rw [dtShift_eq h]
  by_cases hin : InRange (f.instant + delta)
  · rw [if_pos hin, if_pos hin]
    obtain ⟨hvalid, hinstant⟩ := ofInstant_spec f.tz hin
    obtain ⟨x, hx, hxv, hxf⟩ := newDt_valid hvalid
    refine ⟨x, ?_, hxv, ?_, ?_, ?_⟩
    · change (newDt (ofInstant f.tz (f.instant + delta)) >>= _ : Outcome _) = _
      rw [hx]
      rfl
    · rw [hxf, hinstant]
    · rw [hxf]
      rfl
    · rw [hxf]
      rfl
  · rw [if_neg hin, if_neg hin]
    rfl

theorem dtMove_moved {x : DtObj τ} (h : x.Valid) (delta : ℤ) :
    Moved (dtFields x) delta (dtMove x delta) := by
  cases x with
  | fields f => exact moved_general h delta
  | packed w tz =>
    obtain ⟨f, hf, rfl, rfl⟩ := h
    rw [dtFields, fromWord_packDt hf]
    unfold dtMove
    rcases hday : dtShiftInDay (packDt f) f.tz delta with _ | x
    · dsimp only
      rw [hday, dtFields, fromWord_packDt hf]
      exact moved_general hf delta
    · obtain ⟨hin, rfl⟩ := dtShiftInDay_eq hf hday
      obtain ⟨hvalid, hinstant⟩ := ofInstant_spec f.tz hin
      have hback := fromWord_packDt hvalid
      rw [(ofInstant_tz _ _).1] at hback
      unfold Moved
      rw [if_pos hin]
      dsimp only
      rw [hday]
      refine ⟨_, rfl, ⟨_, hvalid, rfl, rfl⟩, ?_, ?_, ?_⟩
      · rw [dtFields, hback, hinstant]
      · rfl
      · rw [dtFields, hback]
        rfl

/-- Numbers written with a leading and a trailing part. -/
theorem lex_iff {a b x y n : ℤ} (hx : 0 ≤ x ∧ x < n) (hy : 0 ≤ y ∧ y < n) :
    a * n + x < b * n + y ↔ a < b ∨ a = b ∧ x < y := by
  constructor
  · intro h
    rcases Int.lt_trichotomy a b with hab | rfl | hab
    · exact Or.inl hab
    · exact Or.inr ⟨rfl, by omega⟩
    · have := Int.mul_le_mul_of_nonneg_right (show b + 1 ≤ a from hab) (show 0 ≤ n by omega)
      rw [Int.add_mul, Int.one_mul] at this
      omega
  · rintro (hab | ⟨rfl, hxy⟩)
    · have := Int.mul_le_mul_of_nonneg_right (show a + 1 ≤ b from hab) (show 0 ≤ n by omega)
      rw [Int.add_mul, Int.one_mul] at this
      omega
    · omega

theorem lex_eq_iff {a b x y n : ℤ} (hx : 0 ≤ x ∧ x < n) (hy : 0 ≤ y ∧ y < n) :
    a * n + x = b * n + y ↔ a = b ∧ x = y := by
  have hlt := lex_iff (a := a) (b := b) hx hy
  have hgt := lex_iff (a := b) (b := a) hy hx
  constructor
  · intro h
    omega
  · rintro ⟨rfl, rfl⟩
    rfl

/-- The order of clock readings, whatever the radices they are written in. -/
theorem clock_lt_iff {p q r h m s u h' m' s' u' : ℤ} (hm : 0 ≤ m ∧ m < p) (hm' : 0 ≤ m' ∧ m' < p)
    (hs : 0 ≤ s ∧ s < q) (hs' : 0 ≤ s' ∧ s' < q) (hu : 0 ≤ u ∧ u < r) (hu' : 0 ≤ u' ∧ u' < r) :
    ((h * p + m) * q + s) * r + u < ((h' * p + m') * q + s') * r + u' ↔
      (h < h' ∨ h = h' ∧ m < m') ∨ (h = h' ∧ m = m') ∧ s < s' ∨
        ((h = h' ∧ m = m') ∧ s = s') ∧ u < u' := by
  rw [lex_iff hu hu', lex_iff hs hs', lex_eq_iff hs hs', lex_iff hm hm', lex_eq_iff hm hm', or_assoc]

theorem dateBits_lt_iff (hf : f.Valid) (hg : g.Valid) : f.dateBits < g.dateBits ↔
    ordinal f.y f.m f.d < ordinal g.y g.m g.d := by
  rw [ordinal_lt_iff hf.date hg.date]
  obtain ⟨⟨hy, -⟩, hm, hd⟩ := hf.dateBounds
  obtain ⟨⟨hy', -⟩, hm', hd'⟩ := hg.dateBounds
  unfold Dt.dateBits
  omega

/-- Microseconds since midnight. -/
def Dt.clock (f : Dt τ) : ℤ := ((f.hh * 60 + f.mm) * 60 + f.ss) * 1000000 + f.us

theorem clockBits_lt_iff (hf : f.Valid) (hg : g.Valid) :
    f.clockBits < g.clockBits ↔ f.clock < g.clock := by
  have hcast : ∀ x : Dt τ, x.Valid → (x.clockBits : ℤ)
      = ((x.hh * 2 ^ 6 + x.mm) * 2 ^ 6 + x.ss) * 2 ^ 20 + x.us := by
    intro x hx
    have := hx.clockBounds
    unfold Dt.clockBits
    omega
  obtain ⟨-, hmm, hss, hus⟩ := hf.clockBounds
  obtain ⟨-, hmm', hss', hus'⟩ := hg.clockBounds
  unfold Dt.clock
  rw [← Int.ofNat_lt, hcast f hf, hcast g hg, clock_lt_iff hmm hmm' hss hss' hus hus',
    clock_lt_iff hf.mm hg.mm hf.ss hg.ss hf.us hg.us]

theorem Dt.Valid.clock_bounds (h : f.Valid) : 0 ≤ f.clock ∧ f.clock < usPerDay := by
  obtain ⟨-, -, hhh, hmm, hss, hus, -⟩ := h
  unfold Dt.clock usPerDay
  omega

/-- The words without their folds are ordered as the instants. -/
theorem word_order (hf : f.Valid) (hg : g.Valid) :
    (packDt f >>> 1).toNat < (packDt g >>> 1).toNat ↔ f.instant < g.instant := by
  have hshift : ∀ x : Dt τ, x.Valid → ((packDt x >>> 1).toNat : ℤ)
      = x.dateBits * 2 ^ 37 + x.clockBits := by
    intro x hx
    have hfold := hx.fold
    rw [BitVec.toNat_ushiftRight, packDt_toNat hx, Nat.shiftRight_eq_div_pow]
    omega
  have hinstant : ∀ x : Dt τ, x.instant = ordinal x.y x.m x.d * usPerDay + x.clock := by
    intro x
    unfold Dt.instant Dt.clock usPerDay
    ring
  have hbits : ∀ x : Dt τ, x.Valid → (0 : ℤ) ≤ x.clockBits ∧ (x.clockBits : ℤ) < 2 ^ 37 := by
    intro x hx
    have := hx.clockBits_lt
    omega
  have hdate := dateBits_lt_iff hf hg
  have hdate' := dateBits_lt_iff hg hf
  have hclock := clockBits_lt_iff hf hg
  rw [← Int.ofNat_lt, hshift f hf, hshift g hg, lex_iff (hbits f hf) (hbits g hg), hinstant f,
    hinstant g, lex_iff hf.clock_bounds hg.clock_bounds]
  omega

/-- A date that the source accepts. -/
theorem valid_of_validDate {y m d : ℤ} (h : validDate y m d = .ok true) :
    y ≤ 9999 ∧ Gregorian.Valid y m d := by
  obtain ⟨b, hb, hiff⟩ := validDate_iff (y := y) (m := m) (d := d)
  rw [h] at hb
  exact hiff.mp (Except.ok.inj hb).symm

/-- Ordinals and dates, packed words and shifts by a duration, over the whole range of years. -/
theorem datetime_exact :
    (∀ y m d, validDate y m d = .ok true → ∃ n, ymd2ord y m d = .ok n ∧ ord2ymd n = (y, m, d)) ∧
    (∀ n, 1 ≤ n → n ≤ maxOrdinal → ∃ y m d, ord2ymd n = (y, m, d) ∧ validDate y m d = .ok true ∧
      ymd2ord y m d = .ok n) ∧
    (∀ y m d y' m' d', validDate y m d = .ok true → validDate y' m' d' = .ok true →
      (y < y' ∨ y = y' ∧ (m < m' ∨ m = m' ∧ d < d')) →
      ∃ n n', ymd2ord y m d = .ok n ∧ ymd2ord y' m' d' = .ok n' ∧ n < n') ∧
    ∀ (τ : Type) (f : Dt τ), f.Valid → dtUs f = .ok f.instant ∧
      wordUs (packDt f) = .ok f.instant ∧ wordYmd (packDt f) = (f.y, f.m, f.d) ∧
      wordTime (packDt f) = (f.hh, f.mm, f.ss, f.us, f.fold) ∧
      (∀ g : Dt τ, g.Valid →
        ((packDt f >>> 1).toNat < (packDt g >>> 1).toNat ↔ f.instant < g.instant)) ∧
      (∀ (x : DtObj τ) (td : Td), x.Valid → dtFields x = f →
        Moved f td.total (dtAdd x td) ∧ Moved f (-td.total) (dtSub x td)) ∧
      ∀ delta x, dtShiftInDay (packDt f) f.tz delta = some x →
        dtShift f delta = .ok (some (dtFields x)) := by
  refine ⟨?_, ?_, ?_, ?_⟩
  · intro y m d h
    obtain ⟨-, hv⟩ := valid_of_validDate h
    exact ⟨_, ymd2ord_eq hv.year hv.month, ord2ymd_ordinal hv⟩
  · intro n hn hmax
    obtain ⟨y, m, d, hymd, hy, hv, hord⟩ := ord2ymd_valid hn hmax
    refine ⟨y, m, d, hymd, validDate_of hy hv, ?_⟩
    rw [ymd2ord_eq hv.year hv.month, hord]
  · intro y m d y' m' d' h h' hlt
    obtain ⟨-, hv⟩ := valid_of_validDate h
    obtain ⟨-, hv'⟩ := valid_of_validDate h'
    exact ⟨_, _, ymd2ord_eq hv.year hv.month, ymd2ord_eq hv'.year hv'.month, ordinal_lt hv hv' hlt⟩
  · intro τ f hf
    refine ⟨dtUs_eq hf, wordUs_eq hf, (word_packDt hf).1, (word_packDt hf).2,
      fun g hg => word_order hf hg, ?_, ?_⟩
    · rintro x td hx rfl
      exact ⟨dtMove_moved hx _, dtMove_moved hx _⟩
    · intro delta x hx
      obtain ⟨hin, rfl⟩ := dtShiftInDay_eq hf hx
      have hback := fromWord_packDt (ofInstant_spec f.tz hin).1
      rw [(ofInstant_tz _ _).1] at hback
      rw [dtShift_eq hf, if_pos hin, dtFields, hback]

/-- The last day of February of a year divisible by 400. -/
theorem leap_day_2000 : (∃ n, ymd2ord 2000 2 29 = .ok n ∧ ord2ymd n = (2000, 2, 29)) ∧
    ∃ y m d, ord2ymd 3652059 = (y, m, d) ∧ validDate y m d = .ok true ∧
      ymd2ord y m d = .ok 3652059 :=
  ⟨datetime_exact.1 2000 2 29 (by decide), datetime_exact.2.1 3652059 (by decide) (by decide)⟩

end WeavePy.DateTime
