import WeavePy.NativeCode.Format
import Mathlib.Tactic.Linarith
import Mathlib.Tactic.Ring

/-!
Folding a subscript of constants, and the slice a subscript takes at run time.
-/

namespace WeavePy.Flowgraph

open NativeCode (Scalar Constant)

def InI64 (a : ℤ) : Prop := -2 ^ 63 ≤ a ∧ a < 2 ^ 63

instance (a : ℤ) : Decidable (InI64 a) := inferInstanceAs (Decidable (_ ∧ _))

/-- `a + b` on `i64`, in a build with or without overflow checks. -/
def addI64 (checks : Bool) (a b : ℤ) : Outcome ℤ :=
  if InI64 (a + b) then .ok (a + b)
  else if checks then .error .panic else .ok ((a + b).bmod (2 ^ 64))

/-- `i64::saturating_add`. -/
def saturatingAdd (a b : ℤ) : ℤ := max (-2 ^ 63) (min (2 ^ 63 - 1) (a + b))

/-- `i as usize`. -/
def asUsize (i : ℤ) : ℕ := (i % 2 ^ 64).toNat

/-- There are as many `i64`s: a walk that has not ended by then never does. -/
def walkFuel : ℕ := 2 ^ 64

/-- `i` lies before `stop` in the direction of `step`. -/
def Before (step stop i : ℤ) : Prop := if 0 < step then i < stop else stop < i

instance (step stop i : ℤ) : Decidable (Before step stop i) := by
  unfold Before
  infer_instance

section Source

variable {I E : Type} (checks : Bool)

def sliceInt : Constant I E → Option ℤ
  | .scalar (.bool b) => some (if b then 1 else 0)
  | .scalar (.int i) => some i.toInt
  | _ => none

/-- A bound that is `None` is not set; one that is not an integer is no bound. -/
def sliceBound : Constant I E → Option (Option ℤ)
  | .scalar .none => some none
  | c => (sliceInt c).map some

def clamp (len default lower upper : ℤ) : Option ℤ → ℤ
  | none => default
  | some v =>
    if v < 0 then (if v + len < lower then lower else v + len)
    else if upper < v then upper else v

/-- The loop from `i` on: every index is pushed before the step is added to it. -/
def walk (step stop : ℤ) : ℕ → ℤ → Outcome (List ℕ)
  | 0, _ => .error .diverge
  | n + 1, i =>
    if Before step stop i then do
      let next ← addI64 checks i step
      return asUsize i :: (← walk step stop n next)
    else .ok []

def sliceIndices (start stop : Constant I E) (step len : ℤ) : Outcome (Option (List ℕ)) :=
  match sliceBound start, sliceBound stop with
  | some startV, some stopV => do
    let (lower, upper) := if step < 0 then (-1, len - 1) else (0, len)
    let start := clamp len (if step < 0 then upper else lower) lower upper startV
    let stop := clamp len (if step < 0 then lower else upper) lower upper stopV
    return some (← walk checks step stop walkFuel start)
  | _, _ => .ok none

/-- `char::from_u32` of every code point. -/
def charsOf (points : List UInt32) : Option (List Char) :=
  points.mapM fun p => if h : p.isValidChar then some ⟨p, h⟩ else none

/-- A text without surrogates is a `str`. -/
def textOf (points : List UInt32) : Scalar :=
  match charsOf points with
  | some cs => .str (.ofList cs)
  | none => .wstr points

def sliceContainer (indices : List ℕ) : Constant I E → Outcome (Constant I E)
  | .scalar (.str s) => return .scalar (.str (.ofList (← indices.mapM (index s.toList))))
  | .scalar (.wstr w) => return .scalar (textOf (← indices.mapM (index w)))
  | .scalar (.bytes b) => return .scalar (.bytes (← indices.mapM (index b)))
  | .tuple t => return .tuple (← indices.mapM (index t))
  | _ => .error .panic

/-- The length of a sequence that can be sliced. -/
def sequenceLen : Constant I E → Option ℕ
  | .scalar (.str s) => some s.toList.length
  | .scalar (.wstr w) => some w.length
  | .scalar (.bytes b) => some b.length
  | .tuple t => some t.length
  | _ => none

def sliceStep : Constant I E → Option ℤ
  | .scalar .none => some 1
  | c => sliceInt c

/-- `eval_const_subscr` of a slice. -/
def evalConstSlice (container start stop step : Constant I E) : Outcome (Option (Constant I E)) :=
  match sliceStep step with
  | none => .ok none
  | some step =>
    if step = 0 then .ok none
    else match sequenceLen container with
      | none => .ok none
      | some len => do
        match ← sliceIndices checks start stop step len with
        | none => return none
        | some indices => return some (← sliceContainer indices container)

end Source

/-! The subscript at run time: the bounds are `None` or integers and the step is not zero. -/

section Runtime

variable {α I E : Type}

def adjust (len step x : ℤ) : ℤ :=
  if x < 0 then
    let v := saturatingAdd x len
    if v < 0 then (if step < 0 then -1 else 0) else v
  else if len ≤ x then (if step < 0 then len - 1 else len)
  else x

/-- The loop of `slice_seq` from `i` on. -/
def seqWalk (seq : List α) (step stop : ℤ) : ℕ → ℤ → Outcome (List α)
  | 0, _ => .error .diverge
  | n + 1, i =>
    if Before step stop i then
      if 0 ≤ i ∧ i < seq.length then do
        let a ← index seq i.toNat
        return a :: (← seqWalk seq step stop n (saturatingAdd i step))
      else seqWalk seq step stop n (saturatingAdd i step)
    else .ok []

def sliceSeq (seq : List α) (start stop : Option ℤ) (step : ℤ) : Outcome (List α) :=
  let len : ℤ := seq.length
  let start := start.elim (if step < 0 then len - 1 else 0) (adjust len step)
  let stop := stop.elim (if step < 0 then -1 else len) (adjust len step)
  if step = 1 then .ok (if start < stop then seq.extract start.toNat stop.toNat else [])
  else seqWalk seq step stop walkFuel start

/-- Bounds that are not negative and a unit step take the characters between them at once. -/
def strSubscriptSlice (s : List Char) (start stop : Option ℤ) (step : ℤ) : Outcome (List Char) :=
  if step = 1 ∧ 0 ≤ start.getD 0 ∧ 0 ≤ stop.getD 0 then
    let start := min (start.getD 0).toNat s.length
    let stop := min (stop.elim s.length Int.toNat) s.length
    .ok (if start < stop then s.extract start stop else [])
  else sliceSeq s start stop step

/-- `container[start:stop:step]` in the virtual machine. -/
def vmSubscript (start stop : Option ℤ) (step : ℤ) : Constant I E → Outcome (Constant I E)
  | .scalar (.str s) => return .scalar (.str (.ofList (← strSubscriptSlice s.toList start stop step)))
  | .scalar (.wstr w) => return .scalar (textOf (← sliceSeq w start stop step))
  | .scalar (.bytes b) => return .scalar (.bytes (← sliceSeq b start stop step))
  | .tuple t => return .tuple (← sliceSeq t start stop step)
  | _ => .error .panic

end Runtime

/-! What a slice selects, in the language's own terms. -/

/-- How many steps of length `s` cover a distance `d`. -/
def stepsFor (d s : ℤ) : ℕ := ((d + s - 1) / s).toNat

/-- `range(start, stop, step)` has this many members. -/
def rangeLen (start stop step : ℤ) : ℕ :=
  if 0 < step then stepsFor (stop - start) step else stepsFor (start - stop) (-step)

def pyRange (start stop step : ℤ) : List ℤ :=
  (List.range (rangeLen start stop step)).map fun k : ℕ => start + k * step

/-- A bound of `slice.indices(len)`. -/
def sliceIndex (len step default : ℤ) : Option ℤ → ℤ
  | none => default
  | some v =>
    if v < 0 then max (v + len) (if step < 0 then -1 else 0)
    else min v (if step < 0 then len - 1 else len)

def sliceStart (start : Option ℤ) (step len : ℤ) : ℤ :=
  sliceIndex len step (if step < 0 then len - 1 else 0) start

def sliceStop (stop : Option ℤ) (step len : ℤ) : ℤ :=
  sliceIndex len step (if step < 0 then -1 else len) stop

/-- `range(*slice(start, stop, step).indices(len))`. -/
def selected (start stop : Option ℤ) (step len : ℤ) : List ℤ :=
  pyRange (sliceStart start step len) (sliceStop stop step len) step

def pick {α : Type} (seq : List α) (indices : List ℤ) : List α :=
  indices.filterMap fun i => seq[i.toNat]?

/-- The first point past the slice is an `i64`, where anything is selected. -/
def EndsInI64 (start stop : Option ℤ) (step len : ℤ) : Prop :=
  selected start stop step len = [] ∨
    InI64 (sliceStart start step len +
      rangeLen (sliceStart start step len) (sliceStop stop step len) step * step)

section Range

variable {start stop step len i d s : ℤ} {n : ℕ}

theorem stepsFor_eq_zero (hs : 0 < s) (hd : d ≤ 0) : stepsFor d s = 0 := by
  have hlt : (d + s - 1) / s < 1 := Int.ediv_lt_of_lt_mul hs (by omega)
  rw [stepsFor]
  omega

theorem stepsFor_succ (hs : 0 < s) (hd : 0 < d) : stepsFor d s = stepsFor (d - s) s + 1 := by
  have hsplit : (d + s - 1) / s = (d - s + s - 1) / s + 1 := by
    rw [show d + s - 1 = d - s + s - 1 + 1 * s by ring, Int.add_mul_ediv_right _ _ hs.ne']
  have hnonneg : 0 ≤ (d - s + s - 1) / s := Int.ediv_nonneg (by omega) hs.le
  simp only [stepsFor]
  omega

theorem rangeLen_eq_zero (hstep : step ≠ 0) (h : ¬Before step stop i) :
    rangeLen i stop step = 0 := by
  simp only [Before, rangeLen] at *
  split_ifs at * with hpos
  · exact stepsFor_eq_zero hpos (by omega)
  · exact stepsFor_eq_zero (by omega) (by omega)

theorem rangeLen_succ (hstep : step ≠ 0) (h : Before step stop i) :
    rangeLen i stop step = rangeLen (i + step) stop step + 1 := by
  simp only [Before, rangeLen] at *
  split_ifs at * with hpos
  · rw [stepsFor_succ hpos (by omega), show stop - (i + step) = stop - i - step by ring]
  · rw [stepsFor_succ (by omega) (by omega), show i + step - stop = i - stop - -step by ring]

theorem pyRange_nil (hstep : step ≠ 0) (h : ¬Before step stop i) : pyRange i stop step = [] := by
  rw [pyRange, rangeLen_eq_zero hstep h]
  rfl

theorem pyRange_cons (hstep : step ≠ 0) (h : Before step stop i) :
    pyRange i stop step = i :: pyRange (i + step) stop step := by
  rw [pyRange, rangeLen_succ hstep h, List.range_succ_eq_map]
  simp only [pyRange, List.map_cons, List.map_map, Nat.cast_zero, zero_mul, add_zero]
  congr 1
  apply List.map_congr_left
  intro k _
  simp only [Function.comp_apply, Nat.succ_eq_add_one]
  push_cast
  ring

@[simp] theorem length_pyRange : (pyRange start stop step).length = rangeLen start stop step := by
  simp [pyRange]

/-- Halfway to the end of a range the numbers are between its ends. -/
theorem inI64_add_step {r : ℕ} (hi : InI64 i) (h : InI64 (i + (r + 1 : ℕ) * step)) :
    InI64 (i + step) := by
  have hsplit : i + (r + 1 : ℕ) * step = i + step + r * step := by
    push_cast
    ring
  rw [hsplit] at h
  simp only [InI64] at *
  rcases le_total 0 step with hs | hs
  · have hr : 0 ≤ r * step := by positivity
    omega
  · have hr : r * step ≤ 0 := mul_nonpos_of_nonneg_of_nonpos (by positivity) hs
    omega

theorem walk_ok {checks : Bool} (hstep : step ≠ 0) (hi : InI64 i)
    (hend : rangeLen i stop step = 0 ∨ InI64 (i + rangeLen i stop step * step))
    (hn : rangeLen i stop step < n) :
    walk checks step stop n i = .ok ((pyRange i stop step).map asUsize) := by
  induction n generalizing i with
  | zero => omega
  | succ n ih =>
    rw [walk]
    by_cases hb : Before step stop i
    · rw [rangeLen_succ hstep hb] at hend hn
      have hnext := inI64_add_step hi (hend.resolve_left (Nat.succ_ne_zero _))
      have hrest : rangeLen (i + step) stop step = 0 ∨
          InI64 (i + step + rangeLen (i + step) stop step * step) := by
        right
        have h := hend.resolve_left (Nat.succ_ne_zero _)
        push_cast at h
        rw [show i + step + rangeLen (i + step) stop step * step =
          i + (rangeLen (i + step) stop step + 1) * step by ring]
        exact h
      rw [if_pos hb, addI64, if_pos hnext, ok_bind, ih hnext hrest (by omega),
        pyRange_cons hstep hb]
      rfl
    · rw [if_neg hb, pyRange_nil hstep hb]
      rfl

/-- The sum that leaves `i64` comes back on the near side of `stop`. -/
theorem before_wrapped (hi : InI64 i) (hs : InI64 step) (hstop : InI64 stop)
    (hb : Before step stop i) (hout : ¬InI64 (i + step)) :
    Before step stop ((i + step).bmod (2 ^ 64)) ∧
      ¬Before step stop (i + step) := by
  by_cases hpos : 0 < step
  · simp only [InI64, Before, Int.bmod, if_pos hpos] at *
    split_ifs <;> omega
  · simp only [InI64, Before, Int.bmod, if_neg hpos] at *
    split_ifs <;> omega

theorem walk_long {checks : Bool} (hs : InI64 step) (hstep : step ≠ 0) (hi : InI64 i)
    (hstop : InI64 stop) {r : ℕ} (hr : rangeLen i stop step = r + 1)
    (hend : ¬InI64 (i + (r + 1 : ℕ) * step)) {out : List ℕ}
    (h : walk checks step stop n i = .ok out) : r + 1 < out.length := by
  induction n generalizing i r out with
  | zero => cases h
  | succ n ih =>
    have hb : Before step stop i := by
      by_contra hb
      rw [rangeLen_eq_zero hstep hb] at hr
      omega
    rw [rangeLen_succ hstep hb] at hr
    rw [walk, if_pos hb, addI64] at h
    obtain ⟨next, hnext, h⟩ := bind_eq_ok.mp h
    obtain ⟨rest, hrest, h⟩ := bind_eq_ok.mp h
    obtain rfl := Except.ok.inj h
    by_cases hin : InI64 (i + step)
    · rw [if_pos hin] at hnext
      obtain rfl := Except.ok.inj hnext
      cases r with
      | zero => simp [hin] at hend
      | succ r =>
        have hend' : ¬InI64 (i + step + (r + 1 : ℕ) * step) := by
          rwa [show i + step + (r + 1 : ℕ) * step = i + (r + 1 + 1 : ℕ) * step by push_cast; ring]
        have hlen := ih hin (by omega) hend' hrest
        rw [List.length_cons]
        omega
    · obtain ⟨hback, hpast⟩ := before_wrapped hi hs hstop hb hin
      rw [rangeLen_eq_zero hstep hpast] at hr
      rw [if_neg hin] at hnext
      cases checks with
      | true => cases hnext
      | false =>
        obtain rfl := Except.ok.inj hnext
        cases n with
        | zero => cases hrest
        | succ n =>
          rw [walk, if_pos hback] at hrest
          obtain ⟨_, _, hrest⟩ := bind_eq_ok.mp hrest
          obtain ⟨_, _, hrest⟩ := bind_eq_ok.mp hrest
          obtain rfl := Except.ok.inj hrest
          simp only [List.length_cons]
          omega

theorem stepsFor_le (hs : 0 < s) (hd : 0 < d) : (stepsFor d s : ℤ) ≤ d := by
  have hle : (d + s - 1) / s ≤ d := by
    apply Int.ediv_le_of_le_mul hs
    have hprod : 0 ≤ (d - 1) * (s - 1) := mul_nonneg (by omega) (by omega)
    linarith
  have hnonneg : 0 ≤ (d + s - 1) / s := Int.ediv_nonneg (by omega) hs.le
  rw [stepsFor, Int.toNat_of_nonneg hnonneg]
  exact hle

theorem mem_pyRange (hstep : step ≠ 0) {m : ℤ} (h : m ∈ pyRange i stop step) :
    if 0 < step then i ≤ m ∧ m < stop else m ≤ i ∧ stop < m := by
  induction hn : rangeLen i stop step generalizing i with
  | zero =>
    rw [pyRange, hn] at h
    simp at h
  | succ n ih =>
    have hb : Before step stop i := by
      by_contra hb
      rw [rangeLen_eq_zero hstep hb] at hn
      omega
    rw [rangeLen_succ hstep hb] at hn
    rw [pyRange_cons hstep hb, List.mem_cons] at h
    simp only [Before] at hb
    rcases h with rfl | h
    · split_ifs at * with hpos
      · exact ⟨le_rfl, hb⟩
      · exact ⟨le_rfl, hb⟩
    · have h := ih h (by omega)
      split_ifs at * with hpos
      · omega
      · omega

end Range

section Bounds

variable {start stop v : Option ℤ} {step len : ℤ}

/-- Bounds, however they are given, end up here. -/
def Clamped (step len i : ℤ) : Prop := if step < 0 then -1 ≤ i ∧ i ≤ len - 1 else 0 ≤ i ∧ i ≤ len

theorem sliceStart_clamped (hlen : 0 ≤ len) : Clamped step len (sliceStart start step len) := by
  cases start with
  | none =>
    simp only [Clamped, sliceStart, sliceIndex]
    split_ifs <;> omega
  | some v =>
    simp only [Clamped, sliceStart, sliceIndex]
    split_ifs <;> omega

theorem sliceStop_clamped (hlen : 0 ≤ len) : Clamped step len (sliceStop stop step len) := by
  cases stop with
  | none =>
    simp only [Clamped, sliceStop, sliceIndex]
    split_ifs <;> omega
  | some v =>
    simp only [Clamped, sliceStop, sliceIndex]
    split_ifs <;> omega

theorem clamp_eq {default : ℤ} : clamp len default (if step < 0 then -1 else 0)
    (if step < 0 then len - 1 else len) v = sliceIndex len step default v := by
  cases v with
  | none => rfl
  | some v =>
    simp only [clamp, sliceIndex]
    split_ifs <;> omega

theorem selected_mem (hstep : step ≠ 0) (hlen : 0 ≤ len) {i : ℤ}
    (h : i ∈ selected start stop step len) : 0 ≤ i ∧ i < len := by
  have hm := mem_pyRange hstep h
  have hstart := @sliceStart_clamped start step len hlen
  have hstop := @sliceStop_clamped stop step len hlen
  simp only [Clamped] at *
  split_ifs at * <;> omega

theorem rangeLen_lt (hstep : step ≠ 0) (hlen : 0 ≤ len) (hmax : len < 2 ^ 63) :
    rangeLen (sliceStart start step len) (sliceStop stop step len) step < walkFuel := by
  have hstart := @sliceStart_clamped start step len hlen
  have hstop := @sliceStop_clamped stop step len hlen
  by_cases hb : Before step (sliceStop stop step len) (sliceStart start step len)
  · simp only [Clamped, Before, rangeLen, walkFuel] at *
    split_ifs at * with hneg hpos
    · omega
    · have hle := stepsFor_le (s := step) (show 0 < step by omega)
        (show 0 < sliceStop stop step len - sliceStart start step len by omega)
      omega
    · have hle := stepsFor_le (s := -step) (show 0 < -step by omega)
        (show 0 < sliceStart start step len - sliceStop stop step len by omega)
      omega
    · omega
  · rw [rangeLen_eq_zero hstep hb, walkFuel]
    omega

end Bounds

section Picking

variable {α : Type} {seq : List α} {step stop i : ℤ} {n : ℕ} {sel : List ℤ}

theorem pick_cons (hi : i.toNat < seq.length) :
    pick seq (i :: sel) = seq[i.toNat] :: pick seq sel := by
  simp [pick, hi]

theorem mapM_index (hall : ∀ m ∈ sel, 0 ≤ m ∧ m < seq.length) (hmax : seq.length < 2 ^ 63) :
    (sel.map asUsize).mapM (index seq) = .ok (pick seq sel) := by
  induction sel with
  | nil => rfl
  | cons m sel ih =>
    have hm := hall m List.mem_cons_self
    have hcast : asUsize m = m.toNat := by
      rw [asUsize, Int.emod_eq_of_lt hm.1 (by omega)]
    have hlt : m.toNat < seq.length := by omega
    rw [List.map_cons, List.mapM_cons, hcast, index_ok hlt,
      ih fun k hk => hall k (List.mem_cons_of_mem _ hk), pick_cons hlt]
    rfl

theorem pyRange_saturatingAdd (hstep : step ≠ 0) (hi : InI64 i)
    (hstop : -1 ≤ stop ∧ stop < 2 ^ 63) :
    pyRange (saturatingAdd i step) stop step = pyRange (i + step) stop step := by
  by_cases hin : InI64 (i + step)
  · have heq : saturatingAdd i step = i + step := by
      simp only [InI64, saturatingAdd] at *
      omega
    rw [heq]
  · have hsat : ¬Before step stop (saturatingAdd i step) ∧ ¬Before step stop (i + step) := by
      simp only [InI64, saturatingAdd, Before] at *
      split_ifs <;> omega
    rw [pyRange_nil hstep hsat.1, pyRange_nil hstep hsat.2]

theorem seqWalk_ok (hstep : step ≠ 0) (hi : InI64 i) (hstop : -1 ≤ stop ∧ stop < 2 ^ 63)
    (hall : ∀ m ∈ pyRange i stop step, 0 ≤ m ∧ m < seq.length)
    (hn : (pyRange i stop step).length < n) :
    seqWalk seq step stop n i = .ok (pick seq (pyRange i stop step)) := by
  induction n generalizing i with
  | zero => omega
  | succ n ih =>
    rw [seqWalk]
    by_cases hb : Before step stop i
    · rw [pyRange_cons hstep hb] at hall hn ⊢
      rw [List.length_cons] at hn
      have hm := hall i List.mem_cons_self
      have hlt : i.toNat < seq.length := by omega
      have hnext : InI64 (saturatingAdd i step) := by
        simp only [InI64, saturatingAdd]
        omega
      have hsame := pyRange_saturatingAdd hstep hi hstop
      have hrest := ih hnext
        (by rw [hsame]; exact fun m hm => hall m (List.mem_cons_of_mem _ hm))
        (by rw [hsame]; omega)
      rw [if_pos hb, if_pos hm, index_ok hlt, ok_bind, hrest, hsame, pick_cons hlt]
      rfl
    · rw [if_neg hb, pyRange_nil hstep hb]
      rfl

theorem pick_unit (h : 0 ≤ i) (hstop : stop ≤ seq.length) :
    pick seq (pyRange i stop 1) = if i < stop then seq.extract i.toNat stop.toNat else [] := by
  by_cases hlt : i < stop
  · induction hn : (stop - i).toNat generalizing i with
    | zero => omega
    | succ n ih =>
      have hi : i.toNat < seq.length := by omega
      have hnat : (i + 1).toNat = i.toNat + 1 := by omega
      rw [if_pos hlt, pyRange_cons one_ne_zero (by rw [Before, if_pos zero_lt_one]; exact hlt),
        pick_cons hi, List.extract_eq_take_drop, List.drop_eq_getElem_cons hi,
        show stop.toNat - i.toNat = (stop.toNat - (i + 1).toNat) + 1 by omega, List.take_succ_cons]
      by_cases hnext : i + 1 < stop
      · rw [ih (by omega) hnext (by omega), if_pos hnext, List.extract_eq_take_drop, hnat]
      · rw [pyRange_nil one_ne_zero (by rw [Before, if_pos zero_lt_one]; exact hnext),
          show stop.toNat - (i + 1).toNat = 0 by omega]
        rfl
  · rw [if_neg hlt, pyRange_nil one_ne_zero (by rw [Before, if_pos zero_lt_one]; exact hlt)]
    rfl

end Picking

section Runtime

variable {α : Type} {seq : List α} {start stop v : Option ℤ} {step : ℤ}

theorem adjust_eq {len x : ℤ} (hlen : 0 ≤ len) (hx : InI64 x) (hmax : len < 2 ^ 63)
    (default : ℤ) : adjust len step x = sliceIndex len step default (some x) := by
  simp only [InI64, adjust, sliceIndex, saturatingAdd] at *
  split_ifs <;> omega

theorem elim_adjust {len default : ℤ} (hlen : 0 ≤ len) (hv : ∀ x ∈ v, InI64 x)
    (hmax : len < 2 ^ 63) : v.elim default (adjust len step) = sliceIndex len step default v := by
  cases v with
  | none => rfl
  | some x => exact adjust_eq hlen (hv x rfl) hmax default

theorem sliceSeq_ok (hstep : step ≠ 0) (hstart : ∀ x ∈ start, InI64 x)
    (hstop : ∀ x ∈ stop, InI64 x) (hmax : seq.length < 2 ^ 63) :
    sliceSeq seq start stop step = .ok (pick seq (selected start stop step seq.length)) := by
  have hlen : (0 : ℤ) ≤ seq.length := by omega
  have hmax' : (seq.length : ℤ) < 2 ^ 63 := by omega
  have hfrom := @sliceStart_clamped start step _ hlen
  have hto := @sliceStop_clamped stop step _ hlen
  rw [sliceSeq, elim_adjust hlen hstart hmax', elim_adjust hlen hstop hmax']
  change (if step = 1 then _ else seqWalk seq step (sliceStop stop step seq.length) walkFuel
    (sliceStart start step seq.length)) = _
  by_cases h1 : step = 1
  · subst h1
    rw [Clamped, if_neg (show ¬(1 : ℤ) < 0 by decide)] at hfrom hto
    rw [if_pos rfl, selected, pick_unit (by omega) (by omega)]
    rfl
  · rw [if_neg h1]
    apply seqWalk_ok hstep
    · simp only [Clamped, InI64] at *
      split_ifs at * <;> omega
    · simp only [Clamped] at *
      split_ifs at * <;> omega
    · exact fun m hm => selected_mem hstep hlen hm
    · rw [length_pyRange]
      exact rangeLen_lt hstep hlen hmax'

theorem strSubscriptSlice_ok {s : List Char} (hstep : step ≠ 0) (hstart : ∀ x ∈ start, InI64 x)
    (hstop : ∀ x ∈ stop, InI64 x) (hmax : s.length < 2 ^ 63) :
    strSubscriptSlice s start stop step = .ok (pick s (selected start stop step s.length)) := by
  rw [strSubscriptSlice]
  split_ifs with h
  · obtain ⟨rfl, hs, ht⟩ := h
    have hfrom : sliceStart start 1 s.length = (min (start.getD 0).toNat s.length : ℕ) := by
      cases start with
      | none => simp [sliceStart, sliceIndex]
      | some v =>
        simp only [sliceStart, sliceIndex, Option.getD_some] at *
        split_ifs <;> omega
    have hto : sliceStop stop 1 s.length = (min (stop.elim s.length Int.toNat) s.length : ℕ) := by
      cases stop with
      | none => simp [sliceStop, sliceIndex]
      | some v =>
        simp only [sliceStop, sliceIndex, Option.getD_some, Option.elim_some] at *
        split_ifs <;> omega
    rw [selected, hfrom, hto, pick_unit (by omega) (by omega)]
    simp only [Nat.cast_lt, Int.toNat_natCast]
  · exact sliceSeq_ok hstep hstart hstop hmax

end Runtime

section Folding

variable {I E : Type} {container start stop : Constant I E} {startV stopV : Option ℤ}
  {step len : ℤ} {checks : Bool}

theorem sliceInt_inI64 {c : Constant I E} {x : ℤ} (h : sliceInt c = some x) : InI64 x := by
  cases c with
  | scalar s =>
    cases s with
    | bool b =>
      cases b <;>
        · obtain rfl := Option.some.inj h
          decide
    | int i =>
      obtain rfl := Option.some.inj h
      exact ⟨i.le_toInt, i.toInt_lt⟩
    | _ => cases h
  | _ => cases h

theorem sliceBound_inI64 {c : Constant I E} {v : Option ℤ} (h : sliceBound c = some v) :
    ∀ x ∈ v, InI64 x := by
  rintro x rfl
  rw [sliceBound.eq_def] at h
  split at h
  · cases h
  · obtain ⟨y, hy, hx⟩ := Option.map_eq_some_iff.mp h
    obtain rfl := Option.some.inj hx
    exact sliceInt_inI64 hy

theorem sliceStep_inI64 {c : Constant I E} (h : sliceStep c = some step) : InI64 step := by
  rw [sliceStep.eq_def] at h
  split at h
  · obtain rfl := Option.some.inj h
    decide
  · exact sliceInt_inI64 h

theorem sliceIndices_eq (hstart : sliceBound start = some startV)
    (hstop : sliceBound stop = some stopV) :
    sliceIndices checks start stop step len = (do
      return some (← walk checks step (sliceStop stopV step len) walkFuel
        (sliceStart startV step len))) := by
  have hs := @clamp_eq startV step len (if step < 0 then len - 1 else 0)
  have ht := @clamp_eq stopV step len (if step < 0 then -1 else len)
  rw [sliceIndices, hstart, hstop]
  by_cases hneg : step < 0
  · simp only [if_pos hneg] at hs ht
    simp only [if_pos hneg, hs, ht, sliceStart, sliceStop]
  · simp only [if_neg hneg] at hs ht
    simp only [if_neg hneg, hs, ht, sliceStart, sliceStop]

theorem sliceIndices_iff (hs : InI64 step) (hstep : step ≠ 0) (hlen : 0 ≤ len)
    (hmax : len < 2 ^ 63) (hstart : sliceBound start = some startV)
    (hstop : sliceBound stop = some stopV) :
    sliceIndices checks start stop step len =
        .ok (some ((selected startV stopV step len).map asUsize)) ↔
      EndsInI64 startV stopV step len := by
  have hfrom := @sliceStart_clamped startV step len hlen
  have hto := @sliceStop_clamped stopV step len hlen
  have hi : InI64 (sliceStart startV step len) := by
    simp only [Clamped, InI64] at *
    split_ifs at * <;> omega
  have ht : InI64 (sliceStop stopV step len) := by
    simp only [Clamped, InI64] at *
    split_ifs at * <;> omega
  rw [sliceIndices_eq hstart hstop]
  constructor
  · intro h
    by_contra hend
    rw [EndsInI64, not_or] at hend
    obtain ⟨out, hout, h⟩ := bind_eq_ok.mp h
    obtain rfl := Option.some.inj (Except.ok.inj h)
    cases hr : rangeLen (sliceStart startV step len) (sliceStop stopV step len) step with
    | zero => exact hend.1 (List.eq_nil_of_length_eq_zero (by rw [selected, length_pyRange, hr]))
    | succ r =>
      rw [hr] at hend
      have hlong := walk_long hs hstep hi ht hr hend.2 hout
      rw [List.length_map, selected, length_pyRange, hr] at hlong
      exact lt_irrefl _ hlong
  · intro h
    have hend : rangeLen (sliceStart startV step len) (sliceStop stopV step len) step = 0 ∨
        InI64 (sliceStart startV step len + rangeLen (sliceStart startV step len)
          (sliceStop stopV step len) step * step) := by
      apply h.imp_left
      intro hnil
      rw [← length_pyRange, show pyRange _ _ _ = [] from hnil, List.length_nil]
    rw [walk_ok hstep hi hend (rangeLen_lt hstep hlen hmax)]
    rfl

theorem selected_map_asUsize (hstep : step ≠ 0) (hlen : 0 ≤ len) (hmax : len < 2 ^ 63) :
    (selected startV stopV step len).map asUsize = (selected startV stopV step len).map Int.toNat := by
  apply List.map_congr_left
  intro i hi
  have hmem := selected_mem hstep hlen hi
  rw [asUsize, Int.emod_eq_of_lt hmem.1 (by omega)]

/-- Every container picks what the slice selects, whichever way it is taken. -/
theorem sliceContainer_eq_vmSubscript {len : ℕ} (hstep : step ≠ 0)
    (hlen : sequenceLen container = some len) (hmax : len < 2 ^ 63)
    (hstart : ∀ x ∈ startV, InI64 x) (hstop : ∀ x ∈ stopV, InI64 x) :
    ∃ c, sliceContainer ((selected startV stopV step len).map asUsize) container = .ok c ∧
      vmSubscript startV stopV step container = .ok c := by
  have hall : ∀ i ∈ selected startV stopV step len, 0 ≤ i ∧ i < len := by
    intro i hi
    exact selected_mem hstep (by omega) hi
  cases container with
  | scalar s =>
    cases s with
    | str s =>
      obtain rfl := Option.some.inj hlen
      exact ⟨_, by rw [sliceContainer, mapM_index hall hmax]; rfl,
        by rw [vmSubscript, strSubscriptSlice_ok hstep hstart hstop hmax]; rfl⟩
    | wstr w =>
      obtain rfl := Option.some.inj hlen
      exact ⟨_, by rw [sliceContainer, mapM_index hall hmax]; rfl,
        by rw [vmSubscript, sliceSeq_ok hstep hstart hstop hmax]; rfl⟩
    | bytes b =>
      obtain rfl := Option.some.inj hlen
      exact ⟨_, by rw [sliceContainer, mapM_index hall hmax]; rfl,
        by rw [vmSubscript, sliceSeq_ok hstep hstart hstop hmax]; rfl⟩
    | _ => cases hlen
  | tuple t =>
    obtain rfl := Option.some.inj hlen
    exact ⟨_, by rw [sliceContainer, mapM_index hall hmax]; rfl,
      by rw [vmSubscript, sliceSeq_ok hstep hstart hstop hmax]; rfl⟩
  | _ => cases hlen

/-- In either build, a slice of constants folds to what the subscript gives at run time just when
the walk's last sum is an `i64`. -/
theorem const_slice_iff {stepC : Constant I E} {len : ℕ} (hstart : sliceBound start = some startV)
    (hstop : sliceBound stop = some stopV) (hstepC : sliceStep stepC = some step) (h0 : step ≠ 0)
    (hlen : sequenceLen container = some len) (hmax : len < 2 ^ 63) :
    (sliceIndices checks start stop step len =
          .ok (some ((selected startV stopV step len).map Int.toNat)) ∧
        (∀ i ∈ selected startV stopV step len, 0 ≤ i ∧ i < len) ∧
        ∃ c, evalConstSlice checks container start stop stepC = .ok (some c) ∧
          vmSubscript startV stopV step container = .ok c) ↔
      EndsInI64 startV stopV step len := by
  have hpos : (0 : ℤ) ≤ len := by omega
  have hlt : (len : ℤ) < 2 ^ 63 := by omega
  have hiff := @sliceIndices_iff _ _ _ _ _ _ _ _ checks (sliceStep_inI64 hstepC) h0 hpos hlt hstart hstop
  rw [← selected_map_asUsize h0 hpos hlt]
  constructor
  · intro h
    exact hiff.mp h.1
  · intro h
    have hindices := hiff.mpr h
    obtain ⟨c, hfold, hrun⟩ := sliceContainer_eq_vmSubscript h0 hlen hmax
      (sliceBound_inI64 hstart) (sliceBound_inI64 hstop)
    refine ⟨hindices, fun i hi => selected_mem h0 hpos hi, c, ?_, hrun⟩
    rw [evalConstSlice, hstepC]
    dsimp only
    rw [if_neg h0, hlen]
    dsimp only
    rw [hindices, ok_bind]
    dsimp only
    rw [hfold]
    rfl

end Folding

/-- `"abc"[1:3:9223372036854775807]`. -/
theorem const_slice_leaves_i64 :
    evalConstSlice (I := Empty) (E := Empty) true (.scalar (.str "abc")) (.scalar (.int 1))
        (.scalar (.int 3)) (.scalar (.int 9223372036854775807)) = .error .panic ∧
      evalConstSlice (I := Empty) (E := Empty) false (.scalar (.str "abc")) (.scalar (.int 1))
        (.scalar (.int 3)) (.scalar (.int 9223372036854775807)) = .error .panic ∧
      vmSubscript (I := Empty) (E := Empty) (some 1) (some 3) 9223372036854775807
        (.scalar (.str "abc")) = .ok (.scalar (.str "b")) := by
  refine ⟨?_, ?_, ?_⟩
  · rfl
  · rfl
  · rfl

/-- `b"abc"[2::-1]`. -/
theorem const_slice_backwards :
    ∃ c, evalConstSlice (I := Empty) (E := Empty) true (.scalar (.bytes [97, 98, 99]))
        (.scalar (.int 2)) (.scalar .none) (.scalar (.int (-1))) = .ok (some c) ∧
      vmSubscript (some 2) none (-1) (.scalar (.bytes [97, 98, 99])) = .ok c :=
  ((const_slice_iff rfl rfl rfl (by decide) rfl (by decide)).mpr (.inr (by decide))).2.2

end WeavePy.Flowgraph
