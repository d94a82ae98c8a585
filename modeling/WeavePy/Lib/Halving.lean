import Mathlib.Data.Nat.Log
import Mathlib.Tactic.Common
import Mathlib.Tactic.Ring

/-!
Intervals below a width that is halved again and again: the depth at which a dyadic point first
falls into an interval, and stacks of intervals whose depths grow.
-/

namespace WeavePy.Halving

variable {w k j x y z u v : ℕ}

/-- A multiple of `w / 2 ^ k` lies after `x` and not after `y`. -/
def Cut (w k x y : ℕ) : Prop := ∃ c, 2 ^ k * x < c * w ∧ c * w ≤ 2 ^ k * y

/-- The first level that cuts the interval. -/
structure IsDepth (w p x y : ℕ) : Prop where
  cut : Cut w p x y
  least : ∀ j < p, ¬ Cut w j x y

theorem Cut.succ (h : Cut w k x y) : Cut w (k + 1) x y := by
  obtain ⟨c, hx, hy⟩ := h
  refine ⟨2 * c, ?_, ?_⟩
  · calc 2 ^ (k + 1) * x = 2 * (2 ^ k * x) := by ring
      _ < 2 * (c * w) := by omega
      _ = 2 * c * w := by ring
  · calc 2 * c * w = 2 * (c * w) := by ring
      _ ≤ 2 * (2 ^ k * y) := by omega
      _ = 2 ^ (k + 1) * y := by ring

theorem Cut.mono (h : Cut w j x y) (hjk : j ≤ k) : Cut w k x y := by
  induction hjk with
  | refl => exact h
  | step _ ih => exact ih.succ

theorem not_cut_self : ¬ Cut w k x x := by
  rintro ⟨c, hx, hy⟩
  omega

theorem not_cut_zero (hy : y < w) : ¬ Cut w 0 x y := by
  rintro ⟨c, hx, hc⟩
  rw [Nat.pow_zero, Nat.one_mul] at hx hc
  cases c with
  | zero => omega
  | succ c =>
    rw [Nat.succ_mul] at hc
    omega

theorem Cut.split (h : Cut w k x z) (y : ℕ) : Cut w k x y ∨ Cut w k y z := by
  obtain ⟨c, hx, hz⟩ := h
  rcases Nat.lt_or_ge (2 ^ k * y) (c * w) with hy | hy
  · exact Or.inr ⟨c, hy, hz⟩
  · exact Or.inl ⟨c, hx, hy⟩

theorem Cut.of_wide (hw : 0 < w) (hxy : x ≤ y) (h : w ≤ 2 ^ k * (y - x)) : Cut w k x y := by
  have hle : 2 ^ k * x + w ≤ 2 ^ k * y := by
    calc 2 ^ k * x + w ≤ 2 ^ k * x + 2 ^ k * (y - x) := by omega
      _ = 2 ^ k * y := by rw [← Nat.mul_add, Nat.add_sub_cancel' hxy]
  have hdiv := Nat.div_add_mod (2 ^ k * x) w
  have hmod := Nat.mod_lt (2 ^ k * x) hw
  refine ⟨2 ^ k * x / w + 1, ?_, ?_⟩
  · rw [Nat.succ_mul, Nat.mul_comm _ w]
    omega
  · rw [Nat.succ_mul, Nat.mul_comm _ w]
    omega

/-- A point that cuts first at level `k + 1` is an odd multiple there. -/
theorem odd_of_not_cut {c : ℕ} (hx : 2 ^ (k + 1) * x < c * w) (hy : c * w ≤ 2 ^ (k + 1) * y)
    (h : ¬ Cut w k x y) : c % 2 = 1 := by
  by_contra heven
  obtain ⟨d, rfl⟩ : ∃ d, c = 2 * d := ⟨c / 2, by omega⟩
  have hd : 2 * d * w = 2 * (d * w) := by ring
  have hx2 : 2 ^ (k + 1) * x = 2 * (2 ^ k * x) := by ring
  have hy2 : 2 ^ (k + 1) * y = 2 * (2 ^ k * y) := by ring
  exact h ⟨d, by omega, by omega⟩

/-- Between two intervals first cut at the same level lies a point of the level above. -/
theorem Cut.between (hxy : Cut w (k + 1) x y) (hxy' : ¬ Cut w k x y) (huv : Cut w (k + 1) u v)
    (huv' : ¬ Cut w k u v) (hyu : y ≤ u) : Cut w k x v := by
  obtain ⟨c, hx, hy⟩ := hxy
  obtain ⟨d, hu, hv⟩ := huv
  have hc := odd_of_not_cut hx hy hxy'
  have hd := odd_of_not_cut hu hv huv'
  have hpow : 2 ^ (k + 1) * y ≤ 2 ^ (k + 1) * u := Nat.mul_le_mul_left _ hyu
  have hcd : c < d := by
    have hlt : c * w < d * w := by omega
    exact Nat.lt_of_mul_lt_mul_right hlt
  obtain ⟨e, he⟩ : ∃ e, c + 1 = 2 * e := ⟨(c + 1) / 2, by omega⟩
  have hce : c * w ≤ (c + 1) * w := Nat.mul_le_mul_right _ (Nat.le_succ c)
  have hed : (c + 1) * w ≤ d * w := Nat.mul_le_mul_right _ hcd
  have h2 : 2 * e * w = 2 * (e * w) := by ring
  have hx2 : 2 ^ (k + 1) * x = 2 * (2 ^ k * x) := by ring
  have hv2 : 2 ^ (k + 1) * v = 2 * (2 ^ k * v) := by ring
  rw [he, h2] at hce hed
  exact ⟨e, by omega, by omega⟩

theorem IsDepth.pos {p : ℕ} (h : IsDepth w p x y) (hy : y < w) : 0 < p := by
  apply Nat.pos_of_ne_zero
  rintro rfl
  exact not_cut_zero hy h.cut

theorem IsDepth.le_clog {p gap : ℕ} (h : IsDepth w p x y) (hgap : x + gap ≤ y) (hw : 0 < w)
    (hk : w ≤ 2 ^ k * gap) : p ≤ k := by
  by_contra hlt
  apply h.least k (by omega)
  apply Cut.of_wide hw (by omega)
  exact hk.trans (Nat.mul_le_mul_left _ (by omega))

/-- The depths of intervals, last first, below `m`: each interval's depth is above those before it,
and level `q` cuts nothing between the last one and `m`. -/
def Nested (w gap : ℕ) : ℕ → ℕ → List ℕ → Prop
  | _, _, [] => True
  | q, m, p :: ps => ∃ x y, x + gap ≤ y ∧ y ≤ m ∧ ¬ Cut w q y m ∧ IsDepth w p x y ∧
      (∀ p' ∈ ps, p' < p) ∧ Nested w gap p x ps

variable {gap p q m : ℕ} {ps : List ℕ}

/-- The last interval may be forgotten by a level above its depth. -/
theorem Nested.pop (h : Nested w gap q m (p :: ps)) (hq : q < p) : Nested w gap q m ps := by
  obtain ⟨x, y, hgap, hym, hcut, hdepth, -, hps⟩ := h
  cases ps with
  | nil => trivial
  | cons p' ps =>
    obtain ⟨x', y', hgap', hyx, hcut', hdepth', hlt, hps'⟩ := hps
    refine ⟨x', y', hgap', by omega, fun hc => ?_, hdepth', hlt, hps'⟩
    rcases hc.split x with hc | hc
    · exact hcut' (hc.mono hq.le)
    · rcases hc.split y with hc | hc
      · exact hdepth.least q hq hc
      · exact hcut hc

/-- The depth of an interval that follows is not the last one's. -/
theorem Nested.ne {z : ℕ} (h : Nested w gap q m (p :: ps)) (hq : IsDepth w q m z) (hz : z < w) :
    p ≠ q := by
  rintro rfl
  obtain ⟨x, y, hgap, hym, hcut, hdepth, -, -⟩ := h
  obtain ⟨k, rfl⟩ := Nat.exists_eq_succ_of_ne_zero (hq.pos hz).ne'
  have hbetween := Cut.between hdepth.cut (hdepth.least k k.lt_succ_self) hq.cut
    (hq.least k k.lt_succ_self) hym
  rcases hbetween.split y with hc | hc
  · exact hdepth.least k k.lt_succ_self hc
  · rcases hc.split m with hc | hc
    · exact hcut hc.succ
    · exact hq.least k k.lt_succ_self hc

/-- An interval at least as deep as the last one goes on top. -/
theorem Nested.push {z : ℕ} (h : Nested w gap p m ps) (hp : IsDepth w p m z) (hz : z < w)
    (hgap : m + gap ≤ z) (hle : ∀ p' ∈ ps.head?, p' ≤ p) (q : ℕ) : Nested w gap q z (p :: ps) := by
  refine ⟨m, z, hgap, Nat.le_refl z, not_cut_self, hp, ?_, h⟩
  cases ps with
  | nil => simp
  | cons p' ps =>
    have hlt : p' < p := by
      have := hle p' rfl
      have := h.ne hp hz
      omega
    obtain ⟨x, y, -, -, -, -, hps, -⟩ := h
    intro p'' hp''
    rcases List.mem_cons.mp hp'' with rfl | hp''
    · exact hlt
    · exact (hps p'' hp'').trans hlt

theorem Nested.pairwise (h : Nested w gap q m ps) : ps.Pairwise (fun p p' => p' < p) := by
  induction ps generalizing q m with
  | nil => exact List.Pairwise.nil
  | cons p ps ih =>
    obtain ⟨x, y, -, -, -, -, hlt, hps⟩ := h
    exact List.Pairwise.cons hlt (ih hps)

/-- A stack of depths is no longer than its first depth. -/
theorem Nested.length_le (h : Nested w gap q m (p :: ps)) (hm : m < w) : ps.length + 1 ≤ p := by
  induction ps generalizing q m p with
  | nil =>
    obtain ⟨x, y, -, hym, -, hdepth, -, -⟩ := h
    exact hdepth.pos (by omega)
  | cons p' ps ih =>
    obtain ⟨x, y, hgap, hym, -, -, hlt, hps⟩ := h
    have := ih hps (by omega)
    have := hlt p' (by simp)
    rw [List.length_cons]
    omega

theorem Nested.length_le_of_wide (h : Nested w gap q m ps) (hm : m < w) (hk : w ≤ 2 ^ k * gap) :
    ps.length ≤ k := by
  cases ps with
  | nil => exact Nat.zero_le k
  | cons p ps =>
    have hlen := h.length_le hm
    obtain ⟨x, y, hgap, -, -, hdepth, -, -⟩ := h
    exact hlen.trans (hdepth.le_clog hgap (by omega) hk)

end WeavePy.Halving
