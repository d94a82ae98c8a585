import Mathlib.Algebra.Ring.Periodic
import Mathlib.Data.Fintype.Pigeonhole
import Mathlib.Tactic.Linarith
import Mathlib.Tactic.Ring

/-!
Linear probing without tombstones, on a circular table of `n` slots unrolled to a periodic map
on `ℤ`: a probe run is then an ordinary interval, and wrap-around is periodicity.
-/

namespace WeavePy.Lib.LinearProbing

variable {α τ : Type*} {n : ℕ} {home : α → ℤ} {tag : α → τ} {S : ℤ → Option α} {C : α → Prop}

/-- Every slot of `[a, b)` is occupied. -/
def Run (S : ℤ → Option α) (a b : ℤ) : Prop := ∀ q, a ≤ q → q < b → S q ≠ none

/-- A walk from the home of `a` reaches slot `q` over occupied slots, in less than one turn. -/
def Reaches (n : ℕ) (home : α → ℤ) (S : ℤ → Option α) (a : α) (q : ℤ) : Prop :=
  ∃ h, h ≤ q ∧ q < h + n ∧ (n : ℤ) ∣ h - home a ∧ Run S h q

/-- Writing `v` in the slot of residue `p`. -/
def put (n : ℕ) (S : ℤ → Option α) (p : ℤ) (v : Option α) (q : ℤ) : Option α :=
  if (n : ℤ) ∣ q - p then v else S q

/-- The table `S` stores exactly the items of `C`, no tag twice, each reachable from its home. -/
structure Stores (n : ℕ) (home : α → ℤ) (tag : α → τ) (S : ℤ → Option α) (C : α → Prop) :
    Prop where
  periodic : Function.Periodic S n
  reaches : ∀ q a, S q = some a → Reaches n home S a q
  unique : ∀ p q a b, S p = some a → S q = some b → tag a = tag b → (n : ℤ) ∣ p - q
  content : ∀ a, C a ↔ ∃ q, S q = some a

@[simp] theorem put_same (p : ℤ) (v : Option α) : put n S p v p = v := by simp [put]

theorem put_dvd {p q : ℤ} (v : Option α) (h : (n : ℤ) ∣ q - p) : put n S p v q = v := by
  simp [put, h]

theorem put_not_dvd {p q : ℤ} (v : Option α) (h : ¬ (n : ℤ) ∣ q - p) : put n S p v q = S q := by
  simp [put, h]

theorem not_dvd_of_window {p q : ℤ} (h₁ : p < q) (h₂ : q < p + n) : ¬ (n : ℤ) ∣ q - p := by
  rintro ⟨c, hc⟩
  rcases lt_trichotomy c 0 with h | h | h
  · nlinarith
  · subst h; omega
  · nlinarith

theorem put_window {p q : ℤ} (v : Option α) (h₁ : p < q) (h₂ : q < p + n) :
    put n S p v q = S q := put_not_dvd v (not_dvd_of_window h₁ h₂)

theorem periodic_of_dvd (hS : Function.Periodic S n) {p q : ℤ} (h : (n : ℤ) ∣ q - p) :
    S q = S p := by
  obtain ⟨c, hc⟩ := h
  have hq : q = p + c * n := by linarith
  rw [hq]
  exact hS.int_mul c p

theorem put_periodic (hS : Function.Periodic S n) (p : ℤ) (v : Option α) :
    Function.Periodic (put n S p v) n := by
  intro q
  have hd : (n : ℤ) ∣ q + n - p ↔ (n : ℤ) ∣ q - p := by
    rw [show q + n - p = q - p + n by ring]
    exact dvd_add_self_right
  simp only [put, hd, hS q]

theorem Run.put {a b : ℤ} (h : Run S a b) (p : ℤ) (x : α) : Run (put n S p (some x)) a b := by
  intro q hq hq'
  unfold LinearProbing.put
  split_ifs
  · exact Option.some_ne_none x
  · exact h q hq hq'

theorem Reaches.put {a : α} {q : ℤ} (h : Reaches n home S a q) (p : ℤ) (x : α) :
    Reaches n home (put n S p (some x)) a q := by
  obtain ⟨k, h₁, h₂, h₃, h₄⟩ := h
  exact ⟨k, h₁, h₂, h₃, h₄.put p x⟩

theorem Reaches.shift (hS : Function.Periodic S n) {a : α} {p q : ℤ} (h : Reaches n home S a p)
    (hd : (n : ℤ) ∣ q - p) : Reaches n home S a q := by
  obtain ⟨k, h₁, h₂, h₃, h₄⟩ := h
  refine ⟨k + (q - p), by omega, by omega, ?_, ?_⟩
  · have : k + (q - p) - home a = (k - home a) + (q - p) := by ring
    rw [this]
    exact dvd_add h₃ hd
  · intro x hx hx'
    have he : S x = S (x - (q - p)) := periodic_of_dvd hS (by simpa using hd)
    rw [he]
    exact h₄ _ (by omega) (by omega)

namespace Stores

theorem congr_content {C' : α → Prop} (h : Stores n home tag S C) (hC : ∀ a, C a ↔ C' a) :
    Stores n home tag S C' :=
  ⟨h.periodic, h.reaches, h.unique, fun a => (hC a).symm.trans (h.content a)⟩

theorem mem {q : ℤ} {a : α} (h : Stores n home tag S C) (hq : S q = some a) : C a :=
  (h.content a).mpr ⟨q, hq⟩

theorem eq_of_tag {a b : α} (h : Stores n home tag S C) (ha : C a) (hb : C b)
    (ht : tag a = tag b) : a = b := by
  obtain ⟨p, hp⟩ := (h.content a).mp ha
  obtain ⟨q, hq⟩ := (h.content b).mp hb
  have he := periodic_of_dvd h.periodic (h.unique p q a b hp hq ht)
  rw [hp, hq] at he
  exact Option.some.inj he

/-- Storing a new item in the empty slot its probe ends at. -/
theorem insert {p : ℤ} {x : α} (h : Stores n home tag S C) (hp : S p = none)
    (hr : Reaches n home S x p) (ht : ∀ a, C a → tag a ≠ tag x) :
    Stores n home tag (put n S p (some x)) (fun a => C a ∨ a = x) where
  periodic := put_periodic h.periodic p _
  reaches := by
    intro q a hq
    by_cases hd : (n : ℤ) ∣ q - p
    · rw [put_dvd _ hd] at hq
      obtain rfl := Option.some.inj hq
      exact (hr.put p x).shift (put_periodic h.periodic p _) hd
    · rw [put_not_dvd _ hd] at hq
      exact (h.reaches q a hq).put p x
  unique := by
    intro q r a b hq hr' htag
    by_cases hqd : (n : ℤ) ∣ q - p <;> by_cases hrd : (n : ℤ) ∣ r - p
    · simpa using dvd_sub hqd hrd
    · rw [put_dvd _ hqd] at hq
      rw [put_not_dvd _ hrd] at hr'
      obtain rfl := Option.some.inj hq
      exact absurd htag.symm (ht b (h.mem hr'))
    · rw [put_not_dvd _ hqd] at hq
      rw [put_dvd _ hrd] at hr'
      obtain rfl := Option.some.inj hr'
      exact absurd htag (ht a (h.mem hq))
    · rw [put_not_dvd _ hqd] at hq
      rw [put_not_dvd _ hrd] at hr'
      exact h.unique q r a b hq hr' htag
  content := by
    intro a
    constructor
    · rintro (ha | rfl)
      · obtain ⟨q, hq⟩ := (h.content a).mp ha
        refine ⟨q, ?_⟩
        rw [put_not_dvd _ fun hd => ?_, hq]
        rw [periodic_of_dvd h.periodic hd, hp] at hq
        cases hq
      · exact ⟨p, put_same p _⟩
    · rintro ⟨q, hq⟩
      by_cases hd : (n : ℤ) ∣ q - p
      · rw [put_dvd _ hd] at hq
        exact Or.inr (Option.some.inj hq).symm
      · rw [put_not_dvd _ hd] at hq
        exact Or.inl (h.mem hq)

/-- Rewriting every item by a map that keeps homes and separates tags. -/
theorem relabel (h : Stores n home tag S C) (f : α → α)
    (hhome : ∀ a, C a → home (f a) = home a)
    (htag : ∀ a b, C a → C b → tag (f a) = tag (f b) → tag a = tag b) :
    Stores n home tag (fun q => (S q).map f) (fun b => ∃ a, C a ∧ f a = b) where
  periodic := fun q => by simp only [h.periodic q]
  reaches := by
    intro q b hq
    obtain ⟨a, ha, rfl⟩ := Option.map_eq_some_iff.mp hq
    obtain ⟨k, h₁, h₂, h₃, h₄⟩ := h.reaches q a ha
    refine ⟨k, h₁, h₂, by rwa [hhome a (h.mem ha)], ?_⟩
    intro x hx hx'
    simpa using h₄ x hx hx'
  unique := by
    intro p q a b hp hq ht
    obtain ⟨x, hx, rfl⟩ := Option.map_eq_some_iff.mp hp
    obtain ⟨y, hy, rfl⟩ := Option.map_eq_some_iff.mp hq
    exact h.unique p q x y hx hy (htag x y (h.mem hx) (h.mem hy) ht)
  content := by
    intro b
    constructor
    · rintro ⟨a, ha, rfl⟩
      obtain ⟨q, hq⟩ := (h.content a).mp ha
      exact ⟨q, by simp [hq]⟩
    · rintro ⟨q, hq⟩
      obtain ⟨a, ha, rfl⟩ := Option.map_eq_some_iff.mp hq
      exact ⟨a, h.mem ha, rfl⟩

/-- Fewer tags than slots leave a slot empty. -/
theorem exists_empty [DecidableEq τ] (h : Stores n home tag S C) (T : Finset τ)
    (hT : ∀ a, C a → tag a ∈ T) (hcard : T.card < n) : ∃ q : ℕ, q < n ∧ S q = none := by
  by_contra hfull
  push Not at hfull
  have hsome : ∀ q : Fin n, ∃ a, S (q : ℕ) = some a := fun q =>
    Option.ne_none_iff_exists'.mp (hfull q q.isLt)
  choose item hitem using hsome
  obtain ⟨p, q, hne, he⟩ := Fintype.exists_ne_map_eq_of_card_lt
    (fun q : Fin n => (⟨tag (item q), hT _ (h.mem (hitem q))⟩ : T)) (by simpa using hcard)
  have hd := h.unique _ _ _ _ (hitem p) (hitem q) (congrArg Subtype.val he)
  rcases lt_trichotomy p q with hlt | heq | hgt
  · exact not_dvd_of_window (n := n) (p := (p : ℕ)) (q := (q : ℕ)) (by simpa using hlt)
      (by omega) (by simpa using dvd_neg.mpr hd)
  · exact hne heq
  · exact not_dvd_of_window (n := n) (p := (q : ℕ)) (q := (p : ℕ)) (by simpa using hgt)
      (by omega) hd

/-- An empty table stores nothing. -/
theorem empty : Stores n home tag (fun _ => none) (fun _ => False) where
  periodic := fun _ => rfl
  reaches := by simp
  unique := by simp
  content := by simp

end Stores

/-- Backward-shift deletion, part way: the item of slot `p` is out (a stale copy of some item
marks the slot as occupied), and the scan stands at `q`. The items between the two stay where
they are, because their homes lie after the hole. -/
structure Shifting (n : ℕ) (home : α → ℤ) (tag : α → τ) (S : ℤ → Option α) (C : α → Prop)
    (p q : ℤ) : Prop where
  periodic : Function.Periodic S n
  order : p < q
  window : q < p + n
  stale : S p ≠ none
  reaches : ∀ r a, ¬ (n : ℤ) ∣ r - p → S r = some a → Reaches n home S a r
  unique : ∀ r s a b, ¬ (n : ℤ) ∣ r - p → ¬ (n : ℤ) ∣ s - p → S r = some a → S s = some b →
    tag a = tag b → (n : ℤ) ∣ r - s
  content : ∀ a, C a ↔ ∃ r, ¬ (n : ℤ) ∣ r - p ∧ S r = some a
  passed : ∀ r, p < r → r < q → ∃ a h, S r = some a ∧ p < h ∧ h ≤ r ∧ (n : ℤ) ∣ h - home a

namespace Shifting

variable {p q : ℤ}

theorem start (h : Stores n home tag S C) {x : α} (hp : S p = some x) (hn : 1 < n) :
    Shifting n home tag S (fun a => C a ∧ tag a ≠ tag x) p (p + 1) where
  periodic := h.periodic
  order := by omega
  window := by omega
  stale := by simp [hp]
  reaches := fun r a _ hr => h.reaches r a hr
  unique := fun r s a b _ _ hr hs => h.unique r s a b hr hs
  content := by
    intro a
    constructor
    · rintro ⟨ha, ht⟩
      obtain ⟨r, hr⟩ := (h.content a).mp ha
      refine ⟨r, fun hd => ht ?_, hr⟩
      rw [periodic_of_dvd h.periodic hd, hp] at hr
      rw [Option.some.inj hr]
    · rintro ⟨r, hd, hr⟩
      exact ⟨h.mem hr, fun ht => hd (h.unique r p a x hr hp ht)⟩
  passed := fun r h₁ h₂ => by omega

theorem skip (h : Shifting n home tag S C p q) {a : α} {k : ℤ} (hq : S q = some a)
    (hk : p < k) (hkq : k ≤ q) (hd : (n : ℤ) ∣ k - home a) (hw : q + 1 < p + n) :
    Shifting n home tag S C p (q + 1) :=
  { h with
    order := by have := h.order; omega
    window := hw
    passed := by
      intro r hr hr'
      rcases (show r < q ∨ r = q by omega) with hlt | rfl
      · exact h.passed r hr hlt
      · exact ⟨a, k, hq, hk, hkq, hd⟩ }

theorem move (h : Shifting n home tag S C p q) {a : α} {k : ℤ} (hq : S q = some a)
    (hk : k ≤ p) (hkq : q < k + n) (hd : (n : ℤ) ∣ k - home a) :
    Shifting n home tag (put n S p (some a)) C q (q + 1) := by
  have hqp := not_dvd_of_window h.order h.window
  have hperiodic := put_periodic h.periodic p (some a)
  have hrun : Run S k q := by
    obtain ⟨k', h₁, h₂, h₃, h₄⟩ := h.reaches q a hqp hq
    have he : k' = k := by
      have hdvd : (n : ℤ) ∣ k' - k := by simpa using dvd_sub h₃ hd
      have horder := h.order
      rcases lt_trichotomy k' k with hlt | heq | hgt
      · exact absurd (by simpa using (dvd_neg.mpr hdvd)) (not_dvd_of_window hlt (by omega))
      · exact heq
      · exact absurd hdvd (not_dvd_of_window hgt (by omega))
    exact he ▸ h₄
  refine ⟨hperiodic, by omega, by have := h.window; have := h.order; omega, ?_, ?_, ?_, ?_, ?_⟩
  · rw [put_window _ h.order h.window, hq]
    exact Option.some_ne_none a
  · intro r b hr hb
    by_cases hrp : (n : ℤ) ∣ r - p
    · rw [put_dvd _ hrp] at hb
      obtain rfl := Option.some.inj hb
      have hat : Reaches n home (put n S p (some a)) a p :=
        ⟨k, hk, by have := h.order; omega, hd, fun x hx hx' => by
          exact (Run.put hrun p a) x hx (by have := h.order; omega)⟩
      exact hat.shift hperiodic hrp
    · rw [put_not_dvd _ hrp] at hb
      exact (h.reaches r b hrp hb).put p a
  · intro r s b c hr hs hb hc ht
    by_cases hrp : (n : ℤ) ∣ r - p <;> by_cases hsp : (n : ℤ) ∣ s - p
    · simpa using dvd_sub hrp hsp
    · rw [put_dvd _ hrp] at hb
      rw [put_not_dvd _ hsp] at hc
      obtain rfl := Option.some.inj hb
      exact absurd (h.unique s q c a hsp hqp hc hq ht.symm) hs
    · rw [put_not_dvd _ hrp] at hb
      rw [put_dvd _ hsp] at hc
      obtain rfl := Option.some.inj hc
      exact absurd (h.unique r q b a hrp hqp hb hq ht) hr
    · rw [put_not_dvd _ hrp] at hb
      rw [put_not_dvd _ hsp] at hc
      exact h.unique r s b c hrp hsp hb hc ht
  · intro b
    rw [h.content b]
    constructor
    · rintro ⟨r, hrp, hr⟩
      by_cases hrq : (n : ℤ) ∣ r - q
      · rw [periodic_of_dvd h.periodic hrq, hq] at hr
        obtain rfl := Option.some.inj hr
        exact ⟨p, fun hpq => hqp (by simpa using dvd_neg.mpr hpq), put_same p _⟩
      · exact ⟨r, hrq, by rw [put_not_dvd _ hrp, hr]⟩
    · rintro ⟨r, hrq, hr⟩
      by_cases hrp : (n : ℤ) ∣ r - p
      · rw [put_dvd _ hrp] at hr
        exact ⟨q, hqp, by rw [hq, hr]⟩
      · exact ⟨r, hrp, by rwa [put_not_dvd _ hrp] at hr⟩
  · intro r hr hr'
    omega

/-- The scan meets an empty slot: clearing the hole leaves every item reachable. -/
theorem finish (h : Shifting n home tag S C p q) (hq : S q = none) :
    Stores n home tag (put n S p none) C := by
  have key : ∀ r b, put n S p none r = some b → ¬ (n : ℤ) ∣ r - p ∧ S r = some b := by
    intro r b hr
    by_cases hrp : (n : ℤ) ∣ r - p
    · rw [put_dvd _ hrp] at hr
      cases hr
    · exact ⟨hrp, by rwa [put_not_dvd _ hrp] at hr⟩
  refine ⟨put_periodic h.periodic p _, ?_, ?_, ?_⟩
  · intro r b hr
    obtain ⟨hrp, hb⟩ := key r b hr
    obtain ⟨k, h₁, h₂, h₃, h₄⟩ := h.reaches r b hrp hb
    refine ⟨k, h₁, h₂, h₃, fun x hx hx' => ?_⟩
    rw [put_not_dvd _ ?_]
    · exact h₄ x hx hx'
    -- A run through the hole would lead to an item between the hole and the empty slot.
    intro hxp
    have hr' : S (r + (p - x)) = some b := by
      rw [← hb]
      exact periodic_of_dvd h.periodic (by simpa using dvd_neg.mpr hxp)
    have hqr : ¬ q < r + (p - x) := by
      intro hlt
      have he : S (q - (p - x)) = S q :=
        periodic_of_dvd h.periodic (by
          rw [show q - (p - x) - q = x - p by ring]
          exact hxp)
      exact h₄ (q - (p - x)) (by have := h.order; omega) (by omega) (he.trans hq)
    have hne : r + (p - x) ≠ q := by
      intro he
      rw [he, hq] at hr'
      cases hr'
    obtain ⟨b', k', hb', hk', hkr, hkd⟩ := h.passed (r + (p - x)) (by omega) (by omega)
    rw [hr'] at hb'
    obtain rfl := Option.some.inj hb'
    refine not_dvd_of_window (n := n) (p := k + (p - x)) (q := k') (by omega) (by omega) ?_
    have he : k' - (k + (p - x)) = (k' - home b) - (k - home b) + (x - p) := by ring
    rw [he]
    exact dvd_add (dvd_sub hkd h₃) hxp
  · intro r s a b hr hs
    obtain ⟨hrp, ha⟩ := key r a hr
    obtain ⟨hsp, hb⟩ := key s b hs
    exact h.unique r s a b hrp hsp ha hb
  · intro a
    rw [h.content a]
    constructor
    · rintro ⟨r, hrp, hr⟩
      exact ⟨r, by rw [put_not_dvd _ hrp, hr]⟩
    · rintro ⟨r, hr⟩
      exact ⟨r, key r a hr⟩

end Shifting

end WeavePy.Lib.LinearProbing
