import Mathlib.Data.List.Basic
import Mathlib.Data.List.Pairwise
import Mathlib.Order.RelIso.Set
import Mathlib.Tactic.Common

/-!
Stable rearrangements of a list under a strict weak order: what moving a block past another keeps,
and that a stable ascending rearrangement is unique.
-/

namespace WeavePy

variable {T : Type} {r : T → T → Prop}

structure StrictWeak (r : T → T → Prop) : Prop where
  asymm : ∀ {a b : T}, r a b → ¬ r b a
  split : ∀ {a c : T} (b : T), r a c → r a b ∨ r b c

namespace StrictWeak

theorem irrefl (h : StrictWeak r) (a : T) : ¬ r a a := fun ha => h.asymm ha ha

theorem lt_of_lt_of_le (h : StrictWeak r) {a b c : T} (hab : r a b) (hbc : ¬ r c b) : r a c := by
  rcases h.split c hab with hac | hcb
  · exact hac
  · exact absurd hcb hbc

theorem lt_of_le_of_lt (h : StrictWeak r) {a b c : T} (hab : ¬ r b a) (hbc : r b c) : r a c := by
  rcases h.split a hbc with hba | hac
  · exact absurd hba hab
  · exact hac

theorem le_trans (h : StrictWeak r) {a b c : T} (hab : ¬ r b a) (hbc : ¬ r c b) : ¬ r c a := by
  intro hca
  rcases h.split b hca with hcb | hba
  · exact hbc hcb
  · exact hab hba

theorem empty : StrictWeak (fun _ _ : T => False) := ⟨by simp, by simp⟩

/-- An order on the members of a list, with all other elements put above them. -/
theorem extend (v : List T) (h : IsStrictWeakOrder {a // a ∈ v} (Subrel r (· ∈ v))) :
    StrictWeak (fun a b => a ∈ v ∧ (b ∈ v → r a b)) where
  asymm := by
    rintro a b ⟨ha, hab⟩ ⟨hb, hba⟩
    exact h.irrefl ⟨a, ha⟩ (h.trans ⟨a, ha⟩ ⟨b, hb⟩ ⟨a, ha⟩ (hab hb) (hba ha))
  split := by
    rintro a c b ⟨ha, hac⟩
    by_cases hb : b ∈ v
    · by_cases hab : r a b
      · exact .inl ⟨ha, fun _ => hab⟩
      · refine .inr ⟨hb, fun hc => ?_⟩
        by_contra hbc
        by_cases hba : r b a
        · exact hbc (h.trans ⟨b, hb⟩ ⟨a, ha⟩ ⟨c, hc⟩ hba (hac hc))
        · by_cases hcb : r c b
          · exact hab (h.trans ⟨a, ha⟩ ⟨c, hc⟩ ⟨b, hb⟩ (hac hc) hcb)
          · exact (h.incomp_trans ⟨a, ha⟩ ⟨b, hb⟩ ⟨c, hc⟩ ⟨hab, hba⟩ ⟨hbc, hcb⟩).1 (hac hc)
    · exact .inl ⟨ha, fun hb' => absurd hb' hb⟩

end StrictWeak

def Ascending (r : T → T → Prop) (l : List T) : Prop := l.Pairwise fun a b => ¬ r b a

/-- The elements that `r` does not tell from `a`, in their order. -/
noncomputable def peers (r : T → T → Prop) (a : T) (l : List T) : List T :=
  letI := Classical.decPred fun b => ¬ r a b ∧ ¬ r b a
  l.filter fun b => ¬ r a b ∧ ¬ r b a

/-- `w` is `v` in ascending order, with elements that `r` does not tell apart left in place. -/
structure StableSort (r : T → T → Prop) (v w : List T) : Prop where
  perm : w.Perm v
  ascending : Ascending r w
  stable : ∀ a ∈ v, peers r a w = peers r a v

theorem mem_peers {a b : T} {l : List T} : b ∈ peers r a l ↔ b ∈ l ∧ ¬ r a b ∧ ¬ r b a := by
  simp [peers]

theorem peers_append (a : T) (l m : List T) : peers r a (l ++ m) = peers r a l ++ peers r a m := by
  simp [peers]

theorem peers_cons_of_peer {a b : T} (l : List T) (h : ¬ r a b ∧ ¬ r b a) :
    peers r a (b :: l) = b :: peers r a l := by
  simp [peers, h]

theorem peers_cons_of_not_peer {a b : T} (l : List T) (h : ¬ (¬ r a b ∧ ¬ r b a)) :
    peers r a (b :: l) = peers r a l := by
  unfold peers
  rw [List.filter_cons_of_neg]
  simpa using h

theorem peers_eq_nil {a : T} {l : List T} : peers r a l = [] ↔ ∀ b ∈ l, ¬ r a b → r b a := by
  simp [peers]

theorem peers_congr {r' : T → T → Prop} {a : T} {l : List T}
    (h : ∀ b ∈ l, (r a b ↔ r' a b) ∧ (r b a ↔ r' b a)) : peers r a l = peers r' a l := by
  unfold peers
  apply List.filter_congr
  intro b hb
  simp [h b hb]

theorem stableSort_unique (hirr : ∀ a, ¬ r a a) {w w' : List T} (hperm : w.Perm w')
    (hw : Ascending r w) (hw' : Ascending r w') (hpeers : ∀ a ∈ w, peers r a w = peers r a w') :
    w = w' := by
  induction w generalizing w' with
  | nil => exact hperm.nil_eq
  | cons x t ih =>
    cases w' with
    | nil => exact hperm.eq_nil
    | cons y t' =>
      have hxy : ¬ r x y ∧ ¬ r y x := by
        have hx : x ∈ y :: t' := hperm.mem_iff.mp List.mem_cons_self
        have hy : y ∈ x :: t := hperm.mem_iff.mpr List.mem_cons_self
        constructor
        · rcases List.mem_cons.mp hx with rfl | hx
          · exact hirr x
          · exact (List.pairwise_cons.mp hw').1 x hx
        · rcases List.mem_cons.mp hy with rfl | hy
          · exact hirr y
          · exact (List.pairwise_cons.mp hw).1 y hy
      have heads := hpeers x List.mem_cons_self
      rw [peers_cons_of_peer t ⟨hirr x, hirr x⟩, peers_cons_of_peer t' hxy] at heads
      obtain rfl : x = y := (List.cons.inj heads).1
      congr 1
      apply ih hperm.cons_inv hw.of_cons hw'.of_cons
      intro a ha
      have htail := hpeers a (List.mem_cons_of_mem x ha)
      by_cases hax : ¬ r a x ∧ ¬ r x a
      · rw [peers_cons_of_peer t hax, peers_cons_of_peer t' hax] at htail
        exact (List.cons.inj htail).2
      · rw [peers_cons_of_not_peer t hax, peers_cons_of_not_peer t' hax] at htail
        exact htail

theorem StableSort.unique (hirr : ∀ a, ¬ r a a) {v w w' : List T} (h : StableSort r v w)
    (h' : StableSort r v w') : w = w' := by
  apply stableSort_unique hirr (h.perm.trans h'.perm.symm) h.ascending h'.ascending
  intro a ha
  have hav : a ∈ v := h.perm.mem_iff.mp ha
  rw [h.stable a hav, h'.stable a hav]

theorem StableSort.congr {r' : T → T → Prop} {v w : List T} (h : StableSort r v w)
    (hr : ∀ a ∈ v, ∀ b ∈ v, (r a b ↔ r' a b)) : StableSort r' v w where
  perm := h.perm
  ascending := by
    apply h.ascending.imp_of_mem
    intro a b ha hb hab hba
    exact hab ((hr b (h.perm.mem_iff.mp hb) a (h.perm.mem_iff.mp ha)).mpr hba)
  stable a ha := by
    rw [← peers_congr fun b hb => ⟨hr a ha b hb, hr b hb a ha⟩, ← h.stable a ha]
    apply Eq.symm
    apply peers_congr
    intro b hb
    have hbv := h.perm.mem_iff.mp hb
    exact ⟨hr a ha b hbv, hr b hbv a ha⟩

/-- `m` has the elements of `l`; and if the comparisons are to be trusted, peers kept their order. -/
structure Rearranged (good : Prop) (r : T → T → Prop) (l m : List T) : Prop where
  perm : l.Perm m
  stable : good → ∀ a, peers r a l = peers r a m

namespace Rearranged

variable {good : Prop} {l m n p q : List T}

theorem refl (l : List T) : Rearranged good r l l := ⟨.rfl, fun _ _ => rfl⟩

theorem trans (h : Rearranged good r l m) (h' : Rearranged good r m n) :
    Rearranged good r l n :=
  ⟨h.perm.trans h'.perm, fun g a => (h.stable g a).trans (h'.stable g a)⟩

theorem append (h : Rearranged good r l m) (h' : Rearranged good r p q) :
    Rearranged good r (l ++ p) (m ++ q) :=
  ⟨h.perm.append h'.perm, fun g a => by
    rw [peers_append, peers_append, h.stable g, h'.stable g]⟩

theorem inside (h : Rearranged good r l m) (p q : List T) :
    Rearranged good r (p ++ l ++ q) (p ++ m ++ q) := ((refl p).append h).append (refl q)

/-- A block may move before another one whose elements are all greater. -/
theorem swap (hr : StrictWeak r) (h : good → ∀ x ∈ l, ∀ y ∈ m, r y x) :
    Rearranged good r (l ++ m) (m ++ l) := by
  refine ⟨List.perm_append_comm, fun g a => ?_⟩
  rw [peers_append, peers_append]
  by_cases hl : peers r a l = []
  · simp [hl]
  · obtain ⟨x, hx⟩ := List.exists_mem_of_ne_nil _ hl
    rw [mem_peers] at hx
    have hm : peers r a m = [] := by
      rw [peers_eq_nil]
      intro y hy hay
      rcases hr.split a (h g x hx.1 y hy) with hya | hax
      · exact hya
      · exact absurd hax hx.2.1
    simp [hm]

end Rearranged

theorem ascending_append {l m : List T} :
    Ascending r (l ++ m) ↔ Ascending r l ∧ Ascending r m ∧ ∀ a ∈ l, ∀ b ∈ m, ¬ r b a :=
  List.pairwise_append

theorem Ascending.head_le (hr : StrictWeak r) {a b : T} {l : List T} (h : Ascending r (a :: l))
    (hb : b ∈ a :: l) : ¬ r b a := by
  rcases List.mem_cons.mp hb with rfl | hb
  · exact hr.irrefl b
  · exact (List.pairwise_cons.mp h).1 b hb

theorem Ascending.le_last (hr : StrictWeak r) {a b : T} {l : List T} (h : Ascending r (l ++ [a]))
    (hb : b ∈ l ++ [a]) : ¬ r a b := by
  rcases List.mem_append.mp hb with hb | hb
  · exact (ascending_append.mp h).2.2 b hb a (List.mem_singleton_self a)
  · obtain rfl := List.mem_singleton.mp hb
    exact hr.irrefl b

theorem Ascending.concat (hr : StrictWeak r) {l : List T} {x y : T} (h : Ascending r (l ++ [x]))
    (hyx : ¬ r y x) : Ascending r (l ++ [x] ++ [y]) := by
  refine ascending_append.mpr ⟨h, List.pairwise_singleton _ _, ?_⟩
  intro a ha b hb
  obtain rfl := List.mem_singleton.mp hb
  exact hr.le_trans (h.le_last hr ha) hyx

/-- The output of a merge so far, below both of the runs that are left. -/
structure MergingUp (r : T → T → Prop) (out a b : List T) : Prop where
  first : Ascending r (out ++ a)
  second : Ascending r (out ++ b)

/-- The output of a merge from the top so far, above both of the runs that are left. -/
structure MergingDown (r : T → T → Prop) (a b out : List T) : Prop where
  first : Ascending r (a ++ out)
  second : Ascending r (b ++ out)

section Merging

variable {out a a₁ a₂ b b₁ b₂ : List T}

theorem MergingUp.ascending_first (h : MergingUp r out a b) : Ascending r a :=
  (ascending_append.mp h.first).2.1

theorem MergingUp.ascending_second (h : MergingUp r out a b) : Ascending r b :=
  (ascending_append.mp h.second).2.1

theorem MergingDown.ascending_first (h : MergingDown r a b out) : Ascending r a :=
  (ascending_append.mp h.first).1

theorem MergingDown.ascending_second (h : MergingDown r a b out) : Ascending r b :=
  (ascending_append.mp h.second).1

theorem MergingUp.takeSecond (hr : StrictWeak r) (h : MergingUp r out a (b₁ ++ b₂))
    (hlt : ∀ x ∈ a, ∀ y ∈ b₁, r y x) : MergingUp r (out ++ b₁) a b₂ := by
  obtain ⟨hout, ha, hoa⟩ := ascending_append.mp h.first
  have hb : Ascending r (out ++ b₁ ++ b₂) := by
    rw [List.append_assoc]
    exact h.second
  refine ⟨?_, hb⟩
  rw [List.append_assoc, ascending_append, ascending_append]
  refine ⟨hout, ⟨(ascending_append.mp (ascending_append.mp hb).1).2.1, ha, ?_⟩, ?_⟩
  · intro y hy x hx
    exact hr.asymm (hlt x hx y hy)
  · intro z hz x hx
    rcases List.mem_append.mp hx with hx | hx
    · exact (ascending_append.mp (ascending_append.mp hb).1).2.2 z hz x hx
    · exact hoa z hz x hx

theorem MergingUp.takeFirst (h : MergingUp r out (a₁ ++ a₂) b)
    (hle : ∀ x ∈ a₁, ∀ y ∈ b, ¬ r y x) : MergingUp r (out ++ a₁) a₂ b := by
  obtain ⟨hout, hb, hob⟩ := ascending_append.mp h.second
  have ha : Ascending r (out ++ a₁ ++ a₂) := by
    rw [List.append_assoc]
    exact h.first
  refine ⟨ha, ?_⟩
  rw [List.append_assoc, ascending_append, ascending_append]
  refine ⟨hout, ⟨(ascending_append.mp (ascending_append.mp ha).1).2.1, hb, hle⟩, ?_⟩
  intro z hz x hx
  rcases List.mem_append.mp hx with hx | hx
  · exact (ascending_append.mp (ascending_append.mp ha).1).2.2 z hz x hx
  · exact hob z hz x hx

theorem MergingDown.takeFirst (hr : StrictWeak r) (h : MergingDown r (a₁ ++ a₂) b out)
    (hlt : ∀ x ∈ a₂, ∀ y ∈ b, r y x) : MergingDown r a₁ b (a₂ ++ out) := by
  obtain ⟨hb, hout, hbo⟩ := ascending_append.mp h.second
  have ha : Ascending r (a₁ ++ (a₂ ++ out)) := by
    rw [← List.append_assoc]
    exact h.first
  refine ⟨ha, ?_⟩
  rw [ascending_append]
  refine ⟨hb, (ascending_append.mp ha).2.1, ?_⟩
  intro y hy x hx
  rcases List.mem_append.mp hx with hx | hx
  · exact hr.asymm (hlt x hx y hy)
  · exact hbo y hy x hx

theorem MergingDown.takeSecond (h : MergingDown r a (b₁ ++ b₂) out)
    (hle : ∀ x ∈ a, ∀ y ∈ b₂, ¬ r y x) : MergingDown r a b₁ (b₂ ++ out) := by
  obtain ⟨ha, hout, hao⟩ := ascending_append.mp h.first
  have hb : Ascending r (b₁ ++ (b₂ ++ out)) := by
    rw [← List.append_assoc]
    exact h.second
  refine ⟨?_, hb⟩
  rw [ascending_append]
  refine ⟨ha, (ascending_append.mp hb).2.1, ?_⟩
  intro x hx y hy
  rcases List.mem_append.mp hy with hy | hy
  · exact hle x hx y hy
  · exact hao x hx y hy

end Merging

/-- The merge of the overlapping parts of two runs joins what lies below and above it. -/
theorem ascending_join {a₁ a₂ b₁ b₂ m : List T} (ha : Ascending r (a₁ ++ a₂))
    (hb : Ascending r (b₁ ++ b₂)) (hm : Ascending r m) (hperm : (a₂ ++ b₁).Perm m)
    (hlow : ∀ x ∈ a₁, ∀ y ∈ b₁ ++ b₂, ¬ r y x) (hhigh : ∀ x ∈ a₂, ∀ y ∈ b₂, ¬ r y x) :
    Ascending r (a₁ ++ (m ++ b₂)) := by
  obtain ⟨ha₁, -, ha⟩ := ascending_append.mp ha
  obtain ⟨-, hb₂, hb⟩ := ascending_append.mp hb
  refine ascending_append.mpr ⟨ha₁, ascending_append.mpr ⟨hm, hb₂, ?_⟩, ?_⟩
  · intro x hx y hy
    rcases List.mem_append.mp (hperm.mem_iff.mpr hx) with hx | hx
    · exact hhigh x hx y hy
    · exact hb x hx y hy
  · intro x hx y hy
    rcases List.mem_append.mp hy with hy | hy
    · rcases List.mem_append.mp (hperm.mem_iff.mpr hy) with hy | hy
      · exact ha x hx y hy
      · exact hlow x hx y (List.mem_append_left _ hy)
    · exact hlow x hx y (List.mem_append_right _ hy)

/-- A descending run `d ++ s` read off from `l`, its last stretch `s` of peers not yet reversed. -/
structure Descending (good : Prop) (r : T → T → Prop) (l d s : List T) : Prop where
  rearranged : Rearranged good r l (s ++ d.reverse)
  ascending : good → Ascending r d.reverse
  peers : good → ∀ a ∈ s, ∀ b ∈ s, ¬ r a b
  lt : good → ∀ a ∈ s, ∀ b ∈ d, r a b

section Descending

variable {good : Prop} {l d s : List T} {x y : T}

theorem Descending.start (h : good → ∀ a ∈ l, ∀ b ∈ l, ¬ r a b) : Descending good r l [] l where
  rearranged := by simpa using Rearranged.refl l
  ascending _ := List.Pairwise.nil
  peers := h
  lt := by simp

theorem Descending.perm (h : Descending good r l d s) : l.Perm (d ++ s) :=
  h.rearranged.perm.trans (List.perm_append_comm.trans ((List.reverse_perm d).append_right s))

theorem Descending.ascending_reverse (hr : StrictWeak r) (h : Descending good r l d s)
    (g : good) : Ascending r (s ++ d.reverse) := by
  refine ascending_append.mpr ⟨?_, h.ascending g, ?_⟩
  · apply List.pairwise_of_forall_mem_list
    intro a ha b hb
    exact h.peers g b hb a ha
  · intro a ha b hb
    exact hr.asymm (h.lt g a ha b (List.mem_reverse.mp hb))

theorem Descending.drops (hr : StrictWeak r) (h : Descending good r l d s) (hx : x ∈ s)
    (hyx : good → r y x) : Descending good r (l ++ [y]) (d ++ s.reverse) [y] := by
  have hlt : good → ∀ z ∈ s ++ d.reverse, r y z := by
    intro g z hz
    rcases List.mem_append.mp hz with hz | hz
    · exact hr.lt_of_lt_of_le (hyx g) (h.peers g z hz x hx)
    · exact hr.lt_of_lt_of_le (hyx g) (hr.asymm (h.lt g x hx z (List.mem_reverse.mp hz)))
  have hrev : (d ++ s.reverse).reverse = s ++ d.reverse := by simp
  constructor
  · rw [hrev]
    apply (h.rearranged.append (Rearranged.refl [y])).trans
    apply Rearranged.swap hr
    intro g z hz w hw
    obtain rfl := List.mem_singleton.mp hw
    exact hlt g z hz
  · rw [hrev]
    exact h.ascending_reverse hr
  · intro g a ha b hb
    obtain rfl := List.mem_singleton.mp ha
    obtain rfl := List.mem_singleton.mp hb
    exact hr.irrefl _
  · intro g a ha b hb
    obtain rfl := List.mem_singleton.mp ha
    apply hlt g
    rw [← hrev]
    exact List.mem_reverse.mpr hb

theorem Descending.stays (hr : StrictWeak r) (h : Descending good r l d s) (hx : x ∈ s)
    (hyx : good → ¬ r y x) (hxy : good → ¬ r x y) :
    Descending good r (l ++ [y]) d (s ++ [y]) := by
  have hlt : good → ∀ z ∈ d, r y z := fun g z hz => hr.lt_of_le_of_lt (hxy g) (h.lt g x hx z hz)
  constructor
  · apply (h.rearranged.append (Rearranged.refl [y])).trans
    rw [List.append_assoc, List.append_assoc]
    apply (Rearranged.refl s).append
    apply Rearranged.swap hr
    intro g z hz w hw
    obtain rfl := List.mem_singleton.mp hw
    exact hlt g z (List.mem_reverse.mp hz)
  · exact h.ascending
  · have hle : good → ∀ a ∈ s ++ [y], ¬ r a x ∧ ¬ r x a := by
      intro g a ha
      rcases List.mem_append.mp ha with ha | ha
      · exact ⟨h.peers g a ha x hx, h.peers g x hx a ha⟩
      · obtain rfl := List.mem_singleton.mp ha
        exact ⟨hyx g, hxy g⟩
    intro g a ha b hb
    exact hr.le_trans (hle g b hb).2 (hle g a ha).1
  · intro g a ha b hb
    rcases List.mem_append.mp ha with ha | ha
    · exact h.lt g a ha b hb
    · obtain rfl := List.mem_singleton.mp ha
      exact hlt g b hb

end Descending

end WeavePy
