import Mathlib.Data.List.Basic
import Mathlib.Data.List.TakeWhile
import Mathlib.Order.Monotone.Defs

/-!
Places painted by segments, and the runs of one colour that are read off them.
-/

namespace WeavePy.Segments

variable {κ : Type}

structure Segment (κ : Type) where
  start : ℕ
  len : ℕ
  key : κ
  deriving DecidableEq

/-- The places from `a` up to `b` in the colour `k`. -/
def paint (places : List (Option κ)) (a b : ℕ) (k : κ) : List (Option κ) :=
  places.mapIdx fun u o => if a ≤ u ∧ u < b then some k else o

section Runs

variable [DecidableEq κ]

/-- The maximal runs of one colour, the first place being `u`. -/
def runs : ℕ → List (Option κ) → List (Segment κ)
  | _, [] => []
  | u, none :: places => runs (u + 1) places
  | u, some k :: places =>
    ⟨u, (places.takeWhile (· = some k)).length + 1, k⟩ ::
      runs (u + ((places.takeWhile (· = some k)).length + 1)) (places.dropWhile (· = some k))
termination_by _ places => places.length
decreasing_by
  · exact Nat.lt_succ_self _
  · exact Nat.lt_succ_of_le (List.dropWhile_sublist _).length_le

/-- Segments that meet in one colour are one run. -/
def merged : List (Segment κ) → List (Segment κ)
  | [] => []
  | [s] => [s]
  | s :: s' :: segs =>
    if s.start + s.len = s'.start ∧ s.key = s'.key then merged (⟨s.start, s.len + s'.len, s.key⟩ :: segs)
    else s :: merged (s' :: segs)
termination_by segs => segs.length

end Runs

/-- The places up to `total` that the segments paint, from `u` on. -/
def layout (total : ℕ) : ℕ → List (Segment κ) → List (Option κ)
  | u, [] => List.replicate (total - u) none
  | u, s :: segs =>
    List.replicate (s.start - u) none ++ (List.replicate s.len (some s.key) ++ layout total (s.start + s.len) segs)

/-- Segments that are not empty, each at or after the end of the one before. -/
def Ordered (total : ℕ) : ℕ → List (Segment κ) → Prop
  | u, [] => u ≤ total
  | u, s :: segs => u ≤ s.start ∧ 0 < s.len ∧ Ordered total (s.start + s.len) segs

variable {total u a b c : ℕ} {k : κ} {s s' : Segment κ} {segs : List (Segment κ)} {places : List (Option κ)}

theorem Ordered.le_total (h : Ordered total u segs) : u ≤ total := by
  induction segs generalizing u with
  | nil => exact h
  | cons s segs ih =>
    have := ih h.2.2
    have := h.1
    omega

section Painting

theorem paint_append (l r : List (Option κ)) (a b : ℕ) (k : κ) :
    paint (l ++ r) a b k = paint l a b k ++ r.mapIdx fun u o => if a ≤ u + l.length ∧ u + l.length < b then some k else o :=
  List.mapIdx_append

theorem mapIdx_replicate (f : ℕ → Option κ → Option κ) (o : Option κ) (n : ℕ) (h : ∀ u < n, f u none = o) :
    (List.replicate n none).mapIdx f = List.replicate n o := by
  apply List.ext_getElem?
  intro u
  rw [List.getElem?_mapIdx, List.getElem?_replicate, List.getElem?_replicate]
  split_ifs with hu
  · exact congrArg some (h u hu)
  · rfl

theorem paint_low (h : places.length ≤ a) : paint places a b k = places := by
  apply List.ext_getElem?
  intro u
  unfold paint
  rw [List.getElem?_mapIdx]
  cases hu : places[u]? with
  | none => rfl
  | some o =>
    have := (List.getElem?_eq_some_iff.mp hu).1
    exact congrArg some (if_neg (by omega))

/-- Painting the first of the places that are free. -/
theorem paint_free (hab : a ≤ b) (hbc : b ≤ c) (ha : places.length = a) :
    paint (places ++ List.replicate (c - a) none) a b k =
      places ++ (List.replicate (b - a) (some k) ++ List.replicate (c - b) none) := by
  have hsplit : List.replicate (c - a) (none : Option κ) = List.replicate (b - a) none ++ List.replicate (c - b) none := by
    rw [List.replicate_append_replicate]
    congr 1
    omega
  rw [paint_append, paint_low ha.le, hsplit, List.mapIdx_append,
    mapIdx_replicate _ (some k) _ fun u hu => if_pos (by omega), mapIdx_replicate _ none _ fun u hu => ?_]
  rw [List.length_replicate]
  exact if_neg (by omega)

variable {S : ℕ → ℕ}

theorem foldl_paint (hmono : Monotone S) (n a : ℕ) (ha : places.length = S a) (htotal : S (a + n) ≤ total) :
    (List.range' a n).foldl (fun places i => paint places (S i) (S (i + 1)) k)
        (places ++ List.replicate (total - S a) none) =
      places ++ (List.replicate (S (a + n) - S a) (some k) ++ List.replicate (total - S (a + n)) none) := by
  induction n generalizing a places with
  | zero => rw [List.range'_zero, List.foldl_nil, Nat.add_zero, Nat.sub_self, List.replicate_zero, List.nil_append]
  | succ n ih =>
    have hstep : S a ≤ S (a + 1) := hmono (Nat.le_succ a)
    have hrest : S (a + 1) ≤ S (a + (n + 1)) := hmono (by omega)
    have hlen : (places ++ List.replicate (S (a + 1) - S a) (some k)).length = S (a + 1) := by
      rw [List.length_append, List.length_replicate, ha]
      exact Nat.add_sub_of_le hstep
    have hend : a + 1 + n = a + (n + 1) := by omega
    have hnext := ih (a + 1) hlen (by rw [hend]; exact htotal)
    rw [hend] at hnext
    rw [List.range'_succ, List.foldl_cons, paint_free hstep (hrest.trans htotal) ha, ← List.append_assoc, hnext,
      List.append_assoc, ← List.append_assoc (List.replicate _ (some k)), List.replicate_append_replicate]
    congr 4
    omega

/-- Painting the segments one after another lays them out. -/
theorem foldl_segments {ι : Type} (hmono : Monotone S) (first last : ι → ℕ) (key : ι → κ) (items : List ι)
    (hitems : ∀ x ∈ items, first x ≤ last x)
    (h : Ordered total places.length (items.map fun x => ⟨S (first x), S (last x) - S (first x), key x⟩)) :
    items.foldl (fun places x => (List.range' (first x) (last x - first x)).foldl
        (fun places i => paint places (S i) (S (i + 1)) (key x)) places)
        (places ++ List.replicate (total - places.length) none) =
      places ++ layout total places.length (items.map fun x => ⟨S (first x), S (last x) - S (first x), key x⟩) := by
  induction items generalizing places with
  | nil => rfl
  | cons x items ih =>
    obtain ⟨hstart, hlen, hrest⟩ := h
    have hle := hitems x List.mem_cons_self
    have hS := hmono hle
    have htotal := hrest.le_total
    dsimp only at hstart hlen hrest htotal
    have hend : S (first x) + (S (last x) - S (first x)) = S (last x) := Nat.add_sub_of_le hS
    rw [hend] at hrest htotal
    have hgap : List.replicate (total - places.length) (none : Option κ) =
        List.replicate (S (first x) - places.length) none ++ List.replicate (total - S (first x)) none := by
      rw [List.replicate_append_replicate]
      congr 1
      omega
    have hplaces : (places ++ List.replicate (S (first x) - places.length) none).length = S (first x) := by
      rw [List.length_append, List.length_replicate]
      exact Nat.add_sub_of_le hstart
    have hlast : first x + (last x - first x) = last x := Nat.add_sub_of_le hle
    have hfits : S (first x + (last x - first x)) ≤ total := by
      rw [hlast]
      exact htotal
    have hpaint := foldl_paint (k := key x) hmono (last x - first x) (first x) hplaces hfits
    rw [hlast] at hpaint
    obtain ⟨done, hdone⟩ : ∃ done, done = places ++ (List.replicate (S (first x) - places.length) none ++
        List.replicate (S (last x) - S (first x)) (some (key x))) := ⟨_, rfl⟩
    have hdoneLen : done.length = S (last x) := by
      rw [hdone, ← List.append_assoc, List.length_append, hplaces, List.length_replicate]
      exact hend
    have hnext := @ih done (fun y hy => hitems y (List.mem_cons_of_mem _ hy)) (by rw [hdoneLen]; exact hrest)
    rw [hdoneLen] at hnext
    rw [List.foldl_cons, hgap, ← List.append_assoc, hpaint, ← List.append_assoc, List.append_assoc places, ← hdone, hnext,
      List.map_cons, layout, hend, hdone, List.append_assoc, List.append_assoc]

end Painting

/-- What follows a segment is of another colour, unless the two meet in one. -/
theorem head?_layout (h : Ordered total u segs) (hnext : ∀ s ∈ segs.head?, ¬ (u = s.start ∧ k = s.key)) :
    (layout total u segs).head? ≠ some (some k) := by
  cases segs with
  | nil =>
    unfold layout
    rw [List.head?_replicate]
    split_ifs <;> nofun
  | cons s segs =>
    obtain ⟨hu, hlen, -⟩ := h
    unfold layout
    by_cases hgap : u = s.start
    · obtain ⟨m, hm⟩ : ∃ m, s.len = m + 1 := ⟨s.len - 1, by omega⟩
      rw [hgap, Nat.sub_self, hm, List.replicate_zero, List.nil_append, List.replicate_succ, List.cons_append,
        List.head?_cons]
      intro heq
      exact hnext s rfl ⟨hgap, (Option.some.inj (Option.some.inj heq)).symm⟩
    · obtain ⟨m, hm⟩ : ∃ m, s.start - u = m + 1 := ⟨s.start - u - 1, by omega⟩
      rw [hm, List.replicate_succ, List.cons_append, List.head?_cons]
      nofun

section Reading

variable [DecidableEq κ]

theorem runs_none (n : ℕ) (places : List (Option κ)) (u : ℕ) :
    runs u (List.replicate n none ++ places) = runs (u + n) places := by
  induction n generalizing u with
  | zero => rfl
  | succ n ih =>
    rw [List.replicate_succ, List.cons_append, runs, ih]
    congr 1
    omega

theorem takeWhile_replicate (n : ℕ) (h : places.head? ≠ some (some k)) :
    (List.replicate n (some k) ++ places).takeWhile (· = some k) = List.replicate n (some k) ∧
      (List.replicate n (some k) ++ places).dropWhile (· = some k) = places := by
  induction n with
  | zero =>
    cases places with
    | nil => exact ⟨rfl, rfl⟩
    | cons o places =>
      have hne : ¬ decide (o = some k) = true := by
        rw [decide_eq_true_iff]
        rintro rfl
        exact h rfl
      exact ⟨List.takeWhile_cons_of_neg hne, List.dropWhile_cons_of_neg hne⟩
  | succ n ih =>
    have htrue : (fun o : Option κ => decide (o = some k)) (some k) = true := decide_eq_true rfl
    rw [List.replicate_succ, List.cons_append, List.takeWhile_cons_of_pos (p := fun o => decide (o = some k)) htrue,
      List.dropWhile_cons_of_pos (p := fun o => decide (o = some k)) htrue]
    exact ⟨congrArg _ ih.1, ih.2⟩

theorem runs_replicate {n : ℕ} (hn : 0 < n) (h : places.head? ≠ some (some k)) (u : ℕ) :
    runs u (List.replicate n (some k) ++ places) = ⟨u, n, k⟩ :: runs (u + n) places := by
  obtain ⟨m, rfl⟩ : ∃ m, n = m + 1 := ⟨n - 1, by omega⟩
  obtain ⟨htake, hdrop⟩ := takeWhile_replicate m h
  rw [List.replicate_succ, List.cons_append, runs, htake, hdrop, List.length_replicate]

theorem runs_free (n u : ℕ) : runs u (List.replicate n (none : Option κ)) = [] := by
  have hall := runs_none n ([] : List (Option κ)) u
  rw [List.append_nil] at hall
  rw [hall, runs]

theorem runs_layout (h : Ordered total u segs) : runs u (layout total u segs) = merged segs := by
  induction hn : segs.length using Nat.strong_induction_on generalizing u segs with
  | _ n ih =>
    cases segs with
    | nil =>
      rw [merged, layout]
      exact runs_free _ _
    | cons s segs =>
      obtain ⟨hu, hlen, hrest⟩ := h
      have hgap : u + (s.start - u) = s.start := by omega
      by_cases hnext : ∀ s' ∈ segs.head?, ¬ (s.start + s.len = s'.start ∧ s.key = s'.key)
      · have hread : runs u (layout total u (s :: segs)) = s :: merged segs := by
          rw [layout, runs_none, hgap, runs_replicate hlen (head?_layout hrest hnext),
            ih segs.length (by rw [← hn]; exact Nat.lt_succ_self _) hrest rfl]
        rw [hread]
        cases segs with
        | nil => rw [merged, merged]
        | cons s' segs => rw [merged, if_neg (hnext s' rfl)]
      · cases segs with
        | nil => exact absurd (fun _ h => nomatch h) hnext
        | cons s' segs =>
          have hmeet : s.start + s.len = s'.start ∧ s.key = s'.key := by
            by_contra hno
            apply hnext
            intro x hx
            cases hx
            exact hno
          obtain ⟨hstart, hlen', hrest'⟩ := hrest
          have hsame : layout total u (s :: s' :: segs) = layout total u (⟨s.start, s.len + s'.len, s.key⟩ :: segs) := by
            rw [layout, layout, layout, ← hmeet.1, ← hmeet.2, Nat.sub_self, List.replicate_zero, List.nil_append,
              ← List.append_assoc (List.replicate s.len _), List.replicate_append_replicate, Nat.add_assoc]
          rw [hsame, merged, if_pos hmeet]
          apply ih (segs.length + 1) (by rw [← hn]; exact Nat.lt_succ_self _) ?_ rfl
          refine ⟨hu, Nat.add_pos_left hlen _, ?_⟩
          rw [← hmeet.1, Nat.add_assoc] at hrest'
          exact hrest'

theorem length_merged_le (segs : List (Segment κ)) : (merged segs).length ≤ segs.length := by
  induction segs using merged.induct with
  | case1 => rw [merged]
  | case2 s => rw [merged]
  | case3 s s' segs h ih =>
    rw [merged, if_pos h]
    exact Nat.le_succ_of_le ih
  | case4 s s' segs h ih =>
    rw [merged, if_neg h]
    exact Nat.succ_le_succ ih

/-- As many runs as segments: no two met. -/
theorem merged_eq_of_length (h : segs.length ≤ (merged segs).length) : merged segs = segs := by
  induction segs using merged.induct with
  | case1 => rw [merged]
  | case2 s => rw [merged]
  | case3 s s' segs hmeet ih =>
    rw [merged, if_pos hmeet] at h
    have := length_merged_le (⟨s.start, s.len + s'.len, s.key⟩ :: segs)
    simp only [List.length_cons] at h this
    omega
  | case4 s s' segs hmeet ih =>
    rw [merged, if_neg hmeet] at h ⊢
    rw [ih (Nat.le_of_succ_le_succ h)]

theorem merged_eq_self (h : segs.IsChain fun s s' => ¬ (s.start + s.len = s'.start ∧ s.key = s'.key)) :
    merged segs = segs := by
  induction segs using merged.induct with
  | case1 => rw [merged]
  | case2 s => rw [merged]
  | case3 s s' segs hmeet ih => exact absurd hmeet (List.isChain_cons_cons.mp h).1
  | case4 s s' segs hmeet ih =>
    rw [merged, if_neg hmeet, ih (List.isChain_cons_cons.mp h).2]

end Reading

end WeavePy.Segments
