import WeavePy.Regex.Repeats

/-!
Whether code is well formed can be computed.
-/

namespace WeavePy.Regex

section Compute

variable (code : List ℕ)

/-- The alternatives from `a` on. -/
def alternatives : ℕ → ℕ → List ℕ
  | 0, _ => []
  | fuel + 1, a => if arg code a = 0 then [] else a :: alternatives fuel (a + arg code a)

/-- The places that `Next` leads to. -/
def nexts (p : ℕ) : List ℕ :=
  match opAt code p with
  | some .ANY | some .ANY_ALL => [p + 1]
  | some .MARK | some .AT | some .CATEGORY | some .LITERAL | some .NOT_LITERAL
  | some .LITERAL_IGNORE | some .NOT_LITERAL_IGNORE | some .LITERAL_LOC_IGNORE
  | some .NOT_LITERAL_LOC_IGNORE | some .LITERAL_UNI_IGNORE | some .NOT_LITERAL_UNI_IGNORE
  | some .GROUPREF | some .GROUPREF_IGNORE | some .GROUPREF_LOC_IGNORE
  | some .GROUPREF_UNI_IGNORE => [p + 2]
  | some .IN | some .IN_IGNORE | some .IN_LOC_IGNORE | some .IN_UNI_IGNORE | some .JUMP
  | some .INFO | some .ASSERT | some .ASSERT_NOT | some .ATOMIC_GROUP | some .REPEAT_ONE
  | some .MIN_REPEAT_ONE | some .POSSESSIVE_REPEAT_ONE => [p + 1 + arg code (p + 1)]
  | some .REPEAT | some .POSSESSIVE_REPEAT => [p + 1 + arg code (p + 1) + 1]
  | some .GROUPREF_EXISTS => [p + 1 + 2, p + 1 + arg code (p + 2)]
  | some .BRANCH => (alternatives code code.length (p + 1)).map (· + 1)
  | _ => []

/-- The bodies of the op at `p`. -/
def bodies (p : ℕ) : List (ℕ × ℕ) :=
  match opAt code p with
  | some .ASSERT | some .ASSERT_NOT => [(p + 3, p + 1 + arg code (p + 1))]
  | some .ATOMIC_GROUP => [(p + 2, p + 1 + arg code (p + 1))]
  | some .REPEAT_ONE | some .MIN_REPEAT_ONE | some .POSSESSIVE_REPEAT_ONE =>
    [(p + 4, p + 1 + arg code (p + 1))]
  | some .REPEAT | some .POSSESSIVE_REPEAT => [(p + 4, p + 1 + arg code (p + 1) + 1)]
  | _ => []

variable {code} {p p' a b e x : ℕ}

theorem alternatives_complete (h : After code a x) (hx : arg code x ≠ 0) {fuel : ℕ}
    (hfuel : x < a + fuel) : x ∈ alternatives code fuel a := by
  induction h generalizing fuel with
  | here =>
    cases fuel with
    | zero => omega
    | succ fuel => simp [alternatives, hx]
  | next _ hne ih =>
    cases fuel with
    | zero =>
      have := After.le ‹_›
      omega
    | succ fuel =>
      rw [alternatives, if_neg hne]
      exact List.mem_cons_of_mem _ (ih hx (by omega))

theorem alternatives_sound {fuel : ℕ} (hp : Alternative code p a) (h : x ∈ alternatives code fuel a) :
    Alternative code p x ∧ arg code x ≠ 0 := by
  induction fuel generalizing a with
  | zero => simp [alternatives] at h
  | succ fuel ih =>
    rw [alternatives] at h
    split_ifs at h with hne
    · simp at h
    · rcases List.mem_cons.mp h with rfl | h
      · exact ⟨hp, hne⟩
      · exact ih (hp.next hne) h

theorem arg_lt (h : arg code a ≠ 0) : a < code.length := by
  by_contra hle
  refine h ?_
  rw [arg, List.getD_eq_getElem?_getD, List.getElem?_eq_none_iff.mpr (Nat.le_of_not_lt hle)]
  rfl

theorem mem_nexts : p' ∈ nexts code p ↔ Next code p p' := by
  cases hop : opAt code p with
  | none => simp [nexts, Next, hop]
  | some op =>
    cases op
    case BRANCH =>
      simp only [nexts, Next, hop, List.mem_map]
      constructor
      · rintro ⟨a, ha, rfl⟩
        obtain ⟨halt, hne⟩ := alternatives_sound .first ha
        exact ⟨a, halt, hne, rfl⟩
      · rintro ⟨a, halt, hne, rfl⟩
        have := arg_lt hne
        exact ⟨a, alternatives_complete halt.after hne (by omega), rfl⟩
    all_goals simp [nexts, Next, hop]

theorem mem_bodies : (b, e) ∈ bodies code p ↔ Body code p b e := by
  cases hop : opAt code p with
  | none => simp [bodies, Body, hop]
  | some op => cases op <;> simp [bodies, Body, hop]

end Compute

section Reading

mutual

/-- The instructions that a reading of the code from `a` to `e` comes to. -/
def readsOf (code : List ℕ) : ℕ → ℕ → ℕ → List ℕ
  | 0, _, _ => []
  | fuel + 1, a, e =>
    if a < e then
      a :: if opAt code a = some .BRANCH then readsAlternatives code fuel (a + 1) e
        else readsOf code fuel (a + size code a) e
    else []

/-- The same for the alternatives from `a` on. -/
def readsAlternatives (code : List ℕ) : ℕ → ℕ → ℕ → List ℕ
  | 0, _, _ => []
  | fuel + 1, a, e =>
    if arg code a = 0 then readsOf code fuel (a + 1) e
    else if a < e then
      readsOf code fuel (a + 1) (min (a + arg code a) e) ++
        readsAlternatives code fuel (a + arg code a) e
    else []

end

variable {code : List ℕ}

theorem readsOf_sound (fuel : ℕ) :
    (∀ a e x, x ∈ readsOf code fuel a e → Reads code a e x) ∧
    ∀ p a e x, p < e → opAt code p = some .BRANCH → Alternative code p a →
      x ∈ readsAlternatives code fuel a e → Reads code p e x := by
  induction fuel with
  | zero => exact ⟨fun _ _ _ h => by simp [readsOf] at h, fun _ _ _ _ _ _ _ h => by
      simp [readsAlternatives] at h⟩
  | succ fuel ih =>
    obtain ⟨ih, ihalt⟩ := ih
    constructor
    · intro a e x h
      rw [readsOf] at h
      split_ifs at h with hlt hop
      · rcases List.mem_cons.mp h with rfl | h
        · exact .here hlt
        · exact ihalt a (a + 1) e x hlt hop .first h
      · rcases List.mem_cons.mp h with rfl | h
        · exact .here hlt
        · exact .next hlt hop (ih _ _ _ h)
      · simp at h
    · intro p a e x hlt hop halt h
      rw [readsAlternatives] at h
      split_ifs at h with hskip hae
      · exact .branch hlt hop halt hskip (ih _ _ _ h)
      · rcases List.mem_append.mp h with h | h
        · exact .alternative hlt hop halt hae hskip (ih _ _ _ h)
        · exact ihalt p _ e x hlt hop (halt.next hskip) h
      · simp at h

end Reading

section Check

variable (code : List ℕ)

instance (p : ℕ) : Decidable (IsUntil code p) := inferInstanceAs (Decidable (_ ∨ _))

instance (p : ℕ) : Decidable (IsItem code p) := inferInstanceAs (Decidable (_ ∈ _))

/-- What `f` leads to from `b`, computed from left to right. -/
def closure (f : ℕ → List ℕ) (n b : ℕ) : List ℕ :=
  (List.range n).foldl (fun l p => if p ∈ l then l ++ f p else l) [b]

/-- The positions that control can reach. -/
def flowOf : List ℕ :=
  closure (fun p => nexts code p ++ (bodies code p).map Prod.fst) code.length 0

/-- The positions on the level that starts at `b`. -/
def levelOf (b : ℕ) : List ℕ := closure (nexts code) code.length b

/-- The marks, with their positions. -/
def marksOf : List (ℕ × ℕ) :=
  ((flowOf code).filter fun p => opAt code p = some .MARK).map fun p => (arg code (p + 1), p)

/-- The beginnings and the ends of the groups. -/
def groupsOf : List (ℕ × ℕ) :=
  ((marksOf code).product (marksOf code)).filterMap fun (m, m') =>
    if m.1 % 2 = 0 ∧ m'.1 = m.1 + 1 then some (m.2, m'.2) else none

/-- The whole code, and the bodies in it. -/
def partsOf : List (ℕ × ℕ × ℕ) :=
  (0, 0, code.length) :: (flowOf code).flatMap fun a => (bodies code a).map fun be => (a, be)

def FlowClosed : Prop :=
  0 ∈ flowOf code ∧ ∀ p ∈ flowOf code, (∀ p' ∈ nexts code p, p' ∈ flowOf code) ∧
    ∀ be ∈ bodies code p, be.1 ∈ flowOf code

def LevelsClosed : Prop :=
  ∀ abe ∈ partsOf code, abe.2.1 ∈ levelOf code abe.2.1 ∧
    ∀ p ∈ levelOf code abe.2.1, ∀ p' ∈ nexts code p, p' ∈ levelOf code abe.2.1

def MarksChecked : Prop :=
  ∀ m ∈ marksOf code, (m.1 % 2 = 1 → ∃ m' ∈ marksOf code, m'.1 + 1 = m.1 ∧ m'.2 < m.2) ∧
    ∀ m' ∈ marksOf code, (m.1 = m'.1 → m.2 = m'.2) ∧
      (m.1 % 2 = 0 → m'.1 % 2 = 0 → m.2 < m'.2 → m.1 < m'.1)

def GroupsChecked : Prop :=
  ∀ oc ∈ groupsOf code, (∀ p ∈ flowOf code, oc.1 < p → p < oc.2 → ∀ p' ∈ nexts code p, p' ≤ oc.2) ∧
    ∀ abe ∈ partsOf code, abe.1 ≤ oc.1 → oc.1 < abe.2.2 → oc.2 < abe.2.2

def PartsChecked : Prop :=
  ∀ abe ∈ partsOf code, ∀ x ∈ levelOf code abe.2.1, x < abe.2.2 ∧
    (opAt code x = some .SUCCESS → ∀ oc ∈ groupsOf code, abe.1 ≤ oc.1 → oc.1 < x → oc.2 < x) ∧
    (IsUntil code x → abe.2.1 = abe.1 + 4 ∧ opAt code abe.1 = some .REPEAT ∧ x = untilOf code abe.1)

def RepeatsChecked : Prop :=
  ∀ q ∈ flowOf code, opAt code q = some .REPEAT → IsUntil code (untilOf code q) ∧
    (∀ x ∈ levelOf code (q + 4), opAt code x ≠ some .SUCCESS) ∧
    ∀ m ∈ marksOf code, q + 4 ≤ m.2 → m.2 < untilOf code q →
      m.2 ∈ readsOf code code.length (q + 4) (untilOf code q)

def ItemsChecked : Prop :=
  ∀ a ∈ flowOf code, IsItem code a → ∀ be ∈ bodies code a, ∀ m ∈ marksOf code, a ≤ m.2 → be.2 ≤ m.2

def TestsChecked : Prop :=
  ∀ p ∈ flowOf code, opAt code p ∈ [some Op.GROUPREF, some .GROUPREF_IGNORE,
      some .GROUPREF_UNI_IGNORE, some .GROUPREF_LOC_IGNORE, some .GROUPREF_EXISTS] →
    ∀ oc ∈ groupsOf code, arg code (oc.1 + 1) = 2 * arg code (p + 1) → oc.1 < p → oc.2 < p

instance : Decidable (FlowClosed code) := inferInstanceAs (Decidable (_ ∧ _))

instance : Decidable (LevelsClosed code) :=
  inferInstanceAs (Decidable (∀ abe ∈ partsOf code, _))

instance : Decidable (MarksChecked code) :=
  inferInstanceAs (Decidable (∀ m ∈ marksOf code, _))

instance : Decidable (GroupsChecked code) :=
  inferInstanceAs (Decidable (∀ oc ∈ groupsOf code, _))

instance : Decidable (PartsChecked code) :=
  inferInstanceAs (Decidable (∀ abe ∈ partsOf code, ∀ x ∈ levelOf code abe.2.1, _))

instance : Decidable (RepeatsChecked code) :=
  inferInstanceAs (Decidable (∀ q ∈ flowOf code, _))

instance : Decidable (ItemsChecked code) :=
  inferInstanceAs (Decidable (∀ a ∈ flowOf code, _))

instance : Decidable (TestsChecked code) :=
  inferInstanceAs (Decidable (∀ p ∈ flowOf code, _))

/-- The conditions on well-formed code, over what was computed of it. -/
structure Checked : Prop where
  flow : FlowClosed code
  levels : LevelsClosed code
  marks : MarksChecked code
  groups : GroupsChecked code
  parts : PartsChecked code
  repeats : RepeatsChecked code
  items : ItemsChecked code

variable {code} {i g o c p a b e x q : ℕ}

/-- A closure has only what the steps from it lead to. -/
theorem closure_sound {f : ℕ → List ℕ} {P : ℕ → Prop} (hf : ∀ p, P p → ∀ x ∈ f p, P x) (n : ℕ)
    (hb : P b) : ∀ x ∈ closure f n b, P x := by
  unfold closure
  have hstart : ∀ x ∈ [b], P x := by simpa using hb
  revert hstart
  generalize [b] = acc
  induction List.range n generalizing acc with
  | nil => exact id
  | cons p l ih =>
    intro hacc
    refine ih _ fun x hx => ?_
    dsimp only at hx
    by_cases hp : p ∈ acc
    · rw [if_pos hp] at hx
      rcases List.mem_append.mp hx with hx | hx
      · exact hacc x hx
      · exact hf p (hacc p hp) x hx
    · rw [if_neg hp] at hx
      exact hacc x hx

theorem flow_of_mem (h : p ∈ flowOf code) : Flow code p := by
  refine closure_sound (fun p hp x hx => ?_) _ (.of_entry .main .refl) p h
  rcases List.mem_append.mp hx with hx | hx
  · exact hp.next (mem_nexts.mp hx)
  · obtain ⟨⟨b, e⟩, hbe, rfl⟩ := List.mem_map.mp hx
    exact .of_entry (hp.entry (mem_bodies.mp hbe)) .refl

theorem level_of_mem (h : x ∈ levelOf code b) : Level code b x :=
  closure_sound (fun _ hp _ hx => hp.tail (mem_nexts.mp hx)) _ .refl x h

theorem mem_flowOf (hflow : FlowClosed code) (h : Flow code p) : p ∈ flowOf code := by
  have hlevel {b p : ℕ} (hb : b ∈ flowOf code) (h : Level code b p) : p ∈ flowOf code := by
    induction h with
    | refl => exact hb
    | tail _ hnext ih => exact (hflow.2 _ ih).1 _ (mem_nexts.mpr hnext)
  obtain ⟨b, hb, h⟩ := h
  refine hlevel ?_ h
  clear h
  induction hb with
  | main => exact hflow.1
  | body _ hp hbody ih => exact (hflow.2 _ (hlevel ih hp)).2 _ (mem_bodies.mpr hbody)

theorem mem_partsOf (hflow : FlowClosed code) (h : Part code a b e) : (a, b, e) ∈ partsOf code := by
  cases h with
  | main => exact List.mem_cons_self
  | body ha hbody =>
    refine List.mem_cons_of_mem _ (List.mem_flatMap.mpr ⟨a, mem_flowOf hflow ha, ?_⟩)
    exact List.mem_map.mpr ⟨(b, e), mem_bodies.mpr hbody, rfl⟩

theorem mem_levelOf (h : Checked code) (hpart : Part code a b e) (hx : Level code b x) :
    x ∈ levelOf code b := by
  obtain ⟨hb, hclosed⟩ := h.levels _ (mem_partsOf h.flow hpart)
  induction hx with
  | refl => exact hb
  | tail _ hnext ih => exact hclosed _ ih _ (mem_nexts.mpr hnext)

theorem mem_marksOf (hflow : FlowClosed code) : (i, p) ∈ marksOf code ↔ MarkAt code i p := by
  simp only [marksOf, List.mem_map, List.mem_filter, decide_eq_true_eq]
  constructor
  · rintro ⟨p, ⟨hp, hop⟩, heq⟩
    obtain ⟨rfl, rfl⟩ := Prod.mk.inj heq
    exact ⟨flow_of_mem hp, hop, rfl⟩
  · rintro ⟨hp, hop, rfl⟩
    exact ⟨p, ⟨mem_flowOf hflow hp, hop⟩, rfl⟩

theorem mem_groupsOf (hflow : FlowClosed code) (h : GroupAt code g o c) : (o, c) ∈ groupsOf code := by
  refine List.mem_filterMap.mpr ⟨((2 * g, o), (2 * g + 1, c)), ?_, by simp⟩
  exact List.pair_mem_product.mpr ⟨(mem_marksOf hflow).mpr h.1, (mem_marksOf hflow).mpr h.2⟩

theorem Checked.wellFormed (h : Checked code) : WellFormed code where
  once hp hp' := ((h.marks _ ((mem_marksOf h.flow).mpr hp)).2 _ ((mem_marksOf h.flow).mpr hp')).1 rfl
  opened hc := by
    obtain ⟨⟨i, o⟩, hmem, hi, ho⟩ := (h.marks _ ((mem_marksOf h.flow).mpr hc)).1 (by simp)
    obtain rfl : i = _ := Nat.succ.inj hi
    exact ⟨o, ho, (mem_marksOf h.flow).mp hmem⟩
  ordered ho ho' hlt := by
    have := ((h.marks _ ((mem_marksOf h.flow).mpr ho)).2 _ ((mem_marksOf h.flow).mpr ho')).2
      (by simp) (by simp) hlt
    simpa using this
  nested hg hp ho hc hnext :=
    (h.groups _ (mem_groupsOf h.flow hg)).1 _ (mem_flowOf h.flow hp) ho hc _ (mem_nexts.mpr hnext)
  closed hpart hg := (h.groups _ (mem_groupsOf h.flow hg)).2 _ (mem_partsOf h.flow hpart)
  ended hpart hx hop hg :=
    (h.parts _ (mem_partsOf h.flow hpart) _ (mem_levelOf h hpart hx)).2.1 hop _ (mem_groupsOf h.flow hg)
  inside hpart hx := (h.parts _ (mem_partsOf h.flow hpart) _ (mem_levelOf h hpart hx)).1
  until_end hq hop := (h.repeats _ (mem_flowOf h.flow hq) hop).1
  until_level hpart hx := (h.parts _ (mem_partsOf h.flow hpart) _ (mem_levelOf h hpart hx)).2.2
  repeat_level hq hop hx :=
    (h.repeats _ (mem_flowOf h.flow hq) hop).2.1 _ (mem_levelOf h (.body hq (body_of_repeat hop)) hx)
  item ha hbody hitem hmark :=
    h.items _ (mem_flowOf h.flow ha) hitem _ (mem_bodies.mpr hbody) _ ((mem_marksOf h.flow).mpr hmark)
  reads hq hop hmark hx hlt := (readsOf_sound _).1 _ _ _
    ((h.repeats _ (mem_flowOf h.flow hq) hop).2.2 _ ((mem_marksOf h.flow).mpr hmark) hx hlt)

theorem TestsChecked.noInnerTest (h : TestsChecked code) (hflow : FlowClosed code) :
    NoInnerTest code := by
  rintro g p hp ⟨hg, op, hop, hat⟩ ⟨o, c, hgroup, ho, hc⟩ -
  have htest : opAt code p ∈ [some Op.GROUPREF, some .GROUPREF_IGNORE, some .GROUPREF_UNI_IGNORE,
      some .GROUPREF_LOC_IGNORE, some .GROUPREF_EXISTS] := by
    rw [hat]
    simpa using hop
  have hmark : arg code (o + 1) = 2 * arg code (p + 1) := by rw [hgroup.1.2.2, hg]
  exact absurd (h p (mem_flowOf hflow hp) htest _ (mem_groupsOf hflow hgroup) hmark ho) (Nat.not_lt.mpr hc)

end Check

end WeavePy.Regex
