import WeavePy.TypeCache.Operations

/-!
What a bump changes: the class and every class its live subclass links lead to take versions never used
before, and nothing else moves.
-/

namespace WeavePy.TypeCache

open Function Relation

namespace State

variable {s s' s'' : State} {c d t : ℕ} {l : List ℕ}

/-- Reachable through live subclass links. -/
def Reaches (s : State) (c d : ℕ) : Prop := ReflTransGen (Worklist.Edge s.liveSubclasses) c d

def Below (s : State) : Prop := ∀ c, (s.cls c).attrVersion < s.nextTypeVersion

structure Bumps (s s' : State) : Prop where
  cls : ∀ c, s'.cls c = { s.cls c with attrVersion := (s'.cls c).attrVersion, subclasses := (s'.cls c).subclasses }
  live : s'.liveSubclasses = s.liveSubclasses
  links : ∀ c, List.Sublist (s'.cls c).subclasses (s.cls c).subclasses
  threads : s'.threads = s.threads
  size : s'.size = s.size
  exoticKeys : s'.exoticKeys = s.exoticKeys
  next : s.nextTypeVersion ≤ s'.nextTypeVersion
  below : s'.Below
  version : ∀ c, (s'.cls c).attrVersion = (s.cls c).attrVersion ∨ s.nextTypeVersion ≤ (s'.cls c).attrVersion
  fresh : ∀ c d, c ≠ d → (s'.cls c).attrVersion = (s'.cls d).attrVersion →
    (s'.cls c).attrVersion = (s.cls c).attrVersion ∧ (s'.cls d).attrVersion = (s.cls d).attrVersion

theorem Bumps.refl (h : s.Below) : Bumps s s :=
  ⟨fun _ => rfl, rfl, fun _ => .refl _, rfl, rfl, rfl, le_rfl, h, fun _ => .inl rfl, fun _ _ _ _ => ⟨rfl, rfl⟩⟩

theorem Bumps.trans (h : Bumps s s') (h' : Bumps s' s'') : Bumps s s'' where
  cls c := by rw [h'.cls c, h.cls c]
  live := h'.live.trans h.live
  links c := (h'.links c).trans (h.links c)
  threads := h'.threads.trans h.threads
  size := h'.size.trans h.size
  exoticKeys := h'.exoticKeys.trans h.exoticKeys
  next := h.next.trans h'.next
  below := h'.below
  version c := by
    have hnext := h.next
    rcases h'.version c with hc | hc
    · rw [hc]
      exact h.version c
    · exact .inr (hnext.trans hc)
  fresh c d hne heq := by
    obtain ⟨hc, hd⟩ := h'.fresh c d hne heq
    rw [hc, hd] at heq ⊢
    exact h.fresh c d hne heq

theorem Bumps.fresh_of_fresh (h : Bumps s s') (hc : t ≤ (s.cls c).attrVersion) (ht : t ≤ s.nextTypeVersion) :
    t ≤ (s'.cls c).attrVersion := by
  rcases h.version c with h | h
  · rwa [h]
  · exact ht.trans h

@[simp]
theorem modify_cls (f : Class → Class) : (s.modify c f).cls d = if d = c then f (s.cls c) else s.cls d :=
  update_apply _ _ _ _

theorem isAlive_modify {f : Class → Class} (hf : (f (s.cls c)).alive = (s.cls c).alive) :
    (s.modify c f).isAlive = s.isAlive := by
  funext d
  simp only [isAlive, modify_cls]
  split_ifs with h
  · rw [h, hf]
  · rfl

theorem liveSubclasses_congr (halive : s'.isAlive = s.isAlive) (hsub : (s'.cls c).subclasses = (s.cls c).subclasses) :
    s'.liveSubclasses c = s.liveSubclasses c := by
  rw [liveSubclasses, liveSubclasses, halive, hsub]

theorem bump_eq (h : s.bump t = some s') : s' =
    { s.modify t fun ty => { ty with attrVersion := s.nextTypeVersion } with
      nextTypeVersion := s.nextTypeVersion + 1 } := by
  obtain ⟨⟨v, next⟩, hv, rfl⟩ := Option.map_eq_some_iff.mp h
  unfold allocateTypeVersion at hv
  split_ifs at hv
  cases hv
  rfl

theorem bump_bumps (hs : s.Below) (h : s.bump t = some s') : Bumps s s' ∧ s.nextTypeVersion ≤ (s'.cls t).attrVersion := by
  obtain rfl := bump_eq h
  have hversion (c : ℕ) : ((s.modify t fun ty => { ty with attrVersion := s.nextTypeVersion }).cls c).attrVersion =
      if c = t then s.nextTypeVersion else (s.cls c).attrVersion := by
    rw [modify_cls]
    split_ifs <;> rfl
  refine ⟨⟨fun c => ?_, ?_, fun c => ?_, rfl, rfl, rfl, Nat.le_succ _, fun c => ?_, fun c => ?_, fun c d hne heq => ?_⟩, ?_⟩
  · simp only [modify_cls]
    split_ifs with h
    · rw [h]
    · rfl
  · have halive : (s.modify t fun ty => { ty with attrVersion := s.nextTypeVersion }).isAlive = s.isAlive :=
      isAlive_modify rfl
    refine funext fun c => liveSubclasses_congr halive ?_
    simp only [modify_cls]
    split_ifs with h
    · rw [h]
    · rfl
  · simp only [modify_cls]
    split_ifs with h
    · rw [h]
    · exact .refl _
  · have := hs c
    simp only [hversion]
    split_ifs <;> omega
  · simp only [hversion]
    split_ifs
    · exact .inr le_rfl
    · exact .inl rfl
  · have hc := hs c
    have hd := hs d
    simp only [hversion] at heq ⊢
    split_ifs at heq ⊢ with hct hdt hdt
    · exact absurd (hct.trans hdt.symm) hne
    · omega
    · omega
    · exact ⟨rfl, rfl⟩
  · simp only [hversion, if_pos]
    exact le_rfl

theorem subclasses_bumps (hs : s.Below) (t : ℕ) : Bumps s (s.subclasses t).1 := by
  have halive : (s.subclasses t).1.isAlive = s.isAlive :=
    isAlive_modify (f := fun ty => { ty with subclasses := s.liveSubclasses t }) rfl
  have hversion (c : ℕ) : ((s.subclasses t).1.cls c).attrVersion = (s.cls c).attrVersion := by
    simp only [subclasses, modify_cls]
    split_ifs with h
    · rw [h]
    · rfl
  refine ⟨fun c => ?_, ?_, fun c => ?_, rfl, rfl, rfl, le_rfl, fun c => ?_, fun c => .inl (hversion c),
    fun c d _ _ => ⟨hversion c, hversion d⟩⟩
  · simp only [subclasses, modify_cls]
    split_ifs with h
    · rw [h]
    · rfl
  · funext c
    unfold liveSubclasses
    rw [halive]
    simp only [subclasses, modify_cls]
    split_ifs with h
    · rw [h, liveSubclasses, List.filter_filter]
      simp
    · rfl
  · simp only [subclasses, modify_cls]
    split_ifs with h
    · rw [h]
      exact List.filter_sublist
    · exact .refl _
  · rw [hversion]
    exact hs c

/-- What the loop does to a class it pops for the first time. -/
def touch (s : State) (t : ℕ) : Option State := (s.bump t).map fun s => (s.subclasses t).1

theorem touch_bumps (hs : s.Below) (h : s.touch t = some s') : Bumps s s' ∧ s.nextTypeVersion ≤ (s'.cls t).attrVersion := by
  obtain ⟨s₁, hbump, rfl⟩ := Option.map_eq_some_iff.mp h
  obtain ⟨hb, ht⟩ := bump_bumps hs hbump
  have hsub := subclasses_bumps hb.below t
  exact ⟨hb.trans hsub, hsub.fresh_of_fresh ht hb.next⟩

theorem foldlM_touch_bumps (hs : s.Below) (h : l.foldlM touch s = some s') :
    Bumps s s' ∧ ∀ c ∈ l, s.nextTypeVersion ≤ (s'.cls c).attrVersion := by
  induction l generalizing s with
  | nil =>
    simp only [List.foldlM_nil, Option.pure_def, Option.some_inj] at h
    subst h
    exact ⟨Bumps.refl hs, by simp⟩
  | cons t l ih =>
    rw [List.foldlM_cons] at h
    obtain ⟨s₁, htouch, h⟩ := Option.bind_eq_some_iff.mp h
    obtain ⟨hb, ht⟩ := touch_bumps hs htouch
    obtain ⟨hb', hl⟩ := ih hb.below h
    refine ⟨hb.trans hb', fun c hc => ?_⟩
    rcases List.mem_cons.mp hc with rfl | hc
    · exact hb'.fresh_of_fresh ht hb.next
    · exact hb.next.trans (hl c hc)

/-- The links in the order the loop pops them. -/
def popped (s : State) (t : ℕ) : List ℕ := (s.liveSubclasses t).reverse

theorem bumpWalk_eq {n : ℕ} {visited queue : List ℕ} (hs : s.Below) :
    bumpWalk n s visited queue =
      ((Worklist.walk s.popped n visited queue).drop visited.length).foldlM touch s := by
  induction n generalizing s visited queue with
  | zero => simp [bumpWalk, Worklist.walk]
  | succ n ih =>
    cases queue with
    | nil => simp [bumpWalk, Worklist.walk]
    | cons t queue =>
      simp only [bumpWalk, Worklist.walk]
      split_ifs with ht
      · exact ih hs
      · obtain ⟨rest, hrest⟩ := @Worklist.prefix_walk _ _ s.popped (visited ++ [t]) (s.popped t ++ queue) n
        have hdrop : (Worklist.walk s.popped n (visited ++ [t]) (s.popped t ++ queue)).drop visited.length =
            t :: (Worklist.walk s.popped n (visited ++ [t]) (s.popped t ++ queue)).drop (visited ++ [t]).length := by
          rw [← hrest, List.drop_left, List.append_assoc, List.drop_left]
          rfl
        rw [hdrop, List.foldlM_cons]
        simp only [touch, Option.bind_eq_bind, Option.bind_map]
        apply Option.bind_congr
        intro s₁ hbump
        obtain ⟨hb, -⟩ := bump_bumps hs hbump
        have hsub := subclasses_bumps hb.below t
        have hpopped : (s₁.subclasses t).1.popped = s.popped := by
          unfold popped
          rw [hsub.live, hb.live]
        have hlive : (s₁.subclasses t).2 = s.liveSubclasses t := by
          rw [← hb.live]
          rfl
        simp only [comp_apply]
        rw [ih hsub.below, hpopped, hlive]
        rfl

/-- No class yet to come has subclasses. -/
def Linked (s : State) : Prop := ∀ c, s.size ≤ c → (s.cls c).subclasses = []

theorem work_lt_walkFuel (h : s.Linked) :
    (∀ v, v ∉ Finset.range s.size → s.popped v = []) ∧
      Worklist.work s.popped (Finset.range s.size) [t] (s.popped t) < s.walkFuel := by
  have hlen (c : ℕ) : (s.popped c).length ≤ (s.cls c).subclasses.length := by
    simp only [popped, liveSubclasses, List.length_reverse]
    exact List.length_filter_le _ _
  have hnil (v : ℕ) (hv : v ∉ Finset.range s.size) : s.popped v = [] := by
    have := hlen v
    rw [h v (by simpa using hv), List.length_nil] at this
    exact List.length_eq_zero_iff.mp (by omega)
  refine ⟨hnil, ?_⟩
  have hsum : Worklist.work s.popped (Finset.range s.size) [t] (s.popped t) =
      ∑ v ∈ Finset.range s.size, (s.popped v).length := Worklist.work_start hnil
  rw [hsum]
  exact Nat.lt_succ_of_le (Finset.sum_le_sum fun c _ => hlen c)

theorem Bumps.linked (h : Bumps s s') (hl : s.Linked) : s'.Linked := by
  intro c hc
  rw [h.size] at hc
  have := h.links c
  rw [hl c hc] at this
  exact List.sublist_nil.mp this

/-- The bump reaches everything the links lead to: the loop runs until its queue is empty. -/
theorem bumpAttrVersion_bumps (hs : s.Below) (hl : s.Linked) (h : s.bumpAttrVersion c = some s') :
    Bumps s s' ∧ ∀ d, s.Reaches c d → s.nextTypeVersion ≤ (s'.cls d).attrVersion := by
  obtain ⟨s₁, hbump, h⟩ := Option.bind_eq_some_iff.mp h
  obtain ⟨hb, hc⟩ := bump_bumps hs hbump
  unfold Reaches
  rw [← hb.live]
  split_ifs at h with hleaf
  · obtain rfl := Option.some_inj.mp h
    refine ⟨hb, fun d hd => ?_⟩
    have hnil : s₁.liveSubclasses c = [] := by
      unfold liveSubclasses
      rw [List.filter_eq_nil_iff]
      simpa using hleaf
    rcases hd.cases_head with rfl | ⟨e, he, -⟩
    · exact hc
    · rw [Worklist.Edge, hnil] at he
      simp at he
  · have hsub := subclasses_bumps hb.below c
    have hpopped : (s₁.subclasses c).1.popped = s₁.popped := by
      unfold popped
      rw [hsub.live]
    have hqueue : (s₁.subclasses c).2.reverse = (s₁.subclasses c).1.popped c := by
      rw [hpopped]
      rfl
    obtain ⟨hnil, hwork⟩ := work_lt_walkFuel (t := c) (hsub.linked (hb.linked hl))
    dsimp only at h
    rw [bumpWalk_eq hsub.below, hqueue] at h
    obtain ⟨hb', hwalk⟩ := foldlM_touch_bumps hsub.below h
    have hall := (hb.trans hsub).trans hb'
    refine ⟨hall, fun d hd => ?_⟩
    have hd' : ReflTransGen (Worklist.Edge (s₁.subclasses c).1.popped) c d := by
      refine ReflTransGen.mono (fun v w hw => ?_) c d hd
      rw [hpopped]
      exact List.mem_reverse.mpr hw
    obtain ⟨rest, hrest⟩ := @Worklist.prefix_walk _ _ (s₁.subclasses c).1.popped [c]
      ((s₁.subclasses c).1.popped c) (s₁.subclasses c).1.walkFuel
    have hmem := Worklist.mem_walk_of_reach hnil hwork hd'
    rw [← hrest] at hmem hwalk
    rcases List.mem_append.mp hmem with hd | hd
    · rw [List.mem_singleton.mp hd]
      exact hb'.fresh_of_fresh (hsub.fresh_of_fresh hc hb.next) (hb.trans hsub).next
    · exact (hb.trans hsub).next.trans (hwalk d (by rwa [List.drop_left]))

end State

end WeavePy.TypeCache
