import WeavePy.TypeCache.Answers

/-!
The mutations leave the caches sound when every class whose walk they change can be reached from the
mutated class.
-/

namespace WeavePy.TypeCache

open Function Relation State

section Folds

variable {s : State} {l : List ℕ} {f : ℕ → Class → Class} {c : ℕ}

theorem foldl_modify_inv (P : Class → Prop) (hP : ∀ d ty, P ty → P (f d ty)) (h : P (s.cls c)) :
    P ((l.foldl (fun s d => s.modify d (f d)) s).cls c) := by
  induction l generalizing s with
  | nil => exact h
  | cons d l ih =>
    apply ih
    rw [State.modify_cls]
    split_ifs with hcd
    · subst hcd
      exact hP _ _ h
    · exact h

theorem foldl_modify_keeps {β : Type} (π : Class → β) (hπ : ∀ d ty, π (f d ty) = π ty) (s : State) (l : List ℕ) (c : ℕ) :
    π ((l.foldl (fun s d => s.modify d (f d)) s).cls c) = π (s.cls c) :=
  foldl_modify_inv (fun ty => π ty = π (s.cls c)) (fun d ty h => (hπ d ty).trans h) rfl

theorem foldl_modify_of_not_mem (hc : c ∉ l) : (l.foldl (fun s d => s.modify d (f d)) s).cls c = s.cls c := by
  induction l generalizing s with
  | nil => rfl
  | cons d l ih =>
    rw [List.mem_cons, not_or] at hc
    rw [List.foldl_cons, ih hc.2, State.modify_cls, if_neg hc.1]

theorem foldl_modify_frame (s : State) (l : List ℕ) (f : ℕ → Class → Class) :
    (l.foldl (fun s d => s.modify d (f d)) s).threads = s.threads ∧
      (l.foldl (fun s d => s.modify d (f d)) s).size = s.size ∧
      (l.foldl (fun s d => s.modify d (f d)) s).nextTypeVersion = s.nextTypeVersion := by
  induction l generalizing s with
  | nil => exact ⟨rfl, rfl, rfl⟩
  | cons d l ih => exact ih (s.modify d (f d))

end Folds

section Bumped

variable {env : Env} {s s₁ s' : State} {log : List Record} {c : ℕ}

/-- What comes before a bump: dicts, MROs and links may change. -/
structure Mutates (s s₁ : State) : Prop where
  threads : s₁.threads = s.threads
  size : s₁.size = s.size
  next : s₁.nextTypeVersion = s.nextTypeVersion
  alive : ∀ d, s₁.isAlive d = s.isAlive d
  version : ∀ d, (s₁.cls d).attrVersion = (s.cls d).attrVersion
  memo : ∀ d, (s₁.cls d).dunderMemo = (s.cls d).dunderMemo
  linked : s₁.Linked
  within : ∀ d, ∀ o ∈ (s₁.cls d).mro, o < s₁.size

theorem State.Bumps.sameView (h : Bumps s₁ s') (hv : SameView s s₁ c) : SameView s s' c := by
  refine ⟨by rw [h.cls]; exact hv.1, fun o ho => ?_⟩
  rw [h.cls]
  exact hv.2 o ho

/-- A mutation and the bump that follows it. -/
theorem Sound.bumped (h : Sound env s log) (hm : Mutates s s₁) (hb : s₁.bumpAttrVersion c = some s')
    (hseen : ∀ d, s.isAlive d → ¬SameView s s₁ d → s₁.Reaches c d) (hbound : s'.nextTypeVersion ≤ 2 ^ 56)
    (hshort : ∀ d < s'.size, (s'.cls d).mro.length < 2 ^ 32) : Sound env s' log := by
  have hbelow : s₁.Below := fun d => by
    rw [hm.version, hm.next]
    exact h.below d
  obtain ⟨hbumps, hreached⟩ := bumpAttrVersion_bumps hbelow hm.linked hb
  have hnext : s.nextTypeVersion ≤ s'.nextTypeVersion := hm.next ▸ hbumps.next
  have halive (d : ℕ) : s'.isAlive d = s.isAlive d := by
    unfold State.isAlive
    rw [hbumps.cls]
    exact hm.alive d
  have hmemo (d : ℕ) : (s'.cls d).dunderMemo = (s.cls d).dunderMemo := by
    rw [hbumps.cls]
    exact hm.memo d
  have hsize : s'.size = s.size := hbumps.size.trans hm.size
  have hthreads : s'.threads = s.threads := hbumps.threads.trans hm.threads
  have hversion (d : ℕ) :
      (s'.cls d).attrVersion = (s.cls d).attrVersion ∨ s.nextTypeVersion ≤ (s'.cls d).attrVersion := by
    rw [← hm.version, ← hm.next]
    exact hbumps.version d
  have hview (d : ℕ) (hd : s'.isAlive d) : SameView s s' d ∨ s.nextTypeVersion ≤ (s'.cls d).attrVersion := by
    by_cases hsame : SameView s s₁ d
    · exact .inl (hbumps.sameView hsame)
    · rw [halive] at hd
      exact .inr (hm.next ▸ hreached d (hseen d hd hsame))
  refine ⟨hbumps.below, hbumps.linked hm.linked, hbound, fun d e hd he heq => ?_, fun d hd => ?_, fun d o ho => ?_, hshort,
    fun t table i n hs hn => ?_, fun t memo i n hs hn => ?_, fun d dn hd hv => ?_, fun r hr => ?_⟩
  · by_contra hne
    obtain ⟨hd', he'⟩ := hbumps.fresh d e hne heq
    rw [hd', he', hm.version, hm.version] at heq
    rw [hsize] at hd he
    exact hne (h.unique d e hd he heq)
  · rw [hsize]
    exact h.born d (by rwa [← halive])
  · rw [hbumps.cls] at ho
    rw [hbumps.size]
    exact hm.within d o ho
  · rw [hthreads] at hs
    refine (h.entries t table i n hs hn).imp_left fun hcur => ⟨hcur.ver.trans_le hnext, fun d hd heq => ?_⟩
    have hver := hcur.ver
    rcases hview d hd with hsame | hfresh
    · rcases hversion d with hold | hfresh
      · exact hsame.answers.mpr (hcur.answers d (by rwa [← halive]) (hold.symm.trans heq))
      · omega
    · omega
  · rw [hthreads] at hs
    exact h.hashes t memo i n hs hn
  · rw [hmemo] at hv ⊢
    obtain ⟨hlt, hinfo⟩ := h.memos d dn (by rwa [← halive]) hv
    refine ⟨hlt.trans_le hnext, fun heq => ?_⟩
    rcases hview d hd with hsame | hfresh
    · rcases hversion d with hold | hfresh
      · rw [hsame.resolve_eq]
        exact hinfo (heq.trans hold)
      · omega
    · omega
  · obtain ⟨hlt, hcls⟩ := h.log r hr
    refine ⟨hlt.trans_le hnext, fun d hd heq => ?_⟩
    rw [hsize] at hd
    rcases hversion d with hold | hfresh
    · exact hcls d hd (hold.symm.trans heq)
    · omega

theorem Sound.mutates_modify {f : Class → Class} (h : Sound env s log) (halive : ∀ ty, (f ty).alive = ty.alive)
    (hversion : ∀ ty, (f ty).attrVersion = ty.attrVersion) (hmemo : ∀ ty, (f ty).dunderMemo = ty.dunderMemo)
    (hlinks : ∀ ty, (f ty).subclasses = ty.subclasses) (hwithin : ∀ o ∈ (f (s.cls c)).mro, o < s.size) :
    Mutates s (s.modify c f) ∧ (s.modify c f).Reaches = s.Reaches := by
  have keeps {β : Type} (π : Class → β) (hπ : ∀ ty, π (f ty) = π ty) (d : ℕ) :
      π ((s.modify c f).cls d) = π (s.cls d) := by
    rw [State.modify_cls]
    split_ifs with hdc
    · rw [hπ, hdc]
    · rfl
  have hlive : (s.modify c f).liveSubclasses = s.liveSubclasses :=
    funext fun d => State.liveSubclasses_congr (funext (keeps Class.alive halive)) (keeps Class.subclasses hlinks d)
  refine ⟨⟨rfl, rfl, rfl, keeps Class.alive halive, keeps Class.attrVersion hversion,
    keeps Class.dunderMemo hmemo, fun d hd => ?_, fun d o ho => ?_⟩, ?_⟩
  · rw [keeps Class.subclasses hlinks]
    exact h.linked d hd
  · rw [State.modify_cls] at ho
    split_ifs at ho
    · exact hwithin o ho
    · exact h.within d o ho
  · unfold State.Reaches
    rw [hlive]

/-- A class-dict mutation. -/
theorem Sound.mutateDict {f : Dict → Dict} (h : Sound env s log)
    (hb : (s.modify c fun ty => { ty with dict := f ty.dict }).bumpAttrVersion c = some s')
    (hseen : ∀ d, s.isAlive d → c ∈ (s.cls d).mro → s.Reaches c d) (hbound : s'.nextTypeVersion ≤ 2 ^ 56)
    (hshort : ∀ d < s'.size, (s'.cls d).mro.length < 2 ^ 32) : Sound env s' log := by
  obtain ⟨hm, hreach⟩ := h.mutates_modify (c := c) (f := fun ty => { ty with dict := f ty.dict })
    (fun _ => rfl) (fun _ => rfl) (fun _ => rfl) (fun _ => rfl) (h.within c)
  refine h.bumped hm hb (fun d hd hview => ?_) hbound hshort
  rw [hreach]
  apply hseen d hd
  by_contra hnot
  apply hview
  refine ⟨?_, fun o ho => ?_⟩
  · rw [State.modify_cls]
    split_ifs with hdc
    · rw [hdc]
    · rfl
  · rw [State.modify_cls, if_neg]
    · exact ⟨rfl, rfl⟩
    · rintro rfl
      exact hnot ho

theorem Sound.setMro {mro : List ℕ} (h : Sound env s log) (hmro : ∀ o ∈ mro, s.isAlive o)
    (hb : (s.modify c fun ty => { ty with mro := mro }).bumpAttrVersion c = some s')
    (hbound : s'.nextTypeVersion ≤ 2 ^ 56) (hshort : ∀ d < s'.size, (s'.cls d).mro.length < 2 ^ 32) : Sound env s' log := by
  obtain ⟨hm, hreach⟩ := h.mutates_modify (c := c) (f := fun ty => { ty with mro := mro })
    (fun _ => rfl) (fun _ => rfl) (fun _ => rfl) (fun _ => rfl) fun o ho => h.born o (hmro o ho)
  refine h.bumped hm hb (fun d hd hview => ?_) hbound hshort
  by_cases hdc : d = c
  · rw [hdc]
    exact .refl
  · refine absurd ⟨?_, fun o _ => ?_⟩ hview
    · rw [State.modify_cls, if_neg hdc]
    · rw [State.modify_cls]
      split_ifs with hoc
      · rw [hoc]
        exact ⟨rfl, rfl⟩
      · exact ⟨rfl, rfl⟩

theorem Sound.bump (h : Sound env s log) (hb : s.bumpAttrVersion c = some s')
    (hbound : s'.nextTypeVersion ≤ 2 ^ 56) (hshort : ∀ d < s'.size, (s'.cls d).mro.length < 2 ^ 32) : Sound env s' log :=
  h.bumped ⟨rfl, rfl, rfl, fun _ => rfl, fun _ => rfl, fun _ => rfl, h.linked, h.within⟩ hb
    (fun _ _ hview => absurd ⟨rfl, fun _ _ => ⟨rfl, rfl⟩⟩ hview) hbound hshort

end Bumped

section Bases

variable {env : Env} {s s' : State} {log : List Record} {c d : ℕ} {bases : List ℕ} {mroOf : ℕ → List ℕ}

theorem mem_of_mem_foldl_new {l found : List ℕ}
    (h : d ∈ l.foldl (fun found e => if e ∈ found then found else found ++ [e]) found) : d ∈ found ∨ d ∈ l := by
  induction l generalizing found with
  | nil => exact .inl h
  | cons e l ih =>
    rcases ih h with h | h
    · dsimp only at h
      split_ifs at h
      · exact .inl h
      · rcases List.mem_append.mp h with h | h
        · exact .inl h
        · exact .inr (by simp_all)
    · exact .inr (List.mem_cons_of_mem _ h)

theorem affected_reached {n i : ℕ} {found : List ℕ} (hfound : ∀ x ∈ found, s.Reaches c x)
    (hd : d ∈ s.affected n i found) : s.Reaches c d := by
  induction n generalizing i found with
  | zero => exact hfound d hd
  | succ n ih =>
    rw [State.affected] at hd
    split at hd
    · exact hfound d hd
    · rename_i t ht
      refine ih (fun x hx => ?_) hd
      rcases mem_of_mem_foldl_new hx with hx | hx
      · exact hfound x hx
      · exact (hfound t (List.mem_of_getElem? ht)).tail hx

theorem rebased_keeps {β : Type} (π : Class → β) (hbases : ∀ ty b, π { ty with bases := b } = π ty)
    (hmro : ∀ ty m, π { ty with mro := m } = π ty) (hsub : ∀ ty l, π { ty with subclasses := l } = π ty) :
    π ((rebased s c bases mroOf).cls d) = π (s.cls d) := by
  unfold rebased
  dsimp only
  rw [foldl_modify_keeps π (f := fun _ ty => { ty with subclasses := ty.subclasses ++ [c] }) fun _ ty => hsub ty _]
  rw [foldl_modify_keeps π
    (f := fun _ ty => { ty with subclasses := ty.subclasses.filter fun d => !s.isAlive d || d ≠ c }) fun _ ty => hsub ty _]
  rw [foldl_modify_keeps π (f := fun d ty => { ty with mro := mroOf d }) fun d ty => hmro ty _, State.modify_cls]
  split_ifs with hdc
  · rw [hbases, hdc]
  · rfl

theorem rebased_frame (s : State) (c : ℕ) (bases : List ℕ) (mroOf : ℕ → List ℕ) :
    (rebased s c bases mroOf).threads = s.threads ∧ (rebased s c bases mroOf).size = s.size ∧
    (rebased s c bases mroOf).nextTypeVersion = s.nextTypeVersion := by
  unfold rebased
  dsimp only
  obtain ⟨h₁, h₂, h₃⟩ := foldl_modify_frame (s.modify c fun ty => { ty with bases := bases })
    (s.affected (s.size + 1) 0 [c]) fun d ty => { ty with mro := mroOf d }
  obtain ⟨h₄, h₅, h₆⟩ := foldl_modify_frame _ (s.cls c).bases
    fun _ ty => { ty with subclasses := ty.subclasses.filter fun d => !s.isAlive d || d ≠ c }
  obtain ⟨h₇, h₈, h₉⟩ := foldl_modify_frame _ bases fun _ ty => { ty with subclasses := ty.subclasses ++ [c] }
  exact ⟨h₇.trans (h₄.trans h₁), h₈.trans (h₅.trans h₂), h₉.trans (h₆.trans h₃)⟩

/-- Only links to the class itself go. -/
theorem rebased_link {e : ℕ} (he : e ∈ (s.cls d).subclasses) (hne : e ≠ c) :
    e ∈ ((rebased s c bases mroOf).cls d).subclasses := by
  unfold rebased
  dsimp only
  refine foldl_modify_inv (fun ty => e ∈ ty.subclasses) (fun _ ty h => List.mem_append_left _ h) ?_
  refine foldl_modify_inv (fun ty => e ∈ ty.subclasses) (fun _ ty h => List.mem_filter.mpr ⟨h, by simp [hne]⟩) ?_
  refine foldl_modify_inv (fun ty => e ∈ ty.subclasses) (fun _ ty h => h) ?_
  rw [State.modify_cls]
  split_ifs with hdc
  · rwa [← hdc]
  · exact he

theorem rebased_linked (h : Sound env s log) (hbases : ∀ b ∈ bases, s.isAlive b) : (rebased s c bases mroOf).Linked := by
  intro d hd
  rw [(rebased_frame s c bases mroOf).2.1] at hd
  unfold rebased
  dsimp only
  rw [foldl_modify_of_not_mem fun hmem => absurd (h.born d (hbases d hmem)) (by omega)]
  refine foldl_modify_inv (fun ty => ty.subclasses = []) (fun _ ty h => by simp [h]) ?_
  refine foldl_modify_inv (fun ty => ty.subclasses = []) (fun _ ty h => h) ?_
  rw [State.modify_cls]
  split_ifs with hdc
  · rw [← hdc]
    exact h.linked d hd
  · exact h.linked d hd

theorem rebased_reaches (hreach : s.Reaches c d) : (rebased s c bases mroOf).Reaches c d := by
  have halive : (rebased s c bases mroOf).isAlive = s.isAlive :=
    funext fun _ => rebased_keeps Class.alive (fun _ _ => rfl) (fun _ _ => rfl) fun _ _ => rfl
  induction hreach with
  | refl => exact .refl
  | @tail d e _ hlink ih =>
    by_cases hec : e = c
    · rw [hec]
      exact .refl
    · obtain ⟨hmem, hlive⟩ := List.mem_filter.mp hlink
      exact ih.tail (List.mem_filter.mpr ⟨rebased_link hmem hec, by rwa [halive]⟩)

theorem rebased_mutates (h : Sound env s log) (hbases : ∀ b ∈ bases, s.isAlive b)
    (hmro : ∀ d, ∀ o ∈ mroOf d, s.isAlive o) : Mutates s (rebased s c bases mroOf) := by
  obtain ⟨hthreads, hsize, hnext⟩ := rebased_frame s c bases mroOf
  refine ⟨hthreads, hsize, hnext, fun d => ?_, fun d => ?_, fun d => ?_, rebased_linked h hbases, fun d => ?_⟩
  · exact rebased_keeps Class.alive (fun _ _ => rfl) (fun _ _ => rfl) fun _ _ => rfl
  · exact rebased_keeps Class.attrVersion (fun _ _ => rfl) (fun _ _ => rfl) fun _ _ => rfl
  · exact rebased_keeps Class.dunderMemo (fun _ _ => rfl) (fun _ _ => rfl) fun _ _ => rfl
  · rw [hsize]
    unfold rebased
    dsimp only
    refine foldl_modify_inv (fun ty => ∀ o ∈ ty.mro, o < s.size) (fun _ _ h => h) ?_
    refine foldl_modify_inv (fun ty => ∀ o ∈ ty.mro, o < s.size) (fun _ _ h => h) ?_
    refine foldl_modify_inv (fun ty => ∀ o ∈ ty.mro, o < s.size) (fun e _ _ o ho => h.born o (hmro e o ho)) ?_
    rw [State.modify_cls]
    split_ifs with hdc
    · exact h.within c
    · exact h.within d

theorem rebased_sameView (hd : d ∉ s.affected (s.size + 1) 0 [c]) : SameView s (rebased s c bases mroOf) d := by
  refine ⟨?_, fun o _ => ⟨?_, ?_⟩⟩
  · unfold rebased
    dsimp only
    refine foldl_modify_inv (fun ty => ty.mro = (s.cls d).mro) (fun _ _ h => h) ?_
    refine foldl_modify_inv (fun ty => ty.mro = (s.cls d).mro) (fun _ _ h => h) ?_
    rw [foldl_modify_of_not_mem hd, State.modify_cls]
    split_ifs with hdc
    · rw [hdc]
    · rfl
  · exact rebased_keeps Class.dict (fun _ _ => rfl) (fun _ _ => rfl) fun _ _ => rfl
  · exact rebased_keeps Class.isBuiltin (fun _ _ => rfl) (fun _ _ => rfl) fun _ _ => rfl

/-- The classes whose MRO is recomputed are among those the bump reaches. -/
theorem Sound.setBases (h : Sound env s log) (hbases : ∀ b ∈ bases, s.isAlive b)
    (hmro : ∀ d, ∀ o ∈ mroOf d, s.isAlive o)
    (hb : s.setBases c bases mroOf = some s') (hbound : s'.nextTypeVersion ≤ 2 ^ 56)
    (hshort : ∀ d < s'.size, (s'.cls d).mro.length < 2 ^ 32) : Sound env s' log := by
  refine h.bumped (rebased_mutates h hbases hmro) hb (fun d _ hview => rebased_reaches ?_) hbound hshort
  refine @affected_reached s c d (s.size + 1) 0 [c] (fun x hx => ?_) ?_
  · rw [List.mem_singleton.mp hx]
    exact .refl
  · by_contra hnot
    exact hview (rebased_sameView hnot)

end Bases

section Births

variable {env : Env} {s s' : State} {log : List Record} {c addr : ℕ} {isBuiltin : Bool} {dict : Dict}
  {bases mro : List ℕ}

theorem newClass_eq (h : s.newClass addr isBuiltin dict bases mro = some s') :
    ∃ s₁ : State, s' = bases.foldl (fun s' b => s'.modify b fun ty => { ty with subclasses := ty.subclasses ++ [s.size] }) s₁ ∧
      s₁.cls = update s.cls s.size ⟨addr, true, isBuiltin, dict, bases, mro, [], s.nextTypeVersion, fun _ => 0⟩ ∧
      s₁.size = s.size + 1 ∧ s₁.nextTypeVersion = s.nextTypeVersion + 1 ∧ s₁.threads = s.threads := by
  obtain ⟨⟨v, next⟩, hv, rfl⟩ := Option.map_eq_some_iff.mp h
  unfold allocateTypeVersion at hv
  split_ifs at hv
  cases hv
  exact ⟨_, rfl, rfl, rfl, rfl, rfl⟩

/-- A class is born at a version no cache has seen. -/
theorem Sound.newClass (h : Sound env s log) (hbases : ∀ b ∈ bases, s.isAlive b)
    (hmro : ∀ o ∈ mro, o = s.size ∨ s.isAlive o) (hnew : s.newClass addr isBuiltin dict bases mro = some s')
    (hbound : s'.nextTypeVersion ≤ 2 ^ 56) (hshort : ∀ d < s'.size, (s'.cls d).mro.length < 2 ^ 32) : Sound env s' log := by
  obtain ⟨s₁, rfl, hcls, hsize, hnext, hthreads⟩ := newClass_eq hnew
  obtain ⟨hthreads', hsize', hnext'⟩ := foldl_modify_frame s₁ bases
    fun _ ty => { ty with subclasses := ty.subclasses ++ [s.size] }
  set s' := bases.foldl (fun s' b => s'.modify b fun ty => { ty with subclasses := ty.subclasses ++ [s.size] }) s₁ with hs'
  have keeps {β : Type} (π : Class → β) (hπ : ∀ ty l, π { ty with subclasses := l } = π ty) (d : ℕ) :
      π (s'.cls d) = π (s₁.cls d) := foldl_modify_keeps π (fun _ ty => hπ ty _) s₁ bases d
  have hold (d : ℕ) (hd : d ≠ s.size) : s₁.cls d = s.cls d := by rw [hcls, update_of_ne hd]
  have hborn : s₁.cls s.size = ⟨addr, true, isBuiltin, dict, bases, mro, [], s.nextTypeVersion, fun _ => 0⟩ := by
    rw [hcls, update_self]
  have hversion (d : ℕ) : (s'.cls d).attrVersion = if d = s.size then s.nextTypeVersion else (s.cls d).attrVersion := by
    rw [keeps Class.attrVersion fun _ _ => rfl]
    split_ifs with hd
    · rw [hd, hborn]
    · rw [hold d hd]
  have halive (d : ℕ) (hd : d ≠ s.size) : s'.isAlive d = s.isAlive d := by
    unfold State.isAlive
    rw [keeps Class.alive fun _ _ => rfl, hold d hd]
  have hview (d : ℕ) (hd : d ≠ s.size) : SameView s s' d := by
    refine ⟨by rw [keeps Class.mro fun _ _ => rfl, hold d hd], fun o ho => ?_⟩
    have ho := (h.within d o ho).ne
    exact ⟨by rw [keeps Class.dict fun _ _ => rfl, hold o ho], by rw [keeps Class.isBuiltin fun _ _ => rfl, hold o ho]⟩
  rw [hsize] at hsize'
  rw [hnext] at hnext'
  rw [hthreads] at hthreads'
  refine ⟨fun d => ?_, fun d hd => ?_, hbound, fun d e hd he heq => ?_, fun d hd => ?_, fun d o ho => ?_, hshort,
    fun t table i n hs hn => ?_, fun t memo i n hs hn => ?_, fun d dn hd hv => ?_, fun r hr => ?_⟩
  · have := h.below d
    rw [hversion, hnext']
    split_ifs <;> omega
  · rw [hsize'] at hd
    rw [hs', foldl_modify_of_not_mem fun hmem => absurd (h.born d (hbases d hmem)) (by omega), hold d (by omega)]
    exact h.linked d (by omega)
  · have hdb := h.below d
    have heb := h.below e
    rw [hversion, hversion] at heq
    split_ifs at heq with hds hes hes
    · rw [hds, hes]
    · omega
    · omega
    · exact h.unique d e (by omega) (by omega) heq
  · by_cases hds : d = s.size
    · omega
    · have := h.born d (by rwa [← halive d hds])
      omega
  · rw [keeps Class.mro fun _ _ => rfl] at ho
    rw [hsize']
    by_cases hds : d = s.size
    · rw [hds, hborn] at ho
      rcases hmro o ho with rfl | ho
      · omega
      · have := h.born o ho
        omega
    · rw [hold d hds] at ho
      have := h.within d o ho
      omega
  · rw [hthreads'] at hs
    refine (h.entries t table i n hs hn).imp_left fun hcur => ⟨by have := hcur.ver; omega, fun d hd heq => ?_⟩
    have hver := hcur.ver
    rw [hversion] at heq
    split_ifs at heq with hds
    · omega
    · exact (hview d hds).answers.mpr (hcur.answers d (by rwa [← halive d hds]) heq)
  · rw [hthreads'] at hs
    exact h.hashes t memo i n hs hn
  · rw [keeps Class.dunderMemo fun _ _ => rfl] at hv ⊢
    by_cases hds : d = s.size
    · rw [hds, hborn] at hv
      simp at hv
    · rw [hold d hds] at hv ⊢
      obtain ⟨hlt, hinfo⟩ := h.memos d dn (by rwa [← halive d hds]) hv
      rw [(hview d hds).resolve_eq, hversion, if_neg hds]
      exact ⟨by omega, hinfo⟩
  · obtain ⟨hlt, hclass⟩ := h.log r hr
    refine ⟨by omega, fun d hd heq => ?_⟩
    rw [hversion] at heq
    split_ifs at heq with hds
    · omega
    · exact hclass d (by omega) heq

theorem Sound.die (h : Sound env s log) : Sound env (s.modify c fun ty => { ty with alive := false }) log := by
  have hclass (d : ℕ) : (s.modify c fun ty => { ty with alive := false }).cls d =
      { s.cls d with alive := s.isAlive d && d ≠ c } := by
    rw [State.modify_cls]
    split_ifs with hdc
    · simp [hdc]
    · simp [hdc, State.isAlive]
  have halive (d : ℕ) (hd : (s.modify c fun ty => { ty with alive := false }).isAlive d) : s.isAlive d := by
    unfold State.isAlive at hd
    rw [hclass] at hd
    exact (Bool.and_eq_true_iff.mp hd).1
  have hview (d : ℕ) : SameView s (s.modify c fun ty => { ty with alive := false }) d :=
    ⟨by rw [hclass], fun o _ => ⟨by rw [hclass], by rw [hclass]⟩⟩
  refine ⟨fun d => ?_, fun d hd => ?_, h.bound, fun d e hd he heq => ?_, fun d hd => h.born d (halive d hd), fun d => ?_,
    fun d hd => ?_, fun t table i n hs hn => ?_, h.hashes, fun d dn hd hv => ?_, fun r hr => ?_⟩
  · rw [hclass]
    exact h.below d
  · rw [hclass]
    exact h.linked d hd
  · rw [hclass, hclass] at heq
    exact h.unique d e hd he heq
  · rw [hclass]
    exact h.within d
  · rw [hclass]
    exact h.short d hd
  · refine (h.entries t table i n hs hn).imp_left fun hcur => ⟨hcur.ver, fun d hd heq => ?_⟩
    rw [hclass] at heq
    exact (hview d).answers.mpr (hcur.answers d (halive d hd) heq)
  · rw [(hview d).resolve_eq]
    rw [hclass] at hv ⊢
    exact h.memos d dn (halive d hd) hv
  · obtain ⟨hlt, hcls⟩ := h.log r hr
    refine ⟨hlt, fun d hd heq => ?_⟩
    rw [hclass] at heq
    exact hcls d hd heq

end Births

end WeavePy.TypeCache
