import WeavePy.TypeCache.Bumping

/-!
What the caches hold while every mutation reaches the classes that see it, and the answers this gives.
-/

namespace WeavePy.TypeCache

open Function

section Dicts

variable {env : Env} {d : Dict} {name : Name} {hash : ℤ} {i j : ℕ} {v v' : Object}

theorem Dict.getElem?_getFull (h : d.getFull env name hash = some (i, v)) : ∃ k, d[i]? = some (k, v) := by
  obtain ⟨j, -, h⟩ := Option.bind_eq_some_iff.mp h
  obtain ⟨⟨k, w⟩, hj, heq⟩ := Option.map_eq_some_iff.mp h
  cases heq
  exact ⟨k, hj⟩

/-- No entry before the one found has the name as its key. -/
theorem Dict.getFull_first (h : d.getFull env name (env.pyStrHash name) = some (i, v)) (hj : j ≤ i)
    (hkey : d[j]? = some (.str name, v')) : j = i ∧ v' = v := by
  obtain ⟨k, hfind, h⟩ := Option.bind_eq_some_iff.mp h
  obtain ⟨e, hk, heq⟩ := Option.map_eq_some_iff.mp h
  cases heq
  obtain ⟨hlt, -, hbefore⟩ := List.findIdx?_eq_some_iff_getElem.mp hfind
  obtain ⟨hjlt, hjkey⟩ := List.getElem?_eq_some_iff.mp hkey
  have hij : j = i := by
    by_contra hne
    have := hbefore j (by omega)
    rw [hjkey] at this
    simp [Key.hash, Key.eqName] at this
  subst hij
  rw [hkey] at hk
  cases hk
  exact ⟨rfl, rfl⟩

end Dicts

section Walks

variable {env : Env} {s : State} {name : Name} {hash : ℤ} {c i k dictIdx : ℕ} {mro : List ℕ} {v : Object}

def State.walk (env : Env) (s : State) (c : ℕ) (name : Name) : Option (ℕ × ℕ × Object) :=
  s.walkFrom env name (env.pyStrHash name) 0 (s.cls c).mro

theorem walkFrom_found (h : s.walkFrom env name hash k mro = some (i, dictIdx, v)) :
    ∃ j o, i = k + j ∧ mro[j]? = some o ∧ (s.cls o).dict.getFull env name hash = some (dictIdx, v) := by
  induction mro generalizing k with
  | nil => simp [State.walkFrom] at h
  | cons o mro ih =>
    have skip (h : s.walkFrom env name hash (k + 1) mro = some (i, dictIdx, v)) :
        ∃ j p, i = k + j ∧ (o :: mro)[j]? = some p ∧ (s.cls p).dict.getFull env name hash = some (dictIdx, v) := by
      obtain ⟨j, p, hj, hp, hfull⟩ := ih h
      exact ⟨j + 1, p, by omega, by rwa [List.getElem?_cons_succ], hfull⟩
    rw [State.walkFrom] at h
    split at h
    · split_ifs at h
      · exact skip h
      · cases h
        exact ⟨0, o, rfl, rfl, by assumption⟩
    · exact skip h

theorem mroWalk_eq : s.mroWalk env name mro =
    (s.walkFrom env name (env.pyStrHash name) k mro).bind fun (i, _, v) => mro[i - k]?.map fun o => (v, o) := by
  induction mro generalizing k with
  | nil => rfl
  | cons o mro ih =>
    have skip : s.mroWalk env name mro = (s.walkFrom env name (env.pyStrHash name) (k + 1) mro).bind
        fun (i, _, v) => (o :: mro)[i - k]?.map fun o => (v, o) := by
      rw [ih (k := k + 1)]
      apply Option.bind_congr
      rintro ⟨i, dictIdx, v⟩ hwalk
      obtain ⟨j, p, rfl, -, -⟩ := walkFrom_found hwalk
      dsimp only
      rw [show k + 1 + j - k = j + 1 by omega, show k + 1 + j - (k + 1) = j by omega, List.getElem?_cons_succ]
    rw [State.mroWalk, State.walkFrom, Dict.get]
    cases (s.cls o).dict.getFull env name (env.pyStrHash name) with
    | none => exact skip
    | some found =>
      dsimp only [Option.map_some]
      split_ifs
      · exact skip
      · simp

theorem uncached_eq : s.uncached env c name =
    (s.walk env c name).bind fun (i, _, v) => (s.cls c).mro[i]?.map fun o => (v, o) :=
  mroWalk_eq

theorem walk_lt (h : s.walk env c name = some (i, dictIdx, v)) : i < (s.cls c).mro.length := by
  obtain ⟨j, o, hj, ho, -⟩ := walkFrom_found h
  rw [hj, Nat.zero_add]
  exact (List.getElem?_eq_some_iff.mp ho).1

end Walks

/-- A verdict computed or observed for one class at one version. -/
structure Record where
  cls : ℕ
  version : ℕ
  family : Verdict
  name : Name
  verdict : Bool

/-- The entry says where the walk ends. -/
def Entry.Answers (env : Env) (s : State) (c : ℕ) (name : Name) (e : Entry) : Prop :=
  match s.walk env c name with
  | none => e.mroIdx = ABSENT
  | some (i, dictIdx, _) => i < ABSENT ∧ e.mroIdx = i ∧ e.dictIdx = dictIdx % 2 ^ 32

structure Entry.Current (env : Env) (s : State) (name : Name) (e : Entry) : Prop where
  ver : e.ver < s.nextTypeVersion
  answers : ∀ c, s.isAlive c → (s.cls c).attrVersion = e.ver → e.Answers env s c name

def Entry.Recorded (log : List Record) (name : Name) (e : Entry) : Prop :=
  ∃ r ∈ log, e.ver = r.version ||| r.family.code <<< 56 ∧ r.name = name ∧ (e.mroIdx = ABSENT ↔ r.verdict = true)

structure Sound (env : Env) (s : State) (log : List Record) : Prop where
  below : s.Below
  linked : s.Linked
  bound : s.nextTypeVersion ≤ 2 ^ 56
  unique : ∀ c d, c < s.size → d < s.size → (s.cls c).attrVersion = (s.cls d).attrVersion → c = d
  born : ∀ c, s.isAlive c → c < s.size
  within : ∀ c, ∀ o ∈ (s.cls c).mro, o < s.size
  short : ∀ c < s.size, (s.cls c).mro.length < 2 ^ 32
  entries : ∀ t table i n, (s.threads t).table = some table → (table i).name = some n →
    (table i).Current env s n ∨ (table i).Recorded log n
  hashes : ∀ t memo i n, (s.threads t).hashMemo = some memo → (memo i).name = some n →
    (memo i).hash = env.pyStrHash n
  memos : ∀ c d, s.isAlive c → (s.cls c).dunderMemo d &&& State.VALID ≠ 0 →
    (s.cls c).dunderMemo d >>> 8 < s.nextTypeVersion ∧
      ((s.cls c).dunderMemo d >>> 8 = (s.cls c).attrVersion →
        (s.cls c).dunderMemo d % 2 ^ 8 = s.resolve env (s.uncached env c d.name))
  log : ∀ r ∈ log, r.version < s.nextTypeVersion ∧ ∀ c < s.size, (s.cls c).attrVersion = r.version → c = r.cls

section Families

theorem Verdict.code_pos (f : Verdict) : 0 < f.code := by
  cases f <;> decide

theorem Verdict.code_inj {f g : Verdict} (h : f.code = g.code) : f = g := by
  cases f <;> cases g <;> first | rfl | exact absurd h (by decide)

/-- A family's versions lie above every real one, and tell the version and the family apart. -/
theorem tagged_eq {v : ℕ} (hv : v < 2 ^ 56) (f : Verdict) : v ||| f.code <<< 56 = v + f.code * 2 ^ 56 := by
  rw [Nat.or_comm, ← Nat.shiftLeft_add_eq_or_of_lt hv, Nat.shiftLeft_eq, Nat.add_comm]

theorem tagged_ge {v : ℕ} (hv : v < 2 ^ 56) (f : Verdict) : 2 ^ 56 ≤ v ||| f.code <<< 56 := by
  rw [tagged_eq hv]
  have := f.code_pos
  omega

theorem tagged_inj {v w : ℕ} {f g : Verdict} (hv : v < 2 ^ 56) (hw : w < 2 ^ 56)
    (h : v ||| f.code <<< 56 = w ||| g.code <<< 56) : v = w ∧ f = g := by
  rw [tagged_eq hv, tagged_eq hw] at h
  have hcode : f.code = g.code := by omega
  exact ⟨by rw [hcode] at h; omega, Verdict.code_inj hcode⟩

end Families

section Probes

variable {env : Env} {th : Thread} {ty ver h : ℕ} {name : Name} {hit : Hit}

theorem probe_eq_some (hp : probe th ty ver name h = some hit) : ∃ table i, th.table = some table ∧
    (table i).name = some name ∧ (table i).ver = ver ∧
    hit = if (table i).mroIdx = ABSENT then .absent else .at (table i).mroIdx (table i).dictIdx := by
  unfold probe at hp
  split at hp
  · cases hp
  · rename_i table htable
    obtain ⟨hmatch, hhit⟩ := Option.ite_none_right_eq_some.mp hp
    simp only [Bool.and_eq_true, beq_iff_eq, Option.any_eq_true, nameEq_iff] at hmatch
    obtain ⟨hver, n, hn, rfl⟩ := hmatch
    exact ⟨table, _, htable, hn, hver, (Option.some_inj.mp hhit).symm⟩

theorem pyHashOf_table : (pyHashOf th name h env).1.table = th.table := by
  simp only [pyHashOf]
  split_ifs <;> rfl

theorem pyHashOf_eq (name : Name) (h : ℕ)
    (hm : ∀ memo i n, th.hashMemo = some memo → (memo i).name = some n → (memo i).hash = env.pyStrHash n) :
    (pyHashOf th name h env).2 = env.pyStrHash name ∧
      ∀ memo i n, (pyHashOf th name h env).1.hashMemo = some memo → (memo i).name = some n →
        (memo i).hash = env.pyStrHash n := by
  have hmemo (i : ℕ) (n : Name) (hn : ((th.hashMemo.getD fun _ => ⟨none, 0⟩) i).name = some n) :
      ((th.hashMemo.getD fun _ => ⟨none, 0⟩) i).hash = env.pyStrHash n := by
    cases hth : th.hashMemo with
    | none => rw [hth] at hn; cases hn
    | some memo => rw [hth] at hn; exact hm memo i n hth hn
  simp only [pyHashOf]
  split_ifs with hknown
  · simp only [Option.any_eq_true, nameEq_iff] at hknown
    obtain ⟨n, hn, rfl⟩ := hknown
    refine ⟨hmemo _ _ hn, fun memo i n hs hn => ?_⟩
    cases hs
    exact hmemo i n hn
  · refine ⟨rfl, fun memo i n hs hn => ?_⟩
    cases hs
    rw [update_apply] at hn ⊢
    split_ifs at hn ⊢
    · cases hn
      rfl
    · exact hmemo i n hn

theorem fill_table {table : ℕ → Entry} {i : ℕ} {n : Name} (hs : (fill th ty ver name h hit).table = some table)
    (hn : (table i).name = some n) :
    (n = name ∧ table i = hit.entry name ver) ∨ ∃ table', th.table = some table' ∧ table i = table' i := by
  obtain rfl := Option.some_inj.mp hs
  rw [update_apply] at hn ⊢
  split_ifs at hn ⊢
  · cases hit <;> cases hn <;> exact .inl ⟨rfl, rfl⟩
  · cases hth : th.table with
    | none => rw [hth] at hn; cases hn
    | some table => exact .inr ⟨table, rfl, rfl⟩

end Probes

section Views

variable {env : Env} {s s' : State} {log : List Record} {c t : ℕ} {th : Thread} {name : Name}

/-- Nothing the class's walk reads differs. -/
def SameView (s s' : State) (c : ℕ) : Prop :=
  (s'.cls c).mro = (s.cls c).mro ∧
    ∀ o ∈ (s.cls c).mro, (s'.cls o).dict = (s.cls o).dict ∧ (s'.cls o).isBuiltin = (s.cls o).isBuiltin

theorem SameView.walk_eq (h : SameView s s' c) : s'.walk env c name = s.walk env c name := by
  obtain ⟨hmro, hview⟩ := h
  have hfrom (k : ℕ) (mro : List ℕ) (hash : ℤ) (hmem : ∀ o ∈ mro, o ∈ (s.cls c).mro) :
      s'.walkFrom env name hash k mro = s.walkFrom env name hash k mro := by
    induction mro generalizing k with
    | nil => rfl
    | cons o mro ih =>
      obtain ⟨hdict, hbuiltin⟩ := hview o (hmem o (by simp))
      rw [State.walkFrom, State.walkFrom, ih _ fun p hp => hmem p (by simp [hp]), hdict, hbuiltin]
  rw [State.walk, State.walk, hmro]
  exact hfrom _ _ _ fun _ ho => ho

theorem SameView.uncached_eq (h : SameView s s' c) : s'.uncached env c name = s.uncached env c name := by
  rw [TypeCache.uncached_eq, TypeCache.uncached_eq, h.walk_eq, h.1]

theorem owner_mem {v : Object} {o : ℕ} (h : s.uncached env c name = some (v, o)) : o ∈ (s.cls c).mro := by
  rw [TypeCache.uncached_eq] at h
  obtain ⟨⟨i, dictIdx, w⟩, -, h⟩ := Option.bind_eq_some_iff.mp h
  obtain ⟨p, hp, heq⟩ := Option.map_eq_some_iff.mp h
  cases heq
  exact List.mem_of_getElem? hp

theorem SameView.resolve_eq (h : SameView s s' c) :
    s'.resolve env (s'.uncached env c name) = s.resolve env (s.uncached env c name) := by
  rw [h.uncached_eq]
  cases hu : s.uncached env c name with
  | none => rfl
  | some found =>
    simp only [State.resolve, (h.2 _ (owner_mem hu)).2]

theorem SameView.answers {e : Entry} (h : SameView s s' c) : e.Answers env s' c name ↔ e.Answers env s c name := by
  rw [Entry.Answers, Entry.Answers, h.walk_eq]

theorem sameView_setThread : SameView s (s.setThread t th) c := ⟨rfl, fun _ _ => ⟨rfl, rfl⟩⟩

theorem Entry.Recorded.mono {log' : List Record} {e : Entry} (h : e.Recorded log name) (hlog : log ⊆ log') :
    e.Recorded log' name := by
  obtain ⟨r, hr, h⟩ := h
  exact ⟨r, hlog hr, h⟩

/-- A thread's tables change. -/
theorem Sound.setThread {log' : List Record} (h : Sound env s log) (hlog : log ⊆ log')
    (hnew : ∀ r ∈ log', r.version < s.nextTypeVersion ∧ ∀ c < s.size, (s.cls c).attrVersion = r.version → c = r.cls)
    (htable : ∀ table i n, th.table = some table → (table i).name = some n →
      (table i).Current env s n ∨ (table i).Recorded log' n)
    (hhash : ∀ memo i n, th.hashMemo = some memo → (memo i).name = some n → (memo i).hash = env.pyStrHash n) :
    Sound env (s.setThread t th) log' where
  below := h.below
  linked := h.linked
  bound := h.bound
  unique := h.unique
  born := h.born
  within := h.within
  short := h.short
  entries t' table i n hs hn := by
    have hentry : (table i).Current env s n ∨ (table i).Recorded log' n := by
      simp only [State.setThread, update_apply] at hs
      split_ifs at hs
      · exact htable table i n hs hn
      · exact (h.entries t' table i n hs hn).imp_right fun hr => hr.mono hlog
    exact hentry.imp_left fun hc => ⟨hc.ver, fun c ha hv => sameView_setThread.answers.mpr (hc.answers c ha hv)⟩
  hashes t' memo i n hs hn := by
    simp only [State.setThread, update_apply] at hs
    split_ifs at hs
    · exact hhash memo i n hs hn
    · exact h.hashes t' memo i n hs hn
  memos c d ha hv := by
    rw [sameView_setThread.resolve_eq]
    exact h.memos c d ha hv
  log := hnew

end Views

section Lookups

variable {env : Env} {s : State} {log : List Record} {c : ℕ} {name : Name}

/-- The entry a walk leaves behind. -/
theorem walkAndFill_spec (t : ℕ) (name : Name) (h : Sound env s log) (hc : s.isAlive c) :
    (s.walkAndFill env t c name (s.cls c).attrVersion (nameHash name)).2 =
        (s.walk env c name).map (fun (i, _, v) => (v, i)) ∧
      Sound env (s.walkAndFill env t c name (s.cls c).attrVersion (nameHash name)).1 log ∧
      (s.walkAndFill env t c name (s.cls c).attrVersion (nameHash name)).1.cls = s.cls := by
  obtain ⟨hhash, hmemo⟩ := pyHashOf_eq name (nameHash name) fun memo i n => h.hashes t memo i n
  have hkeep (hit : Hit) (hanswers : (hit.entry name (s.cls c).attrVersion).Answers env s c name) :
      Sound env (s.setThread t (fill (pyHashOf (s.threads t) name (nameHash name) env).1 (s.cls c).addr
        (s.cls c).attrVersion name (nameHash name) hit)) log := by
    refine h.setThread (fun _ hr => hr) h.log (fun table i n hs hn => ?_) fun memo i n hs hn => hmemo memo i n hs hn
    rcases fill_table hs hn with ⟨rfl, hentry⟩ | ⟨table', htable', hentry⟩
    · have hver : (hit.entry n (s.cls c).attrVersion).ver = (s.cls c).attrVersion := by cases hit <;> rfl
      rw [hentry]
      refine .inl ⟨by rw [hver]; exact h.below c, fun d ha hd => ?_⟩
      rw [hver] at hd
      rwa [h.unique d c (h.born d ha) (h.born c hc) hd]
    · rw [hentry] at hn ⊢
      rw [pyHashOf_table] at htable'
      exact h.entries t table' i n htable' hn
  unfold State.walkAndFill
  simp only [hhash]
  split
  · rename_i i dictIdx v hwalk
    have hw : s.walk env c name = some (i, dictIdx, v) := hwalk
    have hi := (walk_lt hw).trans_le (Nat.le_of_lt_succ (h.short c (h.born c hc)))
    refine ⟨by rw [hw]; rfl, hkeep _ ?_, rfl⟩
    rw [Entry.Answers, hw]
    exact ⟨hi, Nat.mod_eq_of_lt (hi.trans (by decide)), rfl⟩
  · rename_i hwalk
    have hw : s.walk env c name = none := hwalk
    refine ⟨by rw [hw]; rfl, hkeep _ ?_, rfl⟩
    rw [Entry.Answers, hw]
    rfl

theorem readAt_eq_some {eq : Name → Name → Bool} (heq : ∀ a b, eq a b = true → a = b) {i j : ℕ} {v : Object}
    (h : s.readAt eq c i j name = some v) :
    ∃ o, (s.cls c).mro[i]? = some o ∧ (s.cls o).dict[j]? = some (.str name, v) := by
  obtain ⟨o, ho, h⟩ := Option.bind_eq_some_iff.mp h
  obtain ⟨⟨k, w⟩, hk, h⟩ := Option.bind_eq_some_iff.mp h
  cases k with
  | other o => cases h
  | str n =>
    obtain ⟨hn, hw⟩ := Option.ite_none_right_eq_some.mp h
    cases hw
    exact ⟨o, ho, by rw [hk, heq n name hn]⟩

/-- A lookup through the cache is the walk. -/
theorem lookupCached_spec (t : ℕ) (name : Name) (h : Sound env s log) (hc : s.isAlive c) :
    (s.lookupCached env t c name).2 = (s.walk env c name).map (fun (i, _, v) => (v, i)) ∧
      Sound env (s.lookupCached env t c name).1 log ∧ (s.lookupCached env t c name).1.cls = s.cls := by
  have hfill := walkAndFill_spec t name h hc
  unfold State.lookupCached
  dsimp only
  cases hp : probe (s.threads t) (s.cls c).addr (s.cls c).attrVersion name (nameHash name) with
  | none => exact hfill
  | some hit =>
    obtain ⟨table, i, htable, hn, hver, rfl⟩ := probe_eq_some hp
    have hanswers : (table i).Answers env s c name := by
      rcases h.entries t table i name htable hn with hcur | ⟨r, hr, htag, -⟩
      · exact hcur.answers c hc hver.symm
      · have hlow := (h.below c).trans_le h.bound
        have hhigh := tagged_ge ((h.log r hr).1.trans_le h.bound) r.family
        omega
    simp only [Entry.Answers] at hanswers
    split_ifs with habsent
    · dsimp only
      split at hanswers
      · rename_i hw
        rw [hw]
        exact ⟨rfl, h, rfl⟩
      · omega
    · dsimp only
      split
      · rename_i v hread
        have hkey : ∃ o, (s.cls c).mro[(table i).mroIdx]? = some o ∧
            (s.cls o).dict[(table i).dictIdx]? = some (.str name, v) := by
          rcases Option.or_eq_some_iff.mp hread with hread | ⟨-, hread⟩
          · exact readAt_eq_some (fun a b => (nameEq_iff a b).mp) hread
          · exact readAt_eq_some (fun a b => beq_iff_eq.mp) hread
        split at hanswers
        · exact absurd hanswers habsent
        · rename_i m j w hw
          obtain ⟨-, hm, hj⟩ := hanswers
          obtain ⟨o, ho, hov⟩ := hkey
          obtain ⟨m', p, rfl, hp', hfull⟩ := walkFrom_found hw
          rw [hm, Nat.zero_add, hp'] at ho
          cases ho
          obtain ⟨-, rfl⟩ := Dict.getFull_first hfull (by rw [hj]; exact Nat.mod_le _ _) hov
          rw [hw, hm]
          exact ⟨rfl, h, rfl⟩
      · exact hfill

end Lookups

end WeavePy.TypeCache
