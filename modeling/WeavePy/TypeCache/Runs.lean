import WeavePy.TypeCache.Answers
import WeavePy.TypeCache.Mutations

/-!
The queries answer as the walk does and leave the caches sound.
-/

namespace WeavePy.TypeCache

open Function

variable {env : Env} {s : State} {log : List Record} {c t : ℕ} {name : Name}

theorem lookup_spec (t : ℕ) (name : Name) (h : Sound env s log) (hc : s.isAlive c) :
    (s.lookup env t c name).2 = (s.uncached env c name).map Prod.fst ∧ Sound env (s.lookup env t c name).1 log := by
  obtain ⟨hfound, hs, -⟩ := lookupCached_spec t name h hc
  unfold State.lookup
  split_ifs
  · exact ⟨rfl, h⟩
  · refine ⟨?_, hs⟩
    dsimp only
    rw [hfound, uncached_eq]
    cases hw : s.walk env c name with
    | none => rfl
    | some found =>
      obtain ⟨i, dictIdx, v⟩ := found
      simp [List.getElem?_eq_getElem (walk_lt hw)]

theorem lookupWithOwner_spec (t : ℕ) (name : Name) (h : Sound env s log) (hc : s.isAlive c) :
    (s.lookupWithOwner env t c name).2 = s.uncached env c name ∧ Sound env (s.lookupWithOwner env t c name).1 log ∧
      (s.lookupWithOwner env t c name).1.cls = s.cls := by
  obtain ⟨hfound, hs, hcls⟩ := lookupCached_spec t name h hc
  unfold State.lookupWithOwner
  split_ifs
  · exact ⟨rfl, h, rfl⟩
  · refine ⟨?_, hs, hcls⟩
    dsimp only
    rw [hfound, uncached_eq, hcls]
    cases s.walk env c name <;> rfl

theorem resolve_lt (found : Option (Object × ℕ)) : s.resolve env found < 2 ^ 8 := by
  cases found with
  | none =>
    change State.VALID < 2 ^ 8
    decide
  | some found =>
    obtain ⟨v, owner⟩ := found
    simp only [State.resolve]
    apply Nat.or_lt_two_pow
    · apply Nat.or_lt_two_pow
      · apply Nat.or_lt_two_pow
        · decide
        · cases v <;> dsimp only <;> decide
      · split_ifs <;> decide
    · split_ifs <;> decide

theorem Sound.memoize (h : Sound env s log) (hc : s.isAlive c) (d : Dunder) :
    Sound env (s.modify c fun ty =>
      { ty with dunderMemo := update ty.dunderMemo d
                  ((s.cls c).attrVersion <<< 8 % 2 ^ 64 ||| s.resolve env (s.uncached env c d.name)) }) log := by
  set info := s.resolve env (s.uncached env c d.name) with hinfo
  set s' := s.modify c _ with hs'
  have hlt : info < 2 ^ 8 := resolve_lt _
  have hver := (h.below c).trans_le h.bound
  have hmemo : (s.cls c).attrVersion <<< 8 % 2 ^ 64 ||| info = (s.cls c).attrVersion * 2 ^ 8 + info := by
    rw [Nat.shiftLeft_eq, Nat.mod_eq_of_lt (by omega), ← Nat.shiftLeft_eq, ← Nat.shiftLeft_add_eq_or_of_lt hlt,
      Nat.shiftLeft_eq]
  have hclass (e : ℕ) : s'.cls e = { s.cls e with dunderMemo := (s'.cls e).dunderMemo } := by
    rw [hs', State.modify_cls]
    split_ifs with he
    · rw [he]
    · rfl
  have hview (e : ℕ) : SameView s s' e := by
    refine ⟨by rw [hclass], fun o _ => ⟨by rw [hclass], by rw [hclass]⟩⟩
  have halive (e : ℕ) : s'.isAlive e = s.isAlive e := by
    unfold State.isAlive
    rw [hclass]
  have hversion (e : ℕ) : (s'.cls e).attrVersion = (s.cls e).attrVersion := by rw [hclass]
  refine ⟨fun e => ?_, fun e he => ?_, h.bound, fun e f he hf => ?_, fun e he => ?_, fun e => ?_, fun e he => ?_,
    fun t table i n hs hn => ?_, h.hashes, fun e d' ha hv => ?_, fun r hr => ?_⟩
  · rw [hversion]
    exact h.below e
  · rw [hclass]
    exact h.linked e he
  · rw [hversion, hversion]
    exact h.unique e f he hf
  · exact h.born e (by rwa [halive] at he)
  · rw [hclass]
    exact h.within e
  · rw [hclass]
    exact h.short e he
  · refine (h.entries t table i n hs hn).imp_left fun hcur => ⟨hcur.ver, fun e ha hv => ?_⟩
    exact (hview e).answers.mpr (hcur.answers e (by rwa [halive] at ha) (by rwa [hversion] at hv))
  · rw [(hview e).resolve_eq, hversion]
    rw [halive] at ha
    have hold := h.memos e d' ha
    rw [hs', State.modify_cls] at hv ⊢
    split_ifs at hv ⊢ with hec
    · subst hec
      dsimp only at hv ⊢
      rw [update_apply] at hv ⊢
      split_ifs at hv ⊢ with hd
      · subst hd
        rw [hmemo, Nat.shiftRight_eq_div_pow]
        exact ⟨by have := h.below e; change _ < s.nextTypeVersion; omega, fun _ => by omega⟩
      · exact hold hv
    · exact hold hv
  · obtain ⟨hr', hrest⟩ := h.log r hr
    exact ⟨hr', fun e he hv => hrest e he (by rwa [hversion] at hv)⟩

theorem dunder_spec {d : Dunder} (h : Sound env s log) (hc : s.isAlive c) :
    (s.dunder env t c d).2 = s.resolve env (s.uncached env c d.name) ∧ Sound env (s.dunder env t c d).1 log := by
  obtain ⟨hfound, hs, hcls⟩ := lookupWithOwner_spec t d.name h hc
  unfold State.dunder
  dsimp only
  split_ifs with hmemo
  · exact ⟨(h.memos c d hc hmemo.1).2 hmemo.2, h⟩
  · dsimp only
    have hview : SameView s (s.lookupWithOwner env t c d.name).1 c := by
      refine ⟨by rw [hcls], fun o _ => by rw [hcls]; exact ⟨rfl, rfl⟩⟩
    have hres : (s.lookupWithOwner env t c d.name).1.resolve env (s.uncached env c d.name) =
        s.resolve env (s.uncached env c d.name) := by
      rw [← hview.resolve_eq, hview.uncached_eq]
    have hkeep := hs.memoize (c := c) (by rwa [State.isAlive, hcls]) d
    rw [hview.resolve_eq, hcls] at hkeep
    rw [hfound, hres]
    exact ⟨rfl, hkeep⟩

theorem verdictCached_spec {family : Verdict} {verdict : Bool} (h : Sound env s log) (hc : s.isAlive c)
    (hv : s.verdictCached t c family name = some verdict) :
    ⟨c, (s.cls c).attrVersion, family, name, verdict⟩ ∈ log := by
  obtain ⟨hit, hp, hhit⟩ := Option.map_eq_some_iff.mp hv
  obtain ⟨table, i, htable, hn, hver, rfl⟩ := probe_eq_some hp
  have hlow := (h.below c).trans_le h.bound
  rcases h.entries t table i name htable hn with hcur | ⟨r, hr, htag, hname, hverdict⟩
  · have hhigh := tagged_ge hlow family
    have := hcur.ver.trans_le h.bound
    unfold State.verdictVer at hver
    omega
  · obtain ⟨hrv, hrcls⟩ := h.log r hr
    obtain ⟨hv, hf⟩ := tagged_inj hlow (hrv.trans_le h.bound) (hver.symm.trans htag)
    obtain ⟨cls, version, f, n, b⟩ := r
    dsimp only at hv hf hname hverdict hrcls
    obtain rfl := hrcls c (h.born c hc) hv
    subst hv hf hname
    have hb : verdict = b := by
      rw [← hhit]
      split_ifs with habsent
      · exact (hverdict.mp habsent).symm
      · cases b with
        | false => rfl
        | true => exact absurd (hverdict.mpr rfl) habsent
    rwa [hb]

theorem verdictRecord_sound {family : Verdict} {verdict : Bool} (h : Sound env s log) (hc : s.isAlive c) :
    Sound env (s.verdictRecord t c family name verdict)
      (log ++ [⟨c, (s.cls c).attrVersion, family, name, verdict⟩]) := by
  refine h.setThread (fun r hr => List.mem_append_left _ hr) (fun r hr => ?_) (fun table i n hs hn => ?_)
    fun memo i n hs hn => h.hashes t memo i n hs hn
  · rcases List.mem_append.mp hr with hr | hr
    · exact h.log r hr
    · rw [List.mem_singleton.mp hr]
      exact ⟨h.below c, fun d hd hv => h.unique d c hd (h.born c hc) hv⟩
  · rcases fill_table hs hn with ⟨rfl, hentry⟩ | ⟨table', htable', hentry⟩
    · refine .inr ⟨_, List.mem_append_right _ (List.mem_singleton.mpr rfl), ?_, rfl, ?_⟩
      · rw [hentry]
        cases verdict <;> rfl
      · rw [hentry]
        cases verdict <;> simp [Hit.entry, ABSENT]
    · rw [hentry] at hn ⊢
      exact (h.entries t table' i n htable' hn).imp_right fun hr => hr.mono fun r hr => List.mem_append_left _ hr

end WeavePy.TypeCache

/-!
Runs: as long as every mutation of a class dict happens where the live subclass links lead to every class
with that class in its MRO, no cache ever answers other than the walk would.
-/

namespace WeavePy.TypeCache

open Relation

/-- What the VM ensures of an operation: it names live classes, a class outlives the MROs and bases that
hold it, and no two live classes share an address. -/
def State.Possible (s : State) : Op → Prop
  | .newClass addr _ _ bases mro => (∀ b ∈ bases, s.isAlive b) ∧ (∀ o ∈ mro, o = s.size ∨ s.isAlive o) ∧
      ∀ c < s.size, s.isAlive c → (s.cls c).addr ≠ addr
  | .die c => s.isAlive c ∧ ∀ d < s.size, s.isAlive d → d ≠ c → c ∉ (s.cls d).mro ∧ c ∉ (s.cls d).bases
  | .setAttr c _ _ | .delAttr c _ | .bump c => s.isAlive c
  | .setMro c mro => s.isAlive c ∧ ∀ o ∈ mro, s.isAlive o
  | .setBases c bases mroOf => s.isAlive c ∧ (∀ b ∈ bases, s.isAlive b) ∧ ∀ d, ∀ o ∈ mroOf d, s.isAlive o
  | .lookup _ c _ | .lookupWithOwner _ c _ | .dunder _ c _ | .memoVerdict _ c _ _ _ | .verdictRecord _ c _ _ _ =>
      s.isAlive c
  | .threadExit _ => True

/-- The versions handed out leave the top byte free, and no MRO is too long for an entry. -/
def State.Fits (s : State) : Prop := s.nextTypeVersion ≤ 2 ^ 56 ∧ ∀ c < s.size, (s.cls c).mro.length < 2 ^ 32

/-- Every class that sees the mutated class is reached through its live subclass links. -/
def State.Linking (s : State) : Op → Prop
  | .setAttr c _ _ | .delAttr c _ => ∀ d < s.size, s.isAlive d → c ∈ (s.cls d).mro → s.Reaches c d
  | _ => True

/-- The verdicts an operation computes or observes. -/
def State.recorded (s : State) : Op → List Record
  | .memoVerdict t c family name compute =>
      if s.verdictCached t c family name = none then [⟨c, (s.cls c).attrVersion, family, name, compute⟩] else []
  | .verdictRecord _ c family name verdict => [⟨c, (s.cls c).attrVersion, family, name, verdict⟩]
  | _ => []

/-- The states of the runs whose steps all meet `cond`, with the verdicts recorded on the way. -/
inductive Reachable (env : Env) (cond : State → Op → Prop) : State → List Record → Prop
  | new : Reachable env cond .new []
  | step {s s' : State} {log : List Record} (h : Reachable env cond s log) (op : Op) (hp : s.Possible op)
      (hc : cond s op) (hrun : s.step env op = some s') (hfits : s'.Fits) :
      Reachable env cond s' (log ++ s.recorded op)

/-- Every answer is the walk's, and a cached verdict was recorded for that class, version, family and name. -/
structure Truthful (env : Env) (s : State) (log : List Record) : Prop where
  lookup : ∀ t c name, s.isAlive c → (s.lookup env t c name).2 = (s.uncached env c name).map Prod.fst
  lookupWithOwner : ∀ t c name, s.isAlive c → (s.lookupWithOwner env t c name).2 = s.uncached env c name
  dunder : ∀ t c d, s.isAlive c → (s.dunder env t c d).2 = s.resolve env (s.uncached env c d.name)
  verdictCached : ∀ t c family name verdict, s.isAlive c → s.verdictCached t c family name = some verdict →
    ⟨c, (s.cls c).attrVersion, family, name, verdict⟩ ∈ log
  memoVerdict : ∀ t c family name compute, s.isAlive c → (s.memoVerdict t c family name compute).2 = compute ∨
    ⟨c, (s.cls c).attrVersion, family, name, (s.memoVerdict t c family name compute).2⟩ ∈ log

section Runs

variable {env : Env} {s s' : State} {log : List Record} {op : Op}

theorem Sound.truthful (h : Sound env s log) : Truthful env s log where
  lookup _ _ _ hc := (lookup_spec _ _ h hc).1
  lookupWithOwner _ _ _ hc := (lookupWithOwner_spec _ _ h hc).1
  dunder _ _ _ hc := (dunder_spec h hc).1
  verdictCached _ _ _ _ _ hc hv := verdictCached_spec h hc hv
  memoVerdict t c family name compute hc := by
    unfold State.memoVerdict
    cases hv : s.verdictCached t c family name with
    | none => exact .inl rfl
    | some verdict => exact .inr (verdictCached_spec h hc hv)

theorem sound_new : Sound env .new [] where
  below _ := Nat.zero_lt_one
  linked _ _ := rfl
  bound := by decide
  unique c _ hc := absurd hc (Nat.not_lt_zero c)
  born _ hc := by cases hc
  within _ _ ho := by cases ho
  short c hc := absurd hc (Nat.not_lt_zero c)
  entries _ _ _ _ hs := by cases hs
  hashes _ _ _ _ hs := by cases hs
  memos _ _ hc := by cases hc
  log _ hr := by cases hr

/-- One step keeps the caches sound. -/
theorem Sound.step (h : Sound env s log) (hp : s.Possible op) (hl : s.Linking op)
    (hrun : s.step env op = some s') (hfits : s'.Fits) : Sound env s' (log ++ s.recorded op) := by
  obtain ⟨hbound, hshort⟩ := hfits
  have plain (hs : Sound env s' log) (hr : s.recorded op = []) : Sound env s' (log ++ s.recorded op) := by
    rwa [hr, List.append_nil]
  cases op with
  | newClass addr isBuiltin dict bases mro => exact plain (h.newClass hp.1 hp.2.1 hrun hbound hshort) rfl
  | die c =>
    obtain rfl := Option.some_inj.mp hrun
    exact plain h.die rfl
  | setAttr c name v => exact plain (h.mutateDict (f := fun d => d.insert env name v) hrun (fun d hd => hl d (h.born d hd) hd) hbound hshort) rfl
  | delAttr c name => exact plain (h.mutateDict (f := fun d => d.delete env name) hrun (fun d hd => hl d (h.born d hd) hd) hbound hshort) rfl
  | setMro c mro => exact plain (h.setMro hp.2 hrun hbound hshort) rfl
  | setBases c bases mroOf => exact plain (h.setBases hp.2.1 hp.2.2 hrun hbound hshort) rfl
  | bump c => exact plain (h.bump hrun hbound hshort) rfl
  | lookup t c name =>
    obtain rfl := Option.some_inj.mp hrun
    exact plain (lookup_spec t name h hp).2 rfl
  | lookupWithOwner t c name =>
    obtain rfl := Option.some_inj.mp hrun
    exact plain (lookupWithOwner_spec t name h hp).2.1 rfl
  | dunder t c d =>
    obtain rfl := Option.some_inj.mp hrun
    exact plain (dunder_spec h hp).2 rfl
  | memoVerdict t c family name compute =>
    obtain rfl := Option.some_inj.mp hrun
    unfold State.memoVerdict
    cases hv : s.verdictCached t c family name with
    | none =>
      have hr : s.recorded (.memoVerdict t c family name compute) =
          [⟨c, (s.cls c).attrVersion, family, name, compute⟩] := if_pos hv
      rw [hr]
      exact verdictRecord_sound h hp
    | some verdict =>
      have hr : s.recorded (.memoVerdict t c family name compute) = [] := if_neg (by simp [hv])
      rwa [hr, List.append_nil]
  | verdictRecord t c family name verdict =>
    obtain rfl := Option.some_inj.mp hrun
    exact verdictRecord_sound h hp
  | threadExit t =>
    obtain rfl := Option.some_inj.mp hrun
    exact plain (h.setThread (fun _ hr => hr) h.log (fun _ _ _ hs => by cases hs) fun _ _ _ hs => by cases hs) rfl

theorem Reachable.sound (h : Reachable env State.Linking s log) : Sound env s log := by
  induction h with
  | new => exact sound_new
  | step _ op hp hc hrun hfits ih => exact ih.step hp hc hrun hfits

/-- In a run whose dict mutations all reach the classes that see them, the caches never lie. -/
theorem reachable_truthful (h : Reachable env State.Linking s log) : Truthful env s log := h.sound.truthful

end Runs

section Examples

def env₀ : Env := ⟨fun n => n.length, fun _ => 0, fun _ _ => false, fun _ => false, 0, 1, 2⟩

def attr : Name := utf8 "a"

/-- A base gains an attribute its subclass was found not to have. -/
theorem reachable_truthful_base : ∃ s log, Reachable env₀ State.Linking s log ∧
    (s.lookup env₀ 0 1 attr).2 = some (.other 7) ∧ (s.uncached env₀ 1 attr) = some (.other 7, 0) := by
  have h₀ : Reachable env₀ State.Linking .new [] := .new
  have h₁ := h₀.step (.newClass 16 true [] [] [0])
    ⟨by decide, by decide, by decide⟩ trivial rfl ⟨by decide, by decide⟩
  have h₂ := h₁.step (.newClass 32 false [] [0] [1, 0])
    ⟨by decide, by decide, by decide⟩ trivial rfl ⟨by decide, by decide⟩
  have h₃ := h₂.step (.lookup 0 1 attr) (show State.isAlive _ 1 by decide) trivial rfl ⟨by decide, by decide⟩
  have hseen (d : ℕ) (hd : d < 2) (s : State) (hlink : s.liveSubclasses 0 = [1]) : s.Reaches 0 d := by
    obtain rfl | rfl : d = 0 ∨ d = 1 := by omega
    · exact .refl
    · exact .single (by rw [Worklist.Edge, hlink]; decide)
  have h₄ := h₃.step (.setAttr 0 attr (.other 7)) (show State.isAlive _ 0 by decide)
    (fun d hd _ _ => hseen d hd _ (by decide)) rfl ⟨by decide, by decide⟩
  refine ⟨_, _, h₄, ?_, by decide⟩
  rw [(reachable_truthful h₄).lookup 0 1 attr (by decide)]
  decide

/-- A metaclass puts a class that is no base into an MRO; what that class gains is not seen. -/
theorem mro_outside_bases_lies :
    ¬ ∀ env s log, Reachable env (fun _ _ => True) s log → Truthful env s log := by
  intro h
  have h₀ : Reachable env₀ (fun _ _ => True) .new [] := .new
  have h₁ := h₀.step (.newClass 16 true [] [] [0])
    ⟨by decide, by decide, by decide⟩ trivial rfl ⟨by decide, by decide⟩
  have h₂ := h₁.step (.newClass 32 false [] [0] [1, 0])
    ⟨by decide, by decide, by decide⟩ trivial rfl ⟨by decide, by decide⟩
  have h₃ := h₂.step (.newClass 48 false [] [0] [2, 0])
    ⟨by decide, by decide, by decide⟩ trivial rfl ⟨by decide, by decide⟩
  have h₄ := h₃.step (.setMro 2 [2, 1, 0]) ⟨by decide, by decide⟩ trivial rfl ⟨by decide, by decide⟩
  have h₅ := h₄.step (.lookup 0 2 attr) (show State.isAlive _ 2 by decide) trivial rfl ⟨by decide, by decide⟩
  have h₆ := h₅.step (.setAttr 1 attr (.other 7)) (show State.isAlive _ 1 by decide) trivial rfl
    ⟨by decide, by decide⟩
  exact absurd ((h _ _ _ h₆).lookup 0 2 attr (by decide)) (by decide)

end Examples

end WeavePy.TypeCache
