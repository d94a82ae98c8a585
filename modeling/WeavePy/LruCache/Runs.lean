import WeavePy.LruCache.Refines

/-!
Runs of a bounded `lru_cache` wrapper: calls that hit or miss, results that are stored whenever their functions
return, clears and exports, in any order.
-/

namespace WeavePy.LruCache

open Prog

variable {κ ρ ν E : Type} {K : Keys κ ρ} {limit flags : ℕ} {s s' : Lru κ ν} {m : Recency ρ ν}
  {key : κ} {value : ν} {p : Probing}

/-- The mode may only have gone over to the fallback. -/
def Later (flags flags' : ℕ) : Prop := flags &&& FALLBACK ≠ 0 → flags' &&& FALLBACK ≠ 0

theorem Later.refl (flags : ℕ) : Later flags flags := id

theorem lru_uncount_miss_wp (h : Rep K limit flags s m.miss) {R : E → Lru κ ν → Prop} :
    wp lru_uncount_miss (fun _ s' => Rep K limit flags s' m) R s := by
  have hlen := h.header.length
  refine wp_bind (wp_attempt (wp_onWords ?_))
  refine wp_bind (wp_read (by simp only [MISSES]; omega) (wp_write (by simp only [MISSES]; omega) (wp_pure ?_)))
  refine h.counted (m := m.miss) (by decide) ⟨?_⟩
  rw [h.header.take_setWord, h.header.word_eq (by decide)]
  simp only [MISSES, Recency.miss, wrapping_sub, List.getD_cons_succ, List.getD_cons_zero, List.set_cons_succ,
    List.set_cons_zero, List.cons.injEq, true_and, and_true]
  omega

/-- The end of `lru_cache_clear`, once the words have no links. -/
theorem cleared_wp {hits misses : ℕ} (header : Header s.bytes hits misses limit flags)
    (hnative : flags &&& FALLBACK = 0 → Threaded s.bytes 0 []) (hfallback : flags &&& FALLBACK ≠ 0 → Empty s.bytes)
    {R : LruError → Lru κ ν → Prop} :
    wp (do
      checked reset_counts
      setData []) (fun _ s' => Rep K limit flags s' ⟨[], 0, 0⟩) R s := by
  have hlen := header.length
  refine wp_bind (wp_checked (wp_bind (wp_write (by simp only [HITS]; omega) (wp_write ?_ (wp_setData ?_)))))
  · rw [Words.length_setWord]
    simp only [MISSES]
    omega
  · have hhits : Header (s.bytes.setWord HITS 0) 0 misses limit flags := ⟨by rw [header.take_setWord]; rfl⟩
    refine ⟨⟨by rw [hhits.take_setWord]; rfl⟩, List.nodup_nil, Nat.zero_le limit, ?_⟩
    by_cases hflag : flags &&& FALLBACK = 0
    · have hlinks := ((hnative hflag).setWord_header (i := HITS) (v := 0) (by decide)).setWord_header (i := MISSES)
        (v := 0) (by decide)
      exact .inl ⟨[], hflag, by simp, hlinks, rfl⟩
    · exact .inr ⟨hflag, ((hfallback hflag).setWord_header (by decide)).setWord_header (by decide), rfl⟩

theorem lru_cache_clear_wp (h : Rep K limit flags s m) (hlimit : 0 < limit) (hbounded : limit ≠ UNBOUNDED) :
    wp lru_cache_clear (fun _ s' => Rep K limit flags s' ⟨[], 0, 0⟩) (fun e s' => e = .exported ∧ s' = s ∧ s.exported = true) s := by
  refine wp_bind (wp_checked (wp_mono h.header.mode_wp ?_ fun _ _ => id))
  rintro _ _ ⟨rfl, rfl⟩
  refine wp_bind (wp_gets ?_)
  by_cases hflag : flags &&& FALLBACK = 0
  · obtain ⟨order, hn⟩ := h.native hflag
    refine wp_bind (wp_ite (fun _ => ?_) fun hempty => wp_pure ?_)
    · refine wp_bind (resizable_wp (fun _ => ?_) fun hexp => ⟨rfl, rfl, hexp⟩)
      refine wp_checked (wp_mono hn.threaded.sized.clear_links_wp ?_ fun _ _ => id)
      rintro _ b ⟨hb, htake⟩
      exact cleared_wp (h.header.of_take htake) (fun _ => hb.threaded) fun hne => absurd hflag hne
    · have hdata : s.data.length = 0 := by
        simpa [hflag, hbounded, Nat.ne_of_gt hlimit] using hempty
      have horder : order = [] := List.length_eq_zero_iff.mp (hn.threaded.length_eq.trans hdata)
      refine cleared_wp h.header (fun _ => ?_) fun hne => absurd hflag hne
      rw [← horder, ← hdata]
      exact hn.threaded
  · have hf := h.fallback hflag
    refine wp_bind (wp_ite (fun hc => ?_) fun _ => wp_pure ?_)
    · simp [hflag] at hc
    · exact cleared_wp h.header (fun hc => absurd hc hflag) fun _ => hf.empty

/-- The cache has left native mode. -/
def Demoted (s : Lru κ ν) : Prop := s.bytes.word FLAGS &&& FALLBACK ≠ 0

theorem Demoted.flag (hd : Demoted s) (h : Rep K limit flags s m) : flags &&& FALLBACK ≠ 0 := by
  rw [Demoted, h.header.word_eq (by decide)] at hd
  exact hd

variable [DecidableEq ρ]

theorem lru_store_wp {scalar : Bool} (h : Rep K limit flags s m) (hlimit : 0 < limit) (hfits : scalar = true → Fits s)
    (hsound : flags &&& FALLBACK = 0 → p.Sound K s) (hscalar : scalar = false → flags &&& FALLBACK ≠ 0) :
    wp (lru_store K key p value limit scalar)
      (fun _ s' => ∃ flags', Later flags flags' ∧ Rep K limit flags' s' (m.put (K.cls key) value limit))
      (fun e s' => e = .exported ∧ s' = s ∧ s.exported = true) s := by
  cases scalar with
  | false =>
    refine wp_bind (wp_pure ?_)
    refine wp_mono (fallback_store_wp h (hscalar rfl)) ?_ fun _ _ => id
    exact fun _ s' hs' => ⟨flags, .refl _, hs'⟩
  | true =>
    have hop := scalar_lru_operation_wp key (some (value, limit)) h hlimit (fun _ => hfits rfl) hsound (by simp)
    refine wp_bind (wp_seq hop fun r s' hr => ?_)
    cases r with
    | complete found => exact wp_pure (wp_pure ⟨flags, .refl _, hr⟩)
    | slow =>
      obtain ⟨flags', hflag', hs'⟩ := hr
      refine wp_pure (wp_mono (fallback_store_wp hs' hflag') ?_ fun _ _ => id)
      exact fun _ s'' hs'' => ⟨flags', fun _ => hflag', hs''⟩

/-- A counted answer to a lookup: the value and how its store is to go. -/
def Looked (K : Keys κ ρ) (limit flags : ℕ) (m : Recency ρ ν) (key : κ) (r : Option ν × Settled) (s : Lru κ ν) :
    Prop :=
  ∃ flags', Later flags flags' ∧ (r.2 = .slow → flags' &&& FALLBACK ≠ 0) ∧ (r.2 = .native → K.native key = true) ∧
    r.2 ≠ .inline ∧ match r.1 with
    | some v => m.entries.lookup (K.cls key) = some v ∧ Rep K limit flags' s (m.hit (K.cls key) v)
    | none => K.cls key ∉ m.entries.keys ∧ Rep K limit flags' s m.miss

theorem not_mem_of_lookup {l : OrderedMap ρ ν} {k : ρ} (h : none = l.lookup k) : k ∉ l.keys := by
  intro hk
  have hsome := OrderedMap.lookup_isSome.mpr hk
  rw [← h] at hsome
  cases hsome

/-- A lookup in either mode, then its count. -/
theorem count_wp {found : Option ν} {settled : Settled} {flags' : ℕ} {R : LruError → Lru κ ν → Prop}
    (hlater : Later flags flags') (hslow : settled = .slow → flags' &&& FALLBACK ≠ 0) (hkind : settled ≠ .native)
    (hinline : settled ≠ .inline) (h : Settles K limit flags' m key none found s) :
    wp (do
      checked (if found.isSome then hit else miss)
      return (found, settled)) (fun r s' => Looked K limit flags m key r s') R s := by
  obtain ⟨hfound, hs⟩ := h
  cases found with
  | some v =>
    refine wp_bind (wp_ok_or (wp_mono hs.hit_wp ?_ fun _ _ => id))
    exact fun _ s' hs' => wp_pure ⟨flags', hlater, hslow, fun hn => absurd hn hkind, hinline, hfound.symm, hs'⟩
  | none =>
    refine wp_bind (wp_ok_or (wp_mono hs.miss_wp ?_ fun _ _ => id))
    exact fun _ s' hs' =>
      wp_pure ⟨flags', hlater, hslow, fun hn => absurd hn hkind, hinline, not_mem_of_lookup hfound, hs'⟩

theorem lru_call_lookup_wp (key : κ) (h : Rep K limit flags s m) (hlimit : 0 < limit)
    (hsound : flags &&& FALLBACK = 0 → p.Sound K s) :
    wp (lru_call_lookup K key p) (fun r s' => Looked K limit flags m key r s')
      (fun e s' => e = .exported ∧ s' = s ∧ s.exported = true) s := by
  have hnative : wp (if p.leaf && K.native key then (lru_native_lookup K key p).attempt else return .error ())
      (fun r s' => (∃ v, r = .ok (.hit v) ∧ Looked K limit flags m key (some v, .native) s') ∨
        (r = .ok .miss ∧ Looked K limit flags m key (none, .native) s') ∨ r = .error () ∧ s' = s)
      (fun (e : LruError) s' => e = .exported ∧ s' = s ∧ s.exported = true) s := by
    refine wp_ite (fun hleaf => ?_) fun _ => wp_pure (.inr (.inr ⟨rfl, rfl⟩))
    have hkey : K.native key = true := by
      rw [Bool.and_eq_true] at hleaf
      exact hleaf.2
    refine wp_attempt (wp_mono (lru_native_lookup_wp h) (fun r s' hr => ?_) ?_)
    · cases r with
      | hit v => exact .inl ⟨v, rfl, flags, .refl _, by simp, fun _ => hkey, by simp, hr⟩
      | miss => exact .inr (.inl ⟨rfl, flags, .refl _, by simp, fun _ => hkey, by simp, hr⟩)
    · rintro _ s' rfl
      exact .inr (.inr ⟨rfl, rfl⟩)
  rw [lru_call_lookup]
  refine wp_seq hnative ?_
  rintro _ s' (⟨v, rfl, hr⟩ | ⟨rfl, hr⟩ | ⟨rfl, rfl⟩)
  · exact wp_pure hr
  · exact wp_pure hr
  · refine wp_seq (scalar_lru_operation_wp key none h hlimit (by simp) hsound (by simp)) fun r s' hr => ?_
    cases r with
    | complete found =>
      exact wp_bind (wp_pure (count_wp (.refl _) (by simp) (by simp) (by simp) hr))
    | slow =>
      obtain ⟨flags', hflag', hs'⟩ := hr
      refine wp_bind (wp_seq (fallback_lookup_wp hs' hflag') ?_)
      exact fun found s'' hr =>
        wp_pure (count_wp (fun _ => hflag') (fun _ => hflag') (by simp) (by simp) hr)

theorem lru_call_store_wp {settled : Settled} (h : Rep K limit flags s m) (hlimit : 0 < limit) (hfits : Fits s)
    (hsound : flags &&& FALLBACK = 0 → p.Sound K s) (hslow : settled = .slow → flags &&& FALLBACK ≠ 0)
    (hnative : settled = .native → K.native key = true) :
    wp (lru_call_store K key p value limit settled)
      (fun _ s' => ∃ flags', Later flags flags' ∧ Rep K limit flags' s' (m.put (K.cls key) value limit))
      (fun e s' => e = .exported ∧ s' = s ∧ s.exported = true) s := by
  have hstore : wp (lru_store K key p value limit (settled ≠ .slow))
      (fun _ s' => ∃ flags', Later flags flags' ∧ Rep K limit flags' s' (m.put (K.cls key) value limit))
      (fun e s' => e = .exported ∧ s' = s ∧ s.exported = true) s :=
    lru_store_wp h hlimit (fun _ => hfits) hsound fun hs => hslow (by simpa using hs)
  cases settled with
  | native =>
    by_cases hleaf : p.leaf = true
    · simp only [lru_call_store, hleaf, ↓reduceIte]
      refine wp_seq (native_store_in_wp h hlimit hfits fun _ => hnative rfl) fun stored s' hs' => ?_
      cases stored with
      | true => exact wp_pure ⟨flags, .refl _, hs'⟩
      | false =>
        obtain ⟨rfl, -⟩ := hs'
        exact hstore
    · simp only [lru_call_store, hleaf, Bool.false_eq_true, ↓reduceIte]
      exact wp_bind (wp_pure hstore)
  | scalar | slow | inline => exact wp_bind (wp_pure hstore)

/-- What the store of an inline miss's result comes to. -/
def Kept (K : Keys κ ρ) (limit flags : ℕ) (m : Recency ρ ν) (key : κ) (value : ν) (s s' : Lru κ ν) : Returned → Prop
  | .stored => Rep K limit flags s' (m.put (K.cls key) value limit)
  | _ => s' = s

theorem store_returned_with_wp (h : Rep K limit flags s m) (hlimit : 0 < limit) (hfits : Fits s)
    (hkey : K.native key = true) {R : E → Lru κ ν → Prop} :
    wp (store_returned_with K key p value limit) (fun r s' => Kept K limit flags m key value s s' r) R s := by
  refine wp_bind (wp_attempt (wp_mono (native_store_in_wp h hlimit hfits fun _ => hkey) (fun stored s' hs' => ?_) ?_))
  · cases stored with
    | true => exact wp_pure hs'
    | false =>
      obtain ⟨rfl, hdeclined⟩ := hs'
      refine wp_ite (fun hexact => ?_) fun _ => wp_pure rfl
      refine wp_seq (fallback_store_wp h (hdeclined hexact)) fun _ s'' hs'' => ?_
      exact wp_pure hs''
  · rintro e s' ⟨-, rfl, -⟩
    exact wp_pure rfl

/-- What the calls of a wrapper tell its users. -/
inductive Event (ρ ν : Type) where
  | hit (k : ρ) (v : ν)
  | miss (k : ρ)
  | stored (k : ρ) (v : ν)
  | clear

/-- The recency list answers as told. -/
inductive Recency.Does (limit : ℕ) : Recency ρ ν → Event ρ ν → Recency ρ ν → Prop
  | hit {m : Recency ρ ν} {k : ρ} {v : ν} (h : m.entries.lookup k = some v) : Does limit m (.hit k v) (m.hit k v)
  | miss {m : Recency ρ ν} {k : ρ} (h : k ∉ m.entries.keys) : Does limit m (.miss k) m.miss
  | stored {m : Recency ρ ν} {k : ρ} {v : ν} : Does limit m (.stored k v) (m.put k v limit)
  | clear {m : Recency ρ ν} : Does limit m .clear ⟨[], 0, 0⟩

inductive Recency.Runs (limit : ℕ) : Recency ρ ν → List (Event ρ ν) → Recency ρ ν → Prop
  | nil {m : Recency ρ ν} : Runs limit m [] m
  | snoc {m m' m'' : Recency ρ ν} {l : List (Event ρ ν)} {e : Event ρ ν} (h : Runs limit m l m')
      (he : Does limit m' e m'') : Runs limit m (l ++ [e]) m''

/-- The stores of the results in `LRU_DEFERRED`. -/
def lru_flush_deferred (K : Keys κ ρ) (limit : ℕ) (p : Probing) : List (κ × ν) → Core κ ν LruError Unit
  | [] => pure ()
  | (key, value) :: deferred => do
    lru_store K key p value limit false
    lru_flush_deferred K limit p deferred

/-- A wrapper, the misses whose functions still run, and its results in `LRU_DEFERRED`. -/
structure Machine (κ ν : Type) where
  lru : Lru κ ν
  pending : List (κ × Settled)
  deferred : List (κ × ν)

/-- One turn in the core. A call or a clear that does not find `LRU_DEFERRED` empty flushes it first. The results
of inline misses that it holds are those returned in the fallback. -/
inductive Step (K : Keys κ ρ) (limit : ℕ) : Machine κ ν → List (Event ρ ν) → Machine κ ν → Prop
  | flush {s : Machine κ ν} {lru : Lru κ ν} {p : Probing}
      (h : lru_flush_deferred K limit p s.deferred s.lru = .ok (.ok (), lru)) :
      Step K limit s (s.deferred.map fun e => .stored (K.cls e.1) e.2) { s with lru := lru, deferred := [] }
  | hit {s : Machine κ ν} {key : κ} {p : Probing} {v : ν} {settled : Settled} {lru : Lru κ ν} (hd : s.deferred = [])
      (hp : p.Sound K s.lru) (h : lru_call_lookup K key p s.lru = .ok (.ok (some v, settled), lru)) :
      Step K limit s [.hit (K.cls key) v] { s with lru := lru }
  | miss {s : Machine κ ν} {key : κ} {p : Probing} {settled : Settled} {lru : Lru κ ν} (hd : s.deferred = [])
      (hp : p.Sound K s.lru) (h : lru_call_lookup K key p s.lru = .ok (.ok (none, settled), lru)) :
      Step K limit s [.miss (K.cls key)] { s with lru := lru, pending := (key, settled) :: s.pending }
  | lookupFails {s : Machine κ ν} {key : κ} {p : Probing} {e : LruError} {lru : Lru κ ν} (hd : s.deferred = [])
      (hp : p.Sound K s.lru) (h : lru_call_lookup K key p s.lru = .ok (.error e, lru)) :
      Step K limit s [] { s with lru := lru }
  | probeHit {s : Machine κ ν} {key : κ} {p : Probing} {v : ν} {lru : Lru κ ν} (hd : s.deferred = [])
      (h : lru_probe_with K key p s.lru = .ok (.ok (.hit v), lru)) :
      Step K limit s [.hit (K.cls key) v] { s with lru := lru }
  | probeMiss {s : Machine κ ν} {key : κ} {p : Probing} {lru : Lru κ ν} (hd : s.deferred = [])
      (hkey : K.native key = true) (h : lru_probe_with K key p s.lru = .ok (.ok .miss, lru)) :
      Step K limit s [.miss (K.cls key)] { s with lru := lru, pending := (key, .inline) :: s.pending }
  /-- The caller of a probe that missed does not make the call. -/
  | declined {s : Machine κ ν} {key : κ} {p : Probing} {lru lru' : Lru κ ν} {r : Except Unit Unit}
      (h : lru_probe_with K key p s.lru = .ok (.ok .miss, lru)) (hu : lru_uncount_miss lru = .ok (r, lru')) :
      Step K limit s [] { s with lru := lru' }
  | store {s : Machine κ ν} {a b : List (κ × Settled)} {key : κ} {settled : Settled} {p : Probing} {value : ν}
      {lru : Lru κ ν} (hpend : s.pending = a ++ (key, settled) :: b) (hne : settled ≠ .inline) (hp : p.Sound K s.lru)
      (hfits : Fits s.lru) (h : lru_call_store K key p value limit settled s.lru = .ok (.ok (), lru)) :
      Step K limit s [.stored (K.cls key) value] { s with lru := lru, pending := a ++ b }
  | storeFails {s : Machine κ ν} {a b : List (κ × Settled)} {key : κ} {settled : Settled} {p : Probing} {value : ν}
      {lru : Lru κ ν} {e : LruError} (hpend : s.pending = a ++ (key, settled) :: b) (hne : settled ≠ .inline)
      (hp : p.Sound K s.lru) (hfits : Fits s.lru)
      (h : lru_call_store K key p value limit settled s.lru = .ok (.error e, lru)) :
      Step K limit s [] { s with lru := lru, pending := a ++ b }
  /-- The wrapped function raises. -/
  | raised {s : Machine κ ν} {a b : List (κ × Settled)} {e : κ × Settled} (hpend : s.pending = a ++ e :: b) :
      Step K limit s [] { s with pending := a ++ b }
  | returned {s : Machine κ ν} {a b : List (κ × Settled)} {key : κ} {p : Probing} {value : ν} {lru : Lru κ ν}
      {r : Returned} (hpend : s.pending = a ++ (key, .inline) :: b) (hfits : Fits s.lru)
      (h : store_returned_with (E := Unit) K key p value limit s.lru = .ok (.ok r, lru))
      (hdeferred : r = .deferred → Demoted s.lru) :
      Step K limit s (if r = .stored then [.stored (K.cls key) value] else [])
        ⟨lru, a ++ b, if r = .deferred then s.deferred ++ [(key, value)] else s.deferred⟩
  | clear {s : Machine κ ν} {lru : Lru κ ν} (hd : s.deferred = [])
      (h : lru_cache_clear s.lru = .ok (.ok (), lru)) : Step K limit s [.clear] { s with lru := lru }
  | clearFails {s : Machine κ ν} {e : LruError} {lru : Lru κ ν} (hd : s.deferred = [])
      (h : lru_cache_clear s.lru = .ok (.error e, lru)) : Step K limit s [] { s with lru := lru }
  /-- The words' buffer is exported, or no longer. -/
  | exports {s : Machine κ ν} (b : Bool) : Step K limit s [] { s with lru := { s.lru with exported := b } }

/-- The states of a new wrapper's runs, with what the calls have told. -/
inductive Reachable (K : Keys κ ρ) (limit flags : ℕ) : Machine κ ν → List (Event ρ ν) → Prop
  | new : Reachable K limit flags ⟨⟨[], LruCache.new limit flags, false⟩, [], []⟩ []
  | step {s s' : Machine κ ν} {l l' : List (Event ρ ν)} (h : Reachable K limit flags s l) (hs : Step K limit s l' s') :
      Reachable K limit flags s' (l ++ l')

/-- What holds between turns. -/
structure Consistent (K : Keys κ ρ) (limit flags : ℕ) (s : Machine κ ν) (m : Recency ρ ν) : Prop where
  rep : Rep K limit flags s.lru m
  slow : ∀ e ∈ s.pending, e.2 = .slow → flags &&& FALLBACK ≠ 0
  native : ∀ e ∈ s.pending, e.2 = .native ∨ e.2 = .inline → K.native e.1 = true
  deferred : s.deferred ≠ [] → flags &&& FALLBACK ≠ 0

theorem wp_ok {φ S α : Type} {prog : Prog φ S E α} {Q : α → S → Prop} {R : E → S → Prop} {s t : S} {a : α}
    (h : wp prog Q R s) (hr : prog s = .ok (.ok a, t)) : Q a t := by
  rw [wp, hr] at h
  exact h

theorem wp_error {φ S α : Type} {prog : Prog φ S E α} {Q : α → S → Prop} {R : E → S → Prop} {s t : S} {e : E}
    (h : wp prog Q R s) (hr : prog s = .ok (.error e, t)) : R e t := by
  rw [wp, hr] at h
  exact h

theorem Recency.Runs.single {e : Event ρ ν} {m' : Recency ρ ν} (h : Recency.Does limit m e m') :
    Recency.Runs limit m [e] m' := .snoc .nil h

theorem Recency.Runs.append {m' m'' : Recency ρ ν} {l l' : List (Event ρ ν)} (h : Recency.Runs limit m l m')
    (h' : Recency.Runs limit m' l' m'') : Recency.Runs limit m (l ++ l') m'' := by
  induction h' with
  | nil => simpa using h
  | snoc _ he ih => simpa using ih.snoc he

theorem lru_flush_deferred_wp {deferred : List (κ × ν)} (h : Rep K limit flags s m)
    (hflag : deferred ≠ [] → flags &&& FALLBACK ≠ 0) {R : LruError → Lru κ ν → Prop} :
    wp (lru_flush_deferred K limit p deferred) (fun _ s' => ∃ m', Rep K limit flags s' m' ∧
      Recency.Runs limit m (deferred.map fun e => .stored (K.cls e.1) e.2) m') R s := by
  induction deferred generalizing s m with
  | nil => exact wp_pure ⟨m, h, .nil⟩
  | cons e deferred ih =>
    have hflag := hflag (List.cons_ne_nil e deferred)
    refine wp_seq (wp_bind (wp_pure (fallback_store_wp h hflag))) fun _ s' hs' => ?_
    refine wp_mono (ih hs' fun _ => hflag) ?_ fun _ _ => id
    rintro _ s'' ⟨m', hm', hruns⟩
    exact ⟨m', hm', (Recency.Runs.single .stored).append hruns⟩

namespace Consistent

variable {c c' : Machine κ ν} {l : List (Event ρ ν)} {a b : List (κ × Settled)} {e : κ × Settled}

omit [DecidableEq ρ] in
/-- The wrapper has changed; some misses are no longer pending. -/
theorem next {flags' : ℕ} {m' : Recency ρ ν} {lru : Lru κ ν} {pending : List (κ × Settled)}
    (h : Consistent K limit flags c m) (hlater : Later flags flags') (hrep : Rep K limit flags' lru m')
    (hpend : ∀ e ∈ pending, e ∈ c.pending) : Consistent K limit flags' ⟨lru, pending, c.deferred⟩ m' where
  rep := hrep
  slow e he hslow := hlater (h.slow e (hpend e he) hslow)
  native e he := h.native e (hpend e he)
  deferred hd := hlater (h.deferred hd)

theorem mem_of_rest (hpend : c.pending = a ++ e :: b) : ∀ x ∈ a ++ b, x ∈ c.pending := by
  intro x hx
  rw [hpend]
  rcases List.mem_append.mp hx with hx | hx
  · exact List.mem_append_left _ hx
  · exact List.mem_append_right _ (List.mem_cons_of_mem e hx)

theorem step (h : Consistent K limit flags c m) (hlimit : 0 < limit) (hbounded : limit ≠ UNBOUNDED)
    (hs : Step K limit c l c') :
    ∃ flags' m', Recency.Runs limit m l m' ∧ Consistent K limit flags' c' m' := by
  have hall : ∀ e ∈ c.pending, e ∈ c.pending := fun _ => id
  cases hs with
  | flush hr =>
    obtain ⟨m', hm', hruns⟩ := wp_ok (R := fun _ _ => True) (lru_flush_deferred_wp h.rep h.deferred) hr
    exact ⟨flags, m', hruns, hm', h.slow, h.native, fun hd => absurd rfl hd⟩
  | hit hd hp hr =>
    obtain ⟨flags', hlater, -, -, -, hlookup, hm⟩ := wp_ok (lru_call_lookup_wp _ h.rep hlimit fun _ => hp) hr
    exact ⟨flags', _, .single (.hit hlookup), h.next hlater hm hall⟩
  | @miss key p settled lru hd hp hr =>
    obtain ⟨flags', hlater, hslow, hnative, hinline, hmiss, hm⟩ :=
      wp_ok (lru_call_lookup_wp _ h.rep hlimit fun _ => hp) hr
    have hnext := h.next hlater hm hall
    refine ⟨flags', _, .single (.miss hmiss), hnext.rep, ?_, ?_, hnext.deferred⟩
    · exact List.forall_mem_cons.mpr ⟨hslow, hnext.slow⟩
    · exact List.forall_mem_cons.mpr ⟨fun hn => hnative (hn.resolve_right hinline), hnext.native⟩
  | lookupFails hd hp hr =>
    obtain ⟨-, rfl, -⟩ := wp_error (lru_call_lookup_wp _ h.rep hlimit fun _ => hp) hr
    exact ⟨flags, m, .nil, h⟩
  | probeHit hd hr =>
    obtain ⟨hlookup, hm⟩ := wp_ok (lru_probe_with_wp h.rep) hr
    exact ⟨flags, _, .single (.hit hlookup), h.next (.refl _) hm hall⟩
  | probeMiss hd hkey hr =>
    obtain ⟨hmiss, hm⟩ := wp_ok (lru_probe_with_wp h.rep) hr
    have hnext := h.next (.refl _) hm hall
    refine ⟨flags, _, .single (.miss hmiss), hnext.rep, ?_, ?_, hnext.deferred⟩
    · exact List.forall_mem_cons.mpr ⟨by simp, hnext.slow⟩
    · exact List.forall_mem_cons.mpr ⟨fun _ => hkey, hnext.native⟩
  | @declined key p lru lru' r hr hu =>
    obtain ⟨-, hm⟩ := wp_ok (lru_probe_with_wp h.rep) hr
    have hun := lru_uncount_miss_wp (E := Unit) hm (R := fun _ s' => Rep K limit flags s' m)
    have hm' : Rep K limit flags lru' m := by
      cases r with
      | ok _ =>
        have hok := wp_ok hun hu
        exact hok
      | error _ =>
        have herror := wp_error hun hu
        exact herror
    exact ⟨flags, m, .nil, h.next (.refl _) hm' hall⟩
  | @store a b key settled p value lru hpend hne hp hfits hr =>
    have hmem : (key, settled) ∈ c.pending := by simp [hpend]
    obtain ⟨flags', hlater, hm⟩ := wp_ok (lru_call_store_wp h.rep hlimit hfits (fun _ => hp) (h.slow _ hmem)
      fun hn => h.native _ hmem (.inl hn)) hr
    exact ⟨flags', _, .single .stored, h.next hlater hm (mem_of_rest hpend)⟩
  | @storeFails a b key settled p value lru e hpend hne hp hfits hr =>
    have hmem : (key, settled) ∈ c.pending := by simp [hpend]
    obtain ⟨-, rfl, -⟩ := wp_error (lru_call_store_wp h.rep hlimit hfits (fun _ => hp) (h.slow _ hmem)
      fun hn => h.native _ hmem (.inl hn)) hr
    exact ⟨flags, m, .nil, h.next (.refl _) h.rep (mem_of_rest hpend)⟩
  | raised hpend => exact ⟨flags, m, .nil, h.next (.refl _) h.rep (mem_of_rest hpend)⟩
  | @returned a b key p value lru r hpend hfits hr hdeferred =>
    have hmem : (key, Settled.inline) ∈ c.pending := by simp [hpend]
    have hkept := wp_ok (R := fun _ _ => True) (store_returned_with_wp (E := Unit) h.rep hlimit hfits
      (h.native _ hmem (.inr rfl))) hr
    have hrest := mem_of_rest hpend
    cases r with
    | stored => exact ⟨flags, _, .single .stored, h.next (.refl _) hkept hrest⟩
    | dropped =>
      obtain rfl : lru = c.lru := hkept
      exact ⟨flags, m, .nil, h.next (.refl _) h.rep hrest⟩
    | deferred =>
      obtain rfl : lru = c.lru := hkept
      have hnext := h.next (.refl _) h.rep hrest
      exact ⟨flags, m, .nil, hnext.rep, hnext.slow, hnext.native, fun _ => (hdeferred rfl).flag h.rep⟩
  | clear hd hr =>
    have hm := wp_ok (lru_cache_clear_wp h.rep hlimit hbounded) hr
    exact ⟨flags, _, .single .clear, h.next (.refl _) hm hall⟩
  | clearFails hd hr =>
    obtain ⟨-, rfl, -⟩ := wp_error (lru_cache_clear_wp h.rep hlimit hbounded) hr
    exact ⟨flags, m, .nil, h⟩
  | exports b =>
    have hrep : Rep K limit flags { c.lru with exported := b } m := by
      refine ⟨h.rep.header, h.rep.distinct, h.rep.small, ?_⟩
      rcases h.rep.mode with ⟨order, hn⟩ | hf
      · exact .inl ⟨order, hn.flag, hn.native, hn.threaded, hn.entries_eq⟩
      · exact .inr ⟨hf.flag, hf.empty, hf.entries_eq⟩
    exact ⟨flags, m, .nil, h.next (.refl _) hrep hall⟩

end Consistent

omit [DecidableEq ρ] in
theorem Rep.new (limit flags : ℕ) (hflags : flags &&& FALLBACK = 0) :
    Rep K limit flags (⟨[], LruCache.new limit flags, false⟩ : Lru κ ν) ⟨[], 0, 0⟩ where
  header := ⟨rfl⟩
  distinct := List.nodup_nil
  small := Nat.zero_le limit
  mode := .inl ⟨[], hflags, by simp, Empty.threaded ⟨rfl, rfl, rfl, rfl⟩, rfl⟩

theorem Reachable.consistent {c : Machine κ ν} {l : List (Event ρ ν)} (h : Reachable K limit flags c l)
    (hlimit : 0 < limit) (hbounded : limit ≠ UNBOUNDED) (hflags : flags &&& FALLBACK = 0) :
    ∃ flags' m, Recency.Runs limit ⟨[], 0, 0⟩ l m ∧ Consistent K limit flags' c m := by
  induction h with
  | new =>
    exact ⟨flags, _, .nil, .new limit flags hflags, by simp, by simp, by simp⟩
  | step _ hs ih =>
    obtain ⟨flags', m, hruns, hc⟩ := ih
    obtain ⟨flags'', m', hruns', hc'⟩ := hc.step hlimit hbounded hs
    exact ⟨flags'', m', hruns.append hruns', hc'⟩

/-- Small keys, all native and equal only to themselves. -/
def smallKeys : Keys ℕ ℕ := ⟨id, fun _ => true⟩

/-- A leaf probe that settles the lookup. -/
def settling : Probing := ⟨true, true, true, false⟩

theorem settling_sound (s : Lru ℕ ℕ) : settling.Sound smallKeys s := by
  rintro ⟨⟩

/-- A cache of one entry after its second miss. -/
def replacing : Machine ℕ ℕ :=
  ⟨⟨[(7, 70)], { LruCache.new 1 0 with words := [0, 2, 1, 0, 0, 0, NONE, NONE] }, false⟩, [(8, .native)], []⟩

theorem replacing_reachable : Reachable smallKeys 1 0 replacing [.miss 7, .stored 7 70, .miss 8] := by
  have hmiss : Step smallKeys 1 ⟨⟨[], LruCache.new 1 0, false⟩, [], []⟩ [.miss 7]
      ⟨⟨[], ⟨[0, 1, 1, 0, NONE, NONE], 0⟩, false⟩, [(7, .native)], []⟩ :=
    .miss (p := settling) rfl (settling_sound _) rfl
  have hstore : Step smallKeys 1 ⟨⟨[], ⟨[0, 1, 1, 0, NONE, NONE], 0⟩, false⟩, [(7, .native)], []⟩ [.stored 7 70]
      ⟨⟨[(7, 70)], ⟨[0, 1, 1, 0, 0, 0, NONE, NONE], 0⟩, false⟩, [], []⟩ :=
    .store (a := []) (p := settling) rfl (by decide) (settling_sound _)
      (show (HEADER + 2 * 1) * 8 < 2 ^ 64 by decide) rfl
  have hmiss' : Step smallKeys 1 ⟨⟨[(7, 70)], ⟨[0, 1, 1, 0, 0, 0, NONE, NONE], 0⟩, false⟩, [], []⟩ [.miss 8]
      replacing := .miss (p := settling) rfl (settling_sound _) rfl
  exact ((Reachable.new.step hmiss).step hstore).step hmiss'

theorem new_mismatch_wp {b : Words} {n len : ℕ} (h : Sized n b) (hne : n ≠ len) {Q : Links → Words → Prop} :
    wp (Links.new len) Q (fun _ b' => b' = b) b := by
  refine wp_new (fun hlen => ?_) rfl
  have hsize := h.2.symm.trans hlen.2
  omega

/-- The links are not for the entries that the dictionary has. -/
theorem mismatch_wp {hits misses n : ℕ} (header : Header s.bytes hits misses limit flags)
    (hflag : flags &&& FALLBACK = 0) (hsized : Sized n s.bytes) (hne : n ≠ s.data.length) (hexp : s.exported = false) :
    wp (scalar_lru_operation K key p none) (fun _ _ => False) (fun e s' => e = .inconsistent ∧ s' = s) s := by
  refine wp_bind (wp_checked (wp_mono header.mode_wp ?_ fun _ _ => id))
  rintro _ _ ⟨rfl, rfl⟩
  refine wp_ite (fun hc => absurd hflag hc) fun _ => wp_bind (wp_gets (wp_ite (fun _ => ?_) fun _ => ?_))
  · refine wp_bind (wp_bind (resizable_wp (fun _ => ?_) fun hc => ?_))
    · refine wp_bind (wp_gets (wp_bind (wp_checked (wp_bind ?_))))
      exact wp_mono (new_mismatch_wp hsized hne) (fun _ _ => id) fun _ b hb => ⟨rfl, by rw [hb]⟩
    · rw [hexp] at hc
      cases hc
  · refine wp_bind (wp_checked ?_)
    exact wp_mono (new_mismatch_wp hsized hne) (fun _ _ => id) fun _ b hb => ⟨rfl, by rw [hb]⟩

end WeavePy.LruCache
