import WeavePy.LruCache.Recency
import Mathlib.Data.List.InsertIdx

/-!
The native core against the recency list: in native mode and in the fallback, each operation does to the list what
it is for, and never finds its own data inconsistent.
-/

namespace WeavePy.LruCache

open Prog

variable {κ ρ ν E : Type} {K : Keys κ ρ} {limit flags : ℕ} {s s' : Lru κ ν} {m : Recency ρ ν}
  {key : κ} {value : ν} {p : Probing}

/-- Native keys only, in the order of the links. -/
structure NativeMode (K : Keys κ ρ) (flags : ℕ) (s : Lru κ ν) (entries : OrderedMap ρ ν) (order : List ℕ) : Prop where
  flag : flags &&& FALLBACK = 0
  native : ∀ e ∈ s.data, K.native e.1 = true
  threaded : Threaded s.bytes s.data.length order
  entries_eq : entries = arranged (view K s.data) order

/-- In the order of the dictionary. -/
structure FallbackMode (K : Keys κ ρ) (flags : ℕ) (s : Lru κ ν) (entries : OrderedMap ρ ν) : Prop where
  flag : flags &&& FALLBACK ≠ 0
  empty : Empty s.bytes
  entries_eq : entries = view K s.data

/-- The wrapper stands for the recency list. -/
structure Rep (K : Keys κ ρ) (limit flags : ℕ) (s : Lru κ ν) (m : Recency ρ ν) : Prop where
  header : Header s.bytes m.hits m.misses limit flags
  distinct : (view K s.data).keys.Nodup
  small : s.data.length ≤ limit
  mode : (∃ order, NativeMode K flags s m.entries order) ∨ FallbackMode K flags s m.entries

/-- A lookup in native mode reports a key that only Python compares for a stored key that is not native. -/
def Probing.Sound (p : Probing) (K : Keys κ ρ) (s : Lru κ ν) : Prop :=
  p.deferred = true → ∃ e ∈ s.data, K.native e.1 = false

namespace NativeMode

variable {order : List ℕ} {entries : OrderedMap ρ ν}

theorem mem_iff (h : NativeMode K flags s entries order) (i : ℕ) : i ∈ order ↔ i < (view K s.data).length := by
  rw [h.threaded.mem_iff, length_view]

theorem perm (h : NativeMode K flags s entries order) : entries.Perm (view K s.data) := by
  rw [h.entries_eq]
  exact arranged_perm h.threaded.linked.nodup h.mem_iff

theorem length_eq (h : NativeMode K flags s entries order) : entries.length = s.data.length := by
  rw [h.perm.length_eq, length_view]

theorem head_wp {order : List ℕ} (hn : NativeMode K flags s m.entries order) {i : ℕ}
    (hi : order.head? = some i) {R : Unit → Lru κ ν → Prop} :
    wp (onWords (Links.head ⟨s.data.length⟩)) (fun r s' => r = i ∧ s' = s) R s := by
  refine wp_onWords (wp_mono (hn.threaded.head_wp hi) ?_ fun _ _ => id)
  rintro r b ⟨rfl, rfl⟩
  exact ⟨rfl, rfl⟩

theorem exists_head {order : List ℕ} (hn : NativeMode K flags s m.entries order) (hpos : 0 < s.data.length) :
    ∃ i, order.head? = some i ∧ i < s.data.length := by
  have hlen := hn.threaded.length_eq
  cases order with
  | nil =>
    rw [List.length_nil] at hlen
    omega
  | cons i order => exact ⟨i, rfl, (hn.threaded.mem_iff i).mp (by simp)⟩

theorem new_wp (hn : NativeMode K flags s m.entries order) {R : Unit → Lru κ ν → Prop} :
    wp (onWords (Links.new s.data.length)) (fun l s' => l = ⟨s.data.length⟩ ∧ s' = s) R s := by
  refine wp_onWords (wp_mono hn.threaded.new_wp ?_ (fun _ _ => id))
  rintro l b ⟨rfl, rfl⟩
  exact ⟨rfl, rfl⟩

end NativeMode

theorem mem_keys_iff (h : Rep K limit flags s m) {k : ρ} : k ∈ m.entries.keys ↔ k ∈ (view K s.data).keys := by
  rcases h.mode with ⟨order, hn⟩ | hf
  · exact mem_keys_perm hn.perm
  · rw [hf.entries_eq]

/-- A count is written. -/
theorem Rep.counted {i v : ℕ} (h : Rep K limit flags s m) (hi : i < HEAD) {hits misses : ℕ}
    (header : Header (s.bytes.setWord i v) hits misses limit flags) :
    Rep K limit flags { s with bytes := s.bytes.setWord i v } ⟨m.entries, hits, misses⟩ where
  header := header
  distinct := h.distinct
  small := h.small
  mode := by
    rcases h.mode with ⟨order, hn⟩ | hf
    · exact .inl ⟨order, hn.flag, hn.native, hn.threaded.setWord_header hi, hn.entries_eq⟩
    · exact .inr ⟨hf.flag, hf.empty.setWord_header hi, hf.entries_eq⟩

theorem Rep.hit_wp (h : Rep K limit flags s m) {R : Unit → Lru κ ν → Prop} :
    wp (onWords hit) (fun _ s' => Rep K limit flags s' ⟨m.entries, m.hits + 1, m.misses⟩) R s :=
  wp_onWords (h.header.hit_wp fun _ header => h.counted (by decide) header)

theorem Rep.miss_wp (h : Rep K limit flags s m) {R : Unit → Lru κ ν → Prop} :
    wp (onWords miss) (fun _ s' => Rep K limit flags s' m.miss) R s :=
  wp_onWords (h.header.miss_wp fun _ header => h.counted (by decide) header)

theorem Header.of_take {b b' : Words} {hits misses : ℕ} (h : Header b hits misses limit flags)
    (hb : b'.words.take HEAD = b.words.take HEAD) : Header b' hits misses limit flags := ⟨hb.trans h.take_eq⟩

theorem Rep.mode_wp (h : Rep K limit flags s m) {R : Unit → Lru κ ν → Prop} :
    wp (onWords LruCache.mode) (fun r s' => r = (limit, flags) ∧ s' = s) R s := by
  refine wp_onWords (wp_mono h.header.mode_wp ?_ (fun _ _ => id))
  rintro r b ⟨rfl, rfl⟩
  exact ⟨rfl, rfl⟩

theorem Rep.native (h : Rep K limit flags s m) (hflag : flags &&& FALLBACK = 0) :
    ∃ order, NativeMode K flags s m.entries order := h.mode.resolve_right fun hf => hf.flag hflag

theorem Rep.fallback (h : Rep K limit flags s m) (hflag : flags &&& FALLBACK ≠ 0) :
    FallbackMode K flags s m.entries := by
  rcases h.mode with ⟨order, hn⟩ | hf
  · exact absurd hn.flag hflag
  · exact hf

theorem resizable_wp {Q : Unit → Lru κ ν → Prop} {R : LruError → Lru κ ν → Prop} (h : s.exported = false → Q () s)
    (hr : s.exported = true → R .exported s) : wp bytearray_check_resizable Q R s := by
  refine wp_bind (wp_gets (wp_ite (fun hexp => hr hexp) fun hexp => wp_pure (h ?_)))
  simpa using hexp

/-- The old entries are taken in the order of the links. -/
theorem restore_wp {entries : List (Option (κ × ν))} {data : List (κ × ν)} {order : List ℕ} (hn : order.Nodup)
    (hentries : ∀ i ∈ order, entries[i]?.join = data[i]? ∧ i < data.length) {R : LruError → Lru κ ν → Prop} :
    wp (restore entries order) (fun _ s' => s' = { s with data := s.data ++ arranged data order }) R s := by
  induction order generalizing entries s with
  | nil => exact wp_pure (by simp)
  | cons i order ih =>
    obtain ⟨hi, hlt⟩ := hentries i (by simp)
    have hsome : data[i]? = some data[i] := List.getElem?_eq_getElem hlt
    rw [restore, hi, hsome]
    refine wp_bind (wp_modify (wp_mono (ih (List.nodup_cons.mp hn).2 fun j hj => ?_) ?_ fun _ _ => id))
    · have hne : i ≠ j := by
        rintro rfl
        exact (List.nodup_cons.mp hn).1 hj
      rw [List.getElem?_set_ne hne]
      exact hentries j (List.mem_cons_of_mem i hj)
    · rintro _ s' rfl
      simp [arranged, hsome]

theorem add_flag_wp {b : Words} {hits misses : ℕ} (h : Header b hits misses limit flags) (flag : ℕ)
    {R : Unit → Words → Prop} : wp (add_flag flag) (fun _ b' => b' = b.setWord FLAGS (flags ||| flag) ∧
      Header b' hits misses limit (flags ||| flag)) R b := by
  have hlen := h.length
  refine wp_bind (wp_read (by simp only [FLAGS]; omega) (wp_write (by simp only [FLAGS]; omega) ?_))
  rw [h.word_eq (i := FLAGS) (by decide)]
  refine ⟨rfl, ⟨?_⟩⟩
  rw [h.take_setWord]
  rfl

/-- Leaving native mode keeps the recency list. -/
theorem lru_demote_wp (h : Rep K limit flags s m) (hflag : flags &&& FALLBACK = 0) :
    wp (lru_demote K) (fun _ s' => s'.exported = s.exported ∧ Rep K limit (flags ||| FALLBACK) s' m)
      (fun e s' => e = .exported ∧ s' = s ∧ s.exported = true) s := by
  obtain ⟨order, hn⟩ := h.native hflag
  refine wp_bind (resizable_wp (fun _ => ?_) fun hexp => ⟨rfl, rfl, hexp⟩)
  refine wp_bind (wp_gets ?_)
  have hindices : wp (checked (do
      let links ← Links.new s.data.length
      links.indices)) (fun r s' => r = order ∧ s' = s) (fun e s' => e = .exported ∧ s' = s ∧ s.exported = true) s := by
    refine wp_checked (wp_seq hn.threaded.new_wp ?_)
    rintro _ _ ⟨rfl, rfl⟩
    refine wp_mono hn.threaded.indices_wp ?_ (fun _ _ => id)
    rintro r b ⟨rfl, rfl⟩
    exact ⟨rfl, rfl⟩
  refine wp_seq hindices ?_
  rintro order t ⟨rfl, rfl⟩
  refine wp_ite (fun hany => ?_) fun _ => ?_
  · obtain ⟨e, he, hforeign⟩ := List.any_eq_true.mp hany
    simp [hn.native e he] at hforeign
  have horder : ∀ i ∈ order, (t.data.map some)[i]?.join = t.data[i]? ∧ i < t.data.length := by
    intro i hi
    refine ⟨?_, (hn.threaded.mem_iff i).mp hi⟩
    rw [List.getElem?_map]
    cases t.data[i]? <;> rfl
  refine wp_bind (wp_setData (wp_seq (restore_wp hn.threaded.linked.nodup horder) ?_))
  rintro _ _ rfl
  refine wp_bind (wp_checked (wp_mono hn.threaded.sized.clear_links_wp ?_ fun _ _ => id))
  rintro _ b ⟨hempty, htake⟩
  refine wp_checked (wp_mono (add_flag_wp (h.header.of_take htake) FALLBACK) ?_ fun _ _ => id)
  rintro _ _ ⟨rfl, header⟩
  have hview : view K (arranged t.data order) = m.entries := by
    rw [view, ← arranged_map, ← view, hn.entries_eq]
  refine ⟨rfl, header, ?_, ?_, .inr ⟨?_, hempty.setWord_header (by decide), ?_⟩⟩
  · change (view K ([] ++ arranged t.data order)).keys.Nodup
    rw [List.nil_append, hview]
    exact (hn.perm.map Prod.fst).nodup_iff.mpr h.distinct
  · have hlen := hn.length_eq
    rw [← hview, length_view] at hlen
    simpa [hlen] using h.small
  · rw [Nat.and_comm, Nat.and_or_distrib_left, Nat.and_comm, hflag]
    decide
  · simpa using hview.symm

variable [DecidableEq ρ]

theorem lookup_iff (h : Rep K limit flags s m) {k : ρ} {v : ν} :
    m.entries.lookup k = some v ↔ (k, v) ∈ view K s.data := by
  rcases h.mode with ⟨order, hn⟩ | hf
  · have hnodup : m.entries.keys.Nodup := (hn.perm.map Prod.fst).nodup_iff.mpr h.distinct
    rw [lookup_eq_some_iff hnodup, hn.perm.mem_iff]
  · rw [hf.entries_eq, lookup_eq_some_iff h.distinct]

/-- What a search for a key gives. -/
theorem get_index_of_cases (h : Rep K limit flags s m) (key : κ) :
    get_index_of K s.data key = none ∧ K.cls key ∉ m.entries.keys ∨
      ∃ i e, get_index_of K s.data key = some i ∧ s.data[i]? = some e ∧ K.cls e.1 = K.cls key ∧
        m.entries.lookup (K.cls key) = some e.2 := by
  cases hi : get_index_of K s.data key with
  | none =>
    rw [get_index_of_eq, OrderedMap.position_eq_none] at hi
    exact .inl ⟨rfl, mt (mem_keys_iff h).mp hi⟩
  | some i =>
    rw [get_index_of_eq, OrderedMap.position_eq_some h.distinct, OrderedMap.getElem?_keys, getElem?_view] at hi
    obtain ⟨e', he', hk⟩ := Option.map_eq_some_iff.mp hi
    obtain ⟨e, he, rfl⟩ := Option.map_eq_some_iff.mp he'
    refine .inr ⟨i, e, rfl, he, hk, (lookup_iff h).mpr ?_⟩
    rw [← hk]
    exact List.mem_of_getElem? (i := i) (by simp [he])

namespace NativeMode

variable {order : List ℕ} {i : ℕ} {e : κ × ν} {b : Words}

/-- The entry at a position has become the most recent. -/
theorem touched (hn : NativeMode K flags s m.entries order) (h : Rep K limit flags s m) (hi : s.data[i]? = some e)
    (hb : Threaded b s.data.length (order.erase i ++ [i])) (htake : b.words.take HEAD = s.bytes.words.take HEAD) :
    Rep K limit flags { s with bytes := b }
      { m with entries := m.entries.remove (K.cls e.1) ++ [(K.cls e.1, e.2)] } where
  header := h.header.of_take htake
  distinct := h.distinct
  small := h.small
  mode := by
    have hview : (view K s.data)[i]? = some (K.cls e.1, e.2) := by simp [hi]
    refine .inl ⟨_, hn.flag, hn.native, hb, ?_⟩
    rw [arranged_append, arranged_erase h.distinct hn.threaded.linked.nodup hview, arranged_singleton hview,
      ← hn.entries_eq]

theorem touch_wp (hn : NativeMode K flags s m.entries order) (h : Rep K limit flags s m)
    (hi : s.data[i]? = some e) {R : Unit → Lru κ ν → Prop} :
    wp (onWords (Links.touch ⟨s.data.length⟩ i)) (fun _ s' => s'.data = s.data ∧ Rep K limit flags s'
      { m with entries := m.entries.remove (K.cls e.1) ++ [(K.cls e.1, e.2)] }) R s := by
  have hlt := (List.getElem?_eq_some_iff.mp hi).1
  refine wp_onWords (wp_mono (hn.threaded.touch_wp hlt) ?_ (fun _ _ => id))
  rintro _ b ⟨hb, htake⟩
  exact ⟨rfl, hn.touched h hi hb htake⟩

end NativeMode

theorem nodup_moved {l : OrderedMap ρ ν} {k : ρ} {v : ν} (h : l.keys.Nodup) :
    OrderedMap.keys (l.remove k ++ [(k, v)]) |>.Nodup := by
  have hk : k ∉ (l.remove k).keys := by
    intro hmem
    obtain ⟨e, he, rfl⟩ := List.mem_map.mp hmem
    simp [OrderedMap.remove] at he
  rw [OrderedMap.keys, List.map_append]
  exact List.nodup_append_comm.mp (List.nodup_cons.mpr ⟨hk, OrderedMap.nodup_remove h⟩)

theorem nodup_put {k : ρ} {v : ν} (h : m.entries.keys.Nodup) : (m.put k v limit).entries.keys.Nodup := by
  rw [Recency.put]
  dsimp only
  split_ifs with hk
  · exact h
  · have hcons : (OrderedMap.keys (m.entries ++ [(k, v)])).Nodup := by
      rw [OrderedMap.keys, List.map_append]
      exact List.nodup_append_comm.mp (List.nodup_cons.mpr ⟨hk, h⟩)
    exact hcons.sublist ((List.drop_sublist _ _).map Prod.fst)

/-- What a lookup that is settled does to the recency list. -/
def Answered (K : Keys κ ρ) (limit flags : ℕ) (m : Recency ρ ν) (key : κ) (s : Lru κ ν) : NativeLookup ν → Prop
  | .hit v => m.entries.lookup (K.cls key) = some v ∧ Rep K limit flags s (m.hit (K.cls key) v)
  | .miss => K.cls key ∉ m.entries.keys ∧ Rep K limit flags s m.miss

theorem probe_index_of_exact {data : List (κ × ν)} (hexact : p.is_exact = true) :
    probe_index_of K data key p = get_index_of K data key := by
  simp [probe_index_of, hexact]

/-- A hit in native mode. -/
theorem Rep.touch_at (h : Rep K limit flags s m) (hflag : flags &&& FALLBACK = 0) {i : ℕ} {e : κ × ν}
    (hi : s.data[i]? = some e) (hk : K.cls e.1 = K.cls key) {R : Unit → Lru κ ν → Prop} :
    wp (onWords (do
      let links ← Links.new s.data.length
      links.touch i)) (fun _ s' => Rep K limit flags s'
        { m with entries := m.entries.remove (K.cls key) ++ [(K.cls key, e.2)] }) R s := by
  obtain ⟨order, hn⟩ := h.native hflag
  have hlt := (List.getElem?_eq_some_iff.mp hi).1
  refine wp_onWords (wp_seq hn.threaded.new_wp ?_)
  rintro _ _ ⟨rfl, rfl⟩
  refine wp_mono (hn.threaded.touch_wp hlt) ?_ (fun _ _ => id)
  rintro _ b ⟨hb, htake⟩
  exact hk ▸ hn.touched h hi hb htake

theorem lru_native_lookup_wp (h : Rep K limit flags s m) :
    wp (lru_native_lookup K key p) (fun r s' => Answered K limit flags m key s' r) (fun _ s' => s' = s) s := by
  refine wp_seq h.mode_wp ?_
  rintro _ s ⟨rfl, rfl⟩
  refine wp_ite (fun _ => rfl) fun hflag => wp_bind (wp_gets (wp_ite (fun _ => rfl) fun hexact => ?_))
  rw [probe_index_of_exact (by simpa using hexact)]
  rcases get_index_of_cases h key with ⟨hnone, hmiss⟩ | ⟨i, e, hsome, hi, hk, hhit⟩
  · rw [hnone]
    exact wp_seq h.miss_wp fun _ s' hs' => wp_pure ⟨hmiss, hs'⟩
  · simp only [hsome, hi]
    refine wp_bind (wp_pure (wp_seq (h.touch_at (by simpa using hflag) hi hk) fun _ s' hs' => ?_))
    exact wp_seq hs'.hit_wp fun _ s'' hs'' => wp_pure ⟨hhit, hs''⟩

theorem lru_probe_with_wp (h : Rep K limit flags s m) :
    wp (lru_probe_with K key p) (fun r s' => Answered K limit flags m key s' r) (fun _ s' => s' = s) s := by
  refine wp_seq h.mode_wp ?_
  rintro _ s ⟨rfl, rfl⟩
  refine wp_ite (fun _ => rfl) fun hflag => wp_bind (wp_gets (wp_ite (fun _ => rfl) fun hexact => ?_))
  have hmode : flags &&& FALLBACK = 0 := by
    have hnot : flags &&& (TYPED ||| FALLBACK) = 0 := by
      simp only [Bool.or_eq_true, decide_eq_true_eq, not_or, Decidable.not_not] at hflag
      exact hflag.2
    rw [Nat.and_or_distrib_left, Nat.or_eq_zero_iff] at hnot
    exact hnot.2
  dsimp only [id]
  rw [probe_index_of_exact (by simpa using hexact)]
  rcases get_index_of_cases h key with ⟨hnone, hmiss⟩ | ⟨i, e, hsome, hi, hk, hhit⟩
  · rw [hnone]
    refine wp_ite (fun _ => rfl) fun _ => ?_
    exact wp_seq h.miss_wp fun _ s' hs' => wp_pure ⟨hmiss, hs'⟩
  · simp only [hsome, hi]
    refine wp_bind (wp_pure (wp_seq (h.touch_at hmode hi hk) fun _ s' hs' => ?_))
    exact wp_seq hs'.hit_wp fun _ s'' hs'' => wp_pure ⟨hhit, hs''⟩

/-- The fallback's lookup moves the entry that it finds to the end. -/
theorem fallback_lookup_wp (h : Rep K limit flags s m) (hflag : flags &&& FALLBACK ≠ 0) {R : E → Lru κ ν → Prop} :
    wp (fallback_lookup K key) (fun r s' => r = m.entries.lookup (K.cls key) ∧ Rep K limit flags s'
      (match r with
      | some v => { m with entries := m.entries.remove (K.cls key) ++ [(K.cls key, v)] }
      | none => m)) R s := by
  have hf := h.fallback hflag
  refine wp_bind (wp_gets ?_)
  rcases get_index_of_cases h key with ⟨hnone, hmiss⟩ | ⟨i, e, hsome, hi, hk, hhit⟩
  · rw [hnone]
    exact wp_pure ⟨(OrderedMap.lookup_of_not_mem hmiss).symm, h⟩
  · simp only [hsome, hi]
    refine wp_bind (wp_setData (wp_pure ⟨hhit.symm, ?_⟩))
    have hlt := (List.getElem?_eq_some_iff.mp hi).1
    have hkey : (view K s.data).keys[i]? = some (K.cls key) := by simp [OrderedMap.getElem?_keys, hi, hk]
    have hview : view K (s.data.eraseIdx i ++ [(key, e.2)]) =
        OrderedMap.remove m.entries (K.cls key) ++ [(K.cls key, e.2)] := by
      rw [hf.entries_eq, OrderedMap.remove_of_getElem? h.distinct hkey]
      simp [view, List.eraseIdx_map]
    refine ⟨h.header, ?_, ?_, .inr ⟨hf.flag, hf.empty, hview.symm⟩⟩
    · rw [hview]
      exact nodup_moved (hf.entries_eq ▸ h.distinct)
    · have := h.small
      simp only [List.length_append, List.length_eraseIdx, hlt, ↓reduceIte, List.length_singleton]
      omega

/-- The store of the fallback is the list's. -/
theorem fallback_store_wp (h : Rep K limit flags s m) (hflag : flags &&& FALLBACK ≠ 0) {R : E → Lru κ ν → Prop} :
    wp (fallback_store K key value limit) (fun _ s' => Rep K limit flags s' (m.put (K.cls key) value limit)) R s := by
  have hf := h.fallback hflag
  refine wp_bind (wp_gets ?_)
  rcases get_index_of_cases h key with ⟨hnone, hmiss⟩ | ⟨i, e, hsome, hi, hk, hhit⟩
  · rw [hnone]
    refine wp_ite (fun hc => by simp at hc) fun _ => wp_setData ?_
    have hview : view K ((s.data ++ [(key, value)]).drop (s.data.length + 1 - limit)) =
        (Recency.put m (K.cls key) value limit).entries := by
      rw [Recency.put, if_neg hmiss, hf.entries_eq]
      simp [view, List.map_drop]
    refine ⟨h.header, ?_, ?_, .inr ⟨hf.flag, hf.empty, hview.symm⟩⟩
    · rw [hview]
      exact nodup_put (hf.entries_eq ▸ h.distinct)
    · simp only [List.length_drop, List.length_append, List.length_singleton]
      omega
  · rw [hsome]
    refine wp_ite (fun _ => wp_pure ?_) fun hc => by simp at hc
    have hmem : K.cls key ∈ m.entries.keys := OrderedMap.lookup_isSome.mp (by rw [hhit]; rfl)
    rw [Recency.put, if_pos hmem]
    exact h

namespace NativeMode

variable {order : List ℕ} {i : ℕ} {b : Words}

/-- The least recent entry of a full cache has given its place to a new one. -/
theorem replaced (hn : NativeMode K flags s m.entries order) (h : Rep K limit flags s m) (hi : order.head? = some i)
    (hfull : s.data.length = limit) (hmiss : K.cls key ∉ m.entries.keys) (hkey : K.native key = true)
    (hb : Threaded b s.data.length (order.erase i ++ [i])) (htake : b.words.take HEAD = s.bytes.words.take HEAD) :
    Rep K limit flags { s with bytes := b, data := s.data.set i (key, value) } (m.put (K.cls key) value limit) := by
  obtain ⟨rest, rfl⟩ : ∃ rest, order = i :: rest := by
    cases order with
    | nil => simp at hi
    | cons j rest => exact ⟨rest, by simpa using hi⟩
  have hview : view K (s.data.set i (key, value)) = (view K s.data).set i (K.cls key, value) := by
    simp [view, List.map_set]
  have hentries : (m.put (K.cls key) value limit).entries =
      arranged (view K (s.data.set i (key, value))) ((i :: rest).erase i ++ [i]) := by
    have hlt : ∀ j ∈ i :: rest, j < (view K s.data).length := fun j hj => (hn.mem_iff j).mp hj
    have hlen := hn.length_eq
    rw [Recency.put, if_neg hmiss, hview, List.erase_cons_head,
      arranged_replace hn.threaded.linked.nodup hlt, ← hn.entries_eq]
    have hone : m.entries.length + 1 - limit = 1 := by omega
    have hpos : 0 < m.entries.length := by
      rw [hlen, ← length_view (K := K)]
      exact Nat.zero_lt_of_lt (hlt i (by simp))
    rw [hone, List.drop_append_of_le_length hpos]
  have hput : (m.put (K.cls key) value limit).entries.Perm (view K (s.data.set i (key, value))) := by
    rw [hentries]
    refine arranged_perm hb.linked.nodup fun j => ?_
    rw [hb.mem_iff, length_view, List.length_set]
  refine ⟨h.header.of_take htake, ?_, ?_, .inl ⟨_, hn.flag, ?_, ?_, hentries⟩⟩
  · exact (hput.map Prod.fst).nodup_iff.mp (nodup_put ((hn.perm.map Prod.fst).nodup_iff.mpr h.distinct))
  · simpa using h.small
  · intro e he
    rcases List.mem_or_eq_of_mem_set he with he | rfl
    · exact hn.native e he
    · exact hkey
  · simpa using hb

/-- A new entry. -/
theorem pushed (hn : NativeMode K flags s m.entries order) (h : Rep K limit flags s m)
    (hroom : s.data.length < limit) (hmiss : K.cls key ∉ m.entries.keys) (hkey : K.native key = true)
    (hb : Threaded b (s.data.length + 1) (order ++ [s.data.length]))
    (htake : b.words.take HEAD = s.bytes.words.take HEAD) :
    Rep K limit flags { s with bytes := b, data := s.data ++ [(key, value)] } (m.put (K.cls key) value limit) := by
  have hview : view K (s.data ++ [(key, value)]) = view K s.data ++ [(K.cls key, value)] := by simp [view]
  have hentries : (m.put (K.cls key) value limit).entries =
      arranged (view K (s.data ++ [(key, value)])) (order ++ [s.data.length]) := by
    have hlen := hn.length_eq
    have hzero : m.entries.length + 1 - limit = 0 := by omega
    rw [Recency.put, if_neg hmiss, hview, arranged_append, arranged_concat fun j hj => (hn.mem_iff j).mp hj,
      ← hn.entries_eq, hzero]
    simp [arranged]
  refine ⟨h.header.of_take htake, ?_, ?_, .inl ⟨_, hn.flag, ?_, ?_, hentries⟩⟩
  · rw [hview, OrderedMap.keys, List.map_append]
    exact List.nodup_append_comm.mp (List.nodup_cons.mpr ⟨mt (mem_keys_iff h).mpr hmiss, h.distinct⟩)
  · rwa [List.length_append, List.length_singleton]
  · intro e he
    rcases List.mem_append.mp he with he | he
    · exact hn.native e he
    · rw [List.mem_singleton.mp he]
      exact hkey
  · simpa using hb

end NativeMode

/-- Whether one more entry's links fit the address space. -/
def Fits (s : Lru κ ν) : Prop := (HEADER + 2 * (s.data.length + 1)) * 8 < 2 ^ 64

theorem put_of_mem {k : ρ} {v : ν} (hk : k ∈ m.entries.keys) : m.put k v limit = m := by
  rw [Recency.put, if_pos hk]

theorem native_store_in_wp (h : Rep K limit flags s m) (hlimit : 0 < limit) (hfits : Fits s)
    (hkey : flags &&& FALLBACK = 0 → K.native key = true) :
    wp (native_store_in K key p value limit) (fun stored s' =>
      if stored then Rep K limit flags s' (m.put (K.cls key) value limit)
      else s' = s ∧ (p.is_exact = true → flags &&& FALLBACK ≠ 0))
      (fun e s' => e = .exported ∧ s' = s ∧ s.exported = true) s := by
  refine wp_bind (wp_attempt (wp_mono h.mode_wp ?_ fun _ _ => id))
  rintro _ s ⟨rfl, rfl⟩
  refine wp_bind (wp_gets (wp_ite (fun hinexact => wp_pure ?_) fun hexact => ?_))
  · exact ⟨rfl, fun hexact => by simp [hexact] at hinexact⟩
  have hexact : p.is_exact = true := by simpa using hexact
  rw [probe_index_of_exact hexact]
  rcases get_index_of_cases h key with ⟨hnone, hmiss⟩ | ⟨i, e, hsome, hi, hk, hhit⟩
  · rw [hnone]
    refine wp_ite (fun hc => by simp at hc) fun _ => wp_ite (fun hdecline => wp_pure ?_) fun hnative => ?_
    · refine ⟨rfl, fun _ => ?_⟩
      have hsmall := h.small
      simp only [Bool.or_eq_true, decide_eq_true_eq] at hdecline
      exact hdecline.resolve_right (by omega)
    · have hflag : flags &&& FALLBACK = 0 := by
        simp only [Bool.or_eq_true, decide_eq_true_eq, not_or, Decidable.not_not] at hnative
        exact hnative.1
      obtain ⟨order, hn⟩ := h.native hflag
      refine wp_bind (wp_attempt (wp_mono hn.new_wp ?_ fun _ _ => id))
      rintro l t ⟨rfl, rfl⟩
      refine wp_ite (fun hfull => ?_) fun hroom => ?_
      · obtain ⟨i, hi, hlt⟩ := hn.exists_head (hfull ▸ hlimit)
        refine wp_bind (wp_attempt (wp_mono (hn.head_wp hi) ?_ fun _ _ => id))
        rintro r t ⟨rfl, rfl⟩
        refine wp_bind (wp_checked (wp_mono (hn.threaded.touch_wp hlt) ?_ fun _ _ => id))
        rintro _ b ⟨hb, htake⟩
        exact wp_bind (wp_setData (wp_pure (hn.replaced h hi hfull hmiss (hkey hflag) hb htake)))
      · have hless : t.data.length < limit := lt_of_le_of_ne h.small hroom
        refine wp_bind (resizable_wp (fun _ => ?_) fun hexp => ⟨rfl, rfl, hexp⟩)
        refine wp_bind (wp_checked (wp_mono (hn.threaded.push_wp hfits) ?_ fun _ _ => id))
        rintro _ b ⟨-, hb, htake⟩
        exact wp_bind (wp_setData (wp_pure (hn.pushed h hless hmiss (hkey hflag) hb htake)))
  · rw [hsome]
    refine wp_ite (fun _ => wp_pure ?_) fun hc => by simp at hc
    have hmem : K.cls key ∈ m.entries.keys := OrderedMap.lookup_isSome.mp (by rw [hhit]; rfl)
    simpa [put_of_mem hmem] using h

/-- What a settled operation on a key answers, and does to the recency list: a lookup without `insert`. -/
def Settles (K : Keys κ ρ) (limit flags : ℕ) (m : Recency ρ ν) (key : κ) (insert : Option (ν × ℕ)) (found : Option ν)
    (s : Lru κ ν) : Prop :=
  match insert with
  | some (value, _) => Rep K limit flags s (m.put (K.cls key) value limit)
  | none => found = m.entries.lookup (K.cls key) ∧ Rep K limit flags s
      (match found with
      | some v => { m with entries := m.entries.remove (K.cls key) ++ [(K.cls key, v)] }
      | none => m)

theorem probed_or (data : List (κ × ν)) :
    (if p.leaf then probe_index_of K data key p else none).or (get_index_of K data key) = get_index_of K data key := by
  rw [probe_index_of]
  split_ifs
  · cases get_index_of K data key <;> rfl
  · rfl
  · rfl

theorem scalar_lru_operation_wp (key : κ) (insert : Option (ν × ℕ)) (h : Rep K limit flags s m) (hlimit : 0 < limit)
    (hfits : insert.isSome = true → Fits s) (hsound : flags &&& FALLBACK = 0 → p.Sound K s) (hinsert : ∀ i ∈ insert, i.2 = limit) :
    wp (scalar_lru_operation K key p insert) (fun r s' => match r with
      | .slow => ∃ flags', flags' &&& FALLBACK ≠ 0 ∧ Rep K limit flags' s' m
      | .complete found => Settles K limit flags m key insert found s')
      (fun e s' => e = .exported ∧ s' = s ∧ s.exported = true) s := by
  refine wp_bind (wp_checked (wp_mono h.header.mode_wp ?_ fun _ _ => id))
  rintro _ _ ⟨rfl, rfl⟩
  refine wp_ite (fun hflag => wp_pure ⟨flags, hflag, h⟩) fun hflag => wp_bind (wp_gets ?_)
  have hflag : flags &&& FALLBACK = 0 := by simpa using hflag
  refine wp_ite (fun _ => ?_) fun hnative => ?_
  · refine wp_bind (wp_mono (lru_demote_wp h hflag) ?_ fun _ _ => id)
    rintro _ s' ⟨-, hs'⟩
    refine wp_pure ⟨_, ?_, hs'⟩
    rw [Nat.and_comm, Nat.and_or_distrib_left, Nat.and_comm, hflag]
    decide
  obtain ⟨order, hn⟩ := h.native hflag
  have hkey : K.native key = true := by
    simp only [Bool.or_eq_true, Bool.not_eq_true', not_or, Bool.not_eq_false] at hnative
    exact hnative.1
  refine wp_bind (wp_checked (wp_mono hn.threaded.new_wp ?_ fun _ _ => id))
  rintro _ _ ⟨rfl, rfl⟩
  refine wp_ite (fun hdeferred => ?_) fun _ => ?_
  · simp only [Bool.and_eq_true] at hdeferred
    obtain ⟨e, he, hforeign⟩ := hsound hflag hdeferred.2
    rw [hn.native e he] at hforeign
    cases hforeign
  dsimp only
  rw [probed_or]
  rcases get_index_of_cases h key with ⟨hnone, hmiss⟩ | ⟨i, e, hsome, hi, hk, hhit⟩
  · rw [hnone]
    cases insert with
    | none => exact wp_pure ⟨(OrderedMap.lookup_of_not_mem hmiss).symm, h⟩
    | some new =>
      obtain ⟨value, limit'⟩ := new
      obtain rfl : limit' = limit := hinsert _ rfl
      refine wp_ite (fun hfull => ?_) fun hroom => ?_
      · obtain ⟨i, hi, hlt⟩ := hn.exists_head (hfull ▸ hlimit)
        refine wp_bind (wp_checked (wp_mono (hn.threaded.head_wp hi) ?_ fun _ _ => id))
        rintro _ _ ⟨rfl, rfl⟩
        refine wp_bind (wp_checked (wp_mono (hn.threaded.touch_wp hlt) ?_ fun _ _ => id))
        rintro _ b ⟨hb, htake⟩
        exact wp_bind (wp_setData (wp_pure (hn.replaced h hi hfull hmiss hkey hb htake)))
      · have hless : s.data.length < limit' := lt_of_le_of_ne h.small hroom
        refine wp_bind (resizable_wp (fun _ => ?_) fun hexp => ⟨rfl, rfl, hexp⟩)
        refine wp_bind (wp_checked (wp_mono (hn.threaded.push_wp (hfits rfl)) ?_ fun _ _ => id))
        rintro _ b ⟨-, hb, htake⟩
        exact wp_bind (wp_setData (wp_pure (hn.pushed h hless hmiss hkey hb htake)))
  · have hmem : K.cls key ∈ m.entries.keys := OrderedMap.lookup_isSome.mp (by rw [hhit]; rfl)
    have hlt := (List.getElem?_eq_some_iff.mp hi).1
    simp only [hsome, hi]
    refine wp_ite (fun hforeign => ?_) fun _ => wp_ite (fun hins => wp_pure ?_) fun hins => ?_
    · rw [hn.native e (List.mem_of_getElem? hi)] at hforeign
      cases hforeign
    · obtain ⟨new, rfl⟩ := Option.isSome_iff_exists.mp hins
      simpa [Settles, put_of_mem hmem] using h
    · obtain rfl : insert = none := by simpa using hins
      refine wp_bind (wp_checked (wp_mono (hn.threaded.touch_wp hlt) ?_ fun _ _ => id))
      rintro _ b ⟨hb, htake⟩
      exact wp_pure ⟨hhit.symm, hk ▸ hn.touched h hi hb htake⟩

end WeavePy.LruCache
