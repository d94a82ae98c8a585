import WeavePy.LruCache.Links
import WeavePy.LruCache.Wrapper
import WeavePy.Lib.OrderedMap
import Mathlib.Data.List.Induction

/-!
What a bounded `lru_cache` is for, its entries from the least recent to the most recent, and how the wrapper's
dictionary and words stand for it.
-/

namespace WeavePy.LruCache

open Prog

/-- The entries, the least recent first, and the calls that hit and missed. -/
structure Recency (ρ ν : Type) where
  entries : OrderedMap ρ ν
  hits : ℕ
  misses : ℕ

namespace Recency

variable {ρ ν : Type} [DecidableEq ρ] (m : Recency ρ ν) (k : ρ) (v : ν)

def hit : Recency ρ ν := ⟨m.entries.remove k ++ [(k, v)], m.hits + 1, m.misses⟩

def miss : Recency ρ ν := { m with misses := m.misses + 1 }

/-- A stored key stays as it is; a new one may drive the least recent entry out. -/
def put (limit : ℕ) : Recency ρ ν :=
  { m with entries :=
      if k ∈ m.entries.keys then m.entries
      else (m.entries ++ [(k, v)]).drop (m.entries.length + 1 - limit) }

end Recency

variable {κ ρ ν : Type} {K : Keys κ ρ} {data : List (κ × ν)} {key : κ} {value : ν} {i : ℕ}

/-- The dictionary by the classes of its keys. -/
def view (K : Keys κ ρ) (data : List (κ × ν)) : OrderedMap ρ ν := data.map fun e => (K.cls e.1, e.2)

@[simp]
theorem length_view : (view K data).length = data.length := List.length_map _

@[simp]
theorem getElem?_view : (view K data)[i]? = data[i]?.map fun e => (K.cls e.1, e.2) := List.getElem?_map

section Arranged

variable {α : Type} {l : List α} {order : List ℕ}

/-- The members of `l` in the order of the positions. -/
def arranged (l : List α) (order : List ℕ) : List α := order.filterMap fun i => l[i]?

@[simp]
theorem arranged_nil (l : List α) : arranged l [] = [] := rfl

theorem arranged_append (a b : List ℕ) : arranged l (a ++ b) = arranged l a ++ arranged l b := List.filterMap_append

theorem arranged_singleton {a : α} (h : l[i]? = some a) : arranged l [i] = [a] := by
  simp [arranged, h]

theorem arranged_congr {l' : List α} (h : ∀ i ∈ order, l[i]? = l'[i]?) : arranged l order = arranged l' order :=
  List.filterMap_congr h

theorem arranged_concat {a : α} (h : ∀ i ∈ order, i < l.length) : arranged (l ++ [a]) order = arranged l order :=
  arranged_congr fun i hi => List.getElem?_append_left (h i hi)

theorem arranged_range (l : List α) : arranged l (List.range l.length) = l := by
  induction l using List.reverseRecOn with
  | nil => rfl
  | append_singleton l a ih =>
    rw [List.length_append, List.length_singleton, List.range_succ, arranged_append,
      arranged_concat (by simp), ih, arranged_singleton (a := a) (by simp)]

theorem arranged_map {β : Type} (f : α → β) : arranged (l.map f) order = (arranged l order).map f := by
  simp [arranged, List.map_filterMap]

theorem arranged_perm (hn : order.Nodup) (hmem : ∀ i, i ∈ order ↔ i < l.length) : (arranged l order).Perm l := by
  have hperm : order.Perm (List.range l.length) := by
    refine (List.perm_ext_iff_of_nodup hn List.nodup_range).mpr fun i => ?_
    rw [hmem, List.mem_range]
  have hall := hperm.filterMap fun i => l[i]?
  rwa [show List.filterMap (fun i => l[i]?) (List.range l.length) = l from arranged_range l] at hall

theorem length_arranged (h : ∀ i ∈ order, i < l.length) : (arranged l order).length = order.length := by
  induction order with
  | nil => rfl
  | cons i order ih =>
    have hi := h i (by simp)
    rw [arranged, List.filterMap_cons_some (List.getElem?_eq_getElem hi), List.length_cons, List.length_cons]
    exact congrArg Nat.succ (ih fun j hj => h j (List.mem_cons_of_mem i hj))

end Arranged

section Entries

variable {m : OrderedMap ρ ν} {order : List ℕ} {k : ρ} {v : ν}

/-- The least recent entry gives its place to a new one. -/
theorem arranged_replace (ho : (i :: order).Nodup) (hmem : ∀ j ∈ i :: order, j < m.length) :
    arranged (m.set i (k, v)) (order ++ [i]) = (arranged m (i :: order)).drop 1 ++ [(k, v)] := by
  have hi := hmem i (by simp)
  have hrest : arranged (m.set i (k, v)) order = arranged m order := by
    refine arranged_congr fun j hj => List.getElem?_set_ne ?_
    rintro rfl
    exact (List.nodup_cons.mp ho).1 hj
  have hcons : arranged m (i :: order) = m[i] :: arranged m order :=
    List.filterMap_cons_some (List.getElem?_eq_getElem hi)
  rw [arranged_append, hrest, arranged_singleton (a := (k, v)) (by simp [hi]), hcons]
  rfl

theorem mem_keys_perm {m' : OrderedMap ρ ν} (h : m.Perm m') : k ∈ m.keys ↔ k ∈ m'.keys := (h.map Prod.fst).mem_iff

variable [DecidableEq ρ]

/-- The entry at a position, taken out of the order. -/
theorem arranged_erase (hn : m.keys.Nodup) (ho : order.Nodup) (hi : m[i]? = some (k, v)) :
    arranged m (order.erase i) = OrderedMap.remove (arranged m order) k := by
  simp only [ho.erase_eq_filter, arranged, OrderedMap.remove, List.filterMap_filter, List.filter_filterMap]
  refine List.filterMap_congr fun j _ => ?_
  cases hj : m[j]? with
  | none => simp
  | some e =>
    have hiff : j = i ↔ e.1 = k := by
      have hik : m.keys[i]? = some k := by simp [OrderedMap.getElem?_keys, hi]
      have hje : m.keys[j]? = some e.1 := by simp [OrderedMap.getElem?_keys, hj]
      constructor
      · rintro rfl
        exact Option.some.inj (hje.symm.trans hik)
      · rintro rfl
        obtain ⟨hi', hik'⟩ := List.getElem?_eq_some_iff.mp hik
        obtain ⟨hj', hje'⟩ := List.getElem?_eq_some_iff.mp hje
        exact (List.Nodup.getElem_inj_iff hn).mp (hje'.trans hik'.symm)
    by_cases hji : j = i
    · simp [hji, Option.filter, hiff.mp hji]
    · simp [hji, Option.filter, mt hiff.mpr hji]

theorem lookup_eq_some_iff (hn : m.keys.Nodup) : m.lookup k = some v ↔ (k, v) ∈ m := by
  refine ⟨OrderedMap.mem_of_lookup, fun h => ?_⟩
  obtain ⟨i, hi⟩ := List.getElem?_of_mem h
  exact OrderedMap.lookup_of_getElem? hn hi

theorem get_index_of_eq : get_index_of K data key = (view K data).position (K.cls key) := by
  simp only [get_index_of, OrderedMap.position, OrderedMap.keys, view, List.map_map, List.findIdx?_map]
  rfl

end Entries

section Rules

variable {α E : Type} {s : Lru κ ν} {R : E → Lru κ ν → Prop}

theorem wp_onWords {m : Checked α} {Q : α → Lru κ ν → Prop} {R : Unit → Lru κ ν → Prop}
    (h : wp m (fun a b => Q a { s with bytes := b }) (fun e b => R e { s with bytes := b }) s.bytes) :
    wp (onWords m) Q R s := by
  unfold wp at h
  unfold wp onWords
  rcases hr : m s.bytes with x | ⟨e | a, b⟩
  · rw [hr] at h
    exact h
  · rw [hr] at h
    exact h
  · rw [hr] at h
    exact h

theorem wp_ok_or {m : Core κ ν Unit α} {Q : α → Lru κ ν → Prop} {e : E} (h : wp m Q (fun _ => R e) s) :
    wp (ok_or m e) Q R s :=
  wp_bind (wp_attempt (wp_mono h (fun _ _ => wp_pure) fun _ _ => id))

theorem wp_checked {m : Checked α} {Q : α → Lru κ ν → Prop} {R : LruError → Lru κ ν → Prop}
    (h : wp m (fun a b => Q a { s with bytes := b }) (fun _ b => R .inconsistent { s with bytes := b }) s.bytes) :
    wp (checked m) Q R s := wp_ok_or (wp_onWords h)

theorem wp_setData {Q : Unit → Lru κ ν → Prop} (h : Q () { s with data := data }) : wp (setData data) Q R s :=
  wp_modify h

end Rules

/-- The first four words. -/
structure Header (b : Words) (hits misses limit flags : ℕ) : Prop where
  take_eq : b.words.take HEAD = [hits % 2 ^ 64, misses % 2 ^ 64, limit, flags]

theorem Threaded.setWord_header {b : Words} {len i v : ℕ} {order : List ℕ} (h : Threaded b len order)
    (hi : i < HEAD) : Threaded (b.setWord i v) len order where
  sized := ⟨h.sized.1, (Words.length_setWord ..).trans h.sized.2⟩
  fits := h.fits
  linked := by
    have hout (o : Option ℕ) : nextPlace o ≠ i ∧ prevPlace o ≠ i := by
      simp only [HEAD] at hi
      cases o with
      | none => simp [nextPlace, prevPlace, HEAD, TAIL]; omega
      | some j => simp [nextPlace, prevPlace, HEADER]; omega
    have hn : (b.setWord i v).nextOf = b.nextOf := by
      funext o
      rw [Words.nextOf, Words.word_setWord_of_ne (hout o).1, Words.nextOf]
    have hp : (b.setWord i v).prevOf = b.prevOf := by
      funext o
      rw [Words.prevOf, Words.word_setWord_of_ne (hout o).2, Words.prevOf]
    rw [hn, hp]
    exact h.linked
  mem_iff := h.mem_iff

theorem Empty.setWord_header {b : Words} {i v : ℕ} (h : Empty b) (hi : i < HEAD) : Empty (b.setWord i v) := by
  obtain ⟨hrest, hlen, hhead, htail⟩ := h
  refine ⟨hrest, by rwa [Words.length_setWord], ?_, ?_⟩
  · rwa [Words.word_setWord_of_ne (Nat.ne_of_gt hi)]
  · rwa [Words.word_setWord_of_ne (Nat.ne_of_gt (show i < TAIL from Nat.lt_succ_of_lt hi))]

theorem wp_read {b : Words} {index : ℕ} {Q : ℕ → Words → Prop} {R : Unit → Words → Prop}
    (hi : index < b.words.length) (h : Q (b.word index) b) : wp (read index) Q R b := by
  refine wp_bind (wp_gets ?_)
  simp only [id, List.getElem?_eq_getElem hi, some_]
  exact wp_pure (Words.word_eq hi ▸ h)

namespace Header

variable {b : Words} {hits misses limit flags : ℕ} {R : Unit → Words → Prop}

theorem length (h : Header b hits misses limit flags) : 4 ≤ b.words.length := by
  have hlen := congrArg List.length h.take_eq
  simp only [List.length_take, List.length_cons, List.length_nil, HEAD] at hlen
  omega

theorem word_eq (h : Header b hits misses limit flags) {i : ℕ} (hi : i < HEAD) :
    b.word i = [hits % 2 ^ 64, misses % 2 ^ 64, limit, flags].getD i 0 := by
  rw [← h.take_eq, Words.word, List.getD_eq_getElem?_getD, List.getD_eq_getElem?_getD, List.getElem?_take, if_pos hi]

theorem take_setWord {i : ℕ} (v : ℕ) (h : Header b hits misses limit flags) : (b.setWord i v).words.take HEAD =
    [hits % 2 ^ 64, misses % 2 ^ 64, limit, flags].set i v := by
  rw [← h.take_eq, Words.setWord, List.take_set]

theorem mode_wp (h : Header b hits misses limit flags) : wp mode (fun r b' => r = (limit, flags) ∧ b' = b) R b := by
  have hlen := h.length
  refine wp_bind (wp_read (by simp only [LIMIT]; omega) (wp_bind (wp_read (by simp only [FLAGS]; omega) ?_)))
  rw [h.word_eq (i := LIMIT) (by decide), h.word_eq (i := FLAGS) (by decide)]
  exact wp_pure ⟨rfl, rfl⟩

theorem hit_wp (h : Header b hits misses limit flags) {Q : Unit → Words → Prop}
    (hq : ∀ v, Header (b.setWord HITS v) (hits + 1) misses limit flags → Q () (b.setWord HITS v)) :
    wp LruCache.hit Q R b := by
  have hlen := h.length
  refine wp_bind (wp_read (by simp only [HITS]; omega) (wp_write (by simp only [HITS]; omega) (hq _ ⟨?_⟩)))
  rw [h.take_setWord, h.word_eq (by decide)]
  simp [HITS, wrapping_add]

theorem miss_wp (h : Header b hits misses limit flags) {Q : Unit → Words → Prop}
    (hq : ∀ v, Header (b.setWord MISSES v) hits (misses + 1) limit flags → Q () (b.setWord MISSES v)) :
    wp LruCache.miss Q R b := by
  have hlen := h.length
  refine wp_bind (wp_read (by simp only [MISSES]; omega) (wp_write (by simp only [MISSES]; omega) (hq _ ⟨?_⟩)))
  rw [h.take_setWord, h.word_eq (by decide)]
  simp [MISSES, wrapping_add]

end Header

end WeavePy.LruCache
