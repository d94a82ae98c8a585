import WeavePy.DictMap.Key
import WeavePy.Lib.OrderedMap
import WeavePy.Rust

/-!
A class's table of attribute names: append-only while shared, closed up in place once private, with a
filter over the names' hashes.
-/

namespace WeavePy.InstDict

open DictMap

def SHARED_KEYS_CAP : ℕ := 30

def DERIVED_CAP : ℕ := 8

abbrev TableId := ℕ

/-- A name as a caller passes it; `same` tells the strings that sit where it does. -/
structure NameRef where
  str : SharedStr
  same : SharedStr → Bool
  same_bytes : ∀ s, same s = true → s.bytes = str.bytes

def keyNames (key : SharedStr) (name : NameRef) : Bool := name.same key || key.bytes == name.str.bytes

def keyNamesStr (key : SharedStr) (name : NameRef) : Bool := key.bytes == name.str.bytes

theorem keyNames_iff {key : SharedStr} {name : NameRef} :
    keyNames key name = true ↔ key.bytes = name.str.bytes := by
  unfold keyNames
  rw [Bool.or_eq_true, beq_iff_eq]
  exact ⟨fun h => h.elim (name.same_bytes key) id, .inr⟩

theorem keyNamesStr_iff {key : SharedStr} {name : NameRef} :
    keyNamesStr key name = true ↔ key.bytes = name.str.bytes := beq_iff_eq

/-- `1 << (hash & 63)`. -/
def filterBit (hash : Int64) : BitVec 64 := 1#64 <<< (hash.toBitVec &&& 63#64).toNat

/-- The published names with their hashes; `derived` lists `(n, i, table)` for the table of the first
`n` names less the `i`th. -/
structure SharedKeys where
  names : List (SharedStr × Int64)
  filter : BitVec 64
  derived : List (ℕ × ℕ × TableId)
  fits : names.length ≤ SHARED_KEYS_CAP

namespace SharedKeys

def new : SharedKeys := ⟨[], 0, [], by simp⟩

def len (t : SharedKeys) : ℕ := t.names.length

def get (t : SharedKeys) (i : ℕ) : Option SharedStr := t.names[i]?.map Prod.fst

def positionHashed (t : SharedKeys) (n : ℕ) (name : NameRef) (hash : Int64) : Option ℕ :=
  if t.filter &&& filterBit hash = 0 then none
  else (List.range (min n t.len)).find? fun i =>
    t.names[i]?.any fun k => k.2 == hash && keyNamesStr k.1 name

def pushKey (t : SharedKeys) (key : SharedStr) (hash : Int64) : Option SharedKeys :=
  if h : t.names.length < SHARED_KEYS_CAP then
    some ⟨t.names ++ [(key, hash)], t.filter ||| filterBit hash, t.derived, by
      rw [List.length_append, List.length_singleton]
      omega⟩
  else none

def push (Ω : Type) [KeyOps Ω] (t : SharedKeys) (name : SharedStr) : Option SharedKeys :=
  t.pushKey name (KeyOps.pyStrHash Ω name.bytes)

def filterOf (names : List (SharedStr × Int64)) : BitVec 64 :=
  names.foldl (fun filter k => filter ||| filterBit k.2) 0

def removeAt (t : SharedKeys) (i : ℕ) : SharedKeys :=
  if t.names.length ≤ i then t
  else ⟨t.names.eraseIdx i, filterOf (t.names.eraseIdx i), [],
    Nat.le_trans (List.length_eraseIdx_le t.names i) t.fits⟩

/-- The first `n` names less the `i`th, in a table of their own. -/
def fresh (t : SharedKeys) (n i : ℕ) : Outcome SharedKeys :=
  ((List.range n).filter (· ≠ i)).foldlM (fun f k => do
    let key ← t.names[k]?.elim (.error .panic) .ok
    return (f.pushKey key.1 key.2).getD f) new

/-- The names as texts. -/
def texts (t : SharedKeys) : List (List UInt8) := t.names.map fun k => k.1.bytes

end SharedKeys

/-- The names are distinct, stored with their hashes, and none is ruled out by the filter. -/
structure Proper (Ω : Type) [KeyOps Ω] (t : SharedKeys) : Prop where
  distinct : t.texts.Nodup
  hashed : ∀ k ∈ t.names, k.2 = KeyOps.pyStrHash Ω k.1.bytes
  filtered : ∀ k ∈ t.names, t.filter &&& filterBit k.2 ≠ 0

section Bits

variable {a b c : BitVec 64}

theorem filterBit_ne_zero (hash : Int64) : filterBit hash ≠ 0 := by
  unfold filterBit
  generalize hk : (hash.toBitVec &&& 63#64).toNat = k
  have hlt : k < 64 := by
    rw [BitVec.toNat_and] at hk
    have : hash.toBitVec.toNat &&& (63#64).toNat ≤ (63#64).toNat := Nat.and_le_right
    have h63 : (63#64).toNat = 63 := rfl
    omega
  intro h
  have hbit := congrArg (fun x => x.getLsbD k) h
  simp [hlt] at hbit

theorem and_or_ne_zero_left (h : a &&& c ≠ 0) : (a ||| b) &&& c ≠ 0 := by
  rw [BitVec.and_comm, BitVec.and_or_distrib_left]
  intro hz
  rw [BitVec.and_comm] at h
  exact h (BitVec.or_eq_zero_iff.mp hz).1

theorem or_and_self_ne_zero (h : b ≠ 0) : (a ||| b) &&& b ≠ 0 := by
  rw [BitVec.and_comm, BitVec.and_or_distrib_left, BitVec.and_self]
  intro hz
  exact h (BitVec.or_eq_zero_iff.mp hz).2

end Bits

namespace SharedKeys

variable {Ω : Type} [KeyOps Ω] {t t' : SharedKeys} {n i : ℕ} {name : NameRef} {key : SharedStr}
  {hash : Int64}

theorem length_texts : t.texts.length = t.len := List.length_map _

theorem getElem?_texts : t.texts[i]? = (t.get i).map SharedStr.bytes := by
  unfold texts get
  rw [List.getElem?_map, Option.map_map]
  rfl

theorem any_keyNames : (t.get i).any (keyNames · name) = true ↔ t.texts[i]? = some name.str.bytes := by
  rw [getElem?_texts, Option.any_eq_true, Option.map_eq_some_iff]
  simp only [keyNames_iff]

theorem any_keyNamesStr :
    (t.get i).any (keyNamesStr · name) = true ↔ t.texts[i]? = some name.str.bytes := by
  rw [getElem?_texts, Option.any_eq_true, Option.map_eq_some_iff]
  simp only [keyNamesStr_iff]

theorem proper_new : Proper Ω new := ⟨by simp [texts, new], by simp [new], by simp [new]⟩

theorem foldl_filter (names : List (SharedStr × Int64)) (f : BitVec 64) :
    (∀ b, f &&& b ≠ 0 → names.foldl (fun filter k => filter ||| filterBit k.2) f &&& b ≠ 0) ∧
      ∀ k ∈ names, names.foldl (fun filter k => filter ||| filterBit k.2) f &&& filterBit k.2 ≠ 0 := by
  induction names generalizing f with
  | nil => simp
  | cons k names ih =>
    rw [List.foldl_cons]
    refine ⟨fun b hb => (ih _).1 b (and_or_ne_zero_left hb), fun k' hk' => ?_⟩
    rcases List.mem_cons.mp hk' with rfl | hk'
    · exact (ih _).1 _ (or_and_self_ne_zero (filterBit_ne_zero _))
    · exact (ih _).2 k' hk'

theorem pushKey_some (h : t.pushKey key hash = some t') :
    t'.names = t.names ++ [(key, hash)] ∧ t'.filter = t.filter ||| filterBit hash ∧ t'.derived = t.derived := by
  unfold pushKey at h
  split_ifs at h
  rw [Option.some_inj] at h
  subst h
  exact ⟨rfl, rfl, rfl⟩

theorem find_position {n : ℕ} {b : List UInt8} {p : ℕ → Bool} (hd : t.texts.Nodup)
    (hp : ∀ i, p i = true ↔ t.texts[i]? = some b) :
    (List.range n).find? p = some i ↔ i < n ∧ t.texts[i]? = some b := by
  rw [List.find?_range_eq_some, hp, List.mem_range]
  refine ⟨fun h => ⟨h.2.1, h.1⟩, fun h => ⟨h.2, h.1, fun j hj => ?_⟩⟩
  rw [Bool.not_eq_true', ← Bool.not_eq_true, hp]
  intro hb
  obtain ⟨hi, hbi⟩ := List.getElem?_eq_some_iff.mp h.2
  obtain ⟨hj', hbj⟩ := List.getElem?_eq_some_iff.mp hb
  have := (List.Nodup.getElem_inj_iff hd).mp (hbj.trans hbi.symm)
  omega

theorem positionHashed_eq (h : Proper Ω t) (hn : n ≤ t.len)
    (hhash : hash = KeyOps.pyStrHash Ω name.str.bytes) :
    t.positionHashed n name hash = some i ↔ i < n ∧ t.texts[i]? = some name.str.bytes := by
  have hp : ∀ j : ℕ, (t.names[j]?.any fun k : SharedStr × Int64 => k.2 == hash && keyNamesStr k.1 name) = true ↔
      t.texts[j]? = some name.str.bytes := by
    intro j
    unfold texts
    rw [List.getElem?_map, Option.any_eq_true, Option.map_eq_some_iff]
    constructor
    · rintro ⟨k, hk, hb⟩
      exact ⟨k, hk, keyNamesStr_iff.mp (Bool.and_eq_true_iff.mp hb).2⟩
    · rintro ⟨k, hk, hb⟩
      refine ⟨k, hk, Bool.and_eq_true_iff.mpr ⟨?_, keyNamesStr_iff.mpr hb⟩⟩
      rw [beq_iff_eq, h.hashed k (List.mem_of_getElem? hk), hb, hhash]
  unfold positionHashed
  rw [Nat.min_eq_left hn]
  split_ifs with hz
  · refine ⟨fun hf => by simp at hf, fun hf => absurd hz ?_⟩
    unfold texts at hf
    rw [List.getElem?_map, Option.map_eq_some_iff] at hf
    obtain ⟨_, k, hk, hb⟩ := hf
    have hmem := List.mem_of_getElem? hk
    rw [hhash, ← hb, ← h.hashed k hmem]
    exact h.filtered k hmem
  · exact find_position h.distinct hp

theorem filterMap_skip (l : List (SharedStr × Int64)) (n i : ℕ) (hn : n ≤ l.length) :
    ((List.range n).filter (· ≠ i)).filterMap (fun k => l[k]?) = (l.take n).eraseIdx i := by
  induction n with
  | zero => simp
  | succ n ih =>
    have hx : l[n]? = some l[n] := List.getElem?_eq_getElem hn
    rw [List.range_succ, List.filter_append, List.filterMap_append, ih (by omega), List.take_add_one, hx]
    have hlen : (l.take n).length = n := by
      rw [List.length_take]
      omega
    rcases Nat.lt_trichotomy n i with h | rfl | h
    · rw [List.eraseIdx_of_length_le (by omega), List.eraseIdx_of_length_le (by simp; omega),
        List.filter_cons_of_pos (by simp; omega)]
      simp [hx]
    · rw [List.eraseIdx_of_length_le (by omega), List.eraseIdx_append_of_length_le (by omega)]
      simp [hlen]
    · rw [List.eraseIdx_append_of_lt_length (by omega), List.filter_cons_of_pos (by simp; omega)]
      simp [hx]

theorem fresh_ok (hn : n ≤ t.len) : ∃ f, t.fresh n i = .ok f ∧ f.names = (t.names.take n).eraseIdx i ∧
    f.derived = [] ∧ ∀ k ∈ f.names, f.filter &&& filterBit k.2 ≠ 0 := by
  have hlen : ((t.names.take n).eraseIdx i).length ≤ SHARED_KEYS_CAP :=
    Nat.le_trans (List.length_eraseIdx_le _ _) (Nat.le_trans (List.length_take_le' n t.names) t.fits)
  have hstep : ∀ (k : ℕ) (l : List ℕ) (f : SharedKeys),
      (∀ u ∈ k :: l, u < t.len) ∧
        f.names ++ (k :: l).filterMap (fun u => t.names[u]?) = (t.names.take n).eraseIdx i ∧
        f.derived = [] ∧ (∀ x ∈ f.names, f.filter &&& filterBit x.2 ≠ 0) →
      ∃ f', (do
        let key ← t.names[k]?.elim (.error .panic) .ok
        return (f.pushKey key.1 key.2).getD f) = (.ok f' : Outcome SharedKeys) ∧
        (∀ u ∈ l, u < t.len) ∧ f'.names ++ l.filterMap (fun u => t.names[u]?) = (t.names.take n).eraseIdx i ∧
        f'.derived = [] ∧ ∀ x ∈ f'.names, f'.filter &&& filterBit x.2 ≠ 0 := by
    rintro k l f ⟨hlt, hnames, hderived, hfilter⟩
    have hkt : k < t.names.length := hlt k (by simp)
    have hk : t.names[k]? = some t.names[k] := List.getElem?_eq_getElem hkt
    rw [List.filterMap_cons_some hk] at hnames
    have hroom : f.names.length < SHARED_KEYS_CAP := by
      rw [← hnames, List.length_append, List.length_cons] at hlen
      omega
    rw [hk]
    refine ⟨_, rfl, fun u hu => hlt u (by simp [hu]), ?_⟩
    unfold pushKey
    rw [dif_pos hroom, Option.getD_some]
    refine ⟨by rw [← hnames, List.append_assoc]; rfl, hderived, fun x hx => ?_⟩
    dsimp only at hx ⊢
    rw [List.mem_append, List.mem_singleton] at hx
    rcases hx with hx | rfl
    · exact and_or_ne_zero_left (hfilter x hx)
    · exact or_and_self_ne_zero (filterBit_ne_zero _)
  obtain ⟨f, hrun, _, hnames, hderived, hfilter⟩ := foldlM_ok
    (fun l (f : SharedKeys) => (∀ u ∈ l, u < t.len) ∧
      f.names ++ l.filterMap (fun u => t.names[u]?) = (t.names.take n).eraseIdx i ∧
      f.derived = [] ∧ ∀ x ∈ f.names, f.filter &&& filterBit x.2 ≠ 0) hstep
    (l := (List.range n).filter (· ≠ i)) (b := new) ⟨fun u hu => by
      have := List.mem_range.mp (List.mem_filter.mp hu).1
      omega, by
      rw [filterMap_skip _ _ _ hn]
      rfl, rfl, by simp [new]⟩
  exact ⟨f, hrun, by simpa using hnames, hderived, hfilter⟩

end SharedKeys

namespace Proper

variable {Ω : Type} [KeyOps Ω] {t t' : SharedKeys} {n i : ℕ} {key : SharedStr} {hash : Int64}

theorem of_sublist (h : Proper Ω t) (hsub : t'.names.Sublist t.names)
    (hfilter : ∀ k ∈ t'.names, t'.filter &&& filterBit k.2 ≠ 0) : Proper Ω t' :=
  ⟨h.distinct.sublist (hsub.map _), fun k hk => h.hashed k (hsub.subset hk), hfilter⟩

theorem fresh {f : SharedKeys} (h : Proper Ω t) (hn : n ≤ t.len) (hf : t.fresh n i = .ok f) : Proper Ω f := by
  obtain ⟨f', hf', hnames, _, hfilter⟩ := SharedKeys.fresh_ok (i := i) hn
  rw [hf, Except.ok.injEq] at hf'
  subst hf'
  apply h.of_sublist _ hfilter
  rw [hnames]
  exact (List.eraseIdx_sublist _ _).trans (List.take_sublist _ _)

theorem removeAt (h : Proper Ω t) : Proper Ω (t.removeAt i) := by
  unfold SharedKeys.removeAt
  split_ifs
  · exact h
  · exact h.of_sublist (List.eraseIdx_sublist _ _) (SharedKeys.foldl_filter _ 0).2

theorem pushKey (h : Proper Ω t) (hnew : key.bytes ∉ t.texts)
    (hhash : hash = KeyOps.pyStrHash Ω key.bytes) (hp : t.pushKey key hash = some t') : Proper Ω t' := by
  obtain ⟨hnames, hfilter, _⟩ := SharedKeys.pushKey_some hp
  constructor
  · unfold SharedKeys.texts at hnew ⊢
    rw [hnames, List.map_append, List.nodup_append]
    refine ⟨h.distinct, by simp, ?_⟩
    rintro a ha b hb rfl
    simp only [List.map_cons, List.map_nil, List.mem_singleton] at hb
    exact hnew (hb ▸ ha)
  · intro k hk
    rw [hnames, List.mem_append, List.mem_singleton] at hk
    rcases hk with hk | rfl
    · exact h.hashed k hk
    · exact hhash
  · intro k hk
    rw [hnames, List.mem_append, List.mem_singleton] at hk
    rw [hfilter]
    rcases hk with hk | rfl
    · exact and_or_ne_zero_left (h.filtered k hk)
    · exact or_and_self_ne_zero (filterBit_ne_zero _)

end Proper

end WeavePy.InstDict
