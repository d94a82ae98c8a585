import WeavePy.DictMap.Reorder

namespace WeavePy.DictMap

open Lib.LinearProbing

variable {Ω V Q : Type} [KeyOps Ω] [Probe Q Ω] {t : Table Ω V}

/-- The operations of a table, and of the dicts and sets built on it, that change it. -/
inductive Op (Ω V Q : Type) where
  | insert (key : Object Ω) (value : V)
  | insertHashed (hash : Int64) (key : Object Ω) (value : V)
  | entryOrInsert (key : Object Ω) (default : V)
  | entryInsert (key : Object Ω) (value : V)
  | probeEntryInsert (probe : Q) (key : Object Ω) (value : V)
  | insertUniqueHashed (hash : Int64) (key : Object Ω) (value : V)
  | pushNative (capacity : ℕ) (key : Object Ω) (value : V)
  | shiftRemoveIndex (i : ℕ)
  | swapRemoveIndex (i : ℕ)
  | replaceIndexUnique (i : ℕ) (hash : Int64) (key : Object Ω) (value : V)
  | pop
  | retain (keep : Object Ω → V → Bool × V)
  | truncate (len : ℕ)
  | splitOff (at_ : ℕ) (tail : Bool)
  | drain (lo hi : ℕ)
  | moveIndex (from_ to_ : ℕ)
  | swapIndices (a b : ℕ)
  | reverse
  | sortBy (le : Object Ω × V → Object Ω × V → Bool)
  | reserve (additional : ℕ)
  | shrinkToFit
  | clear
  | clone

/-- One operation; `splitOff` goes on with either of the two tables. -/
def step (t : Table Ω V) : Op Ω V Q → Outcome (Table Ω V)
  | .insert key value => return (← t.insertFull key value).1
  | .insertHashed hash key value => return (← t.insertHashed hash key value).1
  | .entryOrInsert key default => t.entryOrInsert key key default
  | .entryInsert key value => t.entryInsert key key value
  | .probeEntryInsert probe key value => t.entryOrInsert probe key value
  | .insertUniqueHashed hash key value => return (← t.insertUniqueHashed hash key value).1
  | .pushNative capacity key value => do
    match ← t.findObjectHashing key with
    | some (hash, .error pos) => return (← t.pushNative capacity pos hash key value).1
    | _ => pure t
  | .shiftRemoveIndex i => return (← t.shiftRemoveIndex i).1
  | .swapRemoveIndex i => return (← t.swapRemoveIndex i).1
  | .replaceIndexUnique i hash key value => return (← t.replaceIndexUnique i hash key value).1
  | .pop => return (← t.pop).1
  | .retain keep => t.retain keep
  | .truncate len => t.truncate len
  | .splitOff at_ tail => do
    let (t, out) ← t.splitOff at_
    pure (if tail then out else t)
  | .drain lo hi => return (← t.drain lo hi).1
  | .moveIndex from_ to_ => t.moveIndex from_ to_
  | .swapIndices a b => t.swapIndices a b
  | .reverse => t.reverse
  | .sortBy le => t.sortBy le
  | .reserve additional => t.reserve additional
  | .shrinkToFit => t.shrinkToFit
  | .clear => pure t.clear
  | .clone => pure t

def Absent (entries : List (Bucket Ω V)) (key : Object Ω) : Prop :=
  ∀ b ∈ entries, dictKeyEq b.key key = false

/-- What an operation asks of its caller: the hash given is the key's, a key pushed blindly is
absent, and a key that fills a probe's vacancy equals the probe. -/
def Op.Allowed (entries : List (Bucket Ω V)) : Op Ω V Q → Prop
  | .insertHashed hash key _ => hash = dictKeyHash key
  | .probeEntryInsert probe key _ => Probe.probeEq probe key = true
  | .insertUniqueHashed hash key _ => hash = dictKeyHash key ∧ Absent entries key
  | .replaceIndexUnique _ hash key _ => hash = dictKeyHash key ∧ Absent entries key
  | _ => True

/-- When an operation may panic: an index out of range, or a table of `2^31` entries or more. -/
def Op.Rejected (n : ℕ) : Op Ω V Q → Prop
  | .insert .. | .insertHashed .. | .entryOrInsert .. | .entryInsert .. | .probeEntryInsert ..
  | .insertUniqueHashed .. => 2 ^ 31 ≤ n + 1
  | .splitOff at_ _ => n < at_ ∨ 2 ^ 31 ≤ n
  | .drain lo hi => ¬ (lo ≤ hi ∧ hi ≤ n)
  | .moveIndex from_ to_ => ¬ (from_ < n ∧ to_ < n)
  | .swapIndices a b => ¬ (a < n ∧ b < n)
  | .reserve additional => 2 ^ 31 ≤ n + additional
  | _ => False

/-- Insertion in an ordered association list: a present key keeps its place and its key object. -/
def insertEntry (keepOld : Bool) (entries : List (Bucket Ω V)) (key : Object Ω) (value : V) :
    List (Bucket Ω V) :=
  match entries.findIdx? fun b => dictKeyEq key b.key with
  | some i => if keepOld then entries else entries.modify i fun b => { b with value }
  | none => entries ++ [⟨dictKeyHash key, key, value⟩]

/-- What an operation does to the ordered entries, without the slots. -/
def Op.effect (entries : List (Bucket Ω V)) : Op Ω V Q → List (Bucket Ω V)
  | .insert key value => insertEntry false entries key value
  | .insertHashed _ key value => insertEntry false entries key value
  | .entryOrInsert key default => insertEntry true entries key default
  | .entryInsert key value => insertEntry false entries key value
  | .probeEntryInsert _ key value => insertEntry true entries key value
  | .insertUniqueHashed hash key value => entries ++ [⟨hash, key, value⟩]
  | .pushNative _ _ _ => entries
  | .shiftRemoveIndex i => entries.eraseIdx i
  | .swapRemoveIndex i => if i < entries.length then swapRemove entries i else entries
  | .replaceIndexUnique i hash key value => entries.set i ⟨hash, key, value⟩
  | .pop => entries.dropLast
  | .retain keep => entries.filterMap fun b =>
      let r := keep b.key b.value
      if r.1 then some { b with value := r.2 } else none
  | .truncate len => entries.take len
  | .splitOff at_ tail => if tail then entries.drop at_ else entries.take at_
  | .drain lo hi => if lo ≤ hi then entries.take lo ++ entries.drop hi else entries
  | .moveIndex from_ to_ =>
      if from_ < entries.length ∧ to_ < entries.length ∧ from_ ≠ to_ then
        moveEntry entries from_ to_
      else entries
  | .swapIndices a b =>
    match entries[a]?, entries[b]? with
    | some x, some y => (entries.set a y).set b x
    | _, _ => entries
  | .reverse => entries.reverse
  | .sortBy le => entries.mergeSort fun a b => le (a.key, a.value) (b.key, b.value)
  | .reserve _ => entries
  | .shrinkToFit => entries
  | .clear => []
  | .clone => entries

/-- `push_native` may decline; every other operation has its effect. -/
def Op.Effect (entries : List (Bucket Ω V)) (op : Op Ω V Q) (entries' : List (Bucket Ω V)) :
    Prop :=
  match op with
  | .pushNative _ key value => entries' = entries ∨
      Absent entries key ∧ entries' = entries ++ [⟨dictKeyHash key, key, value⟩]
  | op => entries' = op.effect entries

/-- Each key is stored with its Python hash, and no two keys are equal. -/
structure KeysOk (entries : List (Bucket Ω V)) : Prop where
  hashed : ∀ b ∈ entries, b.hash = dictKeyHash b.key
  distinct : entries.Pairwise fun a b => dictKeyEq a.key b.key = false

section KeysOk

variable {l l' : List (Bucket Ω V)}

theorem keysOk_nil : KeysOk ([] : List (Bucket Ω V)) := ⟨by simp, .nil⟩

theorem KeysOk.sublist (h : KeysOk l) (hs : l'.Sublist l) : KeysOk l' :=
  ⟨fun b hb => h.hashed b (hs.subset hb), h.distinct.sublist hs⟩

theorem dictKeyEq_symm [LawfulKeys Ω] {a b : Object Ω} (h : dictKeyEq a b = false) :
    dictKeyEq b a = false := by
  rw [Bool.eq_false_iff] at h ⊢
  exact fun hb => h (LawfulKeys.equiv.symm hb)

theorem KeysOk.perm [LawfulKeys Ω] (h : KeysOk l) (hp : l'.Perm l) : KeysOk l' :=
  ⟨fun b hb => h.hashed b (hp.subset hb), h.distinct.perm hp.symm dictKeyEq_symm⟩

/-- A list that takes its entries from different places of `l`. -/
theorem KeysOk.of_injection [LawfulKeys Ω] (h : KeysOk l) (σ : ℕ → ℕ)
    (hσ : ∀ m < l'.length, l'[m]? = l[σ m]?)
    (hinj : ∀ m < l'.length, ∀ m' < l'.length, σ m = σ m' → m = m') : KeysOk l' := by
  refine ⟨fun b hb => ?_, List.pairwise_iff_getElem.mpr fun i j hi hj hij => ?_⟩
  · obtain ⟨i, hi, rfl⟩ := List.mem_iff_getElem.mp hb
    have he := hσ i hi
    rw [List.getElem?_eq_getElem hi] at he
    exact h.hashed _ (List.mem_of_getElem? he.symm)
  · have hei := hσ i hi
    have hej := hσ j hj
    rw [List.getElem?_eq_getElem hi] at hei
    rw [List.getElem?_eq_getElem hj] at hej
    obtain ⟨hi', hei⟩ := List.getElem?_eq_some_iff.mp hei.symm
    obtain ⟨hj', hej⟩ := List.getElem?_eq_some_iff.mp hej.symm
    rw [← hei, ← hej]
    rcases Nat.lt_trichotomy (σ i) (σ j) with hlt | heq | hgt
    · exact List.pairwise_iff_getElem.mp h.distinct _ _ hi' hj' hlt
    · exact absurd (hinj i hi j hj heq) hij.ne
    · exact dictKeyEq_symm (List.pairwise_iff_getElem.mp h.distinct _ _ hj' hi' hgt)

theorem KeysOk.append (h : KeysOk l) {key : Object Ω} (ha : Absent l key) (value : V) :
    KeysOk (l ++ [⟨dictKeyHash key, key, value⟩]) := by
  refine ⟨fun b hb => ?_, List.pairwise_append.mpr ⟨h.distinct, List.pairwise_singleton _ _, ?_⟩⟩
  · rcases List.mem_append.mp hb with hb | hb
    · exact h.hashed b hb
    · rw [List.mem_singleton.mp hb]
  · intro a ha' b hb
    rw [List.mem_singleton.mp hb]
    exact ha a ha'

theorem KeysOk.map_values (h : KeysOk l)
    (he : l'.map (fun b => (b.hash, b.key)) = l.map fun b => (b.hash, b.key)) : KeysOk l' := by
  refine ⟨fun b hb => ?_, ?_⟩
  · have hm : (b.hash, b.key) ∈ l.map fun b => (b.hash, b.key) := he ▸ List.mem_map_of_mem hb
    obtain ⟨c, hc, hcb⟩ := List.mem_map.mp hm
    obtain ⟨h₁, h₂⟩ := Prod.mk.inj hcb
    rw [← h₁, ← h₂, h.hashed c hc]
  · have hp : (l.map fun b => (b.hash, b.key)).Pairwise
        fun a b : Int64 × Object Ω => dictKeyEq a.2 b.2 = false := List.pairwise_map.mpr h.distinct
    rw [← he] at hp
    exact List.pairwise_map.mp hp

theorem KeysOk.set [LawfulKeys Ω] (h : KeysOk l) {key : Object Ω} (ha : Absent l key) (i : ℕ)
    (value : V) : KeysOk (l.set i ⟨dictKeyHash key, key, value⟩) := by
  refine ⟨fun b hb => ?_, List.pairwise_iff_getElem.mpr fun j k hj hk hjk => ?_⟩
  · rcases List.mem_or_eq_of_mem_set hb with hb | rfl
    · exact h.hashed b hb
    · rfl
  · rw [List.length_set] at hj hk
    rw [List.getElem_set, List.getElem_set]
    split_ifs with h₁ h₂ h₂
    · omega
    · exact dictKeyEq_symm (ha _ (List.getElem_mem hk))
    · exact ha _ (List.getElem_mem hj)
    · exact List.pairwise_iff_getElem.mp h.distinct _ _ hj hk hjk

theorem KeysOk.eq_of_eq (h : KeysOk l) [LawfulKeys Ω] {i j : ℕ} {b c : Bucket Ω V}
    (hi : l[i]? = some b) (hj : l[j]? = some c) (he : dictKeyEq b.key c.key = true) : i = j := by
  obtain ⟨hi', rfl⟩ := List.getElem?_eq_some_iff.mp hi
  obtain ⟨hj', rfl⟩ := List.getElem?_eq_some_iff.mp hj
  rcases Nat.lt_trichotomy i j with hlt | heq | hgt
  · rw [List.pairwise_iff_getElem.mp h.distinct _ _ hi' hj' hlt] at he
    cases he
  · exact heq
  · rw [dictKeyEq_symm (List.pairwise_iff_getElem.mp h.distinct _ _ hj' hi' hgt)] at he
    cases he

end KeysOk

/-- A lookup by the Python hash of a probe answers as a scan for the probe does. -/
theorem Found.findIdx? [LawfulKeys Ω] [LawfulProbe Q Ω] (hk : KeysOk t.entries) {q : Q}
    {r : Except ℕ ℕ} (h : Found t (Probe.probeHash q) (Probe.probeEq q) r) :
    t.entries.findIdx? (fun b => Probe.probeEq q b.key) =
      match r with
      | .ok i => some i
      | .error _ => none := by
  cases r with
  | ok i =>
    obtain ⟨b, hb, -, he⟩ := h
    obtain ⟨hi, hbi⟩ := List.getElem?_eq_some_iff.mp hb
    refine List.findIdx?_eq_some_iff_getElem.mpr ⟨hi, by rw [hbi]; exact he, fun j hj => ?_⟩
    have hjl : j < t.entries.length := by omega
    intro hej
    have hne := (List.pairwise_iff_getElem.mp hk.distinct) j i hjl hi hj
    rw [hbi, ← LawfulProbe.eq_congr q _ _ hej, he] at hne
    cases hne
  | error pos =>
    refine List.findIdx?_eq_none_iff.mpr fun b hb => ?_
    by_contra hc
    have he : Probe.probeEq q b.key = true := by simpa using hc
    have hh : b.hash = Probe.probeHash q := by
      rw [hk.hashed b hb, LawfulProbe.hash_eq q _ he]
    rw [h.1 b hb hh] at he
    cases he

section Effects

variable [LawfulKeys Ω] {entries entries' : List (Bucket Ω V)} {op : Op Ω V Q}

theorem absent_of_findIdx? {key : Object Ω}
    (h : entries.findIdx? (fun b => dictKeyEq key b.key) = none) : Absent entries key :=
  fun b hb => dictKeyEq_symm (by simpa using List.findIdx?_eq_none_iff.mp h b hb)

theorem KeysOk.insertEntry (h : KeysOk entries) (keepOld : Bool) (key : Object Ω) (value : V) :
    KeysOk (insertEntry keepOld entries key value) := by
  rw [DictMap.insertEntry]
  cases hf : entries.findIdx? fun b => dictKeyEq key b.key with
  | none => exact h.append (absent_of_findIdx? hf) value
  | some i =>
    cases keepOld with
    | true => exact h
    | false =>
      refine h.map_values (List.ext_getElem? fun m => ?_)
      simp only [Bool.false_eq_true, if_false, List.getElem?_map, List.getElem?_modify]
      cases entries[m]? with
      | none => rfl
      | some b => by_cases hm : i = m <;> simp [hm]

theorem keysOk_of_effect (h : KeysOk entries) (ha : op.Allowed entries)
    (he : op.Effect entries entries') : KeysOk entries' := by
  cases op with
  | insert key value => exact he ▸ h.insertEntry false key value
  | insertHashed hash key value => exact he ▸ h.insertEntry false key value
  | entryOrInsert key default => exact he ▸ h.insertEntry true key default
  | entryInsert key value => exact he ▸ h.insertEntry false key value
  | probeEntryInsert probe key value => exact he ▸ h.insertEntry true key value
  | insertUniqueHashed hash key value =>
    obtain ⟨rfl, ha⟩ := ha
    exact he ▸ h.append ha value
  | pushNative capacity key value =>
    rcases he with rfl | ⟨ha, rfl⟩
    · exact h
    · exact h.append ha value
  | shiftRemoveIndex i => exact he ▸ h.sublist (List.eraseIdx_sublist _ _)
  | swapRemoveIndex i =>
    subst he
    simp only [Op.effect]
    split_ifs with hi
    · obtain ⟨last, hlast⟩ : ∃ last, entries.getLast? = some last :=
        ⟨_, List.getLast?_eq_some_getLast (List.ne_nil_of_length_pos (by omega))⟩
      refine h.of_injection (fun m => if m = i then entries.length - 1 else m) ?_ ?_
      · intro m hm
        rw [swapRemove_length] at hm
        rw [swapRemove_getElem? hlast, if_pos hm]
        split_ifs
        · rw [← hlast, List.getLast?_eq_getElem?]
        · rfl
      · intro m hm m' hm' he
        rw [swapRemove_length] at hm hm'
        split_ifs at he <;> omega
    · exact h
  | replaceIndexUnique i hash key value =>
    obtain ⟨rfl, ha⟩ := ha
    exact he ▸ h.set ha i value
  | pop => exact he ▸ h.sublist (List.dropLast_sublist _)
  | retain keep =>
    subst he
    have hfilter : (entries.filter fun b => (keep b.key b.value).1).Sublist entries :=
      List.filter_sublist
    refine (h.sublist hfilter).map_values ?_
    rw [Op.effect, List.map_filterMap, ← List.filterMap_eq_map, ← List.filterMap_eq_filter,
      List.filterMap_filterMap]
    refine List.filterMap_congr fun b _ => ?_
    by_cases hb : (keep b.key b.value).1 = true <;> simp [hb, Option.guard]
  | truncate len => exact he ▸ h.sublist (List.take_sublist _ _)
  | splitOff at_ tail =>
    subst he
    cases tail with
    | true => exact h.sublist (List.drop_sublist _ _)
    | false => exact h.sublist (List.take_sublist _ _)
  | drain lo hi =>
    subst he
    simp only [Op.effect]
    split_ifs with hle
    · refine h.sublist ?_
      conv_rhs => rw [← List.take_append_drop lo entries]
      exact (List.Sublist.refl _).append (List.drop_sublist_drop_left _ hle)
    · exact h
  | moveIndex from_ to_ =>
    subst he
    simp only [Op.effect]
    split_ifs with hb
    · obtain ⟨hfrom, hto, hne⟩ := hb
      have hlen := moveEntry_length hfrom hto
      rcases Nat.lt_or_gt_of_ne hne with hlt | hgt
      · refine h.of_injection
          (fun m => if m = to_ then from_ else if from_ ≤ m ∧ m < to_ then m + 1 else m) ?_ ?_
        · intro m _
          rw [moveEntry_down hlt hto]
          split_ifs <;> rfl
        · intro m _ m' _ he
          split_ifs at he <;> omega
      · refine h.of_injection
          (fun m => if m = to_ then from_ else if to_ < m ∧ m ≤ from_ then m - 1 else m) ?_ ?_
        · intro m _
          rw [moveEntry_up hgt hfrom]
          split_ifs <;> rfl
        · intro m _ m' _ he
          split_ifs at he <;> omega
    · exact h
  | swapIndices a b =>
    subst he
    simp only [Op.effect]
    split
    · rename_i x y hx hy
      obtain ⟨ha', rfl⟩ := List.getElem?_eq_some_iff.mp hx
      obtain ⟨hb', rfl⟩ := List.getElem?_eq_some_iff.mp hy
      refine h.of_injection (fun m => if m = b then a else if m = a then b else m) ?_ ?_
      · intro m hm
        simp only [List.getElem?_set, List.length_set]
        split_ifs <;> first | omega | rfl | (subst_vars; simp [*])
      · intro m _ m' _ he
        split_ifs at he <;> omega
    · exact h
  | reverse => exact he ▸ h.perm (List.reverse_perm _)
  | sortBy le => exact he ▸ h.perm (List.mergeSort_perm _ _)
  | reserve additional => exact he ▸ h
  | shrinkToFit => exact he ▸ h
  | clear => exact he ▸ keysOk_nil
  | clone => exact he ▸ h

end Effects

section Steps

omit [Probe Q Ω] in
theorem swapIndices_rejected (h : SlotsOk t) {a b : ℕ}
    (hlt : ¬ (a < t.entries.length ∧ b < t.entries.length)) :
    Ensures (t.swapIndices a b) (fun t' => SlotsOk t' ∧
      (Op.swapIndices a b : Op Ω V Q).Effect t.entries t'.entries)
      (¬ (a < t.entries.length ∧ b < t.entries.length)) := by
  have hout : ∀ {α : Type} {l : List α} {i : ℕ}, ¬ i < l.length → index l i = .error .panic := by
    intro α l i hi
    simp [index, List.getElem?_eq_none (Nat.le_of_not_lt hi)]
  have hswap : swapEntries t.entries a b = .error .panic := by
    rw [swapEntries]
    by_cases ha : a < t.entries.length
    · rw [index_ok ha, ok_bind, hout fun hb => hlt ⟨ha, hb⟩, error_bind]
    · rw [hout ha, error_bind]
  rw [Table.swapIndices]
  split_ifs with heq hne
  · subst heq
    refine ⟨h, ?_⟩
    have ha : t.entries[a]? = none := List.getElem?_eq_none (by omega)
    change t.entries = Op.effect (Q := Q) t.entries (.swapIndices a a)
    rw [Op.effect, ha]
  · rw [show (pure t : Outcome (Table Ω V)) = .ok t from rfl, ok_bind]
    dsimp only
    rw [hswap]
    exact ⟨rfl, hlt⟩
  · by_cases ha : a < t.entries.length
    · obtain ⟨k, hs⟩ := h.shaped hne
      have hb := h.bound
      obtain ⟨p, -, hslot, -⟩ := (h.keeps hne).slotOf hs _ (i := a) (by omega)
        ⟨a, _, List.getElem?_eq_getElem ha, rfl⟩
      rw [index_ok ha, ok_bind, hslot, ok_bind, hout fun hb => hlt ⟨ha, hb⟩]
      exact ⟨rfl, hlt⟩
    · rw [hout ha]
      exact ⟨rfl, hlt⟩

variable [LawfulKeys Ω]

theorem insertFound_ensures (h : SlotsOk t) (hk : KeysOk t.entries) {key : Object Ω}
    {r : Except ℕ ℕ} (hr : Found t (dictKeyHash key) (dictKeyEq key) r) (value : V) :
    Ensures (t.insertFound r (dictKeyHash key) key value)
      (fun x => SlotsOk x.1 ∧ x.1.entries = insertEntry false t.entries key value)
      (2 ^ 31 ≤ t.entries.length + 1) := by
  cases r with
  | ok i =>
    have hidx : t.entries.findIdx? (fun b => dictKeyEq key b.key) = some i :=
      Found.findIdx? (q := key) hk hr
    obtain ⟨b, hb, -, -⟩ := hr
    obtain ⟨t', h₁, h₂, h₃⟩ := h.replaceValue hb value
    refine ensures_of_eq (a := (t', i, some b.value)) ?_ ⟨h₂, ?_⟩
    · rw [Table.insertFound, h₁, ok_bind]
      rfl
    · rw [h₃, insertEntry, hidx]
      simp [List.modify_eq_set_getElem?, hb]
  | error pos =>
    have hidx : t.entries.findIdx? (fun b => dictKeyEq key b.key) = none :=
      Found.findIdx? (q := key) hk hr
    refine (h.pushAt hr.2 key value).bind ?_
    rintro ⟨t', i⟩ ⟨-, h₂, h₃⟩
    refine ⟨h₃, ?_⟩
    rw [h₂, insertEntry, hidx]

/-- `entry` or `probe_entry` on a probe equal to `key`, then `f` on a hit and a push on a miss. -/
theorem probeEntry_ensures [LawfulProbe Q Ω] (h : SlotsOk t) (hk : KeysOk t.entries) {q : Q}
    {key : Object Ω} (hq : Probe.probeEq q key = true) :
    ∃ e, t.probeEntry q = .ok e ∧
      match e with
      | .occupied i => t.entries.findIdx? (fun b => dictKeyEq key b.key) = some i ∧
          i < t.entries.length
      | .vacant hash pos => t.entries.findIdx? (fun b => dictKeyEq key b.key) = none ∧
          hash = dictKeyHash key ∧ (t.slots ≠ [] → Vacant t.slots t.shift (mix hash) pos) := by
  obtain ⟨r, hr, hf⟩ := h.findHashed (Probe.probeHash q) q
  have hidx := Found.findIdx? hk hf
  simp only [LawfulProbe.eq_congr q key _ hq] at hidx
  cases r with
  | ok i =>
    refine ⟨.occupied i, ?_, hidx, ?_⟩
    · rw [Table.probeEntry, hr, ok_bind]
      rfl
    · obtain ⟨b, hb, -⟩ := hf
      exact (List.getElem?_eq_some_iff.mp hb).1
  | error pos =>
    refine ⟨.vacant (Probe.probeHash q) pos, ?_, hidx, LawfulProbe.hash_eq q key hq, hf.2⟩
    rw [Table.probeEntry, hr, ok_bind]
    rfl

theorem entryOrInsert_ensures [LawfulProbe Q Ω] (h : SlotsOk t) (hk : KeysOk t.entries) {q : Q}
    {key : Object Ω} (hq : Probe.probeEq q key = true) (value : V) :
    Ensures (t.entryOrInsert q key value)
      (fun t' => SlotsOk t' ∧ t'.entries = insertEntry true t.entries key value)
      (2 ^ 31 ≤ t.entries.length + 1) := by
  obtain ⟨e, he, hcase⟩ := probeEntry_ensures h hk hq
  rw [Table.entryOrInsert, he, ok_bind]
  cases e with
  | occupied i => exact ⟨h, by rw [insertEntry, hcase.1]; rfl⟩
  | vacant hash pos =>
    obtain ⟨hnone, rfl, hv⟩ := hcase
    refine (h.pushAt hv key value).bind ?_
    rintro ⟨t', i⟩ ⟨-, h₂, h₃⟩
    exact ⟨h₃, by rw [h₂, insertEntry, hnone]⟩

theorem entryInsert_ensures [LawfulProbe Q Ω] (h : SlotsOk t) (hk : KeysOk t.entries) {q : Q}
    {key : Object Ω} (hq : Probe.probeEq q key = true) (value : V) :
    Ensures (t.entryInsert q key value)
      (fun t' => SlotsOk t' ∧ t'.entries = insertEntry false t.entries key value)
      (2 ^ 31 ≤ t.entries.length + 1) := by
  obtain ⟨e, he, hcase⟩ := probeEntry_ensures h hk hq
  rw [Table.entryInsert, he, ok_bind]
  cases e with
  | occupied i =>
    obtain ⟨hidx, hi⟩ := hcase
    obtain ⟨t', h₁, h₂, h₃⟩ := h.replaceValue (List.getElem?_eq_getElem hi) value
    dsimp only
    rw [h₁, ok_bind]
    refine ⟨h₂, ?_⟩
    rw [h₃, insertEntry, hidx]
    simp [List.modify_eq_set_getElem?, List.getElem?_eq_getElem hi]
  | vacant hash pos =>
    obtain ⟨hnone, rfl, hv⟩ := hcase
    refine (h.pushAt hv key value).bind ?_
    rintro ⟨t', i⟩ ⟨-, h₂, h₃⟩
    exact ⟨h₃, by rw [h₂, insertEntry, hnone]⟩

theorem insertHashed_ensures (h : SlotsOk t) (hk : KeysOk t.entries) (key : Object Ω) (value : V) :
    Ensures (t.insertHashed (dictKeyHash key) key value)
      (fun x => SlotsOk x.1 ∧ x.1.entries = insertEntry false t.entries key value)
      (2 ^ 31 ≤ t.entries.length + 1) := by
  obtain ⟨r, hr, hf⟩ := h.findHashed (dictKeyHash key) key
  rw [Table.insertHashed, hr, ok_bind]
  exact insertFound_ensures h hk hf value

theorem insertFull_ensures (h : SlotsOk t) (hk : KeysOk t.entries) (key : Object Ω) (value : V) :
    Ensures (t.insertFull key value)
      (fun x => SlotsOk x.1 ∧ x.1.entries = insertEntry false t.entries key value)
      (2 ^ 31 ≤ t.entries.length + 1) := by
  obtain ⟨r, hr, hf⟩ := h.findObjectHashing key
  rw [Table.insertFull, hr, ok_bind]
  rcases r with _ | ⟨hash, x⟩
  · exact insertHashed_ensures h hk key value
  · obtain ⟨rfl, hx⟩ := hf hash x rfl
    exact insertFound_ensures h hk hx value

/-- What each operation does to a table in order. -/
theorem step_effect [LawfulProbe Q Ω] (h : SlotsOk t) (hk : KeysOk t.entries) {op : Op Ω V Q}
    (ha : op.Allowed t.entries) :
    Ensures (step t op) (fun t' => SlotsOk t' ∧ op.Effect t.entries t'.entries)
      (op.Rejected t.entries.length) := by
  have hok : ∀ {x : Outcome (Table Ω V)} {P : Table Ω V → Prop} {R : Prop},
      (∃ t', x = .ok t' ∧ P t') → Ensures x P R := fun ⟨_, hx, hp⟩ => ensures_of_eq hx hp
  have hok₁ : ∀ {α : Type} {x : Outcome (Table Ω V × α)} {a : α} {P : Table Ω V → Prop} {R : Prop},
      (∃ t', x = .ok (t', a) ∧ P t') → Ensures (do return (← x).1) P R :=
    fun ⟨_, hx, hp⟩ => (ensures_of_eq hx hp).fst
  cases op with
  | insert key value => exact (insertFull_ensures h hk key value).fst
  | insertHashed hash key value =>
    obtain rfl : hash = dictKeyHash key := ha
    exact (insertHashed_ensures h hk key value).fst
  | entryOrInsert key default =>
    exact entryOrInsert_ensures h hk (LawfulKeys.equiv.refl key) default
  | entryInsert key value => exact entryInsert_ensures h hk (LawfulKeys.equiv.refl key) value
  | probeEntryInsert probe key value => exact entryOrInsert_ensures h hk ha value
  | insertUniqueHashed hash key value =>
    exact ((h.insertUniqueHashed hash key value).mono (fun r hr => ⟨hr.2.2, hr.2.1⟩) id).fst
  | pushNative capacity key value =>
    obtain ⟨r, hr, hf⟩ := h.findObjectHashing key
    rw [step, hr, ok_bind]
    rcases r with _ | ⟨hash, pos | i⟩
    · exact ⟨h, Or.inl rfl⟩
    · obtain ⟨rfl, hmiss, hv⟩ := hf hash _ rfl
      obtain ⟨⟨t', pushed⟩, h₁, h₂, h₃⟩ := h.pushNative capacity hv key value
      refine Ensures.fst (ensures_of_eq h₁ ⟨h₂, ?_⟩)
      cases pushed with
      | true =>
        have habsent : Absent t.entries key := absent_of_findIdx?
          (Found.findIdx? (q := key) hk (r := .error pos) ⟨hmiss, hv⟩)
        exact Or.inr ⟨habsent, h₃⟩
      | false => exact Or.inl h₃
    · exact ⟨h, Or.inl rfl⟩
  | shiftRemoveIndex i => exact hok₁ (h.shiftRemoveIndex i)
  | swapRemoveIndex i => exact hok₁ (h.swapRemoveIndex i)
  | replaceIndexUnique i hash key value => exact hok₁ (h.replaceIndexUnique i hash key value)
  | pop => exact hok₁ h.pop
  | retain keep => exact hok (h.retain keep)
  | truncate len => exact hok (h.truncate len)
  | splitOff at_ tail =>
    rcases Nat.lt_or_ge t.entries.length at_ with hlt | hge
    · rw [step, Table.splitOff, if_neg (by omega)]
      exact ⟨rfl, Or.inl hlt⟩
    · refine ((h.splitOff hge).mono (fun _ => id) Or.inr).bind ?_
      rintro ⟨t', out⟩ ⟨h₁, h₂, h₃, h₄⟩
      cases tail with
      | true => exact ⟨h₂, h₄⟩
      | false => exact ⟨h₁, h₃⟩
  | drain lo hi =>
    by_cases hle : lo ≤ hi ∧ hi ≤ t.entries.length
    · obtain ⟨t', h₁, h₂, h₃⟩ := h.drain hle.1 hle.2
      exact hok₁ ⟨t', h₁, h₂, h₃.trans (if_pos hle.1).symm⟩
    · rw [step, Table.drain, if_neg hle]
      exact ⟨rfl, hle⟩
  | moveIndex from_ to_ =>
    by_cases hlt : from_ < t.entries.length ∧ to_ < t.entries.length
    · obtain ⟨t', h₁, h₂, h₃⟩ := h.moveIndex hlt.1 hlt.2
      refine hok ⟨t', h₁, h₂, ?_⟩
      change t'.entries = Op.effect (Q := Q) t.entries (.moveIndex from_ to_)
      rw [h₃, Op.effect]
      by_cases he : from_ = to_ <;> simp [he, hlt]
    · rw [step, Table.moveIndex, if_neg hlt]
      exact ⟨rfl, hlt⟩
  | swapIndices a b =>
    by_cases hlt : a < t.entries.length ∧ b < t.entries.length
    · obtain ⟨t', h₁, h₂, h₃⟩ := h.swapIndices hlt.1 hlt.2
      refine hok ⟨t', h₁, h₂, ?_⟩
      change t'.entries = Op.effect (Q := Q) t.entries (.swapIndices a b)
      rw [h₃, Op.effect, List.getElem?_eq_getElem hlt.1, List.getElem?_eq_getElem hlt.2]
    · exact swapIndices_rejected h hlt
  | reverse => exact hok h.reverse
  | sortBy le => exact hok (h.sortBy le)
  | reserve additional => exact h.reserve additional
  | shrinkToFit => exact hok h.shrinkToFit
  | clear => exact ⟨h.clear, rfl⟩
  | clone => exact ⟨h, rfl⟩

end Steps

/-- A table made by one of the constructors and any sequence of operations, each called as its
callers promise. -/
inductive Reachable (Q : Type) [Probe Q Ω] : Table Ω V → Prop where
  | new : Reachable Q Table.new
  | withCapacity {t : Table Ω V} (n : ℕ) (h : Table.withCapacity n = .ok t) : Reachable Q t
  | fromUniqueHashed {t : Table Ω V} (entries : List (Bucket Ω V)) (hk : KeysOk entries)
      (h : Table.fromUniqueHashed entries = .ok t) : Reachable Q t
  | step {t t' : Table Ω V} (h : Reachable Q t) (op : Op Ω V Q) (ha : op.Allowed t.entries)
      (hs : step t op = .ok t') : Reachable Q t'

/-- A well-formed table. -/
structure Table.WellFormed (t : Table Ω V) : Prop where
  hashed : ∀ b ∈ t.entries, b.hash = dictKeyHash b.key
  distinct : t.entries.Pairwise fun a b => dictKeyEq a.key b.key = false
  slotless : t.slots = [] → t.entries.length ≤ SMALL
  size : t.slots ≠ [] → ∃ k, t.slots.length = 2 ^ k ∧ t.shift = 64 - k
  empty : t.slots ≠ [] → (0 : UInt64) ∈ t.slots
  index : t.slots ≠ [] → ∀ (i : ℕ) b, t.entries[i]? = some b →
    ∃! p : ℕ, ∃ s, t.slots[p]? = some s ∧ lowHalf s = i + 1
  word : ∀ (p : ℕ) s, t.slots[p]? = some s → s ≠ 0 → ∃ (i : ℕ) (b : _), t.entries[i]? = some b ∧
    lowHalf s = i + 1 ∧ s.toNat / 2 ^ 32 = (mix b.hash).toNat / 2 ^ 32
  run : ∀ (i : ℕ) b (p : ℕ) s, t.entries[i]? = some b → t.slots[p]? = some s → lowHalf s = i + 1 →
    ∀ d < (p + t.slots.length - homeOf t.shift (mix b.hash)) % t.slots.length,
      t.slots[(homeOf t.shift (mix b.hash) + d) % t.slots.length]? ≠ some 0

theorem lowHalf_ne_zero {s : UInt64} {i : ℕ} (h : lowHalf s = i + 1) : s ≠ 0 := by
  rintro rfl
  simp [lowHalf] at h

theorem mod_distance {n h d : ℕ} (hh : h < n) (hd : d < n) : ((h + d) % n + n - h) % n = d := by
  rcases Nat.lt_or_ge (h + d) n with hlt | hge
  · rw [Nat.mod_eq_of_lt hlt, show h + d + n - h = d + n by omega, Nat.add_mod_right,
      Nat.mod_eq_of_lt hd]
  · have hm : (h + d) % n = h + d - n := by
      rw [Nat.mod_eq_sub_mod hge, Nat.mod_eq_of_lt (by omega)]
    rw [hm, show h + d - n + n - h = d by omega, Nat.mod_eq_of_lt hd]

theorem SlotsOk.wellFormed (h : SlotsOk t) (hk : KeysOk t.entries) : t.WellFormed := by
  have hb := h.bound
  have hne : ∀ {p : ℕ} {s : UInt64}, t.slots[p]? = some s → t.slots ≠ [] := by
    intro p s hp he
    simp [he] at hp
  have hword : ∀ (p : ℕ) s, t.slots[p]? = some s → s ≠ 0 → ∃ i b, t.entries[i]? = some b ∧
      lowHalf s = i + 1 ∧ s = slotWord (mix b.hash) i := by
    intro p s hp hs0
    obtain ⟨hpl, rfl⟩ := List.getElem?_eq_some_iff.mp hp
    rw [← slotAt_of_lt hpl] at hs0 ⊢
    obtain ⟨i, b, hi, hw⟩ := (h.keeps (hne hp)).slotAt_mem hs0
    have := (List.getElem?_eq_some_iff.mp hi).1
    exact ⟨i, b, hi, by rw [hw, lowHalf_slotWord _ (by omega)], hw⟩
  refine ⟨hk.hashed, hk.distinct, fun hn => (h.slotless hn).1, fun hn => ?_, fun hn => ?_,
    fun hn i b hi => ?_, fun p s hp hs0 => ?_, fun i b p s hi hp hl d hd => ?_⟩
  · obtain ⟨k, hs⟩ := h.shaped hn
    exact ⟨k, hs.length, hs.shift⟩
  · obtain ⟨e, he, hz⟩ := h.exists_empty hn
    rw [slotAt_of_lt he] at hz
    exact hz ▸ List.getElem_mem he
  · obtain ⟨k, hs⟩ := h.shaped hn
    have hil := (List.getElem?_eq_some_iff.mp hi).1
    obtain ⟨p, hp, hat, hw0, -⟩ := (h.keeps hn).exists_slot hs ⟨i, b, hi, rfl⟩
    have hlow : lowHalf (slotAt t.slots p) = i + 1 := by
      rw [hat, lowHalf_slotWord _ (by omega)]
    refine ⟨p, ⟨_, by rw [List.getElem?_eq_getElem hp, slotAt_of_lt hp], hlow⟩, ?_⟩
    rintro q ⟨s, hq, hl⟩
    obtain ⟨hql, rfl⟩ := List.getElem?_eq_some_iff.mp hq
    rw [← slotAt_of_lt hql] at hl
    exact (h.keeps hn).slot_unique hql hp (lowHalf_ne_zero hl) (lowHalf_ne_zero hlow)
      (hl.trans hlow.symm)
  · obtain ⟨i, b, hi, hl, hw⟩ := hword p s hp hs0
    have := (List.getElem?_eq_some_iff.mp hi).1
    refine ⟨i, b, hi, hl, ?_⟩
    rw [hw, slotWord_toNat _ (by omega)]
    omega
  · have hn := hne hp
    obtain ⟨k, hs⟩ := h.shaped hn
    obtain ⟨hpl, rfl⟩ := List.getElem?_eq_some_iff.mp hp
    have hil := (List.getElem?_eq_some_iff.mp hi).1
    obtain ⟨q, hq, hat, hw0, d', hd', hqd, hwalk⟩ :=
      (h.keeps hn).exists_slot hs ⟨i, b, hi, rfl⟩
    have hlq : lowHalf (slotAt t.slots q) = i + 1 := by
      rw [hat, lowHalf_slotWord _ (by omega)]
    rw [← slotAt_of_lt hpl] at hl
    obtain rfl := (h.keeps hn).slot_unique hpl hq (lowHalf_ne_zero hl) (lowHalf_ne_zero hlq)
      (hl.trans hlq.symm)
    rw [hs.homeOf_slotWord _ (by omega)] at hqd hwalk
    have hhome := hs.homeOf_lt (mix b.hash)
    have hdist : (p + t.slots.length - homeOf t.shift (mix b.hash)) % t.slots.length = d' := by
      rw [hqd]
      exact mod_distance hhome hd'
    rw [hdist] at hd
    have hz := hwalk d hd
    have hmod := Nat.mod_lt (homeOf t.shift (mix b.hash) + d) hs.length_pos
    rw [List.getElem?_eq_getElem hmod, ← slotAt_of_lt hmod, slotAt_mod]
    simpa using hz

theorem SlotsOk.getIndexOf [LawfulKeys Ω] [LawfulProbe Q Ω] (h : SlotsOk t)
    (hk : KeysOk t.entries) (q : Q) :
    t.getIndexOf q = .ok (t.entries.findIdx? fun b => Probe.probeEq q b.key) := by
  obtain ⟨r, hr, hf⟩ := h.findHashed (Probe.probeHash q) q
  have hfind := Found.findIdx? hk hf
  have hscan : ∀ (l : List (Bucket Ω V)) (i : ℕ) found, Table.scanUnhashed q l i = some found →
      found = (l.findIdx? fun b => Probe.probeEq q b.key).map (· + i) := by
    intro l
    induction l with
    | nil => rintro i found hf; exact (Option.some.inj hf).symm
    | cons b l ih =>
      intro i found hf
      rw [Table.scanUnhashed] at hf
      rw [List.findIdx?_cons]
      cases hu : Probe.probeEqUnhashed q b.key with
      | none => rw [hu] at hf; cases hf
      | some v =>
        rw [hu] at hf
        rw [← LawfulProbe.unhashed q b.key v hu]
        cases v with
        | true => simpa using (Option.some.inj hf).symm
        | false =>
          rw [ih (i + 1) found hf]
          simp only [Bool.false_eq_true, if_false, Option.map_map]
          congr 1
          funext j
          simp only [Function.comp]
          omega
  rw [Table.getIndexOf]
  split_ifs with h₁ h₂
  · simp [h₁.2]
    rfl
  · cases hs : Table.scanUnhashed q t.entries 0 with
    | none =>
      rw [hr, hfind]
      cases r <;> rfl
    | some found => rw [hscan _ _ _ hs]; simp; rfl
  · rw [hr, hfind]
    cases r <;> rfl

/-- In every table reached by any sequence of operations the slots index the entries, no probe
runs for ever or leaves the table, a lookup finds exactly the key's place in the entries, and each
operation changes the entries as it changes an ordered association list. -/
theorem reachable_refines [LawfulKeys Ω] [LawfulProbe Q Ω] (h : Reachable Q t) :
    t.WellFormed ∧
    (∀ (hash : Int64) (q : Q), ∃ r, t.findHashed hash q = .ok r) ∧
    (∀ q : Q, ∃ r, t.findHashed (Probe.probeHash q) q = .ok r ∧
      match r with
      | .ok i => t.entries.findIdx? (fun b => Probe.probeEq q b.key) = some i
      | .error pos => t.entries.findIdx? (fun b => Probe.probeEq q b.key) = none ∧
          (t.slots ≠ [] → t.slots[pos]? = some 0)) ∧
    (∀ q : Q, t.getIndexOf q = .ok (t.entries.findIdx? fun b => Probe.probeEq q b.key)) ∧
    (t.slots ≠ [] → ∀ (i : ℕ) b, t.entries[i]? = some b →
      ∃ p s, t.slotOf b.hash i = .ok p ∧ t.slots[p]? = some s ∧ lowHalf s = i + 1) ∧
    (t.slots ≠ [] → ∀ m, ∃ p, vacantSlot t.slots t.shift m = .ok p ∧ t.slots[p]? = some 0) ∧
    ∀ op : Op Ω V Q, op.Allowed t.entries →
      Ensures (step t op) (fun t' => op.Effect t.entries t'.entries)
        (op.Rejected t.entries.length) := by
  have hinv : SlotsOk t ∧ KeysOk t.entries := by
    induction h with
    | new => exact ⟨SlotsOk.new, keysOk_nil⟩
    | withCapacity n h =>
      obtain ⟨h₁, h₂⟩ := (withCapacity_ensures n).of_ok h
      exact ⟨h₁, h₂ ▸ keysOk_nil⟩
    | fromUniqueHashed entries hk h =>
      obtain ⟨h₁, h₂⟩ := (fromUniqueHashed_ensures entries).of_ok h
      exact ⟨h₁, h₂ ▸ hk⟩
    | step _ op ha hs ih =>
      obtain ⟨h₁, h₂⟩ := (step_effect ih.1 ih.2 ha).of_ok hs
      exact ⟨h₁, keysOk_of_effect ih.2 ha h₂⟩
  obtain ⟨hs, hk⟩ := hinv
  have hb := hs.bound
  have hslot : ∀ {p : ℕ} {s : UInt64}, p < t.slots.length → slotAt t.slots p = s →
      t.slots[p]? = some s := by
    rintro p s hp rfl
    rw [List.getElem?_eq_getElem hp, slotAt_of_lt hp]
  refine ⟨hs.wellFormed hk, fun hash q => ?_, fun q => ?_, hs.getIndexOf hk, fun hn i b hi => ?_,
    fun hn m => ?_, fun op ha => (step_effect hs hk ha).mono (fun _ h => h.2) id⟩
  · obtain ⟨r, hr, -⟩ := hs.findHashed hash q
    exact ⟨r, hr⟩
  · obtain ⟨r, hr, hf⟩ := hs.findHashed (Probe.probeHash q) q
    refine ⟨r, hr, ?_⟩
    have hidx := Found.findIdx? hk hf
    cases r with
    | ok i => exact hidx
    | error pos => exact ⟨hidx, fun hn => hslot (hf.2 hn).1 (hf.2 hn).2.1⟩
  · obtain ⟨k, hsh⟩ := hs.shaped hn
    have := (List.getElem?_eq_some_iff.mp hi).1
    obtain ⟨p, hp, hso, hat⟩ := (hs.keeps hn).slotOf hsh _ (i := i) (by omega) ⟨i, b, hi, rfl⟩
    exact ⟨p, _, hso, hslot hp hat, lowHalf_slotWord _ (by omega)⟩
  · obtain ⟨p, hp, hv⟩ := hs.vacantSlot hn m
    exact ⟨p, hp, hslot hv.1 hv.2.1⟩

section Instance

/-- Strings and machine ints only, every string with the same hash. -/
instance : KeyOps Empty where
  pyStrHash _ := 0
  pyWstrHash _ := 0
  pyHashValue := Empty.elim
  generalEq _ _ := false

instance : LawfulKeys Empty where
  equiv := by
    refine ⟨fun a => ?_, fun {a b} h => ?_, fun {a b c} h h' => ?_⟩
    · cases a <;> first | exact Empty.elim ‹_› | simp [dictKeyEq]
    · cases a <;> cases b <;> simp_all [dictKeyEq, KeyOps.generalEq]
    · cases a <;> cases b <;> simp [dictKeyEq, KeyOps.generalEq] at h <;> cases c <;>
        simp_all [dictKeyEq, KeyOps.generalEq]
  hash_eq := by
    intro a b h
    cases a <;> cases b <;>
      simp_all [dictKeyEq, KeyOps.generalEq, dictKeyHash, KeyOps.pyStrHash, KeyOps.pyWstrHash]

def nineKeys : List (Bucket Empty ℕ) :=
  (List.range 9).map fun i => ⟨pyHashLongI64 (Int64.ofNat i), .int (Int64.ofNat i), i⟩

theorem reachable_refines_nineKeys : ∃ t t' : Table Empty ℕ,
    Table.fromUniqueHashed nineKeys = .ok t ∧
    step t (.shiftRemoveIndex 0 : Op Empty ℕ (Object Empty)) = .ok t' ∧ t'.WellFormed ∧
    t'.getIndexOf (.int 8 : Object Empty) = .ok (some 7) := by
  have hk : KeysOk nineKeys := ⟨by decide, by decide⟩
  have hens := fromUniqueHashed_ensures nineKeys
  cases ht : Table.fromUniqueHashed nineKeys with
  | error e =>
    rw [ht] at hens
    exact absurd hens.2 (by decide)
  | ok t =>
    have hr : Reachable (Object Empty) t := .fromUniqueHashed nineKeys hk ht
    obtain ⟨hs, he⟩ := hens.of_ok ht
    have hstep : Ensures (step t (.shiftRemoveIndex 0 : Op Empty ℕ (Object Empty))) _ _ :=
      step_effect hs (he ▸ hk) trivial
    cases ht' : step t (.shiftRemoveIndex 0 : Op Empty ℕ (Object Empty)) with
    | error e =>
      rw [ht'] at hstep
      exact hstep.2.elim
    | ok t' =>
      have hr' := hr.step (.shiftRemoveIndex 0) trivial ht'
      obtain ⟨hwf, -, -, hget, -⟩ := reachable_refines hr'
      refine ⟨t, t', rfl, ht', hwf, ?_⟩
      have he' : t'.entries = t.entries.eraseIdx 0 := (hstep.of_ok ht').2
      rw [hget, he', he]
      rfl

end Instance

end WeavePy.DictMap
