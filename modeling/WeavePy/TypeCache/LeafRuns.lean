import Mathlib.Data.List.Basic

/-!
The cache a class keeps of its attribute answers: two slots for each key, and a table that grows once.
-/

namespace WeavePy.LeafAttrs

/-- An address or a small number, and where it places its entries. -/
structure AttrKey where
  id : ℕ
  hash : UInt32
  id_ne : id ≠ 0

/-- A `name` of 0 is no entry. -/
structure LeafAttrEntry (κ : Type) where
  name : ℕ
  hash : UInt32
  ver : ℕ
  kind : κ

def LEAF_ATTRS_SMALL : ℕ := 8

def LEAF_ATTRS_LARGE : ℕ := 32

/-- The first slot of a hash, and the second one. -/
def index (hash : UInt32) : ℕ := hash.toNat &&& 31

def alt (hash : UInt32) : ℕ := index hash ^^^ (1 + ((hash.toNat >>> 5) &&& 15))

structure Table (κ : Type) where
  slots : List (LeafAttrEntry κ)
  length_eq : slots.length = LEAF_ATTRS_SMALL ∨ slots.length = LEAF_ATTRS_LARGE

/-- `none` where no table was allocated. -/
abbrev LeafAttrCache (κ : Type) := Option (Table κ)

variable {κ : Type} [Inhabited κ]

/-- The default kind is `Other`. -/
def LeafAttrEntry.EMPTY : LeafAttrEntry κ := ⟨0, 0, 0, default⟩

def Table.small : Table κ := ⟨List.replicate LEAF_ATTRS_SMALL .EMPTY, .inl List.length_replicate⟩

namespace Table

def mask (t : Table κ) : ℕ := t.slots.length - 1

def read (t : Table κ) (i : ℕ) : LeafAttrEntry κ := t.slots.getD i .EMPTY

def write (t : Table κ) (i : ℕ) (e : LeafAttrEntry κ) : Table κ :=
  ⟨t.slots.set i e, by rw [List.length_set]; exact t.length_eq⟩

/-- An entry goes to its first slot, or to its second one, or is dropped. -/
def move (large : Table κ) (e : LeafAttrEntry κ) : Table κ :=
  if e.name = 0 then large
  else
    let k := if (large.read (index e.hash)).name = 0 then index e.hash else alt e.hash
    if (large.read k).name = 0 then large.write k e else large

def grow (t : Table κ) : Table κ :=
  t.slots.foldl move ⟨List.replicate LEAF_ATTRS_LARGE .EMPTY, .inr List.length_replicate⟩

end Table

/-- The entry of another key that is still current. -/
def LeafAttrEntry.busy (e : LeafAttrEntry κ) (key : AttrKey) (ver : ℕ) : Bool :=
  e.name ≠ 0 && e.name ≠ key.id && e.ver = ver

def Table.lookup (t : Table κ) (key : AttrKey) (ver : ℕ) : Option κ :=
  let e := t.read (index key.hash &&& t.mask)
  if e.name = key.id ∧ e.ver = ver then some e.kind
  else
    let e := t.read (alt key.hash &&& t.mask)
    if e.name = key.id ∧ e.ver = ver then some e.kind else none

/-- Both slots of the key hold others that are current. -/
def Table.full (t : Table κ) (key : AttrKey) (ver : ℕ) : Bool :=
  (t.read (index key.hash &&& t.mask)).busy key ver && (t.read (alt key.hash &&& t.mask)).busy key ver

/-- The first slot unless it is busy and the second one is not. -/
def Table.store (t : Table κ) (key : AttrKey) (ver : ℕ) (kind : κ) : Table κ :=
  let i := index key.hash &&& t.mask
  let j := alt key.hash &&& t.mask
  let k := if !(t.read i).busy key ver || (t.read j).busy key ver then i else j
  t.write k ⟨key.id, key.hash, ver, kind⟩

namespace LeafAttrCache

def get (c : LeafAttrCache κ) (key : AttrKey) (ver : ℕ) : Option κ :=
  match c with
  | none => none
  | some t => t.lookup key ver

def set (c : LeafAttrCache κ) (key : AttrKey) (ver : ℕ) (kind : κ) : LeafAttrCache κ :=
  let t := c.getD .small
  let t := if t.slots.length = LEAF_ATTRS_SMALL && t.full key ver then t.grow else t
  some (t.store key ver kind)

end LeafAttrCache

end WeavePy.LeafAttrs

/-!
What a cache of attribute answers gives back, whatever was set before.
-/

namespace WeavePy.LeafAttrs

variable {κ : Type}

/-- An answer to be cached. -/
structure Fill (κ : Type) where
  key : AttrKey
  ver : ℕ
  kind : κ

/-- The kind set last for a key and a version. -/
def latest (fills : List (Fill κ)) (id ver : ℕ) : Option κ :=
  (fills.filter fun s => s.key.id = id && s.ver = ver).getLast?.map Fill.kind

section Latest

variable {fills : List (Fill κ)} {s : Fill κ} {id ver : ℕ}

theorem latest_snoc_self (fills : List (Fill κ)) (s : Fill κ) : latest (fills ++ [s]) s.key.id s.ver = some s.kind := by
  unfold latest
  rw [List.filter_append, List.filter_cons_of_pos (by simp), List.filter_nil, List.getLast?_append]
  rfl

theorem latest_snoc_of_ne (h : ¬ (s.key.id = id ∧ s.ver = ver)) : latest (fills ++ [s]) id ver = latest fills id ver := by
  unfold latest
  rw [List.filter_append, List.filter_cons_of_neg (by simpa using h), List.filter_nil, List.append_nil]

theorem mem_of_latest {kind : κ} (h : latest fills id ver = some kind) : ∃ s ∈ fills, s.key.id = id ∧ s.ver = ver := by
  unfold latest at h
  obtain ⟨s, hs, -⟩ := Option.map_eq_some_iff.mp h
  obtain ⟨hmem, hkey⟩ := List.mem_filter.mp (List.mem_of_getLast? hs)
  rw [Bool.and_eq_true, decide_eq_true_iff, decide_eq_true_iff] at hkey
  exact ⟨s, hmem, hkey⟩

end Latest

theorem slot_lt (t : Table κ) (i : ℕ) : i &&& t.mask < t.slots.length := by
  have hle : i &&& t.mask ≤ t.mask := Nat.and_le_right
  have hpos : 0 < t.slots.length := by
    obtain h | h := t.length_eq <;> rw [h] <;> decide
  unfold Table.mask at hle ⊢
  omega

theorem busy_iff {e : LeafAttrEntry κ} {key : AttrKey} {ver : ℕ} : e.busy key ver = true ↔ e.name ≠ 0 ∧ e.name ≠ key.id ∧ e.ver = ver := by
  unfold LeafAttrEntry.busy
  rw [Bool.and_eq_true, Bool.and_eq_true, decide_eq_true_iff, decide_eq_true_iff, decide_eq_true_iff, and_assoc]

variable [Inhabited κ]

/-- Fills under versions that never decrease, a key's hash given by `placement`; each meets `cond` where it is
made. -/
inductive Reached (placement : ℕ → UInt32) (cond : LeafAttrCache κ → Fill κ → Prop) :
    List (Fill κ) → LeafAttrCache κ → Prop where
  | new : Reached placement cond [] none
  | set {fills : List (Fill κ)} {c : LeafAttrCache κ} (h : Reached placement cond fills c) (s : Fill κ)
      (hash : s.key.hash = placement s.key.id) (hver : ∀ s' ∈ fills, s'.ver ≤ s.ver) (hcond : cond c s) :
      Reached placement cond (fills ++ [s]) (c.set s.key s.ver s.kind)

/-- An answer is the latest one, or is missing; and what was just set is there. -/
def Lossy (placement : ℕ → UInt32) (cond : LeafAttrCache κ → Fill κ → Prop) : Prop :=
  ∀ fills c, Reached placement cond fills c →
    (∀ key ver, key.hash = placement key.id →
      c.get key ver = none ∨ c.get key ver = latest fills key.id ver) ∧
    ∀ s : Fill κ, (c.set s.key s.ver s.kind).get s.key s.ver = some s.kind

/-- Where the table grows, no entry of another version stands before a current one whose first slot it can take. -/
def Harmless (c : LeafAttrCache κ) (s : Fill κ) : Prop :=
  ∀ t, c = some t → t.slots.length = LEAF_ATTRS_SMALL → t.full s.key s.ver = true →
    t.slots.Pairwise fun e e' => e.name ≠ 0 → e.ver ≠ s.ver → e'.name ≠ 0 → e'.ver = s.ver →
      index e'.hash ≠ index e.hash ∧ index e'.hash ≠ alt e.hash

section Tables

variable {t : Table κ} {i k : ℕ} {e : LeafAttrEntry κ}

theorem index_lt (hash : UInt32) : index hash < LEAF_ATTRS_LARGE :=
  Nat.lt_succ_of_le Nat.and_le_right

theorem alt_lt (hash : UInt32) : alt hash < LEAF_ATTRS_LARGE := by
  unfold alt
  apply Nat.xor_lt_two_pow (n := 5)
  · exact index_lt hash
  · have := Nat.and_le_right (n := hash.toNat >>> 5) (m := 15)
    omega

theorem read_write_self (hi : i < t.slots.length) (e : LeafAttrEntry κ) : (t.write i e).read i = e := by
  unfold Table.read Table.write
  rw [List.getD_eq_getElem?_getD, List.getElem?_set_self hi]
  rfl

theorem read_write_ne (hik : i ≠ k) (e : LeafAttrEntry κ) : (t.write i e).read k = t.read k := by
  unfold Table.read Table.write
  rw [List.getD_eq_getElem?_getD, List.getElem?_set_ne hik, List.getD_eq_getElem?_getD]

theorem read_mem (h : (t.read i).name ≠ 0) : t.read i ∈ t.slots := by
  unfold Table.read at h ⊢
  rw [List.getD_eq_getElem?_getD] at h ⊢
  cases hslot : t.slots[i]? with
  | none =>
    rw [hslot] at h
    exact absurd rfl h
  | some e => exact List.mem_of_getElem? hslot

end Tables

section Invariant

variable {placement : ℕ → UInt32} {fills : List (Fill κ)} {t : Table κ} {s : Fill κ} {key : AttrKey} {ver i : ℕ}

/-- The entries of a table: each is the latest answer of its key and version, in one of the slots of the key; a
current one in its second slot has another current one in its first. -/
structure Holds (placement : ℕ → UInt32) (fills : List (Fill κ)) (t : Table κ) : Prop where
  hash : ∀ i, (t.read i).name ≠ 0 → (t.read i).hash = placement (t.read i).name
  slot : ∀ i, (t.read i).name ≠ 0 → i = index (t.read i).hash &&& t.mask ∨ i = alt (t.read i).hash &&& t.mask
  latest : ∀ i, (t.read i).name ≠ 0 → LeafAttrs.latest fills (t.read i).name (t.read i).ver = some (t.read i).kind
  first : ∀ i, (t.read i).name ≠ 0 → (∀ s ∈ fills, s.ver ≤ (t.read i).ver) →
    i ≠ index (t.read i).hash &&& t.mask →
      (t.read (index (t.read i).hash &&& t.mask)).name ≠ 0 ∧
      (t.read (index (t.read i).hash &&& t.mask)).name ≠ (t.read i).name ∧
      (t.read (index (t.read i).hash &&& t.mask)).ver = (t.read i).ver

/-- An entry is no older than any fill if its version is not. -/
theorem Holds.current (h : Holds placement fills t) (hi : (t.read i).name ≠ 0) (hver : ∀ s ∈ fills, s.ver ≤ ver) :
    (t.read i).ver ≤ ver := by
  obtain ⟨s, hs, -, hs'⟩ := mem_of_latest (h.latest i hi)
  rw [← hs']
  exact hver s hs

/-- Where an entry is stored: at the second slot only if the first one is busy. -/
def Table.target (t : Table κ) (key : AttrKey) (ver : ℕ) : ℕ :=
  if !(t.read (index key.hash &&& t.mask)).busy key ver || (t.read (alt key.hash &&& t.mask)).busy key ver then
    index key.hash &&& t.mask
  else alt key.hash &&& t.mask

theorem target_cases (t : Table κ) (key : AttrKey) (ver : ℕ) :
    t.target key ver = index key.hash &&& t.mask ∧
        ((t.read (index key.hash &&& t.mask)).busy key ver = false ∨ (t.read (alt key.hash &&& t.mask)).busy key ver = true) ∨
      t.target key ver = alt key.hash &&& t.mask ∧ (t.read (index key.hash &&& t.mask)).busy key ver = true := by
  unfold Table.target
  cases hi : (t.read (index key.hash &&& t.mask)).busy key ver with
  | false => exact .inl ⟨rfl, .inl rfl⟩
  | true =>
    cases hj : (t.read (alt key.hash &&& t.mask)).busy key ver with
    | false => exact .inr ⟨rfl, rfl⟩
    | true => exact .inl ⟨rfl, .inr rfl⟩

theorem target_lt (t : Table κ) (key : AttrKey) (ver : ℕ) : t.target key ver < t.slots.length := by
  obtain ⟨h, -⟩ | ⟨h, -⟩ := target_cases t key ver
  · rw [h]
    exact slot_lt t _
  · rw [h]
    exact slot_lt t _

theorem store_mask (t : Table κ) (key : AttrKey) (ver : ℕ) (kind : κ) : (t.store key ver kind).mask = t.mask := by
  unfold Table.mask Table.store Table.write
  rw [List.length_set]

theorem read_store_target (t : Table κ) (key : AttrKey) (ver : ℕ) (kind : κ) :
    (t.store key ver kind).read (t.target key ver) = ⟨key.id, key.hash, ver, kind⟩ :=
  read_write_self (target_lt t key ver) _

theorem read_store_ne (kind : κ) (h : t.target key ver ≠ i) : (t.store key ver kind).read i = t.read i :=
  read_write_ne h _

/-- A store leaves no other entry of its key and version. -/
theorem Holds.unique (h : Holds placement fills t) (hhash : key.hash = placement key.id)
    (hver : ∀ s ∈ fills, s.ver ≤ ver) (hi : t.target key ver ≠ i) (hname : (t.read i).name = key.id) :
    (t.read i).ver ≠ ver := by
  intro heq
  have hname' : (t.read i).name ≠ 0 := by
    rw [hname]
    exact key.id_ne
  have hidle : (t.read i).busy key ver = false :=
    Bool.eq_false_iff.mpr fun hbusy => (busy_iff.mp hbusy).2.1 hname
  have hkey : (t.read i).hash = key.hash := by rw [h.hash i hname', hname, hhash]
  have hslot := h.slot i hname'
  have hfirst := h.first i hname'
  rw [hkey] at hslot hfirst
  rw [heq, hname] at hfirst
  obtain ⟨htarget, hbusy⟩ | ⟨htarget, hbusy⟩ := target_cases t key ver
  · rw [htarget] at hi
    have hj := hslot.resolve_left fun heq => hi heq.symm
    rw [← hj, hidle, or_iff_left Bool.false_ne_true] at hbusy
    rw [busy_iff.mpr (hfirst hver fun heq => hi heq.symm)] at hbusy
    cases hbusy
  · rw [htarget] at hi
    have hi' := hslot.resolve_right fun heq => hi heq.symm
    rw [← hi', hidle] at hbusy
    cases hbusy

theorem Holds.store (h : Holds placement fills t) (hhash : s.key.hash = placement s.key.id)
    (hver : ∀ s' ∈ fills, s'.ver ≤ s.ver) : Holds placement (fills ++ [s]) (t.store s.key s.ver s.kind) := by
  have hread (i : ℕ) : i = t.target s.key s.ver ∨
      t.target s.key s.ver ≠ i ∧ (t.store s.key s.ver s.kind).read i = t.read i := by
    by_cases hi : t.target s.key s.ver = i
    · exact .inl hi.symm
    · exact .inr ⟨hi, read_store_ne s.kind hi⟩
  constructor
  · intro i
    obtain rfl | ⟨-, hi⟩ := hread i
    · rw [read_store_target]
      exact fun _ => hhash
    · rw [hi]
      exact h.hash i
  · intro i
    rw [store_mask]
    obtain rfl | ⟨-, hi⟩ := hread i
    · rw [read_store_target]
      intro _
      obtain ⟨h, -⟩ | ⟨h, -⟩ := target_cases t s.key s.ver
      · exact .inl h
      · exact .inr h
    · rw [hi]
      exact h.slot i
  · intro i
    obtain rfl | ⟨hne, hi⟩ := hread i
    · rw [read_store_target]
      exact fun _ => latest_snoc_self fills s
    · rw [hi]
      intro hname
      rw [latest_snoc_of_ne fun heq => h.unique hhash hver hne heq.1.symm heq.2.symm]
      exact h.latest i hname
  · intro i
    rw [store_mask]
    obtain rfl | ⟨hne, hi⟩ := hread i
    · rw [read_store_target]
      intro _ _ hsecond
      obtain ⟨htarget, -⟩ | ⟨htarget, hbusy⟩ := target_cases t s.key s.ver
      · exact absurd htarget hsecond
      · rw [read_store_ne s.kind hsecond]
        exact busy_iff.mp hbusy
    · rw [hi]
      intro hname hcurrent hsecond
      have hcurrent' : ∀ s' ∈ fills, s'.ver ≤ (t.read i).ver := fun s' hs' =>
        hcurrent s' (List.mem_append_left _ hs')
      have hsame : (t.read i).ver = s.ver :=
        Nat.le_antisymm (h.current hname hver) (hcurrent s (List.mem_append_right _ List.mem_cons_self))
      obtain hfirst | ⟨-, hfirst⟩ := hread (index (t.read i).hash &&& t.mask)
      · rw [hfirst, read_store_target]
        exact ⟨s.key.id_ne, fun heq => h.unique hhash hver hne heq.symm hsame, hsame.symm⟩
      · rw [hfirst]
        exact h.first i hname hcurrent' hsecond

end Invariant

section Growth

variable {ver : ℕ} {done : List (LeafAttrEntry κ)} {large : Table κ} {e : LeafAttrEntry κ}

/-- What lets an entry `e` be moved after `d`. -/
def Follows (ver : ℕ) (d e : LeafAttrEntry κ) : Prop :=
  (d.name ≠ 0 → d.ver ≠ ver → e.name ≠ 0 → e.ver = ver → index e.hash ≠ index d.hash ∧ index e.hash ≠ alt d.hash) ∧
    (d.name ≠ 0 → d.ver = ver → e.name ≠ 0 → e.ver = ver → d.name ≠ e.name)

/-- A large table some entries were moved to. -/
structure Moved (ver : ℕ) (done : List (LeafAttrEntry κ)) (large : Table κ) : Prop where
  length : large.slots.length = LEAF_ATTRS_LARGE
  mem : ∀ i, (large.read i).name ≠ 0 → large.read i ∈ done
  slot : ∀ i, (large.read i).name ≠ 0 → i = index (large.read i).hash ∨ i = alt (large.read i).hash
  first : ∀ i, (large.read i).name ≠ 0 → (large.read i).ver = ver → i ≠ index (large.read i).hash →
    (large.read (index (large.read i).hash)).name ≠ 0 ∧
    (large.read (index (large.read i).hash)).name ≠ (large.read i).name ∧
    (large.read (index (large.read i).hash)).ver = ver

theorem Moved.write (h : Moved ver done large) {k : ℕ} (hk : k = index e.hash ∨ k = alt e.hash)
    (hfree : (large.read k).name = 0)
    (hfirst : k ≠ index e.hash → e.ver = ver → (large.read (index e.hash)).name ≠ 0 ∧
      (large.read (index e.hash)).name ≠ e.name ∧ (large.read (index e.hash)).ver = ver) :
    Moved ver (done ++ [e]) (large.write k e) := by
  have hlt : k < large.slots.length := by
    rw [h.length]
    obtain rfl | rfl := hk
    · exact index_lt _
    · exact alt_lt _
  have hread (i : ℕ) : i = k ∨ k ≠ i ∧ (large.write k e).read i = large.read i := by
    by_cases hi : k = i
    · exact .inl hi.symm
    · exact .inr ⟨hi, read_write_ne hi e⟩
  constructor
  · unfold Table.write
    rw [List.length_set]
    exact h.length
  · intro i
    obtain rfl | ⟨-, hi⟩ := hread i
    · rw [read_write_self hlt]
      exact fun _ => List.mem_append_right _ List.mem_cons_self
    · rw [hi]
      exact fun hname => List.mem_append_left _ (h.mem i hname)
  · intro i
    obtain rfl | ⟨-, hi⟩ := hread i
    · rw [read_write_self hlt]
      exact fun _ => hk
    · rw [hi]
      exact h.slot i
  · intro i
    obtain rfl | ⟨-, hi⟩ := hread i
    · rw [read_write_self hlt]
      intro _ hver hsecond
      rw [read_write_ne hsecond]
      exact hfirst hsecond hver
    · rw [hi]
      intro hname hver hsecond
      have hbusy := h.first i hname hver hsecond
      rw [read_write_ne]
      · exact hbusy
      · intro heq
        rw [← heq] at hbusy
        exact hbusy.1 hfree

theorem Moved.move (h : Moved ver done large) (hfollows : ∀ d ∈ done, Follows ver d e) :
    Moved ver (done ++ [e]) (large.move e) := by
  have hskip : Moved ver (done ++ [e]) large :=
    ⟨h.length, fun i hname => List.mem_append_left _ (h.mem i hname), h.slot, h.first⟩
  unfold Table.move
  dsimp only
  split_ifs with hname hfirst hfree
  · exact hskip
  · exact h.write (.inl rfl) hfirst fun hne => absurd rfl hne
  · apply h.write (.inr rfl) hfree
    intro _ hver
    obtain ⟨hother, hsame⟩ := hfollows _ (h.mem _ hfirst)
    have hcurrent : (large.read (index e.hash)).ver = ver := by
      by_contra hold
      obtain ⟨hindex, halt⟩ := hother hfirst hold hname hver
      obtain hslot | hslot := h.slot _ hfirst
      · exact hindex hslot
      · exact halt hslot
    exact ⟨hfirst, hsame hfirst hcurrent hname hver, hcurrent⟩
  · exact hskip

theorem moved_foldl (todo : List (LeafAttrEntry κ)) (h : Moved ver done large)
    (hfollows : (done ++ todo).Pairwise (Follows ver)) : Moved ver (done ++ todo) (todo.foldl Table.move large) := by
  induction todo generalizing done large with
  | nil =>
    rw [List.append_nil]
    exact h
  | cons e todo ih =>
    have hstep := h.move fun d hd =>
      (List.pairwise_append.mp hfollows).2.2 d hd e List.mem_cons_self
    have hsplit : done ++ e :: todo = done ++ [e] ++ todo := List.append_cons done e todo
    rw [hsplit] at hfollows ⊢
    exact ih hstep hfollows

variable {placement : ℕ → UInt32} {fills : List (Fill κ)} {t : Table κ} {key : AttrKey}

theorem Holds.follows (h : Holds placement fills t) (hver : ∀ s ∈ fills, s.ver ≤ ver)
    (hharmless : t.slots.Pairwise fun e e' => e.name ≠ 0 → e.ver ≠ ver → e'.name ≠ 0 → e'.ver = ver →
      index e'.hash ≠ index e.hash ∧ index e'.hash ≠ alt e.hash) : t.slots.Pairwise (Follows ver) := by
  rw [List.pairwise_iff_getElem] at hharmless ⊢
  intro i j hi hj hij
  refine ⟨hharmless i j hi hj hij, ?_⟩
  have hread {k : ℕ} (hk : k < t.slots.length) : t.slots[k] = t.read k := by
    unfold Table.read
    rw [List.getD_eq_getElem?_getD, List.getElem?_eq_getElem hk]
    rfl
  rw [hread hi, hread hj]
  intro hname hcur hname' hcur' heq
  have hhash : (t.read i).hash = (t.read j).hash := by
    rw [h.hash i hname, h.hash j hname', heq]
  have hslot := h.slot i hname
  have hslot' := h.slot j hname'
  have hfirst := h.first i hname (by rw [hcur]; exact hver)
  have hfirst' := h.first j hname' (by rw [hcur']; exact hver)
  rw [← hhash] at hslot' hfirst'
  by_cases hone : i = index (t.read i).hash &&& t.mask
  · have hne : j ≠ index (t.read i).hash &&& t.mask := fun h => by omega
    rw [← hone] at hfirst'
    exact (hfirst' (by omega)).2.1 heq
  · have hj' : j = index (t.read i).hash &&& t.mask := by
      by_contra hne
      exact absurd ((hslot.resolve_left hone).trans (hslot'.resolve_left hne).symm) (by omega)
    have hbusy := (hfirst hone).2.1
    rw [← hj'] at hbusy
    exact hbusy heq.symm

/-- A table that a harmless fill makes grow holds what it held. -/
theorem Holds.grow (h : Holds placement fills t) (hver : ∀ s ∈ fills, s.ver ≤ ver) (hfull : t.full key ver = true)
    (hharmless : t.slots.Pairwise fun e e' => e.name ≠ 0 → e.ver ≠ ver → e'.name ≠ 0 → e'.ver = ver →
      index e'.hash ≠ index e.hash ∧ index e'.hash ≠ alt e.hash) : Holds placement fills t.grow := by
  have hempty : Moved ver [] (⟨List.replicate LEAF_ATTRS_LARGE .EMPTY, .inr List.length_replicate⟩ : Table κ) := by
    have hread (i : ℕ) : ((⟨List.replicate LEAF_ATTRS_LARGE .EMPTY, .inr List.length_replicate⟩ : Table κ).read i).name = 0 := by
      unfold Table.read
      rw [List.getD_eq_getElem?_getD, List.getElem?_replicate]
      split_ifs <;> rfl
    exact ⟨List.length_replicate, fun i hi => absurd (hread i) hi, fun i hi => absurd (hread i) hi,
      fun i hi => absurd (hread i) hi⟩
  have hmoved := moved_foldl t.slots hempty (h.follows hver hharmless)
  rw [List.nil_append] at hmoved
  change Moved ver t.slots t.grow at hmoved
  have hmask : t.grow.mask = 31 := by
    unfold Table.mask
    rw [hmoved.length]
    rfl
  have hindex (hash : UInt32) : index hash &&& t.grow.mask = index hash := by
    rw [hmask]
    exact (Nat.and_two_pow_sub_one_eq_mod _ 5).trans (Nat.mod_eq_of_lt (index_lt hash))
  have halt (hash : UInt32) : alt hash &&& t.grow.mask = alt hash := by
    rw [hmask]
    exact (Nat.and_two_pow_sub_one_eq_mod _ 5).trans (Nat.mod_eq_of_lt (alt_lt hash))
  -- where an entry was, for what was known of it there
  have hfrom (i : ℕ) (hi : (t.grow.read i).name ≠ 0) : ∃ k, t.read k = t.grow.read i := by
    obtain ⟨k, hk, heq⟩ := List.getElem_of_mem (hmoved.mem i hi)
    refine ⟨k, ?_⟩
    rw [← heq]
    unfold Table.read
    rw [List.getD_eq_getElem?_getD, List.getElem?_eq_getElem hk]
    rfl
  obtain ⟨hbusy, -⟩ := Bool.and_eq_true_iff.mp hfull
  obtain ⟨hname₀, -, hver₀⟩ := busy_iff.mp hbusy
  obtain ⟨s₀, hs₀, -, hs₀'⟩ := mem_of_latest (h.latest _ hname₀)
  constructor
  · intro i hi
    obtain ⟨k, hk⟩ := hfrom i hi
    rw [← hk] at hi ⊢
    exact h.hash k hi
  · intro i hi
    rw [hindex, halt]
    exact hmoved.slot i hi
  · intro i hi
    obtain ⟨k, hk⟩ := hfrom i hi
    rw [← hk] at hi ⊢
    exact h.latest k hi
  · intro i hi hcurrent hsecond
    rw [hindex] at hsecond ⊢
    obtain ⟨k, hk⟩ := hfrom i hi
    have hle : (t.grow.read i).ver ≤ ver := by
      rw [← hk] at hi ⊢
      exact h.current hi hver
    have hge : ver ≤ (t.grow.read i).ver := by
      rw [← hver₀, ← hs₀']
      exact hcurrent s₀ hs₀
    have hsame := Nat.le_antisymm hle hge
    have hfirst := hmoved.first i hi hsame hsecond
    rw [hsame]
    exact hfirst

end Growth

section Runs

variable {placement : ℕ → UInt32} {fills : List (Fill κ)} {c : LeafAttrCache κ} {t : Table κ} {key : AttrKey} {ver : ℕ}

theorem read_small (i : ℕ) : ((Table.small : Table κ).read i).name = 0 := by
  unfold Table.read Table.small
  rw [List.getD_eq_getElem?_getD, List.getElem?_replicate]
  split_ifs <;> rfl

theorem holds_small (fills : List (Fill κ)) : Holds placement fills (Table.small : Table κ) :=
  ⟨fun i hi => absurd (read_small i) hi, fun i hi => absurd (read_small i) hi, fun i hi => absurd (read_small i) hi,
    fun i hi => absurd (read_small i) hi⟩

theorem full_small (key : AttrKey) (ver : ℕ) : (Table.small : Table κ).full key ver = false := by
  apply Bool.eq_false_iff.mpr
  intro hfull
  obtain ⟨hbusy, -⟩ := Bool.and_eq_true_iff.mp hfull
  exact (busy_iff.mp hbusy).1 (read_small _)

theorem Reached.holds (h : Reached placement Harmless fills c) : Holds placement fills (c.getD .small) := by
  induction h with
  | new => exact holds_small []
  | @set fills c h s hash hver hcond ih =>
    unfold LeafAttrCache.set
    dsimp only
    rw [Option.getD_some]
    apply Holds.store _ hash hver
    split_ifs with hgrow
    · obtain ⟨hsmall, hfull⟩ := Bool.and_eq_true_iff.mp hgrow
      cases c with
      | none =>
        rw [Option.getD_none, full_small] at hfull
        cases hfull
      | some t => exact ih.grow hver hfull (hcond t rfl (of_decide_eq_true hsmall) hfull)
    · exact ih

theorem Holds.lookup (h : Holds placement fills t) (key : AttrKey) (ver : ℕ) :
    t.lookup key ver = none ∨ t.lookup key ver = LeafAttrs.latest fills key.id ver := by
  have hslot {i : ℕ} (hfound : (t.read i).name = key.id ∧ (t.read i).ver = ver) :
      some (t.read i).kind = LeafAttrs.latest fills key.id ver := by
    have hname : (t.read i).name ≠ 0 := by
      rw [hfound.1]
      exact key.id_ne
    rw [← h.latest i hname, hfound.1, hfound.2]
  unfold Table.lookup
  dsimp only
  split_ifs with hfirst hsecond
  · exact .inr (hslot hfirst)
  · exact .inr (hslot hsecond)
  · exact .inl rfl

/-- What was stored is found, in its first slot or past a busy one. -/
theorem lookup_store (t : Table κ) (key : AttrKey) (ver : ℕ) (kind : κ) :
    (t.store key ver kind).lookup key ver = some kind := by
  have hself := read_store_target t key ver kind
  unfold Table.lookup
  dsimp only
  rw [store_mask]
  by_cases hfirst : t.target key ver = index key.hash &&& t.mask
  · rw [← hfirst, hself]
    exact if_pos ⟨rfl, rfl⟩
  · obtain ⟨htarget, -⟩ | ⟨htarget, hbusy⟩ := target_cases t key ver
    · exact absurd htarget hfirst
    · rw [read_store_ne kind hfirst, if_neg fun h => (busy_iff.mp hbusy).2.1 h.1, ← htarget, hself]
      exact if_pos ⟨rfl, rfl⟩

end Runs

section Stale

/-- Hashes that place the keys 1 to 6 as a growing table needs it. -/
def rivals (id : ℕ) : UInt32 := [0, 7, 7, 71, 5, 55, 39].getD id 0

def rival (n : ℕ) : AttrKey := ⟨n + 1, rivals (n + 1), Nat.succ_ne_zero n⟩

/-- The second fill is of an older version than the rest; the fifth makes the table grow, and the sixth changes
the answer of the third. -/
def rivalFills : List (Fill ℕ) :=
  [⟨rival 0, 1, 0⟩, ⟨rival 1, 1, 0⟩, ⟨rival 2, 2, 10⟩, ⟨rival 3, 2, 0⟩, ⟨rival 4, 2, 0⟩, ⟨rival 2, 2, 20⟩,
    ⟨rival 5, 2, 0⟩]

def rivalCache : LeafAttrCache ℕ := rivalFills.foldl (fun c s => c.set s.key s.ver s.kind) none

theorem rivals_reached : Reached rivals (fun _ _ => True) rivalFills rivalCache := by
  have h₀ : Reached rivals (fun _ _ => True) ([] : List (Fill ℕ)) none := .new
  have h₁ := h₀.set ⟨rival 0, 1, 0⟩ rfl nofun trivial
  have h₂ := h₁.set ⟨rival 1, 1, 0⟩ rfl (by decide) trivial
  have h₃ := h₂.set ⟨rival 2, 2, 10⟩ rfl (by decide) trivial
  have h₄ := h₃.set ⟨rival 3, 2, 0⟩ rfl (by decide) trivial
  have h₅ := h₄.set ⟨rival 4, 2, 0⟩ rfl (by decide) trivial
  have h₆ := h₅.set ⟨rival 2, 2, 20⟩ rfl (by decide) trivial
  exact h₆.set ⟨rival 5, 2, 0⟩ rfl (by decide) trivial

end Stale

end WeavePy.LeafAttrs
