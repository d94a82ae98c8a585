import WeavePy.InstDict.Effects

/-!
Stores at the positions of a class's names, and the prediction that they succeed.
-/

namespace WeavePy.InstDict

variable {V : Type}

/-- An instance as the stores see it: `keys` is its class's table of names, once there is one. -/
structure Receiver (V : Type) where
  cBody : Bool
  freeThreading : Bool
  /-- Whether cells are shared across threads. -/
  unguarded : Bool
  /-- Whether a dictionary is published. -/
  published : Bool
  /-- The split cell's live borrows, below zero for an exclusive one. -/
  borrow : ℤ
  keys : Option (TableId × SharedKeys)
  split : SplitValues V

namespace SplitValues

variable (s : SplitValues V) (id : TableId)

/-- The value at `i` of values over the table. -/
def getOver (i : ℕ) : Option V := s.bind fun b => if b.keys = some id then b.values[i]? else none

/-- `*slot = value` for the slot of `getOver`. -/
def setOver (i : ℕ) (value : V) : SplitValues V :=
  s.map fun b => { b with
    values := b.values.set i value
    fits := b.fits_set i value }

/-- Values appended one after the other from position `i` on. -/
def appendAll (t : SharedKeys) : ℕ → List V → SplitValues V → Except V (SplitValues V)
  | _, [], s => .ok s
  | i, v :: vs, s => do
    let b ← s.appendOver id t i v
    appendAll t (i + 1) vs (some b)

end SplitValues

namespace Receiver

variable (r : Receiver V)

def splitPeek : Option (SplitValues V) :=
  if r.published then none else if r.unguarded ∨ r.borrow < 0 then none else some r.split

def splitPeekMut : Option (SplitValues V) :=
  if r.published then none else if r.unguarded ∨ r.borrow ≠ 0 then none else some r.split

/-- The answer and the cursor after it; `droppable` is the verdict on the value set there. -/
def splitStoreReady (i : ℕ) (cursor : Option ℕ) (droppable : Bool) : Option Bool × Option ℕ :=
  if r.cBody ∨ r.freeThreading then (none, cursor)
  else
    match r.keys, r.splitPeek with
    | some (id, t), some split =>
      let at_ := cursor.getD split.len
      if (split.getOver id i).isSome then (some droppable, some at_)
      else if i = at_ ∧ split.canAppendAt id t i then (some true, some (at_ + 1))
      else (none, some at_)
    | _, _ => (none, cursor)

/-- The value handed back comes with whether the old one was refused. -/
def splitStoreAt (i : ℕ) (value : V) (droppable : Bool) : Except (V × Bool) (Receiver V) :=
  match r.keys, r.splitPeekMut with
  | some (id, t), some split =>
    if (split.getOver id i).isSome then
      if droppable then .ok { r with split := split.setOver i value } else .error (value, true)
    else if r.cBody ∨ r.freeThreading then .error (value, false)
    else
      match split.appendOver id t i value with
      | .ok b => .ok { r with split := some b }
      | .error value => .error (value, false)
  | _, _ => .error (value, false)

/-- A store at a position, and the verdict on the value it replaces. -/
structure Store (V : Type) where
  position : ℕ
  value : V
  droppable : Bool

/-- Whether every store is ready, over one cursor. -/
def allReady : List (Store V) → Option ℕ → Bool
  | [], _ => true
  | s :: stores, cursor =>
    (r.splitStoreReady s.position cursor s.droppable).1 == some true &&
      allReady stores (r.splitStoreReady s.position cursor s.droppable).2

def storeAll : List (Store V) → Receiver V → Except (V × Bool) (Receiver V)
  | [], r => .ok r
  | s :: stores, r => do
    let r ← r.splitStoreAt s.position s.value s.droppable
    storeAll stores r

end Receiver

/-! ### Appends -/

/-- Room for a value at position `i`: none is set and no names adopted, or the block over the names is large enough. -/
def Roomy (s : SplitValues V) (id : TableId) (i : ℕ) : Prop :=
  s.keysId = none ∧ s.values = [] ∨ ∃ b, s = some b ∧ b.keys = some id ∧ i < b.cap

section Appends

variable {s : SplitValues V} {b : SplitBlock V} {id : TableId} {t : SharedKeys} {i k : ℕ} {value : V}

theorem canAppendAt_iff (hlen : s.len ≤ i) (hi : i < t.len) : s.canAppendAt id t i = true ↔ Roomy s id i := by
  unfold SplitValues.canAppendAt
  rw [if_neg (Nat.not_le.mpr hi)]
  cases s with
  | none => exact ⟨fun _ => .inl ⟨rfl, rfl⟩, fun _ => rfl⟩
  | some b =>
    have hlen' : b.values.length ≤ i := hlen
    dsimp only
    by_cases hid : b.keys = some id
    · rw [if_pos hid, decide_eq_true_iff]
      constructor
      · exact fun h => .inr ⟨b, rfl, hid, h.2⟩
      · rintro (⟨hnone, -⟩ | ⟨_, ⟨⟩, -, hcap⟩)
        · exact absurd (hnone.symm.trans hid) (Option.some_ne_none id).symm
        · exact ⟨hlen', hcap⟩
    · rw [if_neg hid, decide_eq_true_iff]
      constructor
      · exact fun h => .inl ⟨Option.isNone_iff_eq_none.mp h.1, List.eq_nil_of_length_eq_zero h.2⟩
      · rintro (⟨hnone, hnil⟩ | ⟨_, ⟨⟩, hid', -⟩)
        · exact ⟨Option.isNone_iff_eq_none.mpr hnone, List.length_eq_zero_iff.mpr hnil⟩
        · exact absurd hid' hid

theorem le_cap_push {want : ℕ} (h : ∀ b, s = some b → want ≤ b.cap) :
    want ≤ (SplitValues.push s id want value).cap := by
  cases s with
  | none =>
    show want ≤ max (max (max want (0 + 1)) (0 * 2)) 2
    omega
  | some b =>
    have hcap := h b rfl
    show want ≤ if b.values.length = b.cap then max (max (max want (b.values.length + 1)) (b.cap * 2)) 2 else b.cap
    split_ifs <;> omega

theorem le_cap_firstPush (want : ℕ) : want ≤ (SplitValues.firstPush s id want value).cap := by
  apply le_cap_push
  intro b hb
  exact of_decide_eq_true (Option.filter_eq_some_iff.mp hb).2

/-- The first value finds room for every name; a later one takes the next slot. -/
theorem cap_appendOver (h : s.appendOver id t i value = .ok b) :
    s.keysId = none ∧ s.values = [] ∧ t.len ≤ b.cap ∨
      ∃ b₀, s = some b₀ ∧ b₀.keys = some id ∧ b₀.values.length < b₀.cap ∧ b.cap = b₀.cap := by
  unfold SplitValues.appendOver at h
  cases s with
  | none =>
    dsimp only at h
    split_ifs at h
    cases h
    exact .inl ⟨rfl, rfl, le_cap_firstPush _⟩
  | some b₀ =>
    dsimp only at h
    split_ifs at h with hsame hused hc
    · cases h
      exact .inr ⟨b₀, rfl, hsame.1, hsame.2.2, rfl⟩
    · cases h
      rw [not_or, not_not] at hused
      exact .inl ⟨Option.not_isSome_iff_eq_none.mp hused.1, List.eq_nil_of_length_eq_zero hused.2, le_cap_firstPush _⟩

/-- Where an append succeeded there was room, and later positions have room after it as before. -/
theorem roomy_appendOver (h : s.appendOver id t s.len value = .ok b) :
    Roomy s id s.len ∧ ∀ k, s.len < k → k < t.len → (Roomy (some b) id k ↔ Roomy s id k) := by
  obtain ⟨-, -, hkeys, hvalues⟩ := appendOver_ok h
  have hsome (k) : Roomy (some b) id k ↔ k < b.cap := by
    constructor
    · rintro (⟨hnone, -⟩ | ⟨_, hb, -, hcap⟩)
      · exact absurd (hnone.symm.trans hkeys) (Option.some_ne_none id).symm
      · exact Option.some.inj hb ▸ hcap
    · exact fun hcap => .inr ⟨b, rfl, hkeys, hcap⟩
  obtain ⟨hnone, hnil, hcap⟩ | ⟨b₀, rfl, hid, hroom, hcap⟩ := cap_appendOver h
  · constructor
    · exact .inl ⟨hnone, hnil⟩
    · intro k _ hk
      exact (hsome k).trans ⟨fun _ => .inl ⟨hnone, hnil⟩, fun _ => lt_of_lt_of_le hk hcap⟩
  · constructor
    · exact .inr ⟨b₀, rfl, hid, hroom⟩
    · intro k _ _
      rw [hsome, hcap]
      constructor
      · exact fun h => .inr ⟨b₀, rfl, hid, h⟩
      · rintro (⟨hnone, -⟩ | ⟨_, ⟨⟩, -, h⟩)
        · exact absurd (hnone.symm.trans hid) (Option.some_ne_none id).symm
        · exact h

theorem len_appendOver (h : s.appendOver id t i value = .ok b) : SplitValues.len (some b) = s.len + 1 := by
  obtain ⟨-, -, -, hvalues⟩ := appendOver_ok h
  unfold SplitValues.len
  rw [show SplitValues.values (some b) = b.values from rfl, hvalues, List.length_append, List.length_singleton]

/-- Room at a position is room at the ones before it. -/
theorem Roomy.of_le (h : Roomy s id k) (hi : i ≤ k) : Roomy s id i := by
  obtain h | ⟨b, rfl, hid, hcap⟩ := h
  · exact .inl h
  · exact .inr ⟨b, rfl, hid, by omega⟩

theorem appendOver_of_roomy (h : Roomy s id s.len) (hlen : s.len < t.len) (value : V) :
    ∃ b, s.appendOver id t s.len value = .ok b :=
  canAppendAt_append ((canAppendAt_iff le_rfl hlen).mpr h) value

theorem appendAll_cons {s' : SplitValues V} {v : V} {vs : List V} :
    SplitValues.appendAll id t i (v :: vs) s = .ok s' ↔
      ∃ b, s.appendOver id t i v = .ok b ∧ SplitValues.appendAll id t (i + 1) vs (some b) = .ok s' := by
  rw [SplitValues.appendAll]
  cases s.appendOver id t i v with
  | error v' =>
    constructor
    · rintro ⟨⟩
    · rintro ⟨_, ⟨⟩, _⟩
  | ok b =>
    constructor
    · exact fun h => ⟨b, rfl, h⟩
    · rintro ⟨_, ⟨⟩, h⟩
      exact h

/-- `canAppendAt` of a name's position tells whether the appends up to it succeed. -/
theorem roomy_iff_appendAll (v : V) (vs : List V) (hlen : s.len + vs.length < t.len) :
    Roomy s id (s.len + vs.length) ↔ ∃ s', SplitValues.appendAll id t s.len (v :: vs) s = .ok s' := by
  induction vs generalizing s v with
  | nil =>
    constructor
    · intro h
      obtain ⟨b, hb⟩ := appendOver_of_roomy h hlen v
      exact ⟨some b, appendAll_cons.mpr ⟨b, hb, rfl⟩⟩
    · rintro ⟨s', h⟩
      obtain ⟨b, hb, -⟩ := appendAll_cons.mp h
      exact (roomy_appendOver hb).1
  | cons w vs ih =>
    rw [List.length_cons] at hlen ⊢
    have hstep {b : SplitBlock V} (hb : s.appendOver id t s.len v = .ok b) :
        Roomy s id (s.len + (vs.length + 1)) ↔ ∃ s', SplitValues.appendAll id t (s.len + 1) (w :: vs) (some b) = .ok s' := by
      have hlen' := len_appendOver hb
      have hnext := ih (s := some b) w (by omega)
      rw [hlen', show s.len + 1 + vs.length = s.len + (vs.length + 1) by omega] at hnext
      rw [← (roomy_appendOver hb).2 _ (by omega) hlen, hnext]
    constructor
    · intro h
      obtain ⟨b, hb⟩ := appendOver_of_roomy (t := t) (h.of_le (Nat.le_add_right _ _)) (by omega) v
      obtain ⟨s', hs'⟩ := (hstep hb).mp h
      exact ⟨s', appendAll_cons.mpr ⟨b, hb, hs'⟩⟩
    · rintro ⟨s', h⟩
      obtain ⟨b, hb, hrest⟩ := appendAll_cons.mp h
      exact (hstep hb).mpr ⟨s', hrest⟩

end Appends

/-! ### Stores -/

section Stores

variable {s₀ s : SplitValues V} {b : SplitBlock V} {id : TableId} {t : SharedKeys} {r : Receiver V} {i next : ℕ}

theorem getOver_isSome : (s.getOver id i).isSome ↔ s.keysId = some id ∧ i < s.len := by
  unfold SplitValues.getOver
  cases s with
  | none => exact ⟨fun h => absurd h Bool.false_ne_true, fun h => absurd h.1 (Option.some_ne_none id).symm⟩
  | some b =>
    show (if b.keys = some id then b.values[i]? else none).isSome ↔ b.keys = some id ∧ i < b.values.length
    split_ifs with hid
    · rw [isSome_getElem?]
      exact ⟨fun h => ⟨hid, h⟩, fun h => h.2⟩
    · exact ⟨fun h => absurd h Bool.false_ne_true, fun h => absurd h.1 hid⟩

theorem setOver_same (value : V) : (s.setOver i value).keysId = s.keysId ∧ (s.setOver i value).len = s.len ∧
    ∀ k, Roomy (s.setOver i value) id k ↔ Roomy s id k := by
  cases s with
  | none => exact ⟨rfl, rfl, fun _ => Iff.rfl⟩
  | some b =>
    have hlen : (b.values.set i value).length = b.values.length := List.length_set
    refine ⟨rfl, hlen, fun k => ?_⟩
    constructor
    · rintro (⟨hnone, hnil⟩ | ⟨_, ⟨⟩, hid, hcap⟩)
      · refine .inl ⟨hnone, List.length_eq_zero_iff.mp ?_⟩
        exact hlen.symm.trans (List.length_eq_zero_iff.mpr hnil)
      · exact .inr ⟨b, rfl, hid, hcap⟩
    · rintro (⟨hnone, hnil⟩ | ⟨_, ⟨⟩, hid, hcap⟩)
      · refine .inl ⟨hnone, List.length_eq_zero_iff.mp ?_⟩
        exact hlen.trans (List.length_eq_zero_iff.mpr hnil)
      · exact .inr ⟨_, rfl, hid, hcap⟩

/-- The values `s` after some of the stores that were found ready over `s₀`, the next append due at `next`. -/
structure Tracks (s₀ s : SplitValues V) (id : TableId) (t : SharedKeys) (next : ℕ) : Prop where
  len : s.len = next
  len_le : s₀.len ≤ next
  kept : s₀.keysId = some id → s.keysId = some id
  room : ∀ k, next ≤ k → k < t.len → (Roomy s id k ↔ Roomy s₀ id k)

theorem tracks_self : Tracks s s id t s.len := ⟨rfl, le_rfl, fun h => h, fun _ _ _ => Iff.rfl⟩

theorem Tracks.setOver (h : Tracks s₀ s id t next) (i : ℕ) (value : V) :
    Tracks s₀ (s.setOver i value) id t next := by
  obtain ⟨hkeys, hlen, hroom⟩ : (s.setOver i value).keysId = s.keysId ∧ (s.setOver i value).len = s.len ∧
      ∀ k, Roomy (s.setOver i value) id k ↔ Roomy s id k := setOver_same value
  constructor
  · exact hlen.trans h.len
  · exact h.len_le
  · exact fun hid => hkeys.trans (h.kept hid)
  · exact fun k hk hkt => (hroom k).trans (h.room k hk hkt)

/-- The append that was found ready succeeds. -/
theorem Tracks.append (h : Tracks s₀ s id t next) (hready : s₀.canAppendAt id t next = true) (value : V) :
    ∃ b, s.appendOver id t next value = .ok b ∧ Tracks s₀ (some b) id t (next + 1) := by
  obtain ⟨rfl, hle, -, hroom⟩ := h
  have hlt : s.len < t.len := by
    by_contra hge
    unfold SplitValues.canAppendAt at hready
    rw [if_pos (Nat.not_lt.mp hge)] at hready
    exact Bool.false_ne_true hready
  have hroomy := (hroom s.len le_rfl hlt).mpr ((canAppendAt_iff hle hlt).mp hready)
  obtain ⟨b, hb⟩ := appendOver_of_roomy (t := t) hroomy hlt value
  refine ⟨b, hb, ?_⟩
  constructor
  · exact len_appendOver hb
  · omega
  · exact fun _ => (appendOver_ok hb).2.2.1
  · exact fun k hk hkt => ((roomy_appendOver hb).2 k hk hkt).trans (hroom k (by omega) hkt)

namespace Receiver

theorem ready_cases {cursor cursor' : Option ℕ} {droppable : Bool}
    (h : r.splitStoreReady i cursor droppable = (some true, cursor')) :
    (r.cBody = false ∧ r.freeThreading = false ∧ r.published = false ∧ r.unguarded = false) ∧
      ∃ id t, r.keys = some (id, t) ∧
        ((r.split.getOver id i).isSome ∧ droppable = true ∧ cursor' = some (cursor.getD r.split.len) ∨
          i = cursor.getD r.split.len ∧ r.split.canAppendAt id t i = true ∧ cursor' = some (i + 1)) := by
  unfold splitStoreReady at h
  by_cases hshared : r.cBody ∨ r.freeThreading
  · rw [if_pos hshared] at h
    cases h
  rw [if_neg hshared] at h
  split at h
  · rename_i id t split hkeys hpeek
    unfold splitPeek at hpeek
    split_ifs at hpeek with hpublished hguard
    cases hpeek
    rw [not_or, Bool.not_eq_true, Bool.not_eq_true] at hshared
    rw [Bool.not_eq_true] at hpublished
    rw [not_or, Bool.not_eq_true] at hguard
    refine ⟨⟨hshared.1, hshared.2, hpublished, hguard.1⟩, id, t, hkeys, ?_⟩
    dsimp only at h
    split_ifs at h with hset hnext
    · cases h
      exact .inl ⟨hset, rfl, rfl⟩
    · cases h
      exact .inr ⟨hnext.1, hnext.2, congrArg (fun n => some (n + 1)) hnext.1.symm⟩
    · cases h
  · cases h

/-- One store goes as it was found to be ready. -/
theorem splitStoreAt_of_ready {cursor cursor' : Option ℕ} {droppable : Bool} (hborrow : r.borrow = 0)
    (h : r.splitStoreReady i cursor droppable = (some true, cursor')) (value : V)
    (htracks : ∀ id t, r.keys = some (id, t) → Tracks r.split s id t (cursor.getD r.split.len)) :
    ∃ s', splitStoreAt { r with split := s } i value droppable = .ok { r with split := s' } ∧
      ∀ id t, r.keys = some (id, t) → Tracks r.split s' id t (cursor'.getD r.split.len) := by
  obtain ⟨⟨hbody, hfree, hpublished, hguard⟩, id, t, hkeys, hcase⟩ := ready_cases h
  have hpeek : splitPeekMut { r with split := s } = some s := by
    simp [splitPeekMut, hpublished, hguard, hborrow]
  have htrack := htracks id t hkeys
  have honly {s' : SplitValues V} {next : ℕ} (hs' : Tracks r.split s' id t next) :
      ∀ id' t', some (id, t) = some (id', t') → Tracks r.split s' id' t' next := by
    rintro _ _ ⟨⟩
    exact hs'
  unfold splitStoreAt
  rw [hpeek]
  dsimp only
  rw [hkeys]
  dsimp only
  obtain ⟨hset, rfl, rfl⟩ | ⟨hi, hcan, rfl⟩ := hcase
  · obtain ⟨hid, hlt⟩ := getOver_isSome.mp hset
    have hset' : (s.getOver id i).isSome := by
      have := htrack.len
      have := htrack.len_le
      exact getOver_isSome.mpr ⟨htrack.kept hid, by omega⟩
    rw [if_pos hset', if_pos rfl]
    exact ⟨_, rfl, honly (htrack.setOver i value)⟩
  · have hunset : ¬ (s.getOver id i).isSome := by
      rw [getOver_isSome, htrack.len, hi]
      exact fun h => lt_irrefl _ h.2
    rw [if_neg hunset, hbody, hfree]
    rw [← hi] at htrack
    obtain ⟨b, hb, hnext⟩ := htrack.append hcan value
    rw [hb]
    exact ⟨some b, rfl, honly hnext⟩

theorem storeAll_of_allReady {stores : List (Store V)} {cursor : Option ℕ} (hborrow : r.borrow = 0)
    (h : r.allReady stores cursor = true)
    (htracks : ∀ id t, r.keys = some (id, t) → Tracks r.split s id t (cursor.getD r.split.len)) :
    ∃ s', storeAll stores { r with split := s } = .ok { r with split := s' } := by
  induction stores generalizing s cursor with
  | nil => exact ⟨s, rfl⟩
  | cons store stores ih =>
    rw [allReady, Bool.and_eq_true, beq_iff_eq] at h
    obtain ⟨hready, hrest⟩ := h
    obtain ⟨s', hs', htracks'⟩ := splitStoreAt_of_ready hborrow (Prod.ext hready rfl) store.value htracks
    obtain ⟨s'', hs''⟩ := ih hrest htracks'
    refine ⟨s'', ?_⟩
    rw [storeAll, hs']
    exact hs''

end Receiver

end Stores

/-- Stores all found ready over one cursor all succeed, where no view of the values is live; and the appends up to the
position of a name succeed exactly when `canAppendAt` says so. -/
theorem stores_as_predicted :
    (∀ (r : Receiver V) (stores : List (Receiver.Store V)), r.borrow = 0 → r.allReady stores none = true →
      ∃ s, Receiver.storeAll stores r = .ok { r with split := s }) ∧
    ∀ (s : SplitValues V) (id : TableId) (t : SharedKeys) (v : V) (vs : List V), s.len + vs.length < t.len →
      (s.canAppendAt id t (s.len + vs.length) = true ↔
        ∃ s', SplitValues.appendAll id t s.len (v :: vs) s = .ok s') := by
  constructor
  · intro r stores hborrow hready
    exact Receiver.storeAll_of_allReady hborrow hready fun _ _ _ => tracks_self
  · intro s id t v vs hlen
    rw [canAppendAt_iff (Nat.le_add_right _ _) hlen]
    exact roomy_iff_appendAll v vs hlen

/-- A table of the names `a` and, after it, `b`. -/
def someNames (n : ℕ) : SharedKeys :=
  ⟨[((⟨[97], false⟩ : DictMap.SharedStr), 0), (⟨[98], false⟩, 1)].take n, filterBit 0 ||| filterBit 1, [],
    (List.length_take_le' _ _).trans (by decide)⟩

/-- An instance without values of a class with two names. -/
def unfilled (borrow : ℤ) : Receiver ℕ :=
  { cBody := false, freeThreading := false, unguarded := false, published := false, borrow
    keys := some (0, someNames 2)
    split := none }

theorem unfilled_stores_as_predicted :
    (∃ s, Receiver.storeAll [⟨0, 5, true⟩, ⟨1, 6, true⟩] (unfilled 0) = .ok { unfilled 0 with split := s }) ∧
      (SplitValues.canAppendAt (V := ℕ) none 0 (someNames 2) 1 = true ↔
        ∃ s', SplitValues.appendAll 0 (someNames 2) 0 [5, 6] none = .ok s') :=
  ⟨stores_as_predicted.1 (unfilled 0) _ rfl (by decide), stores_as_predicted.2 none 0 (someNames 2) 5 [6] (by decide)⟩

/-- With a view of the values live, a store found ready fails; and a second value goes over a table of one name. -/
theorem stores_not_predicted :
    ((unfilled 1).allReady [⟨0, 5, true⟩] none = true ∧
      (Receiver.storeAll [⟨0, 5, true⟩] (unfilled 1)).toBool = false) ∧
      SplitValues.canAppendAt (V := ℕ) none 0 (someNames 1) 1 = false ∧
      (SplitValues.appendAll 0 (someNames 1) 0 [5, 6] none).toBool = true := by
  decide

end WeavePy.InstDict
