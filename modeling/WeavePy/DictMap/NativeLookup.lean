import WeavePy.DictMap.Runs

/-!
The three lookups of a table agree: the hash-first probe `find_hashed`, the native probe, which
gives up at a stored key of another kind, and the scan of a small table that hashes nothing.
-/

namespace WeavePy.DictMap

/-- What the dict keys need of a metaclass. -/
structure Metaclass where
  isType : Bool
  hashUserDefined : Bool
  eqUserDefined : Bool
  deriving DecidableEq, Repr

/-- A class: where it is allocated, and what decides how it hashes. -/
structure TypeObject where
  ptr : UInt64
  cExtPtr : UInt64
  metaclass : Option Metaclass
  deriving DecidableEq, Repr

/-- A key outside the string and machine-int kinds: a class, or an object of any other kind. -/
inductive ClassOr (Ω : Type) where
  | type (t : TypeObject)
  | rest (o : Ω)
  deriving DecidableEq, Repr

def metaHashIsIdentity (m : Metaclass) : Bool := m.isType || !m.hashUserDefined && !m.eqUserDefined

def typeHashIsIdentity (t : TypeObject) : Bool := t.cExtPtr == 0 && t.metaclass.all metaHashIsIdentity

/-- `u.rotate_right(4) as i64`, with `-1` remapped to `-2`. -/
def pointerHash (u : UInt64) : Int64 :=
  let v := ((u >>> 4) ||| (u <<< 60)).toInt64
  if v = -1 then -2 else v

/-- The interpreter's hashes and equality; `richEq` decides what identity does not. -/
class TypeOps (Ω : Type) where
  pyStrHash : List UInt8 → Int64
  pyWstrHash : List UInt32 → Int64
  metaHash : TypeObject → Int64
  pyHashValue : Ω → Int64
  richEq : Object (ClassOr Ω) → Object (ClassOr Ω) → Bool

instance {Ω : Type} [TypeOps Ω] : KeyOps (ClassOr Ω) where
  pyStrHash := TypeOps.pyStrHash Ω
  pyWstrHash := TypeOps.pyWstrHash Ω
  pyHashValue
    | .type t => if typeHashIsIdentity t then pointerHash t.ptr else TypeOps.metaHash Ω t
    | .rest o => TypeOps.pyHashValue o
  generalEq
    | .other (.type a), .other (.type b) =>
      a.ptr == b.ptr || TypeOps.richEq (Ω := Ω) (.other (.type a)) (.other (.type b))
    | a, b => TypeOps.richEq a b

/-- The native comparison `TypeEq`: a class equals itself. -/
def typeNativeEq {Ω : Type} (t : TypeObject) : Object (ClassOr Ω) → Option Bool
  | .other (.type u) => if t.ptr = u.ptr then some true else none
  | _ => none

/-- The borrowed probe `StrKey`. -/
structure StrKey (Ω : Type) where
  bytes : List UInt8

instance {Ω : Type} [KeyOps Ω] : Probe (StrKey Ω) Ω where
  probeHash q := KeyOps.pyStrHash Ω q.bytes
  probeEq q
    | .str s => s.bytes == q.bytes
    | .wstr _ => false
    | k => dictKeyEq (.str ⟨q.bytes, false⟩) k
  probeEqUnhashed q
    | .str s => some (s.bytes == q.bytes)
    | .wstr _ => some false
    | _ => none

namespace Table

variable {Ω V : Type} [TypeOps Ω]

def findTypeNative (t : Table (ClassOr Ω) V) (c : TypeObject) :
    Outcome (Option (Except ℕ ℕ)) :=
  t.findNative (pointerHash c.ptr) (typeNativeEq c)

end Table

/-- The outcome of the general lookup that a native outcome settles, if it settles one. -/
def Settles {β : Type} (native : Outcome (Option β)) (general : Outcome β) : Prop :=
  match native with
  | .ok (some r) => general = .ok r
  | .ok none => True
  | .error e => general = .error e

section Lockstep

variable {β : Type} {slots : List UInt64}

/-- A probe that visits as another does, and may give up, settles the other's answer. -/
theorem probe_settles {visit : ℕ → UInt64 → Outcome (Option (Option β))}
    {visit' : ℕ → UInt64 → Outcome (Option β)}
    (hskip : ∀ pos s, visit pos s = .ok none → visit' pos s = .ok none)
    (hstop : ∀ pos s r, visit pos s = .ok (some (some r)) → visit' pos s = .ok (some r))
    (hfault : ∀ pos s e, visit pos s = .error e → visit' pos s = .error e) (fuel pos : ℕ) :
    Settles (probe slots visit fuel pos) (probe slots visit' fuel pos) := by
  induction fuel generalizing pos with
  | zero => rfl
  | succ fuel ih =>
    rw [probe, probe]
    cases hs : getUnchecked slots pos with
    | error e => rfl
    | ok s =>
      simp only [ok_bind]
      cases hv : visit pos s with
      | error e =>
        rw [hfault pos s e hv]
        rfl
      | ok r =>
        cases r with
        | none =>
          rw [hskip pos s hv]
          exact ih (nextPos slots pos)
        | some r =>
          cases r with
          | none => trivial
          | some r =>
            rw [hstop pos s r hv]
            rfl

variable {Ω V Q : Type} [Probe Q Ω] {t : Table Ω V}

theorem probeEntries_settles {look : ℕ → Bucket Ω V → Option (Option β)}
    {look' : ℕ → Bucket Ω V → Option β} (hash : Int64) (miss : ℕ → β)
    (hskip : ∀ ix b, look ix b = none → look' ix b = none)
    (hstop : ∀ ix b r, look ix b = some (some r) → look' ix b = some r) :
    Settles (t.probeEntries hash (fun pos => some (miss pos)) look)
      (t.probeEntries hash miss look') := by
  have hentry (s : UInt64) (f : Bucket Ω V → Outcome (Option (Option β)))
      (hf : f = fun b => .ok (look (lowHalf s - 1) b)) (r : Outcome (Option (Option β)))
      (hr : (getUnchecked t.entries (lowHalf s - 1) >>= f) = r) :
      (∃ e, r = .error e ∧ getUnchecked t.entries (lowHalf s - 1) = .error e) ∨
        ∃ b, getUnchecked t.entries (lowHalf s - 1) = .ok b ∧ r = .ok (look (lowHalf s - 1) b) := by
    subst hf hr
    cases getUnchecked t.entries (lowHalf s - 1) with
    | error e => exact .inl ⟨e, rfl, rfl⟩
    | ok b => exact .inr ⟨b, rfl, rfl⟩
  apply probe_settles
  · intro pos s hv
    split_ifs at hv ⊢ with h0 hx
    · cases hv
    · obtain ⟨e, he, -⟩ | ⟨b, hb, hl⟩ := hentry s _ rfl _ hv
      · cases he
      · simp only [hb, ok_bind, hskip _ _ (Except.ok.inj hl).symm]
        rfl
    · rfl
  · intro pos s r hv
    split_ifs at hv ⊢ with h0 hx
    · rw [Option.some.inj (Option.some.inj (Except.ok.inj hv))]
      rfl
    · obtain ⟨e, he, -⟩ | ⟨b, hb, hl⟩ := hentry s _ rfl _ hv
      · cases he
      · simp only [hb, ok_bind, hstop _ _ r (Except.ok.inj hl).symm]
        rfl
    · cases hv
  · intro pos s e hv
    split_ifs at hv ⊢ with h0 hx
    · cases hv
    · obtain ⟨e', he, hg⟩ | ⟨b, hb, hl⟩ := hentry s _ rfl _ hv
      · rw [Except.error.inj he]
        simp only [hg, error_bind]
      · cases hl
    · cases hv

/-- A native comparison that agrees with the key's equality wherever it answers. -/
def Agrees (native : Object Ω → Option Bool) (key : Q) : Prop :=
  ∀ k v, native k = some v → v = Probe.probeEq key k

theorem scanNative_settles {native : Object Ω → Option Bool} {key : Q} (h : Agrees native key)
    (hash : Int64) (l : List (Bucket Ω V)) (i : ℕ) (r : Except ℕ ℕ)
    (hr : Table.scanNative hash native l i = some r) :
    r = match l.findIdx? fun b => b.hash == hash && Probe.probeEq key b.key with
      | some j => .ok (i + j)
      | none => .error 0 := by
  induction l generalizing i with
  | nil => exact (Option.some.inj hr).symm
  | cons b l ih =>
    rw [Table.scanNative] at hr
    rw [List.findIdx?_cons]
    have hnext : Table.scanNative hash native l (i + 1) = some r →
        (b.hash == hash && Probe.probeEq key b.key) = false →
        r = match (if (b.hash == hash && Probe.probeEq key b.key) = true then some 0
            else (l.findIdx? fun b => b.hash == hash && Probe.probeEq key b.key).map (· + 1)) with
          | some j => .ok (i + j)
          | none => .error 0 := by
      intro hl hb
      rw [ih (i + 1) hl, hb]
      cases l.findIdx? fun b => b.hash == hash && Probe.probeEq key b.key with
      | none => rfl
      | some j => simp [Nat.add_comm 1, Nat.add_assoc]
    split_ifs at hr with hh
    · cases hn : native b.key with
      | none => simp [hn] at hr
      | some v =>
        have hv := h b.key v hn
        cases v with
        | true =>
          rw [hn] at hr
          simp only [Option.some.injEq] at hr
          simp [hh, ← hv, ← hr]
        | false =>
          rw [hn] at hr
          exact hnext hr (by simp [← hv])
    · exact hnext hr (by simp [hh])

/-- A native lookup that decides gives the position, or the slot, that the general one gives. -/
theorem findNative_settles {native : Object Ω → Option Bool} {key : Q} (h : Agrees native key)
    (hash : Int64) : Settles (t.findNative hash native) (t.findHashed hash key) := by
  rw [Table.findNative, Table.findHashed]
  split_ifs with hslots
  · cases hs : Table.scanNative hash native t.entries 0 with
    | none => trivial
    | some r =>
      have hr := scanNative_settles h hash t.entries 0 r hs
      change _ = Except.ok r
      rw [hr]
      cases t.entries.findIdx? fun b => b.hash == hash && Probe.probeEq key b.key with
      | none => rfl
      | some j => simp; rfl
  · apply probeEntries_settles
    · intro ix b hl
      by_cases hh : b.hash = hash
      · cases hn : native b.key with
        | none => simp [hh, hn] at hl
        | some v =>
          cases v with
          | true => simp [hh, hn] at hl
          | false => simp [← h b.key false hn]
      · simp [hh]
    · intro ix b r hl
      by_cases hh : b.hash = hash
      · cases hn : native b.key with
        | none => simp [hh, hn] at hl
        | some v =>
          cases v with
          | true =>
            simp only [hh, hn, if_true, Option.some.injEq] at hl
            simp [hh, ← h b.key true hn, hl]
          | false => simp [hh, hn] at hl
      · simp [hh] at hl

end Lockstep

section Unhashed

variable {Ω V Q : Type} [KeyOps Ω] [Probe Q Ω] {t : Table Ω V} {key : Q}

/-- What the unhashed comparison of a probe promises: it is the probe's equality, and a key it
equals has the probe's hash. -/
structure UnhashedOk (key : Q) : Prop where
  eq : ∀ k v, Probe.probeEqUnhashed key k = some v → v = Probe.probeEq key k
  hash : ∀ k, Probe.probeEqUnhashed key k = some true → dictKeyHash k = Probe.probeHash key

/-- A finished scan found nothing equal, or the first equal key after unequal ones. -/
theorem UnhashedOk.scan (h : UnhashedOk key) (l : List (Bucket Ω V)) (i : ℕ) (ans : Option ℕ)
    (hs : Table.scanUnhashed key l i = some ans) :
    (ans = none ∧ ∀ b ∈ l, Probe.probeEq key b.key = false) ∨
      ∃ j b, ans = some (i + j) ∧ l[j]? = some b ∧ Probe.probeEqUnhashed key b.key = some true ∧
        ∀ m < j, ∀ c, l[m]? = some c → Probe.probeEq key c.key = false := by
  induction l generalizing i with
  | nil => exact .inl ⟨(Option.some.inj hs).symm, by simp⟩
  | cons b l ih =>
    rw [Table.scanUnhashed] at hs
    cases hu : Probe.probeEqUnhashed key b.key with
    | none => simp [hu] at hs
    | some v =>
      have hv := h.eq b.key v hu
      cases v with
      | true =>
        rw [hu] at hs
        exact .inr ⟨0, b, (Option.some.inj hs).symm, rfl, hu, by simp⟩
      | false =>
        rw [hu] at hs
        rcases ih (i + 1) hs with ⟨rfl, hl⟩ | ⟨j, c, rfl, hc, hcu, hl⟩
        · exact .inl ⟨rfl, by simpa [← hv] using hl⟩
        · refine .inr ⟨j + 1, c, by simp [Nat.add_assoc, Nat.add_comm 1], by simpa using hc, hcu, ?_⟩
          intro m hm d hd
          cases m with
          | zero =>
            obtain rfl : b = d := by simpa using hd
            exact hv.symm
          | succ m => exact hl m (by omega) d (by simpa using hd)

/-- In a table without slots the scan answers as the hashed lookup does. -/
theorem UnhashedOk.findHashed_slotless (h : UnhashedOk key) (wf : t.WellFormed)
    (hslots : t.slots = []) {ans : Option ℕ}
    (hs : Table.scanUnhashed key t.entries 0 = some ans) :
    ∃ r, t.findHashed (Probe.probeHash key) key = .ok r ∧ ans = r.toOption := by
  rw [Table.findHashed, if_pos hslots]
  rcases h.scan t.entries 0 ans hs with ⟨rfl, hl⟩ | ⟨j, b, rfl, hb, hbu, hl⟩
  · have hnone : (t.entries.findIdx? fun b =>
        b.hash == Probe.probeHash key && Probe.probeEq key b.key) = none :=
      List.findIdx?_eq_none_iff.mpr fun b hb => by simp [hl b hb]
    rw [hnone]
    exact ⟨_, rfl, rfl⟩
  · obtain ⟨hj, rfl⟩ := List.getElem?_eq_some_iff.mp hb
    have hsome : (t.entries.findIdx? fun b =>
        b.hash == Probe.probeHash key && Probe.probeEq key b.key) = some j := by
      refine List.findIdx?_eq_some_iff_getElem.mpr ⟨hj, ?_, fun m hm => ?_⟩
      · simp [wf.hashed _ (List.getElem_mem hj), h.hash _ hbu, ← h.eq _ _ hbu]
      · have hml : m < t.entries.length := by omega
        simp [hl m hm _ (List.getElem?_eq_getElem hml)]
    rw [hsome]
    exact ⟨_, rfl, by simp [Except.toOption]⟩

end Unhashed

section WellFormed

variable {Ω V Q : Type} [KeyOps Ω] [Probe Q Ω] {t : Table Ω V}

theorem homeOf_lt_of_size {n shift k : ℕ} (hn : n = 2 ^ k) (hshift : shift = 64 - k) (m : UInt64) :
    homeOf shift m < n := by
  rw [homeOf_eq, hn, hshift, Nat.div_lt_iff_lt_mul (Nat.two_pow_pos _), ← pow_add]
  exact lt_of_lt_of_le m.toNat_lt (Nat.pow_le_pow_right (by norm_num) (by omega))

/-- The entry a used slot of a well-formed table points to. -/
theorem Table.WellFormed.entry (wf : t.WellFormed) (hne : t.slots ≠ []) {q : ℕ}
    (hq : slotAt t.slots q ≠ 0) :
    ∃ b, t.entries[lowHalf (slotAt t.slots q) - 1]? = some b ∧
      getUnchecked t.entries (lowHalf (slotAt t.slots q) - 1) = .ok b ∧
      (slotAt t.slots q).toNat / 2 ^ 32 = (mix b.hash).toNat / 2 ^ 32 := by
  have hlt := Nat.mod_lt q (List.length_pos_iff.mpr hne)
  have hat : t.slots[q % t.slots.length]? = some (slotAt t.slots q) := by
    rw [← slotAt_mod, slotAt_of_lt hlt, List.getElem?_eq_getElem hlt]
  obtain ⟨i, b, hb, hl, hw⟩ := wf.word _ _ hat hq
  have hi : lowHalf (slotAt t.slots q) - 1 = i := by omega
  rw [hi]
  exact ⟨b, hb, by simp [getUnchecked, hb], hw⟩

/-- The general lookup in a well-formed table with slots ends at an entry that matches, or misses
when none does. -/
theorem Table.WellFormed.findHashed (wf : t.WellFormed) (hne : t.slots ≠ []) (hash : Int64)
    (key : Q) :
    ∃ r, t.findHashed hash key = .ok r ∧
      match r with
      | .ok i => ∃ b, t.entries[i]? = some b ∧ b.hash = hash ∧ Probe.probeEq key b.key = true
      | .error _ => ∀ b ∈ t.entries, b.hash = hash → Probe.probeEq key b.key = false := by
  obtain ⟨k, hlen, hshift⟩ := wf.size hne
  have hn : 0 < t.slots.length := List.length_pos_iff.mpr hne
  have hhome := homeOf_lt_of_size hlen hshift (mix hash)
  obtain ⟨e, he, hz⟩ := List.mem_iff_getElem.mp (wf.empty hne)
  rw [← slotAt_of_lt he] at hz
  let look : ℕ → Bucket Ω V → Option (Except ℕ ℕ) := fun ix b =>
    if b.hash == hash && Probe.probeEq key b.key then some (.ok ix) else none
  classical
  let stops : UInt64 → Prop := fun s => s = 0 ∨ (s ^^^ mix hash ≤ IX_MASK ∧
    ∃ b r, t.entries[lowHalf s - 1]? = some b ∧ look (lowHalf s - 1) b = some r)
  obtain ⟨d, hd, hstop, hmin⟩ := exists_first hn (homeOf t.shift (mix hash)) stops (.inl hz)
  rw [Table.findHashed, if_neg hne, Table.probeEntries]
  have hskip : ∀ j < d, (if slotAt t.slots (homeOf t.shift (mix hash) + j) = 0
      then pure (some (Except.error ((homeOf t.shift (mix hash) + j) % t.slots.length)))
      else if slotAt t.slots (homeOf t.shift (mix hash) + j) ^^^ mix hash ≤ IX_MASK then do
        let b ← getUnchecked t.entries
          (lowHalf (slotAt t.slots (homeOf t.shift (mix hash) + j)) - 1)
        pure (look (lowHalf (slotAt t.slots (homeOf t.shift (mix hash) + j)) - 1) b)
      else pure none : Outcome (Option (Except ℕ ℕ))) = .ok none := by
    intro j hj
    have hns := hmin j hj
    have hused : slotAt t.slots (homeOf t.shift (mix hash) + j) ≠ 0 := fun h => hns (.inl h)
    rw [if_neg hused]
    split_ifs with hx
    · obtain ⟨b, hb, hg, -⟩ := wf.entry hne hused
      rw [hg, ok_bind]
      cases hl : look (lowHalf (slotAt t.slots (homeOf t.shift (mix hash) + j)) - 1) b with
      | none => rfl
      | some r => exact absurd (.inr ⟨hx, b, r, hb, hl⟩) hns
    · rfl
  by_cases hused : slotAt t.slots (homeOf t.shift (mix hash) + d) = 0
  · refine ⟨_, probe_ok hlen d _ _ hhome hd hskip (by simp [hused]; rfl), ?_⟩
    refine forall_mem_of_getElem? fun i b hb hbh => ?_
    by_contra hm
    -- The slot of a matching entry lies on the walk, before the empty slot that ended it.
    obtain ⟨p, ⟨s, hp, hl⟩, -⟩ := wf.index hne i b hb
    have hps := List.getElem?_eq_some_iff.mp hp
    have hrun := wf.run i b p s hb hp hl
    rw [hbh] at hrun
    generalize hd' : (p + t.slots.length - homeOf t.shift (mix hash)) % t.slots.length = d' at hrun
    have hat : slotAt t.slots (homeOf t.shift (mix hash) + d') = s := by
      rw [← slotAt_mod, ← hd', Nat.add_mod_mod,
        show homeOf t.shift (mix hash) + (p + t.slots.length - homeOf t.shift (mix hash)) =
          p + t.slots.length by omega, Nat.add_mod_right, slotAt_mod, slotAt_of_lt hps.1, hps.2]
    have hs0 := lowHalf_ne_zero hl
    obtain ⟨i', b', hb', hl', hw⟩ := wf.word p s hp hs0
    obtain rfl : i' = i := by omega
    obtain rfl := Option.some.inj (hb.symm.trans hb')
    have hle : d ≤ d' := by
      by_contra hlt
      refine hmin d' (by omega) (.inr ?_)
      rw [hat, xor_le_ixMask, hw, hbh]
      exact ⟨rfl, b, .ok i', by simpa [hl] using hb, by simp [look, hbh, hm, hl]⟩
    rcases Nat.lt_or_eq_of_le hle with hlt | rfl
    · refine hrun d hlt ?_
      have hmod := Nat.mod_lt (homeOf t.shift (mix hash) + d) hn
      rw [List.getElem?_eq_getElem hmod, ← slotAt_of_lt hmod, slotAt_mod, hused]
    · exact hs0 (hat.symm.trans hused)
  · obtain ⟨hx, b, r, hb, hl⟩ := hstop.resolve_left hused
    obtain ⟨b', hb', hg, -⟩ := wf.entry hne hused
    obtain rfl := Option.some.inj (hb.symm.trans hb')
    refine ⟨r, probe_ok hlen d _ _ hhome hd hskip ?_, ?_⟩
    · simp only [hused, if_false, hx, if_true, hg, ok_bind]
      exact congrArg Except.ok hl
    · simp only [look, Bool.and_eq_true, beq_iff_eq, Option.ite_none_right_eq_some,
        Option.some.injEq] at hl
      obtain ⟨hm, rfl⟩ := hl
      exact ⟨b, hb, hm⟩

/-- With slots too, when key equality is an equivalence. -/
theorem UnhashedOk.findHashed [LawfulKeys Ω] [LawfulProbe Q Ω] {key : Q} (h : UnhashedOk key)
    (wf : t.WellFormed) (hne : t.slots ≠ []) {ans : Option ℕ}
    (hs : Table.scanUnhashed key t.entries 0 = some ans) :
    ∃ r, t.findHashed (Probe.probeHash key) key = .ok r ∧ ans = r.toOption := by
  obtain ⟨r, hr, hfound⟩ := wf.findHashed hne (Probe.probeHash key) key
  refine ⟨r, hr, ?_⟩
  have hk : KeysOk t.entries := ⟨wf.hashed, wf.distinct⟩
  rcases h.scan t.entries 0 ans hs with ⟨rfl, hl⟩ | ⟨j, b, rfl, hb, hbu, -⟩
  · cases r with
    | error pos => rfl
    | ok i =>
      obtain ⟨b, hb, -, he⟩ := hfound
      rw [hl b (List.mem_of_getElem? hb)] at he
      cases he
  · have he : Probe.probeEq key b.key = true := (h.eq _ _ hbu).symm
    cases r with
    | error pos =>
      have hmem := List.mem_of_getElem? hb
      rw [hfound b hmem ((wf.hashed b hmem).trans (h.hash _ hbu))] at he
      cases he
    | ok i =>
      obtain ⟨c, hc, -, hce⟩ := hfound
      have hij : j = i := hk.eq_of_eq hb hc (by rw [← LawfulProbe.eq_congr key _ _ he, hce])
      simp [hij, Except.toOption]

end WellFormed

section Probes

variable {Ω : Type} [KeyOps Ω]

theorem unhashedOk_object (key : Object Ω) : UnhashedOk key := by
  constructor
  · intro k v h
    cases key <;> cases k <;> simp [Probe.probeEqUnhashed, Probe.probeEq, dictKeyEq] at h ⊢
    · exact h.2.symm
    · exact h.2
  · intro k h
    cases key <;> cases k <;> simp [Probe.probeEqUnhashed, Probe.probeHash, dictKeyHash] at h ⊢
    rw [h.2]

theorem unhashedOk_strKey (key : StrKey Ω) : UnhashedOk key := by
  constructor
  · intro k v h
    cases k <;> simp [Probe.probeEqUnhashed, Probe.probeEq] at h ⊢
    · exact h.symm
    · exact h
  · intro k h
    cases k <;> simp [Probe.probeEqUnhashed, Probe.probeHash, dictKeyHash] at h ⊢
    rw [h]

theorem strKey_probeEq (key : StrKey Ω) (k : Object Ω) :
    Probe.probeEq key k = dictKeyEq (.str ⟨key.bytes, false⟩) k := by
  cases k with
  | str s => exact Bool.beq_comm ..
  | wstr _ => rfl
  | int _ => rfl
  | other _ => rfl

instance [LawfulKeys Ω] : LawfulProbe (StrKey Ω) Ω where
  hash_eq := by
    intro q k h
    rw [strKey_probeEq] at h
    exact LawfulKeys.hash_eq (.str ⟨q.bytes, false⟩) k h
  unhashed := fun q k v h => (unhashedOk_strKey q).eq k v h
  eq_congr := by
    intro q a b h
    rw [strKey_probeEq] at h ⊢
    exact Bool.eq_iff_iff.mpr
      ⟨LawfulKeys.equiv.trans (LawfulKeys.equiv.symm h), LawfulKeys.equiv.trans h⟩

end Probes

section Native

variable {Ω V : Type} [TypeOps Ω] {t : Table (ClassOr Ω) V}

theorem agrees_type (c : TypeObject) :
    Agrees (typeNativeEq c) (Object.other (.type c) : Object (ClassOr Ω)) := by
  intro k v h
  cases k with
  | other o =>
    cases o with
    | type u =>
      simp only [typeNativeEq, Option.ite_none_right_eq_some, Option.some.injEq] at h
      simp [Probe.probeEq, dictKeyEq, KeyOps.generalEq, h.1, ← h.2]
    | rest o => cases h
  | str _ => cases h
  | wstr _ => cases h
  | int _ => cases h

theorem dictKeyHash_type {c : TypeObject} (h : typeHashIsIdentity c = true) :
    dictKeyHash (.other (.type c) : Object (ClassOr Ω)) = pointerHash c.ptr := by
  simp [dictKeyHash, KeyOps.pyHashValue, h]

end Native

section Insert

variable {Ω V : Type} [KeyOps Ω] {t : Table Ω V}

theorem agrees_str (s : SharedStr) : Agrees (strNativeEq s) (Object.str s : Object Ω) :=
  strNativeEq_agrees s

theorem agrees_int (i : Int64) : Agrees (intNativeEq i) (Object.int i : Object Ω) :=
  intNativeEq_agrees i

theorem Settles.map {β γ : Type} (f : β → γ) {native : Outcome (Option β)} {general : Outcome β}
    (h : Settles native general) :
    Settles (do return (← native).map f) (general.map f) := by
  cases native with
  | error e =>
    rw [show general = .error e from h]
    rfl
  | ok o =>
    cases o with
    | none => trivial
    | some r =>
      rw [show general = .ok r from h]
      rfl

/-- A native lookup of a key settles the lookup under the key's Python hash. -/
theorem findObjectNative_settles (key : Object Ω) :
    Settles (t.findObjectNative key)
      ((t.findHashed (dictKeyHash key) key).map (dictKeyHash key, ·)) := by
  cases key with
  | str s =>
    rw [Table.findObjectNative, knownHash]
    split_ifs with hk
    · exact (findNative_settles (agrees_str s) _).map _
    · trivial
  | int i =>
    rw [Table.findObjectNative]
    split_ifs with hi
    · rw [dictKeyHash, pyHashLongI64_of_lt hi]
      exact (findNative_settles (agrees_int i) _).map _
    · trivial
  | wstr cps => trivial
  | other o => trivial

theorem findObjectHashing_settles (key : Object Ω) :
    Settles (t.findObjectHashing key)
      ((t.findHashed (dictKeyHash key) key).map (dictKeyHash key, ·)) := by
  cases key with
  | str s =>
    rw [Table.findObjectHashing, Table.findObjectNative, knownHash]
    split_ifs with hk
    · have h : Agrees (strNativeEq { s with hashed := true }) (Object.str s : Object Ω) :=
        strNativeEq_agrees s
      exact (findNative_settles h _).map _
    · trivial
  | int i => exact findObjectNative_settles (.int i)
  | wstr cps => trivial
  | other o => trivial

/-- The native path of an insertion leaves the table that the general one leaves. -/
theorem insertFull_eq (key : Object Ω) (value : V) :
    t.insertFull key value = t.insertHashed (dictKeyHash key) key value := by
  have hs := findObjectHashing_settles (t := t) key
  rw [Table.insertFull]
  cases hf : t.findObjectHashing key with
  | error e =>
    rw [hf] at hs
    rw [Table.insertHashed]
    cases hg : t.findHashed (dictKeyHash key) key with
    | error e' =>
      rw [hg] at hs
      rw [Except.error.inj hs]
      rfl
    | ok r => rw [hg] at hs; cases hs
  | ok o =>
    cases o with
    | none => rfl
    | some found =>
      rw [hf] at hs
      rw [Table.insertHashed]
      cases hg : t.findHashed (dictKeyHash key) key with
      | error e' => rw [hg] at hs; cases hs
      | ok r =>
        rw [hg] at hs
        rw [← Except.ok.inj hs]
        rfl

end Insert

/-- Wherever a native lookup, or the scan that hashes nothing, decides, it answers as the lookup
under the key's Python hash does, down to the slot of a miss; so an insertion that goes through
the native lookup leaves the table the general insertion leaves. -/
theorem native_lookup_agrees {Ω V : Type} [TypeOps Ω] {t : Table (ClassOr Ω) V}
    (wf : t.WellFormed) :
    (∀ (hash : Int64) (s : SharedStr) (r : Except ℕ ℕ),
      t.findNative hash (strNativeEq s) = .ok (some r) →
      t.findHashed hash (Object.str s : Object (ClassOr Ω)) = .ok r) ∧
    (∀ (hash : Int64) (i : Int64) (r : Except ℕ ℕ),
      t.findNative hash (intNativeEq i) = .ok (some r) →
      t.findHashed hash (Object.int i : Object (ClassOr Ω)) = .ok r) ∧
    (∀ (hash : Int64) (c : TypeObject) (r : Except ℕ ℕ),
      t.findNative hash (typeNativeEq c) = .ok (some r) →
      t.findHashed hash (Object.other (.type c) : Object (ClassOr Ω)) = .ok r) ∧
    (∀ (key : Object (ClassOr Ω)) (hash : Int64) (r : Except ℕ ℕ),
      t.findObjectNative key = .ok (some (hash, r)) →
      hash = dictKeyHash key ∧ t.findHashed hash key = .ok r) ∧
    (∀ (c : TypeObject) (r : Except ℕ ℕ), typeHashIsIdentity c = true →
      t.findTypeNative c = .ok (some r) →
      t.findHashed (dictKeyHash (.other (.type c) : Object (ClassOr Ω)))
        (Object.other (.type c) : Object (ClassOr Ω)) = .ok r) ∧
    (∀ (key : Object (ClassOr Ω)) (ans : Option ℕ), (t.slots ≠ [] → LawfulKeys (ClassOr Ω)) →
      Table.scanUnhashed key t.entries 0 = some ans →
      ∃ r, t.findHashed (Probe.probeHash key) key = .ok r ∧ ans = r.toOption) ∧
    (∀ (key : StrKey (ClassOr Ω)) (ans : Option ℕ), (t.slots ≠ [] → LawfulKeys (ClassOr Ω)) →
      Table.scanUnhashed key t.entries 0 = some ans →
      ∃ r, t.findHashed (Probe.probeHash key) key = .ok r ∧ ans = r.toOption) ∧
    (∀ (key : Object (ClassOr Ω)) (value : V),
      t.insertFull key value = t.insertHashed (dictKeyHash key) key value) := by
  refine ⟨?_, ?_, ?_, ?_, ?_, ?_, ?_, insertFull_eq⟩
  · intro hash s r h
    have hs := findNative_settles (t := t) (agrees_str s) hash
    rwa [h] at hs
  · intro hash i r h
    have hs := findNative_settles (t := t) (agrees_int i) hash
    rwa [h] at hs
  · intro hash c r h
    have hs := findNative_settles (t := t) (agrees_type c) hash
    rwa [h] at hs
  · intro key hash r h
    have hs := findObjectNative_settles (t := t) key
    rw [h] at hs
    cases hg : t.findHashed (dictKeyHash key) key with
    | error e => rw [hg] at hs; cases hs
    | ok r' =>
      rw [hg] at hs
      obtain ⟨rfl, rfl⟩ := Prod.mk.inj (Except.ok.inj hs)
      exact ⟨rfl, hg⟩
  · intro c r hc h
    have hs := findNative_settles (t := t) (agrees_type c) (pointerHash c.ptr)
    rw [show t.findNative (pointerHash c.ptr) (typeNativeEq c) = _ from h] at hs
    rwa [dictKeyHash_type hc]
  · intro key ans hlaw h
    by_cases hslots : t.slots = []
    · exact (unhashedOk_object key).findHashed_slotless wf hslots h
    · have := hlaw hslots
      exact (unhashedOk_object key).findHashed wf hslots h
  · intro key ans hlaw h
    by_cases hslots : t.slots = []
    · exact (unhashedOk_strKey key).findHashed_slotless wf hslots h
    · have := hlaw hslots
      exact (unhashedOk_strKey key).findHashed wf hslots h

instance : TypeOps Empty where
  pyStrHash b := Int64.ofNat b.length
  pyWstrHash c := Int64.ofNat c.length
  metaHash _ := 0
  pyHashValue := Empty.elim
  richEq _ _ := false

/-- A `str` and an `int` of one hash. -/
def collidingKeys : Table (ClassOr Empty) ℕ :=
  ⟨[⟨2, .str ⟨[97, 98], true⟩, 0⟩, ⟨2, .int 2, 1⟩], [], 64⟩

theorem native_lookup_agrees_colliding :
    collidingKeys.WellFormed ∧
    collidingKeys.findHashed 2 (Object.str ⟨[97, 98], true⟩ : Object (ClassOr Empty)) =
      .ok (.ok 0) ∧
    collidingKeys.findObjectNative (.int 2) = .ok none ∧
    collidingKeys.insertFull (.int 2) 5 = collidingKeys.insertHashed 2 (.int 2) 5 := by
  have wf : collidingKeys.WellFormed := by
    refine ⟨?_, ?_, fun _ => by decide, fun h => absurd rfl h, fun h => absurd rfl h,
      fun h => absurd rfl h, by simp [collidingKeys], by simp [collidingKeys]⟩
    · simp [collidingKeys, dictKeyHash, KeyOps.pyStrHash, TypeOps.pyStrHash]
      decide
    · simp [collidingKeys, dictKeyEq, KeyOps.generalEq, TypeOps.richEq]
  obtain ⟨hstr, -, -, -, -, -, -, hinsert⟩ := native_lookup_agrees wf
  exact ⟨wf, hstr 2 ⟨[97, 98], true⟩ _ rfl, rfl, hinsert (.int 2) 5⟩

end WeavePy.DictMap
