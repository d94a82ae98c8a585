import WeavePy.InstDict.Effects

/-!
Runs over any number of classes and instances: every instance shows the insertion-ordered mapping that
its own stores and deletions make.
-/

namespace WeavePy.InstDict

open DictMap

variable {Ω V : Type} {st st' : State Ω V} {s : SplitValues V} {id : ℕ} {t : SharedKeys} {j k i c : ℕ}
  {x : Instance Ω V} {m : OrderedMap (List UInt8) V}

def text (e : SharedStr × V) : List UInt8 × V := (e.1.bytes, e.2)

/-- The readers of a split layout answer as the mapping `m` would. -/
structure Answers [KeyOps Ω] (st : State Ω V) (s : SplitValues V) (m : OrderedMap (List UInt8) V) : Prop where
  len : s.len = m.length
  iter : ((st.tableOf s).elim [] s.iter).map text = m
  getIndex : ∀ i, ((st.tableOf s).bind (s.getIndex · i)).map text = m[i]?
  position : ∀ name : NameRef, (st.tableOf s).bind (s.position · name) = m.position name.str.bytes
  positionStr : ∀ name : NameRef, (st.tableOf s).bind (s.positionStr · name) = m.position name.str.bytes
  positionHashed : ∀ name : NameRef, (st.tableOf s).bind
    (s.positionHashed · name (KeyOps.pyStrHash Ω name.str.bytes)) = m.position name.str.bytes
  get : ∀ name : NameRef, (st.tableOf s).bind (s.get · name) = m.lookup name.str.bytes

section Readers

theorem iter_eq (values : List V) (n : ℕ) :
    ((values.zipIdx n).filterMap fun v => (t.get v.2).map fun k => (k, v.1)).map text =
      (t.texts.drop n).zip values := by
  induction values generalizing n with
  | nil => simp
  | cons v values ih =>
    have hn := SharedKeys.getElem?_texts (t := t) (i := n)
    rw [List.zipIdx_cons, List.filterMap_cons]
    cases hkey : t.get n with
    | none =>
      rw [hkey, Option.map_none, List.getElem?_eq_none_iff] at hn
      simp only [Option.map_none]
      rw [ih, List.drop_eq_nil_of_le hn, List.drop_eq_nil_of_le (by omega), List.zip_nil_left, List.zip_nil_left]
    | some key =>
      rw [hkey, Option.map_some] at hn
      obtain ⟨hlt, heq⟩ := List.getElem?_eq_some_iff.mp hn
      simp only [Option.map_some, List.map_cons]
      rw [ih, List.drop_eq_getElem_cons hlt, heq, List.zip_cons_cons]
      rfl

theorem map_getIndex (i : ℕ) : (s.getIndex t i).map text = (t.texts.zip s.values)[i]? := by
  rw [List.zip, List.getElem?_zipWith, SharedKeys.getElem?_texts]
  unfold SplitValues.getIndex
  cases s.values[i]? <;> cases t.get i <;> rfl

variable [KeyOps Ω]

theorem position_eq (hp : Proper Ω t) {name : NameRef} :
    s.position t name = some i ↔ i < s.len ∧ t.texts[i]? = some name.str.bytes := by
  have hfind := SharedKeys.find_position (n := s.len) (i := i) hp.distinct
    fun i => show (t.get i).any (keyNames · name) = true ↔ _ from SharedKeys.any_keyNames
  unfold SplitValues.position
  split_ifs with hnext
  · have hk := SharedKeys.any_keyNames.mp hnext
    refine ⟨fun h => by simp at h, fun h => ?_⟩
    obtain ⟨h₁, h₁'⟩ := List.getElem?_eq_some_iff.mp hk
    obtain ⟨h₂, h₂'⟩ := List.getElem?_eq_some_iff.mp h.2
    have := (List.Nodup.getElem_inj_iff hp.distinct).mp (h₁'.trans h₂'.symm)
    omega
  · exact hfind

/-- A reader that finds the names where they are finds the mapping's positions. -/
theorem position_of_finds (h : Laid st) (hid : s.keysId = some id) (ht : st.table id = some t) (hlen : s.len ≤ t.len)
    {found : Option ℕ} {name : List UInt8} (hb : Backed st s)
    (hf : ∀ i, found = some i ↔ i < s.len ∧ t.texts[i]? = some name) :
    found = (content st s).position name := by
  apply Option.ext
  intro i
  rw [hf, OrderedMap.position_eq_some (h.content_nodup hb), getElem?_content_keys hid ht hlen]

theorem Laid.answers (h : Laid st) (hb : Backed st s) : Answers st s (content st s) := by
  cases hid : s.keysId with
  | none =>
    have hv := backed_nil hb hid
    have htable : st.tableOf s = none := by
      unfold State.tableOf
      rw [hid]
      rfl
    rw [content_eq_nil hv]
    refine ⟨?_, ?_, ?_, ?_, ?_, ?_, ?_⟩
    · unfold SplitValues.len
      rw [hv]
      rfl
    all_goals
      rw [htable]
      intros
      rfl
  | some id =>
    obtain ⟨t, ht, hlen⟩ := backed_table hb hid
    have hp := h.proper id t ht
    have htable : st.tableOf s = some t := by
      unfold State.tableOf
      rw [hid]
      exact ht
    have hpos : ∀ name : NameRef, s.position t name = (content st s).position name.str.bytes :=
      fun name => position_of_finds h hid ht hlen hb fun _ => position_eq hp
    refine ⟨(length_content hb).symm, ?_, ?_, ?_, ?_, ?_, ?_⟩ <;> rw [htable]
    · rw [content_eq hid ht]
      exact iter_eq s.values 0
    · intro i
      rw [content_eq hid ht]
      exact map_getIndex i
    · exact hpos
    · exact fun name => position_of_finds h hid ht hlen hb fun _ => positionStr_eq h ht
    · exact fun name => position_of_finds h hid ht hlen hb fun _ => SharedKeys.positionHashed_eq hp hlen rfl
    · intro name
      show s.get t name = _
      unfold SplitValues.get
      rw [hpos]
      cases hn : (content st s).position name.str.bytes with
      | none => rw [OrderedMap.lookup_of_not_mem (OrderedMap.position_eq_none.mp hn), Option.bind_none]
      | some i =>
        rw [OrderedMap.position_eq_some (h.content_nodup hb), getElem?_content_keys hid ht hlen] at hn
        rw [h.lookup hb hid ht hn.2 hn.1, Option.bind_some]

end Readers

inductive Op (V : Type) where
  | newClass
  | newInst
  | dropClass (c : ℕ)
  | dropInst (j : ℕ)
  | store (j c : ℕ) (name : NameRef) (value : V)
  | append (j c i : ℕ) (value : V)
  | reserve (j c cap : ℕ)
  | fill (j c : ℕ) (vs : List V)
  | replaceIndex (j i : ℕ) (value : V)
  | removeStr (j : ℕ) (name : NameRef)
  | take (j : ℕ)
  | reset (j : ℕ)
  | materialize (j : ℕ) (busy : Bool)

inductive Reply (V : Type) where
  | done
  | stored (r : Except V (Option V))
  | appended (r : Except V Unit)
  | filled (r : Bool)
  | replaced (r : Except V V)
  | removed (old : Option V)
  | taken (vs : List V)

/-- An `Err` or `false`. -/
def Reply.failed : Reply V → Bool
  | .stored (.error _) => true
  | .appended (.error _) => true
  | .replaced (.error _) => true
  | .filled r => !r
  | _ => false

namespace State

def step [KeyOps Ω] (st : State Ω V) : Op V → Outcome (State Ω V × Reply V)
  | .newClass => .ok ({ st with classes := st.classes ++ [none] }, .done)
  | .newInst => .ok ({ st with insts := st.insts ++ [⟨none, none⟩] }, .done)
  | .dropClass c => .ok (({ st with classes := st.classes.set c none } : State Ω V).release, .done)
  | .dropInst j => .ok (({ st with insts := st.insts.set j ⟨none, none⟩ } : State Ω V).release, .done)
  | .store j c name value => do
    let r ← st.store j c name value
    return (r.1, .stored r.2)
  | .append j c i value => do
    let r ← st.append j c i value
    return (r.1, .appended r.2)
  | .reserve j c cap => do
    let st ← st.reserve j c cap
    return (st, .done)
  | .fill j c vs => do
    let r ← st.fill j c vs
    return (r.1, .filled r.2)
  | .replaceIndex j i value => do
    let r ← st.replaceIndex j i value
    return (r.1, .replaced r.2)
  | .removeStr j name => do
    let r ← st.removeStr j name
    return (r.1, .removed r.2)
  | .take j => do
    let r ← st.take j
    return (r.1, .taken r.2)
  | .reset j => do
    let st ← st.reset j
    return (st, .done)
  | .materialize j busy => do
    let st ← st.materialize j busy
    return (st, .done)

/-- Whether a dictionary has taken the values over. -/
def published (st : State Ω V) (j : ℕ) : Bool := st.insts[j]?.any fun x => x.lazy.isSome

/-- Whoever asks for split values has found no dictionary, and whoever appends at a position has
found the name there. -/
def Allowed (st : State Ω V) : Op V → Prop
  | .newClass | .newInst => True
  | .dropClass c => c < st.classes.length
  | .dropInst j | .reset j => j < st.insts.length
  | .reserve j c _ => j < st.insts.length ∧ c < st.classes.length
  | .store j c _ _ | .fill j c _ => j < st.insts.length ∧ st.published j = false ∧ c < st.classes.length
  | .append j c i _ => j < st.insts.length ∧ st.published j = false ∧ i < (st.classNames c).length
  | .replaceIndex j _ _ | .removeStr j _ | .take j | .materialize j _ =>
    j < st.insts.length ∧ st.published j = false

/-- What an operation does to the instances' mappings. -/
def effect (st : State Ω V) (maps : List (OrderedMap (List UInt8) V)) :
    Op V → Reply V → List (OrderedMap (List UInt8) V)
  | .newInst, _ => maps ++ [[]]
  | .dropInst j, _ => maps.modify j fun _ => []
  | .store j _ name value, .stored (.ok _) => maps.modify j (·.store name.str.bytes value)
  | .append j c i value, .appended (.ok _) =>
    (st.classNames c)[i]?.elim maps fun k => maps.modify j (·.store k value)
  | .fill j c vs, .filled true =>
    maps.modify j fun m => ((st.classNames c).zip vs).foldl (fun m e => m.store e.1 e.2) m
  | .replaceIndex j i value, .replaced (.ok _) =>
    maps.modify j fun m => m[i]?.elim m fun e => m.store e.1 value
  | .removeStr j name, _ => maps.modify j (·.remove name.str.bytes)
  | .take j, _ => maps.modify j fun _ => []
  | .reset j, _ => if st.published j then maps else maps.modify j fun _ => []
  | _, _ => maps

end State

/-- The instance an operation works on. -/
def Op.on : Op V → Option ℕ
  | .newClass | .newInst | .dropClass _ => none
  | .dropInst j | .store j .. | .append j .. | .reserve j .. | .fill j .. | .replaceIndex j .. | .removeStr j _
  | .take j | .reset j | .materialize j _ => some j

/-- The values an operation hands back. -/
def Op.Returns (maps : List (OrderedMap (List UInt8) V)) : Op V → Reply V → Prop
  | .store j _ name _, .stored (.ok old) => maps[j]?.map (·.lookup name.str.bytes) = some old
  | .store _ _ _ value, .stored (.error back) => back = value
  | .append _ _ _ value, .appended (.error back) => back = value
  | .replaceIndex j i _, .replaced (.ok old) => (maps[j]?.bind (·[i]?)).map Prod.snd = some old
  | .replaceIndex _ _ value, .replaced (.error back) => back = value
  | .removeStr j name, .removed old => maps[j]?.map (·.lookup name.str.bytes) = some old
  | .take j, .taken vs => maps[j]?.map (·.map Prod.snd) = some vs
  | _, _ => True

/-- Runs, with the mappings that the instances' own stores and deletions make. -/
inductive Reachable [KeyOps Ω] : State Ω V → List (OrderedMap (List UInt8) V) → Prop where
  | new : Reachable .new []
  | step {st st' : State Ω V} {maps : List (OrderedMap (List UInt8) V)} {op : Op V} {reply : Reply V} :
    Reachable st maps → st.Allowed op → st.step op = .ok (st', reply) → Reachable st' (st.effect maps op reply)

variable {maps maps' : List (OrderedMap (List UInt8) V)}

/-- An instance's mapping, in its dictionary or in the split layout. -/
def Matches [KeyOps Ω] (st : State Ω V) (x : Instance Ω V) (m : OrderedMap (List UInt8) V) : Prop :=
  match x.lazy with
  | none => content st x.split = m
  | some d => d.WellFormed ∧ d.entries.map named = m.map some

section Steps

variable [KeyOps Ω]

structure Refines (st : State Ω V) (maps : List (OrderedMap (List UInt8) V)) : Prop where
  laid : Laid st
  matched : ∀ k : ℕ, Option.Rel (Matches st) st.insts[k]? maps[k]?

theorem Refines.get (h : Refines st maps) (hx : st.insts[j]? = some x) :
    ∃ m, maps[j]? = some m ∧ Matches st x m := by
  have hj := h.matched j
  rw [hx] at hj
  cases hm : maps[j]? with
  | none =>
    rw [hm] at hj
    cases hj
  | some m =>
    rw [hm] at hj
    cases hj with
    | some hj => exact ⟨m, rfl, hj⟩

theorem Matches.of_kept (h : Matches st x m) (hb : Backed st x.split)
    (hkept : ∀ id t, x.split.keysId = some id → st.table id = some t →
      ∃ t', st'.table id = some t' ∧ t.names <+: t'.names) : Matches st' x m := by
  unfold Matches at h ⊢
  cases hlazy : x.lazy with
  | none =>
    rw [hlazy] at h
    exact (content_of_kept hb hkept).trans h
  | some d =>
    rw [hlazy] at h
    exact h

theorem Refines.matches_mono (h : Refines st maps) (k : ℕ) {P : Instance Ω V → OrderedMap (List UInt8) V → Prop}
    (hm : ∀ x m, st.insts[k]? = some x → Matches st x m → P x m) : Option.Rel P st.insts[k]? maps[k]? := by
  have hk := h.matched k
  cases hx : st.insts[k]? with
  | none =>
    rw [hx] at hk
    cases hmap : maps[k]? with
    | none => exact .none
    | some m =>
      rw [hmap] at hk
      cases hk
  | some x =>
    obtain ⟨m, hmap, hmatch⟩ := h.get hx
    rw [hmap]
    exact .some (hm x m hx hmatch)

theorem Refines.count (h : Refines st maps) : st.insts.length = maps.length := by
  have hnone : ∀ k : ℕ, st.insts[k]? = none ↔ maps[k]? = none := by
    intro k
    have hk := h.matched k
    cases hx : st.insts[k]? <;> cases hm : maps[k]? <;> rw [hx, hm] at hk
    · simp
    · cases hk
    · cases hk
    · simp
  apply Nat.le_antisymm
  · exact List.getElem?_eq_none_iff.mp ((hnone _).mpr (List.getElem?_eq_none le_rfl))
  · exact List.getElem?_eq_none_iff.mp ((hnone _).mp (List.getElem?_eq_none le_rfl))

/-- Only instance `j` and its mapping change. -/
theorem Refines.follow (h : Refines st maps) (hf : Follows st st' j)
    (hothers : ∀ k, k ≠ j → maps'[k]? = maps[k]?)
    (hown : Option.Rel (Matches st') st'.insts[j]? maps'[j]?) : Refines st' maps' := by
  refine ⟨hf.laid, fun k => ?_⟩
  by_cases hk : k = j
  · exact hk ▸ hown
  · rw [hf.others k hk, hothers k hk]
    exact h.matches_mono k fun x m hx hmatch =>
      hmatch.of_kept (h.laid.backed k x hx) fun id t hid ht => hf.kept k x id t hk hx hid ht

theorem getElem?_modify_ne {f : OrderedMap (List UInt8) V → OrderedMap (List UInt8) V} (hk : k ≠ j) :
    (maps.modify j f)[k]? = maps[k]? := by
  rw [List.getElem?_modify]
  simp [hk.symm]

theorem getElem?_modify_self {f : OrderedMap (List UInt8) V → OrderedMap (List UInt8) V} (hm : maps[j]? = some m) :
    (maps.modify j f)[j]? = some (f m) := by
  rw [List.getElem?_modify, hm]
  simp

theorem Refines.change (h : Refines st maps) (hf : Follows st st' j) {x' : Instance Ω V}
    (hx' : st'.insts[j]? = some x') (hm : maps[j]? = some m)
    {f : OrderedMap (List UInt8) V → OrderedMap (List UInt8) V} (hmatch : Matches st' x' (f m)) :
    Refines st' (maps.modify j f) := by
  apply h.follow hf (fun k hk => getElem?_modify_ne hk)
  rw [hx', getElem?_modify_self hm]
  exact .some hmatch

/-- An operation on the split values of an instance without a dictionary. -/
theorem Refines.act {m' : OrderedMap (List UInt8) V} (h : Refines st maps) (hx : st.insts[j]? = some x)
    (hlazy : x.lazy = none) (ha : Acts st st' j x m')
    {f : OrderedMap (List UInt8) V → OrderedMap (List UInt8) V} (hf : f (content st x.split) = m') :
    Refines st' (maps.modify j f) := by
  obtain ⟨s, hs, hcontent⟩ := ha.own
  obtain ⟨m, hm, hmatch⟩ := h.get hx
  unfold Matches at hmatch
  rw [hlazy] at hmatch
  apply h.change ha.toFollows hs hm
  unfold Matches
  dsimp only
  rw [hlazy]
  dsimp only
  rw [hcontent, ← hf, hmatch]

theorem Refines.stay (h : Refines st maps) (hx : st.insts[j]? = some x) {m' : OrderedMap (List UInt8) V}
    (ha : Acts st st' j x m') (hm : x.lazy = none → m' = content st x.split) : Refines st' maps := by
  obtain ⟨s, hs, hcontent⟩ := ha.own
  obtain ⟨m, hmap, hmatch⟩ := h.get hx
  apply h.follow ha.toFollows fun _ _ => rfl
  rw [hs, hmap]
  apply Option.Rel.some
  unfold Matches at hmatch ⊢
  dsimp only
  cases hlazy : x.lazy with
  | none =>
    rw [hlazy] at hmatch
    exact (hcontent.trans (hm hlazy)).trans hmatch
  | some d =>
    rw [hlazy] at hmatch
    exact hmatch

theorem Refines.released (h : Refines st maps) (hr : Released st st') : Refines st' maps := by
  refine ⟨hr.laid, fun k => ?_⟩
  rw [hr.insts]
  exact h.matches_mono k fun x m hx hmatch =>
    hmatch.of_kept (h.laid.backed k x hx) fun id t hid ht => ⟨t, hr.used k x id t hx hid ht, List.prefix_refl _⟩

theorem Refines.setClasses (h : Refines st maps) {classes : List (Option TableId)}
    (hc : ∀ c : ℕ, ∀ id, classes[c]? = some (some id) → ∃ t, st.table id = some t) :
    Refines { st with classes := classes } maps :=
  ⟨⟨h.laid.proper, h.laid.backed, hc, h.laid.derived⟩, h.matched⟩

theorem Refines.newInst (h : Refines st maps) : Refines { st with insts := st.insts ++ [⟨none, none⟩] } (maps ++ [[]]) := by
  refine ⟨⟨h.laid.proper, fun k x hx => ?_, h.laid.adopted, h.laid.derived⟩, fun k => ?_⟩
  · dsimp only at hx
    rw [List.getElem?_append] at hx
    split_ifs at hx
    · exact h.laid.backed k x hx
    · rw [List.getElem?_singleton] at hx
      split_ifs at hx
      rw [Option.some_inj] at hx
      subst hx
      exact rfl
  · dsimp only
    rw [List.getElem?_append, List.getElem?_append, ← h.count]
    split_ifs
    · exact h.matches_mono k fun _ _ _ hmatch => hmatch
    · rw [List.getElem?_singleton, List.getElem?_singleton]
      split_ifs
      · exact .some rfl
      · exact .none

theorem foldl_store_zip {l : List (List UInt8)} {vs : List V} (m : OrderedMap (List UInt8) V)
    (hd : (m.keys ++ l).Nodup) : (l.zip vs).foldl (fun m e => m.store e.1 e.2) m = m ++ l.zip vs := by
  induction l generalizing m vs with
  | nil => simp
  | cons k l ih =>
    cases vs with
    | nil => simp
    | cons v vs =>
      have hk : k ∉ m.keys := by
        intro hk
        exact (List.disjoint_of_nodup_append hd) hk List.mem_cons_self
      rw [List.zip_cons_cons, List.foldl_cons, OrderedMap.store_of_not_mem hk, ih, List.append_assoc]
      · rfl
      · unfold OrderedMap.keys at hd ⊢
        rw [List.map_append, List.append_assoc]
        exact hd

/-- What one operation may do: its own instance's mapping changes as the reply says, and the names that
any other instance uses stay where they are. -/
structure Stepped (st : State Ω V) (maps : List (OrderedMap (List UInt8) V)) (op : Op V) (st' : State Ω V)
    (reply : Reply V) : Prop where
  refines : Refines st' (st.effect maps op reply)
  kept : ∀ (k : ℕ) x id t, op.on ≠ some k → st.insts[k]? = some x → x.split.keysId = some id → st.table id = some t →
    ∃ t', st'.table id = some t' ∧ t.names <+: t'.names
  untouched : reply.failed = true → st.effect maps op reply = maps
  returns : op.Returns maps reply

theorem Follows.kept_of_on {op : Op V} (h : Follows st st' j) (hop : op.on = some j) (k : ℕ) (x : Instance Ω V) (id : ℕ)
    (t : SharedKeys) (hk : op.on ≠ some k) (hx : st.insts[k]? = some x) (hid : x.split.keysId = some id)
    (ht : st.table id = some t) : ∃ t', st'.table id = some t' ∧ t.names <+: t'.names := by
  apply h.kept k x id t _ hx hid ht
  rintro rfl
  exact hk hop

theorem Refines.unpublished (h : Refines st maps) (hj : j < st.insts.length) (hp : st.published j = false) :
    ∃ x, st.insts[j]? = some x ∧ x.lazy = none ∧ maps[j]? = some (content st x.split) := by
  have hx := List.getElem?_eq_getElem hj
  have hlazy : st.insts[j].lazy = none := by
    unfold State.published at hp
    rw [hx] at hp
    simpa using hp
  obtain ⟨m, hm, hmatch⟩ := h.get hx
  unfold Matches at hmatch
  rw [hlazy] at hmatch
  exact ⟨_, hx, hlazy, hm.trans (congrArg some hmatch.symm)⟩

theorem Laid.setInst (h : Laid st) (hj : j < st.insts.length) :
    Follows st { st with insts := st.insts.set j ⟨none, none⟩ } j := by
  refine ⟨⟨h.proper, fun k y hy => ?_, h.adopted, h.derived⟩, fun k hk => List.getElem?_set_ne hk.symm,
    fun _ _ _ t _ _ _ ht => ⟨t, ht, List.prefix_refl _⟩⟩
  dsimp only at hy
  rw [List.getElem?_set] at hy
  split_ifs at hy
  · rw [Option.some_inj] at hy
    subst hy
    exact rfl
  · exact h.backed k y hy

theorem Refines.newClass (h : Refines st maps) : Refines { st with classes := st.classes ++ [none] } maps := by
  apply h.setClasses
  intro c id hc
  rw [List.getElem?_append] at hc
  split_ifs at hc
  · exact h.laid.adopted c id hc
  · rw [List.getElem?_singleton] at hc
    split_ifs at hc
    simp at hc

theorem Refines.dropClass (h : Refines st maps) (c : ℕ) :
    Refines { st with classes := st.classes.set c none } maps := by
  apply h.setClasses
  intro c' id hc'
  rw [List.getElem?_set] at hc'
  split_ifs at hc'
  · simp at hc'
  · exact h.laid.adopted c' id hc'

theorem Refines.step (h : Refines st maps) {op : Op V} (ha : st.Allowed op) :
    ∃ st' reply, st.step op = .ok (st', reply) ∧ Stepped st maps op st' reply := by
  have hlaid := h.laid
  cases op with
  | newClass =>
    exact ⟨_, _, rfl, h.newClass, fun _ _ _ t _ _ _ ht => ⟨t, ht, List.prefix_refl _⟩, nofun, trivial⟩
  | newInst =>
    exact ⟨_, _, rfl, h.newInst, fun _ _ _ t _ _ _ ht => ⟨t, ht, List.prefix_refl _⟩, nofun, trivial⟩
  | dropClass c =>
    have hdrop := h.dropClass c
    have hrel := hdrop.laid.release
    exact ⟨_, _, rfl, hdrop.released hrel, fun k x id t _ hx hid ht =>
      ⟨t, hrel.used k x id t hx hid ht, List.prefix_refl _⟩, nofun, trivial⟩
  | dropInst j =>
    have hset := hlaid.setInst ha
    have hrel := hset.laid.release
    have hf := hset.trans hrel.follows
    refine ⟨_, _, rfl, ?_, hf.kept_of_on rfl, nofun, trivial⟩
    obtain ⟨m, hm, _⟩ := h.get (List.getElem?_eq_getElem ha)
    apply h.change hf _ hm
    · show Matches _ ⟨none, none⟩ []
      rfl
    · rw [hrel.insts]
      exact List.getElem?_set_self ha
  | store j c name value =>
    obtain ⟨hj, hp, hc⟩ := ha
    obtain ⟨x, hx, hlazy, hm⟩ := h.unpublished hj hp
    obtain ⟨st', r, hrun, hr⟩ := store_spec hlaid hx hc name value
    refine ⟨st', .stored r, by rw [State.step, hrun]; rfl, ?_⟩
    cases r with
    | ok old => exact ⟨h.act hx hlazy hr.2 rfl, hr.2.kept_of_on rfl, nofun, by
        show maps[j]?.map _ = _
        rw [hm, hr.1]
        rfl⟩
    | error back => exact ⟨h.stay hx hr.2 fun _ => rfl, hr.2.kept_of_on rfl, fun _ => rfl, hr.1⟩
  | append j c i value =>
    obtain ⟨hj, hp, hi⟩ := ha
    obtain ⟨x, hx, hlazy, hm⟩ := h.unpublished hj hp
    obtain ⟨st', r, hrun, hr⟩ := append_spec hlaid hx hi value
    refine ⟨st', .appended r, by rw [State.step, hrun]; rfl, ?_⟩
    rcases hr with ⟨rfl, rfl⟩ | ⟨rfl, k, hk, hacts⟩
    · exact ⟨h, fun _ _ _ t _ _ _ ht => ⟨t, ht, List.prefix_refl _⟩, fun _ => rfl, rfl⟩
    · refine ⟨?_, hacts.kept_of_on rfl, nofun, trivial⟩
      show Refines st' ((st.classNames c)[i]?.elim maps fun k => maps.modify j (·.store k value))
      rw [hk]
      exact h.act hx hlazy hacts rfl
  | reserve j c cap =>
    have hx := List.getElem?_eq_getElem ha.1
    obtain ⟨st', hrun, hacts⟩ := reserve_spec hlaid hx ha.2 cap
    exact ⟨st', .done, by rw [State.step, hrun]; rfl, h.stay hx hacts fun _ => rfl, hacts.kept_of_on rfl, nofun,
      trivial⟩
  | fill j c vs =>
    obtain ⟨hj, hp, hc⟩ := ha
    obtain ⟨x, hx, hlazy, hm⟩ := h.unpublished hj hp
    obtain ⟨st', r, hrun, hr⟩ := fill_spec hlaid hx hc vs
    refine ⟨st', .filled r, by rw [State.step, hrun]; rfl, ?_⟩
    rcases hr with ⟨rfl, rfl⟩ | ⟨rfl, hempty, hd, hacts⟩
    · exact ⟨h, fun _ _ _ t _ _ _ ht => ⟨t, ht, List.prefix_refl _⟩, fun _ => rfl, trivial⟩
    · refine ⟨h.act hx hlazy hacts ?_, hacts.kept_of_on rfl, nofun, trivial⟩
      rw [hempty]
      exact foldl_store_zip [] hd
  | replaceIndex j i value =>
    obtain ⟨x, hx, hlazy, hm⟩ := h.unpublished ha.1 ha.2
    obtain ⟨st', r, hrun, hr⟩ := replaceIndex_spec hlaid hx i value
    refine ⟨st', .replaced r, by rw [State.step, hrun]; rfl, ?_⟩
    rcases hr with ⟨rfl, rfl⟩ | ⟨k, old, hk, rfl, hacts⟩
    · exact ⟨h, fun _ _ _ t _ _ _ ht => ⟨t, ht, List.prefix_refl _⟩, fun _ => rfl, rfl⟩
    · refine ⟨h.act hx hlazy hacts ?_, hacts.kept_of_on rfl, nofun, ?_⟩
      · rw [hk]
        rfl
      · show (maps[j]?.bind (·[i]?)).map Prod.snd = some old
        rw [hm, Option.bind_some, hk]
        rfl
  | removeStr j name =>
    obtain ⟨x, hx, hlazy, hm⟩ := h.unpublished ha.1 ha.2
    obtain ⟨st', r, hrun, hr, hacts⟩ := removeStr_spec hlaid hx name
    refine ⟨st', .removed r, by rw [State.step, hrun]; rfl, h.act hx hlazy hacts rfl, hacts.kept_of_on rfl, nofun, ?_⟩
    show maps[j]?.map _ = _
    rw [hm, hr]
    rfl
  | take j =>
    obtain ⟨x, hx, hlazy, hm⟩ := h.unpublished ha.1 ha.2
    obtain ⟨st', hrun, hacts⟩ := take_spec hlaid hx
    refine ⟨st', .taken x.split.values, by rw [State.step, hrun]; rfl, h.act hx hlazy hacts rfl, hacts.kept_of_on rfl,
      nofun, ?_⟩
    show maps[j]?.map _ = _
    rw [hm, Option.map_some, content_values (hlaid.backed j x hx)]
  | reset j =>
    have hx := List.getElem?_eq_getElem ha
    obtain ⟨st', hrun, hacts⟩ := reset_spec hlaid hx
    refine ⟨st', .done, by rw [State.step, hrun]; rfl, ?_, hacts.kept_of_on rfl, nofun, trivial⟩
    show Refines st' (if st.published j then maps else maps.modify j fun _ => [])
    split_ifs with hp
    · apply h.stay hx hacts
      intro hlazy
      unfold State.published at hp
      rw [hx] at hp
      simp [hlazy] at hp
    · obtain ⟨x, hx', hlazy, _⟩ := h.unpublished ha (Bool.not_eq_true _ ▸ hp)
      rw [hx, Option.some_inj] at hx'
      exact h.act hx (hx' ▸ hlazy) hacts rfl
  | materialize j busy =>
    obtain ⟨x, hx, hlazy, hm⟩ := h.unpublished ha.1 ha.2
    obtain ⟨st', d, s, hrun, hf, hj, hwell, hentries⟩ := materialize_spec hlaid hx hlazy busy
    refine ⟨st', .done, by rw [State.step, hrun]; rfl, ?_, hf.kept_of_on rfl, nofun, trivial⟩
    apply h.follow hf fun _ _ => rfl
    rw [hj, hm]
    exact .some ⟨hwell, hentries⟩

theorem Reachable.refines (h : Reachable st maps) : Refines st maps := by
  induction h with
  | new =>
    refine ⟨⟨?_, ?_, ?_, ?_⟩, fun k => .none⟩ <;> simp [State.new, State.table]
  | step _ ha hrun ih =>
    obtain ⟨st', reply, hrun', hstep⟩ := ih.step ha
    rw [hrun, Except.ok.injEq, Prod.mk.injEq] at hrun'
    obtain ⟨rfl, rfl⟩ := hrun'
    exact hstep.refines

end Steps

/-- What a reader of an instance sees is the mapping `m`. -/
def Shows [KeyOps Ω] (st : State Ω V) (x : Instance Ω V) (m : OrderedMap (List UInt8) V) : Prop :=
  match x.lazy with
  | none => Answers st x.split m
  | some d => d.WellFormed ∧ d.entries.map named = m.map some

theorem Matches.shows [KeyOps Ω] (h : Matches st x m) (hlaid : Laid st) (hb : Backed st x.split) : Shows st x m := by
  unfold Matches at h
  unfold Shows
  cases hlazy : x.lazy with
  | none =>
    rw [hlazy] at h
    exact h ▸ hlaid.answers hb
  | some d =>
    rw [hlazy] at h
    exact h

/-- In every state a run reaches every instance shows its own mapping, and whatever may be asked for
next returns, does as it says, and moves no name in a table that another instance uses. -/
theorem reachable_shows [KeyOps Ω] (h : Reachable st maps) :
    (∀ id t, st.table id = some t → t.texts.Nodup) ∧
    (∀ (j : ℕ) x, st.insts[j]? = some x → Backed st x.split) ∧
    (∀ j : ℕ, Option.Rel (Shows st) st.insts[j]? maps[j]?) ∧
    ∀ op, st.Allowed op → ∃ st' reply, st.step op = .ok (st', reply) ∧
      Reachable st' (st.effect maps op reply) ∧
      (reply.failed = true → st.effect maps op reply = maps) ∧
      op.Returns maps reply ∧
      ∀ (k : ℕ) x id t, op.on ≠ some k → st.insts[k]? = some x → x.split.keysId = some id → st.table id = some t →
        ∃ t', st'.table id = some t' ∧ t.texts <+: t'.texts := by
  have href := h.refines
  refine ⟨fun id t ht => (href.laid.proper id t ht).distinct, href.laid.backed, fun j => ?_, fun op ha => ?_⟩
  · exact href.matches_mono j fun x m hx hmatch => hmatch.shows href.laid (href.laid.backed j x hx)
  · obtain ⟨st', reply, hrun, hstep⟩ := href.step ha
    refine ⟨st', reply, hrun, h.step ha hrun, hstep.untouched, hstep.returns, fun k x id t hk hx hid ht => ?_⟩
    obtain ⟨t', ht', hpre⟩ := hstep.kept k x id t hk hx hid ht
    exact ⟨t', ht', texts_grown hpre⟩

theorem Reachable.next [KeyOps Ω] {reply : Reply V} (h : Reachable st maps) (op : Op V) (ha : st.Allowed op)
    (hrun : st.step op = .ok (st', reply)) : Reachable st' (st.effect maps op reply) := h.step ha hrun

def nameRef (bytes : List UInt8) : NameRef := ⟨⟨bytes, false⟩, fun _ => false, by simp⟩

/-- Two instances of a class: one loses a name in the middle and gets another, while the other goes on
under the shared names. -/
theorem reachable_shows_deleted : ∃ (st : State Empty ℕ) (x y : Instance Empty ℕ),
    st.insts[0]? = some x ∧ Shows st x [([97], 1), ([99], 3), ([100], 4)] ∧
      st.insts[1]? = some y ∧ Shows st y [([97], 5), ([98], 6)] := by
  have h₁ := (Reachable.new : Reachable (.new : State Empty ℕ) []).next (.newClass) trivial rfl
  have h₂ := h₁.next (.newInst) trivial rfl
  have h₃ := h₂.next (.newInst) trivial rfl
  have h₄ := h₃.next (.store 0 0 (nameRef [97]) 1) ⟨by decide, rfl, by decide⟩ rfl
  have h₅ := h₄.next (.store 0 0 (nameRef [98]) 2) ⟨by decide, rfl, by decide⟩ rfl
  have h₆ := h₅.next (.store 0 0 (nameRef [99]) 3) ⟨by decide, rfl, by decide⟩ rfl
  have h₇ := h₆.next (.append 1 0 0 5) ⟨by decide, rfl, by decide⟩ rfl
  have h₈ := h₇.next (.removeStr 0 (nameRef [98])) ⟨by decide, rfl⟩ rfl
  have h₉ := h₈.next (.store 0 0 (nameRef [100]) 4) ⟨by decide, rfl, by decide⟩ rfl
  have h₁₀ := h₉.next (.store 1 0 (nameRef [98]) 6) ⟨by decide, rfl, by decide⟩ rfl
  obtain ⟨-, -, hshows, -⟩ := reachable_shows h₁₀
  have h₀ := hshows 0
  have h₁ := hshows 1
  cases h₀ with
  | some h₀ =>
    cases h₁ with
    | some h₁ => exact ⟨_, _, _, rfl, h₀, rfl, h₁⟩

end WeavePy.InstDict
