import WeavePy.Lib.Linearize

/-!
Classes with their bases, and the method resolution order a class gets from its bases' orders.
-/

namespace WeavePy.Types

open Linearize

abbrev TypeId := ℕ

structure TypeObject where
  name : String
  qualname : Option String
  bases : List TypeId
  mro : List TypeId
  subclasses : List TypeId

inductive RuntimeError where
  | typeError (message : String)
  deriving DecidableEq

/-- The classes, by the order of their creation. -/
abbrev World := List TypeObject

namespace World

def mro (w : World) (ty : TypeId) : List TypeId := w[ty]?.elim [] TypeObject.mro

def bases (w : World) (ty : TypeId) : List TypeId := w[ty]?.elim [] TypeObject.bases

def subclasses (w : World) (ty : TypeId) : List TypeId := w[ty]?.elim [] TypeObject.subclasses

def name (w : World) (ty : TypeId) : String := w[ty]?.elim "" TypeObject.name

end World

def headInOtherTails (lists : List (List TypeId)) (head : TypeId) : Bool :=
  lists.any fun other => (other.drop 1).any (· == head)

def choose (lists : List (List TypeId)) : Option TypeId :=
  (lists.filterMap List.head?).find? fun head => !headInOtherTails lists head

/-- `lists.retain(|l| !l.is_empty())`. -/
def retained (lists : List (List TypeId)) : List (List TypeId) := lists.filter (!·.isEmpty)

def removeHeads (c : TypeId) (lists : List (List TypeId)) : List (List TypeId) :=
  lists.map fun list => if list.head? = some c then list.drop 1 else list

/-- The heads' names, each once. -/
def seenNames (w : World) (lists : List (List TypeId)) : List String :=
  lists.foldl (fun seen list => list.head?.elim seen fun t =>
    if seen.contains (w.name t) then seen else seen ++ [w.name t]) []

def setMroError (w : World) (lists : List (List TypeId)) : RuntimeError :=
  .typeError ("Cannot create a consistent method resolution order (MRO) for bases " ++
    ", ".intercalate (seenNames w lists))

variable {w : World} {lists : List (List TypeId)} {bases m p q : List TypeId} {self c : TypeId}

theorem headInOtherTails_eq_false : headInOtherTails lists c = false ↔ Free lists c := by
  unfold headInOtherTails Free
  simp only [List.any_eq_false, List.any_eq_true, beq_iff_eq, exists_eq_right, List.drop_one]

theorem choose_eq_next (lists : List (List TypeId)) : choose lists = next lists := by
  unfold choose next heads
  congr 1
  funext c
  rw [Bool.eq_iff_iff, Bool.not_eq_true', headInOtherTails_eq_false, decide_eq_true_iff]

/-- A chosen head goes from every list that has it. -/
theorem removeHeads_eq (h : Free lists c) : removeHeads c lists = beyond [c] lists := by
  apply List.map_congr_left
  intro l hl
  rw [filter_of_free (h l hl)]
  rw [List.drop_one]

theorem sum_length_retained (lists : List (List TypeId)) :
    ((retained lists).map List.length).sum = (lists.map List.length).sum := by
  unfold retained
  induction lists with
  | nil => rfl
  | cons l lists ih => cases l <;> simp [ih]

theorem length_chosen_lt (h : choose (retained lists) = some c) :
    ((removeHeads c (retained lists)).map List.length).sum < (lists.map List.length).sum := by
  rw [choose_eq_next] at h
  obtain ⟨hhead, hfree⟩ := next_free h
  rw [removeHeads_eq hfree, ← sum_length_retained lists]
  exact length_beyond_lt hhead

/-- The merge of what is left of the lists, after the classes `merged`. -/
def mergeLists (w : World) (lists : List (List TypeId)) (merged : List TypeId) :
    Except RuntimeError (List TypeId) :=
  if (retained lists).isEmpty then .ok merged
  else
    match _ : choose (retained lists) with
    | none => .error (setMroError w (retained lists))
    | some c => mergeLists w (removeHeads c (retained lists)) (merged ++ [c])
termination_by (lists.map List.length).sum
decreasing_by exact length_chosen_lt ‹_›

/-- What is merged: the bases' orders, then the bases. -/
def orders (w : World) (bases : List TypeId) : List (List TypeId) := bases.map w.mro ++ [bases]

def computeC3 (w : World) (self : TypeId) (bases : List TypeId) : Except RuntimeError (List TypeId) :=
  mergeLists w (orders w bases) [self]

def recomputeC3 (w : World) (ty : TypeId) : Except RuntimeError (List TypeId) := computeC3 w ty (w.bases ty)

/-- A class namespace's `__qualname__`. -/
inductive QualnameEntry where
  | absent
  | str (s : String)
  | instanceDescriptor
  | other (typeName : String)

def QualnameEntry.qualname : QualnameEntry → Except RuntimeError (Option String)
  | .str s => .ok (some s)
  | .instanceDescriptor => .ok none
  | .other typeName => .error (.typeError ("type __qualname__ must be a str, not " ++ typeName))
  | .absent => .ok none

def addSubclass (ty : TypeId) (w : World) (base : TypeId) : World :=
  w.modify base fun t => { t with subclasses := t.subclasses ++ [ty] }

/-- A class that gets no order is dropped again. -/
def newWithFlags (w : World) (name : String) (bases : List TypeId) (entry : QualnameEntry) :
    Except RuntimeError TypeId × World :=
  match entry.qualname with
  | .error e => (.error e, w)
  | .ok qualname =>
    let ty := w.length
    let w : World := w ++ [⟨name, qualname, bases, [], []⟩]
    match computeC3 w ty bases with
    | .error e => (.error e, w.dropLast)
    | .ok mro => (.ok ty, bases.foldl (addSubclass ty) (w.modify ty fun t => { t with mro := mro }))

section Merge

theorem mergeLists_iff : mergeLists w lists p = .ok m ↔ ∃ l, m = p ++ l ∧ Merges lists l := by
  induction lists, p using mergeLists.induct with
  | case1 lists p hempty =>
    rw [mergeLists.eq_def, if_pos hempty, Except.ok.injEq]
    have hall : ∀ l ∈ lists, l = [] := by simpa [retained] using hempty
    constructor
    · rintro rfl
      exact ⟨[], (List.append_nil p).symm, .done hall⟩
    · rintro ⟨l, rfl, hl⟩
      cases hl with
      | done _ => exact (List.append_nil p).symm
      | take hnext _ =>
        obtain ⟨l, hl, hhead⟩ := mem_heads.mp (next_free hnext).1
        rw [hall l hl] at hhead
        simp at hhead
  | case2 lists p hempty hchoose =>
    rw [mergeLists.eq_def, if_neg hempty]
    split
    · constructor
      · intro h
        cases h
      · rintro ⟨l, rfl, hl⟩
        rw [choose_eq_next, retained, next_filter] at hchoose
        cases hl with
        | done hall => exact absurd (by simpa [retained] using hall) hempty
        | take hnext _ =>
          rw [hchoose] at hnext
          cases hnext
    · next c hc =>
      rw [hchoose] at hc
      cases hc
  | case3 lists p hempty c hchoose ih =>
    rw [mergeLists.eq_def, if_neg hempty]
    split
    · next hnone =>
      rw [hchoose] at hnone
      cases hnone
    · next d hd =>
      rw [hchoose, Option.some_inj] at hd
      subst hd
      rw [choose_eq_next] at hchoose
      rw [ih, removeHeads_eq (next_free hchoose).2]
      have hiff (l : List TypeId) : Merges lists (c :: l) ↔ Merges (beyond [c] (retained lists)) l := by
        rw [← merges_filter]
        exact merges_cons.trans ⟨fun h => h.2, fun h => ⟨hchoose, h⟩⟩
      constructor
      · rintro ⟨l, rfl, hl⟩
        exact ⟨c :: l, by rw [List.append_assoc, List.singleton_append], (hiff l).mpr hl⟩
      · rintro ⟨l, rfl, hl⟩
        cases l with
        | nil =>
          cases hl with
          | done hall => exact absurd (by simpa [retained] using hall) hempty
        | cons d l =>
          obtain rfl : d = c := by
            have hnext := (merges_cons.mp hl).1
            rw [retained, next_filter] at hchoose
            rw [hchoose, Option.some_inj] at hnext
            exact hnext.symm
          exact ⟨l, by rw [List.append_assoc, List.singleton_append], (hiff l).mp hl⟩

theorem computeC3_iff : computeC3 w self bases = .ok m ↔ ∃ l, m = self :: l ∧ Merges (orders w bases) l := mergeLists_iff

end Merge

section Orders

theorem lt_of_head (h : (w.mro c).head? = some c) : c < w.length := by
  unfold World.mro at h
  cases hc : w[c]? with
  | none =>
    rw [hc] at h
    simp at h
  | some t => exact (List.getElem?_eq_some_iff.mp hc).1

theorem mem_orders (h : ∀ b ∈ bases, (w.mro b).head? = some b) :
    (∃ l ∈ orders w bases, c ∈ l) ↔ ∃ b ∈ bases, c ∈ w.mro b := by
  unfold orders
  constructor
  · rintro ⟨l, hl, hc⟩
    rw [List.mem_append, List.mem_singleton, List.mem_map] at hl
    rcases hl with ⟨b, hb, rfl⟩ | rfl
    · exact ⟨b, hb, hc⟩
    · exact ⟨c, hc, List.mem_of_mem_head? (h c hc)⟩
  · rintro ⟨b, hb, hc⟩
    exact ⟨_, List.mem_append_left _ (List.mem_map_of_mem hb), hc⟩

theorem orders_mro {b : TypeId} (hb : b ∈ bases) : w.mro b ∈ orders w bases :=
  List.mem_append_left _ (List.mem_map_of_mem hb)

theorem orders_bases : bases ∈ orders w bases := List.mem_append_right _ (List.mem_singleton_self _)

/-- The order of a class over its bases: each class of theirs once, in no base's order turned round, and
always the first that may come next. -/
structure IsC3 (w : World) (ty : TypeId) (bases m : List TypeId) : Prop where
  head : m.head? = some ty
  once : m.tail.Nodup
  mem : ∀ c, c ∈ m.tail ↔ ∃ b ∈ bases, c ∈ w.mro b
  monotone : ∀ b ∈ bases, (w.mro b).Sublist m.tail
  listed : bases.Sublist m.tail
  first : ∀ p c q, m.tail = p ++ c :: q → next (beyond p (orders w bases)) = some c
  fresh : (∀ b ∈ bases, ty ∉ w.mro b) → m.Nodup

theorem computeC3_isC3 (h : ∀ b ∈ bases, (w.mro b).head? = some b) (hm : computeC3 w self bases = .ok m) :
    IsC3 w self bases m := by
  obtain ⟨l, rfl, hl⟩ := computeC3_iff.mp hm
  have hlin := hl.linearizes
  have hmem (c : TypeId) : c ∈ l ↔ ∃ b ∈ bases, c ∈ w.mro b := by
    rw [hlin.mem]
    exact mem_orders h
  constructor
  · rfl
  · exact hlin.nodup
  · exact hmem
  · exact fun b hb => hlin.sublist _ (orders_mro hb)
  · exact hlin.sublist _ orders_bases
  · intro p c q hsplit
    rw [List.tail_cons] at hsplit
    rw [hsplit] at hl
    exact hl.next_eq
  · intro hself
    refine List.nodup_cons.mpr ⟨fun hin => ?_, hlin.nodup⟩
    obtain ⟨b, hb, hc⟩ := (hmem self).mp hin
    exact hself b hb hc

theorem computeC3_ok_iff : (∃ m, computeC3 w self bases = .ok m) ↔ Acyclic (orders w bases) := by
  rw [← exists_merges_iff]
  constructor
  · rintro ⟨m, hm⟩
    obtain ⟨l, -, hl⟩ := computeC3_iff.mp hm
    exact ⟨l, hl⟩
  · rintro ⟨l, hl⟩
    exact ⟨self :: l, computeC3_iff.mpr ⟨l, rfl, hl⟩⟩

/-- A base listed twice comes before itself. -/
theorem nodup_of_acyclic (h : Acyclic (orders w bases)) : bases.Nodup := by
  obtain ⟨l, hl⟩ := exists_merges_iff.mpr h
  exact hl.linearizes.nodup.sublist (hl.linearizes.sublist _ orders_bases)

end Orders

section NewClass

theorem mro_modify {f : TypeObject → TypeObject} (hf : ∀ t, (f t).mro = t.mro) (base : TypeId) :
    World.mro (w.modify base f) c = w.mro c := by
  unfold World.mro
  rw [List.getElem?_modify]
  cases hc : w[c]? with
  | none => rfl
  | some t =>
    by_cases hb : base = c
    · simp [hb, hf]
    · simp [hb]

theorem mro_foldl (ty : TypeId) (bases : List TypeId) : World.mro (bases.foldl (addSubclass ty) w) c = w.mro c := by
  induction bases generalizing w with
  | nil => rfl
  | cons b bases ih =>
    rw [List.foldl_cons, ih]
    unfold addSubclass
    apply mro_modify
    intro t
    rfl

theorem mro_append {t : TypeObject} (hc : c < w.length) : World.mro (w ++ [t]) c = w.mro c := by
  unfold World.mro
  rw [List.getElem?_append_left hc]

theorem orders_append {t : TypeObject} (h : ∀ b ∈ bases, b < w.length) :
    orders (w ++ [t]) bases = orders w bases := by
  unfold orders
  congr 1
  exact List.map_congr_left fun b hb => mro_append (h b hb)

theorem mro_modify_concat {t : TypeObject} {m : List TypeId} :
    World.mro ((w ++ [t]).modify w.length fun t => { t with mro := m }) w.length = m := by
  unfold World.mro
  rw [List.getElem?_modify, List.getElem?_concat_length]
  simp

/-- The order a new class gets is the one its bases' orders merge to. -/
theorem newWithFlags_ok (h : ∀ b ∈ bases, b < w.length) {name : String} {entry : QualnameEntry} {ty : TypeId}
    {w' : World} (hnew : newWithFlags w name bases entry = (.ok ty, w')) :
    ty = w.length ∧ computeC3 w ty bases = .ok (w'.mro ty) ∧ ∀ c < w.length, w'.mro c = w.mro c := by
  unfold newWithFlags at hnew
  cases hq : entry.qualname with
  | error e =>
    rw [hq] at hnew
    simp at hnew
  | ok qualname =>
    rw [hq] at hnew
    dsimp only at hnew
    cases hc3 : computeC3 (w ++ [⟨name, qualname, bases, [], []⟩]) w.length bases with
    | error e =>
      rw [hc3] at hnew
      simp at hnew
    | ok mro =>
      rw [hc3, Prod.mk.injEq, Except.ok.injEq] at hnew
      obtain ⟨rfl, rfl⟩ := hnew
      refine ⟨rfl, ?_, fun c hc => ?_⟩
      · rw [mro_foldl, mro_modify_concat]
        rw [computeC3_iff, orders_append h, ← computeC3_iff] at hc3
        exact hc3
      · rw [mro_foldl]
        unfold World.mro
        rw [List.getElem?_modify, List.getElem?_append_left hc, List.getElem?_eq_getElem hc]
        simp [hc.ne']

theorem newWithFlags_error {name : String} {entry : QualnameEntry} {e : RuntimeError} {w' : World}
    (hnew : newWithFlags w name bases entry = (.error e, w')) : w' = w := by
  unfold newWithFlags at hnew
  cases hq : entry.qualname with
  | error e =>
    rw [hq] at hnew
    exact (Prod.mk.inj hnew).2.symm
  | ok qualname =>
    rw [hq] at hnew
    dsimp only at hnew
    cases hc3 : computeC3 (w ++ [⟨name, qualname, bases, [], []⟩]) w.length bases with
    | error e =>
      rw [hc3, List.dropLast_concat] at hnew
      exact (Prod.mk.inj hnew).2.symm
    | ok mro =>
      rw [hc3] at hnew
      simp at hnew

end NewClass

section Built

/-- Class graphs made by creating classes over earlier ones. -/
inductive Built : World → Prop where
  | nil : Built []
  | step {w w' : World} {name : String} {bases : List TypeId} {entry : QualnameEntry} {r : Except RuntimeError TypeId} :
    Built w → (∀ b ∈ bases, b < w.length) → newWithFlags w name bases entry = (r, w') → Built w'

structure Ordered (w : World) : Prop where
  head : ∀ c < w.length, (w.mro c).head? = some c
  nodup : ∀ c < w.length, (w.mro c).Nodup
  known : ∀ c < w.length, ∀ d ∈ w.mro c, d < w.length

theorem length_addSubclass (ty : TypeId) (bases : List TypeId) :
    (bases.foldl (addSubclass ty) w).length = w.length := by
  induction bases generalizing w with
  | nil => rfl
  | cons b bases ih =>
    rw [List.foldl_cons, ih]
    exact List.length_modify _ _ _

theorem length_newWithFlags {name : String} {entry : QualnameEntry} {ty : TypeId} {w' : World}
    (hnew : newWithFlags w name bases entry = (.ok ty, w')) : w'.length = w.length + 1 := by
  unfold newWithFlags at hnew
  cases hq : entry.qualname with
  | error e =>
    rw [hq] at hnew
    simp at hnew
  | ok qualname =>
    rw [hq] at hnew
    dsimp only at hnew
    cases hc3 : computeC3 (w ++ [⟨name, qualname, bases, [], []⟩]) w.length bases with
    | error e =>
      rw [hc3] at hnew
      simp at hnew
    | ok mro =>
      rw [hc3, Prod.mk.injEq] at hnew
      obtain ⟨-, rfl⟩ := hnew
      rw [length_addSubclass, List.length_modify, List.length_append, List.length_singleton]

theorem Ordered.newWithFlags (h : Ordered w) (hb : ∀ b ∈ bases, b < w.length) {name : String}
    {entry : QualnameEntry} {r : Except RuntimeError TypeId} {w' : World}
    (hnew : newWithFlags w name bases entry = (r, w')) : Ordered w' := by
  cases r with
  | error e => exact newWithFlags_error hnew ▸ h
  | ok ty =>
    obtain ⟨rfl, hc3, hold⟩ := newWithFlags_ok hb hnew
    have hlen := length_newWithFlags hnew
    have his := computeC3_isC3 (fun b hb' => h.head b (hb b hb')) hc3
    have hknown : ∀ d ∈ (w'.mro w.length).tail, d < w.length := by
      intro d hd
      obtain ⟨b, hb', hdb⟩ := (his.mem d).mp hd
      exact h.known b (hb b hb') d hdb
    have hcases {c : ℕ} (hc : c < w'.length) : c < w.length ∨ c = w.length := by omega
    constructor
    · intro c hc
      rcases hcases hc with hc | rfl
      · rw [hold c hc]
        exact h.head c hc
      · exact his.head
    · intro c hc
      rcases hcases hc with hc | rfl
      · rw [hold c hc]
        exact h.nodup c hc
      · exact his.fresh fun b hb' hin => lt_irrefl _ (h.known b (hb b hb') _ hin)
    · intro c hc d hd
      rw [hlen]
      rcases hcases hc with hc | rfl
      · rw [hold c hc] at hd
        exact Nat.lt_succ_of_lt (h.known c hc d hd)
      · obtain ⟨l, hl⟩ : ∃ l, w'.mro w.length = w.length :: l := List.head?_eq_some_iff.mp his.head
        rw [hl] at hd hknown
        rcases List.mem_cons.mp hd with rfl | hd
        · exact Nat.lt_succ_self _
        · exact Nat.lt_succ_of_lt (hknown d hd)

theorem Built.ordered (h : Built w) : Ordered w := by
  induction h with
  | nil => exact ⟨nofun, nofun, nofun⟩
  | step _ hb hnew ih => exact ih.newWithFlags hb hnew

end Built

/-- A class gets an order just when its bases' orders and their list have no cycle, and then the C3 order;
else nothing has changed. -/
theorem c3_linearizes (h : ∀ b ∈ bases, (w.mro b).head? = some b ∧ (w.mro b).Nodup) (self : TypeId) :
    ((∃ m, computeC3 w self bases = .ok m) ↔ Acyclic (orders w bases)) ∧
    (Acyclic (orders w bases) → bases.Nodup) ∧
    (∀ m, computeC3 w self bases = .ok m → IsC3 w self bases m) ∧
    (∀ l, Linearizes (orders w bases) l → ∀ p c q, l = p ++ c :: q →
      c ∈ heads (beyond p (orders w bases)) ∧ Free (beyond p (orders w bases)) c) ∧
    ∀ name entry,
      (∀ ty w', newWithFlags w name bases entry = (.ok ty, w') → computeC3 w ty bases = .ok (w'.mro ty)) ∧
      ∀ e w', newWithFlags w name bases entry = (.error e, w') →
        ∀ c, w'.mro c = w.mro c ∧ w'.subclasses c = w.subclasses c := by
  have hlt : ∀ b ∈ bases, b < w.length := fun b hb => lt_of_head (h b hb).1
  refine ⟨computeC3_ok_iff, nodup_of_acyclic, fun m hm => computeC3_isC3 (fun b hb => (h b hb).1) hm, ?_, ?_⟩
  · rintro l hl p c q rfl
    exact hl.free
  · intro name entry
    constructor
    · exact fun ty w' hnew => (newWithFlags_ok hlt hnew).2.1
    · intro e w' hnew c
      rw [newWithFlags_error hnew]
      exact ⟨rfl, rfl⟩

/-- `object`, two classes over it, and a third over both. -/
def diamond : World :=
  [⟨"object", none, [], [0], [1, 2]⟩, ⟨"A", none, [0], [1, 0], []⟩, ⟨"B", none, [0], [2, 0], []⟩]

theorem diamond_linearizes : IsC3 diamond 3 [1, 2] [3, 1, 2, 0] := by
  obtain ⟨-, -, hc3, -⟩ := @c3_linearizes diamond [1, 2] (by decide) 3
  apply hc3
  decide +kernel

end WeavePy.Types
