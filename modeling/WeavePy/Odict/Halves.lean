import WeavePy.Odict.Operations

/-!
Whatever the two dicts hold, a leaf half that answers does what the full operation does, and one that
declines has changed nothing.
-/

namespace WeavePy.Odict

open DictMap

variable {Ω V : Type} {t : Table Ω V} {key : Object Ω} {p : LeafProbe Ω} {value : V} {i : ℕ}
  {od od' : OrderedDict Ω V} {last : Bool}

/-- Storing `None` again in the order changes nothing. -/
theorem replaceValue_unit {t t' : Table Ω Unit} {old : Unit} (h : t.replaceValue i () = .ok (t', old)) : t' = t := by
  unfold Table.replaceValue at h
  obtain ⟨b, hb, h⟩ := bind_eq_ok.mp h
  obtain ⟨entries, hset, h⟩ := bind_eq_ok.mp h
  cases h
  have hb' : t.entries[i]? = some b := by
    unfold getUnchecked at hb
    cases hi : t.entries[i]? with
    | none =>
      rw [hi] at hb
      cases hb
    | some c =>
      rw [hi] at hb
      cases hb
      rfl
  obtain ⟨hi, heq⟩ := List.getElem?_eq_some_iff.mp hb'
  rw [setUnchecked_ok hi] at hset
  cases hset
  have hsame : t.entries.set i b = t.entries := by
    rw [← heq]
    exact List.set_getElem_self hi
  show { t with entries := t.entries.set i b } = t
  rw [hsame]

/-- A half that answers agrees with the full operation, and one that declines changes nothing. -/
def Agrees (od : OrderedDict Ω V) (half : Outcome (OrderedDict.Half Ω V)) (full : Outcome (OrderedDict Ω V × Result Ω V)) : Prop :=
  ∀ od' r, half = .ok (od', r) → r.elim (od' = od) fun r => full = .ok (od', r)

theorem agrees_declined {full : Outcome (OrderedDict Ω V × Result Ω V)} : Agrees od (pure (od, none)) full := by
  rintro od' r ⟨⟩
  rfl

variable [LeafOps Ω]

theorem exists_findHashed {e : Table.Entry} (h : t.probeEntry p = .ok e) :
    ∃ r, t.findHashed p.hash p = .ok r ∧ e = entryOf p.hash r := by
  have hhash : Probe.probeHash p = p.hash := rfl
  cases hr : t.findHashed p.hash p with
  | error f =>
    unfold Table.probeEntry at h
    dsimp only at h
    rw [hhash, hr] at h
    cases h
  | ok r =>
    rw [probeEntry_eq hr, Except.ok.injEq] at h
    exact ⟨r, rfl, h.symm⟩

theorem getIndexOf_of_probeEntry {e : Table.Entry} (h : t.probeEntry p = .ok e) : t.getIndexOf p = .ok (match e with
    | .occupied i => some i
    | .vacant _ _ => none) := by
  obtain ⟨r, hr, rfl⟩ := exists_findHashed h
  rw [getIndexOf_eq hr]
  cases r <;> rfl

variable [KeyOps Ω]

theorem map_fst_ok {α β : Type} {x : Outcome (α × β)} {a : α} (h : (fun r => r.1) <$> x = .ok a) :
    ∃ b, x = .ok (a, b) := by
  cases x with
  | error e => cases h
  | ok r =>
    cases h
    exact ⟨r.2, rfl⟩

section Settled

theorem dictInsert_occupied (hp : LeafProbe.new key = some p) (h : t.probeEntry p = .ok (.occupied i)) (value : V) :
    dictInsert false t key value = (do
      let (t, old) ← t.replaceValue i value
      return (t, some old)) := by
  unfold dictInsert dictInsertExact
  rw [if_neg Bool.false_ne_true, hp]
  dsimp only
  rw [h, ok_bind]
  dsimp only
  cases t.replaceValue i value <;> rfl

theorem dictInsert_vacant (hp : LeafProbe.new key = some p) {hash : Int64} {pos : ℕ}
    (h : t.probeEntry p = .ok (.vacant hash pos)) (hf : foreign t p = .ok false) (value : V) :
    dictInsert false t key value = (do return ((← t.pushAt pos hash key value).1, none)) := by
  unfold dictInsert dictInsertExact
  rw [if_neg Bool.false_ne_true, hp]
  dsimp only
  rw [h, ok_bind]
  dsimp only
  rw [hf, ok_bind, if_neg Bool.false_ne_true]
  cases t.pushAt pos hash key value <;> rfl

theorem indexOf_some (hp : LeafProbe.new key = some p) (h : t.getIndexOf p = .ok (some i)) :
    indexOf t key = .ok (some i) := by
  unfold indexOf leafIndex
  rw [hp]
  dsimp only
  rw [h]
  rfl

theorem indexOf_none (hp : LeafProbe.new key = some p) (h : t.getIndexOf p = .ok none) (hf : foreign t p = .ok false) :
    indexOf t key = .ok none := by
  unfold indexOf leafIndex
  rw [hp]
  dsimp only
  rw [h, ok_bind]
  dsimp only
  rw [hf]
  rfl

end Settled

namespace OrderedDict

theorem setitem_fresh {watched : Bool} {main : Table Ω V} {old : Option V}
    (hm : dictInsert watched od.main key value = .ok (main, old))
    (hf : old = none ∨ indexOf od.orderOf key = .ok none) :
    od.setitem watched key value = (do
      let r ← dictInsert watched od.orderOf key ()
      return (⟨main, some r.1⟩, .ok .noneObject)) := by
  unfold setitem
  dsimp only
  rw [hm, ok_bind]
  cases old with
  | none => cases dictInsert watched od.orderOf key () <;> rfl
  | some old =>
    rcases hf with hf | hf
    · cases hf
    · rw [hf]
      cases dictInsert watched od.orderOf key () <;> rfl

theorem setitem_present {watched : Bool} {main : Table Ω V} {old : V}
    (hm : dictInsert watched od.main key value = .ok (main, some old)) (hi : indexOf od.orderOf key = .ok (some i)) :
    od.setitem watched key value = .ok (⟨main, some od.orderOf⟩, .ok .noneObject) := by
  unfold setitem
  dsimp only
  rw [hm, ok_bind]
  dsimp only [Option.isNone_some]
  rw [if_neg Bool.false_ne_true, hi]
  rfl

omit [KeyOps Ω] in
theorem replaceValue_self {order : Table Ω Unit} (h : SlotsOk order) (hp : order.probeEntry p = .ok (.occupied i)) :
    order.replaceValue i () = .ok (order, ()) := by
  obtain ⟨r, hr, he⟩ := exists_findHashed hp
  obtain ⟨r', hr', hf⟩ := h.findHashed p.hash p
  rw [hr, Except.ok.injEq] at hr'
  subst hr'
  cases r with
  | error pos => cases he
  | ok j =>
    cases he
    obtain ⟨b, hb, -⟩ := hf
    obtain ⟨t', hrun, -⟩ := h.replaceValue hb ()
    have := replaceValue_unit hrun
    subst this
    exact hrun

theorem setitemLeaf_agrees (watched : Bool) (horder : ∀ order, od.order = some order → SlotsOk order) (key : Object Ω)
    (value : V) : Agrees od (od.setitemLeaf watched key value) (od.setitem watched key value) := by
  unfold setitemLeaf
  cases watched with
  | true => exact agrees_declined
  | false =>
    rw [if_neg Bool.false_ne_true]
    cases ho : od.order with
    | none => exact agrees_declined
    | some order =>
      cases hp : LeafProbe.new key with
      | none => exact agrees_declined
      | some p =>
        intro od' r h
        dsimp only at h
        obtain ⟨inMain, hm, h⟩ := bind_eq_ok.mp h
        obtain ⟨inOrder, hn, h⟩ := bind_eq_ok.mp h
        obtain ⟨fm, hfm, h⟩ := bind_eq_ok.mp h
        obtain ⟨fo, hfo, h⟩ := bind_eq_ok.mp h
        have hof : od.orderOf = order := by
          unfold orderOf
          rw [ho]
          rfl
        have hindex := getIndexOf_of_probeEntry hn
        have hmiss : ∀ {fresh : Bool}, ¬ (fresh && (fm || fo)) = true → fresh = true → fm = false ∧ fo = false := by
          intro fresh hc hfresh
          rw [hfresh, Bool.true_and, Bool.or_eq_true, not_or, Bool.not_eq_true, Bool.not_eq_true] at hc
          exact hc
        split_ifs at h with hseen
        · cases h
          rfl
        · cases inMain with
          | occupied i =>
            obtain ⟨main, hrep, h⟩ := bind_eq_ok.mp h
            obtain ⟨old, hrep⟩ := map_fst_ok hrep
            have hins : dictInsert false od.main key value = .ok (main, some old) := by
              rw [dictInsert_occupied hp hm, hrep]
              rfl
            cases inOrder with
            | occupied j =>
              cases h
              have hpresent := setitem_present hins (hof.symm ▸ indexOf_some hp hindex)
              rw [hof] at hpresent
              exact hpresent
            | vacant hash pos =>
              rw [(hmiss hseen rfl).2] at hfo
              obtain ⟨order', hpush, h⟩ := bind_eq_ok.mp h
              obtain ⟨k, hpush⟩ := map_fst_ok hpush
              cases h
              have hfresh := setitem_fresh hins (.inr (hof.symm ▸ indexOf_none hp hindex hfo))
              rw [hof, dictInsert_vacant hp hn hfo, hpush] at hfresh
              exact hfresh
          | vacant hash pos =>
            rw [(hmiss hseen rfl).1] at hfm
            rw [(hmiss hseen rfl).2] at hfo
            obtain ⟨main, hpush, h⟩ := bind_eq_ok.mp h
            obtain ⟨k, hpush⟩ := map_fst_ok hpush
            have hins : dictInsert false od.main key value = .ok (main, none) := by
              rw [dictInsert_vacant hp hm hfm, hpush]
              rfl
            have hfresh := setitem_fresh hins (.inl rfl)
            rw [hof] at hfresh
            cases inOrder with
            | occupied j =>
              cases h
              rw [dictInsert_occupied hp hn, replaceValue_self (horder order ho) hn] at hfresh
              exact hfresh
            | vacant hash pos =>
              obtain ⟨order', hpush', h⟩ := bind_eq_ok.mp h
              obtain ⟨k', hpush'⟩ := map_fst_ok hpush'
              cases h
              rw [dictInsert_vacant hp hn hfo, hpush'] at hfresh
              exact hfresh

omit [KeyOps Ω] [LeafOps Ω] in
theorem eta {order : Table Ω Unit} (ho : od.order = some order) : (⟨od.main, some order⟩ : OrderedDict Ω V) = od := by
  rw [← ho]

omit [KeyOps Ω] in
/-- What a native lookup of a settled place finds there. -/
theorem getIndexOf_found {U : Type} {t : Table Ω U} (h : SlotsOk t) {found : Option ℕ}
    (hi : t.getIndexOf p = .ok found) :
    found.elim (∀ b ∈ t.entries, b.hash = p.hash → leafCompare p.key b.key ≠ some true)
      fun i => ∃ b, t.entries[i]? = some b ∧ leafCompare p.key b.key = some true := by
  obtain ⟨r, hr, hf⟩ := h.findHashed p.hash p
  rw [getIndexOf_eq hr, Except.ok.injEq] at hi
  subst hi
  cases r with
  | ok i =>
    obtain ⟨b, hb, _, he⟩ := hf
    exact ⟨b, hb, beq_iff_eq.mp he⟩
  | error pos =>
    intro b hb hh hc
    have hmiss : Probe.probeEq p b.key = false := hf.1 b hb hh
    simp [Probe.probeEq, hc] at hmiss

theorem leafUnlink_ok {order : Table Ω Unit} {r : Option V} (hp : LeafProbe.new key = some p)
    (h : od.leafUnlink order i p = .ok (od', r)) :
    r.elim (od' = od) fun v => ∃ main k order' node, dictRemove od.main key = .ok (main, some (k, v)) ∧
      order.shiftRemoveIndex i = .ok (order', node) ∧ od' = ⟨main, some order'⟩ := by
  unfold leafUnlink at h
  obtain ⟨found, hfound, h⟩ := bind_eq_ok.mp h
  cases found with
  | none =>
    cases h
    rfl
  | some j =>
    obtain ⟨⟨main, removed⟩, hrem, h⟩ := bind_eq_ok.mp h
    cases removed with
    | none =>
      cases h
      rfl
    | some e =>
      obtain ⟨⟨order', node⟩, hnode, h⟩ := bind_eq_ok.mp h
      cases h
      refine ⟨main, e.1, order', node, ?_, hnode, rfl⟩
      unfold dictRemove
      rw [indexOf_some hp hfound]
      exact hrem

theorem popLeaf_agrees (watched : Bool) (horder : ∀ order, od.order = some order → SlotsOk order) (key : Object Ω)
    (default : Option V) : Agrees od (od.popLeaf watched key default) (od.pop key default) := by
  unfold popLeaf
  cases watched with
  | true => exact agrees_declined
  | false =>
    rw [if_neg Bool.false_ne_true]
    cases ho : od.order with
    | none => exact agrees_declined
    | some order =>
      cases hp : LeafProbe.new key with
      | none => exact agrees_declined
      | some p =>
        intro od' r h
        dsimp only at h
        obtain ⟨found, hfound, h⟩ := bind_eq_ok.mp h
        have hplace := getIndexOf_found (horder order ho) hfound
        unfold pop
        rw [ho]
        dsimp only
        cases found with
        | none =>
          obtain ⟨f, hf, h⟩ := bind_eq_ok.mp h
          cases f with
          | true =>
            cases h
            rfl
          | false =>
            cases h
            have hnone : dictRemove order key = .ok (order, none) := by
              unfold dictRemove
              rw [indexOf_none hp hfound hf]
              rfl
            rw [hnone]
            show Except.ok ((⟨od.main, some order⟩ : OrderedDict Ω V), _) = Except.ok (od, _)
            rw [eta ho]
        | some i =>
          obtain ⟨⟨od₁, v⟩, hunlink, h⟩ := bind_eq_ok.mp h
          cases h
          have hcase := leafUnlink_ok hp hunlink
          cases v with
          | none => exact hcase
          | some v =>
            obtain ⟨main, k, order', node, hrem, hnode, rfl⟩ := hcase
            obtain ⟨b, hb, -⟩ := hplace
            obtain ⟨t', hrun, -⟩ := (horder order ho).shiftRemoveIndex i
            rw [hb, hnode, Except.ok.injEq, Prod.mk.injEq] at hrun
            have hnode' : dictRemove order key = .ok (order', node) := by
              unfold dictRemove
              rw [indexOf_some hp hfound]
              exact hnode
            rw [hnode', hrun.2, ok_bind]
            dsimp only [Option.map_some, Option.isNone_some]
            rw [if_neg Bool.false_ne_true, hrem]
            rfl

theorem popitemLeaf_agrees (watched : Bool) (horder : ∀ order, od.order = some order → SlotsOk order) (last : Bool) :
    Agrees od (od.popitemLeaf watched last) (od.popitem last) := by
  unfold popitemLeaf
  cases watched with
  | true => exact agrees_declined
  | false =>
    rw [if_neg Bool.false_ne_true]
    cases ho : od.order with
    | none => exact agrees_declined
    | some order =>
      have hof : od.orderOf = order := by
        unfold orderOf
        rw [ho]
        rfl
      intro od' r h
      unfold popitem
      dsimp only at h ⊢
      rw [hof]
      split_ifs at h ⊢ with hempty
      · cases h
        show Except.ok ((⟨od.main, some order⟩ : OrderedDict Ω V), _) = Except.ok (od, _)
        rw [eta ho]
      · cases hb : order.entries[endOf order last]? with
        | none =>
          rw [hb] at h
          cases h
          rfl
        | some b =>
          rw [hb] at h
          dsimp only at h
          cases hp : LeafProbe.new b.key with
          | none =>
            rw [hp] at h
            cases h
            rfl
          | some p =>
            rw [hp] at h
            obtain ⟨⟨od₁, v⟩, hunlink, h⟩ := bind_eq_ok.mp h
            cases h
            have hcase := leafUnlink_ok hp hunlink
            cases v with
            | none => exact hcase
            | some v =>
              obtain ⟨main, k, order', node, hrem, hnode, rfl⟩ := hcase
              obtain ⟨t', hrun, -⟩ := (horder order ho).shiftRemoveIndex (endOf order last)
              rw [hb, hnode, Except.ok.injEq, Prod.mk.injEq] at hrun
              unfold popNode
              rw [hnode, hrun.2, ok_bind]
              dsimp only [Option.map_some]
              rw [hrem]
              rfl

variable [LawfulKeys Ω] [LawfulLeaf Ω]

theorem moveToEndLeaf_agrees (watched : Bool) (horder : ∀ order, od.order = some order → SlotsOk order)
    (hkeys : ∀ order, od.order = some order → KeysOk order.entries) (key : KeyRef Ω) (last : Bool) : Agrees od (od.moveToEndLeaf watched key.obj last) (od.moveToEnd key last) := by
  unfold moveToEndLeaf
  cases watched with
  | true => exact agrees_declined
  | false =>
    rw [if_neg Bool.false_ne_true]
    cases ho : od.order with
    | none => exact agrees_declined
    | some order =>
      cases hp : LeafProbe.new key.obj with
      | none => exact agrees_declined
      | some p =>
        have hof : od.orderOf = order := by
          unfold orderOf
          rw [ho]
          rfl
        obtain ⟨hkey, hhash⟩ := LeafProbe.new_some hp
        have hself := leafCompare_self hp
        have hk := hkeys order ho
        intro od' r h
        dsimp only at h
        obtain ⟨found, hfound, h⟩ := bind_eq_ok.mp h
        have hplace := getIndexOf_found (horder order ho) hfound
        have hsame : ∀ b, order.entries[endOf order last]? = some b → key.same b.key = true →
            b.hash = p.hash ∧ leafCompare p.key b.key = some true := by
          intro b hb hs
          rw [hkey, hhash, key.same_eq _ hs]
          exact ⟨by rw [hk.hashed b (List.mem_of_getElem? hb), key.same_eq _ hs], hself⟩
        unfold moveToEnd
        rw [hof]
        dsimp only
        rw [eta ho]
        cases found with
        | none =>
          obtain ⟨f, hf, h⟩ := bind_eq_ok.mp h
          cases f with
          | true =>
            cases h
            rfl
          | false =>
            cases h
            have hno : ¬ (order.entries[endOf order last]?.any fun b => key.same b.key) = true := by
              rw [Option.any_eq_true]
              rintro ⟨b, hb, hs⟩
              obtain ⟨hh, hc⟩ := hsame b hb hs
              exact hplace b (List.mem_of_getElem? hb) hh hc
            rw [if_neg hno, indexOf_none hp hfound hf]
            dsimp only [Option.elim_some]
            split_ifs <;> rfl
        | some i =>
          obtain ⟨b, hb, hc⟩ := hplace
          have hi : i < order.entries.length := (List.getElem?_eq_some_iff.mp hb).1
          rw [if_neg (by omega)]
          split_ifs with hend
          · obtain ⟨c, hc', hs⟩ := (Option.any_eq_true _ _).mp hend
            have hc₂ := (hsame c hc' hs).2
            rw [hkey] at hc hc₂
            have heq₁ : dictKeyEq key.obj b.key = true := (leafCompare_eq hc).symm
            have heq₂ : dictKeyEq key.obj c.key = true := (leafCompare_eq hc₂).symm
            have heq : i = endOf order last :=
              hk.eq_of_eq hb hc' (LawfulKeys.equiv.trans (LawfulKeys.equiv.symm heq₁) heq₂)
            dsimp only at h
            rw [if_neg (not_not.mpr heq)] at h
            cases h
            rfl
          · rw [indexOf_some hp hfound, ok_bind]
            dsimp only at h ⊢
            by_cases hne : i ≠ endOf order last
            · rw [if_pos hne] at h
              rw [if_pos ⟨hi, hne⟩]
              obtain ⟨order', hmove, h⟩ := bind_eq_ok.mp h
              cases h
              rw [hmove]
              rfl
            · rw [if_neg hne] at h
              rw [if_neg fun hc => hne hc.2]
              cases h
              rfl

end OrderedDict

end WeavePy.Odict
