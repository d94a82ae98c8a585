import WeavePy.Lib.Transducer

/-!
Readers that sometimes read too early: at the end of a chunk they read an element that the next
chunk could have made longer.
-/

namespace WeavePy.Transducer

variable {α β ε : Type}

section Reaching

variable (step : ℕ → List α → Except ε (Step β))

/-- A run from `s` takes a turn at `t`. -/
inductive Reaches : ℕ → List α → ℕ → List α → Prop where
  | here (i : ℕ) (s : List α) : Reaches i s i s
  | read {i j n : ℕ} {s t : List α} {out : List β} (hs : s ≠ []) (h : step i s = .ok (.read out n))
      (hr : Reaches (i + n) (s.drop n) j t) : Reaches i s j t

variable {step} {stuck : ε}

/-- A run fails exactly where one of its turns does. -/
theorem text_eq_none_iff (ha : Advances step) (i : ℕ) (s : List α) : text (decode step stuck i s) = none ↔
    ∃ j t e, Reaches step i s j t ∧ t ≠ [] ∧ step j t = .error e := by
  induction hn : s.length using Nat.strongRecOn generalizing i s with
  | ind n ih =>
    by_cases hs : s = []
    · subst hs
      refine iff_of_false nofun ?_
      rintro ⟨j, t, e, hr, ht, -⟩
      cases hr with
      | here => exact ht rfl
      | read hs => exact hs rfl
    cases hstep : step i s with
    | error e =>
      rw [decode_error hs hstep]
      exact iff_of_true rfl ⟨i, s, e, .here i s, hs, hstep⟩
    | ok r =>
      cases r with
      | hold =>
        rw [decode_hold hs hstep]
        refine iff_of_false nofun ?_
        rintro ⟨j, t, e, hr, ht, herr⟩
        cases hr with
        | here => rw [hstep] at herr; cases herr
        | read hs' h => rw [hstep] at h; cases h
      | read out m =>
        obtain ⟨hm, hle⟩ := ha i s out m hs hstep
        rw [decode_read ha hs hstep, text_map, Option.map_eq_none_iff,
          ih (s.drop m).length (by rw [List.length_drop]; omega) (i + m) (s.drop m) rfl]
        constructor
        · rintro ⟨j, t, e, hr, ht⟩
          exact ⟨j, t, e, .read hs hstep hr, ht⟩
        · rintro ⟨j, t, e, hr, ht, herr⟩
          cases hr with
          | here => rw [hstep] at herr; cases herr
          | read hs' h hr =>
            rw [hstep] at h
            obtain ⟨-, rfl⟩ := Step.read.inj (Except.ok.inj h)
            exact ⟨j, t, e, hr, ht, herr⟩

end Reaching

section Early

variable {step step' : ℕ → List α → Except ε (Step β)} {stuck : ε} {early grows : List α → Prop}

/-- The text of a final run. -/
def final (step' : ℕ → List α → Except ε (Step β)) (stuck : ε) (s : List α) : Option (List β) :=
  text (decode step' stuck 0 s)

theorem final_read (ha : Advances step') (hshift : ∀ i j s, s ≠ [] → (step' i s).toOption = (step' j s).toOption)
    {j m : ℕ} {s : List α} {out : List β} (hs : s ≠ []) (hstep : step' j s = .ok (.read out m)) :
    final step' stuck s = (final step' stuck (s.drop m)).map (out ++ ·) := by
  unfold final
  rw [text_decode_shift ha hshift 0 j s, decode_read ha hs hstep, text_map, text_decode_shift ha hshift (j + m) 0]

/-- The steps of `step` are those of `step'` on any longer input, but for `early` inputs: these it
reads whole, and what comes next would have been read with them when it `grows`. -/
structure ReadsEarly (step step' : ℕ → List α → Except ε (Step β)) (stuck : ε) (early grows : List α → Prop) : Prop where
  advances : Advances step
  advances' : Advances step'
  shift : ∀ i j s, s ≠ [] → (step' i s).toOption = (step' j s).toOption
  here : ∀ i j s t, s ≠ [] → ¬ early s → step i s ≠ .ok .hold → (step i s).toOption = (step' j (s ++ t)).toOption
  nonempty : ∀ s, early s → s ≠ []
  reads : ∀ s, early s → ∃ out, (∀ i, step i s = .ok (.read out s.length)) ∧
    (∀ t, ¬ grows t → final step' stuck (s ++ t) = (final step' stuck t).map (out ++ ·)) ∧
    ∀ t, grows t → (final step' stuck (s ++ t) = none ∧ final step' stuck t = none) ∨
      ∃ a b, final step' stuck (s ++ t) = some a ∧ final step' stuck t = some b ∧ a.length < out.length + b.length

/-- What a run that may wait does: it fails, or reads a part as the longer run does, or reads an
early end. -/
theorem decode_early (h : ReadsEarly step step' stuck early grows) (i : ℕ) (s : List α) :
    ((∃ e, decode step stuck i s = .error e) ∧ ∀ t, final step' stuck (s ++ t) = none) ∨
    (∃ o n, decode step stuck i s = .ok (o, n) ∧ (¬ ∃ j r, Reaches step i s j r ∧ early r) ∧
      ∀ t, final step' stuck (s ++ t) = (final step' stuck (s.drop (n - i) ++ t)).map (o ++ ·)) ∨
    ∃ o out j r, decode step stuck i s = .ok (o ++ out, i + s.length) ∧ Reaches step i s j r ∧ early r ∧
      (∀ j, step j r = .ok (.read out r.length)) ∧
      ∀ t, final step' stuck (s ++ t) = (final step' stuck (r ++ t)).map (o ++ ·) := by
  induction hn : s.length using Nat.strongRecOn generalizing i s with
  | ind n ih =>
    by_cases hs : s = []
    · subst hs
      refine .inr (.inl ⟨[], i, rfl, ?_, fun t => by simp⟩)
      rintro ⟨j, r, hr, hearly⟩
      cases hr with
      | here => exact h.nonempty _ hearly rfl
      | read hs => exact hs rfl
    by_cases hearly : early s
    · obtain ⟨out, hread, -⟩ := h.reads s hearly
      refine .inr (.inr ⟨[], out, i, s, ?_, .here i s, hearly, hread, fun t => by simp⟩)
      rw [decode_read h.advances hs (hread i), List.drop_length, decode_nil]
      simp [Except.map, hn]
    have hhere := fun t => h.here i 0 s t hs hearly
    have hst : ∀ t, s ++ t ≠ [] := fun t => by simp [hs]
    cases hstep : step i s with
    | error e =>
      refine .inl ⟨⟨e, decode_error hs hstep⟩, fun t => ?_⟩
      have heq := hhere t (by simp [hstep])
      rw [hstep, eq_comm] at heq
      obtain ⟨e', he'⟩ := toOption_eq_none.mp heq
      unfold final
      rw [decode_error (hst t) he']
      rfl
    | ok r =>
      cases r with
      | hold =>
        refine .inr (.inl ⟨[], i, decode_hold hs hstep, ?_, fun t => by simp⟩)
        rintro ⟨j, r, hr, hearly'⟩
        cases hr with
        | here => exact hearly hearly'
        | read hs' h => rw [hstep] at h; cases h
      | read out m =>
        obtain ⟨hm, hle⟩ := h.advances i s out m hs hstep
        have hmore : ∀ t, final step' stuck (s ++ t) = (final step' stuck (s.drop m ++ t)).map (out ++ ·) := by
          intro t
          have heq := hhere t (by simp [hstep])
          rw [hstep, eq_comm] at heq
          rw [final_read h.advances' h.shift (hst t) (toOption_eq_some.mp heq), List.drop_append_of_le_length hle]
        have hlen : (s.drop m).length = s.length - m := List.length_drop
        rcases ih (s.drop m).length (by omega) (i + m) (s.drop m) rfl with
          ⟨⟨e, he⟩, hnone⟩ | ⟨o, c, hdec, hno, htext⟩ | ⟨o, out', j, r, hdec, hr, hearly', hread, htext⟩
        · refine .inl ⟨⟨e, ?_⟩, fun t => ?_⟩
          · rw [decode_read h.advances hs hstep, he]
            rfl
          · rw [hmore, hnone]
            rfl
        · have hb := decode_bounds h.advances hdec
          refine .inr (.inl ⟨out ++ o, c, ?_, ?_, fun t => ?_⟩)
          · rw [decode_read h.advances hs hstep, hdec]
            rfl
          · rintro ⟨j, r, hr, hearly'⟩
            cases hr with
            | here => exact hearly hearly'
            | read hs' h' hr =>
              rw [hstep] at h'
              obtain ⟨-, rfl⟩ := Step.read.inj (Except.ok.inj h')
              exact hno ⟨j, r, hr, hearly'⟩
          · have hdrop : m + (c - (i + m)) = c - i := by omega
            rw [hmore, htext, List.drop_drop, hdrop, Option.map_map]
            simp [Function.comp_def]
        · refine .inr (.inr ⟨out ++ o, out', j, r, ?_, .read hs hstep hr, hearly', hread, fun t => ?_⟩)
          · have hend : i + m + (s.drop m).length = i + s.length := by omega
            rw [decode_read h.advances hs hstep, hdec, hend]
            simp [Except.map, hn]
          · rw [hmore, htext, Option.map_map]
            simp [Function.comp_def]

/-- A chunk but the last ends in an early read, and what comes next would have been read with it. -/
def Cut (step : ℕ → List α → Except ε (Step β)) (stuck : ε) (early grows : List α → Prop) :
    List α → List (List α) → List α → Prop
  | _, [], _ => False
  | tail, chunk :: chunks, last =>
    ((∃ j r, Reaches step 0 (tail ++ chunk) j r ∧ early r) ∧ grows (chunks.flatten ++ last)) ∨
      ∃ out n, decode step stuck 0 (tail ++ chunk) = .ok (out, n) ∧
        Cut step stuck early grows ((tail ++ chunk).drop n) chunks last

variable {steps : Bool → ℕ → List α → Except ε (Step β)}

theorem cut_iff {tail chunk last : List α} {chunks : List (List α)} {out : List β} {n : ℕ}
    (hdec : decode (steps false) stuck 0 (tail ++ chunk) = .ok (out, n))
    (hharmless : (∃ j r, Reaches (steps false) 0 (tail ++ chunk) j r ∧ early r) → ¬ grows (chunks.flatten ++ last)) :
    (((∃ j r, Reaches (steps false) 0 (tail ++ chunk) j r ∧ early r) ∧ grows (chunks.flatten ++ last)) ∨
      ∃ out n, decode (steps false) stuck 0 (tail ++ chunk) = .ok (out, n) ∧
        Cut (steps false) stuck early grows ((tail ++ chunk).drop n) chunks last) ↔
      Cut (steps false) stuck early grows ((tail ++ chunk).drop n) chunks last := by
  constructor
  · rintro (⟨hreach, hgrow⟩ | ⟨out', n', hdec', hcut⟩)
    · exact absurd hgrow (hharmless hreach)
    · rw [hdec] at hdec'
      obtain ⟨-, rfl⟩ := Prod.mk.inj (Except.ok.inj hdec')
      exact hcut
  · exact fun hcut => .inr ⟨out, n, hdec, hcut⟩

/-- Fed in chunks, a reader fails as it does on the whole, and otherwise gives the same text exactly
when no chunk ends in the middle of what it reads early. -/
theorem feed_early (h : ReadsEarly (steps false) (steps true) stuck early grows) (tail : List α) (chunks : List (List α))
    (last : List α) :
    (final (steps true) stuck (tail ++ chunks.flatten ++ last) = none ∧
      (feed (plain steps stuck) () tail chunks last).toOption = none) ∨
    ∃ a b, final (steps true) stuck (tail ++ chunks.flatten ++ last) = some a ∧
      (feed (plain steps stuck) () tail chunks last).toOption = some b ∧ a.length ≤ b.length ∧
      (Cut (steps false) stuck early grows tail chunks last → a.length < b.length) ∧
      (¬ Cut (steps false) stuck early grows tail chunks last → a = b) := by
  induction chunks generalizing tail with
  | nil =>
    rw [feed, plain_fst, List.flatten_nil, List.append_nil]
    change (final _ _ _ = none ∧ final _ _ _ = none) ∨ _
    cases hwhole : final (steps true) stuck (tail ++ last) with
    | none => exact .inl ⟨rfl, rfl⟩
    | some a => exact .inr ⟨a, a, rfl, hwhole, Nat.le_refl _, fun hcut => hcut.elim, fun _ => rfl⟩
  | cons chunk chunks ih =>
    have hsplit : tail ++ (chunk :: chunks).flatten ++ last = tail ++ chunk ++ (chunks.flatten ++ last) := by simp
    rw [hsplit, feed]
    unfold Cut
    rcases decode_early h 0 (tail ++ chunk) with
      ⟨⟨e, he⟩, hnone⟩ | ⟨o, n, hdec, hno, htext⟩ | ⟨o, out, j, r, hdec, hr, hearly, hread, htext⟩
    · refine .inl ⟨hnone _, ?_⟩
      rw [plain, he]
      rfl
    · have hplain : plain steps stuck () false (tail ++ chunk) = .ok (o, n, ()) := by
        rw [plain, hdec]
        rfl
      have hcut := @cut_iff _ _ _ stuck early grows steps tail chunk last chunks _ _ hdec (fun hreach _ => hno hreach)
      rw [hplain, htext, hcut]
      dsimp only
      rw [toOption_map, Nat.sub_zero, ← List.append_assoc]
      rcases ih ((tail ++ chunk).drop n) with ⟨hwhole, hfed⟩ | ⟨a, b, hwhole, hfed, hle, hlt, heq⟩
      · rw [hwhole, hfed]
        exact .inl ⟨rfl, rfl⟩
      · rw [hwhole, hfed]
        refine .inr ⟨o ++ a, o ++ b, rfl, rfl, ?_, fun hcut => ?_, fun hcut => ?_⟩
        · simpa using hle
        · simpa using hlt hcut
        · rw [heq hcut]
    · have hplain : plain steps stuck () false (tail ++ chunk) = .ok (o ++ out, (tail ++ chunk).length, ()) := by
        rw [plain, hdec, Nat.zero_add]
        rfl
      obtain ⟨out', hread', halone, htogether⟩ := h.reads r hearly
      obtain ⟨rfl, -⟩ := Step.read.inj (Except.ok.inj ((hread' 0).symm.trans (hread 0)))
      have hnext := ih []
      rw [List.nil_append] at hnext
      rw [hplain, htext]
      dsimp only
      rw [toOption_map, List.drop_length]
      by_cases hgrow : grows (chunks.flatten ++ last)
      · rcases htogether _ hgrow with ⟨hwhole, hrest⟩ | ⟨a, b, hwhole, hrest, hlt⟩
        · rcases hnext with ⟨-, hfed⟩ | ⟨a', b', hwhole', -⟩
          · rw [hwhole, hfed]
            exact .inl ⟨rfl, rfl⟩
          · rw [hrest] at hwhole'
            cases hwhole'
        · rcases hnext with ⟨hwhole', -⟩ | ⟨a', b', hwhole', hfed, hle, -⟩
          · rw [hrest] at hwhole'
            cases hwhole'
          · rw [hrest] at hwhole'
            obtain rfl := Option.some.inj hwhole'
            have hlonger : (o ++ a).length < (o ++ out' ++ b').length := by
              simp only [List.length_append]
              omega
            rw [hwhole, hfed]
            refine .inr ⟨o ++ a, o ++ out' ++ b', rfl, rfl, Nat.le_of_lt hlonger, fun _ => hlonger, fun hcut => ?_⟩
            exact absurd (.inl ⟨⟨j, r, hr, hearly⟩, hgrow⟩) hcut
      · have hdec' : decode (steps false) stuck 0 (tail ++ chunk) = .ok (o ++ out', (tail ++ chunk).length) := by
          rw [hdec, Nat.zero_add]
        have hcut := @cut_iff _ _ _ stuck early grows steps tail chunk last chunks _ _ hdec' (fun _ hgrow' => hgrow hgrow')
        rw [hcut, halone _ hgrow, Option.map_map, List.drop_length]
        rcases hnext with ⟨hwhole, hfed⟩ | ⟨a, b, hwhole, hfed, hle, hlt, heq⟩
        · rw [hwhole, hfed]
          exact .inl ⟨rfl, rfl⟩
        · rw [hwhole, hfed]
          refine .inr ⟨o ++ (out' ++ a), o ++ out' ++ b, rfl, rfl, ?_, fun hcut => ?_, fun hcut => ?_⟩
          · simpa using hle
          · simpa using hlt hcut
          · rw [heq hcut, List.append_assoc]

end Early

section Mapping

variable {γ σ : Type} {decoder : σ → Bool → List α → Except ε (List β × ℕ × σ)}

theorem feed_map (f : β → γ) (st : σ) (tail : List α) (chunks : List (List α)) (last : List α) :
    feed (fun st isFinal s => (decoder st isFinal s).map fun r => (r.1.map f, r.2)) st tail chunks last =
      (feed decoder st tail chunks last).map (List.map f) := by
  induction chunks generalizing st tail with
  | nil =>
    rw [feed, feed]
    cases decoder st true (tail ++ last) <;> rfl
  | cons chunk chunks ih =>
    rw [feed, feed]
    cases decoder st false (tail ++ chunk) with
    | error e => rfl
    | ok r =>
      obtain ⟨out, n, st'⟩ := r
      change Except.map _ (feed _ st' _ chunks last) = Except.map _ (Except.map _ (feed decoder st' _ chunks last))
      rw [ih]
      cases feed decoder st' ((tail ++ chunk).drop n) chunks last with
      | error e => rfl
      | ok rest => simp [Except.map]

end Mapping

end WeavePy.Transducer
