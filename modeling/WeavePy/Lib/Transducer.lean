import Mathlib.Data.List.Basic
import Mathlib.Tactic.Common

/-!
Reading a list in steps: a step looks at what is left, and reads a part of it or asks for more.
-/

namespace WeavePy.Transducer

variable {α β γ ε σ : Type}

inductive Step (β : Type) where
  | read (out : List β) (n : ℕ)
  | hold
  deriving DecidableEq, Repr

section Running

variable (step : ℕ → List α → Except ε (Step β)) (stuck : ε)

/-- What is read from position `i` on, and the position at which the reading ends. -/
def run : ℕ → ℕ → List α → Except ε (List β × ℕ)
  | 0, _, _ => .error stuck
  | _ + 1, i, [] => .ok ([], i)
  | fuel + 1, i, s =>
    match step i s with
    | .error e => .error e
    | .ok .hold => .ok ([], i)
    | .ok (.read out n) => (run fuel (i + n) (s.drop n)).map fun r => (out ++ r.1, r.2)

/-- A run with fuel for the whole of the input. -/
def decode (i : ℕ) (s : List α) : Except ε (List β × ℕ) := run step stuck (s.length + 1) i s

end Running

variable {step : ℕ → List α → Except ε (Step β)} {stuck : ε}

/-- Each step reads at least one element, and none past the end. -/
def Advances (step : ℕ → List α → Except ε (Step β)) : Prop :=
  ∀ i s out n, s ≠ [] → step i s = .ok (.read out n) → 0 < n ∧ n ≤ s.length

theorem run_fuel (h : Advances step) {fuel fuel' i : ℕ} {s : List α} (hf : s.length < fuel)
    (hf' : s.length < fuel') : run step stuck fuel i s = run step stuck fuel' i s := by
  induction fuel generalizing fuel' i s with
  | zero => omega
  | succ fuel ih =>
    cases fuel' with
    | zero => omega
    | succ fuel' =>
      cases s with
      | nil => rfl
      | cons a s =>
        rw [run, run]
        · cases hs : step i (a :: s) with
          | error e => rfl
          | ok r =>
            cases r with
            | hold => rfl
            | read out n =>
              obtain ⟨hn, hle⟩ := h i _ out n (by simp) hs
              have hlen : ((a :: s).drop n).length + n = (a :: s).length := by
                rw [List.length_drop]
                omega
              dsimp only
              rw [ih (by omega) (show _ < fuel' by omega)]
        all_goals simp

@[simp]
theorem decode_nil (i : ℕ) : decode step stuck i [] = .ok ([], i) := rfl

theorem decode_error {i : ℕ} {s : List α} {e : ε} (hs : s ≠ []) (h : step i s = .error e) :
    decode step stuck i s = .error e := by
  cases s with
  | nil => exact absurd rfl hs
  | cons a s => rw [decode, run, h]; simp

theorem decode_hold {i : ℕ} {s : List α} (hs : s ≠ []) (h : step i s = .ok .hold) :
    decode step stuck i s = .ok ([], i) := by
  cases s with
  | nil => exact absurd rfl hs
  | cons a s => rw [decode, run, h]; simp

theorem decode_read (ha : Advances step) {i n : ℕ} {s : List α} {out : List β} (hs : s ≠ [])
    (h : step i s = .ok (.read out n)) :
    decode step stuck i s =
      (decode step stuck (i + n) (s.drop n)).map fun r => (out ++ r.1, r.2) := by
  obtain ⟨hn, hle⟩ := ha i s out n hs h
  cases s with
  | nil => exact absurd rfl hs
  | cons a s =>
    have hlen : ((a :: s).drop n).length + n = (a :: s).length := by
      rw [List.length_drop]
      omega
    rw [decode, run, h]
    · dsimp only
      rw [decode, run_fuel ha (by omega) (Nat.lt_succ_self _)]
    · simp

/-- What a run that succeeds does first. -/
theorem decode_ok_cases (ha : Advances step) {i c : ℕ} {s : List α} {o : List β} (hs : s ≠ [])
    (h : decode step stuck i s = .ok (o, c)) :
    step i s = .ok .hold ∧ o = [] ∧ c = i ∨
      ∃ out n o', step i s = .ok (.read out n) ∧ 0 < n ∧ n ≤ s.length ∧ o = out ++ o' ∧
        decode step stuck (i + n) (s.drop n) = .ok (o', c) := by
  cases hstep : step i s with
  | error e =>
    rw [decode_error hs hstep] at h
    cases h
  | ok r =>
    cases r with
    | hold =>
      rw [decode_hold hs hstep] at h
      obtain ⟨rfl, rfl⟩ := Prod.mk.inj (Except.ok.inj h)
      exact .inl ⟨rfl, rfl, rfl⟩
    | read out n =>
      obtain ⟨hn, hle⟩ := ha i s out n hs hstep
      rw [decode_read ha hs hstep] at h
      cases hrest : decode step stuck (i + n) (s.drop n) with
      | error e => rw [hrest] at h; cases h
      | ok r =>
        rw [hrest] at h
        obtain ⟨rfl, rfl⟩ := Prod.mk.inj (Except.ok.inj h)
        exact .inr ⟨out, n, r.1, rfl, hn, hle, rfl, hrest⟩

theorem decode_bounds (ha : Advances step) {i c : ℕ} {s : List α} {o : List β}
    (h : decode step stuck i s = .ok (o, c)) : i ≤ c ∧ c ≤ i + s.length := by
  induction hn : s.length using Nat.strongRecOn generalizing i s o with
  | ind n ih =>
    by_cases hs : s = []
    · subst hs
      rw [decode_nil] at h
      obtain ⟨-, rfl⟩ := Prod.mk.inj (Except.ok.inj h)
      omega
    rcases decode_ok_cases ha hs h with ⟨-, -, rfl⟩ | ⟨out, m, o', -, hm, hle, -, hrest⟩
    · omega
    · have := ih _ (by rw [List.length_drop]; omega) hrest rfl
      rw [List.length_drop] at this
      omega

/-- A run that never asks for more reads to the end. -/
theorem decode_consumes (ha : Advances step) (hhold : ∀ i s, s ≠ [] → step i s ≠ .ok .hold)
    {i c : ℕ} {s : List α} {o : List β} (h : decode step stuck i s = .ok (o, c)) : c = i + s.length := by
  induction hn : s.length using Nat.strongRecOn generalizing i s o with
  | ind n ih =>
    by_cases hs : s = []
    · subst hs
      rw [decode_nil] at h
      obtain ⟨-, rfl⟩ := Prod.mk.inj (Except.ok.inj h)
      simp [← hn]
    rcases decode_ok_cases ha hs h with ⟨hstep, -⟩ | ⟨out, m, o', -, hm, hle, -, hrest⟩
    · exact absurd hstep (hhold i s hs)
    · have := ih _ (by rw [List.length_drop]; omega) hrest rfl
      rw [List.length_drop] at this
      omega

/-- The units of an encoding are read one by one. -/
theorem decode_flatMap (ha : Advances step) (stuck : ε) (enc : γ → List α) (dec : γ → List β)
    (Good : List γ → Prop) (hne : ∀ u us, Good (u :: us) → enc u ≠ [])
    (hstep : ∀ i u us, Good (u :: us) →
      step i (enc u ++ us.flatMap enc) = .ok (.read (dec u) (enc u).length))
    (htail : ∀ u us, Good (u :: us) → Good us) {us : List γ} (h : Good us) (i : ℕ) :
    decode step stuck i (us.flatMap enc) = .ok (us.flatMap dec, i + (us.flatMap enc).length) := by
  induction us generalizing i with
  | nil => rfl
  | cons u us ih =>
    rw [List.flatMap_cons, decode_read ha (by simp [hne u us h]) (hstep i u us h),
      List.drop_left, ih (htail u us h)]
    simp [Except.map, Nat.add_assoc]

section Chunks

variable {step' : ℕ → List α → Except ε (Step β)}

/-- What a step decides, the longer input decides the same way. -/
def Local (step step' : ℕ → List α → Except ε (Step β)) : Prop :=
  ∀ i j s t, s ≠ [] → step i s ≠ .ok .hold →
    (step i s).toOption = (step' j (s ++ t)).toOption

theorem toOption_eq_none {x : Except ε β} : x.toOption = none ↔ ∃ e, x = .error e := by
  cases x <;> simp [Except.toOption]

theorem toOption_eq_some {x : Except ε β} {b : β} : x.toOption = some b ↔ x = .ok b := by
  cases x <;> simp [Except.toOption]

theorem toOption_map {x : Except ε β} {f : β → γ} :
    (x.map f).toOption = x.toOption.map f := by
  cases x <;> rfl

/-- The text of a result. -/
def text (r : Except ε (List β × ℕ)) : Option (List β) := r.toOption.map Prod.fst

theorem text_map {r : Except ε (List β × ℕ)} {out : List β} :
    text (r.map fun r => (out ++ r.1, r.2)) = (text r).map (out ++ ·) := by
  cases r <;> rfl

/-- The text does not depend on where the input stands. -/
theorem text_decode_shift (ha : Advances step)
    (hshift : ∀ i j s, s ≠ [] → (step i s).toOption = (step j s).toOption) (i j : ℕ) (s : List α) :
    text (decode step stuck i s) = text (decode step stuck j s) := by
  induction hn : s.length using Nat.strongRecOn generalizing i j s with
  | ind n ih =>
    by_cases hs : s = []
    · subst hs
      rfl
    have heq := hshift i j s hs
    cases hi : step i s with
    | error e =>
      rw [hi, eq_comm] at heq
      obtain ⟨e', hj⟩ := toOption_eq_none.mp heq
      rw [decode_error hs hi, decode_error hs hj]
      rfl
    | ok r =>
      rw [hi, eq_comm] at heq
      have hj := toOption_eq_some.mp heq
      cases r with
      | hold => rw [decode_hold hs hi, decode_hold hs hj]; rfl
      | read out m =>
        obtain ⟨hm, hle⟩ := ha i s out m hs hi
        rw [decode_read ha hs hi, decode_read ha hs hj, text_map, text_map,
          ih _ (by rw [List.length_drop]; omega) (i + m) (j + m) _ rfl]

/-- An input that may still grow is read as the longer one is. -/
theorem decode_append (ha : Advances step) (ha' : Advances step') (hl : Local step step')
    {i : ℕ} {s : List α} (t : List α) (j : ℕ) :
    (∀ e, decode step stuck i s = .error e → text (decode step' stuck j (s ++ t)) = none) ∧
      ∀ o c, decode step stuck i s = .ok (o, c) →
        ∃ k, text (decode step' stuck j (s ++ t)) =
          (text (decode step' stuck k (s.drop (c - i) ++ t))).map (o ++ ·) := by
  induction hn : s.length using Nat.strongRecOn generalizing i j s with
  | ind n ih =>
    by_cases hs : s = []
    · subst hs
      refine ⟨nofun, fun o c h => ⟨j, ?_⟩⟩
      obtain ⟨rfl, -⟩ := Prod.mk.inj (Except.ok.inj h)
      simp
    have hst : s ++ t ≠ [] := by simp [hs]
    cases hstep : step i s with
    | error e =>
      have heq := hl i j s t hs (by simp [hstep])
      rw [hstep, eq_comm] at heq
      obtain ⟨e', he'⟩ := toOption_eq_none.mp heq
      rw [decode_error hs hstep, decode_error hst he']
      exact ⟨fun _ _ => rfl, nofun⟩
    | ok r =>
      cases r with
      | hold =>
        rw [decode_hold hs hstep]
        refine ⟨nofun, fun o c h => ⟨j, ?_⟩⟩
        obtain ⟨rfl, rfl⟩ := Prod.mk.inj (Except.ok.inj h)
        simp
      | read out m =>
        have heq := hl i j s t hs (by simp [hstep])
        rw [hstep, eq_comm] at heq
        have hstep' := toOption_eq_some.mp heq
        obtain ⟨hm, hle⟩ := ha i s out m hs hstep
        have hdrop : (s ++ t).drop m = s.drop m ++ t := List.drop_append_of_le_length hle
        have hlen : (s.drop m).length = s.length - m := List.length_drop
        obtain ⟨hbad, hgood⟩ := ih (s.drop m).length (by omega) (i := i + m) (j + m) rfl
        rw [decode_read ha hs hstep, decode_read ha' hst hstep', hdrop, text_map]
        cases hrest : decode step stuck (i + m) (s.drop m) with
        | error e =>
          refine ⟨fun _ _ => ?_, nofun⟩
          rw [hbad e hrest]
          rfl
        | ok r =>
          refine ⟨nofun, fun o c h => ?_⟩
          obtain ⟨rfl, rfl⟩ := Prod.mk.inj (Except.ok.inj h)
          obtain ⟨k, hk⟩ := hgood r.1 r.2 hrest
          refine ⟨k, ?_⟩
          have hb := decode_bounds ha hrest
          rw [hk, List.drop_drop, show m + (r.2 - (i + m)) = r.2 - i by omega]
          simp [Option.map_map, Function.comp_def]

/-- The same, wherever the rest of the input stands. -/
theorem decode_splits (ha : Advances step) (ha' : Advances step') (hl : Local step step')
    (hshift : ∀ i j s, s ≠ [] → (step' i s).toOption = (step' j s).toOption) {i : ℕ} {s : List α}
    (t : List α) :
    (∀ e, decode step stuck i s = .error e → text (decode step' stuck i (s ++ t)) = none) ∧
      ∀ o c, decode step stuck i s = .ok (o, c) → ∀ k, text (decode step' stuck i (s ++ t)) =
        (text (decode step' stuck k (s.drop (c - i) ++ t))).map (o ++ ·) := by
  obtain ⟨hbad, hgood⟩ := @decode_append _ _ _ step stuck step' ha ha' hl i s t i
  refine ⟨hbad, fun o c h k => ?_⟩
  obtain ⟨k', hk'⟩ := hgood o c h
  rw [hk', text_decode_shift ha' hshift k' k]

theorem decode_eq_start (ha : Advances step) {i : ℕ} {s : List α} {o : List β}
    (h : decode step stuck i s = .ok (o, i)) : o = [] := by
  by_cases hs : s = []
  · subst hs
    exact (Prod.mk.inj (Except.ok.inj h)).1.symm
  rcases decode_ok_cases ha hs h with ⟨-, rfl, -⟩ | ⟨out, m, o', -, hm, -, -, hrest⟩
  · rfl
  · have := (decode_bounds ha hrest).1
    omega

/-- What is read of an input that may still grow is what the part read decodes to. -/
theorem decode_take (unit : ℕ) (ha : Advances step) (ha' : Advances step')
    (hunit : ∀ i s out n, s ≠ [] → step i s = .ok (.read out n) → unit ∣ n)
    (htake : ∀ i s out n m, s ≠ [] → step i s = .ok (.read out n) → unit ∣ m → n ≤ m →
      m ≤ s.length → step' i (s.take m) = .ok (.read out n))
    {i c : ℕ} {s : List α} {o : List β} (h : decode step stuck i s = .ok (o, c)) :
    unit ∣ c - i ∧ decode step' stuck i (s.take (c - i)) = .ok (o, c) := by
  induction hn : s.length using Nat.strongRecOn generalizing i s o with
  | ind n ih =>
    by_cases hs : s = []
    · subst hs
      obtain ⟨rfl, rfl⟩ := Prod.mk.inj (Except.ok.inj h)
      simp
    rcases decode_ok_cases ha hs h with ⟨-, rfl, rfl⟩ | ⟨out, m, o', hstep, hm, hle, rfl, hrest⟩
    · simp
    · have hlen : (s.drop m).length = s.length - m := List.length_drop
      obtain ⟨hdvd, hrun⟩ := ih (s.drop m).length (by omega) hrest rfl
      have hb := decode_bounds ha hrest
      have hdvd' : unit ∣ c - i := by
        rw [show c - i = m + (c - (i + m)) by omega]
        exact Nat.dvd_add (hunit i s out m hs hstep) hdvd
      refine ⟨hdvd', ?_⟩
      have hstep' := htake i s out m (c - i) hs hstep hdvd' (by omega) (by omega)
      have hne : s.take (c - i) ≠ [] := by
        intro hnil
        have := congrArg List.length hnil
        rw [List.length_take, List.length_nil] at this
        omega
      rw [decode_read ha' hne hstep', List.drop_take, show c - i - m = c - (i + m) by omega, hrun]
      rfl

end Chunks

section Feeding

variable (decoder : σ → Bool → List α → Except ε (List β × ℕ × σ))

/-- The chunks are fed in order, each behind what the call before it has left; only the last call
is final. -/
def feed (st : σ) (tail : List α) : List (List α) → List α → Except ε (List β)
  | [], last => (decoder st true (tail ++ last)).map Prod.fst
  | chunk :: chunks, last =>
    match decoder st false (tail ++ chunk) with
    | .error e => .error e
    | .ok (out, n, st') =>
      (feed st' ((tail ++ chunk).drop n) chunks last).map (out ++ ·)

variable {decoder}

/-- A call that is not final reads a part of the stream as the final call on all of it does. -/
structure Splits (decoder : σ → Bool → List α → Except ε (List β × ℕ × σ))
    (Inv : σ → List α → Prop) : Prop where
  fails : ∀ st s t e, Inv st (s ++ t) → decoder st false s = .error e →
    ((decoder st true (s ++ t)).map Prod.fst).toOption = none
  goes : ∀ st s t out n st', Inv st (s ++ t) → decoder st false s = .ok (out, n, st') →
    n ≤ s.length ∧ Inv st' (s.drop n ++ t) ∧
      ((decoder st true (s ++ t)).map Prod.fst).toOption =
        (((decoder st' true (s.drop n ++ t)).map Prod.fst).toOption).map (out ++ ·)

theorem feed_eq {Inv : σ → List α → Prop} (h : Splits decoder Inv) {st : σ}
    {tail last : List α} {chunks : List (List α)}
    (hinv : Inv st (tail ++ chunks.flatten ++ last)) :
    (feed decoder st tail chunks last).toOption =
      ((decoder st true (tail ++ chunks.flatten ++ last)).map Prod.fst).toOption := by
  induction chunks generalizing st tail with
  | nil => rw [feed, List.flatten_nil, List.append_nil]
  | cons chunk chunks ih =>
    have hsplit : tail ++ (chunk :: chunks).flatten ++ last =
        tail ++ chunk ++ (chunks.flatten ++ last) := by simp
    rw [hsplit] at hinv ⊢
    cases hrun : decoder st false (tail ++ chunk) with
    | error e =>
      rw [feed, hrun, h.fails st _ _ e hinv hrun]
      rfl
    | ok r =>
      obtain ⟨out, n, st'⟩ := r
      obtain ⟨-, hinv', heq⟩ := h.goes st _ _ out n st' hinv hrun
      rw [← List.append_assoc] at hinv'
      rw [feed, hrun, heq]
      dsimp only
      rw [toOption_map, ih hinv', List.append_assoc]

/-- A decoder for chunks: fed in order they give what the whole of them gives, a call that is not
final gives what the part it consumes gives, and a final call consumes everything. -/
structure Chunkable (decoder : σ → Bool → List α → Except ε (List β × ℕ × σ)) : Prop where
  feeds : ∀ st chunks last, (feed decoder st [] chunks last).toOption =
    ((decoder st true (chunks.flatten ++ last)).map Prod.fst).toOption
  consumed : ∀ st s out n st', decoder st false s = .ok (out, n, st') →
    n ≤ s.length ∧ ∃ st'', decoder st true (s.take n) = .ok (out, n, st'')
  whole : ∀ st s out n st', decoder st true s = .ok (out, n, st') → n = s.length

theorem Splits.feeds (h : Splits decoder fun _ _ => True) (st : σ) (chunks : List (List α))
    (last : List α) : (feed decoder st [] chunks last).toOption =
      ((decoder st true (chunks.flatten ++ last)).map Prod.fst).toOption :=
  feed_eq h trivial

end Feeding

section Plain

variable {steps : Bool → ℕ → List α → Except ε (Step β)}

/-- A decoder that carries nothing from call to call. -/
def plain (steps : Bool → ℕ → List α → Except ε (Step β)) (stuck : ε) (st : Unit) (isFinal : Bool)
    (s : List α) : Except ε (List β × ℕ × Unit) :=
  (decode (steps isFinal) stuck 0 s).map fun r => (r.1, r.2, st)

theorem plain_fst (isFinal : Bool) (s : List α) :
    ((plain steps stuck () isFinal s).map Prod.fst).toOption =
      text (decode (steps isFinal) stuck 0 s) := by
  rw [plain]
  cases decode (steps isFinal) stuck 0 s <;> rfl

theorem plain_ok {isFinal : Bool} {s : List α} {o : List β} {n : ℕ}
    (h : plain steps stuck () isFinal s = .ok (o, n, ())) :
    decode (steps isFinal) stuck 0 s = .ok (o, n) := by
  rw [plain] at h
  cases hr : decode (steps isFinal) stuck 0 s with
  | error e => rw [hr] at h; cases h
  | ok r =>
    rw [hr] at h
    obtain ⟨rfl, h'⟩ := Prod.mk.inj (Except.ok.inj h)
    obtain ⟨rfl, -⟩ := Prod.mk.inj h'
    rfl

theorem plain_chunkable (ha : ∀ isFinal, Advances (steps isFinal))
    (hl : Local (steps false) (steps true))
    (hshift : ∀ i j s, s ≠ [] → (steps true i s).toOption = (steps true j s).toOption)
    (htake : ∀ i s out n m, s ≠ [] → steps false i s = .ok (.read out n) → n ≤ m →
      m ≤ s.length → steps true i (s.take m) = .ok (.read out n))
    (hhold : ∀ i s, s ≠ [] → steps true i s ≠ .ok .hold) : Chunkable (plain steps stuck) where
  feeds := by
    apply Splits.feeds
    constructor
    · rintro ⟨⟩ s t e - h
      rw [plain_fst]
      apply (decode_splits (ha false) (ha true) hl hshift t).1 e
      rw [plain] at h
      cases hr : decode (steps false) stuck 0 s with
      | error e' => rw [hr] at h; exact congrArg _ (Except.error.inj h)
      | ok r => rw [hr] at h; cases h
    · rintro ⟨⟩ s t out n ⟨⟩ - h
      have hrun := plain_ok h
      have hb := decode_bounds (ha false) hrun
      refine ⟨by omega, trivial, ?_⟩
      rw [plain_fst, plain_fst]
      simpa using (decode_splits (ha false) (ha true) hl hshift t).2 out n hrun 0
  consumed := by
    rintro ⟨⟩ s out n ⟨⟩ h
    have hrun := plain_ok h
    have hb := decode_bounds (ha false) hrun
    have htaken := (decode_take 1 (ha false) (ha true)
      (fun _ _ _ m _ _ => ⟨m, (Nat.one_mul m).symm⟩) (fun i s out n m hs hr _ => htake i s out n m hs hr)
      hrun).2
    refine ⟨by omega, (), ?_⟩
    rw [plain, show s.take n = s.take (n - 0) from rfl, htaken]
    rfl
  whole := by
    rintro ⟨⟩ s out n ⟨⟩ h
    have := decode_consumes (ha true) hhold (plain_ok h)
    omega

end Plain

end WeavePy.Transducer
