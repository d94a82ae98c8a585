import WeavePy.Codecs.Sniffing
import WeavePy.Codecs.Utf7

/-!
The loop of the UTF-7 decoder, taken a whole shift at a time.
-/

namespace WeavePy.Codecs

open Transducer (Advances Local Chunkable)

/-- A shift read up to the character that ends it, `n` bytes from the start, or up to the end of
the input. -/
inductive Shift where
  | closed (b : Bits) (out : List ℕ) (n : ℕ) (ch : UInt8)
  | unended (b : Bits) (out : List ℕ)

def scanShift (b : Bits) (out : List ℕ) (n : ℕ) : List UInt8 → Shift
  | [] => .unended b out
  | ch :: s =>
    if isBase64 ch then scanShift (b.push ch).1 (out ++ (b.push ch).2) (n + 1) s
    else .closed b out n ch

/-- The handler's answer behind the points `out` that the shift has given. -/
def DecCtx.after (ctx : DecCtx) (out : List ℕ) (start : ℕ) (s : List UInt8) (n span : ℕ)
    (reason : String) : Except CodecError (Transducer.Step ℕ) :=
  (ctx.onError (start + n) (s.drop n) span reason).map fun r => .read (out ++ r.1) (n + r.2)

/-- A shift at the start of `s`, with the character behind it. -/
def shiftUnit (ctx : DecCtx) (isFinal : Bool) (i : ℕ) (s : List UInt8) :
    Except CodecError (Transducer.Step ℕ) :=
  match scanShift .zero [] 1 s.tail with
  | .unended b out =>
    if isFinal = false then .ok .hold
    else if b.pending then ctx.after out i s 0 s.length "unterminated shift sequence"
    else .ok (.read out s.length)
  | .closed b out n ch =>
    match b.leave ch with
    | .error reason => ctx.after out i s 0 (n + 1) reason
    | .ok o =>
      if ch = minus then .ok (.read (out ++ o) (n + 1))
      else if ch.toNat ≤ 127 then .ok (.read (out ++ o ++ [ch.toNat]) (n + 1))
      else ctx.after (out ++ o) i s n 1 "unexpected special character"

def utf7Unit (ctx : DecCtx) (isFinal : Bool) (i : ℕ) (s : List UInt8) :
    Except CodecError (Transducer.Step ℕ) :=
  match s with
  | [] => .ok .hold
  | ch :: rest =>
    if ch = plus then
      match rest.head? with
      | some c =>
        if c = minus then .ok (.read [plus.toNat] 2)
        else if isBase64 c = false then ctx.after [] i s 0 2 "ill-formed sequence"
        else shiftUnit ctx isFinal i s
      | none => shiftUnit ctx isFinal i s
    else if ch.toNat ≤ 127 then .ok (.read [ch.toNat] 1)
    else ctx.after [] i s 0 1 "unexpected special character"

theorem onError_utf7 {ctx : DecCtx} (henc : ctx.encoding = .utf7) {i span : ℕ} {s : List UInt8}
    {reason : String} {r : List ℕ × ℕ} (h : ctx.onError i s span reason = .ok r) : r.2 = span := by
  rcases onError_ok (h.trans rfl : _ = .ok (r.1, r.2)) with ⟨hn, -⟩ | ⟨-, -, cp, hdec⟩
  · exact hn
  · rw [henc] at hdec
    cases hdec

/-- Where a shift ends, and that the character there is no base64. -/
theorem scanShift_closed {b b' : Bits} {out out' : List ℕ} {n n' : ℕ} {ch : UInt8}
    {s : List UInt8} (h : scanShift b out n s = .closed b' out' n' ch) :
    ∃ k, n' = n + k ∧ s[k]? = some ch ∧ isBase64 ch = false := by
  induction s generalizing b out n with
  | nil => cases h
  | cons c s ih =>
    rw [scanShift] at h
    split_ifs at h with hc
    · obtain ⟨k, rfl, hk, hch⟩ := ih h
      exact ⟨k + 1, by omega, hk, hch⟩
    · obtain ⟨-, -, rfl, rfl⟩ := Shift.closed.inj h
      exact ⟨0, rfl, rfl, by simpa using hc⟩

section Refinement

variable {ctx : DecCtx} {input : List UInt8} {isFinal : Bool}

/-- The loop inside a shift, run to its end. -/
theorem loop_shift {t : List UInt8} {b : Bits} {o out₀ : List ℕ} {p n fuel : ℕ}
    (ht : input.drop (p + n) = t) (hlen : p + n + t.length = input.length)
    (hfuel : 2 * t.length < fuel) :
    match scanShift b o n t with
    | .unended b' o' =>
      Utf7.loop ctx input isFinal fuel (p + n) ⟨true, out₀.length, p, b, out₀ ++ o⟩ =
        Utf7.finish ctx input isFinal ⟨true, out₀.length, p, b', out₀ ++ o'⟩
    | .closed b' o' n' _ =>
      ∃ fuel', 2 * (input.length - (p + n')) < fuel' ∧
        Utf7.loop ctx input isFinal fuel (p + n) ⟨true, out₀.length, p, b, out₀ ++ o⟩ =
          Utf7.loop ctx input isFinal fuel' (p + n') ⟨true, out₀.length, p, b', out₀ ++ o'⟩ := by
  induction t generalizing b o n fuel with
  | nil =>
    cases fuel with
    | zero => omega
    | succ fuel =>
      have hget : input[p + n]? = none := by
        rw [List.getElem?_eq_none_iff]
        simp at hlen
        omega
      rw [scanShift]
      dsimp only
      rw [Utf7.loop, hget]
  | cons ch s ih =>
    have hget : input[p + n]? = some ch := by
      rw [← List.head?_drop, ht]
      rfl
    rw [List.length_cons] at hlen hfuel
    rw [scanShift]
    by_cases hc : isBase64 ch = true
    · rw [if_pos hc]
      cases fuel with
      | zero => omega
      | succ fuel =>
        have hdrop : input.drop (p + (n + 1)) = s := by
          rw [← Nat.add_assoc, ← List.drop_drop, ht]
          rfl
        have hstep : Utf7.loop ctx input isFinal (fuel + 1) (p + n)
              ⟨true, out₀.length, p, b, out₀ ++ o⟩ =
            Utf7.loop ctx input isFinal fuel (p + (n + 1))
              ⟨true, out₀.length, p, (b.push ch).1, out₀ ++ (o ++ (b.push ch).2)⟩ := by
          rw [Utf7.loop, hget]
          dsimp only [Utf7.step]
          rw [if_pos rfl, if_pos hc, ← List.append_assoc]
          rfl
        rw [hstep]
        exact ih hdrop (by omega) (by omega)
    · rw [if_neg hc]
      exact ⟨fuel, by omega, rfl⟩

/-- How the loop, from outside a shift, agrees with a unit at `i`. -/
def Agrees (ctx : DecCtx) (input : List UInt8) (isFinal : Bool) (i : ℕ) (out₀ : List ℕ)
    (result : Except CodecError (List ℕ × ℕ)) : Except CodecError (Transducer.Step ℕ) → Prop
  | .error e => result = .error e
  | .ok .hold => result = .ok (out₀, i)
  | .ok (.read os n) => ∃ fuel st, result = Utf7.loop ctx input isFinal fuel (i + n) st ∧
      st.inShift = false ∧ st.out = out₀ ++ os ∧ 2 * (input.length - (i + n)) < fuel

theorem agrees_fail (henc : ctx.encoding = .utf7) (i n span : ℕ) {fuel : ℕ} {out₀ o : List ℕ}
    (st : Utf7) (reason : String) (hst : st.inShift = false) (hout : st.out = out₀ ++ o)
    (hfuel : 2 * (input.length - (i + n + span)) < fuel) :
    Agrees ctx input isFinal i out₀
      (do
        let r ← st.fail ctx input (i + n) (i + n + span) reason
        Utf7.loop ctx input isFinal fuel r.1 r.2)
      (ctx.after o i (input.drop i) n span reason) := by
  rw [Utf7.fail, DecCtx.after, List.drop_drop, show i + n + span - (i + n) = span by omega]
  cases hr : ctx.onError (i + n) (input.drop (i + n)) span reason with
  | error e => rfl
  | ok r =>
    have hspan := onError_utf7 henc hr
    refine ⟨fuel, { st with out := st.out ++ r.1 }, ?_, hst, ?_, ?_⟩
    · rw [← Nat.add_assoc]
      rfl
    · rw [hout, List.append_assoc]
    · rw [hspan]
      omega

theorem loop_end {st : Utf7} (hst : st.inShift = false) :
    Utf7.loop ctx input isFinal 1 input.length st = .ok (st.out, input.length) := by
  have hget : input[input.length]? = none := List.getElem?_eq_none_iff.mpr le_rfl
  rw [Utf7.loop, hget]
  dsimp only
  rw [Utf7.finish, if_neg (by simp [hst]), if_neg (by simp [hst])]

/-- A shift that the input ends in. -/
theorem agrees_unended (henc : ctx.encoding = .utf7) {i : ℕ} {s : List UInt8} {b : Bits}
    {out₀ out : List ℕ} (hdrop : input.drop i = s) (hlen : i + s.length = input.length) :
    Agrees ctx input isFinal i out₀
      (Utf7.finish ctx input isFinal ⟨true, out₀.length, i, b, out₀ ++ out⟩)
      (if isFinal = false then .ok .hold
        else if b.pending then ctx.after out i s 0 s.length "unterminated shift sequence"
        else .ok (.read out s.length)) := by
  have hend (st : Utf7) (hst : st.inShift = false) (os : List ℕ) (hout : st.out = out₀ ++ os) :
      Agrees ctx input isFinal i out₀ (.ok (st.out, input.length)) (.ok (.read os s.length)) := by
    refine ⟨1, st, ?_, hst, hout, by omega⟩
    rw [hlen]
    exact (loop_end hst).symm
  rw [Utf7.finish]
  cases isFinal with
  | false =>
    rw [if_neg (by simp), if_pos rfl, if_pos rfl]
    simp [Agrees]
  | true =>
    rw [if_pos ⟨rfl, rfl⟩, if_neg (show ¬ true = false by decide)]
    dsimp only
    by_cases hp : b.pending = true
    · rw [if_pos hp, if_pos hp, Utf7.fail, DecCtx.after, hdrop, List.drop_zero, Nat.add_zero,
        show input.length - i = s.length by omega]
      cases hr : ctx.onError i s s.length "unterminated shift sequence" with
      | error e => rfl
      | ok r =>
        have hspan := onError_utf7 henc hr
        have htail : directTail (input.drop (i + s.length)) = [] := by
          rw [hlen, List.drop_length]
          rfl
        have hagree := hend ⟨false, 0, 0, .zero, out₀ ++ (out ++ r.1)⟩ rfl _ rfl
        rw [← List.append_assoc] at hagree
        dsimp only [Except.map, bind, Except.bind, pure, Except.pure]
        rw [hspan, htail, List.append_nil, Nat.zero_add]
        exact hagree
    · rw [if_neg hp, if_neg hp]
      exact hend ⟨false, 0, 0, .zero, out₀ ++ out⟩ rfl _ rfl

/-- A shift that a character of no base64 ends. -/
theorem agrees_closed (henc : ctx.encoding = .utf7) {i n fuel : ℕ} {ch : UInt8} {b : Bits}
    {out₀ out : List ℕ} (hget : input[i + n]? = some ch) (hch : isBase64 ch = false)
    (hfuel : 2 * (input.length - (i + n)) < fuel) :
    Agrees ctx input isFinal i out₀
      (Utf7.loop ctx input isFinal fuel (i + n) ⟨true, out₀.length, i, b, out₀ ++ out⟩)
      (match b.leave ch with
        | .error reason => ctx.after out i (input.drop i) 0 (n + 1) reason
        | .ok o =>
          if ch = minus then .ok (.read (out ++ o) (n + 1))
          else if ch.toNat ≤ 127 then .ok (.read (out ++ o ++ [ch.toNat]) (n + 1))
          else ctx.after (out ++ o) i (input.drop i) n 1 "unexpected special character") := by
  have hlt : i + n < input.length := (List.getElem?_eq_some_iff.mp hget).1
  have hplus : ch ≠ plus := by
    rintro rfl
    exact absurd hch (by decide)
  cases fuel with
  | zero => omega
  | succ fuel =>
    rw [Utf7.loop, hget]
    dsimp only [Utf7.step]
    rw [if_pos rfl, if_neg (by simp [hch])]
    cases hl : b.leave ch with
    | error reason =>
      exact agrees_fail henc i 0 (n + 1) ⟨false, out₀.length, i, .zero, out₀ ++ out⟩ reason rfl rfl
        (by omega)
    | ok o =>
      dsimp only [bind, Except.bind]
      by_cases hm : ch = minus
      · rw [if_pos hm, if_pos hm]
        exact ⟨fuel, _, rfl, rfl, by simp, by omega⟩
      rw [if_neg hm, if_neg hm]
      cases fuel with
      | zero => omega
      | succ fuel =>
        rw [Utf7.loop, hget]
        dsimp only [Utf7.step]
        rw [if_neg (by simp), if_neg hplus]
        by_cases hd : ch.toNat ≤ 127
        · rw [if_pos hd, if_pos hd]
          exact ⟨fuel, _, rfl, rfl, by simp, by omega⟩
        · rw [if_neg hd, if_neg hd]
          exact agrees_fail henc i n 1 ⟨false, out₀.length, i + n, .zero, out₀ ++ out ++ o⟩
            "unexpected special character" rfl (by simp) (by omega)

theorem agrees_shift (henc : ctx.encoding = .utf7) {i fuel : ℕ} {rest : List UInt8}
    {out₀ : List ℕ} (hdrop : input.drop i = plus :: rest) (hfuel : 2 * rest.length < fuel) :
    Agrees ctx input isFinal i out₀
      (Utf7.loop ctx input isFinal fuel (i + 1) ⟨true, out₀.length, i, .zero, out₀⟩)
      (shiftUnit ctx isFinal i (plus :: rest)) := by
  have hlen : i + (plus :: rest).length = input.length := by
    have := congrArg List.length hdrop
    rw [List.length_drop, List.length_cons] at this
    rw [List.length_cons]
    omega
  have hrest : input.drop (i + 1) = rest := by
    rw [← List.drop_drop, hdrop]
    rfl
  have hrun := @loop_shift ctx input isFinal rest .zero [] out₀ i 1 fuel hrest
    (by rw [← hlen, List.length_cons]; omega) hfuel
  rw [List.append_nil] at hrun
  rw [shiftUnit, List.tail_cons]
  cases hscan : scanShift .zero [] 1 rest with
  | unended b out =>
    rw [hscan] at hrun
    dsimp only at hrun ⊢
    rw [hrun]
    exact agrees_unended henc hdrop hlen
  | closed b out n ch =>
    rw [hscan] at hrun
    obtain ⟨fuel', hfuel', hrun⟩ := hrun
    obtain ⟨k, rfl, hk, hch⟩ := scanShift_closed hscan
    dsimp only
    rw [hrun, ← hdrop]
    refine agrees_closed henc ?_ hch hfuel'
    rw [← hk, ← hrest, List.getElem?_drop, Nat.add_assoc]

/-- One unit, from outside a shift. -/
theorem agrees_unit (henc : ctx.encoding = .utf7) {i fuel : ℕ} {s : List UInt8} {st : Utf7}
    (hst : st.inShift = false) (hdrop : input.drop i = s) (hs : s ≠ [])
    (hfuel : 2 * s.length < fuel) :
    Agrees ctx input isFinal i st.out (Utf7.loop ctx input isFinal fuel i st)
      (utf7Unit ctx isFinal i s) := by
  cases s with
  | nil => exact absurd rfl hs
  | cons ch rest =>
    have hget : input[i]? = some ch := by
      rw [← List.head?_drop, hdrop]
      rfl
    have hnext : input[i + 1]? = rest.head? := by
      rw [← List.head?_drop, ← List.drop_drop, hdrop]
      rfl
    have hlen : input.length = i + rest.length + 1 := by
      have := congrArg List.length hdrop
      rw [List.length_drop, List.length_cons] at this
      omega
    rw [List.length_cons] at hfuel
    cases fuel with
    | zero => omega
    | succ fuel =>
      rw [Utf7.loop, hget, utf7Unit]
      dsimp only [Utf7.step]
      rw [if_neg (by simp [hst])]
      by_cases hp : ch = plus
      · subst hp
        rw [if_pos rfl, if_pos rfl, hnext]
        have hshift : Agrees ctx input isFinal i st.out
            (Utf7.loop ctx input isFinal fuel (i + 1) ⟨true, st.out.length, i, .zero, st.out⟩)
            (shiftUnit ctx isFinal i (plus :: rest)) := agrees_shift henc hdrop (by omega)
        cases hc : rest.head? with
        | none => exact hshift
        | some c =>
          have hpos : 0 < rest.length := by
            cases rest with
            | nil => cases hc
            | cons => simp
          dsimp only
          by_cases hm : c = minus
          · rw [if_pos hm, if_pos hm]
            exact ⟨fuel, _, rfl, hst, rfl, by omega⟩
          rw [if_neg hm, if_neg hm]
          by_cases h64 : isBase64 c = false
          · rw [if_pos h64, if_pos h64, ← hdrop]
            exact agrees_fail henc i 0 2 { st with startInPos := i } "ill-formed sequence" hst
              (List.append_nil _).symm (by omega)
          · rw [if_neg h64, if_neg h64]
            exact hshift
      rw [if_neg hp, if_neg hp]
      by_cases hd : ch.toNat ≤ 127
      · rw [if_pos hd, if_pos hd]
        exact ⟨fuel, _, rfl, hst, rfl, by omega⟩
      · rw [if_neg hd, if_neg hd, ← hdrop]
        exact agrees_fail henc i 0 1 { st with startInPos := i } "unexpected special character" hst
          (List.append_nil _).symm (by omega)

end Refinement

section Units

variable {ctx : DecCtx} {i j n m : ℕ} {s t : List UInt8} {out : List ℕ}

theorem after_len (henc : ctx.encoding = .utf7) {o : List ℕ} {k span : ℕ} {reason : String}
    (h : ctx.after o i s k span reason = .ok (.read out n)) : n = k + span := by
  rw [DecCtx.after] at h
  cases hr : ctx.onError (i + k) (s.drop k) span reason with
  | error e => rw [hr] at h; cases h
  | ok r =>
    rw [hr] at h
    obtain ⟨-, rfl⟩ := Transducer.Step.read.inj (Except.ok.inj h)
    rw [onError_utf7 henc hr]

theorem after_ne_hold {o : List ℕ} {k span : ℕ} {reason : String} :
    ctx.after o i s k span reason ≠ .ok .hold := by
  rw [DecCtx.after]
  cases ctx.onError (i + k) (s.drop k) span reason <;> exact nofun

/-- The handlers see only the bytes of the error. -/
theorem after_congr (henc : ctx.encoding = .utf7) {o : List ℕ} {k span : ℕ} {reason : String}
    (h : (s.drop k).take span = (t.drop k).take span) :
    (ctx.after o i s k span reason).toOption = (ctx.after o j t k span reason).toOption := by
  rw [DecCtx.after, DecCtx.after, Transducer.toOption_map, Transducer.toOption_map,
    onError_congr h fun _ => by rw [henc]; rfl]

theorem after_append (henc : ctx.encoding = .utf7) {o : List ℕ} {k span : ℕ} {reason : String}
    (h : k + span ≤ s.length) :
    (ctx.after o i s k span reason).toOption = (ctx.after o j (s ++ t) k span reason).toOption := by
  apply after_congr henc
  rw [List.drop_append_of_le_length (by omega), List.take_append_of_le_length]
  rw [List.length_drop]
  omega

theorem after_take (henc : ctx.encoding = .utf7) {o : List ℕ} {k span : ℕ} {reason : String}
    (h : ctx.after o i s k span reason = .ok (.read out n)) (hn : n ≤ m) :
    ctx.after o i (s.take m) k span reason = .ok (.read out n) := by
  obtain rfl := after_len henc h
  rw [← Transducer.toOption_eq_some, ← Transducer.toOption_eq_some.mpr h]
  apply after_congr henc
  rw [List.drop_take, List.take_take, Nat.min_eq_left (by omega)]

theorem scanShift_append {b b' : Bits} {o o' : List ℕ} {k k' : ℕ} {ch : UInt8}
    (h : scanShift b o k s = .closed b' o' k' ch) :
    scanShift b o k (s ++ t) = .closed b' o' k' ch := by
  induction s generalizing b o k with
  | nil => cases h
  | cons c s ih =>
    rw [List.cons_append, scanShift]
    rw [scanShift] at h
    split_ifs at h ⊢
    · exact ih h
    · exact h

theorem scanShift_take {b b' : Bits} {o o' : List ℕ} {k k' : ℕ} {ch : UInt8}
    (h : scanShift b o k s = .closed b' o' k' ch) (hm : k' < k + m) :
    scanShift b o k (s.take m) = .closed b' o' k' ch := by
  induction s generalizing b o k m with
  | nil => cases h
  | cons c s ih =>
    obtain ⟨d, hd, -⟩ := scanShift_closed h
    cases m with
    | zero => omega
    | succ m =>
      rw [List.take_succ_cons, scanShift]
      rw [scanShift] at h
      split_ifs at h ⊢
      · exact ih h (by omega)
      · exact h

/-- The character that closes a shift is in the input. -/
theorem scanShift_bound {rest : List UInt8} {b : Bits} {o : List ℕ} {k : ℕ} {ch : UInt8}
    (h : scanShift .zero [] 1 rest = .closed b o k ch) :
    1 ≤ k ∧ k + 1 ≤ rest.length + 1 := by
  obtain ⟨d, rfl, hd, -⟩ := scanShift_closed h
  have := (List.getElem?_eq_some_iff.mp hd).1
  omega

theorem shiftUnit_bounds (henc : ctx.encoding = .utf7) {isFinal : Bool} (hs : s ≠ [])
    (h : shiftUnit ctx isFinal i s = .ok (.read out n)) : 0 < n ∧ n ≤ s.length := by
  obtain ⟨c, rest, rfl⟩ := List.exists_cons_of_ne_nil hs
  rw [shiftUnit, List.tail_cons] at h
  cases hscan : scanShift .zero [] 1 rest with
  | unended b o =>
    rw [hscan] at h
    dsimp only at h
    split_ifs at h
    · cases h
    · have := after_len henc h
      simp at this
      simp [this]
    · obtain ⟨-, rfl⟩ := Transducer.Step.read.inj (Except.ok.inj h)
      simp
  | closed b o k ch =>
    have hb := scanShift_bound hscan
    rw [hscan] at h
    rw [List.length_cons]
    dsimp only at h
    split at h
    · have := after_len henc h
      omega
    · split_ifs at h
      · obtain ⟨-, rfl⟩ := Transducer.Step.read.inj (Except.ok.inj h)
        omega
      · obtain ⟨-, rfl⟩ := Transducer.Step.read.inj (Except.ok.inj h)
        omega
      · have := after_len henc h
        omega

theorem utf7Unit_advances (henc : ctx.encoding = .utf7) (isFinal : Bool) :
    Advances (utf7Unit ctx isFinal) := by
  intro i s out n hs h
  obtain ⟨c, rest, rfl⟩ := List.exists_cons_of_ne_nil hs
  rw [utf7Unit] at h
  split_ifs at h with hp hd
  · cases rest with
    | nil => exact shiftUnit_bounds henc hs h
    | cons c' rest =>
      dsimp only [List.head?_cons] at h
      split_ifs at h
      · obtain ⟨-, rfl⟩ := Transducer.Step.read.inj (Except.ok.inj h)
        simp
      · have := after_len henc h
        simp [this]
      · exact shiftUnit_bounds henc hs h
  · obtain ⟨-, rfl⟩ := Transducer.Step.read.inj (Except.ok.inj h)
    simp
  · have := after_len henc h
    simp [this]

theorem shiftUnit_local (henc : ctx.encoding = .utf7) (hs : s ≠ [])
    (h : shiftUnit ctx false i s ≠ .ok .hold) :
    (shiftUnit ctx false i s).toOption = (shiftUnit ctx true j (s ++ t)).toOption := by
  obtain ⟨c, rest, rfl⟩ := List.exists_cons_of_ne_nil hs
  rw [shiftUnit, List.tail_cons] at h
  rw [shiftUnit, shiftUnit, List.cons_append, List.tail_cons, List.tail_cons]
  cases hscan : scanShift .zero [] 1 rest with
  | unended b o =>
    rw [hscan] at h
    exact absurd rfl h
  | closed b o k ch =>
    have hb := scanShift_bound hscan
    rw [scanShift_append hscan]
    dsimp only
    rw [← List.cons_append]
    split
    · exact after_append henc (by rw [List.length_cons]; omega)
    · split_ifs
      · rfl
      · rfl
      · exact after_append henc (by rw [List.length_cons]; omega)

theorem utf7Unit_local (henc : ctx.encoding = .utf7) :
    Local (utf7Unit ctx false) (utf7Unit ctx true) := by
  intro i j s t hs h
  obtain ⟨c, rest, rfl⟩ := List.exists_cons_of_ne_nil hs
  rw [utf7Unit] at h
  rw [List.cons_append, utf7Unit, utf7Unit]
  split_ifs at h ⊢ with hp hd
  · cases rest with
    | nil => exact absurd rfl h
    | cons c' rest =>
      dsimp only [List.cons_append, List.head?_cons] at h ⊢
      rw [← List.cons_append, ← List.cons_append]
      split_ifs at h ⊢
      · rfl
      · exact after_append henc (by simp)
      · exact shiftUnit_local henc hs h
  · rfl
  · rw [← List.cons_append]
    exact after_append henc (by simp)

/-- A shift is read with the character that closes it. -/
theorem shiftUnit_closed (henc : ctx.encoding = .utf7) {b : Bits} {o : List ℕ} {k : ℕ} {ch : UInt8}
    (hscan : scanShift .zero [] 1 s.tail = .closed b o k ch) {isFinal : Bool}
    (h : shiftUnit ctx isFinal i s = .ok (.read out n)) : k + 1 ≤ n := by
  rw [shiftUnit, hscan] at h
  dsimp only at h
  split at h
  · have := after_len henc h
    omega
  · split_ifs at h
    · obtain ⟨-, rfl⟩ := Transducer.Step.read.inj (Except.ok.inj h)
      omega
    · obtain ⟨-, rfl⟩ := Transducer.Step.read.inj (Except.ok.inj h)
      omega
    · have := after_len henc h
      omega

theorem two_le_shiftUnit (henc : ctx.encoding = .utf7)
    (h : shiftUnit ctx false i s = .ok (.read out n)) : 2 ≤ n := by
  cases hscan : scanShift .zero [] 1 s.tail with
  | unended b o =>
    rw [shiftUnit, hscan] at h
    cases h
  | closed b o k ch =>
    have := (scanShift_bound hscan).1
    have := shiftUnit_closed henc hscan h
    omega

theorem shiftUnit_take (henc : ctx.encoding = .utf7)
    (h : shiftUnit ctx false i s = .ok (.read out n)) (hn : n ≤ m) :
    shiftUnit ctx true i (s.take m) = .ok (.read out n) := by
  cases hscan : scanShift .zero [] 1 s.tail with
  | unended b o =>
    rw [shiftUnit, hscan] at h
    cases h
  | closed b o k ch =>
    have hb := scanShift_bound hscan
    have hlong := shiftUnit_closed henc hscan h
    have htail : (s.take m).tail = s.tail.take (m - 1) := by
      rw [← List.drop_one, ← List.drop_one, List.drop_take]
    rw [shiftUnit, hscan] at h
    rw [shiftUnit, htail, scanShift_take hscan (by omega)]
    dsimp only at h ⊢
    split at h
    · exact after_take henc h hn
    · split_ifs at h ⊢
      · exact h
      · exact h
      · exact after_take henc h hn

theorem utf7Unit_take (henc : ctx.encoding = .utf7) (hs : s ≠ [])
    (h : utf7Unit ctx false i s = .ok (.read out n)) (hn : n ≤ m) :
    utf7Unit ctx true i (s.take m) = .ok (.read out n) := by
  have hpos := (utf7Unit_advances henc false i s out n hs h).1
  obtain ⟨c, rest, rfl⟩ := List.exists_cons_of_ne_nil hs
  cases m with
  | zero => omega
  | succ m =>
    rw [utf7Unit] at h
    rw [List.take_succ_cons, utf7Unit]
    split_ifs at h ⊢ with hp hd
    · cases rest with
      | nil => cases h
      | cons c' rest =>
        have hm : 1 ≤ m := by
          dsimp only [List.head?_cons] at h
          split_ifs at h
          · obtain ⟨-, rfl⟩ := Transducer.Step.read.inj (Except.ok.inj h)
            omega
          · have := after_len henc h
            omega
          · have := two_le_shiftUnit henc h
            omega
        obtain ⟨k, rfl⟩ := Nat.exists_eq_add_of_le' hm
        dsimp only [List.take_succ_cons, List.head?_cons] at h ⊢
        rw [← List.take_succ_cons, ← List.take_succ_cons]
        split_ifs at h ⊢
        · exact h
        · exact after_take henc h hn
        · exact shiftUnit_take henc h hn
    · exact h
    · rw [← List.take_succ_cons]
      exact after_take henc h hn

theorem shiftUnit_final : shiftUnit ctx true i s ≠ .ok .hold := by
  rw [shiftUnit]
  cases scanShift .zero [] 1 s.tail with
  | unended b o =>
    dsimp only
    rw [if_neg (show ¬ true = false by decide)]
    split_ifs
    · exact after_ne_hold
    · exact nofun
  | closed b o k ch =>
    dsimp only
    split
    · exact after_ne_hold
    · split_ifs
      · exact nofun
      · exact nofun
      · exact after_ne_hold

theorem utf7Unit_final (hs : s ≠ []) : utf7Unit ctx true i s ≠ .ok .hold := by
  obtain ⟨c, rest, rfl⟩ := List.exists_cons_of_ne_nil hs
  rw [utf7Unit]
  split_ifs
  · cases rest.head? with
    | none => exact shiftUnit_final
    | some c =>
      dsimp only
      split_ifs
      · exact nofun
      · exact after_ne_hold
      · exact shiftUnit_final
  · exact nofun
  · exact after_ne_hold

theorem shiftUnit_shift (henc : ctx.encoding = .utf7) (j : ℕ) :
    (shiftUnit ctx true i s).toOption = (shiftUnit ctx true j s).toOption := by
  rw [shiftUnit, shiftUnit]
  cases scanShift .zero [] 1 s.tail with
  | unended b o =>
    dsimp only
    rw [if_neg (show ¬ true = false by decide), if_neg (show ¬ true = false by decide)]
    split_ifs
    · exact after_congr henc rfl
    · rfl
  | closed b o k ch =>
    dsimp only
    split
    · exact after_congr henc rfl
    · split_ifs
      · rfl
      · rfl
      · exact after_congr henc rfl

theorem utf7Unit_shift (henc : ctx.encoding = .utf7) (j : ℕ) (hs : s ≠ []) :
    (utf7Unit ctx true i s).toOption = (utf7Unit ctx true j s).toOption := by
  obtain ⟨c, rest, rfl⟩ := List.exists_cons_of_ne_nil hs
  rw [utf7Unit, utf7Unit]
  split_ifs
  · cases rest.head? with
    | none => exact shiftUnit_shift henc j
    | some c =>
      dsimp only
      split_ifs
      · rfl
      · exact after_congr henc rfl
      · exact shiftUnit_shift henc j
  · rfl
  · exact after_congr henc rfl

end Units

/-- The loop reads unit by unit. -/
theorem loop_eq_decode {ctx : DecCtx} (henc : ctx.encoding = .utf7) {input s : List UInt8}
    {isFinal : Bool} {i fuel : ℕ} {st : Utf7} (hst : st.inShift = false)
    (hdrop : input.drop i = s) (hi : i + s.length = input.length) (hfuel : 2 * s.length < fuel) :
    Utf7.loop ctx input isFinal fuel i st =
      (Transducer.decode (utf7Unit ctx isFinal) .diverge i s).map
        fun r => (st.out ++ r.1, r.2) := by
  induction hn : s.length using Nat.strongRecOn generalizing s i fuel st with
  | ind n ih =>
    have ha := utf7Unit_advances henc isFinal
    by_cases hs : s = []
    · subst hs
      cases fuel with
      | zero => omega
      | succ fuel =>
        have hget : input[i]? = none := by
          rw [List.getElem?_eq_none_iff, ← hi]
          simp
        rw [Utf7.loop, hget]
        dsimp only
        rw [Utf7.finish, if_neg (by simp [hst]), if_neg (by simp [hst]), ← hi]
        simp [Except.map]
    have hunit := @agrees_unit ctx input isFinal henc i fuel s st hst hdrop hs hfuel
    cases hstep : utf7Unit ctx isFinal i s with
    | error e =>
      rw [hstep] at hunit
      rw [Transducer.decode_error hs hstep]
      exact hunit
    | ok r =>
      rw [hstep] at hunit
      cases r with
      | hold =>
        rw [Transducer.decode_hold hs hstep]
        simpa [Agrees, Except.map] using hunit
      | read os k =>
        obtain ⟨fuel', st', hrun, hst', hout, hfuel'⟩ := hunit
        obtain ⟨hk, hle⟩ := ha i s os k hs hstep
        have hlen : (s.drop k).length = s.length - k := List.length_drop
        have hnext := ih (s.drop k).length (by omega) hst'
          (show input.drop (i + k) = s.drop k by rw [← List.drop_drop, hdrop]) (by omega)
          (show 2 * (s.drop k).length < fuel' by omega) rfl
        rw [hrun, hnext, Transducer.decode_read ha hs hstep, hout]
        cases Transducer.decode (utf7Unit ctx isFinal) .diverge (i + k) (s.drop k) with
        | error e => rfl
        | ok r => simp [Except.map]

theorem utf7Decode_eq (errors : Handler) (isFinal : Bool) (data : List UInt8) :
    utf7Decode errors isFinal data =
      Transducer.decode (utf7Unit ⟨.utf7, errors⟩ isFinal) .diverge 0 data := by
  rw [utf7Decode, loop_eq_decode rfl rfl (List.drop_zero) (Nat.zero_add _) (Nat.lt_succ_self _)]
  cases Transducer.decode (utf7Unit ⟨.utf7, errors⟩ isFinal) .diverge 0 data with
  | error e => rfl
  | ok r => rfl

theorem utf7_chunkable (errors : Handler) :
    Chunkable (Transducer.plain (utf7Unit ⟨.utf7, errors⟩) .diverge) :=
  Transducer.plain_chunkable (utf7Unit_advances rfl) (utf7Unit_local rfl)
    (fun _ j _ hs => utf7Unit_shift rfl j hs)
    (fun _ _ _ _ _ hs h hn _ => utf7Unit_take rfl hs h hn) (fun _ _ hs => utf7Unit_final hs)

end WeavePy.Codecs
