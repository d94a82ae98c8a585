import WeavePy.Codecs.Wide
import Mathlib.Data.List.TakeWhile

/-!
Decoding undoes encoding, and encoding undoes decoding.
-/

namespace WeavePy.Codecs

open Transducer (Advances)

section Encoding

variable {ctx : EncCtx} {reason : String} {emit : ℕ → Option (List UInt8)}

theorem encStep_advances : Advances (ctx.step reason emit) := by
  intro i s out n hs h
  cases s with
  | nil => exact absurd rfl hs
  | cons cp rest =>
    have hrun : (cp :: rest.takeWhile fun cp => (emit cp).isNone).length ≤ (cp :: rest).length := by
      simpa using (List.takeWhile_sublist _).length_le
    rw [EncCtx.step] at h
    cases he : emit cp with
    | some b =>
      rw [he] at h
      obtain ⟨-, rfl⟩ := Transducer.Step.read.inj (Except.ok.inj h)
      simp
    | none =>
      rw [he] at h
      dsimp only [bind, Except.bind] at h
      split at h
      · cases h
      · split at h
        · obtain ⟨-, rfl⟩ := Transducer.Step.read.inj (Except.ok.inj h)
          exact ⟨by simp, hrun⟩
        · split at h
          · obtain ⟨-, rfl⟩ := Transducer.Step.read.inj (Except.ok.inj h)
            exact ⟨by simp, hrun⟩
          · cases h

/-- Where the handler gives bytes for each run of unencodable points, point by point, the encoder
gives the bytes of each point. -/
theorem encode_handled {cps : List ℕ} {g : ℕ → List UInt8}
    (h : ∀ i run, run ≠ [] → (∀ cp ∈ run, cp ∈ cps ∧ emit cp = none) →
      ctx.onError i run reason = .ok (.bytes (run.flatMap g))) :
    ctx.encode reason emit cps = .ok (cps.flatMap fun cp => (emit cp).getD (g cp)) := by
  have hall : ∀ s i, s ⊆ cps → Transducer.decode (ctx.step reason emit) .diverge i s =
      .ok (s.flatMap (fun cp => (emit cp).getD (g cp)), i + s.length) := by
    intro s
    induction hn : s.length using Nat.strongRecOn generalizing s with
    | ind n ih =>
      intro i hsub
      cases s with
      | nil => simp [← hn]
      | cons cp rest =>
        cases he : emit cp with
        | some b =>
          have hstep : ctx.step reason emit i (cp :: rest) = .ok (.read b 1) := by
            rw [EncCtx.step, he]
          rw [Transducer.decode_read encStep_advances (by simp) hstep, List.drop_one,
            List.tail_cons, ih rest.length (by rw [← hn]; simp) rest rfl _
              fun x hx => hsub (List.mem_cons_of_mem _ hx)]
          simp [Except.map, he, ← hn]
          omega
        | none =>
          let p := fun cp => (emit cp).isNone
          have hsplit : cp :: rest = (cp :: rest.takeWhile p) ++ rest.dropWhile p := by simp
          have hrun : ∀ x ∈ cp :: rest.takeWhile p, x ∈ cps ∧ emit x = none := by
            intro x hx
            refine ⟨hsub (by rw [hsplit]; exact List.mem_append_left _ hx), ?_⟩
            rcases List.mem_cons.mp hx with rfl | hx
            · exact he
            · simpa [p] using List.mem_takeWhile_imp hx
          have hstep : ctx.step reason emit i (cp :: rest) =
              .ok (.read ((cp :: rest.takeWhile p).flatMap g)
                (cp :: rest.takeWhile p).length) := by
            rw [EncCtx.step, he]
            dsimp only
            rw [h i _ (by simp) hrun]
            rfl
          have hflat : ((cp :: rest.takeWhile p).flatMap fun cp => (emit cp).getD (g cp)) =
              (cp :: rest.takeWhile p).flatMap g :=
            List.flatMap_congr fun x hx => by rw [(hrun x hx).2, Option.getD_none]
          have hlen := congrArg List.length hsplit
          rw [List.length_append] at hlen
          have hdrop : (cp :: rest).drop (cp :: rest.takeWhile p).length = rest.dropWhile p := by
            rw [hsplit, List.drop_left]
          rw [Transducer.decode_read encStep_advances (by simp) hstep, hdrop,
            ih (rest.dropWhile p).length (by simp at hlen hn ⊢; omega) _ rfl _ ?_]
          · rw [hsplit, List.flatMap_append, hflat]
            simp only [List.length_cons] at hlen hn
            simp [Except.map, ← hn]
            omega
          · intro x hx
            exact hsub (by rw [hsplit]; exact List.mem_append_right _ hx)
  rw [EncCtx.encode, hall cps 0 (List.Subset.refl _)]
  rfl

/-- Encodable points never reach the handler. -/
theorem encode_emitted {cps : List ℕ} {enc : ℕ → List UInt8}
    (h : ∀ cp ∈ cps, emit cp = some (enc cp)) :
    ctx.encode reason emit cps = .ok (cps.flatMap enc) := by
  rw [encode_handled (g := fun _ => [])]
  · exact congrArg _ (List.flatMap_congr fun cp hcp => by rw [h cp hcp, Option.getD_some])
  · intro i run hne hrun
    cases run with
    | nil => exact absurd rfl hne
    | cons cp run =>
      obtain ⟨hmem, hnone⟩ := hrun cp (by simp)
      rw [h cp hmem] at hnone
      cases hnone

theorem escapedBytes_ok {run : List ℕ} (h : ∀ cp ∈ run, 0xDC80 ≤ cp ∧ cp ≤ 0xDCFF) :
    escapedBytes run = .ok (run.flatMap fun cp => [(cp - 0xDC00).toUInt8]) := by
  induction run with
  | nil => rfl
  | cons cp run ih =>
    rw [escapedBytes, if_pos (h cp (by simp)), ih fun x hx => h x (by simp [hx])]
    rfl

theorem passedBytes_ok {key : StandardKey} {run : List ℕ} {g : ℕ → List UInt8}
    (h : ∀ cp ∈ run, IsSurrogate cp ∧ surrogateBytes key cp = some (g cp)) :
    passedBytes key run = some (run.flatMap g) := by
  induction run with
  | nil => rfl
  | cons cp run ih =>
    obtain ⟨hs, hg⟩ := h cp (by simp)
    have hrest := ih fun x hx => h x (by simp [hx])
    rw [passedBytes, Option.map_eq_some_iff] at hrest ⊢
    obtain ⟨bs, hbs, hflat⟩ := hrest
    exact ⟨g cp :: bs, by rw [List.mapM_cons, if_pos hs, hg, hbs]; rfl, by simp [hflat]⟩

/-- Under `surrogatepass` the points that are not encoded are surrogates, in the codec's bytes. -/
theorem encode_passed {cps : List ℕ} {g : ℕ → List UInt8} (herr : ctx.errors = .surrogatePass)
    (hsur : ∀ cp ∈ cps, emit cp = none → IsSurrogate cp ∧
      surrogateBytes (standardKey ctx.encoding) cp = some (g cp)) :
    ctx.encode reason emit cps = .ok (cps.flatMap fun cp => (emit cp).getD (g cp)) := by
  apply encode_handled
  intro i run _ hrun
  have hpass : passedBytes (standardKey ctx.encoding) run = some (run.flatMap g) :=
    passedBytes_ok fun cp hcp => hsur cp (hrun cp hcp).1 (hrun cp hcp).2
  rw [EncCtx.onError, herr]
  dsimp only
  rw [hpass]

end Encoding

section Decoding

theorem decodeEncodedSurrogate_bounds {encoding : Encoding} {s : List UInt8} {cp len : ℕ}
    (h : decodeEncodedSurrogate encoding s = some (cp, len)) : 0 < len ∧ len ≤ s.length := by
  have hof {u cp n len : ℕ} (h : surrogateOf u n = some (cp, len)) : len = n := by
    rw [surrogateOf] at h
    split_ifs at h
    exact (Prod.mk.inj (Option.some.inj h)).2.symm
  rw [decodeEncodedSurrogate.eq_def] at h
  split at h
  · split_ifs at h
    obtain ⟨-, rfl⟩ := Prod.mk.inj (Option.some.inj h)
    simp
  all_goals first | (rw [hof h]; simp) | cases h

/-- A handler that answers goes on behind the start of the error. -/
theorem onError_bounds {ctx : DecCtx} {start span n : ℕ} {s : List UInt8} {reason : String}
    {out : List ℕ} (hspan : 0 < span ∧ span ≤ s.length)
    (h : ctx.onError start s span reason = .ok (out, n)) : 0 < n ∧ n ≤ s.length := by
  rw [DecCtx.onError] at h
  cases he : ctx.errors <;> rw [he] at h
  case strict | xmlCharRefReplace | nameReplace => cases h
  case ignore | replace | backslashReplace =>
    obtain ⟨-, rfl⟩ := Prod.mk.inj (Except.ok.inj h)
    exact hspan
  case surrogateEscape =>
    dsimp only at h
    split_ifs at h
    obtain ⟨-, rfl⟩ := Prod.mk.inj (Except.ok.inj h)
    exact hspan
  case surrogatePass =>
    dsimp only at h
    split at h
    · rename_i cp len hd
      obtain ⟨-, rfl⟩ := Prod.mk.inj (Except.ok.inj h)
      exact decodeEncodedSurrogate_bounds hd
    · cases h

theorem handled_bounds {ctx : DecCtx} {start span n : ℕ} {s : List UInt8} {reason : String}
    {out : List ℕ} (hspan : 0 < span ∧ span ≤ s.length)
    (h : ctx.handled start s span reason = .ok (.read out n)) : 0 < n ∧ n ≤ s.length := by
  rw [DecCtx.handled] at h
  cases hr : ctx.onError start s span reason with
  | error e => rw [hr] at h; cases h
  | ok r =>
    rw [hr] at h
    obtain ⟨-, rfl⟩ := Transducer.Step.read.inj (Except.ok.inj h)
    exact onError_bounds hspan hr

/-- What a scan takes is there. -/
def Within (scan : List UInt8 → Scan) : Prop :=
  ∀ s, s ≠ [] →
    match scan s with
    | .ok _ len => 0 < len ∧ len ≤ s.length
    | .err span _ => 0 < span ∧ span ≤ s.length
    | .incomplete avail _ => avail = s.length

theorem step_advances {ctx : DecCtx} {scan : List UInt8 → Scan} (hw : Within scan)
    (isFinal : Bool) : Advances (ctx.step scan isFinal) := by
  intro i s out n hs h
  have hscan := hw s hs
  rw [DecCtx.step] at h
  cases hc : scan s with
  | ok cp len =>
    rw [hc] at h hscan
    obtain ⟨-, rfl⟩ := Transducer.Step.read.inj (Except.ok.inj h)
    exact hscan
  | err span reason =>
    rw [hc] at h hscan
    exact handled_bounds hscan h
  | incomplete avail reason =>
    rw [hc] at h hscan
    dsimp only at h
    split_ifs at h
    · cases h
    · exact handled_bounds ⟨by rw [hscan]; exact List.length_pos_of_ne_nil hs, hscan.le⟩ h

theorem utf8Scan_within : Within utf8Scan := by
  intro s hs
  cases h : utf8Scan s with
  | ok cp len =>
    have hr := utf8Scan_ok h
    have hlen := congrArg List.length hr.bytes
    rw [List.length_take, Nat.min_eq_left hr.le] at hlen
    refine ⟨?_, hr.le⟩
    rw [← hlen, encodeUtf8]
    split_ifs <;> simp
  | err span reason => exact ⟨(utf8Scan_err h).pos, (utf8Scan_err h).le⟩
  | incomplete avail reason => exact (utf8Scan_incomplete hs h).2

theorem utf8Step_advances (ctx : DecCtx) (isFinal : Bool) : Advances (utf8Step ctx isFinal) := by
  intro i s out n hs h
  rw [utf8Step] at h
  split_ifs at h
  · cases h
  · exact step_advances utf8Scan_within isFinal i s out n hs h

theorem utf16Scan_within (big : Bool) : Within (utf16Scan big) := by
  intro s hs
  rcases s with - | ⟨a, - | ⟨b, s⟩⟩
  · exact absurd rfl hs
  · simp [utf16Scan]
  · rw [utf16Scan]
    rcases s with - | ⟨c, - | ⟨d, s⟩⟩ <;> dsimp only [scanPair] <;> split_ifs <;> simp

theorem utf32Scan_within (big : Bool) : Within (utf32Scan big) := by
  intro s hs
  rcases s with - | ⟨a, - | ⟨b, - | ⟨c, - | ⟨d, s⟩⟩⟩⟩
  · exact absurd rfl hs
  · rfl
  · rfl
  · rfl
  · rw [utf32Scan.eq_def]
    dsimp only
    split_ifs <;> simp

end Decoding

end WeavePy.Codecs
