import WeavePy.NativeCode.Bodies

/-!
Constants read back, at every depth.
-/

namespace WeavePy.NativeCode

open ByteReader Writer

section Depths

variable {I E : Type}

mutual

/-- The levels of nesting, those through bodies included. -/
def Constant.depth : Constant I E → ℕ
  | .scalar _ => 1
  | .tuple items => depths items + 1
  | .frozenSet items => depths items + 1
  | .code _ _ ks => depths ks + 1
  | .encoded _ _ => 1
  | .slice lower upper step => max lower.depth (max upper.depth step.depth) + 1
termination_by structural k => k

def depths : List (Constant I E) → ℕ
  | [] => 0
  | k :: ks => max k.depth (depths ks)
termination_by structural ks => ks

end

end Depths

section Fits

mutual

/-- What the format has room for: every code object in it has the module's filename, and tables no longer than a
reader takes. -/
def Constant.Fits (filename : String) : Constant FullInfo Empty → Prop
  | .scalar _ => True
  | .tuple items => FitAll filename items
  | .frozenSet items => FitAll filename items
  | .code h c ks => h.Fits filename ∧ c.Fits ∧ FitAll filename ks
  | .encoded _ e => nomatch e
  | .slice lower upper step => lower.Fits filename ∧ upper.Fits filename ∧ step.Fits filename
termination_by structural k => k

def FitAll (filename : String) : List (Constant FullInfo Empty) → Prop
  | [] => True
  | k :: ks => k.Fits filename ∧ FitAll filename ks
termination_by structural ks => ks

end

variable (big : BigIntBytes) (m : Module)

mutual

/-- The constant, with its bodies decoded or still to be decoded from the module. -/
def Yields : Constant FullInfo Empty → LazyConstant → Prop
  | .scalar s, lz => lz = .scalar s
  | .tuple items, lz => ∃ l, lz = .tuple l ∧ YieldsAll items l
  | .frozenSet items, lz => ∃ l, lz = .frozenSet l ∧ YieldsAll items l
  | .code h c ks, lz => ∃ i l, (lz = .code h i l ∨ ∃ at_, lz = .encoded h at_ ∧ Reader.decodeBody big m at_ = some (i, l)) ∧
      i.expand m.bytes = some c ∧ YieldsAll ks l
  | .encoded _ e, _ => nomatch e
  | .slice lower upper step, lz => ∃ a b c, lz = .slice a b c ∧ Yields lower a ∧ Yields upper b ∧ Yields step c
termination_by structural k => k

def YieldsAll : List (Constant FullInfo Empty) → List LazyConstant → Prop
  | [], l => l = []
  | k :: ks, l => ∃ a as, l = a :: as ∧ Yields k a ∧ YieldsAll ks as
termination_by structural ks => ks

end

end Fits

section Sizes

variable {big : BigIntBytes} {x : Write} {xs : List Write} {n k : ℕ}

theorem AtLeast.max (h : AtLeast n x) (h' : AtLeast k x) : AtLeast (max n k) x :=
  fun p b p' hrun => Nat.max_le.mpr ⟨h p b p' hrun, h' p b p' hrun⟩

theorem atLeast_zero (x : Write) : AtLeast 0 x := fun _ _ _ _ => Nat.zero_le _

theorem atLeast_of_mem (h : AtLeast n x) (hx : x ∈ xs) : AtLeast n (seq xs) := by
  induction xs with
  | nil => cases hx
  | cons y xs ih =>
    intro p b p' hrun
    obtain ⟨a, c, q, hy, hxs, rfl⟩ := seq_cons hrun
    rw [List.length_append]
    rcases List.mem_cons.mp hx with rfl | hmem
    · exact (h p a q hy).trans (Nat.le_add_right _ _)
    · exact (ih hmem q c p' hxs).trans (Nat.le_add_left _ _)

theorem atLeast_tagged {tag : UInt8} (h : AtLeast n (seq xs)) : AtLeast (n + 1) (seq (pure [tag] :: xs)) := by
  have htag : AtLeast 1 (pure [tag]) := by
    intro p b p' hrun
    cases hrun
    exact le_rfl
  rw [Nat.add_comm]
  exact atLeast_cons htag h

theorem atLeast_counted {u : List UInt8} (h : AtLeast n x) : AtLeast n (seq [seq [pure u, x]]) :=
  atLeast_of_mem (atLeast_of_mem h (by simp)) (List.mem_singleton_self _)

theorem atLeast_code {h : Header} {c : FullInfo} (hx : AtLeast k x) : AtLeast k (Writer.code h c n x) := by
  have hbody : AtLeast k (body c n x) := by
    have hcounted : AtLeast k (seq [pure (Writer.uint n), x]) := atLeast_of_mem hx (by simp)
    exact atLeast_of_mem hcounted (by simp)
  have hblock : AtLeast k (Writer.bytes <$> body c n x) := by
    intro p b p' hrun
    obtain ⟨⟨w, q⟩, hw, hrun⟩ := Option.bind_eq_some_iff.mp hrun
    cases hrun
    have := hbody p w p' hw
    simp only [Writer.bytes, List.length_append]
    omega
  unfold Writer.code
  split_ifs
  · intro p b p' hrun
    cases hrun
  · exact atLeast_of_mem hblock (by simp)

theorem atLeast_scalar (s : Scalar) : AtLeast 1 (StateT.lift (scalar big s)) := by
  intro p b p' hrun
  obtain ⟨w, hw, hrun⟩ := Option.bind_eq_some_iff.mp hrun
  cases hrun
  cases s <;> cases hw <;> exact Nat.succ_le_succ (Nat.zero_le _)

mutual

/-- Every level of nesting is a byte at least. -/
theorem atLeast_constant : ∀ k : Constant FullInfo Empty, AtLeast k.depth (constant big k)
  | .scalar s => atLeast_scalar s
  | .tuple items => atLeast_tagged (atLeast_counted (atLeast_constants items))
  | .frozenSet items => atLeast_tagged (atLeast_counted (atLeast_constants items))
  | .code _ _ ks => atLeast_tagged (atLeast_of_mem (atLeast_code (atLeast_constants ks)) (List.mem_singleton_self _))
  | .encoded _ e => nomatch e
  | .slice lower upper step =>
    atLeast_tagged ((atLeast_of_mem (atLeast_constant lower) (by simp)).max
      ((atLeast_of_mem (atLeast_constant upper) (by simp)).max (atLeast_of_mem (atLeast_constant step) (by simp))))
termination_by structural k => k

theorem atLeast_constants : ∀ ks : List (Constant FullInfo Empty), AtLeast (depths ks) (constants big ks)
  | [] => atLeast_zero _
  | k :: ks => (atLeast_of_mem (atLeast_constant k) (by simp)).max (atLeast_of_mem (atLeast_constants ks) (by simp))
termination_by structural ks => ks

end

theorem depth_pos {I E : Type} (k : Constant I E) : 0 < k.depth := by
  cases k <;> exact Nat.succ_pos _

theorem atLeast_length (ks : List (Constant FullInfo Empty)) : AtLeast ks.length (constants big ks) := by
  induction ks with
  | nil => exact atLeast_zero _
  | cons k ks ih =>
    have hk : AtLeast 1 (constant big k) :=
      fun p b p' hrun => (depth_pos k).trans_le (atLeast_constant k p b p' hrun)
    have hks : AtLeast ks.length (seq [constants big ks]) := atLeast_of_mem ih (List.mem_singleton_self _)
    rw [List.length_cons, Nat.add_comm]
    exact atLeast_cons hk hks

end Sizes

section RoundTrip

variable {big : BigIntBytes} {m : Module}

mutual

theorem grows_constant : ∀ k : Constant FullInfo Empty, Grows (constant big k)
  | .scalar _ => grows_lift _
  | .tuple items => by
    have := grows_constants items
    simp [constant, this]
  | .frozenSet items => by
    have := grows_constants items
    simp [constant, this]
  | .code h c ks => by
    have := @grows_code h c ks.length _ (grows_constants ks)
    simp [constant, this]
  | .encoded _ e => nomatch e
  | .slice lower upper step => by
    have h₁ := grows_constant lower
    have h₂ := grows_constant upper
    have h₃ := grows_constant step
    simp [constant, h₁, h₂, h₃]
termination_by structural k => k

theorem grows_constants : ∀ ks : List (Constant FullInfo Empty), Grows (constants big ks)
  | [] => grows_pure []
  | k :: ks => by
    have h₁ := grows_constant k
    have h₂ := grows_constants ks
    simp [constants, h₁, h₂]
termination_by structural ks => ks

end

theorem Wrote.of_atLeast {α : Type} {x : Write} {r : ByteReader α} {P : α → Prop} {n : ℕ} (hn : AtLeast n x)
    (h : n ≤ m.bytes.length → Wrote m x r P) : Wrote m x r P :=
  fun p b p' hrun hp hm => Reads.of_le fun hle => h ((hn p b p' hrun).trans hle) p b p' hrun hp hm

/-- A tag, then what its constant is made of. -/
theorem Wrote.tagged {xs : List Write} {fuel : ℕ} {k : Constant FullInfo Empty} {tag : UInt8} (hxs : ∀ x ∈ xs, Grows x)
    (h : Wrote m (seq xs) (do
      if tag = 10 ∨ tag = 11 then
        let items ← Reader.list (Reader.constant big m fuel 0)
        return if tag = 10 then .tuple items else .frozenSet items
      else if tag = 12 then
        let (h, at_) ← Reader.code m (0 + 1)
        return .encoded h at_
      else if tag = 14 then
        let lower ← Reader.constant big m fuel 0
        let upper ← Reader.constant big m fuel 0
        let step ← Reader.constant big m fuel 0
        return .slice lower upper step
      else
        let s ← Reader.scalar big tag
        return .scalar s) (Yields big m k)) :
    Wrote m (seq (pure [tag] :: xs)) (Reader.constant big m (fuel + 1) 0) (Yields big m k) := by
  refine Wrote.cons (wrote_pure fun _ => reads_byte tag) (by simp) (grows_seq hxs) fun a ha => ?_
  subst ha
  exact h

theorem wrote_scalar (hbig : ∀ b, big.fromSignedBytesLe (big.toSignedBytesLe b) = b) (fuel : ℕ) (s : Scalar) :
    Wrote m (StateT.lift (Writer.scalar big s)) (Reader.constant big m (fuel + 1) 0) (Yields big m (.scalar s)) := by
  intro p b p' hrun _ hm
  obtain ⟨w, hw, hrun⟩ := Option.bind_eq_some_iff.mp hrun
  cases hrun
  obtain ⟨tag, rest, rfl, ⟨h₁, h₂, h₃, h₄⟩, hrest⟩ := reads_scalar hbig hm.small hw
  refine (reads_byte tag).bind fun a ha => ?_
  subst ha
  rw [if_neg (by simp [h₁, h₂]), if_neg h₃, if_neg h₄]
  refine hrest.bind_pure fun a ha => ?_
  subst ha
  rfl

theorem wrote_codeObject (depth : ℕ) {h : Header} {c : FullInfo} {ks : List (Constant FullInfo Empty)}
    (hdepth : depth ≤ MAX_NESTING) (hh : h.Fits m.filename) (hc : c.Fits)
    (hks : depths ks ≤ m.bytes.length →
      Wrote m (constants big ks) (many (Reader.constant big m m.bytes.length 0) ks.length) (YieldsAll big m ks)) :
    Wrote m (Writer.code h c ks.length (constants big ks)) (Reader.code m depth) fun v =>
      v.1 = h ∧ ∃ b, Reader.decodeBody big m v.2 = some b ∧ b.1.expand m.bytes = some c ∧ YieldsAll big m ks b.2 :=
  wrote_code hdepth hh (grows_constants ks) fun hwire => wrote_body hc hwire (atLeast_length ks) (grows_constants ks)
    (Wrote.of_atLeast (atLeast_constants ks) hks)

mutual

theorem wrote_constant (hbig : ∀ b, big.fromSignedBytesLe (big.toSignedBytesLe b) = b) :
    ∀ (k : Constant FullInfo Empty) (_ : k.Fits m.filename) (fuel : ℕ), k.depth ≤ fuel →
      Wrote m (Writer.constant big k) (Reader.constant big m fuel 0) (Yields big m k)
  | .scalar s, _, 0, hfuel => absurd hfuel (by simp [Constant.depth])
  | .scalar s, _, fuel + 1, _ => wrote_scalar hbig fuel s
  | .tuple items, hfits, 0, hfuel => absurd hfuel (by simp [Constant.depth])
  | .tuple items, hfits, fuel + 1, hfuel => by
    have hitems := wrote_constants hbig items hfits fuel (Nat.le_of_succ_le_succ hfuel)
    have hg := @grows_constants big items
    refine Wrote.tagged (by simp [hg]) ?_
    refine Wrote.cons (wrote_counted (atLeast_length items) hitems) (by simp [hg]) (by simp) fun l hl => ?_
    exact Wrote.nil ⟨l, rfl, hl⟩
  | .frozenSet items, hfits, 0, hfuel => absurd hfuel (by simp [Constant.depth])
  | .frozenSet items, hfits, fuel + 1, hfuel => by
    have hitems := wrote_constants hbig items hfits fuel (Nat.le_of_succ_le_succ hfuel)
    have hg := @grows_constants big items
    refine Wrote.tagged (by simp [hg]) ?_
    refine Wrote.cons (wrote_counted (atLeast_length items) hitems) (by simp [hg]) (by simp) fun l hl => ?_
    exact Wrote.nil ⟨l, rfl, hl⟩
  | .code h c ks, hfits, 0, hfuel => absurd hfuel (by simp [Constant.depth])
  | .code h c ks, ⟨hh, hc, hks⟩, fuel + 1, hfuel => by
    have hcode := @grows_code h c ks.length _ (@grows_constants big ks)
    have hread := wrote_codeObject 1 (by decide) hh hc (wrote_constants hbig ks hks m.bytes.length)
    refine Wrote.tagged (by simp [hcode]) ?_
    refine Wrote.cons hread hcode (by simp) fun v hv => ?_
    obtain ⟨h', at_⟩ := v
    obtain ⟨rfl, ⟨i, l⟩, hdecode, hexpand, hl⟩ := hv
    exact Wrote.nil ⟨i, l, .inr ⟨at_, rfl, hdecode⟩, hexpand, hl⟩
  | .encoded _ e, _, _, _ => nomatch e
  | .slice lower upper step, hfits, 0, hfuel => absurd hfuel (by simp [Constant.depth])
  | .slice lower upper step, ⟨h₁, h₂, h₃⟩, fuel + 1, hfuel => by
    have hle : max lower.depth (max upper.depth step.depth) ≤ fuel := Nat.le_of_succ_le_succ hfuel
    have hg₁ := @grows_constant big lower
    have hg₂ := @grows_constant big upper
    have hg₃ := @grows_constant big step
    refine Wrote.tagged (by simp [hg₁, hg₂, hg₃]) ?_
    refine Wrote.cons (wrote_constant hbig lower h₁ fuel (by omega)) hg₁ (by simp [hg₂, hg₃]) fun a ha => ?_
    refine Wrote.cons (wrote_constant hbig upper h₂ fuel (by omega)) hg₂ (by simp [hg₃]) fun b hb => ?_
    refine Wrote.cons (wrote_constant hbig step h₃ fuel (by omega)) hg₃ (by simp) fun c hc => ?_
    exact Wrote.nil ⟨a, b, c, rfl, ha, hb, hc⟩
termination_by structural k => k

theorem wrote_constants (hbig : ∀ b, big.fromSignedBytesLe (big.toSignedBytesLe b) = b) :
    ∀ (ks : List (Constant FullInfo Empty)) (_ : FitAll m.filename ks) (fuel : ℕ), depths ks ≤ fuel →
      Wrote m (Writer.constants big ks) (many (Reader.constant big m fuel 0) ks.length) (YieldsAll big m ks)
  | [], _, _, _ => Wrote.nil rfl
  | k :: ks, ⟨hk, hks⟩, fuel, hfuel => by
    have hle : max k.depth (depths ks) ≤ fuel := hfuel
    have hgs := @grows_constants big ks
    refine Wrote.cons (wrote_constant hbig k hk fuel (by omega)) (grows_constant k) (by simp [hgs]) fun a ha => ?_
    refine Wrote.cons (wrote_constants hbig ks hks fuel (by omega)) hgs (by simp) fun as has => ?_
    exact Wrote.nil ⟨a, as, rfl, ha, has⟩
termination_by structural ks => ks

end

end RoundTrip

end WeavePy.NativeCode
