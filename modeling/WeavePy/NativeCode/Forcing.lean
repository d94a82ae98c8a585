import WeavePy.NativeCode.Constants
import Mathlib.Logic.Relation

/-!
The sections of an encoded module: what the writer put into its pool, a reader finds there.
-/

namespace WeavePy.NativeCode

open ByteReader LittleEndian Writer

section Words

variable {bytes : List UInt8} {pos v : ℕ}

theorem word_eq (h : Slice bytes pos (toLe 4 v)) (hv : v < 2 ^ 32) : Module.word bytes pos = some v := by
  have hle := h.le
  have hread := h.take_drop
  rw [length_toLe] at hle hread
  rw [Module.word, if_pos hle, hread, ofLe_toLe hv]

end Words

section Names

variable {names : List String} {ends : List UInt8} {start i : ℕ}

/-- The text before the identifier numbered `i`. -/
def textBefore (names : List String) (i : ℕ) : List UInt8 := ((names.take i).map utf8).flatten

theorem textBefore_succ {s : String} (hs : names[i]? = some s) : textBefore names (i + 1) = textBefore names i ++ utf8 s := by
  simp [textBefore, List.take_add_one, hs]

theorem slice_text {s : String} (hs : names[i]? = some s) :
    Slice (names.map utf8).flatten (textBefore names i).length (utf8 s) := by
  refine ⟨textBefore names i, ((names.drop (i + 1)).map utf8).flatten, ?_, rfl⟩
  rw [← List.append_assoc, ← textBefore_succ hs, textBefore, ← List.flatten_append, ← List.map_append,
    List.take_append_drop]

theorem slice_nameEnds (h : nameEnds start names = some ends) (hi : i < names.length) :
    Slice ends (i * 4) (toLe 4 (start + (textBefore names (i + 1)).length)) ∧
      start + (textBefore names (i + 1)).length < 2 ^ 32 := by
  induction names generalizing start ends i with
  | nil => cases hi
  | cons s names ih =>
    rw [nameEnds] at h
    split_ifs at h with hsmall
    obtain ⟨rest, hrest, rfl⟩ := Option.map_eq_some_iff.mp h
    cases i with
    | zero =>
      have htext : (textBefore (s :: names) 1).length = (utf8 s).length := by simp [textBefore]
      rw [htext]
      exact ⟨⟨[], rest, rfl, rfl⟩, hsmall⟩
    | succ i =>
      have htext : start + (textBefore (s :: names) (i + 1 + 1)).length =
          start + (utf8 s).length + (textBefore names (i + 1)).length := by
        simp [textBefore]
        omega
      obtain ⟨⟨before, after, rfl, hlen⟩, hlt⟩ := ih hrest (Nat.lt_of_succ_lt_succ hi)
      rw [htext]
      refine ⟨⟨toLe 4 (start + (utf8 s).length) ++ before, after, by simp, ?_⟩, hlt⟩
      rw [List.length_append, length_toLe, hlen]
      omega

theorem length_nameEnds (h : nameEnds start names = some ends) : ends.length = names.length * 4 := by
  induction names generalizing start ends with
  | nil =>
    cases h
    rfl
  | cons s names ih =>
    rw [nameEnds] at h
    split_ifs at h with hsmall
    obtain ⟨rest, hrest, rfl⟩ := Option.map_eq_some_iff.mp h
    rw [List.length_append, length_toLe, ih hrest, List.length_cons]
    omega

theorem length_textBefore_le (names : List String) (i : ℕ) :
    (textBefore names i).length ≤ (names.map utf8).flatten.length := by
  conv_rhs => rw [← List.take_append_drop i names, List.map_append, List.flatten_append, List.length_append]
  exact Nat.le_add_right _ _

end Names

section Sections

variable {m : Module} {names : List String} {section_ : List UInt8}

theorem identifier_eq {i : ℕ} {s : String} (hsection : nameSection names = some section_)
    (hslice : Slice m.bytes m.namesAt section_) (htables : m.tablesAt = m.namesAt + section_.length)
    (hs : names[i]? = some s) : m.identifier i = some s := by
  unfold nameSection at hsection
  split_ifs at hsection with hcount
  obtain ⟨ends, hends, rfl⟩ := Option.map_eq_some_iff.mp hsection
  have hi : i < names.length := (List.getElem?_eq_some_iff.mp hs).1
  have hlen := length_nameEnds hends
  have hstop : Module.word m.bytes (m.namesAt + 4 + i * 4) = some (textBefore names (i + 1)).length := by
    obtain ⟨hat, hlt⟩ := slice_nameEnds hends hi
    rw [Nat.zero_add] at hat hlt
    have := hslice.left.right.trans hat
    rw [length_toLe] at this
    exact word_eq this hlt
  have hstart : (if i = 0 then some 0 else Module.word m.bytes (m.namesAt + 4 + (i - 1) * 4)) =
      some (textBefore names i).length := by
    cases i with
    | zero => rfl
    | succ i =>
      obtain ⟨hat, hlt⟩ := slice_nameEnds hends (Nat.lt_of_succ_lt hi)
      rw [Nat.zero_add] at hat hlt
      have := hslice.left.right.trans hat
      rw [length_toLe] at this
      exact word_eq this hlt
  have htext : Slice m.bytes (m.namesAt + 4 + names.length * 4 + (textBefore names i).length) (utf8 s) := by
    have := hslice.right.trans (slice_text hs)
    rwa [List.length_append, length_toLe, hlen, ← Nat.add_assoc] at this
  have hsucc : (textBefore names (i + 1)).length = (textBefore names i).length + (utf8 s).length := by
    rw [textBefore_succ hs, List.length_append]
  have hfits := length_textBefore_le names (i + 1)
  have hle := hslice.le
  simp only [List.length_append, length_toLe, hlen] at htables hle
  unfold Module.identifier
  rw [word_eq hslice.left.left hcount, Option.bind_eq_bind, Option.bind_some, if_neg (by omega)]
  dsimp only [Option.bind_eq_bind]
  rw [hstart, Option.bind_some, hstop, Option.bind_some, if_neg (by omega), hsucc, Nat.add_sub_cancel_left,
    htext.take_drop, fromUtf8_utf8]

end Sections

section Encoded

variable {big : BigIntBytes} {c : CodeObject FullInfo Empty} {bytes : List UInt8} {filename : String}

/-- The module of an encoded code object: the code object's bytes where a reader starts, up to the identifiers. -/
theorem module_of_encode (henc : encode big c = some bytes) (hsmall : bytes.length < 2 ^ 32) :
    ∃ m root p, Module.new bytes filename = some m ∧ m.filename = filename ∧ m.bytes = bytes ∧
      Writer.code c.header c.info c.constants.length (constants big c.constants) .new = some (root, p) ∧
      m.Covers p ∧ Slice bytes PREAMBLE root ∧ PREAMBLE + root.length = m.namesAt := by
  unfold encode at henc
  obtain ⟨⟨root, p⟩, hroot, henc⟩ := Option.bind_eq_some_iff.mp henc
  dsimp only at henc
  split_ifs at henc with hnamesAt
  obtain ⟨names, hnames, henc⟩ := Option.bind_eq_some_iff.mp henc
  split_ifs at henc with htablesAt
  have hbytes := Option.some.inj henc
  have hslice : Slice bytes 0 ([VERSION] ++ (toLe 4 (PREAMBLE + root.length + names.length) ++
      toLe 4 (PREAMBLE + root.length) ++ root ++ names ++ p.tables)) := by
    rw [← hbytes]
    exact slice_self _
  have hle := hslice.le
  simp only [List.length_append, length_toLe, List.length_singleton] at hle
  have hafter := hslice.right
  have htables := hafter.right
  have hnamesAt' := hafter.left.right
  have hrootAt := hafter.left.left.right
  have hwords := hafter.left.left.left
  simp only [List.length_append, length_toLe, List.length_singleton] at htables hnamesAt' hrootAt
  have hpre : PREAMBLE = 9 := rfl
  have hm : Module.new bytes filename =
      some ⟨filename, bytes, PREAMBLE + root.length, PREAMBLE + root.length + names.length⟩ := by
    have hhead : bytes.head? = some VERSION := by
      rw [← hbytes]
      rfl
    have h₁ : Module.word bytes 1 = some (PREAMBLE + root.length + names.length) := word_eq hwords.left htablesAt
    have h₅ : Module.word bytes 5 = some (PREAMBLE + root.length) := by
      have := word_eq hwords.right hnamesAt
      rwa [length_toLe] at this
    unfold Module.new
    rw [if_neg (by simp [hhead]), h₁, h₅]
    exact if_pos (by omega)
  refine ⟨_, root, p, hm, rfl, rfl, hroot, ⟨hsmall, ?_, fun i s hs => ?_, ?_⟩, hrootAt, rfl⟩
  · unfold nameSection at hnames
    split_ifs at hnames with hfew
    exact hfew
  · refine identifier_eq hnames ?_ rfl hs
    convert hnamesAt' using 1
    dsimp only
    omega
  · convert htables using 1
    dsimp only
    omega

end Encoded

end WeavePy.NativeCode

/-!
The round trip, and bodies decoded one at a time.
-/

namespace WeavePy.NativeCode

open ByteReader Writer

open Relation (ReflTransGen)

mutual

/-- The constant with its tables decoded. -/
def Constant.expand (bytes : List UInt8) : Constant LazyInfo Empty → Option (Constant FullInfo Empty)
  | .scalar s => some (.scalar s)
  | .tuple items => (expandAll bytes items).map .tuple
  | .frozenSet items => (expandAll bytes items).map .frozenSet
  | .code h i ks => do
    let c ← i.expand bytes
    let ks ← expandAll bytes ks
    return .code h c ks
  | .encoded _ e => nomatch e
  | .slice lower upper step => do
    let lower ← lower.expand bytes
    let upper ← upper.expand bytes
    let step ← step.expand bytes
    return .slice lower upper step
termination_by structural k => k

def expandAll (bytes : List UInt8) : List (Constant LazyInfo Empty) → Option (List (Constant FullInfo Empty))
  | [] => some []
  | k :: ks => do
    let k ← k.expand bytes
    let ks ← expandAll bytes ks
    return k :: ks
termination_by structural ks => ks

end

mutual

/-- With every body decoded. -/
def Constant.forced : Constant LazyInfo Empty → LazyConstant
  | .scalar s => .scalar s
  | .tuple items => .tuple (forcedAll items)
  | .frozenSet items => .frozenSet (forcedAll items)
  | .code h i ks => .code h i (forcedAll ks)
  | .encoded _ e => nomatch e
  | .slice lower upper step => .slice lower.forced upper.forced step.forced
termination_by structural k => k

def forcedAll : List (Constant LazyInfo Empty) → List LazyConstant
  | [] => []
  | k :: ks => k.forced :: forcedAll ks
termination_by structural ks => ks

end

section Forces

variable (big : BigIntBytes) (m : Module)

/-- One body, anywhere in the constant, is decoded. -/
inductive Forces : LazyConstant → LazyConstant → Prop
  | body {h at_ i ks} (hdecode : Reader.decodeBody big m at_ = some (i, ks)) : Forces (.encoded h at_) (.code h i ks)
  | tuple {k k'} (before after) (hk : Forces k k') :
    Forces (.tuple (before ++ k :: after)) (.tuple (before ++ k' :: after))
  | frozenSet {k k'} (before after) (hk : Forces k k') :
    Forces (.frozenSet (before ++ k :: after)) (.frozenSet (before ++ k' :: after))
  | code {k k'} (h i before after) (hk : Forces k k') :
    Forces (.code h i (before ++ k :: after)) (.code h i (before ++ k' :: after))
  | lower {k k'} (upper step) (hk : Forces k k') : Forces (.slice k upper step) (.slice k' upper step)
  | upper {k k'} (lower step) (hk : Forces k k') : Forces (.slice lower k step) (.slice lower k' step)
  | step {k k'} (lower upper) (hk : Forces k k') : Forces (.slice lower upper k) (.slice lower upper k')

/-- A body in the constant still to be decoded. -/
inductive Pending (at_ : ℕ) : LazyConstant → Prop
  | body (h) : Pending at_ (.encoded h at_)
  | tuple {k items} (hmem : k ∈ items) (hk : Pending at_ k) : Pending at_ (.tuple items)
  | frozenSet {k items} (hmem : k ∈ items) (hk : Pending at_ k) : Pending at_ (.frozenSet items)
  | code {k h i ks} (hmem : k ∈ ks) (hk : Pending at_ k) : Pending at_ (.code h i ks)
  | lower {k upper step} (hk : Pending at_ k) : Pending at_ (.slice k upper step)
  | upper {k lower step} (hk : Pending at_ k) : Pending at_ (.slice lower k step)
  | step {k lower upper} (hk : Pending at_ k) : Pending at_ (.slice lower upper k)

end Forces

section Checks

variable {big : BigIntBytes} {m : Module} {k k' : LazyConstant} {n : ℕ}

theorem mapM_context {f : LazyConstant → Option (Constant LazyInfo Empty)} (before after : List LazyConstant)
    (h : f k = f k') : (before ++ k :: after).mapM f = (before ++ k' :: after).mapM f := by
  rw [List.mapM_append, List.mapM_append, List.mapM_cons, List.mapM_cons, h]

/-- Checking does not see which bodies are decoded. -/
theorem Forces.check_eq (h : Forces big m k k') (n : ℕ) :
    Reader.checkConstant big m n k = Reader.checkConstant big m n k' := by
  induction h generalizing n with
  | body hdecode =>
    cases n with
    | zero => rfl
    | succ n => simp [Reader.checkConstant, hdecode]
  | tuple before after _ ih | frozenSet before after _ ih | code _ _ before after _ ih =>
    cases n with
    | zero => rfl
    | succ n => simp only [Reader.checkConstant, mapM_context before after (ih n)]
  | lower _ _ _ ih | upper _ _ _ ih | step _ _ _ ih =>
    cases n with
    | zero => rfl
    | succ n => simp only [Reader.checkConstant, ih n]

theorem exists_of_mapM {α β : Type} {f : α → Option β} {l : List α} {l' : List β} {a : α} (h : l.mapM f = some l')
    (ha : a ∈ l) : ∃ b, f a = some b := by
  induction l generalizing l' with
  | nil => cases ha
  | cons x l ih =>
    rw [List.mapM_cons] at h
    obtain ⟨b, hb, h⟩ := Option.bind_eq_some_iff.mp h
    obtain ⟨bs, hbs, -⟩ := Option.bind_eq_some_iff.mp h
    rcases List.mem_cons.mp ha with rfl | hmem
    · exact ⟨b, hb⟩
    · exact ih hbs hmem

/-- What passes the check has only bodies that decode. -/
theorem Pending.decodes {at_ : ℕ} (h : Pending at_ k) {e : Constant LazyInfo Empty}
    (he : Reader.checkConstant big m n k = some e) : ∃ v, Reader.decodeBody big m at_ = some v := by
  induction h generalizing n e with
  | body h =>
    cases n with
    | zero => cases he
    | succ n =>
      obtain ⟨v, hv, -⟩ := Option.bind_eq_some_iff.mp he
      exact ⟨v, hv⟩
  | tuple hmem _ ih | frozenSet hmem _ ih | code hmem _ ih =>
    cases n with
    | zero => cases he
    | succ n =>
      obtain ⟨es, hes, -⟩ := Option.map_eq_some_iff.mp he
      obtain ⟨e', he'⟩ := exists_of_mapM hes hmem
      exact ih he'
  | lower _ ih =>
    cases n with
    | zero => cases he
    | succ n =>
      obtain ⟨a, ha, -⟩ := Option.bind_eq_some_iff.mp he
      exact ih ha
  | upper _ ih =>
    cases n with
    | zero => cases he
    | succ n =>
      obtain ⟨a, -, he⟩ := Option.bind_eq_some_iff.mp he
      obtain ⟨b, hb, -⟩ := Option.bind_eq_some_iff.mp he
      exact ih hb
  | step _ ih =>
    cases n with
    | zero => cases he
    | succ n =>
      obtain ⟨a, -, he⟩ := Option.bind_eq_some_iff.mp he
      obtain ⟨b, -, he⟩ := Option.bind_eq_some_iff.mp he
      obtain ⟨c, hc, -⟩ := Option.bind_eq_some_iff.mp he
      exact ih hc

theorem mapM_cons_some {α β : Type} {f : α → Option β} {a : α} {l : List α} {l' : List β}
    (h : (a :: l).mapM f = some l') : ∃ b bs, f a = some b ∧ l.mapM f = some bs ∧ l' = b :: bs := by
  rw [List.mapM_cons] at h
  obtain ⟨b, hb, h⟩ := Option.bind_eq_some_iff.mp h
  obtain ⟨bs, hbs, h⟩ := Option.bind_eq_some_iff.mp h
  cases h
  exact ⟨b, bs, hb, hbs, rfl⟩

mutual

theorem check_forced : ∀ (e : Constant LazyInfo Empty) {n : ℕ} {e' : Constant LazyInfo Empty},
    Reader.checkConstant big m n e.forced = some e' → e' = e
  | _, 0, _, h => by cases h
  | .scalar s, n + 1, _, h => by
    cases h
    rfl
  | .tuple items, n + 1, _, h => by
    obtain ⟨es, hes, rfl⟩ := Option.map_eq_some_iff.mp h
    rw [check_forcedAll items hes]
  | .frozenSet items, n + 1, _, h => by
    obtain ⟨es, hes, rfl⟩ := Option.map_eq_some_iff.mp h
    rw [check_forcedAll items hes]
  | .code _ _ ks, n + 1, _, h => by
    obtain ⟨es, hes, rfl⟩ := Option.map_eq_some_iff.mp h
    rw [check_forcedAll ks hes]
  | .encoded _ e, _, _, _ => nomatch e
  | .slice lower upper step, n + 1, _, h => by
    obtain ⟨a, ha, h⟩ := Option.bind_eq_some_iff.mp h
    obtain ⟨b, hb, h⟩ := Option.bind_eq_some_iff.mp h
    obtain ⟨c, hc, h⟩ := Option.bind_eq_some_iff.mp h
    cases h
    rw [check_forced lower ha, check_forced upper hb, check_forced step hc]
termination_by structural e => e

theorem check_forcedAll : ∀ (es : List (Constant LazyInfo Empty)) {n : ℕ} {es' : List (Constant LazyInfo Empty)},
    (forcedAll es).mapM (Reader.checkConstant big m n) = some es' → es' = es
  | [], _, _, h => by
    cases h
    rfl
  | e :: es, n, _, h => by
    obtain ⟨b, bs, hb, hbs, rfl⟩ := mapM_cons_some h
    rw [check_forced e hb, check_forcedAll es hbs]
termination_by structural es => es

end

/-- Steps at each place of a list are steps of what holds the list. -/
theorem forces_list {f : List LazyConstant → LazyConstant}
    (hf : ∀ {k k'} before after, Forces big m k k' → Forces big m (f (before ++ k :: after)) (f (before ++ k' :: after)))
    {l : List LazyConstant} {es : List (Constant LazyInfo Empty)} (before : List LazyConstant)
    (h : List.Forall₂ (fun k e => ReflTransGen (Forces big m) k e.forced) l es) :
    ReflTransGen (Forces big m) (f (before ++ l)) (f (before ++ forcedAll es)) := by
  induction h generalizing before with
  | nil => exact .refl
  | @cons k e l es hk _ ih =>
    have hhead : ReflTransGen (Forces big m) (f (before ++ k :: l)) (f (before ++ e.forced :: l)) :=
      hk.lift (fun k => f (before ++ k :: l)) fun _ _ => hf before l
    have hrest := ih (before ++ [e.forced])
    simp only [List.append_assoc, List.singleton_append] at hrest
    exact hhead.trans hrest

theorem forall₂_of_mapM {α β : Type} {f : α → Option β} {R : α → β → Prop} (hf : ∀ a b, f a = some b → R a b)
    {l : List α} {l' : List β} (h : l.mapM f = some l') : List.Forall₂ R l l' := by
  induction l generalizing l' with
  | nil =>
    cases h
    exact .nil
  | cons a l ih =>
    obtain ⟨b, bs, hb, hbs, rfl⟩ := mapM_cons_some h
    exact .cons (hf a b hb) (ih hbs)

/-- What passes the check can be decoded throughout. -/
theorem forces_of_check {e : Constant LazyInfo Empty} (h : Reader.checkConstant big m n k = some e) :
    ReflTransGen (Forces big m) k e.forced := by
  induction n generalizing k e with
  | zero => cases h
  | succ n ih =>
    have hlist {l : List LazyConstant} {es : List (Constant LazyInfo Empty)}
        (hes : l.mapM (Reader.checkConstant big m n) = some es) :
        List.Forall₂ (fun k e => ReflTransGen (Forces big m) k e.forced) l es := forall₂_of_mapM (fun _ _ => ih) hes
    cases k with
    | scalar s =>
      cases h
      exact .refl
    | tuple items =>
      obtain ⟨es, hes, rfl⟩ := Option.map_eq_some_iff.mp h
      exact forces_list Forces.tuple [] (hlist hes)
    | frozenSet items =>
      obtain ⟨es, hes, rfl⟩ := Option.map_eq_some_iff.mp h
      exact forces_list Forces.frozenSet [] (hlist hes)
    | code hd i ks =>
      obtain ⟨es, hes, rfl⟩ := Option.map_eq_some_iff.mp h
      exact forces_list (Forces.code hd i) [] (hlist hes)
    | encoded hd at_ =>
      obtain ⟨⟨i, ks⟩, hbody, h⟩ := Option.bind_eq_some_iff.mp h
      obtain ⟨es, hes, rfl⟩ := Option.map_eq_some_iff.mp h
      exact .head (.body hbody) (forces_list (Forces.code hd i) [] (hlist hes))
    | slice lower upper step =>
      obtain ⟨a, ha, h⟩ := Option.bind_eq_some_iff.mp h
      obtain ⟨b, hb, h⟩ := Option.bind_eq_some_iff.mp h
      obtain ⟨c, hc, h⟩ := Option.bind_eq_some_iff.mp h
      cases h
      have h₁ : ReflTransGen (Forces big m) (.slice lower upper step) (.slice a.forced upper step) :=
        (ih ha).lift (fun k => Constant.slice k upper step) fun _ _ => Forces.lower upper step
      have h₂ : ReflTransGen (Forces big m) (.slice a.forced upper step) (.slice a.forced b.forced step) :=
        (ih hb).lift (fun k => Constant.slice a.forced k step) fun _ _ => Forces.upper a.forced step
      have h₃ : ReflTransGen (Forces big m) (.slice a.forced b.forced step) (.slice a.forced b.forced c.forced) :=
        (ih hc).lift (fun k => Constant.slice a.forced b.forced k) fun _ _ => Forces.step a.forced b.forced
      exact h₁.trans (h₂.trans h₃)

mutual

/-- What reads back passes the check, to the constant once its tables are decoded. -/
theorem check_yields : ∀ (k : Constant FullInfo Empty) {lz : LazyConstant} {n : ℕ}, Yields big m k lz → k.depth ≤ n →
    ∃ e, Reader.checkConstant big m n lz = some e ∧ e.expand m.bytes = some k
  | k, _, 0, _, hn => absurd hn (Nat.not_le.mpr (depth_pos k))
  | .scalar s, _, n + 1, h, _ => by
    subst h
    exact ⟨.scalar s, rfl, rfl⟩
  | .tuple items, _, n + 1, ⟨l, hlz, hl⟩, hn => by
    subst hlz
    obtain ⟨es, hes, hexpand⟩ := check_yieldsAll items hl (Nat.le_of_succ_le_succ hn)
    exact ⟨.tuple es, by simp [Reader.checkConstant, hes], by simp [Constant.expand, hexpand]⟩
  | .frozenSet items, _, n + 1, ⟨l, hlz, hl⟩, hn => by
    subst hlz
    obtain ⟨es, hes, hexpand⟩ := check_yieldsAll items hl (Nat.le_of_succ_le_succ hn)
    exact ⟨.frozenSet es, by simp [Reader.checkConstant, hes], by simp [Constant.expand, hexpand]⟩
  | .code h c ks, _, n + 1, ⟨i, l, hlz, hi, hl⟩, hn => by
    obtain ⟨es, hes, hexpand⟩ := check_yieldsAll ks hl (Nat.le_of_succ_le_succ hn)
    refine ⟨.code h i es, ?_, by simp [Constant.expand, hi, hexpand]⟩
    obtain rfl | ⟨at_, rfl, hbody⟩ := hlz
    · simp [Reader.checkConstant, hes]
    · simp [Reader.checkConstant, hbody, hes]
  | .encoded _ e, _, _, _, _ => nomatch e
  | .slice lower upper step, _, n + 1, ⟨a, b, c, hlz, ha, hb, hc⟩, hn => by
    have hle : max lower.depth (max upper.depth step.depth) ≤ n := Nat.le_of_succ_le_succ hn
    subst hlz
    obtain ⟨x, hx, hx'⟩ := check_yields lower ha (by omega : lower.depth ≤ n)
    obtain ⟨y, hy, hy'⟩ := check_yields upper hb (by omega : upper.depth ≤ n)
    obtain ⟨z, hz, hz'⟩ := check_yields step hc (by omega : step.depth ≤ n)
    exact ⟨.slice x y z, by simp [Reader.checkConstant, hx, hy, hz], by simp [Constant.expand, hx', hy', hz']⟩
termination_by structural k => k

theorem check_yieldsAll : ∀ (ks : List (Constant FullInfo Empty)) {l : List LazyConstant} {n : ℕ},
    YieldsAll big m ks l → depths ks ≤ n →
      ∃ es, l.mapM (Reader.checkConstant big m n) = some es ∧ expandAll m.bytes es = some ks
  | [], _, n, h, _ => by
    subst h
    exact ⟨[], rfl, rfl⟩
  | k :: ks, _, n, ⟨a, as, hl, ha, has⟩, hn => by
    have hle : max k.depth (depths ks) ≤ n := hn
    subst hl
    obtain ⟨e, he, he'⟩ := check_yields k ha (by omega : k.depth ≤ n)
    obtain ⟨es, hes, hes'⟩ := check_yieldsAll ks has (by omega : depths ks ≤ n)
    exact ⟨e :: es, by simp [List.mapM_cons, he, hes], by simp [expandAll, he', hes']⟩
termination_by structural ks => ks

end

end Checks

section RoundTrip

variable {I E : Type}

/-- The code object as a constant. -/
def CodeObject.constant (c : CodeObject I E) : Constant I E := .code c.header c.info c.constants

variable {big : BigIntBytes} {m : Module} {c : CodeObject FullInfo Empty} {bytes : List UInt8} {filename : String}

theorem decodeLazily_encode (hbig : ∀ b, big.fromSignedBytesLe (big.toSignedBytesLe b) = b)
    (hfits : c.constant.Fits filename) (henc : encode big c = some bytes) (hsmall : bytes.length < 2 ^ 32) :
    ∃ m lz, Module.new bytes filename = some m ∧ m.bytes = bytes ∧
      Reader.decodeLazily big bytes filename = some lz ∧ Yields big m c.constant lz.constant ∧
      c.constant.depth ≤ bytes.length + 1 := by
  obtain ⟨m, root, p, hm, hname, hbytes, hroot, hcovers, hslice, hnamesAt⟩ :=
    @module_of_encode big c bytes filename henc hsmall
  obtain ⟨hh, hc, hks⟩ : c.header.Fits filename ∧ c.info.Fits ∧ FitAll filename c.constants := hfits
  rw [← hname] at hh hks
  have hread := wrote_codeObject 0 (by decide) hh hc (wrote_constants hbig c.constants hks m.bytes.length) .new root p hroot
    (fun s i h => nomatch h) hcovers
  rw [hbytes] at hread
  obtain ⟨⟨h, at_⟩, hrun, hhead, ⟨i, l⟩, hbody, hi, hl⟩ := hread PREAMBLE hslice
  have hdepth : depths c.constants ≤ root.length := atLeast_code (atLeast_constants c.constants) .new root p hroot
  have hle := hslice.le
  dsimp only at hhead hi hl
  subst hhead
  refine ⟨m, ⟨c.header, i, l⟩, hm, hbytes, ?_, ⟨i, l, .inl rfl, hbytes.symm ▸ hi, hl⟩, ?_⟩
  · unfold Reader.decodeLazily
    rw [hm, Option.bind_eq_bind, Option.bind_some, hrun]
    simp [hnamesAt, hbody]
  · change depths c.constants + 1 ≤ _
    omega

section Sample

open LittleEndian

/-- Signed bytes as two's complement, as few as do. -/
def numBigint : BigIntBytes := ⟨toSignedLe, ofSignedLe⟩

def sampleHeader (name : String) : Header :=
  ⟨name, name, "m.py", 1, 0, 0, false, true, false, true, false, false, false, true, false, false, false, 0, some 3⟩

def sampleInfo (names : List String) : FullInfo :=
  ⟨[⟨.Nop, 300⟩], names, names, [], [], [⟨0, 1, 2, 3, true⟩], [1, 1, 7], [.default, ⟨1, 0, 4⟩], [1, 2, 3], [], [], [], false⟩

/-- Code in a tuple, which holds code of the module's name. -/
def sample : CodeObject FullInfo Empty :=
  ⟨sampleHeader "m", sampleInfo ["f", "x"],
    [.tuple [.scalar (.bigInt (-200)),
        .code (sampleHeader "f") (sampleInfo ["x"]) [.code (sampleHeader "m") (sampleInfo []) []]],
      .slice (.scalar .none) (.scalar (.bool true)) (.scalar (.str "x"))]⟩

theorem sampleHeader_fits (name : String) : (sampleHeader name).Fits "m.py" := by
  refine ⟨rfl, fun s hs => ?_⟩
  cases hs
  decide

theorem sampleInfo_fits (names : List String) : (sampleInfo names).Fits := ⟨by simp [sampleInfo, MAX_TABLE_LEN],
  by simp [sampleInfo, MAX_TABLE_LEN], by simp [sampleInfo, MAX_TABLE_LEN]⟩

end Sample

end RoundTrip

end WeavePy.NativeCode
