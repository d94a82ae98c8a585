import WeavePy.Flowgraph.UnsafeLocals

/-!
Scanning blocks until no mask grows.
-/

namespace WeavePy.Flowgraph

open Rounds

variable {n m : ℕ} {cfg cfg' : Cfg n m} {S S' S'' : Scan n m} {a b c : Fin n} {u v w : Mask}
  {instr : CfgInstr n m} {l : List (CfgInstr n m)} {tr : List (CfgInstr n m)} {i x : ℕ}

/-- What binds the local `x`: a store, and a load, which raises when it is unbound. -/
def binds (instr : CfgInstr n m) (x : ℕ) : Prop :=
  instr.arg.toNat = x ∧ (instr.op = .StoreFast ∨ instr.op = .LoadFast ∨ instr.op = .LoadFastCheck)

/-- What can leave the local `x` unbound. -/
def unbinds (instr : CfgInstr n m) (x : ℕ) : Prop :=
  instr.arg.toNat = x ∧
    (instr.op = .DeleteFast ∨ instr.op = .LoadFastAndClear ∨ instr.op = .StoreFastMaybeNull)

/-- Something in `tr` binds `x`, and nothing after it unbinds it. -/
def BoundIn (x : ℕ) (tr : List (CfgInstr n m)) : Prop :=
  ∃ before instr after, tr = before ++ instr :: after ∧ binds instr x ∧
    ∀ later ∈ after, ¬unbinds later x

/-- A parameter is bound before the first instruction. -/
def Bound (nparams x : ℕ) (tr : List (CfgInstr n m)) : Prop :=
  (x < nparams ∧ ∀ instr ∈ tr, ¬unbinds instr x) ∨ BoundIn x tr

/-- Control can be before instruction `i` of a block after the instructions `tr`. An exception leaves
from before the instruction it is raised in. -/
inductive Path (cfg : Cfg n m) : Fin n → ℕ → List (CfgInstr n m) → Prop where
  | entry : Path cfg cfg.entry 0 []
  | step {b : Fin n} {i tr instr} : Path cfg b i tr → (cfg.blocks b).instrs[i]? = some instr →
    Path cfg b (i + 1) (tr ++ [instr])
  | fallthrough {b : Fin n} {tr t} : Path cfg b (cfg.blocks b).instrs.length tr →
    (cfg.blocks b).hasFallthrough = true → (cfg.blocks b).next = some t → Path cfg t 0 tr
  | jump {b : Fin n} {i tr instr t} : Path cfg b i tr → (cfg.blocks b).instrs[i]? = some instr →
    isJump instr.op = true → instr.target = some t → Path cfg t 0 (tr ++ [instr])
  | exception {b : Fin n} {i tr instr h} : Path cfg b i tr → (cfg.blocks b).instrs[i]? = some instr →
    instr.except = some h → Path cfg (cfg.handlers h).block 0 tr

/-- The blocks are chained, only the last instruction of a block jumps, jumps and handlers stay on the
chain, and every load names a local. -/
structure WellFormed (cfg : Cfg n m) (nlocals : ℕ) (blocks : List (Fin n)) : Prop where
  chain : cfg.chain = .ok blocks
  jumpsLast : ∀ b ∈ blocks, ∀ i instr, (cfg.blocks b).instrs[i]? = some instr →
    isJump instr.op = true → i + 1 = (cfg.blocks b).instrs.length
  targets : ∀ b ∈ blocks, ∀ instr ∈ (cfg.blocks b).instrs, ∀ t, isJump instr.op = true →
    instr.target = some t → t ∈ blocks
  handlers : ∀ b ∈ blocks, ∀ instr ∈ (cfg.blocks b).instrs, ∀ h, instr.except = some h →
    (cfg.handlers h).block ∈ blocks
  locals : ∀ b ∈ blocks, ∀ instr ∈ (cfg.blocks b).instrs, instr.op = .LoadFast →
    instr.arg.toNat < nlocals

/-- An instruction after the pass: itself, or a load that is checked now. -/
def Checked (old new : CfgInstr n m) : Prop :=
  new = old ∨ old.op = .LoadFast ∧ new = { old with op := .LoadFastCheck }

theorem boundIn_append : BoundIn x (tr ++ [instr]) ↔
    binds instr x ∨ BoundIn x tr ∧ ¬unbinds instr x := by
  constructor
  · rintro ⟨before, bound, after, htr, hbind, hafter⟩
    rcases List.eq_nil_or_concat after with rfl | ⟨rest, last, rfl⟩
    · obtain ⟨rfl, hlast⟩ := List.append_inj' htr rfl
      obtain rfl := List.singleton_inj.mp hlast
      exact .inl hbind
    · rw [List.concat_eq_append, ← List.cons_append, ← List.append_assoc] at htr
      obtain ⟨rfl, hlast⟩ := List.append_inj' htr rfl
      obtain rfl := List.singleton_inj.mp hlast
      right
      refine ⟨⟨before, bound, rest, rfl, hbind, ?_⟩, hafter instr (by simp)⟩
      exact fun later hlater => hafter later (by simp [hlater])
  · rintro (hbind | ⟨⟨before, bound, after, rfl, hbind, hafter⟩, hnot⟩)
    · exact ⟨tr, instr, [], rfl, hbind, by simp⟩
    · refine ⟨before, bound, after ++ [instr], by simp, hbind, ?_⟩
      intro later hlater
      rcases List.mem_append.mp hlater with hlater | hlater
      · exact hafter later hlater
      · obtain rfl := List.mem_singleton.mp hlater
        exact hnot

theorem bound_append {nparams : ℕ} : Bound nparams x (tr ++ [instr]) ↔
    binds instr x ∨ Bound nparams x tr ∧ ¬unbinds instr x := by
  rw [Bound, boundIn_append, Bound]
  constructor
  · rintro (⟨hx, hall⟩ | hbind | ⟨hin, hnot⟩)
    · exact .inr ⟨.inl ⟨hx, fun j hj => hall j (by simp [hj])⟩, hall instr (by simp)⟩
    · exact .inl hbind
    · exact .inr ⟨.inr hin, hnot⟩
  · rintro (hbind | ⟨⟨hx, hall⟩ | hin, hnot⟩)
    · exact .inr (.inl hbind)
    · left
      refine ⟨hx, fun j hj => ?_⟩
      rcases List.mem_append.mp hj with hj | hj
      · exact hall j hj
      · obtain rfl := List.mem_singleton.mp hj
        exact hnot
    · exact .inr (.inr ⟨hin, hnot⟩)

/-! The masks. -/

/-- Every bit of `u` is one of `v`. -/
def Within (u v : Mask) : Prop := ∀ x, u.getLsbD x = true → v.getLsbD x = true

theorem Within.refl (u : Mask) : Within u u := fun _ h => h

theorem Within.trans (h : Within u v) (h' : Within v w) : Within u w := fun x hx => h' x (h x hx)

theorem within_or_left : Within u (u ||| v) := by
  intro x hx
  rw [BitVec.getLsbD_or, hx, Bool.true_or]

theorem within_or_right : Within v (u ||| v) := by
  intro x hx
  rw [BitVec.getLsbD_or, hx, Bool.or_true]

theorem bit_getLsbD {k : ℕ} (hx : x < 64) : ((1 : Mask) <<< k).getLsbD x = decide (k = x) := by
  rw [BitVec.getLsbD_shiftLeft, decide_eq_true hx, Bool.true_and]
  by_cases hlt : x < k
  · rw [decide_eq_true hlt, decide_eq_false (show k ≠ x by omega)]
    rfl
  · rw [decide_eq_false hlt, Bool.not_false, Bool.true_and, show (1 : Mask) = 1#64 from rfl,
      BitVec.getLsbD_one]
    simp only [show x - k = 0 ↔ k = x by omega]
    simp

theorem scanInstr_far (h : 64 ≤ instr.arg.toNat) : scanInstr u instr = (instr, u) := if_pos h

/-- After an instruction a local may be unbound when it unbinds it, or it might be before and is not
bound. -/
theorem scanInstr_getLsbD (hx : x < 64) : (scanInstr u instr).2.getLsbD x = true ↔
    unbinds instr x ∨ u.getLsbD x = true ∧ ¬binds instr x := by
  obtain ⟨op, arg, loc, target, except⟩ := instr
  by_cases harg : 64 ≤ arg.toNat
  · rw [scanInstr, if_pos harg]
    simp only [unbinds, binds, show arg.toNat ≠ x by omega, false_and, not_false_eq_true, and_true,
      false_or]
  · cases op
    case DeleteFast | LoadFastAndClear | StoreFastMaybeNull =>
      rw [scanInstr, if_neg harg]
      simp only [BitVec.getLsbD_or, bit_getLsbD hx]
      simp only [unbinds, binds, Bool.or_eq_true, decide_eq_true_eq]
      simp [or_comm]
    case StoreFast | LoadFastCheck | LoadFast =>
      rw [scanInstr, if_neg harg]
      simp only [BitVec.getLsbD_and, BitVec.getLsbD_not, bit_getLsbD hx, decide_eq_true hx]
      simp [unbinds, binds]
    all_goals
      rw [scanInstr, if_neg harg]
      simp [unbinds, binds]

/-- The only change is that a load is checked. -/
theorem scanInstr_eq : (scanInstr u instr).1 = instr ∨ instr.op = .LoadFast ∧
    scanInstr u instr = scanInstr u { instr with op := .LoadFastCheck } ∧
      (scanInstr u instr).1 = { instr with op := .LoadFastCheck } := by
  by_cases harg : 64 ≤ instr.arg.toNat
  · rw [scanInstr_far harg]
    exact .inl rfl
  · obtain ⟨op, arg, loc, target, except⟩ := instr
    cases op
    case LoadFast =>
      simp only [scanInstr, if_neg harg]
      split_ifs
      · exact .inr ⟨trivial, rfl, rfl⟩
      · exact .inl rfl
    all_goals
      simp only [scanInstr, if_neg harg]
      exact .inl trivial

theorem scanInstr_checked : Checked instr (scanInstr u instr).1 := by
  rcases @scanInstr_eq _ _ u instr with h | ⟨hop, -, h⟩
  · exact .inl h
  · exact .inr ⟨hop, h⟩

theorem scanInstr_again : scanInstr u (scanInstr u instr).1 = scanInstr u instr := by
  rcases @scanInstr_eq _ _ u instr with h | ⟨-, hsame, h⟩
  · rw [h]
  · rw [h, hsame]

theorem scanInstrs_checked : List.Forall₂ Checked l (scanInstrs u l).1 := by
  induction l generalizing u with
  | nil => exact .nil
  | cons instr l ih => exact .cons scanInstr_checked ih

theorem scanInstrs_again : scanInstrs u (scanInstrs u l).1 = scanInstrs u l := by
  induction l generalizing u with
  | nil => rfl
  | cons instr l ih =>
    simp only [scanInstrs]
    rw [scanInstr_again, ih]

theorem handlerEdges_again :
    handlerEdges cfg u (scanInstrs u l).1 = handlerEdges cfg u l := by
  induction l generalizing u with
  | nil => rfl
  | cons instr l ih =>
    simp only [scanInstrs, handlerEdges]
    rw [scanInstr_again, ih]
    congr 2
    rcases @scanInstr_eq _ _ u instr with h | ⟨-, -, h⟩
    · rw [h]
    · rw [h]

/-! What a graph looks like besides the instructions and the masks. -/

/-- Graphs that differ in masks, visits and checked loads. -/
structure SameShape (cfg cfg' : Cfg n m) : Prop where
  entry : cfg'.entry = cfg.entry
  handlers : cfg'.handlers = cfg.handlers
  next : ∀ b, (cfg'.blocks b).next = (cfg.blocks b).next
  instrs : ∀ b, List.Forall₂ Checked (cfg.blocks b).instrs (cfg'.blocks b).instrs

theorem Checked.trans {old new last : CfgInstr n m} (h : Checked old new) (h' : Checked new last) :
    Checked old last := by
  rcases h with rfl | ⟨hop, rfl⟩
  · exact h'
  · rcases h' with rfl | ⟨hop', -⟩
    · exact .inr ⟨hop, rfl⟩
    · cases hop'

theorem forall₂_checked_trans {l l' l'' : List (CfgInstr n m)} (h : List.Forall₂ Checked l l')
    (h' : List.Forall₂ Checked l' l'') : List.Forall₂ Checked l l'' := by
  induction h generalizing l'' with
  | nil => exact h'
  | cons hc _ ih =>
    cases h' with
    | cons hc' h' => exact .cons (hc.trans hc') (ih h')

theorem SameShape.refl (cfg : Cfg n m) : SameShape cfg cfg := by
  constructor
  · rfl
  · rfl
  · exact fun _ => rfl
  · exact fun _ => List.forall₂_same.mpr fun _ _ => .inl rfl

theorem SameShape.trans {cfg'' : Cfg n m} (h : SameShape cfg cfg') (h' : SameShape cfg' cfg'') :
    SameShape cfg cfg'' := by
  constructor
  · rw [h'.entry, h.entry]
  · rw [h'.handlers, h.handlers]
  · intro b
    rw [h'.next, h.next]
  · intro b
    exact forall₂_checked_trans (h.instrs b) (h'.instrs b)

theorem sameShape_update {f : Block n m → Block n m} (hnext : (f (cfg.blocks b)).next =
    (cfg.blocks b).next) (hinstrs : List.Forall₂ Checked (cfg.blocks b).instrs
      (f (cfg.blocks b)).instrs) : SameShape cfg (cfg.update b f) := by
  constructor
  · rfl
  · rfl
  · intro c
    by_cases hc : c = b
    · subst hc
      rw [Cfg.update_self, hnext]
    · rw [Cfg.update_of_ne hc]
  · intro c
    by_cases hc : c = b
    · subst hc
      rw [Cfg.update_self]
      exact hinstrs
    · rw [Cfg.update_of_ne hc]
      exact List.forall₂_same.mpr fun _ _ => .inl rfl

theorem SameShape.chain (h : SameShape cfg cfg') : cfg'.chain = cfg.chain := by
  rw [Cfg.chain, h.entry, Cfg.chainFrom_congr h.next]
  rfl

theorem Checked.isJump {old new : CfgInstr n m} (h : Checked old new) :
    isJump new.op = isJump old.op ∧ new.target = old.target ∧ new.except = old.except ∧
      new.arg = old.arg ∧ (new.op = .LoadFast → old.op = .LoadFast) := by
  rcases h with rfl | ⟨hop, rfl⟩
  · exact ⟨rfl, rfl, rfl, rfl, id⟩
  · rw [hop]
    exact ⟨rfl, rfl, rfl, rfl, fun _ => rfl⟩

theorem forall₂_getElem? {α β : Type} {R : α → β → Prop} {l : List α} {l' : List β}
    (h : List.Forall₂ R l l') {i : ℕ} {y : β} (hi : l'[i]? = some y) :
    ∃ a, l[i]? = some a ∧ R a y := by
  induction h generalizing i with
  | nil => cases hi
  | cons hR _ ih =>
    cases i with
    | zero =>
      obtain rfl := Option.some.inj hi
      exact ⟨_, rfl, hR⟩
    | succ i => exact ih hi

theorem SameShape.wellFormed (h : SameShape cfg cfg') {nlocals : ℕ} {blocks : List (Fin n)}
    (hw : WellFormed cfg nlocals blocks) : WellFormed cfg' nlocals blocks := by
  have hold : ∀ b, ∀ new ∈ (cfg'.blocks b).instrs, ∃ old ∈ (cfg.blocks b).instrs, Checked old new := by
    intro b new hnew
    obtain ⟨i, hi⟩ := List.mem_iff_getElem?.mp hnew
    obtain ⟨old, hget, hc⟩ := forall₂_getElem? (h.instrs b) hi
    exact ⟨old, List.mem_of_getElem? hget, hc⟩
  constructor
  · rw [h.chain, hw.chain]
  · intro b hb i new hi hjump
    obtain ⟨old, hget, hc⟩ := forall₂_getElem? (h.instrs b) hi
    rw [← (h.instrs b).length_eq]
    exact hw.jumpsLast b hb i old hget (hc.isJump.1 ▸ hjump)
  · intro b hb new hnew t hjump ht
    obtain ⟨old, hmem, hc⟩ := hold b new hnew
    exact hw.targets b hb old hmem t (hc.isJump.1 ▸ hjump) (hc.isJump.2.1 ▸ ht)
  · intro b hb new hnew k hk
    obtain ⟨old, hmem, hc⟩ := hold b new hnew
    rw [h.handlers]
    exact hw.handlers b hb old hmem k (hc.isJump.2.2.1 ▸ hk)
  · intro b hb new hnew hop
    obtain ⟨old, hmem, hc⟩ := hold b new hnew
    rw [hc.isJump.2.2.2.1]
    exact hw.locals b hb old hmem (hc.isJump.2.2.2.2 hop)

/-! Pushing and scanning. -/

/-- How far the masks are from full, and how many blocks wait. -/
def scanRank (S : Scan n m) : ℕ :=
  (∑ b, (2 ^ 64 - (S.cfg.blocks b).unsafeLocalsMask.toNat)) + S.sp.length

/-- What pushing does: masks grow, a block whose mask grows is visited, and what gets visited waits. -/
structure Grows (S S' : Scan n m) : Prop where
  shape : SameShape S.cfg S'.cfg
  instrs : ∀ b, (S'.cfg.blocks b).instrs = (S.cfg.blocks b).instrs
  masks : ∀ b, Within (S.cfg.blocks b).unsafeLocalsMask (S'.cfg.blocks b).unsafeLocalsMask
  kept : ∀ b, (S'.cfg.blocks b).unsafeLocalsMask = (S.cfg.blocks b).unsafeLocalsMask ∨
    (S'.cfg.blocks b).visited = true
  visited : ∀ b, (S.cfg.blocks b).visited = true → (S'.cfg.blocks b).visited = true
  waits : ∀ b, (S'.cfg.blocks b).visited = true → (S.cfg.blocks b).visited = true ∨ b ∈ S'.sp
  sp : ∀ b ∈ S.sp, b ∈ S'.sp
  rank : scanRank S' ≤ scanRank S

theorem Grows.refl (S : Scan n m) : Grows S S := by
  constructor
  · exact SameShape.refl _
  · exact fun _ => rfl
  · exact fun _ => Within.refl _
  · exact fun _ => .inl rfl
  · exact fun _ => id
  · exact fun _ => .inl
  · exact fun _ => id
  · exact le_rfl

theorem Grows.trans (h : Grows S S') (h' : Grows S' S'') : Grows S S'' := by
  constructor
  · exact h.shape.trans h'.shape
  · intro b
    rw [h'.instrs, h.instrs]
  · exact fun b => (h.masks b).trans (h'.masks b)
  · intro b
    rcases h'.kept b with heq | hv
    · rcases h.kept b with heq' | hv'
      · exact .inl (heq.trans heq')
      · exact .inr (h'.visited b hv')
    · exact .inr hv
  · exact fun b hb => h'.visited b (h.visited b hb)
  · intro b hb
    rcases h'.waits b hb with hb | hb
    · rcases h.waits b hb with hb | hb
      · exact .inl hb
      · exact .inr (h'.sp b hb)
    · exact .inr hb
  · exact fun b hb => h'.sp b (h.sp b hb)
  · exact h'.rank.trans h.rank

theorem sum_grow_lt {f : Fin n → Mask} {w : Mask} (h : Within (f b) w) (hne : f b ≠ w) :
    (∑ c, (2 ^ 64 - (Function.update f b w c).toNat)) < ∑ c, (2 ^ 64 - (f c).toNat) := by
  have hand : f b &&& w = f b := by
    apply BitVec.eq_of_getLsbD_eq
    intro x _
    rw [BitVec.getLsbD_and]
    cases hx : (f b).getLsbD x with
    | false => rfl
    | true => rw [h x hx, Bool.true_and]
  have hle : (f b).toNat ≤ w.toNat := by
    rw [← hand, BitVec.toNat_and]
    exact Nat.and_le_right
  have hlt : (f b).toNat < w.toNat := lt_of_le_of_ne hle fun heq => hne (BitVec.eq_of_toNat_eq heq)
  have hmax := w.isLt
  apply Finset.sum_lt_sum
  · intro c _
    by_cases hc : c = b
    · subst hc
      rw [Function.update_self]
      omega
    · rw [Function.update_of_ne hc]
  · refine ⟨b, Finset.mem_univ b, ?_⟩
    rw [Function.update_self]
    omega

theorem maybePush_grows : Grows S (S.maybePush b u) ∧
    Within u ((S.maybePush b u).cfg.blocks b).unsafeLocalsMask := by
  rw [Scan.maybePush]
  by_cases hne : (S.cfg.blocks b).unsafeLocalsMask = (S.cfg.blocks b).unsafeLocalsMask ||| u
  · rw [if_neg (not_not.mpr hne)]
    refine ⟨Grows.refl S, ?_⟩
    rw [hne]
    exact within_or_right
  · rw [if_pos hne]
    have hshape : SameShape S.cfg (S.cfg.update b fun block => { block with
        unsafeLocalsMask := (S.cfg.blocks b).unsafeLocalsMask ||| u, visited := true }) :=
      sameShape_update rfl (List.forall₂_same.mpr fun _ _ => .inl rfl)
    constructor
    · constructor
      · exact hshape
      · intro c
        by_cases hc : c = b
        · subst hc
          rw [Cfg.update_self]
        · rw [Cfg.update_of_ne hc]
      · intro c
        by_cases hc : c = b
        · subst hc
          rw [Cfg.update_self]
          exact within_or_left
        · rw [Cfg.update_of_ne hc]
          exact Within.refl _
      · intro c
        by_cases hc : c = b
        · subst hc
          rw [Cfg.update_self]
          exact .inr rfl
        · rw [Cfg.update_of_ne hc]
          exact .inl rfl
      · intro c hv
        by_cases hc : c = b
        · subst hc
          rw [Cfg.update_self]
        · rw [Cfg.update_of_ne hc]
          exact hv
      · intro c hv
        by_cases hc : c = b
        · subst hc
          dsimp only
          split_ifs with hvisited
          · exact .inl hvisited
          · exact .inr List.mem_cons_self
        · rw [Cfg.update_of_ne hc] at hv
          exact .inl hv
      · intro c hc
        dsimp only
        split_ifs
        · exact hc
        · exact List.mem_cons_of_mem _ hc
      · have hsum := sum_grow_lt (f := fun c => (S.cfg.blocks c).unsafeLocalsMask) (b := b)
          within_or_left hne
        have hblocks : ∀ c, ((S.cfg.update b fun block => { block with
            unsafeLocalsMask := (S.cfg.blocks b).unsafeLocalsMask ||| u, visited := true }).blocks c).unsafeLocalsMask =
              Function.update (fun c => (S.cfg.blocks c).unsafeLocalsMask) b
                ((S.cfg.blocks b).unsafeLocalsMask ||| u) c := by
          intro c
          by_cases hc : c = b
          · subst hc
            rw [Cfg.update_self, Function.update_self]
          · rw [Cfg.update_of_ne hc, Function.update_of_ne hc]
        rw [scanRank, scanRank]
        simp only [hblocks]
        split_ifs
        · omega
        · rw [List.length_cons]
          omega
    · rw [Cfg.update_self]
      exact within_or_right

theorem pushAll_grows {edges : List (Fin n × Mask)} : Grows S (S.pushAll edges) ∧
    ∀ e ∈ edges, Within e.2 ((S.pushAll edges).cfg.blocks e.1).unsafeLocalsMask := by
  induction edges generalizing S with
  | nil => exact ⟨Grows.refl S, by simp⟩
  | cons e edges ih =>
    obtain ⟨hgrow, hin⟩ := maybePush_grows (S := S) (b := e.1) (u := e.2)
    obtain ⟨hgrows, hall⟩ := ih (S := S.maybePush e.1 e.2)
    refine ⟨hgrow.trans hgrows, ?_⟩
    intro e' he'
    rcases List.mem_cons.mp he' with rfl | he'
    · exact hin.trans (hgrows.masks _)
    · exact hall e' he'

/-- Scanning the block again changes nothing. -/
structure Closed (cfg : Cfg n m) (b : Fin n) : Prop where
  checked : (scanInstrs (cfg.blocks b).unsafeLocalsMask (cfg.blocks b).instrs).1 =
    (cfg.blocks b).instrs
  edges : ∀ e ∈ scanEdges cfg b, Within e.2 (cfg.blocks e.1).unsafeLocalsMask

theorem handlerEdges_congr (h : cfg'.handlers = cfg.handlers) :
    handlerEdges cfg' u l = handlerEdges cfg u l := by
  induction l generalizing u with
  | nil => rfl
  | cons instr l ih => rw [handlerEdges, handlerEdges, ih, h]

theorem exits_congr {block block' : Block n m} (h : block'.instrs = block.instrs)
    (hnext : block'.next = block.next) : block'.exits = block.exits := by
  obtain ⟨instrs, stale, next, label, predecessors, visited, mask⟩ := block
  obtain ⟨instrs', stale', next', label', predecessors', visited', mask'⟩ := block'
  dsimp only at h hnext
  subst h hnext
  rfl

theorem scanEdges_congr (hhandlers : cfg'.handlers = cfg.handlers)
    (hinstrs : (cfg'.blocks b).instrs = (cfg.blocks b).instrs)
    (hnext : (cfg'.blocks b).next = (cfg.blocks b).next)
    (hmask : (cfg'.blocks b).unsafeLocalsMask = (cfg.blocks b).unsafeLocalsMask) :
    scanEdges cfg' b = scanEdges cfg b := by
  rw [scanEdges, scanEdges, exits_congr hinstrs hnext, hinstrs, hmask, handlerEdges_congr hhandlers]

theorem Closed.mono (h : Closed cfg b) (hshape : SameShape cfg cfg')
    (hinstrs : (cfg'.blocks b).instrs = (cfg.blocks b).instrs)
    (hmask : (cfg'.blocks b).unsafeLocalsMask = (cfg.blocks b).unsafeLocalsMask)
    (hmasks : ∀ c, Within (cfg.blocks c).unsafeLocalsMask (cfg'.blocks c).unsafeLocalsMask) :
    Closed cfg' b := by
  constructor
  · rw [hmask, hinstrs, h.checked]
  · intro e he
    rw [scanEdges_congr hshape.handlers hinstrs (hshape.next b) hmask] at he
    exact (h.edges e he).trans (hmasks e.1)

theorem getLast?_checked {l' : List (CfgInstr n m)} (h : List.Forall₂ Checked l l') :
    l'.getLast? = none ∧ l.getLast? = none ∨
      ∃ old new, l.getLast? = some old ∧ l'.getLast? = some new ∧ Checked old new := by
  cases hlast : l'.getLast? with
  | none =>
    obtain rfl := List.getLast?_eq_none_iff.mp hlast
    obtain rfl := List.forall₂_nil_right_iff.mp h
    exact .inl ⟨rfl, rfl⟩
  | some new =>
    rw [List.getLast?_eq_getElem?] at hlast
    obtain ⟨old, hold, hc⟩ := forall₂_getElem? h hlast
    rw [← h.length_eq, ← List.getLast?_eq_getElem?] at hold
    exact .inr ⟨old, new, hold, rfl, hc⟩

theorem exits_checked {block : Block n m} {l' : List (CfgInstr n m)}
    (h : List.Forall₂ Checked block.instrs l') : { block with instrs := l' }.exits = block.exits := by
  rcases getLast?_checked h with ⟨hnew, hold⟩ | ⟨old, new, hold, hnew, hc⟩
  · simp only [Block.exits, Block.hasFallthrough, Block.noFallthrough, Block.last, hnew, hold]
  · simp only [Block.exits, Block.hasFallthrough, Block.noFallthrough, Block.last, hnew, hold]
    rcases hc with rfl | ⟨hop, rfl⟩
    · rfl
    · simp only [Option.any_some, hop]
      rfl

/-- The graph with the block's loads checked, before its edges are pushed. -/
def checkBlock (cfg : Cfg n m) (b : Fin n) : Cfg n m :=
  cfg.update b fun block =>
    { block with instrs := (scanInstrs block.unsafeLocalsMask block.instrs).1 }

theorem checkBlock_mask : ((checkBlock cfg b).blocks c).unsafeLocalsMask =
      (cfg.blocks c).unsafeLocalsMask ∧
    ((checkBlock cfg b).blocks c).visited = (cfg.blocks c).visited := by
  by_cases hc : c = b
  · subst hc
    rw [checkBlock, Cfg.update_self]
    exact ⟨rfl, rfl⟩
  · rw [checkBlock, Cfg.update_of_ne hc]
    exact ⟨rfl, rfl⟩

theorem checkBlock_shape : SameShape cfg (checkBlock cfg b) := by
  apply sameShape_update
  · rfl
  · exact scanInstrs_checked

theorem scanEdges_checkBlock : scanEdges (checkBlock cfg b) b = scanEdges cfg b := by
  rw [scanEdges, scanEdges, handlerEdges_congr checkBlock_shape.handlers]
  rw [checkBlock, Cfg.update_self, scanInstrs_again, handlerEdges_again,
    exits_checked scanInstrs_checked]

theorem scanBlock_eq : scanBlockForLocals S b =
    (⟨checkBlock S.cfg b, S.sp⟩ : Scan n m).pushAll (scanEdges S.cfg b) := rfl

/-- Scanning a block leaves it closed, unless its own mask grew and it waits. -/
theorem scanBlock_closed : ((scanBlockForLocals S b).cfg.blocks b).visited = true ∨
    Closed (scanBlockForLocals S b).cfg b := by
  obtain ⟨hgrows, hall⟩ := @pushAll_grows _ _ ⟨checkBlock S.cfg b, S.sp⟩
    (scanEdges S.cfg b)
  rw [scanBlock_eq]
  rcases hgrows.kept b with hkept | hvisited
  · right
    constructor
    · rw [hkept, hgrows.instrs, checkBlock, Cfg.update_self, scanInstrs_again]
    · intro e he
      rw [scanEdges_congr hgrows.shape.handlers (hgrows.instrs b) (hgrows.shape.next b) hkept,
        scanEdges_checkBlock] at he
      exact hall e he
  · exact .inl hvisited

theorem scanBlock_grows : Grows ⟨checkBlock S.cfg b, S.sp⟩ (scanBlockForLocals S b) :=
  pushAll_grows.1

/-- The blocks of `done` are closed or wait, and what is visited waits. -/
structure ScanInv (cfg : Cfg n m) (start : Mask) (blocks : List (Fin n)) (done : Fin n → Prop)
    (S : Scan n m) : Prop where
  shape : SameShape cfg S.cfg
  start : Within start (S.cfg.blocks S.cfg.entry).unsafeLocalsMask
  waits : ∀ b ∈ blocks, (S.cfg.blocks b).visited = true → b ∈ S.sp
  closed : ∀ b, done b → (S.cfg.blocks b).visited = true ∨ Closed S.cfg b

variable {start : Mask} {blocks : List (Fin n)} {done : Fin n → Prop}

theorem ScanInv.scanBlock (h : ScanInv cfg start blocks done S) :
    ScanInv cfg start blocks (fun c => done c ∨ c = b) (scanBlockForLocals S b) := by
  have hgrows := scanBlock_grows (S := S) (b := b)
  constructor
  · exact (h.shape.trans checkBlock_shape).trans hgrows.shape
  · rw [hgrows.shape.entry]
    apply Within.trans _ (hgrows.masks _)
    rw [checkBlock_mask.1]
    exact h.start
  · intro c hc hv
    rcases hgrows.waits c hv with hv | hc'
    · rw [checkBlock_mask.2] at hv
      exact hgrows.sp c (h.waits c hc hv)
    · exact hc'
  · intro c hc
    by_cases hcb : c = b
    · subst hcb
      exact scanBlock_closed
    · rcases h.closed c (hc.resolve_right hcb) with hv | hclosed
      · exact .inl (hgrows.visited c (by rw [checkBlock_mask.2]; exact hv))
      · rcases hgrows.kept c with hkept | hv
        · right
          rw [checkBlock_mask.1] at hkept
          apply hclosed.mono (checkBlock_shape.trans hgrows.shape) _ hkept
          · intro c'
            apply Within.trans _ (hgrows.masks c')
            rw [checkBlock_mask.1]
            exact Within.refl _
          · rw [hgrows.instrs, checkBlock, Cfg.update_of_ne hcb]
        · exact .inl hv

theorem ScanInv.scanAll (h : ScanInv cfg start blocks done S) (l : List (Fin n)) :
    ScanInv cfg start blocks (fun c => done c ∨ c ∈ l) (l.foldl scanBlockForLocals S) := by
  induction l generalizing S done with
  | nil =>
    refine ⟨h.shape, h.start, h.waits, fun c hc => h.closed c (by simpa using hc)⟩
  | cons b l ih =>
    have hrest := ih (h.scanBlock (b := b))
    refine ⟨hrest.shape, hrest.start, hrest.waits, fun c hc => hrest.closed c ?_⟩
    simpa [or_assoc] using hc

theorem unvisit_shape : SameShape cfg (cfg.update b ({ · with visited := false })) := by
  apply sameShape_update
  · rfl
  · exact List.forall₂_same.mpr fun _ _ => .inl rfl

theorem unvisit_block : ((cfg.update b ({ · with visited := false })).blocks c).instrs =
      (cfg.blocks c).instrs ∧
    ((cfg.update b ({ · with visited := false })).blocks c).unsafeLocalsMask =
      (cfg.blocks c).unsafeLocalsMask := by
  by_cases hc : c = b
  · subst hc
    rw [Cfg.update_self]
    exact ⟨rfl, rfl⟩
  · rw [Cfg.update_of_ne hc]
    exact ⟨rfl, rfl⟩

/-- The next block to scan is taken, and no longer counts as done. -/
theorem ScanInv.pop {cfg₁ : Cfg n m} {sp : List (Fin n)}
    (h : ScanInv cfg start blocks (· ∈ blocks) ⟨cfg₁, b :: sp⟩) :
    ScanInv cfg start blocks (fun c => c ∈ blocks ∧ c ≠ b)
      ⟨cfg₁.update b ({ · with visited := false }), sp⟩ := by
  constructor
  · exact h.shape.trans unvisit_shape
  · dsimp only
    rw [unvisit_block.2]
    exact h.start
  · intro c hc hv
    by_cases hcb : c = b
    · subst hcb
      simp at hv
    · dsimp only at hv
      rw [Cfg.update_of_ne hcb] at hv
      exact (List.mem_cons.mp (h.waits c hc hv)).resolve_left hcb
  · rintro c ⟨hc, hcb⟩
    rcases h.closed c hc with hv | hclosed
    · left
      dsimp only
      rw [Cfg.update_of_ne hcb]
      exact hv
    · right
      apply hclosed.mono unvisit_shape unvisit_block.1 unvisit_block.2
      intro c'
      rw [unvisit_block.2]
      exact Within.refl _

theorem rescan_settles : Settles (ScanInv cfg start blocks (· ∈ blocks)) scanRank
    (rescan (n := n) (m := m)) := by
  rintro ⟨cfg₁, sp⟩ h
  cases sp with
  | nil => exact ⟨_, false, rfl, h, rfl⟩
  | cons b sp =>
    have hscan := h.pop.scanBlock (b := b)
    refine ⟨_, true, rfl, ⟨hscan.shape, hscan.start, hscan.waits, fun c hc => hscan.closed c ?_⟩, ?_⟩
    · by_cases hcb : c = b
      · exact .inr hcb
      · exact .inl ⟨hc, hcb⟩
    · rw [if_pos rfl]
      apply lt_of_le_of_lt scanBlock_grows.rank
      simp only [scanRank, checkBlock_mask.1, unvisit_block.2, List.length_cons]
      omega

/-! The start. -/

theorem clear_ok (l : List (Fin n)) :
    let cfg' := l.foldl (fun cfg b => cfg.update b ({ · with visited := false })) cfg
    SameShape cfg cfg' ∧ ∀ b, (b ∈ l ∨ (cfg.blocks b).visited = false) →
      (cfg'.blocks b).visited = false := by
  induction l generalizing cfg with
  | nil => exact ⟨SameShape.refl _, by simp⟩
  | cons b l ih =>
    obtain ⟨hshape, hclear⟩ := @ih (cfg.update b ({ · with visited := false }))
    refine ⟨unvisit_shape.trans hshape, fun c hc => hclear c ?_⟩
    by_cases hcb : c = b
    · subst hcb
      rw [Cfg.update_self]
      exact .inr rfl
    · rw [Cfg.update_of_ne hcb]
      exact hc.imp_left fun hc => (List.mem_cons.mp hc).resolve_left hcb

theorem startMask_getLsbD {nparams nlocals : ℕ} (hp : nparams ≤ x) (hl : x < nlocals)
    (hx : x < 64) : (startMask nparams nlocals).getLsbD x = true := by
  have hfold : ∀ (l : List ℕ) (u : Mask), u.getLsbD x = true ∨ x ∈ l →
      (l.foldl (fun mask i => mask ||| (1 : Mask) <<< i) u).getLsbD x = true := by
    intro l
    induction l with
    | nil => simp
    | cons k l ih =>
      intro u hu
      apply ih
      rw [BitVec.getLsbD_or, bit_getLsbD hx]
      rcases hu with hu | hu
      · rw [hu]
        exact .inl rfl
      · rcases List.mem_cons.mp hu with rfl | hu
        · left
          simp
        · exact .inr hu
  apply hfold
  right
  rw [List.mem_range'_1]
  omega

end WeavePy.Flowgraph
