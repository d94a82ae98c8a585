import WeavePy.Flowgraph.Scanning
import Mathlib.Data.Fin.VecNotation

/-!
A load that the pass leaves unchecked is bound on every path.
-/

namespace WeavePy.Flowgraph

open Rounds

variable {n m : ℕ} {cfg cfg' : Cfg n m} {S : Scan n m} {b : Fin n} {u : Mask} {instr : CfgInstr n m}
  {l tr : List (CfgInstr n m)} {i x : ℕ} {start : Mask} {blocks : List (Fin n)}

/-! Paths. -/

theorem Path.mem {nlocals : ℕ} {blocks : List (Fin n)} (h : WellFormed cfg nlocals blocks)
    (hp : Path cfg b i tr) : b ∈ blocks := by
  obtain ⟨hfirst, hclosed⟩ := Cfg.chainFrom_ok h.chain
  induction hp with
  | entry => exact hfirst _ rfl
  | step _ _ ih => exact ih
  | fallthrough _ _ hnext ih => exact hclosed _ ih _ hnext
  | jump _ hget hjump ht ih => exact h.targets _ ih _ (List.mem_of_getElem? hget) _ hjump ht
  | exception _ hget hex ih => exact h.handlers _ ih _ (List.mem_of_getElem? hget) _ hex

/-- What has run ends with the block up to here. -/
theorem Path.ends (hp : Path cfg b i tr) : ∃ before, tr = before ++ (cfg.blocks b).instrs.take i := by
  induction hp with
  | entry => exact ⟨[], by simp⟩
  | step _ hget ih =>
    obtain ⟨before, rfl⟩ := ih
    refine ⟨before, ?_⟩
    rw [List.take_add_one, hget, Option.toList_some, List.append_assoc]
  | fallthrough _ _ _ _ => exact ⟨_, (List.append_nil _).symm⟩
  | jump _ _ _ _ _ => exact ⟨_, (List.append_nil _).symm⟩
  | exception _ _ _ _ => exact ⟨_, (List.append_nil _).symm⟩

/-- What may be unbound before instruction `i` of a block entered with `u`. -/
def maskAt (u : Mask) (l : List (CfgInstr n m)) (i : ℕ) : Mask := (scanInstrs u (l.take i)).2

theorem maskAt_succ (h : l[i]? = some instr) :
    maskAt u l (i + 1) = (scanInstr (maskAt u l i) instr).2 := by
  induction l generalizing i u with
  | nil => cases h
  | cons first l ih =>
    cases i with
    | zero =>
      obtain rfl := Option.some.inj h
      rfl
    | succ i => exact ih (u := (scanInstr u first).2) h

theorem maskAt_length : maskAt u l l.length = (scanInstrs u l).2 := by
  rw [maskAt, List.take_length]

theorem maskAt_handler {k : Fin m} (h : l[i]? = some instr) (hex : instr.except = some k) :
    ((cfg.handlers k).block, maskAt u l i) ∈ handlerEdges cfg u l := by
  induction l generalizing i u with
  | nil => cases h
  | cons first l ih =>
    rw [handlerEdges, List.mem_append]
    cases i with
    | zero =>
      obtain rfl := Option.some.inj h
      left
      rw [hex]
      exact List.mem_singleton_self _
    | succ i => exact .inr (ih (u := (scanInstr u first).2) h)

theorem maskAt_checked (hchecked : (scanInstrs u l).1 = l) (h : l[i]? = some instr) :
    (scanInstr (maskAt u l i) instr).1 = instr := by
  induction l generalizing i u with
  | nil => cases h
  | cons first l ih =>
    obtain ⟨hfirst, hrest⟩ := List.cons.inj hchecked
    cases i with
    | zero =>
      obtain rfl := Option.some.inj h
      exact hfirst
    | succ i => exact ih hrest h

theorem unbinds_not_binds (h : unbinds instr x) : ¬binds instr x := by
  rintro ⟨-, h'⟩
  obtain ⟨-, h⟩ := h
  rcases h with h | h | h
  · rw [h] at h'
    simp at h'
  · rw [h] at h'
    simp at h'
  · rw [h] at h'
    simp at h'

/-- A local that is not bound on the way to an instruction is in the mask there. -/
theorem Path.mask {nparams nlocals : ℕ} {blocks : List (Fin n)} (hw : WellFormed cfg nlocals blocks)
    (hclosed : ∀ b ∈ blocks, Closed cfg b) (hx : x < 64)
    (hstart : ¬x < nparams → (cfg.blocks cfg.entry).unsafeLocalsMask.getLsbD x = true)
    (hp : Path cfg b i tr) : Bound nparams x tr ∨
      (maskAt (cfg.blocks b).unsafeLocalsMask (cfg.blocks b).instrs i).getLsbD x = true := by
  have hstep : ∀ {u : Mask} {tr : List (CfgInstr n m)} {instr : CfgInstr n m},
      Bound nparams x tr ∨ u.getLsbD x = true →
        Bound nparams x (tr ++ [instr]) ∨ (scanInstr u instr).2.getLsbD x = true := by
    intro u tr instr h
    rw [bound_append, scanInstr_getLsbD hx]
    by_cases hb : binds instr x
    · exact .inl (.inl hb)
    · by_cases hu : unbinds instr x
      · exact .inr (.inl hu)
      · exact h.imp (fun h => .inr ⟨h, hu⟩) fun h => .inr ⟨h, hb⟩
  induction hp with
  | entry =>
    by_cases hparam : x < nparams
    · exact .inl (.inl ⟨hparam, by simp⟩)
    · exact .inr (hstart hparam)
  | step _ hget ih =>
    rw [maskAt_succ hget]
    exact hstep ih
  | @fallthrough b tr t hp hfall hnext ih =>
    rw [maskAt_length] at ih
    apply ih.imp_right
    apply (hclosed b (hp.mem hw)).edges (t, _)
    rw [scanEdges, List.mem_append]
    right
    apply List.mem_map_of_mem
    rw [Block.exits, hfall, if_pos rfl, hnext]
    exact List.mem_append_left _ (List.mem_singleton_self _)
  | @jump b i tr instr t hp hget hjump ht ih =>
    have hend : i + 1 = (cfg.blocks b).instrs.length := hw.jumpsLast b (hp.mem hw) i _ hget hjump
    have hlast : (cfg.blocks b).last = some instr := by
      rw [Block.last, List.getLast?_eq_getElem?, ← hend]
      exact hget
    have hmask := maskAt_succ (u := (cfg.blocks b).unsafeLocalsMask) hget
    rw [hend, maskAt_length] at hmask
    apply (hstep ih).imp_right
    rw [← hmask]
    apply (hclosed b (hp.mem hw)).edges (t, _)
    rw [scanEdges, List.mem_append]
    right
    apply List.mem_map_of_mem
    rw [Block.exits, hlast]
    dsimp only
    rw [hjump, if_pos rfl, ht]
    exact List.mem_append_right _ (List.mem_singleton_self _)
  | @exception b i tr instr k hp hget hex ih =>
    apply ih.imp_right
    apply (hclosed b (hp.mem hw)).edges (_, _)
    rw [scanEdges, List.mem_append]
    exact .inl (maskAt_handler hget hex)

/-- The scan checks a load that is in the mask. -/
theorem mask_checked (hchecked : (scanInstr u instr).1 = instr) (hop : instr.op = .LoadFast)
    (hx : instr.arg.toNat < 64) : ¬u.getLsbD instr.arg.toNat = true := by
  intro hbit
  obtain ⟨op, arg, loc, target, except⟩ := instr
  dsimp only at hop hx hbit
  subst hop
  rw [scanInstr, if_neg (by dsimp only; omega)] at hchecked
  dsimp only at hchecked
  rw [if_pos] at hchecked
  · cases hchecked
  · intro hzero
    have hget := congrArg (·.getLsbD arg.toNat) hzero
    simp [hbit] at hget
    omega

/-! The locals past the first 64. -/

/-- A local whose last binding is in the block `blocknum` is bound in what ran of it. -/
def FastInv (blocknum : ℤ) (len : ℕ) (pre : List (CfgInstr n m)) (states : List ℤ) : Prop :=
  states.length = len ∧ ∀ k state, states[k]? = some state →
    state ≤ blocknum ∧ (state = blocknum → BoundIn (k + 64) pre)

variable {blocknum : ℤ} {states : List ℤ} {len : ℕ} {pre : List (CfgInstr n m)}

theorem FastInv.append (h : FastInv blocknum len pre states)
    (hnot : ∀ k < len, ¬unbinds instr (k + 64)) : FastInv blocknum len (pre ++ [instr]) states := by
  refine ⟨h.1, fun k state hk => ⟨(h.2 k state hk).1, fun heq => ?_⟩⟩
  have hlt := (List.getElem?_eq_some_iff.mp hk).1
  exact boundIn_append.mpr (.inr ⟨(h.2 k state hk).2 heq, hnot k (h.1 ▸ hlt)⟩)

theorem FastInv.bind (h : FastInv blocknum len pre states) {k : ℕ} (hbind : binds instr (k + 64)) :
    FastInv blocknum len (pre ++ [instr]) (states.set k blocknum) := by
  refine ⟨by simpa using h.1, fun j state hj => ?_⟩
  rw [List.getElem?_set] at hj
  split_ifs at hj with hjk hlt
  · obtain rfl := Option.some.inj hj
    subst hjk
    exact ⟨le_rfl, fun _ => boundIn_append.mpr (.inl hbind)⟩
  · refine ⟨(h.2 j state hj).1, fun heq => boundIn_append.mpr (.inr ⟨(h.2 j state hj).2 heq, ?_⟩)⟩
    intro hu
    have h1 := hu.1
    have h2 := hbind.1
    omega

theorem FastInv.unbind (h : FastInv blocknum len pre states) {k : ℕ}
    (hunbind : instr.arg.toNat = k + 64) :
    FastInv blocknum len (pre ++ [instr]) (states.set k (blocknum - 1)) := by
  refine ⟨by simpa using h.1, fun j state hj => ?_⟩
  rw [List.getElem?_set] at hj
  split_ifs at hj with hjk hlt
  · obtain rfl := Option.some.inj hj
    constructor
    · omega
    · omega
  · refine ⟨(h.2 j state hj).1, fun heq => boundIn_append.mpr (.inr ⟨(h.2 j state hj).2 heq, ?_⟩)⟩
    intro hu
    have h1 := hu.1
    omega

theorem fastScanInstr_ok (h : FastInv blocknum len pre states) :
    let r := fastScanInstr blocknum states instr
    Checked instr r.1 ∧ FastInv blocknum len (pre ++ [r.1]) r.2 ∧
      (r.1.op = .LoadFast → 64 ≤ r.1.arg.toNat → r.1.arg.toNat < len + 64 →
        BoundIn r.1.arg.toNat pre) := by
  rw [fastScanInstr]
  dsimp only
  by_cases hsmall : instr.arg.toNat < 64
  · rw [if_pos hsmall]
    have hnot : ∀ k < len, ¬unbinds instr (k + 64) := by
      intro k _ hu
      have harg := hu.1
      omega
    exact ⟨.inl rfl, h.append hnot, fun _ hbig => absurd hbig (not_le.mpr hsmall)⟩
  · rw [if_neg hsmall]
    cases hk : states[instr.arg.toNat - 64]? with
    | none =>
      have hout := List.getElem?_eq_none_iff.mp hk
      rw [h.1] at hout
      have hnot : ∀ k < len, ¬unbinds instr (k + 64) := by
        intro k hk hu
        have harg := hu.1
        omega
      have hge : len + 64 ≤ instr.arg.toNat := by omega
      exact ⟨.inl rfl, h.append hnot, fun _ _ hlt => absurd hlt (not_lt.mpr hge)⟩
    | some state =>
      have harg : instr.arg.toNat = instr.arg.toNat - 64 + 64 := by omega
      have hold := h.2 _ state hk
      obtain ⟨op, arg, loc, target, except⟩ := instr
      cases op
      case DeleteFast | LoadFastAndClear | StoreFastMaybeNull =>
        exact ⟨.inl rfl, h.unbind harg, by rintro ⟨⟩⟩
      case StoreFast => exact ⟨.inl rfl, h.bind ⟨harg, .inl rfl⟩, by rintro ⟨⟩⟩
      case LoadFast =>
        dsimp only
        split_ifs with hne
        · exact ⟨.inr ⟨rfl, rfl⟩, h.bind ⟨harg, .inr (.inr rfl)⟩, by rintro ⟨⟩⟩
        · refine ⟨.inl rfl, h.bind ⟨harg, .inr (.inl rfl)⟩, fun _ _ _ => ?_⟩
          have hbound := hold.2 (not_not.mp hne)
          rwa [← harg] at hbound
      all_goals exact ⟨.inl rfl, h.append fun k _ hu => by simp [unbinds] at hu, by rintro ⟨⟩⟩

/-- An unchecked load of a local past the first 64 is bound in its own block. -/
def LocallyBound (len : ℕ) (pre l : List (CfgInstr n m)) : Prop :=
  ∀ i instr, l[i]? = some instr → instr.op = .LoadFast → 64 ≤ instr.arg.toNat →
    instr.arg.toNat < len + 64 → BoundIn instr.arg.toNat (pre ++ l.take i)

theorem fastScanInstrs_ok (h : FastInv blocknum len pre states) :
    let r := fastScanInstrs blocknum states l
    List.Forall₂ Checked l r.1 ∧ (∃ pre' : List (CfgInstr n m), FastInv blocknum len pre' r.2) ∧
      LocallyBound len pre r.1 := by
  induction l generalizing pre states with
  | nil => exact ⟨.nil, ⟨pre, h⟩, by rintro i instr ⟨⟩⟩
  | cons instr l ih =>
    obtain ⟨hchecked, hinv, hload⟩ := @fastScanInstr_ok _ _ instr _ _ _ _ h
    obtain ⟨hall, hout, hlocal⟩ := ih hinv
    refine ⟨.cons hchecked hall, hout, ?_⟩
    intro i new hi hop hbig hlt
    cases i with
    | zero =>
      obtain rfl := Option.some.inj hi
      rw [List.take_zero, List.append_nil]
      exact hload hop hbig hlt
    | succ i =>
      have hbound := hlocal i new hi hop hbig hlt
      rwa [List.append_assoc] at hbound

theorem fastScanBlocks_ok (blocks : List (Fin n)) (hlen : states.length = len)
    (hle : ∀ (k : ℕ) state, states[k]? = some state → state ≤ blocknum) :
    let cfg' := fastScanBlocks blocknum states cfg blocks
    SameShape cfg cfg' ∧ ∀ b, b ∈ blocks ∨ LocallyBound len [] (cfg.blocks b).instrs →
      LocallyBound len [] (cfg'.blocks b).instrs := by
  induction blocks generalizing blocknum states cfg with
  | nil => exact ⟨SameShape.refl _, fun b hb => hb.resolve_left List.not_mem_nil⟩
  | cons b blocks ih =>
    have hinv : FastInv (n := n) (m := m) (blocknum + 1) len [] states := by
      refine ⟨hlen, fun k state hk => ⟨?_, fun heq => ?_⟩⟩
      · have := hle k state hk
        omega
      · have := hle k state hk
        omega
    obtain ⟨hall, ⟨pre', hout⟩, hlocal⟩ := fastScanInstrs_ok (l := (cfg.blocks b).instrs) hinv
    obtain ⟨hshape, hblocks⟩ := @ih (cfg.update b ({ · with
        instrs := (fastScanInstrs (blocknum + 1) states (cfg.blocks b).instrs).1 })) (blocknum + 1) _
      hout.1 fun k state hk => (hout.2 k state hk).1
    constructor
    · apply SameShape.trans _ hshape
      apply sameShape_update
      · rfl
      · exact hall
    · intro c hc
      apply hblocks
      by_cases hcb : c = b
      · subst hcb
        rw [Cfg.update_self]
        exact .inr hlocal
      · rw [Cfg.update_of_ne hcb]
        exact hc.imp_left fun hc => (List.mem_cons.mp hc).resolve_left hcb

theorem Checked.binds {old new : CfgInstr n m} (h : Checked old new) :
    (Flowgraph.binds new x ↔ Flowgraph.binds old x) ∧ (unbinds new x ↔ unbinds old x) := by
  rcases h with rfl | ⟨hop, rfl⟩
  · exact ⟨Iff.rfl, Iff.rfl⟩
  · simp [Flowgraph.binds, unbinds, hop]

/-- Checking loads keeps what is bound. -/
theorem BoundIn.checked {l' : List (CfgInstr n m)} (h : BoundIn x l) (hl : List.Forall₂ Checked l l') :
    BoundIn x l' := by
  obtain ⟨before, bound, after, rfl, hbind, hafter⟩ := h
  have hbefore := List.forall₂_take_append _ _ _ hl.flip
  have hrest := List.forall₂_drop_append _ _ _ hl.flip
  cases hdrop : l'.drop before.length with
  | nil =>
    rw [hdrop] at hrest
    cases hrest
  | cons new rest =>
    rw [hdrop] at hrest
    obtain ⟨hnew, hrest⟩ := List.forall₂_cons.mp hrest
    refine ⟨l'.take before.length, new, rest, ?_, (Checked.binds hnew).1.mpr hbind, ?_⟩
    · rw [← hdrop, List.take_append_drop]
    · intro later hlater hunbind
      obtain ⟨i, hi⟩ := List.mem_iff_getElem?.mp hlater
      obtain ⟨old, hold, hc⟩ := forall₂_getElem? hrest.flip hi
      exact hafter old (List.mem_of_getElem? hold) ((Checked.binds hc).2.mp hunbind)

theorem LocallyBound.checked {l' : List (CfgInstr n m)} (h : LocallyBound len [] l)
    (hl : List.Forall₂ Checked l l') : LocallyBound len [] l' := by
  intro i new hi hop hbig hlt
  obtain ⟨old, hold, hc⟩ := forall₂_getElem? hl hi
  obtain ⟨-, -, -, harg, hload⟩ := hc.isJump
  rw [harg] at hbig hlt ⊢
  have hbound := h i old hold (hload hop) hbig hlt
  rw [List.nil_append] at hbound ⊢
  exact hbound.checked (List.forall₂_take i hl)

theorem BoundIn.append_left (h : BoundIn x l) (before : List (CfgInstr n m)) :
    BoundIn x (before ++ l) := by
  obtain ⟨before', bound, after, rfl, hbind, hafter⟩ := h
  exact ⟨before ++ before', bound, after, (List.append_assoc _ _ _).symm, hbind, hafter⟩

theorem fastScanManyLocals_ok {nlocals : ℕ} (h : cfg.chain = .ok blocks) :
    ∃ cfg', fastScanManyLocals cfg nlocals = .ok cfg' ∧ SameShape cfg cfg' ∧
      ∀ b ∈ blocks, LocallyBound (nlocals - 64) [] (cfg'.blocks b).instrs := by
  obtain ⟨hshape, hlocal⟩ := @fastScanBlocks_ok _ _ cfg 0 _ _ blocks
    (List.length_replicate (n := nlocals - 64) (a := (0 : ℤ)))
    (by
      intro k state hk
      rw [List.getElem?_replicate] at hk
      split_ifs at hk
      exact (Option.some.inj hk).ge)
  exact ⟨_, by rw [fastScanManyLocals, h]; rfl, hshape, fun b hb => hlocal b (.inl hb)⟩

theorem clearVisited_ok (h : cfg.chain = .ok blocks) : ∃ cfg', cfg.clearVisited = .ok cfg' ∧
    SameShape cfg cfg' ∧ ∀ b ∈ blocks, (cfg'.blocks b).visited = false := by
  obtain ⟨hshape, hclear⟩ := @clear_ok _ _ cfg blocks
  exact ⟨_, by rw [Cfg.clearVisited, h]; rfl, hshape, fun b hb => hclear b (.inl hb)⟩

/-- After the first scan of every block what is not closed waits. -/
theorem scan_start (hshape : SameShape cfg cfg')
    (hclear : ∀ b ∈ blocks, (cfg'.blocks b).visited = false) :
    let S := (⟨cfg', []⟩ : Scan n m).maybePush cfg'.entry start
    S.cfg.chain = cfg.chain ∧
      ScanInv cfg start blocks (· ∈ blocks) (blocks.foldl scanBlockForLocals S) := by
  intro S
  obtain ⟨hgrows, hstart⟩ : Grows ⟨cfg', []⟩ S ∧ Within start (S.cfg.blocks cfg'.entry).unsafeLocalsMask :=
    maybePush_grows
  have hinv : ScanInv cfg start blocks (fun _ => False) S := by
    refine ⟨hshape.trans hgrows.shape, by rw [hgrows.shape.entry]; exact hstart, ?_, by simp⟩
    intro b hb hv
    refine (hgrows.waits b hv).resolve_left ?_
    dsimp only
    rw [hclear b hb]
    exact Bool.false_ne_true
  have hall := hinv.scanAll blocks
  refine ⟨by rw [hgrows.shape.chain, hshape.chain], hall.shape, hall.start, hall.waits, ?_⟩
  exact fun b hb => hall.closed b (.inr hb)

/-- Once nothing waits, every block is closed. -/
theorem ScanInv.finish (h : ScanInv cfg start blocks (· ∈ blocks) S) (hend : rescan S = .ok (S, false)) :
    ∀ b ∈ blocks, Closed S.cfg b := by
  obtain ⟨cfg₁, sp⟩ := S
  cases sp with
  | nil =>
    intro b hb
    refine (h.closed b hb).resolve_left fun hv => ?_
    cases h.waits b hb hv
  | cons b sp => cases congrArg Prod.snd (Except.ok.inj hend)

theorem scanPastMask_ok {nlocals : ℕ} (h : WellFormed cfg nlocals blocks) :
    ∃ cfg', scanPastMask cfg nlocals = .ok cfg' ∧ SameShape cfg cfg' ∧
      ∀ b ∈ blocks, LocallyBound (nlocals - 64) [] (cfg'.blocks b).instrs := by
  rw [scanPastMask]
  split_ifs
  · exact fastScanManyLocals_ok h.chain
  · refine ⟨cfg, rfl, SameShape.refl cfg, fun b hb i instr hget hop _ _ => ?_⟩
    have hlt := h.locals b hb instr (List.mem_of_getElem? hget) hop
    omega

/-- The pass ends, only checks loads, and a load that it leaves unchecked is bound on every path to
it. -/
theorem unchecked_loads_bound (cfg : Cfg n m) (nlocals nparams : ℕ) (blocks : List (Fin n))
    (h : WellFormed cfg nlocals blocks) : ∃ rounds, ∀ fuel, rounds ≤ fuel →
      ∃ cfg', addChecksForLoadsOfUninitializedVariables fuel cfg nlocals nparams = .ok cfg' ∧
        SameShape cfg cfg' ∧ ∀ b i tr instr, Path cfg' b i tr →
          (cfg'.blocks b).instrs[i]? = some instr → instr.op = .LoadFast →
            Bound nparams instr.arg.toNat tr := by
  by_cases hzero : nlocals = 0
  · refine ⟨0, fun fuel _ => ⟨cfg, if_pos hzero, SameShape.refl cfg, ?_⟩⟩
    intro b i tr instr hp hget hop
    have := h.locals b (hp.mem h) instr (List.mem_of_getElem? hget) hop
    omega
  · obtain ⟨cfg₁, hpast, hshape₁, hlocal⟩ := scanPastMask_ok h
    obtain ⟨cfg₂, hclear, hshape₂, hvisited⟩ := clearVisited_ok (hshape₁.chain.trans h.chain)
    obtain ⟨hchain, hinv⟩ := @scan_start _ _ cfg₁ cfg₂ (startMask nparams (min nlocals 64)) blocks
      hshape₂ hvisited
    refine ⟨scanRank (blocks.foldl scanBlockForLocals ((⟨cfg₂, []⟩ : Scan n m).maybePush cfg₂.entry
      (startMask nparams (min nlocals 64)))) + 1, fun fuel hfuel => ?_⟩
    obtain ⟨S, hS, hSinv, hend⟩ := @rounds_of_settles _ _ _ _ _ Fault.diverge _ fuel rescan_settles
      hinv (by omega)
    have hshape := hshape₁.trans hSinv.shape
    refine ⟨S.cfg, ?_, hshape, ?_⟩
    · rw [addChecksForLoadsOfUninitializedVariables, if_neg hzero, hpast, ok_bind, hclear, ok_bind]
      dsimp only
      rw [hchain, hshape₁.chain, h.chain, ok_bind, hS]
      rfl
    · intro b i tr instr hp hget hop
      have hw := hshape.wellFormed h
      have hb := hp.mem hw
      have hlt := hw.locals b hb instr (List.mem_of_getElem? hget) hop
      have hclosed := hSinv.finish hend
      by_cases hx : instr.arg.toNat < 64
      · have hstart : ¬instr.arg.toNat < nparams →
            (S.cfg.blocks S.cfg.entry).unsafeLocalsMask.getLsbD instr.arg.toNat = true := by
          intro hparam
          exact hSinv.start _ (startMask_getLsbD (by omega) (by omega) hx)
        refine (hp.mask hw hclosed hx hstart).resolve_right ?_
        exact mask_checked (maskAt_checked (hclosed b hb).checked hget) hop hx
      · obtain ⟨before, rfl⟩ := hp.ends
        have hbound := ((hlocal b hb).checked (hSinv.shape.instrs b)) i instr hget hop (by omega)
          (by omega)
        exact .inr (hbound.append_left before)

/-- A loop that reads and deletes the local 1, and a handler that reads it. -/
def loopGraph : Cfg 3 1 :=
  ⟨![⟨[⟨.StoreFast, 1, NO_LOCATION, none, none⟩], [], some 1, false, 0, false, 0⟩,
      ⟨[⟨.LoadFast, 1, NO_LOCATION, none, some 0⟩, ⟨.DeleteFast, 1, NO_LOCATION, none, some 0⟩,
        ⟨.Jump, 0, NO_LOCATION, some 1, none⟩], [], some 2, true, 0, false, 0⟩,
      ⟨[⟨.LoadFast, 0, NO_LOCATION, none, none⟩, ⟨.ReturnValue, 0, NO_LOCATION, none, none⟩], [],
        none, true, 0, false, 0⟩],
    0, ![⟨2, 0, false⟩]⟩

theorem wellFormed_loopGraph : WellFormed loopGraph 2 [0, 1, 2] := by
  constructor
  · rfl
  · have hlast : ∀ b, ∀ i (h : i < (loopGraph.blocks b).instrs.length),
        isJump ((loopGraph.blocks b).instrs.get ⟨i, h⟩).op = true →
          i + 1 = (loopGraph.blocks b).instrs.length := by
      decide
    intro b _ i instr hget hjump
    obtain ⟨hi, rfl⟩ := List.getElem?_eq_some_iff.mp hget
    exact hlast b i hi hjump
  · decide
  · decide
  · decide

theorem unchecked_loads_loopGraph : ∃ cfg', SameShape loopGraph cfg' ∧
    ∀ tr, Path cfg' 2 0 tr → ∀ instr, (cfg'.blocks 2).instrs[0]? = some instr → instr.op = .LoadFast →
      Bound 1 instr.arg.toNat tr := by
  obtain ⟨rounds, h⟩ := unchecked_loads_bound loopGraph 2 1 [0, 1, 2] wellFormed_loopGraph
  obtain ⟨cfg', -, hshape, hbound⟩ := h rounds le_rfl
  exact ⟨cfg', hshape, fun tr hp instr hget hop => hbound 2 0 tr instr hp hget hop⟩

end WeavePy.Flowgraph
