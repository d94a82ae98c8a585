import WeavePy.CpythonCode.Entries

/-!
The location table gives every code unit the location of its instruction.
-/

namespace WeavePy.CpythonCode

open NativeCode RunLength

variable {E : Type} {first : Int32} {enc : LocationEncoder} {units : List Location}

/-- The table so far has these locations, unit by unit. -/
structure Covers (first : Int32) (enc : LocationEncoder) (units : List Location) : Prop where
  lineno : 0 ≤ enc.lineno
  reads : ∃ es, (∀ rest, entries (enc.out ++ rest) first = es ++ entries rest enc.lineno) ∧ expand es = units

theorem covers_nil (h : 0 ≤ first) : Covers first ⟨[], first⟩ [] := by
  constructor
  · exact h
  · exact ⟨[], fun rest => rfl, rfl⟩

theorem Covers.emitEntry (h : Covers first enc units) {loc : Position} {n : ℕ} (hn : 1 ≤ n) (hn' : n ≤ 8)
    (hloc : loc.Ordered) : Covers first (enc.emitEntry loc n) (units ++ List.replicate n loc.readBack) := by
  obtain ⟨es, hes, hunits⟩ := h.reads
  obtain ⟨⟨bytes, hbytes, hentry⟩, hline⟩ := emits_emitEntry hn hn' h.lineno hloc
  constructor
  · exact hline
  · refine ⟨es ++ [(loc.readBack, n)], fun rest => ?_, ?_⟩
    · rw [hbytes, List.append_assoc, hes, hentry, List.append_assoc, List.singleton_append]
    · rw [expand_append, hunits, expand_cons, expand_nil, List.append_nil]

theorem Covers.emitPieces {loc : Position} {isize : ℕ} (h : Covers first enc units) (hn : 1 ≤ isize)
    (hloc : loc.Ordered) :
    Covers first (enc.emitPieces loc isize) (units ++ List.replicate isize loc.readBack) := by
  induction isize using Nat.strong_induction_on generalizing enc units with
  | _ isize ih =>
    rw [LocationEncoder.emitPieces]
    split_ifs with hbig
    · have hrest := ih (isize - 8) (by omega) (h.emitEntry (by decide) le_rfl hloc) (by omega)
      rw [List.append_assoc, List.replicate_append_replicate] at hrest
      rwa [Nat.add_sub_cancel' (by omega)] at hrest
    · exact h.emitEntry hn (by omega) hloc

theorem Covers.emitLocation (h : Covers first enc units) {loc : Position} (isize : ℕ) (hloc : loc.Ordered) :
    Covers first (enc.emitLocation loc isize) (units ++ List.replicate isize loc.readBack) := by
  rw [LocationEncoder.emitLocation]
  split_ifs with hzero
  · simpa [hzero] using h
  · exact h.emitPieces (by omega) hloc

/-- As `Covers`, with the run that is not yet written. -/
structure PendingRun.Covers (first : Int32) (s : PendingRun) (units : List Location) : Prop where
  ordered : ∀ loc, s.run = some loc → loc.Ordered
  reads : ∃ written, CpythonCode.Covers first s.enc written ∧
    units = written ++ s.run.elim [] fun loc => List.replicate s.size loc.readBack

namespace PendingRun

variable {s : PendingRun}

theorem Covers.flush (h : s.Covers first units) : CpythonCode.Covers first s.flush units := by
  obtain ⟨written, hwritten, rfl⟩ := h.reads
  rw [PendingRun.flush]
  cases hrun : s.run with
  | none => simpa using hwritten
  | some loc => exact hwritten.emitLocation s.size (h.ordered loc hrun)

theorem Covers.push (h : s.Covers first units) {pos : Position} (hpos : pos.Ordered) (size : ℕ) :
    (s.push pos size).Covers first (units ++ List.replicate size pos.readBack) := by
  rw [PendingRun.push]
  split_ifs with hrun
  · constructor
    · exact h.ordered
    · obtain ⟨written, hwritten, rfl⟩ := h.reads
      refine ⟨written, hwritten, ?_⟩
      simp only [hrun, Option.elim_some]
      rw [List.append_assoc, List.replicate_append_replicate]
  · constructor
    · rintro loc ⟨⟩
      exact hpos
    · exact ⟨units, h.flush, rfl⟩

end PendingRun

section Table

variable (code : CodeObject FullInfo E) (mapped : List MappedOp) (ext : List ℕ) (firstlineno : UInt32)

/-- The location of every unit of the first `n` instructions. -/
def unitLocations (n : ℕ) : List Location :=
  (List.range n).flatMap fun i =>
    if zeroWidth code i then []
    else List.replicate (unitsAt mapped ext i) (positionAt code i firstlineno).readBack

theorem unitLocations_succ (n : ℕ) :
    unitLocations code mapped ext firstlineno (n + 1) = unitLocations code mapped ext firstlineno n ++
      if zeroWidth code n then []
      else List.replicate (unitsAt mapped ext n) (positionAt code n firstlineno).readBack := by
  rw [unitLocations, unitLocations, List.range_succ, List.flatMap_append, List.flatMap_singleton]

theorem length_unitLocations (n : ℕ) :
    (unitLocations code mapped ext firstlineno n).length = startUnit code mapped ext n := by
  rw [unitLocations, startUnit, List.length_flatMap]
  congr 1
  apply List.map_congr_left
  intro i _
  split_ifs <;> simp

variable {code firstlineno}

theorem covers_fold (hfirst : 0 ≤ firstlineno.toInt32) {n : ℕ}
    (hpos : ∀ i < n, (positionAt code i firstlineno).Ordered) :
    PendingRun.Covers firstlineno.toInt32
      ((List.range n).foldl (fun s i =>
        if zeroWidth code i then s else s.push (positionAt code i firstlineno) (unitsAt mapped ext i))
        ⟨⟨[], firstlineno.toInt32⟩, none, 0⟩)
      (unitLocations code mapped ext firstlineno n) := by
  induction n with
  | zero =>
    constructor
    · rintro loc ⟨⟩
    · exact ⟨[], covers_nil hfirst, rfl⟩
  | succ n ih =>
    have ih := ih fun i hi => hpos i (Nat.lt_succ_of_lt hi)
    rw [List.range_succ, List.foldl_append, List.foldl_cons, List.foldl_nil, unitLocations_succ]
    split_ifs
    · rwa [List.append_nil]
    · exact ih.push (hpos n n.lt_succ_self) _

/-- Read back, the table has each unit's location. -/
theorem expand_entries (hfirst : 0 ≤ firstlineno.toInt32)
    (hpos : ∀ i < code.info.instructions.length, (positionAt code i firstlineno).Ordered) :
    expand (entries (encodeLinetable code mapped ext firstlineno) firstlineno.toInt32) =
      unitLocations code mapped ext firstlineno code.info.instructions.length := by
  obtain ⟨es, hes, hunits⟩ := (covers_fold mapped ext hfirst hpos).flush.reads
  have hall := hes []
  rw [List.append_nil, entries, List.append_nil] at hall
  rw [encodeLinetable, hall, hunits]

end Table

end WeavePy.CpythonCode

/-!
The code units read back: one instruction of the wire for each that has a width.
-/

namespace WeavePy.CpythonCode

open NativeCode

variable {E : Type}

/-! ### Mapped instructions -/

section Mapped

variable {code : CodeObject FullInfo E} {mapped : List MappedOp} {i : ℕ} {m : MappedOp}

/-- What the opcode of an instruction is: that of a pair or of itself alone. -/
structure Stands (pair : Bool) (m : MappedOp) : Prop where
  notCache : m.cpOp ≠ Op.CACHE
  notExtended : m.cpOp ≠ Op.EXTENDED_ARG
  expansion : ∀ arg, (m.cpOp = Op.LOAD_GLOBAL → arg &&& 1 = m.arg &&& 1) →
    rawExpansion m.cpOp arg = if pair then 2 else 1

theorem MappedOp.Plain.stands (h : m.Plain) : Stands false m := by
  refine ⟨h.notCache, h.notExtended, fun arg harg => ?_⟩
  rw [rawExpansion, if_neg h.notFused, if_neg]
  · rfl
  · rintro ⟨hglobal, hodd⟩
    exact hodd ((harg hglobal).trans (h.notCallable hglobal))

theorem stands_super {cpOp : UInt8} {arg : UInt32}
    (h : cpOp ∈ [Op.LOAD_FAST_LOAD_FAST, Op.LOAD_FAST_BORROW_LOAD_FAST_BORROW, Op.STORE_FAST_LOAD_FAST,
      Op.STORE_FAST_STORE_FAST]) : Stands true ⟨cpOp, arg⟩ := by
  refine ⟨?_, ?_, fun _ _ => by rw [rawExpansion, if_pos h]; rfl⟩
  · rintro rfl
    exact absurd h (by decide)
  · rintro rfl
    exact absurd h (by decide)

theorem stands_callable (arg : UInt32) : Stands true ⟨Op.LOAD_GLOBAL, (arg <<< 1) ||| 1⟩ := by
  constructor
  · exact (by decide : Op.LOAD_GLOBAL ≠ Op.CACHE)
  · exact (by decide : Op.LOAD_GLOBAL ≠ Op.EXTENDED_ARG)
  · intro arg' harg
    have hodd : arg' &&& 1 ≠ 0 := harg rfl ▸ odd_arg arg
    have hnot : Op.LOAD_GLOBAL ∉ [Op.LOAD_FAST_LOAD_FAST, Op.LOAD_FAST_BORROW_LOAD_FAST_BORROW,
      Op.STORE_FAST_LOAD_FAST, Op.STORE_FAST_STORE_FAST] := by decide
    rw [rawExpansion, if_neg hnot, if_pos ⟨rfl, hodd⟩]
    rfl

theorem stands_fused (h : fused code i = some m) : Stands true m := by
  unfold fused at h
  by_cases hhead : mark code i &&& Mark.FUSE_HEAD = 0
  · rw [if_pos hhead] at h
    cases h
  rw [if_neg hhead] at h
  split at h
  · cases h
    exact stands_callable _
  · split_ifs at h <;> cases h <;> exact stands_super (by decide)
  · split_ifs at h
    cases h
    exact stands_super (by decide)
  · split_ifs at h
    cases h
    exact stands_super (by decide)
  · cases h

/-- A fused pair starts with a load or a store. -/
theorem op_of_fused (h : fused code i = some m) :
    code.info.instructions[i]?.map Instruction.op ∈ [some .LoadGlobal, some .LoadFast, some .StoreFast] := by
  unfold fused at h
  by_cases hhead : mark code i &&& Mark.FUSE_HEAD = 0
  · rw [if_pos hhead] at h
    cases h
  rw [if_neg hhead] at h
  split at h
  all_goals first
    | simp [‹code.info.instructions[i]? = some _›]
    | cases h

theorem kwnames_eq_zero (h : code.info.instructions[i]?.map Instruction.op ≠ some .CallKw) : kwnames code i = 0 := by
  cases i with
  | zero => rfl
  | succ i =>
    rw [kwnames]
    split
    · rename_i hget
      rw [hget] at h
      exact absurd rfl h
    · rfl

theorem applyMark_stands (h : m.Plain) : Stands (fused code i).isSome (applyMark code i m) := by
  unfold applyMark
  cases hfused : fused code i with
  | some f => exact stands_fused hfused
  | none =>
    dsimp only
    split_ifs
    · exact MappedOp.Plain.stands (MappedOp.plain (by decide))
    · exact MappedOp.Plain.stands (MappedOp.plain (by decide))
    · exact h.stands
    · exact h.stands

theorem applyNoInterrupt_stands {pair : Bool} (h : Stands pair m) : Stands pair (applyNoInterrupt code i m) := by
  unfold applyNoInterrupt
  split_ifs with hjump
  · have hone := h.expansion m.arg fun _ => rfl
    rw [hjump.2] at hone
    have hsingle : rawExpansion Op.JUMP_BACKWARD m.arg = 1 := rfl
    cases pair with
    | true => exact absurd (hsingle.symm.trans hone) (by decide)
    | false => exact MappedOp.Plain.stands (MappedOp.plain (by decide))
  · exact h

/-- The names of a keyword call are counted in its own argument only. -/
theorem mapped_stands {ins : Instruction} {slots : DerefSlots} (hins : code.info.instructions[i]? = some ins)
    (hmap : mapToCpython ins slots = .ok m) (h : m.Plain) :
    Stands (fused code i).isSome
      { applyNoInterrupt code i (applyMark code i m) with
        arg := (applyNoInterrupt code i (applyMark code i m)).arg + kwnames code i } := by
  have hstands : Stands (fused code i).isSome (applyNoInterrupt code i (applyMark code i m)) :=
    applyNoInterrupt_stands (applyMark_stands h)
  by_cases hkw : ins.op = .CallKw
  · have hfused : fused code i = none := by
      cases hf : fused code i with
      | none => rfl
      | some f =>
        have hop := op_of_fused hf
        rw [hins, Option.map_some, hkw] at hop
        exact absurd hop (by decide)
    have hm : m.cpOp = Op.CALL_KW := by
      obtain ⟨op, arg⟩ := ins
      cases hkw
      cases hmap
      rfl
    have hmark : applyMark code i m = m := by
      unfold applyMark
      rw [hfused]
      dsimp only
      rw [if_neg]
      rw [hins, Option.map_some, hkw]
      exact fun hop => absurd hop.2.2 (by decide)
    have hsame : applyNoInterrupt code i m = m := by
      rw [applyNoInterrupt, if_neg]
      rw [hm]
      exact fun hjump => absurd hjump.2 (by decide)
    rw [hmark, hsame, hfused]
    have hcall : MappedOp.Plain ⟨Op.CALL_KW, m.arg + kwnames code i⟩ := MappedOp.plain (by decide)
    rw [← hm] at hcall
    exact hcall.stands
  · have hzero : kwnames code i = 0 := by
      apply kwnames_eq_zero
      rw [hins]
      simpa using hkw
    rwa [hzero, UInt32.add_zero]

theorem mapM_ok {α β : Type} {f : α → Outcome β} {P : α → β → Prop} {l : List α}
    (h : ∀ a ∈ l, ∃ b, f a = .ok b ∧ P a b) : ∃ bs, l.mapM f = .ok bs ∧ List.Forall₂ P l bs := by
  induction l with
  | nil => exact ⟨[], rfl, .nil⟩
  | cons a l ih =>
    obtain ⟨b, hb, hP⟩ := h a List.mem_cons_self
    obtain ⟨bs, hbs, hall⟩ := ih fun a ha => h a (List.mem_cons_of_mem _ ha)
    refine ⟨b :: bs, ?_, .cons hP hall⟩
    rw [List.mapM_cons, hb, hbs]
    rfl

theorem mappedOps_ok (h : ∀ ins ∈ code.info.instructions, isRuntime ins.op = true) :
    ∃ mapped, mappedOps code = .ok mapped ∧ mapped.length = code.info.instructions.length ∧
      ∀ i m, mapped[i]? = some m → Stands (fused code i).isSome m := by
  have hone (ins) (hmem : ins ∈ code.info.instructions) :
      ∃ m, mapToCpython ins (.fromCode code.info) = .ok m ∧
        (mapToCpython ins (.fromCode code.info) = .ok m ∧ m.Plain) := by
    obtain ⟨m, hm, hplain⟩ := mapToCpython_runtime (.fromCode code.info) (h ins hmem)
    exact ⟨m, hm, hm, hplain⟩
  obtain ⟨ms, hms, hall⟩ := mapM_ok hone
  refine ⟨_, by rw [mappedOps, hms]; rfl, ?_, fun i m hget => ?_⟩
  · rw [List.length_mapIdx, hall.length_eq]
  · rw [List.getElem?_mapIdx] at hget
    obtain ⟨m₀, hm₀, rfl⟩ := Option.map_eq_some_iff.mp hget
    obtain ⟨hi, rfl⟩ := List.getElem?_eq_some_iff.mp hm₀
    have hi' : i < code.info.instructions.length := hall.length_eq ▸ hi
    obtain ⟨hmap, hplain⟩ := hall.get hi' hi
    exact mapped_stands (List.getElem?_eq_getElem hi') hmap hplain

end Mapped

/-! ### Jumps -/

section Jumps

variable (code : CodeObject FullInfo E) (mapped : List MappedOp)

theorem length_resolveJumps (fuel : ℕ) (ext : List ℕ) (args : List UInt32) :
    (resolveJumps code mapped fuel ext args).1.length = ext.length ∧
      (resolveJumps code mapped fuel ext args).2.length = args.length := by
  induction fuel generalizing ext args with
  | zero => exact ⟨rfl, rfl⟩
  | succ fuel ih =>
    rw [resolveJumps]
    split_ifs
    · exact ⟨rfl, List.length_mapIdx⟩
    · obtain ⟨hext, hargs⟩ := ih (ext.mapIdx fun i e => (jumpArg code mapped ext i).elim e extCount)
        (args.mapIdx fun i arg => (jumpArg code mapped ext i).getD arg)
      exact ⟨hext.trans List.length_mapIdx, hargs.trans List.length_mapIdx⟩

/-- Only jumps have their arguments replaced. -/
theorem resolveJumps_arg {i : ℕ} (h : ∀ ext, jumpArg code mapped ext i = none) (fuel : ℕ) (ext : List ℕ)
    (args : List UInt32) : (resolveJumps code mapped fuel ext args).2[i]? = args[i]? := by
  have hkeep (ext : List ℕ) (args : List UInt32) :
      (args.mapIdx fun i arg => (jumpArg code mapped ext i).getD arg)[i]? = args[i]? := by
    rw [List.getElem?_mapIdx, h]
    simp
  induction fuel generalizing ext args with
  | zero => rfl
  | succ fuel ih =>
    rw [resolveJumps]
    split_ifs
    · exact hkeep ext args
    · rw [ih, hkeep]

theorem jumpArg_loadGlobal {i : ℕ} (h : cpOpAt mapped i = Op.LOAD_GLOBAL) (ext : List ℕ) :
    jumpArg code mapped ext i = none := by
  rw [jumpArg, h]
  rfl

end Jumps

/-! ### Code units -/

/-- The argument that the bytes of the widened units and of the unit itself make. -/
def widenedArg (arg : UInt32) (ext : ℕ) : UInt32 :=
  let pending := (List.range' 1 ext).reverse.foldl
    (fun (p : UInt32) k => (p <<< 8) ||| ((arg >>> (8 * k).toUInt32) &&& 0xFF).toUInt8.toUInt32) 0
  (pending <<< 8) ||| (arg &&& 0xFF).toUInt8.toUInt32

theorem widenedArg_and_one (arg : UInt32) (ext : ℕ) : widenedArg arg ext &&& 1 = arg &&& 1 := by
  have hlow (p : UInt32) : ((p <<< 8) ||| (arg &&& 0xFF).toUInt8.toUInt32) &&& 1 = arg &&& 1 := by
    apply UInt32.toNat_inj.mp
    rw [UInt32.toNat_and, UInt32.toNat_or, UInt32.toNat_shiftLeft, UInt8.toNat_toUInt32, UInt32.toNat_toUInt8,
      UInt32.toNat_and, UInt32.toNat_and]
    change (p.toNat <<< 8 % 2 ^ 32 ||| (arg.toNat &&& 255) % 256) &&& 1 = arg.toNat &&& 1
    rw [Nat.and_or_distrib_right, Nat.and_one_is_mod, Nat.and_one_is_mod, Nat.and_one_is_mod,
      Nat.and_two_pow_sub_one_eq_mod arg.toNat 8, Nat.shiftLeft_eq]
    have heven : p.toNat * 2 ^ 8 % 2 ^ 32 % 2 = 0 := by omega
    rw [heven, Nat.zero_or]
    omega
  exact hlow _

section Units

variable {unit start c : ℕ} {raws : List DecodedRaw} {rest : List UInt8} {arg pending : UInt32} {m : MappedOp}

theorem codeUnits_flatMap {α : Type} (cpOp : UInt8) (f : α → UInt8) (ks : List α) (rest : List UInt8) :
    codeUnits ((ks.flatMap fun k => [cpOp, f k]) ++ rest) = ks.map (fun k => (cpOp, f k)) ++ codeUnits rest := by
  induction ks with
  | nil => rfl
  | cons k ks ih =>
    rw [List.flatMap_cons, List.append_assoc]
    exact congrArg ((cpOp, f k) :: ·) ih

theorem decodeRawsFrom_skip (units : List (UInt8 × UInt8)) (x : UInt8 × UInt8) :
    decodeRawsFrom (List.replicate c x ++ units) unit c pending none raws =
      decodeRawsFrom units (unit + c) 0 pending none raws := by
  induction c generalizing unit with
  | zero => rfl
  | succ c ih =>
    rw [List.replicate_succ, List.cons_append, decodeRawsFrom, ih]
    congr 1
    omega

/-- The widened units come before their instruction and belong to it. -/
theorem decodeRawsFrom_extended (f : ℕ → UInt8) (ks : List ℕ) (units : List (UInt8 × UInt8)) (unit : ℕ)
    (pending : UInt32) (ext : Option ℕ) (raws : List DecodedRaw) (hext : ext.getD unit = start) :
    ∃ ext' : Option ℕ, ext'.getD (unit + ks.length) = start ∧
      decodeRawsFrom (ks.map (fun k => (Op.EXTENDED_ARG, f k)) ++ units) unit 0 pending ext raws =
        decodeRawsFrom units (unit + ks.length) 0
          (ks.foldl (fun (p : UInt32) k => (p <<< 8) ||| (f k).toUInt32) pending) ext' raws := by
  induction ks generalizing unit pending ext with
  | nil => exact ⟨ext, hext, rfl⟩
  | cons k ks ih =>
    obtain ⟨ext', hext', hrun⟩ := ih (unit + 1) ((pending <<< 8) ||| (f k).toUInt32) (some start) rfl
    have hlen : unit + (k :: ks).length = unit + 1 + ks.length := by
      rw [List.length_cons]
      omega
    refine ⟨ext', by rwa [hlen], ?_⟩
    rw [hlen, List.foldl_cons, ← hrun, List.map_cons, List.cons_append, decodeRawsFrom, if_pos rfl, hext]

/-- One instruction's units are read as one instruction. -/
theorem decodeRawsFrom_emitUnits (hcache : m.cpOp ≠ Op.CACHE) (hextended : m.cpOp ≠ Op.EXTENDED_ARG) (arg : UInt32)
    (ext : ℕ) (rest : List UInt8) (unit : ℕ) (raws : List DecodedRaw) :
    decodeRawsFrom (codeUnits (emitUnits m arg ext ++ rest)) unit 0 0 none raws =
      decodeRawsFrom (codeUnits rest) (unit + (ext + 1 + cacheEntries m.cpOp)) 0 0 none
        (raws ++ [⟨m.cpOp, widenedArg arg ext, unit, ext + 1 + cacheEntries m.cpOp⟩]) := by
  have hunits : codeUnits (emitUnits m arg ext ++ rest) =
      (List.range' 1 ext).reverse.map
          (fun k => (Op.EXTENDED_ARG, ((arg >>> (8 * k).toUInt32) &&& 0xFF).toUInt8)) ++
        (m.cpOp, (arg &&& 0xFF).toUInt8) :: (List.replicate (cacheEntries m.cpOp) (Op.CACHE, 0) ++ codeUnits rest) := by
    have hcaches : (List.replicate (cacheEntries m.cpOp) [Op.CACHE, 0]).flatten =
        (List.replicate (cacheEntries m.cpOp) ()).flatMap fun _ => [Op.CACHE, 0] := by
      rw [List.flatMap_def, List.map_replicate]
    rw [emitUnits, hcaches, List.append_assoc, List.append_assoc, codeUnits_flatMap, List.cons_append,
      List.singleton_append, codeUnits, codeUnits_flatMap Op.CACHE fun _ => 0, List.map_replicate]
  obtain ⟨ext', hext', hrun⟩ := decodeRawsFrom_extended
    (fun k => ((arg >>> (8 * k).toUInt32) &&& 0xFF).toUInt8) (List.range' 1 ext).reverse
    ((m.cpOp, (arg &&& 0xFF).toUInt8) :: (List.replicate (cacheEntries m.cpOp) (Op.CACHE, 0) ++ codeUnits rest))
    unit 0 none raws (rfl : (none : Option ℕ).getD unit = unit)
  rw [List.length_reverse, List.length_range'] at hext' hrun
  rw [Option.getD_none] at hext'
  have hsize : unit + ext - unit + 1 + cacheEntries m.cpOp = ext + 1 + cacheEntries m.cpOp := by omega
  have hnext : unit + ext + 1 + cacheEntries m.cpOp = unit + (ext + 1 + cacheEntries m.cpOp) := by omega
  rw [hunits, hrun, decodeRawsFrom, if_neg hextended, if_neg hcache, decodeRawsFrom_skip, hext', hsize, hnext]
  rfl

theorem length_emitUnits (m : MappedOp) (arg : UInt32) (ext : ℕ) :
    (emitUnits m arg ext).length = 2 * (ext + 1 + cacheEntries m.cpOp) := by
  have hflat (ks : List ℕ) (f : ℕ → UInt8) : (ks.flatMap fun k => [Op.EXTENDED_ARG, f k]).length = 2 * ks.length := by
    induction ks with
    | nil => rfl
    | cons k ks ih =>
      rw [List.flatMap_cons, List.length_append, ih]
      simp
      omega
  rw [emitUnits, List.length_append, List.length_append, hflat]
  simp
  omega

end Units

/-! ### The whole stream -/

section Stream

variable (code : CodeObject FullInfo E) (mapped : List MappedOp) (ext : List ℕ) (args : List UInt32)

/-- The instructions that have a width. -/
def wide (n : ℕ) : List ℕ := (List.range n).filter (!zeroWidth code ·)

theorem wide_succ (n : ℕ) : wide code (n + 1) = wide code n ++ if zeroWidth code n then [] else [n] := by
  rw [wide, wide, List.range_succ, List.filter_append]
  cases h : zeroWidth code n <;> simp [h]

def rawAt (i : ℕ) : DecodedRaw :=
  ⟨cpOpAt mapped i, widenedArg (args[i]?.getD 0) (ext[i]?.getD 0), startUnit code mapped ext i, unitsAt mapped ext i⟩

def emitFirst (n : ℕ) : List UInt8 :=
  (List.range n).flatMap fun i =>
    if zeroWidth code i then [] else emitUnits (mapped[i]?.getD ⟨Op.CACHE, 0⟩) (args[i]?.getD 0) (ext[i]?.getD 0)

theorem emitFirst_succ (n : ℕ) : emitFirst code mapped ext args (n + 1) = emitFirst code mapped ext args n ++
    if zeroWidth code n then []
    else emitUnits (mapped[n]?.getD ⟨Op.CACHE, 0⟩) (args[n]?.getD 0) (ext[n]?.getD 0) := by
  rw [emitFirst, emitFirst, List.range_succ, List.flatMap_append, List.flatMap_singleton]

theorem startUnit_succ (n : ℕ) : startUnit code mapped ext (n + 1) = startUnit code mapped ext n +
    if zeroWidth code n then 0 else unitsAt mapped ext n := by
  rw [startUnit, startUnit, List.range_succ, List.map_append, List.sum_append, List.map_singleton, List.sum_singleton]

theorem length_emitFirst (n : ℕ) (hn : n ≤ mapped.length) :
    (emitFirst code mapped ext args n).length = 2 * startUnit code mapped ext n := by
  induction n with
  | zero => rfl
  | succ n ih =>
    have hget : mapped[n]? = some mapped[n] := List.getElem?_eq_getElem hn
    rw [emitFirst_succ, startUnit_succ, List.length_append, ih (by omega)]
    split_ifs
    · rfl
    · rw [length_emitUnits, unitsAt, cpOpAt, hget]
      simp
      omega

theorem decodeRaws_emitFirst {n : ℕ} (hn : n ≤ mapped.length)
    (hops : ∀ m ∈ mapped, m.cpOp ≠ Op.CACHE ∧ m.cpOp ≠ Op.EXTENDED_ARG) (rest : List UInt8) :
    decodeRawsFrom (codeUnits (emitFirst code mapped ext args n ++ rest)) 0 0 0 none [] =
      decodeRawsFrom (codeUnits rest) (startUnit code mapped ext n) 0 0 none
        ((wide code n).map (rawAt code mapped ext args)) := by
  induction n generalizing rest with
  | zero => rfl
  | succ n ih =>
    have hget : mapped[n]? = some mapped[n] := List.getElem?_eq_getElem hn
    obtain ⟨hcache, hextended⟩ := hops mapped[n] (List.getElem_mem hn)
    rw [emitFirst_succ, startUnit_succ, List.append_assoc, ih (by omega), wide_succ]
    by_cases hzero : zeroWidth code n = true
    · simp [hzero]
    · rw [if_neg hzero, if_neg hzero, if_neg hzero, List.map_append, hget, Option.getD_some, decodeRawsFrom_emitUnits hcache hextended]
      simp [rawAt, unitsAt, cpOpAt, hget]

theorem decodeRaws_emitCode (hlen : mapped.length = code.info.instructions.length)
    (hops : ∀ m ∈ mapped, m.cpOp ≠ Op.CACHE ∧ m.cpOp ≠ Op.EXTENDED_ARG) :
    decodeRaws (emitCode code mapped ext args) =
      (wide code code.info.instructions.length).map (rawAt code mapped ext args) := by
  have hall := decodeRaws_emitFirst code mapped ext args hlen.ge hops []
  rw [List.append_nil] at hall
  exact hall

end Stream

end WeavePy.CpythonCode
