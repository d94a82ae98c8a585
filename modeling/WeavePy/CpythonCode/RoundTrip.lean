import WeavePy.CpythonCode.Units

/-!
The location table gives every instruction its location back.
-/

namespace WeavePy.CpythonCode

open NativeCode RunLength

variable {E : Type}

section Lines

variable {x y : UInt32}

theorem toInt_toInt32 (h : x.toNat < 2 ^ 31) : x.toInt32.toInt = x.toNat :=
  BitVec.toInt_eq_toNat_of_lt (x := x.toBitVec) (by change 2 * x.toNat < 2 ^ 32; omega)

theorem toInt32_nonneg (h : x.toNat < 2 ^ 31) : 0 ≤ x.toInt32 := by
  rw [Int32.le_iff_toInt_le, toInt_toInt32 h]
  simp

theorem toInt32_le (hxy : x ≤ y) (h : y.toNat < 2 ^ 31) : x.toInt32 ≤ y.toInt32 := by
  have hle : x.toNat ≤ y.toNat := UInt32.le_iff_toNat_le.mp hxy
  rw [Int32.le_iff_toInt_le, toInt_toInt32 h, toInt_toInt32 (by omega)]
  exact Int.ofNat_le.mpr hle

theorem toInt32_ne_zero (hx : 1 ≤ x) : x.toInt32 ≠ 0 := by
  intro h
  have hzero : x = 0 := congrArg Int32.toUInt32 h
  rw [hzero] at hx
  exact absurd hx (by decide)

end Lines

section ReadBack

variable {line endLineno : UInt32} {col endCol : Int32}

theorem readBack_known (hle : line ≤ endLineno) (hend : endLineno.toNat < 2 ^ 31) (hcol : 0 ≤ col) (hcol' : 0 ≤ endCol) :
    Position.Ordered ⟨line.toInt32, endLineno.toInt32, some col.toUInt32, some endCol.toUInt32⟩ ∧
      Position.readBack ⟨line.toInt32, endLineno.toInt32, some col.toUInt32, some endCol.toUInt32⟩ =
        (line, ⟨endLineno, col, endCol⟩) := by
  have hline : line.toNat < 2 ^ 31 := lt_of_le_of_lt (UInt32.le_iff_toNat_le.mp hle) hend
  have hneg : ¬ line.toInt32 < 0 := Int32.not_lt.mpr (toInt32_nonneg hline)
  have hcols : ¬ (col < 0 ∨ endCol < 0) := not_or.mpr ⟨Int32.not_lt.mpr hcol, Int32.not_lt.mpr hcol'⟩
  constructor
  · exact fun _ => toInt32_le hle hend
  · simp only [Position.readBack, Option.elim_some, Int32.toInt32_toUInt32]
    rw [if_neg hneg, if_neg fun h => hcols h.1]
    rfl

theorem readBack_unknown (hline : line.toNat < 2 ^ 31) :
    Position.Ordered ⟨line.toInt32, line.toInt32, none, none⟩ ∧
      Position.readBack ⟨line.toInt32, line.toInt32, none, none⟩ = (line, ColSpan.default) := by
  have hneg : ¬ line.toInt32 < 0 := Int32.not_lt.mpr (toInt32_nonneg hline)
  constructor
  · exact fun _ => Int32.le_refl _
  · simp only [Position.readBack, Option.elim_none]
    rw [if_neg hneg, if_pos (by decide)]
    rfl

end ReadBack

/-! ### Locations -/

/-- No location, or lines in order with both columns known or neither. -/
def Assigned (loc : Location) : Prop :=
  loc = (0, ColSpan.default) ∨
    1 ≤ loc.1 ∧ (loc.1 ≤ loc.2.endLineno ∧ 0 ≤ loc.2.col ∧ 0 ≤ loc.2.endCol ∨
      (loc.2.endLineno = loc.1 ∨ loc.2.endLineno = 0) ∧ loc.2.col < 0 ∧ loc.2.endCol < 0)

/-- Lines that an `i32` holds. -/
def Signed (loc : Location) : Prop := loc.1.toNat < 2 ^ 31 ∧ loc.2.endLineno.toNat < 2 ^ 31

instance (loc : Location) : Decidable (Assigned loc) := inferInstanceAs (Decidable (_ ∨ _))

instance (loc : Location) : Decidable (Signed loc) := inferInstanceAs (Decidable (_ ∧ _))

/-- Unknown columns are the default span. -/
def plainLocation (loc : Location) : Location := (loc.1, if loc.2.col < 0 then ColSpan.default else loc.2)

section Positions

variable (code : CodeObject FullInfo E)

/-- The location that the code's tables assign. -/
def assignedAt (i : ℕ) : Location :=
  (code.info.linetable[i]?.getD (codeFirstlineno code), code.info.coltable[i]?.getD ColSpan.default)

/-- The instruction whose unit stands for this one. -/
def wireHead (i : ℕ) : ℕ := if zeroWidth code i then i - 1 else i

/-- What the table says of an instruction. -/
def readBackAt (i : ℕ) : Location :=
  if moduleResumeAt code (wireHead code i) then (0, MODULE_RESUME_COL)
  else plainLocation (assignedAt code (wireHead code i))

variable {code}

theorem positionAt_unlocated {i : ℕ} (hresume : moduleResumeAt code i = false)
    (h : assignedAt code i = (0, ColSpan.default)) :
    positionAt code i (codeFirstlineno code) = ⟨-1, -1, none, none⟩ := by
  obtain ⟨hline, hcol⟩ := Prod.mk.inj h
  rw [positionAt, if_neg (by simp [hresume]), hline, hcol]
  rfl

theorem positionAt_located {i : ℕ} (hresume : moduleResumeAt code i = false) (h : 1 ≤ (assignedAt code i).1) :
    positionAt code i (codeFirstlineno code) =
      { lineno := (assignedAt code i).1.toInt32
        endLineno :=
          if (assignedAt code i).2.endLineno ≠ 0 then (assignedAt code i).2.endLineno.toInt32
          else (assignedAt code i).1.toInt32
        col := if 0 ≤ (assignedAt code i).2.col then some (assignedAt code i).2.col.toUInt32 else none
        endCol := if 0 ≤ (assignedAt code i).2.endCol then some (assignedAt code i).2.endCol.toUInt32 else none } := by
  have hline : (if (assignedAt code i).1.toInt32 = 0 then -1 else (assignedAt code i).1.toInt32) =
      (assignedAt code i).1.toInt32 := if_neg (toInt32_ne_zero h)
  rw [positionAt, if_neg (by simp [hresume])]
  exact congrArg (fun line => Position.mk line
    (if (assignedAt code i).2.endLineno ≠ 0 then (assignedAt code i).2.endLineno.toInt32 else line) _ _) hline

theorem readBack_positionAt {i : ℕ} (hloc : moduleResumeAt code i = false → Assigned (assignedAt code i) ∧
      Signed (assignedAt code i)) :
    (positionAt code i (codeFirstlineno code)).Ordered ∧
      (positionAt code i (codeFirstlineno code)).readBack =
        if moduleResumeAt code i then (0, MODULE_RESUME_COL) else plainLocation (assignedAt code i) := by
  cases hresume : moduleResumeAt code i with
  | true =>
    rw [positionAt, if_pos hresume]
    exact ⟨fun _ => by decide, rfl⟩
  | false =>
    obtain ⟨hassigned, hline, hend⟩ := hloc hresume
    rw [if_neg (by decide)]
    obtain hnone | ⟨hpos, hcols⟩ := hassigned
    · rw [positionAt_unlocated hresume hnone, hnone]
      exact ⟨fun _ => by decide, rfl⟩
    · rw [positionAt_located hresume hpos]
      generalize assignedAt code i = loc at *
      obtain ⟨line, endLineno, col, endCol⟩ := loc
      dsimp only at *
      obtain ⟨hle, hcol, hcol'⟩ | ⟨hend', hcol, hcol'⟩ := hcols
      · have hne : endLineno ≠ 0 := by
          rintro rfl
          exact absurd (UInt32.le_trans hpos hle) (by decide)
        have hplain : plainLocation (line, ⟨endLineno, col, endCol⟩) = (line, ⟨endLineno, col, endCol⟩) := by
          rw [plainLocation, if_neg (Int32.not_lt.mpr hcol)]
        rw [if_pos hne, if_pos hcol, if_pos hcol', hplain]
        exact readBack_known hle hend hcol hcol'
      · have hsame : (if endLineno ≠ 0 then endLineno.toInt32 else line.toInt32) = line.toInt32 := by
          obtain rfl | rfl := hend' <;> simp
        have hplain : plainLocation (line, ⟨endLineno, col, endCol⟩) = (line, ColSpan.default) := by
          rw [plainLocation, if_pos hcol]
        rw [hsame, if_neg (Int32.not_le.mpr hcol), if_neg (Int32.not_le.mpr hcol'), hplain]
        exact readBack_unknown hline

end Positions

/-! ### The table read back -/

section Stream

variable (code : CodeObject FullInfo E) (mapped : List MappedOp) (ext : List ℕ) (args : List UInt32)

theorem startUnit_mono {m n : ℕ} (h : m ≤ n) : startUnit code mapped ext m ≤ startUnit code mapped ext n := by
  induction h with
  | refl => exact le_rfl
  | step _ ih =>
    rw [startUnit_succ]
    exact ih.trans (Nat.le_add_right _ _)

theorem unitLocations_prefix (firstlineno : UInt32) {m n : ℕ} (h : m ≤ n) :
    unitLocations code mapped ext firstlineno m <+: unitLocations code mapped ext firstlineno n := by
  induction h with
  | refl => exact List.prefix_rfl
  | step _ ih =>
    rw [unitLocations_succ]
    exact ih.trans (List.prefix_append _ _)

theorem mem_wide {i n : ℕ} : i ∈ wide code n ↔ i < n ∧ zeroWidth code i = false := by
  rw [wide, List.mem_filter, List.mem_range]
  simp

theorem unitLocations_start (firstlineno : UInt32) {i n : ℕ} (h : i ∈ wide code n) :
    (unitLocations code mapped ext firstlineno n)[startUnit code mapped ext i]? =
      some (positionAt code i firstlineno).readBack := by
  obtain ⟨hi, hzero⟩ := (mem_wide code).mp h
  have hlast : (unitLocations code mapped ext firstlineno (i + 1))[startUnit code mapped ext i]? =
      some (positionAt code i firstlineno).readBack := by
    rw [unitLocations_succ, List.getElem?_append_right (length_unitLocations code mapped ext firstlineno i).le,
      length_unitLocations, Nat.sub_self, if_neg (by simp [hzero]), unitsAt, List.getElem?_replicate,
      if_pos (by omega)]
  obtain ⟨more, hmore⟩ := unitLocations_prefix code mapped ext firstlineno (Nat.succ_le_of_lt hi)
  rw [← hmore, List.getElem?_append_left (List.getElem?_eq_some_iff.mp hlast).1, hlast]

theorem pairwise_startUnit (n : ℕ) :
    ((wide code n).map (rawAt code mapped ext args)).Pairwise fun r r' => r.startUnit ≤ r'.startUnit := by
  rw [List.pairwise_map]
  have hsorted : (wide code n).Pairwise (· < ·) := List.pairwise_lt_range.filter _
  exact hsorted.imp fun h => startUnit_mono code mapped ext h.le

/-- Each instruction with a width stands for itself or for itself and its tail. -/
theorem flatMap_wide {α : Type} (f : ℕ → α) (htail : ∀ i, zeroWidth code i = true → zeroWidth code (i + 1) = false)
    (n : ℕ) :
    ((wide code n).flatMap fun i => List.replicate (if zeroWidth code (i + 1) then 2 else 1) (f i)) =
      (List.range n).map (fun i => f (wireHead code i)) ++ if zeroWidth code n then [f (n - 1)] else [] := by
  induction n with
  | zero => rfl
  | succ n ih =>
    rw [wide_succ, List.flatMap_append, ih, List.range_succ, List.map_append, List.map_singleton, wireHead]
    cases hzero : zeroWidth code n with
    | true => simp [htail n hzero]
    | false =>
      cases hnext : zeroWidth code (n + 1) with
      | true => simp [hnext]
      | false => simp [hnext]

theorem decodeLinetable_encodeLinetable (firstlineno : UInt32) (hlen : mapped.length = code.info.instructions.length)
    (hops : ∀ m ∈ mapped, m.cpOp ≠ Op.CACHE ∧ m.cpOp ≠ Op.EXTENDED_ARG) (hfirst : 0 ≤ firstlineno.toInt32)
    (hpos : ∀ i < code.info.instructions.length, (positionAt code i firstlineno).Ordered) :
    decodeLinetable (encodeLinetable code mapped ext firstlineno) (decodeRaws (emitCode code mapped ext args))
        firstlineno =
      (wide code code.info.instructions.length).flatMap fun i =>
        List.replicate (rawExpansion (cpOpAt mapped i) (widenedArg (args[i]?.getD 0) (ext[i]?.getD 0)))
          (positionAt code i firstlineno).readBack := by
  rw [decodeLinetable, decodeRaws_emitCode code mapped ext args hlen hops,
    assign_eq _ (pairwise_startUnit code mapped ext args _) (fun _ _ => Nat.zero_le _),
    expand_entries mapped ext hfirst hpos, List.map_map, List.flatMap_map]
  apply List.flatMap_congr
  intro i hi
  dsimp only [Function.comp_apply, rawAt]
  rw [Nat.sub_zero, unitLocations_start code mapped ext firstlineno hi, Option.getD_some]

end Stream

/-- A code object as the flowgraph leaves it: none of its own instructions, no tail that is also a head, and a location
whose lines an `i32` holds for each instruction. -/
structure Assembled (code : CodeObject FullInfo E) : Prop where
  runtime : ∀ ins ∈ code.info.instructions, isRuntime ins.op = true
  marks : ∀ i, mark code i &&& Mark.FUSE_HEAD ≠ 0 → mark code (i + 1) &&& Mark.FUSE_HEAD = 0
  lines : code.info.linetable.length = code.info.instructions.length
  located : ∀ i < code.info.instructions.length, moduleResumeAt code i = false →
    Assigned (assignedAt code i) ∧ Signed (assignedAt code i)

namespace Assembled

variable {code : CodeObject FullInfo E}

theorem tail_of_marks (hmarks : ∀ i, mark code i &&& Mark.FUSE_HEAD ≠ 0 → mark code (i + 1) &&& Mark.FUSE_HEAD = 0)
    (i : ℕ) (hi : zeroWidth code i = true) : zeroWidth code (i + 1) = false := by
  cases i with
  | zero => cases hi
  | succ i =>
    have hhead : mark code i &&& Mark.FUSE_HEAD ≠ 0 := by
      intro hno
      rw [zeroWidth, fused, if_pos hno] at hi
      cases hi
    rw [zeroWidth, fused, if_pos (hmarks i hhead)]
    rfl

theorem tail (h : Assembled code) (i : ℕ) (hi : zeroWidth code i = true) : zeroWidth code (i + 1) = false :=
  tail_of_marks h.marks i hi

theorem zeroWidth_length : zeroWidth code code.info.instructions.length = false := by
  cases hn : code.info.instructions.length with
  | zero => rfl
  | succ n =>
    have hnone : code.info.instructions[n + 1]? = none := List.getElem?_eq_none hn.le
    rw [zeroWidth, fused]
    by_cases hhead : mark code n &&& Mark.FUSE_HEAD = 0
    · rw [if_pos hhead]
      rfl
    · rw [if_neg hhead, hnone]
      split <;> first | contradiction | rfl

theorem firstlineno (h : Assembled code) : (codeFirstlineno code).toNat < 2 ^ 31 := by
  unfold codeFirstlineno
  split_ifs with hmodule
  · decide
  · cases hfind : code.info.linetable.find? (0 < ·) with
    | none => decide
    | some l =>
      obtain ⟨i, hi, rfl⟩ := List.mem_iff_getElem.mp (List.mem_of_find?_eq_some hfind)
      have hresume : moduleResumeAt code i = false := by
        rw [moduleResumeAt, if_pos (.inl hmodule)]
      have hsigned := (h.located i (h.lines ▸ hi) hresume).2.1
      rw [assignedAt, List.getElem?_eq_getElem hi] at hsigned
      exact hsigned

theorem readBack (h : Assembled code) {i : ℕ} (hi : i < code.info.instructions.length) :
    (positionAt code i (codeFirstlineno code)).Ordered ∧
      (positionAt code i (codeFirstlineno code)).readBack =
        if moduleResumeAt code i then (0, MODULE_RESUME_COL) else plainLocation (assignedAt code i) :=
  readBack_positionAt (h.located i hi)

end Assembled

section Main

variable {code : CodeObject FullInfo E}

/-- The decoded argument of a global's load has the flag that its opcode was written with. -/
theorem expansion_wide {mapped : List MappedOp} (hmapped : mapped.length = code.info.instructions.length)
    (hstands : ∀ i m, mapped[i]? = some m → Stands (fused code i).isSome m) {i : ℕ}
    (hi : i < code.info.instructions.length) (ext : List ℕ) :
    rawExpansion (cpOpAt mapped i)
        (widenedArg ((resolveJumps code mapped 16 ext (mapped.map MappedOp.arg)).2[i]?.getD 0)
          ((resolveJumps code mapped 16 ext (mapped.map MappedOp.arg)).1[i]?.getD 0)) =
      if zeroWidth code (i + 1) then 2 else 1 := by
  have hget : mapped[i]? = some mapped[i] := List.getElem?_eq_getElem (hmapped ▸ hi)
  have hop : cpOpAt mapped i = mapped[i].cpOp := by
    rw [cpOpAt, hget]
    rfl
  rw [hop]
  apply (hstands i mapped[i] hget).expansion
  intro hglobal
  rw [widenedArg_and_one, resolveJumps_arg code mapped (jumpArg_loadGlobal code mapped (hop.trans hglobal)),
    List.getElem?_map, hget]
  rfl

def reread (w : Wire) : List Location := decodeLinetable w.coLinetable (decodeRaws w.coCode) w.firstlineno

/-- The widths and arguments that the jumps settle on. -/
def settled (code : CodeObject FullInfo E) (mapped : List MappedOp) : List ℕ × List UInt32 :=
  resolveJumps code mapped 16 (seedExt code mapped) (mapped.map MappedOp.arg)

theorem encode_ok {mapped : List MappedOp} (h : mappedOps code = .ok mapped) :
    encode code = .ok ⟨emitCode code mapped (settled code mapped).1 (settled code mapped).2,
      encodeLinetable code mapped (settled code mapped).1 (codeFirstlineno code), codeFirstlineno code⟩ := by
  rw [encode, h]
  rfl

/-- Every instruction reads back its own location, a fusion's tail its head's, and the entries cover the code. -/
theorem linetable_reads_back (h : Assembled code) :
    ∃ w, encode code = .ok w ∧ reread w = (List.range code.info.instructions.length).map (readBackAt code) ∧
      ((entries w.coLinetable w.firstlineno.toInt32).map Prod.snd).sum = w.coCode.length / 2 := by
  obtain ⟨mapped, hmapped, hlen, hstands⟩ := mappedOps_ok h.runtime
  have hops : ∀ m ∈ mapped, m.cpOp ≠ Op.CACHE ∧ m.cpOp ≠ Op.EXTENDED_ARG := by
    intro m hm
    obtain ⟨i, hi, rfl⟩ := List.mem_iff_getElem.mp hm
    have hone := hstands i _ (List.getElem?_eq_getElem hi)
    exact ⟨hone.notCache, hone.notExtended⟩
  have hfirst : 0 ≤ (codeFirstlineno code).toInt32 := toInt32_nonneg h.firstlineno
  have hpos : ∀ i < code.info.instructions.length, (positionAt code i (codeFirstlineno code)).Ordered :=
    fun i hi => (h.readBack hi).1
  refine ⟨_, encode_ok hmapped, ?_, ?_⟩
  · rw [reread, decodeLinetable_encodeLinetable code mapped _ _ _ hlen hops hfirst hpos]
    calc _ = (wide code code.info.instructions.length).flatMap fun i =>
          List.replicate (if zeroWidth code (i + 1) then 2 else 1)
            (positionAt code i (codeFirstlineno code)).readBack := by
            apply List.flatMap_congr
            intro i hi
            rw [settled, expansion_wide hlen hstands ((mem_wide code).mp hi).1]
      _ = (List.range code.info.instructions.length).map fun i =>
          (positionAt code (wireHead code i) (codeFirstlineno code)).readBack := by
            rw [flatMap_wide code (fun i => (positionAt code i (codeFirstlineno code)).readBack) h.tail,
              Assembled.zeroWidth_length, if_neg (by decide), List.append_nil]
      _ = _ := by
            apply List.map_congr_left
            intro i hi
            have hle : wireHead code i ≤ i := by
              rw [wireHead]
              split_ifs <;> omega
            exact (h.readBack (lt_of_le_of_lt hle (List.mem_range.mp hi))).2
  · have hbytes : (emitCode code mapped (settled code mapped).1 (settled code mapped).2).length =
        2 * startUnit code mapped (settled code mapped).1 code.info.instructions.length :=
      length_emitFirst code mapped _ _ _ hlen.ge
    rw [hbytes, ← length_expand, expand_entries mapped _ hfirst hpos, length_unitLocations]
    omega

end Main

/-- A body with nothing but instructions, marks and locations. -/
def bareCode (name : String) (instructions : List Instruction) (marks : List UInt8) (locs : List Location) :
    CodeObject FullInfo Empty :=
  { header :=
      { name, qualname := name, filename := "", argCount := 0, posonlyCount := 0, kwonlyCount := 0,
        hasVarargs := false, hasVarkeywords := false, isClassBody := false, isGenerator := false,
        isCoroutine := false, isAsyncGenerator := false, isIterableCoroutine := false, hasDocstring := false,
        isMethod := false, isNested := false, annotateScope := false, futureFlags := 0, stacksize := none }
    info :=
      { instructions, names := [], varnames := [], freevars := [], cellvars := [], exceptionTable := [],
        linetable := locs.map Prod.fst, coltable := locs.map Prod.snd, wireMarks := marks, noInterruptJumps := [],
        hiddenLocals := [], constIdentifiers := [], wire := false }
    constants := [] }

/-- Two loads in one unit on a far line, between an unlocated instruction and a line before the first. -/
def loadsBody : CodeObject FullInfo Empty :=
  bareCode "f" [⟨.Resume, 0⟩, ⟨.LoadFast, 0⟩, ⟨.LoadFast, 1⟩, ⟨.ReturnValue, 0⟩]
    [Mark.PLAIN, Mark.FUSE_HEAD, Mark.FUSE_TAIL, Mark.PLAIN]
    [(0, ColSpan.default), (70000, ⟨70002, 0, 200⟩), (70000, ⟨70002, 0, 200⟩), (3, ⟨3, 1, 2⟩)]

theorem loadsBody_reads_back :
    ∃ w, encode loadsBody = .ok w ∧ reread w = (List.range 4).map (readBackAt loadsBody) ∧
      ((entries w.coLinetable w.firstlineno.toInt32).map Prod.snd).sum = w.coCode.length / 2 := by
  apply linetable_reads_back
  constructor
  · decide
  · rintro (_ | _ | _ | _ | i) h
    · exact absurd rfl h
    · rfl
    · exact absurd rfl h
    · exact absurd rfl h
    · have hplain : mark loadsBody (i + 1 + 1 + 1 + 1) = Mark.PLAIN := by simp [mark, loadsBody, bareCode]
      rw [hplain] at h
      exact absurd rfl h
  · rfl
  · decide +kernel

/-- Every instruction reads its own location back. -/
def RoundTrips (code : CodeObject FullInfo Empty) : Prop :=
  (∀ i < code.info.instructions.length, Assigned (assignedAt code i)) →
    (encode code).map reread =
      .ok ((List.range code.info.instructions.length).map fun i => plainLocation (assignedAt code i))

instance (code : CodeObject FullInfo Empty) : Decidable (RoundTrips code) :=
  inferInstanceAs (Decidable (_ → _))

/-- A fused pair at two columns, a module's unlocated `RESUME`, and a line past `i32::MAX`. -/
theorem linetable_loses :
    ¬ RoundTrips (bareCode "f" [⟨.LoadFast, 0⟩, ⟨.LoadFast, 1⟩] [Mark.FUSE_HEAD, Mark.FUSE_TAIL]
        [(1, ⟨1, 0, 1⟩), (1, ⟨1, 4, 5⟩)]) ∧
      ¬ RoundTrips (bareCode "<module>" [⟨.Resume, 0⟩] [] [(0, ColSpan.default)]) ∧
      ¬ RoundTrips (bareCode "f" [⟨.Resume, 0⟩] [] [(0x80000000, ⟨0x80000000, 0, 1⟩)]) := by
  decide +kernel

end WeavePy.CpythonCode
