import WeavePy.CpythonCode.Exceptions

/-!
Which exception tables are read back as they were.
-/

namespace WeavePy.CpythonCode

open NativeCode Segments

variable {E : Type}

/-- Ranges that are not empty, in order, and as long as they can be, whose ends and handlers are no fusion's tail. -/
structure Canonical (code : CodeObject FullInfo E) : Prop where
  nonempty : ∀ h ∈ code.info.exceptionTable, h.start < h.stop
  inside : ∀ h ∈ code.info.exceptionTable,
    h.stop.toNat ≤ code.info.instructions.length ∧ h.handler.toNat < code.info.instructions.length
  ordered : code.info.exceptionTable.Pairwise fun h h' => h.stop ≤ h'.start
  maximal : code.info.exceptionTable.IsChain fun h h' =>
    ¬ (h.stop = h'.start ∧ h.handler = h'.handler ∧ h.depth = h'.depth ∧ h.pushLasti = h'.pushLasti)
  heads : ∀ h ∈ code.info.exceptionTable, zeroWidth code h.start.toNat = false ∧ zeroWidth code h.stop.toNat = false ∧
    zeroWidth code h.handler.toNat = false
  depths : ∀ h ∈ code.info.exceptionTable, h.depth.toNat < 2 ^ 31

section Layout

variable (code : CodeObject FullInfo E) (mapped : List MappedOp) (ext : List ℕ)

theorem startUnit_lt {i j : ℕ} (hi : zeroWidth code i = false) (hij : i < j) :
    startUnit code mapped ext i < startUnit code mapped ext j := by
  have hnext : startUnit code mapped ext i < startUnit code mapped ext (i + 1) := by
    rw [startUnit_succ, if_neg (by rw [hi]; exact Bool.false_ne_true), unitsAt]
    omega
  exact lt_of_lt_of_le hnext (startUnit_mono code mapped ext hij)

/-- The instruction that starts at a unit, or the end of the code. -/
def instrAt (unit : ℕ) : ℕ :=
  ((wide code code.info.instructions.length).find? fun i => startUnit code mapped ext i = unit).getD
    code.info.instructions.length

theorem instrAt_startUnit {i : ℕ} (hi : i ≤ code.info.instructions.length) (hzero : zeroWidth code i = false) :
    instrAt code mapped ext (startUnit code mapped ext i) = i := by
  have heq {j : ℕ} (hj : zeroWidth code j = false) (hstart : startUnit code mapped ext j = startUnit code mapped ext i) :
      j = i := by
    by_contra hne
    obtain hlt | hlt := Nat.lt_or_gt_of_ne hne
    · have := startUnit_lt code mapped ext hj hlt
      omega
    · have := startUnit_lt code mapped ext hzero hlt
      omega
  unfold instrAt
  cases hfind : (wide code code.info.instructions.length).find? fun j =>
      startUnit code mapped ext j = startUnit code mapped ext i with
  | some j =>
    have hdecide := List.find?_some hfind
    have hstart := of_decide_eq_true hdecide
    exact heq ((mem_wide code).mp (List.mem_of_find?_eq_some hfind)).2 hstart
  | none =>
    have hnone := List.find?_eq_none.mp hfind
    have hnot : ¬ i < code.info.instructions.length := fun hlt =>
      hnone i ((mem_wide code).mpr ⟨hlt, hzero⟩) (decide_eq_true rfl)
    rw [Option.getD_none]
    omega

/-- How many instructions the ones with a width stand for. -/
def widths (l : List ℕ) : List ℕ := l.map fun i => if zeroWidth code (i + 1) then 2 else 1

theorem sum_widths (htail : ∀ i, zeroWidth code i = true → zeroWidth code (i + 1) = false) (n : ℕ) :
    (widths code (wide code n)).sum = n + if zeroWidth code n then 1 else 0 := by
  unfold widths
  induction n with
  | zero => rfl
  | succ n ih =>
    rw [wide_succ, List.map_append, List.sum_append, ih]
    cases hzero : zeroWidth code n with
    | true => simp [htail n hzero]
    | false => cases hnext : zeroWidth code (n + 1) <;> simp [hnext]

/-- The instructions before one that has a width are what the ones with a width before it stand for. -/
theorem sum_take_widths (htail : ∀ i, zeroWidth code i = true → zeroWidth code (i + 1) = false) {n k i : ℕ}
    (hk : (wide code n)[k]? = some i) : (widths code ((wide code n).take k)).sum = i := by
  induction n with
  | zero => cases hk
  | succ n ih =>
    rw [wide_succ] at hk ⊢
    by_cases hlt : k < (wide code n).length
    · rw [List.getElem?_append_left hlt] at hk
      rw [List.take_append_of_le_length hlt.le]
      exact ih hk
    · cases hzero : zeroWidth code n with
      | true =>
        rw [hzero, if_pos rfl, List.append_nil] at hk
        exact absurd (List.getElem?_eq_some_iff.mp hk).1 hlt
      | false =>
        rw [hzero, if_neg Bool.false_ne_true] at hk
        have hlen := (List.getElem?_eq_some_iff.mp hk).1
        rw [List.length_append, List.length_singleton] at hlen
        have hkn : k = (wide code n).length := by omega
        rw [hkn, List.getElem?_concat_length] at hk
        have hsum := sum_widths code htail n
        rw [hzero, if_neg Bool.false_ne_true, Nat.add_zero] at hsum
        rw [← Option.some.inj hk, hkn, List.take_left' rfl]
        exact hsum

variable (args : List UInt32)

/-- The reader finds the instruction that starts at a unit. -/
theorem mapUnit_wide (htail : ∀ i, zeroWidth code i = true → zeroWidth code (i + 1) = false)
    (hwidths : ∀ i < code.info.instructions.length,
      rawExpansion (cpOpAt mapped i) (widenedArg (args[i]?.getD 0) (ext[i]?.getD 0)) =
        if zeroWidth code (i + 1) then 2 else 1) (unit : ℕ) :
    mapUnit ((wide code code.info.instructions.length).map (rawAt code mapped ext args)) unit =
      (instrAt code mapped ext unit).toUInt32 := by
  have hexpand : (((wide code code.info.instructions.length).map (rawAt code mapped ext args)).map fun r =>
      rawExpansion r.cpOp r.arg) = widths code (wide code code.info.instructions.length) := by
    unfold widths
    rw [List.map_map]
    apply List.map_congr_left
    intro i hi
    exact hwidths i ((mem_wide code).mp hi).1
  have hfirst {k : ℕ} (hk : k ≤ (wide code code.info.instructions.length).length) :
      (rawFirstInstr (widths code (wide code code.info.instructions.length)))[k]? =
        some (widths code ((wide code code.info.instructions.length).take k)).sum := by
    unfold rawFirstInstr widths
    rw [List.getElem?_scanl, if_pos (by rw [List.length_map]; exact hk), List.sum_eq_foldl, List.map_take]
  have hraw : rawAtUnit ((wide code code.info.instructions.length).map (rawAt code mapped ext args)) unit =
      ((wide code code.info.instructions.length).findIdx? fun i => startUnit code mapped ext i = unit).getD
        (wide code code.info.instructions.length).length := by
    unfold rawAtUnit
    rw [List.findIdx?_map, List.length_map]
    rfl
  unfold mapUnit instrAt
  dsimp only
  rw [hexpand, hraw]
  apply congrArg
  cases hfind : (wide code code.info.instructions.length).findIdx? fun i => startUnit code mapped ext i = unit with
  | none =>
    have hnone : ((wide code code.info.instructions.length).find? fun i => startUnit code mapped ext i = unit) = none := by
      apply List.find?_eq_none.mpr
      intro i hi
      rw [List.findIdx?_eq_none_iff.mp hfind i hi]
      exact Bool.false_ne_true
    have hsum := sum_widths code htail code.info.instructions.length
    rw [Assembled.zeroWidth_length, if_neg Bool.false_ne_true, Nat.add_zero] at hsum
    rw [hnone, Option.getD_none, Option.getD_none, hfirst (le_refl _), List.take_length, hsum, Option.getD_some]
  | some k =>
    obtain ⟨hk, hmatch, hbefore⟩ := List.findIdx?_eq_some_iff_getElem.mp hfind
    have hsome : ((wide code code.info.instructions.length).find? fun i => startUnit code mapped ext i = unit) =
        some (wide code code.info.instructions.length)[k] := by
      apply List.find?_eq_some_iff_getElem.mpr
      refine ⟨hmatch, k, hk, rfl, fun j hj => ?_⟩
      rw [Bool.not_eq_true']
      exact Bool.eq_false_iff.mpr (hbefore j hj)
    rw [hsome, Option.getD_some, Option.getD_some, hfirst hk.le, Option.getD_some,
      sum_take_widths code htail (List.getElem?_eq_getElem hk)]

end Layout

section Words

variable {depth : UInt32} {pushLasti : Bool}

theorem toNat_dl (h : depth.toNat < 2 ^ 31) :
    ((depth <<< 1) ||| pushLasti.toUInt32).toNat = 2 * depth.toNat + pushLasti.toNat := by
  have hone : (1 : UInt32).toNat % 32 = 1 := rfl
  have hflag : pushLasti.toUInt32.toNat = pushLasti.toNat := by cases pushLasti <;> rfl
  have hlt : pushLasti.toNat < 2 ^ 1 := by cases pushLasti <;> decide
  rw [UInt32.toNat_or, UInt32.toNat_shiftLeft, hone, Nat.shiftLeft_eq, Nat.mod_eq_of_lt (by omega), hflag,
    Nat.mul_comm, Nat.pow_one, ← Nat.two_pow_add_eq_or_of_lt (i := 1) hlt, Nat.pow_one]

theorem dl_depth (h : depth.toNat < 2 ^ 31) : ((depth <<< 1) ||| pushLasti.toUInt32) >>> 1 = depth := by
  have hone : (1 : UInt32).toNat % 32 = 1 := rfl
  have hlt : pushLasti.toNat < 2 := by cases pushLasti <;> decide
  apply UInt32.toNat_inj.mp
  rw [UInt32.toNat_shiftRight, hone, toNat_dl h, Nat.shiftRight_eq_div_pow]
  omega

theorem dl_pushLasti (h : depth.toNat < 2 ^ 31) :
    decide (((depth <<< 1) ||| pushLasti.toUInt32) &&& 1 ≠ 0) = pushLasti := by
  have hand : (((depth <<< 1) ||| pushLasti.toUInt32) &&& 1).toNat = pushLasti.toNat := by
    have hmod := Nat.and_two_pow_sub_one_eq_mod ((depth <<< 1) ||| pushLasti.toUInt32).toNat 1
    have hlt : pushLasti.toNat < 2 := by cases pushLasti <;> decide
    rw [UInt32.toNat_and]
    change ((depth <<< 1) ||| pushLasti.toUInt32).toNat &&& 2 ^ 1 - 1 = _
    rw [hmod, toNat_dl h]
    omega
  cases pushLasti with
  | true =>
    apply decide_eq_true
    intro hzero
    rw [hzero] at hand
    cases hand
  | false =>
    apply decide_eq_false
    exact not_not.mpr (UInt32.toNat_inj.mp hand)

end Words

section Ranges

variable (code : CodeObject FullInfo E) (mapped : List MappedOp)

def countedStarts : List ℕ := (List.range (code.info.instructions.length + 1)).map (countedStart code mapped)

/-- A range in units. -/
def segmentOf (h : ExcHandler) : Segment Owner :=
  ⟨countedStart code mapped h.start.toNat, countedStart code mapped h.stop.toNat - countedStart code mapped h.start.toNat,
    ownerOf (countedStarts code mapped) h⟩

/-- The instructions that start at the units counted for a range, which the table keeps to 32 bits, are its own. -/
def Kept (h : ExcHandler) : Prop :=
  let unit := fun i : UInt32 => countedStart code mapped i.toNat
  let found := fun u => (instrAt code mapped (settled code mapped).1 u).toUInt32
  found (unit h.start % 2 ^ 32) = h.start ∧
    found (unit h.start % 2 ^ 32 + (unit h.stop - unit h.start) % 2 ^ 32) = h.stop ∧
    found (unit h.handler % 2 ^ 32) = h.handler

instance (h : ExcHandler) : Decidable (Kept code mapped h) := inferInstanceAs (Decidable (_ ∧ _ ∧ _))

variable {code mapped}

theorem countedStart_mono : Monotone (countedStart code mapped) :=
  fun _ _ h => startUnit_mono code mapped (countedExt code mapped 16 (seedExt code mapped)) h

theorem countedStarts_getD {i : ℕ} (h : i ≤ code.info.instructions.length) :
    (countedStarts code mapped)[i]?.getD 0 = countedStart code mapped i := by
  unfold countedStarts
  rw [List.getElem?_map, List.getElem?_range (Nat.lt_succ_of_le h)]
  rfl

theorem target_ownerOf {h : ExcHandler} (hn : h.handler.toNat < code.info.instructions.length) :
    (ownerOf (countedStarts code mapped) h).target = (countedStart code mapped h.handler.toNat).toUInt32 :=
  congrArg Nat.toUInt32 (countedStarts_getD hn.le)

theorem Canonical.start_lt (h : Canonical code) {x : ExcHandler} (hx : x ∈ code.info.exceptionTable) :
    x.start.toNat < x.stop.toNat := UInt32.lt_iff_toNat_lt.mp (h.nonempty x hx)

theorem ordered_segments (h : Canonical code) {hs : List ExcHandler} {u : ℕ} (hsub : hs ⊆ code.info.exceptionTable)
    (hpairwise : hs.Pairwise fun h h' => h.stop ≤ h'.start) (hu : ∀ x ∈ hs, u ≤ countedStart code mapped x.start.toNat)
    (htotal : u ≤ countedStart code mapped code.info.instructions.length) :
    Ordered (countedStart code mapped code.info.instructions.length) u (hs.map (segmentOf code mapped)) := by
  induction hs generalizing u with
  | nil => exact htotal
  | cons x hs ih =>
    obtain ⟨hx, hpairwise⟩ := List.pairwise_cons.mp hpairwise
    have hmem := hsub List.mem_cons_self
    have hlt : countedStart code mapped x.start.toNat < countedStart code mapped x.stop.toNat :=
      startUnit_lt code mapped _ (h.heads x hmem).1 (h.start_lt hmem)
    have hend : (segmentOf code mapped x).start + (segmentOf code mapped x).len = countedStart code mapped x.stop.toNat :=
      Nat.add_sub_of_le hlt.le
    refine ⟨hu x List.mem_cons_self, Nat.sub_pos_of_lt hlt, ?_⟩
    rw [hend]
    apply ih (fun y hy => hsub (List.mem_cons_of_mem _ hy)) hpairwise
    · intro y hy
      exact countedStart_mono (UInt32.le_iff_toNat_le.mp (hx y hy))
    · exact countedStart_mono (h.inside x hmem).1

/-- The units belong to the ranges that hold their instructions. -/
theorem owners_eq (h : Canonical code) : owners code (countedStarts code mapped) =
    layout (countedStart code mapped code.info.instructions.length) 0
      (code.info.exceptionTable.map (segmentOf code mapped)) := by
  have hordered : Ordered (countedStart code mapped code.info.instructions.length) 0
      (code.info.exceptionTable.map (segmentOf code mapped)) :=
    ordered_segments h (List.Subset.refl _) h.ordered (fun _ _ => Nat.zero_le _) (Nat.zero_le _)
  have hfold := @foldl_segments _ _ [] _ _ countedStart_mono (fun x : ExcHandler => x.start.toNat)
    (fun x => x.stop.toNat) (ownerOf (countedStarts code mapped)) code.info.exceptionTable
    (fun x hx => (h.start_lt hx).le) hordered
  rw [List.length_nil, Nat.sub_zero, List.nil_append, List.nil_append] at hfold
  unfold owners
  dsimp only
  rw [countedStarts_getD (le_refl _)]
  refine Eq.trans ?_ hfold
  apply List.foldl_ext
  intro places x hx
  have hstop := (h.inside x hx).1
  rw [Nat.min_eq_left hstop]
  apply List.foldl_ext
  intro places i hi
  have hlt := (List.mem_range'_1.mp hi).2
  have := h.start_lt hx
  rw [countedStarts_getD (by omega), countedStarts_getD (by omega)]

end Ranges

section Table

variable {code : CodeObject FullInfo E} {mapped : List MappedOp} {raws : List DecodedRaw}

theorem handler_segmentOf
    (hread : ∀ unit, mapUnit raws unit = (instrAt code mapped (settled code mapped).1 unit).toUInt32) {h : ExcHandler}
    (hdepth : h.depth.toNat < 2 ^ 31) (hn : h.handler.toNat < code.info.instructions.length) :
    (entryOf (segmentOf code mapped h)).handler raws = h ↔ Kept code mapped h := by
  have hcut (n : ℕ) : n.toUInt32.toNat = n % 2 ^ 32 := UInt32.toNat_ofNat'
  have heq : (entryOf (segmentOf code mapped h)).handler raws =
      ⟨(instrAt code mapped (settled code mapped).1 (countedStart code mapped h.start.toNat % 2 ^ 32)).toUInt32,
        (instrAt code mapped (settled code mapped).1 (countedStart code mapped h.start.toNat % 2 ^ 32 +
          (countedStart code mapped h.stop.toNat - countedStart code mapped h.start.toNat) % 2 ^ 32)).toUInt32,
        (instrAt code mapped (settled code mapped).1 (countedStart code mapped h.handler.toNat % 2 ^ 32)).toUInt32,
        h.depth, h.pushLasti⟩ := by
    unfold ExcEntry.handler entryOf segmentOf
    dsimp only
    rw [hread, hread, hread, hcut, hcut, target_ownerOf hn, hcut]
    congr 1
    · exact dl_depth hdepth
    · exact dl_pushLasti hdepth
  rw [heq]
  constructor
  · intro hsame
    exact ⟨congrArg ExcHandler.start hsame, congrArg ExcHandler.stop hsame, congrArg ExcHandler.handler hsame⟩
  · rintro ⟨hstart, hstop, htarget⟩
    dsimp only at hstart hstop htarget
    rw [hstart, hstop, htarget]

theorem countedStart_inj {i j : ℕ} (hi : zeroWidth code i = false) (hj : zeroWidth code j = false)
    (h : countedStart code mapped i = countedStart code mapped j) : i = j := by
  by_contra hne
  obtain hlt | hlt := Nat.lt_or_gt_of_ne hne
  · exact absurd h (startUnit_lt code mapped _ hi hlt).ne
  · exact absurd h (startUnit_lt code mapped _ hj hlt).ne'

/-- Ranges that are all kept stay apart. -/
theorem merged_kept (h : Canonical code) (hkept : ∀ x ∈ code.info.exceptionTable, Kept code mapped x) :
    merged (code.info.exceptionTable.map (segmentOf code mapped)) =
      code.info.exceptionTable.map (segmentOf code mapped) := by
  apply merged_eq_self
  rw [List.isChain_map]
  apply List.IsChain.imp_of_mem_imp ?_ h.maximal
  rintro x y hx hy hapart ⟨hmeet, hkey⟩
  apply hapart
  have hend : countedStart code mapped x.start.toNat + (countedStart code mapped x.stop.toNat -
      countedStart code mapped x.start.toNat) = countedStart code mapped x.stop.toNat :=
    Nat.add_sub_of_le (countedStart_mono (h.start_lt hx).le)
  have hstop : countedStart code mapped x.stop.toNat = countedStart code mapped y.start.toNat := hend.symm.trans hmeet
  have htarget : countedStart code mapped x.handler.toNat % 2 ^ 32 =
      countedStart code mapped y.handler.toNat % 2 ^ 32 := by
    have hunits := congrArg (fun o : Owner => o.target.toNat) hkey
    change (ownerOf (countedStarts code mapped) x).target.toNat = (ownerOf (countedStarts code mapped) y).target.toNat at hunits
    rw [target_ownerOf (h.inside x hx).2, target_ownerOf (h.inside y hy).2] at hunits
    have hcut (n : ℕ) : n.toUInt32.toNat = n % 2 ^ 32 := UInt32.toNat_ofNat'
    rwa [hcut, hcut] at hunits
  refine ⟨?_, ?_, congrArg Owner.depth hkey, congrArg Owner.pushLasti hkey⟩
  · apply UInt32.toNat_inj.mp
    exact countedStart_inj (h.heads x hx).2.1 (h.heads y hy).1 hstop
  · have hx' := (hkept x hx).2.2
    rw [htarget] at hx'
    exact hx'.symm.trans (hkept y hy).2.2

/-- The ranges come back when each is kept, and only then. -/
theorem merged_reads_back (h : Canonical code)
    (hread : ∀ unit, mapUnit raws unit = (instrAt code mapped (settled code mapped).1 unit).toUInt32) :
    (((merged (code.info.exceptionTable.map (segmentOf code mapped))).map fun s => (entryOf s).handler raws).filter
        fun x => x.start < x.stop) = code.info.exceptionTable ↔
      ∀ x ∈ code.info.exceptionTable, Kept code mapped x := by
  have hone {x : ExcHandler} (hx : x ∈ code.info.exceptionTable) :=
    @handler_segmentOf E code mapped raws hread x (h.depths x hx) (h.inside x hx).2
  constructor
  · intro hback
    have hlen := congrArg List.length hback
    have hfilter := List.length_filter_le (fun x : ExcHandler => decide (x.start < x.stop))
      ((merged (code.info.exceptionTable.map (segmentOf code mapped))).map fun s => (entryOf s).handler raws)
    have hmerged := length_merged_le (code.info.exceptionTable.map (segmentOf code mapped))
    rw [List.length_map] at hfilter hmerged
    have hapart : merged (code.info.exceptionTable.map (segmentOf code mapped)) =
        code.info.exceptionTable.map (segmentOf code mapped) := by
      apply merged_eq_of_length
      rw [List.length_map]
      omega
    rw [hapart] at hback hlen
    have hall := List.filter_sublist.eq_of_length (by
      rw [hlen, List.length_map, List.length_map])
    rw [hall, List.map_map] at hback
    intro x hx
    apply (hone hx).mp
    exact List.map_inj_left.mp (hback.trans (List.map_id _).symm) x hx
  · intro hkept
    rw [merged_kept h hkept, List.map_map]
    have hsame : code.info.exceptionTable.map ((fun s => (entryOf s).handler raws) ∘ segmentOf code mapped) =
        code.info.exceptionTable := by
      conv_rhs => rw [← List.map_id code.info.exceptionTable]
      apply List.map_congr_left
      intro x hx
      exact (hone hx).mpr (hkept x hx)
    rw [hsame]
    apply List.filter_eq_self.mpr
    intro x hx
    exact decide_eq_true (h.nonempty x hx)

/-- Widths that settle in time keep every range of a code that is not too long. -/
theorem kept_of_settled (h : Canonical code)
    (hsettled : countedExt code mapped 16 (seedExt code mapped) = (settled code mapped).1)
    (hshort : countedStart code mapped code.info.instructions.length < 2 ^ 32) :
    ∀ x ∈ code.info.exceptionTable, Kept code mapped x := by
  intro x hx
  have hback {i : UInt32} (hi : i.toNat ≤ code.info.instructions.length) (hzero : zeroWidth code i.toNat = false) :
      (instrAt code mapped (settled code mapped).1 (countedStart code mapped i.toNat)).toUInt32 = i := by
    unfold countedStart
    rw [hsettled, instrAt_startUnit code mapped _ hi hzero]
    exact UInt32.ofNat_toNat
  have hsmall {i : ℕ} (hi : i ≤ code.info.instructions.length) : countedStart code mapped i < 2 ^ 32 :=
    lt_of_le_of_lt (countedStart_mono hi) hshort
  obtain ⟨hstop, hhandler⟩ := h.inside x hx
  obtain ⟨hzero, hzero', hzero''⟩ := h.heads x hx
  have hlt := h.start_lt hx
  have hmono : countedStart code mapped x.start.toNat ≤ countedStart code mapped x.stop.toNat := countedStart_mono hlt.le
  have hstart := hsmall (hlt.le.trans hstop)
  have hend := hsmall hstop
  unfold Kept
  dsimp only
  rw [Nat.mod_eq_of_lt hstart, Nat.mod_eq_of_lt (by omega), Nat.add_sub_of_le hmono,
    Nat.mod_eq_of_lt (hsmall hhandler.le)]
  exact ⟨hback (hlt.le.trans hstop) hzero, hback hstop hzero', hback hhandler.le hzero''⟩

end Table

section Main

variable {code : CodeObject FullInfo E}

theorem exceptionBytes_eq (h : Canonical code) {mapped : List MappedOp} (hmapped : mappedOps code = .ok mapped) :
    exceptionBytes code =
      .ok ((merged (code.info.exceptionTable.map (segmentOf code mapped))).flatMap pushExcEntry) := by
  have hordered : Ordered (countedStart code mapped code.info.instructions.length) 0
      (code.info.exceptionTable.map (segmentOf code mapped)) :=
    ordered_segments h (List.Subset.refl _) h.ordered (fun _ _ => Nat.zero_le _) (Nat.zero_le _)
  unfold exceptionBytes
  rw [hmapped]
  change Except.ok (encodeExceptionTable code (countedStarts code mapped)) = _
  rw [encodeExceptionTable, owners_eq h, runs_layout hordered]

theorem read_table (hruntime : ∀ ins ∈ code.info.instructions, isRuntime ins.op = true)
    (hmarks : ∀ i, mark code i &&& Mark.FUSE_HEAD ≠ 0 → mark code (i + 1) &&& Mark.FUSE_HEAD = 0)
    (h : Canonical code) :
    ∃ mapped w table, mappedOps code = .ok mapped ∧ encode code = .ok w ∧ exceptionBytes code = .ok table ∧
      (decodeExceptionTable table (decodeRaws w.coCode) = code.info.exceptionTable ↔
        ∀ x ∈ code.info.exceptionTable, Kept code mapped x) := by
  obtain ⟨mapped, hmapped, hlen, hstands⟩ := mappedOps_ok hruntime
  have hops : ∀ m ∈ mapped, m.cpOp ≠ Op.CACHE ∧ m.cpOp ≠ Op.EXTENDED_ARG := by
    intro m hm
    obtain ⟨i, hi, rfl⟩ := List.mem_iff_getElem.mp hm
    have hone := hstands i _ (List.getElem?_eq_getElem hi)
    exact ⟨hone.notCache, hone.notExtended⟩
  refine ⟨mapped, _, _, hmapped, encode_ok hmapped, exceptionBytes_eq h hmapped, ?_⟩
  rw [decodeExceptionTable, excEntries_pushExcEntry, List.map_map, decodeRaws_emitCode code mapped _ _ hlen hops]
  apply merged_reads_back h
  intro unit
  exact mapUnit_wide code mapped _ _ (Assembled.tail_of_marks hmarks) (fun i hi => expansion_wide hlen hstands hi _) unit

end Main

/-- A body with an exception table. -/
def guarded (code : CodeObject FullInfo E) (table : List ExcHandler) : CodeObject FullInfo E :=
  { code with info := { code.info with exceptionTable := table } }

/-- Two ranges that meet, the second over a fused pair. -/
def guardedLoads : CodeObject FullInfo Empty := guarded loadsBody [⟨0, 1, 3, 0, false⟩, ⟨1, 3, 3, 1, true⟩]

/-- The exception table comes back as it was. -/
def TableRoundTrips (code : CodeObject FullInfo Empty) : Prop :=
  Canonical code → (do
    let w ← encode code
    let table ← exceptionBytes code
    return decodeExceptionTable table (decodeRaws w.coCode)) = .ok code.info.exceptionTable

/-- Sixteen jumps, each to just past the next, of which each round widens the last that is still narrow. -/
def jumpChain : CodeObject FullInfo Empty :=
  guarded (bareCode "f" (List.replicate 16 ⟨.JumpForward, 39⟩ ++ List.replicate 22 ⟨.LoadAttr, 0⟩ ++ [⟨.Call, 0⟩] ++
    List.replicate 17 ⟨.UnpackSequence, 0⟩ ++ [⟨.ReturnValue, 0⟩]) [] []) [⟨16, 17, 17, 0, false⟩]

theorem all_of_ok {α : Type} {x : Outcome α} {a : α} {p : α → Bool} (hall : x.toOption.all p = true) (h : x = .ok a) :
    p a = true := by
  rw [h] at hall
  exact hall

/-- The last round of the sizing loop widens the first jump after the starts were counted. -/
theorem jumpChain_shifted (mapped : List MappedOp) (h : mappedOps jumpChain = .ok mapped) :
    ¬ Kept jumpChain mapped ⟨16, 17, 17, 0, false⟩ := by
  have hcut : (mappedOps jumpChain).toOption.all
      (fun mapped => decide (¬ Kept jumpChain mapped ⟨16, 17, 17, 0, false⟩)) = true := by decide +kernel
  have hone := all_of_ok hcut h
  exact of_decide_eq_true hone

end WeavePy.CpythonCode
