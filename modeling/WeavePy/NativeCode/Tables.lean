import WeavePy.NativeCode.Reader

/-!
The line, column and wire-mark tables read back.
-/

namespace WeavePy.NativeCode

open ByteReader

section Blocks

variable {α : Type} {x : ByteReader α} {block bytes : List UInt8} {a : α} {n : ℕ}

theorem whole_eq (h : Reads block block x (· = a)) : Reader.whole x block = some a := by
  obtain ⟨b, hrun, rfl⟩ := h 0 (slice_self block)
  unfold Reader.whole
  rw [hrun, Nat.zero_add]
  exact if_pos rfl

theorem reads_uint (hn : n < 2 ^ 64) : Reads bytes (Writer.uint n) Reader.uint (· = n) := Varint.reads_encode hn

theorem reads_int {v : ℤ} (hlo : -2 ^ 63 ≤ v) (hhi : v < 2 ^ 63) : Reads bytes (Writer.int v) Reader.int (· = v) :=
  Varint.reads_encodeInt hlo hhi

theorem reads_tableLen (hn : n ≤ MAX_TABLE_LEN) : Reads bytes (Writer.uint n) Reader.tableLen (· = n) := by
  have hmax : MAX_TABLE_LEN = 2 ^ 24 := rfl
  refine (reads_uint (by omega)).bind_last fun b hb => ?_
  subst hb
  rw [if_pos hn]
  exact Reads.pure rfl

theorem checkedAdd_eq {a b c : ℤ} (h : a + b = c) (hlo : -2 ^ 63 ≤ c) (hhi : c < 2 ^ 63) :
    Reader.checkedAdd a b = some c := by
  rw [Reader.checkedAdd, h, if_pos ⟨hlo, hhi⟩]

end Blocks

section Runs

variable {α : Type} [BEq α] [LawfulBEq α] {l : List α}

theorem chain_eq_replicate {a : α} (h : (a :: l).IsChain fun x y => (x == y) = true) :
    a :: l = List.replicate (l.length + 1) a := by
  induction l generalizing a with
  | nil => rfl
  | cons b l ih =>
    obtain ⟨hab, hrest⟩ := List.isChain_cons_cons.mp h
    obtain rfl := beq_iff_eq.mp hab
    rw [List.replicate_succ, List.length_cons, ← ih hrest]

/-- A run is a value and how often it comes. -/
theorem exists_replicate_of_mem {run : List α} (h : run ∈ l.splitBy (· == ·)) :
    ∃ a n, run = List.replicate (n + 1) a := by
  cases run with
  | nil => exact absurd h (List.nil_notMem_splitBy _ _)
  | cons a run => exact ⟨a, run.length, chain_eq_replicate (List.isChain_of_mem_splitBy h)⟩

end Runs

section Lines

variable {bytes : List UInt8} {runs : List (List UInt32)} {fuel left : ℕ} {prev : ℤ}

theorem reads_lineRunsFrom (hruns : ∀ run ∈ runs, ∃ a n, run = List.replicate (n + 1) a)
    (hleft : left = runs.flatten.length) (hfuel : left ≤ fuel) (hmax : left ≤ MAX_TABLE_LEN)
    (hprev : 0 ≤ prev) (hprev' : prev < 2 ^ 32) :
    Reads bytes (Writer.lineRunsFrom prev runs) (Reader.lineRuns fuel left prev) (· = runs.flatten) := by
  have hbound : MAX_TABLE_LEN = 2 ^ 24 := rfl
  induction runs generalizing fuel left prev with
  | nil =>
    subst hleft
    cases fuel with
    | zero => exact Reads.pure rfl
    | succ fuel => exact Reads.pure rfl
  | cons run runs ih =>
    obtain ⟨a, n, rfl⟩ := hruns run (by simp)
    have ha := a.toNat_lt
    have hlen : (List.replicate (n + 1) a :: runs).flatten.length = n + 1 + runs.flatten.length := by simp
    obtain ⟨fuel, rfl⟩ := Nat.exists_eq_succ_of_ne_zero (by omega : fuel ≠ 0)
    have hrest : Reads bytes (Writer.lineRunsFrom a.toNat runs) (Reader.lineRuns fuel (left - (n + 1)) a.toNat)
        (· = runs.flatten) :=
      ih (fun r hr => hruns r (by simp [hr])) (by omega) (by omega) (by omega) (by omega) (by omega)
    rw [Writer.lineRunsFrom, Reader.lineRuns, if_neg (by omega), List.append_assoc]
    have hhead : (List.replicate (n + 1) a).headD 0 = a := rfl
    rw [hhead, List.length_replicate]
    refine (reads_int (by omega) (by omega)).bind fun delta hdelta => ?_
    subst hdelta
    refine Reads.lift_bind (checkedAdd_eq (c := a.toNat) (by omega) (by omega) (by omega)) ?_
    refine (reads_uint (by omega)).bind fun m hm => ?_
    subst hm
    rw [if_neg (by omega)]
    refine hrest.bind_pure fun lines hlines => ?_
    subst hlines
    simp

theorem decode_lineRuns (lines : List UInt32) (hlen : lines.length ≤ MAX_TABLE_LEN) :
    Reader.decodeLinetable (Writer.lineRuns lines) = some lines := by
  apply whole_eq
  refine (reads_tableLen hlen).bind fun n hn => ?_
  subst hn
  have hflat : (lines.splitBy (· == ·)).flatten = lines := List.flatten_splitBy _ _
  have hread : Reads (Writer.lineRuns lines) (Writer.lineRunsFrom 0 (lines.splitBy (· == ·)))
      (Reader.lineRuns lines.length lines.length 0) (· = (lines.splitBy (· == ·)).flatten) :=
    reads_lineRunsFrom (fun _ => exists_replicate_of_mem) (by rw [hflat]) le_rfl hlen (by decide) (by decide)
  exact hread.mono fun a ha => ha.trans hflat

end Lines

section Columns

variable {bytes w : List UInt8} {runs : List (List ColSpan)} {fuel left : ℕ} {endLineno : ℤ}

theorem tag_plain (n : ℕ) : n <<< 1 &&& 1 = 0 ∧ n <<< 1 >>> 1 = n := by
  rw [Nat.and_one_is_mod, Nat.shiftRight_eq_div_pow, Nat.shiftLeft_eq]
  omega

theorem tag_marked (n : ℕ) : (n <<< 1 ||| 1) = 2 * n + 1 ∧ (n <<< 1 ||| 1) &&& 1 ≠ 0 ∧ (n <<< 1 ||| 1) >>> 1 = n := by
  have hor : n <<< 1 ||| 1 = 2 * n + 1 := by
    rw [← Nat.shiftLeft_add_eq_or_of_lt (by decide), Nat.shiftLeft_eq]
    omega
  rw [hor, Nat.and_one_is_mod, Nat.shiftRight_eq_div_pow]
  omega

theorem reads_colRunsFrom (hw : Writer.colRunsFrom endLineno runs = some w)
    (hruns : ∀ run ∈ runs, ∃ a n, run = List.replicate (n + 1) a)
    (hleft : left = runs.flatten.length) (hfuel : left ≤ fuel) (hmax : left ≤ MAX_TABLE_LEN)
    (hend : 0 ≤ endLineno) (hend' : endLineno < 2 ^ 32) :
    Reads bytes w (Reader.colRuns fuel left endLineno) (· = runs.flatten) := by
  have hbound : MAX_TABLE_LEN = 2 ^ 24 := rfl
  induction runs generalizing fuel left endLineno w with
  | nil =>
    cases hw
    subst hleft
    cases fuel with
    | zero => exact Reads.pure rfl
    | succ fuel => exact Reads.pure rfl
  | cons run runs ih =>
    obtain ⟨s, n, rfl⟩ := hruns run (by simp)
    have hlen : (List.replicate (n + 1) s :: runs).flatten.length = n + 1 + runs.flatten.length := by simp
    obtain ⟨fuel, rfl⟩ := Nat.exists_eq_succ_of_ne_zero (by omega : fuel ≠ 0)
    have hrepeat : (List.replicate (n + 1) s).length - 1 = n := by simp
    have hhead : (List.replicate (n + 1) s).headD .default = s := rfl
    rw [Writer.colRunsFrom] at hw
    rw [Reader.colRuns, if_neg (by omega)]
    simp only [hrepeat, hhead] at hw
    split_ifs at hw with hdefault hcol
    · obtain ⟨w', hw', rfl⟩ := Option.map_eq_some_iff.mp hw
      have hrest : Reads bytes w' (Reader.colRuns fuel (left - (n + 1)) endLineno) (· = runs.flatten) :=
        ih hw' (fun r hr => hruns r (by simp [hr])) (by omega) (by omega) (by omega) hend hend'
      obtain ⟨hflag, hshift⟩ := tag_plain n
      refine (reads_uint (by rw [Nat.shiftLeft_eq]; omega)).bind fun tag htag => ?_
      subst htag
      rw [hshift, if_pos hflag, if_neg (by omega)]
      refine hrest.bind_pure fun spans hspans => ?_
      subst hspans
      simp [hdefault]
    · obtain ⟨w', hw', rfl⟩ := Option.map_eq_some_iff.mp hw
      have hline := s.endLineno.toNat_lt
      have hrest : Reads bytes w' (Reader.colRuns fuel (left - (n + 1)) s.endLineno.toNat) (· = runs.flatten) :=
        ih hw' (fun r hr => hruns r (by simp [hr])) (by omega) (by omega) (by omega) (by omega) (by omega)
      obtain ⟨hor, hflag, hshift⟩ := tag_marked n
      have hcollo := s.col.le_toInt
      have hcolhi := s.col.toInt_lt
      have hendlo := s.endCol.le_toInt
      have hendhi := s.endCol.toInt_lt
      simp only [List.append_assoc]
      refine (reads_uint (by omega)).bind fun tag htag => ?_
      subst htag
      rw [hshift, if_neg hflag]
      refine (reads_int (by omega) (by omega)).bind fun delta hdelta => ?_
      subst hdelta
      refine Reads.lift_bind (checkedAdd_eq (c := s.endLineno.toNat) (by omega) (by omega) (by omega)) ?_
      refine (reads_uint (by omega)).bind fun col hcol' => ?_
      subst hcol'
      refine Reads.lift_bind (if_pos (by omega)) ?_
      refine (reads_int (by omega) (by omega)).bind fun width hwidth => ?_
      subst hwidth
      have hcolback : ((s.col.toInt + 1).toNat : ℤ) - 1 = s.col.toInt := by omega
      rw [hcolback]
      refine Reads.lift_bind (checkedAdd_eq (c := s.endCol.toInt) (by omega) (by omega) (by omega)) ?_
      rw [if_neg (by omega)]
      refine hrest.bind_pure fun spans hspans => ?_
      subst hspans
      simp

theorem decode_colRuns {spans : List ColSpan} (hlen : spans.length ≤ MAX_TABLE_LEN)
    (hw : Writer.colRuns spans = some w) : Reader.decodeColtable w = some spans := by
  obtain ⟨w', hw', rfl⟩ := Option.map_eq_some_iff.mp hw
  apply whole_eq
  refine (reads_tableLen hlen).bind fun n hn => ?_
  subst hn
  have hflat : (spans.splitBy (· == ·)).flatten = spans := List.flatten_splitBy _ _
  have hread : Reads (Writer.uint spans.length ++ w') w' (Reader.colRuns spans.length spans.length 0)
      (· = (spans.splitBy (· == ·)).flatten) :=
    reads_colRunsFrom hw' (fun _ => exists_replicate_of_mem) (by rw [hflat]) le_rfl hlen (by decide) (by decide)
  exact hread.mono fun a ha => ha.trans hflat

end Columns

section Marks

variable {marks w : List UInt8}

theorem nibbles {lo hi : UInt8} (hlo : ¬ lo > 0x0f) (hhi : ¬ hi > 0x0f) :
    (lo ||| hi <<< 4) &&& 0x0f = lo ∧ (lo ||| hi <<< 4) >>> 4 = hi := by
  have h : ∀ a b : Fin 16, (UInt8.ofNat a ||| UInt8.ofNat b <<< 4) &&& 0x0f = UInt8.ofNat a ∧
      (UInt8.ofNat a ||| UInt8.ofNat b <<< 4) >>> 4 = UInt8.ofNat b := by decide
  have hl : lo.toNat < 16 := Nat.lt_succ_of_le (UInt8.le_iff_toNat_le.mp (UInt8.not_lt.mp hlo))
  have hr : hi.toNat < 16 := Nat.lt_succ_of_le (UInt8.le_iff_toNat_le.mp (UInt8.not_lt.mp hhi))
  simpa using h ⟨lo.toNat, hl⟩ ⟨hi.toNat, hr⟩

theorem unpack_markPairs (hw : Writer.markPairs marks = some w) :
    w.length = (marks.length + 1) / 2 ∧
      (w.flatMap fun (b : UInt8) => [b &&& 0x0f, b >>> 4]).take marks.length = marks := by
  induction marks using Writer.markPairs.induct generalizing w with
  | case1 =>
    cases hw
    exact ⟨rfl, rfl⟩
  | case2 lo hlo =>
    rw [Writer.markPairs, if_pos hlo] at hw
    cases hw
  | case3 lo hlo =>
    rw [Writer.markPairs, if_neg hlo] at hw
    cases hw
    have := (@nibbles lo 0 hlo (by decide)).1
    simp_all
  | case4 lo hi marks hbig =>
    rw [Writer.markPairs, if_pos hbig] at hw
    cases hw
  | case5 lo hi marks hsmall ih =>
    rw [Writer.markPairs, if_neg hsmall] at hw
    obtain ⟨w', hw', rfl⟩ := Option.map_eq_some_iff.mp hw
    obtain ⟨hlen, htake⟩ := ih hw'
    rw [not_or] at hsmall
    obtain ⟨hl, hr⟩ := nibbles hsmall.1 hsmall.2
    constructor
    · simp only [List.length_cons]
      omega
    · simp [hl, hr, htake]

theorem decode_wireMarks (hlen : marks.length ≤ MAX_TABLE_LEN) (hw : Writer.wireMarks marks = some w) :
    Reader.decodeWireMarks w = some marks := by
  obtain ⟨w', hw', rfl⟩ := Option.map_eq_some_iff.mp hw
  obtain ⟨hpacked, htake⟩ := unpack_markPairs hw'
  apply whole_eq
  refine (reads_tableLen hlen).bind fun n hn => ?_
  subst hn
  rw [← hpacked]
  refine (reads_raw w').bind_pure fun packed hp => ?_
  subst hp
  exact htake

end Marks

end WeavePy.NativeCode
