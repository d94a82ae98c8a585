import WeavePy.QuotedPrintable.RoundTrip

/-!
How long the lines are that `b2a_qp` writes.
-/

namespace WeavePy.QuotedPrintable

section Lines

/-- The lines ended so far, and the one being written. -/
structure Lines where
  ended : List (List UInt8)
  current : List UInt8

def withoutReturn (line : List UInt8) : List UInt8 :=
  if line.getLast? = some '\r'.toUInt8 then line.dropLast else line

def Lines.push (ls : Lines) (b : UInt8) : Lines :=
  if b = '\n'.toUInt8 then ⟨ls.ended ++ [withoutReturn ls.current], []⟩ else ⟨ls.ended, ls.current ++ [b]⟩

def split (out : List UInt8) : Lines := out.foldl Lines.push ⟨[], []⟩

/-- The lines of a text without their terminators, `\n` or `\r\n`. -/
def lines (out : List UInt8) : List (List UInt8) := (split out).ended ++ [(split out).current]

variable {out more : List UInt8} {b : UInt8} {crlf : Bool}

theorem split_append : split (out ++ more) = more.foldl Lines.push (split out) := List.foldl_append

theorem split_visible (h : '\n'.toUInt8 ∉ more) : split (out ++ more) = ⟨(split out).ended, (split out).current ++ more⟩ := by
  rw [split_append]
  generalize split out = ls
  induction more generalizing ls with
  | nil => simp
  | cons b more ih =>
    obtain ⟨hb, hmore⟩ := List.ne_and_not_mem_of_not_mem_cons h
    rw [List.foldl_cons, ih hmore, Lines.push, if_neg hb.symm]
    simp

theorem withoutReturn_append (line : List UInt8) : withoutReturn (line ++ ['\r'.toUInt8]) = line := by
  simp [withoutReturn]

theorem withoutReturn_length (line : List UInt8) : (withoutReturn line).length ≤ line.length := by
  unfold withoutReturn
  split_ifs
  · simp
  · exact Nat.le_refl _

/-- A line end closes the current line; a `\r` written before it is not counted. -/
theorem split_lineEnd : ∃ line, split (out ++ lineEnd crlf) = ⟨(split out).ended ++ [line], []⟩ ∧
    line.length ≤ (split out).current.length ∧
    ((split out).current.getLast? ≠ some '\r'.toUInt8 → line = (split out).current) := by
  cases crlf with
  | false =>
    refine ⟨withoutReturn (split out).current, ?_, withoutReturn_length _, fun h => if_neg h⟩
    rw [split_append]
    rfl
  | true =>
    refine ⟨(split out).current, ?_, Nat.le_refl _, fun _ => rfl⟩
    rw [split_append]
    change Lines.push (Lines.push (split out) '\r'.toUInt8) '\n'.toUInt8 = _
    rw [Lines.push, Lines.push, if_pos rfl, if_neg (by decide), withoutReturn_append]

theorem split_last (h : out.getLast? = some b) (hb : b ≠ '\n'.toUInt8) :
    ∃ front, out = front ++ [b] ∧ split out = ⟨(split front).ended, (split front).current ++ [b]⟩ := by
  obtain ⟨front, rfl⟩ := List.getLast?_eq_some_iff.1 h
  refine ⟨front, rfl, split_visible ?_⟩
  simpa using hb.symm

end Lines

section Columns

variable {s : Settings} {crlf : Bool} {st : EncodeState} {c : UInt8} {after : List UInt8}

/-- `linelen` is the length of the line being written; a full line is left only before a line end. -/
structure Tracked (st : EncodeState) : Prop where
  column : (split st.out).current.length = st.linelen
  within : st.linelen ≤ maxLineSize
  full : st.linelen = maxLineSize → st.rest.head?.all (· = '\n'.toUInt8)

/-- The branch taken next is one that writes behind the last column: a quoted byte when the line is
full, or a line end that quotes a blank on the last two columns. -/
def Overflows (s : Settings) (st : EncodeState) : Bool :=
  match st.rest with
  | [] => false
  | c :: after =>
    if needsQuote s st.linelen c after then st.linelen == maxLineSize
    else s.istext && isLineEnd c after && decide (maxLineSize ≤ st.linelen + 1)
      && st.out.getLast?.any fun b => b == ' '.toUInt8 || b == '\t'.toUInt8

/-- The lines `st'` ends beyond those of `st` are short exactly when `short` says so. -/
def Ends (st st' : EncodeState) (short : Prop) : Prop :=
  ∃ new, (split st'.out).ended = (split st.out).ended ++ new ∧ ((∀ line ∈ new, line.length ≤ maxLineSize) ↔ short)

theorem quotedByte_visible (b : UInt8) : '\n'.toUInt8 ∉ quotedByte b := by
  obtain ⟨d, e, hhex, hd, he, -⟩ := hex_read_back b
  rw [quotedByte, hhex]
  simp +decide [(hex_digit_sound hd).1.symm, (hex_digit_sound he).1.symm]

theorem quotedByte_length (b : UInt8) : (quotedByte b).length = 3 := rfl

theorem quotedByte_last (line : List UInt8) (b : UInt8) : (line ++ quotedByte b).getLast? ≠ some '\r'.toUInt8 := by
  obtain ⟨d, e, hhex, -, he, -⟩ := hex_read_back b
  rw [quotedByte, hhex]
  simp [(hex_digit_sound he).2.1]

theorem Tracked.of_short (hcolumn : (split st.out).current.length = st.linelen) (hshort : st.linelen < 76) : Tracked st where
  column := hcolumn
  within := Nat.le_of_lt hshort
  full := fun hfull => absurd hfull (Nat.ne_of_lt hshort)

theorem Ends.of_true {st' : EncodeState} {short : Prop} (h : Ends st st' True) (hshort : short) : Ends st st' short := by
  rwa [eq_true hshort]

theorem Ends.to_true {st' : EncodeState} {short : Prop} (h : Ends st st' short) (hshort : short) : Ends st st' True := by
  rwa [eq_true hshort] at h

theorem Ends.refl : Ends st st True := ⟨[], by simp, by simp⟩

/-- Bytes of the current line end no line. -/
theorem Ends.visible {st' : EncodeState} {short : Prop} {piece : List UInt8} (h : Ends st st' short)
    (hcolumn : (split st'.out).current.length = st'.linelen) (hpiece : '\n'.toUInt8 ∉ piece) (n : ℕ) (rest : List UInt8) :
    Ends st ⟨st'.out ++ piece, n, rest⟩ short ∧ (split (st'.out ++ piece)).current.length = st'.linelen + piece.length := by
  have hout := @split_visible st'.out piece hpiece
  constructor
  · obtain ⟨new, hended, hnew⟩ := h
    refine ⟨new, ?_, hnew⟩
    rw [hout, hended]
  · rw [hout, List.length_append, hcolumn]

theorem Tracked.softBreak (h : Tracked st) : Ends st (softBreak crlf st) (st.linelen ≠ maxLineSize) ∧
    (split (softBreak crlf st).out).current.length = (QuotedPrintable.softBreak crlf st).linelen := by
  have hequals : split (st.out ++ ['='.toUInt8]) = ⟨(split st.out).ended, (split st.out).current ++ ['='.toUInt8]⟩ :=
    split_visible (by decide)
  obtain ⟨line, hsplit, -, hline⟩ := @split_lineEnd (st.out ++ ['='.toUInt8]) crlf
  rw [hequals] at hsplit hline
  have hlength : line.length = st.linelen + 1 := by
    rw [hline (by simp +decide), List.length_append, h.column]
    rfl
  have hout : split (QuotedPrintable.softBreak crlf st).out = ⟨(split st.out).ended ++ [line], []⟩ := by
    rw [← hsplit]
    simp [QuotedPrintable.softBreak]
  refine ⟨⟨[line], ?_, ?_⟩, ?_⟩
  · rw [hout]
  · have hwithin := h.within
    simp only [List.mem_singleton, forall_eq, hlength, maxLineSize] at hwithin ⊢
    omega
  · rw [hout]
    rfl

theorem Tracked.emitQuoted (h : Tracked st) : Tracked (emitQuoted crlf st c after) ∧
    Ends st (emitQuoted crlf st c after) (st.linelen ≠ maxLineSize) := by
  unfold QuotedPrintable.emitQuoted
  dsimp only
  split_ifs with hbreak
  · obtain ⟨hends, hcolumn⟩ := @Tracked.softBreak crlf st h
    obtain ⟨hends, hcolumn⟩ := hends.visible hcolumn (quotedByte_visible c) 3 after
    exact ⟨Tracked.of_short hcolumn (by change 3 < 76; decide), hends⟩
  · unfold maxLineSize at hbreak
    obtain ⟨hends, hcolumn⟩ := Ends.refl.visible h.column (quotedByte_visible c) (st.linelen + 3) after
    have hroom : st.linelen ≠ maxLineSize := by
      unfold maxLineSize
      omega
    refine ⟨Tracked.of_short hcolumn ?_, hends.of_true hroom⟩
    dsimp only
    omega

theorem Tracked.emitPlain (h : Tracked st) (hrest : st.rest = c :: after)
    (hquote : needsQuote s st.linelen c after = false) (hend : (s.istext && isLineEnd c after) = false) :
    Tracked (emitPlain s crlf st c after) ∧ Ends st (emitPlain s crlf st c after) True := by
  have hvisible : c ≠ '\n'.toUInt8 := by
    rintro rfl
    cases htext : s.istext with
    | false => simp [needsQuote, htext] at hquote
    | true => simp [isLineEnd, htext] at hend
  have hroom : st.linelen ≠ maxLineSize := by
    intro hfull
    have := h.full hfull
    rw [hrest] at this
    exact hvisible (by simpa using this)
  have hbyte : '\n'.toUInt8 ∉ [if s.header && c == ' '.toUInt8 then '_'.toUInt8 else c] := by
    rw [List.mem_singleton]
    split_ifs
    · decide
    · exact hvisible.symm
  unfold QuotedPrintable.emitPlain
  generalize (if s.header && c == ' '.toUInt8 then '_'.toUInt8 else c) = written at hbyte ⊢
  dsimp only
  by_cases hbreak : after.head?.any (· ≠ '\n'.toUInt8) ∧ st.linelen + 1 ≥ maxLineSize
  · rw [if_pos hbreak]
    obtain ⟨hends, hcolumn⟩ := @Tracked.softBreak crlf st h
    obtain ⟨hends, hcolumn⟩ := hends.visible hcolumn hbyte 1 after
    exact ⟨Tracked.of_short hcolumn (by change 1 < 76; decide), hends.to_true hroom⟩
  · rw [if_neg hbreak]
    obtain ⟨hends, hcolumn⟩ := Ends.refl.visible h.column hbyte (st.linelen + 1) after
    refine ⟨⟨hcolumn, ?_, ?_⟩, hends⟩
    · exact Nat.succ_le_of_lt (Nat.lt_of_le_of_ne h.within hroom)
    · intro hfull
      have hnext : ¬ after.head?.any (· ≠ '\n'.toUInt8) = true := fun hany => hbreak ⟨hany, Nat.le_of_eq hfull.symm⟩
      cases after with
      | nil => rfl
      | cons d more => simpa using hnext

theorem Tracked.emitLineEnd (h : Tracked st) : Tracked (emitLineEnd crlf st c after) ∧
    Ends st (emitLineEnd crlf st c after)
      (¬ (maxLineSize ≤ st.linelen + 1 ∧ st.out.getLast?.any fun b => b == ' '.toUInt8 || b == '\t'.toUInt8)) := by
  have hwithin := h.within
  have hquoted : ∃ current, split (quoteTrailing st.out) = ⟨(split st.out).ended, current⟩ ∧
      ((current.length ≤ maxLineSize ∧ ¬ st.out.getLast?.any fun b => b == ' '.toUInt8 || b == '\t'.toUInt8) ∨
        (current.length = st.linelen + 2 ∧ current.getLast? ≠ some '\r'.toUInt8 ∧
          st.out.getLast?.any fun b => b == ' '.toUInt8 || b == '\t'.toUInt8)) := by
    unfold quoteTrailing
    cases hlast : st.out.getLast? with
    | none => exact ⟨_, rfl, .inl ⟨h.column ▸ hwithin, by simp⟩⟩
    | some b =>
      dsimp only
      split_ifs with hblank
      · have hb : b ≠ '\n'.toUInt8 := by
          rcases hblank with rfl | rfl <;> decide
        obtain ⟨front, hout, hsplit⟩ := split_last hlast hb
        have hcolumn := h.column
        rw [hsplit, List.length_append] at hcolumn
        rw [hsplit, hout, List.dropLast_concat, split_visible (quotedByte_visible b)]
        refine ⟨_, rfl, .inr ⟨?_, quotedByte_last _ b, by simpa using hblank⟩⟩
        rw [List.length_append, quotedByte_length, ← hcolumn]
        rfl
      · exact ⟨_, rfl, .inl ⟨h.column ▸ hwithin, by simpa using hblank⟩⟩
  obtain ⟨current, hsplit, hcurrent⟩ := hquoted
  obtain ⟨line, hended, hshort, hline⟩ := @split_lineEnd (quoteTrailing st.out) crlf
  rw [hsplit] at hended hshort hline
  unfold QuotedPrintable.emitLineEnd
  refine ⟨Tracked.of_short ?_ (by change 0 < 76; decide), [line], ?_, ?_⟩
  · rw [hended]
    rfl
  · rw [hended]
  · simp only [List.mem_singleton, forall_eq]
    rcases hcurrent with ⟨hfits, hplain⟩ | ⟨hlength, hreturn, hblank⟩
    · exact iff_of_true (Nat.le_trans hshort hfits) fun hover => hplain hover.2
    · rw [hline hreturn, hlength]
      simp only [hblank, and_true, maxLineSize]
      omega

theorem Tracked.step (h : Tracked st) : Tracked (b2aQpStep s crlf st) ∧
    Ends st (b2aQpStep s crlf st) (Overflows s st = false) := by
  unfold b2aQpStep Overflows
  cases hrest : st.rest with
  | nil => exact ⟨h, [], by simp, by simp⟩
  | cons c after =>
    dsimp only
    split_ifs with hquote hend
    · have := @Tracked.emitQuoted crlf st c after h
      simpa using this
    · have := @Tracked.emitLineEnd crlf st c after h
      simpa [hend] using this
    · have := @Tracked.emitPlain s crlf st c after h hrest (Bool.eq_false_iff.2 hquote) (Bool.eq_false_iff.2 hend)
      simpa [Bool.eq_false_iff.2 hend] using this

variable {data : List UInt8}

theorem tracked_iterate (n : ℕ) : Tracked ((b2aQpStep s crlf)^[n] (b2aQpStart data)) := by
  induction n with
  | zero => exact Tracked.of_short rfl (by change 0 < 76; decide)
  | succ n ih =>
    rw [Function.iterate_succ_apply']
    exact ih.step.1

theorem ended_short_iff (n : ℕ) :
    (∀ line ∈ (split ((b2aQpStep s crlf)^[n] (b2aQpStart data)).out).ended, line.length ≤ maxLineSize) ↔
      ∀ k < n, Overflows s ((b2aQpStep s crlf)^[k] (b2aQpStart data)) = false := by
  induction n with
  | zero => simp [b2aQpStart, split]
  | succ n ih =>
    obtain ⟨new, hended, hnew⟩ := (@tracked_iterate s crlf data n).step.2
    rw [Function.iterate_succ_apply', hended, Nat.forall_lt_succ_right, ← ih, ← hnew]
    exact List.forall_mem_append

theorem overflows_used {n : ℕ} (h : data.length ≤ n) :
    Overflows s ((b2aQpStep s crlf)^[n] (b2aQpStart data)) = false := by
  have hrest : ((b2aQpStep s crlf)^[n] (b2aQpStart data)).rest = [] := by
    apply List.eq_nil_of_length_eq_zero
    have := @iterate_rest s crlf n (b2aQpStart data)
    dsimp only [b2aQpStart] at this ⊢
    omega
  rw [Overflows, hrest]

end Columns

end WeavePy.QuotedPrintable
