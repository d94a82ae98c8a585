import WeavePy.Csv.Fields

/-!
Reading undoes writing: the rows that `writerow` has written are those the reader yields, however
the text of a row is cut at its line breaks.
-/

namespace WeavePy.Csv

variable {Num : Type} {cfg : Config Num} {p q r : Parser Num}

theorem Glides.split {s t : List Char} (h : Glides cfg p (s ++ t) r) :
    ∃ q, Glides cfg p s q ∧ Glides cfg q t r := by
  induction s generalizing p with
  | nil => exact ⟨p, .nil p, h⟩
  | cons c s ih =>
    cases h with
    | cons hrun hc ht =>
      obtain ⟨q, hs, ht⟩ := ih ht
      exact ⟨q, .cons hrun hc hs, ht⟩

theorem Glides.inside_of_newline {s : List Char} {c : Char} (h : Glides cfg p (s ++ [c]) q)
    (hc : isNewline (some c) = true) : Inside q := by
  obtain ⟨q', -, hlast⟩ := h.split
  cases hlast with
  | cons _ hin hnil =>
    cases hnil
    exact hin hc

/-- A text that is not empty is read from the start of a record as from the start of a field. -/
theorem Glides.of_startField {s : List Char} (hs : s ≠ []) (hp : p.state = .startRecord)
    (h : Glides cfg { p with state := .startField } s r) : Glides cfg p s r := by
  cases h with
  | nil => exact absurd rfl hs
  | @cons _ q _ c cs hrun hc ht =>
    refine .cons ?_ hc ht
    by_cases hn : isNewline (some c) = true
    · rw [Parser.process] at hrun
      dsimp only [Parser.processStartField] at hrun
      rw [if_pos (.inr hn), Parser.endLine] at hrun
      obtain ⟨q', -, hq⟩ := except_bind_eq_ok.mp hrun
      obtain rfl := Except.ok.inj hq
      rcases hc hn with h | h <;> cases h
    · rw [Parser.process, hp]
      dsimp only
      rw [if_neg (by simp), if_neg hn]
      exact hrun

/-- The text of a row up to its line terminator, read from the start of its first field. -/
def Reads (cfg : Config Num) (row : List (List Char)) (record : List Char) : Prop :=
  ∀ p : Parser Num, p.state = .startField → Holds p [] [] →
    ∃ r fs f, Glides cfg p record r ∧ Done cfg r fs f ∧ fs ++ [.str f] = row.map .str

theorem Reads.first {f t : List Char} (h : Text cfg f t) : Reads cfg [f] t := by
  intro p hst hh
  obtain ⟨r, hgl, hr⟩ := h p [] hst hh
  exact ⟨r, [], f, hgl, hr, rfl⟩

theorem Reads.next {row : List (List Char)} {record f t : List Char}
    (hd : cfg.dialect.Accepted) (h : Reads cfg row record) (ht : Text cfg f t) :
    Reads cfg (row ++ [f]) (record ++ [cfg.dialect.delimiter] ++ t) := by
  intro p hst hh
  obtain ⟨r, fs, g, hgl, hr, hrow⟩ := h p hst hh
  obtain ⟨u, hdel⟩ := hr.delimiter hd
  obtain ⟨r', hgl', hr'⟩ := ht ⟨.startField, [], 0, fs ++ [.str g], u⟩ _ rfl ⟨rfl, rfl, rfl⟩
  refine ⟨r', fs ++ [.str g], f, ?_, hr', by simp [hrow]⟩
  have hline : isNewline (some cfg.dialect.delimiter) = true → False := by
    rw [isNewline_iff]
    exact fun h => h.elim hd.delimiter.2 hd.delimiter.1
  exact (hgl.append (.cons hdel (fun h => (hline h).elim) (.nil _))).append hgl'

/-- A field that the reader is to give back. -/
def Readable (cfg : Config Num) (f : List Char) : Prop :=
  (f.length : ℤ) ≤ cfg.limit ∧ (cfg.dialect.skipinitialspace = true → f.head? ≠ some ' ')

theorem bare_of_quotes {d : Dialect} (hd : d.Accepted) {s : List Char}
    (h : d.quotes (.str s) = false) : Bare d := by
  obtain ⟨hlo, hhi⟩ := hd.quoting
  rw [Dialect.quotes] at h
  split_ifs at h with h₁ h₂ h₃ h₄
  simp only [Bare, QUOTE_MINIMAL, QUOTE_ALL, QUOTE_NONNUMERIC, QUOTE_NONE, QUOTE_STRINGS,
    QUOTE_NOTNULL] at *
  omega

theorem quoting_of_quotes {d : Dialect} {s : List Char} (h : d.quotes (.str s) = true) :
    d.quoting ≠ QUOTE_NONE := by
  intro hn
  rw [Dialect.quotes, hn] at h
  exact absurd h (by decide)

/-- The fields joined so far. -/
def Joined (cfg : Config Num) (row : List (List Char)) (record : List Char) : Prop :=
  row = [] ∧ record = [] ∨ Reads cfg row record

theorem joinAppend_joined {row : List (List Char)} {record out f : List Char}
    (hd : cfg.dialect.Accepted) (hf : Readable cfg f) (h : Joined cfg row record)
    (hrun : cfg.dialect.joinAppend record row.length (some f) (cfg.dialect.quotes (.str f)) =
      .ok out) (hpos : row ≠ [] → Reads cfg row record) : Reads cfg (row ++ [f]) out := by
  obtain ⟨t, rfl, ht⟩ := joinAppend_text hd hrun rfl (bare_of_quotes hd) quoting_of_quotes
    hf.2 hf.1
  cases row with
  | nil =>
    have hrec : record = [] := by
      rcases h with ⟨-, h⟩ | h
      · exact h
      · obtain ⟨-, fs, g, -, -, hrow⟩ := h ⟨.startField, [], 0, [], false⟩ rfl ⟨rfl, rfl, rfl⟩
        simp at hrow
    simpa [hrec] using Reads.first ht
  | cons g row => exact (hpos (by simp)).next hd ht

theorem joinFields_joined {fields row : List (List Char)} {record out : List Char} {m : ℕ}
    {null null' : Bool} (hd : cfg.dialect.Accepted) (hf : ∀ f ∈ fields, Readable cfg f)
    (h : Joined cfg row record)
    (hrun : cfg.dialect.joinFields record row.length null (fields.map .str) =
      .ok (out, m, null')) :
    Joined cfg (row ++ fields) out ∧ m = (row ++ fields).length := by
  induction fields generalizing row record null with
  | nil =>
    obtain ⟨rfl, h'⟩ := Prod.mk.inj (Except.ok.inj hrun)
    obtain ⟨rfl, -⟩ := Prod.mk.inj h'
    simpa using h
  | cons f fields ih =>
    rw [List.map_cons, Dialect.joinFields] at hrun
    obtain ⟨record', hjoin, hrun⟩ := except_bind_eq_ok.mp hrun
    have hpos : row ≠ [] → Reads cfg row record := fun hne =>
      h.resolve_left fun h => hne h.1
    have hreads := joinAppend_joined hd (hf f (by simp)) h hjoin hpos
    rw [show row.length + 1 = (row ++ [f]).length by simp] at hrun
    simpa using ih (fun g hg => hf g (by simp [hg])) (.inr hreads) hrun

theorem Reads.eq_empty {row : List (List Char)} (h : Reads cfg row []) : row = [[]] := by
  obtain ⟨r, fs, f, hgl, hr, hrow⟩ := h ⟨.startField, [], 0, [], false⟩ rfl ⟨rfl, rfl, rfl⟩
  cases hgl
  obtain rfl : [] = fs := hr.fields
  obtain rfl : [] = f := hr.field
  cases row with
  | nil => simp at hrow
  | cons g row => simp_all

theorem joinAppend_quoted_ne_nil {d : Dialect} {record out : List Char} {n : ℕ}
    (h : d.joinAppend record n none true = .ok out) : out ≠ [] := by
  rw [Dialect.joinAppend] at h
  obtain ⟨q, hq, h⟩ := except_bind_eq_ok.mp h
  have hq : q = true := by
    split_ifs at hq <;> exact (Except.ok.inj hq).symm
  obtain rfl := hq
  obtain rfl := Except.ok.inj h
  simp

/-- What `writerow` hands on is a record, empty for an empty row only, and the terminator. -/
theorem writerow_reads {row : List (List Char)} {text : List Char} (hd : cfg.dialect.Accepted)
    (hf : ∀ f ∈ row, Readable cfg f) (h : cfg.dialect.writerow (row.map .str) = .ok text) :
    ∃ record, text = record ++ cfg.dialect.lineterminator ∧
      (row = [] ∧ record = [] ∨ record ≠ [] ∧ Reads cfg row record) := by
  rw [Dialect.writerow] at h
  obtain ⟨⟨record, n, null⟩, hjoin, h⟩ := except_bind_eq_ok.mp h
  obtain ⟨record', hsingle, h⟩ := except_bind_eq_ok.mp h
  obtain rfl := Except.ok.inj h
  obtain ⟨hrow, hn⟩ := joinFields_joined hd hf (show Joined cfg [] [] from .inl ⟨rfl, rfl⟩) hjoin
  rw [List.nil_append] at hrow hn
  refine ⟨record', rfl, ?_⟩
  split_ifs at hsingle with hempty hno
  · obtain ⟨hpos, rfl⟩ := hempty
    rcases hrow with ⟨rfl, -⟩ | hreads
    · simp [hn] at hpos
    obtain rfl := hreads.eq_empty
    rw [show n - 1 = 0 by simp [hn]] at hsingle
    obtain ⟨t, hout, ht⟩ := joinAppend_text hd hsingle rfl (by simp)
      (fun _ h => hno (.inl h)) (by simp) (by simpa using (hf [] (by simp)).1)
    obtain rfl : record' = t := by simpa using hout
    exact .inr ⟨joinAppend_quoted_ne_nil hsingle, .first ht⟩
  · obtain rfl := Except.ok.inj hsingle
    rcases hrow with ⟨rfl, rfl⟩ | hreads
    · exact .inl ⟨rfl, rfl⟩
    · refine .inr ⟨fun hnil => hempty ⟨?_, hnil⟩, hreads⟩
      subst hnil
      simp [hn, hreads.eq_empty]

/-- The text may be cut here: `b` goes on after a line break that ends `a`. -/
def LineBreak (a b : List Char) : Prop :=
  b ≠ [] ∧ (a.getLast? = some '\n' ∨ a.getLast? = some '\r' ∧ b.head? ≠ some '\n')

/-- The items into which a text is cut after some of its line breaks. -/
inductive Cut : List Char → List (List Char) → Prop
  | whole (t : List Char) : Cut t [t]
  | cut {a b : List Char} {items : List (List Char)} (hab : LineBreak a b) (h : Cut b items) :
      Cut (a ++ b) (a :: items)

def terminators : List (List Char) := [['\r', '\n'], ['\n'], ['\r']]

/-- The next line break ends a row of these cells. -/
def Ends (cfg : Config Num) (p : Parser Num) (cells : List (Cell Num)) : Prop :=
  ∀ c, isNewline (some c) = true →
    ∃ q, p.process cfg (some c) = .ok q ∧ q.state = .eatCrnl ∧ q.fields = cells

theorem Ends.terminator {cells : List (Cell Num)} (h : Ends cfg p cells) {lt : List Char}
    (hlt : lt ∈ terminators) :
    ∃ q, p.processAll cfg lt = .ok q ∧ q.process cfg none = .ok { q with state := .startRecord } ∧
      q.fields = cells := by
  have heat {q : Parser Num} (hq : q.state = .eatCrnl) :
      q.process cfg none = .ok { q with state := .startRecord } ∧
        q.process cfg (some '\n') = .ok q := by
    simp [Parser.process, hq, isNewline]
  rcases (by simpa [terminators] using hlt : lt = ['\r', '\n'] ∨ lt = ['\n'] ∨ lt = ['\r'])
    with rfl | rfl | rfl
  · obtain ⟨q, hrun, hst, hfs⟩ := h '\r' rfl
    refine ⟨q, ?_, (heat hst).1, hfs⟩
    rw [Parser.processAll, hrun]
    exact show Parser.processAll cfg q ['\n'] = .ok q by rw [Parser.processAll, (heat hst).2]; rfl
  · obtain ⟨q, hrun, hst, hfs⟩ := h '\n' rfl
    exact ⟨q, by rw [Parser.processAll, hrun]; rfl, (heat hst).1, hfs⟩
  · obtain ⟨q, hrun, hst, hfs⟩ := h '\r' rfl
    exact ⟨q, by rw [Parser.processAll, hrun]; rfl, (heat hst).1, hfs⟩

theorem not_linebreak_terminator {lt c b : List Char} (hlt : lt ∈ terminators) (h : lt = c ++ b)
    (hc : c ≠ []) {a : List Char} : ¬ LineBreak (a ++ c) b := by
  rintro ⟨hb, hbreak⟩
  cases c with
  | nil => exact hc rfl
  | cons x c =>
    cases b with
    | nil => exact hb rfl
    | cons y b =>
      subst h
      simp [terminators] at hlt
      obtain ⟨rfl, hlf⟩ := hlt
      cases c with
      | nil =>
        obtain ⟨rfl, -⟩ := by simpa using hlf
        simp at hbreak
      | cons z c => simp at hlf

/-- A row in the items its text is cut into. -/
theorem readItems_cut {lt text : List Char} {items : List (List Char)} {cells : List (Cell Num)}
    (hlt : lt ∈ terminators) (hcut : Cut text items) {record : List Char} (more : List Item)
    (htext : text = record ++ lt) (hgl : Glides cfg p record r) (hr : Ends cfg r cells) :
    readItems cfg p (items.map .str ++ more) = .ok (cells, more) := by
  induction hcut generalizing record p with
  | whole text =>
    obtain ⟨q, hrun, hnone, hfs⟩ := hr.terminator hlt
    have hall : p.processAll cfg text = .ok q := by
      rw [htext, processAll_append, hgl.processAll]
      exact hrun
    rw [List.map_cons, List.map_nil, List.cons_append, List.nil_append, readItems, hall]
    dsimp only [bind, Except.bind]
    rw [hnone]
    simp [hfs, pure, Except.pure]
  | @cut a b items hab _ ih =>
    obtain ⟨rest, hrecord, hb⟩ : ∃ rest, record = a ++ rest ∧ b = rest ++ lt := by
      rcases List.append_eq_append_iff.mp htext with ⟨rest, hrec, hb⟩ | ⟨c, ha, hl⟩
      · exact ⟨rest, hrec, hb⟩
      · cases c with
        | nil => exact ⟨[], by simpa using ha.symm, by simpa using hl.symm⟩
        | cons x c => exact absurd (ha ▸ hab) (not_linebreak_terminator hlt hl (by simp))
    subst hrecord
    obtain ⟨q, hfirst, hrest⟩ := hgl.split
    have hin : Inside q := by
      obtain ⟨-, hlast⟩ := hab
      rcases List.eq_nil_or_concat' a with rfl | ⟨s, c, rfl⟩
      · simp at hlast
      · refine hfirst.inside_of_newline (isNewline_iff.mpr ?_)
        rcases hlast with h | ⟨h, -⟩
        · exact .inl (by simpa using h)
        · exact .inr (by simpa using h)
    have hst : ¬ q.state = .startRecord := by
      rcases hin with h | h <;> simp [h]
    rw [List.map_cons, List.cons_append, readItems, hfirst.processAll]
    dsimp only [bind, Except.bind]
    rw [process_none_inside hin]
    dsimp only
    rw [if_neg hst]
    exact ih hb hrest

theorem Done.ends {fs : List (Cell Num)} {f : List Char} (hd : cfg.dialect.Accepted)
    (h : Done cfg p fs f) : Ends cfg p (fs ++ [.str f]) := by
  intro c hc
  obtain ⟨u, hrun⟩ := h.newline hd hc
  exact ⟨_, hrun, rfl, rfl⟩

theorem ends_new : Ends cfg (.new : Parser Num) [] := by
  intro c hc
  exact ⟨{ Parser.new with state := .eatCrnl }, by simp [Parser.process, Parser.new, hc], rfl, rfl⟩

/-- The reader's row is the one written. -/
theorem readItems_writerow {row : List (List Char)} {text : List Char} {items : List (List Char)}
    (hd : cfg.dialect.Accepted) (hlt : cfg.dialect.lineterminator ∈ terminators)
    (hf : ∀ f ∈ row, Readable cfg f) (hw : cfg.dialect.writerow (row.map .str) = .ok text)
    (hcut : Cut text items) (more : List Item) :
    readItems cfg .new (items.map .str ++ more) = .ok (row.map .str, more) := by
  obtain ⟨record, htext, ⟨rfl, rfl⟩ | ⟨hne, hreads⟩⟩ := writerow_reads hd hf hw
  · exact readItems_cut hlt hcut more htext (.nil _) ends_new
  · obtain ⟨r, fs, f, hgl, hr, hrow⟩ := hreads { Parser.new with state := .startField } rfl
      ⟨rfl, rfl, rfl⟩
    rw [← hrow]
    exact readItems_cut hlt hcut more htext (hgl.of_startField hne rfl) (hr.ends hd)

theorem Cut.ne_nil {text : List Char} {items : List (List Char)} (h : Cut text items) :
    items ≠ [] := by
  cases h <;> simp

theorem readRows_writerows {rows : List (List (List Char))} {texts : List (List Char)}
    {cuts : List (List (List Char))} (hd : cfg.dialect.Accepted)
    (hlt : cfg.dialect.lineterminator ∈ terminators)
    (hf : ∀ row ∈ rows, ∀ f ∈ row, Readable cfg f)
    (hw : rows.mapM (fun row => cfg.dialect.writerow (row.map .str)) = .ok texts)
    (hcuts : List.Forall₂ Cut texts cuts) {fuel : ℕ} (hfuel : cuts.flatten.length < fuel) :
    readRows cfg fuel (cuts.flatten.map .str) = pure (.ok (rows.map (·.map .str))) := by
  induction rows generalizing texts cuts fuel with
  | nil =>
    obtain rfl := Except.ok.inj hw
    cases hcuts
    cases fuel with
    | zero => simp at hfuel
    | succ fuel => rfl
  | cons row rows ih =>
    rw [List.mapM_cons] at hw
    obtain ⟨text, hrow, hw⟩ := except_bind_eq_ok.mp hw
    obtain ⟨texts', hrows, hw⟩ := except_bind_eq_ok.mp hw
    obtain rfl := Except.ok.inj hw
    cases hcuts with
    | @cons _ items _ cuts hcut hcuts =>
      have hitems : 0 < items.length := List.length_pos_of_ne_nil hcut.ne_nil
      rw [List.flatten_cons, List.length_append] at hfuel
      cases fuel with
      | zero => omega
      | succ fuel =>
        have hread := readItems_writerow hd hlt (hf row (by simp)) hrow hcut
          (cuts.flatten.map .str)
        have hrest := ih (fun row' h => hf row' (by simp [h])) hrows hcuts
          (show cuts.flatten.length < fuel by omega)
        rw [List.flatten_cons, List.map_append, readRows, hread]
        dsimp only
        rw [hrest]
        rfl

/-- The reader gives back the rows the writer has written, each fed whole or cut at line breaks. -/
theorem read_undoes_write {params : Params} {d : Dialect} (h : dialectNew params = .ok d)
    (hlt : d.lineterminator ∈ terminators) (limit : ℤ) (float : List Char → Except PyError Num)
    {rows : List (List (List Char))} (hlim : ∀ row ∈ rows, ∀ f ∈ row, (f.length : ℤ) ≤ limit)
    (hskip : d.skipinitialspace = false ∨ ∀ row ∈ rows, ∀ f ∈ row, f.head? ≠ some ' ')
    {texts : List (List Char)}
    (hw : rows.mapM (fun row => d.writerow (row.map .str)) = .ok texts)
    {cuts : List (List (List Char))} (hcuts : List.Forall₂ Cut texts cuts) :
    readAll ⟨d, limit, float⟩ (cuts.flatten.map .str) =
      pure (.ok (rows.map fun row => row.map .str)) := by
  let cfg : Config Num := ⟨d, limit, float⟩
  have hd : cfg.dialect.Accepted := accepted_of_dialectNew h
  refine readRows_writerows hd hlt ?_ hw hcuts (by rw [List.length_map]; exact Nat.lt_succ_self _)
  refine fun row hrow f hf => ⟨hlim row hrow f hf, fun hsp => ?_⟩
  rcases hskip with h | h
  · exact absurd (hsp.symm.trans h) (by decide)
  · exact h row hrow f hf

/-- A dialect that escapes quotes, and ends its rows in line feeds. -/
def escaping : Dialect := ⟨';', some '"', some '/', ['\n'], QUOTE_MINIMAL, false, true, true⟩

theorem read_undoes_write_escaping :
    readAll (⟨escaping, 5, fun _ => .ok 0⟩ : Config ℕ)
        [.str ['"', 'a', '\n'], .str ['b', '"', ';', '/', '"', '\n'], .str ['\n'],
          .str ['"', '"', '\n']] =
      pure (.ok [[.str ['a', '\n', 'b'], .str ['"']], [], [.str []]]) :=
  read_undoes_write
    (show dialectNew ⟨some (.str [';']), some (.bool false), some (.str ['/']), some (.str ['\n']),
      none, none, some (.int 1), some (.bool true)⟩ = .ok escaping from rfl)
    (by decide) 5 (fun _ => .ok 0)
    (show ∀ row ∈ [[['a', '\n', 'b'], ['"']], [], [[]]], ∀ f ∈ row, (f.length : ℤ) ≤ 5 by decide)
    (.inr (by decide))
    (show _ = Except.ok [['"', 'a', '\n'] ++ ['b', '"', ';', '/', '"', '\n'], ['\n'],
      ['"', '"', '\n']] from rfl)
    (.cons (.cut ⟨by decide, by decide⟩ (.whole _))
      (.cons (.whole _) (.cons (.whole _) .nil)))

end WeavePy.Csv
