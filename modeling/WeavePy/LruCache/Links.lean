import WeavePy.LruCache.State
import WeavePy.Lib.Linked

/-!
The recency links: on a buffer whose words may be anything no operation leaves the buffer, and one that finds them
inconsistent changes nothing; on links that thread the entry positions each does what it should to the order.
-/

namespace WeavePy.LruCache

open Prog

variable {α : Type} {b b' : Words} {len index : ℕ}

/-- The buffer has the size for the links of `len` entries. -/
def Sized (len : ℕ) (b : Words) : Prop := b.rest.val = 0 ∧ b.words.length = HEADER + 2 * len

theorem Sized.length (h : Sized len b) : b.words.length = 2 * len + 6 := by
  rw [h.2]
  exact Nat.add_comm ..

/-- The entry that a link names. -/
def target (link : ℕ) : Option ℕ := if link = NONE then none else some link

section Rules

variable {Q : α → Words → Prop} {R : Unit → Words → Prop}

theorem wp_some_ {o : Option α} (h : ∀ a, o = some a → Q a b) (hnone : R () b) : wp (some_ o) Q R b := by
  cases o with
  | none => exact hnone
  | some a => exact h a rfl

theorem wp_get {Q : ℕ → Words → Prop} (hi : index < b.words.length) (h : Q b.words[index] b) :
    wp (Links.get index) Q R b := by
  refine wp_bind (wp_gets ?_)
  simpa only [id, List.getElem?_eq_getElem hi] using wp_pure h

theorem wp_set {Q : Unit → Words → Prop} {value : ℕ} (hi : index < b.words.length)
    (h : Q () { b with words := b.words.set index value }) : wp (Links.set index value) Q R b := by
  refine wp_bind (wp_gets ?_)
  simpa only [id, hi, ↓reduceIte] using wp_modify h

theorem wp_new {Q : Links → Words → Prop} (h : Sized len b → Q ⟨len⟩ b) (hnone : R () b) :
    wp (Links.new len) Q R b := by
  refine wp_bind (wp_some_ (fun links hlinks => ?_) hnone)
  refine wp_bind (wp_some_ (fun words hwords => ?_) hnone)
  refine wp_bind (wp_some_ (fun size hsize => ?_) hnone)
  refine wp_bind (wp_gets (wp_ite (fun _ => hnone) fun heq => wp_pure (h ?_)))
  simp only [checked_mul, checked_add, Option.ite_none_right_eq_some, Option.some.injEq] at hlinks hwords hsize
  obtain ⟨⟨-, rfl⟩, ⟨-, rfl⟩, -, rfl⟩ := And.intro hlinks (And.intro hwords hsize)
  simp only [id, Decidable.not_not] at heq
  have hrest := b.rest.isLt
  simp only [HEADER] at heq
  exact ⟨by omega, by simp only [HEADER]; omega⟩

theorem wp_entry {Q : ℕ → Words → Prop} {l : Links} {link : ℕ} (h : link < l.len → Q link b) (hnone : R () b) :
    wp (some_ (l.entry link)) Q R b := by
  refine wp_some_ (fun a ha => ?_) hnone
  simp only [Links.entry, Option.ite_none_right_eq_some, Option.some.injEq] at ha
  obtain ⟨hlink, rfl⟩ := ha
  exact h hlink

/-- A link that may name no entry. -/
theorem wp_outer {Q : Option ℕ → Words → Prop} {l : Links} {link : ℕ}
    (h : (∀ i ∈ target link, i < l.len) → Q (target link) b) (hnone : R () b) :
    wp (if link = NONE then pure none else some_ ((l.entry link).map some)) Q R b := by
  refine wp_ite (fun hl => wp_pure ?_) fun hl => wp_some_ (fun a ha => ?_) hnone
  · simpa [target, hl] using h
  · simp only [Links.entry, Option.map_eq_some_iff, Option.ite_none_right_eq_some, Option.some.injEq] at ha
    obtain ⟨m, ⟨hlt, rfl⟩, rfl⟩ := ha
    simpa [target, hl, hlt] using h

end Rules

/-- The size is for `len` entries, and the counts and the mode are `b`'s. -/
def Framed (b : Words) (len : ℕ) (b' : Words) : Prop := Sized len b' ∧ b'.words.take HEAD = b.words.take HEAD

theorem Framed.set (h : Framed b len b') {value : ℕ} (hi : HEAD ≤ index) :
    Framed b len { b' with words := b'.words.set index value } := by
  refine ⟨⟨h.1.1, (List.length_set ..).trans h.1.2⟩, ?_⟩
  rw [← h.2]
  exact List.take_set_of_le hi

theorem Framed.wp_set {Q : Unit → Words → Prop} {R : Unit → Words → Prop} (h : Framed b len b') {value : ℕ}
    (hi : HEAD ≤ index ∧ index < HEADER + 2 * len)
    (hq : ∀ b'', Framed b len b'' → Q () b'') : wp (Links.set index value) Q R b' :=
  LruCache.wp_set (h.1.2 ▸ hi.2) (hq _ (h.set hi.1))

namespace Links

variable {l : Links}

theorem prev_lt {i : ℕ} (hi : i < len) : HEAD ≤ HEADER + 2 * i ∧ HEADER + 2 * i < HEADER + 2 * len := by
  simp only [HEAD, HEADER]
  omega

theorem next_lt {i : ℕ} (hi : i < len) : HEAD ≤ HEADER + 2 * i + 1 ∧ HEADER + 2 * i + 1 < HEADER + 2 * len := by
  simp only [HEAD, HEADER]
  omega

theorem tail_lt (len : ℕ) : HEAD ≤ TAIL ∧ TAIL < HEADER + 2 * len := by
  simp only [HEAD, TAIL, HEADER]
  omega

theorem place_lt {o : Option ℕ} (ho : ∀ i ∈ o, i < len) :
    HEAD ≤ o.elim HEAD (fun i => HEADER + 2 * i + 1) ∧
      o.elim HEAD (fun i => HEADER + 2 * i + 1) < HEADER + 2 * len := by
  cases o with
  | none => exact ⟨le_rfl, Nat.lt_add_right _ (Nat.lt_succ_of_lt (Nat.lt_succ_self HEAD))⟩
  | some i => exact next_lt (ho i rfl)

theorem head_framed (h : Sized l.len b) : wp l.head (fun _ b' => b' = b) (fun _ b' => b' = b) b := by
  refine wp_bind (wp_get (by rw [h.length]; simp [HEAD]) ?_)
  exact wp_entry (fun _ => rfl) rfl

theorem touch_framed (h : Sized l.len b) (index : ℕ) :
    wp (l.touch index) (fun _ b' => Framed b l.len b') (fun _ b' => b' = b) b := by
  have hlen := h.length
  have hb : Framed b l.len b := ⟨h, rfl⟩
  refine wp_ite (fun _ => rfl) fun hindex => ?_
  refine wp_bind (wp_get (by rw [hlen]; simp [TAIL]) (wp_ite (fun _ => wp_pure hb) fun _ => ?_))
  refine wp_bind (wp_entry (fun htail => ?_) rfl)
  refine wp_bind (wp_get (by simp only [HEADER]; omega) ?_)
  refine wp_bind (wp_get (by simp only [HEADER]; omega) ?_)
  refine wp_bind (wp_entry (fun hafter => ?_) rfl)
  refine wp_bind (wp_outer (fun hbefore => ?_) rfl)
  refine wp_bind (hb.wp_set (prev_lt hafter) fun b₁ h₁ => ?_)
  refine wp_bind (h₁.wp_set (place_lt hbefore) fun b₂ h₂ => ?_)
  refine wp_bind (h₂.wp_set (next_lt htail) fun b₃ h₃ => ?_)
  refine wp_bind (h₃.wp_set (prev_lt (not_le.mp hindex)) fun b₄ h₄ => ?_)
  refine wp_bind (h₄.wp_set (next_lt (not_le.mp hindex)) fun b₅ h₅ => ?_)
  exact h₅.wp_set (tail_lt _) fun b₆ h₆ => h₆

theorem push_framed (h : Sized l.len b) :
    wp l.push (fun l' b' => l'.len = l.len + 1 ∧ Framed b (l.len + 1) b') (fun _ b' => b' = b) b := by
  have hlen := h.length
  refine wp_bind (wp_get (by rw [hlen]; simp [TAIL]) ?_)
  refine wp_bind (wp_outer (fun htail => ?_) rfl)
  refine wp_bind (wp_some_ (fun _ _ => ?_) rfl)
  have hb (v : ℕ) : Framed b (l.len + 1) { b with words := b.words ++ [v, NONE] } := by
    refine ⟨⟨h.1, by simp [h.2]; omega⟩, List.take_append_of_le_length ?_⟩
    rw [hlen]
    simp only [HEAD]
    omega
  refine wp_bind (wp_modify ?_)
  refine wp_bind ((hb _).wp_set (place_lt fun i hi => Nat.lt_succ_of_lt (htail i hi)) fun b₁ h₁ => ?_)
  exact wp_bind (h₁.wp_set (tail_lt _) fun b₂ h₂ => wp_pure ⟨rfl, h₂⟩)

theorem indicesFrom_framed (h : Sized l.len b) (n link : ℕ) :
    wp (l.indicesFrom n link) (fun _ b' => b' = b) (fun _ b' => b' = b) b := by
  induction n generalizing link with
  | zero => exact wp_ite (fun _ => rfl) fun _ => rfl
  | succ n ih =>
    refine wp_bind (wp_entry (fun hlink => ?_) rfl)
    refine wp_bind (wp_get (by rw [h.length]; simp only [HEADER]; omega) ?_)
    refine wp_seq (ih _) fun rest b' hb' => ?_
    exact wp_pure hb'

theorem indices_framed (h : Sized l.len b) : wp l.indices (fun _ b' => b' = b) (fun _ b' => b' = b) b :=
  wp_bind (wp_get (by rw [h.length]; simp [HEAD]) (indicesFrom_framed h ..))

/-- The operations on the links. -/
inductive Op where
  | head
  | touch (index : ℕ)
  | push
  | indices

def Op.run (l : Links) : Op → Checked Links
  | .head => do
    let _ ← l.head
    return l
  | .touch index => do
    l.touch index
    return l
  | .push => l.push
  | .indices => do
    let _ ← l.indices
    return l

/-- How many entries an operation adds. -/
def Op.added : Op → ℕ
  | .push => 1
  | _ => 0

theorem Op.run_framed (op : Op) (h : Sized l.len b) :
    wp (op.run l) (fun l' b' => l'.len = l.len + op.added ∧ Framed b l'.len b') (fun _ b' => b' = b) b := by
  have hb : Framed b l.len b := ⟨h, rfl⟩
  cases op with
  | head => exact wp_seq (head_framed h) fun _ b' hb' => wp_pure ⟨rfl, hb'.symm ▸ hb⟩
  | touch index => exact wp_seq (touch_framed h index) fun _ b' hb' => wp_pure ⟨rfl, hb'⟩
  | push => exact wp_mono (push_framed h) (fun l' b' hl => ⟨hl.1, hl.1 ▸ hl.2⟩) fun _ _ => id
  | indices => exact wp_seq (indices_framed h) fun _ b' hb' => wp_pure ⟨rfl, hb'.symm ▸ hb⟩

/-- On a buffer of any words, whatever their values: an operation on the links that the buffer is accepted for
never accesses memory outside it; if it finds them inconsistent it has changed nothing; and else the buffer has the
size for the links after it, with the counts and the mode it had. -/
theorem operation_framed (b : Words) (len : ℕ) (op : Op) :
    wp (do
      let l ← Links.new len
      op.run l)
      (fun l' b' => l'.len = len + op.added ∧ Sized l'.len b' ∧ b'.words.take HEAD = b.words.take HEAD)
      (fun _ b' => b' = b) b :=
  wp_bind (wp_new (fun h => op.run_framed h) rfl)

end Links

/-- Where the link to the next entry stands, or to the first one. -/
def nextPlace (o : Option ℕ) : ℕ := o.elim HEAD fun i => HEADER + 2 * i + 1

def prevPlace (o : Option ℕ) : ℕ := o.elim TAIL fun i => HEADER + 2 * i

theorem nextPlace_inj {o o' : Option ℕ} : nextPlace o = nextPlace o' ↔ o = o' := by
  cases o <;> cases o' <;> simp [nextPlace, HEAD, HEADER] <;> omega

theorem prevPlace_inj {o o' : Option ℕ} : prevPlace o = prevPlace o' ↔ o = o' := by
  cases o <;> cases o' <;> simp [prevPlace, TAIL, HEADER] <;> omega

theorem nextPlace_ne_prevPlace (o o' : Option ℕ) : nextPlace o ≠ prevPlace o' := by
  cases o <;> cases o' <;> simp [nextPlace, prevPlace, HEAD, TAIL, HEADER] <;> omega

variable {v j : ℕ} {o : Option ℕ} {order : List ℕ}

namespace Words

def word (b : Words) (i : ℕ) : ℕ := b.words.getD i 0

def setWord (b : Words) (i v : ℕ) : Words := { b with words := b.words.set i v }

def nextOf (b : Words) (o : Option ℕ) : Option ℕ := target (b.word (nextPlace o))

def prevOf (b : Words) (o : Option ℕ) : Option ℕ := target (b.word (prevPlace o))

theorem word_eq {i : ℕ} (h : i < b.words.length) : b.words[i] = b.word i := by
  simp [word, h]

theorem word_setWord {i : ℕ} (h : i < b.words.length) : (b.setWord i v).word i = v := by
  simp [word, setWord, h]

theorem word_setWord_of_ne {i : ℕ} (h : i ≠ j) : (b.setWord j v).word i = b.word i := by
  simp [word, setWord, List.getD_eq_getElem?_getD, h.symm]

@[simp]
theorem length_setWord (b : Words) (i v : ℕ) : (b.setWord i v).words.length = b.words.length := List.length_set ..

theorem nextOf_setWord_next (h : nextPlace o < b.words.length) :
    (b.setWord (nextPlace o) v).nextOf = Function.update b.nextOf o (target v) := by
  funext o'
  by_cases ho : o' = o
  · subst ho
    rw [Function.update_self, nextOf, word_setWord h]
  · rw [Function.update_of_ne ho, nextOf, word_setWord_of_ne (mt nextPlace_inj.mp ho), nextOf]

theorem prevOf_setWord_prev (h : prevPlace o < b.words.length) :
    (b.setWord (prevPlace o) v).prevOf = Function.update b.prevOf o (target v) := by
  funext o'
  by_cases ho : o' = o
  · subst ho
    rw [Function.update_self, prevOf, word_setWord h]
  · rw [Function.update_of_ne ho, prevOf, word_setWord_of_ne (mt prevPlace_inj.mp ho), prevOf]

@[simp]
theorem nextOf_setWord_prev : (b.setWord (prevPlace o) v).nextOf = b.nextOf := by
  funext o'
  rw [nextOf, word_setWord_of_ne (nextPlace_ne_prevPlace o' o), nextOf]

@[simp]
theorem prevOf_setWord_next : (b.setWord (nextPlace o) v).prevOf = b.prevOf := by
  funext o'
  rw [prevOf, word_setWord_of_ne (nextPlace_ne_prevPlace o o').symm, prevOf]

end Words

/-- The links thread the positions below `len` in the order `order`, oldest first. -/
structure Threaded (b : Words) (len : ℕ) (order : List ℕ) : Prop where
  sized : Sized len b
  fits : (HEADER + 2 * len) * 8 < 2 ^ 64
  linked : Linked b.nextOf b.prevOf order
  mem_iff : ∀ i, i ∈ order ↔ i < len

theorem target_of_lt {i : ℕ} (h : i < len) (hfits : (HEADER + 2 * len) * 8 < 2 ^ 64) : target i = some i := by
  rw [target, if_neg]
  simp only [NONE, HEADER] at *
  omega

theorem target_eq_some {v i : ℕ} (h : target v = some i) : v = i := by
  simp only [target] at h
  split_ifs at h
  exact Option.some.inj h

theorem place_in {b : Words} (h : Sized len b) (ho : ∀ i ∈ o, i < len) :
    nextPlace o < b.words.length ∧ prevPlace o < b.words.length := by
  rw [h.length]
  cases o with
  | none => simp [nextPlace, prevPlace, HEAD, TAIL]
  | some i =>
    have := ho i rfl
    simp only [nextPlace, prevPlace, Option.elim, HEADER]
    omega

theorem place_of_length (h : Sized len b) (hb : b'.words.length = b.words.length) (ho : ∀ i ∈ o, i < len) :
    nextPlace o < b'.words.length ∧ prevPlace o < b'.words.length := by
  rw [hb]
  exact place_in h ho

theorem wp_word {Q : ℕ → Words → Prop} {R : Unit → Words → Prop} (hi : index < b.words.length)
    (h : Q (b.word index) b) : wp (Links.get index) Q R b := wp_get hi (Words.word_eq hi ▸ h)

/-- The link names an entry or none. -/
theorem wp_outer_of_lt {Q : Option ℕ → Words → Prop} {R : Unit → Words → Prop} {l : Links} {link : ℕ}
    (hlt : ∀ i ∈ target link, i < l.len) (h : Q (target link) b) :
    wp (if link = NONE then pure none else some_ ((l.entry link).map some)) Q R b := by
  refine wp_ite (fun hl => wp_pure (by simpa [target, hl] using h)) fun hl => ?_
  have hlink : link < l.len := hlt link (by simp [target, hl])
  simp only [Links.entry, hlink, ↓reduceIte, Option.map_some, some_]
  exact wp_pure (by simpa [target, hl] using h)

theorem wp_setWord {Q : Unit → Words → Prop} {R : Unit → Words → Prop} {value : ℕ} (hi : index < b.words.length)
    (h : Q () (b.setWord index value)) : wp (Links.set index value) Q R b := wp_set hi h

namespace Threaded

theorem length_eq (h : Threaded b len order) : order.length = len := by
  have hperm : order.Perm (List.range len) := by
    refine (List.perm_ext_iff_of_nodup h.linked.nodup List.nodup_range).mpr fun i => ?_
    rw [h.mem_iff, List.mem_range]
  simpa using hperm.length_eq

theorem head_wp (h : Threaded b len order) {i : ℕ} (hi : order.head? = some i) {R : Unit → Words → Prop} :
    wp (Links.head ⟨len⟩) (fun r b' => r = i ∧ b' = b) R b := by
  have hplace := place_in (o := none) h.sized (by simp)
  have hhead : b.word HEAD = i := target_eq_some (h.linked.head_eq.trans hi)
  have hentry : Links.entry ⟨len⟩ i = some i := if_pos ((h.mem_iff i).mp (List.mem_of_head? hi))
  refine wp_bind (wp_word hplace.1 ?_)
  rw [hhead, hentry]
  exact wp_pure ⟨rfl, rfl⟩

/-- The words after the moves of `touch`. -/
def relinked (b : Words) (index after tail next prev : ℕ) : Words :=
  (((((b.setWord (prevPlace (some after)) prev).setWord (nextPlace (target prev)) next).setWord
    (nextPlace (some tail)) index).setWord (prevPlace (some index)) tail).setWord (nextPlace (some index)) NONE).setWord
    (prevPlace none) index

theorem relink {x t z next prev : ℕ} {a c : List ℕ} (h : Threaded b len (a ++ x :: c)) (hz : c.head? = some z)
    (ht : c.getLast? = some t) (hnext : target next = c.head?) (hprev : target prev = a.getLast?) :
    Threaded (relinked b x z t next prev) len (a ++ c ++ [x]) := by
  have hlt {i : ℕ} (hi : i ∈ a ++ x :: c) : i < len := (h.mem_iff i).mp hi
  have hx : x < len := hlt (by simp)
  have hzlen : z < len := hlt (List.mem_append_right a (List.mem_cons_of_mem x (List.mem_of_head? hz)))
  have htlen : t < len := hlt (List.mem_append_right a (List.mem_cons_of_mem x (List.mem_of_getLast? ht)))
  have hplace {b' : Words} (hb' : b'.words.length = b.words.length) {o : Option ℕ} (ho : ∀ i ∈ o, i < len) :=
    place_of_length h.sized hb' ho
  have hbefore : ∀ i ∈ target prev, i < len := by
    rw [hprev]
    exact fun i hi => hlt (List.mem_append_left _ (List.mem_of_getLast? hi))
  have hlast : (a ++ c).getLast? = some t := by simp [List.getLast?_append, ht]
  have hout : x ∉ a ++ c := by
    have hn := (List.nodup_middle.mp h.linked.nodup)
    exact (List.nodup_cons.mp hn).1
  refine ⟨⟨h.sized.1, by simp [relinked, h.sized.2]⟩, h.fits, ?_, fun i => ?_⟩
  · have hl := h.linked.remove.append hout
    convert hl using 1
    · rw [relinked, Words.nextOf_setWord_prev, Words.nextOf_setWord_next (hplace (by simp) (by simpa)).1,
        Words.nextOf_setWord_prev, Words.nextOf_setWord_next (hplace (by simp) (by simpa)).1,
        Words.nextOf_setWord_next (hplace (by simp) hbefore).1, Words.nextOf_setWord_prev, hlast, hprev, hnext,
        target_of_lt hx h.fits]
      rfl
    · rw [relinked, Words.prevOf_setWord_prev (hplace (by simp) (by simp)).2, Words.prevOf_setWord_next,
        Words.prevOf_setWord_prev (hplace (by simp) (by simpa)).2, Words.prevOf_setWord_next,
        Words.prevOf_setWord_next, Words.prevOf_setWord_prev (hplace (by simp) (by simpa)).2, hlast, hprev, hz,
        target_of_lt hx h.fits, target_of_lt htlen h.fits]
      exact Function.update_comm (Option.some_ne_none x) ..
  · rw [← h.mem_iff]
    simp only [List.mem_append, List.mem_cons, List.not_mem_nil, or_false]
    tauto

theorem entry_eq (h : Threaded b len order) {i : ℕ} (hi : i ∈ order) : Links.entry ⟨len⟩ i = some i :=
  if_pos ((h.mem_iff i).mp hi)

theorem take_setWord (b : Words) {i : ℕ} (hi : HEAD ≤ i) : (b.setWord i v).words.take HEAD = b.words.take HEAD :=
  List.take_set_of_le hi

theorem touch_wp (h : Threaded b len order) (hindex : index < len) {R : Unit → Words → Prop} :
    wp (Links.touch ⟨len⟩ index)
      (fun _ b' => Threaded b' len (order.erase index ++ [index]) ∧ b'.words.take HEAD = b.words.take HEAD) R b := by
  have hmem := (h.mem_iff index).mpr hindex
  obtain ⟨a, c, rfl⟩ := List.append_of_mem hmem
  have hx : index ∉ a := fun ha => (List.nodup_append.mp h.linked.nodup).2.2 index ha index (by simp) rfl
  have herase : (a ++ index :: c).erase index = a ++ c := by
    rw [List.erase_append_right _ hx, List.erase_cons_head]
  have hplace {o : Option ℕ} (ho : ∀ i ∈ o, i < len) := place_in h.sized ho
  have htail : target (b.word TAIL) = (a ++ index :: c).getLast? := h.linked.tail_eq
  rw [herase]
  refine wp_ite (fun hle => absurd hindex (not_lt.mpr hle)) fun _ => ?_
  refine wp_bind (wp_word (hplace (o := none) (by simp)).2 ?_)
  cases hc : c.getLast? with
  | none =>
    obtain rfl : c = [] := by simpa using hc
    have hlast : b.word TAIL = index := target_eq_some (by simpa using htail)
    rw [hlast]
    exact wp_ite (fun _ => wp_pure ⟨by simpa using h, rfl⟩) fun hne => absurd rfl hne
  | some t =>
    have hlast : b.word TAIL = t := target_eq_some (by simpa [List.getLast?_append, List.getLast?_cons, hc] using htail)
    have htc : t ∈ c := List.mem_of_getLast? hc
    have hti : t ≠ index := by
      rintro rfl
      exact (List.nodup_cons.mp (List.nodup_append.mp h.linked.nodup).2.1).1 htc
    have hnext := h.linked.next_eq
    have hprev := h.linked.prev_eq
    obtain ⟨z, hz⟩ : ∃ z, c.head? = some z := by
      cases c with
      | nil => simp at hc
      | cons z c => exact ⟨z, rfl⟩
    have hzc : b.word (HEADER + 2 * index + 1) = z := target_eq_some (hnext.trans hz)
    have hbefore : ∀ i ∈ target (b.word (HEADER + 2 * index)), i < len := by
      intro i hi
      exact (h.mem_iff i).mp (List.mem_append_left _ (List.mem_of_getLast? (hprev ▸ hi)))
    rw [hlast]
    refine wp_ite (fun heq => absurd heq hti) fun _ => ?_
    rw [h.entry_eq (by simp [htc])]
    refine wp_bind (wp_pure ?_)
    refine wp_bind (wp_word (hplace (o := some index) (by simpa)).2 ?_)
    refine wp_bind (wp_word (hplace (o := some index) (by simpa)).1 ?_)
    rw [hzc, h.entry_eq (by simp [List.mem_of_head? hz])]
    refine wp_bind (wp_pure ?_)
    refine wp_bind (wp_outer_of_lt hbefore ?_)
    have hzt : ∀ i ∈ some z, i < len := by simpa using (h.mem_iff z).mp (by simp [List.mem_of_head? hz])
    have htt : ∀ i ∈ some t, i < len := by simpa using (h.mem_iff t).mp (by simp [htc])
    have hin : ∀ i ∈ some index, i < len := by simpa using hindex
    have hset {b' : Words} (hb' : b'.words.length = b.words.length) {o : Option ℕ} (ho : ∀ i ∈ o, i < len) :=
      place_of_length h.sized hb' ho
    refine wp_bind (wp_setWord (hset rfl hzt).2 ?_)
    refine wp_bind (wp_setWord (hset (by simp) hbefore).1 ?_)
    refine wp_bind (wp_setWord (hset (by simp) htt).1 ?_)
    refine wp_bind (wp_setWord (hset (by simp) hin).2 ?_)
    refine wp_bind (wp_setWord (hset (by simp) hin).1 ?_)
    refine wp_setWord (hset (o := none) (by simp) (by simp)).2 ⟨h.relink hz hc (hzc ▸ hnext) hprev, ?_⟩
    have hnone : ∀ i ∈ (none : Option ℕ), i < len := by simp
    rw [take_setWord _ (Links.tail_lt len).1, take_setWord _ (Links.next_lt hindex).1,
      take_setWord _ (Links.prev_lt hindex).1, take_setWord _ (Links.next_lt (htt t rfl)).1,
      take_setWord _ (Links.place_lt hbefore).1, take_setWord _ (Links.prev_lt (hzt z rfl)).1]

end Threaded

/-- The words of one more entry. -/
def Words.extend (b : Words) (prev next : ℕ) : Words := { b with words := b.words ++ [prev, next] }

theorem Sized.word_extend (h : Sized len b) (prev next i : ℕ) :
    (b.extend prev next).word i = if i = HEADER + 2 * len then prev else if i = HEADER + 2 * len + 1 then next
      else b.word i := by
  simp only [Words.word, Words.extend, List.getD_eq_getElem?_getD, List.getElem?_append, h.2]
  rcases Nat.lt_or_ge i (HEADER + 2 * len) with hi | hi
  · rw [if_pos hi, if_neg (by omega), if_neg (by omega)]
  · obtain ⟨k, rfl⟩ := Nat.exists_eq_add_of_le hi
    have hout : b.words[HEADER + 2 * len + k]? = none := List.getElem?_eq_none (by rw [h.2]; omega)
    rw [hout, if_neg (by omega), Nat.add_sub_cancel_left]
    rcases k with _ | _ | k
    · simp
    · simp
    · simp

theorem Sized.nextOf_extend (h : Sized len b) (prev : ℕ) :
    (b.extend prev NONE).nextOf = Function.update b.nextOf (some len) none := by
  funext o
  by_cases ho : o = some len
  · subst ho
    rw [Function.update_self, Words.nextOf, h.word_extend, if_neg (by simp [nextPlace]), if_pos (by simp [nextPlace])]
    rfl
  · have hne : nextPlace o ≠ HEADER + 2 * len + 1 := fun hplace => ho (nextPlace_inj.mp (hplace.trans rfl))
    have hne' : nextPlace o ≠ HEADER + 2 * len := nextPlace_ne_prevPlace o (some len)
    rw [Function.update_of_ne ho, Words.nextOf, h.word_extend, if_neg hne', if_neg hne, Words.nextOf]

theorem Sized.prevOf_extend (h : Sized len b) (prev : ℕ) :
    (b.extend prev NONE).prevOf = Function.update b.prevOf (some len) (target prev) := by
  funext o
  by_cases ho : o = some len
  · subst ho
    rw [Function.update_self, Words.prevOf, h.word_extend, if_pos (by simp [prevPlace])]
  · have hne : prevPlace o ≠ HEADER + 2 * len := fun hplace => ho (prevPlace_inj.mp (hplace.trans rfl))
    have hne' : prevPlace o ≠ HEADER + 2 * len + 1 := (nextPlace_ne_prevPlace (some len) o).symm
    rw [Function.update_of_ne ho, Words.prevOf, h.word_extend, if_neg hne, if_neg hne', Words.prevOf]

namespace Threaded

/-- The words after a new entry. -/
def extended (b : Words) (len : ℕ) (tail : Option ℕ) : Words :=
  ((b.extend (tail.getD NONE) NONE).setWord (nextPlace tail) len).setWord (prevPlace none) len

theorem extended_threaded (h : Threaded b len order) (hfits : (HEADER + 2 * (len + 1)) * 8 < 2 ^ 64) :
    Threaded (extended b len order.getLast?) (len + 1) (order ++ [len]) := by
  have hout : len ∉ order := fun hmem => lt_irrefl len ((h.mem_iff len).mp hmem)
  have hlast : ∀ i ∈ order.getLast?, i < len := fun i hi => (h.mem_iff i).mp (List.mem_of_getLast? hi)
  have hsized : Sized (len + 1) (b.extend (order.getLast?.getD NONE) NONE) :=
    ⟨h.sized.1, by simp [Words.extend, h.sized.2]; omega⟩
  have htail : target (order.getLast?.getD NONE) = order.getLast? := by
    cases ho : order.getLast? with
    | none => rfl
    | some t => exact target_of_lt (hlast t ho) h.fits
  have hlen : target len = some len := target_of_lt (Nat.lt_succ_self len) hfits
  have hplace {b' : Words} (hb' : b'.words.length = (b.extend (order.getLast?.getD NONE) NONE).words.length)
      {o : Option ℕ} (ho : ∀ i ∈ o, i < len) :=
    place_of_length hsized hb' fun i hi => Nat.lt_succ_of_lt (ho i hi)
  refine ⟨⟨h.sized.1, by simpa [extended] using hsized.2⟩, hfits, ?_, fun i => ?_⟩
  · have hl := h.linked.append hout
    convert hl using 1
    · rw [extended, Words.nextOf_setWord_prev, Words.nextOf_setWord_next (hplace rfl hlast).1, h.sized.nextOf_extend,
        hlen]
      exact Function.update_comm (fun heq => hout (List.mem_of_getLast? heq.symm)) ..
    · rw [extended, Words.prevOf_setWord_prev (hplace (by simp) (by simp)).2, Words.prevOf_setWord_next,
        h.sized.prevOf_extend, htail, hlen]
      exact Function.update_comm (Option.some_ne_none len) ..
  · rw [List.mem_append, h.mem_iff, List.mem_singleton]
    omega

theorem push_wp (h : Threaded b len order) (hfits : (HEADER + 2 * (len + 1)) * 8 < 2 ^ 64)
    {R : Unit → Words → Prop} :
    wp (Links.push ⟨len⟩) (fun l b' => l.len = len + 1 ∧ Threaded b' (len + 1) (order ++ [len]) ∧
      b'.words.take HEAD = b.words.take HEAD) R b := by
  have htail : target (b.word TAIL) = order.getLast? := h.linked.tail_eq
  have hlast : ∀ i ∈ target (b.word TAIL), i < len := by
    rw [htail]
    exact fun i hi => (h.mem_iff i).mp (List.mem_of_getLast? hi)
  have hsized : Sized (len + 1) (b.extend ((target (b.word TAIL)).getD NONE) NONE) :=
    ⟨h.sized.1, by simp [Words.extend, h.sized.2]; omega⟩
  have hlast' : ∀ i ∈ target (b.word TAIL), i < len + 1 := fun i hi => Nat.lt_succ_of_lt (hlast i hi)
  refine wp_bind (wp_word (place_in (o := none) h.sized (by simp)).2 ?_)
  refine wp_bind (wp_outer_of_lt hlast ?_)
  rw [checked_mul, if_pos hfits]
  refine wp_bind (wp_pure ?_)
  refine wp_bind (wp_modify ?_)
  refine wp_bind (wp_setWord (place_of_length hsized rfl hlast').1 ?_)
  refine wp_bind (wp_setWord (place_of_length (o := none) hsized (by rw [Words.length_setWord]; rfl) (by simp)).2 ?_)
  refine wp_pure ⟨rfl, ?_, ?_⟩
  · have hthreaded := h.extended_threaded hfits
    rw [← htail] at hthreaded
    exact hthreaded
  · rw [take_setWord _ (Links.tail_lt len).1, take_setWord _ (Links.place_lt hlast').1]
    refine List.take_append_of_le_length ?_
    rw [h.sized.2]
    simp only [HEAD, HEADER]
    omega

theorem indicesFrom_wp (h : Threaded b len order) {a c : List ℕ} (heq : order = a ++ c) {R : Unit → Words → Prop}
    {link : ℕ} (hlink : target link = c.head?) :
    wp (Links.indicesFrom ⟨len⟩ c.length link) (fun r b' => r = c ∧ b' = b) R b := by
  induction c generalizing a link with
  | nil =>
    refine wp_ite (fun _ => wp_pure ⟨rfl, rfl⟩) fun hne => ?_
    simp [target, hne] at hlink
  | cons i c ih =>
    obtain rfl : link = i := target_eq_some hlink
    have hmem : link ∈ order := by simp [heq]
    have hin : ∀ i ∈ some link, i < len := by simpa using (h.mem_iff link).mp hmem
    have hnext : target (b.word (HEADER + 2 * link + 1)) = c.head? := by
      have hl := h.linked
      rw [heq] at hl
      exact hl.next_eq
    simp only [List.length_cons, Links.indicesFrom]
    rw [h.entry_eq hmem]
    refine wp_bind (wp_pure ?_)
    refine wp_bind (wp_word (place_in h.sized hin).1 ?_)
    refine wp_seq (ih (a := a ++ [link]) (by simp [heq]) hnext) ?_
    rintro r b' ⟨rfl, rfl⟩
    exact wp_pure ⟨rfl, rfl⟩

theorem indices_wp (h : Threaded b len order) {R : Unit → Words → Prop} :
    wp (Links.indices ⟨len⟩) (fun r b' => r = order ∧ b' = b) R b := by
  refine wp_bind (wp_word (place_in (o := none) h.sized (by simp)).1 ?_)
  have hall := h.indicesFrom_wp (a := []) rfl h.linked.head_eq (R := R)
  rwa [h.length_eq] at hall

theorem new_wp (h : Threaded b len order) {R : Unit → Words → Prop} :
    wp (Links.new len) (fun l b' => l = ⟨len⟩ ∧ b' = b) R b := by
  have hfits := h.fits
  have hsize : 8 * b.words.length + b.rest.val = (len * 2 + HEADER) * 8 := by
    rw [h.sized.2, h.sized.1]
    omega
  simp only [HEADER] at hfits
  rw [Links.new, checked_mul, if_pos (by omega)]
  refine wp_bind (wp_pure ?_)
  rw [checked_add, if_pos (by simp only [HEADER]; omega)]
  refine wp_bind (wp_pure ?_)
  rw [checked_mul, if_pos (by simp only [HEADER]; omega)]
  refine wp_bind (wp_pure (wp_bind (wp_gets ?_)))
  exact wp_ite (fun hne => absurd hsize hne) fun _ => wp_pure ⟨rfl, rfl⟩

end Threaded

/-- The words without entries. -/
def Empty (b : Words) : Prop :=
  b.rest.val = 0 ∧ b.words.length = HEADER ∧ b.word HEAD = NONE ∧ b.word TAIL = NONE

theorem Empty.threaded (h : Empty b) : Threaded b 0 [] where
  sized := ⟨h.1, h.2.1⟩
  fits := by decide
  linked := .nil (by rw [Words.nextOf]; exact congrArg target h.2.2.1)
    (by rw [Words.prevOf]; exact congrArg target h.2.2.2)
  mem_iff i := by simp

theorem wp_write {Q : Unit → Words → Prop} {R : Unit → Words → Prop} (hi : index < b.words.length)
    (h : Q () (b.setWord index v)) : wp (write index v) Q R b := by
  refine wp_bind (wp_gets ?_)
  simpa only [id, hi, ↓reduceIte] using wp_modify h

theorem Sized.clear_links_wp (h : Sized len b) {R : Unit → Words → Prop} :
    wp clear_links (fun _ b' => Empty b' ∧ b'.words.take HEAD = b.words.take HEAD) R b := by
  have hlen : (b.truncate HEADER).words.length = HEADER := by
    simp [Words.truncate, h.2]
  have hrest : (b.truncate HEADER).rest.val = 0 := by
    simp [Words.truncate, h.2]
  refine wp_bind (wp_modify ?_)
  refine wp_bind (wp_write (by rw [hlen]; decide) ?_)
  refine wp_write (by rw [Words.length_setWord, hlen]; decide) ⟨⟨hrest, by simpa using hlen, ?_, ?_⟩, ?_⟩
  · rw [Words.word_setWord_of_ne (by decide), Words.word_setWord (by rw [hlen]; decide)]
  · rw [Words.word_setWord (by rw [Words.length_setWord, hlen]; decide)]
  · rw [Threaded.take_setWord _ (by decide), Threaded.take_setWord _ le_rfl]
    simp [Words.truncate, h.2, List.take_take, HEAD, HEADER]

end WeavePy.LruCache
