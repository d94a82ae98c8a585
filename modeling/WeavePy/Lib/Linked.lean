import Mathlib.Data.List.Nodup
import Mathlib.Tactic.Common

/-!
Doubly linked sequences with a sentinel: `none` is before the first member and after the last one.
-/

namespace WeavePy

variable {α : Type} {f : Option α → Option α} {l a b : List α} {x : α}

/-- The links go through the sequence from the sentinel back to it. -/
def Chained (f : Option α → Option α) (l : List α) : Prop := ∀ a b, l = a ++ b → f a.getLast? = b.head?

/-- In a sequence without repetition the last member before a cut says where it is. -/
theorem cut_eq {c d : List α} (hn : (a ++ b).Nodup) (h : a ++ b = c ++ d) (hlast : a.getLast? = c.getLast?) : a = c := by
  have hmem : ∀ {u e v : List α} {y : α}, (u ++ e ++ v).Nodup → e.getLast? = some y → u.getLast? ≠ some y := by
    intro u e v y hnd he hu
    rw [List.append_assoc] at hnd
    exact (List.nodup_append.mp hnd).2.2 y (List.mem_of_getLast? hu) y
      (List.mem_append_left v (List.mem_of_getLast? he)) rfl
  have hnil : ∀ {u e v : List α}, (u ++ e ++ v).Nodup → u.getLast? = (u ++ e).getLast? → e = [] := by
    intro u e v hnd hu
    cases he : e.getLast? with
    | none => simpa using he
    | some y =>
      rw [List.getLast?_append, he] at hu
      exact absurd hu (hmem hnd he)
  rcases List.append_eq_append_iff.mp h with ⟨e, rfl, rfl⟩ | ⟨e, rfl, rfl⟩
  · rw [hnil (u := a) (e := e) (v := d) (by simpa using hn) hlast, List.append_nil]
  · rw [hnil (u := c) (e := e) (v := b) hn hlast.symm, List.append_nil]

namespace Chained

theorem first (h : Chained f l) : f none = l.head? := h [] l rfl

theorem apply (h : Chained f (a ++ x :: b)) : f (some x) = b.head? := by
  simpa using h (a ++ [x]) b (by simp)

theorem nil (h : f none = none) : Chained f [] := by
  intro a b heq
  obtain ⟨rfl, rfl⟩ : a = [] ∧ b = [] := by simpa [eq_comm] using heq
  exact h

variable [DecidableEq α]

/-- The member before `x` is linked to the one after it. -/
theorem remove (hn : (a ++ x :: b).Nodup) (h : Chained f (a ++ x :: b)) :
    Chained (Function.update f a.getLast? b.head?) (a ++ b) := by
  have hn' : (a ++ b).Nodup := hn.sublist (List.Sublist.append_left (List.sublist_cons_self x b) a)
  intro c d heq
  by_cases hca : a = c
  · subst hca
    rw [Function.update_self, List.append_cancel_left heq]
  · rw [Function.update_of_ne fun hlast => hca (cut_eq hn' heq hlast.symm)]
    rcases List.append_eq_append_iff.mp heq with ⟨e, rfl, rfl⟩ | ⟨e, rfl, rfl⟩
    · have he : e ≠ [] := by
        rintro rfl
        exact hca (List.append_nil a).symm
      have hd := h (a ++ x :: e) d (by simp)
      cases e with
      | nil => exact absurd rfl he
      | cons y e => simpa using hd
    · have he : e ≠ [] := by
        rintro rfl
        exact hca (List.append_nil c)
      have hd := h c (e ++ x :: b) (by simp)
      rw [List.head?_append_of_ne_nil e he] at hd
      rwa [List.head?_append_of_ne_nil e he]

/-- A new last member. -/
theorem append (hn : (l ++ [x]).Nodup) (h : Chained f l) :
    Chained (Function.update (Function.update f l.getLast? (some x)) (some x) none) (l ++ [x]) := by
  have hx : x ∉ l := (List.nodup_cons.mp (List.nodup_append_comm.mp hn)).1
  have hout : ∀ {c : List α}, (∀ y ∈ c, y ∈ l) → c.getLast? ≠ some x := fun hc hlast =>
    hx (hc x (List.mem_of_getLast? hlast))
  intro c d heq
  rcases List.eq_nil_or_concat d with rfl | ⟨e, y, rfl⟩
  · obtain rfl : c = l ++ [x] := by simpa using heq.symm
    rw [List.getLast?_append_of_ne_nil l (List.cons_ne_nil x []), List.getLast?_singleton, Function.update_self]
    rfl
  · obtain ⟨rfl, rfl⟩ : l = c ++ e ∧ x = y := by simpa [← List.append_assoc] using heq
    rw [Function.update_of_ne (hout fun y hy => List.mem_append_left e hy)]
    by_cases he : e = []
    · subst he
      simp
    · rw [Function.update_of_ne, h c e rfl, List.concat_eq_append, List.head?_append_of_ne_nil e he]
      intro hlast
      have hcut := cut_eq (hn.sublist (List.sublist_append_left ..)) (by simp) hlast (d := [])
      exact he (by simpa using hcut)

/-- A new first member. -/
theorem cons (hn : (x :: l).Nodup) (h : Chained f l) :
    Chained (Function.update (Function.update f none (some x)) (some x) l.head?) (x :: l) := by
  have hx : x ∉ l := (List.nodup_cons.mp hn).1
  intro c d heq
  cases c with
  | nil =>
    obtain rfl : x :: l = d := heq
    simp
  | cons y c =>
    obtain ⟨rfl, rfl⟩ : x = y ∧ l = c ++ d := by simpa using heq
    cases hlast : c.getLast? with
    | none =>
      obtain rfl : c = [] := by simpa using hlast
      simp
    | some z =>
      have hz : z ∈ c := List.mem_of_getLast? hlast
      have hzx : z ≠ x := by
        rintro rfl
        exact hx (List.mem_append_left d hz)
      rw [List.getLast?_cons, hlast, Option.getD_some, Function.update_of_ne (by simpa using hzx),
        Function.update_of_ne (Option.some_ne_none z), ← hlast, h c d rfl]

end Chained

/-- Links to the next member and to the one before. -/
structure Linked (next prev : Option α → Option α) (l : List α) : Prop where
  nodup : l.Nodup
  next : Chained next l
  prev : Chained prev l.reverse

namespace Linked

variable {next prev : Option α → Option α}

theorem head_eq (h : Linked next prev l) : next none = l.head? := h.next.first

theorem tail_eq (h : Linked next prev l) : prev none = l.getLast? := by
  rw [h.prev.first, List.head?_reverse]

theorem nil (hnext : next none = none) (hprev : prev none = none) : Linked next prev [] :=
  ⟨List.nodup_nil, .nil hnext, .nil hprev⟩

theorem next_eq (h : Linked next prev (a ++ x :: b)) : next (some x) = b.head? := h.next.apply

theorem prev_eq (h : Linked next prev (a ++ x :: b)) : prev (some x) = a.getLast? := by
  have hrev : Chained prev (b.reverse ++ x :: a.reverse) := by simpa using h.prev
  rw [hrev.apply, List.head?_reverse]

variable [DecidableEq α]

theorem remove (h : Linked next prev (a ++ x :: b)) :
    Linked (Function.update next a.getLast? b.head?) (Function.update prev b.head? a.getLast?) (a ++ b) where
  nodup := h.nodup.sublist (List.Sublist.append_left (List.sublist_cons_self x b) a)
  next := h.next.remove h.nodup
  prev := by
    have hrev := Chained.remove (by simpa using List.nodup_reverse.mpr h.nodup)
      (show Chained prev (b.reverse ++ x :: a.reverse) by simpa using h.prev)
    simpa using hrev

theorem append (h : Linked next prev l) (hx : x ∉ l) :
    Linked (Function.update (Function.update next l.getLast? (some x)) (some x) none)
      (Function.update (Function.update prev none (some x)) (some x) l.getLast?) (l ++ [x]) := by
  have hn : (l ++ [x]).Nodup := List.nodup_append_comm.mp (by simpa using And.intro hx h.nodup)
  refine ⟨hn, h.next.append hn, ?_⟩
  have hrev := h.prev.cons (x := x) (by simpa using List.nodup_reverse.mpr hn)
  simpa using hrev

end Linked

end WeavePy
