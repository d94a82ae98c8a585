import Mathlib.Data.List.Basic
import Mathlib.Data.List.DropRight
import Mathlib.Tactic.Common

/-!
Private names: what a class body makes of `__spam`, and the spelling that `__name__` and `__qualname__`
go back to.
-/

namespace WeavePy.Mangle

def dunder : List Char := ['_', '_']

/-- `class_name.trim_start_matches('_')`. -/
def stripped (className : List Char) : List Char := className.dropWhile (· == '_')

def demangleName (className ident : List Char) : List Char :=
  if (stripped className).isEmpty then ident
  else
    match ident.dropPrefix? ('_' :: stripped className) with
    | some rest => if dunder.isPrefixOf rest && !dunder.isSuffixOf rest then rest else ident
    | none => ident

def mangleIdent (className ident : List Char) : List Char :=
  if (stripped className).isEmpty || !dunder.isPrefixOf ident || dunder.isSuffixOf ident || ident.contains '.' then
    ident
  else '_' :: stripped className ++ ident

structure Mangler where
  lead : List Char
  skip : List (List Char)
  only : Option (List (List Char))

namespace Mangler

def name (m : Mangler) (ident : List Char) : List Char :=
  if !dunder.isPrefixOf ident then ident
  else if dunder.isSuffixOf ident || ident.contains '.' then ident
  else if m.skip.contains ident then ident
  else if m.only.any fun only => !only.contains ident then ident
  else m.lead ++ ident

/-- The pass that `mangle_class_body` makes, unless the class is named by underscores alone. -/
def ofClass (className : List Char) : Option Mangler :=
  if (stripped className).isEmpty then none else some ⟨'_' :: stripped className, [], none⟩

end Mangler

/-- What a class body makes of an identifier. -/
def mangle (className ident : List Char) : List Char := (Mangler.ofClass className).elim ident (·.name ident)

/-- An identifier already spelled as if the class had mangled it. -/
def Spelled (className ident : List Char) : Prop :=
  stripped className ≠ [] ∧ ∃ rest, ident = '_' :: stripped className ++ rest ∧ dunder <+: rest ∧ ¬ dunder <:+ rest

variable {className ident rest : List Char}

theorem isPrefixOf_eq_false : dunder.isPrefixOf ident = false ↔ ¬ dunder <+: ident := by
  rw [← Bool.not_eq_true, List.isPrefixOf_iff_prefix]

theorem isSuffixOf_eq_false : dunder.isSuffixOf ident = false ↔ ¬ dunder <:+ ident := by
  rw [← Bool.not_eq_true, List.isSuffixOf_iff_suffix]

theorem stripped_head (h : stripped className ≠ []) : ∃ c cs, stripped className = c :: cs ∧ c ≠ '_' := by
  have hhead := List.head_dropWhile_not (· == '_') h
  cases hs : stripped className with
  | nil => exact absurd hs h
  | cons c cs =>
    refine ⟨c, cs, rfl, ?_⟩
    unfold stripped at hs
    simpa [hs] using hhead

/-- A mangled name begins with one underscore only. -/
theorem not_dunder_stripped (h : stripped className ≠ []) : ¬ dunder <+: '_' :: stripped className ++ rest := by
  obtain ⟨c, cs, hs, hc⟩ := stripped_head h
  rw [hs]
  rintro ⟨l, hl⟩
  simp only [dunder, List.cons_append, List.nil_append, List.cons.injEq] at hl
  exact hc hl.2.1.symm

theorem mangle_eq_mangleIdent (className ident : List Char) : mangle className ident = mangleIdent className ident := by
  unfold mangle Mangler.ofClass mangleIdent
  by_cases hs : stripped className = []
  · simp [hs]
  · rw [if_neg (by simpa using hs)]
    cases hp : dunder.isPrefixOf ident <;> cases hq : dunder.isSuffixOf ident <;>
      cases hd : ident.contains '.' <;> simp only [Mangler.name, hp, hq, hd] <;> simp [hs]

theorem mangleIdent_of_not_dunder (h : ¬ dunder <+: ident) : mangleIdent className ident = ident := by
  unfold mangleIdent
  rw [if_pos]
  simp [isPrefixOf_eq_false.mpr h]

theorem mangleIdent_cases (className ident : List Char) :
    mangleIdent className ident = ident ∨ stripped className ≠ [] ∧ dunder <+: ident ∧ ¬ dunder <:+ ident ∧
      mangleIdent className ident = '_' :: stripped className ++ ident := by
  unfold mangleIdent
  split_ifs with h
  · exact .inl rfl
  · right
    simp only [Bool.or_eq_true, Bool.not_eq_true', not_or, List.isEmpty_iff, List.isSuffixOf_iff_suffix] at h
    refine ⟨h.1.1.1, ?_, h.1.2, rfl⟩
    simpa using h.1.1.2

theorem mangle_idem (className ident : List Char) :
    mangle className (mangle className ident) = mangle className ident := by
  rw [mangle_eq_mangleIdent, mangle_eq_mangleIdent]
  rcases mangleIdent_cases className ident with h | ⟨hs, -, -, h⟩
  · rw [h, h]
  · rw [h]
    exact mangleIdent_of_not_dunder (not_dunder_stripped hs)

theorem demangleName_stripped (hs : stripped className ≠ []) (hp : dunder <+: rest) (hq : ¬ dunder <:+ rest) :
    demangleName className ('_' :: stripped className ++ rest) = rest := by
  have hdrop : ('_' :: stripped className ++ rest).dropPrefix? ('_' :: stripped className) = some rest :=
    List.dropPrefix?_eq_some_iff.mpr ⟨_, rfl, by simp⟩
  unfold demangleName
  rw [if_neg (by simpa using hs), hdrop]
  dsimp only
  rw [if_pos (by simp [hp, isSuffixOf_eq_false.mpr hq])]

theorem demangleName_of_not_spelled (h : ¬ Spelled className ident) : demangleName className ident = ident := by
  unfold demangleName
  split_ifs with hs
  · rfl
  · cases hdrop : ident.dropPrefix? ('_' :: stripped className) with
    | none => rfl
    | some rest =>
      dsimp only
      split_ifs with hr
      · exfalso
        apply h
        obtain ⟨lead, hident, hlead⟩ := List.dropPrefix?_eq_some_iff.mp hdrop
        rw [beq_iff_eq] at hlead
        refine ⟨by simpa using hs, rest, hlead ▸ hident, ?_, ?_⟩
        · simpa using (Bool.and_eq_true_iff.mp hr).1
        · exact isSuffixOf_eq_false.mp (by simpa using (Bool.and_eq_true_iff.mp hr).2)
      · rfl

/-- A name comes back from its mangling, unless the class left it alone as one that looks mangled. -/
theorem demangle_inverts_mangle (className ident : List Char) :
    (demangleName className (mangle className ident) = ident ∧
      mangle className ident = mangleIdent className ident ∧
      mangle className (mangle className ident) = mangle className ident) ↔ ¬ Spelled className ident := by
  constructor
  · rintro ⟨hback, -, -⟩ ⟨hs, rest, rfl, hp, hq⟩
    rw [mangle_eq_mangleIdent, mangleIdent_of_not_dunder (not_dunder_stripped hs),
      demangleName_stripped hs hp hq] at hback
    have := congrArg List.length hback
    rw [List.length_append, List.length_cons] at this
    omega
  · intro h
    refine ⟨?_, mangle_eq_mangleIdent className ident, mangle_idem className ident⟩
    rw [mangle_eq_mangleIdent]
    rcases mangleIdent_cases className ident with hm | ⟨hs, hp, hq, hm⟩
    · rw [hm]
      exact demangleName_of_not_spelled h
    · rw [hm]
      exact demangleName_stripped hs hp hq

/-- In class `C` the method `_C__x` is shown as `__x`. -/
theorem demangle_misreads : ¬ ∀ className ident, demangleName className (mangle className ident) = ident := by
  intro h
  have := h ['C'] ['_', 'C', '_', '_', 'x']
  revert this
  decide

end WeavePy.Mangle
