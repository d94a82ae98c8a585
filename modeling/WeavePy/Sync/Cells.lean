import Mathlib.Algebra.Ring.Int.Defs
import Mathlib.Algebra.Ring.Nat
import Mathlib.Logic.Function.Basic
import Mathlib.Tactic.Common

/-!
A cell shared by threads: a reentrant lock word that keeps no depth and a counter of live borrows, one load
or store of them at a time.
-/

namespace WeavePy.Sync

/-- A thread's id in the lock word: not zero, which is no owner. -/
abbrev CellId := ℕ

inductive Access where
  | borrow
  | borrowMut
  /-- `get` and `set`, which claim no borrow. -/
  | copy

/-- The next load or store of a thread. -/
inductive Pc where
  | idle
  /-- `lock_acquire_as` is to load the owner. -/
  | loadOwner (a : Access)
  /-- It is to exchange the owner, now or in the loop of `lock_contended`. -/
  | exchange (a : Access)
  | loadCount (a : Access) (fresh : Bool)
  | storeCount (a : Access) (count : ℤ)
  | payload (fresh : Bool)
  | release
  /-- The drop of a `Ref`. -/
  | loadDropped
  | storeDropped (count : ℤ)
  /-- The drop of a `RefMut`. -/
  | storeZero

/-- The guards that a thread has. -/
structure Guards where
  refs : ℕ
  refMut : Bool

namespace Guards

def none : Guards := ⟨0, false⟩

def Live (g : Guards) : Prop := 0 < g.refs ∨ g.refMut = true

/-- What the counter counts. -/
def count (g : Guards) : ℤ := if g.refMut then -1 else g.refs

@[simp]
theorem count_none : none.count = 0 := rfl

theorem count_of_not_live {g : Guards} (h : ¬ g.Live) : g.count = 0 := by
  obtain ⟨hrefs, hmut⟩ := not_or.mp h
  simp [count, hmut, Nat.eq_zero_of_not_pos hrefs]

instance (g : Guards) : Decidable g.Live := inferInstanceAs (Decidable (_ ∨ _))

end Guards

/-- The lock word is this thread's. -/
def Pc.Claims (g : Guards) : Pc → Prop
  | .idle | .loadOwner _ => g.Live
  | .exchange _ => False
  | _ => True

/-- A thread's place agrees with its guards and with the counter. -/
def Pc.Fits (g : Guards) (borrow : ℤ) : Pc → Prop
  | .idle | .loadOwner _ => True
  | .exchange _ | .release => ¬ g.Live
  | .loadCount a fresh => a ≠ .copy ∧ (g.Live ↔ fresh = false)
  | .payload fresh => g.Live ↔ fresh = false
  | .storeCount .borrow count => count = borrow ∧ 0 ≤ count
  | .storeCount .borrowMut _ => borrow = 0
  | .storeCount .copy _ => False
  | .loadDropped => 0 < g.refs
  | .storeDropped count => 0 < g.refs ∧ count = borrow
  | .storeZero => g.refMut = true

theorem Pc.Fits.of_not_claims {pc : Pc} {g : Guards} {b : ℤ} (h : pc.Fits g b) (hc : ¬ pc.Claims g) (b' : ℤ) :
    pc.Fits g b' := by
  cases pc with
  | idle | loadOwner | exchange => exact h
  | _ => exact absurd trivial hc

structure GilCell where
  owner : CellId
  borrow : ℤ
  pc : CellId → Pc
  guards : CellId → Guards

namespace GilCell

variable (s : GilCell) (me : CellId)

def new : GilCell := ⟨0, 0, fun _ => .idle, fun _ => .none⟩

def goto (pc : Pc) : GilCell := { s with pc := Function.update s.pc me pc }

def setGuards (g : Guards) : GilCell := { s with guards := Function.update s.guards me g }

@[simp]
theorem setGuards_owner (g : Guards) : (s.setGuards me g).owner = s.owner := rfl

@[simp]
theorem setGuards_borrow (g : Guards) : (s.setGuards me g).borrow = s.borrow := rfl

/-- The lock is held, taken by this access if `fresh`. -/
def acquired (a : Access) (fresh : Bool) : GilCell :=
  match a with
  | .copy => s.goto me (.payload fresh)
  | a => s.goto me (.loadCount a fresh)

def refused (fresh : Bool) : GilCell := s.goto me (if fresh then .release else .idle)

/-- The next load or store of a thread on its way. -/
def resume : GilCell :=
  match s.pc me with
  | .idle => s
  | .loadOwner a => if s.owner = me then s.acquired me a false else s.goto me (.exchange a)
  | .exchange a => if s.owner = 0 then { s with owner := me }.acquired me a true else s
  | .loadCount .borrow fresh =>
    if s.borrow < 0 ∨ s.borrow = 2 ^ 31 - 1 then s.refused me fresh
    else s.goto me (.storeCount .borrow s.borrow)
  | .loadCount .borrowMut fresh =>
    if s.borrow ≠ 0 then s.refused me fresh else s.goto me (.storeCount .borrowMut s.borrow)
  | .loadCount .copy _ => s
  | .storeCount .borrow count =>
    ({ s with borrow := count + 1 }.setGuards me { s.guards me with refs := (s.guards me).refs + 1 }).goto me .idle
  | .storeCount .borrowMut _ =>
    ({ s with borrow := -1 }.setGuards me { s.guards me with refMut := true }).goto me .idle
  | .storeCount .copy _ => s
  | .payload fresh => s.refused me fresh
  | .release => { s with owner := 0 }.goto me .idle
  | .loadDropped => s.goto me (.storeDropped s.borrow)
  | .storeDropped count =>
    ({ s with borrow := count - 1 }.setGuards me { s.guards me with refs := (s.guards me).refs - 1 }).goto me
      (if count = 1 then .release else .idle)
  | .storeZero => ({ s with borrow := 0 }.setGuards me { s.guards me with refMut := false }).goto me .release

/-- What a thread that is not on its way does next. -/
inductive Call where
  | access (a : Access)
  | dropRef
  | dropRefMut

def Call.pc : Call → Pc
  | .access a => .loadOwner a
  | .dropRef => .loadDropped
  | .dropRefMut => .storeZero

/-- A guard is dropped by the thread that has it: guards are not sent. -/
def Call.Allowed (g : Guards) : Call → Prop
  | .access _ => True
  | .dropRef => 0 < g.refs
  | .dropRefMut => g.refMut = true

inductive Reachable : GilCell → Prop
  | new : Reachable new
  | call {s : GilCell} {me : CellId} (h : Reachable s) (hme : me ≠ 0) (hidle : s.pc me = .idle) (c : Call)
      (hc : c.Allowed (s.guards me)) : Reachable (s.goto me c.pc)
  | resume {s : GilCell} {me : CellId} (h : Reachable s) : Reachable (s.resume me)

/-- What holds of a cell between any two loads or stores. -/
structure Consistent (s : GilCell) : Prop where
  owner : ∀ t, t ≠ 0 → (s.owner = t ↔ (s.pc t).Claims (s.guards t))
  borrow : s.borrow = (s.guards s.owner).count
  fits : ∀ t, (s.pc t).Fits (s.guards t) s.borrow
  sole : ∀ t, (s.guards t).refMut = true → (s.guards t).refs = 0
  nobody : s.pc 0 = .idle ∧ s.guards 0 = .none

namespace Consistent

variable {s : GilCell} {me t : CellId}

theorem new : Consistent new where
  owner t ht := iff_of_false (Ne.symm ht) (by simp [GilCell.new, Pc.Claims, Guards.Live, Guards.none])
  borrow := rfl
  fits _ := trivial
  sole _ _ := rfl
  nobody := ⟨rfl, rfl⟩

theorem not_live (h : Consistent s) (ht : t ≠ 0) (hown : s.owner ≠ t) : ¬ (s.guards t).Live := by
  have hc := mt (h.owner t ht).mpr hown
  intro hlive
  have hfits := h.fits t
  cases hpc : s.pc t with
  | exchange => exact absurd hlive (by simpa [hpc, Pc.Fits] using hfits)
  | _ => simp [hpc, Pc.Claims, hlive] at hc

/-- One thread moves; the others keep their places and guards. -/
theorem move (h : Consistent s) (hme : me ≠ 0) {owner : CellId} {borrow : ℤ} {pc : Pc} {g : Guards}
    (howner : owner = me ↔ pc.Claims g) (hothers : ∀ t, t ≠ me → t ≠ 0 → (owner = t ↔ s.owner = t))
    (hborrow : borrow = (Function.update s.guards me g owner).count) (hfits : pc.Fits g borrow)
    (hkept : s.owner = me ∨ borrow = s.borrow) (hsole : g.refMut = true → g.refs = 0) :
    Consistent ⟨owner, borrow, Function.update s.pc me pc, Function.update s.guards me g⟩ where
  owner t ht := by
    by_cases htm : t = me
    · subst htm
      simpa using howner
    · simpa [htm] using (hothers t htm ht).trans (h.owner t ht)
  borrow := hborrow
  fits t := by
    by_cases htm : t = me
    · subst htm
      simpa using hfits
    · simp only [Function.update_of_ne htm]
      rcases hkept with hown | rfl
      · by_cases ht : t = 0
        · subst ht
          rw [h.nobody.1]
          trivial
        · refine (h.fits t).of_not_claims (mt (h.owner t ht).mpr ?_) borrow
          rw [hown]
          exact Ne.symm htm
      · exact h.fits t
  sole t := by
    by_cases htm : t = me
    · subst htm
      simpa using hsole
    · simpa [htm] using h.sole t
  nobody := by simpa [Ne.symm hme] using h.nobody

/-- The counter is what the owner's guards make it. -/
theorem count_eq (h : Consistent s) (hown : s.owner = me) : s.borrow = (s.guards me).count := hown ▸ h.borrow

/-- A thread on its way takes its next step. -/
theorem resume (h : Consistent s) (hme : me ≠ 0) : Consistent (s.resume me) := by
  have hfits := h.fits me
  have howner := h.owner me hme
  have hsole := h.sole me
  have hsame : ∀ t, t ≠ me → t ≠ 0 → (s.owner = t ↔ s.owner = t) := fun t _ _ => Iff.rfl
  have hstay {pc : Pc} (hc : s.owner = me ↔ pc.Claims (s.guards me)) (hf : pc.Fits (s.guards me) s.borrow) :
      Consistent (s.goto me pc) := by
    have hm := h.move hme hc hsame (by simpa using h.borrow) hf (.inr rfl) hsole
    rwa [Function.update_eq_self] at hm
  have hrefuse {fresh : Bool} (hown : s.owner = me) (hf : (s.guards me).Live ↔ fresh = false) :
      Consistent (s.refused me fresh) := by
    cases fresh with
    | true => exact hstay (iff_of_true hown trivial) (by simpa [Pc.Fits] using hf)
    | false => exact hstay (iff_of_true hown (hf.mpr rfl)) trivial
  unfold GilCell.resume
  cases hpc : s.pc me with
  | idle => simpa [hpc] using h
  | loadOwner a =>
    simp only [hpc, Pc.Claims] at howner
    by_cases hown : s.owner = me
    · have hlive := howner.mp hown
      simp only [hown, ↓reduceIte, acquired]
      cases a with
      | copy => exact hstay (by simp [hown, Pc.Claims]) (by simp [Pc.Fits, hlive])
      | borrow | borrowMut => exact hstay (by simp [hown, Pc.Claims]) (by simp [Pc.Fits, hlive])
    · simp only [hown, ↓reduceIte]
      exact hstay (by simp [hown, Pc.Claims]) (mt howner.mpr hown)
  | exchange a =>
    simp only [hpc, Pc.Fits] at hfits
    by_cases hfree : s.owner = 0
    · have hzero : s.borrow = 0 := by
        rw [h.borrow, hfree, h.nobody.2]
        rfl
      have htake {pc : Pc} (hc : pc.Claims (s.guards me)) (hf : pc.Fits (s.guards me) s.borrow) :
          Consistent ({ s with owner := me }.goto me pc) := by
        have hm : Consistent ⟨me, s.borrow, _, Function.update s.guards me (s.guards me)⟩ := h.move hme
          (iff_of_true rfl hc) (fun t ht h0 => iff_of_false (Ne.symm ht) (by rw [hfree]; exact Ne.symm h0))
          (by simp [hzero, Guards.count_of_not_live hfits]) hf (.inr rfl) hsole
        rwa [Function.update_eq_self] at hm
      simp only [hfree, ↓reduceIte, acquired]
      cases a with
      | copy => exact htake trivial (by simp [Pc.Fits, hfits])
      | borrow | borrowMut => exact htake trivial (by simp [Pc.Fits, hfits])
    · simpa [hfree] using h
  | loadCount a fresh =>
    simp only [hpc, Pc.Fits] at hfits
    have hown : s.owner = me := howner.mpr (by simp [hpc, Pc.Claims])
    cases a with
    | borrow =>
      by_cases hn : s.borrow < 0 ∨ s.borrow = 2 ^ 31 - 1
      · simpa only [hn, ↓reduceIte] using hrefuse hown hfits.2
      · simp only [hn, ↓reduceIte]
        exact hstay (iff_of_true hown trivial) ⟨rfl, Int.not_lt.mp (not_or.mp hn).1⟩
    | borrowMut =>
      by_cases hz : s.borrow = 0
      · simp only [hz, ne_eq, not_true_eq_false, ↓reduceIte]
        exact hstay (iff_of_true hown trivial) hz
      · simpa only [ne_eq, hz, not_false_eq_true, ↓reduceIte] using hrefuse hown hfits.2
    | copy => exact absurd rfl hfits.1
  | storeCount a count =>
    have hown : s.owner = me := howner.mpr (by simp [hpc, Pc.Claims])
    have hcount := h.count_eq hown
    cases a with
    | borrow =>
      obtain ⟨rfl, hpos⟩ : count = s.borrow ∧ 0 ≤ count := by simpa [hpc, Pc.Fits] using hfits
      have hmut : (s.guards me).refMut = false := by
        by_contra hmut
        rw [Bool.not_eq_false] at hmut
        rw [Guards.count, if_pos hmut] at hcount
        omega
      refine h.move hme (iff_of_true hown (.inl (Nat.succ_pos _))) hsame ?_ trivial (.inl hown) (by simp [hmut])
      simp [hown, Guards.count, hmut, hcount]
    | borrowMut =>
      have hzero : s.borrow = 0 := by simpa [hpc, Pc.Fits] using hfits
      have hrefs : (s.guards me).refs = 0 := by
        by_contra hrefs
        have hmut : (s.guards me).refMut = false := by
          by_contra hmut
          exact hrefs (hsole (by simpa using hmut))
        simp [Guards.count, hmut] at hcount
        omega
      refine h.move hme (iff_of_true hown (.inr rfl)) hsame ?_ trivial (.inl hown) (fun _ => hrefs)
      simp [hown, Guards.count]
    | copy => simp [hpc, Pc.Fits] at hfits
  | payload fresh =>
    simp only [hpc, Pc.Fits] at hfits
    exact hrefuse (howner.mpr (by simp [hpc, Pc.Claims])) hfits
  | release =>
    simp only [hpc, Pc.Fits] at hfits
    have hown : s.owner = me := howner.mpr (by simp [hpc, Pc.Claims])
    have hm : Consistent ⟨0, s.borrow, Function.update s.pc me .idle, Function.update s.guards me (s.guards me)⟩ :=
      h.move hme (iff_of_false (Ne.symm hme) hfits)
        (fun t ht h0 => iff_of_false (Ne.symm h0) (by rw [hown]; exact Ne.symm ht))
        (by simp [Ne.symm hme, h.nobody.2, h.count_eq hown, Guards.count_of_not_live hfits])
        trivial (.inr rfl) hsole
    rwa [Function.update_eq_self] at hm
  | loadDropped =>
    have hrefs : 0 < (s.guards me).refs := by simpa [hpc, Pc.Fits] using hfits
    exact hstay (by simpa [hpc, Pc.Claims] using howner) ⟨hrefs, rfl⟩
  | storeDropped count =>
    obtain ⟨hrefs, rfl⟩ : 0 < (s.guards me).refs ∧ count = s.borrow := by simpa [hpc, Pc.Fits] using hfits
    have hown : s.owner = me := howner.mpr (by simp [hpc, Pc.Claims])
    have hmut : (s.guards me).refMut = false := by
      by_contra hmut
      have := hsole (by simpa using hmut)
      omega
    have hcount := h.count_eq hown
    simp only [Guards.count, hmut, Bool.false_eq_true, ↓reduceIte] at hcount
    refine h.move hme ?_ hsame (by simp [hown, Guards.count, hmut, hcount]; omega) ?_ (.inl hown) (by simp [hmut])
    · split_ifs with hone
      · exact iff_of_true hown trivial
      · refine iff_of_true hown (.inl ?_)
        change 0 < (s.guards me).refs - 1
        omega
    · split_ifs with hone
      · simp [Pc.Fits, Guards.Live, hmut]
        omega
      · trivial
  | storeZero =>
    have hmut : (s.guards me).refMut = true := by simpa [hpc, Pc.Fits] using hfits
    have hown : s.owner = me := howner.mpr (by simp [hpc, Pc.Claims])
    have hrefs := hsole hmut
    refine h.move hme (iff_of_true hown trivial) hsame ?_ ?_ (.inl hown) (by simp)
    · simp [hown, Guards.count, hrefs]
    · simp [Pc.Fits, Guards.Live, hrefs]

/-- An idle thread starts an access or the drop of a guard. -/
theorem call (h : Consistent s) (hme : me ≠ 0) (hidle : s.pc me = .idle) {c : Call} (hc : c.Allowed (s.guards me)) :
    Consistent (s.goto me c.pc) := by
  have howner := h.owner me hme
  rw [hidle] at howner
  have hstart {pc : Pc} (hc : s.owner = me ↔ pc.Claims (s.guards me)) (hf : pc.Fits (s.guards me) s.borrow) :
      Consistent (s.goto me pc) := by
    have hm := h.move hme hc (fun t _ _ => Iff.rfl) (by simpa using h.borrow) hf (.inr rfl) (h.sole me)
    rwa [Function.update_eq_self] at hm
  cases c with
  | access a => exact hstart howner trivial
  | dropRef => exact hstart (iff_of_true (howner.mpr (.inl hc)) trivial) hc
  | dropRefMut => exact hstart (iff_of_true (howner.mpr (.inr hc)) trivial) hc

end Consistent

theorem Reachable.consistent {s : GilCell} (h : Reachable s) : Consistent s := by
  induction h with
  | new => exact .new
  | call _ hme hidle c hc ih => exact ih.call hme hidle hc
  | @resume s me _ ih =>
    by_cases hme : me = 0
    · have hidle : s.pc me = .idle := hme ▸ ih.nobody.1
      rw [GilCell.resume, hidle]
      exact ih
    · exact ih.resume hme

/-- The thread may be reading or writing the payload. -/
def Inside (s : GilCell) (t : CellId) : Prop := (s.guards t).Live ∨ ∃ fresh, s.pc t = .payload fresh

theorem Consistent.owner_of_inside {s : GilCell} {t : CellId} (h : Consistent s) (ht : s.Inside t) :
    s.owner = t ∧ t ≠ 0 := by
  have h0 : t ≠ 0 := by
    rintro rfl
    rcases ht with hlive | ⟨fresh, hpc⟩
    · simp [h.nobody.2, Guards.Live, Guards.none] at hlive
    · simp [h.nobody.1] at hpc
  refine ⟨?_, h0⟩
  rcases ht with hlive | ⟨fresh, hpc⟩
  · by_contra hown
    exact h.not_live h0 hown hlive
  · exact (h.owner t h0).mpr (by simp [hpc, Pc.Claims])

/-- An owner without a guard frees the lock or gets its guard with no other thread's help. -/
theorem Consistent.owner_leaves {s : GilCell} {t : CellId} (h : Consistent s) (hown : s.owner = t) (ht : t ≠ 0)
    (hlive : ¬ (s.guards t).Live) : ∃ k ≤ 2, ((fun s => s.resume t)^[k] s).owner = 0 ∨
      (((fun s => s.resume t)^[k] s).guards t).Live := by
  have hclaims := (h.owner t ht).mp hown
  have hfits := h.fits t
  have hzero : s.borrow = 0 := by rw [h.count_eq hown, Guards.count_of_not_live hlive]
  cases hpc : s.pc t with
  | idle | loadOwner | exchange => simp [hpc, Pc.Claims, hlive] at hclaims
  | loadDropped | storeDropped => simp [hpc, Pc.Fits] at hfits; exact absurd (.inl (by omega)) hlive
  | storeZero => simp [hpc, Pc.Fits] at hfits; exact absurd (.inr hfits) hlive
  | release => exact ⟨1, by omega, .inl (by simp [GilCell.resume, hpc, goto])⟩
  | payload fresh =>
    obtain rfl : fresh = true := by simpa [hpc, Pc.Fits, hlive] using hfits
    exact ⟨2, le_rfl, .inl (by simp [GilCell.resume, hpc, goto, refused])⟩
  | storeCount a count =>
    refine ⟨1, by omega, .inr ?_⟩
    cases a with
    | borrow | borrowMut => simp [GilCell.resume, hpc, goto, setGuards, Guards.Live]
    | copy => simp [hpc, Pc.Fits] at hfits
  | loadCount a fresh =>
    refine ⟨2, le_rfl, .inr ?_⟩
    cases a with
    | borrow | borrowMut => simp [GilCell.resume, hpc, goto, hzero, setGuards, Guards.Live]
    | copy => simp [hpc, Pc.Fits] at hfits

/-- In every interleaving of the threads' loads and stores, only one thread at a time is inside the cell, and
a `RefMut` is alone; a borrow is refused only for guards of the thread that asks; whoever has the lock word
without a guard gives it up or gets one; and a cell without guards and accesses is as new. -/
theorem reachable_borrows {s : GilCell} (h : Reachable s) :
    (∀ t u, s.Inside t → s.Inside u → t = u) ∧ (∀ t, (s.guards t).refMut = true → (s.guards t).refs = 0) ∧
      (∀ t a fresh, s.pc t = .loadCount a fresh → s.borrow = (s.guards t).count) ∧
      (∀ t, s.owner = t → t ≠ 0 → ¬ (s.guards t).Live → ∃ k ≤ 2, ((fun s => s.resume t)^[k] s).owner = 0 ∨
        (((fun s => s.resume t)^[k] s).guards t).Live) ∧
      ((∀ t, s.pc t = .idle ∧ ¬ (s.guards t).Live) → s.owner = 0 ∧ s.borrow = 0) := by
  have hc := h.consistent
  refine ⟨fun t u ht hu => ?_, hc.sole, fun t a fresh hpc => ?_, fun t => hc.owner_leaves, fun hidle => ?_⟩
  · rw [← (hc.owner_of_inside ht).1, (hc.owner_of_inside hu).1]
  · have ht : t ≠ 0 := by
      rintro rfl
      simp [hc.nobody.1] at hpc
    exact hc.count_eq ((hc.owner t ht).mpr (by simp [hpc, Pc.Claims]))
  · have hown : s.owner = 0 := by
      by_contra hown
      have := (hc.owner _ hown).mp rfl
      rw [(hidle s.owner).1] at this
      exact (hidle s.owner).2 this
    exact ⟨hown, by rw [hc.borrow, hown, hc.nobody.2]; rfl⟩

/-- A thread has a `Ref`. -/
def borrowed : GilCell :=
  ((((new.goto 1 (Call.access .borrow).pc).resume 1).resume 1).resume 1).resume 1

theorem borrowed_reachable : Reachable borrowed :=
  have hcall : Reachable (new.goto 1 (Call.access .borrow).pc) := .call .new Nat.one_ne_zero rfl _ trivial
  .resume (.resume (.resume (.resume hcall)))

/-- Another thread is to wait for a `RefMut`. -/
def contended : GilCell := (borrowed.goto 2 (Call.access .borrowMut).pc).resume 2

theorem contended_reachable : Reachable contended :=
  .resume (.call borrowed_reachable (Nat.succ_ne_zero 1) rfl _ trivial)

theorem reachable_borrows_contended :
    contended.pc 2 = .exchange .borrowMut ∧ ∀ u, contended.Inside u → 1 = u :=
  ⟨rfl, fun u => (reachable_borrows contended_reachable).1 1 u (.inl (by decide))⟩

end GilCell

end WeavePy.Sync
