import Mathlib.Logic.Function.Basic
import Mathlib.Tactic.Common

/-!
A value behind a mutex with a condition variable whose notifier wakes one thread after it has left the mutex.
-/

namespace WeavePy

/-- Where a thread is. -/
inductive WaitState where
  | outside
  /-- In the queue of the condition variable. -/
  | parked
  /-- Out of the queue, to look at the value again. -/
  | woken
  /-- It has changed the value and is to notify. -/
  | notifying

structure Monitor (τ σ : Type*) where
  value : σ
  place : τ → WaitState

namespace Monitor

variable {τ σ : Type*} {free : σ → Prop} {m m' : Monitor τ σ}

/-- No wakeup is lost: while the value is free and a thread is in the queue, another is on its way to take the
value or to wake one that will. -/
def Attended (free : σ → Prop) (m : Monitor τ σ) : Prop :=
  free m.value → ∀ u, m.place u = .parked → ∃ t, m.place t = .woken ∨ m.place t = .notifying

theorem attended_of_nobody {v : σ} : Attended free ⟨v, fun _ : τ => .outside⟩ := by
  rintro - u ⟨⟩

theorem attended_of_woken {t : τ} (h : m.place t = .woken) : Attended free m := fun _ _ _ => ⟨t, .inl h⟩

variable [DecidableEq τ]

def goto (m : Monitor τ σ) (t : τ) (p : WaitState) : Monitor τ σ := { m with place := Function.update m.place t p }

/-- One stay in the mutex, one wakeup or one notification, where the threads wait for a free value. -/
inductive Move (free : σ → Prop) : Monitor τ σ → Monitor τ σ → Prop
  | pass {m : Monitor τ σ} {t : τ} (v : σ) (h : m.place t = .outside) (hv : free v → free m.value) :
      Move free m ⟨v, m.place⟩
  | park {m : Monitor τ σ} {t : τ} (hm : ¬ free m.value) : Move free m (m.goto t .parked)
  | leave {m : Monitor τ σ} {t : τ} (v : σ) (hv : ¬ free v) :
      Move free m ({ m with value := v }.goto t .outside)
  | release {m : Monitor τ σ} {t : τ} (v : σ) (h : m.place t = .outside) :
      Move free m ({ m with value := v }.goto t .notifying)
  | wake {m : Monitor τ σ} {t : τ} : Move free m (m.goto t .woken)
  | notify {m : Monitor τ σ} {t u : τ} (ht : m.place t = .notifying) (hu : m.place u = .parked) :
      Move free m ((m.goto t .outside).goto u .woken)
  | notifyNobody {m : Monitor τ σ} {t : τ} (ht : m.place t = .notifying) (h : ∀ u, m.place u ≠ .parked) :
      Move free m (m.goto t .outside)

theorem Attended.move (h : Attended free m) (hmove : Move free m m') : Attended free m' := by
  cases hmove with
  | pass v ht hv => exact fun hfree u hu => h (hv hfree) u hu
  | park hm => exact fun hfree => absurd hfree hm
  | leave v hv => exact fun hfree => absurd hfree hv
  | @release t v ht => exact fun _ _ _ => ⟨t, .inr (Function.update_self ..)⟩
  | @wake t => exact attended_of_woken (Function.update_self t ..)
  | @notify t u ht hu => exact attended_of_woken (Function.update_self u ..)
  | @notifyNobody t ht hnobody =>
    intro hfree u hu
    by_cases hut : u = t
    · subst hut
      simp [goto] at hu
    · exact absurd (by simpa [goto, hut] using hu) (hnobody u)

end Monitor

end WeavePy
