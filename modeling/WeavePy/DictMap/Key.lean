import Mathlib.Algebra.Ring.Int.Defs
import Mathlib.Algebra.Ring.Nat
import Mathlib.Data.Int.Basic

namespace WeavePy.DictMap

/-- A `str`: its bytes, and whether its hash is already cached in it. -/
structure SharedStr where
  bytes : List UInt8
  hashed : Bool
  deriving DecidableEq, Repr

/-- The objects a table is keyed by: the kinds its native paths look at, and every other kind. -/
inductive Object (Ω : Type) where
  | str (s : SharedStr)
  | wstr (cps : List UInt32)
  | int (i : Int64)
  | other (o : Ω)

/-- The hashes and the equality the interpreter supplies; `generalEq` decides the pairs that
`DictKey`'s equality does not settle on strings or machine ints. -/
class KeyOps (Ω : Type) where
  pyStrHash : List UInt8 → Int64
  pyWstrHash : List UInt32 → Int64
  pyHashValue : Ω → Int64
  generalEq : Object Ω → Object Ω → Bool

def PY_HASH_BITS : ℕ := 61

/-- `sign * (|n| mod (2**61-1))`, folding the high bits, with `-1` remapped to `-2`. -/
def pyHashLongI64 (n : Int64) : Int64 :=
  let m : ℕ := 2 ^ PY_HASH_BITS - 1
  let a := n.toInt.natAbs
  let r := (a &&& m) + (a >>> PY_HASH_BITS)
  let r := if m ≤ r then r - m else r
  let x : ℤ := if n < 0 then -r else r
  Int64.ofInt (if x = -1 then -2 else x)

section Keys

variable {Ω : Type} [KeyOps Ω]

def dictKeyHash : Object Ω → Int64
  | .str s => KeyOps.pyStrHash Ω s.bytes
  | .wstr cps => KeyOps.pyWstrHash Ω cps
  | .int i => pyHashLongI64 i
  | .other o => KeyOps.pyHashValue o

/-- `DictKey`'s equality. -/
def dictKeyEq : Object Ω → Object Ω → Bool
  | .str a, .str b => a.bytes == b.bytes
  | .int a, .int b => a == b
  | .wstr a, .wstr b => a == b
  | .str _, .wstr _ => false
  | .wstr _, .str _ => false
  | a, b => KeyOps.generalEq a b

/-- The memoised hash of a `str` (`-1` in the cache means unknown). -/
def knownHash (Ω : Type) [KeyOps Ω] (s : SharedStr) : Option Int64 :=
  if s.hashed ∧ KeyOps.pyStrHash Ω s.bytes ≠ -1 then some (KeyOps.pyStrHash Ω s.bytes) else none

/-- A key a table can be probed with. -/
class Probe (Q : Type) (Ω : outParam Type) where
  probeHash : Q → Int64
  probeEq : Q → Object Ω → Bool
  probeEqUnhashed : Q → Object Ω → Option Bool := fun _ _ => none

instance : Probe (Object Ω) Ω where
  probeHash := dictKeyHash
  probeEq := dictKeyEq
  probeEqUnhashed
    | .str a, .str b => if knownHash Ω a = none then some (a.bytes == b.bytes) else none
    | .str a, .wstr _ => if knownHash Ω a = none then some false else none
    | _, _ => none

/-- The native comparisons `StrEq` and `IntEq`; `none` leaves the lookup undecided. -/
def strNativeEq (s : SharedStr) : Object Ω → Option Bool
  | .str b => some (s.bytes == b.bytes)
  | _ => none

def intNativeEq (i : Int64) : Object Ω → Option Bool
  | .int j => some (j == i)
  | _ => none

/-- Key equality is an equivalence, and equal keys have equal Python hashes. -/
class LawfulKeys (Ω : Type) [KeyOps Ω] : Prop where
  equiv : Equivalence fun a b : Object Ω => dictKeyEq a b = true
  hash_eq : ∀ a b : Object Ω, dictKeyEq a b = true → dictKeyHash a = dictKeyHash b

/-- A probe stands for a key: it hashes as the keys it equals do, its unhashed comparison agrees
with its equality, and it equals all of the keys equal to one it equals, and no other. -/
class LawfulProbe (Q : Type) (Ω : outParam Type) [KeyOps Ω] [Probe Q Ω] : Prop where
  hash_eq : ∀ (q : Q) (k : Object Ω), Probe.probeEq q k = true → Probe.probeHash q = dictKeyHash k
  unhashed : ∀ (q : Q) (k : Object Ω) (b : Bool),
    Probe.probeEqUnhashed q k = some b → b = Probe.probeEq q k
  eq_congr : ∀ (q : Q) (a b : Object Ω), Probe.probeEq q a = true →
    Probe.probeEq q b = dictKeyEq a b

instance [LawfulKeys Ω] : LawfulProbe (Object Ω) Ω where
  hash_eq := LawfulKeys.hash_eq
  unhashed := by
    intro q k b h
    cases q <;> cases k <;>
      simp only [Probe.probeEqUnhashed, reduceCtorEq, Option.ite_none_right_eq_some,
        Option.some.injEq] at h
    · exact h.2.symm
    · exact h.2.symm
  eq_congr := fun _ _ _ ha => Bool.eq_iff_iff.mpr
    ⟨LawfulKeys.equiv.trans (LawfulKeys.equiv.symm ha), LawfulKeys.equiv.trans ha⟩

theorem pyHashLongI64_of_lt {i : Int64} (h : i.toUInt64.toNat < 2 ^ 61 - 1) :
    pyHashLongI64 i = i := by
  have hnn : 0 ≤ i.toInt ∧ i.toInt < 2 ^ 61 - 1 := by
    have hb : i.toInt = (i.toUInt64.toNat : ℤ).bmod (2 ^ 64) :=
      BitVec.toInt_eq_toNat_bmod i.toBitVec
    rw [hb, Int.bmod_eq_of_le (by omega) (by omega)]
    omega
  have hneg : ¬ i < 0 := by
    rw [Int64.lt_iff_toInt_lt]
    simpa using hnn.1
  have hmask : i.toInt.natAbs &&& (2 ^ 61 - 1) = i.toInt.natAbs := by
    rw [Nat.and_two_pow_sub_one_eq_mod]
    exact Nat.mod_eq_of_lt (by omega)
  have hhigh : i.toInt.natAbs >>> 61 = 0 := by
    rw [Nat.shiftRight_eq_div_pow]
    exact Nat.div_eq_of_lt (by omega)
  have hlt : ¬ 2 ^ 61 - 1 ≤ i.toInt.natAbs := by omega
  have habs : (i.toInt.natAbs : ℤ) = i.toInt := Int.natAbs_of_nonneg hnn.1
  have hne : i.toInt ≠ -1 := by omega
  simp only [pyHashLongI64, PY_HASH_BITS, hmask, hhigh, Nat.add_zero, if_neg hneg, if_neg hlt,
    habs, if_neg hne, Int64.ofInt_toInt]

end Keys

end WeavePy.DictMap
