import Mathlib.Data.List.Basic
import Mathlib.Tactic.Ring

/-! # Panics, machine integers and durations -/

namespace BlockchainValidator

/-- What can stop the process: every assertion and `expect` on the modelled
paths, and whatever an engine itself raises. -/
inductive Panic where
  | versionOverflow
  | versionsMustMoveForward
  | checkedByNextVersion
  | authorityNotFound
  | addOverflow
  | engine (message : String)
deriving DecidableEq, Repr

/-- How the build treats integer overflow: a checked build panics, the release
build wraps. -/
class BuildProfile where
  overflowChecks : Bool

@[reducible] def checkedBuild : BuildProfile := ⟨true⟩

@[reducible] def releaseBuild : BuildProfile := ⟨false⟩

def addU64 [BuildProfile] (left right : UInt64) : Except Panic UInt64 :=
  if BuildProfile.overflowChecks ∧ 2 ^ 64 ≤ left.toNat + right.toNat then .error .addOverflow
  else .ok (left + right)

theorem addU64_of_lt [BuildProfile] {left right : UInt64}
    (fits : left.toNat + right.toNat < 2 ^ 64) : addU64 left right = .ok (left + right) :=
  if_neg (fun overflow => by omega)

theorem addU64_error [BuildProfile] {left right : UInt64} {panic : Panic}
    (failed : addU64 left right = .error panic) : panic = .addOverflow := by
  unfold addU64 at failed
  split at failed
  · cases failed
    rfl
  · cases failed

theorem toNat_add_of_lt {left right : UInt64} (fits : left.toNat + right.toNat < 2 ^ 64) :
    (left + right).toNat = left.toNat + right.toNat := by
  rw [UInt64.toNat_add]
  exact Nat.mod_eq_of_lt fits

def sumU64 [BuildProfile] : UInt64 → List UInt64 → Except Panic UInt64
  | total, [] => .ok total
  | total, value :: values => do
      let total ← addU64 total value
      sumU64 total values

theorem addU64_eq_ok [BuildProfile] {left right sum : UInt64} :
    addU64 left right = .ok sum ↔
      sum = left + right ∧ (BuildProfile.overflowChecks = true → left.toNat + right.toNat < 2 ^ 64) := by
  unfold addU64
  split
  · rename_i overflow
    simp only [reduceCtorEq, false_iff, not_and]
    intro _ fits
    exact absurd (fits overflow.1) (Nat.not_lt.mpr overflow.2)
  · rename_i fits
    rw [Except.ok.injEq, eq_comm]
    refine (and_iff_left fun checked => ?_).symm
    exact Nat.lt_of_not_le fun overflow => fits ⟨checked, overflow⟩

/-- A checked sum is the wrapping one, and returns when the true sum fits. -/
theorem sumU64_eq_ok [BuildProfile] {total sum : UInt64} {values : List UInt64} :
    sumU64 total values = .ok sum ↔
      sum = values.foldl (· + ·) total ∧ (BuildProfile.overflowChecks = true →
        total.toNat + (values.map UInt64.toNat).sum < 2 ^ 64) := by
  induction values generalizing total with
  | nil =>
      have bound := total.toNat_lt
      rw [sumU64, Except.ok.injEq, eq_comm, List.foldl_nil]
      exact (and_iff_left fun _ => by simpa using bound).symm
  | cons value values ih =>
      have step : sumU64 total (value :: values) = .ok sum ↔
          ∃ middle, addU64 total value = .ok middle ∧ sumU64 middle values = .ok sum := by
        rw [sumU64]
        cases addU64 total value with
        | error panic => simp [bind, Except.bind]
        | ok middle => simp [bind, Except.bind]
      rw [step, List.foldl_cons, List.map_cons, List.sum_cons]
      simp only [addU64_eq_ok, ih]
      apply Iff.intro
      · intro summed
        obtain ⟨_, ⟨rfl, head⟩, same, tail⟩ := summed
        refine ⟨same, fun checked => ?_⟩
        have rest := tail checked
        rw [toNat_add_of_lt (head checked)] at rest
        omega
      · intro summed
        obtain ⟨same, fits⟩ := summed
        refine ⟨total + value, ⟨rfl, fun checked => ?_⟩, same, fun checked => ?_⟩
        · have whole := fits checked
          omega
        · have whole := fits checked
          rw [toNat_add_of_lt (by omega)]
          omega

theorem sumU64_of_lt [BuildProfile] {values : List UInt64}
    (fits : (values.map UInt64.toNat).sum < 2 ^ 64) : ∃ sum, sumU64 0 values = .ok sum := by
  have whole : (0 : UInt64).toNat + (values.map UInt64.toNat).sum < 2 ^ 64 :=
    (Nat.zero_add _).trans_lt fits
  exact ⟨_, sumU64_eq_ok.mpr ⟨rfl, fun _ => whole⟩⟩

theorem toNat_foldl_of_lt {total : UInt64} {values : List UInt64}
    (fits : total.toNat + (values.map UInt64.toNat).sum < 2 ^ 64) :
    (values.foldl (· + ·) total).toNat = total.toNat + (values.map UInt64.toNat).sum := by
  induction values generalizing total with
  | nil => rfl
  | cons value values ih =>
      rw [List.map_cons, List.sum_cons] at fits ⊢
      have head : (total + value).toNat = total.toNat + value.toNat := toNat_add_of_lt (by omega)
      rw [List.foldl_cons, ih (by omega), head, Nat.add_assoc]

theorem sumU64_exact [BuildProfile] {sum : UInt64} {values : List UInt64}
    (fits : (values.map UInt64.toNat).sum < 2 ^ 64) (summed : sumU64 0 values = .ok sum) :
    sum.toNat = (values.map UInt64.toNat).sum := by
  have whole : (0 : UInt64).toNat + (values.map UInt64.toNat).sum < 2 ^ 64 :=
    (Nat.zero_add _).trans_lt fits
  rw [(sumU64_eq_ok.mp summed).1, toNat_foldl_of_lt whole]
  exact Nat.zero_add _

structure Duration where
  nanos : Nat
deriving DecidableEq, Repr

namespace Duration

def zero : Duration := ⟨0⟩

def fromMillis (millis : UInt64) : Duration := ⟨millis.toNat * 1000000⟩

def saturatingSub (left right : Duration) : Duration := ⟨left.nanos - right.nanos⟩

end Duration

end BlockchainValidator
