import BlockchainValidator.Machine
import BlockchainValidator.Library.Bytes
import Mathlib.Data.Vector.Basic

/-! # Object identifiers, versions and versioned objects -/

namespace BlockchainValidator.Execution

open Bytes

structure ObjectId where
  bytes : List.Vector UInt8 32
deriving DecidableEq

def ObjectId.new (value : UInt64) : ObjectId := ⟨key32 value⟩

theorem ObjectId.new_injective : Function.Injective ObjectId.new := by
  intro left right same
  exact key32_injective (ObjectId.mk.inj same)

structure Version where
  value : UInt64
deriving DecidableEq

namespace Version

def zero : Version := ⟨0⟩

def asU64 (version : Version) : UInt64 := version.value

instance : LT Version := ⟨fun left right => left.value < right.value⟩

instance (left right : Version) : Decidable (left < right) :=
  inferInstanceAs (Decidable (left.value < right.value))

/-- `Ord::max`: the second of two equal versions. -/
def max (left right : Version) : Version := if right < left then left else right

def next (version : Version) : Except Panic Version :=
  if version.value.toNat + 1 < 2 ^ 64 then .ok ⟨version.value + 1⟩
  else .error .versionOverflow

def toNat (version : Version) : Nat := version.value.toNat

theorem toNat_inj {left right : Version} : left.toNat = right.toNat ↔ left = right := by
  obtain ⟨left⟩ := left
  obtain ⟨right⟩ := right
  rw [Version.mk.injEq]
  exact UInt64.toNat_inj

theorem lt_iff {left right : Version} : left < right ↔ left.toNat < right.toNat :=
  UInt64.lt_iff_toNat_lt

theorem toNat_lt (version : Version) : version.toNat < 2 ^ 64 := version.value.toNat_lt

@[simp] theorem toNat_zero : zero.toNat = 0 := rfl

@[simp] theorem toNat_max (left right : Version) :
    (left.max right).toNat = Max.max left.toNat right.toNat := by
  unfold max
  split
  · rename_i above
    exact (Nat.max_eq_left (Nat.le_of_lt (lt_iff.mp above))).symm
  · rename_i below
    exact (Nat.max_eq_right (Nat.not_lt.mp (fun above => below (lt_iff.mpr above)))).symm

theorem next_eq_ok {version after : Version} :
    version.next = .ok after ↔ after.toNat = version.toNat + 1 := by
  have bound := after.toNat_lt
  unfold next
  split
  · rename_i fits
    have sum : (⟨version.value + 1⟩ : Version).toNat = version.toNat + 1 := by
      change (version.value + 1).toNat = version.value.toNat + 1
      rw [UInt64.toNat_add]
      exact Nat.mod_eq_of_lt fits
    rw [Except.ok.injEq, ← toNat_inj, sum]
    exact eq_comm
  · rename_i overflow
    simp only [reduceCtorEq, false_iff]
    intro same
    exact overflow (by simpa only [toNat] using same ▸ bound)

theorem next_eq_error {version : Version} {panic : Panic} :
    version.next = .error panic ↔ panic = .versionOverflow ∧ version.toNat + 1 = 2 ^ 64 := by
  have bound := version.toNat_lt
  unfold next
  split
  · rename_i fits
    simp only [reduceCtorEq, false_iff, not_and]
    intro _ same
    exact absurd fits (by rw [toNat] at same; omega)
  · rename_i overflow
    rw [Except.error.injEq, eq_comm]
    exact (and_iff_left (by rw [toNat] at *; omega)).symm

end Version

/-- A versioned object: opaque contents frozen at a specific version. -/
structure Object where
  id : ObjectId
  version : Version
  contents : List UInt8
deriving DecidableEq

end BlockchainValidator.Execution
