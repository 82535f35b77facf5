import Mathlib.Tactic.Ring
import Mathlib.Data.List.Basic
import Mathlib.Data.Vector.Basic

/-! # Fixed-width integers as bytes -/

namespace BlockchainValidator.Bytes

/-- The `width` lowest base-256 digits of `value`, least significant first. -/
def leBytes : Nat → Nat → List UInt8
  | 0, _ => []
  | width + 1, value => UInt8.ofNat value :: leBytes width (value / 256)

def leValue : List UInt8 → Nat
  | [] => 0
  | byte :: bytes => byte.toNat + 256 * leValue bytes

@[simp] theorem leBytes_length (width value : Nat) : (leBytes width value).length = width := by
  induction width generalizing value with
  | zero => rfl
  | succ width ih => simp [leBytes, ih]

theorem leValue_leBytes (width value : Nat) :
    leValue (leBytes width value) = value % 256 ^ width := by
  induction width generalizing value with
  | zero => simp [leBytes, leValue, Nat.mod_one]
  | succ width ih =>
      have byte : (UInt8.ofNat value).toNat = value % 256 := by simp
      rw [leBytes, leValue, ih, byte, Nat.pow_succ, Nat.mul_comm (256 ^ width) 256, Nat.mod_mul]

theorem leValue_lt (bytes : List UInt8) : leValue bytes < 256 ^ bytes.length := by
  induction bytes with
  | nil => simp [leValue]
  | cons byte bytes ih =>
      have bound := byte.toNat_lt
      rw [leValue, List.length_cons, Nat.pow_succ]
      omega

theorem leBytes_leValue (bytes : List UInt8) : leBytes bytes.length (leValue bytes) = bytes := by
  induction bytes with
  | nil => rfl
  | cons byte bytes ih =>
      have bound : byte.toNat < 256 := byte.toNat_lt
      have quotient : (byte.toNat + 256 * leValue bytes) / 256 = leValue bytes := by omega
      have digit : UInt8.ofNat (byte.toNat + 256 * leValue bytes) = byte := by
        apply UInt8.toNat_inj.mp
        rw [UInt8.toNat_ofNat']
        omega
      rw [List.length_cons, leValue, leBytes, quotient, ih, digit]

def u64LeBytes (value : UInt64) : List UInt8 := leBytes 8 value.toNat

def u64BeBytes (value : UInt64) : List UInt8 := (leBytes 8 value.toNat).reverse

@[simp] theorem u64LeBytes_length (value : UInt64) : (u64LeBytes value).length = 8 := by
  simp [u64LeBytes]

@[simp] theorem u64BeBytes_length (value : UInt64) : (u64BeBytes value).length = 8 := by
  simp [u64BeBytes]

theorem leValue_u64LeBytes (value : UInt64) : leValue (u64LeBytes value) = value.toNat := by
  rw [u64LeBytes, leValue_leBytes]
  exact Nat.mod_eq_of_lt value.toNat_lt

theorem u64LeBytes_injective : Function.Injective u64LeBytes := by
  intro left right same
  have values := congrArg leValue same
  rw [leValue_u64LeBytes, leValue_u64LeBytes] at values
  exact UInt64.toNat_inj.mp values

theorem u64BeBytes_injective : Function.Injective u64BeBytes := by
  intro left right same
  exact u64LeBytes_injective (List.reverse_injective same)

/-- The 32-byte key whose last eight bytes are `value`, big-endian. -/
def key32 (value : UInt64) : List.Vector UInt8 32 :=
  ⟨List.replicate 24 0 ++ u64BeBytes value, by simp⟩

theorem key32_injective : Function.Injective key32 := by
  intro left right same
  exact u64BeBytes_injective (List.append_cancel_left (Subtype.mk.inj same))

end BlockchainValidator.Bytes
