import BlockchainValidator.Library.Bytes
import BlockchainValidator.Library.Run
import Mathlib.Logic.Equiv.Basic

/-! # Exact codecs over a bounded reader

A reader holds the input that is left and how many bytes a size limit still
allows.  A codec is exact: it decodes a value precisely where the input starts
with that value's encoding and the limit admits it, and it leaves the rest.
Exactness is a field, so every codec built from the combinators below has it.
-/

namespace BlockchainValidator.Codec

open Bytes Run

structure Reader where
  bytes : List UInt8
  limit : Nat
deriving DecidableEq

inductive ErrorKind where
  | sizeLimit
  | unexpectedEof
  | custom
deriving DecidableEq, Repr

/-- A list whose length fits a 64-bit `usize`, as every `Vec` does. -/
abbrev Vec (α : Type) := { values : List α // values.length < 2 ^ 64 }

theorem length_lt_of_short {α : Type} {values : List α} (short : values.length ≤ 2) :
    values.length < 2 ^ 64 :=
  short.trans_lt (by decide)

abbrev Vec.nil {α : Type} : Vec α := ⟨[], length_lt_of_short (Nat.zero_le 2)⟩

abbrev Vec.singleton {α : Type} (value : α) : Vec α := ⟨[value], length_lt_of_short Nat.le.refl.step⟩

abbrev Vec.pair {α : Type} (first second : α) : Vec α := ⟨[first, second], length_lt_of_short (Nat.le_refl 2)⟩

structure FixedCodec (α : Type) where
  size : Nat
  encode : α → List UInt8
  decode : List UInt8 → Option α
  encode_length : ∀ value, (encode value).length = size
  decode_iff : ∀ bytes value, decode bytes = some value ↔ bytes = encode value

structure ExactCodec (α : Type) where
  encode : α → List UInt8
  decode : Reader → Except ErrorKind (α × Reader)
  exact : ∀ reader value rest, decode reader = .ok (value, rest) ↔
    reader.bytes = encode value ++ rest.bytes ∧
      reader.limit = (encode value).length + rest.limit

theorem FixedCodec.encode_injective {α : Type} (codec : FixedCodec α) :
    Function.Injective codec.encode := by
  intro left right same
  have decoded := (codec.decode_iff (codec.encode left) right).mpr same
  rw [(codec.decode_iff _ left).mpr rfl] at decoded
  exact Option.some.inj decoded

/-! ## Words -/

def FixedCodec.word {α : Type} (width : Nat) (toNat : α → Nat) (ofNat : Nat → α)
    (bound : ∀ value, toNat value < 256 ^ width)
    (ofNat_toNat : ∀ value, ofNat (toNat value) = value)
    (toNat_ofNat : ∀ number, number < 256 ^ width → toNat (ofNat number) = number) :
    FixedCodec α where
  size := width
  encode value := leBytes width (toNat value)
  decode bytes := if bytes.length = width then some (ofNat (leValue bytes)) else none
  encode_length value := leBytes_length width (toNat value)
  decode_iff bytes value := by
    constructor
    · intro decoded
      split at decoded
      · rename_i width_eq
        have value_eq := Option.some.inj decoded
        subst width value
        rw [toNat_ofNat _ (leValue_lt bytes), leBytes_leValue]
      · contradiction
    · intro same
      obtain rfl := same
      rw [if_pos (leBytes_length width (toNat value)), leValue_leBytes,
        Nat.mod_eq_of_lt (bound value), ofNat_toNat]

def u8 : FixedCodec UInt8 :=
  .word 1 UInt8.toNat UInt8.ofNat (fun value => value.toNat_lt) (by simp)
    (fun number bound => by simpa using Nat.mod_eq_of_lt bound)

def u32 : FixedCodec UInt32 :=
  .word 4 UInt32.toNat UInt32.ofNat (fun value => value.toNat_lt) (by simp)
    (fun number bound => by simpa using Nat.mod_eq_of_lt bound)

def u64 : FixedCodec UInt64 :=
  .word 8 UInt64.toNat UInt64.ofNat (fun value => value.toNat_lt) (by simp)
    (fun number bound => by simpa using Nat.mod_eq_of_lt bound)

def FixedCodec.pair {α β : Type} (first : FixedCodec α) (second : FixedCodec β) :
    FixedCodec (α × β) where
  size := first.size + second.size
  encode value := first.encode value.1 ++ second.encode value.2
  decode bytes :=
    match first.decode (bytes.take first.size), second.decode (bytes.drop first.size) with
    | some left, some right => some (left, right)
    | _, _ => none
  encode_length value := by rw [List.length_append, first.encode_length, second.encode_length]
  decode_iff bytes value := by
    obtain ⟨left, right⟩ := value
    constructor
    · intro decoded
      split at decoded
      · rename_i front back
        cases decoded
        rw [← (first.decode_iff _ _).mp front, ← (second.decode_iff _ _).mp back,
          List.take_append_drop]
      · contradiction
    · intro same
      obtain rfl := same
      have size := first.encode_length left
      have front : (first.encode left ++ second.encode right).take first.size =
          first.encode left := by rw [← size, List.take_left]
      have back : (first.encode left ++ second.encode right).drop first.size =
          second.encode right := by rw [← size, List.drop_left]
      simp only [front, back, (first.decode_iff _ left).mpr rfl, (second.decode_iff _ right).mpr rfl]

/-- One read of `size` bytes: the limit is charged before the input is read. -/
def FixedCodec.read {α : Type} (codec : FixedCodec α) : ExactCodec α where
  encode := codec.encode
  decode reader :=
    if reader.limit < codec.size then .error .sizeLimit
    else if reader.bytes.length < codec.size then .error .unexpectedEof
    else match codec.decode (reader.bytes.take codec.size) with
      | none => .error .custom
      | some value =>
          .ok (value, ⟨reader.bytes.drop codec.size, reader.limit - codec.size⟩)
  exact reader value rest := by
    obtain ⟨bytes, limit⟩ := reader
    obtain ⟨tail, left⟩ := rest
    have size := codec.encode_length value
    constructor
    · intro decoded
      dsimp only at decoded ⊢
      split at decoded
      · contradiction
      · split at decoded
        · contradiction
        · split at decoded
          · contradiction
          · rename_i allowed enough found taken
            simp only [Except.ok.injEq, Prod.mk.injEq, Reader.mk.injEq] at decoded
            obtain ⟨rfl, rfl, rfl⟩ := decoded
            have front := (codec.decode_iff _ _).mp taken
            refine ⟨by rw [← front, List.take_append_drop], ?_⟩
            omega
    · intro read
      obtain ⟨rfl, rfl⟩ := read
      have front : (codec.encode value ++ tail).take codec.size = codec.encode value := by
        rw [← size, List.take_left]
      have back : (codec.encode value ++ tail).drop codec.size = tail := by
        rw [← size, List.drop_left]
      have decoded := (codec.decode_iff _ value).mpr rfl
      dsimp only
      rw [if_neg (by omega), if_neg (by rw [List.length_append]; omega), front, back, decoded]
      simp only [size, Nat.add_sub_cancel_left]

theorem u8_encode (byte : UInt8) : u8.encode byte = [byte] := by
  have digit : UInt8.ofNat byte.toNat = byte := by simp
  change [UInt8.ofNat byte.toNat] = [byte]
  rw [digit]

theorem bytes_encode (bytes : List UInt8) : bytes.flatMap u8.read.encode = bytes := by
  induction bytes with
  | nil => rfl
  | cons byte bytes ih =>
      rw [List.flatMap_cons, ih]
      exact congrArg (· ++ bytes) (u8_encode byte)

namespace ExactCodec

variable {α β : Type}

/-! ## Combinators -/

/-- One format after the other, as the fields of a struct or a tuple. -/
def pair (first : ExactCodec α) (second : ExactCodec β) : ExactCodec (α × β) where
  encode value := first.encode value.1 ++ second.encode value.2
  decode reader := do
    let (left, reader) ← first.decode reader
    let (right, reader) ← second.decode reader
    .ok ((left, right), reader)
  exact reader value rest := by
    obtain ⟨left, right⟩ := value
    simp only [bind_eq_ok, Prod.exists, Except.ok.injEq, Prod.mk.injEq, first.exact, second.exact]
    constructor
    · intro read
      obtain ⟨_, middle, ⟨front, charged⟩, _, _, ⟨back, chargedToo⟩, ⟨rfl, rfl⟩, rfl⟩ := read
      refine ⟨by rw [front, back, List.append_assoc], ?_⟩
      rw [List.length_append]
      omega
    · intro spelled
      obtain ⟨bytes, limit⟩ := spelled
      rw [List.length_append] at limit
      exact ⟨left, ⟨second.encode right ++ rest.bytes, (second.encode right).length + rest.limit⟩,
        ⟨by rw [bytes, List.append_assoc], by rw [limit, Nat.add_assoc]⟩,
        right, rest, ⟨rfl, rfl⟩, ⟨rfl, rfl⟩, rfl⟩

def map (codec : ExactCodec α) (equiv : α ≃ β) : ExactCodec β where
  encode value := codec.encode (equiv.symm value)
  decode reader := (fun found => (equiv found.1, found.2)) <$> codec.decode reader
  exact reader value rest := by
    simp only [map_eq_ok, Prod.exists, Prod.mk.injEq, codec.exact]
    constructor
    · intro read
      obtain ⟨inner, _, decoded, rfl, rfl⟩ := read
      simpa using decoded
    · intro decoded
      exact ⟨equiv.symm value, rest, decoded, by simp, rfl⟩

def decodeVector (codec : ExactCodec α) :
    (count : Nat) → Reader → Except ErrorKind (List.Vector α count × Reader)
  | 0, reader => .ok (.nil, reader)
  | count + 1, reader => do
      let (value, reader) ← codec.decode reader
      let (values, reader) ← decodeVector codec count reader
      .ok (value ::ᵥ values, reader)

theorem decodeVector_exact (codec : ExactCodec α) {count : Nat} (reader rest : Reader)
    (values : List.Vector α count) :
    decodeVector codec count reader = .ok (values, rest) ↔
      reader.bytes = values.toList.flatMap codec.encode ++ rest.bytes ∧
        reader.limit = (values.toList.flatMap codec.encode).length + rest.limit := by
  induction count generalizing reader rest with
  | zero =>
      obtain ⟨bytes, limit⟩ := reader
      obtain ⟨_, _⟩ := rest
      simp [decodeVector, List.Vector.eq_nil values]
  | succ count ih =>
      obtain ⟨value, values, rfl⟩ := values.exists_eq_cons
      simp only [decodeVector, bind_eq_ok, Prod.exists, Except.ok.injEq, Prod.mk.injEq, codec.exact,
        ih, List.Vector.toList_cons, List.flatMap_cons]
      constructor
      · intro read
        obtain ⟨_, middle, ⟨front, charged⟩, _, _, ⟨back, chargedToo⟩, same, rfl⟩ := read
        have heads := congrArg List.Vector.head same
        have tails := congrArg List.Vector.tail same
        rw [List.Vector.head_cons, List.Vector.head_cons] at heads
        rw [List.Vector.tail_cons, List.Vector.tail_cons] at tails
        subst heads tails
        refine ⟨by rw [front, back, List.append_assoc], ?_⟩
        rw [List.length_append]
        omega
      · intro spelled
        obtain ⟨bytes, limit⟩ := spelled
        rw [List.length_append] at limit
        exact ⟨value, ⟨values.toList.flatMap codec.encode ++ rest.bytes,
            (values.toList.flatMap codec.encode).length + rest.limit⟩,
          ⟨by rw [bytes, List.append_assoc], by rw [limit, Nat.add_assoc]⟩,
          values, rest, ⟨rfl, rfl⟩, rfl, rfl⟩

/-- `count` values with no length in front, as a fixed-size array. -/
def array (codec : ExactCodec α) (count : Nat) : ExactCodec (List.Vector α count) where
  encode values := values.toList.flatMap codec.encode
  decode := codec.decodeVector count
  exact reader values rest := codec.decodeVector_exact reader rest values

def vec (codec : ExactCodec α) : ExactCodec (Vec α) where
  encode values := u64.encode (UInt64.ofNat values.val.length) ++ values.val.flatMap codec.encode
  decode reader := do
    let (length, reader) ← u64.read.decode reader
    let (values, reader) ← codec.decodeVector length.toNat reader
    .ok (⟨values.toList, by rw [values.toList_length]; exact length.toNat_lt⟩, reader)
  exact reader values rest := by
    obtain ⟨values, bound⟩ := values
    have length_eq : (UInt64.ofNat values.length).toNat = values.length := by
      simpa using Nat.mod_eq_of_lt bound
    simp only [bind_eq_ok, Prod.exists, Except.ok.injEq, Prod.mk.injEq, Subtype.mk.injEq,
      u64.read.exact, decodeVector_exact]
    constructor
    · intro read
      obtain ⟨length, middle, ⟨front, charged⟩, found, _, ⟨back, chargedToo⟩, rfl, rfl⟩ := read
      have header : UInt64.ofNat found.toList.length = length := by simp
      rw [header]
      refine ⟨by rw [front, back, List.append_assoc]; rfl, ?_⟩
      rw [List.length_append]
      change _ = (u64.encode length).length + _ at charged
      omega
    · intro spelled
      obtain ⟨bytes, limit⟩ := spelled
      rw [List.length_append] at limit
      exact ⟨UInt64.ofNat values.length, ⟨values.flatMap codec.encode ++ rest.bytes,
          (values.flatMap codec.encode).length + rest.limit⟩,
        ⟨by rw [bytes, List.append_assoc]; rfl, limit.trans (by rw [Nat.add_assoc]; rfl)⟩,
        ⟨values, length_eq.symm⟩, rest, ⟨rfl, rfl⟩, rfl, rfl⟩

/-- A `u32` variant index and then that variant's fields, as an enum. -/
def variants {count : Nat} (small : count < 2 ^ 32) {fields : Fin count → Type}
    (codecs : (index : Fin count) → ExactCodec (fields index)) :
    ExactCodec (Σ index, fields index) where
  encode value := u32.encode (UInt32.ofNat value.1) ++ (codecs value.1).encode value.2
  decode reader := do
    let (tag, reader) ← u32.read.decode reader
    if known : tag.toNat < count then do
      let (value, reader) ← (codecs ⟨tag.toNat, known⟩).decode reader
      .ok (⟨⟨tag.toNat, known⟩, value⟩, reader)
    else .error .custom
  exact reader value rest := by
    obtain ⟨index, value⟩ := value
    have tag_eq : (UInt32.ofNat index).toNat = index := by
      simpa using Nat.mod_eq_of_lt (Nat.lt_trans index.isLt small)
    simp only [bind_eq_ok, Prod.exists, u32.read.exact]
    constructor
    · intro read
      obtain ⟨tag, middle, ⟨front, charged⟩, body⟩ := read
      split at body
      · rename_i known
        simp only [bind_eq_ok, Prod.exists, Except.ok.injEq, Prod.mk.injEq,
          (codecs _).exact] at body
        obtain ⟨inner, _, ⟨back, chargedToo⟩, same, rfl⟩ := body
        cases same
        have tag_val : UInt32.ofNat tag.toNat = tag := by simp
        rw [tag_val]
        refine ⟨by rw [front, back, List.append_assoc]; rfl, ?_⟩
        rw [List.length_append]
        have header : u32.read.encode tag = u32.encode tag := rfl
        rw [header] at charged
        omega
      · contradiction
    · intro spelled
      obtain ⟨bytes, limit⟩ := spelled
      rw [List.length_append] at limit
      refine ⟨UInt32.ofNat index, ⟨(codecs index).encode value ++ rest.bytes,
        ((codecs index).encode value).length + rest.limit⟩,
        ⟨by rw [bytes, List.append_assoc]; rfl, limit.trans (by rw [Nat.add_assoc]; rfl)⟩, ?_⟩
      have known : (UInt32.ofNat index).toNat < count := by rw [tag_eq]; exact index.isLt
      have index_eq : (⟨(UInt32.ofNat index).toNat, known⟩ : Fin count) = index := Fin.ext tag_eq
      rw [dif_pos known]
      simp only [bind_eq_ok, Prod.exists, Except.ok.injEq, Prod.mk.injEq, (codecs _).exact]
      rw [index_eq]
      exact ⟨value, rest, ⟨rfl, rfl⟩, rfl, rfl⟩

def unit : ExactCodec Unit where
  encode _ := []
  decode reader := .ok ((), reader)
  exact reader value rest := by
    obtain ⟨_, _⟩ := reader
    obtain ⟨_, _⟩ := rest
    simp

/-! ## Consequences of exactness -/

theorem decode_encode (codec : ExactCodec α) (value : α) (tail : List UInt8) (limit : Nat)
    (fits : (codec.encode value).length ≤ limit) :
    codec.decode ⟨codec.encode value ++ tail, limit⟩ =
      .ok (value, ⟨tail, limit - (codec.encode value).length⟩) :=
  (codec.exact _ _ _).mpr ⟨rfl, by dsimp only; omega⟩

theorem prefix_free (codec : ExactCodec α) {left right : α} {tail : List UInt8}
    (same : codec.encode left = codec.encode right ++ tail) : left = right ∧ tail = [] := by
  have length := congrArg List.length same
  rw [List.length_append] at length
  have whole := codec.decode_encode left [] (codec.encode left).length (Nat.le_refl _)
  have front := codec.decode_encode right tail (codec.encode left).length (by omega)
  rw [← same] at front
  rw [List.append_nil, front] at whole
  simp only [Except.ok.injEq, Prod.mk.injEq, Reader.mk.injEq] at whole
  exact ⟨whole.1.symm, whole.2.1⟩

end ExactCodec

end BlockchainValidator.Codec
