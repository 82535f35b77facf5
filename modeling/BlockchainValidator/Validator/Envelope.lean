import BlockchainValidator.Checkpoint.Certifier

/-! # The payload envelope and its byte codec -/

namespace BlockchainValidator

open Bytes Codec Execution Run

/-- Payloads larger than this fail to decode. -/
def maxPayloadSize : Nat := 1024 * 1024

/-! ## The derived format -/

def bytes32Codec : ExactCodec (List.Vector UInt8 32) := u8.read.array 32

def functionIdCodec : ExactCodec FunctionId :=
  bytes32Codec.map ⟨FunctionId.mk, FunctionId.bytes, fun _ => rfl, fun _ => rfl⟩

def objectIdCodec : ExactCodec ObjectId :=
  bytes32Codec.map ⟨ObjectId.mk, ObjectId.bytes, fun _ => rfl, fun _ => rfl⟩

def digestCodec : ExactCodec Digest :=
  bytes32Codec.map ⟨Digest.mk, Digest.bytes, fun _ => rfl, fun _ => rfl⟩

def accessModeEquiv : (Σ _ : Fin 3, Unit) ≃ AccessMode where
  toFun variant := match variant.1 with
    | 0 => .readOnly
    | 1 => .writeOnly
    | 2 => .readWrite
  invFun mode := match mode with
    | .readOnly => ⟨0, ()⟩
    | .writeOnly => ⟨1, ()⟩
    | .readWrite => ⟨2, ()⟩
  left_inv
    | ⟨0, _⟩ => rfl
    | ⟨1, _⟩ => rfl
    | ⟨2, _⟩ => rfl
  right_inv mode := by cases mode <;> rfl

def accessModeCodec : ExactCodec AccessMode :=
  (ExactCodec.variants (by decide) fun _ : Fin 3 => .unit).map accessModeEquiv

def inputCodec : ExactCodec (ObjectId × AccessMode) := objectIdCodec.pair accessModeCodec

def transactionCodec : ExactCodec Transaction :=
  (functionIdCodec.pair (inputCodec.vec.pair u8.read.vec)).map
    ⟨fun fields => ⟨fields.1, fields.2.1, fields.2.2⟩,
      fun transaction => (transaction.function, transaction.inputs, transaction.args),
      fun _ => rfl, fun _ => rfl⟩

/-! ## The layout of an input -/

theorem bytes32_encode (bytes : List.Vector UInt8 32) : bytes32Codec.encode bytes = bytes.toList :=
  bytes_encode bytes.toList

def modeTag : AccessMode → UInt32
  | .readOnly => 0
  | .writeOnly => 1
  | .readWrite => 2

theorem input_encode (id : ObjectId) (mode : AccessMode) :
    inputCodec.encode (id, mode) = id.bytes.toList ++ u32.encode (modeTag mode) := by
  change bytes32Codec.encode id.bytes ++ accessModeCodec.encode mode = _
  rw [bytes32_encode]
  cases mode <;> exact congrArg (id.bytes.toList ++ ·) (List.append_nil _)

theorem input_encode_length (input : ObjectId × AccessMode) :
    (inputCodec.encode input).length = 36 := by
  obtain ⟨id, mode⟩ := input
  rw [input_encode, List.length_append, id.bytes.toList_length, u32.encode_length]
  rfl

theorem inputs_encode_length (inputs : List (ObjectId × AccessMode)) :
    (inputs.flatMap inputCodec.encode).length = 36 * inputs.length := by
  induction inputs with
  | nil => rfl
  | cons input inputs ih =>
      rw [List.flatMap_cons, List.length_append, ih, input_encode_length, List.length_cons]
      omega

def executeHeader (timestampMs : UInt64) (function : FunctionId) : List UInt8 :=
  u64LeBytes timestampMs ++ u32.encode 0 ++ function.bytes.toList

theorem executeHeader_length (timestampMs : UInt64) (function : FunctionId) :
    (executeHeader timestampMs function).length = 44 := by
  rw [executeHeader, List.length_append, List.length_append, u64LeBytes_length, u32.encode_length,
    function.bytes.toList_length]
  rfl

section

variable [Dag]

inductive Payload where
  | execute (transaction : Transaction)
  | attest (checkpoint : Checkpoint)
deriving DecidableEq

structure Envelope where
  timestampMs : UInt64
  payload : Payload
deriving DecidableEq

def checkpointCodec : ExactCodec Checkpoint :=
  (Dag.referenceCodec.read.pair digestCodec).map
    ⟨fun fields => ⟨fields.1, fields.2⟩,
      fun checkpoint => (checkpoint.anchor, checkpoint.commitment), fun _ => rfl, fun _ => rfl⟩

def payloadFields : Fin 2 → Type
  | 0 => Transaction
  | 1 => Checkpoint

def payloadEquiv : (Σ variant, payloadFields variant) ≃ Payload where
  toFun
    | ⟨0, transaction⟩ => .execute transaction
    | ⟨1, checkpoint⟩ => .attest checkpoint
  invFun
    | .execute transaction => ⟨0, transaction⟩
    | .attest checkpoint => ⟨1, checkpoint⟩
  left_inv
    | ⟨0, _⟩ => rfl
    | ⟨1, _⟩ => rfl
  right_inv
    | .execute _ => rfl
    | .attest _ => rfl

def payloadVariants : (variant : Fin 2) → ExactCodec (payloadFields variant)
  | 0 => transactionCodec
  | 1 => checkpointCodec

def payloadCodec : ExactCodec Payload :=
  (ExactCodec.variants (by decide) payloadVariants).map payloadEquiv

def envelopeCodec : ExactCodec Envelope :=
  (u64.read.pair payloadCodec).map
    ⟨fun fields => ⟨fields.1, fields.2⟩, fun envelope => (envelope.timestampMs, envelope.payload),
      fun _ => rfl, fun _ => rfl⟩

namespace Envelope

def toBytes (envelope : Envelope) : List UInt8 := envelopeCodec.encode envelope

/-- Decodes under the size limit; trailing bytes are tolerated. -/
def fromBytes (bytes : List UInt8) : Except ErrorKind Envelope :=
  Prod.fst <$> envelopeCodec.decode ⟨bytes, maxPayloadSize⟩

/-! ## The layout of an encoding -/

theorem toBytes_execute (timestampMs : UInt64) (transaction : Transaction) :
    toBytes ⟨timestampMs, .execute transaction⟩ =
      executeHeader timestampMs transaction.function ++
        (u64LeBytes (UInt64.ofNat transaction.inputs.val.length) ++
          (transaction.inputs.val.flatMap inputCodec.encode ++
            (u64LeBytes (UInt64.ofNat transaction.args.val.length) ++ transaction.args.val))) := by
  change u64LeBytes timestampMs ++ (u32.encode 0 ++ (bytes32Codec.encode transaction.function.bytes ++
    ((u64LeBytes _ ++ _) ++ (u64LeBytes _ ++ transaction.args.val.flatMap u8.read.encode)))) = _
  rw [bytes32_encode, bytes_encode, executeHeader]
  simp only [List.append_assoc]
  rfl

theorem toBytes_attest (timestampMs : UInt64) (checkpoint : Checkpoint) :
    toBytes ⟨timestampMs, .attest checkpoint⟩ =
      u64LeBytes timestampMs ++ (u32.encode 1 ++
        (Dag.referenceCodec.encode checkpoint.anchor ++ checkpoint.commitment.bytes.toList)) := by
  change u64LeBytes timestampMs ++ (u32.encode 1 ++ (Dag.referenceCodec.encode checkpoint.anchor ++
    bytes32Codec.encode checkpoint.commitment.bytes)) = _
  rw [bytes32_encode]

/-! ## Exactness -/

theorem fromBytes_eq_ok {bytes : List UInt8} {envelope : Envelope} :
    fromBytes bytes = .ok envelope ↔
      (∃ tail, bytes = envelope.toBytes ++ tail) ∧ envelope.toBytes.length ≤ maxPayloadSize := by
  rw [fromBytes, map_eq_ok]
  constructor
  · intro accepted
    obtain ⟨⟨_, rest⟩, decoded, rfl⟩ := accepted
    obtain ⟨front, charged⟩ := (envelopeCodec.exact _ _ _).mp decoded
    exact ⟨⟨rest.bytes, front⟩, (Nat.le_add_right _ _).trans_eq charged.symm⟩
  · intro encoded
    obtain ⟨⟨tail, rfl⟩, fits⟩ := encoded
    exact ⟨_, envelopeCodec.decode_encode envelope tail maxPayloadSize fits, rfl⟩

/-! ## Malformed strings -/

/-- Strings with an unknown variant index, or with a length that exceeds the
bytes at hand or the limit. -/
inductive Malformed : List UInt8 → Prop where
  | payloadTag {timestampMs : UInt64} {tag : UInt32} {tail : List UInt8}
      (unknown : 2 ≤ tag.toNat) : Malformed (u64LeBytes timestampMs ++ (u32.encode tag ++ tail))
  | modeTag {timestampMs count : UInt64} {function : FunctionId}
      {inputs : List (ObjectId × AccessMode)} {id : ObjectId} {tag : UInt32} {tail : List UInt8}
      (before : inputs.length < count.toNat) (unknown : 3 ≤ tag.toNat) :
      Malformed (executeHeader timestampMs function ++ (u64LeBytes count ++
        (inputs.flatMap inputCodec.encode ++ (id.bytes.toList ++ (u32.encode tag ++ tail)))))
  | inputsLength {timestampMs count : UInt64} {function : FunctionId} {tail : List UInt8}
      (exceeds : tail.length < 36 * count.toNat ∨ maxPayloadSize < 52 + 36 * count.toNat) :
      Malformed (executeHeader timestampMs function ++ (u64LeBytes count ++ tail))
  | argsLength {timestampMs count argCount : UInt64} {function : FunctionId}
      {inputs : List (ObjectId × AccessMode)} {tail : List UInt8}
      (complete : inputs.length = count.toNat)
      (exceeds : tail.length < argCount.toNat ∨
        maxPayloadSize < 60 + 36 * inputs.length + argCount.toNat) :
      Malformed (executeHeader timestampMs function ++ (u64LeBytes count ++
        (inputs.flatMap inputCodec.encode ++ (u64LeBytes argCount ++ tail))))

section

variable {timestampMs count : UInt64} {function : FunctionId} {envelope : Envelope}
  {rest tail : List UInt8}

theorem toBytes_tag (envelope : Envelope) :
    ∃ tag rest, tag.toNat < 2 ∧
      envelope.toBytes = u64LeBytes envelope.timestampMs ++ (u32.encode tag ++ rest) := by
  obtain ⟨timestampMs, payload⟩ := envelope
  cases payload with
  | execute transaction =>
      have layout := toBytes_execute timestampMs transaction
      rw [executeHeader, List.append_assoc, List.append_assoc] at layout
      exact ⟨0, _, by decide, layout⟩
  | attest checkpoint => exact ⟨1, _, by decide, toBytes_attest timestampMs checkpoint⟩

theorem executeHeader_front
    (same : executeHeader timestampMs function ++ (u64LeBytes count ++ rest) =
      envelope.toBytes ++ tail) :
    ∃ transaction : Transaction,
      envelope.toBytes.length = 60 + 36 * transaction.inputs.val.length + transaction.args.val.length ∧
      count.toNat = transaction.inputs.val.length ∧
      rest = transaction.inputs.val.flatMap inputCodec.encode ++
        (u64LeBytes (UInt64.ofNat transaction.args.val.length) ++ (transaction.args.val ++ tail)) := by
  obtain ⟨stamp, payload⟩ := envelope
  cases payload with
  | attest checkpoint =>
      rw [toBytes_attest, executeHeader] at same
      simp only [List.append_assoc] at same
      obtain ⟨-, same⟩ := List.append_inj same (by simp)
      obtain ⟨tags, -⟩ := List.append_inj same (by simp [u32.encode_length])
      exact absurd (u32.encode_injective tags) (by decide)
  | execute transaction =>
      have length : (toBytes ⟨stamp, .execute transaction⟩).length =
          60 + 36 * transaction.inputs.val.length + transaction.args.val.length := by
        simp only [toBytes_execute, List.length_append, executeHeader_length, u64LeBytes_length,
          inputs_encode_length]
        omega
      rw [toBytes_execute] at same
      simp only [List.append_assoc] at same
      obtain ⟨-, same⟩ := List.append_inj same (by simp [executeHeader_length])
      obtain ⟨counts, rest⟩ := List.append_inj same (by simp)
      have bound := transaction.inputs.property
      rw [u64LeBytes_injective counts]
      exact ⟨transaction, length, by simpa using Nat.mod_eq_of_lt bound, rest⟩

theorem fromBytes_malformed {bytes : List UInt8} (malformed : Malformed bytes) :
    ∃ reason, fromBytes bytes = .error reason := by
  rw [exists_error_iff]
  intro accepted
  obtain ⟨envelope, accepted⟩ := accepted
  obtain ⟨⟨rest, same⟩, fits⟩ := fromBytes_eq_ok.mp accepted
  cases malformed with
  | payloadTag unknown =>
      obtain ⟨tag, more, known, layout⟩ := toBytes_tag envelope
      rw [layout] at same
      simp only [List.append_assoc] at same
      obtain ⟨-, same⟩ := List.append_inj same (by simp)
      obtain ⟨tags, -⟩ := List.append_inj same (by simp [u32.encode_length])
      rw [u32.encode_injective tags] at unknown
      omega
  | @modeTag _ _ _ inputs id tag tail before unknown =>
      obtain ⟨transaction, -, counts, layout⟩ := executeHeader_front same
      have inside : inputs.length < transaction.inputs.val.length := by omega
      obtain ⟨⟨id', mode⟩, split⟩ : ∃ input, transaction.inputs.val =
          transaction.inputs.val.take inputs.length ++
            input :: transaction.inputs.val.drop (inputs.length + 1) := by
        refine ⟨transaction.inputs.val[inputs.length], ?_⟩
        rw [List.getElem_cons_drop, List.take_append_drop]
      rw [split, List.flatMap_append, List.flatMap_cons, input_encode] at layout
      simp only [List.append_assoc] at layout
      obtain ⟨-, layout⟩ := List.append_inj layout (by
        rw [inputs_encode_length, inputs_encode_length, List.length_take]
        omega)
      obtain ⟨-, layout⟩ := List.append_inj layout (by simp)
      obtain ⟨tags, -⟩ := List.append_inj layout (by simp [u32.encode_length])
      rw [u32.encode_injective tags] at unknown
      cases mode <;> exact absurd unknown (by decide)
  | inputsLength exceeds =>
      obtain ⟨transaction, length, counts, layout⟩ := executeHeader_front same
      have bytes := congrArg List.length layout
      simp only [List.length_append, inputs_encode_length] at bytes
      omega
  | argsLength complete exceeds =>
      obtain ⟨transaction, length, counts, layout⟩ := executeHeader_front same
      obtain ⟨-, layout⟩ := List.append_inj layout (by
        rw [inputs_encode_length, inputs_encode_length]
        omega)
      obtain ⟨argCounts, layout⟩ := List.append_inj layout (by simp)
      have bound := transaction.args.property
      have argCount := congrArg UInt64.toNat (u64LeBytes_injective argCounts)
      rw [UInt64.toNat_ofNat_of_lt' bound] at argCount
      have bytes := congrArg List.length layout
      rw [List.length_append] at bytes
      omega

end

theorem codec_exact (bytes : List UInt8) (envelope : Envelope) :
    (fromBytes bytes = .ok envelope ↔
      (∃ tail, bytes = envelope.toBytes ++ tail) ∧ envelope.toBytes.length ≤ maxPayloadSize) ∧
    (fromBytes envelope.toBytes = .ok envelope ↔ envelope.toBytes.length ≤ maxPayloadSize) ∧
    (∀ other tail, envelope.toBytes = other.toBytes ++ tail → envelope = other ∧ tail = []) ∧
    (fromBytes bytes = .ok envelope → envelope.toBytes <+: bytes) ∧
    (Malformed bytes → ∃ reason, fromBytes bytes = .error reason) ∧
    envelope.toBytes.take 8 = u64LeBytes envelope.timestampMs := by
  refine ⟨fromBytes_eq_ok, ?_, ?_, ?_, fromBytes_malformed, ?_⟩
  · rw [fromBytes_eq_ok]
    exact and_iff_right ⟨[], (List.append_nil _).symm⟩
  · exact fun other tail same => envelopeCodec.prefix_free same
  · intro accepted
    obtain ⟨⟨tail, rfl⟩, -⟩ := fromBytes_eq_ok.mp accepted
    exact List.prefix_append _ _
  · exact List.take_left' (u64LeBytes_length _)

end Envelope

end

end BlockchainValidator
