import BlockchainValidator.Execution.Creation
import BlockchainValidator.Library.Triangular
import BlockchainValidator.Validator.Submission

/-! # The load generator -/

namespace BlockchainValidator

open Bytes Codec Execution Run Triangular

structure LoadGeneratorConfig where
  /-- Transactions per second. -/
  load : UInt64
  /-- The length of every envelope. -/
  transactionSize : UInt64

namespace LoadGeneratorConfig

/-- The generator submits once in 100 milliseconds. -/
def intervalsPerSecond : Nat := 1000 / 100

/-- `div_ceil`. -/
def transactionsPerInterval (config : LoadGeneratorConfig) : Nat :=
  (config.load.toNat + (intervalsPerSecond - 1)) / intervalsPerSecond

end LoadGeneratorConfig

/-- The `counter` and the `random` of the generator's loop. -/
structure IdStream where
  counter : UInt64
  random : UInt64
deriving DecidableEq

/-- The arguments and variables of the generator's loop. -/
structure TransactionGenerator where
  transactionsPerInterval : Nat
  argsLen : UInt64
  nameSpace : UInt64
  stream : IdStream

/-- What the generator's assertions refuse. -/
inductive LoadRefusal where
  | loadNotPositive
  | transactionSizeWithinOverhead
  | transactionSizeAboveCap
deriving DecidableEq, Repr

/-- What the generator uses of other crates: the number of an authority and the
first number of the random generator seeded with a number. -/
structure Seeding [Dag] where
  asU64 : Authority → UInt64
  firstRandom : UInt64 → UInt64

namespace TransactionGenerator

def authorityShift : UInt64 := 56

def randomMask : UInt64 := (1 <<< authorityShift) - 1

/-- `vec![0; args_len]`. -/
def zeros (argsLen : UInt64) : Vec UInt8 :=
  ⟨List.replicate argsLen.toNat 0, by rw [List.length_replicate]; exact argsLen.toNat_lt⟩

theorem zeros_length (argsLen : UInt64) : (zeros argsLen).val.length = argsLen.toNat :=
  List.length_replicate

section

variable [Dag]

/-- One creation of a fresh object, padded with `args`. -/
def transaction (timestampMs : UInt64) (id : ObjectId) (args : Vec UInt8) : Envelope :=
  ⟨timestampMs, .execute (FakeTransaction.successWithArgs [] [id] [] args (by simp))⟩

/-- The object id for one value of `random`. -/
def idFor (nameSpace random : UInt64) : ObjectId :=
  .new ((nameSpace <<< authorityShift) ||| (random &&& randomMask))

/-- The body of the loop in `fill_batch`. -/
def fillOne [BuildProfile] (timestampMs argsLen nameSpace : UInt64) (stream : IdStream) :
    Except Panic (List UInt8 × IdStream) := do
  let random := stream.random + stream.counter
  let counter ← addU64 stream.counter 1
  let envelope := transaction timestampMs (idFor nameSpace random) (zeros argsLen)
  .ok (envelope.toBytes, ⟨counter, random⟩)

def fillBatch [BuildProfile] (timestampMs : UInt64) (transactionsPerInterval : Nat)
    (argsLen nameSpace : UInt64) (stream : IdStream) :
    Except Panic (List (List UInt8) × IdStream) :=
  run (fun stream _ => fillOne timestampMs argsLen nameSpace stream) stream
    (List.range transactionsPerInterval)

/-- The envelope of a creation without arguments. -/
def overhead : UInt64 := .ofNat (transaction 0 (.new 0) .nil).toBytes.length

/-- Checks the configuration and seeds the stream of ids. -/
def start (seeding : Seeding) (seed : Authority) (config : LoadGeneratorConfig) :
    Except LoadRefusal TransactionGenerator :=
  if config.load = 0 then .error .loadNotPositive
  else if config.transactionSize ≤ overhead then .error .transactionSizeWithinOverhead
  else if maxPayloadSize < config.transactionSize.toNat then .error .transactionSizeAboveCap
  else .ok {
    transactionsPerInterval := config.transactionsPerInterval
    argsLen := config.transactionSize - overhead
    nameSpace := seeding.asU64 seed
    stream := ⟨0, seeding.firstRandom (seeding.asU64 seed)⟩ }

/-! ## The payloads -/

theorem transaction_length (timestampMs : UInt64) (id : ObjectId) (args : Vec UInt8) :
    (transaction timestampMs id args).toBytes.length = 96 + args.val.length := by
  rw [transaction, Envelope.toBytes_execute_length]
  rfl

theorem overhead_eq : overhead = 96 := by
  rw [overhead, transaction_length]
  rfl

/-- A generated payload decodes, and to a creation. -/
theorem transaction_decoded {timestampMs : UInt64} {id : ObjectId} {args : Vec UInt8}
    (fits : 96 + args.val.length ≤ maxPayloadSize) :
    ∃ created, Envelope.fromBytes (transaction timestampMs id args).toBytes =
      .ok ⟨timestampMs, .execute created⟩ ∧ SequentialScheduler.Creates created id := by
  refine ⟨_, Envelope.fromBytes_eq_ok.mpr ⟨⟨[], (List.append_nil _).symm⟩, ?_⟩, rfl, rfl⟩
  exact (transaction_length timestampMs id args).trans_le fits

/-- A payload that decodes to a creation of `id`. -/
def DecodesToCreation (payload : List UInt8) (id : ObjectId) : Prop :=
  ∃ timestampMs created, Envelope.fromBytes payload = .ok ⟨timestampMs, .execute created⟩ ∧
    SequentialScheduler.Creates created id

/-- The transactions of such payloads create the ids in order. -/
theorem creations_decoded {stream : List (Authority × List UInt8)} {ids : List ObjectId}
    (decoded : List.Forall₂ DecodesToCreation (stream.map Prod.snd) ids) :
    List.Forall₂ SequentialScheduler.Creates (transactionsIn (decode stream)) ids := by
  rw [List.forall₂_map_left_iff] at decoded
  induction decoded with
  | nil => exact .nil
  | @cons item id stream ids head _ ih =>
      obtain ⟨timestampMs, created, read, creates⟩ := head
      have kept : decode (item :: stream) = (item.1, ⟨timestampMs, .execute created⟩) :: decode stream :=
        ExecutionState.decode_cons_ok read
      rw [kept]
      exact .cons creates ih

end

/-! ## The stream of ids -/

/-- The stream after it has given `count` ids. -/
def streamAt (random : UInt64) (count : Nat) : IdStream :=
  ⟨.ofNat count, random + .ofNat (∑ i ∈ Finset.range count, i)⟩

/-- The id at a position of the stream. -/
def idAt (nameSpace random : UInt64) (position : Nat) : ObjectId :=
  idFor nameSpace (random + .ofNat (triangular position))

theorem streamAt_zero (random : UInt64) : streamAt random 0 = ⟨0, random⟩ := by
  rw [streamAt, Finset.range_zero, Finset.sum_empty]
  simp

theorem start_ok [Dag] {seeding : Seeding} {seed : Authority} {config : LoadGeneratorConfig}
    {generator : TransactionGenerator} (started : start seeding seed config = .ok generator) :
    generator.nameSpace = seeding.asU64 seed ∧
      generator.stream = streamAt (seeding.firstRandom (seeding.asU64 seed)) 0 ∧
      96 + generator.argsLen.toNat = config.transactionSize.toNat ∧
      config.transactionSize.toNat ≤ maxPayloadSize := by
  unfold start at started
  rw [overhead_eq] at started
  split at started
  · cases started
  split at started
  · cases started
  split at started
  · cases started
  rename_i above within
  cases started
  have larger : 96 < config.transactionSize := UInt64.not_le.mp above
  have less := UInt64.toNat_sub_of_le _ _ (UInt64.le_of_lt larger)
  have larger := UInt64.lt_iff_toNat_lt.mp larger
  refine ⟨rfl, (streamAt_zero _).symm, ?_, Nat.le_of_not_lt within⟩
  rw [less]
  exact Nat.add_sub_of_le (Nat.le_of_lt larger)

section

variable [Dag] [BuildProfile] {timestampMs argsLen nameSpace random : UInt64} {count position : Nat}

theorem fillOne_streamAt (room : position + 1 < 2 ^ 64) :
    fillOne timestampMs argsLen nameSpace (streamAt random position) =
      .ok ((transaction timestampMs (idAt nameSpace random position) (zeros argsLen)).toBytes,
        streamAt random (position + 1)) := by
  have below : position < 2 ^ 64 := by omega
  have counter : (UInt64.ofNat position).toNat = position := UInt64.toNat_ofNat_of_lt' below
  have fits : (UInt64.ofNat position).toNat + (1 : UInt64).toNat < 2 ^ 64 := by
    rw [counter]
    exact room
  have advanced : random + .ofNat (∑ i ∈ Finset.range position, i) + .ofNat position =
      random + .ofNat (triangular position) := by
    rw [triangular_eq_add, UInt64.ofNat_add, UInt64.add_assoc]
  have increased : UInt64.ofNat position + 1 = .ofNat (position + 1) := by
    rw [UInt64.ofNat_add]
    rfl
  rw [fillOne, streamAt]
  simp only [addU64_of_lt fits, bind_ok, advanced, increased]
  rfl

/-- A batch takes the next positions of the stream. -/
theorem fillBatch_streamAt (room : position + count < 2 ^ 64) :
    fillBatch timestampMs count argsLen nameSpace (streamAt random position) =
      .ok ((List.range' position count).map fun position =>
          (transaction timestampMs (idAt nameSpace random position) (zeros argsLen)).toBytes,
        streamAt random (position + count)) := by
  rw [fillBatch]
  induction count with
  | zero => rfl
  | succ count ih =>
      rw [List.range_succ, List.range'_concat, Nat.one_mul, List.map_append]
      refine run_concat_ok.mpr ⟨_, _, _, _, ih (by omega), ?_, rfl⟩
      exact fillOne_streamAt (by omega)

end

/-! ## Distinct ids -/

section

variable {nameSpace nameSpace' random random' : UInt64} {position position' : Nat}

theorem idFor_toNat (small : nameSpace.toNat < 256) (random : UInt64) :
    ((nameSpace <<< authorityShift) ||| (random &&& randomMask)).toNat =
      2 ^ 56 * nameSpace.toNat + random.toNat % 2 ^ 56 := by
  have shift : authorityShift.toNat = 56 := rfl
  have mask : randomMask.toNat = 2 ^ 56 - 1 := rfl
  have top : nameSpace.toNat <<< 56 < 2 ^ 64 := by
    rw [Nat.shiftLeft_eq]
    omega
  rw [UInt64.toNat_or, UInt64.toNat_shiftLeft, UInt64.toNat_and, shift, mask,
    Nat.and_two_pow_sub_one_eq_mod, Nat.mod_eq_of_lt top,
    ← Nat.shiftLeft_add_eq_or_of_lt (Nat.mod_lt _ (by decide)), Nat.shiftLeft_eq, Nat.mul_comm]

/-- The authority takes the high bits and the random stream the low ones. -/
theorem idFor_eq_iff (small : nameSpace.toNat < 256) (small' : nameSpace'.toNat < 256) :
    idFor nameSpace random = idFor nameSpace' random' ↔
      nameSpace = nameSpace' ∧ random.toNat ≡ random'.toNat [MOD 2 ^ 56] := by
  rw [idFor, idFor, ObjectId.new_injective.eq_iff, ← UInt64.toNat_inj, idFor_toNat small,
    idFor_toNat small', ← UInt64.toNat_inj, Nat.ModEq]
  omega

theorem random_modEq (random : UInt64) (grown : Nat) :
    (random + .ofNat grown).toNat ≡ random.toNat + grown [MOD 2 ^ 56] := by
  have multiple : 2 ^ 56 ∣ 2 ^ 64 := Nat.pow_dvd_pow 2 (by decide)
  rw [UInt64.toNat_add, UInt64.toNat_ofNat', Nat.add_mod_mod]
  exact (Nat.mod_modEq _ _).of_dvd multiple

/-- No id returns within 2 ^ 56 positions, and none occurs in two namespaces. -/
theorem idAt_eq_iff (small : nameSpace.toNat < 256) (small' : nameSpace'.toNat < 256)
    (bound : position < 2 ^ 56) (bound' : position' < 2 ^ 56)
    (seeded : nameSpace = nameSpace' → random = random') :
    idAt nameSpace random position = idAt nameSpace' random' position' ↔
      nameSpace = nameSpace' ∧ position = position' := by
  rw [idAt, idAt, idFor_eq_iff small small']
  apply Iff.intro
  · intro same
    obtain ⟨rfl, values⟩ := same
    obtain rfl := seeded rfl
    have grown := (random_modEq random _).symm.trans (values.trans (random_modEq random _))
    exact ⟨rfl, triangular_modEq bound bound' grown⟩
  · intro same
    obtain ⟨rfl, rfl⟩ := same
    rw [seeded rfl]
    exact ⟨rfl, rfl⟩

end

end TransactionGenerator

end BlockchainValidator
