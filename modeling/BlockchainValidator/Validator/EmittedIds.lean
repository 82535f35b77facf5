import BlockchainValidator.Validator.Generator

/-! # The ids that generators emit

A payload is a creation of one object.  The ids of the first 2 ^ 56 payloads of a
generator are distinct, and generators of distinct namespaces share none.
-/

namespace BlockchainValidator

open Codec Execution Run Triangular

/-- Pairs with one key and pairs with two keys are all pairs. -/
theorem pairwise_of_keys {α κ : Type} [DecidableEq κ] {Related : α → α → Prop} {key : α → κ}
    {items : List α} (within : ∀ value, (items.filter fun item => key item = value).Pairwise Related)
    (across : ∀ item ∈ items, ∀ other ∈ items, key item ≠ key other → Related item other) :
    items.Pairwise Related := by
  induction items with
  | nil => exact .nil
  | cons item items ih =>
      apply List.Pairwise.cons
      · intro other listed
        by_cases same : key item = key other
        · have head := within (key item)
          rw [List.filter_cons_of_pos (by simp), List.pairwise_cons] at head
          exact head.1 other (List.mem_filter.mpr ⟨listed, by simp [same]⟩)
        · exact across item (by simp) other (by simp [listed]) same
      · apply ih
        · intro value
          exact (within value).sublist ((List.sublist_cons_self item items).filter _)
        · intro first listed second listed'
          exact across first (by simp [listed]) second (by simp [listed'])

/-! ## The stream of ids, wrapping -/

def IdStream.advance (stream : IdStream) : IdStream :=
  ⟨stream.counter + 1, stream.random + stream.counter⟩

namespace TransactionGenerator

/-- The ids of the next `count` payloads. -/
def idsFrom (nameSpace : UInt64) (stream : IdStream) (count : Nat) : List ObjectId :=
  (List.range count).map fun position => idFor nameSpace (IdStream.advance^[position + 1] stream).random

section

variable {nameSpace random : UInt64} {stream : IdStream} {count more position position' : Nat}

theorem idsFrom_length : (idsFrom nameSpace stream count).length = count := by
  rw [idsFrom, List.length_map, List.length_range]

theorem idsFrom_add : idsFrom nameSpace stream (count + more) =
    idsFrom nameSpace stream count ++ idsFrom nameSpace (IdStream.advance^[count] stream) more := by
  rw [idsFrom, List.range_add, List.map_append, List.map_map, idsFrom, idsFrom]
  congr 2
  funext position
  have order : count + position + 1 = position + 1 + count := by omega
  rw [Function.comp_apply, order, Function.iterate_add_apply]

theorem advance_streamAt (random : UInt64) (position : Nat) :
    (streamAt random position).advance = streamAt random (position + 1) := by
  rw [streamAt, streamAt, IdStream.advance, Finset.sum_range_succ, UInt64.ofNat_add, UInt64.ofNat_add,
    UInt64.add_assoc]
  rfl

theorem advance_iterate (random : UInt64) (count : Nat) :
    IdStream.advance^[count] ⟨0, random⟩ = streamAt random count := by
  induction count with
  | zero => exact (streamAt_zero random).symm
  | succ count ih => rw [Function.iterate_succ_apply', ih, advance_streamAt]

theorem advance_counter (few : stream.counter.toNat + count < 2 ^ 64) :
    (IdStream.advance^[count] stream).counter.toNat = stream.counter.toNat + count := by
  induction count with
  | zero => rfl
  | succ count ih =>
      have earlier := ih (by omega)
      have one : (1 : UInt64).toNat = 1 := rfl
      rw [Function.iterate_succ_apply', IdStream.advance, toNat_add_of_lt (by omega), earlier, one]
      omega

/-- The ids from the start of a stream are those at its positions. -/
theorem idsFrom_zero (nameSpace random : UInt64) (count : Nat) :
    idsFrom nameSpace ⟨0, random⟩ count = (List.range count).map (idAt nameSpace random) := by
  rw [idsFrom]
  congr 1
  funext position
  rw [advance_iterate]
  rfl

theorem idFor_mod (nameSpace random : UInt64) :
    ((nameSpace <<< authorityShift) ||| (random &&& randomMask)).toNat % 2 ^ 56 =
      random.toNat % 2 ^ 56 := by
  have shift : authorityShift.toNat = 56 := rfl
  have mask : randomMask.toNat = 2 ^ 56 - 1 := rfl
  have multiple : 2 ^ 56 ∣ 2 ^ 64 := Nat.pow_dvd_pow 2 (by decide)
  have shifted : (nameSpace.toNat <<< 56 % 2 ^ 64) % 2 ^ 56 = 0 := by
    rw [Nat.mod_mod_of_dvd _ multiple, Nat.shiftLeft_eq, Nat.mul_mod_left]
  rw [UInt64.toNat_or, UInt64.toNat_shiftLeft, UInt64.toNat_and, shift, mask,
    Nat.and_two_pow_sub_one_eq_mod, Nat.or_mod_two_pow, shifted, Nat.zero_or, Nat.mod_mod]

/-- No id returns within 2 ^ 56 positions, in any namespace. -/
theorem idAt_injective (bound : position < 2 ^ 56) (bound' : position' < 2 ^ 56)
    (same : idAt nameSpace random position = idAt nameSpace random position') :
    position = position' := by
  rw [idAt, idAt, idFor, idFor, ObjectId.new_injective.eq_iff] at same
  have low := congrArg (·.toNat % 2 ^ 56) same
  rw [idFor_mod, idFor_mod] at low
  exact triangular_modEq bound bound' ((random_modEq random _).symm.trans (low.trans
    (random_modEq random _)))

theorem idsFrom_nodup (nameSpace random : UInt64) (count : Nat) :
    ((idsFrom nameSpace ⟨0, random⟩ count).take (2 ^ 56)).Nodup := by
  rw [idsFrom_zero, ← List.map_take, List.take_range]
  apply List.Nodup.map_on _ List.nodup_range
  intro position below position' below'
  rw [List.mem_range] at below below'
  exact idAt_injective (by omega) (by omega)

theorem idsFrom_disjoint {nameSpace' : UInt64} {stream' : IdStream} (small : nameSpace.toNat < 256)
    (small' : nameSpace'.toNat < 256) (apart : nameSpace ≠ nameSpace') :
    (idsFrom nameSpace stream count).Disjoint (idsFrom nameSpace' stream' more) := by
  intro id listed listed'
  obtain ⟨position, -, rfl⟩ := List.mem_map.mp listed
  obtain ⟨position', -, same⟩ := List.mem_map.mp listed'
  exact apart ((idFor_eq_iff small' small).mp same).1.symm

end

/-! ## Batches -/

section

variable [Dag]

/-- The payload has the size, and decodes to the creation of `id` with this stamp. -/
def Exact (size : Nat) (timestampMs : UInt64) (payload : List UInt8) (id : ObjectId) : Prop :=
  payload.length = size ∧ ∃ created, Envelope.fromBytes payload = .ok ⟨timestampMs, .execute created⟩ ∧
    created.verify = true ∧ created.inputs.val = [(id, .writeOnly)]

theorem transaction_exact {argsLen : UInt64} {size : Nat} (padded : 96 + argsLen.toNat = size)
    (fits : size ≤ maxPayloadSize) (timestampMs : UInt64) (id : ObjectId) :
    Exact size timestampMs (transaction timestampMs id (zeros argsLen)).toBytes id := by
  have length := transaction_length timestampMs id (zeros argsLen)
  rw [zeros_length, padded] at length
  have within : 96 + (zeros argsLen).val.length ≤ maxPayloadSize := by
    rw [zeros_length, padded]
    exact fits
  obtain ⟨created, decoded, creates⟩ := @transaction_decoded _ timestampMs id _ within
  have verified : created.verify = true := by
    rw [Transaction.verify_iff, creates.inputs]
    exact List.nodup_singleton id
  exact ⟨length, created, decoded, verified, creates.inputs⟩

variable [BuildProfile] {timestampMs argsLen nameSpace : UInt64} {stream : IdStream}
  {count : Nat}

theorem fillOne_ok {result : List UInt8 × IdStream} :
    fillOne timestampMs argsLen nameSpace stream = .ok result ↔
      (BuildProfile.overflowChecks = true → stream.counter.toNat + 1 < 2 ^ 64) ∧
      result = ((transaction timestampMs (idFor nameSpace stream.advance.random)
        (zeros argsLen)).toBytes, stream.advance) := by
  have one : (1 : UInt64).toNat = 1 := rfl
  simp only [fillOne, bind_eq_ok, addU64_eq_ok, one, Except.ok.injEq]
  apply Iff.intro
  · intro filled
    obtain ⟨_, ⟨rfl, room⟩, rfl⟩ := filled
    exact ⟨room, rfl⟩
  · intro filled
    obtain ⟨room, rfl⟩ := filled
    exact ⟨_, ⟨rfl, room⟩, rfl⟩

/-- A batch takes the next ids, unless the build checks the counter and it overflows. -/
theorem fillBatch_ok {result : List (List UInt8) × IdStream} :
    fillBatch timestampMs count argsLen nameSpace stream = .ok result ↔
      (BuildProfile.overflowChecks = true → stream.counter.toNat + count < 2 ^ 64) ∧
      result = ((idsFrom nameSpace stream count).map fun id =>
        (transaction timestampMs id (zeros argsLen)).toBytes, IdStream.advance^[count] stream) := by
  rw [fillBatch]
  induction count generalizing result with
  | zero =>
      have below := stream.counter.toNat_lt
      rw [List.range_zero, run, Except.ok.injEq, eq_comm]
      exact (and_iff_right fun _ => below).symm
  | succ count ih =>
      have last : idsFrom nameSpace stream (count + 1) = idsFrom nameSpace stream count ++
          [idFor nameSpace (IdStream.advance^[count] stream).advance.random] := by
        rw [idsFrom_add]
        rfl
      simp only [List.range_succ, run_concat_ok, ih, fillOne_ok]
      rw [last, List.map_append, Function.iterate_succ_apply']
      apply Iff.intro
      · intro filled
        obtain ⟨_, _, _, _, ⟨room, same⟩, ⟨next, same'⟩, rfl⟩ := filled
        cases same
        cases same'
        refine ⟨fun checked => ?_, rfl⟩
        have filled := next checked
        rw [advance_counter (room checked)] at filled
        exact filled
      · intro filled
        obtain ⟨room, rfl⟩ := filled
        refine ⟨_, _, _, _, ⟨fun checked => by have := room checked; omega, rfl⟩,
          ⟨fun checked => ?_, rfl⟩, rfl⟩
        have room := room checked
        rw [advance_counter (by omega)]
        exact room

/-- Nothing but the counter stops a batch. -/
theorem fillBatch_error {panic : Panic}
    (failed : fillBatch timestampMs count argsLen nameSpace stream = .error panic) :
    panic = .addOverflow := by
  obtain ⟨_, _, _, _, middle, -, -, stopped⟩ := run_error failed
  rw [fillOne] at stopped
  cases added : addU64 middle.counter 1 with
  | error reason =>
      simp only [added, bind_error, Except.error.injEq] at stopped
      exact stopped.symm.trans (addU64_error added)
  | ok counter => simp [added] at stopped

/-- A started generator emits what it is configured for, exactly as long as a
checked counter does not overflow.  Where it does, no batch is emitted. -/
theorem batch_exact_iff {seeding : Seeding} {seed : Authority} {config : LoadGeneratorConfig}
    {generator : TransactionGenerator} (started : start seeding seed config = .ok generator)
    (timestampMs nameSpace : UInt64) (stream : IdStream) (count : Nat) :
    ((∃ payloads next, fillBatch timestampMs count generator.argsLen nameSpace stream =
        .ok (payloads, next) ∧ payloads.length = count ∧
      List.Forall₂ (Exact config.transactionSize.toNat timestampMs) payloads
        (idsFrom nameSpace stream count)) ↔
      (BuildProfile.overflowChecks = true → stream.counter.toNat + count < 2 ^ 64)) ∧
    (¬ (BuildProfile.overflowChecks = true → stream.counter.toNat + count < 2 ^ 64) →
      fillBatch timestampMs count generator.argsLen nameSpace stream = .error .addOverflow) := by
  obtain ⟨-, -, padded, fits⟩ := start_ok started
  refine ⟨⟨fun emitted => ?_, fun room => ?_⟩, fun overflows => ?_⟩
  · obtain ⟨_, _, filled, -, -⟩ := emitted
    exact (fillBatch_ok.mp filled).1
  · refine ⟨_, _, fillBatch_ok.mpr ⟨room, rfl⟩, ?_, ?_⟩
    · rw [List.length_map, idsFrom_length]
    · rw [List.forall₂_map_left_iff, List.forall₂_same]
      intro id _
      exact transaction_exact padded fits timestampMs id
  · cases filled : fillBatch timestampMs count generator.argsLen nameSpace stream with
    | error panic => rw [fillBatch_error filled]
    | ok result => exact absurd (fillBatch_ok.mp filled).1 overflows

/-! ## Whole emissions -/

/-- The stamp and the number of payloads of one batch. -/
structure Batch where
  timestampMs : UInt64
  count : Nat

/-- The generator's loop over any batches. -/
def emit (argsLen nameSpace : UInt64) (stream : IdStream) (batches : List Batch) :
    Except Panic (List (List (List UInt8)) × IdStream) :=
  run (fun stream batch => fillBatch batch.timestampMs batch.count argsLen nameSpace stream) stream
    batches

end

variable [Dag]

/-- The payload is a creation of `id`. -/
def Carries (payload : List UInt8) (id : ObjectId) : Prop :=
  ∃ timestampMs args, payload = (transaction timestampMs id args).toBytes

theorem Carries.unique {payload : List UInt8} {id id' : ObjectId} (carries : Carries payload id)
    (carries' : Carries payload id') : id = id' := by
  obtain ⟨timestampMs, args, rfl⟩ := carries
  obtain ⟨timestampMs', args', same⟩ := carries'
  have equal := (envelopeCodec.prefix_free (same.trans (List.append_nil _).symm)).1
  simp only [transaction, FakeTransaction.successWithArgs, Envelope.mk.injEq, Payload.execute.injEq,
    Transaction.mk.injEq, Subtype.mk.injEq] at equal
  simpa using equal.2.2.1

/-- The payloads are creations of different objects. -/
def Apart (first second : List UInt8) : Prop :=
  ∀ id, Carries first id → ¬ Carries second id

theorem apart_iff {first second : List UInt8} {id id' : ObjectId} (carries : Carries first id)
    (carries' : Carries second id') : Apart first second ↔ id ≠ id' := by
  apply Iff.intro
  · intro apart same
    exact apart id carries (same ▸ carries')
  · intro different other carried carried'
    exact different ((carries.unique carried).trans (carried'.unique carries'))

theorem pairwise_apart_iff {payloads : List (List UInt8)} {ids : List ObjectId}
    (carries : List.Forall₂ Carries payloads ids) : payloads.Pairwise Apart ↔ ids.Nodup := by
  induction carries with
  | nil => simp
  | @cons payload id payloads ids head tail ih =>
      rw [List.pairwise_cons, List.nodup_cons, ih]
      apply and_congr_left
      intro _
      apply Iff.intro
      · intro apart listed
        obtain ⟨payload', listed', carries'⟩ := forall₂_mem tail.flip listed
        exact (apart_iff head carries').mp (apart payload' listed') rfl
      · intro absent payload' listed'
        obtain ⟨id', listed, carries'⟩ := forall₂_mem tail listed'
        exact (apart_iff head carries').mpr fun same => absent (same ▸ listed)

section

variable [BuildProfile] {argsLen nameSpace : UInt64} {stream last : IdStream} {batches : List Batch}
  {outputs : List (List (List UInt8))}

def total (batches : List Batch) : Nat := (batches.map Batch.count).sum

/-- However an emission is split into batches, its ids are the next of the stream. -/
theorem emit_carries (emitted : emit argsLen nameSpace stream batches = .ok (outputs, last)) :
    List.Forall₂ (fun payload id => Carries payload id ∧ payload.length = 96 + argsLen.toNat)
      outputs.flatten (idsFrom nameSpace stream (total batches)) := by
  induction batches generalizing stream outputs with
  | nil =>
      cases emitted
      exact .nil
  | cons batch batches ih =>
      obtain ⟨payloads, next, rest, _, filled, tail, same⟩ := run_cons_ok.mp emitted
      cases same
      obtain ⟨-, batched⟩ := fillBatch_ok.mp filled
      cases batched
      have split : total (batch :: batches) = batch.count + total batches := List.sum_cons
      rw [split, idsFrom_add, List.flatten_cons]
      apply List.rel_append _ (ih tail)
      rw [List.forall₂_map_left_iff, List.forall₂_same]
      intro id _
      exact ⟨⟨_, _, rfl⟩, by rw [transaction_length, zeros_length]⟩

theorem emit_returns (room : stream.counter.toNat + total batches < 2 ^ 64) :
    ∃ outputs last, emit argsLen nameSpace stream batches = .ok (outputs, last) := by
  induction batches generalizing stream with
  | nil => exact ⟨[], stream, rfl⟩
  | cons batch batches ih =>
      have split : total (batch :: batches) = batch.count + total batches := List.sum_cons
      have few : stream.counter.toNat + batch.count < 2 ^ 64 := by omega
      have next := advance_counter few
      obtain ⟨outputs, last, rest⟩ := @ih (IdStream.advance^[batch.count] stream) (by omega)
      exact ⟨_, last, run_cons_ok.mpr
        ⟨_, _, _, _, fillBatch_ok.mpr ⟨fun _ => by omega, rfl⟩, rest, rfl⟩⟩

/-- What a generator started for `authority` emits, in some batches. -/
def Generated (seeding : Seeding) (authority : Authority) (payloads : List (List UInt8)) : Prop :=
  ∃ config generator batches outputs last, start seeding authority config = .ok generator ∧
    emit generator.argsLen generator.nameSpace generator.stream batches = .ok (outputs, last) ∧
    outputs.flatten = payloads

variable {seeding : Seeding} {authority : Authority} {payloads : List (List UInt8)}

theorem Generated.carries (generated : Generated seeding authority payloads) :
    List.Forall₂ (fun payload id => Carries payload id ∧ payload.length ≤ maxPayloadSize) payloads
      (idsFrom (seeding.asU64 authority) ⟨0, seeding.firstRandom (seeding.asU64 authority)⟩
        payloads.length) := by
  obtain ⟨config, generator, batches, outputs, last, started, emitted, rfl⟩ := generated
  obtain ⟨nameSpace, seeded, padded, fits⟩ := start_ok started
  rw [nameSpace, seeded, streamAt_zero] at emitted
  have carried := emit_carries emitted
  have length := carried.length_eq
  rw [idsFrom_length] at length
  rw [length]
  apply carried.imp
  intro payload id carries
  exact ⟨carries.1, (carries.2.trans padded).trans_le fits⟩

end

/-- The payloads of the authorities' generators in some order, those of each
generator in its own. -/
structure Interleaving (authorities : Finset Authority) (payloads : Authority → List (List UInt8))
    (stream : List (Authority × List UInt8)) : Prop where
  authors : ∀ item ∈ stream, item.1 ∈ authorities
  order : ∀ authority ∈ authorities,
    (stream.filter fun item => item.1 = authority).map Prod.snd = payloads authority

section

variable {authorities : Finset Authority} {payloads : Authority → List (List UInt8)}
  {stream : List (Authority × List UInt8)}

theorem Interleaving.mem (interleaving : Interleaving authorities payloads stream)
    {item : Authority × List UInt8} (listed : item ∈ stream) : item.2 ∈ payloads item.1 := by
  rw [← interleaving.order item.1 (interleaving.authors item listed)]
  exact List.mem_map_of_mem (List.mem_filter.mpr ⟨listed, by simp⟩)

/-- Decoded in order, creations of `ids`. -/
theorem creations_of_carried {ids : List ObjectId}
    (carries : List.Forall₂ (fun item id => Carries item.2 id ∧ item.2.length ≤ maxPayloadSize)
      stream ids) :
    List.Forall₂ SequentialScheduler.Creates (transactionsIn (decode stream)) ids := by
  apply creations_decoded
  rw [List.forall₂_map_left_iff]
  apply carries.imp
  intro item id carried
  obtain ⟨⟨timestampMs, args, same⟩, fits⟩ := carried
  rw [same, transaction_length] at fits
  rw [same]
  exact ⟨timestampMs, transaction_decoded fits⟩

theorem exists_carried
    (carried : ∀ item ∈ stream, ∃ id, Carries item.2 id ∧ item.2.length ≤ maxPayloadSize) :
    ∃ ids, List.Forall₂ (fun item id => Carries item.2 id ∧ item.2.length ≤ maxPayloadSize)
      stream ids := by
  induction stream with
  | nil => exact ⟨[], .nil⟩
  | cons item stream ih =>
      obtain ⟨id, head⟩ := carried item (by simp)
      obtain ⟨ids, tail⟩ := ih fun later listed => carried later (by simp [listed])
      exact ⟨id :: ids, .cons head tail⟩

variable [BuildProfile] {seeding : Seeding}

/-- No two payloads of an interleaving create one object. -/
theorem Interleaving.apart (interleaving : Interleaving authorities payloads stream)
    (injective : Set.InjOn seeding.asU64 authorities)
    (small : ∀ authority ∈ authorities, (seeding.asU64 authority).toNat < 256)
    (generated : ∀ authority ∈ authorities, Generated seeding authority (payloads authority))
    (few : ∀ authority ∈ authorities, (payloads authority).length < 2 ^ 56) :
    stream.Pairwise fun item other => Apart item.2 other.2 := by
  have carries (authority : Authority) (member : authority ∈ authorities) :=
    (generated authority member).carries.imp fun _ _ carried => carried.1
  refine @pairwise_of_keys _ _ _ _ Prod.fst _ ?_ ?_
  · intro authority
    by_cases member : authority ∈ authorities
    · rw [← List.pairwise_map (f := Prod.snd), interleaving.order authority member,
        pairwise_apart_iff (carries authority member)]
      have distinct := idsFrom_nodup (seeding.asU64 authority)
        (seeding.firstRandom (seeding.asU64 authority)) (payloads authority).length
      rw [List.take_of_length_le] at distinct
      · exact distinct
      · rw [idsFrom_length]
        exact Nat.le_of_lt (few authority member)
    · have nothing : stream.filter (fun item => item.1 = authority) = [] := by
        rw [List.filter_eq_nil_iff]
        intro item listed same
        exact member (of_decide_eq_true same ▸ interleaving.authors item listed)
      rw [nothing]
      exact .nil
  · intro item listed other listed' different
    have member := interleaving.authors item listed
    have member' := interleaving.authors other listed'
    obtain ⟨id, emitted, carried⟩ := forall₂_mem (carries _ member) (interleaving.mem listed)
    obtain ⟨id', emitted', carried'⟩ := forall₂_mem (carries _ member') (interleaving.mem listed')
    rw [apart_iff carried carried']
    have apart : seeding.asU64 item.1 ≠ seeding.asU64 other.1 := fun same =>
      different (injective member member' same)
    intro same
    exact idsFrom_disjoint (small _ member) (small _ member') apart emitted (same ▸ emitted')

variable [Hasher]

/-- On an empty store each creation of an interleaving succeeds, at version 1. -/
theorem Interleaving.executes (interleaving : Interleaving authorities payloads stream)
    (injective : Set.InjOn seeding.asU64 authorities)
    (small : ∀ authority ∈ authorities, (seeding.asU64 authority).toNat < 256)
    (generated : ∀ authority ∈ authorities, Generated seeding authority (payloads authority))
    (few : ∀ authority ∈ authorities, (payloads authority).length < 2 ^ 56) :
    ∃ next, (SequentialScheduler.new fakeExecutor).execute (transactionsIn (decode stream)) =
        .ok (List.replicate stream.length .success, next) ∧
      ∀ item ∈ stream, ∃ id, Carries item.2 id ∧ next.store.latest id = some ⟨1⟩ := by
  have carried : ∀ item ∈ stream, ∃ id, Carries item.2 id ∧ item.2.length ≤ maxPayloadSize := by
    intro item listed
    have member := interleaving.authors item listed
    obtain ⟨id, -, carried⟩ := forall₂_mem (generated _ member).carries (interleaving.mem listed)
    exact ⟨id, carried⟩
  obtain ⟨ids, carries⟩ := exists_carried carried
  have creates := creations_of_carried carries
  have distinct : ids.Nodup := by
    have payloads : List.Forall₂ Carries (stream.map Prod.snd) ids := by
      rw [List.forall₂_map_left_iff]
      exact carries.imp fun _ _ carried => carried.1
    rw [← pairwise_apart_iff payloads, List.pairwise_map]
    exact interleaving.apart injective small generated few
  have vacant : ∀ id ∈ ids, InMemoryStore.default.latest id = none := fun _ _ => rfl
  obtain ⟨next, executed, latest⟩ :=
    SequentialScheduler.execute_creations creates distinct vacant
  refine ⟨⟨next, fakeExecutor⟩, ?_, fun item listed => ?_⟩
  · rw [List.map_const', creates.length_eq, ← carries.length_eq] at executed
    exact executed
  · obtain ⟨id, emitted, carried, -⟩ := forall₂_mem carries listed
    exact ⟨id, carried, (latest id).trans (if_pos emitted)⟩

end

/-- The first 2 ^ 56 ids in a namespace are distinct, ids in two small namespaces
are disjoint, and so any interleaving of few creations of each generator executes. -/
theorem generated_ids_never_collide [Hasher] [BuildProfile] :
    (∀ (argsLen nameSpace random : UInt64) (batches : List Batch),
      (total batches < 2 ^ 64 →
        ∃ outputs last, emit argsLen nameSpace ⟨0, random⟩ batches = .ok (outputs, last)) ∧
      ∀ outputs last, emit argsLen nameSpace ⟨0, random⟩ batches = .ok (outputs, last) →
        ∃ ids, List.Forall₂ Carries outputs.flatten ids ∧ (ids.take (2 ^ 56)).Nodup) ∧
    (∀ (argsLen argsLen' nameSpace nameSpace' : UInt64) (stream stream' last last' : IdStream)
      (batches batches' : List Batch) (outputs outputs' : List (List (List UInt8))),
      nameSpace.toNat < 256 → nameSpace'.toNat < 256 → nameSpace ≠ nameSpace' →
      emit argsLen nameSpace stream batches = .ok (outputs, last) →
      emit argsLen' nameSpace' stream' batches' = .ok (outputs', last') →
        ∀ payload ∈ outputs.flatten, ∀ payload' ∈ outputs'.flatten, Apart payload payload') ∧
    (∀ (seeding : Seeding) (authorities : Finset Authority) (payloads : Authority → List (List UInt8))
      (stream : List (Authority × List UInt8)), Set.InjOn seeding.asU64 authorities →
      (∀ authority ∈ authorities, (seeding.asU64 authority).toNat < 256) →
      (∀ authority ∈ authorities, Generated seeding authority (payloads authority)) →
      (∀ authority ∈ authorities, (payloads authority).length < 2 ^ 56) →
      Interleaving authorities payloads stream →
        ∃ next, (SequentialScheduler.new fakeExecutor).execute (transactionsIn (decode stream)) =
            .ok (List.replicate stream.length .success, next) ∧
          ∀ item ∈ stream, ∃ id, Carries item.2 id ∧ next.store.latest id = some ⟨1⟩) := by
  constructor
  · intro argsLen nameSpace random batches
    constructor
    · intro few
      exact emit_returns (by rw [UInt64.toNat_zero, Nat.zero_add]; exact few)
    · intro outputs last emitted
      exact ⟨_, (emit_carries emitted).imp fun _ _ carries => carries.1,
        idsFrom_nodup nameSpace random (total batches)⟩
  constructor
  · intro _ _ _ _ _ _ _ _ _ _ _ _ small small' different emitted emitted' payload listed payload' listed'
    obtain ⟨id, found, carries, -⟩ := forall₂_mem (emit_carries emitted) listed
    obtain ⟨id', found', carries', -⟩ := forall₂_mem (emit_carries emitted') listed'
    rw [apart_iff carries carries']
    intro same
    exact idsFrom_disjoint small small' different found (same ▸ found')
  · intro _ _ _ _ injective small generated few interleaving
    exact interleaving.executes injective small generated few

end TransactionGenerator

section

attribute [local instance] plainDag checkedBuild blake2b

open TransactionGenerator

private def numbered : Seeding := ⟨id, fun seed => seed * 0x9e3779b97f4a7c15⟩

private def smallLoad : LoadGeneratorConfig := ⟨10, 128⟩

/-- The last value of a counter is followed by a panic in a build that checks. -/
theorem counter_end_panics : ∃ generator, start numbered (0 : UInt64) smallLoad = .ok generator ∧
    fillBatch 1000 1 generator.argsLen 0 ⟨0xffffffffffffffff, 7⟩ = .error .addOverflow ∧
    ¬ ∃ payloads next, fillBatch 1000 1 generator.argsLen 0 ⟨0xffffffffffffffff, 7⟩ =
      .ok (payloads, next) ∧ payloads.length = 1 := by
  have stops (argsLen : UInt64) :
      fillBatch 1000 1 argsLen 0 ⟨0xffffffffffffffff, 7⟩ = .error .addOverflow := rfl
  refine ⟨_, rfl, stops _, ?_⟩
  intro emitted
  obtain ⟨_, _, filled, -⟩ := emitted
  rw [stops] at filled
  cases filled

/-- Three payloads, and no more than that in a checked build whose counter ends. -/
theorem batch_of_three : ∃ generator payloads next, start numbered (0 : UInt64) smallLoad = .ok generator ∧
    fillBatch 1000 3 generator.argsLen 5 ⟨0xfffffffffffffff0, 7⟩ = .ok (payloads, next) ∧
    payloads.length = 3 ∧ List.Forall₂ (Exact 128 1000) payloads
      (idsFrom 5 ⟨0xfffffffffffffff0, 7⟩ 3) ∧
    fillBatch 1000 16 generator.argsLen 5 ⟨0xfffffffffffffff0, 7⟩ = .error .addOverflow := by
  obtain ⟨generator, started⟩ : ∃ generator, start numbered (0 : UInt64) smallLoad = .ok generator :=
    ⟨_, rfl⟩
  obtain ⟨payloads, next, filled, count, exact⟩ :=
    (batch_exact_iff started 1000 5 ⟨0xfffffffffffffff0, 7⟩ 3).1.mpr (by decide)
  have stops := (batch_exact_iff started 1000 5 ⟨0xfffffffffffffff0, 7⟩ 16).2 (by decide)
  exact ⟨generator, payloads, next, started, filled, count, exact, stops⟩

private theorem one_generated (authority : UInt64) :
    ∃ payload, Generated numbered authority [payload] := by
  obtain ⟨generator, started⟩ : ∃ generator, start numbered authority smallLoad = .ok generator :=
    ⟨_, rfl⟩
  obtain ⟨-, seeded, -⟩ := start_ok started
  have room : generator.stream.counter.toNat + total [⟨1000, 1⟩] < 2 ^ 64 := by
    rw [seeded]
    change (0 : UInt64).toNat + 1 < 2 ^ 64
    decide
  obtain ⟨outputs, last, emitted⟩ : ∃ outputs last, emit generator.argsLen generator.nameSpace
      generator.stream [⟨1000, 1⟩] = .ok (outputs, last) := emit_returns room
  have length := (emit_carries emitted).length_eq
  rw [idsFrom_length] at length
  obtain ⟨payload, single⟩ := List.length_eq_one_iff.mp length
  exact ⟨payload, _, _, _, _, _, started, emitted, single⟩

theorem two_generators_interleaved : ∃ payload payload' next,
    Generated numbered (0 : UInt64) [payload] ∧ Generated numbered (1 : UInt64) [payload'] ∧
    (SequentialScheduler.new fakeExecutor).execute
        (transactionsIn (decode [((1 : UInt64), payload'), ((0 : UInt64), payload)])) =
      .ok ([.success, .success], next) := by
  obtain ⟨payload, generated⟩ := one_generated 0
  obtain ⟨payload', generated'⟩ := one_generated 1
  have both {claim : UInt64 → Prop} (zero : claim 0) (one : claim 1) :
      ∀ authority ∈ ({0, 1} : Finset UInt64), claim authority := by
    intro authority member
    rcases Finset.mem_insert.mp member with rfl | second
    · exact zero
    · exact Finset.mem_singleton.mp second ▸ one
  have few : 1 < 2 ^ 56 := by decide
  obtain ⟨next, executed, -⟩ := generated_ids_never_collide.2.2 numbered {(0 : UInt64), (1 : UInt64)}
    (fun authority => if authority = (0 : UInt64) then [payload] else [payload'])
    [((1 : UInt64), payload'), ((0 : UInt64), payload)] Function.injective_id.injOn
    (both (by decide) (by decide)) (both generated generated') (both few few)
    { authors := by simp
      order := both rfl rfl }
  exact ⟨payload, payload', next, generated, generated', executed⟩

end

end BlockchainValidator
