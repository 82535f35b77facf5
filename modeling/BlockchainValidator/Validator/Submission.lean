import BlockchainValidator.Library.Reorder
import BlockchainValidator.Validator.Stream

/-! # Submitted transactions

`submit` encodes without a bound what `execute_subdag` decodes with one.
-/

namespace BlockchainValidator

open Bytes Execution Run Reorder

/-- `as_millis() as u64`. -/
def Duration.asMillis (duration : Duration) : UInt64 := .ofNat (duration.nanos / 1000000)

/-- The payloads that are handed to the replica. -/
def ValidatorHandle.submit [Dag] (timestampUtc : Duration) (transactions : List Transaction) :
    List (List UInt8) :=
  transactions.map fun transaction => Envelope.toBytes ⟨timestampUtc.asMillis, .execute transaction⟩

namespace Execution.Transaction

/-- The length of the transaction's envelope. -/
def envelopeSize (transaction : Transaction) : Nat :=
  60 + 36 * transaction.inputs.val.length + transaction.args.val.length

end Execution.Transaction

section

variable [Dag]

namespace Envelope

theorem toBytes_execute_length (timestampMs : UInt64) (transaction : Transaction) :
    (toBytes ⟨timestampMs, .execute transaction⟩).length = transaction.envelopeSize := by
  rw [toBytes_execute]
  simp only [List.length_append, executeHeader_length, u64LeBytes_length, inputs_encode_length]
  rw [Transaction.envelopeSize]
  omega

theorem fromBytes_toBytes_iff {envelope : Envelope} :
    (∃ read, fromBytes envelope.toBytes = .ok read) ↔ envelope.toBytes.length ≤ maxPayloadSize := by
  apply Iff.intro
  · intro accepted
    obtain ⟨read, accepted⟩ := accepted
    obtain ⟨⟨tail, same⟩, fits⟩ := fromBytes_eq_ok.mp accepted
    rw [(envelopeCodec.prefix_free same).1]
    exact fits
  · intro fits
    exact ⟨envelope, fromBytes_eq_ok.mpr ⟨⟨[], (List.append_nil _).symm⟩, fits⟩⟩

theorem fromBytes_execute_iff {timestampMs : UInt64} {transaction : Transaction} :
    (∃ read, fromBytes (toBytes ⟨timestampMs, .execute transaction⟩) = .ok read) ↔
      transaction.envelopeSize ≤ maxPayloadSize := by
  rw [fromBytes_toBytes_iff, toBytes_execute_length]

end Envelope

/-! ## What the consumer decodes -/

theorem transactionsIn_decode_cons (item : Authority × List UInt8)
    (items : List (Authority × List UInt8)) :
    transactionsIn (decode (item :: items)) =
      transactionsIn (decode [item]) ++ transactionsIn (decode items) := by
  rw [decode, decode, decode, transactionsIn, transactionsIn, transactionsIn, ← List.filterMap_append,
    ← List.filterMap_append, List.singleton_append]

theorem Envelope.transactionsIn_execute {timestampMs : UInt64} {transaction : Transaction}
    (author : Authority) :
    transactionsIn (decode [(author, toBytes ⟨timestampMs, .execute transaction⟩)]) =
      if transaction.envelopeSize ≤ maxPayloadSize then [transaction] else [] := by
  split
  · rename_i fits
    have read : fromBytes (toBytes ⟨timestampMs, .execute transaction⟩) =
        .ok ⟨timestampMs, .execute transaction⟩ := by
      refine fromBytes_eq_ok.mpr ⟨⟨[], (List.append_nil _).symm⟩, ?_⟩
      rw [toBytes_execute_length]
      exact fits
    have kept : decode [(author, toBytes ⟨timestampMs, .execute transaction⟩)] =
        (author, ⟨timestampMs, .execute transaction⟩) :: decode [] :=
      ExecutionState.decode_cons_ok read
    rw [kept]
    rfl
  · rename_i oversized
    cases read : fromBytes (toBytes ⟨timestampMs, .execute transaction⟩) with
    | error reason =>
        have dropped : decode [(author, toBytes ⟨timestampMs, .execute transaction⟩)] = decode [] :=
          ExecutionState.decode_cons_error read
        rw [dropped]
        rfl
    | ok envelope => exact absurd (fromBytes_execute_iff.mp ⟨envelope, read⟩) oversized

theorem ValidatorHandle.submit_decoded {timestampUtc : Duration} {transactions : List Transaction}
    {ours : List (Authority × List UInt8)}
    (submitted : ours.map Prod.snd = submit timestampUtc transactions) :
    transactionsIn (decode ours) =
      transactions.filter fun transaction => transaction.envelopeSize ≤ maxPayloadSize := by
  induction transactions generalizing ours with
  | nil =>
      rw [List.map_eq_nil_iff.mp submitted]
      rfl
  | cons transaction transactions ih =>
      obtain ⟨⟨author, payload⟩, rest, rfl, encoded, submitted⟩ := List.map_eq_cons_iff.mp submitted
      dsimp only at encoded
      rw [transactionsIn_decode_cons, encoded, Envelope.transactionsIn_execute, ih submitted,
        List.filter_cons]
      split <;> simp [*]

theorem transactionsIn_deliveries (deliveries : List Delivery) :
    deliveries.flatMap (·.subdag.transactions) =
      transactionsIn (decode (deliveries.flatMap (·.subdag.payloads))) := by
  rw [transactionsIn, decode, List.filterMap_flatMap, List.filterMap_flatMap]
  rfl

/-! ## Submissions and executions -/

/-- Every submitted transaction decodes, is handed to the scheduler in its place
among the transactions of the `others` and adds to the executed count. -/
structure Lossless [Hasher] (timestampUtc : Duration) (transactions : List Transaction)
    (others : List (Authority × List UInt8)) (deliveries : List Delivery) (state : ExecutionState)
    (outcomes : List SubdagOutcome) (last : ExecutionState) : Prop where
  decoded : ∀ payload ∈ ValidatorHandle.submit timestampUtc transactions,
    ∃ envelope, Envelope.fromBytes payload = .ok envelope
  handed : Interleaved transactions (transactionsIn (decode others))
    (deliveries.flatMap (·.subdag.transactions))
  scheduled : state.scheduler.execute (deliveries.flatMap (·.subdag.transactions)) =
    .ok (outcomes.flatMap SubdagOutcome.statuses, last.scheduler)
  executed : (outcomes.map SubdagOutcome.executed).sum =
    transactions.length + (transactionsIn (decode others)).length

/-- A sub-dag of which nothing decodes changes nothing. -/
theorem ExecutionState.deliver_undecoded [Hasher] [BuildProfile] {state : ExecutionState}
    {delivery : Delivery} (nothing : decode delivery.subdag.payloads = []) :
    state.deliver delivery = .ok (⟨[], none, []⟩, state) := by
  have transactions : delivery.subdag.transactions = [] := by
    rw [CommittedSubDag.transactions, nothing]
    rfl
  have votes : delivery.subdag.votes = [] := by
    rw [CommittedSubDag.votes, nothing]
    rfl
  refine executeSubdag_ok.mpr ⟨[], state.scheduler, 0, [], state.certifier, ?_, ?_, ?_, ?_, rfl⟩
  · rw [CommittedSubDag.stamps, nothing]
    rfl
  · rw [transactions]
    rfl
  · rw [votes, CheckpointCertifier.mint, if_pos transactions]
    rfl
  · rw [CommittedSubDag.minted, if_pos transactions]

theorem ValidatorHandle.submit_lossless_iff [Hasher] [BuildProfile] {timestampUtc : Duration}
    {transactions : List Transaction} {ours others : List (Authority × List UInt8)}
    {deliveries : List Delivery} {state last : ExecutionState} {outcomes : List SubdagOutcome}
    (submitted : ours.map Prod.snd = submit timestampUtc transactions)
    (delivered : Interleaved ours others (deliveries.flatMap (·.subdag.payloads)))
    (ran : run ExecutionState.deliver state deliveries = .ok (outcomes, last)) :
    Lossless timestampUtc transactions others deliveries state outcomes last ↔
      ∀ transaction ∈ transactions, transaction.envelopeSize ≤ maxPayloadSize := by
  have handed : Interleaved (transactionsIn (decode ours)) (transactionsIn (decode others))
      (deliveries.flatMap (·.subdag.transactions)) := by
    rw [transactionsIn_deliveries]
    exact (delivered.filterMap _).filterMap _
  have executed : (outcomes.map SubdagOutcome.executed).sum =
      (transactionsIn (decode ours)).length + (transactionsIn (decode others)).length := by
    rw [ExecutionState.run_executed ran, ← handed.length, List.length_flatMap]
  rw [submit_decoded submitted] at handed executed
  apply Iff.intro
  · intro lossless transaction listed
    have counted := lossless.executed
    rw [executed, Nat.add_right_cancel_iff, List.length_filter_eq_length_iff] at counted
    exact of_decide_eq_true (counted transaction listed)
  · intro fits
    have all : (transactions.filter fun transaction => transaction.envelopeSize ≤ maxPayloadSize) =
        transactions :=
      List.filter_eq_self.mpr fun transaction listed => decide_eq_true (fits transaction listed)
    rw [all] at handed executed
    refine ⟨fun payload listed => ?_, handed, ExecutionState.run_scheduler ran, executed⟩
    obtain ⟨transaction, known, rfl⟩ := List.mem_map.mp listed
    exact Envelope.fromBytes_execute_iff.mpr (fits transaction known)

end

section

attribute [local instance] plainDag checkedBuild blake2b

open ExecutionState

private def carrying (payloads : List (List UInt8)) : Delivery :=
  ⟨⟨5⟩, plainReference 0 1, [((0 : UInt64), payloads)]⟩

private theorem carrying_oversized {transaction : Transaction}
    (oversized : maxPayloadSize < transaction.envelopeSize) :
    decode (carrying (ValidatorHandle.submit .zero [transaction])).subdag.payloads = [] := by
  cases read : Envelope.fromBytes (Envelope.toBytes ⟨Duration.zero.asMillis, .execute transaction⟩) with
  | error reason => exact decode_cons_error read
  | ok envelope =>
      have fits := Envelope.fromBytes_execute_iff.mp ⟨envelope, read⟩
      omega

/-- No inputs, and arguments that exceed the limit by one byte together with the
overhead of the envelope. -/
private def oversized : Transaction :=
  ⟨FakeFunctionId.abortId, .nil,
    ⟨.replicate (1024 * 1024 - 59) 0, by rw [List.length_replicate]; decide⟩⟩

theorem oversized_lost :
    ∃ outcomes last, run deliver (.new fakeExecutor (plainCommittee 1 (by decide)) 1)
        [carrying (ValidatorHandle.submit .zero [oversized])] = .ok (outcomes, last) ∧
      outcomes.map SubdagOutcome.executed = [0] ∧
      ¬ Lossless .zero [oversized] [] [carrying (ValidatorHandle.submit .zero [oversized])]
        (.new fakeExecutor (plainCommittee 1 (by decide)) 1) outcomes last := by
  have size : maxPayloadSize < oversized.envelopeSize := by
    have inputs : oversized.inputs.val.length = 0 := rfl
    have args : oversized.args.val.length = 1024 * 1024 - 59 := List.length_replicate
    rw [Transaction.envelopeSize, inputs, args, maxPayloadSize]
    omega
  refine ⟨[⟨[], none, []⟩], .new fakeExecutor (plainCommittee 1 (by decide)) 1, ?_, rfl, ?_⟩
  · refine run_idle fun delivery listed => ?_
    rw [List.mem_singleton.mp listed]
    exact deliver_undecoded (carrying_oversized size)
  · intro lossless
    have counted := lossless.executed
    simp [decode, transactionsIn, SubdagOutcome.executed] at counted

/-- The transaction of a plain stream beside the vote that the stream carries. -/
theorem plain_lossless :
    ∃ outcomes last, run deliver (.new fakeExecutor (plainCommittee 2 (by decide)) 2)
        ((plainStream FakeFunctionId.successId).map (⟨⟨5⟩, ·⟩)) = .ok (outcomes, last) ∧
      Lossless ⟨7000000⟩ [FakeTransaction.creation (.new 1)]
        [((1 : UInt64), Envelope.toBytes ⟨8, .attest ⟨plainReference 0 1, .default⟩⟩)]
        ((plainStream FakeFunctionId.successId).map (⟨⟨5⟩, ·⟩))
        (.new fakeExecutor (plainCommittee 2 (by decide)) 2) outcomes last := by
  obtain ⟨⟨outcomes, last⟩, ran⟩ : ∃ result, run deliver
      (.new fakeExecutor (plainCommittee 2 (by decide)) 2)
        ((plainStream FakeFunctionId.successId).map (⟨⟨5⟩, ·⟩)) = .ok result := ⟨_, rfl⟩
  have submitted : List.map Prod.snd
      [((0 : UInt64), Envelope.toBytes ⟨7, .execute (FakeTransaction.creation (.new 1))⟩)] =
        ValidatorHandle.submit ⟨7000000⟩ [FakeTransaction.creation (.new 1)] := rfl
  exact ⟨outcomes, last, ran,
    (ValidatorHandle.submit_lossless_iff submitted (.left (.right .nil)) ran).mpr (by decide)⟩

end

end BlockchainValidator
