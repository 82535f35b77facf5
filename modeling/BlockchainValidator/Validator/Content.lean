import BlockchainValidator.Validator.Driver
import BlockchainValidator.Validator.TwoPass

/-! # What a stream decides

Execution, minting and certification follow from the decoded contents of a
stream.  The stamps that clients choose, the payloads that do not decode, the
bytes behind an envelope and the clocks of the validator have no part in them.
-/

namespace BlockchainValidator

open Bytes Execution Run

section

variable [Dag]

def contentsIn (decoded : List (Authority × Envelope)) : List (Authority × Payload) :=
  decoded.map fun item => (item.1, item.2.payload)

/-- The decoded payloads with their authors, without their stamps. -/
def CommittedSubDag.contents (subdag : CommittedSubDag) : List (Authority × Payload) :=
  contentsIn subdag.decodable

structure SameContents (delivery other : Delivery) : Prop where
  anchor : other.subdag.anchor = delivery.subdag.anchor
  contents : other.subdag.contents = delivery.subdag.contents

/-! ## Restamping a payload -/

/-- The payload with another stamp in its first eight bytes. -/
def restamp (stampMs : UInt64) (payload : List UInt8) : List UInt8 :=
  u64LeBytes stampMs ++ payload.drop 8

def Restamped (item item' : Authority × List UInt8) : Prop :=
  8 ≤ item.2.length ∧ ∃ stampMs, item' = (item.1, restamp stampMs item.2)

section

variable {payload : List UInt8} {envelope : Envelope} {items items' : List (Authority × List UInt8)}

theorem Envelope.toBytes_stamp (envelope : Envelope) :
    envelope.toBytes = u64LeBytes envelope.timestampMs ++ payloadCodec.encode envelope.payload := rfl

omit [Dag] in
theorem exists_stamp (whole : 8 ≤ payload.length) :
    ∃ stampMs, payload = u64LeBytes stampMs ++ payload.drop 8 := by
  have width : (payload.take 8).length = 8 := List.length_take_of_le whole
  have bound := leValue_lt (payload.take 8)
  rw [width] at bound
  refine ⟨.ofNat (leValue (payload.take 8)), ?_⟩
  have value : (UInt64.ofNat (leValue (payload.take 8))).toNat = leValue (payload.take 8) := by
    rw [UInt64.toNat_ofNat']
    exact Nat.mod_eq_of_lt bound
  have front := leBytes_leValue (payload.take 8)
  rw [width] at front
  rw [u64LeBytes, value, front, List.take_append_drop]

/-- What decoded still does, with the new stamp, and nothing else does. -/
theorem Envelope.fromBytes_restamp {stampMs : UInt64} (whole : 8 ≤ payload.length) :
    fromBytes (restamp stampMs payload) = .ok envelope ↔
      envelope.timestampMs = stampMs ∧ ∃ old, fromBytes payload = .ok ⟨old, envelope.payload⟩ := by
  obtain ⟨own, split⟩ := exists_stamp whole
  simp only [fromBytes_eq_ok, toBytes_stamp, restamp, List.append_assoc, List.length_append,
    u64LeBytes_length]
  apply Iff.intro
  · rintro ⟨⟨tail, same⟩, fits⟩
    obtain ⟨stamps, rest⟩ := List.append_inj same (by simp only [u64LeBytes_length])
    refine ⟨(u64LeBytes_injective stamps).symm, own, ⟨tail, ?_⟩, fits⟩
    rw [← rest]
    exact split
  · rintro ⟨rfl, old, ⟨tail, same⟩, fits⟩
    refine ⟨⟨tail, ?_⟩, fits⟩
    rw [split] at same
    obtain ⟨-, rest⟩ := List.append_inj same (by simp only [u64LeBytes_length])
    rw [rest]

theorem contents_restamped (restamped : List.Forall₂ Restamped items items') :
    contentsIn (decode items') = contentsIn (decode items) := by
  induction restamped with
  | nil => rfl
  | @cons item _ rest rest' first _ ih =>
      obtain ⟨author, payload⟩ := item
      obtain ⟨whole, stampMs, rfl⟩ := first
      cases read : Envelope.fromBytes payload with
      | ok envelope =>
          have again := (@Envelope.fromBytes_restamp _ payload ⟨stampMs, envelope.payload⟩ _ whole).mpr
            ⟨rfl, envelope.timestampMs, read⟩
          rw [ExecutionState.decode_cons_ok again, ExecutionState.decode_cons_ok read]
          exact congrArg ((author, envelope.payload) :: ·) ih
      | error reason =>
          cases again : Envelope.fromBytes (restamp stampMs payload) with
          | ok envelope =>
              obtain ⟨-, old, decodes⟩ := (Envelope.fromBytes_restamp whole).mp again
              rw [read] at decodes
              cases decodes
          | error other =>
              rw [ExecutionState.decode_cons_error again, ExecutionState.decode_cons_error read]
              exact ih

end

/-! ## One sub-dag -/

variable {subdag other : CommittedSubDag}

theorem CommittedSubDag.transactions_of_contents :
    subdag.transactions = subdag.contents.filterMap fun item => item.2.transaction := by
  rw [contents, contentsIn, decodable_eq, List.filterMap_map]
  rfl

theorem CommittedSubDag.votes_of_contents :
    subdag.votes = subdag.contents.filterMap fun item => item.2.vote.map (item.1, ·) := by
  rw [contents, contentsIn, decodable_eq, List.filterMap_map]
  rfl

theorem CheckpointCertifier.mint_congr (certifier : CheckpointCertifier)
    (anchor : other.anchor = subdag.anchor) (transactions : other.transactions = subdag.transactions)
    (commitment : Digest) (now : Duration) (sum : UInt64) :
    certifier.mint other commitment now sum = certifier.mint subdag commitment now sum := by
  rw [mint, mint, anchor, transactions]

variable [Hasher] [BuildProfile] {state state' next : ExecutionState} {now now' : Duration}
  {outcome : SubdagOutcome} {delivery delivery' : Delivery} {driver driver' last : Driver}
  {deliveries deliveries' : List Delivery} {minted minted' : List (Option Checkpoint)}

theorem ExecutionState.executeSubdag_fits (executed : state.executeSubdag now subdag = .ok (outcome, next)) :
    BuildProfile.overflowChecks = true → subdag.StampsFit := by
  obtain ⟨_, _, sum, _, _, summed, -⟩ := executeSubdag_ok.mp executed
  intro checked
  have fits := (sumU64_eq_ok.mp summed).2 checked
  rw [UInt64.toNat_zero, Nat.zero_add] at fits
  exact fits

theorem ExecutionState.executeSubdag_contents (scheduler : state'.scheduler = state.scheduler)
    (alike : state'.certifier.relabel id = state.certifier.relabel id)
    (anchor : other.anchor = subdag.anchor) (contents : other.contents = subdag.contents)
    (fits : BuildProfile.overflowChecks = true → other.StampsFit)
    (executed : state.executeSubdag now subdag = .ok (outcome, next)) :
    ∃ outcome' next', state'.executeSubdag now' other = .ok (outcome', next') ∧
      outcome'.statuses = outcome.statuses ∧ outcome'.minted = outcome.minted ∧
      next'.scheduler = next.scheduler ∧
      next'.certifier.relabel id = next.certifier.relabel id := by
  have transactions : other.transactions = subdag.transactions := by
    rw [CommittedSubDag.transactions_of_contents, CommittedSubDag.transactions_of_contents, contents]
  have votes : other.votes = subdag.votes := by
    rw [CommittedSubDag.votes_of_contents, CommittedSubDag.votes_of_contents, contents]
  have summed : sumU64 0 other.stamps = .ok (other.stamps.foldl (· + ·) 0) :=
    sumU64_eq_ok.mpr ⟨rfl, fun checked => (Nat.zero_add _).trans_lt (fits checked)⟩
  obtain ⟨statuses, after, sum, formed, certifier, -, batch, recorded, rfl, rfl⟩ :=
    executeSubdag_ok.mp executed
  have minted := CheckpointCertifier.mint_relabel alike.symm subdag after.store.commitment
    after.store.commitment rfl now now' sum (other.stamps.foldl (· + ·) 0)
  obtain ⟨formed', certifier', recorded', -, relabelled⟩ := recordVotes_alike id_keeps minted recorded
  rw [← CheckpointCertifier.mint_congr state'.certifier anchor transactions, ← anchor, ← votes] at recorded'
  have same : other.minted after.store.commitment = subdag.minted after.store.commitment := by
    rw [CommittedSubDag.minted, CommittedSubDag.minted, anchor, transactions]
  refine ⟨⟨statuses, other.minted after.store.commitment, formed'⟩, ⟨after, certifier'⟩,
    executeSubdag_ok.mpr ⟨statuses, after, _, formed', certifier', summed, ?_, recorded', rfl, rfl⟩,
    rfl, same, rfl, relabelled⟩
  rw [scheduler, transactions]
  exact batch

theorem Driver.deliver_contents (alike : driver'.untimed = driver.untimed)
    (same : SameContents delivery delivery')
    (fits : BuildProfile.overflowChecks = true → delivery'.subdag.StampsFit)
    {checkpoint : Option Checkpoint} (delivered : driver.deliver delivery = .ok (checkpoint, last)) :
    ∃ last', driver'.deliver delivery' = .ok (checkpoint, last') ∧ last'.untimed = last.untimed := by
  obtain ⟨states, counts⟩ := Driver.mk.inj alike
  obtain ⟨schedulers, certifiers⟩ := ExecutionState.mk.inj states
  obtain ⟨outcome, executed, added, rfl⟩ := deliver_ok.mp delivered
  obtain ⟨outcome', state', executed', statuses, minted, scheduler, certifier⟩ :=
    ExecutionState.executeSubdag_contents schedulers certifiers same.anchor same.contents fits executed
  refine ⟨⟨state', last.count⟩, deliver_ok.mpr ⟨outcome', executed', ?_, minted.symm⟩, ?_⟩
  · rw [SubdagOutcome.executed, statuses, counts]
    exact added
  · simp only [untimed, scheduler, certifier]

theorem Driver.run_contents (alike : driver'.untimed = driver.untimed)
    (same : List.Forall₂ SameContents deliveries deliveries')
    (fits : ∀ delivery ∈ deliveries', BuildProfile.overflowChecks = true → delivery.subdag.StampsFit)
    (ran : run deliver driver deliveries = .ok (minted, last)) :
    ∃ last', run deliver driver' deliveries' = .ok (minted, last') ∧ last'.untimed = last.untimed := by
  have paired : List.Forall₂ (fun delivery delivery' =>
      (BuildProfile.overflowChecks = true → delivery'.subdag.StampsFit) ∧
        SameContents delivery delivery') deliveries deliveries' :=
    ((List.forall₂_and_left _ _).mpr ⟨fits, same.flip⟩).flip
  have simulated (driver driver' : Driver) (delivery delivery' : Delivery)
      (checkpoint : Option Checkpoint) (next : Driver) (alike : driver'.untimed = driver.untimed)
      (same : (BuildProfile.overflowChecks = true → delivery'.subdag.StampsFit) ∧
        SameContents delivery delivery')
      (delivered : driver.deliver delivery = .ok (checkpoint, next)) :
      ∃ checkpoint' next', driver'.deliver delivery' = .ok (checkpoint', next') ∧
        checkpoint = checkpoint' ∧ next'.untimed = next.untimed := by
    obtain ⟨next', delivered', kept⟩ := deliver_contents alike same.2 same.1 delivered
    exact ⟨checkpoint, next', delivered', rfl, kept⟩
  obtain ⟨minted', last', ran', outputs, final⟩ := run_simulation simulated alike paired ran
  rw [List.forall₂_eq_eq_eq] at outputs
  exact ⟨last', outputs ▸ ran', final⟩

theorem Driver.run_fits (ran : run deliver driver deliveries = .ok (minted, last)) :
    ∀ delivery ∈ deliveries, BuildProfile.overflowChecks = true → delivery.subdag.StampsFit := by
  induction deliveries generalizing driver minted with
  | nil => exact fun _ listed => nomatch listed
  | cons first deliveries ih =>
      obtain ⟨checkpoint, middle, rest, _, delivered, tail, same⟩ := run_cons_ok.mp ran
      cases same
      obtain ⟨outcome, executed, -⟩ := deliver_ok.mp delivered
      intro delivery listed
      rcases List.mem_cons.mp listed with rfl | later
      · exact ExecutionState.executeSubdag_fits executed
      · exact ih tail delivery later

/-- The decoded contents of a stream decide everything but the timings.  The
stamps only matter to a checked build, where a sum of them can overflow. -/
theorem contents_decide (alike : driver'.untimed = driver.untimed)
    (same : List.Forall₂ SameContents deliveries deliveries')
    (ran : run Driver.deliver driver deliveries = .ok (minted, last)) :
    ((∃ result, run Driver.deliver driver' deliveries' = .ok result) ↔
      ∀ delivery ∈ deliveries', BuildProfile.overflowChecks = true → delivery.subdag.StampsFit) ∧
    (∀ minted' last', run Driver.deliver driver' deliveries' = .ok (minted', last') →
      minted' = minted ∧ last'.count = last.count ∧ last'.state.scheduler = last.state.scheduler ∧
      last'.state.certifier.relabel id = last.state.certifier.relabel id ∧
      last'.state.certificationStatus = last.state.certificationStatus) ∧
    ∀ delivery other : Delivery, other.subdag.anchor = delivery.subdag.anchor →
      List.Forall₂ Restamped delivery.subdag.payloads other.subdag.payloads →
        SameContents delivery other := by
  refine ⟨⟨fun returns => ?_, fun fits => ?_⟩, fun minted' last' ran' => ?_,
    fun delivery other anchor restamped => ⟨anchor, ?_⟩⟩
  · obtain ⟨⟨minted', last'⟩, ran'⟩ := returns
    exact Driver.run_fits ran'
  · obtain ⟨last', ran', -⟩ := Driver.run_contents alike same fits ran
    exact ⟨_, ran'⟩
  · obtain ⟨_, again, final⟩ := Driver.run_contents alike same (Driver.run_fits ran') ran
    rw [ran'] at again
    cases again
    obtain ⟨states, counts⟩ := Driver.mk.inj final
    obtain ⟨schedulers, certifiers⟩ := ExecutionState.mk.inj states
    refine ⟨rfl, counts, schedulers, certifiers, ?_⟩
    rw [ExecutionState.certificationStatus, ExecutionState.certificationStatus, schedulers,
      CheckpointCertifier.relabel_highestCertified certifiers]
  · rw [CommittedSubDag.contents, CommittedSubDag.contents, CommittedSubDag.decodable_eq,
      CommittedSubDag.decodable_eq]
    exact contents_restamped restamped

end

section

attribute [local instance] plainDag checkedBuild blake2b

private def created (stampMs : UInt64) : List UInt8 :=
  Envelope.toBytes ⟨stampMs, .execute ⟨FakeFunctionId.successId, .singleton (.new 1, .writeOnly), .nil⟩⟩

private def quiet : Delivery := ⟨.zero, plainReference 0 1, [((0 : UInt64), [created 3])]⟩

/-- Another stamp with a byte behind the envelope, two payloads that do not
decode, and another clock. -/
private def noisy : Delivery :=
  ⟨⟨7⟩, plainReference 0 1, [((0 : UInt64), [[1, 2], restamp 900 (created 3) ++ [5], []])]⟩

private theorem alone_small : 1 < 2 ^ 64 := by decide

private def alone : ValidatorConfig := ⟨fakeExecutor, plainCommittee 1 alone_small, 1⟩

theorem noise_decides_nothing :
    ∃ minted last minted' last',
      run Driver.deliver (.new alone) [quiet] = .ok (minted, last) ∧
      run Driver.deliver (.new alone) [noisy] = .ok (minted', last') ∧
      minted' = minted ∧ last'.count = last.count ∧
      last'.state.certificationStatus = last.state.certificationStatus := by
  obtain ⟨minted, last, ran⟩ : ∃ minted last, run Driver.deliver (.new alone) [quiet] =
    .ok (minted, last) := ⟨_, _, rfl⟩
  obtain ⟨minted', last', ran'⟩ : ∃ minted last, run Driver.deliver (.new alone) [noisy] =
    .ok (minted, last) := ⟨_, _, rfl⟩
  have same : List.Forall₂ SameContents [quiet] [noisy] := .cons ⟨rfl, by decide +kernel⟩ .nil
  obtain ⟨-, decided, -⟩ := contents_decide rfl same ran
  obtain ⟨mints, counts, -, -, status⟩ := decided minted' last' ran'
  exact ⟨minted, last, minted', last', ran, ran', mints, counts, status⟩

end

end BlockchainValidator
