import BlockchainValidator.Checkpoint.Backing
import BlockchainValidator.Execution.Versions
import BlockchainValidator.Validator.Stream

/-! # Payloads that stop a validator -/

namespace BlockchainValidator

open Execution Run

namespace Execution.SequentialScheduler

variable [Hasher] {store : InMemoryStore} {transactions : List Transaction} {bound : Nat}

theorem execute_advances (wellFormed : store.WellFormed) (bounded : store.versions.Bounded bound)
    (few : bound + transactions.length < 2 ^ 64)
    (advance : store.versions.AllCreationsAdvance transactions) :
    ∃ statuses next, execute ⟨store, fakeExecutor⟩ transactions = .ok (statuses, ⟨next, fakeExecutor⟩) ∧
      next.WellFormed ∧ next.versions = transactions.foldl Versions.after store.versions ∧
      next.versions.Bounded (bound + transactions.length) := by
  induction transactions generalizing store bound with
  | nil => exact ⟨[], store, rfl, wellFormed, rfl, bounded⟩
  | cons transaction transactions ih =>
      obtain ⟨head, tail⟩ := advance
      rw [List.length_cons] at few
      have room : store.versions.Bounded (2 ^ 64 - 2) := fun id version found =>
        (bounded id version found).trans (by omega)
      obtain ⟨status, middle, executed, kept, moved⟩ := executeOne_advances wellFormed room head
      have raised : middle.versions.Bounded (bound + 1) := moved ▸ Versions.after_bounded bounded
      obtain ⟨statuses, next, rest, final, versions, reached⟩ :=
        ih kept raised (by omega) (moved ▸ tail)
      refine ⟨status :: statuses, next, execute_cons_ok.mpr ⟨_, _, _, executed, rest, rfl⟩, final,
        ?_, ?_⟩
      · rw [versions, moved]
        rfl
      · rw [List.length_cons, Nat.add_comm transactions.length, ← Nat.add_assoc]
        exact reached

theorem execute_stuck (wellFormed : store.WellFormed) (bounded : store.versions.Bounded bound)
    (few : bound + transactions.length < 2 ^ 64)
    (stuck : ¬ store.versions.AllCreationsAdvance transactions) :
    execute ⟨store, fakeExecutor⟩ transactions = .error .versionsMustMoveForward := by
  induction transactions generalizing store bound with
  | nil => exact absurd trivial stuck
  | cons transaction transactions ih =>
      rw [List.length_cons] at few
      have room : store.versions.Bounded (2 ^ 64 - 2) := fun id version found =>
        (bounded id version found).trans (by omega)
      rw [execute_eq_run, run]
      by_cases head : store.versions.CreationsAdvance transaction
      · obtain ⟨status, middle, executed, kept, moved⟩ := executeOne_advances wellFormed room head
        have raised : middle.versions.Bounded (bound + 1) := moved ▸ Versions.after_bounded bounded
        have rest := ih kept raised (by omega) (fun tail => stuck ⟨head, moved ▸ tail⟩)
        rw [execute_eq_run] at rest
        rw [executed, bind_ok]
        simp only [rest, bind_error]
      · rw [executeOne_panics wellFormed room head, bind_error]

end Execution.SequentialScheduler

/-! ## Panics of counting -/

/-- What can go wrong apart from execution: a count overflows, or an author has
no stake. -/
def Panic.OfCounting (panic : Panic) : Prop := panic = .addOverflow ∨ panic = .authorityNotFound

section

variable [Dag]

def CommittedSubDag.StampsFit (subdag : CommittedSubDag) : Prop :=
  (subdag.stamps.map UInt64.toNat).sum < 2 ^ 64

theorem CheckpointCertifier.mint_backed {certifier : CheckpointCertifier}
    (backed : certifier.Backed) (subdag : CommittedSubDag) (commitment : Digest) (now : Duration)
    (sum : UInt64) :
    (certifier.mint subdag commitment now sum).Backed ∧
      (certifier.mint subdag commitment now sum).committee = certifier.committee := by
  unfold mint
  split
  · exact ⟨backed, rfl⟩
  · exact ⟨push_backed backed _ _ _, rfl⟩

variable [BuildProfile]

theorem ExecutionState.recordVotes_backed {certifier : CheckpointCertifier}
    (anchor : BlockReference) {votes : List (Authority × Checkpoint)} (backed : certifier.Backed)
    (members : ∀ vote ∈ votes, vote.1 ∈ certifier.committee.members) :
    ∃ formed next, recordVotes certifier anchor votes = .ok (formed, next) ∧ next.Backed ∧
      next.committee = certifier.committee := by
  obtain ⟨formed, next, recorded, kept, same, -⟩ := run_progress
    (fun (votes : List (Authority × Checkpoint)) (state : CheckpointCertifier) =>
      state.Backed ∧ state.committee = certifier.committee ∧
        ∀ vote ∈ votes, vote.1 ∈ certifier.committee.members)
    (by
      intro state vote votes held
      obtain ⟨backed, same, members⟩ := held
      have member : vote.1 ∈ state.committee.members := same ▸ members vote (by simp)
      obtain ⟨formed, next, tallied, kept, unchanged⟩ :=
        CheckpointCertifier.tally_backed anchor vote.2 backed member
      exact ⟨formed, next, tallied, kept, unchanged.trans same,
        fun later listed => members later (by simp [listed])⟩)
    ⟨backed, rfl, members⟩
  exact ⟨formed, next, recorded, kept, same⟩

theorem CheckpointAccumulator.add_error {accumulator : CheckpointAccumulator} {committee : Committee}
    {author : Authority} {anchor : BlockReference} {panic : Panic}
    (failed : accumulator.add author committee anchor = .error panic) : panic.OfCounting := by
  unfold add at failed
  split at failed
  · cases failed
    exact .inr rfl
  · dsimp only at failed
    split at failed
    · rcases bind_eq_error.mp failed with overflow | ⟨_, _, impossible⟩
      · exact .inl (addU64_error overflow)
      · cases impossible
    · cases failed

theorem PendingCheckpoint.tally_error {entry : PendingCheckpoint} {committee : Committee}
    {quorum : UInt64} {author : Authority} {anchor : BlockReference} {checkpoint : Checkpoint} {panic : Panic}
    (failed : entry.tally committee quorum anchor author checkpoint = .error panic) :
    panic.OfCounting := by
  unfold tally at failed
  split at failed
  · cases failed
  · split at failed
    · cases failed
    · dsimp only at failed
      split at failed
      · cases failed
      · rcases bind_eq_error.mp failed with stops | ⟨⟨reached, _⟩, _, impossible⟩
        · exact CheckpointAccumulator.add_error stops
        · cases reached <;> cases impossible

theorem CheckpointCertifier.tally_error {certifier : CheckpointCertifier} {author : Authority}
    {anchor : BlockReference} {checkpoint : Checkpoint} {panic : Panic}
    (failed : certifier.tally anchor author checkpoint = .error panic) : panic.OfCounting := by
  unfold tally at failed
  split at failed
  · cases failed
  · split at failed
    · cases failed
    · rcases bind_eq_error.mp failed with stops | ⟨⟨formed, _⟩, _, impossible⟩
      · exact PendingCheckpoint.tally_error stops
      · cases formed <;> cases impossible

variable [Hasher] {committee : Committee} {state last : ExecutionState} {delivery : Delivery}
  {deliveries : List Delivery} {outcomes : List SubdagOutcome}

/-- What lets a validator take the deliveries to come. -/
structure Prepared (committee : Committee) (deliveries : List Delivery) (state : ExecutionState) :
    Prop where
  engine : state.scheduler.engine = fakeExecutor
  wellFormed : state.scheduler.store.WellFormed
  room : ∃ bound, state.scheduler.store.versions.Bounded bound ∧
    bound + (deliveries.flatMap (·.subdag.transactions)).length < 2 ^ 64
  advance : state.scheduler.store.versions.AllCreationsAdvance
    (deliveries.flatMap (·.subdag.transactions))
  backed : state.certifier.Backed
  committee_eq : state.certifier.committee = committee
  signed : ∀ delivery ∈ deliveries, delivery.subdag.SignedBy committee
  stamps : ∀ delivery ∈ deliveries, delivery.subdag.StampsFit

theorem Prepared.deliver (prepared : Prepared committee (delivery :: deliveries) state) :
    ∃ outcome next, state.deliver delivery = .ok (outcome, next) ∧
      Prepared committee deliveries next := by
  obtain ⟨⟨store, fake⟩, certifier⟩ := state
  obtain ⟨engine, wellFormed, ⟨bound, bounded, few⟩, advance, backed, same, signed, stamps⟩ := prepared
  obtain rfl : fake = fakeExecutor := engine
  rw [List.flatMap_cons, List.length_append] at few
  rw [List.flatMap_cons, Versions.allCreationsAdvance_append] at advance
  obtain ⟨sum, summed⟩ := sumU64_of_lt (stamps delivery (by simp))
  obtain ⟨statuses, next, executed, kept, versions, reached⟩ :=
    SequentialScheduler.execute_advances wellFormed bounded (by omega) advance.1
  obtain ⟨minted, unchanged⟩ := CheckpointCertifier.mint_backed backed delivery.subdag
    next.commitment delivery.now sum
  obtain ⟨formed, certifier', recorded, held, unchanged'⟩ := ExecutionState.recordVotes_backed
    delivery.subdag.anchor minted (by
      rw [unchanged]
      exact same ▸ (signed delivery (by simp)).votes)
  refine ⟨_, _, ExecutionState.executeSubdag_ok.mpr
    ⟨statuses, _, sum, formed, certifier', summed, executed, recorded, rfl, rfl⟩, ?_⟩
  exact ⟨rfl, kept, ⟨_, reached, by omega⟩, versions ▸ advance.2, held,
    unchanged'.trans (unchanged.trans same), fun later listed => signed later (by simp [listed]),
    fun later listed => stamps later (by simp [listed])⟩

/-- From the empty state every payload gets its status, in every state that is
reached, exactly when all creations advance. -/
theorem ExecutionState.run_returns_iff (committee : Committee) (quorum : UInt64)
    (deliveries : List Delivery)
    (signed : ∀ delivery ∈ deliveries, delivery.subdag.SignedBy committee)
    (stamps : ∀ delivery ∈ deliveries, delivery.subdag.StampsFit)
    (few : (deliveries.flatMap (·.subdag.transactions)).length < 2 ^ 64) :
    (∃ outcomes state, run deliver (.new fakeExecutor committee quorum) deliveries =
        .ok (outcomes, state) ∧
      outcomes.map SubdagOutcome.executed =
        deliveries.map fun delivery => delivery.subdag.transactions.length) ↔
    Versions.AllCreationsAdvance (fun _ => none) (deliveries.flatMap (·.subdag.transactions)) := by
  have bounded : InMemoryStore.default.versions.Bounded 0 := fun id version found => by cases found
  apply Iff.intro
  · intro returns
    obtain ⟨outcomes, state, ran, -⟩ := returns
    by_contra stuck
    have executed := run_scheduler ran
    have stopped := SequentialScheduler.execute_stuck InMemoryStore.default_wellFormed bounded
      (by omega) stuck
    cases executed.symm.trans stopped
  · intro advance
    have prepared : Prepared committee deliveries (.new fakeExecutor committee quorum) :=
      ⟨rfl, InMemoryStore.default_wellFormed, ⟨0, bounded, by omega⟩, advance,
        CheckpointCertifier.new_backed committee quorum, rfl, signed, stamps⟩
    obtain ⟨outcomes, state, ran, -⟩ := run_progress (Prepared committee)
      (fun state delivery deliveries prepared => prepared.deliver) prepared
    exact ⟨outcomes, state, ran, run_executed ran⟩

/-! ## Deliveries whose transactions execute -/

/-- If the transactions execute, the fused pass can only fail in the sum of the
stamps. -/
theorem ExecutionState.executeLazy_pull_error {captured : Captured} {scheduler next : SequentialScheduler}
    {items : List (Authority × List UInt8)} {statuses : List ExecutionStatus} {panic : Panic}
    (executed : scheduler.execute (transactionsIn (decode items)) = .ok (statuses, next))
    (failed : SequentialScheduler.executeLazy pull captured scheduler items = .error panic) :
    panic.OfCounting := by
  induction items generalizing captured scheduler statuses with
  | nil => cases failed
  | cons item items ih =>
      cases read : Envelope.fromBytes item.2 with
      | error reason =>
          rw [decode_cons_error read] at executed
          rw [SequentialScheduler.executeLazy_skip (pull_error read)] at failed
          exact ih executed failed
      | ok envelope =>
          rw [decode_cons_ok read] at executed
          obtain ⟨timestampMs, content⟩ := envelope
          cases content with
          | attest vote =>
              rw [SequentialScheduler.executeLazy_skip (pull_attest read)] at failed
              exact ih executed failed
          | execute transaction =>
              obtain ⟨status, middle, rest, one, others, -⟩ :=
                SequentialScheduler.execute_cons_ok.mp executed
              rw [SequentialScheduler.executeLazy, pull] at failed
              simp only [read] at failed
              cases added : addU64 captured.stampSumMs timestampMs with
              | error overflow =>
                  simp only [added, bind_error] at failed
                  cases failed
                  exact .inl (addU64_error added)
              | ok total =>
                  simp only [added, bind_ok, one] at failed
                  rcases bind_eq_error.mp failed with stops | ⟨_, _, impossible⟩
                  · exact ih others stops
                  · cases impossible

/-- If the transactions of a sub-dag execute, nothing else stops the validator
but counting. -/
theorem ExecutionState.deliver_error {statuses : List ExecutionStatus} {next : SequentialScheduler}
    {panic : Panic}
    (executed : state.scheduler.execute delivery.subdag.transactions = .ok (statuses, next))
    (failed : state.deliver delivery = .error panic) : panic.OfCounting := by
  rcases bind_eq_error.mp failed with stops | ⟨⟨statuses', captured, scheduler⟩, passed, recording⟩
  · exact executeLazy_pull_error executed stops
  · dsimp only at recording
    rcases bind_eq_error.mp recording with stops | ⟨_, _, impossible⟩
    · obtain ⟨_, vote, _, _, certifier, -, -, fails⟩ := run_error stops
      exact CheckpointCertifier.tally_error fails
    · cases impossible

end

section

attribute [local instance] plainDag checkedBuild blake2b

private def creationPayload (id : ObjectId) : List UInt8 :=
  Envelope.toBytes ⟨0, .execute (FakeTransaction.creation id)⟩

private def creations (ids : List ObjectId) : Delivery :=
  ⟨.zero, plainReference 0 1, [((0 : UInt64), ids.map creationPayload)]⟩

private theorem creations_signed (ids : List ObjectId) :
    ∀ delivery ∈ [creations ids], delivery.subdag.SignedBy (plainCommittee 1 (by decide)) := by
  intro delivery listed block inside
  rw [List.mem_singleton.mp listed] at inside
  rw [List.mem_singleton.mp inside]
  change (0 : UInt64) ∈ (Finset.range 1).image UInt64.ofNat
  decide

/-- A block that creates one object twice. -/
theorem repeated_creation_panics :
    (∀ delivery ∈ [creations [.new 1, .new 1]],
      delivery.subdag.SignedBy (plainCommittee 1 (by decide))) ∧
    (∀ delivery ∈ [creations [.new 1, .new 1]], delivery.subdag.StampsFit) ∧
    ([creations [.new 1, .new 1]].flatMap (·.subdag.transactions)).length = 2 ∧
    run ExecutionState.deliver (.new fakeExecutor (plainCommittee 1 (by decide)) 1)
      [creations [.new 1, .new 1]] = .error .versionsMustMoveForward := by
  refine ⟨creations_signed _, ?_, by decide +kernel, by rfl⟩
  intro delivery listed
  rw [List.mem_singleton.mp listed, CommittedSubDag.StampsFit]
  decide +kernel

theorem distinct_creations_return :
    ∃ outcomes state, run ExecutionState.deliver
        (.new fakeExecutor (plainCommittee 1 (by decide)) 1) [creations [.new 1, .new 2]] =
          .ok (outcomes, state) ∧
      outcomes.map SubdagOutcome.executed =
        [creations [.new 1, .new 2]].map fun delivery => delivery.subdag.transactions.length := by
  refine (ExecutionState.run_returns_iff (plainCommittee 1 (by decide)) 1
    [creations [.new 1, .new 2]] (creations_signed _) ?_ (by decide +kernel)).mpr (by decide +kernel)
  intro delivery listed
  rw [List.mem_singleton.mp listed, CommittedSubDag.StampsFit]
  decide +kernel

end

end BlockchainValidator
