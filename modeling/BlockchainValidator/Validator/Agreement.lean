import BlockchainValidator.Checkpoint.Independence
import BlockchainValidator.Checkpoint.Watermark
import BlockchainValidator.Validator.Stream

/-! # Validators certify alike, however they execute -/

namespace BlockchainValidator

open Execution Run

section

variable [Dag]

variable [BuildProfile] [Hasher] {state state' next next' last last' : ExecutionState} {now now' : Duration}
  {subdag : CommittedSubDag} {outcome outcome' : SubdagOutcome} {deliveries deliveries' : List Delivery}
  {outcomes outcomes' : List SubdagOutcome}

/-- What each recorded vote formed, sub-dag by sub-dag. -/
def formedAt (outcomes : List SubdagOutcome) : List (List (Option CertifiedCheckpoint)) :=
  outcomes.map fun outcome => certificates outcome.formed

namespace ExecutionState

theorem executeSubdag_agrees
    (alike : state.certifier.relabel anchorOnly = state'.certifier.relabel anchorOnly)
    (executed : state.executeSubdag now subdag = .ok (outcome, next))
    (executed' : state'.executeSubdag now' subdag = .ok (outcome', next')) :
    outcome.minted.map Checkpoint.anchor = outcome'.minted.map Checkpoint.anchor ∧
      certificates outcome.formed = certificates outcome'.formed ∧
      next.certifier.relabel anchorOnly = next'.certifier.relabel anchorOnly := by
  obtain ⟨_, scheduler, sum, formed, certifier, -, -, recorded, rfl, rfl⟩ :=
    executeSubdag_ok.mp executed
  obtain ⟨_, scheduler', sum', formed', certifier', -, -, recorded', rfl, rfl⟩ :=
    executeSubdag_ok.mp executed'
  have minted := CheckpointCertifier.mint_relabel alike subdag scheduler.store.commitment
    scheduler'.store.commitment rfl now now' sum sum'
  obtain ⟨formed'', certifier'', again, same, relabelled⟩ :=
    recordVotes_alike anchorOnly_keeps minted recorded
  cases again.symm.trans recorded'
  refine ⟨?_, same.symm, relabelled.symm⟩
  simp only [CommittedSubDag.minted]
  split <;> rfl

theorem run_agrees
    (alike : state.certifier.relabel anchorOnly = state'.certifier.relabel anchorOnly)
    (same : deliveries.map Delivery.subdag = deliveries'.map Delivery.subdag)
    (ran : run deliver state deliveries = .ok (outcomes, last))
    (ran' : run deliver state' deliveries' = .ok (outcomes', last')) :
    mintOrder outcomes = mintOrder outcomes' ∧ formedAt outcomes = formedAt outcomes' ∧
      last.certifier.relabel anchorOnly = last'.certifier.relabel anchorOnly := by
  induction deliveries generalizing state state' deliveries' outcomes outcomes' with
  | nil =>
      obtain rfl := List.map_eq_nil_iff.mp same.symm
      cases ran
      cases ran'
      exact ⟨rfl, rfl, alike⟩
  | cons delivery deliveries ih =>
      obtain ⟨delivery', deliveries', rfl, head, tail⟩ := List.map_eq_cons_iff.mp same.symm
      obtain ⟨outcome, middle, rest, _, delivered, continued, equal⟩ := run_cons_ok.mp ran
      cases equal
      obtain ⟨outcome', middle', rest', _, delivered', continued', equal'⟩ := run_cons_ok.mp ran'
      cases equal'
      rw [deliver, head] at delivered'
      obtain ⟨minted, formed, alike⟩ := executeSubdag_agrees alike delivered delivered'
      obtain ⟨order, log, final⟩ := ih alike tail.symm continued continued'
      refine ⟨?_, ?_, final⟩
      · rw [mintOrder, mintOrder, List.filterMap_cons, List.filterMap_cons, minted]
        rw [mintOrder, mintOrder] at order
        rw [order]
      · rw [formedAt, formedAt, List.map_cons, List.map_cons, formed]
        rw [formedAt, formedAt] at log
        rw [log]

/-- Validators with one committee and quorum certify one stream alike, whatever
their engines, clocks and stores, and one that lags behind certifies less. -/
theorem certification_agrees {committee : Committee} {quorum : UInt64}
    (start : state.certifier = .new committee quorum)
    (start' : state'.certifier = .new committee quorum)
    (admissible : AdmissibleStream committee (deliveries'.map Delivery.subdag))
    (front : deliveries.map Delivery.subdag <+: deliveries'.map Delivery.subdag)
    (ran : run deliver state deliveries = .ok (outcomes, last))
    (ran' : run deliver state' deliveries' = .ok (outcomes', last')) :
    mintOrder outcomes <+: mintOrder outcomes' ∧ formedAt outcomes <+: formedAt outcomes' ∧
      (∀ certificate, last.certifier.highestCertified = some certificate →
        ∃ later, last'.certifier.highestCertified = some later ∧
          AtOrBefore (mintOrder outcomes') certificate.checkpoint.anchor later.checkpoint.anchor) ∧
      (deliveries.map Delivery.subdag = deliveries'.map Delivery.subdag →
        mintOrder outcomes = mintOrder outcomes' ∧ formedAt outcomes = formedAt outcomes' ∧
        last.certifier.pending.map Checkpoint.anchor = last'.certifier.pending.map Checkpoint.anchor ∧
        last.certifier.highestCertified = last'.certifier.highestCertified) := by
  have alike : state.certifier.relabel anchorOnly = state'.certifier.relabel anchorOnly := by
    rw [start, start']
  obtain ⟨rest, whole⟩ := front
  obtain ⟨same, more, rfl, head, tail⟩ := List.map_eq_append_iff.mp whole.symm
  obtain ⟨sameOutcomes, middle, moreOutcomes, _, ranFront, ranBack, split⟩ := run_append_ok.mp ran'
  cases split
  obtain ⟨order, log, agreed⟩ := run_agrees alike head.symm ran ranFront
  refine ⟨?_, ?_, ?_, ?_⟩
  · rw [order, mintOrder, mintOrder, List.filterMap_append]
    exact List.prefix_append _ _
  · rw [log, formedAt, formedAt, List.map_append]
    exact List.prefix_append _ _
  · intro certificate highest
    rw [CheckpointCertifier.relabel_highestCertified agreed] at highest
    obtain ⟨calls, outputs, called, callsOf⟩ := run_calls ranFront
    obtain ⟨moreCalls, moreOutputs, moreCalled, moreCallsOf⟩ := run_calls ranBack
    have allCalls := callsOf.append moreCallsOf
    rw [← allCalls.pushed]
    rw [start'] at called
    exact CheckpointCertifier.watermark_forward (run_admissible admissible ran' allCalls) called
      moreCalled highest
  · intro equal
    obtain ⟨order, log, agreed⟩ := run_agrees alike equal ran ran'
    refine ⟨order, log, ?_, CheckpointCertifier.relabel_highestCertified agreed⟩
    have labels := congrArg (List.map Checkpoint.anchor) (CheckpointCertifier.relabel_pending agreed)
    rw [List.map_map, List.map_map] at labels
    exact labels

end ExecutionState

end

section

attribute [local instance] plainDag checkedBuild blake2b

private def deliverAt (clock : Nat) : List Delivery :=
  (plainStream FakeFunctionId.successId).map fun subdag => ⟨⟨clock⟩, subdag⟩

theorem plainStream_agrees :
    ∃ outcomes last outcomes' last',
      run ExecutionState.deliver (.new abortingEngine (plainCommittee 2 (by decide)) 1)
        (deliverAt 5) = .ok (outcomes, last) ∧
      run ExecutionState.deliver (.new fakeExecutor (plainCommittee 2 (by decide)) 1)
        (deliverAt 9) = .ok (outcomes', last') ∧
      mintOrder outcomes = mintOrder outcomes' ∧ formedAt outcomes = formedAt outcomes' ∧
      last.certifier.highestCertified = last'.certifier.highestCertified := by
  obtain ⟨⟨outcomes, last⟩, ran⟩ : ∃ result, run ExecutionState.deliver
      (.new abortingEngine (plainCommittee 2 (by decide)) 1) (deliverAt 5) = .ok result := ⟨_, rfl⟩
  obtain ⟨⟨outcomes', last'⟩, ran'⟩ : ∃ result, run ExecutionState.deliver
      (.new fakeExecutor (plainCommittee 2 (by decide)) 1) (deliverAt 9) = .ok result := ⟨_, rfl⟩
  have front : (deliverAt 5).map Delivery.subdag <+: (deliverAt 9).map Delivery.subdag :=
    ⟨[], rfl⟩
  obtain ⟨-, -, -, same⟩ :=
    ExecutionState.certification_agrees rfl rfl (plainStream_admissible _) front ran ran'
  obtain ⟨order, log, -, highest⟩ := same rfl
  exact ⟨outcomes, last, outcomes', last', ran, ran', order, log, highest⟩

end

end BlockchainValidator
