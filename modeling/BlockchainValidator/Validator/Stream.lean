import BlockchainValidator.Checkpoint.Chronicle
import BlockchainValidator.Validator.ExecutionState

/-! # Streams of committed sub-dags

A run of deliveries executes the stream's transactions one after the other and
drives the certifier with one list of calls.
-/

namespace BlockchainValidator

open Execution Run

section

variable [Dag]

/-- What the upstream consensus promises of the commit stream. -/
structure AdmissibleStream (committee : Committee) (stream : List CommittedSubDag) : Prop where
  anchors : Admissible (stream.map CommittedSubDag.anchor)
  signed : ∀ subdag ∈ stream, subdag.SignedBy committee

theorem AdmissibleStream.front {committee : Committee} {stream fewer : List CommittedSubDag}
    (admissible : AdmissibleStream committee stream) (front : fewer <+: stream) :
    AdmissibleStream committee fewer where
  anchors := admissible.anchors.sublist (front.sublist.map _)
  signed subdag listed := admissible.signed subdag (front.subset listed)

def mintOrder (outcomes : List SubdagOutcome) : List BlockReference :=
  outcomes.filterMap fun outcome => outcome.minted.map Checkpoint.anchor

/-- The certifier calls behind deliveries, and what they return. -/
structure CallsOf (deliveries : List Delivery) (outcomes : List SubdagOutcome)
    (calls : List CertifierCall) (outputs : List (Option Formed)) : Prop where
  pushed : calls.filterMap CertifierCall.pushed = mintOrder outcomes
  recorded : calls.filterMap CertifierCall.recorded = deliveries.flatMap fun delivery =>
    delivery.subdag.votes.map (delivery.subdag.anchor, ·)
  formed : outputs.filterMap id = (outcomes.flatMap SubdagOutcome.formed).filterMap id

theorem CallsOf.append {deliveries more : List Delivery} {outcomes moreOutcomes : List SubdagOutcome}
    {calls moreCalls : List CertifierCall} {outputs moreOutputs : List (Option Formed)}
    (front : CallsOf deliveries outcomes calls outputs)
    (back : CallsOf more moreOutcomes moreCalls moreOutputs) :
    CallsOf (deliveries ++ more) (outcomes ++ moreOutcomes) (calls ++ moreCalls)
      (outputs ++ moreOutputs) where
  pushed := by
    rw [List.filterMap_append, mintOrder, List.filterMap_append, front.pushed, back.pushed]
    rfl
  recorded := by rw [List.filterMap_append, List.flatMap_append, front.recorded, back.recorded]
  formed := by
    rw [List.filterMap_append, List.flatMap_append, List.filterMap_append, front.formed, back.formed]

section

variable [Hasher] [BuildProfile] {state next last : ExecutionState} {outcome : SubdagOutcome}
  {outcomes : List SubdagOutcome} {delivery : Delivery} {deliveries : List Delivery}

theorem ExecutionState.run_scheduler (ran : run deliver state deliveries = .ok (outcomes, last)) :
    state.scheduler.execute (deliveries.flatMap (·.subdag.transactions)) =
      .ok (outcomes.flatMap SubdagOutcome.statuses, last.scheduler) := by
  induction deliveries generalizing state outcomes with
  | nil =>
      cases ran
      rfl
  | cons delivery deliveries ih =>
      obtain ⟨outcome, middle, rest, _, delivered, tail, same⟩ := run_cons_ok.mp ran
      cases same
      obtain ⟨statuses, scheduler, _, _, _, -, executed, -, rfl, rfl⟩ := executeSubdag_ok.mp delivered
      rw [List.flatMap_cons, List.flatMap_cons]
      exact SequentialScheduler.execute_append_ok.mpr ⟨_, _, _, executed, ih tail, rfl⟩

theorem ExecutionState.run_executed (ran : run deliver state deliveries = .ok (outcomes, last)) :
    outcomes.map SubdagOutcome.executed =
      deliveries.map fun delivery => delivery.subdag.transactions.length := by
  induction deliveries generalizing state outcomes with
  | nil =>
      cases ran
      rfl
  | cons delivery deliveries ih =>
      obtain ⟨outcome, middle, rest, _, delivered, tail, same⟩ := run_cons_ok.mp ran
      cases same
      obtain ⟨statuses, scheduler, _, _, _, -, executed, -, rfl, rfl⟩ := executeSubdag_ok.mp delivered
      rw [List.map_cons, List.map_cons, ih tail, SubdagOutcome.executed,
        SequentialScheduler.execute_length executed]

/-- One sub-dag mints with at most one push and records its votes. -/
theorem ExecutionState.deliver_calls (delivered : state.deliver delivery = .ok (outcome, next)) :
    ∃ calls outputs, run CheckpointCertifier.step state.certifier calls =
      .ok (outputs, next.certifier) ∧ CallsOf [delivery] [outcome] calls outputs := by
  obtain ⟨now, subdag⟩ := delivery
  obtain ⟨statuses, scheduler, sum, formed, certifier, -, -, recorded, rfl, rfl⟩ :=
    executeSubdag_ok.mp delivered
  let records := subdag.votes.map fun vote => CertifierCall.record subdag.anchor vote.1 vote.2
  have votes : run CheckpointCertifier.step
      (state.certifier.mint subdag scheduler.store.commitment now sum) records =
        .ok (formed, certifier) := by
    rw [run_map]
    exact recorded
  have noPush : records.filterMap CertifierCall.pushed = [] := by
    simp [records, List.filterMap_map, Function.comp_def, CertifierCall.pushed]
  have allRecorded : records.filterMap CertifierCall.recorded =
      subdag.votes.map (subdag.anchor, ·) := by
    simp [records, List.filterMap_map, Function.comp_def, CertifierCall.recorded]
  by_cases empty : subdag.transactions = []
  · have kept : state.certifier.mint subdag scheduler.store.commitment now sum = state.certifier :=
      if_pos empty
    rw [kept] at votes
    refine ⟨records, formed, votes, ?_, ?_, by simp⟩
    · simp [noPush, mintOrder, CommittedSubDag.minted, empty]
    · simp [allRecorded]
  · have minted : state.certifier.mint subdag scheduler.store.commitment now sum = _ := if_neg empty
    rw [minted] at votes
    refine ⟨.push subdag.anchor scheduler.store.commitment _ :: records, none :: formed,
      run_cons_ok.mpr ⟨none, _, formed, certifier, rfl, votes, rfl⟩, ?_, ?_, by simp⟩
    · simp [noPush, mintOrder, CommittedSubDag.minted, empty, CertifierCall.pushed]
    · rw [List.filterMap_cons_none rfl, allRecorded, List.flatMap_singleton]

theorem ExecutionState.run_calls (ran : run deliver state deliveries = .ok (outcomes, last)) :
    ∃ calls outputs, run CheckpointCertifier.step state.certifier calls =
      .ok (outputs, last.certifier) ∧ CallsOf deliveries outcomes calls outputs := by
  induction deliveries generalizing state outcomes with
  | nil =>
      cases ran
      exact ⟨[], [], rfl, rfl, rfl, rfl⟩
  | cons delivery deliveries ih =>
      obtain ⟨outcome, middle, rest, _, delivered, tail, same⟩ := run_cons_ok.mp ran
      cases same
      obtain ⟨calls, outputs, front, head⟩ := deliver_calls delivered
      obtain ⟨more, moreOutputs, back, rest⟩ := ih tail
      exact ⟨calls ++ more, outputs ++ moreOutputs,
        run_append_ok.mpr ⟨_, _, _, _, front, back, rfl⟩, head.append rest⟩

theorem ExecutionState.run_mintOrder (ran : run deliver state deliveries = .ok (outcomes, last)) :
    (mintOrder outcomes).Sublist (deliveries.map (·.subdag.anchor)) := by
  induction deliveries generalizing state outcomes with
  | nil =>
      cases ran
      exact .slnil
  | cons delivery deliveries ih =>
      obtain ⟨outcome, middle, rest, _, delivered, tail, same⟩ := run_cons_ok.mp ran
      cases same
      obtain ⟨_, scheduler, _, _, _, -, -, -, rfl, rfl⟩ := executeSubdag_ok.mp delivered
      rw [mintOrder, List.map_cons]
      by_cases empty : delivery.subdag.transactions = []
      · rw [List.filterMap_cons_none (by rw [CommittedSubDag.minted, if_pos empty]; rfl)]
        exact (ih tail).cons _
      · rw [List.filterMap_cons_some (by rw [CommittedSubDag.minted, if_neg empty]; rfl)]
        exact (ih tail).cons_cons _

theorem ExecutionState.run_admissible {committee : Committee} {calls : List CertifierCall}
    {outputs : List (Option Formed)}
    (admissible : AdmissibleStream committee (deliveries.map Delivery.subdag))
    (ran : run deliver state deliveries = .ok (outcomes, last))
    (callsOf : CallsOf deliveries outcomes calls outputs) : AdmissibleCalls committee [] calls where
  anchors := by
    rw [List.nil_append, callsOf.pushed]
    apply admissible.anchors.sublist
    rw [List.map_map]
    exact run_mintOrder ran
  authors := by
    intro author listed
    obtain ⟨call, called, voter⟩ := List.mem_filterMap.mp listed
    rw [CertifierCall.voter_eq] at voter
    obtain ⟨recorded, same, rfl⟩ := Option.map_eq_some_iff.mp voter
    have inside := List.mem_filterMap.mpr ⟨call, called, same⟩
    rw [callsOf.recorded] at inside
    obtain ⟨delivery, delivered, voted⟩ := List.mem_flatMap.mp inside
    obtain ⟨vote, carried, rfl⟩ := List.mem_map.mp voted
    exact (admissible.signed _ (List.mem_map_of_mem delivered)).votes vote carried

end

/-! ## What became of the minted checkpoints -/

def SubdagOutcome.certified (outcome : SubdagOutcome) : List CertifiedCheckpoint :=
  (certificates outcome.formed).reduceOption

def mintedBy (outcomes : List SubdagOutcome) : List Checkpoint :=
  outcomes.filterMap SubdagOutcome.minted

def certifiedBy (outcomes : List SubdagOutcome) : List CertifiedCheckpoint :=
  outcomes.flatMap SubdagOutcome.certified

theorem mintedBy_concat (outcomes : List SubdagOutcome) (outcome : SubdagOutcome) :
    mintedBy (outcomes ++ [outcome]) = mintedBy outcomes ++ outcome.minted.toList := by
  rw [mintedBy, List.filterMap_append, mintedBy]
  cases mint : outcome.minted <;> simp [mint]

theorem mintOrder_eq (outcomes : List SubdagOutcome) :
    mintOrder outcomes = (mintedBy outcomes).map Checkpoint.anchor := by
  rw [mintOrder, mintedBy, List.map_filterMap]

section

variable [BuildProfile] {mints : List Checkpoint} {formed : List CertifiedCheckpoint}

theorem Chronicle.recordVotes {certifier certifier' : CheckpointCertifier}
    (chronicle : Chronicle mints formed certifier)
    {anchor : BlockReference} {votes : List (Authority × Checkpoint)}
    {outputs : List (Option Formed)}
    (recorded : ExecutionState.recordVotes certifier anchor votes = .ok (outputs, certifier')) :
    Chronicle mints (formed ++ (certificates outputs).reduceOption) certifier' := by
  refine run_history (fun _ outputs certifier =>
    Chronicle mints (formed ++ (certificates outputs).reduceOption) certifier) ?_ ?_ recorded
  · intro votes outputs certifier vote output next _ held tallied
    have grown : (certificates (outputs ++ [output])).reduceOption =
        (certificates outputs).reduceOption ++ (output.map Prod.fst).toList := by
      rw [certificates, List.map_append, List.reduceOption_append]
      cases output <;> rfl
    rw [grown, ← List.append_assoc]
    exact held.tally tallied
  · rw [certificates, List.map_nil, List.reduceOption_nil, List.append_nil]
    exact chronicle

variable [Hasher] {state next last : ExecutionState} {outcome : SubdagOutcome}
  {outcomes : List SubdagOutcome} {delivery : Delivery} {deliveries : List Delivery}

theorem Chronicle.deliver (chronicle : Chronicle mints formed state.certifier)
    (delivered : state.deliver delivery = .ok (outcome, next)) :
    Chronicle (mints ++ outcome.minted.toList) (formed ++ outcome.certified) next.certifier := by
  obtain ⟨statuses, scheduler, sum, outputs, certifier, -, -, recorded, rfl, rfl⟩ :=
    ExecutionState.executeSubdag_ok.mp delivered
  refine Chronicle.recordVotes ?_ recorded
  rw [CommittedSubDag.minted, CheckpointCertifier.mint]
  split
  · rw [Option.toList_none, List.append_nil]
    exact chronicle
  · exact chronicle.push ..

theorem Chronicle.run (chronicle : Chronicle mints formed state.certifier)
    (ran : Run.run ExecutionState.deliver state deliveries = .ok (outcomes, last)) :
    Chronicle (mints ++ mintedBy outcomes) (formed ++ certifiedBy outcomes) last.certifier := by
  refine run_history (fun _ outcomes state =>
    Chronicle (mints ++ mintedBy outcomes) (formed ++ certifiedBy outcomes) state.certifier)
    ?_ ?_ ran
  · intro _ outcomes state delivery outcome next _ held delivered
    have certified : certifiedBy (outcomes ++ [outcome]) =
        certifiedBy outcomes ++ outcome.certified := by
      rw [certifiedBy, List.flatMap_append, List.flatMap_singleton]
      rfl
    rw [mintedBy_concat, certified, ← List.append_assoc, ← List.append_assoc]
    exact held.deliver delivered
  · rw [mintedBy, certifiedBy, List.filterMap_nil, List.flatMap_nil, List.append_nil,
      List.append_nil]
    exact chronicle

theorem ExecutionState.deliver_pending (delivered : state.deliver delivery = .ok (outcome, next)) :
    next.certifier.pending <:+ state.certifier.pending ++ outcome.minted.toList := by
  obtain ⟨statuses, scheduler, sum, outputs, certifier, -, -, recorded, rfl, rfl⟩ :=
    executeSubdag_ok.mp delivered
  let minting := state.certifier.mint delivery.subdag scheduler.store.commitment delivery.now sum
  have shrinks : certifier.pending <:+ minting.pending :=
    run_invariant (fun certifier => certifier.pending <:+ minting.pending)
      (fun _ _ _ _ held tallied => (CheckpointCertifier.tally_pending tallied).trans held)
      List.suffix_rfl recorded
  have grown : minting.pending = state.certifier.pending ++
      (delivery.subdag.minted scheduler.store.commitment).toList := by
    dsimp only [minting, CheckpointCertifier.mint, CommittedSubDag.minted]
    split
    · exact (List.append_nil _).symm
    · exact List.map_append
  exact grown ▸ shrinks

/-- What is pending after a run was pending before it or minted by it, in order. -/
theorem ExecutionState.run_pending (ran : run deliver state deliveries = .ok (outcomes, last)) :
    last.certifier.pending <:+ state.certifier.pending ++ mintedBy outcomes := by
  refine run_history (fun _ outcomes last =>
    last.certifier.pending <:+ state.certifier.pending ++ mintedBy outcomes) ?_ ?_ ran
  · intro _ outcomes middle delivery outcome next _ held delivered
    obtain ⟨front, split⟩ := held
    rw [mintedBy_concat, ← List.append_assoc, ← split, List.append_assoc]
    exact (deliver_pending delivered).trans (List.suffix_append _ _)
  · rw [mintedBy, List.filterMap_nil, List.append_nil]

end

end

section

attribute [local instance] plainDag

/-- The payload of an aborting call. -/
def plainAbort (timestampMs : UInt64) : List UInt8 :=
  Envelope.toBytes ⟨timestampMs, .execute FakeTransaction.abort⟩

/-- A plain stream: one sub-dag calls a function with a fresh object and the next
one carries a vote for its checkpoint. -/
def plainStream (function : FunctionId) : List CommittedSubDag :=
  [⟨plainReference 0 1, [((0 : UInt64), [Envelope.toBytes ⟨7, .execute
      ⟨function, .singleton (.new 1, .writeOnly), .nil⟩⟩])]⟩,
    ⟨plainReference 0 2, [((1 : UInt64), [Envelope.toBytes ⟨8, .attest
      ⟨plainReference 0 1, .default⟩⟩])]⟩]

theorem plainStream_admissible (function : FunctionId) :
    AdmissibleStream (plainCommittee 2 (by decide)) (plainStream function) where
  anchors := by
    change Admissible [plainReference 0 1, plainReference 0 2]
    exact ⟨by decide, by decide⟩
  signed := by
    intro subdag listed block inside
    rcases List.mem_pair.mp listed with rfl | rfl
    · rw [List.mem_singleton.mp inside]
      change (0 : UInt64) ∈ (Finset.range 2).image UInt64.ofNat
      decide
    · rw [List.mem_singleton.mp inside]
      change (1 : UInt64) ∈ (Finset.range 2).image UInt64.ofNat
      decide

end

end BlockchainValidator
