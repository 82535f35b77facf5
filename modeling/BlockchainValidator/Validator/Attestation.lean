import BlockchainValidator.Validator.Recovery

/-! # What the running process has attested to

Votes in flight are lost when a process stops, so only what the present
incarnation has submitted can be counted on.  It submits what it finds pending
after its replay, and then every checkpoint that it mints.
-/

namespace BlockchainValidator

open Execution Run

section

variable [Dag]

/-- One incarnation of a validator's process. -/
structure Incarnation where
  /-- The validator that the process found on disk. -/
  found : Node
  /-- The same after the replay and the re-attestation. -/
  started : Node
  replayed : List SubdagOutcome
  deliveries : List Delivery
  outcomes : List SubdagOutcome

namespace Incarnation

/-- Everything that this incarnation has submitted: its re-attestation, then
each checkpoint as it was minted. -/
def submissions (incarnation : Incarnation) : List Checkpoint :=
  incarnation.started.driver.state.certifier.pending ++ mintedBy incarnation.outcomes

variable [Hasher] [BuildProfile]

/-- The incarnation is the one that the last restart among `events` began. -/
structure Runs (config : ValidatorConfig) (incarnation : Incarnation) (events : List NodeEvent)
    (node : Node) : Prop where
  since : ∃ before after outputs outputs', NodeEvent.restart ∉ after ∧
    (events = before ++ .restart :: after ∨ before = [] ∧ events = after) ∧
    run (Node.step config) (.fresh config) before = .ok (outputs, incarnation.found) ∧
    run (Node.step config) incarnation.started after = .ok (outputs', node)
  start : Node.start config incarnation.found.wal incarnation.found.submitted =
    .ok incarnation.started
  replay : run ExecutionState.deliver (.new config.engine config.committee config.quorum)
    (Node.replayed incarnation.found.wal) =
      .ok (incarnation.replayed, incarnation.started.driver.state)
  receive : run ExecutionState.deliver incarnation.started.driver.state incarnation.deliveries =
    .ok (incarnation.outcomes, node.driver.state)
  recorded : node.wal =
    incarnation.found.wal ++ incarnation.deliveries.map Delivery.subdag ++ node.queue
  submitted : node.submitted = incarnation.found.submitted ++ incarnation.submissions

variable {config : ValidatorConfig} {incarnation : Incarnation} {events : List NodeEvent}
  {outputs : List Unit} {node next : Node} {event : NodeEvent}

theorem Runs.fresh (config : ValidatorConfig) :
    Runs config ⟨.fresh config, .fresh config, [], [], []⟩ [] (.fresh config) where
  since := ⟨[], [], [], [], List.not_mem_nil, .inr ⟨rfl, rfl⟩, rfl, rfl⟩
  start := rfl
  replay := rfl
  receive := rfl
  recorded := rfl
  submitted := rfl

/-- An event that is no restart happens to the same incarnation. -/
theorem Runs.since_live (runs : Runs config incarnation events node) (live : event ≠ .restart)
    (stepped : node.step config event = .ok ((), next)) :
    ∃ before after outputs outputs', NodeEvent.restart ∉ after ∧
      (events ++ [event] = before ++ .restart :: after ∨ before = [] ∧ events ++ [event] = after) ∧
      run (Node.step config) (.fresh config) before = .ok (outputs, incarnation.found) ∧
      run (Node.step config) incarnation.started after = .ok (outputs', next) := by
  obtain ⟨before, after, outputs, outputs', silent, split, front, back⟩ := runs.since
  refine ⟨before, after ++ [event], outputs, outputs' ++ [()], ?_, ?_, front,
    run_concat_ok.mpr ⟨_, _, _, _, back, stepped, rfl⟩⟩
  · intro restarts
    rcases List.mem_append.mp restarts with earlier | now
    · exact silent earlier
    · exact live (List.mem_singleton.mp now).symm
  · rcases split with rfl | ⟨rfl, rfl⟩
    · exact .inl (by simp)
    · exact .inr ⟨rfl, rfl⟩

theorem Runs.receive_next (runs : Runs config incarnation events node) {now : Duration}
    (stepped : node.step config (.receive now) = .ok ((), next)) :
    ∃ incarnation, Runs config incarnation (events ++ [.receive now]) next := by
  have since := runs.since_live (by simp) stepped
  rw [Node.step] at stepped
  cases waiting : node.queue with
  | nil =>
      simp only [waiting, Except.ok.injEq, Prod.mk.injEq, true_and] at stepped
      subst stepped
      exact ⟨incarnation, { runs with since }⟩
  | cons subdag queue =>
      simp only [waiting] at stepped
      obtain ⟨⟨minted, driver⟩, delivered, done⟩ := bind_eq_ok.mp stepped
      cases done
      obtain ⟨outcome, executed, -, rfl⟩ := Driver.deliver_ok.mp delivered
      refine ⟨{ incarnation with
        deliveries := incarnation.deliveries ++ [⟨now, subdag⟩]
        outcomes := incarnation.outcomes ++ [outcome] }, {
        since, start := runs.start, replay := runs.replay,
        receive := run_concat_ok.mpr ⟨_, _, _, _, runs.receive, executed, rfl⟩,
        recorded := ?_, submitted := ?_ }⟩
      · change node.wal = _
        rw [runs.recorded, waiting]
        simp
      · change node.submitted ++ outcome.minted.toList = _
        rw [runs.submitted, submissions, submissions, mintedBy_concat]
        simp

theorem Runs.restart
    (ran : run (Node.step config) (.fresh config) events = .ok (outputs, node))
    (stepped : node.step config .restart = .ok ((), next)) :
    ∃ incarnation, Runs config incarnation (events ++ [.restart]) next := by
  obtain ⟨started, starts, done⟩ := map_eq_ok.mp stepped
  cases done
  obtain ⟨driver, replays, done⟩ := bind_eq_ok.mp starts
  obtain ⟨⟨minted, _⟩, replay, rfl⟩ := map_eq_ok.mp replays
  obtain ⟨outcomes, executed, -⟩ := Driver.run_state replay
  cases done
  refine ⟨⟨node, _, outcomes, [], []⟩, ⟨⟨events, [], outputs, [], List.not_mem_nil, .inl rfl, ran, rfl⟩,
    starts, executed, rfl, ?_, ?_⟩⟩
  · simp
  · rw [submissions, mintedBy, List.filterMap_nil, List.append_nil]

end Incarnation

theorem Node.run_incarnation [Hasher] [BuildProfile] {config : ValidatorConfig}
    {events : List NodeEvent} {outputs : List Unit} {node : Node}
    (ran : run (step config) (fresh config) events = .ok (outputs, node)) :
    ∃ incarnation, Incarnation.Runs config incarnation events node := by
  refine run_history (fun events _ node => ∃ incarnation,
    Incarnation.Runs config incarnation events node) ?_ ⟨_, .fresh config⟩ ran
  intro events outputs node event output next front held stepped
  obtain ⟨incarnation, runs⟩ := held
  cases event with
  | commit subdag =>
      have since := runs.since_live (by simp) stepped
      cases stepped
      refine ⟨incarnation, ⟨since, runs.start, runs.replay, runs.receive, ?_, runs.submitted⟩⟩
      change node.wal ++ [subdag] = _
      rw [runs.recorded, List.append_assoc]
  | receive now => exact runs.receive_next stepped
  | restart => exact Incarnation.Runs.restart front stepped

namespace Incarnation

variable [Hasher] [BuildProfile] {config : ValidatorConfig} {incarnation : Incarnation}
  {events : List NodeEvent} {node : Node}

theorem Runs.chronicle (runs : Runs config incarnation events node) :
    Chronicle (mintedBy incarnation.replayed ++ mintedBy incarnation.outcomes)
      (certifiedBy incarnation.replayed ++ certifiedBy incarnation.outcomes)
      node.driver.state.certifier :=
  ((Chronicle.new config.committee config.quorum).run runs.replay).run runs.receive

/-- No two submissions of one incarnation are for one sub-dag. -/
theorem Runs.distinct (runs : Runs config incarnation events node)
    (distinct : (node.wal.map CommittedSubDag.anchor).Nodup) : incarnation.submissions.Nodup := by
  have whole := run_append_ok.mpr ⟨_, _, _, _, runs.replay, runs.receive, rfl⟩
  have order := ExecutionState.run_mintOrder whole
  rw [mintOrder_eq, List.map_append, Node.replayed, List.map_map] at order
  have subdags : incarnation.found.wal.map CommittedSubDag.anchor ++
      (incarnation.deliveries.map Delivery.subdag).map CommittedSubDag.anchor <+:
        node.wal.map CommittedSubDag.anchor := by
    rw [runs.recorded, List.map_append, List.map_append]
    exact List.prefix_append _ _
  rw [List.map_map] at subdags
  have mints : (mintedBy (incarnation.replayed ++ incarnation.outcomes)).Nodup :=
    .of_map _ (distinct.sublist (order.trans subdags.sublist))
  have pending := ((Chronicle.new config.committee config.quorum).run runs.replay).settled
  obtain ⟨settled, split, -⟩ := pending
  rw [List.nil_append] at split
  rw [mintedBy, List.filterMap_append] at mints
  change (mintedBy _ ++ mintedBy _).Nodup at mints
  rw [split, List.append_assoc] at mints
  exact (List.nodup_append.mp mints).2.1

/-- What a process has attested to after any number of its loop's iterations. -/
structure Attested (incarnation : Incarnation) (node : Node) : Prop where
  pending : ∀ checkpoint ∈ node.driver.state.certifier.pending, checkpoint ∈ incarnation.submissions
  once : (node.wal.map CommittedSubDag.anchor).Nodup →
    ∀ checkpoint ∈ mintedBy incarnation.outcomes, incarnation.submissions.count checkpoint = 1
  certified : ∀ checkpoint ∈ mintedBy incarnation.replayed ++ mintedBy incarnation.outcomes,
    checkpoint ∉ node.driver.state.certifier.pending →
      ∃ certificate ∈ certifiedBy incarnation.replayed ++ certifiedBy incarnation.outcomes,
        certificate.checkpoint.anchor = checkpoint.anchor

end Incarnation

/-- Whatever the restarts, every uncertified checkpoint has this process's vote. -/
theorem Node.uncertified_attested [Hasher] [BuildProfile] {config : ValidatorConfig}
    {events : List NodeEvent} {outputs : List Unit} {node : Node}
    (ran : run (step config) (fresh config) events = .ok (outputs, node)) :
    ∃ incarnation : Incarnation, incarnation.Runs config events node ∧ incarnation.Attested node := by
  obtain ⟨incarnation, runs⟩ := run_incarnation ran
  refine ⟨incarnation, runs, ?_, fun distinct checkpoint minted => ?_, fun checkpoint minted settled =>
    runs.chronicle.certified minted settled⟩
  · exact (ExecutionState.run_pending runs.receive).subset
  · exact List.count_eq_one_of_mem (runs.distinct distinct) (List.mem_append_right _ minted)

end

section

attribute [local instance] plainDag checkedBuild blake2b

private def pendingConfig : ValidatorConfig := { plainConfig with quorum := 2 }

/-- The process stops before the quorum and goes on without it. -/
private def interrupted : List NodeEvent :=
  (plainStream FakeFunctionId.successId).flatMap fun subdag => [.commit subdag, .receive ⟨5⟩, .restart]

theorem interrupted_attested :
    ∃ outputs node, run (Node.step pendingConfig) (.fresh pendingConfig) interrupted =
        .ok (outputs, node) ∧
      ∃ incarnation : Incarnation, incarnation.Runs pendingConfig interrupted node ∧
        incarnation.Attested node := by
  obtain ⟨⟨outputs, node⟩, ran⟩ : ∃ result, run (Node.step pendingConfig) (.fresh pendingConfig)
      interrupted = .ok result := ⟨_, rfl⟩
  exact ⟨outputs, node, ran, Node.uncertified_attested ran⟩

end

end BlockchainValidator
