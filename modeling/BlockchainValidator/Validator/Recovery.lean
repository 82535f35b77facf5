import BlockchainValidator.Validator.Driver

/-! # Restarts

A validator's process can stop at any point and start again on the commits that
its WAL has recorded.  What it computes is what one process would have computed,
and what it submits never contradicts what an earlier incarnation submitted.
-/

namespace BlockchainValidator

open Execution Run

section

variable [Dag]

/-- A validator across the incarnations of its process. -/
structure Node where
  wal : List CommittedSubDag
  /-- The recorded commits that the driver has not received. -/
  queue : List CommittedSubDag
  driver : Driver
  /-- Every checkpoint submitted as a vote, by any incarnation. -/
  submitted : List Checkpoint

inductive NodeEvent where
  /-- The replica records a commit and sends it to the driver. -/
  | commit (subdag : CommittedSubDag)
  | receive (now : Duration)
  | restart

def NodeEvent.committed : NodeEvent → Option CommittedSubDag
  | commit subdag => some subdag
  | receive _ | restart => none

namespace Node

def fresh (config : ValidatorConfig) : Node := ⟨[], [], .new config, []⟩

def replayed (wal : List CommittedSubDag) : List Delivery :=
  wal.map fun subdag => ⟨.zero, subdag⟩

theorem replayed_subdags (wal : List CommittedSubDag) : (replayed wal).map Delivery.subdag = wal := by
  rw [replayed, List.map_map]
  exact List.map_id _

variable [Hasher] [BuildProfile]

/-- Rebuilds the execution state from the WAL. -/
def replay (config : ValidatorConfig) (wal : List CommittedSubDag) : Except Panic Driver :=
  Prod.snd <$> run Driver.deliver (.new config) (replayed wal)

/-- Replays the WAL and attests once more to what is pending. -/
def start (config : ValidatorConfig) (wal : List CommittedSubDag) (submitted : List Checkpoint) :
    Except Panic Node := do
  let driver ← replay config wal
  .ok ⟨wal, [], driver, submitted ++ driver.state.certifier.pending⟩

def step (config : ValidatorConfig) (node : Node) : NodeEvent → Except Panic (Unit × Node)
  | .commit subdag =>
      .ok ((), { node with wal := node.wal ++ [subdag], queue := node.queue ++ [subdag] })
  | .receive now =>
      match node.queue with
      | [] => .ok ((), node)
      | subdag :: queue => do
          let (minted, driver) ← node.driver.deliver ⟨now, subdag⟩
          .ok ((), { node with queue, driver, submitted := node.submitted ++ minted.toList })
  | .restart => (fun node => ((), node)) <$> start config node.wal node.submitted

/-- The driver has taken the commits before the queue, at some clocks, and
every submitted checkpoint belongs to the history. -/
structure Consistent (config : ValidatorConfig) (node : Node) : Prop where
  received : ∃ deliveries minted, deliveries.map Delivery.subdag ++ node.queue = node.wal ∧
    run Driver.deliver (.new config) deliveries = .ok (minted, node.driver)
  submitted : ∀ checkpoint ∈ node.submitted, Canonical config.engine node.wal checkpoint

theorem fresh_consistent (config : ValidatorConfig) : (fresh config).Consistent config :=
  ⟨⟨[], [], rfl, rfl⟩, fun _ listed => by cases listed⟩

variable {config : ValidatorConfig} {node next : Node} {event : NodeEvent} {wal : List CommittedSubDag}
  {driver : Driver} {submitted : List Checkpoint}

theorem start_consistent (canonical : ∀ checkpoint ∈ submitted, Canonical config.engine wal checkpoint)
    (started : start config wal submitted = .ok next) : next.Consistent config ∧ next.wal = wal := by
  obtain ⟨driver, replays, done⟩ := bind_eq_ok.mp started
  obtain ⟨⟨minted, _⟩, ran, rfl⟩ := map_eq_ok.mp replays
  cases done
  have pending := (Driver.run_canonical ran).2
  rw [replayed_subdags] at pending
  refine ⟨⟨⟨replayed wal, minted, ?_, ran⟩, ?_⟩, rfl⟩
  · rw [List.append_nil, replayed_subdags]
  · intro checkpoint listed
    rcases List.mem_append.mp listed with earlier | attested
    · exact canonical checkpoint earlier
    · exact pending checkpoint attested

theorem step_consistent (consistent : node.Consistent config)
    (stepped : node.step config event = .ok ((), next)) :
    next.Consistent config ∧ next.wal = node.wal ++ [event].filterMap NodeEvent.committed := by
  obtain ⟨⟨deliveries, minted, split, ran⟩, submitted⟩ := consistent
  cases event with
  | commit subdag =>
      cases stepped
      refine ⟨⟨⟨deliveries, minted, ?_, ran⟩, fun checkpoint listed => ?_⟩, rfl⟩
      · rw [← List.append_assoc, split]
      · exact (submitted checkpoint listed).append [subdag]
  | receive now =>
      rw [step] at stepped
      cases waiting : node.queue with
      | nil =>
          simp only [waiting, Except.ok.injEq, Prod.mk.injEq, true_and] at stepped
          subst stepped
          exact ⟨⟨⟨deliveries, minted, split, ran⟩, submitted⟩, (List.append_nil _).symm⟩
      | cons subdag queue =>
          simp only [waiting] at stepped
          obtain ⟨⟨checkpoint, driver⟩, delivered, done⟩ := bind_eq_ok.mp stepped
          cases done
          rw [waiting] at split
          have grown : (deliveries ++ [(⟨now, subdag⟩ : Delivery)]).map Delivery.subdag ++ queue =
              node.wal := by
            rw [List.map_append, List.append_assoc]
            exact split
          have continued : run Driver.deliver (.new config) (deliveries ++ [⟨now, subdag⟩]) =
              .ok (minted ++ [checkpoint], driver) :=
            run_concat_ok.mpr ⟨_, _, _, _, ran, delivered, rfl⟩
          refine ⟨⟨⟨_, _, grown, continued⟩, ?_⟩, (List.append_nil _).symm⟩
          intro attested listed
          rcases List.mem_append.mp listed with earlier | new
          · exact submitted attested earlier
          · obtain rfl : checkpoint = some attested := Option.mem_toList.mp new
            rw [← grown]
            exact (Driver.deliver_canonical ran delivered).append queue
  | restart =>
      obtain ⟨_, started, done⟩ := map_eq_ok.mp stepped
      cases done
      obtain ⟨consistent, same⟩ := start_consistent submitted started
      exact ⟨consistent, same.trans (List.append_nil _).symm⟩

/-! ## Against one uninterrupted run -/

variable {deliveries received : List Delivery} {minted : List (Option Checkpoint)} {once : Driver}

/-- If one process takes the whole stream, any takes any part of it, at any clocks. -/
theorem run_front (ran : run Driver.deliver (.new config) deliveries = .ok (minted, once))
    (front : received.map Delivery.subdag <+: deliveries.map Delivery.subdag) :
    ∃ minted' last, run Driver.deliver (.new config) received = .ok (minted', last) := by
  obtain ⟨rest, split⟩ := front
  obtain ⟨first, second, rfl, same, -⟩ := List.map_eq_append_iff.mp split.symm
  obtain ⟨minted', middle, _, _, ranFront, -, -⟩ := run_append_ok.mp ran
  obtain ⟨last, ran', -⟩ := Driver.run_retimed rfl same ranFront
  exact ⟨minted', last, ran'⟩

/-- No event stops a validator on a stream that one process can take. -/
theorem step_returns (event : NodeEvent) (ran : run Driver.deliver (.new config) deliveries = .ok (minted, once))
    (consistent : node.Consistent config)
    (front : node.wal <+: deliveries.map Delivery.subdag) :
    ∃ next, node.step config event = .ok ((), next) := by
  cases event with
  | commit subdag => exact ⟨_, rfl⟩
  | receive now =>
      rw [step]
      cases waiting : node.queue with
      | nil => exact ⟨node, rfl⟩
      | cons subdag queue =>
          obtain ⟨received, before, split, ranBefore⟩ := consistent.received
          rw [waiting] at split
          have next : (received ++ [(⟨now, subdag⟩ : Delivery)]).map Delivery.subdag <+: node.wal := by
            refine ⟨queue, ?_⟩
            rw [List.map_append, List.append_assoc]
            exact split
          obtain ⟨_, _, whole⟩ := run_front ran (next.trans front)
          obtain ⟨_, middle, checkpoint, driver, ran', delivered, -⟩ := run_concat_ok.mp whole
          obtain rfl : node.driver = middle :=
            (Prod.mk.inj (Except.ok.inj (ranBefore.symm.trans ran'))).2
          simp only [delivered]
          exact ⟨_, rfl⟩
  | restart =>
      have front' : (replayed node.wal).map Delivery.subdag <+: deliveries.map Delivery.subdag := by
        rw [replayed_subdags]
        exact front
      obtain ⟨_, driver, ran'⟩ := run_front ran front'
      rw [step, start, replay, ran']
      exact ⟨_, rfl⟩

end Node

/-- The checkpoints in the window with the votes behind them. -/
def CheckpointCertifier.tallies (certifier : CheckpointCertifier) :
    List (Checkpoint × List (Digest × CheckpointAccumulator) × Option CertifiedCheckpoint) :=
  certifier.window.map fun entry => (entry.localCheckpoint, entry.accumulators, entry.certificate)

theorem CheckpointCertifier.relabel_tallies {certifier certifier' : CheckpointCertifier}
    (alike : certifier.relabel id = certifier'.relabel id) : certifier.tallies = certifier'.tallies := by
  have shown (certifier : CheckpointCertifier) : certifier.tallies = (certifier.relabel id).tallies := by
    rw [tallies, tallies, relabel, List.map_map]
    rfl
  rw [shown, shown certifier', alike]

/-- Restarts at any points leave what one process would have reached, and one
commitment is submitted for each anchor. -/
theorem Node.recovery_exact [Hasher] [BuildProfile] {config : ValidatorConfig}
    {deliveries : List Delivery} {events : List NodeEvent} {minted : List (Option Checkpoint)}
    {once : Driver} (ran : run Driver.deliver (.new config) deliveries = .ok (minted, once))
    (same : events.filterMap NodeEvent.committed = deliveries.map Delivery.subdag) :
    ∃ outputs node, run (step config) (fresh config) events = .ok (outputs, node) ∧
      (node.queue = [] →
        node.driver.state.scheduler = once.state.scheduler ∧ node.driver.count = once.count ∧
        node.driver.state.certifier.pending = once.state.certifier.pending ∧
        node.driver.state.certifier.tallies = once.state.certifier.tallies ∧
        node.driver.state.certifier.highestCertified = once.state.certifier.highestCertified) ∧
      ((deliveries.map (·.subdag.anchor)).Nodup →
        ∀ first ∈ node.submitted, ∀ second ∈ node.submitted, first.anchor = second.anchor →
          first.commitment = second.commitment) := by
  obtain ⟨outputs, node, finished, consistent, whole⟩ := run_progress
    (fun (events : List NodeEvent) (node : Node) => node.Consistent config ∧
      node.wal ++ events.filterMap NodeEvent.committed = deliveries.map Delivery.subdag)
    (by
      intro node event events held
      obtain ⟨consistent, whole⟩ := held
      obtain ⟨next, stepped⟩ := step_returns event ran consistent ⟨_, whole⟩
      obtain ⟨kept, grown⟩ := step_consistent consistent stepped
      refine ⟨(), next, stepped, kept, ?_⟩
      rw [grown, List.append_assoc, ← List.filterMap_append]
      exact whole)
    ⟨fresh_consistent config, same⟩
  rw [List.filterMap_nil, List.append_nil] at whole
  refine ⟨outputs, node, finished, fun received => ?_, fun distinct first listed second listed' => ?_⟩
  · obtain ⟨taken, _, split, ran'⟩ := consistent.received
    rw [received, List.append_nil, whole] at split
    obtain ⟨last, retimed, alike⟩ := Driver.run_retimed rfl split.symm ran
    obtain rfl : node.driver = last := (Prod.mk.inj (Except.ok.inj (ran'.symm.trans retimed))).2
    obtain ⟨states, counts⟩ := Driver.mk.inj alike
    obtain ⟨schedulers, certifiers⟩ := ExecutionState.mk.inj states
    have pending := CheckpointCertifier.relabel_pending certifiers
    rw [List.map_id, List.map_id] at pending
    exact ⟨schedulers, counts, pending, CheckpointCertifier.relabel_tallies certifiers,
      CheckpointCertifier.relabel_highestCertified certifiers⟩
  · apply Canonical.unique _ (consistent.submitted first listed) (consistent.submitted second listed')
    rw [whole, List.map_map]
    exact distinct

end

section

attribute [local instance] plainDag checkedBuild blake2b

def plainConfig : ValidatorConfig := ⟨fakeExecutor, plainCommittee 2 (by decide), 1⟩

/-- A sub-dag is recorded and received. -/
def hearing (subdag : CommittedSubDag) : List NodeEvent := [.commit subdag, .receive ⟨5⟩]

private def restarts : List NodeEvent :=
  (plainStream FakeFunctionId.successId).flatMap fun subdag => hearing subdag ++ [.restart]

theorem restarts_recover :
    ∃ minted once outputs node,
      run Driver.deliver (.new plainConfig)
        ((plainStream FakeFunctionId.successId).map fun subdag => ⟨⟨9⟩, subdag⟩) =
          .ok (minted, once) ∧
      run (Node.step plainConfig) (Node.fresh plainConfig) restarts = .ok (outputs, node) ∧
      node.driver.count = once.count ∧
      node.driver.state.certifier.highestCertified = once.state.certifier.highestCertified ∧
      ∀ first ∈ node.submitted, ∀ second ∈ node.submitted, first.anchor = second.anchor →
        first.commitment = second.commitment := by
  obtain ⟨⟨minted, once⟩, ran⟩ : ∃ result, run Driver.deliver (.new plainConfig)
      ((plainStream FakeFunctionId.successId).map fun subdag => ⟨⟨9⟩, subdag⟩) = .ok result := ⟨_, rfl⟩
  have committed : restarts.filterMap NodeEvent.committed =
      ((plainStream FakeFunctionId.successId).map fun subdag =>
        (⟨⟨9⟩, subdag⟩ : Delivery)).map Delivery.subdag := rfl
  obtain ⟨outputs, node, finished, recovered, agreed⟩ := Node.recovery_exact ran committed
  have received : (fun result : List Unit × Node => result.2.queue) <$>
      run (Node.step plainConfig) (Node.fresh plainConfig) restarts = .ok [] := rfl
  rw [finished] at received
  obtain ⟨-, counts, -, -, highest⟩ := recovered (Except.ok.inj received)
  exact ⟨minted, once, outputs, node, ran, finished, counts, highest,
    agreed (plainStream_admissible _).anchors.distinct⟩

end

end BlockchainValidator
