import BlockchainValidator.Validator.Stream

/-! # The driver loop

Replay and the live loop feed sub-dags to the same execution state and count
what they execute.  They differ in the clock alone.
-/

namespace BlockchainValidator

open Execution Run

section

variable [Dag]

structure ValidatorConfig where
  engine : ExecutionEngine
  committee : Committee
  quorum : UInt64

structure Driver where
  state : ExecutionState
  /-- The transactions executed so far. -/
  count : UInt64

namespace Driver

def new (config : ValidatorConfig) : Driver :=
  ⟨.new config.engine config.committee config.quorum, 0⟩

/-- One iteration, with the checkpoint that it mints. -/
def deliver [Hasher] [BuildProfile] (driver : Driver) (delivery : Delivery) :
    Except Panic (Option Checkpoint × Driver) := do
  let (outcome, state) ← driver.state.deliver delivery
  let count ← addU64 driver.count (UInt64.ofNat outcome.executed)
  .ok (outcome.minted, ⟨state, count⟩)

def untimed (driver : Driver) : Driver :=
  ⟨⟨driver.state.scheduler, driver.state.certifier.relabel id⟩, driver.count⟩

end Driver

/-- The checkpoint that a validator mints for an anchor of the stream. -/
def Canonical [Hasher] (engine : ExecutionEngine) (stream : List CommittedSubDag)
    (checkpoint : Checkpoint) : Prop :=
  ∃ before subdag after statuses scheduler, stream = before ++ subdag :: after ∧
    checkpoint.anchor = subdag.anchor ∧
    (SequentialScheduler.new engine).execute
        ((before ++ [subdag]).flatMap CommittedSubDag.transactions) = .ok (statuses, scheduler) ∧
    checkpoint.commitment = scheduler.store.commitment

theorem Canonical.append [Hasher] {engine : ExecutionEngine} {stream : List CommittedSubDag}
    {checkpoint : Checkpoint} (canonical : Canonical engine stream checkpoint)
    (more : List CommittedSubDag) : Canonical engine (stream ++ more) checkpoint := by
  obtain ⟨before, subdag, after, statuses, scheduler, rfl, anchor, executed, commitment⟩ := canonical
  exact ⟨before, subdag, after ++ more, statuses, scheduler, by simp, anchor, executed, commitment⟩

theorem Canonical.unique [Hasher] {engine : ExecutionEngine} {stream : List CommittedSubDag}
    {first second : Checkpoint} (distinct : (stream.map CommittedSubDag.anchor).Nodup)
    (canonical : Canonical engine stream first) (canonical' : Canonical engine stream second)
    (same : first.anchor = second.anchor) : first.commitment = second.commitment := by
  obtain ⟨before, subdag, after, _, scheduler, split, anchor, executed, commitment⟩ := canonical
  obtain ⟨before', subdag', after', _, scheduler', split', anchor', executed', commitment'⟩ :=
    canonical'
  have equal : subdag.anchor = subdag'.anchor := by rw [← anchor, ← anchor', same]
  have found : (stream.map CommittedSubDag.anchor)[before.length]? = some subdag.anchor := by
    rw [split]
    simp
  have found' : (stream.map CommittedSubDag.anchor)[before'.length]? = some subdag.anchor := by
    rw [split', equal]
    simp
  have inside := (List.getElem?_eq_some_iff.mp found).1
  have index : before.length = before'.length :=
    (List.getElem?_inj inside distinct).mp (found.trans found'.symm)
  obtain ⟨rfl, rest⟩ := List.append_inj (split.symm.trans split') index
  obtain ⟨rfl, -⟩ := List.cons.inj rest
  rw [executed] at executed'
  cases executed'
  rw [commitment, commitment']

section

variable [Hasher] [BuildProfile] {state state' next : ExecutionState} {now : Duration}
  {subdag : CommittedSubDag} {outcome : SubdagOutcome} {outcomes : List SubdagOutcome}
  {delivery delivery' : Delivery} {deliveries deliveries' : List Delivery} {driver driver' last : Driver}
  {minted : List (Option Checkpoint)}

theorem Driver.deliver_ok {checkpoint : Option Checkpoint} :
    driver.deliver delivery = .ok (checkpoint, last) ↔
      ∃ outcome, driver.state.deliver delivery = .ok (outcome, last.state) ∧
        addU64 driver.count (UInt64.ofNat outcome.executed) = .ok last.count ∧
        checkpoint = outcome.minted := by
  apply Iff.intro
  · intro delivered
    obtain ⟨⟨outcome, state⟩, executed, counted⟩ := bind_eq_ok.mp delivered
    obtain ⟨count, added, done⟩ := bind_eq_ok.mp counted
    cases done
    exact ⟨outcome, executed, added, rfl⟩
  · intro delivered
    obtain ⟨outcome, executed, added, rfl⟩ := delivered
    rw [deliver, executed, bind_ok]
    simp only [added, bind_ok]

/-! ## Clocks do not matter -/

theorem ExecutionState.executeSubdag_retimed (scheduler : state'.scheduler = state.scheduler)
    (alike : state'.certifier.relabel id = state.certifier.relabel id)
    (executed : state.executeSubdag now subdag = .ok (outcome, next)) (now' : Duration) :
    ∃ outcome' next', state'.executeSubdag now' subdag = .ok (outcome', next') ∧
      outcome'.statuses = outcome.statuses ∧ outcome'.minted = outcome.minted ∧
      next'.scheduler = next.scheduler ∧
      next'.certifier.relabel id = next.certifier.relabel id := by
  obtain ⟨statuses, after, sum, formed, certifier, summed, batch, recorded, rfl, rfl⟩ :=
    executeSubdag_ok.mp executed
  have minted := CheckpointCertifier.mint_relabel alike.symm subdag after.store.commitment
    after.store.commitment rfl now now' sum sum
  obtain ⟨formed', certifier', recorded', -, relabelled⟩ := recordVotes_alike id_keeps minted recorded
  exact ⟨_, _, executeSubdag_ok.mpr ⟨statuses, after, sum, formed', certifier', summed,
    scheduler ▸ batch, recorded', rfl, rfl⟩, rfl, rfl, rfl, relabelled⟩

theorem Driver.deliver_retimed (alike : driver'.untimed = driver.untimed)
    (same : delivery'.subdag = delivery.subdag) {checkpoint : Option Checkpoint}
    (delivered : driver.deliver delivery = .ok (checkpoint, last)) :
    ∃ last', driver'.deliver delivery' = .ok (checkpoint, last') ∧ last'.untimed = last.untimed := by
  obtain ⟨states, counts⟩ := Driver.mk.inj alike
  obtain ⟨schedulers, certifiers⟩ := ExecutionState.mk.inj states
  obtain ⟨outcome, executed, added, rfl⟩ := deliver_ok.mp delivered
  obtain ⟨outcome', state', executed', statuses, minted, scheduler, certifier⟩ :=
    ExecutionState.executeSubdag_retimed schedulers certifiers executed delivery'.now
  refine ⟨⟨state', last.count⟩, deliver_ok.mpr ⟨outcome', ?_, ?_, minted.symm⟩, ?_⟩
  · rw [ExecutionState.deliver, same]
    exact executed'
  · rw [SubdagOutcome.executed, statuses, counts]
    exact added
  · simp only [untimed, scheduler, certifier]

theorem Driver.run_retimed (alike : driver'.untimed = driver.untimed)
    (same : deliveries.map Delivery.subdag = deliveries'.map Delivery.subdag)
    (ran : run deliver driver deliveries = .ok (minted, last)) :
    ∃ last', run deliver driver' deliveries' = .ok (minted, last') ∧ last'.untimed = last.untimed := by
  have paired : List.Forall₂ (fun delivery delivery' => delivery'.subdag = delivery.subdag) deliveries
      deliveries' := by
    have equal : List.Forall₂ (· = ·) (deliveries'.map Delivery.subdag)
        (deliveries.map Delivery.subdag) := by rw [List.forall₂_eq_eq_eq, same]
    rw [List.forall₂_map_left_iff, List.forall₂_map_right_iff] at equal
    exact equal.flip
  have simulated (driver driver' : Driver) (delivery delivery' : Delivery)
      (checkpoint : Option Checkpoint) (next : Driver) (alike : driver'.untimed = driver.untimed)
      (same : delivery'.subdag = delivery.subdag)
      (delivered : driver.deliver delivery = .ok (checkpoint, next)) :
      ∃ checkpoint' next', driver'.deliver delivery' = .ok (checkpoint', next') ∧
        checkpoint = checkpoint' ∧ next'.untimed = next.untimed := by
    obtain ⟨next', delivered', kept⟩ := deliver_retimed alike same delivered
    exact ⟨checkpoint, next', delivered', rfl, kept⟩
  obtain ⟨minted', last', ran', outputs, final⟩ := run_simulation simulated alike paired ran
  rw [List.forall₂_eq_eq_eq] at outputs
  exact ⟨last', outputs ▸ ran', final⟩

/-! ## What a driver mints is canonical -/

theorem Driver.run_state (ran : run deliver driver deliveries = .ok (minted, last)) :
    ∃ outcomes, run ExecutionState.deliver driver.state deliveries = .ok (outcomes, last.state) ∧
      minted = outcomes.map SubdagOutcome.minted := by
  induction deliveries generalizing driver minted with
  | nil =>
      cases ran
      exact ⟨[], rfl, rfl⟩
  | cons delivery deliveries ih =>
      obtain ⟨checkpoint, middle, rest, _, delivered, tail, same⟩ := run_cons_ok.mp ran
      cases same
      obtain ⟨outcome, executed, -, rfl⟩ := deliver_ok.mp delivered
      obtain ⟨outcomes, continued, rfl⟩ := ih tail
      exact ⟨outcome :: outcomes, run_cons_ok.mpr ⟨_, _, _, _, executed, continued, rfl⟩, rfl⟩

theorem Driver.deliver_canonical {config : ValidatorConfig}
    (front : run deliver (.new config) deliveries = .ok (minted, driver))
    {checkpoint : Checkpoint} (delivered : driver.deliver delivery = .ok (some checkpoint, last)) :
    Canonical config.engine ((deliveries ++ [delivery]).map Delivery.subdag) checkpoint := by
  obtain ⟨outcome, executed, -, mints⟩ := deliver_ok.mp delivered
  obtain ⟨outcomes, ran, -⟩ := run_state front
  obtain ⟨statuses, scheduler, _, _, _, -, batch, -, rfl, -⟩ :=
    ExecutionState.executeSubdag_ok.mp executed
  have whole := SequentialScheduler.execute_append_ok.mpr
    ⟨_, _, _, ExecutionState.run_scheduler ran, batch, rfl⟩
  rw [CommittedSubDag.minted] at mints
  split at mints
  · cases mints
  · cases mints
    refine ⟨deliveries.map Delivery.subdag, delivery.subdag, [],
      outcomes.flatMap SubdagOutcome.statuses ++ statuses, scheduler, by simp, rfl, ?_, rfl⟩
    rw [List.flatMap_append, List.flatMap_map, List.flatMap_singleton]
    exact whole

/-- Whatever is minted or pending belongs to the stream's own history. -/
theorem Driver.run_canonical {config : ValidatorConfig}
    (ran : run deliver (.new config) deliveries = .ok (minted, last)) :
    (∀ checkpoint, some checkpoint ∈ minted →
      Canonical config.engine (deliveries.map Delivery.subdag) checkpoint) ∧
    ∀ checkpoint ∈ last.state.certifier.pending,
      Canonical config.engine (deliveries.map Delivery.subdag) checkpoint := by
  refine run_history
    (fun deliveries minted driver =>
      (∀ checkpoint, some checkpoint ∈ minted →
        Canonical config.engine (deliveries.map Delivery.subdag) checkpoint) ∧
      ∀ checkpoint ∈ driver.state.certifier.pending,
        Canonical config.engine (deliveries.map Delivery.subdag) checkpoint) ?_ ?_ ran
  · intro deliveries minted driver delivery new next front held delivered
    obtain ⟨mintedBefore, pendingBefore⟩ := held
    have kept (checkpoint : Checkpoint)
        (earlier : Canonical config.engine (deliveries.map Delivery.subdag) checkpoint) :
        Canonical config.engine ((deliveries ++ [delivery]).map Delivery.subdag) checkpoint := by
      rw [List.map_append]
      exact earlier.append _
    refine ⟨fun checkpoint listed => ?_, fun checkpoint listed => ?_⟩
    · rcases List.mem_append.mp listed with earlier | now
      · exact kept checkpoint (mintedBefore checkpoint earlier)
      · rw [← List.mem_singleton.mp now] at delivered
        exact deliver_canonical front delivered
    · obtain ⟨outcome, executed, -, rfl⟩ := deliver_ok.mp delivered
      rcases List.mem_append.mp ((ExecutionState.deliver_pending executed).subset listed) with
        earlier | now
      · exact kept checkpoint (pendingBefore checkpoint earlier)
      · rw [Option.mem_toList.mp now] at delivered
        exact deliver_canonical front delivered
  · exact ⟨fun _ listed => (by cases listed), fun _ listed => (by cases listed)⟩

end

end

end BlockchainValidator
