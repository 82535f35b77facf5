import BlockchainValidator.Checkpoint.Timings
import BlockchainValidator.Validator.Recovery
import BlockchainValidator.Validator.Settlement

/-! # Certification latencies across restarts

The live driver measures a certificate from the mint of its checkpoint to the
delivery that forms it.  A checkpoint that replay rebuilds is minted at the
clock's zero, so a latency is a real time span only if no delivery certifies one.
-/

namespace BlockchainValidator

open Execution Run

/-- What the certification histograms were given. -/
structure ValidatorMetrics where
  checkpointCertificationLatency : List Duration
  endToEndLatency : List Duration

namespace ValidatorMetrics

def new : ValidatorMetrics := ⟨[], []⟩

def observeCheckpointCertificationLatency (metrics : ValidatorMetrics) (latency : Duration) :
    ValidatorMetrics :=
  { metrics with checkpointCertificationLatency := metrics.checkpointCertificationLatency ++ [latency] }

def observeEndToEndLatency (metrics : ValidatorMetrics) (latency : Duration) : ValidatorMetrics :=
  { metrics with endToEndLatency := metrics.endToEndLatency ++ [latency] }

/-- The observations of one delivery, vote by vote. -/
def observe (metrics : ValidatorMetrics) (observed : List CertificationLatencies) :
    ValidatorMetrics :=
  observed.foldl (fun metrics latencies =>
    (metrics.observeCheckpointCertificationLatency latencies.certification).observeEndToEndLatency
      latencies.endToEnd) metrics

theorem observe_certification (metrics : ValidatorMetrics) (observed : List CertificationLatencies) :
    (metrics.observe observed).checkpointCertificationLatency =
      metrics.checkpointCertificationLatency ++ observed.map CertificationLatencies.certification := by
  induction observed generalizing metrics with
  | nil => exact (List.append_nil _).symm
  | cons latencies observed ih =>
      rw [List.map_cons, List.append_cons]
      exact ih _

end ValidatorMetrics

section

variable [Dag]

/-! ## The clock of a mint -/

/-- The delivery mints the checkpoint of `anchor`, with these timings. -/
def Delivery.Stamps (delivery : Delivery) (anchor : BlockReference) (timings : CheckpointTimings) :
    Prop :=
  delivery.subdag.Mints anchor ∧ timings.mintedAt = delivery.now

section

variable [BuildProfile]

/-- Each certificate takes the timings of a pending checkpoint for its anchor. -/
theorem ExecutionState.recordVotes_pendingTimings {certifier next : CheckpointCertifier}
    {anchor : BlockReference} {votes : List (Authority × Checkpoint)}
    {formed : List (Option Formed)}
    (recorded : recordVotes certifier anchor votes = .ok (formed, next)) :
    next.pendingTimings <:+ certifier.pendingTimings ∧
      ∀ certified, some certified ∈ formed → ∃ minted,
        (minted, certified.2) ∈ certifier.pendingTimings ∧
          minted.anchor = certified.1.checkpoint.anchor := by
  refine run_history (fun _ formed next => next.pendingTimings <:+ certifier.pendingTimings ∧
    ∀ certified, some certified ∈ formed → ∃ minted,
      (minted, certified.2) ∈ certifier.pendingTimings ∧
        minted.anchor = certified.1.checkpoint.anchor) ?_ ⟨List.suffix_rfl, nofun⟩ recorded
  intro _ formed middle vote output next _ held tallied
  obtain ⟨kept, surrendered⟩ := held
  obtain ⟨shrinks, surrenders⟩ := CheckpointCertifier.tally_pendingTimings tallied
  refine ⟨shrinks.trans kept, fun certified listed => ?_⟩
  rcases List.mem_append.mp listed with earlier | last
  · exact surrendered certified earlier
  · obtain ⟨minted, waiting, same⟩ := surrenders certified (List.mem_singleton.mp last).symm
    exact ⟨minted, kept.subset waiting, same⟩

variable [Hasher] {engine : ExecutionEngine} {committee : Committee} {quorum : UInt64}
  {state next last : ExecutionState} {delivery : Delivery} {deliveries : List Delivery}
  {outcome : SubdagOutcome} {outcomes : List SubdagOutcome}

theorem ExecutionState.deliver_pendingTimings
    (delivered : state.deliver delivery = .ok (outcome, next)) :
    (∀ waiting ∈ next.certifier.pendingTimings,
      waiting ∈ state.certifier.pendingTimings ∨ delivery.Stamps waiting.1.anchor waiting.2) ∧
    ∀ certified, some certified ∈ outcome.formed → ∃ minted,
      ((minted, certified.2) ∈ state.certifier.pendingTimings ∨
        delivery.Stamps minted.anchor certified.2) ∧
      minted.anchor = certified.1.checkpoint.anchor := by
  obtain ⟨now, subdag⟩ := delivery
  obtain ⟨statuses, scheduler, sum, formed, certifier, -, -, recorded, rfl, rfl⟩ :=
    executeSubdag_ok.mp delivered
  obtain ⟨shrinks, surrendered⟩ := recordVotes_pendingTimings recorded
  have stamped : ∀ waiting ∈ (state.certifier.mint subdag scheduler.store.commitment now
      sum).pendingTimings, waiting ∈ state.certifier.pendingTimings ∨
        (⟨now, subdag⟩ : Delivery).Stamps waiting.1.anchor waiting.2 := by
    intro waiting listed
    rw [CheckpointCertifier.mint] at listed
    split at listed
    · exact .inl listed
    · rename_i executes
      rw [CheckpointCertifier.push_pendingTimings] at listed
      rcases List.mem_append.mp listed with earlier | last
      · exact .inl earlier
      · rw [List.mem_singleton.mp last]
        exact .inr ⟨⟨rfl, executes⟩, rfl⟩
  refine ⟨fun waiting listed => stamped waiting (shrinks.subset listed), fun certified listed => ?_⟩
  obtain ⟨minted, waiting, same⟩ := surrendered certified listed
  exact ⟨minted, stamped _ waiting, same⟩

theorem ExecutionState.deliver_minted {anchor : BlockReference}
    (delivered : state.deliver delivery = .ok (outcome, next))
    (mints : delivery.subdag.Mints anchor) :
    ∃ checkpoint, outcome.minted = some checkpoint ∧ checkpoint.anchor = anchor := by
  obtain ⟨rfl, executes⟩ := mints
  obtain ⟨_, scheduler, _, _, _, -, -, -, rfl, -⟩ := executeSubdag_ok.mp delivered
  exact ⟨⟨delivery.subdag.anchor, scheduler.store.commitment⟩, if_neg executes, rfl⟩

theorem ExecutionState.minted_anchor {checkpoint : Checkpoint}
    (delivered : state.deliver delivery = .ok (outcome, next))
    (minted : outcome.minted = some checkpoint) : checkpoint.anchor = delivery.subdag.anchor := by
  obtain ⟨_, _, _, _, _, -, -, -, rfl, -⟩ := executeSubdag_ok.mp delivered
  rw [CommittedSubDag.minted] at minted
  split at minted
  · cases minted
  · cases minted
    rfl

/-- What is pending was stamped by the delivery that minted it. -/
theorem ExecutionState.run_stamped
    (ran : run deliver (.new engine committee quorum) deliveries = .ok (outcomes, last)) :
    ∀ waiting ∈ last.certifier.pendingTimings,
      ∃ delivery ∈ deliveries, delivery.Stamps waiting.1.anchor waiting.2 := by
  refine run_history (fun deliveries _ last => ∀ waiting ∈ last.certifier.pendingTimings,
    ∃ delivery ∈ deliveries, delivery.Stamps waiting.1.anchor waiting.2) ?_ nofun ran
  intro deliveries _ state delivery outcome next _ held delivered waiting listed
  rcases (deliver_pendingTimings delivered).1 waiting listed with earlier | new
  · obtain ⟨minting, listed', stamps⟩ := held waiting earlier
    exact ⟨minting, List.mem_append_left _ listed', stamps⟩
  · exact ⟨delivery, by simp, new⟩

theorem ExecutionState.formed_stamped
    (ran : run deliver (.new engine committee quorum) deliveries = .ok (outcomes, state))
    (delivered : state.deliver delivery = .ok (outcome, next)) {certified : Formed}
    (formed : some certified ∈ outcome.formed) :
    ∃ minting ∈ deliveries ++ [delivery],
      minting.Stamps certified.1.checkpoint.anchor certified.2 := by
  obtain ⟨minted, stamped, same⟩ := (deliver_pendingTimings delivered).2 certified formed
  rw [← same]
  rcases stamped with earlier | new
  · obtain ⟨minting, listed, stamps⟩ := run_stamped ran _ earlier
    exact ⟨minting, List.mem_append_left _ listed, stamps⟩
  · exact ⟨delivery, by simp, new⟩

end

/-! ## A validator with its metrics -/

theorem SubdagOutcome.observed_certification (outcome : SubdagOutcome) (now : Duration) :
    (outcome.observed now).map CertificationLatencies.certification =
      outcome.formed.reduceOption.map fun formed => now.saturatingSub formed.2.mintedAt := by
  rw [SubdagOutcome.observed, List.map_filterMap, List.reduceOption, List.map_filterMap]
  congr 1
  funext output
  cases output <;> rfl

theorem SubdagOutcome.certified_eq (outcome : SubdagOutcome) :
    outcome.certified = outcome.formed.reduceOption.map Prod.fst := by
  rw [SubdagOutcome.certified, certificates, List.reduceOption_map]

/-- A validator across incarnations, with the clock at its mints and certificates. -/
structure ClockedNode where
  node : Node
  metrics : ValidatorMetrics
  /-- The commits that the last start replayed. -/
  recovered : List CommittedSubDag
  /-- What the driver has received since. -/
  live : List Delivery
  /-- Every checkpoint minted, by any incarnation, and when. -/
  mints : List (Checkpoint × Duration)
  /-- The certificates formed since the last start, and when. -/
  certified : List (CertifiedCheckpoint × Duration)

inductive ClockedEvent where
  | commit (subdag : CommittedSubDag)
  | receive (now : Duration)
  /-- The process stops and starts again, and the clock reads `now`. -/
  | restart (now : Duration)

namespace ClockedEvent

def event : ClockedEvent → NodeEvent
  | commit subdag => .commit subdag
  | receive now => .receive now
  | restart _ => .restart

def reading : ClockedEvent → Option Duration
  | commit _ => none
  | receive now | restart now => some now

def committed (event : ClockedEvent) : Option CommittedSubDag := event.event.committed

end ClockedEvent

/-- The last reading of the clock in a process that started at `start`. -/
def latest (start : Duration) (events : List ClockedEvent) : Duration :=
  (events.filterMap ClockedEvent.reading).getLast?.getD start

theorem latest_receive (start now : Duration) (events : List ClockedEvent) :
    latest start (events ++ [.receive now]) = now := by
  simp [latest, ClockedEvent.reading]

/-- The clock does not go back while a process runs. -/
def Steady (start : Duration) (events : List ClockedEvent) : Prop :=
  ∀ front now, front ++ [.receive now] <+: events → (latest start front).nanos ≤ now.nanos

theorem Steady.nil (start : Duration) : Steady start [] := by
  intro front now shown
  simp at shown

theorem Steady.concat {start : Duration} {events : List ClockedEvent} {event : ClockedEvent}
    (steady : Steady start events)
    (later : ∀ now, event = .receive now → (latest start events).nanos ≤ now.nanos) :
    Steady start (events ++ [event]) := by
  intro front now shown
  rcases List.prefix_concat_iff.mp shown with whole | earlier
  · obtain ⟨rfl, same⟩ := List.append_inj' whole rfl
    exact later now (List.cons.inj same).1.symm
  · exact steady front now earlier

namespace ClockedNode

def fresh (config : ValidatorConfig) : ClockedNode := ⟨.fresh config, .new, [], [], [], []⟩

def received (node : ClockedNode) : List CommittedSubDag :=
  node.recovered ++ node.live.map Delivery.subdag

section

variable [Hasher] [BuildProfile]

/-- A step of the validator.  Replay discards its metrics, and what it mints is
minted when the process starts. -/
def step (config : ValidatorConfig) (node : ClockedNode) (event : ClockedEvent) :
    Except Panic (Unit × ClockedNode) := do
  let (_, next) ← node.node.step config event.event
  match event with
  | .commit _ => .ok ((), { node with node := next })
  | .receive now =>
      match node.node.queue with
      | [] => .ok ((), { node with node := next })
      | subdag :: _ => do
          let (outcome, _) ← node.node.driver.state.deliver ⟨now, subdag⟩
          .ok ((), { node with
            node := next
            metrics := node.metrics.observe (outcome.observed now)
            live := node.live ++ [⟨now, subdag⟩]
            mints := node.mints ++ outcome.minted.toList.map (·, now)
            certified := node.certified ++ outcome.certified.map (·, now) })
  | .restart now => do
      let (minted, _) ← run Driver.deliver (.new config) (Node.replayed node.node.wal)
      .ok ((), ⟨next, .new, node.node.wal, [], node.mints ++ minted.reduceOption.map (·, now), []⟩)

/-- The state that `events` lead to. -/
def ReachedBy (config : ValidatorConfig) (events : List ClockedEvent) (node : ClockedNode) : Prop :=
  ∃ outputs, run (step config) (fresh config) events = .ok (outputs, node)

end

/-- The checkpoint was minted at a reading `latency` or more before the
certificate's. -/
def Real (mints : List (Checkpoint × Duration)) (latency : Duration)
    (certified : CertifiedCheckpoint × Duration) : Prop :=
  ∃ minted ∈ mints, minted.1.anchor = certified.1.checkpoint.anchor ∧
    latency.nanos + minted.2.nanos ≤ certified.2.nanos

/-- One latency is observed for each certificate formed live, and each is real. -/
def RealLatencies (node : ClockedNode) : Prop :=
  List.Forall₂ (Real node.mints) node.metrics.checkpointCertificationLatency node.certified

/-- The clock read zero at a mint of the checkpoint. -/
def MintedAtZero (node : ClockedNode) (anchor : BlockReference) : Prop :=
  ∃ minted ∈ node.mints, minted.1.anchor = anchor ∧ minted.2 = .zero

/-- No delivered sub-dag brings a checkpoint that the process replayed to its
quorum, unless the clock read zero at a mint of it. -/
def Timely (config : ValidatorConfig) (node : ClockedNode) : ClockedEvent → Prop
  | .commit _ | .restart _ => True
  | .receive _ => ∀ subdag ∈ node.node.queue.head?,
      ∀ anchor ∈ node.recovered.map CommittedSubDag.anchor,
        Settled config.committee config.quorum (node.received ++ [subdag]) anchor →
          Settled config.committee config.quorum node.received anchor ∨ node.MintedAtZero anchor

/-! ## One step -/

section

variable [Hasher] [BuildProfile] {config : ValidatorConfig} {node next : ClockedNode}
  {event : ClockedEvent}

theorem step_commit {subdag : CommittedSubDag}
    (stepped : node.step config (.commit subdag) = .ok ((), next)) :
    next = { node with node := { node.node with
      wal := node.node.wal ++ [subdag], queue := node.node.queue ++ [subdag] } } := by
  cases stepped
  rfl

theorem step_idle {now : Duration} (waiting : node.node.queue = [])
    (stepped : node.step config (.receive now) = .ok ((), next)) : next = node := by
  rw [step, ClockedEvent.event, Node.step] at stepped
  simp only [waiting, bind_ok] at stepped
  cases stepped
  rfl

/-- A delivery runs the driver once and observes what its votes certify. -/
theorem step_receive {now : Duration} {subdag : CommittedSubDag} {queue : List CommittedSubDag}
    (waiting : node.node.queue = subdag :: queue)
    (stepped : node.step config (.receive now) = .ok ((), next)) :
    ∃ outcome driver submitted, node.node.driver.deliver ⟨now, subdag⟩ = .ok (outcome.minted, driver) ∧
      node.node.driver.state.deliver ⟨now, subdag⟩ = .ok (outcome, driver.state) ∧
      next = {
        node := { node.node with queue, driver, submitted }
        metrics := node.metrics.observe (outcome.observed now)
        recovered := node.recovered
        live := node.live ++ [⟨now, subdag⟩]
        mints := node.mints ++ outcome.minted.toList.map (·, now)
        certified := node.certified ++ outcome.certified.map (·, now) } := by
  obtain ⟨⟨_, inner⟩, moved, observed⟩ := bind_eq_ok.mp stepped
  rw [ClockedEvent.event, Node.step] at moved
  simp only [waiting] at moved observed
  obtain ⟨⟨minted, driver⟩, delivered, done⟩ := bind_eq_ok.mp moved
  cases done
  obtain ⟨outcome, executed, -, rfl⟩ := Driver.deliver_ok.mp delivered
  rw [executed, bind_ok] at observed
  cases observed
  exact ⟨outcome, driver, _, delivered, executed, rfl⟩

/-- A start replays the WAL at the clock's zero and forgets the metrics. -/
theorem step_restart {now : Duration} (stepped : node.step config (.restart now) = .ok ((), next)) :
    ∃ minted driver submitted,
      run Driver.deliver (.new config) (Node.replayed node.node.wal) = .ok (minted, driver) ∧
      next = {
        node := { wal := node.node.wal, queue := [], driver, submitted }
        metrics := .new
        recovered := node.node.wal
        live := []
        mints := node.mints ++ minted.reduceOption.map (·, now)
        certified := [] } := by
  obtain ⟨⟨_, inner⟩, moved, observed⟩ := bind_eq_ok.mp stepped
  obtain ⟨_, started, done⟩ := map_eq_ok.mp moved
  cases done
  obtain ⟨driver, replays, done⟩ := bind_eq_ok.mp started
  cases done
  obtain ⟨⟨minted, _⟩, ran, rfl⟩ := map_eq_ok.mp replays
  dsimp only at observed
  rw [ran, bind_ok] at observed
  cases observed
  exact ⟨minted, _, _, ran, rfl⟩

end

/-! ## What a run keeps -/

theorem Real.append {mints more : List (Checkpoint × Duration)} {latency : Duration}
    {certified : CertifiedCheckpoint × Duration} (real : Real mints latency certified) :
    Real (mints ++ more) latency certified := by
  obtain ⟨minted, listed, span⟩ := real
  exact ⟨minted, List.mem_append_left _ listed, span⟩

theorem MintedAtZero.append {node next : ClockedNode} {anchor : BlockReference}
    (zero : node.MintedAtZero anchor)
    {more : List (Checkpoint × Duration)} (grown : next.mints = node.mints ++ more) :
    next.MintedAtZero anchor := by
  obtain ⟨minted, listed, same⟩ := zero
  exact ⟨minted, grown ▸ List.mem_append_left _ listed, same⟩

/-- How a latency comes about: for a checkpoint that the process replayed it is
the reading itself, for any other one it is real. -/
def Measured (recovered : List CommittedSubDag) (mints : List (Checkpoint × Duration))
    (latency : Duration) (certified : CertifiedCheckpoint × Duration) : Prop :=
  (certified.1.checkpoint.anchor ∈ recovered.map CommittedSubDag.anchor ∧ latency = certified.2) ∨
  (certified.1.checkpoint.anchor ∉ recovered.map CommittedSubDag.anchor ∧
    Real mints latency certified)

theorem Measured.real_iff {node : ClockedNode} {latency : Duration}
    {certified : CertifiedCheckpoint × Duration}
    (measured : Measured node.recovered node.mints latency certified) :
    Real node.mints latency certified ↔
      (certified.1.checkpoint.anchor ∈ node.recovered.map CommittedSubDag.anchor →
        node.MintedAtZero certified.1.checkpoint.anchor) := by
  rcases measured with ⟨replayed, rfl⟩ | ⟨live, real⟩
  · apply Iff.intro
    · intro real _
      obtain ⟨minted, listed, same, span⟩ := real
      have zero : minted.2.nanos = 0 := by omega
      exact ⟨minted, listed, same, congrArg Duration.mk zero⟩
    · intro zero
      obtain ⟨minted, listed, same, at_zero⟩ := zero replayed
      have span : certified.2.nanos + minted.2.nanos ≤ certified.2.nanos := by
        rw [at_zero]
        exact Nat.le_refl _
      exact ⟨minted, listed, same, span⟩
  · exact ⟨fun _ replayed => absurd replayed live, fun _ => real⟩

theorem received_map (node : ClockedNode) :
    (Node.replayed node.recovered ++ node.live).map Delivery.subdag = node.received := by
  rw [List.map_append, Node.replayed_subdags]
  rfl

structure Sound [Hasher] [BuildProfile] (config : ValidatorConfig) (start : Duration)
    (events : List ClockedEvent) (node : ClockedNode) : Prop where
  recorded : node.node.wal = events.filterMap ClockedEvent.committed
  split : node.received ++ node.node.queue = node.node.wal
  driven : ∃ minted, run Driver.deliver (.new config) (Node.replayed node.recovered ++ node.live) =
    .ok (minted, node.node.driver)
  clocks : ∀ delivery ∈ node.live, delivery.now.nanos ≤ (latest start events).nanos
  minted : ∀ delivery ∈ node.live, ∀ anchor, delivery.subdag.Mints anchor →
    ∃ minted ∈ node.mints, minted.1.anchor = anchor ∧ minted.2 = delivery.now
  observed : List.Forall₂ (Measured node.recovered node.mints)
    node.metrics.checkpointCertificationLatency node.certified

section

variable [Hasher] [BuildProfile] {config : ValidatorConfig} {node next : ClockedNode}
  {event : ClockedEvent} {start : Duration} {events : List ClockedEvent}

theorem fresh_sound (config : ValidatorConfig) (start : Duration) :
    (fresh config).Sound config start [] where
  recorded := rfl
  split := rfl
  driven := ⟨[], rfl⟩
  clocks := nofun
  minted := nofun
  observed := .nil

/-- What the process receives live is nothing that it replayed. -/
theorem Sound.unreplayed (sound : node.Sound config start events)
    (distinct : ((events.filterMap ClockedEvent.committed).map CommittedSubDag.anchor).Nodup)
    {subdag : CommittedSubDag} {queue : List CommittedSubDag}
    (waiting : node.node.queue = subdag :: queue) :
    ∀ received ∈ node.live.map Delivery.subdag ++ [subdag],
      received.anchor ∉ node.recovered.map CommittedSubDag.anchor := by
  intro received listed replayed
  have whole : node.recovered ++ (node.live.map Delivery.subdag ++ [subdag]) ++ queue =
      events.filterMap ClockedEvent.committed := by
    rw [← sound.recorded, ← sound.split, waiting, ClockedNode.received]
    simp
  rw [← whole, List.map_append, List.map_append] at distinct
  have apart := (List.nodup_append.mp (List.nodup_append.mp distinct).1).2.2
  exact apart _ replayed _ (List.mem_map_of_mem listed) rfl

/-- What a delivery observes, from the delivery that minted the checkpoint. -/
theorem Sound.measured (sound : node.Sound config start events) {now : Duration}
    (distinct : ((events.filterMap ClockedEvent.committed).map CommittedSubDag.anchor).Nodup)
    (steady : (latest start events).nanos ≤ now.nanos) {subdag : CommittedSubDag}
    {queue : List CommittedSubDag} (waiting : node.node.queue = subdag :: queue)
    {outcome : SubdagOutcome} {state : ExecutionState}
    (delivered : node.node.driver.state.deliver ⟨now, subdag⟩ = .ok (outcome, state)) :
    List.Forall₂
      (Measured node.recovered (node.mints ++ outcome.minted.toList.map (·, now)))
      ((outcome.observed now).map CertificationLatencies.certification)
      (outcome.certified.map (·, now)) := by
  obtain ⟨minted, ran⟩ := sound.driven
  obtain ⟨outcomes, executed, -⟩ := Driver.run_state ran
  rw [SubdagOutcome.observed_certification, SubdagOutcome.certified_eq, List.map_map, List.forall₂_map_left_iff,
    List.forall₂_map_right_iff, List.forall₂_same]
  intro formed listed
  have formed' : some formed ∈ outcome.formed := List.reduceOption_mem_iff.mp listed
  obtain ⟨minting, taken, mints, stamped⟩ :=
    ExecutionState.formed_stamped executed delivered formed'
  have live := sound.unreplayed distinct waiting
  dsimp only [Function.comp_def]
  rw [stamped]
  simp only [List.mem_append, List.mem_singleton] at taken
  rcases taken with (replayed | earlier) | rfl
  · obtain ⟨recovered, listed', rfl⟩ := List.mem_map.mp replayed
    exact .inl ⟨List.mem_map.mpr ⟨recovered, listed', mints.1⟩, rfl⟩
  · obtain ⟨mint, known, same, reading⟩ := sound.minted minting earlier _ mints
    have before := sound.clocks minting earlier
    right
    refine ⟨mints.1 ▸ live _ (List.mem_append_left _ (List.mem_map_of_mem earlier)), mint,
      List.mem_append_left _ known, same, ?_⟩
    rw [reading]
    exact Nat.le_of_eq (Nat.sub_add_cancel (before.trans steady))
  · obtain ⟨checkpoint, minted, same⟩ := ExecutionState.deliver_minted delivered mints
    right
    refine ⟨mints.1 ▸ live _ (by simp), (checkpoint, now), ?_, same, ?_⟩
    · simp [minted]
    · exact Nat.le_of_eq (Nat.sub_add_cancel (Nat.le_refl _))

theorem Sound.commit (sound : node.Sound config start events) {subdag : CommittedSubDag}
    (stepped : node.step config (.commit subdag) = .ok ((), next)) :
    next.Sound config start (events ++ [.commit subdag]) := by
  obtain rfl := step_commit stepped
  have same : latest start (events ++ [.commit subdag]) = latest start events := by
    simp [latest, ClockedEvent.reading]
  exact {
    recorded := by rw [List.filterMap_append, ← sound.recorded]; rfl
    split := by rw [← sound.split, List.append_assoc]; rfl
    driven := sound.driven
    clocks := same ▸ sound.clocks
    minted := sound.minted
    observed := sound.observed }

theorem Sound.restart (sound : node.Sound config start events) {now : Duration}
    (stepped : node.step config (.restart now) = .ok ((), next)) :
    next.Sound config start (events ++ [.restart now]) := by
  obtain ⟨minted, driver, submitted, ran, rfl⟩ := step_restart stepped
  exact {
    recorded := by rw [List.filterMap_append, ← sound.recorded]; exact (List.append_nil _).symm
    split := by rw [ClockedNode.received]; simp
    driven := ⟨minted, by rw [List.append_nil]; exact ran⟩
    clocks := nofun
    minted := nofun
    observed := .nil }

theorem Sound.receive (sound : node.Sound config start events) {now : Duration}
    (distinct : ((events.filterMap ClockedEvent.committed).map CommittedSubDag.anchor).Nodup)
    (steady : (latest start events).nanos ≤ now.nanos)
    (stepped : node.step config (.receive now) = .ok ((), next)) :
    next.Sound config start (events ++ [.receive now]) := by
  have recorded : events.filterMap ClockedEvent.committed =
      (events ++ [ClockedEvent.receive now]).filterMap ClockedEvent.committed := by
    rw [List.filterMap_append]
    exact (List.append_nil _).symm
  cases waiting : node.node.queue with
  | nil =>
      obtain rfl := step_idle waiting stepped
      exact { sound with
        recorded := sound.recorded.trans recorded
        clocks := fun delivery listed => by
          rw [latest_receive]
          exact (sound.clocks delivery listed).trans steady }
  | cons subdag queue =>
      obtain ⟨outcome, driver, submitted, delivered, executed, rfl⟩ := step_receive waiting stepped
      have measured := sound.measured distinct steady waiting executed
      obtain ⟨minted, ran⟩ := sound.driven
      exact {
        recorded := sound.recorded.trans recorded
        split := by
          rw [← sound.split, waiting, ClockedNode.received, ClockedNode.received]
          simp
        driven := by
          refine ⟨minted ++ [outcome.minted], ?_⟩
          rw [← List.append_assoc]
          exact run_concat_ok.mpr ⟨_, _, _, _, ran, delivered, rfl⟩
        clocks := by
          intro delivery listed
          rw [latest_receive]
          rcases List.mem_append.mp listed with earlier | last
          · exact (sound.clocks delivery earlier).trans steady
          · rw [List.mem_singleton.mp last]
        minted := by
          intro delivery listed anchor mints
          rcases List.mem_append.mp listed with earlier | last
          · obtain ⟨mint, known, same⟩ := sound.minted delivery earlier anchor mints
            exact ⟨mint, List.mem_append_left _ known, same⟩
          · rw [List.mem_singleton.mp last] at mints ⊢
            obtain ⟨checkpoint, minted, same⟩ := ExecutionState.deliver_minted executed mints
            exact ⟨(checkpoint, now), by simp [minted], same, rfl⟩
        observed := by
          rw [ValidatorMetrics.observe_certification]
          apply List.rel_append
          · apply sound.observed.imp
            intro latency certified earlier
            exact earlier.imp_right (And.imp_right Real.append)
          · exact measured }

/-- A latency of a sound state is real if it is not for a replayed checkpoint or
the clock once read zero at a mint of it. -/
theorem Sound.real_iff (sound : node.Sound config start events) :
    node.RealLatencies ↔ ∀ certified ∈ node.certified,
      certified.1.checkpoint.anchor ∈ node.recovered.map CommittedSubDag.anchor →
        node.MintedAtZero certified.1.checkpoint.anchor := by
  have observed := sound.observed
  rw [RealLatencies]
  generalize node.metrics.checkpointCertificationLatency = latencies at observed ⊢
  generalize node.certified = certified at observed ⊢
  induction observed with
  | nil => simp
  | cons head _ ih =>
      rw [List.forall₂_cons, List.forall_mem_cons]
      exact and_congr head.real_iff ih

/-- A delivery certifies the anchors that its sub-dag settles. -/
theorem Sound.certifies (sound : node.Sound config start events)
    (admissible : Admissible ((events.filterMap ClockedEvent.committed).map CommittedSubDag.anchor))
    {subdag : CommittedSubDag} {queue : List CommittedSubDag}
    (waiting : node.node.queue = subdag :: queue) {now : Duration} {outcome : SubdagOutcome}
    {state : ExecutionState}
    (delivered : node.node.driver.state.deliver ⟨now, subdag⟩ = .ok (outcome, state))
    (anchor : BlockReference) :
    anchor ∈ outcome.certified.map (·.checkpoint.anchor) ↔
      ¬ Settled config.committee config.quorum node.received anchor ∧
      Settled config.committee config.quorum (node.received ++ [subdag]) anchor := by
  obtain ⟨minted, ran⟩ := sound.driven
  obtain ⟨outcomes, front, -⟩ := Driver.run_state ran
  have taken : (Node.replayed node.recovered ++ node.live ++
      [(⟨now, subdag⟩ : Delivery)]).map (·.subdag.anchor) =
        (node.received ++ [subdag]).map CommittedSubDag.anchor := by
    rw [← received_map]
    simp [Function.comp_def]
  have whole : (node.received ++ [subdag]) ++ queue =
      events.filterMap ClockedEvent.committed := by
    rw [← sound.recorded, ← sound.split, waiting, List.append_assoc]
    rfl
  rw [← whole, List.map_append, ← taken] at admissible
  rw [ExecutionState.certifies_iff admissible.left front delivered, received_map]

/-- A delivery mints no checkpoint that the process replayed. -/
theorem Sound.zero_earlier (sound : node.Sound config start events)
    (distinct : ((events.filterMap ClockedEvent.committed).map CommittedSubDag.anchor).Nodup)
    {subdag : CommittedSubDag} {queue : List CommittedSubDag}
    (waiting : node.node.queue = subdag :: queue) {now : Duration} {outcome : SubdagOutcome}
    {state : ExecutionState}
    (delivered : node.node.driver.state.deliver ⟨now, subdag⟩ = .ok (outcome, state))
    {anchor : BlockReference} (replayed : anchor ∈ node.recovered.map CommittedSubDag.anchor)
    (zero : next.MintedAtZero anchor)
    (grown : next.mints = node.mints ++ outcome.minted.toList.map (·, now)) :
    node.MintedAtZero anchor := by
  obtain ⟨mint, known, same, at_zero⟩ := zero
  rw [grown] at known
  rcases List.mem_append.mp known with earlier | new
  · exact ⟨mint, earlier, same, at_zero⟩
  · obtain ⟨checkpoint, minted, rfl⟩ := List.mem_map.mp new
    have fresh := sound.unreplayed distinct waiting subdag (by simp)
    rw [← same, ExecutionState.minted_anchor delivered (Option.mem_toList.mp minted)] at replayed
    exact absurd replayed fresh

/-- A delivery keeps the latencies real if it is timely, and only then. -/
theorem Sound.real_receive (sound : node.Sound config start events) {now : Duration}
    (admissible : Admissible ((events.filterMap ClockedEvent.committed).map CommittedSubDag.anchor))
    (steady : (latest start events).nanos ≤ now.nanos)
    (stepped : node.step config (.receive now) = .ok ((), next)) (real : node.RealLatencies) :
    next.RealLatencies ↔ node.Timely config (.receive now) := by
  have after := sound.receive admissible.distinct steady stepped
  rw [after.real_iff]
  rw [sound.real_iff] at real
  cases waiting : node.node.queue with
  | nil =>
      obtain rfl := step_idle waiting stepped
      apply iff_of_true real
      intro subdag first
      rw [waiting] at first
      cases first
  | cons subdag queue =>
      obtain ⟨outcome, driver, submitted, -, executed, rfl⟩ := step_receive waiting stepped
      have certifies := sound.certifies admissible waiting executed
      apply Iff.intro
      · intro zero first queued anchor replayed settles
        obtain rfl : subdag = first := by
          rw [waiting] at queued
          exact Option.some_inj.mp queued
        by_cases settled : Settled config.committee config.quorum node.received anchor
        · exact .inl settled
        · right
          obtain ⟨certificate, formed, rfl⟩ :=
            List.mem_map.mp ((certifies anchor).mpr ⟨settled, settles⟩)
          have later := zero (certificate, now)
            (List.mem_append_right _ (List.mem_map_of_mem formed)) replayed
          exact sound.zero_earlier admissible.distinct waiting executed replayed later rfl
      · intro timely certified listed replayed
        have zero : node.MintedAtZero certified.1.checkpoint.anchor := by
          rcases List.mem_append.mp listed with earlier | new
          · exact real certified earlier replayed
          · obtain ⟨certificate, formed, rfl⟩ := List.mem_map.mp new
            have settles := (certifies certificate.checkpoint.anchor).mp
              (List.mem_map_of_mem formed)
            have delivers : node.node.queue.head? = some subdag := by
              rw [waiting]
              rfl
            exact (timely subdag delivers _ replayed settles.2).resolve_left settles.1
        exact zero.append rfl

theorem ReachedBy.sound (reached : ReachedBy config events node)
    (admissible : Admissible ((events.filterMap ClockedEvent.committed).map CommittedSubDag.anchor))
    (steady : Steady start events) : node.Sound config start events := by
  obtain ⟨outputs, ran⟩ := reached
  refine run_history (fun events _ node =>
    Admissible ((events.filterMap ClockedEvent.committed).map CommittedSubDag.anchor) →
      Steady start events → node.Sound config start events) ?_
    (fun _ _ => fresh_sound config start) ran admissible steady
  intro events _ node event _ next _ held stepped admissible steady
  have sound := held (by
    rw [List.filterMap_append, List.map_append] at admissible
    exact admissible.left) fun front now shown => steady front now (shown.trans (List.prefix_append _ _))
  cases event with
  | commit subdag => exact sound.commit stepped
  | restart now => exact sound.restart stepped
  | receive now =>
      rw [List.filterMap_append, List.map_append] at admissible
      exact sound.receive admissible.left.distinct (steady events now List.prefix_rfl) stepped

theorem Sound.real_step (sound : node.Sound config start events)
    (admissible : Admissible ((events.filterMap ClockedEvent.committed).map CommittedSubDag.anchor))
    (steady : Steady start (events ++ [event])) (stepped : node.step config event = .ok ((), next))
    (real : node.RealLatencies) : next.RealLatencies ↔ node.Timely config event := by
  cases event with
  | commit subdag =>
      obtain rfl := step_commit stepped
      exact iff_of_true real trivial
  | restart now =>
      obtain ⟨_, _, _, -, rfl⟩ := step_restart stepped
      exact iff_of_true .nil trivial
  | receive now =>
      exact sound.real_receive admissible (steady events now List.prefix_rfl) stepped real

end

end ClockedNode

/-- In every run, all states have real latencies exactly if all steps are timely. -/
theorem ClockedNode.latencies_real_iff [Hasher] [BuildProfile] {config : ValidatorConfig}
    {start : Duration} {events : List ClockedEvent} {last : ClockedNode}
    (reached : ReachedBy config events last)
    (admissible : Admissible ((events.filterMap ClockedEvent.committed).map CommittedSubDag.anchor))
    (steady : Steady start events) :
    (∀ front node, front <+: events → ReachedBy config front node → node.RealLatencies) ↔
      ∀ front event node, front ++ [event] <+: events → ReachedBy config front node →
        node.Timely config event := by
  have real_step {front : List ClockedEvent} {event : ClockedEvent} {node next : ClockedNode}
      (shown : front ++ [event] <+: events) (there : ReachedBy config front node)
      (stepped : node.step config event = .ok ((), next)) (real : node.RealLatencies) :
      next.RealLatencies ↔ node.Timely config event := by
    have steady' : Steady start (front ++ [event]) := fun earlier now inside =>
      steady earlier now (inside.trans shown)
    have before : front <+: events := (List.prefix_append _ _).trans shown
    have admissible' := admissible.sublist ((before.sublist.filterMap _).map CommittedSubDag.anchor)
    exact (there.sound admissible' fun earlier now inside =>
      steady earlier now (inside.trans before)).real_step admissible' steady' stepped real
  apply Iff.intro
  · intro real front event node shown there
    obtain ⟨back, split⟩ := shown
    obtain ⟨outputs, ran⟩ := reached
    obtain ⟨first, next, _, _, ranFront, -, -⟩ := run_append_ok.mp (split ▸ ran)
    obtain ⟨_, middle, _, _, ranNode, stepped, same⟩ := run_concat_ok.mp ranFront
    cases same
    obtain ⟨_, ranNode'⟩ := there
    obtain rfl : node = middle := (Prod.mk.inj (Except.ok.inj (ranNode'.symm.trans ranNode))).2
    have shown : front ++ [event] <+: events := ⟨back, split⟩
    apply (real_step shown ⟨_, ranNode⟩ stepped ?_).mp
    · exact real _ next shown ⟨_, ranFront⟩
    · exact real front node ((List.prefix_append _ _).trans shown) ⟨_, ranNode⟩
  · intro timely front node shown there
    induction front using List.reverseRecOn generalizing node with
    | nil =>
        obtain ⟨_, ran⟩ := there
        cases ran
        exact .nil
    | append_singleton front event ih =>
        obtain ⟨_, ran⟩ := there
        obtain ⟨outputs, middle, _, _, ranFront, stepped, same⟩ := run_concat_ok.mp ran
        cases same
        have there : ReachedBy config front middle := ⟨outputs, ranFront⟩
        apply (real_step shown there stepped ?_).mpr
        · exact timely front event middle shown there
        · exact ih middle ((List.prefix_append _ _).trans shown) there

/-! ## Restarts that leave all latencies real -/

theorem ballotsIn_silent {anchor : BlockReference} {stream : List CommittedSubDag}
    {subdag : CommittedSubDag} (silent : subdag.votesFor anchor = []) :
    ballotsIn anchor (stream ++ [subdag]) = ballotsIn anchor stream := by
  induction stream with
  | nil =>
      rw [List.nil_append, ballotsIn, List.dropWhile_cons]
      split
      · rfl
      · rw [List.flatMap_singleton, silent]
        rfl
  | cons first stream ih =>
      rw [ballotsIn, ballotsIn, List.cons_append, List.dropWhile_cons, List.dropWhile_cons]
      split
      · exact ih
      · rw [← List.cons_append, List.flatMap_append, List.flatMap_singleton, silent, List.append_nil]

/-- What a process replayed was committed before its start, and what it has yet to
receive after. -/
theorem ClockedNode.ReachedBy.replayed [Hasher] [BuildProfile] {config : ValidatorConfig}
    {events : List ClockedEvent} {node : ClockedNode} (reached : ReachedBy config events node) :
    node.recovered = [] ∨ ∃ front now back, events = front ++ .restart now :: back ∧
      node.recovered = front.filterMap ClockedEvent.committed ∧
      node.node.queue ⊆ back.filterMap ClockedEvent.committed := by
  obtain ⟨outputs, ran⟩ := reached
  refine (run_history (fun events _ node => node.node.wal = events.filterMap ClockedEvent.committed ∧
    (node.recovered = [] ∨ ∃ front now back, events = front ++ .restart now :: back ∧
      node.recovered = front.filterMap ClockedEvent.committed ∧
      node.node.queue ⊆ back.filterMap ClockedEvent.committed)) ?_ ⟨rfl, .inl rfl⟩ ran).2
  intro events _ node event _ next _ held stepped
  obtain ⟨recorded, started⟩ := held
  rw [List.filterMap_append]
  cases event with
  | commit subdag =>
      obtain rfl := step_commit stepped
      refine ⟨by rw [recorded]; rfl, started.imp_right fun started => ?_⟩
      obtain ⟨front, now, back, rfl, same, waiting⟩ := started
      refine ⟨front, now, back ++ [.commit subdag], by simp, same, ?_⟩
      rw [List.filterMap_append]
      exact List.append_subset.mpr ⟨List.subset_append_of_subset_left _ waiting,
        List.subset_append_right _ _⟩
  | restart now =>
      obtain ⟨_, _, _, -, rfl⟩ := step_restart stepped
      refine ⟨by rw [recorded]; exact (List.append_nil _).symm, .inr ⟨events, now, [], rfl, recorded, ?_⟩⟩
      exact List.nil_subset _
  | receive now =>
      have kept : next.node.wal = node.node.wal ∧ next.recovered = node.recovered ∧
          next.node.queue ⊆ node.node.queue := by
        cases waiting : node.node.queue with
        | nil =>
            obtain rfl := step_idle waiting stepped
            exact ⟨rfl, rfl, waiting ▸ List.Subset.refl _⟩
        | cons subdag queue =>
            obtain ⟨_, _, _, -, -, rfl⟩ := step_receive waiting stepped
            exact ⟨rfl, rfl, List.subset_cons_self _ _⟩
      obtain ⟨wal, same, fewer⟩ := kept
      rw [wal, same]
      refine ⟨recorded.trans (List.append_nil _).symm, started.imp_right fun started => ?_⟩
      obtain ⟨front, now', back, rfl, same', waiting⟩ := started
      refine ⟨front, now', back ++ [.receive now], by simp, same', List.Subset.trans fewer ?_⟩
      rw [List.filterMap_append]
      exact List.subset_append_of_subset_left _ waiting

/-- Where no commit after a restart votes for a checkpoint of one before it, every
step is timely. -/
theorem ClockedNode.ReachedBy.silent_timely [Hasher] [BuildProfile] {config : ValidatorConfig}
    {events : List ClockedEvent} {node : ClockedNode} (reached : ReachedBy config events node)
    (silent : ∀ front now back, events = front ++ .restart now :: back →
      ∀ old ∈ front.filterMap ClockedEvent.committed,
        ∀ subdag ∈ back.filterMap ClockedEvent.committed, ∀ vote ∈ subdag.votes,
          vote.2.anchor ≠ old.anchor) (event : ClockedEvent) : node.Timely config event := by
  cases event with
  | commit subdag => trivial
  | restart now => trivial
  | receive now =>
      intro subdag head anchor replayed settled
      obtain ⟨old, listed, rfl⟩ := List.mem_map.mp replayed
      rcases reached.replayed with nothing | ⟨front, now', back, split, same, waiting⟩
      · rw [nothing] at listed
        cases listed
      · rw [same] at listed
        have committed := waiting (List.mem_of_mem_head? head)
        have none : subdag.votesFor old.anchor = [] := List.filterMap_eq_nil_iff.mpr fun vote cast =>
          if_neg (silent front now' back split old listed subdag committed vote cast)
        rw [Settled, ballotsIn_silent none] at settled
        exact .inl settled

end

section

attribute [local instance] plainDag checkedBuild blake2b

open ClockedNode

private def oneVote : ValidatorConfig := plainConfig

/-- The process stops between the mint of a checkpoint and the commit with its vote. -/
private def certifiedLate : List ClockedEvent :=
  match plainStream FakeFunctionId.successId with
  | [first, second] =>
      [.commit first, .receive ⟨5⟩, .restart ⟨7⟩, .commit second, .receive ⟨9⟩]
  | _ => []

/-- Minted at readings 5 and 7 and certified at 9, with a latency of 9. -/
theorem latency_from_zero : ∃ node, ReachedBy oneVote certifiedLate node ∧
    Steady ⟨5⟩ certifiedLate ∧
    Admissible ((certifiedLate.filterMap ClockedEvent.committed).map CommittedSubDag.anchor) ∧
    node.metrics.checkpointCertificationLatency = [⟨9⟩] ∧
    node.mints.map Prod.snd = [⟨5⟩, ⟨7⟩] ∧ node.certified.map Prod.snd = [⟨9⟩] ∧
    ¬ node.RealLatencies := by
  have steady : Steady ⟨5⟩ certifiedLate :=
    ((((Steady.nil ⟨5⟩).concat (by simp)).concat (by rintro _ ⟨⟩; decide)).concat (by simp)).concat
      (by simp) |>.concat (by rintro _ ⟨⟩; decide)
  obtain ⟨node, reached, latencies, mints, certified⟩ :
      ∃ node, ReachedBy oneVote certifiedLate node ∧
        node.metrics.checkpointCertificationLatency = [⟨9⟩] ∧
        node.mints.map Prod.snd = [⟨5⟩, ⟨7⟩] ∧ node.certified.map Prod.snd = [⟨9⟩] :=
    ⟨_, ⟨_, rfl⟩, rfl, rfl, rfl⟩
  have unreal : ¬ node.RealLatencies := by
    intro real
    rw [RealLatencies, latencies] at real
    obtain ⟨pair, rest, ⟨minted, listed, -, span⟩, -, same⟩ := List.forall₂_cons_left_iff.mp real
    have reading : minted.2 ∈ node.mints.map Prod.snd := List.mem_map_of_mem listed
    rw [mints, List.mem_pair] at reading
    rw [same, List.map_cons] at certified
    rw [(List.cons.inj certified).1] at span
    rcases reading with five | seven
    · rw [five] at span
      exact absurd span (by decide)
    · rw [seven] at span
      exact absurd span (by decide)
  exact ⟨node, reached, steady, ⟨by decide, by decide⟩, latencies, mints, certified, unreal⟩

/-- A checkpoint is minted and stays uncertified, the process restarts, and the
next checkpoint is minted and certified after. -/
private def certifiedAfter : List ClockedEvent :=
  [.commit ⟨plainReference 0 1, [((0 : UInt64), [plainAbort 7])]⟩, .receive ⟨5⟩, .restart ⟨7⟩,
    .commit ⟨plainReference 0 2, [((0 : UInt64), [plainAbort 8])]⟩, .receive ⟨9⟩,
    .commit ⟨plainReference 0 3, [((1 : UInt64), [Envelope.toBytes
      ⟨9, .attest ⟨plainReference 0 2, .default⟩⟩])]⟩, .receive ⟨13⟩]

private theorem certifiedAfter_silent (front : List ClockedEvent) (now : Duration)
    (back : List ClockedEvent) (split : certifiedAfter = front ++ .restart now :: back) :
    ∀ old ∈ front.filterMap ClockedEvent.committed,
      ∀ subdag ∈ back.filterMap ClockedEvent.committed, ∀ vote ∈ subdag.votes,
        vote.2.anchor ≠ old.anchor := by
  have found : certifiedAfter[front.length]? = some (.restart now) := by
    rw [split]
    simp
  have place : front.length = 2 := by
    generalize front.length = place at found
    rcases place with _ | _ | _ | _ | _ | _ | _ | place
    · cases found
    · cases found
    · rfl
    · cases found
    · cases found
    · cases found
    · cases found
    · cases found
  obtain rfl : certifiedAfter.take 2 = front := by rw [split, ← place, List.take_left]
  have rest : ClockedEvent.restart ⟨7⟩ :: certifiedAfter.drop 3 = .restart now :: back :=
    List.append_cancel_left ((List.take_append_drop 2 certifiedAfter).trans split)
  obtain ⟨-, rfl⟩ := List.cons.inj rest
  decide +kernel

/-- Minted at reading 9, after the restart, and certified at 13. -/
theorem restarted_real : ∃ node, ReachedBy oneVote certifiedAfter node ∧
    node.recovered.map CommittedSubDag.anchor = [plainReference 0 1] ∧
    node.metrics.checkpointCertificationLatency = [⟨4⟩] ∧
    ∀ front node, front <+: certifiedAfter → ReachedBy oneVote front node → node.RealLatencies := by
  have steady : Steady ⟨5⟩ certifiedAfter :=
    ((((((Steady.nil ⟨5⟩).concat (by simp)).concat (by rintro _ ⟨⟩; decide)).concat (by simp)).concat
      (by simp) |>.concat (by rintro _ ⟨⟩; decide)).concat (by simp)).concat (by rintro _ ⟨⟩; decide)
  obtain ⟨node, reached, recovered, latencies⟩ : ∃ node, ReachedBy oneVote certifiedAfter node ∧
      node.recovered.map CommittedSubDag.anchor = [plainReference 0 1] ∧
      node.metrics.checkpointCertificationLatency = [⟨4⟩] := ⟨_, ⟨_, rfl⟩, rfl, rfl⟩
  refine ⟨node, reached, recovered, latencies,
    (latencies_real_iff reached ⟨by decide, by decide⟩ steady).mpr ?_⟩
  intro front event node shown there
  obtain ⟨rest, whole⟩ := (List.prefix_append _ _).trans shown
  refine there.silent_timely (fun early now back split old listed subdag committed => ?_) event
  rw [split, List.append_assoc, List.cons_append] at whole
  apply certifiedAfter_silent early now (back ++ rest) whole.symm old listed
  rw [List.filterMap_append]
  exact List.mem_append_left _ committed

end

end BlockchainValidator
