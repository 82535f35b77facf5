import BlockchainValidator.Validator.Quiescence

/-! # Validators as replicas of one ledger

The transactions of a stream, one after the other, are its ledger.  The number
of executed transactions is a validator's position on it.  The position alone
decides the validator's store and the checkpoints that it has minted: the
sub-dags that execute nothing vary between validators, and leave both alone.
-/

namespace BlockchainValidator

open Execution Run

section

variable [Dag]

def ledger (stream : List CommittedSubDag) : List Transaction :=
  stream.flatMap CommittedSubDag.transactions

/-- The checkpoint of the sub-dag whose transactions end at the cut. -/
def CheckpointAt [Hasher] (engine : ExecutionEngine) (stream : List CommittedSubDag) (cut : Nat)
    (checkpoint : Checkpoint) : Prop :=
  ∃ before subdag after statuses scheduler, stream = before ++ subdag :: after ∧
    subdag.Mints checkpoint.anchor ∧ (ledger (before ++ [subdag])).length = cut ∧
    (SequentialScheduler.new engine).execute (ledger (before ++ [subdag])) = .ok (statuses, scheduler) ∧
    checkpoint.commitment = scheduler.store.commitment

section

variable {stream received received' more : List CommittedSubDag} {subdag : CommittedSubDag}
  {deliveries : List Delivery} {cut : Nat} {checkpoint : Checkpoint}

theorem ledger_append : ledger (stream ++ more) = ledger stream ++ ledger more :=
  List.flatMap_append

theorem ledger_deliveries : ledger (deliveries.map Delivery.subdag) =
    deliveries.flatMap (·.subdag.transactions) :=
  List.flatMap_map ..

theorem ledger_front (front : received <+: stream) :
    (ledger stream).take (ledger received).length = ledger received := by
  obtain ⟨rest, rfl⟩ := front
  rw [ledger_append, List.take_left]

/-- The sub-dags that execute something. -/
def executingOf (stream : List CommittedSubDag) : List CommittedSubDag :=
  stream.filter fun subdag => subdag.transactions ≠ []

theorem executing_of_ledger (front : received <+: received')
    (same : (ledger received).length = (ledger received').length) :
    executingOf received = executingOf received' := by
  obtain ⟨rest, rfl⟩ := front
  rw [ledger_append, List.length_append] at same
  have nothing : ledger rest = [] := List.length_eq_zero_iff.mp (by omega)
  have empty : executingOf rest = [] := by
    apply List.filter_eq_nil_iff.mpr
    intro subdag listed
    rw [ledger, List.flatMap_eq_nil_iff] at nothing
    simp [nothing subdag listed]
  have split : executingOf (received ++ rest) = executingOf received ++ executingOf rest :=
    List.filter_append ..
  rw [split, empty, List.append_nil]

variable [Hasher] {engine : ExecutionEngine}

theorem checkpointAt_concat :
    (∃ cut, CheckpointAt engine (stream ++ [subdag]) cut checkpoint) ↔
      (∃ cut, CheckpointAt engine stream cut checkpoint) ∨ subdag.Mints checkpoint.anchor ∧
        ∃ statuses scheduler, (SequentialScheduler.new engine).execute (ledger (stream ++ [subdag])) =
          .ok (statuses, scheduler) ∧ checkpoint.commitment = scheduler.store.commitment := by
  apply Iff.intro
  · rintro ⟨cut, before, other, after, statuses, scheduler, split, mints, length, executed, same⟩
    rcases List.eq_nil_or_concat after with rfl | ⟨rest, last, rfl⟩
    · obtain ⟨rfl, equal⟩ := List.append_inj' split rfl
      cases equal
      exact .inr ⟨mints, statuses, scheduler, executed, same⟩
    · rw [List.concat_eq_append, ← List.cons_append, ← List.append_assoc] at split
      obtain ⟨rfl, -⟩ := List.append_inj' split rfl
      exact .inl ⟨cut, before, other, rest, statuses, scheduler, rfl, mints, length, executed, same⟩
  · rintro (⟨cut, before, other, after, statuses, scheduler, rfl, found⟩ |
      ⟨mints, statuses, scheduler, executed, same⟩)
    · exact ⟨cut, before, other, after ++ [subdag], statuses, scheduler, by simp, found⟩
    · exact ⟨_, stream, subdag, [], statuses, scheduler, rfl, mints, rfl, executed, same⟩

theorem CheckpointAt.canonical (found : CheckpointAt engine stream cut checkpoint) :
    Canonical engine stream checkpoint := by
  obtain ⟨before, subdag, after, statuses, scheduler, split, mints, -, executed, same⟩ := found
  exact ⟨before, subdag, after, statuses, scheduler, split, mints.1.symm, executed, same⟩

/-- A part of the stream has the checkpoints at the cuts that it reaches. -/
theorem checkpointAt_front (front : received <+: stream) :
    (∃ cut, CheckpointAt engine received cut checkpoint) ↔
      ∃ cut ≤ (ledger received).length, CheckpointAt engine stream cut checkpoint := by
  apply Iff.intro
  · rintro ⟨cut, before, subdag, after, statuses, scheduler, rfl, mints, rfl, found⟩
    obtain ⟨rest, rfl⟩ := front
    have longer : ledger (before ++ subdag :: after) = ledger (before ++ [subdag]) ++ ledger after := by
      rw [List.append_cons, ledger_append]
    refine ⟨_, ?_, before, subdag, after ++ rest, statuses, scheduler, by simp, mints, rfl, found⟩
    rw [longer, List.length_append]
    exact Nat.le_add_right _ _
  · rintro ⟨cut, reached, before, subdag, after, statuses, scheduler, rfl, mints, rfl, found⟩
    have whole : before ++ [subdag] <+: before ++ subdag :: after :=
      ⟨after, (List.append_cons ..).symm⟩
    rcases List.prefix_or_prefix_of_prefix whole front with ⟨rest, rfl⟩ | inside
    · exact ⟨_, before, subdag, rest, statuses, scheduler, by simp, mints, rfl, found⟩
    · rcases List.prefix_concat_iff.mp inside with rfl | shorter
      · exact ⟨_, before, subdag, [], statuses, scheduler, rfl, mints, rfl, found⟩
      · -- The sub-dag executes something, so its cut is beyond what was received.
        obtain ⟨rest, rfl⟩ := shorter
        have executes := List.length_pos_of_ne_nil mints.2
        rw [ledger_append, ledger_append, List.length_append, List.length_append] at reached
        have last : ledger [subdag] = subdag.transactions := List.flatMap_singleton ..
        rw [last] at reached
        omega

end

section

variable [Hasher] [BuildProfile] {config : ValidatorConfig} {deliveries : List Delivery}
  {outcomes : List SubdagOutcome} {minted : List (Option Checkpoint)} {last : Driver}
  {checkpoint : Checkpoint}

/-- The driver counts the transactions of what it was delivered. -/
theorem Driver.run_count (ran : run deliver (.new config) deliveries = .ok (minted, last))
    (few : (deliveries.flatMap (·.subdag.transactions)).length < 2 ^ 64) :
    last.count.toNat = (deliveries.flatMap (·.subdag.transactions)).length := by
  refine run_history (fun deliveries _ driver =>
    (deliveries.flatMap (·.subdag.transactions)).length < 2 ^ 64 →
      driver.count.toNat = (deliveries.flatMap (·.subdag.transactions)).length) ?_ (fun _ => rfl) ran few
  intro deliveries _ driver delivery _ next _ held delivered few
  obtain ⟨outcome, executed, added, -⟩ := deliver_ok.mp delivered
  obtain ⟨statuses, scheduler, _, _, _, -, batch, -, rfl, -⟩ :=
    ExecutionState.executeSubdag_ok.mp executed
  rw [SubdagOutcome.executed, SequentialScheduler.execute_length batch] at added
  rw [List.flatMap_append, List.flatMap_singleton, List.length_append] at few ⊢
  have before := held (by omega)
  have small : (UInt64.ofNat delivery.subdag.transactions.length).toNat =
      delivery.subdag.transactions.length := by
    rw [UInt64.toNat_ofNat']
    exact Nat.mod_eq_of_lt (by omega)
  rw [(addU64_eq_ok.mp added).1, toNat_add_of_lt (by omega), before, small]

theorem Driver.run_position (ran : run deliver (.new config) deliveries = .ok (minted, last))
    (few : (ledger (deliveries.map Delivery.subdag)).length < 2 ^ 64) :
    last.count.toNat = (ledger (deliveries.map Delivery.subdag)).length := by
  rw [ledger_deliveries] at few ⊢
  exact run_count ran few

theorem ExecutionState.deliver_mints {state next : ExecutionState} {delivery : Delivery}
    {outcome : SubdagOutcome} (delivered : state.deliver delivery = .ok (outcome, next)) :
    outcome.minted = some checkpoint ↔
      delivery.subdag.Mints checkpoint.anchor ∧ checkpoint.commitment = next.scheduler.store.commitment := by
  obtain ⟨_, scheduler, _, _, _, -, -, -, rfl, rfl⟩ := executeSubdag_ok.mp delivered
  obtain ⟨anchor, commitment⟩ := checkpoint
  dsimp only
  rw [CommittedSubDag.minted, CommittedSubDag.Mints]
  split
  · rename_i nothing
    simp [nothing]
  · rename_i executes
    simp [executes, eq_comm]

/-- The anchors minted are those of the sub-dags that execute something. -/
theorem ExecutionState.run_mints_executing {state last : ExecutionState}
    (ran : run deliver state deliveries = .ok (outcomes, last)) :
    mintOrder outcomes = (executingOf (deliveries.map Delivery.subdag)).map CommittedSubDag.anchor := by
  induction deliveries generalizing state outcomes with
  | nil =>
      cases ran
      rfl
  | cons delivery deliveries ih =>
      obtain ⟨outcome, middle, rest, _, delivered, tail, same⟩ := run_cons_ok.mp ran
      cases same
      obtain ⟨_, scheduler, _, _, _, -, -, -, rfl, rfl⟩ := executeSubdag_ok.mp delivered
      have later := ih tail
      rw [mintOrder] at later
      rw [mintOrder, executingOf, List.map_cons]
      by_cases empty : delivery.subdag.transactions = []
      · rw [List.filterMap_cons_none (by rw [CommittedSubDag.minted, if_pos empty]; rfl), later,
          List.filter_cons_of_neg (by simp [empty])]
        rfl
      · rw [List.filterMap_cons_some (by rw [CommittedSubDag.minted, if_neg empty]; rfl), later,
          List.filter_cons_of_pos (by simp [empty])]
        rfl

theorem ExecutionState.mem_mintOrder {state last : ExecutionState}
    (ran : run deliver state deliveries = .ok (outcomes, last)) {anchor : BlockReference} :
    anchor ∈ mintOrder outcomes ↔ ∃ delivery ∈ deliveries, delivery.subdag.Mints anchor := by
  rw [run_mints_executing ran, List.mem_map]
  apply Iff.intro
  · intro listed
    obtain ⟨subdag, executing, rfl⟩ := listed
    obtain ⟨received, executes⟩ := List.mem_filter.mp executing
    obtain ⟨delivery, delivered, rfl⟩ := List.mem_map.mp received
    exact ⟨delivery, delivered, rfl, of_decide_eq_true executes⟩
  · intro minting
    obtain ⟨delivery, delivered, rfl, executes⟩ := minting
    exact ⟨_, List.mem_filter.mpr ⟨List.mem_map_of_mem delivered, decide_eq_true executes⟩, rfl⟩

/-- A driver mints the checkpoints of what it received. -/
theorem ExecutionState.run_mints {engine : ExecutionEngine} {committee : Committee} {quorum : UInt64}
    {state : ExecutionState} (ran : run deliver (.new engine committee quorum) deliveries = .ok (outcomes, state)) :
    checkpoint ∈ mintedBy outcomes ↔
      ∃ cut, CheckpointAt engine (deliveries.map Delivery.subdag) cut checkpoint := by
  refine run_history (fun deliveries outcomes _ => checkpoint ∈ mintedBy outcomes ↔
    ∃ cut, CheckpointAt engine (deliveries.map Delivery.subdag) cut checkpoint) ?_ ?_ ran
  · intro deliveries outcomes state delivery outcome next front held delivered
    have whole := run_scheduler (run_concat_ok.mpr ⟨_, _, _, _, front, delivered, rfl⟩)
    rw [← ledger_deliveries, List.map_append, List.map_singleton] at whole
    rw [mintedBy_concat, List.mem_append, Option.mem_toList, List.map_append, List.map_singleton,
      checkpointAt_concat, held, deliver_mints delivered]
    refine or_congr_right (and_congr_right fun _ => ⟨fun same => ⟨_, _, whole, same⟩, ?_⟩)
    rintro ⟨_, _, executed, same⟩
    cases whole.symm.trans executed
    exact same
  · apply iff_of_false
    · exact List.not_mem_nil
    · rintro ⟨cut, before, subdag, after, _, _, split, -⟩
      cases before <;> cases split

end

/-! ## Positions in a network -/

namespace Node

/-- How many transactions the driver has executed. -/
def position (node : Node) : Nat := node.driver.count.toNat

/-- The recorded commits that the driver has received. -/
def delivered (node : Node) : List CommittedSubDag :=
  node.wal.take (node.wal.length - node.queue.length)

variable [Hasher] [BuildProfile]

/-- The driver mints the checkpoint on what it has received. -/
def Minted (config : ValidatorConfig) (node : Node) (checkpoint : Checkpoint) : Prop :=
  ∃ deliveries minted, deliveries.map Delivery.subdag = node.delivered ∧
    run Driver.deliver (.new config) deliveries = .ok (minted, node.driver) ∧ some checkpoint ∈ minted

/-- The position on the ledger decides the store and the checkpoints. -/
structure OnLedger (config : ValidatorConfig) (stream : List CommittedSubDag) (node : Node) : Prop where
  store : ∃ statuses, (SequentialScheduler.new config.engine).execute
    ((ledger stream).take node.position) = .ok (statuses, node.driver.state.scheduler)
  minted : ∀ checkpoint, node.Minted config checkpoint ↔
    ∃ cut ≤ node.position, CheckpointAt config.engine stream cut checkpoint
  pending : ∀ checkpoint ∈ node.driver.state.certifier.pending,
    ∃ cut ≤ node.position, CheckpointAt config.engine stream cut checkpoint

variable {config : ValidatorConfig} {node other : Node} {stream : List CommittedSubDag}
  {checkpoint : Checkpoint}

theorem Consistent.deliveries (consistent : node.Consistent config) :
    ∃ deliveries minted outcomes, deliveries.map Delivery.subdag = node.delivered ∧
      run Driver.deliver (.new config) deliveries = .ok (minted, node.driver) ∧
      run ExecutionState.deliver (.new config.engine config.committee config.quorum) deliveries =
        .ok (outcomes, node.driver.state) ∧ minted = outcomes.map SubdagOutcome.minted := by
  obtain ⟨deliveries, minted, split, ran⟩ := consistent.received
  obtain ⟨outcomes, executed, same⟩ := Driver.run_state ran
  refine ⟨deliveries, minted, outcomes, ?_, ran, executed, same⟩
  rw [delivered, ← split, List.length_append, Nat.add_sub_cancel, List.take_left]

omit [Hasher] [BuildProfile] in
theorem mem_mintedBy {outcomes : List SubdagOutcome} :
    some checkpoint ∈ outcomes.map SubdagOutcome.minted ↔ checkpoint ∈ mintedBy outcomes := by
  rw [mintedBy, List.mem_filterMap, List.mem_map]

theorem Consistent.minted_iff (consistent : node.Consistent config) :
    node.Minted config checkpoint ↔ ∃ cut, CheckpointAt config.engine node.delivered cut checkpoint := by
  apply Iff.intro
  · rintro ⟨deliveries, minted, same, ran, listed⟩
    obtain ⟨outcomes, executed, rfl⟩ := Driver.run_state ran
    rw [← same]
    exact (ExecutionState.run_mints executed).mp (mem_mintedBy.mp listed)
  · obtain ⟨deliveries, minted, outcomes, same, ran, executed, rfl⟩ := consistent.deliveries
    intro found
    rw [← same] at found
    exact ⟨deliveries, _, same, ran, mem_mintedBy.mpr ((ExecutionState.run_mints executed).mpr found)⟩

omit [Hasher] [BuildProfile] in
theorem delivered_front (behind : node.wal <+: stream) : node.delivered <+: stream :=
  (List.take_prefix _ _).trans behind

theorem Consistent.position (consistent : node.Consistent config) (behind : node.wal <+: stream)
    (few : (ledger stream).length < 2 ^ 64) : node.position = (ledger node.delivered).length := by
  obtain ⟨deliveries, minted, _, same, ran, -⟩ := consistent.deliveries
  have front := (delivered_front behind).flatMap CommittedSubDag.transactions
  rw [← same] at front ⊢
  exact Driver.run_position ran (Nat.lt_of_le_of_lt front.length_le few)

/-- The run behind a driver mints the checkpoints up to its position. -/
theorem Consistent.mints (consistent : node.Consistent config) (behind : node.wal <+: stream)
    (few : (ledger stream).length < 2 ^ 64) :
    ∃ deliveries outcomes, deliveries.map Delivery.subdag = node.delivered ∧
      run ExecutionState.deliver (.new config.engine config.committee config.quorum) deliveries =
        .ok (outcomes, node.driver.state) ∧
      ∀ checkpoint, checkpoint ∈ mintedBy outcomes ↔
        ∃ cut ≤ node.position, CheckpointAt config.engine stream cut checkpoint := by
  obtain ⟨deliveries, _, outcomes, same, _, executed, -⟩ := consistent.deliveries
  refine ⟨deliveries, outcomes, same, executed, fun checkpoint => ?_⟩
  rw [ExecutionState.run_mints executed, same, checkpointAt_front (delivered_front behind),
    consistent.position behind few]

theorem Consistent.onLedger (consistent : node.Consistent config) (behind : node.wal <+: stream)
    (few : (ledger stream).length < 2 ^ 64) : node.OnLedger config stream := by
  have front := delivered_front behind
  have place := consistent.position behind few
  obtain ⟨deliveries, outcomes, same, executed, mints⟩ := consistent.mints behind few
  constructor
  · have whole := ExecutionState.run_scheduler executed
    rw [← ledger_deliveries, same, ← ledger_front front, ← place] at whole
    exact ⟨_, whole⟩
  · intro checkpoint
    rw [consistent.minted_iff, checkpointAt_front front, place]
  · intro checkpoint waiting
    exact (mints checkpoint).mp ((ExecutionState.run_pending executed).subset waiting)

/-- A certificate for the stream's own history is for a cut at or before the position. -/
theorem Consistent.certified_cut (consistent : node.Consistent config) (behind : node.wal <+: stream)
    (few : (ledger stream).length < 2 ^ 64) (distinct : (stream.map CommittedSubDag.anchor).Nodup)
    {certificate : CertifiedCheckpoint}
    (held : node.driver.state.certifier.highestCertified = some certificate)
    (canonical : Canonical config.engine stream certificate.checkpoint) :
    ∃ cut ≤ node.position, CheckpointAt config.engine stream cut certificate.checkpoint := by
  obtain ⟨deliveries, outcomes, same, executed, mints⟩ := consistent.mints behind few
  obtain ⟨settled, split, left, highest⟩ :=
    ((Chronicle.new config.committee config.quorum).run executed).settled
  rw [List.nil_append] at split
  rw [highest] at held
  obtain ⟨pair, last, rfl⟩ := Option.map_eq_some_iff.mp held
  have inside := List.mem_of_getLast? last
  obtain ⟨cut, reached, found⟩ := (mints pair.1).mp (by
    rw [split]
    exact List.mem_append_left _ (List.mem_map_of_mem inside))
  -- The certificate is for the commitment that was minted here.
  have agreed := Canonical.unique distinct canonical found.canonical (left pair inside).2
  have equal : pair.2.checkpoint = pair.1 :=
    Checkpoint.mk.injEq .. |>.mpr ⟨(left pair inside).2, agreed⟩
  rw [equal]
  exact ⟨cut, reached, found⟩

end Node

/-- Honest validators at one position agree on everything that the ledger decides,
though they may have received different sub-dags.  Where the faulty have no quorum,
what they hold as certified is a cut of the ledger too. -/
theorem Network.executed_cut [Hasher] [BuildProfile] {config : ValidatorConfig}
    {honest : Finset Authority} {network : Network}
    (reachable : Reachable config honest network) (few : (ledger network.stream).length < 2 ^ 64) :
    (∀ validator ∈ honest, (network.nodes validator).OnLedger config network.stream) ∧
    (∀ validator ∈ honest, ∀ other ∈ honest,
      (network.nodes validator).position = (network.nodes other).position →
        (network.nodes validator).driver.state.scheduler = (network.nodes other).driver.state.scheduler ∧
        (∀ checkpoint, (network.nodes validator).Minted config checkpoint ↔
          (network.nodes other).Minted config checkpoint) ∧
        executingOf (network.nodes validator).delivered = executingOf (network.nodes other).delivered) ∧
    (∑ member ∈ config.committee.members \ honest, (config.committee.stake member).toNat <
        config.quorum.toNat →
      ∀ validator ∈ honest, ∀ certificate,
        (network.nodes validator).driver.state.certifier.highestCertified = some certificate →
          ∃ cut ≤ (network.nodes validator).position,
            CheckpointAt config.engine network.stream cut certificate.checkpoint) := by
  have sound := reachable.sound
  have onLedger (validator : Authority) : (network.nodes validator).OnLedger config network.stream :=
    (sound.consistent validator).onLedger (sound.behind validator) few
  refine ⟨fun validator _ => onLedger validator,
    fun validator _ other _ same => ⟨?_, fun checkpoint => ?_, ?_⟩,
    fun faulty validator _ certificate held => ?_⟩
  · obtain ⟨_, executed⟩ := (onLedger validator).store
    obtain ⟨_, executed'⟩ := (onLedger other).store
    rw [same, executed'] at executed
    exact (Prod.mk.inj (Except.ok.inj executed)).2.symm
  · rw [(onLedger validator).minted, (onLedger other).minted, same]
  · have lengths := same
    rw [(sound.consistent validator).position (sound.behind validator) few,
      (sound.consistent other).position (sound.behind other) few] at lengths
    rcases List.prefix_or_prefix_of_prefix (Node.delivered_front (sound.behind validator))
        (Node.delivered_front (sound.behind other)) with front | front
    · exact executing_of_ledger front lengths
    · exact (executing_of_ledger front lengths.symm).symm
  · have listed : certificate ∈ (network.nodes validator).driver.state.certifier.held :=
      List.mem_append_left _ (Option.mem_toList.mpr held)
    exact (sound.consistent validator).certified_cut (sound.behind validator) few
      sound.admissible.anchors.distinct held (certified_canonical faulty reachable listed)

end

section

attribute [local instance] plainDag checkedBuild blake2b

private def opening : CommittedSubDag :=
  ⟨plainReference 0 1, [((0 : UInt64), [Envelope.toBytes ⟨7, .execute
    ⟨FakeFunctionId.successId, .singleton (.new 1, .writeOnly), .nil⟩⟩])]⟩

/-- A sub-dag whose only payload does not decode. -/
private def idling : CommittedSubDag := ⟨plainReference 0 2, [((1 : UInt64), [[3]])]⟩

private def bothHonest : Finset Authority := {(0 : UInt64), (1 : UInt64)}

theorem idling_cut :
    ∃ network, Network.Reachable plainConfig bothHonest network ∧
      (network.nodes (0 : UInt64)).delivered = [opening] ∧
      (network.nodes (1 : UInt64)).delivered = [opening, idling] ∧
      (network.nodes (0 : UInt64)).position = 1 ∧ (network.nodes (1 : UInt64)).position = 1 ∧
      (network.nodes (0 : UInt64)).driver.state.scheduler =
        (network.nodes (1 : UInt64)).driver.state.scheduler := by
  obtain ⟨⟨_, ahead⟩, ran⟩ : ∃ result, run (Node.step plainConfig) (.fresh plainConfig)
      (hearing opening ++ hearing idling) = .ok result := ⟨_, rfl⟩
  obtain ⟨⟨_, behind⟩, ranFirst⟩ : ∃ result, run (Node.step plainConfig) (.fresh plainConfig)
      (hearing opening) = .ok result := ⟨_, rfl⟩
  have further : (fun result : List Unit × Node => (result.2.delivered, result.2.position)) <$>
      run (Node.step plainConfig) (.fresh plainConfig) (hearing opening ++ hearing idling) =
        .ok ([opening, idling], 1) := rfl
  rw [ran] at further
  obtain ⟨heard, place⟩ := Prod.mk.inj (Except.ok.inj further)
  have nearer : (fun result : List Unit × Node => (result.2.delivered, result.2.position)) <$>
      run (Node.step plainConfig) (.fresh plainConfig) (hearing opening) = .ok ([opening], 1) := rfl
  rw [ranFirst] at nearer
  obtain ⟨heard', place'⟩ := Prod.mk.inj (Except.ok.inj nearer)
  have signed (subdag : CommittedSubDag) (listed : subdag ∈ [opening, idling]) :
      subdag.SignedBy plainConfig.committee := by
    intro block inside
    rcases List.mem_pair.mp listed with rfl | rfl
    · rw [List.mem_singleton.mp inside]
      change (0 : UInt64) ∈ (Finset.range 2).image UInt64.ofNat
      decide
    · rw [List.mem_singleton.mp inside]
      change (1 : UInt64) ∈ (Finset.range 2).image UInt64.ofNat
      decide
  let stream : Network := (Network.initial plainConfig).grow opening |>.grow idling
  have grown : Network.Reachable plainConfig bothHonest stream := by
    have first : Network.Reachable plainConfig bothHonest ((Network.initial plainConfig).grow opening) :=
      .single (.grow ⟨by decide, by decide⟩ (signed _ (by simp)) fun vote carried => nomatch carried)
    apply first.tail
    apply Network.Step.grow
    · change Admissible [plainReference 0 1, plainReference 0 2]
      exact ⟨by decide, by decide⟩
    · exact signed _ (by simp)
    · exact fun vote carried => nomatch carried
  have apart : (0 : UInt64) ≠ 1 := by decide
  have reachedOne := grown.runs (show (1 : UInt64) ∈ bothHonest by decide) List.prefix_rfl ran
  let network := (stream.update (1 : UInt64) ahead).update (0 : UInt64) behind
  have untouched : (stream.update (1 : UInt64) ahead).nodes (0 : UInt64) = .fresh plainConfig :=
    Network.update_nodes_other apart
  have reached : Network.Reachable plainConfig bothHonest network := by
    rw [← untouched] at ranFirst
    refine reachedOne.runs (by decide) ?_ ranFirst
    rw [untouched]
    exact ⟨[idling], rfl⟩
  have atZero : network.nodes (0 : UInt64) = behind := Network.update_nodes_self ..
  have atOne : network.nodes (1 : UInt64) = ahead := by
    have first : (stream.update (1 : UInt64) ahead).nodes (1 : UInt64) = ahead :=
      Network.update_nodes_self ..
    exact (Network.update_nodes_other apart.symm).trans first
  have same : (network.nodes (0 : UInt64)).position = (network.nodes (1 : UInt64)).position := by
    rw [atZero, atOne, place, place']
  have short : (ledger network.stream).length < 2 ^ 64 := by
    change (ledger [opening, idling]).length < 2 ^ 64
    decide +kernel
  have agreed := ((Network.executed_cut reached short).2.1 (0 : UInt64) (by decide) (1 : UInt64)
    (by decide) same).1
  refine ⟨network, reached, ?_, ?_, ?_, ?_, agreed⟩
  · rw [atZero, heard']
  · rw [atOne, heard]
  · rw [atZero, place']
  · rw [atOne, place]

end

end BlockchainValidator
