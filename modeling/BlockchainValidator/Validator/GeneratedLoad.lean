import BlockchainValidator.Validator.Generator
import BlockchainValidator.Validator.Network
import BlockchainValidator.Validator.NoPanic

/-! # Generated load across restarts

Every incarnation of a validator starts its load generator afresh, so the stream
of ids begins again at its first position.  What earlier incarnations have
emitted is in flight, lost or committed by then.
-/

namespace BlockchainValidator

open Codec Execution Run Reorder
open scoped List

section

variable [Dag]

/-- A payload that a load generator has submitted. -/
structure Emission where
  authority : Authority
  /-- The generator's counter at this payload. -/
  position : Nat
  payload : List UInt8
  /-- The store that the emitting incarnation had replayed. -/
  replayed : InMemoryStore

/-- The load generator of a running process, once it is started. -/
structure Load where
  generator : Option TransactionGenerator
  replayed : InMemoryStore

structure LoadedNetwork where
  network : Network
  loads : Authority → Load
  inFlight : List Emission
  committed : List Emission
  /-- All emissions so far, of every incarnation. -/
  emitted : List Emission

/-- The payloads of one batch, as emissions. -/
def Load.emissions (load : Load) (validator : Authority) (counter : UInt64)
    (batch : List (List UInt8)) : List Emission :=
  batch.zipIdx.map fun entry => ⟨validator, counter.toNat + entry.2, entry.1, load.replayed⟩

namespace LoadedNetwork

def initial (config : ValidatorConfig) : LoadedNetwork :=
  ⟨.initial config, fun _ => ⟨none, .default⟩, [], [], []⟩

/-- The payloads that can still be, or are, in the stream. -/
def used (state : LoadedNetwork) : List Emission := state.inFlight ++ state.committed

def setLoad (state : LoadedNetwork) (validator : Authority) (load : Load) : LoadedNetwork :=
  { state with loads := Function.update state.loads validator load }

/-- A generator runs with the given stream of ids. -/
def generate (state : LoadedNetwork) (validator : Authority) (generator : TransactionGenerator) :
    LoadedNetwork :=
  state.setLoad validator { state.loads validator with generator := some generator }

def emit (state : LoadedNetwork) (emissions : List Emission) : LoadedNetwork :=
  { state with inFlight := state.inFlight ++ emissions, emitted := state.emitted ++ emissions }

def grow (state : LoadedNetwork) (subdag : CommittedSubDag) (carried kept : List Emission) :
    LoadedNetwork :=
  { state with
    network := state.network.grow subdag
    inFlight := kept
    committed := state.committed ++ carried }

/-- A restart replays the WAL and leaves the generator to be started. -/
def update (state : LoadedNetwork) (validator : Authority) (event : NodeEvent) (next : Node) :
    LoadedNetwork :=
  let state := { state with network := state.network.update validator next }
  match event with
  | .restart => state.setLoad validator ⟨none, next.driver.state.scheduler.store⟩
  | .commit _ | .receive _ => state

variable [Hasher] [BuildProfile]

inductive Step (config : ValidatorConfig) (seeding : Seeding) (state : LoadedNetwork) :
    LoadedNetwork → Prop where
  /-- The generator is started, once in an incarnation. -/
  | start {validator : Authority} {loadConfig : LoadGeneratorConfig}
      {generator : TransactionGenerator} (member : validator ∈ config.committee.members)
      (idle : (state.loads validator).generator = none)
      (started : TransactionGenerator.start seeding validator loadConfig = .ok generator) :
      Step config seeding state (state.generate validator generator)
  /-- One interval: a batch is filled and submitted. -/
  | tick {validator : Authority} {generator : TransactionGenerator} {timestampMs : UInt64}
      {batch : List (List UInt8)} {stream : IdStream}
      (running : (state.loads validator).generator = some generator)
      (filled : TransactionGenerator.fillBatch timestampMs generator.transactionsPerInterval
        generator.argsLen generator.nameSpace generator.stream = .ok (batch, stream)) :
      Step config seeding state ((state.generate validator { generator with stream }).emit
        ((state.loads validator).emissions validator generator.stream.counter batch))
  /-- Some payloads in flight never commit. -/
  | lose {kept : List Emission} (fewer : kept.Sublist state.inFlight) :
      Step config seeding state { state with inFlight := kept }
  /-- A sub-dag commits with some of the payloads in flight, among payloads that
  carry no transactions. -/
  | grow {subdag : CommittedSubDag} {carried kept : List Emission}
      {ours others : List (Authority × List UInt8)}
      (taken : state.inFlight.Perm (carried ++ kept))
      (payloads : ours.map Prod.snd = carried.map Emission.payload)
      (delivered : Interleaved ours others subdag.payloads)
      (silent : transactionsIn (decode others) = []) :
      Step config seeding state (state.grow subdag carried kept)
  /-- A validator records the next commit of the stream, receives a recorded one
  or restarts. -/
  | run {validator : Authority} {event : NodeEvent} {next : Node}
      (recorded : (state.network.nodes validator).wal ++ [event].filterMap NodeEvent.committed <+:
        state.network.stream)
      (stepped : (state.network.nodes validator).step config event = .ok ((), next)) :
      Step config seeding state (state.update validator event next)

/-- What is emitted from `state` to `next` takes no position of its authority
that is in flight or committed. -/
def PositionsUnused (state next : LoadedNetwork) : Prop :=
  ∀ emission ∈ next.emitted.drop state.emitted.length, ∀ earlier ∈ state.used,
    earlier.authority = emission.authority → earlier.position ≠ emission.position

/-- A run all of whose emissions take unused positions. -/
def ReachableUnused (config : ValidatorConfig) (seeding : Seeding) (state : LoadedNetwork) : Prop :=
  Relation.ReflTransGen (fun state next => Step config seeding state next ∧ PositionsUnused state next)
    (initial config) state

/-- Generated load survives the restarts: what is emitted is new to the store
that its incarnation replayed, and whatever a validator executes succeeds. -/
structure Survives (config : ValidatorConfig) (state : LoadedNetwork) : Prop where
  fresh : ∀ emission ∈ state.emitted, ∃ timestampMs transaction id,
    Envelope.fromBytes emission.payload = .ok ⟨timestampMs, .execute transaction⟩ ∧
      SequentialScheduler.Creates transaction id ∧ emission.replayed.latest id = none
  success : ∀ validator, ∃ deliveries outcomes,
    deliveries.map Delivery.subdag ++ (state.network.nodes validator).queue =
      (state.network.nodes validator).wal ∧
    run ExecutionState.deliver (.new config.engine config.committee config.quorum) deliveries =
      .ok (outcomes, (state.network.nodes validator).driver.state) ∧
    ∀ outcome ∈ outcomes, ∀ status ∈ outcome.statuses, status = .success
  forward : ∀ validator event,
    (state.network.nodes validator).step config event ≠ .error .versionsMustMoveForward

end LoadedNetwork

/-! ## Emissions and their ids -/

/-- Authorities of a committee have numbers below 256, each its own. -/
structure Seeding.Separates (seeding : Seeding) (committee : Committee) : Prop where
  injective : Set.InjOn seeding.asU64 committee.members
  small : ∀ member ∈ committee.members, (seeding.asU64 member).toNat < 256

namespace Emission

def id (emission : Emission) (seeding : Seeding) : ObjectId :=
  TransactionGenerator.idAt (seeding.asU64 emission.authority)
    (seeding.firstRandom (seeding.asU64 emission.authority)) emission.position

/-- The payload creates the id of the emission's position. -/
structure Made (emission : Emission) (seeding : Seeding) (committee : Committee) : Prop where
  member : emission.authority ∈ committee.members
  payload : ∃ timestampMs args, 96 + args.val.length ≤ maxPayloadSize ∧ emission.payload =
    (TransactionGenerator.transaction timestampMs (emission.id seeding) args).toBytes

variable {emission earlier : Emission} {seeding : Seeding} {committee : Committee}

theorem Made.decoded (made : emission.Made seeding committee) :
    TransactionGenerator.DecodesToCreation emission.payload (emission.id seeding) := by
  obtain ⟨timestampMs, args, fits, same⟩ := made.payload
  rw [same]
  exact ⟨timestampMs, TransactionGenerator.transaction_decoded fits⟩

theorem Made.id_eq_iff (made : emission.Made seeding committee) (made' : earlier.Made seeding committee)
    (separates : seeding.Separates committee) (bound : emission.position < 2 ^ 56)
    (bound' : earlier.position < 2 ^ 56) :
    emission.id seeding = earlier.id seeding ↔
      (emission.authority, emission.position) = (earlier.authority, earlier.position) := by
  rw [id, id, TransactionGenerator.idAt_eq_iff (separates.small _ made.member)
    (separates.small _ made'.member) bound bound' (congrArg _),
    separates.injective.eq_iff made.member made'.member, Prod.mk.injEq]

end Emission

/-- The transactions in the payloads of emissions create their ids in order. -/
theorem creations_of_payloads {seeding : Seeding} {committee : Committee}
    {ours : List (Authority × List UInt8)} {carried : List Emission}
    (made : ∀ emission ∈ carried, emission.Made seeding committee)
    (payloads : ours.map Prod.snd = carried.map Emission.payload) :
    List.Forall₂ SequentialScheduler.Creates (transactionsIn (decode ours))
      (carried.map (Emission.id · seeding)) := by
  apply TransactionGenerator.creations_decoded
  rw [payloads, List.forall₂_map_left_iff, List.forall₂_map_right_iff, List.forall₂_same]
  exact fun emission listed => (made emission listed).decoded

/-- The emissions of a batch that starts in the middle of a stream. -/
theorem Load.emissions_range (load : Load) (validator : Authority) (payload : Nat → List UInt8)
    {position : Nat} (count : Nat) (room : position < 2 ^ 64) :
    load.emissions validator (.ofNat position) ((List.range' position count).map payload) =
      (List.range' position count).map fun position =>
        ⟨validator, position, payload position, load.replayed⟩ := by
  rw [emissions, UInt64.toNat_ofNat_of_lt' room]
  refine List.ext_getElem (by simp) fun index bound bound' => ?_
  simp

/-- Positions below a bound leave the batch within it. -/
theorem Load.emissions_room {load : Load} {validator : Authority} {counter : UInt64}
    {batch : List (List UInt8)} {bound : Nat} (within : counter.toNat ≤ bound)
    (few : ∀ emission ∈ load.emissions validator counter batch, emission.position < bound) :
    counter.toNat + batch.length ≤ bound := by
  rcases Nat.eq_zero_or_pos batch.length with none | some
  · omega
  · have inside : batch.length - 1 < batch.length := by omega
    have last : (batch[batch.length - 1], batch.length - 1) ∈ batch.zipIdx :=
      List.mem_zipIdx_iff_getElem?.mpr (List.getElem?_eq_getElem inside)
    have below := few _ (List.mem_map_of_mem last)
    dsimp only at below
    omega

/-! ## The invariant -/

/-- A generator in the middle of its validator's stream, and a replayed store of
`created` ids. -/
structure Load.Sound (load : Load) (seeding : Seeding) (committee : Committee)
    (created : List ObjectId) (validator : Authority) : Prop where
  running : ∀ generator, load.generator = some generator →
    validator ∈ committee.members ∧ generator.nameSpace = seeding.asU64 validator ∧
      96 + generator.argsLen.toNat ≤ maxPayloadSize ∧ ∃ position ≤ 2 ^ 56, generator.stream =
        TransactionGenerator.streamAt (seeding.firstRandom (seeding.asU64 validator)) position
  replayed : ∀ id, load.replayed.latest id ≠ none → id ∈ created

namespace LoadedNetwork

/-- The ids that the committed emissions create. -/
def created (state : LoadedNetwork) (seeding : Seeding) : List ObjectId :=
  state.committed.map (Emission.id · seeding)

structure Sound [Hasher] [BuildProfile] (config : ValidatorConfig) (seeding : Seeding)
    (state : LoadedNetwork) : Prop where
  behind : ∀ validator, (state.network.nodes validator).wal <+: state.network.stream
  consistent : ∀ validator, (state.network.nodes validator).Consistent config
  loads : ∀ validator, (state.loads validator).Sound seeding config.committee
    (state.created seeding) validator
  made : ∀ emission ∈ state.emitted, emission.Made seeding config.committee
  fresh : ∀ emission ∈ state.emitted, emission.replayed.latest (emission.id seeding) = none
  known : ∀ emission ∈ state.used, emission ∈ state.emitted
  distinct : (state.used.map fun emission => (emission.authority, emission.position)).Nodup
  creations : List.Forall₂ SequentialScheduler.Creates
    (state.network.stream.flatMap CommittedSubDag.transactions) (state.created seeding)

section

variable {state : LoadedNetwork} {validator : Authority} {load : Load}

theorem setLoad_self : (state.setLoad validator load).loads validator = load :=
  Function.update_self ..

theorem Sound.setLoad [Hasher] [BuildProfile] {config : ValidatorConfig} {seeding : Seeding}
    (sound : state.Sound config seeding)
    (new : load.Sound seeding config.committee (state.created seeding) validator) :
    (state.setLoad validator load).Sound config seeding :=
  { sound with
    loads := (Function.forall_update_iff state.loads fun other load =>
      load.Sound seeding config.committee (state.created seeding) other).mpr
        ⟨new, fun other _ => sound.loads other⟩ }

end

variable [Hasher] [BuildProfile] {config : ValidatorConfig} {seeding : Seeding}
  {state next : LoadedNetwork} {validator : Authority}

theorem initial_sound (config : ValidatorConfig) (seeding : Seeding) :
    (initial config).Sound config seeding where
  behind _ := List.prefix_rfl
  consistent _ := Node.fresh_consistent config
  loads _ := {
    running := fun _ running => by cases running
    replayed := fun _ existing => absurd rfl existing }
  made _ listed := by cases listed
  fresh _ listed := by cases listed
  known _ listed := by cases listed
  distinct := .nil
  creations := .nil

theorem Sound.ids_nodup (sound : state.Sound config seeding)
    (separates : seeding.Separates config.committee)
    (few : ∀ emission ∈ state.emitted, emission.position < 2 ^ 56) :
    (state.used.map (Emission.id · seeding)).Nodup := by
  have apart : ∀ emission ∈ state.used, ∀ earlier ∈ state.used,
      emission.id seeding = earlier.id seeding → emission = earlier := by
    intro emission listed earlier listed' same
    have known := sound.known emission listed
    have known' := sound.known earlier listed'
    have place := ((sound.made emission known).id_eq_iff (sound.made earlier known') separates
      (few emission known) (few earlier known')).mp same
    exact List.inj_on_of_nodup_map sound.distinct listed listed' place
  exact List.Nodup.map_on apart (.of_map _ sound.distinct)

/-- Executing any front of the stream succeeds throughout and creates committed
ids only. -/
theorem Sound.execute_front (sound : state.Sound config seeding)
    (fake : config.engine = fakeExecutor) (separates : seeding.Separates config.committee)
    (few : ∀ emission ∈ state.emitted, emission.position < 2 ^ 56)
    {front : List CommittedSubDag} (part : front <+: state.network.stream) :
    ∃ store, (SequentialScheduler.new config.engine).execute
        (front.flatMap CommittedSubDag.transactions) =
          .ok ((front.flatMap CommittedSubDag.transactions).map fun _ => .success,
            ⟨store, fakeExecutor⟩) ∧
      ∀ id, store.latest id ≠ none → id ∈ state.created seeding := by
  obtain ⟨rest, split⟩ := part
  have creations := sound.creations
  rw [← split, List.flatMap_append] at creations
  have fronts := List.forall₂_take (front.flatMap CommittedSubDag.transactions).length creations
  rw [List.take_left] at fronts
  have distinct := (List.nodup_append.mp (List.map_append ▸ sound.ids_nodup separates few)).2.1
  have vacant (id : ObjectId) : InMemoryStore.default.latest id = none := rfl
  obtain ⟨store, executed, latest⟩ := SequentialScheduler.execute_creations fronts
    (distinct.sublist (List.take_sublist _ _)) fun id _ => vacant id
  rw [SequentialScheduler.new, fake]
  have created (id : ObjectId) (existing : store.latest id ≠ none) : id ∈ state.created seeding := by
    by_contra absent
    rw [latest, if_neg fun listed => absent (List.mem_of_mem_take listed)] at existing
    exact existing rfl
  exact ⟨store, executed, created⟩

/-- What a node behind the stream has executed. -/
theorem Sound.node_executed (sound : state.Sound config seeding)
    (fake : config.engine = fakeExecutor) (separates : seeding.Separates config.committee)
    (few : ∀ emission ∈ state.emitted, emission.position < 2 ^ 56) {node : Node}
    (consistent : node.Consistent config) (part : node.wal <+: state.network.stream) :
    ∃ deliveries outcomes, deliveries.map Delivery.subdag ++ node.queue = node.wal ∧
      run ExecutionState.deliver (.new config.engine config.committee config.quorum) deliveries =
        .ok (outcomes, node.driver.state) ∧
      (∀ outcome ∈ outcomes, ∀ status ∈ outcome.statuses, status = .success) ∧
      ∀ id, node.driver.state.scheduler.store.latest id ≠ none → id ∈ state.created seeding := by
  obtain ⟨deliveries, minted, split, ran⟩ := consistent.received
  obtain ⟨outcomes, executed, -⟩ := Driver.run_state ran
  have scheduled := ExecutionState.run_scheduler executed
  have front : deliveries.map Delivery.subdag <+: state.network.stream :=
    (split ▸ List.prefix_append _ _ : deliveries.map Delivery.subdag <+: node.wal).trans part
  obtain ⟨store, succeeds, created⟩ := sound.execute_front fake separates few front
  rw [List.flatMap_map] at succeeds
  obtain ⟨statuses, reached⟩ := Prod.mk.inj (Except.ok.inj (scheduled.symm.trans succeeds))
  have succeeded : ∀ outcome ∈ outcomes, ∀ status ∈ outcome.statuses, status = .success := by
    intro outcome listed status reported
    have known : status ∈ outcomes.flatMap SubdagOutcome.statuses :=
      List.mem_flatMap.mpr ⟨outcome, listed, reported⟩
    rw [statuses] at known
    obtain ⟨_, -, rfl⟩ := List.mem_map.mp known
    rfl
  have known : ∀ id, node.driver.state.scheduler.store.latest id ≠ none →
      id ∈ state.created seeding := by
    rw [reached]
    exact created
  exact ⟨deliveries, outcomes, split, executed, succeeded, known⟩

/-! ## What each step preserves -/

theorem Sound.update (sound : state.Sound config seeding)
    (fake : config.engine = fakeExecutor) (separates : seeding.Separates config.committee)
    (few : ∀ emission ∈ state.emitted, emission.position < 2 ^ 56) {event : NodeEvent} {node : Node}
    (recorded : (state.network.nodes validator).wal ++ [event].filterMap NodeEvent.committed <+:
      state.network.stream)
    (stepped : (state.network.nodes validator).step config event = .ok ((), node)) :
    (state.update validator event node).Sound config seeding := by
  obtain ⟨consistent, grown⟩ := Node.step_consistent (sound.consistent validator) stepped
  rw [← grown] at recorded
  have moved : Sound config seeding
      { state with network := state.network.update validator node } := { sound with
    behind := Network.forall_update state.network validator node
      (P := fun node => node.wal <+: state.network.stream) sound.behind recorded
    consistent := Network.forall_update state.network validator node sound.consistent consistent }
  cases event with
  | commit subdag => exact moved
  | receive now => exact moved
  | restart =>
      obtain ⟨_, _, -, -, -, created⟩ := sound.node_executed fake separates few consistent recorded
      refine moved.setLoad ⟨fun running same => ?_, created⟩
      cases same

theorem Sound.generate (sound : state.Sound config seeding) {generator : TransactionGenerator}
    (member : validator ∈ config.committee.members)
    (nameSpace : generator.nameSpace = seeding.asU64 validator)
    (fits : 96 + generator.argsLen.toNat ≤ maxPayloadSize) {position : Nat}
    (within : position ≤ 2 ^ 56)
    (stream : generator.stream =
      TransactionGenerator.streamAt (seeding.firstRandom (seeding.asU64 validator)) position) :
    (state.generate validator generator).Sound config seeding := by
  have load : Load.Sound { state.loads validator with generator := some generator } seeding
      config.committee (state.created seeding) validator := by
    constructor
    · intro running same
      cases same
      exact ⟨member, nameSpace, fits, position, within, stream⟩
    · exact (sound.loads validator).replayed
  exact sound.setLoad load

theorem Sound.emit (sound : state.Sound config seeding) {emissions : List Emission}
    (separates : seeding.Separates config.committee)
    (few : ∀ emission ∈ (state.emit emissions).emitted, emission.position < 2 ^ 56)
    (unused : ∀ emission ∈ emissions, ∀ earlier ∈ state.used,
      earlier.authority = emission.authority → earlier.position ≠ emission.position)
    (distinct : (emissions.map fun emission => (emission.authority, emission.position)).Nodup)
    (made : ∀ emission ∈ emissions, emission.Made seeding config.committee)
    (replayed : ∀ emission ∈ emissions, ∀ id, emission.replayed.latest id ≠ none →
      id ∈ state.created seeding) :
    (state.emit emissions).Sound config seeding := by
  have used : (state.used ++ emissions).Perm (state.emit emissions).used := by
    change (state.inFlight ++ state.committed) ++ emissions ~
      (state.inFlight ++ emissions) ++ state.committed
    rw [List.append_assoc, List.append_assoc]
    exact List.perm_append_comm.append_left _
  have apart : ∀ emission ∈ emissions, ∀ earlier ∈ state.used,
      (earlier.authority, earlier.position) ≠ (emission.authority, emission.position) := by
    intro emission listed earlier listed' same
    obtain ⟨authority, position⟩ := Prod.mk.inj same
    exact unused emission listed earlier listed' authority position
  exact { sound with
    made := fun emission listed => (List.mem_append.mp listed).elim (sound.made emission) (made emission)
    fresh := by
      intro emission listed
      rcases List.mem_append.mp listed with before | new
      · exact sound.fresh emission before
      · by_contra existing
        obtain ⟨earlier, committed, same⟩ := List.mem_map.mp (replayed emission new _ existing)
        have inUse : earlier ∈ state.used := List.mem_append_right _ committed
        have known := sound.known earlier inUse
        exact apart emission new earlier inUse (((sound.made earlier known).id_eq_iff
          (made emission new) separates (few earlier (List.mem_append_left _ known))
          (few emission listed)).mp same)
    known := by
      intro emission listed
      rcases List.mem_append.mp (used.mem_iff.mpr listed) with before | new
      · exact List.mem_append_left _ (sound.known emission before)
      · exact List.mem_append_right _ new
    distinct := by
      refine (used.map _).nodup_iff.mp ?_
      rw [List.map_append]
      refine List.nodup_append.mpr ⟨sound.distinct, distinct, fun place before other new => ?_⟩
      obtain ⟨earlier, inUse, rfl⟩ := List.mem_map.mp before
      obtain ⟨emission, listed, rfl⟩ := List.mem_map.mp new
      exact apart emission listed earlier inUse }

theorem Sound.lose (sound : state.Sound config seeding) {kept : List Emission}
    (fewer : kept.Sublist state.inFlight) :
    Sound config seeding { state with inFlight := kept } := by
  have used : (kept ++ state.committed).Sublist state.used := fewer.append_right _
  exact { sound with
    known := fun emission listed => sound.known emission (used.subset listed)
    distinct := sound.distinct.sublist (used.map _) }

theorem Sound.grow (sound : state.Sound config seeding) {subdag : CommittedSubDag}
    {carried kept : List Emission} {ours others : List (Authority × List UInt8)}
    (taken : state.inFlight.Perm (carried ++ kept))
    (payloads : ours.map Prod.snd = carried.map Emission.payload)
    (delivered : Interleaved ours others subdag.payloads)
    (silent : transactionsIn (decode others) = []) :
    (state.grow subdag carried kept).Sound config seeding := by
  have used : state.used.Perm (state.grow subdag carried kept).used := by
    calc state.used
      _ ~ (carried ++ kept) ++ state.committed := taken.append_right _
      _ ~ (kept ++ carried) ++ state.committed := List.perm_append_comm.append_right _
      _ ~ kept ++ (state.committed ++ carried) := by
        rw [List.append_assoc]
        exact List.perm_append_comm.append_left _
  have made : ∀ emission ∈ carried, emission.Made seeding config.committee := by
    intro emission listed
    have flying : emission ∈ state.inFlight := taken.mem_iff.mpr (List.mem_append_left _ listed)
    exact sound.made emission (sound.known emission (List.mem_append_left _ flying))
  have transactions : subdag.transactions = transactionsIn (decode ours) := by
    have merged : Interleaved (transactionsIn (decode ours)) (transactionsIn (decode others))
        subdag.transactions := (delivered.filterMap _).filterMap _
    rw [silent] at merged
    exact merged.right_nil
  exact {
    behind := fun validator => (sound.behind validator).trans (List.prefix_append _ _)
    consistent := sound.consistent
    loads := by
      intro validator
      constructor
      · exact (sound.loads validator).running
      · intro id existing
        rw [created, LoadedNetwork.grow, List.map_append]
        exact List.mem_append_left _ ((sound.loads validator).replayed id existing)
    made := sound.made
    fresh := sound.fresh
    known := fun emission listed => sound.known emission (used.mem_iff.mpr listed)
    distinct := (used.map _).nodup_iff.mp sound.distinct
    creations := by
      change List.Forall₂ _ ((state.network.stream ++ [subdag]).flatMap _)
        ((state.committed ++ carried).map _)
      rw [List.flatMap_append, List.flatMap_singleton, List.map_append, transactions]
      exact List.rel_append sound.creations (creations_of_payloads made payloads) }

theorem Sound.tick (sound : state.Sound config seeding)
    (separates : seeding.Separates config.committee) {generator : TransactionGenerator}
    {timestampMs : UInt64} {batch : List (List UInt8)} {stream : IdStream}
    (running : (state.loads validator).generator = some generator)
    (filled : TransactionGenerator.fillBatch timestampMs generator.transactionsPerInterval
      generator.argsLen generator.nameSpace generator.stream = .ok (batch, stream))
    (few : ∀ emission ∈ (state.emit ((state.loads validator).emissions validator
      generator.stream.counter batch)).emitted, emission.position < 2 ^ 56)
    (unused : ∀ emission ∈ (state.loads validator).emissions validator generator.stream.counter batch,
      ∀ earlier ∈ state.used, earlier.authority = emission.authority →
        earlier.position ≠ emission.position) :
    ((state.generate validator { generator with stream }).emit
      ((state.loads validator).emissions validator generator.stream.counter batch)).Sound
        config seeding := by
  obtain ⟨member, nameSpace, fits, position, within, start⟩ :=
    (sound.loads validator).running generator running
  have below : position < 2 ^ 64 := by omega
  have counter : generator.stream.counter.toNat = position := by
    rw [start]
    exact UInt64.toNat_ofNat_of_lt' below
  have length : batch.length = generator.transactionsPerInterval := by
    rw [run_length filled, List.length_range]
  have room : position + generator.transactionsPerInterval ≤ 2 ^ 56 := by
    rw [← counter, ← length]
    exact Load.emissions_room (counter ▸ within) fun emission listed =>
      few emission (List.mem_append_right _ listed)
  rw [start, TransactionGenerator.fillBatch_streamAt (by omega)] at filled
  cases filled
  rw [start] at few unused ⊢
  have emissions := (state.loads validator).emissions_range validator (fun position =>
    (TransactionGenerator.transaction timestampMs (TransactionGenerator.idAt generator.nameSpace
      (seeding.firstRandom (seeding.asU64 validator)) position)
        (TransactionGenerator.zeros generator.argsLen)).toBytes)
    generator.transactionsPerInterval below
  let advanced := { generator with
    stream := TransactionGenerator.streamAt (seeding.firstRandom (seeding.asU64 validator))
      (position + generator.transactionsPerInterval) }
  have moved : (state.generate validator advanced).Sound config seeding :=
    sound.generate member nameSpace fits room rfl
  refine moved.emit separates few unused ?_ ?_ ?_
  · have places : Function.Injective fun position : Nat => (validator, position) :=
      fun _ _ same => (Prod.mk.inj same).2
    change (List.map _ (Load.emissions _ _ (UInt64.ofNat position) _)).Nodup
    rw [emissions, List.map_map]
    exact .map places List.nodup_range'
  · intro emission listed
    obtain ⟨position, -, rfl⟩ := List.mem_map.mp (emissions ▸ listed)
    refine ⟨member, timestampMs, TransactionGenerator.zeros generator.argsLen, ?_, ?_⟩
    · rw [TransactionGenerator.zeros_length]
      exact fits
    · rw [Emission.id, nameSpace]
  · intro emission listed
    obtain ⟨position, -, rfl⟩ := List.mem_map.mp (emissions ▸ listed)
    exact (sound.loads validator).replayed

theorem Step.emitted (stepped : Step config seeding state next) : state.emitted <+: next.emitted := by
  cases stepped with
  | start | lose | grow => exact List.prefix_rfl
  | tick => exact List.prefix_append _ _
  | @run _ event => cases event <;> exact List.prefix_rfl

theorem Sound.step (sound : state.Sound config seeding) (fake : config.engine = fakeExecutor)
    (separates : seeding.Separates config.committee) (stepped : Step config seeding state next)
    (unused : PositionsUnused state next)
    (few : ∀ emission ∈ next.emitted, emission.position < 2 ^ 56) : next.Sound config seeding := by
  have fewBefore : ∀ emission ∈ state.emitted, emission.position < 2 ^ 56 :=
    fun emission listed => few emission (stepped.emitted.subset listed)
  cases stepped with
  | start member idle started =>
      obtain ⟨nameSpace, stream, size, fits⟩ := TransactionGenerator.start_ok started
      exact sound.generate member nameSpace (size ▸ fits) (Nat.zero_le _) stream
  | tick running filled =>
      apply sound.tick separates running filled few
      intro emission listed
      apply unused emission
      exact List.drop_left.symm ▸ listed
  | lose fewer => exact sound.lose fewer
  | grow taken payloads delivered silent => exact sound.grow taken payloads delivered silent
  | run recorded stepped => exact sound.update fake separates fewBefore recorded stepped

theorem ReachableUnused.sound (reachable : ReachableUnused config seeding state)
    (fake : config.engine = fakeExecutor) (separates : seeding.Separates config.committee)
    (few : ∀ emission ∈ state.emitted, emission.position < 2 ^ 56) : state.Sound config seeding := by
  induction reachable with
  | refl => exact initial_sound config seeding
  | tail _ step ih =>
      obtain ⟨stepped, unused⟩ := step
      have sound := ih fun emission listed => few emission (stepped.emitted.subset listed)
      exact sound.step fake separates stepped unused few

/-! ## No panic on a version -/

theorem Sound.deliver_error (sound : state.Sound config seeding)
    (fake : config.engine = fakeExecutor) (separates : seeding.Separates config.committee)
    (few : ∀ emission ∈ state.emitted, emission.position < 2 ^ 56) {deliveries : List Delivery}
    {delivery : Delivery} {minted : List (Option Checkpoint)} {driver : Driver} {panic : Panic}
    (part : (deliveries ++ [delivery]).map Delivery.subdag <+: state.network.stream)
    (ran : run Driver.deliver (.new config) deliveries = .ok (minted, driver))
    (failed : driver.deliver delivery = .error panic) : panic.OfCounting := by
  obtain ⟨outcomes, executed, -⟩ := Driver.run_state ran
  have before := ExecutionState.run_scheduler executed
  obtain ⟨store, whole, -⟩ := sound.execute_front fake separates few part
  rw [List.flatMap_map, List.flatMap_append, List.flatMap_singleton] at whole
  obtain ⟨_, middle, _, front, back, -⟩ := SequentialScheduler.execute_append_ok.mp whole
  obtain ⟨-, rfl⟩ := Prod.mk.inj (Except.ok.inj (before.symm.trans front))
  rcases bind_eq_error.mp failed with stops | ⟨result, -, counting⟩
  · exact ExecutionState.deliver_error back stops
  · rcases bind_eq_error.mp counting with overflow | ⟨_, _, impossible⟩
    · exact .inl (addU64_error overflow)
    · cases impossible

theorem Sound.step_error (sound : state.Sound config seeding)
    (fake : config.engine = fakeExecutor) (separates : seeding.Separates config.committee)
    (few : ∀ emission ∈ state.emitted, emission.position < 2 ^ 56) {event : NodeEvent} {panic : Panic}
    (failed : (state.network.nodes validator).step config event = .error panic) :
    panic.OfCounting := by
  have behind := sound.behind validator
  obtain ⟨deliveries, minted, split, ran⟩ := (sound.consistent validator).received
  cases event with
  | commit subdag => cases failed
  | receive now =>
      rw [Node.step] at failed
      cases waiting : (state.network.nodes validator).queue with
      | nil => simp only [waiting, reduceCtorEq] at failed
      | cons subdag queue =>
          simp only [waiting] at failed
          rcases bind_eq_error.mp failed with stops | ⟨_, _, impossible⟩
          · have front : (deliveries ++ [(⟨now, subdag⟩ : Delivery)]).map Delivery.subdag <+:
                (state.network.nodes validator).wal := by
              rw [← split, waiting, List.map_append]
              exact (List.prefix_append_right_inj _).mpr (List.prefix_append [subdag] queue)
            exact sound.deliver_error fake separates few (front.trans behind) ran stops
          · cases impossible
  | restart =>
      rcases bind_eq_error.mp (map_eq_error.mp failed) with stops | ⟨_, _, impossible⟩
      · obtain ⟨front, delivery, back, _, driver, whole, ran', fails⟩ := run_error (map_eq_error.mp stops)
        have recorded : (front ++ [delivery]).map Delivery.subdag <+:
            (state.network.nodes validator).wal := by
          rw [← Node.replayed_subdags (state.network.nodes validator).wal, whole]
          exact ((List.prefix_append_right_inj front).mpr (List.prefix_append [delivery] back)).map _
        exact sound.deliver_error fake separates few (recorded.trans behind) ran' fails
      · cases impossible

/-- Generated load survives any restarts in a run whose generators take unused
positions. -/
theorem load_survives (fake : config.engine = fakeExecutor)
    (separates : seeding.Separates config.committee)
    (reachable : ReachableUnused config seeding state)
    (few : ∀ emission ∈ state.emitted, emission.position < 2 ^ 56) : state.Survives config := by
  have sound := reachable.sound fake separates few
  constructor
  · intro emission listed
    obtain ⟨timestampMs, created, decoded, creates⟩ := (sound.made emission listed).decoded
    exact ⟨timestampMs, created, _, decoded, creates, sound.fresh emission listed⟩
  · intro validator
    obtain ⟨deliveries, outcomes, split, ran, success, -⟩ := sound.node_executed fake separates few
      (sound.consistent validator) (sound.behind validator)
    exact ⟨deliveries, outcomes, split, ran, success⟩
  · intro validator event failed
    rcases sound.step_error fake separates few failed with impossible | impossible <;>
      cases impossible

end LoadedNetwork

end

section

attribute [local instance] plainDag checkedBuild blake2b

open LoadedNetwork TransactionGenerator

private theorem lone_small : 1 < 2 ^ 64 := by decide

private def lone : ValidatorConfig := ⟨fakeExecutor, plainCommittee 1 lone_small, 1⟩

/-- `StdRng` seeded with 0 gives this number first. -/
private def zeroSeeded : Seeding := ⟨id, fun _ => 13486662071293341567⟩

private def tenPerSecond : LoadGeneratorConfig := ⟨10, 128⟩

private def generator (count : Nat) : TransactionGenerator :=
  ⟨1, 32, 0, streamAt 13486662071293341567 count⟩

private def payload : List UInt8 :=
  (transaction 1000 (idAt 0 13486662071293341567 0) (zeros 32)).toBytes

private def carrier (round : UInt64) : CommittedSubDag :=
  ⟨plainReference 0 round, [((0 : UInt64), [payload])]⟩

private theorem separated : zeroSeeded.Separates lone.committee where
  injective := Function.injective_id.injOn
  small := by
    intro member listed
    obtain rfl : member = (0 : UInt64) := by simpa [lone, plainCommittee] using listed
    decide

private theorem generator_starts :
    TransactionGenerator.start zeroSeeded (0 : UInt64) tenPerSecond = .ok (generator 0) := by
  rfl

private theorem generator_fills :
    fillBatch 1000 (generator 0).transactionsPerInterval (generator 0).argsLen
      (generator 0).nameSpace (generator 0).stream = .ok ([payload], (generator 1).stream) := by
  exact fillBatch_streamAt (by decide)

/-- The generator is started and submits its first batch. -/
private def working (state : LoadedNetwork) : LoadedNetwork :=
  ((state.generate (0 : UInt64) (generator 0)).generate (0 : UInt64) (generator 1)).emit
    (((state.generate (0 : UInt64) (generator 0)).loads (0 : UInt64)).emissions (0 : UInt64) 0 [payload])

private def take (node : Node) (event : NodeEvent) : Node :=
  match node.step lone event with
  | .ok (_, next) => next
  | .error _ => node

private def updating (state : LoadedNetwork) (event : NodeEvent) : LoadedNetwork :=
  state.update (0 : UInt64) event (take (state.network.nodes (0 : UInt64)) event)

private theorem step_take {node : Node} {event : NodeEvent}
    (returns : (node.step lone event).isOk = true) :
    node.step lone event = .ok ((), take node event) := by
  unfold take
  cases stepped : node.step lone event with
  | error panic => simp [stepped, Except.isOk, Except.toBool] at returns
  | ok result => rfl

private def delivering (state : LoadedNetwork) (round : UInt64) : LoadedNetwork :=
  updating (state.grow (carrier round) state.inFlight []) (.commit (carrier round))

/-- A state reached by allowed steps, whose validator has recorded the whole
stream. -/
private structure Current (Allowed : LoadedNetwork → LoadedNetwork → Prop) (state : LoadedNetwork) :
    Prop where
  reached : Relation.ReflTransGen (fun state next => Step lone zeroSeeded state next ∧
    Allowed state next) (.initial lone) state
  /-- Steps that emit nothing are allowed. -/
  silent : ∀ state next : LoadedNetwork, next.emitted = state.emitted → Allowed state next
  consistent : (state.network.nodes (0 : UInt64)).Consistent lone
  recorded : (state.network.nodes (0 : UInt64)).wal = state.network.stream

section

variable {Allowed : LoadedNetwork → LoadedNetwork → Prop} {state : LoadedNetwork}

private theorem initial_current
    (silent : ∀ state next : LoadedNetwork, next.emitted = state.emitted → Allowed state next) :
    Current Allowed (.initial lone) :=
  ⟨.refl, silent, Node.fresh_consistent lone, rfl⟩

private theorem Current.works (current : Current Allowed state)
    (idle : (state.loads (0 : UInt64)).generator = none)
    (allowed : Allowed (state.generate (0 : UInt64) (generator 0)) (working state)) :
    Current Allowed (working state) := by
  have started : Step lone zeroSeeded state (state.generate (0 : UInt64) (generator 0)) :=
    .start (by simp [lone, plainCommittee]) idle generator_starts
  have ticked : Step lone zeroSeeded (state.generate (0 : UInt64) (generator 0)) (working state) :=
    .tick (by rw [LoadedNetwork.generate, setLoad_self]) generator_fills
  have quiet := current.silent state (state.generate (0 : UInt64) (generator 0)) rfl
  exact { current with reached := (current.reached.tail ⟨started, quiet⟩).tail ⟨ticked, allowed⟩ }

private theorem Current.loses (current : Current Allowed state) :
    Current Allowed { state with inFlight := [] } :=
  { current with reached :=
      current.reached.tail ⟨.lose (List.nil_sublist _), current.silent _ _ rfl⟩ }

private theorem Current.grows (current : Current Allowed state) (round : UInt64)
    {emission : Emission} (flying : state.inFlight = [emission]) (same : emission.payload = payload) :
    Relation.ReflTransGen (fun state next => Step lone zeroSeeded state next ∧ Allowed state next)
      (.initial lone) (state.grow (carrier round) state.inFlight []) := by
  have payloads : [((0 : UInt64), payload)].map Prod.snd = state.inFlight.map Emission.payload := by
    rw [flying, List.map_singleton, List.map_singleton, same]
  exact current.reached.tail ⟨.grow (List.append_nil _ ▸ .refl _) payloads (.left .nil) rfl,
    current.silent _ _ rfl⟩

private theorem updating_current {event : NodeEvent}
    (reached : Relation.ReflTransGen (fun state next => Step lone zeroSeeded state next ∧
      Allowed state next) (.initial lone) state)
    (silent : ∀ state next : LoadedNetwork, next.emitted = state.emitted → Allowed state next)
    (consistent : (state.network.nodes (0 : UInt64)).Consistent lone)
    (recorded : (state.network.nodes (0 : UInt64)).wal ++ [event].filterMap NodeEvent.committed =
      state.network.stream)
    (returns : ((state.network.nodes (0 : UInt64)).step lone event).isOk = true) :
    Current Allowed (updating state event) := by
  have stepped := step_take returns
  obtain ⟨kept, grown⟩ := Node.step_consistent consistent stepped
  have node : (updating state event).network.nodes (0 : UInt64) =
      take (state.network.nodes (0 : UInt64)) event := by
    cases event <;> exact Network.update_nodes_self ..
  have stream : (updating state event).network.stream = state.network.stream := by
    cases event <;> rfl
  have quiet : (updating state event).emitted = state.emitted := by
    cases event <;> rfl
  exact {
    reached := reached.tail ⟨.run (recorded ▸ List.prefix_rfl) stepped, silent _ _ quiet⟩
    silent := silent
    consistent := node ▸ kept
    recorded := by rw [node, stream, grown, recorded] }

private theorem Current.updates (current : Current Allowed state) (event : NodeEvent)
    (uncommitted : event.committed = none)
    (returns : ((state.network.nodes (0 : UInt64)).step lone event).isOk = true) :
    Current Allowed (updating state event) := by
  apply updating_current current.reached current.silent current.consistent _ returns
  rw [List.filterMap_cons_none uncommitted, List.filterMap_nil, List.append_nil]
  exact current.recorded

private theorem Current.delivers (current : Current Allowed state) (round : UInt64)
    {emission : Emission} (flying : state.inFlight = [emission])
    (same : emission.payload = payload) : Current Allowed (delivering state round) := by
  refine updating_current (current.grows round flying same) current.silent current.consistent ?_ rfl
  exact congrArg (· ++ [carrier round]) current.recorded

end

/-- The second incarnation submits the creation that the store holds, and the
validator that executes it panics. -/
theorem reemitted_creation_panics :
    ∃ state, Relation.ReflTransGen (Step lone zeroSeeded) (.initial lone) state ∧
      zeroSeeded.Separates lone.committee ∧ (∀ emission ∈ state.emitted, emission.position < 2 ^ 56) ∧
      (∃ emission ∈ state.emitted,
        emission.replayed.latest (emission.id zeroSeeded) = some ⟨1⟩) ∧
      (state.network.nodes (0 : UInt64)).step lone (.receive ⟨6⟩) =
        .error .versionsMustMoveForward ∧
      ¬ state.Survives lone := by
  let resumed := updating (updating (delivering (working (.initial lone)) 1) (.receive ⟨5⟩)) .restart
  have current : Current (fun _ _ => True) (delivering (working resumed) 2) := by
    have executed := ((initial_current fun _ _ _ => trivial).works rfl trivial).delivers 1 rfl rfl
    have restarted := (executed.updates (.receive ⟨5⟩) rfl (by decide +kernel)).updates .restart rfl
      (by decide +kernel)
    exact (restarted.works rfl trivial).delivers 2 rfl rfl
  have panics : ((delivering (working resumed) 2).network.nodes (0 : UInt64)).step lone
      (.receive ⟨6⟩) = .error .versionsMustMoveForward := by
    have shown : (match ((delivering (working resumed) 2).network.nodes (0 : UInt64)).step lone
        (.receive ⟨6⟩) with
      | .error panic => some panic
      | .ok _ => none) = some .versionsMustMoveForward := by decide +kernel
    split at shown
    · rename_i panic failed
      rw [failed, Option.some.inj shown]
    · cases shown
  refine ⟨_, current.reached.lift id fun _ _ step => step.1, separated,
    by decide +kernel, ?_, panics, fun survives => survives.forward _ _ panics⟩
  exact ⟨_, List.mem_cons_of_mem _ List.mem_cons_self, by decide +kernel⟩

/-- The first incarnation's creation is lost with its process, and the second
one's executes. -/
theorem lost_creation_survives :
    ∃ state, ReachableUnused lone zeroSeeded state ∧ state.emitted.length = 2 ∧
      state.committed.length = 1 ∧ state.Survives lone := by
  have silent : ∀ state next : LoadedNetwork, next.emitted = state.emitted →
      PositionsUnused state next := by
    intro state next same emission listed
    rw [same, List.drop_length] at listed
    cases listed
  have lost := ((initial_current silent).works rfl fun _ _ _ listed => nomatch listed).loses
  have restarted := lost.updates .restart rfl (by decide +kernel)
  have executed := ((restarted.works rfl fun _ _ _ listed => nomatch listed).delivers 1 rfl
    rfl).updates (.receive ⟨5⟩) rfl (by decide +kernel)
  exact ⟨_, executed.reached, rfl, rfl, load_survives rfl separated executed.reached
    (by decide +kernel)⟩

end

end BlockchainValidator
