import BlockchainValidator.Validator.Recovery

/-! # Replay from the consensus storage

A WAL lists its commits with references to their blocks, in an order of its own.
Replay looks every block up and stops at the first one that is missing; else it
ends where the live stream ended.
-/

namespace BlockchainValidator

open Execution Run

section

variable [Dag]

/-- A commit as the storage lists it. -/
structure CommitData where
  leader : BlockReference
  subDag : List BlockReference

/-- What replay reads of the storage that it opens. -/
structure Storage where
  iterCommits : List CommitData
  /-- `get_block` of the block reader. -/
  getBlock : BlockReference → Option Block

/-- Why a validator does not start. -/
inductive ReplayError where
  /-- The storage does not open. -/
  | storage (report : String)
  /-- The committed block is missing from the WAL. -/
  | missing (reference : BlockReference)
  | panic (panic : Panic)

namespace Storage

def block (storage : Storage) (reference : BlockReference) : Except ReplayError Block :=
  match storage.getBlock reference with
  | some block => .ok block
  | none => .error (.missing reference)

/-- The first of the blocks that is missing. -/
def missingIn (storage : Storage) (references : List BlockReference) : Option BlockReference :=
  references.find? fun reference => (storage.getBlock reference).isNone

/-- The first committed block that is missing, in the order of the commits. -/
def firstMissing (storage : Storage) : Option BlockReference :=
  storage.missingIn (storage.iterCommits.flatMap CommitData.subDag)

variable [Hasher] [BuildProfile]

/-- Executes one stored commit; nothing is submitted for what it mints. -/
def replayCommit (storage : Storage) (driver : Driver) (commit : CommitData) :
    Except ReplayError (Option Checkpoint × Driver) := do
  let blocks ← commit.subDag.mapM storage.block
  (driver.deliver ⟨.zero, ⟨commit.leader, blocks⟩⟩).mapError .panic

end Storage

/-- `Validator::replay`; there is no WAL where the storage is ephemeral. -/
def Validator.replay [Hasher] [BuildProfile] (config : ValidatorConfig)
    (wal : Option (Except String Storage)) : Except ReplayError Driver :=
  match wal with
  | none => .ok (.new config)
  | some (.error report) => .error (.storage report)
  | some (.ok storage) => Prod.snd <$> run storage.replayCommit (.new config) storage.iterCommits

/-! ## What the storage holds of a stream -/

/-- The commit refers to the blocks of the sub-dag, up to their order, and none
that is still there was replaced. -/
def Storage.Lists (storage : Storage) (commit : CommitData) (subdag : CommittedSubDag) : Prop :=
  commit.leader = subdag.anchor ∧
    ∃ blocks, Dag.sort blocks = Dag.sort subdag.blocks ∧
      List.Forall₂ (fun reference block => ∀ found, storage.getBlock reference = some found →
        found = block) commit.subDag blocks

section

variable {storage : Storage} {references : List BlockReference} {blocks : List Block}

theorem Storage.mapM_block
    (kept : List.Forall₂ (fun reference block => ∀ found, storage.getBlock reference = some found →
      found = block) references blocks) :
    references.mapM storage.block =
      match storage.missingIn references with
      | none => .ok blocks
      | some reference => .error (.missing reference) := by
  induction kept with
  | nil => rfl
  | @cons reference block references blocks head _ ih =>
      rw [List.mapM_cons, missingIn, List.find?_cons, Storage.block]
      cases found : storage.getBlock reference with
      | none => rfl
      | some other =>
          rw [head other found, bind_ok, ih]
          dsimp only [Option.isNone_some]
          rw [← missingIn]
          cases storage.missingIn references <;> rfl

/-- The order in which the blocks come is the canonical one anyway. -/
theorem Driver.deliver_sorted [Hasher] [BuildProfile] (driver : Driver) (now : Duration)
    {anchor : BlockReference} {blocks' : List Block} (same : Dag.sort blocks = Dag.sort blocks') :
    driver.deliver ⟨now, ⟨anchor, blocks⟩⟩ = driver.deliver ⟨now, ⟨anchor, blocks'⟩⟩ := by
  simp only [deliver, ExecutionState.deliver, ExecutionState.executeSubdag,
    CommittedSubDag.payloads, same]

variable [Hasher] [BuildProfile] {driver driver' last : Driver} {commit : CommitData}
  {delivery : Delivery} {checkpoint : Option Checkpoint}

/-- A commit with all its blocks takes the driver where the live stream took it. -/
theorem Storage.replayCommit_ok (alike : driver'.untimed = driver.untimed)
    (listed : storage.Lists commit delivery.subdag)
    (delivered : driver.deliver delivery = .ok (checkpoint, last))
    (whole : storage.missingIn commit.subDag = none) :
    ∃ last', storage.replayCommit driver' commit = .ok (checkpoint, last') ∧
      last'.untimed = last.untimed := by
  obtain ⟨leader, blocks, order, kept⟩ := listed
  have same : (⟨.zero, delivery.subdag⟩ : Delivery).subdag = delivery.subdag := rfl
  obtain ⟨last', delivered', final⟩ := Driver.deliver_retimed alike same delivered
  refine ⟨last', ?_, final⟩
  rw [replayCommit, mapM_block kept, whole]
  dsimp only
  rw [bind_ok, leader, driver'.deliver_sorted .zero order, delivered']
  rfl

theorem Storage.replayCommit_missing (listed : storage.Lists commit delivery.subdag)
    {reference : BlockReference} (missing : storage.missingIn commit.subDag = some reference) :
    storage.replayCommit driver commit = .error (.missing reference) := by
  obtain ⟨-, blocks, -, kept⟩ := listed
  rw [replayCommit, mapM_block kept, missing]
  rfl

/-- Whatever a process had executed live, at whatever clocks, replay rebuilds if
its storage still holds every committed block, and names the first missing one
if not. -/
theorem Storage.replay_exact {config : ValidatorConfig} {deliveries : List Delivery}
    {minted : List (Option Checkpoint)} {live : Driver}
    (ran : run Driver.deliver (.new config) deliveries = .ok (minted, live))
    (recorded : List.Forall₂ (fun commit (delivery : Delivery) => storage.Lists commit delivery.subdag)
      storage.iterCommits deliveries) :
    (storage.firstMissing = none → ∃ driver,
      Validator.replay config (some (.ok storage)) = .ok driver ∧ driver.untimed = live.untimed) ∧
    ∀ reference, storage.firstMissing = some reference →
      Validator.replay config (some (.ok storage)) = .error (.missing reference) := by
  have rebuilt {commits : List CommitData} {deliveries : List Delivery} {driver driver' : Driver}
      {minted : List (Option Checkpoint)} (alike : driver'.untimed = driver.untimed)
      (recorded : List.Forall₂ (fun commit (delivery : Delivery) =>
        storage.Lists commit delivery.subdag) commits deliveries)
      (ran : run Driver.deliver driver deliveries = .ok (minted, live)) :
      (storage.missingIn (commits.flatMap CommitData.subDag) = none → ∃ last,
        run storage.replayCommit driver' commits = .ok (minted, last) ∧
          last.untimed = live.untimed) ∧
      ∀ reference, storage.missingIn (commits.flatMap CommitData.subDag) = some reference →
        run storage.replayCommit driver' commits = .error (.missing reference) := by
    induction recorded generalizing driver driver' minted with
    | nil =>
        cases ran
        exact ⟨fun _ => ⟨driver', rfl, alike⟩, nofun⟩
    | @cons commit delivery commits deliveries listed _ ih =>
        obtain ⟨checkpoint, middle, rest, _, delivered, tail, same⟩ := run_cons_ok.mp ran
        cases same
        rw [List.flatMap_cons, missingIn, List.find?_append, ← missingIn, ← missingIn]
        cases missing : storage.missingIn commit.subDag with
        | some first =>
            refine ⟨nofun, fun reference found => ?_⟩
            cases found
            rw [run, replayCommit_missing listed missing]
            rfl
        | none =>
            obtain ⟨middle', replayed, alike'⟩ := replayCommit_ok alike listed delivered missing
            obtain ⟨whole, lost⟩ := ih alike' tail
            rw [Option.none_or]
            refine ⟨fun found => ?_, fun reference found => ?_⟩
            · obtain ⟨last, ran', final⟩ := whole found
              exact ⟨last, run_cons_ok.mpr ⟨_, _, _, _, replayed, ran', rfl⟩, final⟩
            · rw [run, replayed, bind_ok]
              dsimp only
              rw [lost reference found]
              rfl
  obtain ⟨whole, lost⟩ := rebuilt rfl recorded ran
  refine ⟨fun found => ?_, fun reference found => ?_⟩
  · obtain ⟨last, ran', final⟩ := whole found
    exact ⟨last, map_eq_ok.mpr ⟨_, ran', rfl⟩, final⟩
  · exact map_eq_error.mpr (lost reference found)

end

end

section

attribute [local instance] plainDag checkedBuild blake2b

private def storedDeliveries : List Delivery :=
  (plainStream FakeFunctionId.successId).map fun subdag => ⟨⟨5⟩, subdag⟩

/-- A WAL of that stream, from which the second block may be gone. -/
private def storedStream (gone : Bool) : Storage where
  iterCommits := [⟨plainReference 0 1, [plainReference 0 1]⟩, ⟨plainReference 0 2, [plainReference 1 2]⟩]
  getBlock reference :=
    if reference = plainReference 0 1 then
      some ((0 : UInt64), [Envelope.toBytes ⟨7, .execute
        ⟨FakeFunctionId.successId, .singleton (.new 1, .writeOnly), .nil⟩⟩])
    else if gone then none
    else some ((1 : UInt64), [Envelope.toBytes ⟨8, .attest ⟨plainReference 0 1, .default⟩⟩])

private theorem stored_lists (gone : Bool) :
    List.Forall₂ (fun commit (delivery : Delivery) => (storedStream gone).Lists commit delivery.subdag)
      (storedStream gone).iterCommits storedDeliveries := by
  refine .cons ⟨rfl, _, rfl, .cons ?_ .nil⟩ (.cons ⟨rfl, _, rfl, .cons ?_ .nil⟩ .nil)
  · intro found block
    exact (Option.some.inj block).symm
  · intro found block
    cases gone with
    | false => exact (Option.some.inj block).symm
    | true => cases block

theorem stored_replays : ∃ minted live,
    run Driver.deliver (.new plainConfig) storedDeliveries = .ok (minted, live) ∧
    (∃ driver, Validator.replay plainConfig (some (.ok (storedStream false))) = .ok driver ∧
      driver.untimed = live.untimed) ∧
    Validator.replay plainConfig (some (.ok (storedStream true))) =
      .error (.missing (plainReference 1 2)) := by
  obtain ⟨⟨minted, live⟩, ran⟩ : ∃ result, run Driver.deliver (.new plainConfig) storedDeliveries =
      .ok result := ⟨_, rfl⟩
  have whole := (Storage.replay_exact ran (stored_lists false)).1 rfl
  exact ⟨minted, live, ran, whole, (Storage.replay_exact ran (stored_lists true)).2 _ rfl⟩

end

end BlockchainValidator
