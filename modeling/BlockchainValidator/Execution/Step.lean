import BlockchainValidator.Execution.Commitment
import BlockchainValidator.Execution.Versions
import Mathlib.Order.Bounds.Basic

/-! # One transaction, exactly -/

namespace BlockchainValidator.Execution

open Run FakeExecutor HashChain

namespace InMemoryStore

/-! ## The representation invariant with both maps -/

/-- Both maps agree: every latest version has its object, and every object is
under its own key, at or below the latest version of its id. -/
structure Indexed (store : InMemoryStore) : Prop where
  stored : store.WellFormed
  entries : ∀ id version object, store.objects (id, version) = some object →
    object.id = id ∧ object.version = version ∧
      ∃ latest, store.latest id = some latest ∧ ¬ latest < version

variable {store next : InMemoryStore} {id : ObjectId} {version : Version} {object : Object}

/-- No object lies above the latest version of its id. -/
theorem Indexed.vacant (indexed : store.Indexed)
    (above : ∀ latest, store.latest id = some latest → latest < version) :
    store.objects (id, version) = none := by
  cases found : store.objects (id, version) with
  | none => rfl
  | some object =>
      obtain ⟨-, -, latest, written, reached⟩ := indexed.entries id version object found
      exact absurd (above latest written) reached

variable [Hasher] {objects : List Object}

theorem applyWrite_indexed (indexed : store.Indexed) (applied : store.applyWrite object = .ok next) :
    next.Indexed where
  stored := applyWrite_wellFormed indexed.stored applied
  entries := by
    obtain ⟨forward, rfl⟩ := applyWrite_eq_ok.mp applied
    intro id version found stored
    dsimp only at stored ⊢
    by_cases here : (id, version) = (object.id, object.version)
    · rw [here, Function.update_self] at stored
      cases stored
      cases here
      exact ⟨rfl, rfl, object.version, Function.update_self .., fun above =>
        absurd (Version.lt_iff.mp above) (Nat.lt_irrefl _)⟩
    · rw [Function.update_of_ne here] at stored
      obtain ⟨same, version_eq, latest, written, reached⟩ := indexed.entries id version found stored
      refine ⟨same, version_eq, ?_⟩
      by_cases moved : id = object.id
      · subst moved
        refine ⟨object.version, Function.update_self .., fun below => reached ?_⟩
        have raised := Version.lt_iff.mp (forward latest written)
        exact Version.lt_iff.mpr (raised.trans (Version.lt_iff.mp below))
      · exact ⟨latest, (Function.update_of_ne moved ..).trans written, reached⟩

theorem applyWrites_indexed (indexed : store.Indexed)
    (applied : store.applyWrites objects = .ok next) : next.Indexed := by
  induction objects generalizing store with
  | nil => cases applied; exact indexed
  | cons object objects ih =>
      obtain ⟨middle, head, tail⟩ := applyWrites_cons_ok.mp applied
      exact ih (applyWrite_indexed indexed head) tail

/-! ## Entries of a batch of writes -/

theorem applyWrites_other {key : ObjectId × Version} (applied : store.applyWrites objects = .ok next)
    (other : ∀ object ∈ objects, (object.id, object.version) ≠ key) :
    next.objects key = store.objects key := by
  induction objects generalizing store with
  | nil => cases applied; rfl
  | cons object objects ih =>
      obtain ⟨middle, head, tail⟩ := applyWrites_cons_ok.mp applied
      obtain ⟨-, rfl⟩ := applyWrite_eq_ok.mp head
      rw [ih tail (fun later listed => other later (by simp [listed]))]
      exact Function.update_of_ne (other object (by simp)).symm ..

theorem applyWrites_entry (distinct : (objects.map Object.id).Nodup)
    (applied : store.applyWrites objects = .ok next) (listed : object ∈ objects) :
    next.objects (object.id, object.version) = some object := by
  induction objects generalizing store with
  | nil => cases listed
  | cons first objects ih =>
      obtain ⟨middle, head, tail⟩ := applyWrites_cons_ok.mp applied
      obtain ⟨fresh, distinct⟩ := List.nodup_cons.mp distinct
      rcases List.mem_cons.mp listed with rfl | later
      · obtain ⟨-, rfl⟩ := applyWrite_eq_ok.mp head
        rw [applyWrites_other tail]
        · exact Function.update_self ..
        · intro other listed same
          exact fresh (List.mem_map.mpr ⟨other, listed, congrArg Prod.fst same⟩)
      · exact ih distinct tail later

end InMemoryStore

/-! ## What a transaction should do -/

namespace SequentialScheduler

/-- The status of a transaction, by its reasons to abort in their order. -/
def outcome (store : InMemoryStore) (transaction : Transaction) : ExecutionStatus :=
  if ¬ (transaction.inputs.val.map Prod.fst).Nodup then .aborted .invalidTransaction
  else if transaction.function ≠ FakeFunctionId.successId ∧
      transaction.function ≠ FakeFunctionId.abortId then .aborted .unknownFunction
  else if transaction.function = FakeFunctionId.abortId then .aborted .explicitAbort
  else if ∃ input ∈ transaction.inputs.val, input.2.reads = true ∧ store.view.latest input.1 = none then
    .aborted .missingRead
  else .success

def readVersions (store : InMemoryStore) (transaction : Transaction) : Set Nat :=
  {number | ∃ input ∈ transaction.inputs.val, input.2.reads = true ∧
    store.versions input.1 = some number}

/-- The store after a success: the written ids have one new object each. -/
structure Succeeded [Hasher] (store next : InMemoryStore) (transaction : Transaction)
    (version : Version) : Prop where
  next_version : ∃ highest, IsLUB (readVersions store transaction) highest ∧
    version.toNat = highest + 1
  created : ∀ id, (id, AccessMode.writeOnly) ∈ transaction.inputs.val →
    next.view.latest id = some ⟨id, version, newObjectContent⟩
  modified : ∀ id, (id, AccessMode.readWrite) ∈ transaction.inputs.val →
    ∃ previous, store.view.latest id = some previous ∧
      next.view.latest id = some ⟨id, version, previous.contents⟩
  untouched : ∀ id, (∀ mode, (id, mode) ∈ transaction.inputs.val → mode.writes = false) →
    next.view.latest id = store.view.latest id ∧ next.latest id = store.latest id ∧
      ∀ number, next.objects (id, number) = store.objects (id, number)
  /-- The new entries take no one's place. -/
  kept : ∀ key object, store.objects key = some object → next.objects key = some object
  added : ∀ id number, next.objects (id, number) ≠ store.objects (id, number) →
    number = version ∧ store.objects (id, number) = none ∧
      ∃ mode, (id, mode) ∈ transaction.inputs.val ∧ mode.writes = true
  commitment : next.commitment = rolling Hasher.finalize InMemoryStore.preimage store.commitment
    (writtenObjects store transaction version)
  indexed : next.Indexed

section

variable {store : InMemoryStore} {transaction : Transaction} {version : Version}

theorem resolve_eq_none :
    FakeFunctionId.resolve transaction = none ↔
      transaction.function ≠ FakeFunctionId.successId ∧
        transaction.function ≠ FakeFunctionId.abortId := by
  unfold FakeFunctionId.resolve
  split
  · rename_i success
    simp [success]
  · rename_i other
    split
    · rename_i abort
      simp [abort]
    · rename_i neither
      simp [other, neither]

theorem resolve_eq_abort :
    FakeFunctionId.resolve transaction = some .abort ↔
      transaction.function = FakeFunctionId.abortId := by
  unfold FakeFunctionId.resolve
  split
  · rename_i success
    rw [success]
    decide
  · split
    · rename_i abort
      simp [abort]
    · rename_i other
      simp [other]

theorem readVersions_lub {highest : Version} (wellFormed : store.WellFormed)
    (found : Transaction.highestInput store.view .zero transaction.inputs.val = some highest) :
    IsLUB (readVersions store transaction) highest.toNat := by
  obtain ⟨-, bounded, attained⟩ := Transaction.highestInput_bounds found
  apply And.intro
  · intro number read
    obtain ⟨input, listed, reads, existing⟩ := read
    obtain ⟨object, present, below⟩ := bounded input listed reads
    rw [InMemoryStore.versions, wellFormed.latest_of_view present] at existing
    cases existing
    exact below
  · intro bound above
    rcases attained with rfl | ⟨input, listed, reads, object, present, rfl⟩
    · exact Nat.zero_le bound
    · apply above
      refine ⟨input, listed, reads, ?_⟩
      rw [InMemoryStore.versions, wellFormed.latest_of_view present]
      rfl

theorem creationsAdvance_of_fresh
    (fresh : ∀ id, (id, AccessMode.writeOnly) ∈ transaction.inputs.val → store.latest id = none) :
    store.versions.CreationsAdvance transaction := by
  intro _ _ input listed created previous existing
  obtain ⟨id, mode⟩ := input
  cases created
  rw [InMemoryStore.versions, fresh id listed] at existing
  cases existing

variable [Hasher]

theorem executeOne_outcome (wellFormed : store.WellFormed)
    (room : store.versions.Bounded (2 ^ 64 - 2)) :
    (∃ reason, outcome store transaction = .aborted reason ∧
      executeOne ⟨store, fakeExecutor⟩ transaction = .ok (.aborted reason, ⟨store, fakeExecutor⟩)) ∨
    outcome store transaction = .success ∧ ∃ version, ReachesWrites store transaction version := by
  rw [executeOne_fake]
  simp only [outcome, ← Transaction.verify_iff, ← resolve_eq_none, ← resolve_eq_abort,
    ← Transaction.nextVersion_eq_none]
  cases checked : transaction.verify with
  | false => exact .inl ⟨.invalidTransaction, by simp, by simp⟩
  | true =>
      cases resolved : FakeFunctionId.resolve transaction with
      | none => exact .inl ⟨.unknownFunction, by simp, by simp⟩
      | some function =>
          cases function with
          | abort => exact .inl ⟨.explicitAbort, by simp, by simp⟩
          | success =>
              cases next : transaction.nextVersion store.view with
              | error panic => exact absurd next (nextVersion_of_room wellFormed room panic)
              | ok found =>
                  cases found with
                  | none => exact .inl ⟨.missingRead, by simp, by simp⟩
                  | some version => exact .inr ⟨by simp, version, checked, resolved, next⟩

section

variable {next : InMemoryStore} {object : Object}

/-- Each written object is its id's latest one. -/
theorem latest_written (reaches : ReachesWrites store transaction version)
    (applied : store.applyWrites (writtenObjects store transaction version) = .ok next)
    (listed : object ∈ writtenObjects store transaction version) :
    next.view.latest object.id = some object := by
  have level : ∀ object ∈ writtenObjects store transaction version, object.version = version :=
    fun _ listed => (writtenObjects_mem listed).1
  have moved := InMemoryStore.applyWrites_latest object.id level applied
  rw [if_pos (List.mem_map_of_mem listed)] at moved
  simp only [InMemoryStore.view, moved]
  rw [← level object listed]
  exact InMemoryStore.applyWrites_entry (writtenObjects_nodup reaches.verified) applied listed

theorem vacant_written (indexed : store.Indexed) (reaches : ReachesWrites store transaction version)
    (applied : store.applyWrites (writtenObjects store transaction version) = .ok next)
    (listed : object ∈ writtenObjects store transaction version) :
    store.objects (object.id, object.version) = none :=
  indexed.vacant fun latest existing =>
    (InMemoryStore.applyWrites_exists_iff (writtenObjects_nodup reaches.verified)).mp ⟨next, applied⟩
      object listed latest existing

theorem Succeeded.of_applied (indexed : store.Indexed)
    (reaches : ReachesWrites store transaction version)
    (applied : store.applyWrites (writtenObjects store transaction version) = .ok next) :
    Succeeded store next transaction version := by
  obtain ⟨highest, found, successor⟩ := Transaction.nextVersion_eq_some.mp reaches.next
  exact {
    next_version := ⟨highest.toNat, readVersions_lub indexed.stored found, successor⟩
    created := by
      intro id declared
      have listed : ⟨id, version, newObjectContent⟩ ∈ writtenObjects store transaction version :=
        List.mem_filterMap.mpr ⟨_, declared, rfl⟩
      exact latest_written reaches applied listed
    modified := by
      intro id declared
      obtain ⟨previous, present, -⟩ := (Transaction.highestInput_bounds found).2.1 _ declared rfl
      have listed : ⟨id, version, previous.contents⟩ ∈ writtenObjects store transaction version := by
        refine List.mem_filterMap.mpr ⟨_, declared, ?_⟩
        simp only [FakeExecutor.written, present, Option.map_some]
      exact ⟨previous, present, latest_written reaches applied listed⟩
    untouched := by
      intro id readOnly
      have other : ∀ object ∈ writtenObjects store transaction version, object.id ≠ id := by
        intro object listed same
        obtain ⟨-, ⟨_, mode⟩, declared, rfl, writes⟩ := writtenObjects_mem listed
        rw [same] at declared
        rw [readOnly mode declared] at writes
        cases writes
      obtain ⟨latest, entries⟩ := InMemoryStore.applyWrites_frame applied other
      exact ⟨InMemoryStore.view_latest_of_frame latest entries, latest, entries⟩
    kept := by
      intro key object stored
      rw [InMemoryStore.applyWrites_other applied]
      · exact stored
      · intro other listed same
        rw [← same, vacant_written indexed reaches applied listed] at stored
        cases stored
    added := by
      intro id number changed
      have new : ∃ object ∈ writtenObjects store transaction version,
          (object.id, object.version) = (id, number) := by
        by_contra none
        push Not at none
        exact changed (InMemoryStore.applyWrites_other applied none)
      obtain ⟨object, listed, same⟩ := new
      have empty := vacant_written indexed reaches applied listed
      obtain ⟨version_eq, ⟨_, mode⟩, declared, rfl, writes⟩ := writtenObjects_mem listed
      cases same
      exact ⟨version_eq, empty, mode, declared, writes⟩
    commitment := InMemoryStore.applyWrites_commitment applied
    indexed := InMemoryStore.applyWrites_indexed indexed applied }

end

section

variable {next : SequentialScheduler}

/-- Whatever a transaction that reaches its writes returns is a success with them. -/
theorem executeOne_succeeded (indexed : store.Indexed) (reaches : ReachesWrites store transaction version)
    {status : ExecutionStatus}
    (executed : executeOne ⟨store, fakeExecutor⟩ transaction = .ok (status, next)) :
    status = .success ∧ next.engine = fakeExecutor ∧ Succeeded store next.store transaction version := by
  rw [executeOne_of_reachesWrites reaches] at executed
  cases applied : store.applyWrites (writtenObjects store transaction version) with
  | error panic => simp [applied] at executed
  | ok after =>
      simp only [applied, Except.ok.injEq, Prod.mk.injEq] at executed
      obtain ⟨rfl, rfl⟩ := executed
      exact ⟨rfl, rfl, .of_applied indexed reaches applied⟩

/-- A transaction that reaches its writes and creates fresh ids only returns. -/
theorem executeOne_returns (indexed : store.Indexed) (reaches : ReachesWrites store transaction version)
    (fresh : ∀ id, (id, AccessMode.writeOnly) ∈ transaction.inputs.val → store.latest id = none) :
    ∃ next, executeOne ⟨store, fakeExecutor⟩ transaction = .ok (.success, next) := by
  obtain ⟨next, applied⟩ :=
    (writtenObjects_accepted_iff indexed.stored reaches).mpr (creationsAdvance_of_fresh fresh)
  exact ⟨⟨next, fakeExecutor⟩, by rw [executeOne_of_reachesWrites reaches, applied]⟩

end

/-- One transaction against any consistent store with room for one more version.
A success is exact also where it replaces an object that exists. -/
theorem execute_exact (indexed : store.Indexed) (room : store.versions.Bounded (2 ^ 64 - 2)) :
    (∀ reason, (∃ next, execute ⟨store, fakeExecutor⟩ [transaction] =
        .ok ([.aborted reason], next)) ↔ outcome store transaction = .aborted reason) ∧
    (∀ reason next, execute ⟨store, fakeExecutor⟩ [transaction] = .ok ([.aborted reason], next) →
      next = ⟨store, fakeExecutor⟩) ∧
    (outcome store transaction = .success →
      (∀ id, (id, AccessMode.writeOnly) ∈ transaction.inputs.val → store.latest id = none) →
      ∃ next, execute ⟨store, fakeExecutor⟩ [transaction] = .ok ([.success], next)) ∧
    ∀ next, execute ⟨store, fakeExecutor⟩ [transaction] = .ok ([.success], next) →
      outcome store transaction = .success ∧ next.engine = fakeExecutor ∧
        ∃ version, Succeeded store next.store transaction version := by
  have one {status : ExecutionStatus} {next : SequentialScheduler} :
      execute ⟨store, fakeExecutor⟩ [transaction] = .ok ([status], next) ↔
        executeOne ⟨store, fakeExecutor⟩ transaction = .ok (status, next) := by
    rw [execute_singleton]
    cases executeOne ⟨store, fakeExecutor⟩ transaction with
    | error panic => simp
    | ok result => simp [Prod.ext_iff]
  simp only [one]
  rcases executeOne_outcome indexed.stored room with
    ⟨reason, expected, aborts⟩ | ⟨expected, version, reaches⟩
  · rw [aborts, expected]
    refine ⟨fun other => ?_, fun other next finished => ?_, fun impossible => ?_, fun next finished => ?_⟩
    · simp
    · cases finished
      rfl
    · cases impossible
    · cases finished
  · rw [expected]
    have never (reason : AbortReason) (next : SequentialScheduler) :
        executeOne ⟨store, fakeExecutor⟩ transaction ≠ .ok (.aborted reason, next) := by
      intro finished
      cases (executeOne_succeeded indexed reaches finished).1
    refine ⟨fun reason => ?_, fun reason next finished => absurd finished (never reason next),
      fun _ fresh => executeOne_returns indexed reaches fresh, fun next finished => ?_⟩
    · simp [never]
    · obtain ⟨-, engine, succeeded⟩ := executeOne_succeeded indexed reaches finished
      exact ⟨rfl, engine, version, succeeded⟩

end

private def modifyBeside : Transaction :=
  ⟨FakeFunctionId.successId, .pair (.new 1, .readWrite) (.new 3, .writeOnly), .nil⟩

/-- Creates an object that exists, at a version above it. -/
private def replaceBeside : Transaction :=
  ⟨FakeFunctionId.successId, .pair (.new 1, .writeOnly) (.new 2, .readOnly), .nil⟩

/-- A store that holds object 1 at version 3 and object 2 at version 5. -/
private def holding : InMemoryStore where
  objects key :=
    if key = (.new 1, ⟨3⟩) then some ⟨.new 1, ⟨3⟩, [7]⟩
    else if key = (.new 2, ⟨5⟩) then some ⟨.new 2, ⟨5⟩, [8]⟩ else none
  latest id := if id = .new 1 then some ⟨3⟩ else if id = .new 2 then some ⟨5⟩ else none
  commitment := .default

private theorem holding_indexed : holding.Indexed where
  stored := by
    intro id version written
    simp only [holding] at written
    split at written
    · rename_i first
      cases first
      cases written
      exact ⟨⟨.new 1, ⟨3⟩, [7]⟩, rfl, rfl, rfl⟩
    · obtain ⟨rfl, same⟩ := Option.ite_none_right_eq_some.mp written
      cases same
      exact ⟨⟨.new 2, ⟨5⟩, [8]⟩, rfl, rfl, rfl⟩
  entries := by
    intro id version object found
    simp only [holding] at found
    split at found
    · rename_i first
      cases first
      cases found
      exact ⟨rfl, rfl, ⟨3⟩, rfl, by decide⟩
    · obtain ⟨second, same⟩ := Option.ite_none_right_eq_some.mp found
      cases second
      cases same
      exact ⟨rfl, rfl, ⟨5⟩, rfl, by decide⟩

private theorem holding_room : holding.versions.Bounded (2 ^ 64 - 2) := by
  intro id number existing
  obtain ⟨version, written, rfl⟩ := InMemoryStore.versions_eq_some.mp existing
  simp only [holding] at written
  split at written
  · cases written
    decide
  · obtain ⟨-, same⟩ := Option.ite_none_right_eq_some.mp written
    cases same
    decide

/-- Object 1 is modified beside a new object, and replaced by a creation. -/
theorem modification_exact :
    (∃ next version previous, @execute blake2b ⟨holding, fakeExecutor⟩ [modifyBeside] =
        .ok ([.success], next) ∧
      holding.view.latest (.new 1) = some previous ∧
      next.store.view.latest (.new 1) = some ⟨.new 1, version, previous.contents⟩ ∧
      next.store.view.latest (.new 3) = some ⟨.new 3, version, newObjectContent⟩) ∧
    ∃ next version, @execute blake2b ⟨holding, fakeExecutor⟩ [replaceBeside] =
        .ok ([.success], next) ∧ next.store.latest (.new 1) = some ⟨6⟩ ∧
      next.store.view.latest (.new 1) = some ⟨.new 1, version, newObjectContent⟩ ∧
      next.store.view.latest (.new 2) = holding.view.latest (.new 2) := by
  let _ := blake2b
  apply And.intro
  · have fresh : ∀ id, (id, AccessMode.writeOnly) ∈ modifyBeside.inputs.val →
        holding.latest id = none := by
      intro id created
      obtain rfl : id = .new 3 := by simpa [modifyBeside] using created
      rfl
    obtain ⟨-, -, returns, exactly⟩ := @execute_exact holding modifyBeside blake2b holding_indexed holding_room
    obtain ⟨next, finished⟩ := returns (by decide) fresh
    obtain ⟨-, -, version, succeeded⟩ := exactly next finished
    obtain ⟨previous, found, modified⟩ := succeeded.modified (.new 1) (by decide)
    exact ⟨next, version, previous, finished, found, modified, succeeded.created (.new 3) (by decide)⟩
  · obtain ⟨next, finished, raised⟩ : ∃ next,
        @execute blake2b ⟨holding, fakeExecutor⟩ [replaceBeside] = .ok ([.success], next) ∧
          next.store.latest (.new 1) = some ⟨6⟩ := ⟨_, rfl, rfl⟩
    obtain ⟨-, -, version, succeeded⟩ :=
      (@execute_exact holding replaceBeside blake2b holding_indexed holding_room).2.2.2 next finished
    have readOnly : ∀ mode, (.new 2, mode) ∈ replaceBeside.inputs.val → mode.writes = false := by
      intro mode declared
      rcases List.mem_pair.mp declared with other | same
      · exact absurd (Prod.mk.inj other).1 (by decide)
      · cases same
        rfl
    exact ⟨next, version, finished, raised, succeeded.created (.new 1) (by decide),
      (succeeded.untouched (.new 2) readOnly).1⟩

end SequentialScheduler

end BlockchainValidator.Execution
