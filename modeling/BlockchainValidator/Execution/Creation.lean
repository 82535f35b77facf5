import BlockchainValidator.Execution.Versions

/-! # Creations and existing objects -/

namespace BlockchainValidator.Execution

open Run FakeExecutor

namespace SequentialScheduler

section

variable [Hasher] {scheduler : SequentialScheduler} {transaction : Transaction}

/-- When a transaction aborts, in terms of the transaction and the existing ids. -/
def Aborts (store : InMemoryStore) (transaction : Transaction) : Prop :=
  transaction.verify = false ∨
    FakeFunctionId.resolve transaction ≠ some .success ∨
    ∃ input ∈ transaction.inputs.val, input.2.reads = true ∧ store.latest input.1 = none

theorem executeOne_aborts_iff {store : InMemoryStore} (transaction : Transaction)
    (wellFormed : store.WellFormed) :
    (∃ status next, executeOne ⟨store, fakeExecutor⟩ transaction = .ok (status, next) ∧
      status ≠ .success) ↔ Aborts store transaction := by
  have missing : transaction.nextVersion store.view = .ok none ↔
      ∃ input ∈ transaction.inputs.val, input.2.reads = true ∧ store.latest input.1 = none := by
    simp only [Transaction.nextVersion_eq_none, wellFormed.latest_eq_none]
  rw [Aborts, ← missing, executeOne_fake]
  cases transaction.verify with
  | false => simp
  | true =>
      cases FakeFunctionId.resolve transaction with
      | none => simp
      | some function =>
          cases function with
          | abort => simp
          | success =>
              cases transaction.nextVersion store.view with
              | error panic => simp
              | ok version =>
                  cases version with
                  | none => simp
                  | some version =>
                      dsimp only
                      cases store.applyWrites _ <;> simp

/-- Whenever the transaction creates an id that exists, it fails and the object
stays as it is. -/
def CreationsRefused (scheduler : SequentialScheduler) (transaction : Transaction) : Prop :=
  ∀ id, (id, AccessMode.writeOnly) ∈ transaction.inputs.val → scheduler.store.latest id ≠ none →
    ∃ status next, scheduler.execute [transaction] = .ok ([status], next) ∧ status ≠ .success ∧
      next.store.latest id = scheduler.store.latest id ∧
      next.store.view.latest id = scheduler.store.view.latest id

/-- A creation of an existing id is refused only where the transaction aborts
for another reason. -/
theorem creationsRefused_iff (reachable : Reachable fakeExecutor scheduler) :
    CreationsRefused scheduler transaction ↔
      (∀ id, (id, AccessMode.writeOnly) ∈ transaction.inputs.val →
        scheduler.store.latest id = none) ∨
      Aborts scheduler.store transaction := by
  obtain ⟨store, engine⟩ := scheduler
  obtain rfl : engine = fakeExecutor := reachable.engine_eq
  have aborts := executeOne_aborts_iff transaction reachable.wellFormed
  constructor
  · intro refused
    by_contra collides
    push Not at collides
    obtain ⟨⟨id, declared, existing⟩, runs⟩ := collides
    obtain ⟨status, next, executed, failed, -⟩ := refused id declared existing
    rw [execute_singleton] at executed
    obtain ⟨⟨status, next⟩, one, same⟩ := map_eq_ok.mp executed
    cases same
    exact runs (aborts.mp ⟨status, next, one, failed⟩)
  · intro cause id declared existing
    rcases cause with fresh | stops
    · exact absurd (fresh id declared) existing
    · obtain ⟨status, next, one, failed⟩ := aborts.mpr stops
      rcases executeOne_fake_cases one with ⟨success, -⟩ | ⟨-, rfl, -⟩
      · exact absurd success failed
      · exact ⟨status, _, by rw [execute_singleton, one]; rfl, failed, rfl, rfl⟩

end

private def createBeside (id other : ObjectId) : Transaction :=
  ⟨FakeFunctionId.successId, .pair (id, .writeOnly) (other, .readOnly), .nil⟩

/-- Object 1 exists at version 1 and is created once more, at version 2. -/
theorem creation_replaces_existing :
    ∃ scheduler next, @Reachable blake2b fakeExecutor scheduler ∧
      scheduler.store.latest (.new 1) = some ⟨1⟩ ∧
      @execute blake2b scheduler [createBeside (.new 1) (.new 2)] = .ok ([.success], next) ∧
      next.store.latest (.new 1) = some ⟨2⟩ ∧
      ¬ @CreationsRefused blake2b scheduler (createBeside (.new 1) (.new 2)) := by
  refine ⟨_, _, ⟨[[FakeTransaction.creation (.new 1), FakeTransaction.creation (.new 2)]], _, rfl⟩, rfl, rfl, rfl, ?_⟩
  intro refused
  obtain ⟨status, next, executed, failed, -⟩ := refused (.new 1) (by decide) (by decide)
  cases executed
  exact failed rfl

theorem creation_refused_beside_missing :
    ∃ scheduler, @Reachable blake2b fakeExecutor scheduler ∧
      scheduler.store.latest (.new 1) = some ⟨1⟩ ∧
      @CreationsRefused blake2b scheduler (createBeside (.new 1) (.new 2)) := by
  refine ⟨_, ⟨[[FakeTransaction.creation (.new 1)]], _, rfl⟩, rfl, ?_⟩
  refine (@creationsRefused_iff blake2b _ _ ⟨[[FakeTransaction.creation (.new 1)]], _, rfl⟩).mpr ?_
  exact .inr (.inr (.inr ⟨(.new 2, .readOnly), by decide, rfl, rfl⟩))

/-! ## Creations of new objects -/

/-- The transaction creates `id` and has no other input. -/
structure Creates (transaction : Transaction) (id : ObjectId) : Prop where
  function : transaction.function = FakeFunctionId.successId
  inputs : transaction.inputs.val = [(id, .writeOnly)]

theorem Creates.reachesWrites {transaction : Transaction} {id : ObjectId}
    (creates : Creates transaction id) (store : InMemoryStore) :
    ReachesWrites store transaction ⟨1⟩ where
  verified := by
    rw [Transaction.verify_iff, creates.inputs]
    exact List.nodup_singleton id
  resolved := by rw [FakeFunctionId.resolve, if_pos creates.function]
  next := by
    rw [Transaction.nextVersion, creates.inputs]
    rfl

section

variable [Hasher] {store : InMemoryStore} {transaction : Transaction} {id : ObjectId}
  {transactions : List Transaction} {ids : List ObjectId}

theorem executeOne_creates (creates : Creates transaction id) (vacant : store.latest id = none) :
    ∃ next, executeOne ⟨store, fakeExecutor⟩ transaction = .ok (.success, ⟨next, fakeExecutor⟩) ∧
      next.latest = Function.update store.latest id (some ⟨1⟩) := by
  have written : writtenObjects store transaction ⟨1⟩ = [⟨id, ⟨1⟩, newObjectContent⟩] := by
    rw [writtenObjects, creates.inputs]
    rfl
  obtain ⟨next, applied⟩ : ∃ next, store.applyWrite ⟨id, ⟨1⟩, newObjectContent⟩ = .ok next := by
    refine ⟨_, InMemoryStore.applyWrite_eq_ok.mpr ⟨fun version existing => ?_, rfl⟩⟩
    rw [vacant] at existing
    cases existing
  refine ⟨next, ?_, by rw [(InMemoryStore.applyWrite_eq_ok.mp applied).2]⟩
  rw [executeOne_of_reachesWrites (creates.reachesWrites store), written,
    InMemoryStore.applyWrites, applied]
  rfl

/-- Creations of distinct new ids all succeed, each at version 1. -/
theorem execute_creations (creates : List.Forall₂ Creates transactions ids) (distinct : ids.Nodup)
    (vacant : ∀ id ∈ ids, store.latest id = none) :
    ∃ next, execute ⟨store, fakeExecutor⟩ transactions =
        .ok (transactions.map fun _ => .success, ⟨next, fakeExecutor⟩) ∧
      ∀ id, next.latest id = if id ∈ ids then some ⟨1⟩ else store.latest id := by
  induction creates generalizing store with
  | nil => exact ⟨store, rfl, fun id => by simp⟩
  | @cons transaction id transactions ids head tail ih =>
      obtain ⟨absent, distinct⟩ := List.nodup_cons.mp distinct
      obtain ⟨middle, executed, latest⟩ := executeOne_creates head (vacant id List.mem_cons_self)
      have remaining : ∀ other ∈ ids, middle.latest other = none := by
        intro other listed
        have apart : other ≠ id := fun same => absent (same ▸ listed)
        rw [latest, Function.update_of_ne apart]
        exact vacant other (List.mem_cons_of_mem _ listed)
      obtain ⟨next, rest, final⟩ := ih distinct remaining
      refine ⟨next, execute_cons_ok.mpr ⟨_, _, _, executed, rest, rfl⟩, fun other => ?_⟩
      rw [final, latest]
      by_cases same : other = id
      · subst same
        simp [absent]
      · simp [same]

end

end SequentialScheduler

end BlockchainValidator.Execution
