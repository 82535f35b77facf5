import BlockchainValidator.Execution.Versions

/-! # How far versions grow

An object's version can jump to one past the highest version read, but no
version outgrows the number of transactions that succeeded.
-/

namespace BlockchainValidator.Execution

open Run FakeExecutor

namespace InMemoryStore

/-- Every version in the store is at least one and at most `bound`. -/
structure Within (store : InMemoryStore) (bound : Nat) : Prop where
  objects : ∀ id version object, store.objects (id, version) = some object →
    object.version = version ∧ 1 ≤ version.toNat ∧ version.toNat ≤ bound
  latest : ∀ id version, store.latest id = some version →
    1 ≤ version.toNat ∧ version.toNat ≤ bound

theorem default_within : default.Within 0 where
  objects _ _ _ found := by cases found
  latest _ _ written := by cases written

variable {store next : InMemoryStore} {bound more : Nat} {object : Object} {objects : List Object}

theorem Within.mono (within : store.Within bound) (grown : bound ≤ more) : store.Within more where
  objects := by
    intro id version object found
    obtain ⟨same, positive, below⟩ := within.objects id version object found
    exact ⟨same, positive, below.trans grown⟩
  latest := by
    intro id version written
    obtain ⟨positive, below⟩ := within.latest id version written
    exact ⟨positive, below.trans grown⟩

theorem Within.versions (within : store.Within bound) : store.versions.Bounded bound := by
  intro id number existing
  obtain ⟨version, written, rfl⟩ := versions_eq_some.mp existing
  exact (within.latest id version written).2

theorem applyWrite_within [Hasher] (within : store.Within bound)
    (positive : 1 ≤ object.version.toNat) (below : object.version.toNat ≤ bound)
    (applied : store.applyWrite object = .ok next) : next.Within bound := by
  obtain ⟨-, rfl⟩ := applyWrite_eq_ok.mp applied
  constructor
  · intro id version found stored
    dsimp only at stored
    by_cases here : (id, version) = (object.id, object.version)
    · rw [here, Function.update_self] at stored
      cases stored
      cases here
      exact ⟨rfl, positive, below⟩
    · rw [Function.update_of_ne here] at stored
      exact within.objects id version found stored
  · intro id version written
    dsimp only at written
    by_cases here : id = object.id
    · rw [here, Function.update_self] at written
      cases written
      exact ⟨positive, below⟩
    · rw [Function.update_of_ne here] at written
      exact within.latest id version written

theorem applyWrites_within [Hasher] (within : store.Within bound)
    (bounds : ∀ object ∈ objects, 1 ≤ object.version.toNat ∧ object.version.toNat ≤ bound)
    (applied : store.applyWrites objects = .ok next) : next.Within bound := by
  induction objects generalizing store with
  | nil =>
      cases applied
      exact within
  | cons object objects ih =>
      obtain ⟨middle, head, tail⟩ := applyWrites_cons_ok.mp applied
      obtain ⟨positive, below⟩ := bounds object (List.mem_cons_self ..)
      have kept := applyWrite_within within positive below head
      exact ih kept (fun later listed => bounds later (List.mem_cons_of_mem _ listed)) tail

end InMemoryStore

namespace SequentialScheduler

section

variable [Hasher] {store : InMemoryStore} {next : SequentialScheduler} {bound : Nat}
  {transaction : Transaction} {transactions : List Transaction} {status : ExecutionStatus}
  {statuses : List ExecutionStatus}

/-- A success raises the bound by one, and an abort leaves it. -/
theorem executeOne_within (wellFormed : store.WellFormed) (within : store.Within bound)
    (executed : executeOne ⟨store, fakeExecutor⟩ transaction = .ok (status, next)) :
    ∃ after, next = ⟨after, fakeExecutor⟩ ∧ after.WellFormed ∧
      after.Within (bound + [status].count .success) := by
  rcases executeOne_fake_cases executed with
    ⟨rfl, version, after, reaches, applied, rfl⟩ | ⟨aborted, rfl, -⟩
  · have written := writesAt_of_reachesWrites wellFormed reaches
    have bounds := Versions.writesAt_bounds within.versions written
    refine ⟨after, rfl, InMemoryStore.applyWrites_wellFormed wellFormed applied, ?_⟩
    apply InMemoryStore.applyWrites_within (within.mono (Nat.le_succ bound)) _ applied
    intro object listed
    rw [(writtenObjects_mem listed).1]
    exact bounds
  · rw [List.count_singleton, if_neg (by simpa using aborted)]
    exact ⟨store, rfl, wellFormed, within⟩

theorem execute_within (wellFormed : store.WellFormed) (within : store.Within bound)
    (executed : execute ⟨store, fakeExecutor⟩ transactions = .ok (statuses, next)) :
    ∃ after, next = ⟨after, fakeExecutor⟩ ∧ after.WellFormed ∧
      after.Within (bound + statuses.count .success) := by
  induction transactions generalizing store bound statuses with
  | nil =>
      cases executed
      exact ⟨store, rfl, wellFormed, within⟩
  | cons transaction transactions ih =>
      obtain ⟨status, middle, rest, head, tail, rfl⟩ := execute_cons_ok.mp executed
      obtain ⟨after, rfl, wellFormed, within⟩ := executeOne_within wellFormed within head
      obtain ⟨last, same, wellFormed, within⟩ := ih wellFormed within tail
      refine ⟨last, same, wellFormed, ?_⟩
      rw [← List.singleton_append, List.count_append, ← Nat.add_assoc]
      exact within

theorem executeOne_in_range (wellFormed : store.WellFormed) (within : store.Within (2 ^ 64 - 2)) :
    executeOne ⟨store, fakeExecutor⟩ transaction ≠ .error .versionOverflow := by
  intro failed
  by_cases reaches : ∃ version, ReachesWrites store transaction version
  · obtain ⟨version, reaches⟩ := reaches
    rw [executeOne_of_reachesWrites reaches] at failed
    cases applied : store.applyWrites (writtenObjects store transaction version) with
    | error panic =>
        rw [InMemoryStore.applyWrites_error applied] at applied
        simp [applied] at failed
    | ok after => simp [applied] at failed
  · have stops := not_exists.mp reaches
    rcases executeOne_of_not_reachesWrites stops with ⟨reason, aborted⟩ | ⟨panic, overflow, -⟩
    · rw [aborted] at failed
      cases failed
    · exact nextVersion_of_room wellFormed within.versions panic overflow

/-- Versions lie between one and the number of successes, so a run that is
shorter than the range of versions never exhausts it. -/
theorem versions_within_successes (transactions : List Transaction) :
    (∀ statuses next, (new fakeExecutor).execute transactions = .ok (statuses, next) →
      next.store.Within (statuses.count .success)) ∧
    (transactions.length < 2 ^ 64 →
      (new fakeExecutor).execute transactions ≠ .error .versionOverflow) := by
  have empty := InMemoryStore.default_wellFormed
  apply And.intro
  · intro statuses next executed
    obtain ⟨after, rfl, -, within⟩ := execute_within empty InMemoryStore.default_within executed
    rw [Nat.zero_add] at within
    exact within
  · intro few failed
    rw [execute_eq_run] at failed
    obtain ⟨front, transaction, back, statuses, middle, rfl, ran, stops⟩ := run_error failed
    rw [← execute_eq_run] at ran
    obtain ⟨after, rfl, wellFormed, within⟩ := execute_within empty InMemoryStore.default_within ran
    have successes : statuses.count .success ≤ front.length := by
      rw [← execute_length ran]
      exact List.count_le_length
    rw [List.length_append, List.length_cons] at few
    exact executeOne_in_range wellFormed (within.mono (by omega)) stops

end

section

attribute [local instance] blake2b

/-- Each creation reads the one before it, and one read is missing. -/
private def chained : List Transaction :=
  [⟨FakeFunctionId.successId, .singleton (.new 1, .writeOnly), .nil⟩,
    ⟨FakeFunctionId.successId, .pair (.new 1, .readOnly) (.new 2, .writeOnly), .nil⟩,
    ⟨FakeFunctionId.successId, .pair (.new 9, .readOnly) (.new 4, .writeOnly), .nil⟩,
    ⟨FakeFunctionId.successId, .pair (.new 2, .readOnly) (.new 3, .writeOnly), .nil⟩]

theorem chained_within :
    ∃ next, (new fakeExecutor).execute chained =
        .ok ([.success, .success, .aborted .missingRead, .success], next) ∧
      next.store.Within 3 := by
  obtain ⟨next, executed⟩ : ∃ next, (new fakeExecutor).execute chained =
    .ok ([.success, .success, .aborted .missingRead, .success], next) := ⟨_, rfl⟩
  exact ⟨next, executed, (versions_within_successes chained).1 _ next executed⟩

end

end SequentialScheduler

end BlockchainValidator.Execution
