import BlockchainValidator.Execution.Fake

/-! # The sequential scheduler -/

namespace BlockchainValidator.Execution

open Run

structure SequentialScheduler where
  store : InMemoryStore
  engine : ExecutionEngine

open FakeExecutor

namespace SequentialScheduler

def new (engine : ExecutionEngine) : SequentialScheduler := ⟨.default, engine⟩

section

variable [Hasher]

/-- The closure of the `map` in `execute`. -/
def executeOne (scheduler : SequentialScheduler) (transaction : Transaction) :
    Except Panic (ExecutionStatus × SequentialScheduler) :=
  if transaction.verify = false then .ok (.aborted .invalidTransaction, scheduler)
  else do
    let output ← scheduler.engine.execute scheduler.store.view transaction
    let store ← scheduler.store.apply output
    .ok (output.status, { scheduler with store })

/-- `execute` over a lazy `filter_map`: each item is pulled through a closure
that updates its captured variables, and a pulled transaction is executed
before the next item is pulled. -/
def executeLazy {κ ι : Type} (pull : κ → ι → Except Panic (Option Transaction × κ)) :
    κ → SequentialScheduler → List ι → Except Panic (List ExecutionStatus × κ × SequentialScheduler)
  | captured, scheduler, [] => .ok ([], captured, scheduler)
  | captured, scheduler, item :: items => do
      let (pulled, captured) ← pull captured item
      match pulled with
      | none => executeLazy pull captured scheduler items
      | some transaction => do
          let (status, scheduler) ← scheduler.executeOne transaction
          let (statuses, captured, scheduler) ← executeLazy pull captured scheduler items
          .ok (status :: statuses, captured, scheduler)

def execute (scheduler : SequentialScheduler) (transactions : List Transaction) :
    Except Panic (List ExecutionStatus × SequentialScheduler) :=
  (fun result => (result.1, result.2.2)) <$>
    executeLazy (fun _ transaction => .ok (some transaction, ())) () scheduler transactions

end

/-- The objects that one transaction writes. -/
def writesOne (scheduler : SequentialScheduler) (transaction : Transaction) : List Object :=
  if transaction.verify = false then []
  else match scheduler.engine.execute scheduler.store.view transaction with
    | .error _ => []
    | .ok output => output.writes

/-- The objects that a batch writes, in order. -/
def writes [Hasher] : SequentialScheduler → List Transaction → List Object
  | _, [] => []
  | scheduler, transaction :: transactions =>
      scheduler.writesOne transaction ++
        match scheduler.executeOne transaction with
        | .error _ => []
        | .ok (_, next) => next.writes transactions

variable [Hasher] {scheduler next : SequentialScheduler} {transaction : Transaction}
  {transactions : List Transaction} {status : ExecutionStatus} {statuses : List ExecutionStatus}

theorem execute_eq_run : scheduler.execute transactions = run executeOne scheduler transactions := by
  unfold execute
  induction transactions generalizing scheduler with
  | nil => rfl
  | cons transaction transactions ih =>
      simp only [executeLazy, run, bind_ok]
      cases scheduler.executeOne transaction with
      | error panic => rfl
      | ok result =>
          simp only [bind_ok, ← ih]
          cases executeLazy _ () result.2 transactions <;> rfl

section

variable {κ ι : Type} {pull : κ → ι → Except Panic (Option Transaction × κ)}
  {captured pulled last : κ} {item : ι} {items : List ι}

theorem executeLazy_skip (skips : pull captured item = .ok (none, pulled)) :
    executeLazy pull captured scheduler (item :: items) =
      executeLazy pull pulled scheduler items := by
  rw [executeLazy, skips]
  rfl

theorem executeLazy_cons_ok :
    executeLazy pull captured scheduler (item :: items) = .ok (statuses, last, next) ↔
      (∃ pulled, pull captured item = .ok (none, pulled) ∧
        executeLazy pull pulled scheduler items = .ok (statuses, last, next)) ∨
      ∃ transaction pulled status middle rest, pull captured item = .ok (some transaction, pulled) ∧
        scheduler.executeOne transaction = .ok (status, middle) ∧
        executeLazy pull pulled middle items = .ok (rest, last, next) ∧ statuses = status :: rest := by
  cases pulls : pull captured item with
  | error panic => simp [executeLazy, pulls]
  | ok result =>
      obtain ⟨_ | transaction, pulled⟩ := result
      · simp [executeLazy_skip pulls]
      · rw [executeLazy, pulls, bind_ok]
        simp only [bind_eq_ok, Prod.exists, Except.ok.injEq, Prod.mk.injEq, reduceCtorEq, false_and,
          exists_false, false_or]
        apply Iff.intro
        · intro ran
          obtain ⟨status, middle, executed, rest, _, _, tail, same, rfl, rfl⟩ := ran
          exact ⟨transaction, pulled, status, middle, rest, ⟨rfl, rfl⟩, executed, tail, same.symm⟩
        · intro ran
          obtain ⟨_, _, status, middle, rest, ⟨found, rfl⟩, executed, tail, same⟩ := ran
          cases found
          exact ⟨status, middle, executed, rest, _, _, tail, same.symm, rfl, rfl⟩

end

theorem execute_cons_ok :
    scheduler.execute (transaction :: transactions) = .ok (statuses, next) ↔
      ∃ status middle rest, scheduler.executeOne transaction = .ok (status, middle) ∧
        middle.execute transactions = .ok (rest, next) ∧ statuses = status :: rest := by
  simp only [execute_eq_run, run_cons_ok, Prod.mk.injEq]
  apply Iff.intro
  · intro ran
    obtain ⟨status, middle, rest, last, head, tail, same, rfl⟩ := ran
    exact ⟨status, middle, rest, head, tail, same⟩
  · intro ran
    obtain ⟨status, middle, rest, head, tail, same⟩ := ran
    exact ⟨status, middle, rest, next, head, tail, same, rfl⟩

theorem execute_singleton :
    scheduler.execute [transaction] =
      (fun result => ([result.1], result.2)) <$> scheduler.executeOne transaction := by
  rw [execute_eq_run, run]
  cases scheduler.executeOne transaction <;> rfl

theorem execute_append_ok {more : List Transaction} :
    scheduler.execute (transactions ++ more) = .ok (statuses, next) ↔
      ∃ first middle second, scheduler.execute transactions = .ok (first, middle) ∧
        middle.execute more = .ok (second, next) ∧ statuses = first ++ second := by
  simp only [execute_eq_run, run_append_ok, Prod.mk.injEq]
  apply Iff.intro
  · intro ran
    obtain ⟨first, middle, second, last, front, back, same, rfl⟩ := ran
    exact ⟨first, middle, second, front, back, same⟩
  · intro ran
    obtain ⟨first, middle, second, front, back, same⟩ := ran
    exact ⟨first, middle, second, next, front, back, same, rfl⟩

theorem execute_length (executed : scheduler.execute transactions = .ok (statuses, next)) :
    statuses.length = transactions.length := by
  rw [execute_eq_run] at executed
  exact run_length executed

/-- No transaction panics under an engine that aborts each. -/
theorem aborting_executes (store : InMemoryStore) (transactions : List Transaction) :
    ∃ statuses, execute ⟨store, abortingEngine⟩ transactions =
      .ok (statuses, ⟨store, abortingEngine⟩) := by
  induction transactions with
  | nil => exact ⟨_, rfl⟩
  | cons transaction transactions ih =>
      obtain ⟨statuses, executed⟩ := ih
      have one : ∃ status, executeOne ⟨store, abortingEngine⟩ transaction =
          .ok (status, ⟨store, abortingEngine⟩) := by
        unfold executeOne
        split
        · exact ⟨_, rfl⟩
        · exact ⟨_, rfl⟩
      obtain ⟨status, first⟩ := one
      exact ⟨_, execute_cons_ok.mpr ⟨status, _, _, first, executed, rfl⟩⟩

theorem executeOne_engine (executed : scheduler.executeOne transaction = .ok (status, next)) :
    next.engine = scheduler.engine := by
  unfold executeOne at executed
  split at executed
  · cases executed; rfl
  · obtain ⟨output, -, applied⟩ := bind_eq_ok.mp executed
    obtain ⟨store, -, done⟩ := bind_eq_ok.mp applied
    cases done
    rfl

theorem executeOne_wellFormed (wellFormed : scheduler.store.WellFormed)
    (executed : scheduler.executeOne transaction = .ok (status, next)) : next.store.WellFormed := by
  unfold executeOne at executed
  split at executed
  · cases executed; exact wellFormed
  · obtain ⟨output, -, rest⟩ := bind_eq_ok.mp executed
    obtain ⟨store, applied, done⟩ := bind_eq_ok.mp rest
    cases done
    exact InMemoryStore.applyWrites_wellFormed wellFormed applied

theorem execute_engine (finished : scheduler.execute transactions = .ok (statuses, next)) :
    next.engine = scheduler.engine := by
  rw [execute_eq_run] at finished
  exact run_invariant (fun state => state.engine = scheduler.engine)
    (fun state _ _ _ same stepped => (executeOne_engine stepped).trans same) rfl finished

theorem execute_wellFormed (wellFormed : scheduler.store.WellFormed)
    (finished : scheduler.execute transactions = .ok (statuses, next)) : next.store.WellFormed := by
  rw [execute_eq_run] at finished
  exact run_invariant (fun state => state.store.WellFormed)
    (fun _ _ _ _ held stepped => executeOne_wellFormed held stepped) wellFormed finished

theorem executeOne_writes (executed : scheduler.executeOne transaction = .ok (status, next)) :
    scheduler.store.applyWrites (scheduler.writesOne transaction) = .ok next.store := by
  unfold executeOne at executed
  unfold writesOne
  split at executed
  · rename_i refused
    cases executed
    rw [if_pos refused]
    rfl
  · rename_i verified
    obtain ⟨output, ran, rest⟩ := bind_eq_ok.mp executed
    obtain ⟨store, applied, done⟩ := bind_eq_ok.mp rest
    cases done
    rw [if_neg verified, ran]
    exact applied

theorem execute_writes (finished : scheduler.execute transactions = .ok (statuses, next)) :
    scheduler.store.applyWrites (scheduler.writes transactions) = .ok next.store := by
  induction transactions generalizing scheduler statuses with
  | nil =>
      cases finished
      rfl
  | cons transaction transactions ih =>
      obtain ⟨status, middle, rest, head, tail, -⟩ := execute_cons_ok.mp finished
      rw [writes, head, InMemoryStore.applyWrites_append, executeOne_writes head]
      exact ih tail

/-- The schedulers that batches executed from the empty store lead to. -/
def Reachable (engine : ExecutionEngine) (scheduler : SequentialScheduler) : Prop :=
  ∃ batches statuses, run execute (new engine) batches = .ok (statuses, scheduler)

theorem Reachable.engine_eq {engine : ExecutionEngine} (reachable : Reachable engine scheduler) :
    scheduler.engine = engine := by
  obtain ⟨batches, statuses, finished⟩ := reachable
  exact run_invariant (fun state => state.engine = engine)
    (fun _ _ _ _ same stepped => (execute_engine stepped).trans same) rfl finished

theorem Reachable.wellFormed {engine : ExecutionEngine} (reachable : Reachable engine scheduler) :
    scheduler.store.WellFormed := by
  obtain ⟨batches, statuses, finished⟩ := reachable
  exact run_invariant (fun state => state.store.WellFormed)
    (fun _ _ _ _ held stepped => execute_wellFormed held stepped)
    InMemoryStore.default_wellFormed finished

/-! ## One transaction under the fake engine -/

/-- What one transaction does under the fake engine, by its reasons to abort in
their order. -/
theorem executeOne_fake {store : InMemoryStore} :
    executeOne ⟨store, fakeExecutor⟩ transaction =
      if transaction.verify = false then .ok (.aborted .invalidTransaction, ⟨store, fakeExecutor⟩)
      else match FakeFunctionId.resolve transaction with
        | none => .ok (.aborted .unknownFunction, ⟨store, fakeExecutor⟩)
        | some .abort => .ok (.aborted .explicitAbort, ⟨store, fakeExecutor⟩)
        | some .success =>
            match transaction.nextVersion store.view with
            | .error panic => .error panic
            | .ok none => .ok (.aborted .missingRead, ⟨store, fakeExecutor⟩)
            | .ok (some version) =>
                match store.applyWrites
                    (transaction.inputs.val.filterMap (FakeExecutor.written store.view version)) with
                | .error panic => .error panic
                | .ok next => .ok (.success, ⟨next, fakeExecutor⟩) := by
  unfold executeOne
  split
  · rfl
  · change (FakeExecutor.execute store.view transaction >>= _) = _
    rw [FakeExecutor.execute_eq]
    cases FakeFunctionId.resolve transaction with
    | none => rfl
    | some function =>
        cases function with
        | abort => rfl
        | success =>
            cases transaction.nextVersion store.view with
            | error panic => rfl
            | ok version =>
                cases version with
                | none => rfl
                | some version =>
                    simp only [bind_ok, InMemoryStore.apply, ExecutionOutput.success]
                    cases store.applyWrites _ <;> rfl

theorem executeOne_of_reachesWrites {store : InMemoryStore} {version : Version}
    (reaches : ReachesWrites store transaction version) :
    executeOne ⟨store, fakeExecutor⟩ transaction =
      match store.applyWrites (writtenObjects store transaction version) with
      | .error panic => .error panic
      | .ok next => .ok (.success, ⟨next, fakeExecutor⟩) := by
  rw [executeOne_fake, if_neg (by simp [reaches.verified]), reaches.resolved]
  simp only [reaches.next]
  rfl

theorem executeOne_of_not_reachesWrites {store : InMemoryStore}
    (stops : ∀ version, ¬ ReachesWrites store transaction version) :
    (∃ reason, executeOne ⟨store, fakeExecutor⟩ transaction =
      .ok (.aborted reason, ⟨store, fakeExecutor⟩)) ∨
    (∃ panic, transaction.nextVersion store.view = .error panic ∧
      executeOne ⟨store, fakeExecutor⟩ transaction = .error panic) := by
  rw [executeOne_fake]
  split
  · exact .inl ⟨_, rfl⟩
  · rename_i verified
    cases resolved : FakeFunctionId.resolve transaction with
    | none => exact .inl ⟨_, rfl⟩
    | some function =>
        cases function with
        | abort => exact .inl ⟨_, rfl⟩
        | success =>
            cases next : transaction.nextVersion store.view with
            | error panic => exact .inr ⟨panic, rfl, rfl⟩
            | ok version =>
                cases version with
                | none => exact .inl ⟨_, rfl⟩
                | some version =>
                    exact absurd ⟨by simpa using verified, resolved, next⟩ (stops version)

theorem executeOne_fake_cases {store : InMemoryStore}
    (executed : executeOne ⟨store, fakeExecutor⟩ transaction = .ok (status, next)) :
    (status = .success ∧ ∃ version after, ReachesWrites store transaction version ∧
      store.applyWrites (writtenObjects store transaction version) = .ok after ∧
      next = ⟨after, fakeExecutor⟩) ∨
    (status ≠ .success ∧ next = ⟨store, fakeExecutor⟩ ∧
      ∀ version, ¬ ReachesWrites store transaction version) := by
  by_cases reaches : ∃ version, ReachesWrites store transaction version
  · obtain ⟨version, reaches⟩ := reaches
    rw [executeOne_of_reachesWrites reaches] at executed
    cases applied : store.applyWrites (writtenObjects store transaction version) with
    | error panic => simp [applied] at executed
    | ok after =>
        simp only [applied, Except.ok.injEq, Prod.mk.injEq] at executed
        exact .inl ⟨executed.1.symm, version, after, reaches, applied, executed.2.symm⟩
  · have stops := not_exists.mp reaches
    rcases executeOne_of_not_reachesWrites stops with ⟨reason, aborted⟩ | ⟨panic, -, failed⟩
    · rw [aborted] at executed
      cases executed
      exact .inr ⟨by simp, rfl, stops⟩
    · rw [failed] at executed
      cases executed

end SequentialScheduler

end BlockchainValidator.Execution
