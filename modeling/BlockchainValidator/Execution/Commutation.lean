import BlockchainValidator.Execution.Scheduler
import BlockchainValidator.Library.Reorder
import Mathlib.Data.List.FinRange

/-! # Schedules that agree on conflicting transactions -/

namespace BlockchainValidator.Execution

open Run Reorder FakeExecutor

namespace Transaction

def Declares (transaction : Transaction) (id : ObjectId) : Prop :=
  ∃ input ∈ transaction.inputs.val, input.1 = id

def Writes (transaction : Transaction) (id : ObjectId) : Prop :=
  ∃ input ∈ transaction.inputs.val, input.1 = id ∧ input.2.writes = true

/-- An id that one of them writes is declared by the other. -/
def Conflicts (left right : Transaction) : Prop :=
  ∃ mine ∈ left.inputs.val, ∃ other ∈ right.inputs.val,
    mine.1 = other.1 ∧ (mine.2.writes = true ∨ other.2.writes = true)

instance (left right : Transaction) : Decidable (Conflicts left right) :=
  inferInstanceAs (Decidable (∃ mine ∈ left.inputs.val, ∃ other ∈ right.inputs.val,
    mine.1 = other.1 ∧ (mine.2.writes = true ∨ other.2.writes = true)))

theorem Conflicts.symm {left right : Transaction} (conflict : Conflicts left right) :
    Conflicts right left := by
  obtain ⟨mine, declared, other, declared', same, writes⟩ := conflict
  exact ⟨other, declared', mine, declared, same.symm, writes.symm⟩

theorem Conflicts.of_writes {left right : Transaction} {id : ObjectId} (writes : left.Writes id)
    (declares : right.Declares id) : Conflicts left right := by
  obtain ⟨mine, declared, rfl, writes⟩ := writes
  obtain ⟨other, declared', same⟩ := declares
  exact ⟨mine, declared, other, declared', same.symm, .inl writes⟩

theorem Writes.declares {transaction : Transaction} {id : ObjectId}
    (writes : transaction.Writes id) : transaction.Declares id := by
  obtain ⟨input, declared, same, -⟩ := writes
  exact ⟨input, declared, same⟩

end Transaction

/-! ## Writes to different ids -/

namespace InMemoryStore

/-- Equal but for the commitment, which depends on the order of the writes. -/
def SameObjects (store other : InMemoryStore) : Prop :=
  store.objects = other.objects ∧ store.latest = other.latest

theorem sameObjects_equivalence : Equivalence SameObjects where
  refl _ := ⟨rfl, rfl⟩
  symm same := ⟨same.1.symm, same.2.symm⟩
  trans first second := ⟨first.1.trans second.1, first.2.trans second.2⟩

theorem SameObjects.view {store other : InMemoryStore} (same : store.SameObjects other) :
    store.view = other.view := by
  simp only [InMemoryStore.view, same.1, same.2]

variable [Hasher] {store other : InMemoryStore} {first second : Object}
  {objects left right : List Object}

def writeStep (store : InMemoryStore) (object : Object) : Except Panic (Unit × InMemoryStore) :=
  (fun next => ((), next)) <$> store.applyWrite object

theorem applyWrites_eq_run : store.applyWrites objects = Prod.snd <$> run writeStep store objects := by
  induction objects generalizing store with
  | nil => rfl
  | cons object objects ih =>
      rw [applyWrites, run, writeStep]
      cases store.applyWrite object with
      | error panic => rfl
      | ok middle =>
          simp only [bind_ok, map_ok, ih]
          cases run writeStep middle objects <;> rfl

theorem applyWrite_respects (same : store.SameObjects other) (object : Object) :
    (∃ panic, store.applyWrite object = .error panic ∧ other.applyWrite object = .error panic) ∨
    ∃ next next', store.applyWrite object = .ok next ∧ other.applyWrite object = .ok next' ∧
      next.SameObjects next' := by
  obtain ⟨objects, latest, _⟩ := store
  obtain ⟨_, _, _⟩ := other
  obtain ⟨rfl, rfl⟩ := same
  simp only [applyWrite]
  split
  · exact .inr ⟨_, _, rfl, rfl, rfl, rfl⟩
  · exact .inl ⟨_, rfl, rfl⟩

theorem writeStep_reorderable :
    Reorderable writeStep SameObjects (fun first second : Object => first.id ≠ second.id) where
  equivalence := sameObjects_equivalence
  respects same object := by
    simp only [run, writeStep]
    rcases applyWrite_respects same object with
      ⟨panic, left, right⟩ | ⟨next, next', left, right, related⟩
    · rw [left, right]
      exact .error _ _
    · rw [left, right]
      exact .ok (.refl _) related
  commutes := by
    intro first second different store
    simp only [run, writeStep, applyWrite]
    by_cases firstForward : (store.latest first.id).all (· < first.version) <;>
      by_cases secondForward : (store.latest second.id).all (· < second.version) <;>
      simp only [firstForward, secondForward, Function.update_of_ne different,
        Function.update_of_ne different.symm, map_ok, map_error, bind_ok, bind_error, if_true,
        Bool.false_eq_true, if_false]
    · refine .ok (.refl _) ⟨Function.update_comm ?_ _ _ _, Function.update_comm different.symm _ _ _⟩
      exact fun same => different (congrArg Prod.fst same).symm
    all_goals exact .error _ _

theorem applyWrites_agree (agree : Agree SameObjects (run writeStep store left) (run writeStep other right)) :
    (∃ panic panic', store.applyWrites left = .error panic ∧ other.applyWrites right = .error panic') ∨
    ∃ next next', store.applyWrites left = .ok next ∧ other.applyWrites right = .ok next' ∧
      next.SameObjects next' := by
  rw [applyWrites_eq_run, applyWrites_eq_run]
  generalize run writeStep store left = first, run writeStep other right = second at agree
  cases agree with
  | error panic panic' => exact .inl ⟨panic, panic', rfl, rfl⟩
  | ok outputs states => exact .inr ⟨_, _, rfl, rfl, states⟩

theorem applyWrites_same (same : store.SameObjects other) (objects : List Object) :
    (∃ panic panic', store.applyWrites objects = .error panic ∧
      other.applyWrites objects = .error panic') ∨
    ∃ next next', store.applyWrites objects = .ok next ∧ other.applyWrites objects = .ok next' ∧
      next.SameObjects next' :=
  applyWrites_agree (writeStep_reorderable.run_same same)

theorem applyWrites_swap (store : InMemoryStore)
    (disjoint : ∀ first ∈ left, ∀ second ∈ right, second.id ≠ first.id) :
    (∃ panic panic', store.applyWrites (left ++ right) = .error panic ∧
      store.applyWrites (right ++ left) = .error panic') ∨
    ∃ next next', store.applyWrites (left ++ right) = .ok next ∧
      store.applyWrites (right ++ left) = .ok next' ∧ next.SameObjects next' :=
  applyWrites_agree (writeStep_reorderable.run_reorders (reorders_swap disjoint))

end InMemoryStore

/-! ## The footprint of one transaction -/

namespace FakeExecutor

/-- The status of a transaction and the writes it asks for. -/
def attempt (store : InMemoryStore) (transaction : Transaction) :
    Except Panic (ExecutionStatus × List Object) :=
  if transaction.verify = false then .ok (.aborted .invalidTransaction, [])
  else (fun output => (output.status, output.writes)) <$> execute store.view transaction

variable {store other : InMemoryStore} {transaction : Transaction} {status : ExecutionStatus}
  {objects : List Object}

theorem attempt_congr (agree : ∀ id, transaction.Declares id →
      store.view.latest id = other.view.latest id) :
    attempt store transaction = attempt other transaction := by
  rw [attempt, attempt, execute_congr (fun input member _ => agree _ ⟨input, member, rfl⟩)]

theorem attempt_writes (attempted : attempt store transaction = .ok (status, objects)) :
    ∀ object ∈ objects, transaction.Writes object.id := by
  intro object member
  unfold attempt at attempted
  split at attempted
  · cases attempted
    cases member
  · obtain ⟨output, executed, same⟩ := map_eq_ok.mp attempted
    cases same
    rw [execute_eq] at executed
    split at executed
    · cases executed; cases member
    · cases executed; cases member
    · split at executed
      · cases executed
      · cases executed; cases member
      · cases executed
        exact (writtenObjects_mem member).2

variable [Hasher]

def fakeStep (store : InMemoryStore) (transaction : Transaction) :
    Except Panic (ExecutionStatus × InMemoryStore) := do
  let (status, objects) ← attempt store transaction
  let next ← store.applyWrites objects
  .ok (status, next)

theorem executeOne_eq_fakeStep :
    SequentialScheduler.executeOne ⟨store, fakeExecutor⟩ transaction =
      (fun result => (result.1, ⟨result.2, fakeExecutor⟩)) <$> fakeStep store transaction := by
  unfold SequentialScheduler.executeOne fakeStep attempt
  split
  · rfl
  · change (execute store.view transaction >>= _) = _
    cases execute store.view transaction with
    | error panic => rfl
    | ok output =>
        simp only [map_ok, bind_ok, InMemoryStore.apply]
        cases store.applyWrites output.writes <;> rfl

theorem execute_eq_fakeStep {transactions : List Transaction} :
    SequentialScheduler.execute ⟨store, fakeExecutor⟩ transactions =
      (fun result => (result.1, ⟨result.2, fakeExecutor⟩)) <$> run fakeStep store transactions := by
  have commuted : run SequentialScheduler.executeOne ⟨store, fakeExecutor⟩ transactions =
      (fun result => (result.1.map id, (⟨result.2, fakeExecutor⟩ : SequentialScheduler))) <$>
        run fakeStep store transactions :=
    run_commute id (fun store : InMemoryStore => (⟨store, fakeExecutor⟩ : SequentialScheduler))
      fun _ _ => executeOne_eq_fakeStep
  rw [SequentialScheduler.execute_eq_run, commuted]
  simp only [List.map_id]

theorem attempt_frame {next : InMemoryStore} (applied : store.applyWrites objects = .ok next)
    (elsewhere : ∀ object ∈ objects, ¬ transaction.Declares object.id) :
    attempt next transaction = attempt store transaction := by
  refine attempt_congr fun id declares => ?_
  obtain ⟨latest, entries⟩ := InMemoryStore.applyWrites_frame applied
    (fun object member same => elsewhere object member (same ▸ declares))
  exact InMemoryStore.view_latest_of_frame latest entries

/-! ## Two transactions in either order -/

section

variable {κ : Type} (transactions : κ → Transaction)

/-- The step on names of transactions, whose outputs carry the name. -/
def namedStep (store : InMemoryStore) (name : κ) :
    Except Panic ((κ × ExecutionStatus) × InMemoryStore) :=
  (fun result => ((name, result.1), result.2)) <$> fakeStep store (transactions name)

variable {transactions} {first second : κ} {firstStatus secondStatus : ExecutionStatus}
  {firstObjects secondObjects : List Object}

theorem namedStep_pair_error
    (independent : ¬ Transaction.Conflicts (transactions first) (transactions second))
    (stuck : ∃ panic, attempt store (transactions first) = .error panic ∨
      attempt store (transactions second) = .error panic) :
    ∃ panic, run (namedStep transactions) store [first, second] = .error panic := by
  simp only [run, namedStep, fakeStep]
  cases attempted : attempt store (transactions first) with
  | error panic => exact ⟨panic, rfl⟩
  | ok result =>
      obtain ⟨panic, failed | failed⟩ := stuck
      · rw [attempted] at failed
        cases failed
      · simp only [bind_ok]
        cases applied : store.applyWrites result.2 with
        | error panic => exact ⟨panic, rfl⟩
        | ok next =>
            have framed : attempt next (transactions second) = .error panic := by
              rw [attempt_frame applied (fun object member declares => independent
                (.of_writes (attempt_writes attempted object member) declares)), failed]
            exact ⟨panic, by simp only [bind_ok, map_ok, framed, bind_error, map_error]⟩

theorem namedStep_pair_ok
    (independent : ¬ Transaction.Conflicts (transactions first) (transactions second))
    (firstAttempt : attempt store (transactions first) = .ok (firstStatus, firstObjects))
    (secondAttempt : attempt store (transactions second) = .ok (secondStatus, secondObjects)) :
    run (namedStep transactions) store [first, second] =
      (fun next => ([(first, firstStatus), (second, secondStatus)], next)) <$>
        store.applyWrites (firstObjects ++ secondObjects) := by
  rw [InMemoryStore.applyWrites_append]
  simp only [run, namedStep, fakeStep, firstAttempt, bind_ok]
  cases applied : store.applyWrites firstObjects with
  | error panic => rfl
  | ok next =>
      have framed : attempt next (transactions second) = .ok (secondStatus, secondObjects) := by
        rw [attempt_frame applied (fun object member declares => independent
          (.of_writes (attempt_writes firstAttempt object member) declares)), secondAttempt]
      simp only [bind_ok, map_ok, framed]
      cases next.applyWrites secondObjects <;> rfl

theorem namedStep_respects (same : store.SameObjects other) (name : κ) :
    Agree InMemoryStore.SameObjects (run (namedStep transactions) store [name])
      (run (namedStep transactions) other [name]) := by
  have attempts : attempt other (transactions name) = attempt store (transactions name) :=
    attempt_congr (fun id _ => by rw [same.view])
  simp only [run, namedStep, fakeStep, attempts]
  cases attempt store (transactions name) with
  | error panic => exact .error _ _
  | ok result =>
      simp only [bind_ok]
      rcases InMemoryStore.applyWrites_same same result.2 with
        ⟨panic, panic', left, right⟩ | ⟨next, next', left, right, related⟩
      · rw [left, right]
        exact .error _ _
      · rw [left, right]
        exact .ok (.refl _) related

theorem namedStep_reorderable :
    Reorderable (namedStep transactions) InMemoryStore.SameObjects
      (fun first second => ¬ Transaction.Conflicts (transactions first) (transactions second)) where
  equivalence := InMemoryStore.sameObjects_equivalence
  respects := namedStep_respects
  commutes := by
    intro first second independent store
    have independent' := mt Transaction.Conflicts.symm independent
    cases firstAttempt : attempt store (transactions first) with
    | error panic =>
        obtain ⟨left, leftError⟩ := namedStep_pair_error independent' ⟨panic, .inr firstAttempt⟩
        obtain ⟨right, rightError⟩ := namedStep_pair_error independent ⟨panic, .inl firstAttempt⟩
        rw [leftError, rightError]
        exact .error _ _
    | ok firstResult =>
        cases secondAttempt : attempt store (transactions second) with
        | error panic =>
            obtain ⟨left, leftError⟩ := namedStep_pair_error independent' ⟨panic, .inl secondAttempt⟩
            obtain ⟨right, rightError⟩ := namedStep_pair_error independent ⟨panic, .inr secondAttempt⟩
            rw [leftError, rightError]
            exact .error _ _
        | ok secondResult =>
            rw [namedStep_pair_ok independent' secondAttempt firstAttempt,
              namedStep_pair_ok independent firstAttempt secondAttempt]
            have disjoint : ∀ object ∈ secondResult.2, ∀ object' ∈ firstResult.2,
                object'.id ≠ object.id := by
              intro object member object' member' same
              have declares := (attempt_writes secondAttempt object member).declares
              exact independent
                (.of_writes (attempt_writes firstAttempt object' member') (same ▸ declares))
            rcases InMemoryStore.applyWrites_swap store disjoint with
              ⟨panic, panic', left, right⟩ | ⟨next, next', left, right, related⟩
            · rw [left, right]
              exact .error _ _
            · rw [left, right]
              exact .ok (List.Perm.swap _ _ _) related

end

end FakeExecutor

/-! ## Whole schedules -/

namespace SequentialScheduler

section

variable {transactions : List Transaction}

/-- The list in another order: position `k` holds the transaction of index `order k`. -/
def permuted (transactions : List Transaction) (order : Equiv.Perm (Fin transactions.length)) :
    List Transaction :=
  (List.finRange transactions.length).map fun position => transactions.get (order position)

/-- The order keeps every conflicting pair as it is in the list. -/
def KeepsConflicts (transactions : List Transaction)
    (order : Equiv.Perm (Fin transactions.length)) : Prop :=
  ∀ earlier later, earlier < later →
    Transaction.Conflicts (transactions.get earlier) (transactions.get later) →
    order.symm earlier < order.symm later

instance (transactions : List Transaction) (order : Equiv.Perm (Fin transactions.length)) :
    Decidable (KeepsConflicts transactions order) :=
  inferInstanceAs (Decidable (∀ earlier later, earlier < later →
    Transaction.Conflicts (transactions.get earlier) (transactions.get later) →
    order.symm earlier < order.symm later))

theorem statuses_named {order : Equiv.Perm (Fin transactions.length)}
    {statuses statuses' : List ExecutionStatus} (length : statuses.length = transactions.length)
    (length' : statuses'.length = transactions.length)
    (outputs : ((List.finRange transactions.length).zip statuses).Perm
      (((List.finRange transactions.length).map order).zip statuses'))
    (position : Fin transactions.length) : statuses'[position.val]? = statuses[(order position).val]? := by
  have member : (order position, statuses'[position]) ∈
      ((List.finRange transactions.length).map order).zip statuses' := by
    refine List.mem_iff_getElem.mpr ⟨position, by simp [length'], ?_⟩
    simp
  obtain ⟨index, bound, same⟩ := List.mem_iff_getElem.mp (outputs.mem_iff.mpr member)
  rw [List.getElem_zip, List.getElem_finRange, Prod.mk.injEq] at same
  have position_eq : index = order position := congrArg Fin.val same.1
  subst position_eq
  rw [List.getElem?_eq_getElem (by omega), List.getElem?_eq_getElem (by omega), same.2]
  rfl

variable [Hasher] {store : InMemoryStore}

theorem run_named (names : List (Fin transactions.length)) :
    run (namedStep transactions.get) store names =
      (fun result => (names.zip result.1, result.2)) <$>
        run fakeStep store (names.map transactions.get) := by
  rw [run_map, ← run_tagged]
  rfl

theorem agree_of_keepsConflicts (store : InMemoryStore)
    {order : Equiv.Perm (Fin transactions.length)}
    (keeps : KeepsConflicts transactions order) :
    Agree InMemoryStore.SameObjects
      (run (namedStep transactions.get) store (List.finRange transactions.length))
      (run (namedStep transactions.get) store ((List.finRange transactions.length).map order)) := by
  refine namedStep_reorderable.run_reorders (reorders_of_rank (· < ·)
    (List.pairwise_lt_finRange _) (Equiv.Perm.map_finRange_perm order).symm ?_)
  rw [List.pairwise_map]
  refine (List.pairwise_lt_finRange _).imp (fun {position other} before late conflict => ?_)
  have kept := keeps _ _ late conflict.symm
  rw [order.symm_apply_apply, order.symm_apply_apply] at kept
  exact absurd before (lt_asymm kept)

theorem execute_permuted (store : InMemoryStore) (transactions : List Transaction)
    (order : Equiv.Perm (Fin transactions.length)) (keeps : KeepsConflicts transactions order) :
    ((∃ panic, execute ⟨store, fakeExecutor⟩ transactions = .error panic) ↔
      ∃ panic, execute ⟨store, fakeExecutor⟩ (permuted transactions order) = .error panic) ∧
    ∀ statuses next statuses' next',
      execute ⟨store, fakeExecutor⟩ transactions = .ok (statuses, next) →
      execute ⟨store, fakeExecutor⟩ (permuted transactions order) = .ok (statuses', next') →
      (∀ position : Fin transactions.length, statuses'[position.val]? = statuses[(order position).val]?) ∧
        next'.store.objects = next.store.objects ∧ next'.store.latest = next.store.latest := by
  have agree := agree_of_keepsConflicts store keeps
  rw [run_named, run_named, List.map_map, List.map_get_finRange] at agree
  change Agree _ _ (_ <$> run fakeStep store (permuted transactions order)) at agree
  rw [execute_eq_fakeStep, execute_eq_fakeStep]
  cases left : run fakeStep store transactions with
  | error panic =>
      rw [left] at agree
      cases right : run fakeStep store (permuted transactions order) with
      | error panic => simp
      | ok result =>
          rw [right] at agree
          cases agree
  | ok result =>
      cases right : run fakeStep store (permuted transactions order) with
      | error panic =>
          rw [left, right] at agree
          cases agree
      | ok result' =>
          rw [left, right] at agree
          obtain ⟨outputs, same⟩ := agree.of_ok rfl rfl
          refine ⟨by simp, ?_⟩
          intro statuses scheduler statuses' scheduler' done done'
          cases done
          cases done'
          refine ⟨fun position => ?_, same.1.symm, same.2.symm⟩
          exact statuses_named (run_length left)
            ((run_length right).trans (by simp [permuted])) outputs position

end

@[reducible] private def schedule : List Transaction :=
  [⟨FakeFunctionId.successId, .singleton (.new 1, .writeOnly), .nil⟩,
    ⟨FakeFunctionId.successId, .singleton (.new 2, .writeOnly), .nil⟩,
    ⟨FakeFunctionId.successId, .singleton (.new 1, .readWrite), .nil⟩]

/-- Object 2 can be created before object 1, or last. -/
theorem execute_rescheduled :
    ∃ statuses next statuses' next',
      @execute blake2b ⟨.default, fakeExecutor⟩ schedule = .ok (statuses, next) ∧
      @execute blake2b ⟨.default, fakeExecutor⟩ (permuted schedule (Equiv.swap 0 1)) =
        .ok (statuses', next') ∧
      next'.store.objects = next.store.objects ∧ next'.store.latest = next.store.latest := by
  have agree := (@execute_permuted blake2b .default schedule (Equiv.swap 0 1) (by decide)).2
  exact ⟨_, _, _, _, rfl, rfl, (agree _ _ _ _ rfl rfl).2⟩

end SequentialScheduler

end BlockchainValidator.Execution
