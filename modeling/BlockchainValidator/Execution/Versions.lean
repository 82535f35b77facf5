import BlockchainValidator.Execution.Scheduler

/-! # Object versions as an abstract history

Above the store there is one number for each object that exists.  A transaction
either leaves the numbers alone or moves every object it writes to one past the
highest number it reads.  The fake engine refines this as long as every creation
moves its object forward.
-/

namespace BlockchainValidator.Execution

open Run FakeExecutor

/-- The version of every object that exists. -/
abbrev Versions := ObjectId → Option Nat

namespace Versions

def highestRead (versions : Versions) : List (ObjectId × AccessMode) → Option Nat
  | [] => some 0
  | (id, mode) :: inputs =>
      if mode.reads then
        match versions id, highestRead versions inputs with
        | some version, some highest => some (max version highest)
        | _, _ => none
      else highestRead versions inputs

/-- The version at which a transaction writes, `none` when it writes nothing. -/
def writesAt (versions : Versions) (transaction : Transaction) : Option Nat :=
  if transaction.verify = true ∧ FakeFunctionId.resolve transaction = some .success then
    (versions.highestRead transaction.inputs.val).map (· + 1)
  else none

def after (versions : Versions) (transaction : Transaction) : Versions :=
  match versions.writesAt transaction with
  | none => versions
  | some version => fun id =>
      if ∃ input ∈ transaction.inputs.val, input.1 = id ∧ input.2.writes = true then some version
      else versions id

/-- Every object that the transaction creates moves forward: it is new, or its
version lies below the one written. -/
def CreationsAdvance (versions : Versions) (transaction : Transaction) : Prop :=
  ∀ version ∈ versions.writesAt transaction, ∀ input ∈ transaction.inputs.val,
    input.2 = .writeOnly → ∀ previous ∈ versions input.1, previous < version

/-- Every transaction of a list, at the versions it meets. -/
def AllCreationsAdvance : Versions → List Transaction → Prop
  | _, [] => True
  | versions, transaction :: transactions =>
      versions.CreationsAdvance transaction ∧
        AllCreationsAdvance (versions.after transaction) transactions

instance (versions : Versions) (transaction : Transaction) :
    Decidable (versions.CreationsAdvance transaction) :=
  inferInstanceAs (Decidable (∀ version ∈ versions.writesAt transaction,
    ∀ input ∈ transaction.inputs.val, input.2 = .writeOnly →
      ∀ previous ∈ versions input.1, previous < version))

instance decidableAllCreationsAdvance (versions : Versions) (transactions : List Transaction) :
    Decidable (versions.AllCreationsAdvance transactions) :=
  match transactions with
  | [] => .isTrue trivial
  | transaction :: transactions =>
      have := decidableAllCreationsAdvance (versions.after transaction) transactions
      inferInstanceAs (Decidable (_ ∧ _))

def Bounded (versions : Versions) (bound : Nat) : Prop :=
  ∀ id, ∀ version ∈ versions id, version ≤ bound

variable {versions : Versions} {transaction : Transaction} {transactions more : List Transaction}
  {inputs : List (ObjectId × AccessMode)} {version bound : Nat}

theorem allCreationsAdvance_append :
    AllCreationsAdvance versions (transactions ++ more) ↔
      AllCreationsAdvance versions transactions ∧
        AllCreationsAdvance (transactions.foldl after versions) more := by
  induction transactions generalizing versions with
  | nil => simp [AllCreationsAdvance]
  | cons transaction transactions ih => simp [AllCreationsAdvance, ih, and_assoc]

theorem highestRead_le (bounded : versions.Bounded bound)
    (result : versions.highestRead inputs = some version) : version ≤ bound := by
  induction inputs generalizing version with
  | nil =>
      cases result
      exact Nat.zero_le _
  | cons input inputs ih =>
      obtain ⟨id, mode⟩ := input
      rw [highestRead] at result
      split at result
      · cases found : versions id with
        | none => simp [found] at result
        | some current =>
            cases rest : versions.highestRead inputs with
            | none => simp [found, rest] at result
            | some highest =>
                simp only [found, rest, Option.some.injEq] at result
                have head := bounded id current found
                have tail := ih rest
                omega
      · exact ih result

theorem writesAt_bounds (bounded : versions.Bounded bound)
    (written : versions.writesAt transaction = some version) :
    1 ≤ version ∧ version ≤ bound + 1 := by
  unfold writesAt at written
  split at written
  · obtain ⟨highest, read, rfl⟩ := Option.map_eq_some_iff.mp written
    exact ⟨Nat.le_add_left 1 highest, Nat.succ_le_succ (highestRead_le bounded read)⟩
  · cases written

theorem after_bounded (bounded : versions.Bounded bound) :
    (versions.after transaction).Bounded (bound + 1) := by
  intro id version found
  unfold after at found
  cases written : versions.writesAt transaction with
  | none =>
      rw [written] at found
      exact Nat.le_succ_of_le (bounded id version found)
  | some target =>
      simp only [written] at found
      split at found
      · cases found
        exact (writesAt_bounds bounded written).2
      · exact Nat.le_succ_of_le (bounded id version found)

end Versions

/-! ## The store's versions -/

namespace InMemoryStore

def versions (store : InMemoryStore) : Versions := fun id => (store.latest id).map Version.toNat

variable {store next : InMemoryStore} {objects : List Object}

theorem versions_eq_some {id : ObjectId} {number : Nat} :
    store.versions id = some number ↔
      ∃ version, store.latest id = some version ∧ version.toNat = number :=
  Option.map_eq_some_iff

/-- Both loops compute one maximum, one with an accumulator. -/
theorem highestInput_versions (wellFormed : store.WellFormed) (highest : Version)
    (inputs : List (ObjectId × AccessMode)) :
    (Transaction.highestInput store.view highest inputs).map Version.toNat =
      (store.versions.highestRead inputs).map (max highest.toNat) := by
  induction inputs generalizing highest with
  | nil => simp [Transaction.highestInput, Versions.highestRead]
  | cons input inputs ih =>
      obtain ⟨id, mode⟩ := input
      cases mode with
      | writeOnly => exact ih highest
      | readOnly | readWrite =>
          cases written : store.latest id with
          | none =>
              have missing := wellFormed.latest_eq_none.mpr written
              simp [Transaction.highestInput, Versions.highestRead, AccessMode.reads, missing,
                versions, written]
          | some version =>
              obtain ⟨object, found, rfl⟩ := wellFormed.view_latest written
              simp only [Transaction.highestInput, found, ih, Versions.highestRead, AccessMode.reads,
                if_true, versions, written, Option.map_some, Version.toNat_max]
              cases Versions.highestRead store.versions inputs <;> simp [Nat.max_assoc]

variable [Hasher]

/-- Distinct objects are accepted exactly when each moves its id forward. -/
theorem applyWrites_exists_iff (distinct : (objects.map Object.id).Nodup) :
    (∃ next, store.applyWrites objects = .ok next) ↔
      ∀ object ∈ objects, ∀ version, store.latest object.id = some version →
        version < object.version := by
  induction objects generalizing store with
  | nil => exact iff_of_true ⟨store, rfl⟩ (by simp)
  | cons object objects ih =>
      rw [List.map_cons, List.nodup_cons] at distinct
      obtain ⟨fresh, distinct⟩ := distinct
      have others (later : Object) (member : later ∈ objects) : later.id ≠ object.id :=
        fun same => fresh (same ▸ List.mem_map_of_mem member)
      simp only [applyWrites_cons_ok]
      constructor
      · intro applied later member
        obtain ⟨next, middle, head, tail⟩ := applied
        obtain ⟨forward, rfl⟩ := applyWrite_eq_ok.mp head
        rcases List.mem_cons.mp member with rfl | member
        · exact forward
        · have held := (ih distinct).mp ⟨next, tail⟩ later member
          simpa only [Function.update_of_ne (others later member)] using held
      · intro forward
        obtain ⟨middle, head⟩ : ∃ middle, store.applyWrite object = .ok middle :=
          ⟨_, applyWrite_eq_ok.mpr ⟨forward object (by simp), rfl⟩⟩
        have held : ∀ later ∈ objects, ∀ version, middle.latest later.id = some version →
            version < later.version := by
          obtain ⟨-, rfl⟩ := applyWrite_eq_ok.mp head
          intro later member version latest
          simp only [Function.update_of_ne (others later member)] at latest
          exact forward later (by simp [member]) version latest
        obtain ⟨next, tail⟩ := (ih distinct).mpr held
        exact ⟨next, middle, head, tail⟩

theorem applyWrites_error {panic : Panic} (failed : store.applyWrites objects = .error panic) :
    panic = .versionsMustMoveForward := by
  induction objects generalizing store with
  | nil => cases failed
  | cons object objects ih =>
      rw [applyWrites] at failed
      cases head : store.applyWrite object with
      | error reason =>
          rw [head] at failed
          cases failed
          exact (applyWrite_eq_error.mp head).1
      | ok middle =>
          rw [head] at failed
          exact ih failed

theorem applyWrites_latest {version : Version} (id : ObjectId)
    (same : ∀ object ∈ objects, object.version = version)
    (applied : store.applyWrites objects = .ok next) :
    next.latest id = if id ∈ objects.map Object.id then some version else store.latest id := by
  induction objects generalizing store with
  | nil =>
      cases applied
      simp
  | cons object objects ih =>
      obtain ⟨middle, head, tail⟩ := applyWrites_cons_ok.mp applied
      obtain ⟨-, rfl⟩ := applyWrite_eq_ok.mp head
      rw [ih (fun later member => same later (by simp [member])) tail]
      by_cases later : id ∈ objects.map Object.id
      · simp [later]
      · rw [if_neg later]
        by_cases here : id = object.id
        · simp [here, same object (by simp)]
        · simp only [Function.update_of_ne here, List.map_cons, List.mem_cons, here, later, or_self,
            if_false]

end InMemoryStore

/-! ## Refinement by the fake engine -/

open SequentialScheduler

namespace FakeExecutor

variable {store : InMemoryStore} {transaction : Transaction} {version : Version}

theorem writesAt_of_reachesWrites (wellFormed : store.WellFormed)
    (reaches : ReachesWrites store transaction version) :
    store.versions.writesAt transaction = some version.toNat := by
  obtain ⟨highest, found, successor⟩ := Transaction.nextVersion_eq_some.mp reaches.next
  have read := InMemoryStore.highestInput_versions wellFormed .zero transaction.inputs.val
  rw [found] at read
  rw [Versions.writesAt, if_pos ⟨reaches.verified, reaches.resolved⟩]
  cases abstract : store.versions.highestRead transaction.inputs.val with
  | none => simp [abstract] at read
  | some number =>
      simp only [abstract, Option.map_some, Version.toNat_zero, Nat.zero_max, Option.some.injEq]
        at read
      simp [successor, read]

theorem reachesWrites_of_writesAt (wellFormed : store.WellFormed)
    (room : store.versions.Bounded (2 ^ 64 - 2)) {number : Nat}
    (written : store.versions.writesAt transaction = some number) :
    ∃ version, ReachesWrites store transaction version ∧ version.toNat = number := by
  rw [Versions.writesAt] at written
  split at written
  · rename_i passes
    obtain ⟨highest, read, rfl⟩ := Option.map_eq_some_iff.mp written
    have bound := Versions.highestRead_le room read
    have found := InMemoryStore.highestInput_versions wellFormed .zero transaction.inputs.val
    rw [read, Option.map_some] at found
    obtain ⟨input, concrete, same⟩ := Option.map_eq_some_iff.mp found
    rw [Version.toNat_zero, Nat.zero_max] at same
    have successor : (⟨UInt64.ofNat (highest + 1)⟩ : Version).toNat = highest + 1 := by
      rw [Version.toNat, UInt64.toNat_ofNat']
      exact Nat.mod_eq_of_lt (by omega)
    exact ⟨_, ⟨passes.1, passes.2,
      Transaction.nextVersion_eq_some.mpr ⟨input, concrete, by rw [successor, same]⟩⟩, successor⟩
  · cases written

theorem nextVersion_of_room (wellFormed : store.WellFormed)
    (room : store.versions.Bounded (2 ^ 64 - 2)) (panic : Panic) :
    transaction.nextVersion store.view ≠ .error panic := by
  rw [Transaction.nextVersion]
  cases found : Transaction.highestInput store.view .zero transaction.inputs.val with
  | none => simp
  | some highest =>
      have read := InMemoryStore.highestInput_versions wellFormed .zero transaction.inputs.val
      rw [found] at read
      obtain ⟨number, abstract, same⟩ := Option.map_eq_some_iff.mp read.symm
      have bound := Versions.highestRead_le room abstract
      rw [Version.toNat_zero, Nat.zero_max] at same
      cases next : highest.next with
      | error reason =>
          have full := (Version.next_eq_error.mp next).2
          omega
      | ok version => simp [next]

theorem writtenObjects_ids (reaches : ReachesWrites store transaction version) (id : ObjectId) :
    id ∈ (writtenObjects store transaction version).map Object.id ↔
      ∃ input ∈ transaction.inputs.val, input.1 = id ∧ input.2.writes = true := by
  constructor
  · intro member
    obtain ⟨object, written, rfl⟩ := List.mem_map.mp member
    exact (writtenObjects_mem written).2
  · intro listed
    obtain ⟨⟨_, mode⟩, declared, rfl, writes⟩ := listed
    refine List.mem_map.mpr ?_
    cases mode with
    | readOnly => cases writes
    | writeOnly => exact ⟨_, List.mem_filterMap.mpr ⟨_, declared, rfl⟩, rfl⟩
    | readWrite =>
        obtain ⟨highest, found, -⟩ := Transaction.nextVersion_eq_some.mp reaches.next
        obtain ⟨object, present, -⟩ :=
          (Transaction.highestInput_bounds found).2.1 _ declared rfl
        exact ⟨_, List.mem_filterMap.mpr ⟨_, declared, by rw [written, present]; rfl⟩, rfl⟩

/-- A modified object always moves forward, so acceptance is up to the creations. -/
theorem writtenObjects_accepted_iff [Hasher] (wellFormed : store.WellFormed)
    (reaches : ReachesWrites store transaction version) :
    (∃ next, store.applyWrites (writtenObjects store transaction version) = .ok next) ↔
      store.versions.CreationsAdvance transaction := by
  rw [InMemoryStore.applyWrites_exists_iff (writtenObjects_nodup reaches.verified),
    Versions.CreationsAdvance, writesAt_of_reachesWrites wellFormed reaches]
  obtain ⟨highest, found, successor⟩ := Transaction.nextVersion_eq_some.mp reaches.next
  constructor
  · intro forward written same input declared created previous existing
    cases same
    obtain ⟨id, mode⟩ := input
    cases created
    obtain ⟨current, latest, rfl⟩ := InMemoryStore.versions_eq_some.mp existing
    have member : (⟨id, version, newObjectContent⟩ : Object) ∈
        writtenObjects store transaction version := List.mem_filterMap.mpr ⟨_, declared, rfl⟩
    exact Version.lt_iff.mp (forward _ member current latest)
  · intro advance object member current latest
    obtain ⟨same, ⟨_, mode⟩, declared, rfl, writes⟩ := writtenObjects_mem member
    rw [same, Version.lt_iff]
    cases mode with
    | readOnly => cases writes
    | writeOnly =>
        exact advance version.toNat rfl _ declared rfl _
          (InMemoryStore.versions_eq_some.mpr ⟨current, latest, rfl⟩)
    | readWrite =>
        obtain ⟨existing, present, below⟩ :=
          (Transaction.highestInput_bounds found).2.1 _ declared rfl
        rw [wellFormed.latest_of_view present] at latest
        cases latest
        omega

end FakeExecutor

namespace SequentialScheduler

variable [Hasher] {store : InMemoryStore} {transaction : Transaction}

/-- If the creations advance, a transaction gets a status and the store moves as
its versions do. -/
theorem executeOne_advances (wellFormed : store.WellFormed)
    (room : store.versions.Bounded (2 ^ 64 - 2))
    (advance : store.versions.CreationsAdvance transaction) :
    ∃ status next, executeOne ⟨store, fakeExecutor⟩ transaction = .ok (status, ⟨next, fakeExecutor⟩) ∧
      next.WellFormed ∧ next.versions = store.versions.after transaction := by
  by_cases reaches : ∃ version, ReachesWrites store transaction version
  · obtain ⟨version, reaches⟩ := reaches
    obtain ⟨next, applied⟩ := (writtenObjects_accepted_iff wellFormed reaches).mpr advance
    refine ⟨.success, next, by rw [executeOne_of_reachesWrites reaches, applied],
      InMemoryStore.applyWrites_wellFormed wellFormed applied, ?_⟩
    funext id
    have latest := InMemoryStore.applyWrites_latest id
      (fun object member => (writtenObjects_mem member).1) applied
    rw [InMemoryStore.versions, latest, Versions.after, writesAt_of_reachesWrites wellFormed reaches]
    simp only [writtenObjects_ids reaches]
    split <;> rfl
  · have stops := not_exists.mp reaches
    have unwritten : store.versions.writesAt transaction = none := by
      refine Option.eq_none_iff_forall_ne_some.mpr fun number written => ?_
      obtain ⟨version, reached, -⟩ := reachesWrites_of_writesAt wellFormed room written
      exact stops version reached
    rcases executeOne_of_not_reachesWrites stops with ⟨reason, aborted⟩ | ⟨panic, overflow, -⟩
    · exact ⟨.aborted reason, store, aborted, wellFormed, by rw [Versions.after, unwritten]⟩
    · exact absurd overflow (nextVersion_of_room wellFormed room panic)

theorem executeOne_panics (wellFormed : store.WellFormed)
    (room : store.versions.Bounded (2 ^ 64 - 2))
    (stuck : ¬ store.versions.CreationsAdvance transaction) :
    executeOne ⟨store, fakeExecutor⟩ transaction = .error .versionsMustMoveForward := by
  have written : ∃ number, store.versions.writesAt transaction = some number := by
    refine Option.ne_none_iff_exists'.mp fun unwritten => stuck ?_
    intro _ written
    rw [unwritten] at written
    cases written
  obtain ⟨number, written⟩ := written
  obtain ⟨version, reaches, -⟩ := reachesWrites_of_writesAt wellFormed room written
  have rejected := mt (writtenObjects_accepted_iff wellFormed reaches).mp stuck
  rw [executeOne_of_reachesWrites reaches]
  cases applied : store.applyWrites (writtenObjects store transaction version) with
  | error panic => rw [InMemoryStore.applyWrites_error applied]
  | ok next => exact absurd ⟨next, applied⟩ rejected

end SequentialScheduler

end BlockchainValidator.Execution
