import BlockchainValidator.Execution.Transaction
import BlockchainValidator.Library.Blake2b

/-! # Execution outputs and the versioned store -/

namespace BlockchainValidator.Execution

open Bytes Run

structure Digest where
  bytes : List.Vector UInt8 32
deriving DecidableEq

/-- The zero digest, which is also the genesis state commitment. -/
def Digest.default : Digest := ⟨.replicate 32 0⟩

/-- The 256-bit hash over the concatenation of its updates. -/
class Hasher where
  finalize : List UInt8 → Digest

@[reducible] def blake2b : Hasher := ⟨fun bytes => ⟨Blake2b.finalize bytes⟩⟩

inductive AbortReason where
  | explicitAbort
  | missingRead
  | unknownFunction
  | invalidTransaction
deriving DecidableEq, Repr

inductive ExecutionStatus where
  | success
  | aborted (reason : AbortReason)
deriving DecidableEq, Repr

/-- The outcome of a transaction and the objects it wrote.  Aborted
transactions write nothing. -/
structure ExecutionOutput where
  status : ExecutionStatus
  writes : List Object
  abortedWritesNothing : status ≠ .success → writes = []

namespace ExecutionOutput

def success (writes : List Object) : ExecutionOutput := ⟨.success, writes, by simp⟩

def aborted (reason : AbortReason) : ExecutionOutput := ⟨.aborted reason, [], by simp⟩

end ExecutionOutput

structure InMemoryStore where
  objects : ObjectId × Version → Option Object
  latest : ObjectId → Option Version
  /-- Rolling commitment to the full ordered write history. -/
  commitment : Digest

namespace InMemoryStore

def default : InMemoryStore := ⟨fun _ => none, fun _ => none, .default⟩

/-- The bytes hashed for one write: `previous ‖ id ‖ version ‖ contents`. -/
def preimage (previous : Digest) (object : Object) : List UInt8 :=
  previous.bytes.toList ++ object.id.bytes.toList ++ u64BeBytes object.version.asU64 ++ object.contents

/-- The body of the loop in `apply`. -/
def applyWrite [Hasher] (store : InMemoryStore) (object : Object) : Except Panic InMemoryStore :=
  if (store.latest object.id).all (· < object.version) then
    .ok {
      objects := Function.update store.objects (object.id, object.version) (some object)
      latest := Function.update store.latest object.id (some object.version)
      commitment := Hasher.finalize (preimage store.commitment object) }
  else .error .versionsMustMoveForward

def applyWrites [Hasher] : InMemoryStore → List Object → Except Panic InMemoryStore
  | store, [] => .ok store
  | store, object :: objects => do
      let store ← store.applyWrite object
      store.applyWrites objects

def apply [Hasher] (store : InMemoryStore) (output : ExecutionOutput) : Except Panic InMemoryStore :=
  store.applyWrites output.writes

def view (store : InMemoryStore) : StateView where
  latest id :=
    match store.latest id with
    | none => none
    | some version => store.objects (id, version)

theorem view_latest_of_frame {store next : InMemoryStore} {id : ObjectId}
    (latest : next.latest id = store.latest id)
    (entries : ∀ version, next.objects (id, version) = store.objects (id, version)) :
    next.view.latest id = store.view.latest id := by
  simp only [view, latest, entries]

/-! ## What one write and one output do -/

section Writes

variable [Hasher] {store next : InMemoryStore} {object : Object} {objects more : List Object}

theorem applyWrite_eq_ok :
    store.applyWrite object = .ok next ↔
      (∀ version, store.latest object.id = some version → version < object.version) ∧
      next = {
        objects := Function.update store.objects (object.id, object.version) (some object)
        latest := Function.update store.latest object.id (some object.version)
        commitment := Hasher.finalize (preimage store.commitment object) } := by
  unfold applyWrite
  cases store.latest object.id with
  | none => simp [eq_comm]
  | some previous =>
      by_cases forward : previous < object.version
      · simp [forward, eq_comm]
      · simp [forward]

theorem applyWrite_eq_error {panic : Panic} :
    store.applyWrite object = .error panic ↔
      panic = .versionsMustMoveForward ∧
        ∃ version, store.latest object.id = some version ∧ ¬ version < object.version := by
  unfold applyWrite
  cases store.latest object.id with
  | none => simp
  | some previous =>
      by_cases forward : previous < object.version
      · simp [forward]
      · simp [forward, eq_comm]

theorem applyWrites_cons_ok :
    store.applyWrites (object :: objects) = .ok next ↔
      ∃ middle, store.applyWrite object = .ok middle ∧ middle.applyWrites objects = .ok next := by
  rw [applyWrites, bind_eq_ok]

theorem applyWrites_append :
    store.applyWrites (objects ++ more) =
      (store.applyWrites objects >>= fun middle => middle.applyWrites more) := by
  induction objects generalizing store with
  | nil => rfl
  | cons object objects ih =>
      rw [List.cons_append, applyWrites, applyWrites]
      cases store.applyWrite object with
      | error panic => rfl
      | ok middle => exact ih

/-- The frame of a list of writes: other ids keep their latest version and
other entries keep their object. -/
theorem applyWrites_frame {id : ObjectId} (applied : store.applyWrites objects = .ok next)
    (other : ∀ object ∈ objects, object.id ≠ id) :
    next.latest id = store.latest id ∧ ∀ version, next.objects (id, version) = store.objects (id, version) := by
  induction objects generalizing store with
  | nil => cases applied; simp
  | cons object objects ih =>
      obtain ⟨middle, head, tail⟩ := applyWrites_cons_ok.mp applied
      obtain ⟨-, rfl⟩ := applyWrite_eq_ok.mp head
      obtain ⟨latest, entries⟩ := ih tail (fun later member => other later (by simp [member]))
      have different := other object (by simp)
      refine ⟨latest.trans (Function.update_of_ne different.symm _ _), fun version => ?_⟩
      refine (entries version).trans (Function.update_of_ne ?_ _ _)
      intro same
      exact different (congrArg Prod.fst same).symm

end Writes

/-! ## The representation invariant -/

/-- Every id with a latest version has an object there, stored under its own
id and version. -/
def WellFormed (store : InMemoryStore) : Prop :=
  ∀ id version, store.latest id = some version →
    ∃ object, store.objects (id, version) = some object ∧ object.id = id ∧ object.version = version

theorem default_wellFormed : default.WellFormed := by
  intro id version written
  cases written

section WellFormed

variable {store next : InMemoryStore} {id : ObjectId}

theorem WellFormed.view_latest (wellFormed : store.WellFormed) {version : Version}
    (written : store.latest id = some version) :
    ∃ object, store.view.latest id = some object ∧ object.version = version := by
  obtain ⟨object, stored, -, same⟩ := wellFormed id version written
  exact ⟨object, by simp only [view, written, stored], same⟩

theorem WellFormed.latest_eq_none (wellFormed : store.WellFormed) :
    store.view.latest id = none ↔ store.latest id = none := by
  cases written : store.latest id with
  | none => simp [view, written]
  | some version =>
      obtain ⟨object, found, -⟩ := wellFormed.view_latest written
      simp [found]

theorem WellFormed.latest_of_view (wellFormed : store.WellFormed) {object : Object}
    (found : store.view.latest id = some object) :
    store.latest id = some object.version := by
  cases written : store.latest id with
  | none =>
      rw [wellFormed.latest_eq_none.mpr written] at found
      cases found
  | some version =>
      obtain ⟨other, same, version_eq⟩ := wellFormed.view_latest written
      rw [found] at same
      rw [Option.some.inj same, version_eq]

variable [Hasher] {object : Object} {objects : List Object}

theorem applyWrite_wellFormed (wellFormed : store.WellFormed)
    (applied : store.applyWrite object = .ok next) : next.WellFormed := by
  obtain ⟨-, rfl⟩ := applyWrite_eq_ok.mp applied
  intro id version written
  dsimp only at written ⊢
  by_cases same : id = object.id
  · subst id
    rw [Function.update_self] at written
    cases written
    exact ⟨object, Function.update_self _ _ _, rfl, rfl⟩
  · rw [Function.update_of_ne same] at written
    rw [Function.update_of_ne (fun equal => same (congrArg Prod.fst equal))]
    exact wellFormed id version written

theorem applyWrites_wellFormed (wellFormed : store.WellFormed)
    (applied : store.applyWrites objects = .ok next) : next.WellFormed := by
  induction objects generalizing store with
  | nil => cases applied; exact wellFormed
  | cons object objects ih =>
      obtain ⟨middle, head, tail⟩ := applyWrites_cons_ok.mp applied
      exact ih (applyWrite_wellFormed wellFormed head) tail

end WellFormed

end InMemoryStore

end BlockchainValidator.Execution
