import BlockchainValidator.Execution.Store

/-! # Execution engines and the fake engine -/

namespace BlockchainValidator.Execution

open Codec Run

/-- A stateless engine: a function of the view and the transaction.  The error
is a panic inside the engine. -/
structure ExecutionEngine where
  execute : StateView → Transaction → Except Panic ExecutionOutput

/-- An engine that aborts every transaction. -/
def abortingEngine : ExecutionEngine := ⟨fun _ _ => .ok (.aborted .explicitAbort)⟩

inductive FakeFunctionId where
  | success
  | abort
deriving DecidableEq, Repr

namespace FakeFunctionId

def successId : FunctionId := .new 0

def abortId : FunctionId := .new 1

def id : FakeFunctionId → FunctionId
  | .success => successId
  | .abort => abortId

def resolve (transaction : Transaction) : Option FakeFunctionId :=
  if transaction.function = successId then some .success
  else if transaction.function = abortId then some .abort
  else none

end FakeFunctionId

/-- A successful call; the engine ignores the arguments, which act as padding. -/
def FakeTransaction.successWithArgs (readOnly writeOnly readWrite : List ObjectId) (args : Vec UInt8)
    (fits : readOnly.length + writeOnly.length + readWrite.length < 2 ^ 64) : Transaction where
  function := FakeFunctionId.success.id
  inputs := ⟨readOnly.map (·, .readOnly) ++ writeOnly.map (·, .writeOnly) ++
    readWrite.map (·, .readWrite), by simpa [Nat.add_assoc] using fits⟩
  args := args

def FakeTransaction.success (readOnly writeOnly readWrite : List ObjectId)
    (fits : readOnly.length + writeOnly.length + readWrite.length < 2 ^ 64) : Transaction :=
  successWithArgs readOnly writeOnly readWrite .nil fits

def FakeTransaction.abort : Transaction := ⟨FakeFunctionId.abort.id, .nil, .nil⟩

theorem FakeTransaction.one_fits (id : ObjectId) :
    ([] : List ObjectId).length + [id].length + ([] : List ObjectId).length < 2 ^ 64 := by
  simp

/-- A call that creates one object. -/
def FakeTransaction.creation (id : ObjectId) : Transaction := success [] [id] [] (one_fits id)

namespace FakeExecutor

/-- `b"fake"`: the contents of every created object. -/
def newObjectContent : List UInt8 := [102, 97, 107, 101]

/-- The `filter_map` over the inputs of a successful call. -/
def writes (view : StateView) (version : Version) :
    List (ObjectId × AccessMode) → Except Panic (List Object)
  | [] => .ok []
  | (id, mode) :: inputs =>
      match mode with
      | .writeOnly => do
          let objects ← writes view version inputs
          .ok (⟨id, version, newObjectContent⟩ :: objects)
      | .readWrite =>
          match view.latest id with
          | none => .error .checkedByNextVersion
          | some object => do
              let objects ← writes view version inputs
              .ok (⟨id, version, object.contents⟩ :: objects)
      | .readOnly => writes view version inputs

def execute (view : StateView) (transaction : Transaction) : Except Panic ExecutionOutput :=
  match FakeFunctionId.resolve transaction with
  | none => .ok (.aborted .unknownFunction)
  | some .abort => .ok (.aborted .explicitAbort)
  | some .success => do
      match ← transaction.nextVersion view with
      | none => .ok (.aborted .missingRead)
      | some version => do
          let objects ← writes view version transaction.inputs.val
          .ok (.success objects)

end FakeExecutor

def fakeExecutor : ExecutionEngine := ⟨FakeExecutor.execute⟩

namespace FakeExecutor

def written (view : StateView) (version : Version) (input : ObjectId × AccessMode) : Option Object :=
  match input.2 with
  | .writeOnly => some ⟨input.1, version, newObjectContent⟩
  | .readWrite => (view.latest input.1).map fun object => ⟨input.1, version, object.contents⟩
  | .readOnly => none

variable {view other : StateView} {version : Version} {inputs : List (ObjectId × AccessMode)}
  {transaction : Transaction} {input : ObjectId × AccessMode} {object : Object}

theorem written_id (found : written view version input = some object) :
    object.id = input.1 ∧ object.version = version ∧ input.2.writes = true := by
  obtain ⟨id, mode⟩ := input
  cases mode with
  | readOnly => cases found
  | writeOnly => cases found; simp [AccessMode.writes]
  | readWrite =>
      obtain ⟨previous, -, rfl⟩ := Option.map_eq_some_iff.mp found
      simp [AccessMode.writes]

/-- The `expect` of the fake engine never fires on inputs whose reads exist. -/
theorem writes_eq (exist : ∀ input ∈ inputs, input.2.reads = true → view.latest input.1 ≠ none) :
    writes view version inputs = .ok (inputs.filterMap (written view version)) := by
  induction inputs with
  | nil => rfl
  | cons input inputs ih =>
      obtain ⟨id, mode⟩ := input
      have tail := ih (fun later member => exist later (by simp [member]))
      cases mode with
      | readOnly => simp [writes, tail, written, List.filterMap_cons]
      | writeOnly => simp [writes, tail, written]
      | readWrite =>
          obtain ⟨object, found⟩ := Option.ne_none_iff_exists'.mp (exist (id, .readWrite) (by simp) rfl)
          simp [writes, tail, written, found]

/-- All that one call can do: abort, panic on the version, or write every
`WriteOnly` and `ReadWrite` input at one version. -/
theorem execute_eq :
    execute view transaction =
      match FakeFunctionId.resolve transaction with
      | none => .ok (.aborted .unknownFunction)
      | some .abort => .ok (.aborted .explicitAbort)
      | some .success =>
          match transaction.nextVersion view with
          | .error panic => .error panic
          | .ok none => .ok (.aborted .missingRead)
          | .ok (some version) =>
              .ok (.success (transaction.inputs.val.filterMap (written view version))) := by
  unfold execute
  split
  · rfl
  · rfl
  · cases next : transaction.nextVersion view with
    | error panic => rfl
    | ok version =>
        cases version with
        | none => rfl
        | some version =>
            have exist : ∀ input ∈ transaction.inputs.val, input.2.reads = true →
                view.latest input.1 ≠ none := by
              intro input member reads missing
              have absent := Transaction.nextVersion_eq_none.mpr ⟨input, member, reads, missing⟩
              rw [next] at absent
              cases absent
            simp only [bind_ok, writes_eq exist]

theorem execute_congr
    (agree : ∀ input ∈ transaction.inputs.val, input.2.reads = true →
      view.latest input.1 = other.latest input.1) :
    execute view transaction = execute other transaction := by
  have same (version : Version) : transaction.inputs.val.filterMap (written view version) =
      transaction.inputs.val.filterMap (written other version) := by
    apply List.filterMap_congr
    intro input member
    obtain ⟨id, mode⟩ := input
    cases mode with
    | readOnly | writeOnly => rfl
    | readWrite =>
        have equal := agree _ member rfl
        dsimp only at equal
        simp only [written, equal]
  rw [execute_eq, execute_eq, Transaction.nextVersion_congr agree]
  simp only [same]

/-! ## Reaching the writes -/

/-- The transaction passes every check of the fake engine and writes at `version`. -/
structure ReachesWrites (store : InMemoryStore) (transaction : Transaction) (version : Version) :
    Prop where
  verified : transaction.verify = true
  resolved : FakeFunctionId.resolve transaction = some .success
  next : transaction.nextVersion store.view = .ok (some version)

def writtenObjects (store : InMemoryStore) (transaction : Transaction) (version : Version) :
    List Object :=
  transaction.inputs.val.filterMap (written store.view version)

theorem writtenObjects_mem {store : InMemoryStore}
    (member : object ∈ writtenObjects store transaction version) :
    object.version = version ∧
      ∃ input ∈ transaction.inputs.val, input.1 = object.id ∧ input.2.writes = true := by
  obtain ⟨input, declared, found⟩ := List.mem_filterMap.mp member
  obtain ⟨id_eq, version_eq, writes⟩ := written_id found
  exact ⟨version_eq, input, declared, id_eq.symm, writes⟩

theorem writtenObjects_nodup {store : InMemoryStore}
    (verified : transaction.verify = true) :
    ((writtenObjects store transaction version).map Object.id).Nodup := by
  have unique := Transaction.verify_iff.mp verified
  have ids : (writtenObjects store transaction version).map Object.id =
      transaction.inputs.val.filterMap (fun input =>
        (written store.view version input).map fun _ => input.1) := by
    rw [writtenObjects, List.map_filterMap]
    apply List.filterMap_congr
    intro input member
    cases found : written store.view version input with
    | none => rfl
    | some object => simp [(written_id found).1]
  rw [ids]
  refine List.Sublist.nodup ?_ unique
  induction transaction.inputs.val with
  | nil => exact .refl _
  | cons input inputs ih =>
      rw [List.filterMap_cons, List.map_cons]
      cases written store.view version input with
      | none => exact .cons _ ih
      | some object => exact .cons_cons _ ih

end FakeExecutor

end BlockchainValidator.Execution
