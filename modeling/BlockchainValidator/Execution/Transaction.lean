import BlockchainValidator.Execution.Object
import BlockchainValidator.Library.Codec

/-! # Client transactions -/

namespace BlockchainValidator.Execution

open Bytes Codec Run

structure FunctionId where
  bytes : List.Vector UInt8 32
deriving DecidableEq

def FunctionId.new (value : UInt64) : FunctionId := ⟨key32 value⟩

inductive AccessMode where
  | readOnly
  | writeOnly
  | readWrite
deriving DecidableEq, Repr

structure StateView where
  latest : ObjectId → Option Object

structure Transaction where
  function : FunctionId
  inputs : Vec (ObjectId × AccessMode)
  args : Vec UInt8
deriving DecidableEq

namespace AccessMode

def reads : AccessMode → Bool
  | .readOnly | .readWrite => true
  | .writeOnly => false

def writes : AccessMode → Bool
  | .writeOnly | .readWrite => true
  | .readOnly => false

end AccessMode

namespace Transaction

def verify (transaction : Transaction) : Bool :=
  transaction.inputs.val.zipIdx.all fun (input, index) =>
    !(transaction.inputs.val.take index).any fun prior => prior.1 = input.1

/-- The loop of `next_version`: the highest version among the existing inputs,
`none` as soon as a read input does not exist. -/
def highestInput (view : StateView) : Version → List (ObjectId × AccessMode) → Option Version
  | highest, [] => some highest
  | highest, (id, mode) :: inputs =>
      match mode with
      | .readOnly | .readWrite =>
          match view.latest id with
          | none => none
          | some object => highestInput view (highest.max object.version) inputs
      | .writeOnly => highestInput view highest inputs

def nextVersion (transaction : Transaction) (view : StateView) : Except Panic (Option Version) :=
  match highestInput view .zero transaction.inputs.val with
  | none => .ok none
  | some highest => do
      let version ← highest.next
      .ok (some version)

/-! ## Static verification -/

theorem verify_iff {transaction : Transaction} :
    transaction.verify = true ↔ (transaction.inputs.val.map Prod.fst).Nodup := by
  rw [List.Nodup, List.pairwise_map, List.pairwise_iff_getElem]
  simp only [verify, List.all_eq_true, Bool.not_eq_true', List.any_eq_false, decide_eq_true_eq,
    Prod.forall]
  constructor
  · intro unique earlier later earlierBound laterBound before
    have entry : (transaction.inputs.val[later], later) ∈ transaction.inputs.val.zipIdx :=
      List.mem_zipIdx_iff_getElem?.mpr (List.getElem?_eq_getElem laterBound)
    have taken : transaction.inputs.val[earlier] ∈ transaction.inputs.val.take later :=
      List.mem_take_iff_getElem.mpr ⟨earlier, by omega, rfl⟩
    exact unique _ _ later entry _ _ taken
  · intro unique id mode index entry priorId priorMode taken same
    obtain ⟨bound, found⟩ := List.getElem?_eq_some_iff.mp (List.mem_zipIdx_iff_getElem?.mp entry)
    obtain ⟨earlier, before, priorFound⟩ := List.mem_take_iff_getElem.mp taken
    have distinct := unique earlier index (by omega) bound (by omega)
    rw [found, priorFound] at distinct
    exact distinct same

/-! ## Versions -/

section HighestInput

variable {view other : StateView} {highest found : Version} {inputs : List (ObjectId × AccessMode)}

theorem highestInput_congr
    (agree : ∀ input ∈ inputs, input.2.reads = true → view.latest input.1 = other.latest input.1) :
    highestInput view highest inputs = highestInput other highest inputs := by
  induction inputs generalizing highest with
  | nil => rfl
  | cons input inputs ih =>
      obtain ⟨id, mode⟩ := input
      have tail {start : Version} :
          highestInput view start inputs = highestInput other start inputs :=
        ih (fun later member => agree later (by simp [member]))
      have head := agree (id, mode) (by simp)
      cases mode with
      | writeOnly => exact tail
      | readOnly | readWrite =>
          rw [highestInput, highestInput, head rfl]
          cases other.latest id with
          | none => rfl
          | some object => exact tail

theorem highestInput_eq_none :
    highestInput view highest inputs = none ↔
      ∃ input ∈ inputs, input.2.reads = true ∧ view.latest input.1 = none := by
  induction inputs generalizing highest with
  | nil => simp [highestInput]
  | cons input inputs ih =>
      obtain ⟨id, mode⟩ := input
      cases mode with
      | writeOnly => simp [highestInput, ih, AccessMode.reads]
      | readOnly | readWrite =>
          cases missing : view.latest id with
          | none => simp [highestInput, missing, AccessMode.reads]
          | some object => simp [highestInput, missing, ih, AccessMode.reads]

theorem highestInput_bounds (result : highestInput view highest inputs = some found) :
    highest.toNat ≤ found.toNat ∧
      (∀ input ∈ inputs, input.2.reads = true →
        ∃ object, view.latest input.1 = some object ∧ object.version.toNat ≤ found.toNat) ∧
      (found = highest ∨ ∃ input ∈ inputs, input.2.reads = true ∧
        ∃ object, view.latest input.1 = some object ∧ object.version = found) := by
  induction inputs generalizing highest with
  | nil =>
      cases result
      simp
  | cons input inputs ih =>
      obtain ⟨id, mode⟩ := input
      cases mode with
      | writeOnly =>
          obtain ⟨above, bounded, attained⟩ := ih result
          refine ⟨above, ?_, ?_⟩
          · intro input member
            rcases List.mem_cons.mp member with rfl | member
            · simp [AccessMode.reads]
            · exact bounded input member
          · exact attained.imp_right (fun ⟨input, member, rest⟩ => ⟨input, by simp [member], rest⟩)
      | readOnly | readWrite =>
          cases exists_ : view.latest id with
          | none => simp [highestInput, exists_] at result
          | some object =>
              simp only [highestInput, exists_] at result
              obtain ⟨above, bounded, attained⟩ := ih result
              rw [Version.toNat_max] at above
              refine ⟨by omega, ?_, ?_⟩
              · intro input member reads
                rcases List.mem_cons.mp member with rfl | member
                · exact ⟨object, exists_, by omega⟩
                · exact bounded input member reads
              · rcases attained with rfl | ⟨input, member, rest⟩
                · unfold Version.max
                  split
                  · exact .inl rfl
                  · exact .inr ⟨_, List.mem_cons_self, rfl, object, exists_, rfl⟩
                · exact .inr ⟨input, by simp [member], rest⟩

end HighestInput

variable {transaction : Transaction} {view other : StateView} {version : Version}

theorem nextVersion_congr
    (agree : ∀ input ∈ transaction.inputs.val, input.2.reads = true →
      view.latest input.1 = other.latest input.1) :
    transaction.nextVersion view = transaction.nextVersion other := by
  rw [nextVersion, nextVersion, highestInput_congr agree]

theorem nextVersion_eq_none :
    transaction.nextVersion view = .ok none ↔
      ∃ input ∈ transaction.inputs.val, input.2.reads = true ∧ view.latest input.1 = none := by
  rw [nextVersion, ← @highestInput_eq_none _ Version.zero]
  cases highestInput view .zero transaction.inputs.val with
  | none => simp
  | some highest => simp [bind_eq_ok]

theorem nextVersion_eq_some :
    transaction.nextVersion view = .ok (some version) ↔
      ∃ highest, highestInput view .zero transaction.inputs.val = some highest ∧
        version.toNat = highest.toNat + 1 := by
  rw [nextVersion]
  cases highestInput view .zero transaction.inputs.val with
  | none => simp
  | some highest => simp [bind_eq_ok, Version.next_eq_ok]

end Transaction

end BlockchainValidator.Execution
