import BlockchainValidator.Execution.Store
import BlockchainValidator.Library.HashChain

/-! # The state commitment binds the write history -/

namespace BlockchainValidator.Execution

open Bytes Run HashChain

namespace InMemoryStore

/-- The frame of one write determines the previous digest and the object: only
its last element varies in length. -/
theorem preimage_injective {previous previous' : Digest} {object object' : Object}
    (same : preimage previous object = preimage previous' object') :
    previous = previous' ∧ object = object' := by
  obtain ⟨⟨previous⟩⟩ := previous
  obtain ⟨⟨previous'⟩⟩ := previous'
  obtain ⟨⟨⟨id⟩⟩, ⟨version⟩, contents⟩ := object
  obtain ⟨⟨⟨id'⟩⟩, ⟨version'⟩, contents'⟩ := object'
  simp only [preimage, Version.asU64, List.Vector.toList] at same
  obtain ⟨header, tail⟩ := List.append_inj same (by simp [*])
  obtain ⟨keys, versions⟩ := List.append_inj header (by simp [*])
  obtain ⟨digests, ids⟩ := List.append_inj keys (by simp [*])
  have version_eq := u64BeBytes_injective versions
  subst digests ids version_eq tail
  exact ⟨rfl, rfl⟩

section

variable [Hasher] {store next : InMemoryStore} {objects : List Object}

theorem applyWrites_commitment (applied : store.applyWrites objects = .ok next) :
    next.commitment = rolling Hasher.finalize preimage store.commitment objects := by
  induction objects generalizing store with
  | nil => cases applied; rfl
  | cons object objects ih =>
      obtain ⟨middle, head, tail⟩ := applyWrites_cons_ok.mp applied
      obtain ⟨-, rfl⟩ := applyWrite_eq_ok.mp head
      exact ih tail

def applyAll (store : InMemoryStore) (outputs : List ExecutionOutput) :
    Except Panic InMemoryStore :=
  outputs.foldlM InMemoryStore.apply store

def history (outputs : List ExecutionOutput) : List Object := outputs.flatMap ExecutionOutput.writes

/-- How the writes are grouped into outputs does not matter. -/
theorem applyAll_eq (outputs : List ExecutionOutput) :
    store.applyAll outputs = store.applyWrites (history outputs) := by
  unfold applyAll
  induction outputs generalizing store with
  | nil => rfl
  | cons output outputs ih =>
      rw [List.foldlM_cons, history, List.flatMap_cons, applyWrites_append]
      exact bind_congr (fun middle => ih)

/-- The byte strings hashed while `outputs` are applied to the default store. -/
def hashedBy (outputs : List ExecutionOutput) : List (List UInt8) :=
  hashed Hasher.finalize preimage .default (history outputs)

end

theorem commitment_binds_history [Hasher] {left right : List ExecutionOutput}
    {leftStore rightStore : InMemoryStore}
    (collisionFree : Set.InjOn Hasher.finalize
      {bytes | bytes ∈ hashedBy left ∨ bytes ∈ hashedBy right})
    (nonzero : ∀ bytes, bytes ∈ hashedBy left ∨ bytes ∈ hashedBy right →
      Hasher.finalize bytes ≠ .default)
    (leftApplied : default.applyAll left = .ok leftStore)
    (rightApplied : default.applyAll right = .ok rightStore) :
    (leftStore.commitment = rightStore.commitment ↔ history left = history right) ∧
      (leftStore.commitment = rightStore.commitment → leftStore = rightStore) ∧
      ((history left).length ≠ (history right).length →
        leftStore.commitment ≠ rightStore.commitment) ∧
      (history left ≠ history right → (history left).Perm (history right) →
        leftStore.commitment ≠ rightStore.commitment) ∧
      (history left ≠ history right →
        (history left).flatMap Object.contents = (history right).flatMap Object.contents →
        leftStore.commitment ≠ rightStore.commitment) := by
  rw [applyAll_eq] at leftApplied rightApplied
  have leftDigest := applyWrites_commitment leftApplied
  have rightDigest := applyWrites_commitment rightApplied
  have binds : leftStore.commitment = rightStore.commitment ↔ history left = history right := by
    constructor
    · intro same
      rw [leftDigest, rightDigest] at same
      exact rolling_injective preimage_injective collisionFree nonzero same
    · intro same
      rw [leftDigest, rightDigest, same]
  refine ⟨binds, fun same => ?_, fun lengths same => ?_, fun differ _ same => ?_,
    fun differ _ same => ?_⟩
  · rw [binds.mp same, rightApplied] at leftApplied
    exact (Except.ok.inj leftApplied).symm
  · exact lengths (congrArg List.length (binds.mp same))
  · exact differ (binds.mp same)
  · exact differ (binds.mp same)

section

private def forward : List ExecutionOutput :=
  [.success [⟨.new 1, ⟨1⟩, [1, 2, 3]⟩], .success [⟨.new 2, ⟨7⟩, []⟩]]

private def reverse : List ExecutionOutput :=
  [.success [⟨.new 2, ⟨7⟩, []⟩, ⟨.new 1, ⟨1⟩, [1, 2, 3]⟩]]

theorem commitments_are_order_sensitive :
    ∃ forwardStore reverseStore, @applyAll blake2b default forward = .ok forwardStore ∧
      @applyAll blake2b default reverse = .ok reverseStore ∧
      forwardStore.commitment ≠ reverseStore.commitment := by
  let _ := blake2b
  obtain ⟨forwardStore, forwardApplied⟩ : ∃ store, default.applyAll forward = .ok store := ⟨_, rfl⟩
  obtain ⟨reverseStore, reverseApplied⟩ : ∃ store, default.applyAll reverse = .ok store := ⟨_, rfl⟩
  have collisionFree : ∀ bytes ∈ hashedBy forward ++ hashedBy reverse,
      ∀ other ∈ hashedBy forward ++ hashedBy reverse,
        Hasher.finalize bytes = Hasher.finalize other → bytes = other := by decide +kernel
  have nonzero : ∀ bytes ∈ hashedBy forward ++ hashedBy reverse,
      Hasher.finalize bytes ≠ .default := by decide +kernel
  simp only [List.mem_append] at collisionFree nonzero
  exact ⟨forwardStore, reverseStore, forwardApplied, reverseApplied,
    (commitment_binds_history
      (fun bytes hashed other hashedToo => collisionFree bytes hashed other hashedToo)
      nonzero forwardApplied reverseApplied).2.2.2.1 (by decide) (by decide)⟩

/-- The digest pinned across releases. -/
example :
    (@applyAll blake2b default forward).toOption.map (·.commitment.bytes.toList) =
      some [0xbc, 0x3d, 0x1e, 0x39, 0xe9, 0x03, 0x74, 0xf8, 0x82, 0xe0, 0xc4, 0xec, 0xc1, 0xb5,
        0xf7, 0xf3, 0xed, 0x46, 0x38, 0xad, 0x3e, 0xea, 0xa1, 0x65, 0xfd, 0x86, 0xa7, 0x68, 0xec,
        0x52, 0x24, 0xdf] := by
  decide +kernel

end

end InMemoryStore

end BlockchainValidator.Execution
