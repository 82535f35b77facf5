import BlockchainValidator.Library.Codec
import Mathlib.Algebra.BigOperators.Group.Finset.Basic
import Mathlib.Algebra.Order.BigOperators.Group.Finset

/-! # The upstream consensus, as far as validators rely on it

The consensus crate lives in another repository.  What the validator uses of it
is a parameter: its opaque types, the operations called on them and the
behaviour those calls rely on.
-/

namespace BlockchainValidator

open Codec

class Dag where
  Authority : Type
  BlockReference : Type
  AuthoritySet : Type
  Block : Type
  [authorityEq : DecidableEq Authority]
  [referenceEq : DecidableEq BlockReference]
  round : BlockReference → UInt64
  /-- `AuthoritySet::default`. -/
  noAuthorities : AuthoritySet
  /-- `AuthoritySet::insert`: whether the authority was absent, and the set with it. -/
  insert : AuthoritySet → Authority → Bool × AuthoritySet
  present : AuthoritySet → List Authority
  clear : AuthoritySet → AuthoritySet
  present_noAuthorities : present noAuthorities = []
  insert_absent : ∀ set authority, (insert set authority).1 = decide (authority ∉ present set)
  mem_present_insert : ∀ set authority other,
    other ∈ present (insert set authority).2 ↔ other = authority ∨ other ∈ present set
  present_clear : ∀ set, present (clear set) = []
  author : Block → Authority
  transactions : Block → List (List UInt8)
  /-- `CommittedSubDag::sort`: the canonical order of the blocks. -/
  sort : List Block → List Block
  sort_perm : ∀ blocks, (sort blocks).Perm blocks
  referenceCodec : FixedCodec BlockReference

attribute [reducible, instance] Dag.authorityEq Dag.referenceEq

/-- A plain instance: authorities are numbers, a reference is an authority and a
round, and blocks come in canonical order. -/
@[reducible] def plainDag : Dag where
  Authority := UInt64
  BlockReference := UInt64 × UInt64
  AuthoritySet := List UInt64
  Block := UInt64 × List (List UInt8)
  round reference := reference.2
  noAuthorities := []
  insert set authority := if authority ∈ set then (false, set) else (true, set ++ [authority])
  present set := set
  clear _ := []
  present_noAuthorities := rfl
  insert_absent set authority := by by_cases member : authority ∈ set <;> simp [member]
  mem_present_insert set authority other := by
    by_cases member : authority ∈ set
    · simp only [member, if_true]
      exact ⟨.inr, fun same => same.elim (fun same => same ▸ member) id⟩
    · simp [member, or_comm]
  present_clear _ := rfl
  author block := block.1
  transactions block := block.2
  sort blocks := blocks
  sort_perm := .refl
  referenceCodec := u64.pair u64

export Dag (Authority BlockReference AuthoritySet Block)

instance [Dag] : LawfulBEq Authority := inferInstance

section

variable [Dag]

structure CommittedSubDag where
  anchor : BlockReference
  blocks : List Block

/-- A committee whose total stake fits the type of stakes. -/
structure Committee where
  members : Finset Authority
  stake : Authority → UInt64
  total_lt : ∑ member ∈ members, (stake member).toNat < 2 ^ 64

namespace Committee

def getStake (committee : Committee) (authority : Authority) : Option UInt64 :=
  if authority ∈ committee.members then some (committee.stake authority) else none

def stakeOf (committee : Committee) (voters : List Authority) : Nat :=
  (voters.map fun voter => (committee.stake voter).toNat).sum

variable {committee : Committee} {voters more : List Authority} {voter : Authority}

@[simp] theorem stakeOf_nil : committee.stakeOf [] = 0 := rfl

@[simp] theorem stakeOf_append :
    committee.stakeOf (voters ++ more) = committee.stakeOf voters + committee.stakeOf more := by
  simp [stakeOf]

@[simp] theorem stakeOf_singleton : committee.stakeOf [voter] = (committee.stake voter).toNat := by
  simp [stakeOf]

theorem stakeOf_toFinset (distinct : voters.Nodup) :
    committee.stakeOf voters = ∑ voter ∈ voters.toFinset, (committee.stake voter).toNat := by
  rw [List.sum_toFinset _ distinct]
  rfl

theorem stakeOf_le (distinct : voters.Nodup) (members : ∀ voter ∈ voters, voter ∈ committee.members) :
    committee.stakeOf voters ≤ ∑ member ∈ committee.members, (committee.stake member).toNat := by
  rw [stakeOf_toFinset distinct]
  have subset : voters.toFinset ⊆ committee.members :=
    fun voter member => members voter (List.mem_toFinset.mp member)
  exact Finset.sum_le_sum_of_subset subset

theorem stakeOf_lt (distinct : voters.Nodup) (members : ∀ voter ∈ voters, voter ∈ committee.members) :
    committee.stakeOf voters < 2 ^ 64 :=
  Nat.lt_of_le_of_lt (stakeOf_le distinct members) committee.total_lt

theorem stakeOf_subperm (fewer : voters.Subperm more) :
    committee.stakeOf voters ≤ committee.stakeOf more := by
  obtain ⟨between, same, kept⟩ := fewer
  rw [stakeOf, ← (same.map _).sum_eq]
  exact (kept.map _).sum_le_sum (by simp)

/-- Two sets of voters share the stake that they have in excess of the committee's. -/
theorem stakeOf_shared (distinct : voters.Nodup) (distinct' : more.Nodup)
    (members : ∀ voter ∈ voters, voter ∈ committee.members)
    (members' : ∀ voter ∈ more, voter ∈ committee.members) {shared : Finset Authority}
    (both : ∀ voter ∈ voters, voter ∈ more → voter ∈ shared) :
    committee.stakeOf voters + committee.stakeOf more ≤
      ∑ member ∈ committee.members, (committee.stake member).toNat +
        ∑ member ∈ shared, (committee.stake member).toNat := by
  rw [stakeOf_toFinset distinct, stakeOf_toFinset distinct', ← Finset.sum_union_inter]
  apply Nat.add_le_add
  · apply Finset.sum_le_sum_of_subset
    intro voter listed
    rcases Finset.mem_union.mp listed with listed | listed
    · exact members voter (List.mem_toFinset.mp listed)
    · exact members' voter (List.mem_toFinset.mp listed)
  · apply Finset.sum_le_sum_of_subset
    intro voter listed
    obtain ⟨first, second⟩ := Finset.mem_inter.mp listed
    exact both voter (List.mem_toFinset.mp first) (List.mem_toFinset.mp second)

/-- Voters with more stake than all members outside `honest` include an honest one. -/
theorem exists_honest {honest : Finset Authority} {quorum : Nat}
    (faulty : ∑ member ∈ committee.members \ honest, (committee.stake member).toNat < quorum)
    (distinct : voters.Nodup) (members : ∀ voter ∈ voters, voter ∈ committee.members)
    (reached : quorum ≤ committee.stakeOf voters) : ∃ voter ∈ voters, voter ∈ honest := by
  by_contra none
  push Not at none
  rw [stakeOf_toFinset distinct] at reached
  have subset : voters.toFinset ⊆ committee.members \ honest := fun voter member =>
    have listed := List.mem_toFinset.mp member
    Finset.mem_sdiff.mpr ⟨members voter listed, none voter listed⟩
  have below : ∑ voter ∈ voters.toFinset, (committee.stake voter).toNat ≤
      ∑ member ∈ committee.members \ honest, (committee.stake member).toNat :=
    Finset.sum_le_sum_of_subset subset
  omega

end Committee

end

section

attribute [local instance] plainDag

@[reducible] def plainReference (authority round : UInt64) : BlockReference := (authority, round)

def plainCommittee (size : Nat) (small : size < 2 ^ 64) : Committee where
  members := (Finset.range size).image UInt64.ofNat
  stake _ := 1
  total_lt := by
    rw [Finset.sum_const]
    have card : ((Finset.range size).image UInt64.ofNat).card ≤ size := by
      simpa using Finset.card_image_le (s := Finset.range size) (f := UInt64.ofNat)
    exact Nat.lt_of_le_of_lt (by simpa using card) small

end

end BlockchainValidator
