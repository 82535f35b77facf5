import BlockchainValidator.Checkpoint.Certifier

/-! # Stake is backed by distinct members

Whatever is pushed and voted for, each accumulator holds the stake of distinct
members of the committee, so a member's vote is never a panic.
-/

namespace BlockchainValidator

open Execution Run

section

variable [Dag]

namespace CheckpointAccumulator

def Backed (committee : Committee) (accumulator : CheckpointAccumulator) : Prop :=
  ∃ voters : List Authority, voters.Nodup ∧ (∀ voter ∈ voters, voter ∈ committee.members) ∧
    (∀ voter, voter ∈ Dag.present accumulator.votes ↔ voter ∈ voters) ∧
    accumulator.stake.toNat = committee.stakeOf voters

variable {committee : Committee} {accumulator : CheckpointAccumulator}

theorem new_backed (committee : Committee) (threshold : UInt64) :
    (new threshold).Backed committee := by
  refine ⟨[], .nil, by simp, fun voter => ?_, rfl⟩
  change voter ∈ Dag.present Dag.noAuthorities ↔ _
  rw [Dag.present_noAuthorities]

theorem clear_backed (committee : Committee) (accumulator : CheckpointAccumulator) :
    accumulator.clear.2.Backed committee := by
  refine ⟨[], .nil, by simp, fun voter => ?_, rfl⟩
  change voter ∈ Dag.present (Dag.clear accumulator.votes) ↔ _
  rw [Dag.present_clear]

theorem add_backed [BuildProfile] {vote : Authority} (backed : accumulator.Backed committee)
    (member : vote ∈ committee.members) (subdag : BlockReference) :
    ∃ reached next, accumulator.add vote committee subdag = .ok (reached, next) ∧
      next.Backed committee := by
  obtain ⟨voters, distinct, members, present, stake⟩ := backed
  have inserted := Dag.insert_absent accumulator.votes vote
  have after (voter : Authority) : voter ∈ Dag.present (Dag.insert accumulator.votes vote).2 ↔
      voter = vote ∨ voter ∈ voters := by
    rw [Dag.mem_present_insert, present]
  unfold add
  rw [Committee.getStake, if_pos member]
  by_cases counted : vote ∈ voters
  · have absent : (Dag.insert accumulator.votes vote).1 = false := by
      rw [inserted]
      exact decide_eq_false (not_not_intro ((present vote).mpr counted))
    simp only [absent, Bool.false_eq_true, if_false]
    refine ⟨_, _, rfl, voters, distinct, members, fun voter => (after voter).trans ?_, stake⟩
    exact or_iff_right_of_imp (fun same => same ▸ counted)
  · have fresh : (Dag.insert accumulator.votes vote).1 = true := by
      rw [inserted]
      exact decide_eq_true (fun found => counted ((present vote).mp found))
    have grown : (voters ++ [vote]).Nodup := List.nodup_append.mpr ⟨distinct, by simp, by
      intro earlier voted later same equal
      rw [List.mem_singleton.mp same] at equal
      exact counted (equal ▸ voted)⟩
    have allMembers : ∀ voter ∈ voters ++ [vote], voter ∈ committee.members := by
      intro voter listed
      rcases List.mem_append.mp listed with listed | listed
      · exact members voter listed
      · rw [List.mem_singleton.mp listed]
        exact member
    have bound := committee.stakeOf_lt grown allMembers
    rw [Committee.stakeOf_append, Committee.stakeOf_singleton, ← stake] at bound
    simp only [fresh, if_true, addU64_of_lt bound, bind_ok]
    refine ⟨_, _, rfl, voters ++ [vote], grown, allMembers, fun voter => (after voter).trans ?_, ?_⟩
    · rw [List.mem_append, List.mem_singleton]
      exact or_comm
    · rw [toNat_add_of_lt bound, stake, Committee.stakeOf_append, Committee.stakeOf_singleton]

end CheckpointAccumulator

namespace PendingCheckpoint

def Backed (committee : Committee) (entry : PendingCheckpoint) : Prop :=
  ∀ slot ∈ entry.accumulators, slot.2.Backed committee

theorem tally_backed [BuildProfile] {committee : Committee} {entry : PendingCheckpoint}
    {author : Authority} (quorum : UInt64) (subdag : BlockReference) (checkpoint : Checkpoint)
    (backed : entry.Backed committee) (member : author ∈ committee.members) :
    ∃ formed next, entry.tally committee quorum subdag author checkpoint = .ok (formed, next) ∧
      next.Backed committee := by
  unfold tally
  split
  · exact ⟨none, entry, rfl, backed⟩
  · split
    · exact ⟨none, entry, rfl, backed⟩
    · rename_i target _
      have slots : ∀ held ∈ (slot quorum checkpoint.commitment entry.accumulators target).2,
          held.2.Backed committee := by
        cases target with
        | some index => exact backed
        | none =>
            intro held listed
            rcases List.mem_append.mp listed with listed | listed
            · exact backed held listed
            · rw [List.mem_singleton.mp listed]
              exact CheckpointAccumulator.new_backed committee quorum
      generalize slot quorum checkpoint.commitment entry.accumulators target = slotted at slots
      obtain ⟨index, accumulators⟩ := slotted
      dsimp only
      split
      · exact ⟨none, _, rfl, slots⟩
      · rename_i attested accumulator found
        obtain ⟨reached, next, added, kept⟩ := CheckpointAccumulator.add_backed
          (slots _ (List.mem_of_getElem? found)) member subdag
        have replaced (changed : CheckpointAccumulator) (held : changed.Backed committee) :
            ∀ slot ∈ accumulators.set index (attested, changed), slot.2.Backed committee := by
          intro slot listed
          rcases List.mem_or_eq_of_mem_set listed with listed | rfl
          · exact slots slot listed
          · exact held
        simp only [added, bind_ok]
        cases reached with
        | true =>
            exact ⟨_, _, rfl, replaced _ (CheckpointAccumulator.clear_backed committee next)⟩
        | false => exact ⟨_, _, rfl, replaced next kept⟩

end PendingCheckpoint

namespace CheckpointCertifier

def Backed (certifier : CheckpointCertifier) : Prop :=
  ∀ entry ∈ certifier.window, entry.Backed certifier.committee

theorem new_backed (committee : Committee) (quorum : UInt64) : (new committee quorum).Backed :=
  fun _ listed => by cases listed

variable {certifier : CheckpointCertifier}

theorem push_backed (backed : certifier.Backed) (anchor : BlockReference) (commitment : Digest)
    (timings : CheckpointTimings) : (certifier.push anchor commitment timings).2.Backed := by
  intro entry listed
  rcases List.mem_append.mp listed with listed | listed
  · exact backed entry listed
  · rw [List.mem_singleton.mp listed]
    exact fun _ none => by cases none

theorem tally_backed [BuildProfile] {author : Authority} (subdag : BlockReference)
    (checkpoint : Checkpoint) (backed : certifier.Backed)
    (member : author ∈ certifier.committee.members) :
    ∃ formed next, certifier.tally subdag author checkpoint = .ok (formed, next) ∧
      next.Backed ∧ next.committee = certifier.committee := by
  unfold tally
  split
  · exact ⟨none, certifier, rfl, backed, rfl⟩
  · split
    · exact ⟨none, certifier, rfl, backed, rfl⟩
    · rename_i index _ _ entry found
      obtain ⟨formed, next, tallied, kept⟩ := PendingCheckpoint.tally_backed certifier.quorum subdag
        checkpoint (backed entry (List.mem_of_getElem? found)) member
      have replaced : ∀ entry ∈ certifier.window.set index next,
          entry.Backed certifier.committee := by
        intro entry listed
        rcases List.mem_or_eq_of_mem_set listed with listed | rfl
        · exact backed entry listed
        · exact kept
      simp only [tallied, bind_ok]
      cases formed with
      | none => exact ⟨_, _, rfl, replaced, rfl⟩
      | some formed =>
          exact ⟨_, _, rfl, fun entry listed =>
            replaced entry ((advance_suffix _ _).subset listed), rfl⟩

end CheckpointCertifier

end

end BlockchainValidator
