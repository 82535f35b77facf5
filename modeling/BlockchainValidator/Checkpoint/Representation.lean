import BlockchainValidator.Checkpoint.Refinement

/-! # What the certifier's state represents

The rules that the window, its entries and their accumulators keep, whatever is
pushed and voted for.
-/

namespace BlockchainValidator

open Execution Run MintedCheckpoint

section

variable [Dag]

namespace CheckpointAccumulator

/-- The authorities whose votes are held. -/
def voters (accumulator : CheckpointAccumulator) : Finset Authority :=
  (Dag.present accumulator.votes).toFinset

/-- The stake is that of the voters, and each of them left a delivering sub-dag. -/
structure Sums (committee : Committee) (accumulator : CheckpointAccumulator) : Prop where
  members : accumulator.voters ⊆ committee.members
  stake : accumulator.stake.toNat =
    ∑ voter ∈ accumulator.voters, (committee.stake voter).toNat
  deliveredIn : accumulator.deliveredIn.length = accumulator.voters.card

structure Emptied (accumulator : CheckpointAccumulator) : Prop where
  voters : accumulator.voters = ∅
  stake : accumulator.stake = 0
  deliveredIn : accumulator.deliveredIn = []

end CheckpointAccumulator

structure PendingCheckpoint.Represented (committee : Committee) (quorum : UInt64)
    (entry : PendingCheckpoint) : Prop where
  distinct : (entry.accumulators.map Prod.fst).Nodup
  disjoint : entry.accumulators.Pairwise fun earlier later =>
    Disjoint earlier.2.voters later.2.voters
  few : entry.accumulators.length ≤ committee.members.card
  sums : ∀ slot ∈ entry.accumulators, slot.2.Sums committee
  short : entry.certificate = none → ∀ slot ∈ entry.accumulators,
    slot.2.voters.Nonempty ∧ slot.2.stake < quorum
  winner : ∀ certificate ∈ entry.certificate,
    (∃ slot ∈ entry.accumulators, slot.1 = certificate.checkpoint.commitment) ∧
      ∀ slot ∈ entry.accumulators,
        slot.2.Emptied ↔ slot.1 = certificate.checkpoint.commitment

structure CheckpointCertifier.Represented (committee : Committee) (quorum : UInt64)
    (certifier : CheckpointCertifier) : Prop where
  ordered : certifier.window.Pairwise fun earlier later => earlier.round ≤ later.round
  aboveWatermark : ∀ certificate ∈ certifier.watermark, ∀ entry ∈ certifier.window,
    certificate.checkpoint.round ≤ entry.round
  front : ∀ entry ∈ certifier.window.head?, entry.certificate = none
  entries : ∀ entry ∈ certifier.window, entry.Represented committee quorum

/-! ## Quorums and certificates of the reference -/

/-- Without a certificate no commitment has a quorum, and a certificate is for
a commitment with a vote. -/
structure Grounded (committee : Committee) (quorum : UInt64) (minted : MintedCheckpoint) : Prop where
  short : minted.certificate = none →
    ∀ vote ∈ minted.votes, ¬ Reaches committee quorum minted.votes vote.commitment
  winner : ∀ certificate ∈ minted.certificate,
    ∃ vote ∈ minted.votes, vote.commitment = certificate.checkpoint.commitment

section

variable {committee : Committee} {quorum : UInt64} {minted : MintedCheckpoint}
  {subdag : BlockReference} {author : Authority} {checkpoint : Checkpoint}

theorem vote_grounded (grounded : Grounded committee quorum minted) :
    Grounded committee quorum (minted.vote committee quorum subdag author checkpoint).2 := by
  unfold MintedCheckpoint.vote
  split
  · exact grounded
  · rename_i counted
    rw [not_or, Bool.not_eq_true, certified, Option.isSome_eq_false_iff,
      Option.isNone_iff_eq_none] at counted
    dsimp only
    split
    · constructor
      · intro uncertified
        cases uncertified
      · intro certificate formed
        cases formed
        exact ⟨_, List.mem_append_right _ (List.mem_singleton_self _), rfl⟩
    · rename_i lacking
      constructor
      · intro _ vote voted
        by_cases same : vote.commitment = checkpoint.commitment
        · rw [same]
          exact lacking
        · rcases List.mem_append.mp voted with earlier | last
          · rw [Reaches, supporters_concat, if_neg (Ne.symm same)]
            exact grounded.short counted.1 vote earlier
          · rw [List.mem_singleton.mp last] at same
            exact absurd rfl same
      · intro certificate formed
        rw [counted.1] at formed
        cases formed

/-- Each checkpoint of the reference is grounded by its votes. -/
structure AllGrounded (committee : Committee) (quorum : UInt64) (reference : ReferenceCertifier) :
    Prop where
  committee_eq : reference.committee = committee
  quorum_eq : reference.quorum = quorum
  grounded : ∀ minted ∈ reference.minted, Grounded committee quorum minted

theorem new_grounded (committee : Committee) (quorum : UInt64) :
    AllGrounded committee quorum (.new committee quorum) where
  committee_eq := rfl
  quorum_eq := rfl
  grounded _ listed := by cases listed

theorem minted_grounded (committee : Committee) (quorum : UInt64) (local_ : Checkpoint)
    (timings : CheckpointTimings) : Grounded committee quorum ⟨local_, timings, [], none⟩ where
  short _ _ none := by cases none
  winner _ none := by cases none

theorem record_grounded {reference : ReferenceCertifier} (subdag : BlockReference)
    (author : Authority) (checkpoint : Checkpoint) (all : AllGrounded committee quorum reference) :
    AllGrounded committee quorum (reference.record subdag author checkpoint).2 := by
  obtain ⟨rfl, rfl, grounded⟩ := all
  rcases record_cases reference subdag author checkpoint with
    ⟨-, same⟩ | ⟨front, minted, back, split, -, -, same⟩
  · rw [same]
    exact ⟨rfl, rfl, grounded⟩
  · rw [same]
    rw [split] at grounded
    refine ⟨rfl, rfl, ?_⟩
    intro other listed
    rcases List.mem_append.mp listed with listed | listed
    · exact grounded other (List.mem_append_left _ listed)
    · rcases List.mem_cons.mp listed with rfl | listed
      · exact vote_grounded (grounded minted (by simp))
      · exact grounded other (by simp [listed])

theorem step_grounded {reference next : ReferenceCertifier} {call : CertifierCall}
    {output : Option Formed} (all : AllGrounded committee quorum reference)
    (stepped : reference.step call = .ok (output, next)) : AllGrounded committee quorum next := by
  cases call with
  | push anchor commitment timings =>
      cases stepped
      refine ⟨all.committee_eq, all.quorum_eq, ?_⟩
      intro minted listed
      rcases List.mem_append.mp listed with listed | listed
      · exact all.grounded minted listed
      · rw [List.mem_singleton.mp listed]
        exact minted_grounded committee quorum _ timings
  | record subdag author checkpoint =>
      obtain rfl : (reference.record subdag author checkpoint).2 = next :=
        congrArg Prod.snd (Except.ok.inj stepped)
      exact record_grounded subdag author checkpoint all

end

/-! ## The accumulators of a list of votes -/

section

variable {committee : Committee} {quorum : UInt64} {votes : List Vote} {commitment : Digest}

open CheckpointAccumulator

theorem voters_accumulated : (accumulated committee quorum votes commitment).voters =
    ((supporters votes commitment).map Vote.author).toFinset := by
  ext author
  have voted : (accumulated committee quorum votes commitment).voted author = true ↔
      author ∈ (supporters votes commitment).map Vote.author := accumulated_voted committee quorum
  rw [List.mem_toFinset, ← voted, CheckpointAccumulator.voted, List.any_eq_true]
  simp [voters]

theorem accumulated_sums (distinct : (votes.map Vote.author).Nodup)
    (members : ∀ vote ∈ votes, vote.author ∈ committee.members) :
    (accumulated committee quorum votes commitment).Sums committee := by
  have supported : ((supporters votes commitment).map Vote.author).Nodup :=
    distinct.sublist (supporters_sublist.map _)
  constructor
  · intro voter counted
    rw [voters_accumulated, List.mem_toFinset] at counted
    obtain ⟨vote, supports, rfl⟩ := List.mem_map.mp counted
    exact members vote (supporters_sublist.subset supports)
  · rw [accumulated_stake quorum commitment distinct members, voters_accumulated,
      Committee.stakeOf_toFinset supported]
  · rw [accumulated_deliveredIn, voters_accumulated, List.toFinset_card_of_nodup supported,
      List.length_map, List.length_map]

theorem voters_nonempty (attests : commitment ∈ attested votes) :
    (accumulated committee quorum votes commitment).voters.Nonempty := by
  obtain ⟨vote, voted, same⟩ := mem_attested.mp attests
  refine ⟨vote.author, ?_⟩
  rw [voters_accumulated, List.mem_toFinset]
  exact List.mem_map_of_mem (mem_supporters.mpr ⟨voted, same⟩)

/-- No author votes for two commitments. -/
theorem voters_disjoint {first second : Digest} (distinct : (votes.map Vote.author).Nodup)
    (different : first ≠ second) :
    Disjoint (accumulated committee quorum votes first).voters
      (accumulated committee quorum votes second).voters := by
  rw [Finset.disjoint_left]
  intro author votesFirst votesSecond
  rw [voters_accumulated, List.mem_toFinset, List.mem_map] at votesFirst votesSecond
  obtain ⟨vote, supports, rfl⟩ := votesFirst
  obtain ⟨vote', supports', sameAuthor⟩ := votesSecond
  obtain ⟨voted, rfl⟩ := mem_supporters.mp supports
  obtain ⟨voted', rfl⟩ := mem_supporters.mp supports'
  have same : vote' = vote := List.inj_on_of_nodup_map distinct voted' voted sameAuthor
  exact different (congrArg Vote.commitment same.symm)

theorem attested_length (distinct : (votes.map Vote.author).Nodup)
    (members : ∀ vote ∈ votes, vote.author ∈ committee.members) :
    (attested votes).length ≤ committee.members.card := by
  have cast : attested votes ⊆ votes.map Vote.commitment := by
    intro commitment attests
    obtain ⟨vote, voted, rfl⟩ := mem_attested.mp attests
    exact List.mem_map_of_mem voted
  have authors : (votes.map Vote.author).toFinset ⊆ committee.members := by
    intro author listed
    obtain ⟨vote, voted, rfl⟩ := List.mem_map.mp (List.mem_toFinset.mp listed)
    exact members vote voted
  calc (attested votes).length
      ≤ (votes.map Vote.commitment).length := ((attested_nodup votes).subperm cast).length_le
    _ = (votes.map Vote.author).toFinset.card := by
        rw [List.toFinset_card_of_nodup distinct, List.length_map, List.length_map]
    _ ≤ committee.members.card := Finset.card_le_card authors

theorem clear_emptied (accumulator : CheckpointAccumulator) : accumulator.clear.2.Emptied where
  voters := by
    rw [voters, clear, Dag.present_clear]
    rfl
  stake := rfl
  deliveredIn := rfl

theorem CheckpointAccumulator.Emptied.sums {accumulator : CheckpointAccumulator}
    (emptied : accumulator.Emptied) : accumulator.Sums committee where
  members := by
    rw [emptied.voters]
    exact Finset.empty_subset _
  stake := by
    rw [emptied.voters, emptied.stake]
    rfl
  deliveredIn := by
    rw [emptied.voters, emptied.deliveredIn]
    rfl

end

/-! ## Entries -/

section

variable {committee : Committee} {quorum : UInt64} {minted : MintedCheckpoint} {commitment : Digest}
  {certificate : CertifiedCheckpoint}

open CheckpointAccumulator

theorem accumulatorOf_sums (tallied : Tallied committee minted) :
    (accumulatorOf committee quorum minted commitment).Sums committee := by
  unfold accumulatorOf
  split
  · exact (clear_emptied _).sums
  · exact accumulated_sums tallied.distinct tallied.members

theorem accumulatorOf_voters : (accumulatorOf committee quorum minted commitment).voters ⊆
    (accumulated committee quorum minted.votes commitment).voters := by
  unfold accumulatorOf
  split
  · rw [(clear_emptied _).voters]
    exact Finset.empty_subset _
  · exact Finset.Subset.refl _

theorem accumulatorOf_emptied (held : minted.certificate = some certificate)
    (attests : commitment ∈ attested minted.votes) :
    (accumulatorOf committee quorum minted commitment).Emptied ↔
      commitment = certificate.checkpoint.commitment := by
  rw [accumulatorOf, held, eq_comm (a := commitment)]
  simp only [Option.any_some, decide_eq_true_eq]
  split
  · rename_i wins
    exact iff_of_true (clear_emptied _) wins
  · rename_i loses
    apply iff_of_false _ loses
    intro emptied
    have voters : (accumulated committee quorum minted.votes commitment).voters.Nonempty :=
      voters_nonempty attests
    rw [emptied.voters] at voters
    exact Finset.not_nonempty_empty voters

theorem accumulated_short (tallied : Tallied committee minted)
    (lacking : ¬ Reaches committee quorum minted.votes commitment) :
    (accumulated committee quorum minted.votes commitment).stake < quorum := by
  rw [UInt64.lt_iff_toNat_lt, accumulated_stake quorum commitment tallied.distinct tallied.members]
  exact Nat.lt_of_not_le lacking

theorem entryOf_represented (tallied : Tallied committee minted)
    (grounded : Grounded committee quorum minted) :
    (entryOf committee quorum minted).Represented committee quorum where
  distinct := by
    rw [entryOf, List.map_map]
    exact (List.map_id _).symm ▸ attested_nodup minted.votes
  disjoint := by
    rw [entryOf, List.pairwise_map]
    apply (attested_nodup minted.votes).imp
    intro first second different
    exact (voters_disjoint tallied.distinct different).mono accumulatorOf_voters accumulatorOf_voters
  few := by
    rw [entryOf, List.length_map]
    exact attested_length tallied.distinct tallied.members
  sums := by
    intro slot listed
    obtain ⟨commitment, -, rfl⟩ := List.mem_map.mp listed
    exact accumulatorOf_sums tallied
  short := by
    intro uncertified slot listed
    obtain ⟨commitment, attests, rfl⟩ := List.mem_map.mp listed
    obtain ⟨vote, voted, rfl⟩ := mem_attested.mp attests
    rw [accumulatorOf_uncertified uncertified]
    exact ⟨voters_nonempty attests,
      accumulated_short tallied (grounded.short uncertified vote voted)⟩
  winner := by
    intro certificate held
    constructor
    · obtain ⟨vote, voted, wins⟩ := grounded.winner certificate held
      exact ⟨_, List.mem_map_of_mem (mem_attested.mpr ⟨vote, voted, rfl⟩), wins⟩
    · intro slot listed
      obtain ⟨commitment, attests, rfl⟩ := List.mem_map.mp listed
      exact accumulatorOf_emptied held attests

end

/-! ## The whole certifier -/

namespace CheckpointCertifier

variable {reference : ReferenceCertifier} {certificate : CertifiedCheckpoint}

theorem ofReference_aboveWatermark (wellFormed : reference.WellFormed)
    (highest : reference.highestCertified = some certificate) :
    ∀ entry ∈ (ofReference reference).window, certificate.checkpoint.round ≤ entry.round := by
  intro entry listed
  obtain ⟨later, kept, rfl⟩ := List.mem_map.mp listed
  obtain ⟨minted, last, held⟩ := Option.bind_eq_some_iff.mp highest
  have settled := List.mem_of_getLast? last
  have ordered := wellFormed.anchors.ordered
  rw [List.pairwise_map, ← List.takeWhile_append_dropWhile (p := MintedCheckpoint.certified)
    (l := reference.minted), List.pairwise_append] at ordered
  have anchor := (wellFormed.tallied minted ((List.takeWhile_prefix _).subset settled)).certificate
    certificate held
  rw [Checkpoint.round, anchor]
  exact ordered.2.2 minted settled later kept

theorem ofReference_represented {committee : Committee} {quorum : UInt64}
    (wellFormed : reference.WellFormed) (all : AllGrounded committee quorum reference) :
    (ofReference reference).Represented committee quorum where
  ordered := ofReference_ordered wellFormed
  aboveWatermark := fun _ highest => ofReference_aboveWatermark wellFormed highest
  front := by
    intro entry first
    rw [ofReference, List.head?_map, Option.mem_def, Option.map_eq_some_iff] at first
    obtain ⟨minted, first, rfl⟩ := first
    have stops := List.head?_dropWhile_not MintedCheckpoint.certified reference.minted
    rw [first] at stops
    exact Option.not_isSome_iff_eq_none.mp (Bool.eq_false_iff.mp stops)
  entries := by
    intro entry listed
    obtain ⟨minted, kept, rfl⟩ := List.mem_map.mp listed
    have member := List.dropWhile_subset _ kept
    obtain ⟨rfl, rfl, grounded⟩ := all
    exact entryOf_represented (wellFormed.tallied minted member) (grounded minted member)

/-- The representation invariant of the certifier. -/
theorem run_represented [BuildProfile] (committee : Committee) (quorum : UInt64)
    (calls : List CertifierCall) (admissible : AdmissibleCalls committee [] calls) :
    ∃ returned certifier,
      run CheckpointCertifier.call (.new committee quorum) calls = .ok (returned, certifier) ∧
        certifier.Represented committee quorum := by
  obtain ⟨formed, reference, ran, ran', wellFormed⟩ := run_refines committee quorum calls admissible
  have all : AllGrounded committee quorum reference := by
    apply run_invariant (AllGrounded committee quorum) _ (new_grounded committee quorum) ran'
    intro state call output next held stepped
    exact step_grounded held stepped
  refine ⟨formed.map (Option.map Prod.snd), ofReference reference, ?_,
    ofReference_represented wellFormed all⟩
  rw [run_call, ran]
  rfl

end CheckpointCertifier

end

section

attribute [local instance] plainDag checkedBuild

open CheckpointCertifier

/-- Two commitments voted for at one anchor, of which one has a quorum. -/
private def contested : List CertifierCall :=
  [.push (plainReference 0 1) .default ⟨.zero, 0⟩, .push (plainReference 1 2) .default ⟨.zero, 0⟩,
    .record (plainReference 0 3) (0 : UInt64) ⟨plainReference 1 2, .default⟩,
    .record (plainReference 0 3) (1 : UInt64) ⟨plainReference 1 2, ⟨.replicate 32 1⟩⟩,
    .record (plainReference 0 4) (2 : UInt64) ⟨plainReference 1 2, .default⟩]

theorem contested_represented :
    ∃ returned certifier,
      run call (.new (plainCommittee 3 (by decide)) 2) contested = .ok (returned, certifier) ∧
        certifier.Represented (plainCommittee 3 (by decide)) 2 :=
  run_represented (plainCommittee 3 (by decide)) 2 contested ⟨⟨by decide, by decide⟩, by decide⟩

end

end BlockchainValidator
