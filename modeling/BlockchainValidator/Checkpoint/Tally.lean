import BlockchainValidator.Checkpoint.Reference

/-! # The tally of one checkpoint

The certifier sorts the votes of a checkpoint into one accumulator for each
commitment, of which the winner is cleared.  On one entry it does what the
reference does with a list of votes.
-/

namespace BlockchainValidator

open Execution Run

section

variable [Dag]

/-! ## Accumulators as a function of the votes -/

def CheckpointAccumulator.count (committee : Committee) (accumulator : CheckpointAccumulator)
    (vote : Vote) : CheckpointAccumulator where
  votes := (Dag.insert accumulator.votes vote.author).2
  stake := accumulator.stake + committee.stake vote.author
  threshold := accumulator.threshold
  deliveredIn := accumulator.deliveredIn ++ [vote.deliveredIn]

/-- The accumulator that the votes for one commitment build up. -/
def accumulated (committee : Committee) (quorum : UInt64) (votes : List Vote) (commitment : Digest) :
    CheckpointAccumulator :=
  (supporters votes commitment).foldl (CheckpointAccumulator.count committee) (.new quorum)

/-- The commitments voted for, by their first vote. -/
def attested (votes : List Vote) : List Digest :=
  votes.foldl (fun found vote =>
    if vote.commitment ∈ found then found else found ++ [vote.commitment]) []

section

variable {committee : Committee} {quorum : UInt64} {votes : List Vote} {vote : Vote}
  {commitment : Digest} {author : Authority}

theorem attested_concat : attested (votes ++ [vote]) =
    if vote.commitment ∈ attested votes then attested votes
    else attested votes ++ [vote.commitment] := by
  rw [attested, List.foldl_append]
  rfl

theorem mem_attested : commitment ∈ attested votes ↔ ∃ vote ∈ votes, vote.commitment = commitment := by
  induction votes using List.reverseRecOn with
  | nil => simp [attested]
  | append_singleton votes last ih =>
      rw [attested_concat]
      split
      · rename_i known
        constructor
        · intro member
          obtain ⟨vote, voted, same⟩ := ih.mp member
          exact ⟨vote, by simp [voted], same⟩
        · intro listed
          obtain ⟨vote, voted, rfl⟩ := listed
          rcases List.mem_append.mp voted with voted | voted
          · exact ih.mpr ⟨vote, voted, rfl⟩
          · rw [List.mem_singleton.mp voted]
            exact known
      · simp only [List.mem_append, ih, List.mem_singleton, or_and_right, exists_or,
          exists_eq_left]
        exact or_congr_right eq_comm

theorem attested_nodup (votes : List Vote) : (attested votes).Nodup := by
  induction votes using List.reverseRecOn with
  | nil => simp [attested]
  | append_singleton votes last ih =>
      rw [attested_concat]
      split
      · exact ih
      · rename_i fresh
        exact List.nodup_append.mpr ⟨ih, by simp, by
          intro earlier member later same equal
          rw [List.mem_singleton.mp same] at equal
          exact fresh (equal ▸ member)⟩

theorem accumulated_concat (committee : Committee) (quorum : UInt64) (votes : List Vote) (vote : Vote)
    (commitment : Digest) : accumulated committee quorum (votes ++ [vote]) commitment =
    if vote.commitment = commitment then
      (accumulated committee quorum votes commitment).count committee vote
    else accumulated committee quorum votes commitment := by
  rw [accumulated, supporters_concat]
  split
  · rw [List.foldl_append]
    rfl
  · rfl

theorem accumulated_of_unattested (unattested : commitment ∉ attested votes) :
    accumulated committee quorum votes commitment = .new quorum := by
  have none : supporters votes commitment = [] := by
    refine List.filter_eq_nil_iff.mpr (fun vote voted same => ?_)
    exact unattested (mem_attested.mpr ⟨vote, voted, of_decide_eq_true same⟩)
  rw [accumulated, none]
  rfl

theorem accumulated_threshold : (accumulated committee quorum votes commitment).threshold = quorum := by
  rw [accumulated]
  induction supporters votes commitment using List.reverseRecOn with
  | nil => rfl
  | append_singleton voters last ih =>
      rw [List.foldl_append]
      exact ih

theorem accumulated_deliveredIn : (accumulated committee quorum votes commitment).deliveredIn =
    (supporters votes commitment).map Vote.deliveredIn := by
  rw [accumulated]
  induction supporters votes commitment using List.reverseRecOn with
  | nil => rfl
  | append_singleton voters last ih =>
      rw [List.foldl_append, List.map_append, ← ih]
      rfl

theorem accumulated_voted (committee : Committee) (quorum : UInt64) :
    (accumulated committee quorum votes commitment).voted author = true ↔
    author ∈ (supporters votes commitment).map Vote.author := by
  rw [accumulated, CheckpointAccumulator.voted, List.any_eq_true]
  simp only [decide_eq_true_eq, exists_eq_right]
  induction supporters votes commitment using List.reverseRecOn with
  | nil =>
      change author ∈ Dag.present Dag.noAuthorities ↔ _
      rw [Dag.present_noAuthorities]
      simp
  | append_singleton voters last ih =>
      rw [List.foldl_append, List.foldl_cons, List.foldl_nil, CheckpointAccumulator.count,
        Dag.mem_present_insert, ih]
      simp [or_comm]

theorem accumulated_stake (quorum : UInt64) (commitment : Digest)
    (distinct : (votes.map Vote.author).Nodup)
    (members : ∀ vote ∈ votes, vote.author ∈ committee.members) :
    (accumulated committee quorum votes commitment).stake.toNat =
      committee.stakeOf ((supporters votes commitment).map Vote.author) := by
  have bound := stakeOf_supporters_lt commitment distinct members
  rw [accumulated]
  revert bound
  induction supporters votes commitment using List.reverseRecOn with
  | nil => exact fun _ => rfl
  | append_singleton voters last ih =>
      intro bound
      rw [List.map_append, Committee.stakeOf_append] at bound
      have earlier := ih (by omega)
      rw [List.foldl_append, List.foldl_cons, List.foldl_nil, List.map_append,
        Committee.stakeOf_append, ← earlier]
      simp only [List.map_cons, List.map_nil, Committee.stakeOf_singleton] at bound ⊢
      exact toNat_add_of_lt (by omega)

end

/-! ## One vote for one entry -/

namespace PendingCheckpoint

variable {author : Authority} {commitment : Digest} {index : Nat} {target : Option Nat}
  {accumulators front back : List (Digest × CheckpointAccumulator)}
  {accumulator : CheckpointAccumulator}

theorem locate_voted (voted : ∃ slot ∈ accumulators, slot.2.voted author = true) :
    locate author commitment index target accumulators = none := by
  induction accumulators generalizing index target with
  | nil =>
      obtain ⟨slot, member, -⟩ := voted
      cases member
  | cons first accumulators ih =>
      obtain ⟨slot, member, holds⟩ := voted
      rw [locate]
      split
      · rfl
      · rename_i silent
        rcases List.mem_cons.mp member with rfl | member
        · exact absurd holds silent
        · exact ih ⟨slot, member, holds⟩

theorem locate_absent (silent : ∀ slot ∈ accumulators, slot.2.voted author = false)
    (absent : ∀ slot ∈ accumulators, slot.1 ≠ commitment) :
    locate author commitment index target accumulators = some target := by
  induction accumulators generalizing index with
  | nil => rfl
  | cons first accumulators ih =>
      rw [locate, if_neg (by simp [silent first]), if_neg (absent first (by simp))]
      exact ih (fun slot member => silent slot (by simp [member]))
        (fun slot member => absent slot (by simp [member]))

theorem locate_found
    (silent : ∀ slot ∈ front ++ (commitment, accumulator) :: back, slot.2.voted author = false)
    (absent : ∀ slot ∈ back, slot.1 ≠ commitment) :
    locate author commitment index target (front ++ (commitment, accumulator) :: back) =
      some (some (index + front.length)) := by
  induction front generalizing index target with
  | nil =>
      rw [List.nil_append, locate, if_neg (by simp [silent (commitment, accumulator)]), if_pos rfl]
      exact locate_absent (fun slot member => silent slot (by simp [member])) absent
  | cons first front ih =>
      rw [List.cons_append, locate, if_neg (by simp [silent first]),
        ih (fun slot member => silent slot (by
          rw [List.cons_append]
          exact List.mem_cons_of_mem _ member)), List.length_cons]
      congr 2
      omega

end PendingCheckpoint

namespace CheckpointAccumulator

variable [BuildProfile] {committee : Committee} {accumulator : CheckpointAccumulator} {vote : Vote}

theorem add_eq (silent : accumulator.voted vote.author = false)
    (member : vote.author ∈ committee.members)
    (fits : accumulator.stake.toNat + (committee.stake vote.author).toNat < 2 ^ 64) :
    accumulator.add vote.author committee vote.deliveredIn =
      .ok (accumulator.threshold ≤ (accumulator.count committee vote).stake,
        accumulator.count committee vote) := by
  have absent : vote.author ∉ Dag.present accumulator.votes := by
    intro present
    rw [voted, List.any_eq_false] at silent
    exact silent _ present (by simp)
  have inserted : (Dag.insert accumulator.votes vote.author).1 = true := by
    rw [Dag.insert_absent]
    exact decide_eq_true absent
  unfold add
  rw [Committee.getStake, if_pos member]
  simp only [inserted, if_true, addU64_of_lt fits, bind_ok]
  rfl

end CheckpointAccumulator

/-- The accumulator held for a commitment: the winner's is cleared. -/
def accumulatorOf (committee : Committee) (quorum : UInt64) (minted : MintedCheckpoint)
    (commitment : Digest) : CheckpointAccumulator :=
  if minted.certificate.any (·.checkpoint.commitment = commitment) then
    (accumulated committee quorum minted.votes commitment).clear.2
  else accumulated committee quorum minted.votes commitment

/-- The entry that stands for a minted checkpoint. -/
def entryOf (committee : Committee) (quorum : UInt64) (minted : MintedCheckpoint) :
    PendingCheckpoint where
  localCheckpoint := minted.localCheckpoint
  timings := minted.timings
  accumulators := (attested minted.votes).map fun commitment =>
    (commitment, accumulatorOf committee quorum minted commitment)
  certificate := minted.certificate

section

variable {committee : Committee} {quorum : UInt64} {votes : List Vote} {vote : Vote}

theorem locate_slot (committee : Committee) (quorum : UInt64)
    (silent : vote.author ∉ votes.map Vote.author) :
    ∃ target front back,
      PendingCheckpoint.locate vote.author vote.commitment 0 none ((attested votes).map
        fun commitment => (commitment, accumulated committee quorum votes commitment)) = some target ∧
      PendingCheckpoint.slot quorum vote.commitment ((attested votes).map
          fun commitment => (commitment, accumulated committee quorum votes commitment)) target =
        (front.length, (front ++ vote.commitment :: back).map
          fun commitment => (commitment, accumulated committee quorum votes commitment)) ∧
      attested (votes ++ [vote]) = front ++ vote.commitment :: back := by
  have unvoted : ∀ slot ∈ (attested votes).map
      (fun commitment => (commitment, accumulated committee quorum votes commitment)),
      slot.2.voted vote.author = false := by
    intro slot member
    obtain ⟨commitment, -, rfl⟩ := List.mem_map.mp member
    refine Bool.eq_false_iff.mpr (fun voted => silent ?_)
    exact (supporters_sublist.map _).subset ((accumulated_voted committee quorum).mp voted)
  rw [attested_concat]
  by_cases known : vote.commitment ∈ attested votes
  · obtain ⟨front, back, split⟩ := List.append_of_mem known
    have distinct := attested_nodup votes
    rw [split] at distinct unvoted
    have notBack : vote.commitment ∉ back :=
      (List.nodup_cons.mp (List.nodup_append.mp distinct).2.1).1
    rw [if_pos known, split]
    rw [List.map_append, List.map_cons] at unvoted ⊢
    refine ⟨_, front, back, PendingCheckpoint.locate_found unvoted ?_, by simp [PendingCheckpoint.slot],
      rfl⟩
    intro slot member same
    obtain ⟨commitment, inBack, rfl⟩ := List.mem_map.mp member
    exact notBack (same ▸ inBack)
  · rw [if_neg known]
    refine ⟨none, attested votes, [], PendingCheckpoint.locate_absent unvoted ?_, ?_, rfl⟩
    · intro slot member same
      obtain ⟨commitment, listed, rfl⟩ := List.mem_map.mp member
      exact known (same ▸ listed)
    · rw [PendingCheckpoint.slot, List.map_append, List.map_cons, List.map_nil, List.length_map,
        accumulated_of_unattested known]

variable {minted : MintedCheckpoint}

theorem accumulatorOf_uncertified (uncertified : minted.certificate = none) :
    accumulatorOf committee quorum minted = accumulated committee quorum minted.votes := by
  funext commitment
  rw [accumulatorOf, uncertified]
  rfl

theorem map_accumulated_concat {front back : List Digest}
    (split : attested (votes ++ [vote]) = front ++ vote.commitment :: back)
    {accumulator : Digest → CheckpointAccumulator}
    (others : ∀ commitment, commitment ≠ vote.commitment →
      accumulator commitment = accumulated committee quorum votes commitment) :
    ((front ++ vote.commitment :: back).map
        fun commitment => (commitment, accumulated committee quorum votes commitment)).set
        front.length (vote.commitment, accumulator vote.commitment) =
      (attested (votes ++ [vote])).map fun commitment => (commitment, accumulator commitment) := by
  have distinct := attested_nodup (votes ++ [vote])
  rw [split] at distinct ⊢
  have notFront : ∀ commitment ∈ front, commitment ≠ vote.commitment := fun commitment member =>
    (List.nodup_append.mp distinct).2.2 commitment member vote.commitment (by simp)
  have notBack : ∀ commitment ∈ back, commitment ≠ vote.commitment := by
    intro other member same
    obtain rfl := same
    exact (List.nodup_cons.mp (List.nodup_append.mp distinct).2.1).1 member
  have frontSame : front.map (fun commitment => (commitment, accumulator commitment)) =
      front.map (fun commitment => (commitment, accumulated committee quorum votes commitment)) :=
    List.map_congr_left (fun commitment member => by rw [others _ (notFront _ member)])
  have backSame : back.map (fun commitment => (commitment, accumulator commitment)) =
      back.map (fun commitment => (commitment, accumulated committee quorum votes commitment)) :=
    List.map_congr_left (fun commitment member => by rw [others _ (notBack _ member)])
  simp only [List.map_append, List.map_cons, frontSame, backSame]
  rw [List.set_append_right _ _ (by simp)]
  simp

variable [BuildProfile] {subdag : BlockReference} {author : Authority} {checkpoint : Checkpoint}

/-- A first vote of a member is added without wrapping, and reaches the
threshold when the authors voting with it hold a quorum. -/
theorem accumulated_add (tallied : Tallied committee minted) (vote : Vote)
    (member : vote.author ∈ committee.members)
    (fresh : vote.author ∉ minted.votes.map Vote.author) :
    (accumulated committee quorum minted.votes vote.commitment).add vote.author committee
        vote.deliveredIn =
      .ok (decide (MintedCheckpoint.Reaches committee quorum (minted.votes ++ [vote]) vote.commitment),
        accumulated committee quorum (minted.votes ++ [vote]) vote.commitment) := by
  obtain ⟨distinct, members⟩ := tallied.concat vote member fresh
  have grown := accumulated_concat committee quorum minted.votes vote vote.commitment
  rw [if_pos rfl] at grown
  have silent : (accumulated committee quorum minted.votes vote.commitment).voted vote.author =
      false := by
    apply Bool.eq_false_iff.mpr
    intro counted
    apply fresh
    exact (supporters_sublist.map _).subset ((accumulated_voted committee quorum).mp counted)
  have fits : (accumulated committee quorum minted.votes vote.commitment).stake.toNat +
      (committee.stake vote.author).toNat < 2 ^ 64 := by
    have bound := stakeOf_supporters_lt vote.commitment distinct members
    rw [supporters_concat, if_pos rfl, List.map_append, Committee.stakeOf_append] at bound
    rw [accumulated_stake quorum vote.commitment tallied.distinct tallied.members]
    simpa using bound
  have reached : quorum ≤ (accumulated committee quorum (minted.votes ++ [vote])
      vote.commitment).stake ↔
      MintedCheckpoint.Reaches committee quorum (minted.votes ++ [vote]) vote.commitment := by
    rw [UInt64.le_iff_toNat_le, accumulated_stake quorum vote.commitment distinct members]
    rfl
  have added := CheckpointAccumulator.add_eq silent member fits
  rw [← grown, accumulated_threshold] at added
  rw [added]
  simp only [reached]

theorem entryOf_tally_counted (tallied : Tallied committee minted) (vote : Vote)
    (member : vote.author ∈ committee.members) (uncertified : minted.certificate = none)
    (fresh : vote.author ∉ minted.votes.map Vote.author) (anchor : BlockReference) :
    (entryOf committee quorum minted).tally committee quorum vote.deliveredIn vote.author
        ⟨anchor, vote.commitment⟩ =
      .ok (if MintedCheckpoint.Reaches committee quorum (minted.votes ++ [vote]) vote.commitment then
        (some (MintedCheckpoint.certify (minted.votes ++ [vote]) ⟨anchor, vote.commitment⟩,
            minted.timings),
          entryOf committee quorum { minted with
            votes := minted.votes ++ [vote]
            certificate :=
              some (MintedCheckpoint.certify (minted.votes ++ [vote]) ⟨anchor, vote.commitment⟩) })
      else (none, entryOf committee quorum { minted with votes := minted.votes ++ [vote] })) := by
  obtain ⟨target, front, back, located, slot, split⟩ := locate_slot committee quorum fresh
  have accumulators : (entryOf committee quorum minted).accumulators =
      (attested minted.votes).map fun commitment =>
        (commitment, accumulated committee quorum minted.votes commitment) := by
    rw [entryOf, accumulatorOf_uncertified uncertified]
  rw [← accumulators] at located slot
  have entry : ((front ++ vote.commitment :: back).map fun commitment =>
      (commitment, accumulated committee quorum minted.votes commitment))[front.length]? =
        some (vote.commitment, accumulated committee quorum minted.votes vote.commitment) := by
    simp
  rw [PendingCheckpoint.tally_counted uncertified located slot entry
    (accumulated_add tallied vote member fresh)]
  simp only [decide_eq_true_eq]
  have delivered : (accumulated committee quorum (minted.votes ++ [vote]) vote.commitment).deliveredIn =
      (supporters (minted.votes ++ [vote]) vote.commitment).map Vote.deliveredIn :=
    accumulated_deliveredIn
  have others (commitment : Digest) (different : commitment ≠ vote.commitment) :
      accumulated committee quorum (minted.votes ++ [vote]) commitment =
        accumulated committee quorum minted.votes commitment := by
    rw [accumulated_concat, if_neg (fun same => different same.symm)]
  split
  · let next : MintedCheckpoint := { minted with
      votes := minted.votes ++ [vote]
      certificate := some (MintedCheckpoint.certify (minted.votes ++ [vote]) ⟨anchor, vote.commitment⟩) }
    have winner : accumulatorOf committee quorum next vote.commitment =
        (accumulated committee quorum (minted.votes ++ [vote]) vote.commitment).clear.2 :=
      if_pos (by simp [next, MintedCheckpoint.certify])
    have losers (commitment : Digest) (different : commitment ≠ vote.commitment) :
        accumulatorOf committee quorum next commitment =
          accumulated committee quorum minted.votes commitment := by
      rw [accumulatorOf, if_neg (by simpa [next, MintedCheckpoint.certify] using different.symm)]
      exact others commitment different
    rw [← winner, map_accumulated_concat split losers, delivered]
    rfl
  · rw [map_accumulated_concat split others]
    simp only [entryOf, accumulatorOf, uncertified, Option.any_none, Bool.false_eq_true, if_false]

/-- On one entry, the certifier tallies as the reference does. -/
theorem entryOf_tally (tallied : Tallied committee minted) (member : author ∈ committee.members) :
    (entryOf committee quorum minted).tally committee quorum subdag author checkpoint =
      .ok ((minted.vote committee quorum subdag author checkpoint).1,
        entryOf committee quorum (minted.vote committee quorum subdag author checkpoint).2) := by
  unfold MintedCheckpoint.vote
  cases certified : minted.certificate with
  | some certificate =>
      rw [if_pos (.inl (by simp [MintedCheckpoint.certified, certified]))]
      exact PendingCheckpoint.tally_certified (by simp [entryOf, certified])
  | none =>
      by_cases voted : author ∈ minted.votes.map Vote.author
      · obtain ⟨vote, counted, rfl⟩ := List.mem_map.mp voted
        have listed : vote.commitment ∈ attested minted.votes := mem_attested.mpr ⟨vote, counted, rfl⟩
        have supports := (accumulated_voted committee quorum).mpr
          (List.mem_map_of_mem (mem_supporters.mpr ⟨counted, rfl⟩))
        rw [if_pos (.inr voted)]
        refine PendingCheckpoint.tally_voted (PendingCheckpoint.locate_voted
          ⟨_, List.mem_map_of_mem listed, ?_⟩)
        rw [accumulatorOf_uncertified certified]
        exact supports
      · rw [if_neg (by simp [MintedCheckpoint.certified, certified, voted])]
        rw [entryOf_tally_counted tallied ⟨author, checkpoint.commitment, subdag⟩ member certified
          voted checkpoint.anchor]
        dsimp only
        split
        · rfl
        · rw [certified]

end

end

end BlockchainValidator
