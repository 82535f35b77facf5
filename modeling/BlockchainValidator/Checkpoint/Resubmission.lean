import BlockchainValidator.Checkpoint.Interleaving

/-! # Resubmitted votes

The certifier's memory that an author has voted moves from an accumulator into
the certificate and out of the window.  A repeated vote changes nothing anywhere
on that way, and neither does one for an anchor that was never minted.
-/

namespace BlockchainValidator

open Execution Run MintedCheckpoint

section

variable [Dag]

/-! ## Votes that are remembered -/

section

variable {committee : Committee} {quorum : UInt64} {minted next : MintedCheckpoint} {vote : Vote}
  {output : Option Formed} {subdag : BlockReference} {author : Authority} {checkpoint : Checkpoint}

def MintedCheckpoint.Remembers (minted : MintedCheckpoint) (author : Authority) : Prop :=
  minted.certified = true ∨ author ∈ minted.votes.map Vote.author

theorem vote_remembers (subdag : BlockReference) (author : Authority) (checkpoint : Checkpoint) :
    (minted.vote committee quorum subdag author checkpoint).2.Remembers author := by
  unfold MintedCheckpoint.vote
  split
  · assumption
  · dsimp only
    split
    · exact .inl rfl
    · exact .inr (by simp)

theorem MintedCheckpoint.Remembers.kept {other : Authority} (remembers : minted.Remembers other) :
    (minted.vote committee quorum subdag author checkpoint).2.Remembers other := by
  unfold MintedCheckpoint.vote
  split
  · exact remembers
  · rename_i counted
    have uncertified : minted.certified ≠ true := fun certified => counted (.inl certified)
    have voted := remembers.resolve_left uncertified
    dsimp only
    split
    · exact .inl rfl
    · refine .inr ?_
      rw [List.map_append]
      exact List.mem_append_left _ voted

theorem cast_ok (cast : minted.cast committee quorum vote = .ok (output, next)) :
    (minted.certified = true ∨ vote.author ∈ committee.members) ∧
      minted.vote committee quorum vote.deliveredIn vote.author ⟨minted.anchor, vote.commitment⟩ =
        (output, next) := by
  unfold MintedCheckpoint.cast at cast
  split at cast
  · cases cast
  · rename_i accepted
    refine ⟨?_, Except.ok.inj cast⟩
    by_contra refused
    push Not at refused
    exact accepted ⟨Bool.eq_false_iff.mpr refused.1, refused.2⟩

theorem run_cast_remembers {votes : List Vote} {outputs : List (Option Formed)}
    (ran : run (MintedCheckpoint.cast committee quorum) minted votes = .ok (outputs, next)) :
    ∀ vote ∈ votes, next.Remembers vote.author := by
  refine run_history (fun votes _ minted => ∀ vote ∈ votes, minted.Remembers vote.author)
    ?_ (by simp) ran
  intro votes outputs minted vote output next _ held stepped earlier listed
  obtain ⟨-, counted⟩ := cast_ok stepped
  obtain rfl := congrArg Prod.snd counted
  rcases List.mem_append.mp listed with listed | listed
  · exact (held earlier listed).kept
  · rw [List.mem_singleton.mp listed]
    exact vote_remembers ..

end

/-! ## Calls that change nothing -/

section

variable {committee : Committee} {quorum : UInt64} {calls : List CertifierCall}
  {outputs : List (Option Formed)} {reference : ReferenceCertifier} {minted : MintedCheckpoint}
  {subdag : BlockReference} {author : Authority} {checkpoint : Checkpoint}

theorem run_wellFormed (anchors : Admissible (calls.filterMap CertifierCall.pushed))
    (ran : run ReferenceCertifier.strictStep (.new committee quorum) calls = .ok (outputs, reference)) :
    reference.WellFormed := by
  refine run_history (fun calls _ reference => Admissible (calls.filterMap CertifierCall.pushed) →
    reference.WellFormed) ?_ (fun _ => ReferenceCertifier.new_wellFormed committee quorum) ran anchors
  intro calls outputs middle call output next front held stepped anchors
  rw [List.filterMap_append] at anchors
  have wellFormed := held anchors.left
  cases call with
  | push anchor commitment timings =>
      cases stepped
      refine push_wellFormed wellFormed ?_
      rw [(run_anchorwise anchors.left.distinct front).anchors]
      exact anchors
  | record subdag author checkpoint => exact strictRecord_wellFormed wellFormed stepped

theorem strictRecord_unknown
    (unknown : ∀ minted ∈ reference.minted, minted.anchor ≠ checkpoint.anchor) :
    reference.strictRecord subdag author checkpoint = .ok (none, reference) := by
  have settled : ¬ reference.AwaitsVotes checkpoint.anchor :=
    fun waiting => waiting.elim fun minted held => unknown minted held.1 held.2.1
  rw [ReferenceCertifier.strictRecord, if_neg (fun refused => settled refused.2),
    record_ignored settled]

theorem strictRecord_remembered (wellFormed : reference.WellFormed)
    (listed : minted ∈ reference.minted) (found : minted.anchor = checkpoint.anchor)
    (remembers : minted.Remembers author) :
    reference.strictRecord subdag author checkpoint = .ok (none, reference) := by
  have only {other : MintedCheckpoint} (listed' : other ∈ reference.minted)
      (same : other.anchor = checkpoint.anchor) : other = minted :=
    List.inj_on_of_nodup_map wellFormed.anchors.distinct listed' listed (same.trans found.symm)
  have accepted : ¬ (author ∉ reference.committee.members ∧
      reference.AwaitsVotes checkpoint.anchor) := by
    intro refused
    obtain ⟨stranger, other, listed', same, uncertified⟩ := refused
    obtain rfl := only listed' same
    have voted := remembers.resolve_left (by simp [uncertified])
    obtain ⟨vote, counted, rfl⟩ := List.mem_map.mp voted
    exact stranger ((wellFormed.tallied other listed).members vote counted)
  rw [ReferenceCertifier.strictRecord, if_neg accepted]
  rcases record_cases reference subdag author checkpoint with
    ⟨-, same⟩ | ⟨front, other, back, split, -, found', same⟩
  · rw [same]
  · obtain rfl := only (by simp [split]) found'
    rw [same, vote_ignored remembers, ← split]

theorem Anchorwise.remembers (anchorwise : Anchorwise committee quorum calls outputs reference)
    {anchor : BlockReference} (voted : author ∈ (ballots anchor calls).map Vote.author) :
    ∃ minted ∈ reference.minted, minted.anchor = anchor ∧ minted.Remembers author := by
  have pushed : anchor ∈ reference.minted.map MintedCheckpoint.anchor := by
    rw [anchorwise.anchors]
    by_contra unminted
    rw [ballots_unminted unminted] at voted
    cases voted
  obtain ⟨minted, listed, rfl⟩ := List.mem_map.mp pushed
  obtain ⟨fresh, -, -, ran⟩ := anchorwise.separate minted listed
  obtain ⟨vote, cast, rfl⟩ := List.mem_map.mp voted
  exact ⟨minted, listed, rfl, run_cast_remembers ran vote cast⟩

end

namespace CheckpointCertifier

/-- Whether `record` counts the vote: the anchor is in the window, uncertified,
and no accumulator has a vote of the author. -/
def Counts (certifier : CheckpointCertifier) (author : Authority) (checkpoint : Checkpoint) : Prop :=
  ∃ index entry, position certifier.window checkpoint.anchor = some index ∧
    certifier.window[index]? = some entry ∧ entry.certificate = none ∧
    PendingCheckpoint.locate author checkpoint.commitment 0 none entry.accumulators ≠ none

variable [BuildProfile]

/-- Some call recorded a vote by `author` for `anchor` that was counted. -/
def Counted (committee : Committee) (quorum : UInt64) (calls : List CertifierCall)
    (author : Authority) (anchor : BlockReference) : Prop :=
  ∃ before subdag commitment after returned certifier,
    calls = before ++ .record subdag author ⟨anchor, commitment⟩ :: after ∧
      run call (.new committee quorum) before = .ok (returned, certifier) ∧
      certifier.Counts author ⟨anchor, commitment⟩

variable {committee : Committee} {quorum : UInt64} {calls : List CertifierCall}
  {author : Authority} {anchor : BlockReference} {returned : List (Option CheckpointTimings)}
  {certifier : CheckpointCertifier}

theorem Counted.voted (anchors : Admissible (calls.filterMap CertifierCall.pushed))
    (counted : Counted committee quorum calls author anchor) :
    author ∈ (ballots anchor calls).map Vote.author := by
  obtain ⟨before, subdag, commitment, after, returned, certifier, rfl, ran, counts⟩ := counted
  rw [List.filterMap_append] at anchors
  obtain ⟨outputs, reference, finished, rfl, rfl⟩ := (run_separate anchors.left).mp ran
  have pushed : anchor ∈ before.filterMap CertifierCall.pushed := by
    obtain ⟨index, entry, located, found, -⟩ := counts
    obtain ⟨entry', found', rfl⟩ := position_anchor located
    cases found.symm.trans found'
    obtain ⟨minted, kept, rfl⟩ := List.mem_map.mp (List.mem_of_getElem? found)
    exact (run_anchorwise anchors.left.distinct finished).minted_pushed
      (List.dropWhile_subset _ kept)
  rw [ballots_append, if_pos pushed]
  simp [voteFor]

/-- A call of no consequence after `calls`: a vote for an anchor that was never
minted, or one by an author who has voted for the anchor, counted or too late. -/
theorem call_idle (anchors : Admissible (calls.filterMap CertifierCall.pushed))
    (ran : run call (.new committee quorum) calls = .ok (returned, certifier))
    {subdag : BlockReference} {author : Authority} {checkpoint : Checkpoint}
    (idle : author ∈ (ballots checkpoint.anchor calls).map Vote.author ∨
      checkpoint.anchor ∉ calls.filterMap CertifierCall.pushed) :
    certifier.call (.record subdag author checkpoint) = .ok (none, certifier) := by
  obtain ⟨outputs, reference, finished, rfl, rfl⟩ := (run_separate anchors).mp ran
  have anchorwise := run_anchorwise anchors.distinct finished
  have wellFormed := run_wellFormed anchors finished
  have ignored : reference.strictRecord subdag author checkpoint = .ok (none, reference) := by
    rcases idle with voted | unminted
    · obtain ⟨minted, listed, found, remembers⟩ := anchorwise.remembers voted
      exact strictRecord_remembered wellFormed listed found remembers
    · exact strictRecord_unknown fun minted listed same =>
        unminted (same ▸ anchorwise.minted_pushed listed)
  rw [call, record, ofReference_strictRecord wellFormed, ignored]
  rfl

/-- Any votes of authors already counted for the anchor and any votes for anchors
never minted return `none` and leave the certifier as it was. -/
theorem resubmission_idle (anchors : Admissible (calls.filterMap CertifierCall.pushed))
    (ran : run call (.new committee quorum) calls = .ok (returned, certifier))
    (repeats : List CertifierCall)
    (repeated : ∀ again ∈ repeats, ∃ subdag author checkpoint,
      again = .record subdag author checkpoint ∧
        (Counted committee quorum calls author checkpoint.anchor ∨
          checkpoint.anchor ∉ calls.filterMap CertifierCall.pushed)) :
    run call certifier repeats = .ok (repeats.map fun _ => none, certifier) := by
  refine run_idle fun again listed => ?_
  obtain ⟨subdag, author, checkpoint, rfl, idle⟩ := repeated again listed
  exact call_idle anchors ran (idle.imp_left (Counted.voted anchors))

end CheckpointCertifier

end

section

attribute [local instance] plainDag checkedBuild

open CheckpointCertifier

/-- Two votes certify a checkpoint, which leaves the window with them. -/
private def prunedVotes : List CertifierCall :=
  [.push (plainReference 0 1) .default ⟨.zero, 0⟩,
    .record (plainReference 0 2) (0 : UInt64) ⟨plainReference 0 1, .default⟩,
    .record (plainReference 0 3) (1 : UInt64) ⟨plainReference 0 1, .default⟩]

/-- A second vote with another commitment, and a stranger's vote for nothing. -/
private def lateVotes : List CertifierCall :=
  [.record (plainReference 0 4) (0 : UInt64) ⟨plainReference 0 1, ⟨.replicate 32 1⟩⟩,
    .record (plainReference 0 4) (9 : UInt64) ⟨plainReference 0 7, .default⟩]

theorem lateVotes_idle : ∃ returned certifier,
    run call (.new (plainCommittee 3 (by decide)) 2) prunedVotes = .ok (returned, certifier) ∧
      run call certifier lateVotes = .ok (lateVotes.map fun _ => none, certifier) := by
  have ran : ∃ result,
      run call (.new (plainCommittee 3 (by decide)) 2) prunedVotes = .ok result := ⟨_, rfl⟩
  obtain ⟨⟨returned, certifier⟩, ran⟩ := ran
  refine ⟨returned, certifier, ran,
    resubmission_idle ⟨by decide, by decide⟩ ran lateVotes fun again listed => ?_⟩
  have counted : Counted (plainCommittee 3 (by decide)) 2 prunedVotes (0 : UInt64)
      (plainReference 0 1) :=
    ⟨_ :: [], _, _, _, _, _, rfl, rfl, 0, _, rfl, rfl, rfl, nofun⟩
  rw [lateVotes, List.mem_cons, List.mem_singleton] at listed
  rcases listed with rfl | rfl
  · exact ⟨_, _, _, rfl, .inl counted⟩
  · exact ⟨_, _, _, rfl, .inr (by decide)⟩

end

end BlockchainValidator
