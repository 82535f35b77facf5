import BlockchainValidator.Checkpoint.Resubmission

/-! # The order of votes

Whatever their order, the votes of distinct authors decide an anchor in the same
way: two quorums share a member, and its one vote has one commitment.
-/

namespace BlockchainValidator

open Execution Run MintedCheckpoint

section

variable [Dag]

/-! ## Quorums among the same votes -/

section

variable {committee : Committee} {quorum : UInt64} {all counted counted' votes more : List Vote}
  {commitment commitment' : Digest}

theorem reaches_subperm (fewer : votes.Subperm more)
    (reached : Reaches committee quorum votes commitment) :
    Reaches committee quorum more commitment := by
  obtain ⟨between, same, kept⟩ := fewer.filter fun vote => decide (vote.commitment = commitment)
  exact reached.trans (Committee.stakeOf_subperm ⟨_, same.map _, kept.map _⟩)

theorem reaches_unique
    (majority : ∑ member ∈ committee.members, (committee.stake member).toNat < 2 * quorum.toNat)
    (distinct : (all.map Vote.author).Nodup) (kept : counted.Subperm all)
    (kept' : counted'.Subperm all) (members : ∀ vote ∈ counted, vote.author ∈ committee.members)
    (members' : ∀ vote ∈ counted', vote.author ∈ committee.members)
    (reached : Reaches committee quorum counted commitment)
    (reached' : Reaches committee quorum counted' commitment') : commitment = commitment' := by
  by_contra different
  have nodup {counted : List Vote} (kept : counted.Subperm all) (commitment : Digest) :
      ((supporters counted commitment).map Vote.author).Nodup := by
    obtain ⟨between, same, fewer⟩ := kept
    exact ((same.map _).nodup (distinct.sublist (fewer.map _))).sublist (supporters_sublist.map _)
  have apart : ((supporters counted commitment).map Vote.author ++
      (supporters counted' commitment').map Vote.author).Nodup := by
    refine List.nodup_append.mpr ⟨nodup kept _, nodup kept' _, ?_⟩
    intro author supports author' supports' same
    obtain ⟨vote, voted, rfl⟩ := List.mem_map.mp supports
    obtain ⟨vote', voted', rfl⟩ := List.mem_map.mp supports'
    obtain ⟨listed, rfl⟩ := mem_supporters.mp voted
    obtain ⟨listed', rfl⟩ := mem_supporters.mp voted'
    apply different
    rw [List.inj_on_of_nodup_map distinct (kept.subset listed) (kept'.subset listed') same]
  have total := Committee.stakeOf_le apart (by
    intro voter listed
    rcases List.mem_append.mp listed with listed | listed
    · obtain ⟨vote, voted, rfl⟩ := List.mem_map.mp listed
      exact members vote (mem_supporters.mp voted).1
    · obtain ⟨vote, voted, rfl⟩ := List.mem_map.mp listed
      exact members' vote (mem_supporters.mp voted).1)
  rw [Committee.stakeOf_append] at total
  rw [Reaches] at reached reached'
  omega

theorem firstVotes_append (distinct : (more.map Vote.author).Nodup) :
    firstVotes (votes ++ more) = firstVotes votes ++
      more.filter fun vote => vote.author ∉ (firstVotes votes).map Vote.author := by
  induction more using List.reverseRecOn with
  | nil => simp
  | append_singleton more vote ih =>
      rw [List.map_append, List.nodup_append] at distinct
      have fresh : vote.author ∉ more.map Vote.author :=
        fun voted => distinct.2.2 _ voted vote.author (by simp) rfl
      have voted : vote.author ∈ ((firstVotes votes ++ more.filter fun vote =>
            vote.author ∉ (firstVotes votes).map Vote.author).map Vote.author) ↔
          vote.author ∈ (firstVotes votes).map Vote.author := by
        rw [List.map_append, List.mem_append]
        refine or_iff_left fun later => fresh ?_
        exact (List.filter_sublist.map _).subset later
      rw [← List.append_assoc, firstVotes_concat, ih distinct.1, if_congr voted rfl rfl,
        List.filter_append]
      split
      · rename_i known
        rw [List.filter_cons_of_neg (by simpa using known), List.filter_nil, List.append_nil]
      · rename_i unknown
        rw [List.filter_cons_of_pos (by simpa using unknown), List.filter_nil, List.append_assoc]

theorem firstVotes_perm (reordered : more.Perm votes) (distinct : (more.map Vote.author).Nodup)
    (before : List Vote) : (firstVotes (before ++ more)).Perm (firstVotes (before ++ votes)) := by
  rw [firstVotes_append distinct, firstVotes_append ((reordered.map _).nodup distinct)]
  exact (reordered.filter _).append_left _

end

/-! ## What the votes decide -/

namespace MintedCheckpoint

/-- The checkpoint and the checkpoint that its certificate is for. -/
def outcome (minted : MintedCheckpoint) : Checkpoint × Option Checkpoint :=
  (minted.localCheckpoint, minted.certificate.map CertifiedCheckpoint.checkpoint)

/-- Where `votes` lead a checkpoint: it waits, with all first votes and short of
a quorum, or some of the first votes gave it its certificate. -/
inductive Decided (committee : Committee) (quorum : UInt64) (votes : List Vote)
    (minted : MintedCheckpoint) : Prop where
  | waiting (uncertified : minted.certificate = none) (counted : minted.votes = firstVotes votes)
      (members : ∀ vote ∈ minted.votes, vote.author ∈ committee.members)
      (short : ∀ commitment, ¬ Reaches committee quorum minted.votes commitment)
  | settled (certificate : CertifiedCheckpoint) (counted : List Vote)
      (certified : minted.certificate = some certificate)
      (anchor : certificate.checkpoint.anchor = minted.anchor)
      (kept : counted.Sublist (firstVotes votes))
      (members : ∀ vote ∈ counted, vote.author ∈ committee.members)
      (reached : Reaches committee quorum counted certificate.checkpoint.commitment)

end MintedCheckpoint

section

variable {committee : Committee} {quorum : UInt64} {votes votes' : List Vote} {vote : Vote}
  {fresh minted minted' next : MintedCheckpoint} {output : Option Formed}
  {outputs outputs' : List (Option Formed)}

theorem MintedCheckpoint.Decided.cast (decided : Decided committee quorum votes minted)
    (cast : minted.cast committee quorum vote = .ok (output, next)) :
    Decided committee quorum (votes ++ [vote]) next := by
  obtain ⟨accepted, counts⟩ := cast_ok cast
  obtain rfl := congrArg Prod.snd counts
  have grows : (firstVotes votes).Sublist (firstVotes (votes ++ [vote])) := by
    rw [firstVotes_concat]
    split
    · exact .refl _
    · exact List.sublist_append_left _ _
  cases decided with
  | settled certificate counted certified anchor kept members reached =>
      have ignored : minted.certified = true := by rw [MintedCheckpoint.certified, certified]; rfl
      rw [vote_ignored (.inl ignored)]
      exact .settled certificate counted certified anchor (kept.trans grows) members reached
  | waiting uncertified counted members short =>
      have open' : minted.certified = false := by rw [MintedCheckpoint.certified, uncertified]; rfl
      have member : vote.author ∈ committee.members :=
        accepted.resolve_left (by simp [open'])
      by_cases voted : vote.author ∈ minted.votes.map Vote.author
      · rw [vote_ignored (.inr voted)]
        refine .waiting uncertified ?_ members short
        rw [firstVotes_concat, ← counted, if_pos voted]
      · have all : firstVotes (votes ++ [vote]) = minted.votes ++ [vote] := by
          rw [firstVotes_concat, ← counted, if_neg voted]
        have members' : ∀ listed ∈ minted.votes ++ [vote], listed.author ∈ committee.members := by
          intro listed found
          rcases List.mem_append.mp found with found | found
          · exact members listed found
          · rw [List.mem_singleton.mp found]
            exact member
        rw [vote_counted open' voted]
        split
        · rename_i reached
          exact .settled _ _ rfl rfl (all ▸ .refl _) members' reached
        · rename_i unreached
          refine .waiting uncertified all.symm members' fun commitment reached => ?_
          by_cases same : vote.commitment = commitment
          · exact unreached (same ▸ reached)
          · refine short commitment ?_
            rw [Reaches, supporters_concat, if_neg same] at reached
            exact reached

theorem run_decided (positive : 0 < quorum.toNat) (silent : fresh.votes = [])
    (uncertified : fresh.certificate = none)
    (ran : run (cast committee quorum) fresh votes = .ok (outputs, minted)) :
    Decided committee quorum votes minted := by
  refine run_history (fun votes _ minted => Decided committee quorum votes minted)
    (fun _ _ _ _ _ _ _ decided stepped => decided.cast stepped) ?_ ran
  refine .waiting uncertified silent (by simp [silent]) fun commitment reached => ?_
  rw [Reaches, silent, supporters_nil, List.map_nil, Committee.stakeOf_nil] at reached
  omega

theorem MintedCheckpoint.Decided.outcome_eq
    (majority : ∑ member ∈ committee.members, (committee.stake member).toNat < 2 * quorum.toNat)
    (decided : Decided committee quorum votes minted)
    (decided' : Decided committee quorum votes' minted')
    (reordered : (firstVotes votes).Perm (firstVotes votes'))
    (same : minted.localCheckpoint = minted'.localCheckpoint) : minted.outcome = minted'.outcome := by
  have stuck {votes votes' counted : List Vote} {minted : MintedCheckpoint} {commitment : Digest}
      (all : minted.votes = firstVotes votes)
      (short : ∀ commitment, ¬ Reaches committee quorum minted.votes commitment)
      (reordered : (firstVotes votes').Perm (firstVotes votes))
      (kept : counted.Sublist (firstVotes votes'))
      (reached : Reaches committee quorum counted commitment) : False := by
    refine short commitment (reaches_subperm ?_ reached)
    rw [all]
    exact kept.subperm.trans reordered.subperm
  rw [outcome, outcome, same, Prod.mk.injEq]
  refine ⟨rfl, ?_⟩
  cases decided with
  | waiting uncertified all members short =>
      cases decided' with
      | waiting uncertified' => rw [uncertified, uncertified']
      | settled certificate counted certified anchor kept members' reached =>
          exact (stuck all short reordered.symm kept reached).elim
  | settled certificate counted certified anchor kept members reached =>
      cases decided' with
      | waiting uncertified' all members' short =>
          exact (stuck all short reordered kept reached).elim
      | settled certificate' counted' certified' anchor' kept' members' reached' =>
          have commitment := reaches_unique majority (firstVotes_nodup votes) kept.subperm
            (kept'.subperm.trans reordered.symm.subperm) members members' reached reached'
          have anchors : certificate.checkpoint.anchor = certificate'.checkpoint.anchor := by
            rw [anchor, anchor', MintedCheckpoint.anchor, same]
            rfl
          rw [certified, certified', Option.map_some, Option.map_some, Option.some_inj]
          obtain ⟨⟨_, _⟩, _⟩ := certificate
          obtain ⟨⟨_, _⟩, _⟩ := certificate'
          cases anchors
          cases commitment
          rfl

end

/-! ## Runs -/

section

variable {committee : Committee} {quorum : UInt64} {calls calls' votes votes' : List CertifierCall}
  {outputs outputs' : List (Option Formed)} {output : Option Formed}
  {reference reference' next : ReferenceCertifier} {minted : MintedCheckpoint}
  {call : CertifierCall}

theorem mint_fresh {fresh : MintedCheckpoint} (mints : fresh ∈ calls.filterMap CertifierCall.mint) :
    fresh.votes = [] ∧ fresh.certificate = none := by
  obtain ⟨call, -, mints⟩ := List.mem_filterMap.mp mints
  cases call with
  | push =>
      cases mints
      exact ⟨rfl, rfl⟩
  | record => cases mints

theorem run_cast_keeps {ballots : List Vote} {minted' : MintedCheckpoint}
    (ran : run (cast committee quorum) minted ballots = .ok (outputs, minted')) :
    minted'.localCheckpoint = minted.localCheckpoint := by
  refine run_invariant (fun minted' => minted'.localCheckpoint = minted.localCheckpoint)
    ?_ rfl ran
  intro minted vote output next same cast
  obtain ⟨-, counts⟩ := cast_ok cast
  obtain rfl := congrArg Prod.snd counts
  exact vote_keeps.1.trans same

/-- Histories with the same mints in which, for each anchor, the same first votes
were counted, in any order, decide every anchor alike. -/
theorem Anchorwise.outcomes_eq
    (majority : ∑ member ∈ committee.members, (committee.stake member).toNat < 2 * quorum.toNat)
    (anchorwise : Anchorwise committee quorum calls outputs reference)
    (anchorwise' : Anchorwise committee quorum calls' outputs' reference')
    (distinct : (calls.filterMap CertifierCall.pushed).Nodup)
    (mints : calls.filterMap CertifierCall.mint = calls'.filterMap CertifierCall.mint)
    (reordered : ∀ anchor, (counted anchor calls).Perm (counted anchor calls')) :
    reference.minted.map outcome = reference'.minted.map outcome := by
  have keys : reference.minted.map MintedCheckpoint.anchor =
      reference'.minted.map MintedCheckpoint.anchor := by
    rw [anchorwise.anchors, anchorwise'.anchors, ← mint_pushed, ← mint_pushed, mints]
  refine map_eq_of_keys keys fun minted listed minted' listed' same => ?_
  obtain ⟨fresh, mint, anchor, ran⟩ := anchorwise.separate minted listed
  obtain ⟨fresh', mint', anchor', ran'⟩ := anchorwise'.separate minted' listed'
  have positive : 0 < quorum.toNat := by omega
  have decided := run_decided positive (mint_fresh mint).1 (mint_fresh mint).2 ran
  have decided' := run_decided positive (mint_fresh mint').1 (mint_fresh mint').2 ran'
  rw [← mints] at mint'
  obtain rfl := List.inj_on_of_nodup_map (mints_distinct distinct) mint mint'
    (anchor.trans (same.trans anchor'.symm))
  refine decided.outcome_eq majority decided' ?_
    ((run_cast_keeps ran).trans (run_cast_keeps ran').symm)
  rw [← same]
  exact reordered minted.anchor

theorem outcome_settled :
    (fun outcome : Checkpoint × Option Checkpoint => outcome.2.isSome) ∘ outcome =
      MintedCheckpoint.certified :=
  funext fun _ => Option.isSome_map

theorem pending_outcomes (reference : ReferenceCertifier) : reference.pending =
    ((reference.minted.map outcome).dropWhile fun outcome => outcome.2.isSome).map Prod.fst := by
  rw [List.dropWhile_map, outcome_settled, List.map_map]
  rfl

theorem highest_outcomes (reference : ReferenceCertifier) :
    reference.highestCertified.map CertifiedCheckpoint.checkpoint =
      ((reference.minted.map outcome).takeWhile fun outcome => outcome.2.isSome).getLast? >>=
        Prod.snd := by
  rw [List.takeWhile_map, outcome_settled, List.getLast?_map, ReferenceCertifier.highestCertified,
    ReferenceCertifier.highest]
  cases (reference.minted.takeWhile MintedCheckpoint.certified).getLast? <;> rfl

/-- The checkpoints that some vote formed a certificate for. -/
def newlyCertified (formed : List (Option Formed)) : List Checkpoint :=
  formed.filterMap fun output => output.map fun formed => formed.1.checkpoint

theorem vote_certificate {subdag : BlockReference} {author : Authority} {checkpoint : Checkpoint} :
    (minted.vote committee quorum subdag author checkpoint).2.outcome.2.toList =
      newlyCertified [(minted.vote committee quorum subdag author checkpoint).1] ++
        minted.outcome.2.toList := by
  unfold MintedCheckpoint.vote
  split
  · rfl
  · rename_i counted
    have uncertified : minted.certificate = none := by
      cases certificate : minted.certificate with
      | none => rfl
      | some certificate' =>
          exact absurd (.inl (by rw [MintedCheckpoint.certified, certificate]; rfl)) counted
    dsimp only
    split
    · rw [outcome, outcome, uncertified]
      rfl
    · rfl

theorem strictStep_certificates (stepped : reference.strictStep call = .ok (output, next)) :
    ((next.minted.map outcome).flatMap fun outcome => outcome.2.toList).Perm
      (newlyCertified [output] ++
        (reference.minted.map outcome).flatMap fun outcome => outcome.2.toList) := by
  cases call with
  | push anchor commitment timings =>
      cases stepped
      simp [ReferenceCertifier.push, newlyCertified, outcome]
  | record subdag author checkpoint =>
      rw [ReferenceCertifier.strictStep, ReferenceCertifier.strictRecord] at stepped
      split at stepped
      · cases stepped
      · have recorded := Except.ok.inj stepped
        rcases record_cases reference subdag author checkpoint with
          ⟨-, same⟩ | ⟨front, minted, back, split, -, -, same⟩
        · rw [same] at recorded
          cases recorded
          exact .refl _
        · rw [same] at recorded
          cases recorded
          rw [split]
          simp only [List.map_append, List.map_cons, List.flatMap_append, List.flatMap_cons,
            vote_certificate, List.append_assoc]
          exact List.perm_append_comm_assoc ..

theorem run_certificates
    (ran : run ReferenceCertifier.strictStep reference calls = .ok (outputs, next)) :
    ((next.minted.map outcome).flatMap fun outcome => outcome.2.toList).Perm
      (newlyCertified outputs ++
        (reference.minted.map outcome).flatMap fun outcome => outcome.2.toList) := by
  induction calls generalizing reference outputs with
  | nil =>
      cases ran
      exact .refl _
  | cons call calls ih =>
      obtain ⟨output, middle, rest, last, stepped, tail, same⟩ := run_cons_ok.mp ran
      cases same
      refine (ih tail).trans (((strictStep_certificates stepped).append_left _).trans ?_)
      have whole : newlyCertified ([output] ++ rest) = newlyCertified [output] ++ newlyCertified rest :=
        List.filterMap_append
      change List.Perm _ (newlyCertified ([output] ++ rest) ++ _)
      rw [whole, List.append_assoc]
      exact List.perm_append_comm_assoc ..

theorem strictRecord_member {subdag : BlockReference} {author : Authority} {checkpoint : Checkpoint}
    (member : author ∈ reference.committee.members) :
    reference.strictRecord subdag author checkpoint =
      .ok (reference.record subdag author checkpoint) :=
  if_neg fun refused => refused.1 member

theorem run_members (records : ∀ vote ∈ votes, vote.pushed = none)
    (members : ∀ author ∈ votes.filterMap CertifierCall.voter,
      author ∈ reference.committee.members) :
    ∃ result, run ReferenceCertifier.strictStep reference votes = .ok result := by
  induction votes generalizing reference with
  | nil => exact ⟨_, rfl⟩
  | cons vote votes ih =>
      cases vote with
      | push anchor commitment timings => cases records (.push anchor commitment timings) (by simp)
      | record subdag author checkpoint =>
          have member := members author (by simp [CertifierCall.voter])
          obtain ⟨result, tail⟩ := @ih (reference.record subdag author checkpoint).2
            (fun vote listed => records vote (by simp [listed]))
            (fun author listed => members author (by simp [CertifierCall.voter, listed]))
          exact ⟨_, run_cons_ok.mpr ⟨_, _, _, _, strictRecord_member member, tail, rfl⟩⟩

end

/-! ## Two orders of the same votes -/

/-- The author and the anchor of a vote. -/
def CertifierCall.ballot : CertifierCall → Option (Authority × BlockReference)
  | push .. => none
  | record _ author checkpoint => some (author, checkpoint.anchor)

section

variable {calls votes votes' : List CertifierCall} {anchor : BlockReference}

theorem voteFor_authors (anchor : BlockReference) (votes : List CertifierCall) :
    (votes.filterMap (voteFor anchor)).map Vote.author =
      ((votes.filterMap CertifierCall.ballot).filter fun ballot => ballot.2 = anchor).map
        Prod.fst := by
  induction votes with
  | nil => rfl
  | cons vote votes ih =>
      cases vote with
      | push => exact ih
      | record subdag author checkpoint =>
          by_cases same : checkpoint.anchor = anchor
          · simp [voteFor, CertifierCall.ballot, same, ih]
          · simp [voteFor, CertifierCall.ballot, same, ih]

theorem once_distinct (once : (votes.filterMap CertifierCall.ballot).Nodup) :
    ((votes.filterMap (voteFor anchor)).map Vote.author).Nodup := by
  rw [voteFor_authors]
  refine (once.filter _).map_on fun ballot listed ballot' listed' same => ?_
  have here := of_decide_eq_true (List.mem_filter.mp listed).2
  have here' := of_decide_eq_true (List.mem_filter.mp listed').2
  exact Prod.ext same (here.trans here'.symm)

theorem counted_reordered (once : (votes.filterMap CertifierCall.ballot).Nodup)
    (records : ∀ vote ∈ votes, vote.pushed = none) (reordered : votes.Perm votes') :
    (counted anchor (calls ++ votes)).Perm (counted anchor (calls ++ votes')) := by
  have unminted {votes : List CertifierCall} (records : ∀ vote ∈ votes, vote.pushed = none) :
      ballots anchor votes = [] :=
    ballots_unminted (by simp [(records_silent records).1])
  have records' : ∀ vote ∈ votes', vote.pushed = none :=
    fun vote listed => records vote (reordered.symm.subset listed)
  change (firstVotes (ballots anchor _)).Perm (firstVotes (ballots anchor _))
  rw [ballots_append, ballots_append]
  split
  · exact firstVotes_perm (reordered.filterMap _) (once_distinct once) _
  · rw [unminted records, unminted records']

end

namespace CheckpointCertifier

/-- Two certifiers and what they returned on the way agree on everything but the
proofs. -/
structure SameDecisions (formed : List (Option Formed)) (certifier : CheckpointCertifier)
    (formed' : List (Option Formed)) (certifier' : CheckpointCertifier) : Prop where
  certified : (newlyCertified formed).Perm (newlyCertified formed')
  pending : certifier.pending = certifier'.pending
  window : certifier.window.map (fun entry => entry.certificate.map CertifiedCheckpoint.checkpoint) =
    certifier'.window.map fun entry => entry.certificate.map CertifiedCheckpoint.checkpoint
  highest : certifier.highestCertified.map CertifiedCheckpoint.checkpoint =
    certifier'.highestCertified.map CertifiedCheckpoint.checkpoint
  returned : (formed.map (Option.map Prod.snd)).countP Option.isSome =
    (formed'.map (Option.map Prod.snd)).countP Option.isSome

theorem sameDecisions_of_outcomes {formed formed' : List (Option Formed)}
    {reference reference' : ReferenceCertifier}
    (outcomes : reference.minted.map outcome = reference'.minted.map outcome)
    (certified : (newlyCertified formed).Perm (newlyCertified formed')) :
    SameDecisions formed (ofReference reference) formed' (ofReference reference') where
  certified := certified
  pending := by
    rw [ofReference_pending, ofReference_pending, pending_outcomes, pending_outcomes, outcomes]
  window := by
    have shown (reference : ReferenceCertifier) : (ofReference reference).window.map
        (fun entry => entry.certificate.map CertifiedCheckpoint.checkpoint) =
          ((reference.minted.map outcome).dropWhile fun outcome => outcome.2.isSome).map
            Prod.snd := by
      rw [List.dropWhile_map, outcome_settled, List.map_map, ofReference, List.map_map]
      rfl
    rw [shown, shown, outcomes]
  highest := by
    have shown (reference : ReferenceCertifier) :
        (ofReference reference).highestCertified = reference.highestCertified := rfl
    rw [shown, shown, highest_outcomes, highest_outcomes, outcomes]
  returned := by
    have length (formed : List (Option Formed)) :
        (formed.map (Option.map Prod.snd)).countP Option.isSome =
          (newlyCertified formed).length := by
      rw [newlyCertified, List.length_filterMap_eq_countP, List.countP_map]
      simp [Function.comp_def]
    rw [length, length, certified.length_eq]

variable [BuildProfile] {committee : Committee} {quorum : UInt64}
  {calls votes votes' : List CertifierCall} {certifier : CheckpointCertifier}
  {returned : List (Option CheckpointTimings)}

/-- With a majority quorum, two orders of votes of which no author has two for
one anchor return, and lead to the same decisions. -/
theorem order_irrelevant
    (majority : ∑ member ∈ committee.members, (committee.stake member).toNat < 2 * quorum.toNat)
    (anchors : Admissible (calls.filterMap CertifierCall.pushed))
    (ran : run call (.new committee quorum) calls = .ok (returned, certifier))
    (records : ∀ vote ∈ votes, vote.pushed = none)
    (once : (votes.filterMap CertifierCall.ballot).Nodup) (reordered : votes.Perm votes') :
    ((∀ author ∈ votes.filterMap CertifierCall.voter, author ∈ committee.members) →
      ∃ formed next formed' next', run step certifier votes = .ok (formed, next) ∧
        run step certifier votes' = .ok (formed', next')) ∧
    ∀ formed next formed' next', run step certifier votes = .ok (formed, next) →
      run step certifier votes' = .ok (formed', next') →
      SameDecisions formed next formed' next' := by
  obtain ⟨outputs, reference, finished, rfl, rfl⟩ := (run_separate anchors).mp ran
  have wellFormed := run_wellFormed anchors finished
  have anchorwise := run_anchorwise anchors.distinct finished
  have records' : ∀ vote ∈ votes', vote.pushed = none :=
    fun vote listed => records vote (reordered.symm.subset listed)
  have strict {votes : List CertifierCall} (records : ∀ vote ∈ votes, vote.pushed = none) :
      run step (ofReference reference) votes = _ :=
    run_strict wellFormed (by
      rw [(records_silent records).1, List.append_nil]
      exact wellFormed.anchors)
  rw [strict records, strict records']
  apply And.intro
  · intro members
    rw [← anchorwise.committee_eq] at members
    obtain ⟨⟨formed, next⟩, first⟩ := run_members records members
    obtain ⟨⟨formed', next'⟩, second⟩ := run_members records' fun author listed =>
      members author ((reordered.filterMap _).symm.subset listed)
    rw [first, second]
    exact ⟨_, _, _, _, rfl, rfl⟩
  · intro formed next formed' next' first second
    obtain ⟨⟨formed, next⟩, voted, same⟩ := map_eq_ok.mp first
    obtain ⟨⟨formed', next'⟩, voted', same'⟩ := map_eq_ok.mp second
    cases same
    cases same'
    have extend {votes : List CertifierCall} {formed : List (Option Formed)}
        {next : ReferenceCertifier} (records : ∀ vote ∈ votes, vote.pushed = none)
        (rest : run ReferenceCertifier.strictStep reference votes = .ok (formed, next)) :
        Anchorwise committee quorum (calls ++ votes) (outputs ++ formed) next := by
      refine run_anchorwise ?_ (run_append_ok.mpr ⟨_, _, _, _, finished, rest, rfl⟩)
      rw [List.filterMap_append, (records_silent records).1, List.append_nil]
      exact anchors.distinct
    have outcomes := (extend records voted).outcomes_eq majority (extend records' voted') (by
      rw [List.filterMap_append, (records_silent records).1, List.append_nil]
      exact anchors.distinct) (by
      rw [List.filterMap_append, List.filterMap_append, (records_silent records).2,
        (records_silent records').2]) fun anchor => counted_reordered once records reordered
    have certified := run_certificates voted
    rw [outcomes] at certified
    exact sameDecisions_of_outcomes outcomes ((List.perm_append_right_iff _).mp
      (certified.symm.trans (run_certificates voted')))

end CheckpointCertifier

end

section

attribute [local instance] plainDag checkedBuild

open CheckpointCertifier

private def twoMints : List CertifierCall :=
  [.push (plainReference 0 1) .default ⟨.zero, 3⟩, .push (plainReference 0 2) .default ⟨.zero, 4⟩,
    .record (plainReference 0 2) (0 : UInt64) ⟨plainReference 0 2, .default⟩]

/-- Two votes for one commitment and one for another, and a quorum further on. -/
private def splitVotes : List CertifierCall :=
  [.record (plainReference 0 3) (0 : UInt64) ⟨plainReference 0 1, .default⟩,
    .record (plainReference 0 3) (2 : UInt64) ⟨plainReference 0 1, ⟨.replicate 32 1⟩⟩,
    .record (plainReference 0 4) (1 : UInt64) ⟨plainReference 0 1, .default⟩,
    .record (plainReference 0 4) (1 : UInt64) ⟨plainReference 0 2, .default⟩]

theorem splitVotes_reversed : ∃ returned certifier,
    run call (.new (plainCommittee 3 (by decide)) 2) twoMints = .ok (returned, certifier) ∧
      ∃ formed next formed' next', run step certifier splitVotes = .ok (formed, next) ∧
        run step certifier splitVotes.reverse = .ok (formed', next') ∧
        SameDecisions formed next formed' next' := by
  have ran : ∃ result,
      run call (.new (plainCommittee 3 (by decide)) 2) twoMints = .ok result := ⟨_, rfl⟩
  obtain ⟨⟨returned, certifier⟩, ran⟩ := ran
  obtain ⟨returns, same⟩ := order_irrelevant (by decide) ⟨by decide, by decide⟩ ran (by decide)
    (by decide) (List.reverse_perm splitVotes).symm
  obtain ⟨formed, next, formed', next', first, second⟩ := returns (by decide)
  exact ⟨returned, certifier, ran, formed, next, formed', next', first, second,
    same _ _ _ _ first second⟩

end

end BlockchainValidator
