import BlockchainValidator.Validator.Quiescence

/-! # The proof of a certificate

A certificate names the sub-dags that delivered its votes.  Whoever has these
sub-dags can count the votes again and need not trust the validator that holds
it.  Whoever has those of two certificates that disagree can tell who voted both
ways.
-/

namespace BlockchainValidator

open Execution Run MintedCheckpoint

section

variable [Dag]

namespace CertifiedCheckpoint

/-- The votes in the sub-dags that the proof names. -/
def evidence (certificate : CertifiedCheckpoint) (subdags : List CommittedSubDag) :
    List (Authority × Checkpoint) :=
  (subdags.filter fun subdag => subdag.anchor ∈ certificate.proof).flatMap CommittedSubDag.votes

/-- The authors of the votes for the checkpoint. -/
def backers (certificate : CertifiedCheckpoint) (subdags : List CommittedSubDag) : List Authority :=
  ((certificate.evidence subdags).filterMap fun vote =>
    if vote.2 = certificate.checkpoint then some vote.1 else none).dedup

/-- What anyone can check who has some sub-dags of the stream: the authors who
vote for the checkpoint in those that the proof names have a quorum. -/
def Verifies (committee : Committee) (quorum : UInt64) (subdags : List CommittedSubDag)
    (certificate : CertifiedCheckpoint) : Prop :=
  quorum.toNat ≤ committee.stakeOf (certificate.backers subdags)

instance (committee : Committee) (quorum : UInt64) (subdags : List CommittedSubDag)
    (certificate : CertifiedCheckpoint) : Decidable (certificate.Verifies committee quorum subdags) :=
  inferInstanceAs (Decidable (_ ≤ _))

/-- The proof lists, vote by vote, the sub-dags that carry the votes for the
checkpoint of different authors, who have a quorum with the last of them only. -/
def Itemised (committee : Committee) (quorum : UInt64) (subdags : List CommittedSubDag)
    (certificate : CertifiedCheckpoint) : Prop :=
  ∃ voters : List Authority, voters.Nodup ∧
    List.Forall₂ (fun voter anchor => ∃ subdag ∈ subdags, subdag.anchor = anchor ∧
      (voter, certificate.checkpoint) ∈ subdag.votes) voters certificate.proof ∧
    quorum.toNat ≤ committee.stakeOf voters ∧ committee.stakeOf voters.dropLast < quorum.toNat

theorem mem_evidence {certificate : CertifiedCheckpoint} {subdags : List CommittedSubDag}
    {vote : Authority × Checkpoint} : vote ∈ certificate.evidence subdags ↔
      ∃ subdag ∈ subdags, subdag.anchor ∈ certificate.proof ∧ vote ∈ subdag.votes := by
  simp [evidence, and_assoc]

theorem mem_backers {certificate : CertifiedCheckpoint} {subdags : List CommittedSubDag}
    {voter : Authority} : voter ∈ certificate.backers subdags ↔
      (voter, certificate.checkpoint) ∈ certificate.evidence subdags := by
  rw [backers, List.mem_dedup, List.mem_filterMap]
  apply Iff.intro
  · intro backs
    obtain ⟨vote, listed, read⟩ := backs
    split at read
    · rename_i same
      cases read
      rw [← same]
      exact listed
    · cases read
  · intro listed
    exact ⟨_, listed, if_pos rfl⟩

theorem backers_members {certificate : CertifiedCheckpoint} {subdags : List CommittedSubDag}
    {committee : Committee} (signed : ∀ subdag ∈ subdags, subdag.SignedBy committee)
    {voter : Authority} (backs : voter ∈ certificate.backers subdags) : voter ∈ committee.members := by
  obtain ⟨subdag, listed, -, carried⟩ := mem_evidence.mp (mem_backers.mp backs)
  exact (signed subdag listed).votes _ carried

/-- Whoever counts again finds the listed votes at least. -/
theorem Itemised.verifies {certificate : CertifiedCheckpoint} {committee : Committee} {quorum : UInt64}
    {subdags : List CommittedSubDag} (itemised : certificate.Itemised committee quorum subdags) :
    certificate.Verifies committee quorum subdags := by
  obtain ⟨voters, distinct, listed, reached, -⟩ := itemised
  have backed : voters ⊆ certificate.backers subdags := by
    intro voter votes
    obtain ⟨anchor, named, subdag, found, rfl, carried⟩ := forall₂_mem listed votes
    exact mem_backers.mpr (mem_evidence.mpr ⟨subdag, found, named, carried⟩)
  exact reached.trans (Committee.stakeOf_subperm (List.subperm_of_subset distinct backed))

end CertifiedCheckpoint

/-- The vote that completes a certificate is the last of its supporters. -/
theorem Completes.last_supporter {committee : Committee} {quorum : UInt64} {before : List CertifierCall}
    {call : CertifierCall} {certificate : CertifiedCheckpoint}
    (completes : Completes committee quorum before call certificate) :
    ∃ vote, supporters (counted certificate.checkpoint.anchor (before ++ [call]))
        certificate.checkpoint.commitment =
      supporters (counted certificate.checkpoint.anchor before) certificate.checkpoint.commitment ++
        [vote] := by
  have changes := completes.changes
  have grown := counted_concat certificate.checkpoint.anchor before call
  cases voted : voteFor certificate.checkpoint.anchor call with
  | none => exact absurd (counted_other voted) changes
  | some vote =>
      rw [voted] at grown
      dsimp only at grown
      split at grown
      · exact absurd grown changes
      · refine ⟨vote, ?_⟩
        rw [grown, supporters_concat, if_pos (completes.commitment_eq grown).symm]

/-- Some call completed the certificate that is held. -/
theorem CheckpointCertifier.held_completes [BuildProfile] {committee : Committee} {quorum : UInt64}
    {calls : List CertifierCall} {formed : List (Option Formed)} {certifier : CheckpointCertifier}
    {certificate : CertifiedCheckpoint} (positive : 0 < quorum)
    (admissible : AdmissibleCalls committee [] calls)
    (ran : run CheckpointCertifier.step (.new committee quorum) calls = .ok (formed, certifier))
    (held : certificate ∈ certifier.held) :
    ∃ before call, before ++ [call] <+: calls ∧ Completes committee quorum before call certificate := by
  obtain ⟨formed', reference, ran', follows, explained⟩ := run_follows committee quorum calls
    positive admissible
  cases ran.symm.trans ran'
  obtain ⟨timings, member⟩ := follows.held_formed held
  obtain ⟨index, found⟩ := List.mem_iff_getElem?.mp member
  obtain ⟨call, called, completes⟩ := explained.at (run_length ran) found
  obtain ⟨inside, rfl⟩ := List.getElem?_eq_some_iff.mp called
  refine ⟨_, _, ?_, completes⟩
  rw [List.take_concat_get']
  exact List.take_prefix _ _

section

variable [Hasher] [BuildProfile] {engine engine' : ExecutionEngine} {committee : Committee}
  {quorum : UInt64} {deliveries deliveries' : List Delivery} {outcomes outcomes' : List SubdagOutcome}
  {state state' : ExecutionState} {certificate certificate' : CertifiedCheckpoint}
  {subdags : List CommittedSubDag}

/-- The votes that formed a certificate are in the sub-dags that its proof names. -/
theorem ExecutionState.held_itemised (positive : 0 < quorum)
    (admissible : AdmissibleStream committee (deliveries.map Delivery.subdag))
    (ran : run deliver (.new engine committee quorum) deliveries = .ok (outcomes, state))
    (held : certificate ∈ state.certifier.held)
    (named : ∀ delivery ∈ deliveries, delivery.subdag.anchor ∈ certificate.proof →
      delivery.subdag ∈ subdags) : certificate.Itemised committee quorum subdags := by
  obtain ⟨calls, outputs, called, callsOf⟩ := run_calls ran
  obtain ⟨before, call, front, completes⟩ :=
    CheckpointCertifier.held_completes positive (run_admissible admissible ran callsOf) called held
  let votes := counted certificate.checkpoint.anchor (before ++ [call])
  refine ⟨(supporters votes certificate.checkpoint.commitment).map Vote.author,
    (counted_nodup _ _).sublist (supporters_sublist.map _), ?_, completes.reached, ?_⟩
  · rw [completes.proof, List.forall₂_map_left_iff, List.forall₂_map_right_iff, List.forall₂_same]
    intro vote supports
    have proves : vote.deliveredIn ∈ certificate.proof := by
      rw [completes.proof]
      exact List.mem_map_of_mem supports
    obtain ⟨member, same⟩ := mem_supporters.mp supports
    have recorded := front.subset (counted_recorded member)
    rw [same] at recorded
    have inside : (vote.deliveredIn, vote.author, certificate.checkpoint) ∈
        calls.filterMap CertifierCall.recorded := List.mem_filterMap.mpr ⟨_, recorded, rfl⟩
    rw [callsOf.recorded] at inside
    obtain ⟨delivery, delivered, voted⟩ := List.mem_flatMap.mp inside
    obtain ⟨cast, carried, equal⟩ := List.mem_map.mp voted
    obtain ⟨anchored, rfl⟩ := Prod.mk.inj equal
    rw [← anchored] at proves
    exact ⟨delivery.subdag, named _ delivered proves, anchored, carried⟩
  · obtain ⟨vote, last⟩ := completes.last_supporter
    rw [last, List.map_append, List.map_singleton, List.dropLast_concat]
    exact Nat.lt_of_not_le fun reached => completes.short ⟨_, reached⟩

theorem ExecutionState.held_verifies (positive : 0 < quorum)
    (admissible : AdmissibleStream committee (deliveries.map Delivery.subdag))
    (ran : run deliver (.new engine committee quorum) deliveries = .ok (outcomes, state))
    (held : certificate ∈ state.certifier.held) :
    certificate.Verifies committee quorum (deliveries.map Delivery.subdag) :=
  (held_itemised positive admissible ran held
    fun _ delivered _ => List.mem_map_of_mem delivered).verifies

/-! ## What a fork gives away -/

/-- Of the votes, two of the author's are for one anchor and disagree. -/
def Equivocates (votes votes' : List (Authority × Checkpoint)) (author : Authority) : Prop :=
  ∃ vote ∈ votes, ∃ vote' ∈ votes', vote.1 = author ∧ vote'.1 = author ∧
    vote.2.anchor = vote'.2.anchor ∧ vote.2.commitment ≠ vote'.2.commitment

instance (votes votes' : List (Authority × Checkpoint)) (author : Authority) :
    Decidable (Equivocates votes votes' author) :=
  inferInstanceAs (Decidable (∃ vote ∈ votes, _))

/-- Wherever two certificates for one anchor disagree, on one stream or on two, the
sub-dags that their proofs name show members voting both ways, with at least the
stake that two quorums have in excess of the committee's. -/
theorem ExecutionState.forks_accountable (positive : 0 < quorum)
    (admissible : AdmissibleStream committee (deliveries.map Delivery.subdag))
    (admissible' : AdmissibleStream committee (deliveries'.map Delivery.subdag))
    (ran : run deliver (.new engine committee quorum) deliveries = .ok (outcomes, state))
    (ran' : run deliver (.new engine' committee quorum) deliveries' = .ok (outcomes', state'))
    (held : certificate ∈ state.certifier.held) (held' : certificate' ∈ state'.certifier.held)
    (same : certificate.checkpoint.anchor = certificate'.checkpoint.anchor)
    (differs : certificate.checkpoint.commitment ≠ certificate'.checkpoint.commitment) :
    2 * quorum.toNat ≤ ∑ member ∈ committee.members, (committee.stake member).toNat +
      ∑ member ∈ committee.members with
        Equivocates (certificate.evidence (deliveries.map Delivery.subdag))
          (certificate'.evidence (deliveries'.map Delivery.subdag)) member,
        (committee.stake member).toNat := by
  have reached := held_verifies positive admissible ran held
  have reached' := held_verifies positive admissible' ran' held'
  have members (voter : Authority) (backs : voter ∈ certificate.backers _) :=
    CertifiedCheckpoint.backers_members admissible.signed backs
  have members' (voter : Authority) (backs : voter ∈ certificate'.backers _) :=
    CertifiedCheckpoint.backers_members admissible'.signed backs
  calc
    2 * quorum.toNat ≤ committee.stakeOf (certificate.backers (deliveries.map Delivery.subdag)) +
        committee.stakeOf (certificate'.backers (deliveries'.map Delivery.subdag)) := by
      rw [CertifiedCheckpoint.Verifies] at reached reached'
      omega
    _ ≤ _ := by
      apply committee.stakeOf_shared (List.nodup_dedup _) (List.nodup_dedup _) members members'
      intro voter backs backs'
      refine Finset.mem_filter.mpr ⟨members voter backs, ?_⟩
      exact ⟨_, CertifiedCheckpoint.mem_backers.mp backs, _,
        CertifiedCheckpoint.mem_backers.mp backs', rfl, rfl, same, differs⟩

end

/-! ## In a network -/

section

variable [Hasher] [BuildProfile] {config : ValidatorConfig} {honest : Finset Authority}
  {network : Network} {certificate : CertifiedCheckpoint} {subdags : List CommittedSubDag}

theorem Node.Consistent.itemised {node : Node} (consistent : node.Consistent config)
    (positive : 0 < config.quorum) (admissible : AdmissibleStream config.committee node.wal)
    (held : certificate ∈ node.driver.state.certifier.held)
    (named : ∀ subdag ∈ node.wal, subdag.anchor ∈ certificate.proof → subdag ∈ subdags) :
    certificate.Itemised config.committee config.quorum subdags := by
  obtain ⟨deliveries, minted, split, ran⟩ := consistent.received
  obtain ⟨outcomes, executed, -⟩ := Driver.run_state ran
  refine ExecutionState.held_itemised positive (admissible.front ⟨_, split⟩) executed held ?_
  intro delivery delivered
  apply named
  rw [← split]
  exact List.mem_append_left _ (List.mem_map_of_mem delivered)

/-- Whatever verifies against sub-dags of the stream is the stream's own. -/
theorem Network.Sound.verified (sound : network.Sound config honest)
    (faulty : ∑ member ∈ config.committee.members \ honest, (config.committee.stake member).toNat <
      config.quorum.toNat)
    (genuine : subdags ⊆ network.stream)
    (verifies : certificate.Verifies config.committee config.quorum subdags) :
    Canonical config.engine network.stream certificate.checkpoint := by
  have members : ∀ voter ∈ certificate.backers subdags, voter ∈ config.committee.members :=
    fun voter => CertifiedCheckpoint.backers_members fun subdag listed =>
      sound.admissible.signed subdag (genuine listed)
  obtain ⟨voter, backs, honestly⟩ :=
    config.committee.exists_honest faulty (List.nodup_dedup _) members verifies
  obtain ⟨subdag, listed, -, carried⟩ :=
    CertifiedCheckpoint.mem_evidence.mp (CertifiedCheckpoint.mem_backers.mp backs)
  exact sound.canonical subdag (genuine listed) _ carried honestly

/-- The proofs that honest validators hold list votes of the sub-dags that they
name, vote by vote, up to the quorum.  Where the faulty have no quorum, nothing
verifies against sub-dags of the stream but the stream's own history. -/
theorem Network.proofs_verify (positive : 0 < config.quorum) (reachable : Reachable config honest network) :
    (∀ validator ∈ honest, ∀ certificate ∈ (network.nodes validator).driver.state.certifier.held,
      ∀ subdags : List CommittedSubDag,
        (∀ subdag ∈ network.stream, subdag.anchor ∈ certificate.proof → subdag ∈ subdags) →
          certificate.Itemised config.committee config.quorum subdags ∧
            certificate.Verifies config.committee config.quorum subdags) ∧
    (∑ member ∈ config.committee.members \ honest, (config.committee.stake member).toNat <
        config.quorum.toNat →
      ∀ (certificate : CertifiedCheckpoint) (subdags : List CommittedSubDag),
        subdags ⊆ network.stream → certificate.Verifies config.committee config.quorum subdags →
          Canonical config.engine network.stream certificate.checkpoint) := by
  have sound := reachable.sound
  refine ⟨fun validator _ certificate held subdags named => ?_, fun faulty certificate subdags genuine =>
    sound.verified faulty genuine⟩
  have behind := sound.behind validator
  have itemised := (sound.consistent validator).itemised positive (sound.admissible.front behind) held
    fun subdag listed => named subdag (behind.subset listed)
  exact ⟨itemised, itemised.verifies⟩

end

end

section

attribute [local instance] plainDag checkedBuild blake2b

private def forkBallot : List UInt8 :=
  Envelope.toBytes ⟨8, .attest ⟨plainReference 0 1, ⟨.replicate 32 1⟩⟩⟩

/-- The other stream carries two votes for another commitment, one of a voter of the first. -/
private def forkVoting : CommittedSubDag :=
  ⟨plainReference 0 2, [((0 : UInt64), [forkBallot]), ((1 : UInt64), [forkBallot])]⟩

private def trunk : List Delivery := [⟨⟨5⟩, trioExecuting⟩, ⟨⟨6⟩, trioVoting⟩]

private def fork : List Delivery := [⟨⟨5⟩, trioExecuting⟩, ⟨⟨7⟩, forkVoting⟩]

private theorem fork_admissible :
    AdmissibleStream trioConfig.committee (fork.map Delivery.subdag) where
  anchors := by
    change Admissible [plainReference 0 1, plainReference 0 2]
    exact ⟨by decide, by decide⟩
  signed := by
    intro subdag listed block inside
    have few : block.1 = (0 : UInt64) ∨ block.1 = (1 : UInt64) := by
      rcases List.mem_pair.mp listed with rfl | rfl
      · exact .inl (congrArg Prod.fst (List.mem_singleton.mp inside))
      · exact (List.mem_pair.mp inside).imp (congrArg Prod.fst) (congrArg Prod.fst)
    change block.1 ∈ (Finset.range 3).image UInt64.ofNat
    rcases few with author | author <;> rw [author] <;> decide

/-- A certificate of each stream, and the one who voted both ways. -/
theorem forked_accountable :
    ∃ outcomes state outcomes' state', ∃ certificate certificate' : CertifiedCheckpoint,
      run ExecutionState.deliver (.new fakeExecutor trioConfig.committee 2) trunk =
        .ok (outcomes, state) ∧
      run ExecutionState.deliver (.new fakeExecutor trioConfig.committee 2) fork =
        .ok (outcomes', state') ∧
      certificate ∈ state.certifier.held ∧ certificate' ∈ state'.certifier.held ∧
      certificate.checkpoint.commitment ≠ certificate'.checkpoint.commitment ∧
      2 * (2 : UInt64).toNat ≤
        ∑ member ∈ trioConfig.committee.members, (trioConfig.committee.stake member).toNat +
          ∑ member ∈ trioConfig.committee.members with
            Equivocates (certificate.evidence (trunk.map Delivery.subdag))
              (certificate'.evidence (fork.map Delivery.subdag)) member,
            (trioConfig.committee.stake member).toNat := by
  obtain ⟨outcomes, state, outcomes', state', ran, ran', held, held'⟩ :
      ∃ outcomes state outcomes' state',
        run ExecutionState.deliver (.new fakeExecutor trioConfig.committee 2) trunk =
          .ok (outcomes, state) ∧
        run ExecutionState.deliver (.new fakeExecutor trioConfig.committee 2) fork =
          .ok (outcomes', state') ∧
        state.certifier.held =
          [⟨⟨plainReference 0 1, .default⟩, [plainReference 0 2, plainReference 0 2]⟩] ∧
        state'.certifier.held =
          [⟨⟨plainReference 0 1, ⟨.replicate 32 1⟩⟩, [plainReference 0 2, plainReference 0 2]⟩] :=
    ⟨_, _, _, _, rfl, rfl, rfl, rfl⟩
  have trunk_admissible : AdmissibleStream trioConfig.committee (trunk.map Delivery.subdag) :=
    ⟨fork_admissible.anchors, trio_signed⟩
  have differs : (Digest.default : Digest) ≠ ⟨.replicate 32 1⟩ := by decide
  refine ⟨outcomes, state, outcomes', state', _, _, ran, ran', held ▸ List.mem_singleton_self _,
    held' ▸ List.mem_singleton_self _, differs, ?_⟩
  exact ExecutionState.forks_accountable (by decide) trunk_admissible fork_admissible ran ran'
    (held ▸ List.mem_singleton_self _) (held' ▸ List.mem_singleton_self _) rfl differs

theorem trio_proofs : ∃ network, Network.Reachable trioConfig honestTwo network ∧
    ∃ certificate ∈ (network.nodes (1 : UInt64)).driver.state.certifier.held,
      certificate.Itemised trioConfig.committee trioConfig.quorum network.stream ∧
      certificate.Verifies trioConfig.committee trioConfig.quorum network.stream ∧
      Canonical trioConfig.engine network.stream certificate.checkpoint := by
  obtain ⟨network, reachable, -, -, held⟩ := trio_quiescent
  obtain ⟨listed, genuine⟩ := Network.proofs_verify (by decide) reachable
  obtain ⟨certificate, inside⟩ := List.exists_mem_of_ne_nil _ held
  obtain ⟨itemised, verifies⟩ := listed (1 : UInt64) (by decide) certificate inside network.stream
    fun _ streamed _ => streamed
  exact ⟨network, reachable, certificate, inside, itemised, verifies,
    genuine (by decide) certificate network.stream (List.Subset.refl _) verifies⟩

end

end BlockchainValidator
