import BlockchainValidator.Validator.Attestation
import BlockchainValidator.Validator.Network
import BlockchainValidator.Validator.Settlement

/-! # What a network certifies once it is quiet

Restarts lose the votes in flight, blocks come in any order and the others vote
as they like.  All the same, once the votes of the running honest processes are
committed and received, nothing is left to certify.
-/

namespace BlockchainValidator

open Execution Run MintedCheckpoint

section

variable [Dag]

/-! ## Votes that arrive after the mint -/

section

variable {stream : List CommittedSubDag} {anchor : BlockReference} {commitment : Digest}
  {voter : Authority}

/-- A vote for a minted anchor counts if the anchor's sub-dag is before it. -/
theorem mem_ballotsIn (distinct : (stream.map CommittedSubDag.anchor).Nodup)
    {mint : CommittedSubDag} (minting : mint ∈ stream) (mints : mint.Mints anchor)
    {before after : List CommittedSubDag} {subdag : CommittedSubDag}
    (split : stream = before ++ subdag :: after)
    (earlier : anchor ∈ before.map CommittedSubDag.anchor)
    (carried : (voter, (⟨anchor, commitment⟩ : Checkpoint)) ∈ subdag.votes) :
    ⟨voter, commitment, subdag.anchor⟩ ∈ ballotsIn anchor stream := by
  have voted : ⟨voter, commitment, subdag.anchor⟩ ∈ subdag.votesFor anchor :=
    List.mem_filterMap.mpr ⟨_, carried, if_pos rfl⟩
  obtain ⟨other, front, same⟩ := List.mem_map.mp earlier
  obtain rfl : other = mint := by
    apply List.inj_on_of_nodup_map distinct _ minting (same.trans mints.1.symm)
    rw [split]
    exact List.mem_append_left _ front
  obtain ⟨first, middle, rfl⟩ := List.append_of_mem front
  -- The mint is not dropped, and the vote comes after it.
  have kept : subdag ∈ stream.dropWhile fun subdag => ¬ subdag.Mints anchor := by
    rw [split, List.append_assoc, List.cons_append, List.dropWhile_append]
    split
    · rw [List.dropWhile_cons_of_neg (by simp [mints])]
      simp
    · simp
  exact List.mem_flatMap.mpr ⟨subdag, kept, voted⟩

theorem firstVotes_author {votes : List Vote} {vote : Vote} (listed : vote ∈ votes) :
    ∃ first ∈ firstVotes votes, first.author = vote.author := by
  induction votes using List.reverseRecOn with
  | nil => cases listed
  | append_singleton votes last ih =>
      rw [firstVotes_concat]
      have before (earlier : vote ∈ votes) :
          ∃ first ∈ firstVotes votes, first.author = vote.author := ih earlier
      rcases List.mem_append.mp listed with earlier | now
      · obtain ⟨first, counted, same⟩ := before earlier
        split
        · exact ⟨first, counted, same⟩
        · exact ⟨first, List.mem_append_left _ counted, same⟩
      · rw [List.mem_singleton.mp now]
        split
        · rename_i voted
          exact List.mem_map.mp voted
        · exact ⟨last, by simp, rfl⟩

end

/-- The votes of honest authors come after the sub-dags that they are for. -/
def Timely [Hasher] (engine : ExecutionEngine) (honest : Finset Authority)
    (stream : List CommittedSubDag) : Prop :=
  ∀ before subdag after, stream = before ++ subdag :: after → ∀ vote ∈ subdag.votes,
    vote.1 ∈ honest → Canonical engine before vote.2

section

variable [Hasher] {engine : ExecutionEngine} {honest : Finset Authority}
  {stream : List CommittedSubDag} {committee : Committee} {quorum : UInt64}
  {anchor : BlockReference} {commitment : Digest} {voter : Authority}

theorem Timely.concat (timely : Timely engine honest stream) {subdag : CommittedSubDag}
    (votes : ∀ vote ∈ subdag.votes, vote.1 ∈ honest → Canonical engine stream vote.2) :
    Timely engine honest (stream ++ [subdag]) := by
  intro before other after split
  rcases List.eq_nil_or_concat after with rfl | ⟨rest, last, rfl⟩
  · obtain ⟨rfl, same⟩ := List.append_inj' split rfl
    cases same
    exact votes
  · rw [List.concat_eq_append, ← List.cons_append, ← List.append_assoc] at split
    exact timely before other rest (List.append_inj' split rfl).1

theorem Canonical.anchored {checkpoint : Checkpoint}
    (canonical : Canonical engine stream checkpoint) :
    checkpoint.anchor ∈ stream.map CommittedSubDag.anchor := by
  obtain ⟨before, subdag, after, _, _, rfl, same, -, -⟩ := canonical
  rw [same]
  exact List.mem_map_of_mem (by simp)

theorem Timely.canonical (timely : Timely engine honest stream) {subdag : CommittedSubDag}
    (listed : subdag ∈ stream) {vote : Authority × Checkpoint} (carried : vote ∈ subdag.votes)
    (honestly : vote.1 ∈ honest) : Canonical engine stream vote.2 := by
  obtain ⟨before, after, split⟩ := List.append_of_mem listed
  have early := timely before subdag after split vote carried honestly
  rw [split]
  exact early.append (subdag :: after)

/-- The vote of an honest author is counted for the stream's own commitment. -/
theorem Timely.supports (timely : Timely engine honest stream)
    (distinct : (stream.map CommittedSubDag.anchor).Nodup)
    {mint subdag : CommittedSubDag} (minting : mint ∈ stream) (mints : mint.Mints anchor)
    (honestly : voter ∈ honest) (listed : subdag ∈ stream)
    (carried : (voter, (⟨anchor, commitment⟩ : Checkpoint)) ∈ subdag.votes) :
    voter ∈ (supporters (firstVotes (ballotsIn anchor stream)) commitment).map Vote.author := by
  have canonical := timely.canonical listed carried honestly
  obtain ⟨before, after, split⟩ := List.append_of_mem listed
  have early := (timely before subdag after split _ carried honestly).anchored
  have voted := mem_ballotsIn distinct minting mints split early carried
  obtain ⟨first, counted, author⟩ := firstVotes_author voted
  obtain ⟨other, inside, cast⟩ := List.mem_flatMap.mp (firstVotes_subset _ counted)
  obtain ⟨vote, carried', read⟩ := List.mem_filterMap.mp cast
  split at read
  · rename_i same
    cases read
    have inside' := (List.dropWhile_sublist _).subset inside
    have canonical' := timely.canonical inside' carried' (by
      rw [show vote.1 = voter from author]
      exact honestly)
    have equal := Canonical.unique distinct canonical' canonical same
    exact List.mem_map.mpr ⟨_, mem_supporters.mpr ⟨counted, equal⟩, author⟩
  · cases read

/-- The votes of the honest settle what they are for. -/
theorem Timely.settled (timely : Timely engine honest stream)
    (distinct : (stream.map CommittedSubDag.anchor).Nodup)
    (correct : quorum.toNat ≤ ∑ member ∈ honest, (committee.stake member).toNat)
    {mint : CommittedSubDag} (minting : mint ∈ stream) (mints : mint.Mints anchor)
    (someone : honest.Nonempty)
    (voted : ∀ voter ∈ honest, ∃ subdag ∈ stream,
      (voter, (⟨anchor, commitment⟩ : Checkpoint)) ∈ subdag.votes) :
    Settled committee quorum stream anchor := by
  have supported (voter : Authority) (honestly : voter ∈ honest) :
      voter ∈ (supporters (firstVotes (ballotsIn anchor stream)) commitment).map Vote.author := by
    obtain ⟨subdag, listed, carried⟩ := voted voter honestly
    exact timely.supports distinct minting mints honestly listed carried
  have nodup : ((supporters (firstVotes (ballotsIn anchor stream)) commitment).map
      Vote.author).Nodup := (firstVotes_nodup _).sublist (supporters_sublist.map _)
  have subset : honest ⊆
      ((supporters (firstVotes (ballotsIn anchor stream)) commitment).map Vote.author).toFinset :=
    fun voter honestly => List.mem_toFinset.mpr (supported voter honestly)
  have reached : Reaches committee quorum (firstVotes (ballotsIn anchor stream)) commitment := by
    rw [Reaches, Committee.stakeOf_toFinset nodup]
    exact correct.trans (Finset.sum_le_sum_of_subset subset)
  obtain ⟨voter, honestly⟩ := someone
  obtain ⟨vote, supports, -⟩ := List.mem_map.mp (supported voter honestly)
  obtain ⟨counted, rfl⟩ := mem_supporters.mp supports
  exact ⟨vote, counted, reached⟩

end

/-! ## What one validator makes of the stream -/

section

variable {committee : Committee} {quorum : UInt64} {stream : List CommittedSubDag}
  {reference : ReferenceCertifier} {anchor : BlockReference}

theorem TookCalls.minted (took : TookCalls committee quorum stream reference)
    (distinct : (stream.map CommittedSubDag.anchor).Nodup) :
    anchor ∈ reference.minted.map MintedCheckpoint.anchor ↔ ∃ subdag ∈ stream, subdag.Mints anchor := by
  obtain ⟨batches, outputs, calling, ran⟩ := took
  rw [(run_anchorwise (distinct.sublist (pushed_stream calling)) ran).anchors]
  clear distinct ran
  induction calling with
  | nil => simp
  | cons head _ ih =>
      rw [List.flatten_cons, List.filterMap_append, List.mem_append,
        CommittedSubDag.mem_calls_pushed head, ih]
      simp

theorem TookCalls.distinct (took : TookCalls committee quorum stream reference)
    (distinct : (stream.map CommittedSubDag.anchor).Nodup) :
    (reference.minted.map MintedCheckpoint.anchor).Nodup := by
  obtain ⟨batches, outputs, calling, ran⟩ := took
  have minting := distinct.sublist (pushed_stream calling)
  rw [(run_anchorwise minting ran).anchors]
  exact minting

theorem TookCalls.pending (took : TookCalls committee quorum stream reference)
    (distinct : (stream.map CommittedSubDag.anchor).Nodup) {subdag : CommittedSubDag}
    (listed : subdag ∈ stream) (mints : subdag.Mints anchor)
    (unsettled : ¬ Settled committee quorum stream anchor) :
    ∃ checkpoint ∈ reference.pending, checkpoint.anchor = anchor := by
  obtain ⟨minted, inside, rfl⟩ := List.mem_map.mp ((took.minted distinct).mpr ⟨subdag, listed, mints⟩)
  rw [← took.settled distinct] at unsettled
  have uncertified : ¬ minted.certified = true := fun certified =>
    unsettled (List.mem_map_of_mem (List.mem_filter.mpr ⟨inside, certified⟩))
  refine ⟨minted.localCheckpoint, List.mem_map_of_mem ?_, rfl⟩
  rw [← List.takeWhile_append_dropWhile (p := MintedCheckpoint.certified) (l := reference.minted)] at inside
  rcases List.mem_append.mp inside with front | back
  · exact absurd (List.mem_takeWhile_imp front) uncertified
  · exact back

theorem TookCalls.all_settled (took : TookCalls committee quorum stream reference)
    (distinct : (stream.map CommittedSubDag.anchor).Nodup)
    (settled : ∀ subdag ∈ stream, ∀ anchor, subdag.Mints anchor →
      Settled committee quorum stream anchor) : reference.pending = [] := by
  have certified (minted : MintedCheckpoint) (inside : minted ∈ reference.minted) :
      minted.certified = true := by
    obtain ⟨subdag, listed, mints⟩ := (took.minted distinct).mp (List.mem_map_of_mem inside)
    have done := (took.settled distinct).mpr (settled subdag listed _ mints)
    obtain ⟨other, kept, same⟩ := List.mem_map.mp done
    obtain ⟨inside', holds⟩ := List.mem_filter.mp kept
    obtain rfl := List.inj_on_of_nodup_map (took.distinct distinct) inside' inside same
    exact holds
  rw [ReferenceCertifier.pending, List.dropWhile_eq_nil_iff.mpr certified]
  rfl

end

section

variable [Hasher] [BuildProfile] {config : ValidatorConfig} {honest : Finset Authority}
  {network next : Network} {validator : Authority}

/-- The last minted commitment is the store's. -/
theorem ExecutionState.run_lastMinted {engine : ExecutionEngine} {committee : Committee}
    {quorum : UInt64} {deliveries : List Delivery} {outcomes : List SubdagOutcome}
    {last : ExecutionState} {checkpoint : Checkpoint}
    (ran : run deliver (.new engine committee quorum) deliveries = .ok (outcomes, last))
    (minted : (mintedBy outcomes).getLast? = some checkpoint) :
    checkpoint.commitment = last.scheduler.store.commitment := by
  refine run_history (fun _ outcomes state => (mintedBy outcomes).getLast? = some checkpoint →
    checkpoint.commitment = state.scheduler.store.commitment) ?_ (fun nothing => by cases nothing) ran
    minted
  intro _ outcomes state delivery outcome next _ held delivered minted
  obtain ⟨_, scheduler, _, _, _, -, executed, -, rfl, rfl⟩ := executeSubdag_ok.mp delivered
  rw [mintedBy_concat] at minted
  dsimp only at minted ⊢
  rw [CommittedSubDag.minted] at minted
  split at minted
  · rename_i nothing
    rw [nothing] at executed
    cases executed
    rw [Option.toList_none, List.append_nil] at minted
    exact held minted
  · rw [Option.toList_some, List.getLast?_concat] at minted
    cases minted
    rfl

theorem ExecutionState.run_mintless {state last : ExecutionState} {deliveries : List Delivery}
    {outcomes : List SubdagOutcome} (ran : run deliver state deliveries = .ok (outcomes, last))
    (mintless : mintedBy outcomes = []) :
    ∀ delivery ∈ deliveries, delivery.subdag.transactions = [] := by
  induction deliveries generalizing state outcomes with
  | nil => exact fun _ listed => by cases listed
  | cons delivery deliveries ih =>
      obtain ⟨outcome, middle, rest, _, delivered, tail, same⟩ := run_cons_ok.mp ran
      cases same
      obtain ⟨_, scheduler, _, _, _, -, -, -, rfl, rfl⟩ := executeSubdag_ok.mp delivered
      have nothing : delivery.subdag.transactions = [] := by
        by_contra executes
        rw [mintedBy, List.filterMap_cons_some (by rw [CommittedSubDag.minted, if_neg executes])]
          at mintless
        cases mintless
      rw [mintedBy, List.filterMap_cons_none (by rw [CommittedSubDag.minted, if_pos nothing])] at mintless
      intro other listed
      rcases List.mem_cons.mp listed with rfl | later
      · exact nothing
      · exact ih tail mintless other later

/-! ## The network -/

namespace Network

omit [Hasher] [BuildProfile] in
theorem update_nodes_other {node : Node} {other : Authority} (apart : other ≠ validator) :
    (network.update validator node).nodes other = network.nodes other :=
  Function.update_of_ne apart ..

theorem Reachable.timely (reachable : Reachable config honest network) :
    Timely config.engine honest network.stream := by
  induction reachable with
  | refl =>
      intro before subdag after split
      cases before <;> cases split
  | tail earlier stepped timely =>
      cases stepped with
      | grow _ _ authentic =>
          apply timely.concat
          intro vote carried honestly
          exact (Reachable.sound earlier).submitted (authentic vote carried honestly)
      | run => exact timely

/-- Whatever the process that runs at `validator` has submitted is committed. -/
def Committed (config : ValidatorConfig) (network : Network) (validator : Authority) : Prop :=
  ∃ events incarnation, Incarnation.Runs config incarnation events (network.nodes validator) ∧
    ∀ checkpoint ∈ incarnation.submissions,
      ∃ subdag ∈ network.stream, (validator, checkpoint) ∈ subdag.votes

/-- Nothing that the honest processes wait for is in flight. -/
structure Quiescent (config : ValidatorConfig) (honest : Finset Authority) (network : Network) :
    Prop where
  received : ∀ validator ∈ honest, (network.nodes validator).wal = network.stream ∧
    (network.nodes validator).queue = []
  committed : ∀ validator ∈ honest, network.Committed config validator

/-- The honest have received the stream, and it holds their votes for whatever
they still find uncertified. -/
structure Heard (honest : Finset Authority) (network : Network) : Prop where
  received : ∀ validator ∈ honest, (network.nodes validator).wal = network.stream ∧
    (network.nodes validator).queue = []
  voted : ∀ validator ∈ honest,
    ∀ checkpoint ∈ (network.nodes validator).driver.state.certifier.pending,
      ∃ subdag ∈ network.stream, (validator, checkpoint) ∈ subdag.votes

theorem Quiescent.heard (quiescent : network.Quiescent config honest) : network.Heard honest where
  received := quiescent.received
  voted validator member checkpoint waiting := by
    obtain ⟨events, incarnation, runs, committed⟩ := quiescent.committed validator member
    exact committed checkpoint ((ExecutionState.run_pending runs.receive).subset waiting)

/-- What one validator has made of the whole stream. -/
theorem Heard.ran (heard : network.Heard honest) (reachable : Reachable config honest network)
    (member : validator ∈ honest) :
    ∃ deliveries minted, deliveries.map Delivery.subdag = network.stream ∧
      run Driver.deliver (.new config) deliveries =
        .ok (minted, (network.nodes validator).driver) := by
  obtain ⟨deliveries, minted, split, ran⟩ := (reachable.sound.consistent validator).received
  obtain ⟨recorded, empty⟩ := heard.received validator member
  rw [empty, List.append_nil, recorded] at split
  exact ⟨deliveries, minted, split, ran⟩

theorem Heard.executed (heard : network.Heard honest) (reachable : Reachable config honest network)
    (member : validator ∈ honest) :
    ∃ deliveries outcomes, deliveries.map Delivery.subdag = network.stream ∧
      run ExecutionState.deliver (.new config.engine config.committee config.quorum) deliveries =
        .ok (outcomes, (network.nodes validator).driver.state) ∧
      ∀ checkpoint ∈ mintedBy outcomes, Canonical config.engine network.stream checkpoint := by
  obtain ⟨deliveries, minted, split, ran⟩ := heard.ran reachable member
  obtain ⟨outcomes, executed, rfl⟩ := Driver.run_state ran
  refine ⟨deliveries, outcomes, split, executed, fun checkpoint listed => ?_⟩
  rw [← split]
  apply (Driver.run_canonical ran).1
  exact List.mem_map.mpr (List.mem_filterMap.mp listed)

/-- Every honest validator has voted for what it finds uncertified. -/
theorem Heard.votes (heard : network.Heard honest) (reachable : Reachable config honest network)
    (member : validator ∈ honest) {mint : CommittedSubDag} (minting : mint ∈ network.stream)
    {anchor : BlockReference} (mints : mint.Mints anchor)
    (unsettled : ¬ Settled config.committee config.quorum network.stream anchor) :
    ∃ checkpoint, checkpoint.anchor = anchor ∧
      ∃ subdag ∈ network.stream, (validator, checkpoint) ∈ subdag.votes := by
  have admissible := reachable.sound.admissible.anchors
  obtain ⟨deliveries, outcomes, same, ran, -⟩ := heard.executed reachable member
  obtain ⟨reference, took, certifier⟩ := ExecutionState.run_tookCalls (by
    rw [← same, List.map_map] at admissible
    exact admissible) ran
  rw [same] at took
  obtain ⟨checkpoint, pending, anchored⟩ :=
    took.pending admissible.distinct minting mints unsettled
  have waiting : checkpoint ∈ (network.nodes validator).driver.state.certifier.pending := by
    rw [certifier, CheckpointCertifier.ofReference_pending]
    exact pending
  exact ⟨checkpoint, anchored, heard.voted validator member checkpoint waiting⟩

theorem Heard.settled (heard : network.Heard honest) (reachable : Reachable config honest network)
    (someone : honest.Nonempty)
    (correct : config.quorum.toNat ≤ ∑ member ∈ honest, (config.committee.stake member).toNat)
    {mint : CommittedSubDag} (minting : mint ∈ network.stream) {anchor : BlockReference}
    (mints : mint.Mints anchor) : Settled config.committee config.quorum network.stream anchor := by
  by_contra unsettled
  have sound := reachable.sound
  have distinct := sound.admissible.anchors.distinct
  have voted (voter : Authority) (honestly : voter ∈ honest) :=
    heard.votes reachable honestly minting mints unsettled
  obtain ⟨first, firstly⟩ := someone
  obtain ⟨checkpoint, anchored, subdag, listed, carried⟩ := voted first firstly
  have canonical := sound.canonical subdag listed _ carried firstly
  -- All the honest vote for the commitment that the first one votes for.
  have agreed (voter : Authority) (honestly : voter ∈ honest) : ∃ subdag ∈ network.stream,
      (voter, (⟨anchor, checkpoint.commitment⟩ : Checkpoint)) ∈ subdag.votes := by
    obtain ⟨other, anchored', subdag', listed', carried'⟩ := voted voter honestly
    have canonical' := sound.canonical subdag' listed' _ carried' honestly
    have equal := Canonical.unique distinct canonical' canonical (anchored'.trans anchored.symm)
    refine ⟨subdag', listed', ?_⟩
    rw [← anchored', ← equal]
    exact carried'
  exact unsettled
    (reachable.timely.settled distinct correct minting mints ⟨first, firstly⟩ agreed)

/-- Nothing is left to certify then. -/
theorem Heard.certified
    (faulty : ∑ member ∈ config.committee.members \ honest, (config.committee.stake member).toNat <
      config.quorum.toNat)
    (correct : config.quorum.toNat ≤ ∑ member ∈ honest, (config.committee.stake member).toNat)
    (heard : network.Heard honest) (reachable : Reachable config honest network)
    (member : validator ∈ honest) :
    (network.nodes validator).driver.state.certifier.pending = [] ∧
      ((∃ subdag ∈ network.stream, subdag.transactions ≠ []) →
        (network.nodes validator).driver.state.certificationStatus.1 =
          some (network.nodes validator).driver.state.certificationStatus.2) := by
  have distinct := reachable.sound.admissible.anchors.distinct
  obtain ⟨deliveries, outcomes, same, ran, canonical⟩ := heard.executed reachable member
  have nothing : (network.nodes validator).driver.state.certifier.pending = [] := by
    have admissible := reachable.sound.admissible.anchors
    rw [← same, List.map_map] at admissible
    obtain ⟨reference, took, certifier⟩ := ExecutionState.run_tookCalls admissible ran
    rw [same] at took
    rw [certifier, CheckpointCertifier.ofReference_pending]
    apply took.all_settled distinct
    intro mint minting anchor mints
    exact heard.settled reachable ⟨validator, member⟩ correct minting mints
  refine ⟨nothing, fun executes => ?_⟩
  have chronicle := (Chronicle.new config.committee config.quorum).run ran
  obtain ⟨settled, split, left, highest⟩ := chronicle.settled
  rw [List.nil_append, nothing, List.append_nil] at split
  rcases List.eq_nil_or_concat settled with rfl | ⟨earlier, pair, rfl⟩
  · obtain ⟨subdag, listed, executing⟩ := executes
    rw [← same] at listed
    obtain ⟨delivery, delivered, rfl⟩ := List.mem_map.mp listed
    exact absurd (ExecutionState.run_mintless ran split delivery delivered) executing
  · rw [List.concat_eq_append] at split left highest
    have minted : (mintedBy outcomes).getLast? = some pair.1 := by
      rw [split, List.map_append, List.map_singleton, List.getLast?_concat]
    have watermark : (network.nodes validator).driver.state.certifier.highestCertified =
        some pair.2 := by rw [highest, List.getLast?_concat, Option.map_some]
    have held : pair.2 ∈ (network.nodes validator).driver.state.certifier.held :=
      List.mem_append_left _ (Option.mem_toList.mpr watermark)
    have certified := certified_canonical faulty reachable held
    have agreed := Canonical.unique distinct certified
      (canonical pair.1 (List.mem_of_getLast? minted)) (left pair (by simp)).2
    rw [ExecutionState.certificationStatus, watermark, Option.map_some, agreed,
      ExecutionState.run_lastMinted ran minted]

/-- In a quiet network every honest validator has certified all that it minted,
and its highest certificate is for its present store. -/
theorem quiescent_certified
    (faulty : ∑ member ∈ config.committee.members \ honest, (config.committee.stake member).toNat <
      config.quorum.toNat)
    (correct : config.quorum.toNat ≤ ∑ member ∈ honest, (config.committee.stake member).toNat)
    (reachable : Reachable config honest network) (quiescent : network.Quiescent config honest)
    (member : validator ∈ honest) :
    (network.nodes validator).driver.state.certifier.pending = [] ∧
      ((∃ subdag ∈ network.stream, subdag.transactions ≠ []) →
        (network.nodes validator).driver.state.certificationStatus.1 =
          some (network.nodes validator).driver.state.certificationStatus.2) := by
  exact quiescent.heard.certified faulty correct reachable member

end Network

end

end

section

attribute [local instance] plainDag checkedBuild blake2b

def trioConfig : ValidatorConfig := ⟨fakeExecutor, plainCommittee 3 (by decide), 2⟩

def honestTwo : Finset Authority := {(1 : UInt64), (2 : UInt64)}

private def honestBallot : List UInt8 :=
  Envelope.toBytes ⟨8, .attest ⟨plainReference 0 1, .default⟩⟩

private def strayBallot : List UInt8 :=
  Envelope.toBytes ⟨8, .attest ⟨plainReference 0 1, ⟨.replicate 32 1⟩⟩⟩

def trioExecuting : CommittedSubDag :=
  ⟨plainReference 0 1, [((0 : UInt64), [Envelope.toBytes ⟨7, .execute
    ⟨FakeFunctionId.abortId, .singleton (.new 1, .writeOnly), .nil⟩⟩])]⟩

/-- The faulty validator votes for another commitment, before the others vote. -/
def trioVoting : CommittedSubDag :=
  ⟨plainReference 0 2, [((0 : UInt64), [strayBallot]), ((1 : UInt64), [honestBallot]),
    ((2 : UInt64), [honestBallot])]⟩

theorem trioVoting_votes : trioVoting.votes =
    [((0 : UInt64), ⟨plainReference 0 1, ⟨.replicate 32 1⟩⟩),
      ((1 : UInt64), ⟨plainReference 0 1, .default⟩),
      ((2 : UInt64), ⟨plainReference 0 1, .default⟩)] := rfl

theorem trio_signed (subdag : CommittedSubDag) (listed : subdag ∈ [trioExecuting, trioVoting]) :
    subdag.SignedBy trioConfig.committee := by
  have members (author : UInt64) (small : author = 0 ∨ author = 1 ∨ author = 2) :
      author ∈ (Finset.range 3).image UInt64.ofNat := by
    rcases small with rfl | rfl | rfl <;> decide
  intro block inside
  apply members
  rcases List.mem_pair.mp listed with rfl | rfl
  · rw [List.mem_singleton.mp inside]
    exact .inl rfl
  · simp only [trioVoting, List.mem_cons, List.not_mem_nil, or_false] at inside
    rcases inside with rfl | rfl | rfl
    · exact .inl rfl
    · exact .inr (.inl rfl)
    · exact .inr (.inr rfl)

/-- Both honest validators hear the mint, then the votes. -/
theorem trio_quiescent : ∃ network, Network.Reachable trioConfig honestTwo network ∧
    network.Quiescent trioConfig honestTwo ∧ network.stream = [trioExecuting, trioVoting] ∧
    (network.nodes (1 : UInt64)).driver.state.certifier.held ≠ [] := by
  obtain ⟨⟨_, last⟩, ran⟩ : ∃ result, run (Node.step trioConfig) (.fresh trioConfig)
      (hearing trioExecuting ++ hearing trioVoting) = .ok result := ⟨_, rfl⟩
  obtain ⟨_, node, _, _, ranFirst, ranSecond, same⟩ := run_append_ok.mp ran
  cases same
  have first : (fun result : List Unit × Node => (result.2.wal, result.2.submitted)) <$>
      run (Node.step trioConfig) (.fresh trioConfig) (hearing trioExecuting) =
        .ok ([trioExecuting], [⟨plainReference 0 1, .default⟩]) := rfl
  rw [ranFirst] at first
  obtain ⟨recorded, submitted⟩ := Prod.mk.inj (Except.ok.inj first)
  have second : (fun result : List Unit × Node =>
        (result.2.wal, result.2.queue, result.2.submitted,
          result.2.driver.state.certifier.held)) <$>
      run (Node.step trioConfig) (.fresh trioConfig) (hearing trioExecuting ++ hearing trioVoting) =
        .ok ([trioExecuting, trioVoting], [], [⟨plainReference 0 1, .default⟩],
          [⟨⟨plainReference 0 1, .default⟩, [plainReference 0 2, plainReference 0 2]⟩]) := rfl
  rw [ran] at second
  simp only [map_ok, Except.ok.injEq, Prod.mk.injEq] at second
  obtain ⟨whole, empty, cast, held⟩ := second
  have one : (1 : UInt64) ∈ honestTwo := by decide
  have two : (2 : UInt64) ∈ honestTwo := by decide
  have apart : (1 : UInt64) ≠ 2 := by decide
  let start : Network := .initial trioConfig
  have reached : Network.Reachable trioConfig honestTwo (start.grow trioExecuting) := by
    apply Relation.ReflTransGen.single
    exact .grow ⟨by decide, by decide⟩ (trio_signed _ (by simp)) fun vote carried => nomatch carried
  have heardOne := reached.runs one List.prefix_rfl ranFirst
  let partly := (start.grow trioExecuting).update (1 : UInt64) node
  have heardTwo : Network.Reachable trioConfig honestTwo (partly.update (2 : UInt64) node) := by
    have untouched : partly.nodes (2 : UInt64) = .fresh trioConfig :=
      Network.update_nodes_other apart.symm
    rw [← untouched] at ranFirst
    refine heardOne.runs two ?_ ranFirst
    rw [untouched]
    exact List.prefix_rfl
  let network := (partly.update (2 : UInt64) node).grow trioVoting
  have atOne : network.nodes (1 : UInt64) = node := by
    have first : partly.nodes (1 : UInt64) = node := Network.update_nodes_self ..
    change (partly.update (2 : UInt64) node).nodes (1 : UInt64) = node
    rw [Network.update_nodes_other apart, first]
  have atTwo : network.nodes (2 : UInt64) = node := by
    change (partly.update (2 : UInt64) node).nodes (2 : UInt64) = node
    exact Network.update_nodes_self ..
  have counting : Network.Reachable trioConfig honestTwo network := by
    apply heardTwo.tail
    apply Network.Step.grow
    · change Admissible [plainReference 0 1, plainReference 0 2]
      exact ⟨by decide, by decide⟩
    · exact trio_signed _ (by simp)
    · intro vote carried honestly
      rw [trioVoting_votes] at carried
      simp only [List.mem_cons, List.not_mem_nil, or_false] at carried
      rcases carried with rfl | rfl | rfl
      · exact absurd honestly (by decide)
      · change _ ∈ (network.nodes (1 : UInt64)).submitted
        rw [atOne, submitted]
        exact List.mem_singleton_self _
      · change _ ∈ (network.nodes (2 : UInt64)).submitted
        rw [atTwo, submitted]
        exact List.mem_singleton_self _
  have hearsOne : Network.Reachable trioConfig honestTwo (network.update (1 : UInt64) last) := by
    rw [← atOne] at ranSecond
    refine counting.runs one ?_ ranSecond
    rw [atOne, recorded]
    exact List.prefix_rfl
  let final := (network.update (1 : UInt64) last).update (2 : UInt64) last
  have hearsTwo : Network.Reachable trioConfig honestTwo final := by
    have untouched : (network.update (1 : UInt64) last).nodes (2 : UInt64) = node :=
      (Network.update_nodes_other apart.symm).trans atTwo
    rw [← untouched] at ranSecond
    refine hearsOne.runs two ?_ ranSecond
    rw [untouched, recorded]
    exact List.prefix_rfl
  have finished (validator : UInt64) (member : validator ∈ honestTwo) :
      final.nodes validator = last := by
    rcases Finset.mem_insert.mp member with rfl | single
    · rw [Network.update_nodes_other apart]
      exact Network.update_nodes_self ..
    · rw [Finset.mem_singleton.mp single]
      exact Network.update_nodes_self ..
  refine ⟨final, hearsTwo, ⟨fun validator member => ?_, fun validator member => ?_⟩, rfl, ?_⟩
  · rw [finished validator member]
    exact ⟨whole, empty⟩
  · obtain ⟨incarnation, runs⟩ := Node.run_incarnation ran
    rw [Network.Committed, finished validator member]
    have carried : trioVoting ∈ final.stream := List.mem_append_right _ (List.mem_singleton_self trioVoting)
    refine ⟨_, incarnation, runs, fun checkpoint submission => ⟨trioVoting, carried, ?_⟩⟩
    have listed : checkpoint ∈ last.submitted := by
      rw [runs.submitted]
      exact List.mem_append_right _ submission
    rw [cast, List.mem_singleton] at listed
    rw [listed, trioVoting_votes]
    rcases Finset.mem_insert.mp member with rfl | single
    · simp
    · rw [Finset.mem_singleton.mp single]
      simp
  · rw [finished (1 : UInt64) one, held]
    exact List.cons_ne_nil _ _

theorem trio_certified : ∃ network, Network.Reachable trioConfig honestTwo network ∧
    network.Quiescent trioConfig honestTwo ∧ ∀ validator ∈ honestTwo,
      (network.nodes validator).driver.state.certifier.pending = [] ∧
        ((∃ subdag ∈ network.stream, subdag.transactions ≠ []) →
          (network.nodes validator).driver.state.certificationStatus.1 =
            some (network.nodes validator).driver.state.certificationStatus.2) := by
  obtain ⟨network, reachable, quiescent, -⟩ := trio_quiescent
  refine ⟨network, reachable, quiescent, fun validator member => ?_⟩
  exact Network.quiescent_certified (by decide) (by decide) reachable quiescent member

end

end BlockchainValidator
