import BlockchainValidator.Checkpoint.VoteOrder
import BlockchainValidator.Validator.Stream

/-! # Quorums in the commit stream

Whether a checkpoint has its certificate is a function of the commits alone: of
the first votes that they carry for its anchor, from the sub-dag that mints it on.
-/

namespace BlockchainValidator

open Execution Run MintedCheckpoint

section

variable [Dag]

/-- Some vote is for a commitment with a quorum behind it. -/
def Attained (committee : Committee) (quorum : UInt64) (votes : List Vote) : Prop :=
  ∃ vote ∈ votes, Reaches committee quorum votes vote.commitment

instance (committee : Committee) (quorum : UInt64) (votes : List Vote) :
    Decidable (Attained committee quorum votes) :=
  inferInstanceAs (Decidable (∃ vote ∈ votes, _))

namespace CommittedSubDag

def Mints (subdag : CommittedSubDag) (anchor : BlockReference) : Prop :=
  subdag.anchor = anchor ∧ subdag.transactions ≠ []

instance (subdag : CommittedSubDag) (anchor : BlockReference) : Decidable (subdag.Mints anchor) :=
  inferInstanceAs (Decidable (_ ∧ _))

def votesFor (anchor : BlockReference) (subdag : CommittedSubDag) : List Vote :=
  subdag.votes.filterMap fun vote =>
    if vote.2.anchor = anchor then some ⟨vote.1, vote.2.commitment, subdag.anchor⟩ else none

end CommittedSubDag

/-- The votes for `anchor` that a stream carries from its mint on. -/
def ballotsIn (anchor : BlockReference) (stream : List CommittedSubDag) : List Vote :=
  (stream.dropWhile fun subdag => ¬ subdag.Mints anchor).flatMap (CommittedSubDag.votesFor anchor)

/-- Whether the stream carries a quorum for a checkpoint that it mints. -/
def Settled (committee : Committee) (quorum : UInt64) (stream : List CommittedSubDag)
    (anchor : BlockReference) : Prop :=
  Attained committee quorum (firstVotes (ballotsIn anchor stream))

instance (committee : Committee) (quorum : UInt64) (stream : List CommittedSubDag)
    (anchor : BlockReference) : Decidable (Settled committee quorum stream anchor) :=
  inferInstanceAs (Decidable (Attained ..))

/-! ## The votes of one checkpoint -/

section

variable {committee : Committee} {quorum : UInt64} {votes : List Vote} {vote : Vote}
  {fresh minted : MintedCheckpoint} {outputs : List (Option Formed)}

theorem attained_grows (attained : Attained committee quorum (firstVotes votes)) (vote : Vote) :
    Attained committee quorum (firstVotes (votes ++ [vote])) := by
  rw [firstVotes_concat]
  split
  · exact attained
  · obtain ⟨earlier, listed, reached⟩ := attained
    exact ⟨earlier, List.mem_append_left _ listed, reaches_mono (List.prefix_append _ _) reached⟩

theorem attained_concat (short : ¬ Attained committee quorum votes) :
    Attained committee quorum (votes ++ [vote]) ↔
      Reaches committee quorum (votes ++ [vote]) vote.commitment := by
  apply Iff.intro
  · intro attained
    obtain ⟨other, listed, reached⟩ := attained
    by_cases same : vote.commitment = other.commitment
    · exact same ▸ reached
    · rw [Reaches, supporters_concat, if_neg same] at reached
      rcases List.mem_append.mp listed with earlier | last
      · exact absurd ⟨other, earlier, reached⟩ short
      · exact absurd (congrArg Vote.commitment (List.mem_singleton.mp last).symm) same
  · intro reached
    exact ⟨vote, by simp, reached⟩

/-- Where `votes` lead a checkpoint: to its certificate if they attain a quorum,
else to all first votes. -/
theorem run_attained (silent : fresh.votes = []) (uncertified : fresh.certified = false)
    (ran : run (cast committee quorum) fresh votes = .ok (outputs, minted)) :
    minted.certified = true ↔ Attained committee quorum (firstVotes votes) := by
  have tallied : (minted.certified = true ∧ Attained committee quorum (firstVotes votes)) ∨
      (minted.certified = false ∧ minted.votes = firstVotes votes ∧
        ¬ Attained committee quorum (firstVotes votes)) := by
    refine run_history (fun votes _ minted =>
      (minted.certified = true ∧ Attained committee quorum (firstVotes votes)) ∨
      (minted.certified = false ∧ minted.votes = firstVotes votes ∧
        ¬ Attained committee quorum (firstVotes votes))) ?_ ?_ ran
    · intro votes _ minted vote output next _ held casts
      obtain ⟨-, counts⟩ := cast_ok casts
      obtain rfl := congrArg Prod.snd counts
      rcases held with ⟨certified, attained⟩ | ⟨open', counted, short⟩
      · rw [vote_ignored (.inl certified)]
        exact .inl ⟨certified, attained_grows attained vote⟩
      · by_cases voted : vote.author ∈ minted.votes.map Vote.author
        · rw [vote_ignored (.inr voted), firstVotes_concat, ← counted, if_pos voted, counted]
          exact .inr ⟨open', rfl, short⟩
        · rw [vote_counted open' voted, firstVotes_concat, ← counted, if_neg voted,
            attained_concat (counted ▸ short)]
          split
          · rename_i reached
            exact .inl ⟨rfl, reached⟩
          · rename_i unreached
            exact .inr ⟨open', rfl, unreached⟩
    · refine .inr ⟨uncertified, silent, ?_⟩
      intro attained
      obtain ⟨_, listed, -⟩ := attained
      cases listed
  rcases tallied with ⟨certified, attained⟩ | ⟨open', -, short⟩
  · exact ⟨fun _ => attained, fun _ => certified⟩
  · rw [open']
    exact ⟨fun impossible => (by cases impossible), fun attained => absurd attained short⟩

end

/-! ## The calls of a stream -/

namespace CommittedSubDag

/-- What a delivered sub-dag asks of the certifier. -/
def calls (subdag : CommittedSubDag) (commitment : Digest) (timings : CheckpointTimings) :
    List CertifierCall :=
  (if subdag.transactions = [] then [] else [.push subdag.anchor commitment timings]) ++
    subdag.votes.map fun vote => .record subdag.anchor vote.1 vote.2

def Calls (subdag : CommittedSubDag) (calls : List CertifierCall) : Prop :=
  ∃ commitment timings, calls = subdag.calls commitment timings

variable {subdag : CommittedSubDag} {calls : List CertifierCall} {anchor : BlockReference}

theorem calls_voteFor (calling : subdag.Calls calls) (anchor : BlockReference) :
    calls.filterMap (voteFor anchor) = subdag.votesFor anchor := by
  obtain ⟨commitment, timings, rfl⟩ := calling
  have records : (subdag.votes.map fun vote =>
      CertifierCall.record subdag.anchor vote.1 vote.2).filterMap (voteFor anchor) =
        subdag.votesFor anchor := List.filterMap_map
  rw [CommittedSubDag.calls, List.filterMap_append, records]
  split <;> rfl

theorem calls_pushed (calling : subdag.Calls calls) :
    calls.filterMap CertifierCall.pushed =
      if subdag.transactions = [] then [] else [subdag.anchor] := by
  obtain ⟨commitment, timings, rfl⟩ := calling
  have records : (subdag.votes.map fun vote =>
      CertifierCall.record subdag.anchor vote.1 vote.2).filterMap CertifierCall.pushed = [] := by
    simp [List.filterMap_map, Function.comp_def, CertifierCall.pushed]
  rw [CommittedSubDag.calls, List.filterMap_append, records, List.append_nil]
  split <;> rfl

theorem mem_calls_pushed (calling : subdag.Calls calls) :
    anchor ∈ calls.filterMap CertifierCall.pushed ↔ subdag.Mints anchor := by
  rw [calls_pushed calling, Mints]
  split
  · rename_i nothing
    simp [nothing]
  · rename_i executes
    simp [executes, eq_comm]

/-- The votes after a mint are those of its own sub-dag and of later ones. -/
theorem ballots_calls (calling : subdag.Calls calls) (more : List CertifierCall) :
    ballots anchor (calls ++ more) =
      if subdag.Mints anchor then subdag.votesFor anchor ++ more.filterMap (voteFor anchor)
      else ballots anchor more := by
  rw [ballots_append, if_congr (mem_calls_pushed calling) rfl rfl]
  split
  · rename_i mints
    obtain ⟨rfl, executes⟩ := mints
    have records := calls_voteFor calling subdag.anchor
    obtain ⟨commitment, timings, rfl⟩ := calling
    rw [CommittedSubDag.calls, if_neg executes, List.singleton_append] at records ⊢
    have minting : (CertifierCall.push subdag.anchor commitment timings).pushed =
        some subdag.anchor := rfl
    rw [ballots_cons, if_pos minting, ← records]
    rfl
  · rfl

end CommittedSubDag

section

variable {stream : List CommittedSubDag} {batches : List (List CertifierCall)}
  {anchor : BlockReference}

theorem ballots_stream (calling : List.Forall₂ CommittedSubDag.Calls stream batches)
    (anchor : BlockReference) : ballots anchor batches.flatten = ballotsIn anchor stream := by
  have later {stream : List CommittedSubDag} {batches : List (List CertifierCall)}
      (calling : List.Forall₂ CommittedSubDag.Calls stream batches) :
      batches.flatten.filterMap (voteFor anchor) =
        stream.flatMap (CommittedSubDag.votesFor anchor) := by
    induction calling with
    | nil => rfl
    | cons head _ ih =>
        rw [List.flatten_cons, List.filterMap_append, List.flatMap_cons,
          CommittedSubDag.calls_voteFor head, ih]
  induction calling with
  | nil => rfl
  | cons head tail ih =>
      rw [List.flatten_cons, CommittedSubDag.ballots_calls head, ballotsIn, List.dropWhile_cons]
      split
      · rename_i mints
        rw [if_neg (by simp [mints]), later tail, List.flatMap_cons]
      · rename_i other
        rw [if_pos (by simp [other])]
        exact ih

theorem pushed_stream (calling : List.Forall₂ CommittedSubDag.Calls stream batches) :
    (batches.flatten.filterMap CertifierCall.pushed).Sublist
      (stream.map CommittedSubDag.anchor) := by
  induction calling with
  | nil => exact .slnil
  | cons head _ ih =>
      rw [List.flatten_cons, List.filterMap_append, List.map_cons, CommittedSubDag.calls_pushed head]
      split
      · exact ih.cons _
      · exact ih.cons_cons _

end

/-! ## What a delivery certifies -/

theorem newlyCertified_formed (outcome : SubdagOutcome) :
    newlyCertified outcome.formed = outcome.certified.map CertifiedCheckpoint.checkpoint := by
  rw [newlyCertified, SubdagOutcome.certified, certificates, List.reduceOption, List.filterMap_map,
    List.map_filterMap]
  congr 1
  funext output
  cases output <;> rfl

/-- The anchors that have a certificate. -/
def ReferenceCertifier.settledAnchors (reference : ReferenceCertifier) : List BlockReference :=
  (reference.minted.filter MintedCheckpoint.certified).map MintedCheckpoint.anchor

theorem settledAnchors_eq {reference : ReferenceCertifier} (wellFormed : reference.WellFormed) :
    reference.settledAnchors =
      ((reference.minted.map outcome).flatMap fun outcome => outcome.2.toList).map
        Checkpoint.anchor := by
  have tallied := wellFormed.tallied
  rw [ReferenceCertifier.settledAnchors]
  generalize reference.minted = all at tallied ⊢
  induction all with
  | nil => rfl
  | cons minted rest ih =>
      have tail := ih fun other listed => tallied other (by simp [listed])
      rw [List.map_cons, List.flatMap_cons, List.map_append, ← tail]
      cases certificate : minted.certificate with
      | none =>
          rw [List.filter_cons_of_neg (by simp [MintedCheckpoint.certified, certificate])]
          simp [outcome, certificate]
      | some certificate' =>
          have same := (tallied minted (by simp)).certificate certificate' certificate
          rw [List.filter_cons_of_pos (by simp [MintedCheckpoint.certified, certificate])]
          simp [outcome, certificate, same]

theorem settledAnchors_nodup {reference : ReferenceCertifier} (wellFormed : reference.WellFormed) :
    reference.settledAnchors.Nodup :=
  wellFormed.anchors.distinct.sublist (List.filter_sublist.map _)

/-- The calls of `stream` lead to the reference. -/
def TookCalls (committee : Committee) (quorum : UInt64) (stream : List CommittedSubDag)
    (reference : ReferenceCertifier) : Prop :=
  ∃ batches outputs, List.Forall₂ CommittedSubDag.Calls stream batches ∧
    run ReferenceCertifier.strictStep (.new committee quorum) batches.flatten = .ok (outputs, reference)

section

variable {committee : Committee} {quorum : UInt64} {stream : List CommittedSubDag}
  {reference : ReferenceCertifier} {anchor : BlockReference}

theorem TookCalls.wellFormed (took : TookCalls committee quorum stream reference)
    (admissible : Admissible (stream.map CommittedSubDag.anchor)) : reference.WellFormed := by
  obtain ⟨batches, outputs, calling, ran⟩ := took
  exact run_wellFormed (admissible.sublist (pushed_stream calling)) ran

/-- The settled anchors of a stream are those with a certificate. -/
theorem TookCalls.settled (took : TookCalls committee quorum stream reference)
    (distinct : (stream.map CommittedSubDag.anchor).Nodup) :
    anchor ∈ reference.settledAnchors ↔ Settled committee quorum stream anchor := by
  obtain ⟨batches, outputs, calling, ran⟩ := took
  have minting := distinct.sublist (pushed_stream calling)
  have anchorwise := run_anchorwise minting ran
  rw [Settled, ← ballots_stream calling]
  by_cases pushed : anchor ∈ batches.flatten.filterMap CertifierCall.pushed
  · rw [← anchorwise.anchors] at pushed
    obtain ⟨minted, listed, rfl⟩ := List.mem_map.mp pushed
    obtain ⟨fresh, mints, -, casts⟩ := anchorwise.separate minted listed
    obtain ⟨silent, uncertified⟩ := mint_fresh mints
    have uncertified' : fresh.certified = false := by
      rw [MintedCheckpoint.certified, uncertified]
      rfl
    rw [← run_attained silent uncertified' casts]
    apply Iff.intro
    · intro settled
      obtain ⟨other, kept, same⟩ := List.mem_map.mp settled
      obtain ⟨listed', certified⟩ := List.mem_filter.mp kept
      rw [← anchorwise.anchors] at minting
      obtain rfl := List.inj_on_of_nodup_map minting listed' listed same
      exact certified
    · intro certified
      exact List.mem_map_of_mem (List.mem_filter.mpr ⟨listed, certified⟩)
  · rw [ballots_unminted pushed]
    apply iff_of_false
    · intro settled
      obtain ⟨minted, kept, rfl⟩ := List.mem_map.mp settled
      exact pushed (anchorwise.minted_pushed (List.mem_filter.mp kept).1)
    · intro attained
      obtain ⟨_, listed, -⟩ := attained
      cases listed

end

section

variable [Hasher] [BuildProfile] {engine : ExecutionEngine} {committee : Committee} {quorum : UInt64}
  {state next last : ExecutionState} {delivery : Delivery} {deliveries : List Delivery}
  {outcome : SubdagOutcome} {outcomes : List SubdagOutcome} {anchor : BlockReference}

/-- A delivered sub-dag makes its calls, and they form its certificates. -/
theorem ExecutionState.deliver_batch (delivered : state.deliver delivery = .ok (outcome, next)) :
    ∃ calls outputs, delivery.subdag.Calls calls ∧
      run CheckpointCertifier.step state.certifier calls = .ok (outputs, next.certifier) ∧
      newlyCertified outputs = outcome.certified.map CertifiedCheckpoint.checkpoint := by
  obtain ⟨now, subdag⟩ := delivery
  obtain ⟨statuses, scheduler, sum, formed, certifier, -, -, recorded, rfl, rfl⟩ :=
    executeSubdag_ok.mp delivered
  let timings : CheckpointTimings := ⟨now, sum / UInt64.ofNat subdag.transactions.length⟩
  have votes : run CheckpointCertifier.step
      (state.certifier.mint subdag scheduler.store.commitment now sum)
      (subdag.votes.map fun vote => .record subdag.anchor vote.1 vote.2) =
        .ok (formed, certifier) := by
    rw [run_map]
    exact recorded
  rw [← newlyCertified_formed]
  by_cases empty : subdag.transactions = []
  · rw [CheckpointCertifier.mint, if_pos empty] at votes
    refine ⟨_, formed, ⟨scheduler.store.commitment, timings, rfl⟩, ?_, rfl⟩
    rw [CommittedSubDag.calls, if_pos empty, List.nil_append]
    exact votes
  · rw [CheckpointCertifier.mint, if_neg empty] at votes
    refine ⟨_, none :: formed, ⟨scheduler.store.commitment, timings, rfl⟩, ?_, rfl⟩
    rw [CommittedSubDag.calls, if_neg empty, List.singleton_append]
    exact run_cons_ok.mpr ⟨none, _, formed, certifier, rfl, votes, rfl⟩

theorem TookCalls.deliver {stream : List CommittedSubDag} {reference : ReferenceCertifier}
    (took : TookCalls committee quorum stream reference)
    (same : state.certifier = .ofReference reference)
    (admissible : Admissible ((stream ++ [delivery.subdag]).map CommittedSubDag.anchor))
    (delivered : state.deliver delivery = .ok (outcome, next)) :
    ∃ reference', TookCalls committee quorum (stream ++ [delivery.subdag]) reference' ∧
      next.certifier = .ofReference reference' ∧
      reference'.settledAnchors.Perm
        (outcome.certified.map (·.checkpoint.anchor) ++ reference.settledAnchors) := by
  obtain ⟨calls, outputs, calling, ran, formed⟩ := ExecutionState.deliver_batch delivered
  have earlier : Admissible (stream.map CommittedSubDag.anchor) := by
    rw [List.map_append] at admissible
    exact admissible.left
  have wellFormed := took.wellFormed earlier
  obtain ⟨batches, before, batched, front⟩ := took
  have batched' : List.Forall₂ CommittedSubDag.Calls (stream ++ [delivery.subdag])
      (batches ++ [calls]) := List.rel_append batched (.cons calling .nil)
  have anchors : Admissible (reference.minted.map MintedCheckpoint.anchor ++
      calls.filterMap CertifierCall.pushed) := by
    have minting := earlier.distinct.sublist (pushed_stream batched)
    have whole := admissible.sublist (pushed_stream batched')
    rw [List.flatten_concat, List.filterMap_append] at whole
    rw [(run_anchorwise minting front).anchors]
    exact whole
  rw [same, CheckpointCertifier.run_strict wellFormed anchors] at ran
  obtain ⟨⟨outputs', reference'⟩, ran', done⟩ := map_eq_ok.mp ran
  obtain ⟨rfl, certifier⟩ := Prod.mk.inj done
  have took' : TookCalls committee quorum (stream ++ [delivery.subdag]) reference' := by
    refine ⟨batches ++ [calls], before ++ outputs', batched', ?_⟩
    rw [List.flatten_concat]
    exact run_append_ok.mpr ⟨_, _, _, _, front, ran', rfl⟩
  refine ⟨reference', took', certifier.symm, ?_⟩
  have grown := (run_certificates ran').map Checkpoint.anchor
  rw [List.map_append, formed, List.map_map, ← settledAnchors_eq wellFormed,
    ← settledAnchors_eq (took'.wellFormed admissible)] at grown
  exact grown

theorem ExecutionState.run_tookCalls
    (admissible : Admissible (deliveries.map (·.subdag.anchor)))
    (ran : run deliver (.new engine committee quorum) deliveries = .ok (outcomes, last)) :
    ∃ reference, TookCalls committee quorum (deliveries.map Delivery.subdag) reference ∧
      last.certifier = .ofReference reference := by
  refine run_history (fun deliveries _ last => Admissible (deliveries.map (·.subdag.anchor)) →
    ∃ reference, TookCalls committee quorum (deliveries.map Delivery.subdag) reference ∧
      last.certifier = .ofReference reference) ?_ ?_ ran admissible
  · intro deliveries _ state delivery outcome next _ held delivered admissible
    rw [List.map_append] at admissible
    obtain ⟨reference, took, same⟩ := held admissible.left
    obtain ⟨reference', took', same', -⟩ := took.deliver same (by
      rw [List.map_append, List.map_map]
      exact admissible) delivered
    rw [List.map_append]
    exact ⟨reference', took', same'⟩
  · intro _
    exact ⟨.new committee quorum, ⟨[], [], .nil, rfl⟩, rfl⟩

/-- A delivery certifies the anchors that its sub-dag settles. -/
theorem ExecutionState.certifies_iff
    (admissible : Admissible ((deliveries ++ [delivery]).map (·.subdag.anchor)))
    (ran : run deliver (.new engine committee quorum) deliveries = .ok (outcomes, state))
    (delivered : state.deliver delivery = .ok (outcome, next)) :
    anchor ∈ outcome.certified.map (·.checkpoint.anchor) ↔
      ¬ Settled committee quorum (deliveries.map Delivery.subdag) anchor ∧
      Settled committee quorum (deliveries.map Delivery.subdag ++ [delivery.subdag]) anchor := by
  have whole : Admissible
      ((deliveries.map Delivery.subdag ++ [delivery.subdag]).map CommittedSubDag.anchor) := by
    rw [List.map_append, List.map_map, List.map_singleton]
    rw [List.map_append] at admissible
    exact admissible
  rw [List.map_append] at admissible
  obtain ⟨reference, took, same⟩ := run_tookCalls admissible.left ran
  obtain ⟨reference', took', -, grown⟩ := took.deliver same whole delivered
  have distinct := settledAnchors_nodup (took'.wellFormed whole)
  rw [grown.nodup_iff, List.nodup_append] at distinct
  rw [← took.settled, ← took'.settled whole.distinct, grown.mem_iff, List.mem_append]
  · apply Iff.intro
    · intro certified
      exact ⟨fun earlier => distinct.2.2 anchor certified anchor earlier rfl, .inl certified⟩
    · intro settled
      exact settled.2.resolve_right settled.1
  · rw [List.map_map]
    exact admissible.left.distinct

end

end

end BlockchainValidator
