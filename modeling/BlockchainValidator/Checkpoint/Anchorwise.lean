import BlockchainValidator.Checkpoint.Certificates

/-! # Certification anchor by anchor

Whatever the interleaving, the state of a minted checkpoint and what its votes
return are those of its own votes alone, taken in their order.  Authors are not
assumed to be members here: a vote to be counted from outside the committee is a
panic, on both sides.
-/

namespace BlockchainValidator

open Execution Run

section

variable [Dag]

/-! ## The reference with the certifier's panic -/

namespace MintedCheckpoint

/-- One vote for this checkpoint. -/
def cast (committee : Committee) (quorum : UInt64) (minted : MintedCheckpoint) (vote : Vote) :
    Except Panic (Option Formed × MintedCheckpoint) :=
  if minted.certified = false ∧ vote.author ∉ committee.members then .error .authorityNotFound
  else .ok (minted.vote committee quorum vote.deliveredIn vote.author ⟨minted.anchor, vote.commitment⟩)

end MintedCheckpoint

open MintedCheckpoint

namespace ReferenceCertifier

def AwaitsVotes (reference : ReferenceCertifier) (anchor : BlockReference) : Prop :=
  ∃ minted ∈ reference.minted, minted.anchor = anchor ∧ minted.certified = false

instance (reference : ReferenceCertifier) (anchor : BlockReference) :
    Decidable (reference.AwaitsVotes anchor) :=
  inferInstanceAs (Decidable (∃ minted ∈ reference.minted, _))

def strictRecord (reference : ReferenceCertifier) (subdag : BlockReference) (author : Authority)
    (checkpoint : Checkpoint) : Except Panic (Option Formed × ReferenceCertifier) :=
  if author ∉ reference.committee.members ∧ reference.AwaitsVotes checkpoint.anchor then
    .error .authorityNotFound
  else .ok (reference.record subdag author checkpoint)

def strictStep (reference : ReferenceCertifier) :
    CertifierCall → Except Panic (Option Formed × ReferenceCertifier)
  | .push anchor commitment timings => .ok (none, reference.push anchor commitment timings)
  | .record subdag author checkpoint => reference.strictRecord subdag author checkpoint

end ReferenceCertifier

section

variable {committee : Committee} {quorum : UInt64} {minted : MintedCheckpoint}
  {reference next : ReferenceCertifier} {subdag : BlockReference} {author : Authority}
  {checkpoint : Checkpoint}

theorem record_ignored (settled : ¬ reference.AwaitsVotes checkpoint.anchor) :
    reference.record subdag author checkpoint = (none, reference) := by
  rcases record_cases reference subdag author checkpoint with
    ⟨-, same⟩ | ⟨front, minted, back, split, -, found, same⟩
  · exact same
  · have certified : minted.certified = true := by
      by_contra waiting
      exact settled ⟨minted, by simp [split], found, Bool.eq_false_iff.mpr waiting⟩
    rw [same, vote_ignored (.inl certified), ← split]

theorem strictRecord_wellFormed {output : Option Formed} (wellFormed : reference.WellFormed)
    (recorded : reference.strictRecord subdag author checkpoint = .ok (output, next)) :
    next.WellFormed := by
  unfold ReferenceCertifier.strictRecord at recorded
  split at recorded
  · cases recorded
  · rename_i accepted
    obtain rfl : (reference.record subdag author checkpoint).2 = next :=
      congrArg Prod.snd (Except.ok.inj recorded)
    by_cases member : author ∈ reference.committee.members
    · exact record_wellFormed wellFormed member
    · rw [record_ignored (fun waiting => accepted ⟨member, waiting⟩)]
      exact wellFormed

variable [BuildProfile]

theorem entryOf_tally_stranger (tallied : Tallied committee minted)
    (stranger : author ∉ committee.members) (uncertified : minted.certificate = none) :
    (entryOf committee quorum minted).tally committee quorum subdag author checkpoint =
      .error .authorityNotFound := by
  have fresh : author ∉ minted.votes.map Vote.author := by
    intro voted
    obtain ⟨vote, counted, same⟩ := List.mem_map.mp voted
    exact stranger (same ▸ tallied.members vote counted)
  obtain ⟨target, front, back, located, slot, -⟩ :=
    @locate_slot _ minted.votes ⟨author, checkpoint.commitment, subdag⟩ committee quorum fresh
  have accumulators : (entryOf committee quorum minted).accumulators =
      (attested minted.votes).map fun commitment =>
        (commitment, accumulated committee quorum minted.votes commitment) := by
    rw [entryOf, accumulatorOf_uncertified uncertified]
  have unknown : committee.getStake author = none := if_neg stranger
  unfold PendingCheckpoint.tally
  rw [if_neg (by simp [entryOf, uncertified]), accumulators, located]
  simp only [slot]
  simp [CheckpointAccumulator.add, unknown]

namespace CheckpointCertifier

theorem ofReference_strictRecord (wellFormed : reference.WellFormed) :
    (ofReference reference).tally subdag author checkpoint =
      (fun result => (result.1, ofReference result.2)) <$>
        reference.strictRecord subdag author checkpoint := by
  unfold ReferenceCertifier.strictRecord
  by_cases member : author ∈ reference.committee.members
  · rw [if_neg (by simp [member]), ofReference_record wellFormed member]
    rfl
  · rcases record_cases reference subdag author checkpoint with
      ⟨unknown, same⟩ | ⟨front, minted, back, split, unknown, found, -⟩
    · have settled : ¬ reference.AwaitsVotes checkpoint.anchor :=
        fun waiting => waiting.elim fun minted held => unknown minted held.1 held.2.1
      rw [if_neg (fun refused => settled refused.2), same]
      exact tally_unknown (ofReference_ordered wellFormed) (entries_unknown unknown)
    · cases certified : minted.certified with
      | true =>
          have settled : ¬ reference.AwaitsVotes checkpoint.anchor := by
            intro waiting
            obtain ⟨other, listed, same, uncertified⟩ := waiting
            have equal := List.inj_on_of_nodup_map wellFormed.anchors.distinct listed
              (by simp [split]) (same.trans found.symm)
            rw [equal, certified] at uncertified
            cases uncertified
          rw [if_neg (fun refused => settled refused.2), record_ignored settled,
            ofReference_tally_certified wellFormed split found certified]
          rfl
      | false =>
          have waiting : reference.AwaitsVotes checkpoint.anchor :=
            ⟨minted, by simp [split], found, certified⟩
          have uncertified : minted.certificate = none := by
            rw [MintedCheckpoint.certified] at certified
            simpa using certified
          have failed : (entryOf reference.committee reference.quorum minted).tally
              (ofReference reference).committee (ofReference reference).quorum subdag author
                checkpoint = .error .authorityNotFound :=
            entryOf_tally_stranger (wellFormed.tallied minted (by simp [split])) member uncertified
          rw [if_pos ⟨member, waiting⟩, map_error]
          exact tally_failed (ofReference_ordered wellFormed) (ofReference_window split certified)
            (entries_unknown unknown) found failed

/-- Every run of the certifier is one of the strict reference, panics included. -/
theorem run_strict {calls : List CertifierCall} (wellFormed : reference.WellFormed)
    (anchors : Admissible (reference.minted.map MintedCheckpoint.anchor ++
      calls.filterMap CertifierCall.pushed)) :
    run step (ofReference reference) calls =
      (fun result => (result.1, ofReference result.2)) <$>
        run ReferenceCertifier.strictStep reference calls := by
  induction calls generalizing reference with
  | nil => rfl
  | cons call calls ih =>
      cases call with
      | push anchor commitment timings =>
          have grown : (reference.push anchor commitment timings).minted.map MintedCheckpoint.anchor =
              reference.minted.map MintedCheckpoint.anchor ++ [anchor] := List.map_append
          have anchors' : Admissible (reference.minted.map MintedCheckpoint.anchor ++ [anchor] ++
              calls.filterMap CertifierCall.pushed) := by
            rw [List.append_assoc]
            exact anchors
          have tail := @ih (reference.push anchor commitment timings)
            (push_wellFormed wellFormed anchors'.left) (grown ▸ anchors')
          simp only [run, step, ReferenceCertifier.strictStep, ofReference_push, bind_ok, tail]
          cases run ReferenceCertifier.strictStep (reference.push anchor commitment timings) calls <;>
            rfl
      | record subdag author checkpoint =>
          simp only [run, step, ReferenceCertifier.strictStep, ofReference_strictRecord wellFormed]
          cases recorded : reference.strictRecord subdag author checkpoint with
          | error panic => rfl
          | ok result =>
              obtain ⟨output, next⟩ := result
              have kept : next.minted.map MintedCheckpoint.anchor =
                  reference.minted.map MintedCheckpoint.anchor := by
                unfold ReferenceCertifier.strictRecord at recorded
                split at recorded
                · cases recorded
                · cases recorded
                  exact record_anchors
              have tail := @ih next (strictRecord_wellFormed wellFormed recorded) (by
                rw [kept]
                exact anchors)
              simp only [map_ok, bind_ok, tail]
              cases run ReferenceCertifier.strictStep next calls <;> rfl

end CheckpointCertifier

end

/-! ## The votes of one anchor -/

/-- The checkpoint that a call mints, with no votes yet. -/
def CertifierCall.mint : CertifierCall → Option MintedCheckpoint
  | push anchor commitment timings => some ⟨⟨anchor, commitment⟩, timings, [], none⟩
  | record .. => none

/-- The votes for `anchor` after its mint, in call order. -/
def ballots (anchor : BlockReference) (calls : List CertifierCall) : List Vote :=
  (afterMint anchor calls).filterMap (voteFor anchor)

/-- What these votes returned. -/
def answers {ο : Type} (anchor : BlockReference) (calls : List CertifierCall) (outputs : List ο) :
    List ο :=
  (((calls.zip outputs).dropWhile fun answered => answered.1.pushed ≠ some anchor).drop 1).filterMap
    fun answered => (voteFor anchor answered.1).map fun _ => answered.2

section

variable {ο : Type} {anchor : BlockReference} {calls : List CertifierCall} {call : CertifierCall}
  {outputs : List ο} {output : ο}

theorem mint_pushed (calls : List CertifierCall) :
    (calls.filterMap CertifierCall.mint).map MintedCheckpoint.anchor =
      calls.filterMap CertifierCall.pushed := by
  rw [List.map_filterMap]
  congr 1
  funext call
  cases call <;> rfl

theorem ballots_unminted (unminted : anchor ∉ calls.filterMap CertifierCall.pushed) :
    ballots anchor calls = [] := by
  rw [ballots, afterMint_unminted unminted]
  rfl

theorem ballots_concat :
    ballots anchor (calls ++ [call]) =
      if anchor ∈ calls.filterMap CertifierCall.pushed then
        ballots anchor calls ++ (voteFor anchor call).toList
      else [] := by
  rw [ballots]
  split
  · rename_i minted
    rw [afterMint_concat minted, List.filterMap_append, ballots]
    cases voted : voteFor anchor call <;> simp [voted]
  · rename_i unminted
    rw [afterMint_mint unminted]
    rfl

theorem ballots_silent (silent : voteFor anchor call = none) :
    ballots anchor (calls ++ [call]) = ballots anchor calls := by
  rw [ballots_concat, silent]
  split
  · exact List.append_nil _
  · rename_i unminted
    exact (ballots_unminted unminted).symm

theorem answers_concat (length : outputs.length = calls.length) :
    answers anchor (calls ++ [call]) (outputs ++ [output]) =
      if anchor ∈ calls.filterMap CertifierCall.pushed then
        answers anchor calls outputs ++ ((voteFor anchor call).map fun _ => output).toList
      else [] := by
  have unzipped : (calls.zip outputs).map Prod.fst = calls :=
    List.map_fst_zip (Nat.le_of_eq length.symm)
  have minted : anchor ∈ calls.filterMap CertifierCall.pushed ↔
      (calls.zip outputs).dropWhile (fun answered => answered.1.pushed ≠ some anchor) ≠ [] := by
    conv_lhs => rw [← unzipped]
    rw [ne_eq, List.dropWhile_eq_nil_iff]
    simp only [List.mem_filterMap, List.mem_map, decide_eq_true_eq, not_forall, not_not]
    apply Iff.intro
    · intro found
      obtain ⟨_, ⟨answered, listed, rfl⟩, pushes⟩ := found
      exact ⟨answered, listed, pushes⟩
    · intro found
      obtain ⟨answered, listed, pushes⟩ := found
      exact ⟨_, ⟨answered, listed, rfl⟩, pushes⟩
  rw [answers, answers, List.zip_append length.symm, List.dropWhile_append]
  by_cases mints : anchor ∈ calls.filterMap CertifierCall.pushed
  · have some := minted.mp mints
    rw [if_pos mints, if_neg (by simpa using some),
      List.drop_append_of_le_length (List.length_pos_of_ne_nil some), List.filterMap_append]
    cases voted : voteFor anchor call <;> simp [voted]
  · have none := not_not.mp (mt minted.mpr mints)
    rw [if_neg mints, if_pos (by rw [none]; rfl)]
    by_cases pushes : call.pushed = some anchor <;> simp [pushes]

theorem answers_silent (length : outputs.length = calls.length) (silent : voteFor anchor call = none) :
    answers anchor (calls ++ [call]) (outputs ++ [output]) =
      if anchor ∈ calls.filterMap CertifierCall.pushed then answers anchor calls outputs else [] := by
  rw [answers_concat length, silent]
  simp

end

/-- The reference after `calls`, which returned `outputs`: every minted
checkpoint is where its own votes lead. -/
structure Anchorwise (committee : Committee) (quorum : UInt64) (calls : List CertifierCall)
    (outputs : List (Option Formed)) (reference : ReferenceCertifier) : Prop where
  committee_eq : reference.committee = committee
  quorum_eq : reference.quorum = quorum
  anchors : reference.minted.map MintedCheckpoint.anchor = calls.filterMap CertifierCall.pushed
  separate : ∀ minted ∈ reference.minted, ∃ fresh ∈ calls.filterMap CertifierCall.mint,
    fresh.anchor = minted.anchor ∧ run (cast committee quorum) fresh (ballots minted.anchor calls) =
      .ok (answers minted.anchor calls outputs, minted)

section

variable {committee : Committee} {quorum : UInt64} {calls : List CertifierCall}
  {outputs : List (Option Formed)} {reference next : ReferenceCertifier} {call : CertifierCall}
  {output : Option Formed} {minted : MintedCheckpoint}

theorem Anchorwise.new (committee : Committee) (quorum : UInt64) :
    Anchorwise committee quorum [] [] (.new committee quorum) where
  committee_eq := rfl
  quorum_eq := rfl
  anchors := rfl
  separate _ listed := by cases listed

theorem Anchorwise.minted_pushed (anchorwise : Anchorwise committee quorum calls outputs reference)
    (listed : minted ∈ reference.minted) :
    minted.anchor ∈ calls.filterMap CertifierCall.pushed := by
  rw [← anchorwise.anchors]
  exact List.mem_map_of_mem listed

/-- A call that is no vote for an anchor leaves its checkpoint where it was. -/
theorem Anchorwise.silent (anchorwise : Anchorwise committee quorum calls outputs reference)
    (length : outputs.length = calls.length) (listed : minted ∈ reference.minted)
    (silent : voteFor minted.anchor call = none) :
    ∃ fresh ∈ (calls ++ [call]).filterMap CertifierCall.mint,
      fresh.anchor = minted.anchor ∧
        run (cast committee quorum) fresh (ballots minted.anchor (calls ++ [call])) =
          .ok (answers minted.anchor (calls ++ [call]) (outputs ++ [output]), minted) := by
  obtain ⟨fresh, mints, same, ran⟩ := anchorwise.separate minted listed
  refine ⟨fresh, ?_, same, ?_⟩
  · rw [List.filterMap_append]
    exact List.mem_append_left _ mints
  · rw [ballots_silent silent, answers_silent length silent,
      if_pos (anchorwise.minted_pushed listed)]
    exact ran

/-- A vote for an anchor is cast on its checkpoint. -/
theorem Anchorwise.voted (anchorwise : Anchorwise committee quorum calls outputs reference)
    (length : outputs.length = calls.length) (listed : minted ∈ reference.minted) {vote : Vote}
    (voted : voteFor minted.anchor call = some vote) {changed : MintedCheckpoint}
    (keeps : changed.anchor = minted.anchor)
    (counts : minted.cast committee quorum vote = .ok (output, changed)) :
    ∃ fresh ∈ (calls ++ [call]).filterMap CertifierCall.mint,
      fresh.anchor = changed.anchor ∧
        run (cast committee quorum) fresh (ballots changed.anchor (calls ++ [call])) =
          .ok (answers changed.anchor (calls ++ [call]) (outputs ++ [output]), changed) := by
  obtain ⟨fresh, mints, same, ran⟩ := anchorwise.separate minted listed
  have earlier : fresh ∈ (calls ++ [call]).filterMap CertifierCall.mint := by
    rw [List.filterMap_append]
    exact List.mem_append_left _ mints
  rw [keeps, ballots_concat, answers_concat length, if_pos (anchorwise.minted_pushed listed),
    if_pos (anchorwise.minted_pushed listed), voted]
  exact ⟨fresh, earlier, same, run_concat_ok.mpr ⟨_, minted, _, _, ran, counts, rfl⟩⟩

theorem Anchorwise.push (anchorwise : Anchorwise committee quorum calls outputs reference)
    (length : outputs.length = calls.length) {anchor : BlockReference} {commitment : Digest}
    {timings : CheckpointTimings} (unminted : anchor ∉ calls.filterMap CertifierCall.pushed) :
    Anchorwise committee quorum (calls ++ [.push anchor commitment timings]) (outputs ++ [none])
      (reference.push anchor commitment timings) where
  committee_eq := anchorwise.committee_eq
  quorum_eq := anchorwise.quorum_eq
  anchors := by
    rw [ReferenceCertifier.push, List.map_append, anchorwise.anchors, List.filterMap_append]
    rfl
  separate := by
    intro minted listed
    rcases List.mem_append.mp listed with listed | listed
    · exact anchorwise.silent length listed rfl
    · obtain rfl := List.mem_singleton.mp listed
      refine ⟨_, by simp [CertifierCall.mint], rfl, ?_⟩
      change run (cast committee quorum) _ (ballots anchor _) = .ok (answers anchor _ _, _)
      rw [ballots_silent rfl, ballots_unminted unminted, answers_silent length rfl, if_neg unminted]
      rfl

theorem Anchorwise.record (anchorwise : Anchorwise committee quorum calls outputs reference)
    (length : outputs.length = calls.length) (distinct : (calls.filterMap CertifierCall.pushed).Nodup)
    {subdag : BlockReference} {author : Authority} {checkpoint : Checkpoint}
    (recorded : reference.strictRecord subdag author checkpoint = .ok (output, next)) :
    Anchorwise committee quorum (calls ++ [.record subdag author checkpoint]) (outputs ++ [output])
      next := by
  obtain rfl : reference.committee = committee := anchorwise.committee_eq
  obtain rfl : reference.quorum = quorum := anchorwise.quorum_eq
  have anchors := anchorwise.anchors
  have accepted : ¬ (author ∉ reference.committee.members ∧
      reference.AwaitsVotes checkpoint.anchor) := by
    intro refused
    rw [ReferenceCertifier.strictRecord, if_pos refused] at recorded
    cases recorded
  rw [ReferenceCertifier.strictRecord, if_neg accepted] at recorded
  have same := Except.ok.inj recorded
  have pushed : (calls ++ [CertifierCall.record subdag author checkpoint]).filterMap
      CertifierCall.pushed = calls.filterMap CertifierCall.pushed := by
    rw [List.filterMap_append]
    exact List.append_nil _
  rcases record_cases reference subdag author checkpoint with
    ⟨unknown, kept⟩ | ⟨front, minted, back, split, unknown, found, changed⟩
  · rw [kept] at same
    cases same
    exact ⟨rfl, rfl, anchors.trans pushed.symm, fun minted listed =>
      anchorwise.silent length listed (if_neg fun equal => unknown minted listed equal.symm)⟩
  · let vote : Vote := ⟨author, checkpoint.commitment, subdag⟩
    have listed : minted ∈ reference.minted := by simp [split]
    have voted : voteFor minted.anchor (.record subdag author checkpoint) = some vote :=
      if_pos found.symm
    have counts : minted.cast reference.committee reference.quorum vote =
        .ok (minted.vote reference.committee reference.quorum subdag author checkpoint) := by
      have member : ¬ (minted.certified = false ∧ author ∉ reference.committee.members) :=
        fun refused => accepted ⟨refused.2, minted, listed, found, refused.1⟩
      rw [MintedCheckpoint.cast, if_neg member, found]
    have keeps : (minted.vote reference.committee reference.quorum subdag author checkpoint).2.anchor =
        minted.anchor := congrArg Checkpoint.anchor vote_keeps.1
    rw [changed] at same
    cases same
    refine ⟨rfl, rfl, ?_, fun other listed' => ?_⟩
    · rw [pushed, ← anchors, split]
      simp only [List.map_append, List.map_cons, keeps]
    · rcases List.mem_append.mp listed' with earlier | later
      · exact anchorwise.silent length (by simp [split, earlier])
          (if_neg fun equal => unknown other earlier equal.symm)
      · rcases List.mem_cons.mp later with rfl | later
        · exact anchorwise.voted length listed voted keeps counts
        · refine anchorwise.silent length (by simp [split, later]) (if_neg fun equal => ?_)
          rw [← anchors, split, List.map_append, List.map_cons, List.nodup_append,
            List.nodup_cons] at distinct
          apply distinct.2.1.1
          rw [found, equal]
          exact List.mem_map_of_mem later

theorem Anchorwise.step (anchorwise : Anchorwise committee quorum calls outputs reference)
    (length : outputs.length = calls.length)
    (distinct : ((calls ++ [call]).filterMap CertifierCall.pushed).Nodup)
    (stepped : reference.strictStep call = .ok (output, next)) :
    Anchorwise committee quorum (calls ++ [call]) (outputs ++ [output]) next := by
  rw [List.filterMap_append] at distinct
  cases call with
  | push anchor commitment timings =>
      cases stepped
      apply anchorwise.push length
      intro earlier
      exact (List.nodup_append.mp distinct).2.2 anchor earlier anchor
        (by simp [CertifierCall.pushed]) rfl
  | record subdag author checkpoint =>
      exact anchorwise.record length (List.nodup_append.mp distinct).1 stepped

theorem run_anchorwise (distinct : (calls.filterMap CertifierCall.pushed).Nodup)
    (ran : run ReferenceCertifier.strictStep (.new committee quorum) calls = .ok (outputs, reference)) :
    Anchorwise committee quorum calls outputs reference := by
  refine run_history
    (fun calls outputs reference => (calls.filterMap CertifierCall.pushed).Nodup →
      Anchorwise committee quorum calls outputs reference) ?_ (fun _ => .new committee quorum) ran
    distinct
  intro calls outputs reference call output next front held stepped distinct
  refine (held ?_).step (run_length front) distinct stepped
  rw [List.filterMap_append] at distinct
  exact (List.nodup_append.mp distinct).1

/-- A run returns if the votes of each anchor do on their own. -/
theorem run_returns (distinct : (calls.filterMap CertifierCall.pushed).Nodup)
    (returns : ∀ fresh ∈ calls.filterMap CertifierCall.mint, ∃ result,
      run (cast committee quorum) fresh (ballots fresh.anchor calls) = .ok result) :
    ∃ result, run ReferenceCertifier.strictStep (.new committee quorum) calls = .ok result := by
  induction calls using List.reverseRecOn with
  | nil => exact ⟨_, rfl⟩
  | append_singleton calls call ih =>
      rw [List.filterMap_append] at distinct
      have earlier := (List.nodup_append.mp distinct).1
      obtain ⟨⟨outputs, reference⟩, ran⟩ := ih earlier (by
        intro fresh mints
        obtain ⟨result, finished⟩ := returns fresh (by
          rw [List.filterMap_append]
          exact List.mem_append_left _ mints)
        have pushed : fresh.anchor ∈ calls.filterMap CertifierCall.pushed := by
          rw [← mint_pushed]
          exact List.mem_map_of_mem mints
        rw [ballots_concat, if_pos pushed] at finished
        obtain ⟨first, middle, _, _, front, -⟩ := run_append_ok.mp finished
        exact ⟨_, front⟩)
      have anchorwise := run_anchorwise earlier ran
      have stepped : ∃ result, reference.strictStep call = .ok result := by
        cases call with
        | push anchor commitment timings => exact ⟨_, rfl⟩
        | record subdag author checkpoint =>
            rw [ReferenceCertifier.strictStep, ReferenceCertifier.strictRecord]
            split
            · rename_i refused
              obtain ⟨stranger, minted, listed, found, uncertified⟩ := refused
              obtain ⟨fresh, mints, same, front⟩ := anchorwise.separate minted listed
              obtain ⟨result, finished⟩ := returns fresh (by
                rw [List.filterMap_append]
                exact List.mem_append_left _ mints)
              have voted : voteFor minted.anchor (.record subdag author checkpoint) =
                  some ⟨author, checkpoint.commitment, subdag⟩ := if_pos found.symm
              rw [same, ballots_concat, if_pos (anchorwise.minted_pushed listed), voted] at finished
              obtain ⟨_, middle, _, _, front', casts, -⟩ := run_concat_ok.mp finished
              cases front.symm.trans front'
              rw [← anchorwise.committee_eq, MintedCheckpoint.cast,
                if_pos ⟨uncertified, stranger⟩] at casts
              cases casts
            · exact ⟨_, rfl⟩
      obtain ⟨⟨output, next⟩, stepped⟩ := stepped
      exact ⟨_, run_concat_ok.mpr ⟨_, _, _, _, ran, stepped, rfl⟩⟩

end

end

end BlockchainValidator
