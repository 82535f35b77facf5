import BlockchainValidator.Checkpoint.Anchorwise

/-! # Interleavings and repetitions of votes

Only the mints and, for each anchor, the votes after its mint decide what a
certifier is and returns.
-/

namespace BlockchainValidator

open Execution Run MintedCheckpoint

section

variable {α β κ δ : Type} {key : α → κ} {key' : β → κ} {f : α → δ} {g : β → δ} {left : List α}
  {right : List β}

/-- Two lists of one sequence of keys, compared key by key. -/
theorem map_eq_of_keys (same : left.map key = right.map key')
    (agree : ∀ item ∈ left, ∀ item' ∈ right, key item = key' item' → f item = g item') :
    left.map f = right.map g := by
  induction left generalizing right with
  | nil =>
      obtain rfl : right = [] := List.map_eq_nil_iff.mp same.symm
      rfl
  | cons item left ih =>
      cases right with
      | nil => cases same
      | cons item' right =>
          obtain ⟨head, tail⟩ := List.cons.inj same
          rw [List.map_cons, List.map_cons, agree item (by simp) item' (by simp) head,
            ih tail fun later listed later' listed' =>
              agree later (by simp [listed]) later' (by simp [listed'])]

end

section

variable [Dag]

section

variable {anchor : BlockReference}

theorem ballots_cons (call : CertifierCall) (calls : List CertifierCall) :
    ballots anchor (call :: calls) =
      if call.pushed = some anchor then calls.filterMap (voteFor anchor)
      else ballots anchor calls := by
  rw [ballots, afterMint]
  split <;> rfl

theorem ballots_append (front back : List CertifierCall) :
    ballots anchor (front ++ back) =
      if anchor ∈ front.filterMap CertifierCall.pushed then
        ballots anchor front ++ back.filterMap (voteFor anchor)
      else ballots anchor back := by
  induction front with
  | nil => rfl
  | cons call front ih =>
      rw [List.cons_append, ballots_cons, ballots_cons]
      by_cases mints : call.pushed = some anchor
      · rw [if_pos mints, if_pos mints, if_pos (List.mem_filterMap.mpr ⟨call, by simp, mints⟩),
          List.filterMap_append]
      · have same : anchor ∈ (call :: front).filterMap CertifierCall.pushed ↔
            anchor ∈ front.filterMap CertifierCall.pushed := by
          simp [List.mem_filterMap, mints]
        rw [if_neg mints, if_neg mints, ih, if_congr same rfl rfl]

theorem records_silent {votes : List CertifierCall}
    (records : ∀ vote ∈ votes, vote.pushed = none) :
    votes.filterMap CertifierCall.pushed = [] ∧ votes.filterMap CertifierCall.mint = [] := by
  refine ⟨List.filterMap_eq_nil_iff.mpr records, List.filterMap_eq_nil_iff.mpr ?_⟩
  intro vote listed
  have pushes := records vote listed
  cases vote with
  | push => cases pushes
  | record => rfl

theorem ballots_records {votes back : List CertifierCall}
    (records : ∀ vote ∈ votes, vote.pushed = none) :
    ballots anchor (votes ++ back) = ballots anchor back := by
  rw [ballots_append, (records_silent records).1, if_neg List.not_mem_nil]

/-- Votes recorded before or after the mint of another anchor are the same. -/
theorem ballots_mint_order {front votes back : List CertifierCall} {mint : CertifierCall}
    (records : ∀ vote ∈ votes, vote.pushed = none) (other : mint.pushed ≠ some anchor)
    (silent : voteFor anchor mint = none) :
    ballots anchor (front ++ mint :: (votes ++ back)) =
      ballots anchor (front ++ (votes ++ mint :: back)) := by
  rw [ballots_append, ballots_append, ballots_cons, if_neg other, ballots_records records,
    ballots_records records, ballots_cons, if_neg other]
  simp [List.filterMap_append, silent]

end

theorem answers_map {ο ο' : Type} (f : ο → ο') (anchor : BlockReference) (calls : List CertifierCall)
    (outputs : List ο) :
    answers anchor calls (outputs.map f) = (answers anchor calls outputs).map f := by
  rw [answers, answers, List.zip_map_right, List.dropWhile_map, ← List.map_drop, List.filterMap_map,
    List.map_filterMap]
  congr 1
  funext answered
  simp [Function.comp_def, Option.map_map]

theorem answers_unminted {ο : Type} {anchor : BlockReference} {calls : List CertifierCall}
    {outputs : List ο} (unminted : anchor ∉ calls.filterMap CertifierCall.pushed) :
    answers anchor calls outputs = [] := by
  have nothing : (calls.zip outputs).dropWhile
      (fun answered => answered.1.pushed ≠ some anchor) = [] := by
    rw [List.dropWhile_eq_nil_iff]
    intro answered listed
    refine decide_eq_true fun pushes => unminted ?_
    exact List.mem_filterMap.mpr ⟨_, (List.of_mem_zip listed).1, pushes⟩
  rw [answers, nothing]
  rfl

section

variable {committee : Committee} {quorum : UInt64} {calls calls' : List CertifierCall}
  {outputs outputs' : List (Option Formed)} {reference reference' : ReferenceCertifier}

theorem mints_distinct (distinct : (calls.filterMap CertifierCall.pushed).Nodup) :
    ((calls.filterMap CertifierCall.mint).map MintedCheckpoint.anchor).Nodup := by
  rw [mint_pushed]
  exact distinct

/-- What the votes for an anchor lead to is what its own mint and votes lead to. -/
theorem Anchorwise.of_mint (anchorwise : Anchorwise committee quorum calls outputs reference)
    (distinct : (calls.filterMap CertifierCall.pushed).Nodup) {fresh : MintedCheckpoint}
    (mints : fresh ∈ calls.filterMap CertifierCall.mint) :
    ∃ minted ∈ reference.minted, minted.anchor = fresh.anchor ∧
      run (cast committee quorum) fresh (ballots fresh.anchor calls) =
        .ok (answers fresh.anchor calls outputs, minted) := by
  have pushed : fresh.anchor ∈ reference.minted.map MintedCheckpoint.anchor := by
    rw [anchorwise.anchors, ← mint_pushed]
    exact List.mem_map_of_mem mints
  obtain ⟨minted, listed, same⟩ := List.mem_map.mp pushed
  obtain ⟨fresh', mints', same', ran⟩ := anchorwise.separate minted listed
  obtain rfl := List.inj_on_of_nodup_map (mints_distinct distinct) mints' mints (same'.trans same)
  rw [← same'] at ran
  exact ⟨minted, listed, same, ran⟩

/-- Histories with the same mints that agree on the votes for an anchor agree on
its checkpoint and on what these votes return. -/
theorem Anchorwise.agree (anchorwise : Anchorwise committee quorum calls outputs reference)
    (anchorwise' : Anchorwise committee quorum calls' outputs' reference')
    (distinct : (calls.filterMap CertifierCall.pushed).Nodup)
    (mints : calls.filterMap CertifierCall.mint = calls'.filterMap CertifierCall.mint)
    {minted minted' : MintedCheckpoint} (listed : minted ∈ reference.minted)
    (listed' : minted' ∈ reference'.minted) (same : minted.anchor = minted'.anchor)
    (votes : ballots minted.anchor calls = ballots minted.anchor calls') :
    minted = minted' ∧ answers minted.anchor calls outputs = answers minted.anchor calls' outputs' := by
  obtain ⟨fresh, mint, anchor, ran⟩ := anchorwise.separate minted listed
  obtain ⟨fresh', mint', anchor', ran'⟩ := anchorwise'.separate minted' listed'
  rw [← mints] at mint'
  obtain rfl := List.inj_on_of_nodup_map (mints_distinct distinct) mint mint'
    (anchor.trans (same.trans anchor'.symm))
  rw [votes, same] at ran
  obtain ⟨replies, states⟩ := Prod.mk.inj (Except.ok.inj (ran.symm.trans ran'))
  rw [same]
  exact ⟨states, replies⟩

theorem Anchorwise.unique (anchorwise : Anchorwise committee quorum calls outputs reference)
    (anchorwise' : Anchorwise committee quorum calls' outputs' reference')
    (distinct : (calls.filterMap CertifierCall.pushed).Nodup)
    (mints : calls.filterMap CertifierCall.mint = calls'.filterMap CertifierCall.mint)
    (votes : ∀ anchor, ballots anchor calls = ballots anchor calls') : reference = reference' := by
  have pushed : calls.filterMap CertifierCall.pushed = calls'.filterMap CertifierCall.pushed := by
    rw [← mint_pushed, ← mint_pushed, mints]
  have keys : reference.minted.map MintedCheckpoint.anchor =
      reference'.minted.map MintedCheckpoint.anchor := by
    rw [anchorwise.anchors, anchorwise'.anchors, pushed]
  have minted : reference.minted = reference'.minted := by
    have whole := map_eq_of_keys (f := id) (g := id) keys
      fun minted listed minted' listed' same =>
        (anchorwise.agree anchorwise' distinct mints listed listed' same (votes _)).1
    rwa [List.map_id, List.map_id] at whole
  obtain ⟨_, _, all⟩ := reference
  obtain ⟨_, _, all'⟩ := reference'
  cases anchorwise.committee_eq
  cases anchorwise.quorum_eq
  cases anchorwise'.committee_eq
  cases anchorwise'.quorum_eq
  cases minted
  rfl

theorem Anchorwise.answers_eq (anchorwise : Anchorwise committee quorum calls outputs reference)
    (anchorwise' : Anchorwise committee quorum calls' outputs' reference')
    (distinct : (calls.filterMap CertifierCall.pushed).Nodup)
    (mints : calls.filterMap CertifierCall.mint = calls'.filterMap CertifierCall.mint)
    {anchor : BlockReference} (votes : ballots anchor calls = ballots anchor calls') :
    answers anchor calls outputs = answers anchor calls' outputs' := by
  have pushed : calls.filterMap CertifierCall.pushed = calls'.filterMap CertifierCall.pushed := by
    rw [← mint_pushed, ← mint_pushed, mints]
  by_cases minted : anchor ∈ calls.filterMap CertifierCall.pushed
  · have minted' := pushed ▸ minted
    rw [← anchorwise.anchors] at minted
    rw [← anchorwise'.anchors] at minted'
    obtain ⟨found, listed, rfl⟩ := List.mem_map.mp minted
    obtain ⟨found', listed', same⟩ := List.mem_map.mp minted'
    exact (anchorwise.agree anchorwise' distinct mints listed listed' same.symm votes).2
  · rw [answers_unminted minted, answers_unminted (pushed ▸ minted)]

end

namespace CheckpointCertifier

variable [BuildProfile] {committee : Committee} {quorum : UInt64}
  {calls calls' : List CertifierCall} {certifier certifier' : CheckpointCertifier}
  {returned returned' : List (Option CheckpointTimings)}

/-- A returned run of the certifier is one of the reference, anchor by anchor. -/
theorem run_separate (anchors : Admissible (calls.filterMap CertifierCall.pushed)) :
    run call (.new committee quorum) calls = .ok (returned, certifier) ↔
      ∃ outputs reference,
        run ReferenceCertifier.strictStep (.new committee quorum) calls = .ok (outputs, reference) ∧
        returned = outputs.map (Option.map Prod.snd) ∧ certifier = ofReference reference := by
  have strict : run step (.new committee quorum) calls = _ :=
    run_strict (ReferenceCertifier.new_wellFormed committee quorum) anchors
  rw [run_call, strict]
  cases run ReferenceCertifier.strictStep (.new committee quorum) calls with
  | error panic => simp
  | ok result =>
      simp only [map_ok, Except.ok.injEq, Prod.ext_iff]
      apply Iff.intro
      · intro same
        exact ⟨_, _, ⟨rfl, rfl⟩, same.1.symm, same.2.symm⟩
      · intro same
        obtain ⟨outputs, reference, ⟨rfl, rfl⟩, replies, states⟩ := same
        exact ⟨replies.symm, states.symm⟩

/-- Two histories with the same mints agree on each anchor whose votes are the
same: on what these return, and on its entry where it is in both windows. -/
theorem agree_on_anchor
    (anchors : Admissible (calls.filterMap CertifierCall.pushed))
    (mints : calls.filterMap CertifierCall.mint = calls'.filterMap CertifierCall.mint)
    (ran : run call (.new committee quorum) calls = .ok (returned, certifier))
    (ran' : run call (.new committee quorum) calls' = .ok (returned', certifier'))
    {anchor : BlockReference} (votes : ballots anchor calls = ballots anchor calls') :
    answers anchor calls returned = answers anchor calls' returned' ∧
      ∀ entry ∈ certifier.window, ∀ entry' ∈ certifier'.window,
        entry.localCheckpoint.anchor = anchor → entry'.localCheckpoint.anchor = anchor →
          entry = entry' := by
  have pushed : calls.filterMap CertifierCall.pushed = calls'.filterMap CertifierCall.pushed := by
    rw [← mint_pushed, ← mint_pushed, mints]
  have anchors' : Admissible (calls'.filterMap CertifierCall.pushed) := pushed ▸ anchors
  obtain ⟨outputs, reference, finished, rfl, rfl⟩ := (run_separate anchors).mp ran
  obtain ⟨outputs', reference', finished', rfl, rfl⟩ := (run_separate anchors').mp ran'
  have anchorwise := run_anchorwise anchors.distinct finished
  have anchorwise' := run_anchorwise anchors'.distinct finished'
  apply And.intro
  · rw [answers_map, answers_map, anchorwise.answers_eq anchorwise' anchors.distinct mints votes]
  · intro entry waiting entry' waiting' here here'
    obtain ⟨minted, left, rfl⟩ := List.mem_map.mp waiting
    obtain ⟨minted', left', rfl⟩ := List.mem_map.mp waiting'
    have listed := (List.dropWhile_sublist _).subset left
    have listed' := (List.dropWhile_sublist _).subset left'
    have same : minted.anchor = minted'.anchor := here.trans here'.symm
    obtain ⟨rfl, -⟩ := anchorwise.agree anchorwise' anchors.distinct mints listed listed' same
      (by rw [show minted.anchor = anchor from here]; exact votes)
    rw [anchorwise.committee_eq, anchorwise.quorum_eq, anchorwise'.committee_eq, anchorwise'.quorum_eq]

omit [BuildProfile] in
/-- A sub-dag's votes recorded before its checkpoint is minted, and not after. -/
theorem mint_moved (front back : List CertifierCall) {votes : List CertifierCall}
    {anchor other : BlockReference} (commitment : Digest) (timings : CheckpointTimings)
    (records : ∀ vote ∈ votes, vote.pushed = none) (different : other ≠ anchor) :
    (front ++ .push anchor commitment timings :: (votes ++ back)).filterMap CertifierCall.mint =
        (front ++ (votes ++ .push anchor commitment timings :: back)).filterMap CertifierCall.mint ∧
      ballots other (front ++ .push anchor commitment timings :: (votes ++ back)) =
        ballots other (front ++ (votes ++ .push anchor commitment timings :: back)) := by
  refine ⟨?_, ballots_mint_order records (by simp [CertifierCall.pushed, different.symm]) rfl⟩
  simp [List.filterMap_append, CertifierCall.mint, (records_silent records).2]

/-- Two histories with the same mints and the same votes for each anchor after
its mint return the same for each vote and lead to one certifier.  In particular
it is nothing to the votes for other anchors, nor to their entries, whether a
sub-dag's votes are recorded before or after its checkpoint is minted. -/
theorem interleaving_irrelevant
    (anchors : Admissible (calls.filterMap CertifierCall.pushed))
    (mints : calls.filterMap CertifierCall.mint = calls'.filterMap CertifierCall.mint)
    (votes : ∀ anchor, ballots anchor calls = ballots anchor calls')
    (ran : run call (.new committee quorum) calls = .ok (returned, certifier)) :
    (∃ returned', run call (.new committee quorum) calls' = .ok (returned', certifier) ∧
      ∀ anchor, answers anchor calls returned = answers anchor calls' returned') ∧
    ∀ (front votes back : List CertifierCall) (anchor : BlockReference) (commitment : Digest)
      (timings : CheckpointTimings) (moved : List (Option CheckpointTimings))
      (certifier' : CheckpointCertifier),
      calls = front ++ .push anchor commitment timings :: (votes ++ back) →
      (∀ vote ∈ votes, vote.pushed = none) →
      run call (.new committee quorum) (front ++ (votes ++ .push anchor commitment timings :: back)) =
        .ok (moved, certifier') →
      ∀ other, other ≠ anchor →
        answers other calls returned =
          answers other (front ++ (votes ++ .push anchor commitment timings :: back)) moved ∧
        ∀ entry ∈ certifier.window, ∀ entry' ∈ certifier'.window,
          entry.localCheckpoint.anchor = other → entry'.localCheckpoint.anchor = other →
            entry = entry' := by
  apply And.intro
  · have pushed : calls.filterMap CertifierCall.pushed = calls'.filterMap CertifierCall.pushed := by
      rw [← mint_pushed, ← mint_pushed, mints]
    have anchors' : Admissible (calls'.filterMap CertifierCall.pushed) := pushed ▸ anchors
    obtain ⟨outputs, reference, finished, rfl, rfl⟩ := (run_separate anchors).mp ran
    have anchorwise := run_anchorwise anchors.distinct finished
    obtain ⟨⟨outputs', reference'⟩, finished'⟩ := run_returns anchors'.distinct (by
      intro fresh mint
      rw [← mints] at mint
      obtain ⟨minted, -, -, casts⟩ := anchorwise.of_mint anchors.distinct mint
      rw [votes] at casts
      exact ⟨_, casts⟩)
    have anchorwise' := run_anchorwise anchors'.distinct finished'
    obtain rfl := anchorwise.unique anchorwise' anchors.distinct mints votes
    refine ⟨outputs'.map (Option.map Prod.snd), ?_, fun anchor => ?_⟩
    · exact (run_separate anchors').mpr ⟨_, _, finished', rfl, rfl⟩
    · rw [answers_map, answers_map,
        anchorwise.answers_eq anchorwise' anchors.distinct mints (votes anchor)]
  · rintro front early back anchor commitment timings moved certifier' rfl records ran' other different
    obtain ⟨same, unmoved⟩ := mint_moved front back commitment timings records different
    exact agree_on_anchor anchors same ran ran' unmoved

end CheckpointCertifier

end

section

attribute [local instance] plainDag checkedBuild

open CheckpointCertifier

private def frontAnchor : BlockReference := plainReference 0 1

private def backAnchor : BlockReference := plainReference 1 1

/-- A vote comes before its mint, the second checkpoint certifies first, and the
first certificate takes both out of the window. -/
private def together : List CertifierCall :=
  [.record (plainReference 0 2) (1 : UInt64) ⟨frontAnchor, .default⟩,
    .push frontAnchor .default ⟨.zero, 3⟩, .push backAnchor .default ⟨.zero, 4⟩,
    .record (plainReference 0 2) (0 : UInt64) ⟨backAnchor, .default⟩,
    .record (plainReference 0 2) (0 : UInt64) ⟨frontAnchor, .default⟩,
    .record (plainReference 0 3) (1 : UInt64) ⟨backAnchor, .default⟩,
    .record (plainReference 0 3) (0 : UInt64) ⟨frontAnchor, ⟨.replicate 32 1⟩⟩,
    .record (plainReference 0 3) (1 : UInt64) ⟨frontAnchor, .default⟩]

/-- The same mints and votes, one checkpoint after the other. -/
private def apart : List CertifierCall :=
  [.push frontAnchor .default ⟨.zero, 3⟩,
    .record (plainReference 0 2) (0 : UInt64) ⟨frontAnchor, .default⟩,
    .record (plainReference 0 3) (0 : UInt64) ⟨frontAnchor, ⟨.replicate 32 1⟩⟩,
    .record (plainReference 0 3) (1 : UInt64) ⟨frontAnchor, .default⟩,
    .push backAnchor .default ⟨.zero, 4⟩,
    .record (plainReference 0 2) (0 : UInt64) ⟨backAnchor, .default⟩,
    .record (plainReference 0 3) (1 : UInt64) ⟨backAnchor, .default⟩]

private theorem together_apart (anchor : BlockReference) :
    ballots anchor together = ballots anchor apart := by
  by_cases front : frontAnchor = anchor
  · subst front
    rfl
  · by_cases back : backAnchor = anchor
    · subst back
      rfl
    · have pushes : together.filterMap CertifierCall.pushed = [frontAnchor, backAnchor] := rfl
      have pushes' : apart.filterMap CertifierCall.pushed = [frontAnchor, backAnchor] := rfl
      have unminted : anchor ∉ [frontAnchor, backAnchor] := by simp [Ne.symm front, Ne.symm back]
      rw [ballots_unminted (pushes ▸ unminted), ballots_unminted (pushes' ▸ unminted)]

/-- The votes after the second mint, recorded before it. -/
private def early : List CertifierCall :=
  [.record (plainReference 0 2) (1 : UInt64) ⟨frontAnchor, .default⟩,
    .push frontAnchor .default ⟨.zero, 3⟩] ++
    ([.record (plainReference 0 2) (0 : UInt64) ⟨backAnchor, .default⟩,
      .record (plainReference 0 2) (0 : UInt64) ⟨frontAnchor, .default⟩] ++
    .push backAnchor .default ⟨.zero, 4⟩ :: together.drop 5)

theorem together_irrelevant : ∃ returned certifier,
    run call (.new (plainCommittee 3 (by decide)) 2) together = .ok (returned, certifier) ∧
      (∃ returned', run call (.new (plainCommittee 3 (by decide)) 2) apart =
        .ok (returned', certifier) ∧
        ∀ anchor, answers anchor together returned = answers anchor apart returned') ∧
      ∃ moved certifier', run call (.new (plainCommittee 3 (by decide)) 2) early =
        .ok (moved, certifier') ∧
        answers frontAnchor together returned = answers frontAnchor early moved := by
  have ran : ∃ result,
      run call (.new (plainCommittee 3 (by decide)) 2) together = .ok result := ⟨_, rfl⟩
  obtain ⟨⟨returned, certifier⟩, ran⟩ := ran
  have later : ∃ result,
      run call (.new (plainCommittee 3 (by decide)) 2) early = .ok result := ⟨_, rfl⟩
  obtain ⟨⟨moved, certifier'⟩, ran'⟩ := later
  have mints : together.filterMap CertifierCall.mint = apart.filterMap CertifierCall.mint := rfl
  obtain ⟨same, unmoved⟩ := interleaving_irrelevant ⟨by decide, by decide⟩ mints together_apart ran
  have votes : ∀ vote ∈ [CertifierCall.record (plainReference 0 2) (0 : UInt64) ⟨backAnchor, .default⟩,
      .record (plainReference 0 2) (0 : UInt64) ⟨frontAnchor, .default⟩], vote.pushed = none := by
    intro vote listed
    rcases List.mem_pair.mp listed with rfl | rfl
    · rfl
    · rfl
  obtain ⟨answered, -⟩ := unmoved _ _ (together.drop 5) _ _ _ moved certifier' rfl votes ran'
    frontAnchor (by decide)
  exact ⟨returned, certifier, ran, same, moved, certifier', ran', answered⟩

end

end BlockchainValidator
