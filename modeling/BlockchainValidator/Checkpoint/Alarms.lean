import BlockchainValidator.Checkpoint.Certificates
import BlockchainValidator.Checkpoint.Watermark

/-! # What `record` logs

A vote for an anchor that is not known, an author with two votes and a
certificate against the local checkpoint are logged and leave no other trace.
Which line a vote causes is read off the calls before it.
-/

namespace BlockchainValidator

open Execution Run MintedCheckpoint

section

variable [Dag]

/-- The log lines of `record`. -/
inductive Alarm where
  | unknownAnchor
  | conflictingVote
  | divergence
deriving DecidableEq

namespace PendingCheckpoint

/-- What the part of `record` that concerns the entry found logs, given the
certificate that the vote forms. -/
def alarm (entry : PendingCheckpoint) (formed : Option Formed) (author : Authority)
    (checkpoint : Checkpoint) : Option Alarm :=
  if entry.certificate.isSome then none
  else
    match entry.accumulators.find? fun slot => slot.2.voted author with
    | some (attested, _) => if attested ≠ checkpoint.commitment then some .conflictingVote else none
    | none =>
        if formed.isSome ∧ entry.localCheckpoint.commitment ≠ checkpoint.commitment then
          some .divergence
        else none

end PendingCheckpoint

namespace CheckpointCertifier

def certifiedRound (certifier : CheckpointCertifier) : UInt64 :=
  match certifier.watermark with
  | none => 0
  | some certified => certified.checkpoint.round

/-- What `record` logs about a vote that forms the certificate `formed`, if any. -/
def alarm (certifier : CheckpointCertifier) (formed : Option Formed) (author : Authority)
    (checkpoint : Checkpoint) : Option Alarm :=
  match position certifier.window checkpoint.anchor with
  | none =>
      if certifier.certifiedRound < checkpoint.round then some .unknownAnchor else none
  | some index =>
      match certifier.window[index]? with
      | none => none
      | some entry => entry.alarm formed author checkpoint

def logs (certifier : CheckpointCertifier) (formed : Option Formed) : CertifierCall → Option Alarm
  | .push .. => none
  | .record _ author checkpoint => certifier.alarm formed author checkpoint

/-- A call with what it logs. -/
def stepLogged [BuildProfile] (certifier : CheckpointCertifier) (call : CertifierCall) :
    Except Panic ((Option Formed × Option Alarm) × CheckpointCertifier) := do
  let (formed, next) ← certifier.step call
  .ok ((formed, certifier.logs formed call), next)

end CheckpointCertifier

/-! ## What the history says -/

def CertifierCall.minted : CertifierCall → Option Checkpoint
  | .push anchor commitment _ => some ⟨anchor, commitment⟩
  | .record .. => none

/-- Some minted anchor from `round` on is quorate with all that were minted before it. -/
def Passed (committee : Committee) (quorum : UInt64) (round : UInt64) (calls : List CertifierCall) :
    Prop :=
  ∃ front anchor back, calls.filterMap CertifierCall.pushed = front ++ anchor :: back ∧
    (∀ earlier ∈ front ++ [anchor], Quorate committee quorum earlier calls) ∧ round ≤ Dag.round anchor

/-- When the calls so far warrant a log line about a vote. -/
def Warranted (committee : Committee) (quorum : UInt64) (calls : List CertifierCall)
    (subdag : BlockReference) (author : Authority) (checkpoint : Checkpoint) : Alarm → Prop
  | .unknownAnchor =>
      checkpoint.anchor ∉ calls.filterMap CertifierCall.pushed ∧ checkpoint.round ≠ 0 ∧
        ¬ Passed committee quorum checkpoint.round calls
  | .conflictingVote =>
      ¬ Quorate committee quorum checkpoint.anchor calls ∧
        ∃ vote ∈ counted checkpoint.anchor calls, vote.author = author ∧
          vote.commitment ≠ checkpoint.commitment
  | .divergence =>
      (∃ certificate, Completes committee quorum calls (.record subdag author checkpoint) certificate) ∧
        ∃ minted ∈ calls.filterMap CertifierCall.minted, minted.anchor = checkpoint.anchor ∧
          minted.commitment ≠ checkpoint.commitment

theorem minted_pushed (calls : List CertifierCall) :
    (calls.filterMap CertifierCall.minted).map Checkpoint.anchor =
      calls.filterMap CertifierCall.pushed := by
  rw [List.map_filterMap]
  congr 1
  funext call
  cases call <;> rfl

section

variable {committee : Committee} {quorum : UInt64} {calls : List CertifierCall}
  {formed : List (Option Formed)} {reference next : ReferenceCertifier} {minted : MintedCheckpoint}
  {author : Authority} {checkpoint : Checkpoint} {subdag : BlockReference}

/-! ## The certified prefix -/

theorem Follows.certified_iff (follows : Follows committee quorum calls formed reference)
    (listed : minted ∈ reference.minted) :
    minted.certified = true ↔ Quorate committee quorum minted.anchor calls := by
  cases held : minted.certificate with
  | none =>
      have short := (follows.uncertified minted listed held).2
      rw [MintedCheckpoint.certified, held]
      exact iff_of_false (by simp) short
  | some certificate =>
      have quorate := (follows.certified minted listed certificate held).2.1
      rw [MintedCheckpoint.certified, held]
      exact iff_of_true rfl quorate

theorem Follows.passed_settled (follows : Follows committee quorum calls formed reference)
    (settled : minted ∈ reference.minted.takeWhile MintedCheckpoint.certified) :
    Passed committee quorum (Dag.round minted.anchor) calls := by
  obtain ⟨front, back, split⟩ := List.append_of_mem settled
  obtain ⟨rest, whole⟩ := List.takeWhile_prefix (l := reference.minted) MintedCheckpoint.certified
  refine ⟨front.map anchor, minted.anchor, (back ++ rest).map anchor, ?_, ?_, UInt64.le_refl _⟩
  · rw [← follows.anchors, ← whole, split]
    simp
  · intro earlier listed
    rw [← List.map_singleton, ← List.map_append] at listed
    obtain ⟨other, kept, rfl⟩ := List.mem_map.mp listed
    have early : other ∈ reference.minted.takeWhile MintedCheckpoint.certified := by
      rw [split, List.append_cons]
      exact List.mem_append_left back kept
    exact (follows.certified_iff ((List.takeWhile_prefix _).subset early)).mp
      (List.mem_takeWhile_imp early)

/-- The watermark is that of the last anchor that is quorate with all before it. -/
theorem Follows.passed (follows : Follows committee quorum calls formed reference)
    (wellFormed : reference.WellFormed) {round : UInt64} :
    Passed committee quorum round calls ↔
      ∃ certificate, reference.highestCertified = some certificate ∧
        round ≤ certificate.checkpoint.round := by
  have anchored (last : MintedCheckpoint) (listed : last ∈ reference.minted)
      (certificate : CertifiedCheckpoint) (held : last.certificate = some certificate) :
      certificate.checkpoint.round = Dag.round last.anchor :=
    congrArg Dag.round ((wellFormed.tallied last listed).certificate certificate held)
  have prefixed := List.takeWhile_prefix (l := reference.minted) MintedCheckpoint.certified
  rw [Passed, ← follows.anchors]
  apply Iff.intro
  · intro passed
    obtain ⟨_, _, _, split, quorate, late⟩ := passed
    obtain ⟨front, rest, whole, rfl, tail⟩ := List.map_eq_append_iff.mp split
    obtain ⟨minted, back, rfl, rfl, rfl⟩ := List.map_eq_cons_iff.mp tail
    rw [List.append_cons] at whole
    have certified : ∀ earlier ∈ front ++ [minted], earlier.certified = true := by
      intro earlier listed
      apply (follows.certified_iff _).mpr (quorate _ _)
      · rw [whole]
        exact List.mem_append_left back listed
      · rw [← List.map_singleton, ← List.map_append]
        exact List.mem_map_of_mem listed
    have inside : minted ∈ reference.minted.takeWhile MintedCheckpoint.certified := by
      rw [whole, List.takeWhile_append_of_pos certified]
      simp
    obtain ⟨settled, last, same⟩ := List.eq_nil_or_concat'
      (reference.minted.takeWhile MintedCheckpoint.certified) |>.resolve_left
        (List.ne_nil_of_mem inside)
    have listed : last ∈ reference.minted.takeWhile MintedCheckpoint.certified := by simp [same]
    have settles : last.certified = true := List.mem_takeWhile_imp listed
    obtain ⟨certificate, held⟩ := Option.isSome_iff_exists.mp settles
    refine ⟨certificate, ?_, ?_⟩
    · rw [ReferenceCertifier.highestCertified, ReferenceCertifier.highest, same, List.getLast?_concat]
      exact held
    · have ordered := wellFormed.anchors.ordered.sublist (prefixed.sublist.map _)
      rw [same, List.map_append, List.pairwise_append] at ordered
      rw [anchored last (prefixed.subset listed) certificate held]
      rw [same] at inside
      rcases List.mem_append.mp inside with earlier | now
      · exact UInt64.le_trans late
          (ordered.2.2 _ (List.mem_map_of_mem earlier) _ (List.mem_singleton_self _))
      · exact List.mem_singleton.mp now ▸ late
  · intro highest
    obtain ⟨certificate, highest, late⟩ := highest
    obtain ⟨last, ends, held⟩ := Option.bind_eq_some_iff.mp highest
    have settled := List.mem_of_getLast? ends
    rw [anchored last (prefixed.subset settled) certificate held] at late
    obtain ⟨front, anchor, back, split, quorate, above⟩ := follows.passed_settled settled
    rw [← follows.anchors] at split
    exact ⟨front, anchor, back, split, quorate, UInt64.le_trans late above⟩

theorem CheckpointCertifier.certifiedRound_lt (follows : Follows committee quorum calls formed reference)
    (wellFormed : reference.WellFormed) {round : UInt64} :
    (ofReference reference).certifiedRound < round ↔
      round ≠ 0 ∧ ¬ Passed committee quorum round calls := by
  rw [follows.passed wellFormed, certifiedRound, ofReference]
  cases reference.highestCertified with
  | none => simp [UInt64.pos_iff_ne_zero]
  | some certificate =>
      simp only [Option.some.injEq, exists_eq_left', UInt64.not_le]
      apply Iff.intro
      · intro below
        exact ⟨UInt64.pos_iff_ne_zero.mp (Nat.zero_lt_of_lt below), below⟩
      · exact And.right

/-! ## The entry found -/

/-- An author's slot is the one of the commitment that it voted for. -/
theorem entryOf_voted (quorum : UInt64) (tallied : Tallied committee minted) (uncertified : minted.certificate = none)
    {vote : Vote} (voted : vote ∈ minted.votes) :
    ∃ accumulator, (entryOf committee quorum minted).accumulators.find?
      (fun slot => slot.2.voted vote.author) = some (vote.commitment, accumulator) := by
  cases found : (entryOf committee quorum minted).accumulators.find?
      fun slot => slot.2.voted vote.author with
  | none =>
      have attests : vote.commitment ∈ attested minted.votes := mem_attested.mpr ⟨vote, voted, rfl⟩
      have silent := List.find?_eq_none.mp found _ (List.mem_map_of_mem attests)
      rw [accumulatorOf_uncertified uncertified] at silent
      exact absurd ((accumulated_voted committee quorum).mpr
        (List.mem_map_of_mem (mem_supporters.mpr ⟨voted, rfl⟩))) silent
  | some slot =>
      have holds := List.find?_some found
      obtain ⟨commitment, -, rfl⟩ := List.mem_map.mp (List.mem_of_find?_eq_some found)
      rw [accumulatorOf_uncertified uncertified] at holds
      obtain ⟨other, supports, same⟩ := List.mem_map.mp ((accumulated_voted committee quorum).mp holds)
      obtain ⟨voted', rfl⟩ := mem_supporters.mp supports
      obtain rfl : other = vote := List.inj_on_of_nodup_map tallied.distinct voted' voted same
      exact ⟨_, rfl⟩

theorem entryOf_silent (uncertified : minted.certificate = none)
    (silent : author ∉ minted.votes.map Vote.author) :
    (entryOf committee quorum minted).accumulators.find? (fun slot => slot.2.voted author) = none := by
  apply List.find?_eq_none.mpr
  intro slot listed voted
  obtain ⟨commitment, -, rfl⟩ := List.mem_map.mp listed
  rw [accumulatorOf_uncertified uncertified] at voted
  exact silent ((supporters_sublist.map _).subset ((accumulated_voted committee quorum).mp voted))

/-- What an entry logs, in terms of the checkpoint that it stands for. -/
theorem entryOf_alarm (tallied : Tallied committee minted) (uncertified : minted.certificate = none)
    (output : Option Formed) (alarm : Alarm) :
    (entryOf committee quorum minted).alarm output author checkpoint = some alarm ↔
      (∃ vote ∈ minted.votes, vote.author = author ∧ vote.commitment ≠ checkpoint.commitment ∧
        alarm = .conflictingVote) ∨
      author ∉ minted.votes.map Vote.author ∧ output.isSome ∧
        minted.localCheckpoint.commitment ≠ checkpoint.commitment ∧ alarm = .divergence := by
  unfold PendingCheckpoint.alarm
  rw [if_neg (by simp [entryOf, uncertified])]
  by_cases voted : author ∈ minted.votes.map Vote.author
  · obtain ⟨vote, counted, rfl⟩ := List.mem_map.mp voted
    obtain ⟨accumulator, found⟩ := entryOf_voted quorum tallied uncertified counted
    have only (other : Vote) (listed : other ∈ minted.votes) (same : other.author = vote.author) :
        other = vote := List.inj_on_of_nodup_map tallied.distinct listed counted same
    simp only [found, voted, not_true_eq_false, false_and, or_false]
    apply Iff.intro
    · intro logged
      split at logged
      · rename_i differs
        exact ⟨vote, counted, rfl, differs, (Option.some.inj logged).symm⟩
      · cases logged
    · intro conflicts
      obtain ⟨other, listed, same, differs, rfl⟩ := conflicts
      rw [only other listed same] at differs
      exact if_pos differs
  · simp only [entryOf_silent uncertified voted, voted, not_false_eq_true, true_and]
    apply Iff.intro
    · intro logged
      split at logged
      · rename_i diverges
        exact .inr ⟨diverges.1, diverges.2, (Option.some.inj logged).symm⟩
      · cases logged
    · intro diverges
      rcases diverges with ⟨vote, listed, rfl, -⟩ | ⟨forms, differs, rfl⟩
      · exact absurd (List.mem_map_of_mem listed) voted
      · exact if_pos ⟨forms, differs⟩

/-! ## The whole certifier -/

namespace CheckpointCertifier

/-- A vote for an anchor that is certified is not logged, in the window or past it. -/
theorem alarm_certified (follows : Follows committee quorum calls formed reference)
    (wellFormed : reference.WellFormed) (listed : minted ∈ reference.minted)
    (found : minted.anchor = checkpoint.anchor) (certified : minted.certified = true)
    (output : Option Formed) : (ofReference reference).alarm output author checkpoint = none := by
  unfold alarm
  cases located : position (ofReference reference).window checkpoint.anchor with
  | none =>
      rw [position_eq (ofReference_ordered wellFormed)] at located
      have settled : minted ∈ reference.minted.takeWhile MintedCheckpoint.certified := by
        rw [← List.takeWhile_append_dropWhile (p := MintedCheckpoint.certified)
          (l := reference.minted)] at listed
        refine (List.mem_append.mp listed).resolve_right fun kept => ?_
        have missing := List.findIdx?_eq_none_iff.mp located _ (List.mem_map_of_mem kept)
        exact of_decide_eq_false missing found
      have passed := follows.passed_settled settled
      rw [found] at passed
      exact if_neg fun below => ((certifiedRound_lt follows wellFormed).mp below).2 passed
  | some index =>
      obtain ⟨entry, present, same⟩ := position_anchor located
      obtain ⟨other, kept, rfl⟩ := List.mem_map.mp (List.mem_of_getElem? present)
      obtain rfl : other = minted := List.inj_on_of_nodup_map wellFormed.anchors.distinct
        (List.dropWhile_subset _ kept) listed (same.trans found.symm)
      simp only [present]
      exact if_pos certified

theorem alarm_unminted (follows : Follows committee quorum calls formed reference)
    (wellFormed : reference.WellFormed)
    (unknown : ∀ minted ∈ reference.minted, minted.anchor ≠ checkpoint.anchor)
    (output : Option Formed) (alarm : Alarm) :
    (ofReference reference).alarm output author checkpoint = some alarm ↔
      Warranted committee quorum calls subdag author checkpoint alarm := by
  have unminted : checkpoint.anchor ∉ calls.filterMap CertifierCall.pushed := by
    rw [← follows.anchors]
    intro member
    obtain ⟨minted, listed, equal⟩ := List.mem_map.mp member
    exact unknown minted listed equal
  have missing : position (ofReference reference).window checkpoint.anchor = none := by
    rw [position_eq (ofReference_ordered wellFormed)]
    exact List.findIdx?_eq_none_iff.mpr fun entry listed =>
      decide_eq_false (entries_unknown unknown entry listed)
  rw [CheckpointCertifier.alarm, missing]
  cases alarm with
  | unknownAnchor =>
      rw [Warranted, and_iff_right unminted, ← certifiedRound_lt follows wellFormed]
      simp
  | conflictingVote => simp [Warranted, counted_unminted unminted]
  | divergence =>
      apply iff_of_false (by simp)
      intro warranted
      obtain ⟨-, minted, pushed, equal, -⟩ := warranted
      rw [← minted_pushed, ← equal] at unminted
      exact unminted (List.mem_map_of_mem pushed)

theorem not_warranted (pushed : checkpoint.anchor ∈ calls.filterMap CertifierCall.pushed)
    (quorate : Quorate committee quorum checkpoint.anchor calls) (alarm : Alarm) :
    ¬ Warranted committee quorum calls subdag author checkpoint alarm := by
  intro warranted
  cases alarm with
  | unknownAnchor => exact warranted.1 pushed
  | conflictingVote => exact warranted.1 quorate
  | divergence =>
      obtain ⟨⟨_, completes⟩, -⟩ := warranted
      exact (completes_record.mp completes).1 quorate

theorem completes_pushed {certificate : CertifiedCheckpoint}
    (completes : Completes committee quorum calls (.record subdag author checkpoint) certificate) :
    checkpoint.anchor ∈ calls.filterMap CertifierCall.pushed := by
  obtain ⟨_, _, recorded⟩ := completes.recorded
  cases recorded
  by_contra unminted
  apply completes.changes
  rw [counted_record, if_pos (.inl unminted)]

/-- The vote that completes a certificate is its author's first. -/
theorem completes_fresh {certificate : CertifiedCheckpoint}
    (completes : Completes committee quorum calls (.record subdag author checkpoint) certificate) :
    author ∉ (counted checkpoint.anchor calls).map Vote.author := by
  obtain ⟨_, _, recorded⟩ := completes.recorded
  cases recorded
  intro voted
  apply completes.changes
  rw [counted_record, if_pos (.inr voted)]

theorem alarm_uncertified (follows : Follows committee quorum calls formed reference)
    (wellFormed : reference.WellFormed)
    (locals : reference.minted.map MintedCheckpoint.localCheckpoint =
      calls.filterMap CertifierCall.minted) {front back : List MintedCheckpoint}
    (split : reference.minted = front ++ minted :: back)
    (unknown : ∀ other ∈ front, other.anchor ≠ checkpoint.anchor)
    (found : minted.anchor = checkpoint.anchor) (held : minted.certificate = none)
    {output : Option Formed} (forms : output.isSome ↔ ∃ certificate,
      Completes committee quorum calls (.record subdag author checkpoint) certificate)
    (alarm : Alarm) :
    (ofReference reference).alarm output author checkpoint = some alarm ↔
      Warranted committee quorum calls subdag author checkpoint alarm := by
  have listed : minted ∈ reference.minted := by simp [split]
  have uncertified : minted.certified = false := by
    rw [MintedCheckpoint.certified, held]
    rfl
  have pushed : checkpoint.anchor ∈ calls.filterMap CertifierCall.pushed := by
    rw [← follows.anchors, ← found]
    exact List.mem_map_of_mem listed
  obtain ⟨votes, short⟩ := follows.uncertified minted listed held
  rw [found] at votes short
  have window := ofReference_window split uncertified
  have index := position_found (ofReference_ordered wellFormed) window (entries_unknown unknown) found
  have present : (ofReference reference).window[((front.dropWhile MintedCheckpoint.certified).map
      (entryOf reference.committee reference.quorum)).length]? =
        some (entryOf reference.committee reference.quorum minted) := by
    rw [window, List.getElem?_append_right (Nat.le_refl _), Nat.sub_self, List.getElem?_cons_zero]
  rw [CheckpointCertifier.alarm, index]
  simp only [present]
  rw [entryOf_alarm (wellFormed.tallied minted listed) held, votes]
  cases alarm with
  | unknownAnchor => simp [Warranted, pushed]
  | conflictingVote => simp [Warranted, short]
  | divergence =>
      have differs : (∃ own ∈ calls.filterMap CertifierCall.minted,
          own.anchor = checkpoint.anchor ∧ own.commitment ≠ checkpoint.commitment) ↔
            minted.localCheckpoint.commitment ≠ checkpoint.commitment := by
        rw [← locals]
        apply Iff.intro
        · intro other
          obtain ⟨_, member, equal, differs⟩ := other
          obtain ⟨other, listed', rfl⟩ := List.mem_map.mp member
          obtain rfl : other = minted := List.inj_on_of_nodup_map wellFormed.anchors.distinct
            listed' listed (equal.trans found.symm)
          exact differs
        · intro differs
          exact ⟨_, List.mem_map_of_mem listed, found, differs⟩
      rw [forms, Warranted, differs]
      simp only [reduceCtorEq, and_false, exists_false, false_or, and_true]
      apply Iff.intro And.right
      intro warranted
      obtain ⟨⟨certificate, completes⟩, differs⟩ := warranted
      exact ⟨completes_fresh completes, ⟨certificate, completes⟩, differs⟩

/-- What the certifier logs is what the history of the calls warrants. -/
theorem alarm_iff (follows : Follows committee quorum calls formed reference)
    (wellFormed : reference.WellFormed)
    (locals : reference.minted.map MintedCheckpoint.localCheckpoint =
      calls.filterMap CertifierCall.minted) (alarm : Alarm) :
    (ofReference reference).alarm (reference.record subdag author checkpoint).1 author checkpoint =
      some alarm ↔ Warranted committee quorum calls subdag author checkpoint alarm := by
  have forms : (reference.record subdag author checkpoint).1.isSome = true ↔ ∃ certificate,
      Completes committee quorum calls (.record subdag author checkpoint) certificate := by
    rw [← Option.isSome_map, Option.isSome_iff_exists]
    exact exists_congr (follows.record wellFormed).2
  rcases record_cases reference subdag author checkpoint with
    ⟨unknown, -⟩ | ⟨front, minted, back, split, unknown, found, -⟩
  · exact alarm_unminted follows wellFormed unknown _ alarm
  · cases held : minted.certificate with
    | some certificate =>
        have listed : minted ∈ reference.minted := by simp [split]
        have certified : minted.certified = true := by
          rw [MintedCheckpoint.certified, held]
          rfl
        have pushed := List.mem_map_of_mem (f := MintedCheckpoint.anchor) listed
        have quorate := (follows.certified_iff listed).mp certified
        rw [follows.anchors, found] at pushed
        rw [found] at quorate
        rw [alarm_certified follows wellFormed listed found certified]
        exact iff_of_false (by simp) (not_warranted pushed quorate alarm)
    | none => exact alarm_uncertified follows wellFormed locals split unknown found held forms alarm

/-! ## Runs -/

theorem step_locals {call : CertifierCall} {output : Option Formed}
    (stepped : reference.step call = .ok (output, next)) :
    next.minted.map MintedCheckpoint.localCheckpoint =
      reference.minted.map MintedCheckpoint.localCheckpoint ++ [call].filterMap CertifierCall.minted := by
  cases call with
  | push anchor commitment timings =>
      cases stepped
      exact List.map_append
  | record subdag author checkpoint =>
      obtain rfl : (reference.record subdag author checkpoint).2 = next :=
        congrArg Prod.snd (Except.ok.inj stepped)
      change _ = _ ++ []
      rw [List.append_nil]
      rcases record_cases reference subdag author checkpoint with
        ⟨-, same⟩ | ⟨front, minted, back, split, -, -, same⟩
      · rw [same]
      · rw [same]
        simp [split, vote_keeps.1]

variable [BuildProfile]

/-- The certifier after `calls` stands for a reference that follows them. -/
theorem run_reference {certifier : CheckpointCertifier} (positive : 0 < quorum)
    (admissible : AdmissibleCalls committee [] calls)
    (ran : run step (.new committee quorum) calls = .ok (formed, certifier)) :
    ∃ reference, certifier = ofReference reference ∧ reference.WellFormed ∧
      Follows committee quorum calls formed reference ∧
      reference.minted.map MintedCheckpoint.localCheckpoint =
        calls.filterMap CertifierCall.minted := by
  obtain ⟨formed', reference, ran', stepped, wellFormed⟩ := run_refines committee quorum calls admissible
  cases ran.symm.trans ran'
  have history := run_history
    (fun calls formed reference => AdmissibleCalls committee [] calls → reference.WellFormed ∧
      Follows committee quorum calls formed reference ∧
        reference.minted.map MintedCheckpoint.localCheckpoint = calls.filterMap CertifierCall.minted)
    (by
      intro calls formed reference call output next _ held stepped admissible
      obtain ⟨wellFormed, follows, locals⟩ := held admissible.left
      obtain ⟨wellFormed, follows, -⟩ := follows.step wellFormed positive admissible stepped
      refine ⟨wellFormed, follows, ?_⟩
      rw [step_locals stepped, locals, List.filterMap_append])
    (fun _ => ⟨ReferenceCertifier.new_wellFormed committee quorum, .new committee quorum, rfl⟩) stepped
  obtain ⟨-, follows, locals⟩ := history admissible
  exact ⟨reference, rfl, wellFormed, follows, locals⟩

/-- A tally after `calls` forms what it completes and logs what they warrant. -/
theorem tally_alarm {certifier last : CheckpointCertifier} {output : Option Formed}
    (positive : 0 < quorum) (admissible : AdmissibleCalls committee [] calls)
    (member : author ∈ committee.members)
    (ran : run step (.new committee quorum) calls = .ok (formed, certifier))
    (tallied : certifier.tally subdag author checkpoint = .ok (output, last)) :
    (∀ certificate, output.map Prod.fst = some certificate ↔
      Completes committee quorum calls (.record subdag author checkpoint) certificate) ∧
    ∀ alarm, certifier.alarm output author checkpoint = some alarm ↔
      Warranted committee quorum calls subdag author checkpoint alarm := by
  obtain ⟨reference, rfl, wellFormed, follows, locals⟩ := run_reference positive admissible ran
  have recorded : (ofReference reference).tally subdag author checkpoint =
      .ok ((reference.record subdag author checkpoint).1,
        ofReference (reference.record subdag author checkpoint).2) :=
    ofReference_record wellFormed (follows.committee_eq ▸ member)
  cases tallied.symm.trans recorded
  exact ⟨(follows.record wellFormed).2, alarm_iff follows wellFormed locals⟩

theorem stepLogged_step : (step : CheckpointCertifier → CertifierCall → _) = fun certifier call =>
    (fun result => (result.1.1, result.2)) <$> stepLogged certifier call := by
  funext certifier call
  rw [stepLogged]
  cases certifier.step call <;> rfl

/-- With a positive quorum, anchors that are distinct and in round order, and votes
by members only, logging changes nothing, and each call logs exactly what the calls
before it warrant. -/
theorem logs_exact (committee : Committee) (quorum : UInt64) (calls : List CertifierCall)
    (positive : 0 < quorum) (admissible : AdmissibleCalls committee [] calls) :
    ∃ outputs certifier,
      run stepLogged (.new committee quorum) calls = .ok (outputs, certifier) ∧
      run step (.new committee quorum) calls = .ok (outputs.map Prod.fst, certifier) ∧
      ∀ before call after, calls = before ++ call :: after →
        ∃ output, outputs[before.length]? = some output ∧ ∀ alarm, output.2 = some alarm ↔
          ∃ subdag author checkpoint, call = .record subdag author checkpoint ∧
            Warranted committee quorum before subdag author checkpoint alarm := by
  have quiet (calls : List CertifierCall) : run step (.new committee quorum) calls =
      (fun result => (result.1.map Prod.fst, result.2)) <$>
        run stepLogged (.new committee quorum) calls := by
    rw [stepLogged_step, run_mapOutput]
  obtain ⟨formed, reference, ran, -⟩ := run_refines committee quorum calls admissible
  rw [quiet] at ran
  obtain ⟨⟨outputs, certifier⟩, logged, -⟩ := map_eq_ok.mp ran
  refine ⟨outputs, certifier, logged, by rw [quiet, logged, map_ok], ?_⟩
  intro before call after split
  rw [split] at logged admissible
  obtain ⟨first, middle, _, _, front, back, same⟩ := run_append_ok.mp logged
  obtain ⟨output, next, rest, _, stepped, -, tail⟩ := run_cons_ok.mp back
  cases tail
  cases same
  refine ⟨output, ?_, fun alarm => ?_⟩
  · rw [← run_length front, List.getElem?_append_right (Nat.le_refl _), Nat.sub_self,
      List.getElem?_cons_zero]
  · have earlier : run step (.new committee quorum) before = .ok (first.map Prod.fst, middle) := by
      rw [quiet, front, map_ok]
    obtain ⟨⟨formed, _⟩, plain, done⟩ := bind_eq_ok.mp stepped
    cases done
    cases call with
    | push anchor commitment timings => simp [logs]
    | record subdag author checkpoint =>
        have member : author ∈ committee.members := admissible.authors author (by
          simp [CertifierCall.voter])
        rw [logs, (tally_alarm positive admissible.left member earlier plain).2]
        simp

end CheckpointCertifier

end

end

section

attribute [local instance] plainDag checkedBuild

open CheckpointCertifier

/-- An author votes twice, a quorum outvotes the local checkpoint, and a vote
comes for an anchor that nothing minted. -/
private def alarming : List CertifierCall :=
  [.push (plainReference 0 1) .default ⟨.zero, 0⟩,
    .record (plainReference 0 2) (0 : UInt64) ⟨plainReference 0 1, .default⟩,
    .record (plainReference 0 2) (0 : UInt64) ⟨plainReference 0 1, ⟨.replicate 32 1⟩⟩,
    .record (plainReference 0 3) (1 : UInt64) ⟨plainReference 0 1, ⟨.replicate 32 1⟩⟩,
    .record (plainReference 0 3) (2 : UInt64) ⟨plainReference 0 1, ⟨.replicate 32 1⟩⟩,
    .record (plainReference 0 4) (1 : UInt64) ⟨plainReference 0 3, .default⟩]

theorem alarming_exact :
    ∃ outputs certifier,
      run stepLogged (.new (plainCommittee 3 (by decide)) 2) alarming = .ok (outputs, certifier) ∧
      outputs.map Prod.snd = [none, none, some .conflictingVote, none, some .divergence,
        some .unknownAnchor] ∧
      ∀ before call after, alarming = before ++ call :: after →
        ∃ output, outputs[before.length]? = some output ∧ ∀ alarm, output.2 = some alarm ↔
          ∃ subdag author checkpoint, call = .record subdag author checkpoint ∧
            Warranted (plainCommittee 3 (by decide)) 2 before subdag author checkpoint alarm := by
  obtain ⟨outputs, certifier, ran, -, exact⟩ :=
    logs_exact (plainCommittee 3 (by decide)) 2 alarming (by decide) ⟨⟨by decide, by decide⟩, by decide⟩
  have logged : (fun result => result.1.map Prod.snd) <$>
      run stepLogged (.new (plainCommittee 3 (by decide)) 2) alarming =
        .ok [none, none, some .conflictingVote, none, some .divergence, some .unknownAnchor] := rfl
  rw [ran, map_ok] at logged
  exact ⟨outputs, certifier, ran, Except.ok.inj logged, exact⟩

end

end BlockchainValidator
