import BlockchainValidator.Checkpoint.Tally

/-! # The certifier refines the reference

The certifier's state is a function of the reference's: the window drops the
certified prefix, and each entry left stands for a minted checkpoint.
-/

namespace BlockchainValidator

open Execution PartitionPoint Run

section

variable [Dag]

/-! ## The binary search -/

namespace CheckpointCertifier

variable {window front back : List PendingCheckpoint} {anchor : BlockReference}
  {entry : PendingCheckpoint}

def Ordered (window : List PendingCheckpoint) : Prop :=
  window.Pairwise fun earlier later => earlier.round ≤ later.round

theorem dropWhile_round (ordered : Ordered window) (round : UInt64) :
    ∀ entry ∈ window.dropWhile (fun entry => entry.round < round), ¬ entry.round < round := by
  induction window with
  | nil => simp
  | cons first window ih =>
      obtain ⟨least, ordered⟩ := List.pairwise_cons.mp ordered
      rw [List.dropWhile_cons]
      split
      · exact ih ordered
      · rename_i first_late
        rw [decide_eq_true_eq] at first_late
        intro entry member
        rcases List.mem_cons.mp member with rfl | member
        · exact first_late
        · have above := least entry member
          rw [UInt64.le_iff_toNat_le] at above
          rw [UInt64.lt_iff_toNat_lt] at first_late ⊢
          omega

theorem dropWhile_sameRound (ordered : Ordered window) (round : UInt64)
    (late : ∀ entry ∈ window, ¬ entry.round < round) :
    ∀ entry ∈ window.dropWhile (fun entry => entry.round = round), entry.round ≠ round := by
  induction window with
  | nil => simp
  | cons first window ih =>
      obtain ⟨least, ordered⟩ := List.pairwise_cons.mp ordered
      rw [List.dropWhile_cons]
      split
      · exact ih ordered (fun entry member => late entry (by simp [member]))
      · rename_i different
        rw [decide_eq_true_eq] at different
        intro entry member
        rcases List.mem_cons.mp member with rfl | member
        · exact different
        · have above := least entry member
          have first_late := late first (by simp)
          rw [UInt64.le_iff_toNat_le] at above
          rw [UInt64.lt_iff_toNat_lt] at first_late
          rw [← UInt64.toNat_inj] at different
          rw [ne_eq, ← UInt64.toNat_inj]
          omega

/-- On ordered rounds the search finds what a linear scan finds. -/
theorem position_eq (ordered : Ordered window) :
    position window anchor = window.findIdx? fun entry => entry.localCheckpoint.anchor = anchor := by
  let before (entry : PendingCheckpoint) : Bool := entry.round < Dag.round anchor
  let same (entry : PendingCheckpoint) : Bool := entry.round = Dag.round anchor
  let wanted (entry : PendingCheckpoint) : Bool := entry.localCheckpoint.anchor = anchor
  have round_of_wanted (entry : PendingCheckpoint) (found : wanted entry = true) :
      entry.round = Dag.round anchor := congrArg Dag.round (of_decide_eq_true found)
  have late := dropWhile_round ordered (Dag.round anchor)
  have split : window = window.takeWhile before ++ window.dropWhile before :=
    List.takeWhile_append_dropWhile.symm
  have start : partitionPoint before window = (window.takeWhile before).length := by
    conv_lhs => rw [split]
    exact partitionPoint_eq (fun entry member => List.mem_takeWhile_imp member)
      (fun entry member => decide_eq_false (late entry member))
  have rest : window.drop (window.takeWhile before).length = window.dropWhile before :=
    (congrArg (List.drop _) split).trans List.drop_left
  have early : (window.takeWhile before).findIdx? wanted = none := by
    refine List.findIdx?_eq_none_iff.mpr (fun entry member => ?_)
    refine Bool.eq_false_iff.mpr (fun found => ?_)
    have holds : before entry = true := List.mem_takeWhile_imp member
    have below : entry.round < Dag.round anchor := of_decide_eq_true holds
    rw [round_of_wanted entry found] at below
    exact absurd below (by rw [UInt64.lt_iff_toNat_lt]; exact Nat.lt_irrefl _)
  have past : ((window.dropWhile before).dropWhile same).findIdx? wanted = none := by
    refine List.findIdx?_eq_none_iff.mpr (fun entry member => ?_)
    refine Bool.eq_false_iff.mpr (fun found => ?_)
    exact dropWhile_sameRound (ordered.sublist (List.dropWhile_sublist _)) _ late entry member
      (round_of_wanted entry found)
  calc position window anchor
      = (((window.dropWhile before).takeWhile same).findIdx? wanted).map
          ((window.takeWhile before).length + ·) := by rw [← rest, ← start]; rfl
    _ = ((window.dropWhile before).findIdx? wanted).map (· + (window.takeWhile before).length) := by
        conv_rhs => rw [← List.takeWhile_append_dropWhile (p := same) (l := window.dropWhile before)]
        rw [List.findIdx?_append, past, Option.map_none, Option.or_none]
        simp only [Nat.add_comm]
    _ = window.findIdx? wanted := by
        conv_rhs => rw [split]
        rw [List.findIdx?_append, early, Option.none_or]

theorem position_found (ordered : Ordered window) (split : window = front ++ entry :: back)
    (unknown : ∀ entry ∈ front, entry.localCheckpoint.anchor ≠ anchor)
    (found : entry.localCheckpoint.anchor = anchor) : position window anchor = some front.length := by
  rw [position_eq ordered, split, List.findIdx?_append, List.findIdx?_eq_none_iff.mpr
    (fun entry member => decide_eq_false (unknown entry member)), List.findIdx?_cons]
  simp [found]

end CheckpointCertifier

/-! ## The whole certifier -/

namespace CheckpointCertifier

section

variable [BuildProfile] {certifier : CheckpointCertifier} {subdag : BlockReference}
  {author : Authority} {checkpoint : Checkpoint} {front back : List PendingCheckpoint}
  {entry : PendingCheckpoint}

theorem tally_unknown (ordered : Ordered certifier.window)
    (unknown : ∀ entry ∈ certifier.window, entry.localCheckpoint.anchor ≠ checkpoint.anchor) :
    certifier.tally subdag author checkpoint = .ok (none, certifier) := by
  have missing : position certifier.window checkpoint.anchor = none := by
    rw [position_eq ordered]
    exact List.findIdx?_eq_none_iff.mpr (fun entry member => decide_eq_false (unknown entry member))
  simp only [tally, missing]

theorem tally_found (ordered : Ordered certifier.window)
    (split : certifier.window = front ++ entry :: back)
    (unknown : ∀ entry ∈ front, entry.localCheckpoint.anchor ≠ checkpoint.anchor)
    (found : entry.localCheckpoint.anchor = checkpoint.anchor) {next : PendingCheckpoint}
    (tallied : entry.tally certifier.committee certifier.quorum subdag author checkpoint =
      .ok (none, next)) :
    certifier.tally subdag author checkpoint =
      .ok (none, { certifier with window := front ++ next :: back }) := by
  have index := position_found ordered split unknown found
  have present : certifier.window[front.length]? = some entry := by simp [split]
  have replaced : certifier.window.set front.length next = front ++ next :: back := by simp [split]
  simp only [tally, index, present, tallied, bind_ok, replaced]

theorem tally_failed (ordered : Ordered certifier.window)
    (split : certifier.window = front ++ entry :: back)
    (unknown : ∀ entry ∈ front, entry.localCheckpoint.anchor ≠ checkpoint.anchor)
    (found : entry.localCheckpoint.anchor = checkpoint.anchor) {panic : Panic}
    (failed : entry.tally certifier.committee certifier.quorum subdag author checkpoint =
      .error panic) :
    certifier.tally subdag author checkpoint = .error panic := by
  have index := position_found ordered split unknown found
  have present : certifier.window[front.length]? = some entry := by simp [split]
  simp only [tally, index, present, failed, bind_error]

theorem tally_formed (ordered : Ordered certifier.window)
    (split : certifier.window = front ++ entry :: back)
    (unknown : ∀ entry ∈ front, entry.localCheckpoint.anchor ≠ checkpoint.anchor)
    (found : entry.localCheckpoint.anchor = checkpoint.anchor) {formed : Formed}
    {next : PendingCheckpoint}
    (tallied : entry.tally certifier.committee certifier.quorum subdag author checkpoint =
      .ok (some formed, next)) :
    certifier.tally subdag author checkpoint = .ok (some formed, { certifier with
      window := (advance (front ++ next :: back) certifier.watermark).1
      watermark := (advance (front ++ next :: back) certifier.watermark).2 }) := by
  have index := position_found ordered split unknown found
  have present : certifier.window[front.length]? = some entry := by simp [split]
  have replaced : certifier.window.set front.length next = front ++ next :: back := by simp [split]
  simp only [tally, index, present, tallied, bind_ok, replaced]

end

section

variable {settled : List MintedCheckpoint}

/-- Advancing over entries settles their certified prefix. -/
theorem advance_entries (committee : Committee) (quorum : UInt64) (rest : List MintedCheckpoint)
    (certified : ∀ minted ∈ settled, minted.certified = true) :
    advance (rest.map (entryOf committee quorum)) (ReferenceCertifier.highest settled) =
      ((rest.dropWhile MintedCheckpoint.certified).map (entryOf committee quorum),
        ReferenceCertifier.highest (settled ++ rest)) := by
  induction rest generalizing settled with
  | nil => simp [advance]
  | cons minted rest ih =>
      rw [List.map_cons, advance]
      cases certificate : minted.certificate with
      | none =>
          have stops : minted.certified = false := by
            rw [MintedCheckpoint.certified, certificate]
            rfl
          simp only [entryOf, certificate]
          rw [List.dropWhile_cons_of_neg (by simp [stops]),
            ReferenceCertifier.highest_append_uncertified certified stops]
          simp only [List.map_cons, entryOf, certificate]
      | some winner =>
          have last : minted.certified = true := by
            rw [MintedCheckpoint.certified, certificate]
            rfl
          have settles : ∀ minted' ∈ settled ++ [minted], minted'.certified = true := by
            intro other member
            rcases List.mem_append.mp member with member | member
            · exact certified other member
            · rw [List.mem_singleton.mp member]
              exact last
          have next := ih settles
          rw [ReferenceCertifier.highest_concat_certified certified last, certificate] at next
          simp only [entryOf, certificate]
          rw [List.dropWhile_cons_of_pos last, ← List.append_cons settled minted rest] at *
          exact next

end

/-- The certifier that a reference stands for. -/
def ofReference (reference : ReferenceCertifier) : CheckpointCertifier where
  committee := reference.committee
  quorum := reference.quorum
  window := (reference.minted.dropWhile MintedCheckpoint.certified).map
    (entryOf reference.committee reference.quorum)
  watermark := reference.highestCertified

variable {reference : ReferenceCertifier}

theorem ofReference_pending : (ofReference reference).pending = reference.pending := by
  rw [pending, ofReference, List.map_map]
  rfl

theorem ofReference_ordered (wellFormed : reference.WellFormed) :
    Ordered (ofReference reference).window := by
  have ordered := wellFormed.anchors.ordered
  rw [List.pairwise_map] at ordered
  rw [Ordered, ofReference, List.pairwise_map]
  exact ordered.sublist (List.dropWhile_sublist _)

variable {front back : List MintedCheckpoint} {minted : MintedCheckpoint}

theorem dropWhile_uncertified (stops : minted.certified = false) :
    (front ++ minted :: back).dropWhile MintedCheckpoint.certified =
      front.dropWhile MintedCheckpoint.certified ++ minted :: back := by
  rw [List.dropWhile_append]
  split
  · rename_i settled
    rw [List.isEmpty_iff.mp settled, List.dropWhile_cons_of_neg (by simp [stops]), List.nil_append]
  · rfl

theorem highest_takeWhile : ReferenceCertifier.highest (front.takeWhile MintedCheckpoint.certified) =
    ReferenceCertifier.highest front := by
  have whole : (front.takeWhile MintedCheckpoint.certified).takeWhile MintedCheckpoint.certified =
      front.takeWhile MintedCheckpoint.certified :=
    List.takeWhile_eq_self_iff.mpr (fun minted member => List.mem_takeWhile_imp member)
  rw [ReferenceCertifier.highest, ReferenceCertifier.highest, whole]

theorem highest_uncertified (stops : minted.certified = false) :
    ReferenceCertifier.highest (front ++ minted :: back) = ReferenceCertifier.highest front := by
  have same : (front ++ minted :: back).takeWhile MintedCheckpoint.certified =
      front.takeWhile MintedCheckpoint.certified := by
    rw [List.takeWhile_append]
    split
    · rename_i settled
      rw [List.takeWhile_cons_of_neg (by simp [stops]), List.append_nil]
      exact ((List.takeWhile_prefix _).eq_of_length settled).symm
    · rfl
  rw [ReferenceCertifier.highest, ReferenceCertifier.highest, same]

theorem ofReference_push (anchor : BlockReference) (commitment : Digest)
    (timings : CheckpointTimings) :
    ((ofReference reference).push anchor commitment timings).2 =
      ofReference (reference.push anchor commitment timings) := by
  let minted : MintedCheckpoint := ⟨⟨anchor, commitment⟩, timings, [], none⟩
  have stops : minted.certified = false := rfl
  have window : (reference.minted ++ [minted]).dropWhile MintedCheckpoint.certified =
      reference.minted.dropWhile MintedCheckpoint.certified ++ [minted] :=
    dropWhile_uncertified stops
  have watermark : ReferenceCertifier.highest (reference.minted ++ [minted]) =
      ReferenceCertifier.highest reference.minted := highest_uncertified stops
  simp only [ofReference, ReferenceCertifier.push, ReferenceCertifier.highestCertified]
  rw [window, watermark, List.map_append]
  rfl

/-- The window at an entry that is not certified. -/
theorem ofReference_window (split : reference.minted = front ++ minted :: back)
    (uncertified : minted.certified = false) :
    (ofReference reference).window =
      (front.dropWhile MintedCheckpoint.certified).map (entryOf reference.committee reference.quorum) ++
        entryOf reference.committee reference.quorum minted ::
          back.map (entryOf reference.committee reference.quorum) := by
  rw [ofReference, split, dropWhile_uncertified uncertified, List.map_append, List.map_cons]

/-- What was not minted has no entry. -/
theorem entries_unknown {committee : Committee} {quorum : UInt64} {anchor : BlockReference}
    (unknown : ∀ minted ∈ front, minted.anchor ≠ anchor) :
    ∀ entry ∈ (front.dropWhile MintedCheckpoint.certified).map (entryOf committee quorum),
      entry.localCheckpoint.anchor ≠ anchor := by
  intro entry listed
  obtain ⟨minted, kept, rfl⟩ := List.mem_map.mp listed
  exact unknown minted (List.dropWhile_subset _ kept)

variable [BuildProfile] {subdag : BlockReference} {author : Authority} {checkpoint : Checkpoint}

/-- A vote for a certified checkpoint changes nothing, settled or not. -/
theorem ofReference_tally_certified (wellFormed : reference.WellFormed)
    (split : reference.minted = front ++ minted :: back)
    (found : minted.anchor = checkpoint.anchor) (certified : minted.certified = true) :
    (ofReference reference).tally subdag author checkpoint = .ok (none, ofReference reference) := by
  have ordered := ofReference_ordered wellFormed
  have distinct := wellFormed.anchors.distinct
  rw [split, List.map_append, List.map_cons, List.nodup_append, List.nodup_cons] at distinct
  obtain ⟨-, ⟨notBack, -⟩, notFront⟩ := distinct
  have window : (ofReference reference).window =
      (if (front.dropWhile MintedCheckpoint.certified).isEmpty then
        back.dropWhile MintedCheckpoint.certified
      else front.dropWhile MintedCheckpoint.certified ++ minted :: back).map
        (entryOf reference.committee reference.quorum) := by
    rw [ofReference, split, List.dropWhile_append, List.dropWhile_cons_of_pos certified]
  by_cases settled : (front.dropWhile MintedCheckpoint.certified).isEmpty
  · rw [if_pos settled] at window
    refine tally_unknown ordered (fun entry listed same => notBack ?_)
    rw [window] at listed
    obtain ⟨other, kept, rfl⟩ := List.mem_map.mp listed
    exact List.mem_map.mpr ⟨other, List.dropWhile_subset _ kept, same.trans found.symm⟩
  · rw [if_neg settled, List.map_append, List.map_cons] at window
    have ignored : (entryOf reference.committee reference.quorum minted).tally
        (ofReference reference).committee (ofReference reference).quorum subdag author checkpoint =
          .ok (none, entryOf reference.committee reference.quorum minted) :=
      PendingCheckpoint.tally_certified certified
    rw [tally_found ordered window ?_ found ignored, ← window]
    intro entry listed same
    obtain ⟨other, kept, rfl⟩ := List.mem_map.mp listed
    exact notFront other.anchor
      (List.mem_map_of_mem (List.dropWhile_subset _ kept)) minted.anchor (by simp)
      (same.trans found.symm)

/-- A vote for an uncertified checkpoint is tallied in the window. -/
theorem ofReference_tally_uncertified (wellFormed : reference.WellFormed)
    (member : author ∈ reference.committee.members)
    (split : reference.minted = front ++ minted :: back)
    (unknown : ∀ other ∈ front, other.anchor ≠ checkpoint.anchor)
    (found : minted.anchor = checkpoint.anchor) (uncertified : minted.certified = false) :
    (ofReference reference).tally subdag author checkpoint =
      .ok ((minted.vote reference.committee reference.quorum subdag author checkpoint).1,
        ofReference { reference with minted := front ++
          (minted.vote reference.committee reference.quorum subdag author checkpoint).2 :: back }) := by
  have window := ofReference_window split uncertified
  have watermark : (ofReference reference).watermark = ReferenceCertifier.highest front := by
    rw [ofReference, ReferenceCertifier.highestCertified, split, highest_uncertified uncertified]
  have tallied : (entryOf reference.committee reference.quorum minted).tally
      (ofReference reference).committee (ofReference reference).quorum subdag author checkpoint =
        .ok ((minted.vote reference.committee reference.quorum subdag author checkpoint).1,
          entryOf reference.committee reference.quorum
            (minted.vote reference.committee reference.quorum subdag author checkpoint).2) :=
    entryOf_tally (wellFormed.tallied minted (by simp [split])) member
  have ordered := ofReference_ordered wellFormed
  generalize voted : minted.vote reference.committee reference.quorum subdag author checkpoint = result
    at tallied ⊢
  obtain ⟨formed, next⟩ := result
  cases formed with
  | none =>
      have stops : next.certified = false := by
        have same := vote_uncertified uncertified (by rw [voted])
        rwa [voted] at same
      rw [tally_found ordered window (entries_unknown unknown) found tallied, watermark]
      simp only [ofReference, ReferenceCertifier.highestCertified, dropWhile_uncertified stops,
        highest_uncertified stops, List.map_append, List.map_cons]
  | some formed =>
      have settled : ∀ other ∈ front.takeWhile MintedCheckpoint.certified, other.certified = true :=
        fun other listed => List.mem_takeWhile_imp listed
      have whole : front.takeWhile MintedCheckpoint.certified ++
          (front.dropWhile MintedCheckpoint.certified ++ next :: back) = front ++ next :: back := by
        rw [← List.append_assoc, List.takeWhile_append_dropWhile]
      have kept : (front ++ next :: back).dropWhile MintedCheckpoint.certified =
          (front.dropWhile MintedCheckpoint.certified ++ next :: back).dropWhile
            MintedCheckpoint.certified := by
        conv_lhs => rw [← whole, List.dropWhile_append_of_pos settled]
      have advanced := advance_entries reference.committee reference.quorum
        (front.dropWhile MintedCheckpoint.certified ++ next :: back) settled
      rw [whole, List.map_append, List.map_cons] at advanced
      rw [tally_formed ordered window (entries_unknown unknown) found tallied, watermark, ← highest_takeWhile, advanced]
      simp only [ofReference, ReferenceCertifier.highestCertified, kept]

theorem ofReference_record (wellFormed : reference.WellFormed)
    (member : author ∈ reference.committee.members) :
    (ofReference reference).tally subdag author checkpoint =
      .ok ((reference.record subdag author checkpoint).1,
        ofReference (reference.record subdag author checkpoint).2) := by
  rcases record_cases reference subdag author checkpoint with
    ⟨unknown, same⟩ | ⟨front, minted, back, split, unknown, found, same⟩
  · rw [same]
    exact tally_unknown (ofReference_ordered wellFormed) (entries_unknown unknown)
  · rw [same]
    cases certified : minted.certified with
    | true =>
        rw [vote_ignored (.inl certified),
          ofReference_tally_certified wellFormed split found certified]
        simp only [← split]
    | false => exact ofReference_tally_uncertified wellFormed member split unknown found certified

/-! ## Runs -/

theorem ofReference_step {call : CertifierCall} {calls : List CertifierCall}
    (wellFormed : reference.WellFormed)
    (admissible : AdmissibleCalls reference.committee
      (reference.minted.map MintedCheckpoint.anchor) (call :: calls)) :
    ∃ output next, (ofReference reference).step call = .ok (output, ofReference next) ∧
      reference.step call = .ok (output, next) ∧ next.WellFormed ∧
      AdmissibleCalls next.committee (next.minted.map MintedCheckpoint.anchor) calls := by
  obtain ⟨anchors, authors⟩ := admissible
  cases call with
  | push anchor commitment timings =>
      have grown : (reference.push anchor commitment timings).minted.map MintedCheckpoint.anchor =
          reference.minted.map MintedCheckpoint.anchor ++ [anchor] := by
        rw [ReferenceCertifier.push, List.map_append]
        rfl
      have split : reference.minted.map MintedCheckpoint.anchor ++
          (CertifierCall.push anchor commitment timings :: calls).filterMap CertifierCall.pushed =
            reference.minted.map MintedCheckpoint.anchor ++ [anchor] ++
              calls.filterMap CertifierCall.pushed := by
        rw [List.append_assoc]
        rfl
      rw [split] at anchors
      refine ⟨none, _, ?_, rfl, push_wellFormed wellFormed anchors.left, ⟨?_, authors⟩⟩
      · rw [step, ofReference_push]
      · rw [grown]
        exact anchors
  | record subdag author checkpoint =>
      have member : author ∈ reference.committee.members := authors author (by
        simp [CertifierCall.voter])
      refine ⟨_, _, ofReference_record wellFormed member, rfl, record_wellFormed wellFormed member,
        ⟨?_, fun later listed => authors later ?_⟩⟩
      · rw [record_anchors]
        exact anchors
      · rw [List.filterMap_cons]
        exact List.mem_cons_of_mem _ listed

/-- Every run of the certifier is one of the reference. -/
theorem run_refines (committee : Committee) (quorum : UInt64) (calls : List CertifierCall)
    (admissible : AdmissibleCalls committee [] calls) :
    ∃ formed reference,
      run CheckpointCertifier.step (.new committee quorum) calls = .ok (formed, ofReference reference) ∧
      run ReferenceCertifier.step (.new committee quorum) calls = .ok (formed, reference) ∧
      reference.WellFormed := by
  have initial := ReferenceCertifier.new_wellFormed committee quorum
  have empty : CheckpointCertifier.new committee quorum = ofReference (.new committee quorum) := rfl
  rw [empty]
  obtain ⟨formed, certifier, reference, ran, ran', rfl, wellFormed, -⟩ := run_lockstep
    (fun calls certifier reference => certifier = ofReference reference ∧ reference.WellFormed ∧
      AdmissibleCalls reference.committee (reference.minted.map MintedCheckpoint.anchor) calls)
    (by
      intro certifier reference call calls related
      obtain ⟨rfl, wellFormed, admissible⟩ := related
      obtain ⟨output, next, stepped, stepped', held, rest⟩ := ofReference_step wellFormed admissible
      exact ⟨output, _, next, stepped, stepped', rfl, held, rest⟩)
    ⟨rfl, initial, admissible⟩
  exact ⟨formed, reference, ran, ran', wellFormed⟩

theorem run_call {certifier : CheckpointCertifier} {calls : List CertifierCall} :
    run CheckpointCertifier.call certifier calls =
      (fun result => (result.1.map (Option.map Prod.snd), result.2)) <$>
        run CheckpointCertifier.step certifier calls := by
  have same : CheckpointCertifier.call = fun certifier call =>
      (fun result => (result.1.map Prod.snd, result.2)) <$> CheckpointCertifier.step certifier call :=
    funext fun certifier => funext certifier.call_eq
  rw [same]
  exact run_mapOutput _

theorem certifier_refines_reference (committee : Committee) (quorum : UInt64)
    (calls : List CertifierCall) (admissible : AdmissibleCalls committee [] calls) :
    ∃ returned certifier reference,
      run CheckpointCertifier.call (.new committee quorum) calls = .ok (returned, certifier) ∧
      run ReferenceCertifier.call (.new committee quorum) calls = .ok (returned, reference) ∧
      certifier.pending = reference.pending ∧
      certifier.highestCertified = reference.highestCertified := by
  obtain ⟨formed, reference, ran, ran', -⟩ := run_refines committee quorum calls admissible
  exact ⟨formed.map (Option.map Prod.snd), ofReference reference, reference,
    by rw [run_call, ran]; rfl, by rw [ReferenceCertifier.run_call, ran']; rfl, ofReference_pending, rfl⟩

end CheckpointCertifier

end

section

attribute [local instance] plainDag checkedBuild

open CheckpointCertifier

/-- Two checkpoints of one round, of which the second certifies first. -/
private def sameRound : List CertifierCall :=
  [.push (plainReference 0 1) .default ⟨.zero, 0⟩, .push (plainReference 1 1) .default ⟨.zero, 0⟩,
    .record (plainReference 0 2) (0 : UInt64) ⟨plainReference 1 1, .default⟩,
    .record (plainReference 0 3) (1 : UInt64) ⟨plainReference 1 1, .default⟩]

theorem sameRound_refines :
    ∃ returned certifier reference,
      run call (.new (plainCommittee 3 (by decide)) 2) sameRound = .ok (returned, certifier) ∧
      run ReferenceCertifier.call (.new (plainCommittee 3 (by decide)) 2) sameRound =
        .ok (returned, reference) ∧
      certifier.pending = reference.pending ∧
      certifier.highestCertified = reference.highestCertified :=
  certifier_refines_reference (plainCommittee 3 (by decide)) 2 sameRound
    ⟨⟨by decide, by decide⟩, by decide⟩

end

end BlockchainValidator
