import BlockchainValidator.Dag
import BlockchainValidator.Execution.Store
import BlockchainValidator.Library.PartitionPoint

/-! # Checkpoints and their certification -/

namespace BlockchainValidator

open Execution PartitionPoint Run

section

variable [Dag]

/-- A commitment to the state after the sub-dag at `anchor`, and a validator's
vote for it. -/
structure Checkpoint where
  anchor : BlockReference
  commitment : Digest
deriving DecidableEq

def Checkpoint.round (checkpoint : Checkpoint) : UInt64 := Dag.round checkpoint.anchor

structure CertifiedCheckpoint where
  checkpoint : Checkpoint
  proof : List BlockReference
deriving DecidableEq

structure CheckpointTimings where
  mintedAt : Duration
  meanTimestampMs : UInt64
deriving DecidableEq

/-- The stake attesting one value of one checkpoint, with the delivering
sub-dag of each counted vote. -/
structure CheckpointAccumulator where
  votes : AuthoritySet
  stake : UInt64
  threshold : UInt64
  deliveredIn : List BlockReference

namespace CheckpointAccumulator

def new (threshold : UInt64) : CheckpointAccumulator := ⟨Dag.noAuthorities, 0, threshold, []⟩

def add [BuildProfile] (accumulator : CheckpointAccumulator) (vote : Authority)
    (committee : Committee) (subdag : BlockReference) :
    Except Panic (Bool × CheckpointAccumulator) :=
  match committee.getStake vote with
  | none => .error .authorityNotFound
  | some stake =>
      let (inserted, votes) := Dag.insert accumulator.votes vote
      if inserted then do
        let total ← addU64 accumulator.stake stake
        .ok (accumulator.threshold ≤ total,
          { accumulator with
            votes, stake := total, deliveredIn := accumulator.deliveredIn ++ [subdag] })
      else .ok (accumulator.threshold ≤ accumulator.stake, { accumulator with votes })

def voted (accumulator : CheckpointAccumulator) (author : Authority) : Bool :=
  (Dag.present accumulator.votes).any (· = author)

def clear (accumulator : CheckpointAccumulator) : List BlockReference × CheckpointAccumulator :=
  (accumulator.deliveredIn,
    { accumulator with votes := Dag.clear accumulator.votes, stake := 0, deliveredIn := [] })

end CheckpointAccumulator

/-- A minted checkpoint with its tally: one accumulator for each attested
commitment, and the certificate once a quorum forms. -/
structure PendingCheckpoint where
  localCheckpoint : Checkpoint
  timings : CheckpointTimings
  accumulators : List (Digest × CheckpointAccumulator)
  certificate : Option CertifiedCheckpoint

abbrev Formed := CertifiedCheckpoint × CheckpointTimings

namespace PendingCheckpoint

def round (entry : PendingCheckpoint) : UInt64 := entry.localCheckpoint.round

/-- The pass over the accumulators: `none` if the author has voted, otherwise
the index that holds the commitment, if any. -/
def locate (author : Authority) (commitment : Digest) :
    Nat → Option Nat → List (Digest × CheckpointAccumulator) → Option (Option Nat)
  | _, target, [] => some target
  | index, target, (attested, accumulator) :: rest =>
      if accumulator.voted author then none
      else locate author commitment (index + 1)
        (if attested = commitment then some index else target) rest

/-- The index of the commitment's accumulator, created if there is none. -/
def slot (quorum : UInt64) (commitment : Digest)
    (accumulators : List (Digest × CheckpointAccumulator)) :
    Option Nat → Nat × List (Digest × CheckpointAccumulator)
  | some index => (index, accumulators)
  | none => (accumulators.length, accumulators ++ [(commitment, CheckpointAccumulator.new quorum)])

/-- The part of `record` that concerns the entry found. -/
def tally [BuildProfile] (entry : PendingCheckpoint) (committee : Committee) (quorum : UInt64)
    (subdag : BlockReference) (author : Authority) (checkpoint : Checkpoint) :
    Except Panic (Option Formed × PendingCheckpoint) :=
  if entry.certificate.isSome then .ok (none, entry)
  else
    match locate author checkpoint.commitment 0 none entry.accumulators with
    | none => .ok (none, entry)
    | some target =>
        let (index, accumulators) := slot quorum checkpoint.commitment entry.accumulators target
        match accumulators[index]? with
        -- Never taken: `slot` returns the place `locate` found, or the one it appended.
        | none => .ok (none, { entry with accumulators })
        | some (attested, accumulator) => do
            let (reached, accumulator) ← accumulator.add author committee subdag
            if reached then
              let (proof, accumulator) := accumulator.clear
              let certificate : CertifiedCheckpoint := ⟨checkpoint, proof⟩
              .ok (some (certificate, entry.timings), { entry with
                accumulators := accumulators.set index (attested, accumulator)
                certificate := some certificate })
            else
              .ok (none, { entry with
                accumulators := accumulators.set index (attested, accumulator) })

section

variable [BuildProfile] {entry : PendingCheckpoint} {committee : Committee} {quorum : UInt64}
  {subdag : BlockReference} {author : Authority} {checkpoint : Checkpoint}

theorem tally_certified (certified : entry.certificate.isSome) :
    entry.tally committee quorum subdag author checkpoint = .ok (none, entry) :=
  if_pos certified

theorem tally_voted
    (voted : locate author checkpoint.commitment 0 none entry.accumulators = none) :
    entry.tally committee quorum subdag author checkpoint = .ok (none, entry) := by
  unfold tally
  rw [voted]
  exact ite_self _

theorem tally_counted (uncertified : entry.certificate = none) {target : Option Nat} {index : Nat}
    {accumulators : List (Digest × CheckpointAccumulator)} {attested : Digest}
    {accumulator next : CheckpointAccumulator} {reached : Bool}
    (located : locate author checkpoint.commitment 0 none entry.accumulators = some target)
    (slotted : slot quorum checkpoint.commitment entry.accumulators target = (index, accumulators))
    (found : accumulators[index]? = some (attested, accumulator))
    (added : accumulator.add author committee subdag = .ok (reached, next)) :
    entry.tally committee quorum subdag author checkpoint =
      .ok (if reached then
        (some (⟨checkpoint, next.deliveredIn⟩, entry.timings), { entry with
          accumulators := accumulators.set index (attested, next.clear.2)
          certificate := some ⟨checkpoint, next.deliveredIn⟩ })
      else (none, { entry with accumulators := accumulators.set index (attested, next) })) := by
  unfold tally
  rw [if_neg (by simp [uncertified]), located]
  simp only [slotted, found, added, bind_ok]
  cases reached <;> rfl

theorem tally_keeps {formed : Option Formed} {next : PendingCheckpoint}
    (tallied : entry.tally committee quorum subdag author checkpoint = .ok (formed, next)) :
    next.localCheckpoint = entry.localCheckpoint := by
  unfold tally at tallied
  split at tallied
  · cases tallied
    rfl
  · split at tallied
    · cases tallied
      rfl
    · dsimp only at tallied
      split at tallied
      · cases tallied
        rfl
      · obtain ⟨⟨_ | _, _⟩, -, done⟩ := bind_eq_ok.mp tallied <;> cases done <;> rfl

end

end PendingCheckpoint

structure CheckpointCertifier where
  committee : Committee
  quorum : UInt64
  window : List PendingCheckpoint
  watermark : Option CertifiedCheckpoint

namespace CheckpointCertifier

def new (committee : Committee) (quorum : UInt64) : CheckpointCertifier :=
  ⟨committee, quorum, [], none⟩

def push (certifier : CheckpointCertifier) (anchor : BlockReference) (commitment : Digest)
    (timings : CheckpointTimings) : Checkpoint × CheckpointCertifier :=
  let minted : Checkpoint := ⟨anchor, commitment⟩
  (minted, { certifier with window := certifier.window ++ [⟨minted, timings, [], none⟩] })

def pending (certifier : CheckpointCertifier) : List Checkpoint :=
  certifier.window.map PendingCheckpoint.localCheckpoint

/-- Binary search to the vote's round, then a walk over the entries of that round. -/
def position (window : List PendingCheckpoint) (anchor : BlockReference) : Option Nat :=
  let start := partitionPoint (fun entry => entry.round < Dag.round anchor) window
  let sameRound := (window.drop start).takeWhile fun entry => entry.round = Dag.round anchor
  (sameRound.findIdx? fun entry => entry.localCheckpoint.anchor = anchor).map (start + ·)

/-- Moves the watermark over the certified prefix of the window. -/
def advance : List PendingCheckpoint → Option CertifiedCheckpoint →
    List PendingCheckpoint × Option CertifiedCheckpoint
  | [], watermark => ([], watermark)
  | entry :: window, watermark =>
      match entry.certificate with
      | some certificate => advance window (some certificate)
      | none => (entry :: window, watermark)

/-- `record`, returning the certificate that the vote forms beside the timings. -/
def tally [BuildProfile] (certifier : CheckpointCertifier) (subdag : BlockReference)
    (author : Authority) (checkpoint : Checkpoint) :
    Except Panic (Option Formed × CheckpointCertifier) :=
  match position certifier.window checkpoint.anchor with
  | none => .ok (none, certifier)
  | some index =>
      match certifier.window[index]? with
      -- Never taken: `position` found the entry at this index of the same window.
      | none => .ok (none, certifier)
      | some entry => do
          let (formed, entry) ←
            entry.tally certifier.committee certifier.quorum subdag author checkpoint
          let window := certifier.window.set index entry
          match formed with
          | none => .ok (none, { certifier with window })
          | some formed =>
              let (window, watermark) := advance window certifier.watermark
              .ok (some formed, { certifier with window, watermark })

/-- Counts `author`'s vote, delivered in `subdag`.  Returns the mint timings
exactly when this vote forms the certificate. -/
def record [BuildProfile] (certifier : CheckpointCertifier) (subdag : BlockReference)
    (author : Authority) (checkpoint : Checkpoint) :
    Except Panic (Option CheckpointTimings × CheckpointCertifier) :=
  (fun result => (result.1.map Prod.snd, result.2)) <$> certifier.tally subdag author checkpoint

def highestCertified (certifier : CheckpointCertifier) : Option CertifiedCheckpoint :=
  certifier.watermark

end CheckpointCertifier

inductive CertifierCall where
  | push (anchor : BlockReference) (commitment : Digest) (timings : CheckpointTimings)
  | record (subdag : BlockReference) (author : Authority) (checkpoint : Checkpoint)

namespace CertifierCall

def pushed : CertifierCall → Option BlockReference
  | push anchor _ _ => some anchor
  | record .. => none

def voter : CertifierCall → Option Authority
  | push .. => none
  | record _ author _ => some author

def recorded : CertifierCall → Option (BlockReference × Authority × Checkpoint)
  | push .. => none
  | record subdag author checkpoint => some (subdag, author, checkpoint)

theorem voter_eq (call : CertifierCall) : call.voter = call.recorded.map (·.2.1) := by
  cases call <;> rfl

end CertifierCall

namespace CheckpointCertifier

def step [BuildProfile] (certifier : CheckpointCertifier) :
    CertifierCall → Except Panic (Option Formed × CheckpointCertifier)
  | .push anchor commitment timings => .ok (none, (certifier.push anchor commitment timings).2)
  | .record subdag author checkpoint => certifier.tally subdag author checkpoint

def call [BuildProfile] (certifier : CheckpointCertifier) :
    CertifierCall → Except Panic (Option CheckpointTimings × CheckpointCertifier)
  | .push anchor commitment timings => .ok (none, (certifier.push anchor commitment timings).2)
  | .record subdag author checkpoint => certifier.record subdag author checkpoint

theorem call_eq [BuildProfile] (certifier : CheckpointCertifier) (call : CertifierCall) :
    certifier.call call =
      (fun result => (result.1.map Prod.snd, result.2)) <$> certifier.step call := by
  cases call <;> rfl

/-! ## The window -/

theorem advance_suffix (window : List PendingCheckpoint) (watermark : Option CertifiedCheckpoint) :
    (advance window watermark).1 <:+ window := by
  induction window generalizing watermark with
  | nil => exact List.suffix_rfl
  | cons entry window ih =>
      rw [advance]
      split
      · exact (ih _).trans (List.suffix_cons entry window)
      · exact List.suffix_rfl

theorem position_anchor {window : List PendingCheckpoint} {anchor : BlockReference} {index : Nat}
    (located : position window anchor = some index) :
    ∃ entry, window[index]? = some entry ∧ entry.localCheckpoint.anchor = anchor := by
  obtain ⟨offset, found, rfl⟩ := Option.map_eq_some_iff.mp located
  obtain ⟨inside, same, -⟩ := List.findIdx?_eq_some_iff_getElem.mp found
  refine ⟨_, ?_, of_decide_eq_true same⟩
  have front := (List.takeWhile_prefix _).getElem inside
  rw [← List.getElem?_drop]
  exact List.getElem?_eq_some_iff.mpr ⟨_, front.symm⟩

section

variable [BuildProfile] {certifier next : CheckpointCertifier} {subdag : BlockReference}
  {author : Authority} {checkpoint : Checkpoint} {output : Option Formed}

/-- All that one vote can do: nothing, or a tally on one entry, after which the
watermark moves if a certificate formed. -/
theorem tally_cases (tallied : certifier.tally subdag author checkpoint = .ok (output, next)) :
    (output = none ∧ next = certifier) ∨
    ∃ front entry changed back, certifier.window = front ++ entry :: back ∧
      entry.localCheckpoint.anchor = checkpoint.anchor ∧
      entry.tally certifier.committee certifier.quorum subdag author checkpoint =
        .ok (output, changed) ∧
      (output = none ∧ next = { certifier with window := front ++ changed :: back } ∨
        output.isSome ∧ next = { certifier with
          window := (advance (front ++ changed :: back) certifier.watermark).1
          watermark := (advance (front ++ changed :: back) certifier.watermark).2 }) := by
  unfold tally at tallied
  split at tallied
  · cases tallied
    exact .inl ⟨rfl, rfl⟩
  · rename_i index located
    obtain ⟨entry, found, anchor⟩ := position_anchor located
    rw [found] at tallied
    obtain ⟨⟨formed, changed⟩, voted, done⟩ := bind_eq_ok.mp tallied
    obtain ⟨inside, same⟩ := List.getElem?_eq_some_iff.mp found
    have split : certifier.window =
        certifier.window.take index ++ entry :: certifier.window.drop (index + 1) := by
      rw [← same, List.getElem_cons_drop, List.take_append_drop]
    have replaced : certifier.window.set index changed =
        certifier.window.take index ++ changed :: certifier.window.drop (index + 1) := by
      rw [List.set_eq_take_append_cons_drop, if_pos inside]
    cases formed with
    | none =>
        cases done
        refine .inr ⟨_, entry, changed, _, split, anchor, voted, ?_⟩
        exact .inl ⟨rfl, by rw [← replaced]⟩
    | some formed =>
        cases done
        refine .inr ⟨_, entry, changed, _, split, anchor, voted, ?_⟩
        exact .inr ⟨rfl, by rw [← replaced]⟩

theorem tally_pending (tallied : certifier.tally subdag author checkpoint = .ok (output, next)) :
    next.pending <:+ certifier.pending := by
  rcases tally_cases tallied with ⟨-, rfl⟩ | ⟨front, entry, changed, back, split, -, voted, result⟩
  · exact List.suffix_rfl
  · have kept := PendingCheckpoint.tally_keeps voted
    have same : (front ++ changed :: back).map PendingCheckpoint.localCheckpoint =
        certifier.pending := by
      rw [pending, split, List.map_append, List.map_append, List.map_cons, List.map_cons, kept]
    rcases result with ⟨-, rfl⟩ | ⟨-, rfl⟩
    · exact same ▸ List.suffix_rfl
    · rw [← same]
      exact (advance_suffix _ _).map _

end

end CheckpointCertifier

end

end BlockchainValidator
