import BlockchainValidator.Checkpoint.Chronicle

/-! # The timings of minted checkpoints

An entry of the window keeps the timings of its mint until the vote that forms
its certificate surrenders them.
-/

namespace BlockchainValidator

open Execution Run

section

variable [Dag]

theorem PendingCheckpoint.tally_timings [BuildProfile] {entry changed : PendingCheckpoint}
    {committee : Committee} {quorum : UInt64} {subdag : BlockReference} {author : Authority}
    {checkpoint : Checkpoint} {output : Option Formed}
    (tallied : entry.tally committee quorum subdag author checkpoint = .ok (output, changed)) :
    changed.timings = entry.timings ∧ ∀ formed ∈ output, formed.2 = entry.timings := by
  unfold tally at tallied
  split at tallied
  · cases tallied
    exact ⟨rfl, nofun⟩
  · split at tallied
    · cases tallied
      exact ⟨rfl, nofun⟩
    · dsimp only at tallied
      split at tallied
      · cases tallied
        exact ⟨rfl, nofun⟩
      · obtain ⟨⟨reached, accumulator⟩, -, done⟩ := bind_eq_ok.mp tallied
        cases reached with
        | false =>
            cases done
            exact ⟨rfl, nofun⟩
        | true =>
            cases done
            refine ⟨rfl, fun formed same => ?_⟩
            cases same
            rfl

namespace CheckpointCertifier

/-- What is pending, with the timings of its mint. -/
def pendingTimings (certifier : CheckpointCertifier) : List (Checkpoint × CheckpointTimings) :=
  certifier.window.map fun entry => (entry.localCheckpoint, entry.timings)

theorem push_pendingTimings (certifier : CheckpointCertifier) (anchor : BlockReference)
    (commitment : Digest) (timings : CheckpointTimings) :
    (certifier.push anchor commitment timings).2.pendingTimings =
      certifier.pendingTimings ++ [(⟨anchor, commitment⟩, timings)] :=
  List.map_append

/-- Advancing leaves every entry in the window that has no certificate. -/
theorem mem_advance {window : List PendingCheckpoint} {entry : PendingCheckpoint}
    (listed : entry ∈ window) (uncertified : entry.certificate = none)
    (watermark : Option CertifiedCheckpoint) : entry ∈ (advance window watermark).1 := by
  induction window generalizing watermark with
  | nil => cases listed
  | cons first window ih =>
      rw [advance]
      cases certificate : first.certificate with
      | none => exact listed
      | some formed =>
          rcases List.mem_cons.mp listed with rfl | later
          · rw [uncertified] at certificate
            cases certificate
          · exact ih later _

/-- The checkpoint minted at `anchor` waits with its timings, or a certificate
has taken them. -/
def TimingsKept (formed : List (Option Formed)) (anchor : BlockReference)
    (timings : CheckpointTimings) (certifier : CheckpointCertifier) : Prop :=
  (∃ entry ∈ certifier.window, entry.localCheckpoint.anchor = anchor ∧ entry.timings = timings ∧
    entry.certificate = none) ∨
  ∃ certificate, some (certificate, timings) ∈ formed ∧ certificate.checkpoint.anchor = anchor

variable [BuildProfile] {certifier next : CheckpointCertifier} {subdag anchor : BlockReference}
  {author : Authority} {checkpoint : Checkpoint} {output : Option Formed}
  {formed : List (Option Formed)} {timings : CheckpointTimings}

/-- A certificate surrenders the timings of an entry for its anchor. -/
theorem tally_pendingTimings
    (tallied : certifier.tally subdag author checkpoint = .ok (output, next)) :
    next.pendingTimings <:+ certifier.pendingTimings ∧
      ∀ certified ∈ output, ∃ minted, (minted, certified.2) ∈ certifier.pendingTimings ∧
        minted.anchor = certified.1.checkpoint.anchor := by
  rcases tally_cases tallied with
    ⟨rfl, rfl⟩ | ⟨front, entry, changed, back, split, anchor, voted, result⟩
  · exact ⟨List.suffix_rfl, nofun⟩
  · obtain ⟨kept, surrendered⟩ := PendingCheckpoint.tally_timings voted
    have same : (front ++ changed :: back).map
        (fun entry => (entry.localCheckpoint, entry.timings)) = certifier.pendingTimings := by
      rw [pendingTimings, split, List.map_append, List.map_append, List.map_cons, List.map_cons,
        PendingCheckpoint.tally_keeps voted, kept]
    refine ⟨?_, fun certified formed => ⟨entry.localCheckpoint, ?_, ?_⟩⟩
    · rcases result with ⟨-, rfl⟩ | ⟨-, rfl⟩
      · exact same ▸ List.suffix_rfl
      · rw [← same]
        exact (advance_suffix _ _).map _
    · rw [surrendered certified formed, pendingTimings, split]
      exact List.mem_map_of_mem (by simp)
    · rcases PendingCheckpoint.tally_certificate voted with ⟨rfl, -⟩ | ⟨_, _, rfl, -, -, rfl⟩
      · cases formed
      · cases formed
        exact anchor

theorem TimingsKept.tally (kept : certifier.TimingsKept formed anchor timings)
    (tallied : certifier.tally subdag author checkpoint = .ok (output, next)) :
    next.TimingsKept (formed ++ [output]) anchor timings := by
  rcases kept with ⟨entry, listed, rfl, rfl, uncertified⟩ | ⟨certificate, taken, same⟩
  · rcases tally_cases tallied with
      ⟨-, rfl⟩ | ⟨front, found, changed, back, split, anchor, voted, result⟩
    · exact .inl ⟨entry, listed, rfl, rfl, uncertified⟩
    · have stays (held : PendingCheckpoint) (inside : held ∈ front ++ changed :: back)
          (waiting : held.certificate = none) : held ∈ next.window := by
        rcases result with ⟨-, rfl⟩ | ⟨-, rfl⟩
        · exact inside
        · exact mem_advance inside waiting _
      rw [split] at listed
      by_cases other : entry ∈ front ∨ entry ∈ back
      · have inside : entry ∈ front ++ changed :: back := by
          rcases other with before | after
          · exact List.mem_append_left _ before
          · exact List.mem_append_right _ (List.mem_cons_of_mem _ after)
        exact .inl ⟨entry, stays entry inside uncertified, rfl, rfl, uncertified⟩
      · obtain rfl : entry = found := by
          have only := List.mem_append.mp listed
          simp only [List.mem_cons] at only
          tauto
        obtain ⟨same, surrendered⟩ := PendingCheckpoint.tally_timings voted
        rcases PendingCheckpoint.tally_certificate voted with
          ⟨-, waits⟩ | ⟨certificate, timings, rfl, -, -, rfl⟩
        · refine .inl ⟨changed, stays changed (by simp) (waits.trans uncertified), ?_, same,
            waits.trans uncertified⟩
          rw [PendingCheckpoint.tally_keeps voted]
        · obtain rfl : timings = entry.timings := surrendered _ rfl
          exact .inr ⟨certificate, by simp, anchor.symm⟩
  · exact .inr ⟨certificate, List.mem_append_left _ taken, same⟩

end CheckpointCertifier

end

end BlockchainValidator
