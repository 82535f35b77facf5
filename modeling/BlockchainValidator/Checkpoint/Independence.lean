import BlockchainValidator.Checkpoint.Certifier

/-! # What certification does not depend on

Timings and the commitment that this validator minted travel with an entry, and
nothing that the certifier decides looks at them.
-/

namespace BlockchainValidator

open Execution PartitionPoint Run

section

variable [Dag]

/-- The certificate of what formed, without the timings surrendered for it. -/
def certificates (formed : List (Option Formed)) : List (Option CertifiedCheckpoint) :=
  formed.map (Option.map Prod.fst)

def Formed.untimed (formed : Formed) : Formed := (formed.1, ⟨.zero, 0⟩)

/-- The entry with its timings forgotten and its local checkpoint relabelled. -/
def PendingCheckpoint.relabel (label : Checkpoint → Checkpoint) (entry : PendingCheckpoint) :
    PendingCheckpoint :=
  { entry with localCheckpoint := label entry.localCheckpoint, timings := ⟨.zero, 0⟩ }

def CheckpointCertifier.relabel (label : Checkpoint → Checkpoint) (certifier : CheckpointCertifier) :
    CheckpointCertifier :=
  { certifier with window := certifier.window.map (PendingCheckpoint.relabel label) }

def KeepsAnchor (label : Checkpoint → Checkpoint) : Prop :=
  ∀ checkpoint, (label checkpoint).anchor = checkpoint.anchor

def anchorOnly (checkpoint : Checkpoint) : Checkpoint := ⟨checkpoint.anchor, .default⟩

theorem anchorOnly_keeps : KeepsAnchor anchorOnly := fun _ => rfl

theorem id_keeps : KeepsAnchor id := fun _ => rfl

variable {label : Checkpoint → Checkpoint} {window : List PendingCheckpoint}
  {certifier certifier' : CheckpointCertifier}

theorem certificates_untimed (formed : List (Option Formed)) :
    certificates (formed.map (Option.map Formed.untimed)) = certificates formed := by
  rw [certificates, certificates, List.map_map]
  apply List.map_congr_left
  intro output _
  cases output <;> rfl

theorem PendingCheckpoint.tally_relabel [BuildProfile] (label : Checkpoint → Checkpoint)
    (entry : PendingCheckpoint) (committee : Committee) (quorum : UInt64) (subdag : BlockReference)
    (author : Authority) (checkpoint : Checkpoint) :
    (entry.relabel label).tally committee quorum subdag author checkpoint =
      (fun result => (result.1.map Formed.untimed, result.2.relabel label)) <$>
        entry.tally committee quorum subdag author checkpoint := by
  unfold tally relabel
  dsimp only
  split
  · rfl
  · cases locate author checkpoint.commitment 0 none entry.accumulators with
    | none => rfl
    | some target =>
        dsimp only
        generalize slot quorum checkpoint.commitment entry.accumulators target = slotted
        obtain ⟨index, accumulators⟩ := slotted
        dsimp only
        cases accumulators[index]? with
        | none => rfl
        | some found =>
            dsimp only
            cases found.2.add author committee subdag with
            | error panic => rfl
            | ok result =>
                obtain ⟨_ | _, next⟩ := result <;> rfl

namespace CheckpointCertifier

theorem position_relabel (keeps : KeepsAnchor label) (anchor : BlockReference) :
    position (window.map (PendingCheckpoint.relabel label)) anchor = position window anchor := by
  have round (entry : PendingCheckpoint) : (entry.relabel label).round = entry.round :=
    congrArg Dag.round (keeps entry.localCheckpoint)
  have same (entry : PendingCheckpoint) :
      (entry.relabel label).localCheckpoint.anchor = entry.localCheckpoint.anchor :=
    keeps entry.localCheckpoint
  unfold position
  simp only [partitionPoint_map, Function.comp_def, round, ← List.map_drop, List.takeWhile_map,
    List.findIdx?_map, same]

theorem advance_relabel (window : List PendingCheckpoint) (watermark : Option CertifiedCheckpoint) :
    advance (window.map (PendingCheckpoint.relabel label)) watermark =
      ((advance window watermark).1.map (PendingCheckpoint.relabel label),
        (advance window watermark).2) := by
  induction window generalizing watermark with
  | nil => rfl
  | cons entry window ih =>
      rw [List.map_cons, advance, advance]
      have same : (entry.relabel label).certificate = entry.certificate := rfl
      rw [same]
      cases entry.certificate with
      | none => rfl
      | some certificate => exact ih _

theorem tally_relabel [BuildProfile] (keeps : KeepsAnchor label) (certifier : CheckpointCertifier)
    (subdag : BlockReference) (author : Authority) (checkpoint : Checkpoint) :
    (certifier.relabel label).tally subdag author checkpoint =
      (fun result => (result.1.map Formed.untimed, result.2.relabel label)) <$>
        certifier.tally subdag author checkpoint := by
  unfold tally relabel
  dsimp only
  rw [position_relabel keeps]
  cases position certifier.window checkpoint.anchor with
  | none => rfl
  | some index =>
      simp only [List.getElem?_map]
      cases certifier.window[index]? with
      | none => rfl
      | some entry =>
          simp only [Option.map_some, PendingCheckpoint.tally_relabel]
          cases entry.tally certifier.committee certifier.quorum subdag author checkpoint with
          | error panic => rfl
          | ok result =>
              obtain ⟨_ | formed, next⟩ := result
              · simp only [map_ok, bind_ok, Option.map_none, ← List.map_set]
              · simp only [map_ok, bind_ok, Option.map_some, ← List.map_set, advance_relabel]

theorem push_relabel (anchor : BlockReference) (commitment : Digest) (timings : CheckpointTimings)
    (certifier : CheckpointCertifier) :
    ((certifier.push anchor commitment timings).2).relabel label =
      { certifier.relabel label with window := (certifier.relabel label).window ++
        [⟨label ⟨anchor, commitment⟩, ⟨.zero, 0⟩, [], none⟩] } := by
  simp only [push, relabel, List.map_append]
  rfl

theorem relabel_pending (alike : certifier.relabel label = certifier'.relabel label) :
    certifier.pending.map label = certifier'.pending.map label := by
  have shown (certifier : CheckpointCertifier) : certifier.pending.map label =
      (certifier.relabel label).window.map PendingCheckpoint.localCheckpoint := by
    rw [pending, relabel, List.map_map, List.map_map]
    rfl
  rw [shown, shown, alike]

theorem relabel_highestCertified (alike : certifier.relabel label = certifier'.relabel label) :
    certifier.highestCertified = certifier'.highestCertified := by
  have watermarks := congrArg CheckpointCertifier.watermark alike
  exact watermarks

end CheckpointCertifier

end

end BlockchainValidator
