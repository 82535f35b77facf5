import BlockchainValidator.Checkpoint.Independence
import Mathlib.Data.List.ReduceOption

/-! # What became of every minted checkpoint

Whatever is pushed and voted for, a minted checkpoint is pending or was taken out
of the window with a certificate for its anchor, in mint order, and the watermark
is the certificate of the last one taken out.
-/

namespace BlockchainValidator

open Execution Run

section

variable [Dag]

structure Chronicle (mints : List Checkpoint) (formed : List CertifiedCheckpoint)
    (certifier : CheckpointCertifier) : Prop where
  settled : ∃ settled : List (Checkpoint × CertifiedCheckpoint),
    mints = settled.map Prod.fst ++ certifier.pending ∧
    (∀ pair ∈ settled, pair.2 ∈ formed ∧ pair.2.checkpoint.anchor = pair.1.anchor) ∧
    certifier.highestCertified = settled.getLast?.map Prod.snd
  window : ∀ entry ∈ certifier.window, ∀ certificate, entry.certificate = some certificate →
    certificate ∈ formed ∧ certificate.checkpoint.anchor = entry.localCheckpoint.anchor
  /-- The window starts at a checkpoint that is not certified. -/
  front : ∀ entry, certifier.window.head? = some entry → entry.certificate = none

/-! ## What one vote does to the window -/

section

variable {certifier next : CheckpointCertifier} {entry changed : PendingCheckpoint}
  {committee : Committee} {quorum : UInt64} {subdag : BlockReference} {author : Authority}
  {checkpoint : Checkpoint} {output : Option Formed}

theorem PendingCheckpoint.tally_certificate [BuildProfile]
    (tallied : entry.tally committee quorum subdag author checkpoint = .ok (output, changed)) :
    (output = none ∧ changed.certificate = entry.certificate) ∨
      ∃ certificate timings, output = some (certificate, timings) ∧
        entry.certificate = none ∧ changed.certificate = some certificate ∧
        certificate.checkpoint = checkpoint := by
  unfold tally at tallied
  split at tallied
  · cases tallied
    exact .inl ⟨rfl, rfl⟩
  · rename_i waiting
    have uncertified : entry.certificate = none := by simpa using waiting
    split at tallied
    · cases tallied
      exact .inl ⟨rfl, rfl⟩
    · dsimp only at tallied
      split at tallied
      · cases tallied
        exact .inl ⟨rfl, rfl⟩
      · obtain ⟨⟨reached, accumulator⟩, -, done⟩ := bind_eq_ok.mp tallied
        cases reached with
        | false =>
            cases done
            exact .inl ⟨rfl, rfl⟩
        | true =>
            cases done
            exact .inr ⟨_, _, rfl, uncertified, rfl, rfl⟩

namespace CheckpointCertifier

/-- The pairs that a certified prefix of the window leaves behind. -/
def leaving (window : List PendingCheckpoint) : List (Checkpoint × CertifiedCheckpoint) :=
  window.filterMap fun entry => entry.certificate.map (entry.localCheckpoint, ·)

theorem advance_leaves (window : List PendingCheckpoint) (watermark : Option CertifiedCheckpoint) :
    ∃ certified, window = certified ++ (advance window watermark).1 ∧
      window.map PendingCheckpoint.localCheckpoint = (leaving certified).map Prod.fst ++
        (advance window watermark).1.map PendingCheckpoint.localCheckpoint ∧
      (advance window watermark).2 = ((leaving certified).getLast?.map Prod.snd).or watermark ∧
      ∀ entry, (advance window watermark).1.head? = some entry → entry.certificate = none := by
  induction window generalizing watermark with
  | nil => exact ⟨[], rfl, rfl, rfl, nofun⟩
  | cons entry window ih =>
      rw [advance]
      cases certificate : entry.certificate with
      | none =>
          refine ⟨[], rfl, rfl, rfl, fun first same => ?_⟩
          cases same
          exact certificate
      | some formed =>
          obtain ⟨certified, split, locals, watermark_eq, stops⟩ := ih (some formed)
          have leaves : leaving (entry :: certified) =
              (entry.localCheckpoint, formed) :: leaving certified :=
            List.filterMap_cons_some (by rw [certificate]; rfl)
          refine ⟨entry :: certified, congrArg (entry :: ·) split, ?_, ?_, stops⟩
          · rw [leaves, List.map_cons, locals]
            rfl
          · dsimp only
            rw [watermark_eq, leaves, List.getLast?_cons]
            cases (leaving certified).getLast? <;> rfl

theorem mem_leaving {window : List PendingCheckpoint} {pair : Checkpoint × CertifiedCheckpoint} :
    pair ∈ leaving window ↔ ∃ entry ∈ window, entry.certificate = some pair.2 ∧
      entry.localCheckpoint = pair.1 := by
  rw [leaving, List.mem_filterMap]
  apply Iff.intro
  · intro left
    obtain ⟨entry, listed, same⟩ := left
    obtain ⟨certificate, held, rfl⟩ := Option.map_eq_some_iff.mp same
    exact ⟨entry, listed, held, rfl⟩
  · intro left
    obtain ⟨entry, listed, held, same⟩ := left
    exact ⟨entry, listed, by rw [held, Option.map_some, same]⟩

end CheckpointCertifier

end

/-! ## The chronicle of a run -/

section

open CheckpointCertifier

variable {mints : List Checkpoint} {formed : List CertifiedCheckpoint}
  {certifier next : CheckpointCertifier}

theorem Chronicle.new (committee : Committee) (quorum : UInt64) :
    Chronicle [] [] (.new committee quorum) where
  settled := ⟨[], rfl, by simp, rfl⟩
  window _ listed := by cases listed
  front _ same := by cases same

theorem Chronicle.push (chronicle : Chronicle mints formed certifier) (anchor : BlockReference)
    (commitment : Digest) (timings : CheckpointTimings) :
    Chronicle (mints ++ [⟨anchor, commitment⟩]) formed
      (certifier.push anchor commitment timings).2 where
  settled := by
    obtain ⟨settled, split, left, watermark⟩ := chronicle.settled
    refine ⟨settled, ?_, left, watermark⟩
    rw [split, List.append_assoc]
    simp [pending, CheckpointCertifier.push]
  window := by
    intro entry listed certificate held
    rcases List.mem_append.mp listed with earlier | new
    · exact chronicle.window entry earlier certificate held
    · rw [List.mem_singleton.mp new] at held
      cases held
  front := by
    intro entry first
    rw [CheckpointCertifier.push, List.head?_append] at first
    cases head : certifier.window.head? with
    | none =>
        rw [head] at first
        cases first
        rfl
    | some earlier =>
        rw [head] at first
        cases first
        exact chronicle.front entry head

/-- What a moving watermark takes out of a window joins the settled pairs. -/
theorem Chronicle.of_advance {window : List PendingCheckpoint}
    (settled : ∃ settled : List (Checkpoint × CertifiedCheckpoint),
      mints = settled.map Prod.fst ++ window.map PendingCheckpoint.localCheckpoint ∧
      (∀ pair ∈ settled, pair.2 ∈ formed ∧ pair.2.checkpoint.anchor = pair.1.anchor) ∧
      certifier.highestCertified = settled.getLast?.map Prod.snd)
    (held : ∀ entry ∈ window, ∀ certificate, entry.certificate = some certificate →
      certificate ∈ formed ∧ certificate.checkpoint.anchor = entry.localCheckpoint.anchor) :
    Chronicle mints formed { certifier with
      window := (advance window certifier.watermark).1
      watermark := (advance window certifier.watermark).2 } := by
  obtain ⟨settled, split, left, watermark⟩ := settled
  obtain ⟨certified, whole, leaves, watermark', stops⟩ := advance_leaves window certifier.watermark
  refine ⟨⟨settled ++ leaving certified, ?_, ?_, ?_⟩, ?_, stops⟩
  · rw [split, leaves, List.map_append, List.append_assoc]
    rfl
  · intro pair listed
    rcases List.mem_append.mp listed with earlier | now
    · exact left pair earlier
    · obtain ⟨entry, listed, certificate, same⟩ := mem_leaving.mp now
      obtain ⟨known, anchor⟩ :=
        held entry (by rw [whole]; exact List.mem_append_left _ listed) pair.2 certificate
      exact ⟨known, anchor.trans (congrArg _ same)⟩
  · change (advance _ certifier.watermark).2 = _
    rw [watermark', List.getLast?_append]
    change Option.or _ certifier.highestCertified = _
    rw [watermark]
    cases (leaving certified).getLast? <;> rfl
  · intro entry listed
    exact held entry ((advance_suffix _ _).subset listed)

variable [BuildProfile] {subdag : BlockReference} {author : Authority} {checkpoint : Checkpoint}
  {output : Option Formed}

/-- The window after a vote, before the watermark moves. -/
theorem Chronicle.replaced (chronicle : Chronicle mints formed certifier)
    {front back : List PendingCheckpoint} {entry changed : PendingCheckpoint}
    (split : certifier.window = front ++ entry :: back)
    (anchor : entry.localCheckpoint.anchor = checkpoint.anchor)
    (tallied : entry.tally certifier.committee certifier.quorum subdag author checkpoint =
      .ok (output, changed)) :
    (front ++ changed :: back).map PendingCheckpoint.localCheckpoint = certifier.pending ∧
      ∀ entry ∈ front ++ changed :: back, ∀ certificate,
        entry.certificate = some certificate →
          certificate ∈ formed ++ (output.map Prod.fst).toList ∧
            certificate.checkpoint.anchor = entry.localCheckpoint.anchor := by
  have kept := PendingCheckpoint.tally_keeps tallied
  have known {other : PendingCheckpoint} (listed : other ∈ certifier.window)
      {certificate : CertifiedCheckpoint} (held : other.certificate = some certificate) :
      certificate ∈ formed ++ (output.map Prod.fst).toList ∧
        certificate.checkpoint.anchor = other.localCheckpoint.anchor :=
    (chronicle.window other listed certificate held).imp_left (List.mem_append_left _)
  apply And.intro
  · rw [pending, split, List.map_append, List.map_append, List.map_cons, List.map_cons, kept]
  · intro other listed certificate held
    rcases List.mem_append.mp listed with earlier | later
    · exact known (by rw [split]; exact List.mem_append_left _ earlier) held
    · rcases List.mem_cons.mp later with rfl | later
      · rw [kept]
        rcases PendingCheckpoint.tally_certificate tallied with
          ⟨rfl, same⟩ | ⟨certificate', timings, rfl, -, new, rfl⟩
        · exact known (by simp [split]) (same.symm.trans held)
        · obtain rfl := Option.some.inj (held.symm.trans new)
          exact ⟨by simp, anchor.symm⟩
      · exact known (by simp [split, later]) held

theorem Chronicle.tally (chronicle : Chronicle mints formed certifier)
    (tallied : certifier.tally subdag author checkpoint = .ok (output, next)) :
    Chronicle mints (formed ++ (output.map Prod.fst).toList) next := by
  rcases tally_cases tallied with
    ⟨rfl, rfl⟩ | ⟨front, entry, changed, back, split, anchor, voted, result⟩
  · rw [Option.map_none, Option.toList_none, List.append_nil]
    exact chronicle
  · obtain ⟨locals, window⟩ := chronicle.replaced split anchor voted
    obtain ⟨settled, minted, left, watermark⟩ := chronicle.settled
    rw [← locals] at minted
    have kept : ∀ pair ∈ settled, pair.2 ∈ formed ++ (output.map Prod.fst).toList ∧
        pair.2.checkpoint.anchor = pair.1.anchor :=
      fun pair listed => (left pair listed).imp_left (List.mem_append_left _)
    rcases result with ⟨rfl, rfl⟩ | ⟨-, rfl⟩
    · refine ⟨⟨settled, minted, kept, watermark⟩, window, ?_⟩
      intro first head
      rcases PendingCheckpoint.tally_certificate voted with ⟨-, same⟩ | ⟨_, _, impossible, -⟩
      · cases front with
        | nil =>
            cases head
            rw [same]
            exact chronicle.front entry (by rw [split]; rfl)
        | cons earlier front =>
            cases head
            exact chronicle.front first (by rw [split]; rfl)
      · cases impossible
    · exact .of_advance ⟨settled, minted, kept, watermark⟩ window

end

/-- A minted checkpoint that is not pending was certified. -/
theorem Chronicle.certified {mints : List Checkpoint} {formed : List CertifiedCheckpoint}
    {certifier : CheckpointCertifier} (chronicle : Chronicle mints formed certifier)
    {checkpoint : Checkpoint} (minted : checkpoint ∈ mints)
    (settled : checkpoint ∉ certifier.pending) :
    ∃ certificate ∈ formed, certificate.checkpoint.anchor = checkpoint.anchor := by
  obtain ⟨pairs, split, left, -⟩ := chronicle.settled
  rw [split] at minted
  rcases List.mem_append.mp minted with taken | waiting
  · obtain ⟨pair, listed, rfl⟩ := List.mem_map.mp taken
    exact ⟨pair.2, left pair listed⟩
  · exact absurd waiting settled

end

end BlockchainValidator
