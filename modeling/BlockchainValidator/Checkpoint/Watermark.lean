import BlockchainValidator.Checkpoint.Certificates

/-! # The watermark moves forward in mint order -/

namespace BlockchainValidator

open Execution Run

section

variable [Dag]

namespace ReferenceCertifier

/-- The length of the longest certified prefix. -/
def settled (minted : List MintedCheckpoint) : Nat :=
  (minted.takeWhile MintedCheckpoint.certified).length

variable {reference next : ReferenceCertifier} {front back : List MintedCheckpoint}
  {minted changed : MintedCheckpoint} {certificate : CertifiedCheckpoint}

theorem settled_append : settled front ≤ settled (front ++ back) := by
  induction front with
  | nil => exact Nat.zero_le _
  | cons first front ih =>
      rw [settled, settled, List.cons_append, List.takeWhile_cons, List.takeWhile_cons]
      split
      · exact Nat.succ_le_succ ih
      · exact Nat.le_refl _

theorem settled_replace (kept : minted.certified = true → changed.certified = true) :
    settled (front ++ minted :: back) ≤ settled (front ++ changed :: back) := by
  induction front with
  | nil =>
      rw [settled, settled, List.nil_append, List.nil_append, List.takeWhile_cons,
        List.takeWhile_cons]
      cases certified : minted.certified with
      | true =>
          rw [kept certified, if_pos rfl, if_pos rfl, List.length_cons, List.length_cons]
      | false => exact Nat.zero_le _
  | cons first front ih =>
      rw [settled, settled, List.cons_append, List.cons_append, List.takeWhile_cons,
        List.takeWhile_cons]
      split
      · exact Nat.succ_le_succ ih
      · exact Nat.le_refl _

theorem vote_certified {committee : Committee} {quorum : UInt64} {subdag : BlockReference}
    {author : Authority} {checkpoint : Checkpoint} (certified : minted.certified = true) :
    (minted.vote committee quorum subdag author checkpoint).2.certified = true := by
  rw [vote_ignored (.inl certified)]
  exact certified

theorem step_settled {call : CertifierCall} {output : Option Formed}
    (stepped : reference.step call = .ok (output, next)) :
    next.minted.map MintedCheckpoint.anchor =
        reference.minted.map MintedCheckpoint.anchor ++ [call].filterMap CertifierCall.pushed ∧
      settled reference.minted ≤ settled next.minted := by
  cases call with
  | push anchor commitment timings =>
      cases stepped
      exact ⟨List.map_append, settled_append⟩
  | record subdag author checkpoint =>
      obtain rfl : (reference.record subdag author checkpoint).2 = next :=
        congrArg Prod.snd (Except.ok.inj stepped)
      refine ⟨record_anchors.trans (List.append_nil _).symm, ?_⟩
      rcases record_cases reference subdag author checkpoint with
        ⟨-, same⟩ | ⟨front, minted, back, split, -, -, same⟩
      · rw [same]
      · rw [same, split]
        exact settled_replace vote_certified

theorem run_settled {calls : List CertifierCall} {outputs : List (Option Formed)}
    (ran : run step reference calls = .ok (outputs, next)) :
    next.minted.map MintedCheckpoint.anchor =
        reference.minted.map MintedCheckpoint.anchor ++ calls.filterMap CertifierCall.pushed ∧
      settled reference.minted ≤ settled next.minted := by
  induction calls generalizing reference outputs with
  | nil =>
      cases ran
      exact ⟨(List.append_nil _).symm, Nat.le_refl _⟩
  | cons call calls ih =>
      obtain ⟨output, middle, rest, _, stepped, tail, same⟩ := run_cons_ok.mp ran
      cases same
      obtain ⟨order, forward⟩ := step_settled stepped
      obtain ⟨finalOrder, final⟩ := ih tail
      refine ⟨?_, forward.trans final⟩
      rw [finalOrder, order, List.append_assoc, ← List.filterMap_append]
      rfl

/-- The watermark is the certificate of the last settled checkpoint. -/
theorem highest_at (wellFormed : reference.WellFormed)
    (highest : reference.highestCertified = some certificate) :
    ∃ index, index + 1 = settled reference.minted ∧
      (reference.minted.map MintedCheckpoint.anchor)[index]? = some certificate.checkpoint.anchor := by
  obtain ⟨minted, last, held⟩ := Option.bind_eq_some_iff.mp highest
  have listed := (List.takeWhile_prefix MintedCheckpoint.certified).subset (List.mem_of_getLast? last)
  have anchor := (wellFormed.tallied minted listed).certificate certificate held
  rw [List.getLast?_eq_getElem?] at last
  obtain ⟨inside, found⟩ := List.getElem?_eq_some_iff.mp last
  refine ⟨settled reference.minted - 1, ?_, ?_⟩
  · rw [settled]
    omega
  · have split : reference.minted = reference.minted.takeWhile MintedCheckpoint.certified ++
        reference.minted.dropWhile MintedCheckpoint.certified :=
      List.takeWhile_append_dropWhile.symm
    rw [List.getElem?_map, settled, split, List.getElem?_append_left, ← split, last, anchor]
    · rfl
    · rw [← split]
      exact inside

theorem highest_of_settled (positive : 0 < settled reference.minted) :
    ∃ certificate, reference.highestCertified = some certificate := by
  have inside : reference.minted.takeWhile MintedCheckpoint.certified ≠ [] :=
    List.ne_nil_of_length_pos positive
  have certified : ((reference.minted.takeWhile MintedCheckpoint.certified).getLast inside).certified =
      true := List.mem_takeWhile_imp (List.getLast_mem inside)
  obtain ⟨certificate, held⟩ := Option.isSome_iff_exists.mp certified
  refine ⟨certificate, ?_⟩
  rw [highestCertified, highest, List.getLast?_eq_some_getLast inside]
  exact held

end ReferenceCertifier

def AtOrBefore (order : List BlockReference) (earlier later : BlockReference) : Prop :=
  ∃ i j : Nat, i ≤ j ∧ order[i]? = some earlier ∧ order[j]? = some later

/-- Later calls leave the watermark or move it on in mint order. -/
theorem CheckpointCertifier.watermark_forward [BuildProfile] {committee : Committee}
    {quorum : UInt64} {calls more : List CertifierCall} {outputs moreOutputs : List (Option Formed)}
    {middle last : CheckpointCertifier}
    (admissible : AdmissibleCalls committee [] (calls ++ more))
    (front : run step (.new committee quorum) calls = .ok (outputs, middle))
    (back : run step middle more = .ok (moreOutputs, last)) {certificate : CertifiedCheckpoint}
    (highest : middle.highestCertified = some certificate) :
    ∃ later, last.highestCertified = some later ∧
      AtOrBefore ((calls ++ more).filterMap CertifierCall.pushed) certificate.checkpoint.anchor
        later.checkpoint.anchor := by
  obtain ⟨_, reference, ran, ran', wellFormed⟩ := run_refines committee quorum calls admissible.left
  obtain ⟨_, reference', whole, whole', wellFormed'⟩ :=
    run_refines committee quorum (calls ++ more) admissible
  obtain rfl : middle = ofReference reference := (Prod.mk.inj (Except.ok.inj (front.symm.trans ran))).2
  have joined := run_append_ok.mpr ⟨_, _, _, _, front, back, rfl⟩
  obtain rfl : last = ofReference reference' :=
    (Prod.mk.inj (Except.ok.inj (joined.symm.trans whole))).2
  obtain ⟨_, reference'', _, final, front', back', same⟩ := run_append_ok.mp whole'
  obtain rfl : reference = reference'' := (Prod.mk.inj (Except.ok.inj (ran'.symm.trans front'))).2
  obtain ⟨-, rfl⟩ := Prod.mk.inj same
  have order := (ReferenceCertifier.run_settled whole').1
  obtain ⟨extended, forward⟩ := ReferenceCertifier.run_settled back'
  obtain ⟨i, settled, at_i⟩ := ReferenceCertifier.highest_at wellFormed highest
  obtain ⟨later, highest'⟩ : ∃ later, reference'.highestCertified = some later :=
    ReferenceCertifier.highest_of_settled (by omega)
  obtain ⟨j, settled', at_j⟩ := ReferenceCertifier.highest_at wellFormed' highest'
  have mintOrder : reference'.minted.map MintedCheckpoint.anchor =
      (calls ++ more).filterMap CertifierCall.pushed := order
  rw [← mintOrder]
  refine ⟨later, highest', i, j, by omega, ?_, at_j⟩
  rw [extended]
  exact List.getElem?_append_left (List.getElem?_eq_some_iff.mp at_i).1 ▸ at_i

end

end BlockchainValidator
