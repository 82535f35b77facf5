import BlockchainValidator.Checkpoint.Reference

/-! # Votes and quorums as a function of the calls

What is counted for an anchor and when a certificate is complete, said of the
history of calls alone: no window, no accumulators and no state.
-/

namespace BlockchainValidator

open Execution Run MintedCheckpoint

section

variable [Dag]

/-- The calls after the one that mints `anchor`. -/
def afterMint (anchor : BlockReference) : List CertifierCall → List CertifierCall
  | [] => []
  | call :: calls => if call.pushed = some anchor then calls else afterMint anchor calls

def voteFor (anchor : BlockReference) : CertifierCall → Option Vote
  | .push .. => none
  | .record subdag author checkpoint =>
      if checkpoint.anchor = anchor then some ⟨author, checkpoint.commitment, subdag⟩ else none

def firstVotes (votes : List Vote) : List Vote :=
  votes.foldl (fun counted vote =>
    if vote.author ∈ counted.map Vote.author then counted else counted ++ [vote]) []

/-- The first votes for `anchor` after its mint, in call order. -/
def counted (anchor : BlockReference) (calls : List CertifierCall) : List Vote :=
  firstVotes ((afterMint anchor calls).filterMap (voteFor anchor))

/-- Whether the first votes for `anchor` give one commitment a quorum. -/
def Quorate (committee : Committee) (quorum : UInt64) (anchor : BlockReference)
    (calls : List CertifierCall) : Prop :=
  ∃ commitment, Reaches committee quorum (counted anchor calls) commitment

/-- The call after `before` is the first to make the certificate's anchor
quorate, and the certificate lists the votes that did. -/
structure Completes (committee : Committee) (quorum : UInt64) (before : List CertifierCall)
    (call : CertifierCall) (certificate : CertifiedCheckpoint) : Prop where
  short : ¬ Quorate committee quorum certificate.checkpoint.anchor before
  reached : Reaches committee quorum (counted certificate.checkpoint.anchor (before ++ [call]))
    certificate.checkpoint.commitment
  proof : certificate.proof =
    (supporters (counted certificate.checkpoint.anchor (before ++ [call]))
      certificate.checkpoint.commitment).map Vote.deliveredIn

/-! ## One more call -/

section

variable {committee : Committee} {quorum : UInt64} {anchor : BlockReference} {vote : Vote}
  {call : CertifierCall} {calls : List CertifierCall} {certificate : CertifiedCheckpoint}

/-- A vote for `anchor` comes from a record of it. -/
theorem voteFor_recorded (voted : voteFor anchor call = some vote) :
    call = .record vote.deliveredIn vote.author ⟨anchor, vote.commitment⟩ := by
  cases call with
  | push other commitment timings => cases voted
  | record subdag author checkpoint =>
      rw [voteFor] at voted
      split at voted
      · rename_i same
        cases voted
        cases same
        rfl
      · cases voted

theorem firstVotes_concat (votes : List Vote) (vote : Vote) :
    firstVotes (votes ++ [vote]) =
      if vote.author ∈ (firstVotes votes).map Vote.author then firstVotes votes
      else firstVotes votes ++ [vote] := by
  rw [firstVotes, List.foldl_append]
  rfl

theorem firstVotes_nodup (votes : List Vote) : ((firstVotes votes).map Vote.author).Nodup := by
  induction votes using List.reverseRecOn with
  | nil => exact List.nodup_nil
  | append_singleton votes vote ih =>
      rw [firstVotes_concat]
      split
      · exact ih
      · rename_i fresh
        rw [List.map_append, List.map_singleton, List.nodup_append]
        refine ⟨ih, List.nodup_singleton _, ?_⟩
        intro earlier voted later same equal
        rw [List.mem_singleton.mp same] at equal
        exact fresh (equal ▸ voted)

theorem firstVotes_subset (votes : List Vote) : firstVotes votes ⊆ votes := by
  induction votes using List.reverseRecOn with
  | nil => exact List.Subset.refl _
  | append_singleton votes vote ih =>
      rw [firstVotes_concat]
      split
      · exact List.subset_append_of_subset_left _ ih
      · exact List.append_subset.mpr ⟨List.subset_append_of_subset_left _ ih,
          List.subset_append_right _ _⟩

theorem afterMint_unminted (unminted : anchor ∉ calls.filterMap CertifierCall.pushed) :
    afterMint anchor calls = [] := by
  induction calls with
  | nil => rfl
  | cons call calls ih =>
      rw [List.mem_filterMap] at unminted
      push Not at unminted
      rw [afterMint, if_neg (unminted call (by simp))]
      apply ih
      intro minted
      obtain ⟨other, listed, pushes⟩ := List.mem_filterMap.mp minted
      exact unminted other (by simp [listed]) pushes

theorem afterMint_concat (minted : anchor ∈ calls.filterMap CertifierCall.pushed) :
    afterMint anchor (calls ++ [call]) = afterMint anchor calls ++ [call] := by
  induction calls with
  | nil => cases minted
  | cons first calls ih =>
      rw [List.cons_append, afterMint, afterMint]
      split
      · rfl
      · rename_i different
        apply ih
        obtain ⟨other, listed, pushes⟩ := List.mem_filterMap.mp minted
        rcases List.mem_cons.mp listed with rfl | listed
        · exact absurd pushes different
        · exact List.mem_filterMap.mpr ⟨other, listed, pushes⟩

theorem afterMint_mint (unminted : anchor ∉ calls.filterMap CertifierCall.pushed) :
    afterMint anchor (calls ++ [call]) = [] := by
  induction calls with
  | nil =>
      rw [List.nil_append, afterMint]
      exact ite_self _
  | cons first calls ih =>
      rw [List.cons_append, afterMint]
      have different : first.pushed ≠ some anchor := fun pushes =>
        unminted (List.mem_filterMap.mpr ⟨first, by simp, pushes⟩)
      rw [if_neg different]
      apply ih
      intro minted
      obtain ⟨other, listed, pushes⟩ := List.mem_filterMap.mp minted
      exact unminted (List.mem_filterMap.mpr ⟨other, by simp [listed], pushes⟩)

theorem counted_unminted (unminted : anchor ∉ calls.filterMap CertifierCall.pushed) :
    counted anchor calls = [] := by
  rw [counted, afterMint_unminted unminted]
  rfl

theorem counted_concat (anchor : BlockReference) (calls : List CertifierCall) (call : CertifierCall) :
    counted anchor (calls ++ [call]) =
      match voteFor anchor call with
      | none => counted anchor calls
      | some vote =>
          if anchor ∉ calls.filterMap CertifierCall.pushed ∨
              vote.author ∈ (counted anchor calls).map Vote.author then counted anchor calls
          else counted anchor calls ++ [vote] := by
  by_cases minted : anchor ∈ calls.filterMap CertifierCall.pushed
  · have grown : counted anchor (calls ++ [call]) =
        firstVotes ((afterMint anchor calls).filterMap (voteFor anchor) ++
          [call].filterMap (voteFor anchor)) := by
      rw [counted, afterMint_concat minted, List.filterMap_append]
    cases voted : voteFor anchor call with
    | none =>
        rw [grown, List.filterMap_cons, voted, List.filterMap_nil, List.append_nil]
        rfl
    | some vote =>
        rw [grown, List.filterMap_cons, voted, List.filterMap_nil, firstVotes_concat]
        simp only [minted, not_true_eq_false, false_or]
        rfl
  · have before := counted_unminted minted
    have after : counted anchor (calls ++ [call]) = [] := by
      rw [counted, afterMint_mint minted]
      rfl
    rw [after, before]
    cases voteFor anchor call <;> simp [minted]

theorem counted_other (silent : voteFor anchor call = none) :
    counted anchor (calls ++ [call]) = counted anchor calls := by
  rw [counted_concat, silent]

theorem counted_prefix : counted anchor calls <+: counted anchor (calls ++ [call]) := by
  rw [counted_concat]
  cases voteFor anchor call with
  | none => exact List.prefix_rfl
  | some vote =>
      dsimp only
      split
      · exact List.prefix_rfl
      · exact List.prefix_append _ _

theorem counted_nodup (anchor : BlockReference) (calls : List CertifierCall) :
    ((counted anchor calls).map Vote.author).Nodup :=
  firstVotes_nodup _

theorem counted_recorded (member : vote ∈ counted anchor calls) :
    .record vote.deliveredIn vote.author ⟨anchor, vote.commitment⟩ ∈ calls := by
  have later (calls : List CertifierCall) : afterMint anchor calls ⊆ calls := by
    induction calls with
    | nil => exact List.Subset.refl _
    | cons call calls ih =>
        rw [afterMint]
        split
        · exact List.subset_cons_self _ _
        · exact List.subset_cons_of_subset _ ih
  obtain ⟨call, after, voted⟩ := List.mem_filterMap.mp (firstVotes_subset _ member)
  exact voteFor_recorded voted ▸ later calls after

theorem reaches_mono {votes more : List Vote} {commitment : Digest} (front : votes <+: more)
    (reached : Reaches committee quorum votes commitment) :
    Reaches committee quorum more commitment := by
  obtain ⟨rest, rfl⟩ := front
  have split : supporters (votes ++ rest) commitment =
      supporters votes commitment ++ supporters rest commitment := List.filter_append ..
  rw [Reaches, split, List.map_append, Committee.stakeOf_append]
  exact Nat.le_add_right_of_le reached

theorem Quorate.concat (quorate : Quorate committee quorum anchor calls) :
    Quorate committee quorum anchor (calls ++ [call]) := by
  obtain ⟨commitment, reached⟩ := quorate
  exact ⟨commitment, reaches_mono counted_prefix reached⟩

theorem Quorate.append {more : List CertifierCall} (quorate : Quorate committee quorum anchor calls) :
    Quorate committee quorum anchor (calls ++ more) := by
  induction more using List.reverseRecOn with
  | nil => rwa [List.append_nil]
  | append_singleton more call ih =>
      rw [← List.append_assoc]
      exact ih.concat

theorem not_quorate_unminted (positive : 0 < quorum)
    (unminted : anchor ∉ calls.filterMap CertifierCall.pushed) :
    ¬ Quorate committee quorum anchor calls := by
  intro quorate
  obtain ⟨commitment, reached⟩ := quorate
  rw [Reaches, counted_unminted unminted, supporters_nil, List.map_nil, Committee.stakeOf_nil]
    at reached
  have above := UInt64.lt_iff_toNat_lt.mp positive
  exact absurd above (Nat.not_lt.mpr reached)

theorem Completes.quorate (completes : Completes committee quorum calls call certificate) :
    Quorate committee quorum certificate.checkpoint.anchor (calls ++ [call]) :=
  ⟨certificate.checkpoint.commitment, completes.reached⟩

theorem Completes.changes (completes : Completes committee quorum calls call certificate) :
    counted certificate.checkpoint.anchor (calls ++ [call]) ≠
      counted certificate.checkpoint.anchor calls := by
  intro same
  have reached := completes.reached
  rw [same] at reached
  exact completes.short ⟨_, reached⟩

theorem Completes.commitment_eq (completes : Completes committee quorum calls call certificate)
    (grown : counted certificate.checkpoint.anchor (calls ++ [call]) =
      counted certificate.checkpoint.anchor calls ++ [vote]) :
    certificate.checkpoint.commitment = vote.commitment := by
  by_contra different
  have reached := completes.reached
  rw [grown, Reaches, supporters_concat, if_neg (Ne.symm different)] at reached
  exact completes.short ⟨_, reached⟩

theorem Completes.recorded (completes : Completes committee quorum calls call certificate) :
    ∃ subdag author, call = .record subdag author certificate.checkpoint := by
  have changes := completes.changes
  have grown := counted_concat certificate.checkpoint.anchor calls call
  cases voted : voteFor certificate.checkpoint.anchor call with
  | none => exact absurd (counted_other voted) changes
  | some vote =>
      rw [voted] at grown
      dsimp only at grown
      split at grown
      · exact absurd grown changes
      · have commitment := completes.commitment_eq grown
        have recorded := voteFor_recorded voted
        rw [← commitment] at recorded
        exact ⟨_, _, recorded⟩

theorem counted_record (calls : List CertifierCall) (subdag : BlockReference) (author : Authority)
    (checkpoint : Checkpoint) :
    counted checkpoint.anchor (calls ++ [.record subdag author checkpoint]) =
      if checkpoint.anchor ∉ calls.filterMap CertifierCall.pushed ∨
          author ∈ (counted checkpoint.anchor calls).map Vote.author then
        counted checkpoint.anchor calls
      else counted checkpoint.anchor calls ++ [⟨author, checkpoint.commitment, subdag⟩] := by
  rw [counted_concat, voteFor, if_pos rfl]

theorem completes_record {subdag : BlockReference} {author : Authority} {checkpoint : Checkpoint} :
    Completes committee quorum calls (.record subdag author checkpoint) certificate ↔
      ¬ Quorate committee quorum checkpoint.anchor calls ∧
        Reaches committee quorum
          (counted checkpoint.anchor (calls ++ [.record subdag author checkpoint]))
          checkpoint.commitment ∧
        certificate = certify
          (counted checkpoint.anchor (calls ++ [.record subdag author checkpoint])) checkpoint := by
  apply Iff.intro
  · intro completes
    obtain ⟨_, _, recorded⟩ := completes.recorded
    cases recorded
    obtain ⟨checkpoint, proof⟩ := certificate
    refine ⟨completes.short, completes.reached, ?_⟩
    rw [certify, ← completes.proof]
  · intro formed
    obtain ⟨short, reached, rfl⟩ := formed
    exact ⟨short, reached, rfl⟩

theorem Quorate.completes (quorate : Quorate committee quorum anchor (calls ++ [call]))
    (short : ¬ Quorate committee quorum anchor calls) :
    ∃ certificate, Completes committee quorum calls call certificate ∧
      certificate.checkpoint.anchor = anchor := by
  obtain ⟨commitment, reached⟩ := quorate
  exact ⟨certify (counted anchor (calls ++ [call])) ⟨anchor, commitment⟩, ⟨short, reached, rfl⟩, rfl⟩

end

end

end BlockchainValidator
