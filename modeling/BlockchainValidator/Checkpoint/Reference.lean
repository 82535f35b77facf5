import BlockchainValidator.Checkpoint.Certifier
import Mathlib.Data.List.TakeWhile

/-! # The reference certifier

What certification is for, without windows, binary search or accumulators: every
minted checkpoint is kept for ever with the votes counted for it.
-/

namespace BlockchainValidator

open Execution Run

section

variable [Dag]

structure Vote where
  author : Authority
  commitment : Digest
  deliveredIn : BlockReference
deriving DecidableEq

def supporters (votes : List Vote) (commitment : Digest) : List Vote :=
  votes.filter fun vote => vote.commitment = commitment

structure MintedCheckpoint where
  localCheckpoint : Checkpoint
  timings : CheckpointTimings
  votes : List Vote
  certificate : Option CertifiedCheckpoint

namespace MintedCheckpoint

def anchor (minted : MintedCheckpoint) : BlockReference := minted.localCheckpoint.anchor

def certified (minted : MintedCheckpoint) : Bool := minted.certificate.isSome

/-- Whether the authors voting the commitment hold a quorum. -/
def Reaches (committee : Committee) (quorum : UInt64) (votes : List Vote) (commitment : Digest) :
    Prop :=
  quorum.toNat ≤ committee.stakeOf ((supporters votes commitment).map Vote.author)

instance (committee : Committee) (quorum : UInt64) (votes : List Vote) (commitment : Digest) :
    Decidable (Reaches committee quorum votes commitment) :=
  inferInstanceAs (Decidable (_ ≤ _))

def certify (votes : List Vote) (checkpoint : Checkpoint) : CertifiedCheckpoint :=
  ⟨checkpoint, (supporters votes checkpoint.commitment).map Vote.deliveredIn⟩

/-- Counts a vote unless the checkpoint is certified or the author has a vote. -/
def vote (minted : MintedCheckpoint) (committee : Committee) (quorum : UInt64)
    (subdag : BlockReference) (author : Authority) (checkpoint : Checkpoint) :
    Option Formed × MintedCheckpoint :=
  if minted.certified ∨ author ∈ minted.votes.map Vote.author then (none, minted)
  else
    let votes := minted.votes ++ [⟨author, checkpoint.commitment, subdag⟩]
    if Reaches committee quorum votes checkpoint.commitment then
      (some (certify votes checkpoint, minted.timings),
        { minted with votes, certificate := some (certify votes checkpoint) })
    else (none, { minted with votes })

end MintedCheckpoint

structure ReferenceCertifier where
  committee : Committee
  quorum : UInt64
  minted : List MintedCheckpoint

namespace ReferenceCertifier

def new (committee : Committee) (quorum : UInt64) : ReferenceCertifier := ⟨committee, quorum, []⟩

def push (reference : ReferenceCertifier) (anchor : BlockReference) (commitment : Digest)
    (timings : CheckpointTimings) : ReferenceCertifier :=
  { reference with minted := reference.minted ++ [⟨⟨anchor, commitment⟩, timings, [], none⟩] }

def scan (committee : Committee) (quorum : UInt64) (subdag : BlockReference) (author : Authority)
    (checkpoint : Checkpoint) : List MintedCheckpoint → Option Formed × List MintedCheckpoint
  | [] => (none, [])
  | minted :: rest =>
      if minted.anchor = checkpoint.anchor then
        let (formed, minted) := minted.vote committee quorum subdag author checkpoint
        (formed, minted :: rest)
      else
        let (formed, rest) := scan committee quorum subdag author checkpoint rest
        (formed, minted :: rest)

def record (reference : ReferenceCertifier) (subdag : BlockReference) (author : Authority)
    (checkpoint : Checkpoint) : Option Formed × ReferenceCertifier :=
  let (formed, minted) :=
    scan reference.committee reference.quorum subdag author checkpoint reference.minted
  (formed, { reference with minted })

/-- Everything after the longest certified prefix. -/
def pending (reference : ReferenceCertifier) : List Checkpoint :=
  (reference.minted.dropWhile MintedCheckpoint.certified).map MintedCheckpoint.localCheckpoint

/-- The certificate of the last element of the longest certified prefix. -/
def highest (minted : List MintedCheckpoint) : Option CertifiedCheckpoint :=
  (minted.takeWhile MintedCheckpoint.certified).getLast? >>= MintedCheckpoint.certificate

def highestCertified (reference : ReferenceCertifier) : Option CertifiedCheckpoint :=
  highest reference.minted

def step (reference : ReferenceCertifier) :
    CertifierCall → Except Panic (Option Formed × ReferenceCertifier)
  | .push anchor commitment timings => .ok (none, reference.push anchor commitment timings)
  | .record subdag author checkpoint => .ok (reference.record subdag author checkpoint)

def call (reference : ReferenceCertifier) (call : CertifierCall) :
    Except Panic (Option CheckpointTimings × ReferenceCertifier) :=
  (fun result => (result.1.map Prod.snd, result.2)) <$> reference.step call

theorem run_call {reference : ReferenceCertifier} {calls : List CertifierCall} :
    run call reference calls =
      (fun result => (result.1.map (Option.map Prod.snd), result.2)) <$>
        run step reference calls :=
  run_mapOutput _

end ReferenceCertifier

/-! ## The linear scan -/

section

variable {committee : Committee} {quorum : UInt64} {subdag : BlockReference} {author : Authority}
  {checkpoint : Checkpoint} {front back : List MintedCheckpoint} {minted : MintedCheckpoint}

open ReferenceCertifier

theorem scan_unknown (unknown : ∀ minted ∈ front, minted.anchor ≠ checkpoint.anchor) :
    scan committee quorum subdag author checkpoint front = (none, front) := by
  induction front with
  | nil => rfl
  | cons first front ih =>
      rw [scan, if_neg (unknown first (by simp)), ih (fun later member => unknown later (by simp [member]))]

theorem scan_found (unknown : ∀ minted ∈ front, minted.anchor ≠ checkpoint.anchor)
    (found : minted.anchor = checkpoint.anchor) :
    scan committee quorum subdag author checkpoint (front ++ minted :: back) =
      ((minted.vote committee quorum subdag author checkpoint).1,
        front ++ (minted.vote committee quorum subdag author checkpoint).2 :: back) := by
  induction front with
  | nil => rw [List.nil_append, scan, if_pos found, List.nil_append]
  | cons first front ih =>
      rw [List.cons_append, scan, if_neg (unknown first (by simp)),
        ih (fun later member => unknown later (by simp [member])), List.cons_append]

theorem vote_ignored (ignored : minted.certified ∨ author ∈ minted.votes.map Vote.author) :
    minted.vote committee quorum subdag author checkpoint = (none, minted) :=
  if_pos ignored

theorem vote_counted (uncertified : minted.certified = false)
    (fresh : author ∉ minted.votes.map Vote.author) :
    minted.vote committee quorum subdag author checkpoint =
      if MintedCheckpoint.Reaches committee quorum
          (minted.votes ++ [⟨author, checkpoint.commitment, subdag⟩]) checkpoint.commitment then
        (some (MintedCheckpoint.certify (minted.votes ++ [⟨author, checkpoint.commitment, subdag⟩])
            checkpoint, minted.timings),
          { minted with
            votes := minted.votes ++ [⟨author, checkpoint.commitment, subdag⟩]
            certificate := some (MintedCheckpoint.certify
              (minted.votes ++ [⟨author, checkpoint.commitment, subdag⟩]) checkpoint) })
      else (none, { minted with
        votes := minted.votes ++ [⟨author, checkpoint.commitment, subdag⟩] }) :=
  if_neg (by simp [uncertified, fresh])

theorem vote_uncertified (uncertified : minted.certified = false)
    (nothing : (minted.vote committee quorum subdag author checkpoint).1 = none) :
    (minted.vote committee quorum subdag author checkpoint).2.certified = false := by
  unfold MintedCheckpoint.vote at nothing ⊢
  split
  · exact uncertified
  · rename_i counted
    rw [if_neg counted] at nothing
    dsimp only at nothing ⊢
    split
    · rename_i quorate
      rw [if_pos quorate] at nothing
      cases nothing
    · exact uncertified

theorem vote_keeps :
    (minted.vote committee quorum subdag author checkpoint).2.localCheckpoint =
        minted.localCheckpoint ∧
      (minted.vote committee quorum subdag author checkpoint).2.timings = minted.timings := by
  unfold MintedCheckpoint.vote
  split
  · exact ⟨rfl, rfl⟩
  · dsimp only
    split <;> exact ⟨rfl, rfl⟩

end

/-! ## The votes of a checkpoint -/

/-- The counted votes have distinct authors, all of them in the committee, and a
certificate is one for this checkpoint's anchor. -/
structure Tallied (committee : Committee) (minted : MintedCheckpoint) : Prop where
  distinct : (minted.votes.map Vote.author).Nodup
  members : ∀ vote ∈ minted.votes, vote.author ∈ committee.members
  certificate : ∀ certificate ∈ minted.certificate, certificate.checkpoint.anchor = minted.anchor

section

variable {committee : Committee} {votes : List Vote} {vote : Vote} {commitment : Digest}

@[simp] theorem supporters_nil : supporters [] commitment = [] := rfl

theorem supporters_concat :
    supporters (votes ++ [vote]) commitment =
      if vote.commitment = commitment then supporters votes commitment ++ [vote]
      else supporters votes commitment := by
  unfold supporters
  rw [List.filter_append]
  split
  · rename_i same
    simp [same]
  · rename_i different
    simp [different]

theorem supporters_sublist : (supporters votes commitment).Sublist votes := List.filter_sublist

theorem mem_supporters : vote ∈ supporters votes commitment ↔
    vote ∈ votes ∧ vote.commitment = commitment := by
  simp [supporters]

theorem stakeOf_supporters_lt (commitment : Digest) (distinct : (votes.map Vote.author).Nodup)
    (members : ∀ vote ∈ votes, vote.author ∈ committee.members) :
    committee.stakeOf ((supporters votes commitment).map Vote.author) < 2 ^ 64 := by
  refine committee.stakeOf_lt (distinct.sublist (supporters_sublist.map _)) ?_
  intro author member
  obtain ⟨vote, supports, rfl⟩ := List.mem_map.mp member
  exact members vote (mem_supporters.mp supports).1

theorem Tallied.concat {minted : MintedCheckpoint} (tallied : Tallied committee minted) (vote : Vote)
    (member : vote.author ∈ committee.members) (fresh : vote.author ∉ minted.votes.map Vote.author) :
    ((minted.votes ++ [vote]).map Vote.author).Nodup ∧
      ∀ counted ∈ minted.votes ++ [vote], counted.author ∈ committee.members := by
  constructor
  · rw [List.map_append, List.nodup_append]
    refine ⟨tallied.distinct, by simp, ?_⟩
    intro earlier voted later same equal
    rw [List.map_singleton, List.mem_singleton] at same
    subst same equal
    exact fresh voted
  · intro counted listed
    rcases List.mem_append.mp listed with earlier | last
    · exact tallied.members counted earlier
    · rw [List.mem_singleton.mp last]
      exact member

theorem vote_tallied {minted : MintedCheckpoint} {quorum : UInt64} {subdag : BlockReference}
    {author : Authority} {checkpoint : Checkpoint} (tallied : Tallied committee minted)
    (member : author ∈ committee.members) (found : minted.anchor = checkpoint.anchor) :
    Tallied committee (minted.vote committee quorum subdag author checkpoint).2 := by
  unfold MintedCheckpoint.vote
  split
  · exact tallied
  · rename_i counted
    obtain ⟨distinct, members⟩ := tallied.concat ⟨author, checkpoint.commitment, subdag⟩ member
       (fun voted => counted (.inr voted))
    dsimp only
    split
    · refine ⟨distinct, members, fun certificate formed => ?_⟩
      cases formed
      exact found.symm
    · exact ⟨distinct, members, tallied.certificate⟩

end

/-! ## The certified prefix -/

namespace ReferenceCertifier

variable {settled rest : List MintedCheckpoint} {minted : MintedCheckpoint}

theorem highest_append_uncertified (certified : ∀ minted ∈ settled, minted.certified = true)
    (stops : minted.certified = false) : highest (settled ++ minted :: rest) = highest settled := by
  have prefix_eq : (settled ++ minted :: rest).takeWhile MintedCheckpoint.certified = settled := by
    rw [List.takeWhile_append_of_pos certified, List.takeWhile_cons_of_neg (by simp [stops]),
      List.append_nil]
  have whole : settled.takeWhile MintedCheckpoint.certified = settled :=
    List.takeWhile_eq_self_iff.mpr certified
  rw [highest, highest, prefix_eq, whole]

theorem highest_concat_certified (certified : ∀ minted ∈ settled, minted.certified = true)
    (last : minted.certified = true) : highest (settled ++ [minted]) = minted.certificate := by
  rw [highest, List.takeWhile_append_of_pos certified, List.takeWhile_cons_of_pos last,
    List.takeWhile_nil, List.getLast?_concat]
  rfl

end ReferenceCertifier

/-! ## Admissible calls -/

/-- What the commit stream promises of a list of anchors. -/
structure Admissible (anchors : List BlockReference) : Prop where
  distinct : anchors.Nodup
  ordered : anchors.Pairwise fun earlier later => Dag.round earlier ≤ Dag.round later

theorem Admissible.sublist {anchors fewer : List BlockReference} (admissible : Admissible anchors)
    (kept : fewer.Sublist anchors) : Admissible fewer :=
  ⟨admissible.distinct.sublist kept, admissible.ordered.sublist kept⟩

theorem Admissible.left {anchors more : List BlockReference} (admissible : Admissible (anchors ++ more)) :
    Admissible anchors :=
  admissible.sublist (List.sublist_append_left anchors more)

/-- Anchors are distinct, their rounds do not decrease, and authors are members. -/
structure AdmissibleCalls (committee : Committee) (minted : List BlockReference)
    (calls : List CertifierCall) : Prop where
  anchors : Admissible (minted ++ calls.filterMap CertifierCall.pushed)
  authors : ∀ author ∈ calls.filterMap CertifierCall.voter, author ∈ committee.members

structure ReferenceCertifier.WellFormed (reference : ReferenceCertifier) : Prop where
  anchors : Admissible (reference.minted.map MintedCheckpoint.anchor)
  tallied : ∀ minted ∈ reference.minted, Tallied reference.committee minted

theorem ReferenceCertifier.new_wellFormed (committee : Committee) (quorum : UInt64) :
    (new committee quorum).WellFormed where
  anchors := ⟨.nil, .nil⟩
  tallied _ listed := by cases listed

section

variable {reference : ReferenceCertifier} {subdag : BlockReference} {author : Authority}
  {checkpoint : Checkpoint} {anchor : BlockReference} {commitment : Digest}
  {timings : CheckpointTimings}

theorem scan_cases (committee : Committee) (quorum : UInt64) (subdag : BlockReference)
    (author : Authority) (checkpoint : Checkpoint) (all : List MintedCheckpoint) :
    ((∀ minted ∈ all, minted.anchor ≠ checkpoint.anchor) ∧
      ReferenceCertifier.scan committee quorum subdag author checkpoint all = (none, all)) ∨
    ∃ front minted back, all = front ++ minted :: back ∧
      (∀ other ∈ front, other.anchor ≠ checkpoint.anchor) ∧ minted.anchor = checkpoint.anchor ∧
      ReferenceCertifier.scan committee quorum subdag author checkpoint all =
        ((minted.vote committee quorum subdag author checkpoint).1,
          front ++ (minted.vote committee quorum subdag author checkpoint).2 :: back) := by
  induction all with
  | nil => exact .inl ⟨by simp, rfl⟩
  | cons first all ih =>
      by_cases found : first.anchor = checkpoint.anchor
      · have none : ∀ other ∈ ([] : List MintedCheckpoint), other.anchor ≠ checkpoint.anchor := by simp
        exact .inr ⟨[], first, all, rfl, none, found, scan_found none found⟩
      · rcases ih with ⟨unknown, -⟩ | ⟨front, minted, back, rfl, unknown, found', -⟩
        · have none : ∀ minted ∈ first :: all, minted.anchor ≠ checkpoint.anchor := by
            simpa [found] using unknown
          exact .inl ⟨none, scan_unknown none⟩
        · have none : ∀ other ∈ first :: front, other.anchor ≠ checkpoint.anchor := by
            simpa [found] using unknown
          exact .inr ⟨first :: front, minted, back, rfl, none, found', scan_found none found'⟩

theorem record_cases (reference : ReferenceCertifier) (subdag : BlockReference) (author : Authority)
    (checkpoint : Checkpoint) :
    ((∀ minted ∈ reference.minted, minted.anchor ≠ checkpoint.anchor) ∧
      reference.record subdag author checkpoint = (none, reference)) ∨
    ∃ front minted back, reference.minted = front ++ minted :: back ∧
      (∀ other ∈ front, other.anchor ≠ checkpoint.anchor) ∧ minted.anchor = checkpoint.anchor ∧
      reference.record subdag author checkpoint =
        ((minted.vote reference.committee reference.quorum subdag author checkpoint).1,
          { reference with minted := front ++
            (minted.vote reference.committee reference.quorum subdag author checkpoint).2 :: back }) := by
  unfold ReferenceCertifier.record
  rcases scan_cases reference.committee reference.quorum subdag author checkpoint
    reference.minted with ⟨unknown, same⟩ | ⟨front, minted, back, split, unknown, found, same⟩
  · rw [same]
    exact .inl ⟨unknown, rfl⟩
  · rw [same]
    exact .inr ⟨front, minted, back, split, unknown, found, rfl⟩

theorem record_anchors :
    (reference.record subdag author checkpoint).2.minted.map MintedCheckpoint.anchor =
      reference.minted.map MintedCheckpoint.anchor := by
  rcases record_cases reference subdag author checkpoint with
    ⟨-, same⟩ | ⟨front, minted, back, split, -, -, same⟩
  · rw [same]
  · rw [same]
    simp [split, MintedCheckpoint.anchor, vote_keeps.1]

theorem record_wellFormed (wellFormed : reference.WellFormed)
    (member : author ∈ reference.committee.members) :
    (reference.record subdag author checkpoint).2.WellFormed where
  anchors := by
    rw [record_anchors]
    exact wellFormed.anchors
  tallied := by
    have tallied := wellFormed.tallied
    rcases record_cases reference subdag author checkpoint with
      ⟨-, same⟩ | ⟨front, minted, back, split, -, found, same⟩
    · rw [same]
      exact tallied
    · rw [same]
      rw [split] at tallied
      intro other listed
      rcases List.mem_append.mp listed with listed | listed
      · exact tallied other (by simp [listed])
      · rcases List.mem_cons.mp listed with rfl | listed
        · exact vote_tallied (tallied minted (by simp)) member found
        · exact tallied other (by simp [listed])

theorem push_wellFormed (wellFormed : reference.WellFormed)
    (anchors : Admissible (reference.minted.map MintedCheckpoint.anchor ++ [anchor])) :
    (reference.push anchor commitment timings).WellFormed where
  anchors := by
    rw [ReferenceCertifier.push, List.map_append]
    exact anchors
  tallied := by
    intro minted listed
    rcases List.mem_append.mp listed with listed | listed
    · exact wellFormed.tallied minted listed
    · rw [List.mem_singleton.mp listed]
      exact ⟨by simp, by simp, by simp⟩

end

end

end BlockchainValidator
