import BlockchainValidator.Checkpoint.History
import BlockchainValidator.Checkpoint.Refinement

/-! # Certificates follow the history of the calls

Each call returns exactly the certificate that the calls so far complete, and
what is held was returned.
-/

namespace BlockchainValidator

open Execution Run MintedCheckpoint

section

variable [Dag]

/-! ## The reference follows the history -/

/-- Each call returned the certificate that it completes. -/
def Explained (committee : Committee) (quorum : UInt64) (calls : List CertifierCall)
    (formed : List (Option Formed)) : Prop :=
  ∀ before call after output, calls = before ++ call :: after →
    formed[before.length]? = some output → ∀ certificate,
      output.map Prod.fst = some certificate ↔ Completes committee quorum before call certificate

/-- The reference after `calls`, which returned `formed`. -/
structure Follows (committee : Committee) (quorum : UInt64) (calls : List CertifierCall)
    (formed : List (Option Formed)) (reference : ReferenceCertifier) : Prop where
  committee_eq : reference.committee = committee
  quorum_eq : reference.quorum = quorum
  anchors : reference.minted.map anchor = calls.filterMap CertifierCall.pushed
  uncertified : ∀ minted ∈ reference.minted, minted.certificate = none →
    minted.votes = counted minted.anchor calls ∧ ¬ Quorate committee quorum minted.anchor calls
  certified : ∀ minted ∈ reference.minted, ∀ certificate, minted.certificate = some certificate →
    certificate.checkpoint.anchor = minted.anchor ∧
      Quorate committee quorum minted.anchor calls ∧ ∃ timings, some (certificate, timings) ∈ formed

section

variable {committee : Committee} {quorum : UInt64} {calls : List CertifierCall}
  {formed : List (Option Formed)} {reference next : ReferenceCertifier} {call : CertifierCall}
  {output : Option Formed} {anchor : BlockReference} {commitment : Digest}
  {timings : CheckpointTimings} {subdag : BlockReference} {author : Authority}
  {checkpoint : Checkpoint}

theorem Explained.concat (explained : Explained committee quorum calls formed)
    (length : formed.length = calls.length)
    (last : ∀ certificate, output.map Prod.fst = some certificate ↔
      Completes committee quorum calls call certificate) :
    Explained committee quorum (calls ++ [call]) (formed ++ [output]) := by
  intro before call' after output' split found
  rcases List.eq_nil_or_concat' after with rfl | ⟨after, final, rfl⟩
  · obtain ⟨rfl, same⟩ := List.append_inj' split rfl
    obtain rfl : call = call' := by simpa using same
    rw [← length, List.getElem?_concat_length] at found
    cases found
    exact last
  · have split' : calls ++ [call] = before ++ call' :: after ++ [final] := by
      rw [split, List.append_assoc, List.cons_append]
    obtain ⟨front, -⟩ := List.append_inj' split' rfl
    have inside : before.length < formed.length := by
      rw [length, front, List.length_append, List.length_cons]
      omega
    rw [List.getElem?_append_left inside] at found
    exact explained before call' after output' front found

theorem nothing_completes
    (idle : ∀ anchor, ¬ Quorate committee quorum anchor calls →
      counted anchor (calls ++ [call]) = counted anchor calls) (certificate : CertifiedCheckpoint) :
    (none : Option Formed).map Prod.fst = some certificate ↔
      Completes committee quorum calls call certificate := by
  apply Iff.intro
  · intro impossible
    cases impossible
  · intro completes
    exact absurd (idle _ completes.short) completes.changes

section

variable {minted : MintedCheckpoint}

theorem Follows.keep_uncertified (follows : Follows committee quorum calls formed reference)
    (listed : minted ∈ reference.minted)
    (idle : ¬ Quorate committee quorum minted.anchor calls →
      counted minted.anchor (calls ++ [call]) = counted minted.anchor calls)
    (uncertified : minted.certificate = none) :
    minted.votes = counted minted.anchor (calls ++ [call]) ∧
      ¬ Quorate committee quorum minted.anchor (calls ++ [call]) := by
  obtain ⟨votes, short⟩ := follows.uncertified minted listed uncertified
  rw [Quorate, idle short]
  exact ⟨votes, short⟩

theorem Follows.keep_certified (follows : Follows committee quorum calls formed reference)
    (listed : minted ∈ reference.minted) {certificate : CertifiedCheckpoint}
    (held : minted.certificate = some certificate) :
    certificate.checkpoint.anchor = minted.anchor ∧
      Quorate committee quorum minted.anchor (calls ++ [call]) ∧
        ∃ timings, some (certificate, timings) ∈ formed ++ [output] := by
  obtain ⟨anchor, quorate, timings, member⟩ := follows.certified minted listed certificate held
  exact ⟨anchor, quorate.concat, timings, List.mem_append_left _ member⟩

end

theorem Follows.new (committee : Committee) (quorum : UInt64) :
    Follows committee quorum [] [] (.new committee quorum) where
  committee_eq := rfl
  quorum_eq := rfl
  anchors := rfl
  uncertified _ listed := by cases listed
  certified _ listed := by cases listed

theorem Follows.push (follows : Follows committee quorum calls formed reference)
    (positive : 0 < quorum) (fresh : anchor ∉ calls.filterMap CertifierCall.pushed) :
    Follows committee quorum (calls ++ [.push anchor commitment timings]) (formed ++ [none])
      (reference.push anchor commitment timings) where
  committee_eq := follows.committee_eq
  quorum_eq := follows.quorum_eq
  anchors := by
    rw [ReferenceCertifier.push, List.map_append, follows.anchors, List.filterMap_append]
    rfl
  uncertified := by
    intro minted listed uncertified
    rcases List.mem_append.mp listed with listed | listed
    · exact follows.keep_uncertified listed (fun _ => counted_other rfl) uncertified
    · rw [List.mem_singleton.mp listed, Quorate, counted_other rfl]
      exact ⟨(counted_unminted fresh).symm, not_quorate_unminted positive fresh⟩
  certified := by
    intro minted listed certificate held
    rcases List.mem_append.mp listed with listed | listed
    · exact follows.keep_certified listed held
    · rw [List.mem_singleton.mp listed] at held
      cases held

theorem Follows.ignored (follows : Follows committee quorum calls formed reference)
    (idle : ¬ Quorate committee quorum checkpoint.anchor calls →
      counted checkpoint.anchor (calls ++ [.record subdag author checkpoint]) =
        counted checkpoint.anchor calls) :
    Follows committee quorum (calls ++ [.record subdag author checkpoint]) (formed ++ [none])
        reference ∧
      ∀ certificate, (none : Option Formed).map Prod.fst = some certificate ↔
        Completes committee quorum calls (.record subdag author checkpoint) certificate := by
  have everywhere (anchor : BlockReference) (short : ¬ Quorate committee quorum anchor calls) :
      counted anchor (calls ++ [.record subdag author checkpoint]) = counted anchor calls := by
    by_cases equal : checkpoint.anchor = anchor
    · subst equal
      exact idle short
    · exact counted_other (if_neg equal)
  refine ⟨⟨follows.committee_eq, follows.quorum_eq, ?_, ?_, ?_⟩, nothing_completes everywhere⟩
  · rw [follows.anchors, List.filterMap_append]
    exact (List.append_nil _).symm
  · intro minted listed uncertified
    exact follows.keep_uncertified listed (everywhere minted.anchor) uncertified
  · intro minted listed certificate held
    exact follows.keep_certified listed held

section

variable {front back : List MintedCheckpoint} {minted : MintedCheckpoint}

theorem Follows.voted (follows : Follows committee quorum calls formed reference)
    (distinct : (reference.minted.map MintedCheckpoint.anchor).Nodup)
    (split : reference.minted = front ++ minted :: back)
    (found : minted.anchor = checkpoint.anchor) {changed : MintedCheckpoint}
    (same : changed.anchor = minted.anchor)
    (uncertified : changed.certificate = none →
      changed.votes = counted minted.anchor (calls ++ [.record subdag author checkpoint]) ∧
        ¬ Quorate committee quorum minted.anchor (calls ++ [.record subdag author checkpoint]))
    (certified : ∀ certificate, changed.certificate = some certificate →
      certificate.checkpoint.anchor = minted.anchor ∧
        Quorate committee quorum minted.anchor (calls ++ [.record subdag author checkpoint]) ∧
          ∃ timings, some (certificate, timings) ∈ formed ++ [output]) :
    Follows committee quorum (calls ++ [.record subdag author checkpoint]) (formed ++ [output])
      { reference with minted := front ++ changed :: back } := by
  have others : ∀ other ∈ front ++ back, other ∈ reference.minted ∧
      voteFor other.anchor (.record subdag author checkpoint) = none := by
    intro other listed
    refine ⟨?_, if_neg fun equal => ?_⟩
    · rw [split]
      rcases List.mem_append.mp listed with listed | listed
      · exact List.mem_append_left _ listed
      · exact List.mem_append_right _ (List.mem_cons_of_mem _ listed)
    · rw [split, List.map_append, List.map_cons, List.nodup_middle, List.nodup_cons] at distinct
      apply distinct.1
      rw [← List.map_append, found, equal]
      exact List.mem_map_of_mem listed
  have cases_ : ∀ other ∈ front ++ changed :: back, other = changed ∨ other ∈ front ++ back := by
    intro other listed
    rcases List.mem_append.mp listed with listed | listed
    · exact .inr (List.mem_append_left _ listed)
    · rcases List.mem_cons.mp listed with rfl | listed
      · exact .inl rfl
      · exact .inr (List.mem_append_right _ listed)
  refine ⟨follows.committee_eq, follows.quorum_eq, ?_, ?_, ?_⟩
  · have anchors := follows.anchors
    rw [split] at anchors
    rw [List.filterMap_append]
    simp only [List.map_append, List.map_cons, same] at anchors ⊢
    rw [anchors]
    exact (List.append_nil _).symm
  · intro other listed open_
    rcases cases_ other listed with rfl | listed
    · rw [same]
      exact uncertified open_
    · obtain ⟨listed, silent⟩ := others other listed
      exact follows.keep_uncertified listed (fun _ => counted_other silent) open_
  · intro other listed certificate held
    rcases cases_ other listed with rfl | listed
    · rw [same]
      exact certified certificate held
    · exact follows.keep_certified (others other listed).1 held

theorem Follows.reached (follows : Follows committee quorum calls formed reference)
    (distinct : (reference.minted.map MintedCheckpoint.anchor).Nodup)
    (split : reference.minted = front ++ minted :: back)
    (found : minted.anchor = checkpoint.anchor) {votes : List Vote}
    (grown : counted checkpoint.anchor (calls ++ [.record subdag author checkpoint]) = votes)
    (quorate : Reaches committee quorum votes checkpoint.commitment) :
    Follows committee quorum (calls ++ [.record subdag author checkpoint])
      (formed ++ [some (certify votes checkpoint, minted.timings)])
      { reference with minted := front ++
        { minted with votes, certificate := some (certify votes checkpoint) } :: back } := by
  refine follows.voted distinct split found rfl ?_ ?_
  · intro uncertified
    cases uncertified
  · intro certificate held
    cases held
    refine ⟨found.symm, ?_, minted.timings, by simp⟩
    rw [found, Quorate, grown]
    exact ⟨checkpoint.commitment, quorate⟩

theorem Follows.missed (follows : Follows committee quorum calls formed reference)
    (distinct : (reference.minted.map MintedCheckpoint.anchor).Nodup)
    (split : reference.minted = front ++ minted :: back)
    (found : minted.anchor = checkpoint.anchor) (uncertified : minted.certificate = none)
    {votes : List Vote}
    (grown : counted checkpoint.anchor (calls ++ [.record subdag author checkpoint]) = votes)
    (short : ¬ Quorate committee quorum checkpoint.anchor
      (calls ++ [.record subdag author checkpoint])) :
    Follows committee quorum (calls ++ [.record subdag author checkpoint]) (formed ++ [none])
      { reference with minted := front ++ { minted with votes } :: back } := by
  refine follows.voted distinct split found rfl ?_ ?_
  · intro _
    rw [found]
    exact ⟨grown.symm, short⟩
  · intro certificate held
    rw [uncertified] at held
    cases held

theorem Follows.counts (follows : Follows committee quorum calls formed reference)
    (wellFormed : reference.WellFormed)
    (split : reference.minted = front ++ minted :: back) (found : minted.anchor = checkpoint.anchor)
    (uncertified : minted.certificate = none) (fresh : author ∉ minted.votes.map Vote.author) :
    Follows committee quorum (calls ++ [.record subdag author checkpoint])
        (formed ++ [(minted.vote committee quorum subdag author checkpoint).1])
        { reference with minted :=
          front ++ (minted.vote committee quorum subdag author checkpoint).2 :: back } ∧
      ∀ certificate, (minted.vote committee quorum subdag author checkpoint).1.map Prod.fst =
          some certificate ↔
        Completes committee quorum calls (.record subdag author checkpoint) certificate := by
  have listed : minted ∈ reference.minted := by simp [split]
  obtain ⟨votes, short⟩ := follows.uncertified minted listed uncertified
  rw [found] at votes short
  have pushed : checkpoint.anchor ∈ calls.filterMap CertifierCall.pushed := by
    rw [← follows.anchors, ← found]
    exact List.mem_map_of_mem listed
  have grown := counted_record calls subdag author checkpoint
  rw [← votes, if_neg (by simp [pushed, fresh])] at grown
  rw [vote_counted (by rw [MintedCheckpoint.certified, uncertified]; rfl) fresh]
  simp only [completes_record, grown]
  split
  · rename_i quorate
    refine ⟨follows.reached wellFormed.anchors.distinct split found grown quorate, ?_⟩
    intro certificate
    simp [short, quorate, eq_comm]
  · rename_i lacking
    have still : ¬ Quorate committee quorum checkpoint.anchor
        (calls ++ [.record subdag author checkpoint]) := by
      intro quorate
      obtain ⟨certificate, completes, -⟩ := quorate.completes short
      exact lacking (grown ▸ (completes_record.mp completes).2.1)
    refine ⟨follows.missed wellFormed.anchors.distinct split found uncertified grown still, ?_⟩
    intro certificate
    simp [lacking]

theorem Follows.record (follows : Follows committee quorum calls formed reference)
    (wellFormed : reference.WellFormed) :
    Follows committee quorum (calls ++ [.record subdag author checkpoint])
        (formed ++ [(reference.record subdag author checkpoint).1])
        (reference.record subdag author checkpoint).2 ∧
      ∀ certificate, (reference.record subdag author checkpoint).1.map Prod.fst = some certificate ↔
        Completes committee quorum calls (.record subdag author checkpoint) certificate := by
  obtain rfl : reference.committee = committee := follows.committee_eq
  obtain rfl : reference.quorum = quorum := follows.quorum_eq
  have grown := counted_record calls subdag author checkpoint
  rcases record_cases reference subdag author checkpoint with
    ⟨unknown, same⟩ | ⟨front, minted, back, split, -, found, same⟩
  · rw [same]
    apply follows.ignored
    intro _
    refine grown.trans (if_pos (.inl ?_))
    rw [← follows.anchors]
    intro member
    obtain ⟨minted, listed, equal⟩ := List.mem_map.mp member
    exact unknown minted listed equal
  · have listed : minted ∈ reference.minted := by simp [split]
    have unchanged : ({ reference with minted := front ++ minted :: back } : ReferenceCertifier) =
        reference := by rw [← split]
    rw [same]
    cases held : minted.certificate with
    | some certificate =>
        -- the history of a certified checkpoint is quorate already
        have certified : minted.certified = true := by
          rw [MintedCheckpoint.certified, held]
          rfl
        rw [vote_ignored (.inl certified), unchanged]
        apply follows.ignored
        intro short
        have quorate := (follows.certified minted listed certificate held).2.1
        rw [found] at quorate
        exact absurd quorate short
    | none =>
        by_cases voted : author ∈ minted.votes.map Vote.author
        · rw [vote_ignored (.inr voted), unchanged]
          apply follows.ignored
          intro _
          have votes := (follows.uncertified minted listed held).1
          rw [votes, found] at voted
          exact grown.trans (if_pos (.inr voted))
        · exact follows.counts wellFormed split found held voted

end

theorem Follows.step (follows : Follows committee quorum calls formed reference)
    (wellFormed : reference.WellFormed) (positive : 0 < quorum)
    (admissible : AdmissibleCalls committee [] (calls ++ [call]))
    (stepped : reference.step call = .ok (output, next)) :
    next.WellFormed ∧ Follows committee quorum (calls ++ [call]) (formed ++ [output]) next ∧
      ∀ certificate, output.map Prod.fst = some certificate ↔
        Completes committee quorum calls call certificate := by
  obtain ⟨anchors, authors⟩ := admissible
  rw [List.nil_append, List.filterMap_append] at anchors
  cases call with
  | push anchor commitment timings =>
      cases stepped
      have fresh : anchor ∉ calls.filterMap CertifierCall.pushed := fun earlier =>
        (List.nodup_append.mp anchors.distinct).2.2 anchor earlier anchor (by
          simp [CertifierCall.pushed]) rfl
      refine ⟨push_wellFormed wellFormed ?_, follows.push positive fresh,
        nothing_completes fun _ _ => counted_other rfl⟩
      rw [follows.anchors]
      exact anchors
  | record subdag author checkpoint =>
      have member : author ∈ reference.committee.members := by
        rw [follows.committee_eq]
        exact authors author (by simp [CertifierCall.voter])
      cases stepped
      exact ⟨record_wellFormed wellFormed member, follows.record wellFormed⟩

theorem AdmissibleCalls.left {minted : List BlockReference} {more : List CertifierCall}
    (admissible : AdmissibleCalls committee minted (calls ++ more)) :
    AdmissibleCalls committee minted calls := by
  obtain ⟨anchors, authors⟩ := admissible
  rw [List.filterMap_append] at anchors authors
  refine ⟨?_, fun author listed => authors author (List.mem_append_left _ listed)⟩
  rw [← List.append_assoc] at anchors
  exact anchors.left

theorem CheckpointCertifier.run_follows (committee : Committee) (quorum : UInt64)
    (calls : List CertifierCall) [BuildProfile] (positive : 0 < quorum)
    (admissible : AdmissibleCalls committee [] calls) :
    ∃ formed reference,
      run CheckpointCertifier.step (.new committee quorum) calls = .ok (formed, ofReference reference) ∧
      Follows committee quorum calls formed reference ∧
      Explained committee quorum calls formed := by
  obtain ⟨formed, reference, ran, ran', -⟩ := run_refines committee quorum calls admissible
  have history := run_history
    (fun calls formed reference => AdmissibleCalls committee [] calls → reference.WellFormed ∧
      Follows committee quorum calls formed reference ∧ Explained committee quorum calls formed)
    (by
      intro calls formed reference call output next front held stepped admissible
      obtain ⟨wellFormed, follows, explained⟩ := held admissible.left
      obtain ⟨wellFormed, followed, last⟩ := follows.step wellFormed positive admissible stepped
      exact ⟨wellFormed, followed, explained.concat (run_length front) last⟩)
    (fun _ => ⟨ReferenceCertifier.new_wellFormed committee quorum,
      .new committee quorum,
      fun before call after _ split => by simp at split⟩) ran'
  obtain ⟨-, follows, explained⟩ := history admissible
  exact ⟨formed, reference, ran, follows, explained⟩

/-! ## Certificates that are held -/

namespace CheckpointCertifier

/-- The certificates that a certifier still holds. -/
def held (certifier : CheckpointCertifier) : List CertifiedCheckpoint :=
  certifier.highestCertified.toList ++ certifier.window.filterMap PendingCheckpoint.certificate

end CheckpointCertifier

theorem ReferenceCertifier.highest_mem {all : List MintedCheckpoint}
    {certificate : CertifiedCheckpoint} (highest : ReferenceCertifier.highest all = some certificate) :
    ∃ minted ∈ all, minted.certificate = some certificate := by
  obtain ⟨minted, last, held⟩ := Option.bind_eq_some_iff.mp highest
  exact ⟨minted, (List.takeWhile_prefix _).subset (List.mem_of_getLast? last), held⟩

theorem Follows.held_formed (follows : Follows committee quorum calls formed reference)
    {certificate : CertifiedCheckpoint}
    (held : certificate ∈ (CheckpointCertifier.ofReference reference).held) :
    ∃ timings, some (certificate, timings) ∈ formed := by
  have stored : ∃ minted ∈ reference.minted, minted.certificate = some certificate := by
    rcases List.mem_append.mp held with top | inside
    · exact ReferenceCertifier.highest_mem (Option.mem_toList.mp top)
    · obtain ⟨entry, listed, same⟩ := List.mem_filterMap.mp inside
      obtain ⟨minted, kept, rfl⟩ := List.mem_map.mp listed
      exact ⟨minted, List.dropWhile_subset _ kept, same⟩
  obtain ⟨minted, listed, same⟩ := stored
  exact (follows.certified minted listed certificate same).2.2

theorem Explained.at {index : Nat} {certificate : CertifiedCheckpoint} {timings : CheckpointTimings}
    (explained : Explained committee quorum calls formed)
    (length : formed.length = calls.length)
    (found : formed[index]? = some (some (certificate, timings))) :
    ∃ call, calls[index]? = some call ∧
      Completes committee quorum (calls.take index) call certificate := by
  have inside : index < calls.length := length ▸ (List.getElem?_eq_some_iff.mp found).1
  have split : calls = calls.take index ++ calls[index] :: calls.drop (index + 1) := by
    rw [List.getElem_cons_drop, List.take_append_drop]
  refine ⟨calls[index], List.getElem?_eq_getElem inside, ?_⟩
  have length_take : (calls.take index).length = index := by
    rw [List.length_take, Nat.min_eq_left (Nat.le_of_lt inside)]
  exact (explained _ _ _ _ split (length_take.symm ▸ found) certificate).mp rfl

theorem Completes.honest {honest : Finset Authority} {certificate : CertifiedCheckpoint}
    (completes : Completes committee quorum calls call certificate)
    (authors : ∀ author ∈ (calls ++ [call]).filterMap CertifierCall.voter, author ∈ committee.members)
    (faulty : ∑ member ∈ committee.members \ honest, (committee.stake member).toNat < quorum.toNat) :
    ∃ subdag, ∃ author ∈ honest, .record subdag author certificate.checkpoint ∈ calls ++ [call] := by
  let votes := counted certificate.checkpoint.anchor (calls ++ [call])
  have recorded (vote : Vote) (supports : vote ∈ supporters votes certificate.checkpoint.commitment) :
      .record vote.deliveredIn vote.author certificate.checkpoint ∈ calls ++ [call] := by
    obtain ⟨member, same⟩ := mem_supporters.mp supports
    have inside := counted_recorded member
    rw [same] at inside
    exact inside
  have distinct : ((supporters votes certificate.checkpoint.commitment).map Vote.author).Nodup :=
    (counted_nodup _ _).sublist (supporters_sublist.map _)
  have members : ∀ voter ∈ (supporters votes certificate.checkpoint.commitment).map Vote.author,
      voter ∈ committee.members := by
    intro voter listed
    obtain ⟨vote, supports, rfl⟩ := List.mem_map.mp listed
    exact authors _ (List.mem_filterMap.mpr ⟨_, recorded vote supports, rfl⟩)
  obtain ⟨voter, listed, honestly⟩ := committee.exists_honest faulty distinct members completes.reached
  obtain ⟨vote, supports, rfl⟩ := List.mem_map.mp listed
  exact ⟨vote.deliveredIn, vote.author, honestly, recorded vote supports⟩

/-- Every certificate held has an honest voter. -/
theorem CheckpointCertifier.held_honest [BuildProfile] {honest : Finset Authority}
    {certifier : CheckpointCertifier} {certificate : CertifiedCheckpoint}
    (admissible : AdmissibleCalls committee [] calls)
    (faulty : ∑ member ∈ committee.members \ honest, (committee.stake member).toNat < quorum.toNat)
    (ran : run CheckpointCertifier.step (.new committee quorum) calls = .ok (formed, certifier))
    (held : certificate ∈ certifier.held) :
    ∃ subdag, ∃ author ∈ honest, .record subdag author certificate.checkpoint ∈ calls := by
  have positive : 0 < quorum := UInt64.lt_iff_toNat_lt.mpr (Nat.zero_lt_of_lt faulty)
  obtain ⟨formed', reference, ran', follows, explained⟩ := run_follows committee quorum calls
    positive admissible
  cases ran.symm.trans ran'
  obtain ⟨timings, member⟩ := follows.held_formed held
  obtain ⟨index, found⟩ := List.mem_iff_getElem?.mp member
  obtain ⟨call, called, completes⟩ := explained.at (run_length ran) found
  obtain ⟨inside, rfl⟩ := List.getElem?_eq_some_iff.mp called
  have front : calls.take index ++ [calls[index]] <+: calls := by
    rw [List.take_concat_get']
    exact List.take_prefix _ _
  have authors : ∀ author ∈ (calls.take index ++ [calls[index]]).filterMap CertifierCall.voter,
      author ∈ committee.members := by
    intro author listed
    apply admissible.authors author
    exact (front.filterMap _).subset listed
  obtain ⟨subdag, author, honestly, recorded⟩ := completes.honest authors faulty
  exact ⟨subdag, author, honestly, front.subset recorded⟩

theorem Explained.once (explained : Explained committee quorum calls formed)
    (length : formed.length = calls.length) {i j : Nat} {first second : Formed}
    (found : formed[i]? = some (some first)) (found' : formed[j]? = some (some second))
    (same : first.1.checkpoint.anchor = second.1.checkpoint.anchor) : i = j := by
  have earlier {i j : Nat} {first second : Formed} (found : formed[i]? = some (some first))
      (found' : formed[j]? = some (some second))
      (same : first.1.checkpoint.anchor = second.1.checkpoint.anchor) : ¬ i < j := by
    intro before
    obtain ⟨call, here, completes⟩ := explained.at length found
    obtain ⟨call', -, completes'⟩ := explained.at length found'
    apply completes'.short
    have front : calls.take j = calls.take i ++ [call] ++ (calls.drop (i + 1)).take (j - (i + 1)) := by
      have next : calls.take i ++ [call] = calls.take (i + 1) := by
        rw [List.take_add_one, here]
        rfl
      rw [next, ← List.take_add, Nat.add_sub_cancel' before]
    rw [front, ← same]
    exact completes.quorate.append
  have forward := earlier found found' same
  have backward := earlier found' found same.symm
  omega

end

theorem Follows.uncertified_window {committee : Committee} {quorum : UInt64}
    {calls : List CertifierCall} {formed : List (Option Formed)} {reference : ReferenceCertifier}
    (follows : Follows committee quorum calls formed reference) {entry : PendingCheckpoint}
    (listed : entry ∈ (CheckpointCertifier.ofReference reference).window)
    (uncertified : entry.certificate = none) :
    ¬ Quorate committee quorum entry.localCheckpoint.anchor calls := by
  obtain ⟨minted, kept, rfl⟩ := List.mem_map.mp listed
  exact (follows.uncertified minted (List.dropWhile_subset _ kept) uncertified).2

namespace CheckpointCertifier

variable [BuildProfile]

/-- What the outputs of `calls` and the certificates held after them are. -/
structure Certifies (committee : Committee) (quorum : UInt64) (calls : List CertifierCall)
    (formed : List (Option Formed)) (certifier : CheckpointCertifier) : Prop where
  exact : ∀ before call after, calls = before ++ call :: after →
    ∃ output, formed[before.length]? = some output ∧ ∀ certificate,
      output.map Prod.fst = some certificate ↔ Completes committee quorum before call certificate
  recorded : ∀ before call after certificate timings, calls = before ++ call :: after →
    formed[before.length]? = some (some (certificate, timings)) →
    ∃ subdag author, call = .record subdag author certificate.checkpoint
  /-- No anchor becomes quorate unnoticed. -/
  complete : ∀ before call after anchor, calls = before ++ call :: after →
    ¬ Quorate committee quorum anchor before → Quorate committee quorum anchor (before ++ [call]) →
    ∃ certificate timings, formed[before.length]? = some (some (certificate, timings)) ∧
      certificate.checkpoint.anchor = anchor
  once : ∀ (i j : Nat) (first second : Formed), formed[i]? = some (some first) →
    formed[j]? = some (some second) →
    first.1.checkpoint.anchor = second.1.checkpoint.anchor → i = j
  held : ∀ certificate ∈ certifier.held, ∃ timings, some (certificate, timings) ∈ formed
  uncertified : ∀ entry ∈ certifier.window, entry.certificate = none →
    ¬ Quorate committee quorum entry.localCheckpoint.anchor calls
  /-- No later call replaces a certificate. -/
  final : ∀ before after earlier middle, calls = before ++ after →
    run step (.new committee quorum) before = .ok (earlier, middle) →
    ∀ certificate ∈ middle.held, ∀ later ∈ certifier.held,
      later.checkpoint.anchor = certificate.checkpoint.anchor → later = certificate

theorem certificates_final (committee : Committee) (quorum : UInt64) (calls : List CertifierCall)
    (positive : 0 < quorum) (admissible : AdmissibleCalls committee [] calls) :
    ∃ formed certifier,
      run step (.new committee quorum) calls = .ok (formed, certifier) ∧
      run call (.new committee quorum) calls = .ok (formed.map (Option.map Prod.snd), certifier) ∧
      Certifies committee quorum calls formed certifier := by
  obtain ⟨formed, reference, ran, follows, explained⟩ :=
    run_follows committee quorum calls positive admissible
  have length := run_length ran
  have found {before : List CertifierCall} {call : CertifierCall} {after : List CertifierCall}
      (split : calls = before ++ call :: after) : ∃ output, formed[before.length]? = some output := by
    have inside : before.length < formed.length := by
      rw [length, split, List.length_append, List.length_cons]
      omega
    exact ⟨_, List.getElem?_eq_getElem inside⟩
  refine ⟨formed, ofReference reference, ran, by rw [run_call, ran]; rfl, {
    exact := ?_, recorded := ?_, complete := ?_, once := fun i j first second => explained.once length,
    held := fun certificate => follows.held_formed, uncertified := fun entry => follows.uncertified_window,
    final := ?_ }⟩
  · intro before call after split
    obtain ⟨output, here⟩ := found split
    exact ⟨output, here, explained before call after output split here⟩
  · intro before call after certificate timings split here
    exact ((explained before call after _ split here certificate).mp rfl).recorded
  · intro before call after anchor split short quorate
    obtain ⟨certificate, completes, same⟩ := quorate.completes short
    obtain ⟨output, here⟩ := found split
    have returned := (explained before call after output split here certificate).mpr completes
    obtain ⟨⟨_, timings⟩, rfl, rfl⟩ := Option.map_eq_some_iff.mp returned
    exact ⟨_, timings, here, same⟩
  · intro before after earlier middle split front certificate held later held' same
    subst split
    obtain ⟨earlier', reference', ran', follows', -⟩ :=
      run_follows committee quorum before positive admissible.left
    cases front.symm.trans ran'
    obtain ⟨first, middle', rest, last, front', -, whole⟩ := run_append_ok.mp ran
    obtain ⟨rfl, -⟩ := Prod.mk.inj (Except.ok.inj (front.symm.trans front'))
    obtain ⟨rfl, -⟩ := Prod.mk.inj whole
    obtain ⟨timings, member⟩ := follows'.held_formed held
    obtain ⟨timings', member'⟩ := follows.held_formed held'
    obtain ⟨i, here⟩ := List.mem_iff_getElem?.mp (List.mem_append_left rest member)
    obtain ⟨j, here'⟩ := List.mem_iff_getElem?.mp member'
    obtain rfl := explained.once length here' here same
    rw [here] at here'
    cases here'
    rfl

end CheckpointCertifier

end

section

attribute [local instance] plainDag checkedBuild

open CheckpointCertifier

/-- An author changes commitment, a second one completes the first commitment
and a third one votes late. -/
private def changedMind : List CertifierCall :=
  [.push (plainReference 0 1) .default ⟨.zero, 0⟩,
    .record (plainReference 0 2) (0 : UInt64) ⟨plainReference 0 1, .default⟩,
    .record (plainReference 0 2) (0 : UInt64) ⟨plainReference 0 1, ⟨.replicate 32 1⟩⟩,
    .record (plainReference 0 3) (1 : UInt64) ⟨plainReference 0 1, .default⟩,
    .record (plainReference 0 3) (2 : UInt64) ⟨plainReference 0 1, ⟨.replicate 32 1⟩⟩]

theorem changedMind_final :
    ∃ formed certifier,
      run step (.new (plainCommittee 3 (by decide)) 2) changedMind = .ok (formed, certifier) ∧
      run call (.new (plainCommittee 3 (by decide)) 2) changedMind =
        .ok (formed.map (Option.map Prod.snd), certifier) ∧
      Certifies (plainCommittee 3 (by decide)) 2 changedMind formed certifier :=
  certificates_final (plainCommittee 3 (by decide)) 2 changedMind (by decide)
    ⟨⟨by decide, by decide⟩, by decide⟩

end

end BlockchainValidator
