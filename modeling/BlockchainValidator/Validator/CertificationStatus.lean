import BlockchainValidator.Execution.Commitment
import BlockchainValidator.Validator.Stream

/-! # What equal commitments say about the pending window

`wait_for_certified` compares the highest certified commitment with the store's.
Commitments change with every object written, so they tell a certified stream from
one with pending checkpoints unless what is pending wrote nothing.
-/

namespace BlockchainValidator

open Execution Run HashChain

section

variable [Dag]

namespace ExecutionState

/-- The checkpoints minted, each with what its sub-dag wrote. -/
def minting (steps : List (SubdagOutcome × List Object)) : List (Checkpoint × List Object) :=
  steps.filterMap fun step => step.1.minted.map (·, step.2)

/-- The objects written by the sub-dags whose checkpoints are pending. -/
def pendingWrites (state : ExecutionState) (steps : List (SubdagOutcome × List Object)) :
    List Object :=
  ((minting steps).drop ((minting steps).length - state.certifier.pending.length)).flatMap Prod.snd

/-- Equal commitments mean that every minted checkpoint is certified. -/
def StatusExact (state : ExecutionState) : Prop :=
  state.certificationStatus.1 = some state.certificationStatus.2 ↔ state.certifier.pending = []

theorem minting_concat (steps : List (SubdagOutcome × List Object))
    (step : SubdagOutcome × List Object) :
    minting (steps ++ [step]) = minting steps ++ (step.1.minted.map (·, step.2)).toList := by
  rw [minting, List.filterMap_append, minting]
  cases mint : step.1.minted <;> simp [mint]

theorem minting_minted (steps : List (SubdagOutcome × List Object)) :
    mintedBy (steps.map Prod.fst) = (minting steps).map Prod.fst := by
  rw [mintedBy, minting, List.filterMap_map, List.map_filterMap]
  congr 1
  funext step
  cases mint : step.1.minted <;> simp [mint]

end ExecutionState

variable [Hasher]

/-! ## The commitments along a run -/

/-- A list of minted checkpoints, each with the objects that its sub-dag wrote,
and the commitment of the store after them. -/
structure Ledger (minted : List (Checkpoint × List Object)) (commitment : Digest) : Prop where
  at_mint : ∀ front entry back, minted = front ++ entry :: back →
    entry.1.commitment = rolling Hasher.finalize InMemoryStore.preimage .default
      ((front ++ [entry]).flatMap Prod.snd)
  store : commitment = rolling Hasher.finalize InMemoryStore.preimage .default
    (minted.flatMap Prod.snd)

section

variable {minted : List (Checkpoint × List Object)} {commitment : Digest}

theorem Ledger.concat (ledger : Ledger minted commitment) {checkpoint : Checkpoint}
    {objects : List Object}
    (grown : checkpoint.commitment =
      rolling Hasher.finalize InMemoryStore.preimage commitment objects) :
    Ledger (minted ++ [(checkpoint, objects)]) checkpoint.commitment := by
  have last : checkpoint.commitment = rolling Hasher.finalize InMemoryStore.preimage .default
      ((minted ++ [(checkpoint, objects)]).flatMap Prod.snd) := by
    rw [List.flatMap_append, List.flatMap_singleton, rolling_append, ← ledger.store]
    exact grown
  refine ⟨fun front entry back split => ?_, last⟩
  rcases List.eq_nil_or_concat back with rfl | ⟨back, final, rfl⟩
  · obtain ⟨rfl, same⟩ := List.append_inj' split rfl
    cases same
    exact last
  · rw [List.concat_eq_append, ← List.cons_append, ← List.append_assoc] at split
    exact ledger.at_mint front entry back (List.append_inj' split rfl).1

end

namespace ExecutionState

variable [BuildProfile]

/-- `deliver`, returning the objects written beside the outcome. -/
def deliverWriting (state : ExecutionState) (delivery : Delivery) :
    Except Panic ((SubdagOutcome × List Object) × ExecutionState) :=
  (fun result => ((result.1, state.scheduler.writes delivery.subdag.transactions), result.2)) <$>
    state.deliver delivery

/-- Every sub-dag that executes a transaction writes an object. -/
def EveryBatchWrites (state : ExecutionState) (deliveries : List Delivery) : Prop :=
  ∀ before delivery after outcomes middle, deliveries = before ++ delivery :: after →
    run deliver state before = .ok (outcomes, middle) → delivery.subdag.transactions ≠ [] →
      middle.scheduler.writes delivery.subdag.transactions ≠ []

variable {state next last : ExecutionState} {deliveries : List Delivery} {delivery : Delivery}
  {outcome : SubdagOutcome} {steps : List (SubdagOutcome × List Object)}
  {minted : List (Checkpoint × List Object)}

theorem run_deliverWriting (state : ExecutionState) (deliveries : List Delivery) :
    run deliver state deliveries =
      (fun result => (result.1.map Prod.fst, result.2)) <$> run deliverWriting state deliveries := by
  refine run_commute Prod.fst id fun state delivery => ?_
  rw [deliverWriting, id]
  cases state.deliver delivery <;> rfl

theorem delivered_of_writing (ran : run deliverWriting state deliveries = .ok (steps, last)) :
    run deliver state deliveries = .ok (steps.map Prod.fst, last) := by
  rw [run_deliverWriting, ran]
  rfl

theorem deliver_ledger (delivered : state.deliver delivery = .ok (outcome, next))
    (ledger : Ledger minted state.scheduler.store.commitment) :
    Ledger (minted ++ (outcome.minted.map
      (·, state.scheduler.writes delivery.subdag.transactions)).toList)
        next.scheduler.store.commitment := by
  obtain ⟨statuses, scheduler, sum, outputs, certifier, -, executed, -, rfl, rfl⟩ :=
    executeSubdag_ok.mp delivered
  dsimp only
  rw [CommittedSubDag.minted]
  split
  · rename_i nothing
    rw [nothing] at executed
    cases executed
    rw [Option.map_none, Option.toList_none, List.append_nil]
    exact ledger
  · rw [Option.map_some, Option.toList_some]
    exact ledger.concat (InMemoryStore.applyWrites_commitment
      (SequentialScheduler.execute_writes executed))

theorem run_ledger {engine : ExecutionEngine} {committee : Committee} {quorum : UInt64}
    (ran : run deliverWriting (.new engine committee quorum) deliveries = .ok (steps, last)) :
    Ledger (minting steps) last.scheduler.store.commitment := by
  refine run_history (fun _ steps state => Ledger (minting steps) state.scheduler.store.commitment)
    ?_ ?_ ran
  · intro _ steps state delivery step next _ ledger stepped
    obtain ⟨⟨outcome, _⟩, delivered, same⟩ := map_eq_ok.mp stepped
    cases same
    rw [minting_concat]
    exact deliver_ledger delivered ledger
  · exact ⟨fun front entry back split => by simp [minting] at split, rfl⟩

theorem run_writes (ran : run deliverWriting state deliveries = .ok (steps, last))
    (writing : state.EveryBatchWrites deliveries) : ∀ entry ∈ minting steps, entry.2 ≠ [] := by
  refine run_history (fun deliveries steps _ => state.EveryBatchWrites deliveries →
    ∀ entry ∈ minting steps, entry.2 ≠ []) ?_ (fun _ _ listed => by cases listed) ran writing
  intro deliveries steps middle delivery step next front held stepped writing
  obtain ⟨⟨outcome, _⟩, delivered, same⟩ := map_eq_ok.mp stepped
  cases same
  have earlier : state.EveryBatchWrites deliveries := by
    intro before delivery' after outcomes middle split ran
    exact writing before delivery' (after ++ [delivery]) outcomes middle (by simp [split]) ran
  intro entry listed
  rw [minting_concat] at listed
  rcases List.mem_append.mp listed with before | now
  · exact held earlier entry before
  · obtain ⟨checkpoint, mints, rfl⟩ := Option.map_eq_some_iff.mp (Option.mem_toList.mp now)
    obtain ⟨_, _, _, _, _, -, -, -, rfl, -⟩ := executeSubdag_ok.mp delivered
    refine writing deliveries delivery [] _ _ rfl (delivered_of_writing front) fun nothing => ?_
    rw [CommittedSubDag.minted, if_pos nothing] at mints
    cases mints

/-! ## Comparing the commitments -/

/-- The commitments are equal exactly if something is certified and nothing was
written since. -/
theorem status_equal_iff {engine : ExecutionEngine} {committee : Committee} {quorum : UInt64}
    (ran : run deliverWriting (.new engine committee quorum) deliveries = .ok (steps, last))
    (collisionFree : Set.InjOn Hasher.finalize {bytes | bytes ∈
      hashed Hasher.finalize InMemoryStore.preimage .default ((minting steps).flatMap Prod.snd)})
    (nonzero : ∀ bytes ∈
      hashed Hasher.finalize InMemoryStore.preimage .default ((minting steps).flatMap Prod.snd),
        Hasher.finalize bytes ≠ .default)
    (undiverged : ∀ certificate ∈ certifiedBy (steps.map Prod.fst), ∀ entry ∈ minting steps,
      entry.1.anchor = certificate.checkpoint.anchor → certificate.checkpoint = entry.1) :
    last.certificationStatus.1 = some last.certificationStatus.2 ↔
      last.certifier.highestCertified ≠ none ∧ last.pendingWrites steps = [] := by
  have delivered := delivered_of_writing ran
  have ledger := run_ledger ran
  have chronicle := (Chronicle.new committee quorum).run delivered
  obtain ⟨settled, split, left, highest⟩ := chronicle.settled
  rw [List.nil_append, minting_minted] at split
  obtain ⟨front, back, whole, fronts, backs⟩ := List.map_eq_append_iff.mp split
  have pending : last.pendingWrites steps = back.flatMap Prod.snd := by
    have length : last.certifier.pending.length = back.length := by rw [← backs, List.length_map]
    rw [pendingWrites, whole, length, List.length_append, Nat.add_sub_cancel,
      List.drop_left]
  rw [certificationStatus, highest, pending]
  rcases List.eq_nil_or_concat settled with rfl | ⟨earlier, pair, rfl⟩
  · simp
  · rw [List.concat_eq_append] at fronts left ⊢
    obtain ⟨first, entries, rfl, -, final⟩ := List.map_eq_append_iff.mp (fronts.trans List.map_append)
    obtain ⟨entry, rfl, same⟩ := List.map_eq_singleton_iff.mp final
    obtain ⟨known, anchor⟩ := left pair (by simp)
    have local_eq : pair.2.checkpoint = entry.1 := by
      refine undiverged pair.2 known entry (by rw [whole]; simp) ?_
      rw [same, anchor]
    have certified := ledger.at_mint first entry back (by rw [whole, List.append_assoc]; rfl)
    have store := ledger.store
    have written : (minting steps).flatMap Prod.snd =
        (first ++ [entry]).flatMap Prod.snd ++ back.flatMap Prod.snd := by
      rw [whole, List.flatMap_append]
    rw [written] at store collisionFree nonzero
    have extended : _ ↔ back.flatMap Prod.snd = [] :=
      rolling_extended InMemoryStore.preimage_injective collisionFree nonzero
    rw [List.getLast?_concat, Option.map_some, Option.map_some, local_eq, certified, store]
    simpa using extended

theorem run_certified {engine : ExecutionEngine} {committee : Committee} {quorum : UInt64}
    (ran : run deliverWriting (.new engine committee quorum) deliveries = .ok (steps, last))
    (mints : minting steps ≠ []) (nothing : last.certifier.pending = []) :
    last.certifier.highestCertified ≠ none := by
  obtain ⟨settled, split, -, highest⟩ :=
    ((Chronicle.new committee quorum).run (delivered_of_writing ran)).settled
  rw [List.nil_append, minting_minted, nothing, List.append_nil] at split
  rw [highest]
  rcases List.eq_nil_or_concat settled with rfl | ⟨earlier, pair, rfl⟩
  · exact absurd (List.map_eq_nil_iff.mp split) mints
  · simp

/-- The status is exact in every run whose batches all write, and otherwise up to
pending checkpoints whose sub-dags wrote nothing. -/
theorem status_exact_iff {engine : ExecutionEngine} {committee : Committee} {quorum : UInt64}
    (ran : run deliverWriting (.new engine committee quorum) deliveries = .ok (steps, last))
    (collisionFree : Set.InjOn Hasher.finalize {bytes | bytes ∈
      hashed Hasher.finalize InMemoryStore.preimage .default ((minting steps).flatMap Prod.snd)})
    (nonzero : ∀ bytes ∈
      hashed Hasher.finalize InMemoryStore.preimage .default ((minting steps).flatMap Prod.snd),
        Hasher.finalize bytes ≠ .default)
    (undiverged : ∀ certificate ∈ certifiedBy (steps.map Prod.fst), ∀ entry ∈ minting steps,
      entry.1.anchor = certificate.checkpoint.anchor → certificate.checkpoint = entry.1)
    (mints : minting steps ≠ []) :
    (EveryBatchWrites (.new engine committee quorum) deliveries → last.StatusExact) ∧
      (last.StatusExact ↔ (last.certifier.highestCertified ≠ none →
        last.certifier.pending ≠ [] → last.pendingWrites steps ≠ [])) := by
  have equal := status_equal_iff ran collisionFree nonzero undiverged
  have settled : last.certifier.pending = [] →
      last.certificationStatus.1 = some last.certificationStatus.2 := by
    intro nothing
    refine equal.mpr ⟨run_certified ran mints nothing, ?_⟩
    rw [pendingWrites, nothing, List.length_nil, Nat.sub_zero, List.drop_length]
    rfl
  have exact_iff : last.StatusExact ↔ (last.certifier.highestCertified ≠ none →
      last.certifier.pending ≠ [] → last.pendingWrites steps ≠ []) := by
    rw [StatusExact, equal]
    apply Iff.intro
    · intro exact certified pending unwritten
      exact pending (exact.mp ⟨certified, unwritten⟩)
    · intro written
      refine ⟨fun same => ?_, fun nothing => equal.mp (settled nothing)⟩
      by_contra pending
      exact written same.1 pending same.2
  refine ⟨fun writing => exact_iff.mpr fun _ pending unwritten => ?_, exact_iff⟩
  have all := run_writes ran writing
  rw [pendingWrites, List.flatMap_eq_nil_iff] at unwritten
  have some : (minting steps).drop ((minting steps).length - last.certifier.pending.length) ≠ [] := by
    rw [ne_eq, List.drop_eq_nil_iff]
    have minted := List.length_pos_of_ne_nil mints
    have waiting := List.length_pos_of_ne_nil pending
    omega
  obtain ⟨entry, listed⟩ := List.exists_mem_of_ne_nil _ some
  exact all entry (List.mem_of_mem_drop listed) (unwritten entry listed)

end ExecutionState

end

section

attribute [local instance] plainDag checkedBuild blake2b

open ExecutionState InMemoryStore

private def firstObject : Object := ⟨.new 1, ⟨1⟩, FakeExecutor.newObjectContent⟩

private def firstCheckpoint : Checkpoint :=
  ⟨plainReference 0 1, Hasher.finalize (preimage .default firstObject)⟩

private def creating : Delivery :=
  ⟨⟨5⟩, plainReference 0 1, [((0 : UInt64), [Envelope.toBytes
    ⟨7, .execute (FakeTransaction.creation (.new 1))⟩])]⟩

private def attesting : Delivery :=
  ⟨⟨6⟩, plainReference 0 2, [((0 : UInt64), [Envelope.toBytes ⟨8, .attest firstCheckpoint⟩]),
    ((1 : UInt64), [Envelope.toBytes ⟨8, .attest firstCheckpoint⟩])]⟩

private theorem creating_writes :
    EveryBatchWrites (.new fakeExecutor (plainCommittee 2 (by decide)) 2) [creating, attesting] := by
  intro before delivery after outcomes middle split ran executes
  cases before with
  | nil =>
      cases ran
      cases split
      decide +kernel
  | cons first before =>
      obtain ⟨-, rest⟩ := List.cons.inj split
      -- The second sub-dag executes nothing.
      have votes : attesting.subdag.transactions = [] := by decide +kernel
      cases before with
      | nil =>
          cases rest
          exact absurd votes executes
      | cons second before => cases before <;> cases rest

/-- One object is written, and both validators certify the checkpoint. -/
theorem firstWrite_exact :
    ∃ steps last, run deliverWriting (.new fakeExecutor (plainCommittee 2 (by decide)) 2)
        [creating, attesting] = .ok (steps, last) ∧
      certifiedBy (steps.map Prod.fst) = [⟨firstCheckpoint, [plainReference 0 2, plainReference 0 2]⟩] ∧
      last.certifier.pending = [] ∧ last.StatusExact ∧
      last.certificationStatus.1 = some last.certificationStatus.2 := by
  have shown : (fun result : List (SubdagOutcome × List Object) × ExecutionState =>
      (minting result.1, certifiedBy (result.1.map Prod.fst), result.2.certifier.pending)) <$>
        run deliverWriting (.new fakeExecutor (plainCommittee 2 (by decide)) 2) [creating, attesting] =
          .ok ([(firstCheckpoint, [firstObject])],
            [⟨firstCheckpoint, [plainReference 0 2, plainReference 0 2]⟩], []) := by
    decide +kernel
  obtain ⟨⟨steps, last⟩, ran, same⟩ := map_eq_ok.mp shown
  obtain ⟨minted, certified, pending⟩ : minting steps = _ ∧ certifiedBy (steps.map Prod.fst) = _ ∧
      last.certifier.pending = [] := by simpa only [Prod.mk.injEq] using same
  have hashes : hashed Hasher.finalize preimage .default ((minting steps).flatMap Prod.snd) =
      [preimage .default firstObject] := by
    rw [minted]
    rfl
  obtain ⟨exactly, -⟩ := status_exact_iff ran (by
    rw [hashes]
    intro bytes listed other listed' _
    rw [List.mem_singleton.mp listed, List.mem_singleton.mp listed']) (by
    rw [hashes]
    intro bytes listed
    rw [List.mem_singleton.mp listed]
    decide +kernel) (by
    rw [certified, minted]
    intro certificate listed entry listed' _
    rw [List.mem_singleton.mp listed, List.mem_singleton.mp listed']) (by
    rw [minted]
    exact List.cons_ne_nil _ _)
  have exact := exactly creating_writes
  exact ⟨steps, last, ran, certified, pending, exact, exact.mpr pending⟩

/-- Each sub-dag executes an aborting transaction, and the second one also
carries the vote that certifies the first one's checkpoint. -/
private def unwritten : List Delivery :=
  [⟨⟨5⟩, plainReference 0 1, [((0 : UInt64), [plainAbort 7])]⟩,
    ⟨⟨6⟩, plainReference 0 2, [((0 : UInt64), [plainAbort 7, Envelope.toBytes ⟨8, .attest
      ⟨plainReference 0 1, .default⟩⟩])]⟩]

theorem unwritten_not_exact :
    ∃ steps last, run deliverWriting (.new fakeExecutor (plainCommittee 1 (by decide)) 1) unwritten =
        .ok (steps, last) ∧
      hashed Hasher.finalize preimage .default ((minting steps).flatMap Prod.snd) = [] ∧
      (∀ certificate ∈ certifiedBy (steps.map Prod.fst), ∀ entry ∈ minting steps,
        entry.1.anchor = certificate.checkpoint.anchor → certificate.checkpoint = entry.1) ∧
      minting steps ≠ [] ∧ ¬ last.StatusExact := by
  obtain ⟨⟨steps, last⟩, ran⟩ : ∃ result, run deliverWriting
      (.new fakeExecutor (plainCommittee 1 (by decide)) 1) unwritten = .ok result := ⟨_, rfl⟩
  have shown : (fun result : List (SubdagOutcome × List Object) × ExecutionState =>
      (minting result.1, certifiedBy (result.1.map Prod.fst), result.2.certificationStatus,
        result.2.certifier.pending)) <$>
        run deliverWriting (.new fakeExecutor (plainCommittee 1 (by decide)) 1) unwritten =
          .ok ([(⟨plainReference 0 1, .default⟩, []), (⟨plainReference 0 2, .default⟩, [])],
            [⟨⟨plainReference 0 1, .default⟩, [plainReference 0 2]⟩], (some .default, .default),
            [⟨plainReference 0 2, .default⟩]) := rfl
  rw [ran] at shown
  obtain ⟨minted, certified, status, pending⟩ := by simpa only [map_ok, Except.ok.injEq,
    Prod.mk.injEq] using shown
  refine ⟨steps, last, ran, by rw [minted]; rfl, ?_, by rw [minted]; simp, ?_⟩
  · rw [certified, minted]
    decide
  · rw [StatusExact, status, pending]
    simp

end

end BlockchainValidator
