import BlockchainValidator.Execution.Commitment
import BlockchainValidator.Validator.Alarms

/-! # Divergence

A validator may execute the stream of a network with an engine that is not the
network's.  It logs so at a certificate exactly if the two engines have written
different objects up to the certificate's cut of the ledger.
-/

namespace BlockchainValidator

open Execution Run HashChain

section

variable [Dag]

/-! ## Commitments at a cut -/

section

variable [Hasher] {engine other : ExecutionEngine} {stream : List CommittedSubDag} {cut cut' : Nat}
  {checkpoint checkpoint' : Checkpoint}

/-- The objects that executing `transactions` from the empty store writes. -/
def Execution.ExecutionEngine.writesOf (engine : ExecutionEngine) (transactions : List Transaction) : List Object :=
  (SequentialScheduler.new engine).writes transactions

/-- What is hashed while any first part of `transactions` is executed. -/
def Execution.ExecutionEngine.hashedOn (engine : ExecutionEngine) (transactions : List Transaction) :
    Set (List UInt8) :=
  {bytes | ∃ cut, bytes ∈ hashed Hasher.finalize InMemoryStore.preimage .default
    (engine.writesOf (transactions.take cut))}

theorem CheckpointAt.commitment_eq (found : CheckpointAt engine stream cut checkpoint) :
    checkpoint.commitment = rolling Hasher.finalize InMemoryStore.preimage .default
      (engine.writesOf ((ledger stream).take cut)) := by
  obtain ⟨before, subdag, after, statuses, scheduler, rfl, -, rfl, executed, same⟩ := found
  have front : before ++ [subdag] <+: before ++ subdag :: after := ⟨after, (List.append_cons ..).symm⟩
  rw [same, ledger_front front]
  exact InMemoryStore.applyWrites_commitment (SequentialScheduler.execute_writes executed)

omit [Hasher] in
theorem anchor_position (distinct : (stream.map CommittedSubDag.anchor).Nodup)
    {before after before' after' : List CommittedSubDag} {subdag subdag' : CommittedSubDag}
    (split : stream = before ++ subdag :: after) (split' : stream = before' ++ subdag' :: after')
    (same : subdag.anchor = subdag'.anchor) : before = before' ∧ subdag = subdag' := by
  have found : (stream.map CommittedSubDag.anchor)[before.length]? = some subdag.anchor := by
    rw [split]
    simp
  have found' : (stream.map CommittedSubDag.anchor)[before'.length]? = some subdag.anchor := by
    rw [split', same]
    simp
  have inside := (List.getElem?_eq_some_iff.mp found).1
  have index := (List.getElem?_inj inside distinct).mp (found.trans found'.symm)
  obtain ⟨fronts, rest⟩ := List.append_inj (split.symm.trans split') index
  exact ⟨fronts, (List.cons.inj rest).1⟩

/-- An anchor has one cut, whatever executes the stream. -/
theorem CheckpointAt.cut_eq (distinct : (stream.map CommittedSubDag.anchor).Nodup)
    (found : CheckpointAt engine stream cut checkpoint)
    (found' : CheckpointAt other stream cut' checkpoint')
    (same : checkpoint.anchor = checkpoint'.anchor) : cut = cut' := by
  obtain ⟨before, subdag, after, _, _, split, mints, rfl, -⟩ := found
  obtain ⟨before', subdag', after', _, _, split', mints', rfl, -⟩ := found'
  obtain ⟨rfl, rfl⟩ := anchor_position distinct split split' (by rw [mints.1, mints'.1, same])
  rfl

/-- Without collisions two engines commit alike at a cut if they wrote alike. -/
theorem commitments_differ_iff (found : CheckpointAt engine stream cut checkpoint)
    (found' : CheckpointAt other stream cut checkpoint')
    (collisionFree : Set.InjOn Hasher.finalize
      (engine.hashedOn (ledger stream) ∪ other.hashedOn (ledger stream)))
    (nonzero : ∀ bytes ∈ engine.hashedOn (ledger stream) ∪ other.hashedOn (ledger stream),
      Hasher.finalize bytes ≠ .default) :
    checkpoint.commitment ≠ checkpoint'.commitment ↔
      engine.writesOf ((ledger stream).take cut) ≠ other.writesOf ((ledger stream).take cut) := by
  rw [found.commitment_eq, found'.commitment_eq, not_iff_not]
  have inside : ∀ bytes,
      bytes ∈ hashed Hasher.finalize InMemoryStore.preimage .default
          (engine.writesOf ((ledger stream).take cut)) ∨
        bytes ∈ hashed Hasher.finalize InMemoryStore.preimage .default
          (other.writesOf ((ledger stream).take cut)) →
      bytes ∈ engine.hashedOn (ledger stream) ∪ other.hashedOn (ledger stream) :=
    fun bytes hashed => hashed.imp (fun listed => ⟨cut, listed⟩) fun listed => ⟨cut, listed⟩
  apply Iff.intro
  · exact rolling_injective InMemoryStore.preimage_injective (collisionFree.mono inside)
      fun bytes hashed => nonzero bytes (inside bytes hashed)
  · intro same
    rw [same]

end

namespace Network

variable [Hasher] [BuildProfile] {config : ValidatorConfig} {honest : Finset Authority}
  {network : Network} {engine : ExecutionEngine}

/-- A validator is told that it diverged at a certificate, and exactly if it has
written other objects than the network up to the certificate's cut. -/
theorem divergence_exact
    (faulty : ∑ member ∈ config.committee.members \ honest, (config.committee.stake member).toNat <
      config.quorum.toNat)
    (reachable : Reachable config honest network) {deliveries : List Delivery}
    {reports : List (SubdagOutcome × List (Option Alarm))} {last : ExecutionState}
    (received : deliveries.map Delivery.subdag <+: network.stream)
    (ran : Run.run ExecutionState.deliverLogged (.new engine config.committee config.quorum) deliveries =
      .ok (reports, last))
    (collisionFree : Set.InjOn Hasher.finalize
      (engine.hashedOn (ledger network.stream) ∪ config.engine.hashedOn (ledger network.stream)))
    (nonzero : ∀ bytes ∈
      engine.hashedOn (ledger network.stream) ∪ config.engine.hashedOn (ledger network.stream),
        Hasher.finalize bytes ≠ .default) :
    ∀ before delivery after earlier vote later, deliveries = before ++ delivery :: after →
      delivery.subdag.votes = earlier ++ vote :: later →
      ∃ outcome alarms formed logged, reports[before.length]? = some (outcome, alarms) ∧
        outcome.formed[earlier.length]? = some formed ∧ alarms[earlier.length]? = some logged ∧
        (formed = none → logged ≠ some .divergence) ∧
        ∀ certificate timings, formed = some (certificate, timings) →
          ∃ cut, CheckpointAt config.engine network.stream cut certificate.checkpoint ∧
            (logged = some .divergence ↔ engine.writesOf ((ledger network.stream).take cut) ≠
              config.engine.writesOf ((ledger network.stream).take cut)) := by
  intro before delivery after earlier vote later split votes
  have sound := reachable.sound
  have distinct := sound.admissible.anchors.distinct
  have positive : 0 < config.quorum := UInt64.lt_iff_toNat_lt.mpr (Nat.zero_lt_of_lt faulty)
  obtain ⟨outcome, alarms, formed, logged, calls, reported, forms, alarmed, precedes, admissible,
    completing, logs⟩ :=
      ExecutionState.vote_logged positive (sound.admissible.front received) ran split votes
  obtain ⟨rest, split', front⟩ := Delivery.received_split received split
  refine ⟨outcome, alarms, formed, logged, reported, forms, alarmed, fun nothing diverges => ?_,
    fun certificate timings formed' => ?_⟩
  · obtain ⟨⟨certificate, completes⟩, -⟩ := (logs _).mp diverges
    have certified := (completing certificate).mpr completes
    rw [nothing] at certified
    cases certified
  · have completes := (completing certificate).mp (by rw [formed']; rfl)
    obtain ⟨cut, found⟩ := reachable.completed_cut faulty split' votes precedes admissible completes
    refine ⟨cut, found, ?_⟩
    obtain ⟨_, _, recorded⟩ := completes.recorded
    obtain ⟨-, -, same⟩ := CertifierCall.record.inj recorded
    rw [← same] at found
    -- Every checkpoint that was minted here for the anchor is at the same cut.
    have cuts (own : Checkpoint) (minted : own ∈ calls.filterMap CertifierCall.minted)
        (anchor : own.anchor = vote.2.anchor) : CheckpointAt engine network.stream cut own := by
      obtain ⟨cut', found'⟩ := CheckpointAt.later front ((precedes.minted own).mp minted)
      obtain rfl := found'.cut_eq distinct found anchor
      exact found'
    have pushed := CheckpointCertifier.completes_pushed completes
    rw [← minted_pushed] at pushed
    obtain ⟨own, minted, anchor⟩ := List.mem_map.mp pushed
    rw [← commitments_differ_iff (cuts own minted anchor) found collisionFree nonzero, logs]
    apply Iff.intro
    · intro warranted
      obtain ⟨-, other, minted', anchor', differs⟩ := warranted
      rw [(cuts own minted anchor).commitment_eq]
      rw [(cuts other minted' anchor').commitment_eq] at differs
      exact differs
    · intro differs
      exact ⟨⟨certificate, completes⟩, own, minted, anchor, differs⟩

end Network

end

section

attribute [local instance] plainDag checkedBuild blake2b

open InMemoryStore

private def abortCall : Transaction := ⟨FakeFunctionId.abortId, .singleton (.new 1, .writeOnly), .nil⟩

private def rogueObject : Object := ⟨.new 1, ⟨1⟩, []⟩

/-- One object is written by one of the engines, and none by the other. -/
private theorem strayed_hashes {bytes : List UInt8}
    (hashes : bytes ∈ rogueExecutor.hashedOn (ledger [trioExecuting, trioVoting, straying]) ∪
      trioConfig.engine.hashedOn (ledger [trioExecuting, trioVoting, straying])) :
    bytes = preimage .default rogueObject := by
  have single : ledger [trioExecuting, trioVoting, straying] = [abortCall] := rfl
  rw [single] at hashes
  have cuts (cut : Nat) : [abortCall].take cut = [] ∨ [abortCall].take cut = [abortCall] := by
    cases cut <;> simp
  rcases hashes with ⟨cut, listed⟩ | ⟨cut, listed⟩
  · rcases cuts cut with empty | whole
    · rw [empty] at listed
      cases listed
    · have wrote : rogueExecutor.writesOf [abortCall] = [rogueObject] := rfl
      rw [whole, wrote] at listed
      exact List.mem_singleton.mp listed
  · have nothing : trioConfig.engine.writesOf ([abortCall].take cut) = [] := by
      rcases cuts cut with same | same <;> rw [same] <;> rfl
    rw [nothing] at listed
    cases listed

theorem strayed_diverges : ∃ network reports last,
    Network.Reachable trioConfig honestTwo network ∧
    run ExecutionState.deliverLogged (.new rogueExecutor trioConfig.committee trioConfig.quorum) strayed =
      .ok (reports, last) ∧
    reports.map Prod.snd = [[], [none, none, some .divergence], [some .unknownAnchor]] ∧
    ∀ before delivery after earlier vote later, strayed = before ++ delivery :: after →
      delivery.subdag.votes = earlier ++ vote :: later →
      ∃ outcome alarms formed logged, reports[before.length]? = some (outcome, alarms) ∧
        outcome.formed[earlier.length]? = some formed ∧ alarms[earlier.length]? = some logged ∧
        (formed = none → logged ≠ some .divergence) ∧
        ∀ certificate timings, formed = some (certificate, timings) →
          ∃ cut, CheckpointAt trioConfig.engine network.stream cut certificate.checkpoint ∧
            (logged = some .divergence ↔ rogueExecutor.writesOf ((ledger network.stream).take cut) ≠
              trioConfig.engine.writesOf ((ledger network.stream).take cut)) := by
  obtain ⟨network, reachable, stream⟩ := trio_strayed
  obtain ⟨reports, last, ran, logged⟩ := strayed_logged
  have received : strayed.map Delivery.subdag <+: network.stream := by
    rw [stream]
    exact List.prefix_rfl
  refine ⟨network, reports, last, reachable, ran, logged,
    Network.divergence_exact (by decide) reachable received ran ?_ ?_⟩
  · rw [stream]
    intro bytes hashes other hashes' _
    rw [strayed_hashes hashes, strayed_hashes hashes']
  · rw [stream]
    intro bytes hashes
    rw [strayed_hashes hashes]
    decide +kernel

end

end BlockchainValidator
