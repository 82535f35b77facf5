import BlockchainValidator.Validator.Latency
import BlockchainValidator.Validator.Quiescence

/-! # How many samples the certification histograms hold

Whatever the clocks read, both histograms of a process count the checkpoints that
the stream settled after the commits it replayed, each of them once.
-/

namespace BlockchainValidator

open Execution Run

section

variable [Dag]

omit [Dag] in
theorem ValidatorMetrics.observe_endToEnd (metrics : ValidatorMetrics)
    (observed : List CertificationLatencies) :
    (metrics.observe observed).endToEndLatency =
      metrics.endToEndLatency ++ observed.map CertificationLatencies.endToEnd := by
  induction observed generalizing metrics with
  | nil => exact (List.append_nil _).symm
  | cons latencies observed ih =>
      rw [List.map_cons, List.append_cons]
      exact ih _

theorem SubdagOutcome.observed_length (outcome : SubdagOutcome) (now : Duration) :
    (outcome.observed now).length = outcome.certified.length := by
  have lengths := congrArg List.length (outcome.observed_certification now)
  rw [List.length_map, List.length_map] at lengths
  rw [lengths, certified_eq, List.length_map]

/-- The anchors of the stream that it settles. -/
def settledIn (config : ValidatorConfig) (stream : List CommittedSubDag) : List BlockReference :=
  (stream.map CommittedSubDag.anchor).filter fun anchor =>
    Settled config.committee config.quorum stream anchor

section

variable {config : ValidatorConfig} {stream : List CommittedSubDag} {reference : ReferenceCertifier}

theorem TookCalls.settledAnchors_perm (took : TookCalls config.committee config.quorum stream reference)
    (admissible : Admissible (stream.map CommittedSubDag.anchor)) :
    reference.settledAnchors.Perm (settledIn config stream) := by
  have distinct := admissible.distinct
  apply (List.perm_ext_iff_of_nodup (settledAnchors_nodup (took.wellFormed admissible))
    (distinct.filter _)).mpr
  intro anchor
  rw [took.settled distinct, List.mem_filter, decide_eq_true_iff]
  refine ⟨fun settled => ⟨?_, settled⟩, And.right⟩
  obtain ⟨minted, kept, rfl⟩ := List.mem_map.mp ((took.settled distinct).mpr settled)
  obtain ⟨subdag, listed, mints⟩ :=
    (took.minted distinct).mp (List.mem_map_of_mem (List.mem_of_mem_filter kept))
  exact List.mem_map.mpr ⟨subdag, listed, mints.1⟩

end

namespace ClockedNode

section

variable [Hasher] [BuildProfile] {config : ValidatorConfig} {node next : ClockedNode}
  {event : ClockedEvent} {events : List ClockedEvent}

/-- The anchors certified since the start. -/
def certifiedAnchors (node : ClockedNode) : List BlockReference :=
  node.certified.map (·.1.checkpoint.anchor)

/-- What the histograms and the certifier have in common. -/
structure Sampled (config : ValidatorConfig) (node : ClockedNode) : Prop where
  split : node.received ++ node.node.queue = node.node.wal
  certification : node.metrics.checkpointCertificationLatency.length = node.certified.length
  endToEnd : node.metrics.endToEndLatency.length = node.certified.length
  settled : ∃ replayed reference, TookCalls config.committee config.quorum node.recovered replayed ∧
    TookCalls config.committee config.quorum node.received reference ∧
    node.node.driver.state.certifier = .ofReference reference ∧
    reference.settledAnchors.Perm (node.certifiedAnchors ++ replayed.settledAnchors)

omit [Hasher] [BuildProfile] in
theorem fresh_sampled (config : ValidatorConfig) : (fresh config).Sampled config where
  split := rfl
  certification := rfl
  endToEnd := rfl
  settled :=
    have took : TookCalls config.committee config.quorum [] (.new config.committee config.quorum) :=
      ⟨[], [], .nil, rfl⟩
    ⟨_, _, took, took, rfl, .refl _⟩

theorem Sampled.commit (sampled : node.Sampled config) {subdag : CommittedSubDag}
    (stepped : node.step config (.commit subdag) = .ok ((), next)) : next.Sampled config := by
  obtain rfl := step_commit stepped
  refine ⟨?_, sampled.certification, sampled.endToEnd, sampled.settled⟩
  rw [← sampled.split, List.append_assoc]
  rfl

/-- Replay certifies again what the commits settle, and none of it is observed. -/
theorem Sampled.restart (admissible : Admissible (node.node.wal.map CommittedSubDag.anchor))
    {now : Duration} (stepped : node.step config (.restart now) = .ok ((), next)) :
    next.Sampled config := by
  obtain ⟨minted, driver, submitted, ran, rfl⟩ := step_restart stepped
  obtain ⟨outcomes, executed, -⟩ := Driver.run_state ran
  have replayed := Node.replayed_subdags node.node.wal
  obtain ⟨reference, took, certifier⟩ := ExecutionState.run_tookCalls (by
    rw [← replayed, List.map_map] at admissible
    exact admissible) executed
  rw [replayed] at took
  have received : node.node.wal ++ ([] : List Delivery).map Delivery.subdag = node.node.wal :=
    List.append_nil _
  refine ⟨?_, rfl, rfl, reference, reference, took, ?_, certifier, .refl _⟩
  · rw [ClockedNode.received, received, List.append_nil]
  · rw [ClockedNode.received, received]
    exact took

theorem Sampled.receive (sampled : node.Sampled config)
    (admissible : Admissible (node.node.wal.map CommittedSubDag.anchor)) {now : Duration}
    (stepped : node.step config (.receive now) = .ok ((), next)) : next.Sampled config := by
  cases waiting : node.node.queue with
  | nil =>
      obtain rfl := step_idle waiting stepped
      exact sampled
  | cons subdag queue =>
      obtain ⟨outcome, driver, submitted, -, delivered, rfl⟩ := step_receive waiting stepped
      obtain ⟨split, certification, endToEnd, replayed, reference, before, took, same, settled⟩ :=
        sampled
      have grown : node.recovered ++ (node.live ++ [(⟨now, subdag⟩ : Delivery)]).map Delivery.subdag =
          node.received ++ [subdag] := by
        rw [List.map_append, ← List.append_assoc]
        rfl
      rw [waiting, List.append_cons] at split
      have front : Admissible ((node.received ++ [subdag]).map CommittedSubDag.anchor) := by
        rw [← split, List.map_append] at admissible
        exact admissible.left
      obtain ⟨reference', took', same', more⟩ := took.deliver same front delivered
      refine ⟨?_, ?_, ?_, replayed, reference', before, ?_, same', ?_⟩
      · rw [ClockedNode.received, grown]
        exact split
      · rw [ValidatorMetrics.observe_certification, List.length_append, List.length_append,
          certification, List.length_map, List.length_map, outcome.observed_length]
      · rw [ValidatorMetrics.observe_endToEnd, List.length_append, List.length_append, endToEnd,
          List.length_map, List.length_map, outcome.observed_length]
      · rw [ClockedNode.received, grown]
        exact took'
      · have anchors : node.certifiedAnchors ++ outcome.certified.map (·.checkpoint.anchor) =
            (node.certified ++ outcome.certified.map (·, now)).map (·.1.checkpoint.anchor) := by
          rw [List.map_append, List.map_map]
          rfl
        rw [certifiedAnchors, ← anchors, List.append_assoc]
        exact (more.trans (settled.append_left _)).trans (List.perm_append_comm_assoc ..)

theorem ReachedBy.sampled (reached : ReachedBy config events node)
    (admissible : Admissible (node.node.wal.map CommittedSubDag.anchor)) : node.Sampled config := by
  obtain ⟨outputs, ran⟩ := reached
  refine run_history (fun _ _ node => Admissible (node.node.wal.map CommittedSubDag.anchor) →
    node.Sampled config) ?_ (fun _ => fresh_sampled config) ran admissible
  intro _ _ node event _ next _ held stepped admissible
  cases event with
  | commit subdag =>
      have same := step_commit stepped
      refine (held ?_).commit stepped
      rw [same, List.map_append] at admissible
      exact admissible.left
  | restart now =>
      have same : next.node.wal = node.node.wal := by
        obtain ⟨_, _, _, -, rfl⟩ := step_restart stepped
        rfl
      rw [same] at admissible
      exact Sampled.restart admissible stepped
  | receive now =>
      have same : next.node.wal = node.node.wal := by
        cases waiting : node.node.queue with
        | nil => rw [step_idle waiting stepped]
        | cons subdag queue =>
            obtain ⟨_, _, _, -, -, rfl⟩ := step_receive waiting stepped
            rfl
      rw [same] at admissible
      exact (held admissible).receive admissible stepped

/-- Both histograms hold one sample for each anchor that what was received
settles and what was replayed does not, at whatever clocks and after any restarts. -/
theorem samples_exact (reached : ReachedBy config events node)
    (admissible : Admissible (node.node.wal.map CommittedSubDag.anchor)) :
    (node.certifiedAnchors ++ settledIn config node.recovered).Perm
      (settledIn config node.received) ∧
    node.metrics.checkpointCertificationLatency.length = node.certifiedAnchors.length ∧
    node.metrics.endToEndLatency.length = node.certifiedAnchors.length := by
  obtain ⟨split, certification, endToEnd, replayed, reference, before, took, -, settled⟩ :=
    reached.sampled admissible
  have received : Admissible (node.received.map CommittedSubDag.anchor) := by
    rw [← split, List.map_append] at admissible
    exact admissible.left
  have recovered : Admissible (node.recovered.map CommittedSubDag.anchor) := by
    rw [ClockedNode.received, List.map_append] at received
    exact received.left
  refine ⟨?_, ?_, ?_⟩
  · have earlier := (before.settledAnchors_perm recovered).append_left node.certifiedAnchors
    exact (earlier.symm.trans settled.symm).trans (took.settledAnchors_perm received)
  · rw [certification, certifiedAnchors, List.length_map]
  · rw [endToEnd, certifiedAnchors, List.length_map]

end

end ClockedNode

end

section

attribute [local instance] plainDag checkedBuild blake2b

open ClockedNode

/-- The vote arrives after the restart. -/
private def restartedOnce : List ClockedEvent :=
  match plainStream FakeFunctionId.successId with
  | [first, second] =>
      [.commit first, .receive ⟨5⟩, .restart ⟨7⟩, .commit second, .receive ⟨9⟩]
  | _ => []

theorem restartedOnce_samples : ∃ node, ReachedBy plainConfig restartedOnce node ∧
    node.certifiedAnchors = [plainReference 0 1] ∧
    (node.certifiedAnchors ++ settledIn plainConfig node.recovered).Perm
      (settledIn plainConfig node.received) ∧
    node.metrics.checkpointCertificationLatency.length = node.certifiedAnchors.length ∧
    node.metrics.endToEndLatency.length = node.certifiedAnchors.length := by
  have evaluated : (fun result : List Unit × ClockedNode =>
      (result.2.certifiedAnchors, result.2.node.wal.map CommittedSubDag.anchor)) <$>
        run (step plainConfig) (fresh plainConfig) restartedOnce =
          .ok ([plainReference 0 1], [plainReference 0 1, plainReference 0 2]) := rfl
  obtain ⟨⟨outputs, node⟩, ran, shown⟩ := map_eq_ok.mp evaluated
  obtain ⟨certified, anchors⟩ := Prod.mk.inj shown
  refine ⟨node, ⟨outputs, ran⟩, certified, samples_exact ⟨outputs, ran⟩ ?_⟩
  rw [anchors]
  exact ⟨by decide, by decide⟩

end

end BlockchainValidator
