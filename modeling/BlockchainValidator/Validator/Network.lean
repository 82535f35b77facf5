import BlockchainValidator.Checkpoint.Certificates
import BlockchainValidator.Validator.Recovery

/-! # A network of validators

Honest validators run on one commit stream, each as far behind as it likes.
The blocks of the others carry what they like.  A vote in flight is one that its
author has submitted: it may enter the stream at any later point, any number of
times, or never.
-/

namespace BlockchainValidator

open Execution Run

section

variable [Dag]

theorem Node.Consistent.held_honest [Hasher] [BuildProfile] {config : ValidatorConfig} {node : Node}
    {honest : Finset Authority} {certificate : CertifiedCheckpoint}
    (consistent : node.Consistent config) (admissible : AdmissibleStream config.committee node.wal)
    (faulty : ∑ member ∈ config.committee.members \ honest, (config.committee.stake member).toNat <
      config.quorum.toNat)
    (held : certificate ∈ node.driver.state.certifier.held) :
    ∃ subdag ∈ node.wal, ∃ vote ∈ subdag.votes,
      vote.1 ∈ honest ∧ vote.2 = certificate.checkpoint := by
  obtain ⟨deliveries, minted, split, ran⟩ := consistent.received
  obtain ⟨outcomes, executed, -⟩ := Driver.run_state ran
  obtain ⟨calls, outputs, called, callsOf⟩ := ExecutionState.run_calls executed
  have received := ExecutionState.run_admissible (admissible.front ⟨_, split⟩) executed callsOf
  obtain ⟨subdag, author, honestly, recorded⟩ :=
    CheckpointCertifier.held_honest received faulty called held
  have listed : (subdag, author, certificate.checkpoint) ∈
      calls.filterMap CertifierCall.recorded := List.mem_filterMap.mpr ⟨_, recorded, rfl⟩
  rw [callsOf.recorded] at listed
  obtain ⟨delivery, delivered, voted⟩ := List.mem_flatMap.mp listed
  obtain ⟨vote, carried, same⟩ := List.mem_map.mp voted
  cases same
  have inside := List.mem_append_left node.queue (List.mem_map_of_mem (f := Delivery.subdag) delivered)
  rw [split] at inside
  exact ⟨delivery.subdag, inside, _, carried, honestly, rfl⟩

/-- The stream and the state of every validator.  Only honest ones take steps. -/
structure Network where
  stream : List CommittedSubDag
  nodes : Authority → Node

namespace Network

def initial (config : ValidatorConfig) : Network := ⟨[], fun _ => .fresh config⟩

def grow (network : Network) (subdag : CommittedSubDag) : Network :=
  { network with stream := network.stream ++ [subdag] }

def update (network : Network) (validator : Authority) (node : Node) : Network :=
  { network with nodes := Function.update network.nodes validator node }

section

variable (network : Network) (validator : Authority) (node next : Node)

theorem update_nodes_self : (network.update validator node).nodes validator = node :=
  Function.update_self ..

theorem update_update :
    (network.update validator node).update validator next = network.update validator next := by
  simp only [update, Function.update_idem]

theorem update_nodes : network.update validator (network.nodes validator) = network := by
  rw [update, Function.update_eq_self]

theorem forall_update {P : Node → Prop} (all : ∀ other, P (network.nodes other)) (new : P node)
    (other : Authority) : P ((network.update validator node).nodes other) :=
  (Function.forall_update_iff network.nodes fun _ => P).mpr ⟨new, fun other _ => all other⟩ other

end

/-- The votes in the blocks of honest authors are votes they submitted. -/
def Authentic (network : Network) (honest : Finset Authority) (subdag : CommittedSubDag) : Prop :=
  ∀ vote ∈ subdag.votes, vote.1 ∈ honest → vote.2 ∈ (network.nodes vote.1).submitted

variable [Hasher] [BuildProfile]

inductive Step (config : ValidatorConfig) (honest : Finset Authority) (network : Network) :
    Network → Prop where
  | grow {subdag : CommittedSubDag}
      (anchors : Admissible ((network.grow subdag).stream.map CommittedSubDag.anchor))
      (signed : subdag.SignedBy config.committee) (authentic : network.Authentic honest subdag) :
      Step config honest network (network.grow subdag)
  /-- An honest validator records the next commit of the stream, receives a
  recorded one or restarts. -/
  | run {validator : Authority} {event : NodeEvent} {next : Node} (member : validator ∈ honest)
      (recorded : (network.nodes validator).wal ++ [event].filterMap NodeEvent.committed <+:
        network.stream)
      (stepped : (network.nodes validator).step config event = .ok ((), next)) :
      Step config honest network (network.update validator next)

def Reachable (config : ValidatorConfig) (honest : Finset Authority) (network : Network) : Prop :=
  Relation.ReflTransGen (Step config honest) (initial config) network

/-- Every validator has a part of the stream, and every vote of an honest author
is for the stream's own history. -/
structure Sound (config : ValidatorConfig) (honest : Finset Authority) (network : Network) :
    Prop where
  admissible : AdmissibleStream config.committee network.stream
  behind : ∀ validator, (network.nodes validator).wal <+: network.stream
  consistent : ∀ validator, (network.nodes validator).Consistent config
  canonical : ∀ subdag ∈ network.stream, ∀ vote ∈ subdag.votes, vote.1 ∈ honest →
    Canonical config.engine network.stream vote.2

variable {config : ValidatorConfig} {honest : Finset Authority} {network next : Network}

theorem initial_sound (config : ValidatorConfig) (honest : Finset Authority) :
    (initial config).Sound config honest where
  admissible := ⟨⟨.nil, .nil⟩, fun _ listed => by cases listed⟩
  behind _ := List.prefix_rfl
  consistent _ := Node.fresh_consistent config
  canonical _ listed := by cases listed

theorem Sound.submitted (sound : network.Sound config honest) {validator : Authority}
    {checkpoint : Checkpoint} (listed : checkpoint ∈ (network.nodes validator).submitted) :
    Canonical config.engine network.stream checkpoint := by
  obtain ⟨rest, split⟩ := sound.behind validator
  rw [← split]
  exact ((sound.consistent validator).submitted checkpoint listed).append rest

theorem Sound.grow (sound : network.Sound config honest) {subdag : CommittedSubDag}
    (anchors : Admissible ((network.grow subdag).stream.map CommittedSubDag.anchor))
    (signed : subdag.SignedBy config.committee) (authentic : network.Authentic honest subdag) :
    (network.grow subdag).Sound config honest where
  admissible := by
    refine ⟨anchors, fun other listed => ?_⟩
    rcases List.mem_append.mp listed with earlier | new
    · exact sound.admissible.signed other earlier
    · rw [List.mem_singleton.mp new]
      exact signed
  behind validator := (sound.behind validator).trans (List.prefix_append _ _)
  consistent := sound.consistent
  canonical := by
    intro other listed vote carried honestly
    rcases List.mem_append.mp listed with earlier | new
    · exact (sound.canonical other earlier vote carried honestly).append [subdag]
    · rw [List.mem_singleton.mp new] at carried
      exact (sound.submitted (authentic vote carried honestly)).append [subdag]

theorem Sound.run (sound : network.Sound config honest) {validator : Authority} {event : NodeEvent}
    {node : Node}
    (recorded : (network.nodes validator).wal ++ [event].filterMap NodeEvent.committed <+:
      network.stream)
    (stepped : (network.nodes validator).step config event = .ok ((), node)) :
    (network.update validator node).Sound config honest := by
  obtain ⟨consistent, grown⟩ := Node.step_consistent (sound.consistent validator) stepped
  rw [← grown] at recorded
  refine ⟨sound.admissible, ?_, ?_, sound.canonical⟩
  · apply forall_update network validator node (P := fun node => node.wal <+: network.stream)
    · exact sound.behind
    · exact recorded
  · exact forall_update network validator node sound.consistent consistent

theorem Sound.step (sound : network.Sound config honest) (stepped : Step config honest network next) :
    next.Sound config honest := by
  cases stepped with
  | grow anchors signed authentic => exact sound.grow anchors signed authentic
  | run _ recorded stepped => exact sound.run recorded stepped

theorem Reachable.sound (reachable : Reachable config honest network) :
    network.Sound config honest := by
  induction reachable with
  | refl => exact initial_sound config honest
  | tail _ stepped sound => exact sound.step stepped

/-- Whatever an honest validator holds as certified is the state that executing
the stream leads to. -/
theorem certified_canonical
    (faulty : ∑ member ∈ config.committee.members \ honest, (config.committee.stake member).toNat <
      config.quorum.toNat)
    (reachable : Reachable config honest network) {validator : Authority}
    {certificate : CertifiedCheckpoint}
    (held : certificate ∈ (network.nodes validator).driver.state.certifier.held) :
    Canonical config.engine network.stream certificate.checkpoint := by
  have sound := reachable.sound
  have behind := sound.behind validator
  obtain ⟨subdag, listed, vote, carried, honestly, same⟩ :=
    (sound.consistent validator).held_honest (sound.admissible.front behind) faulty held
  rw [← same]
  exact sound.canonical subdag (behind.subset listed) vote carried honestly

theorem Reachable.runs {validator : Authority} {events : List NodeEvent} {outputs : List Unit}
    {node : Node} (reachable : Reachable config honest network) (member : validator ∈ honest)
    (recorded : (network.nodes validator).wal ++ events.filterMap NodeEvent.committed <+:
      network.stream)
    (ran : Run.run (Node.step config) (network.nodes validator) events = .ok (outputs, node)) :
    Reachable config honest (network.update validator node) := by
  induction events generalizing network outputs with
  | nil =>
      cases ran
      rw [update_nodes]
      exact reachable
  | cons event events ih =>
      obtain ⟨_, middle, rest, _, stepped, tail, same⟩ := run_cons_ok.mp ran
      cases same
      have whole : [event].filterMap NodeEvent.committed ++ events.filterMap NodeEvent.committed =
          (event :: events).filterMap NodeEvent.committed := List.filterMap_append.symm
      rw [← whole, ← List.append_assoc] at recorded
      have moved : Reachable config honest (network.update validator middle) :=
        reachable.tail (.run member ((List.prefix_append _ _).trans recorded) stepped)
      have grown := (Node.step_consistent (reachable.sound.consistent validator) stepped).2
      rw [← update_update network validator middle node]
      apply ih moved
      · rw [update_nodes_self, grown]
        exact recorded
      · rw [update_nodes_self]
        exact tail

end Network

end

section

attribute [local instance] plainDag checkedBuild blake2b

private def pairConfig : ValidatorConfig := { plainConfig with quorum := 2 }

private def honestOne : Finset Authority := {(1 : UInt64)}

private def ballot : List UInt8 := Envelope.toBytes ⟨8, .attest ⟨plainReference 0 1, .default⟩⟩

private def aborted : CommittedSubDag :=
  ⟨plainReference 0 1, [((0 : UInt64), [Envelope.toBytes ⟨7, .execute
    ⟨FakeFunctionId.abortId, .singleton (.new 1, .writeOnly), .nil⟩⟩]),
      ((1 : UInt64), [])]⟩

private def balloting : CommittedSubDag :=
  ⟨plainReference 0 2, [((0 : UInt64), [ballot]), ((1 : UInt64), [ballot])]⟩

private theorem pair_signed (reference : BlockReference) (first second : List (List UInt8)) :
    CommittedSubDag.SignedBy pairConfig.committee
      ⟨reference, [((0 : UInt64), first), ((1 : UInt64), second)]⟩ := by
  intro block inside
  rcases List.mem_pair.mp inside with rfl | rfl
  · change (0 : UInt64) ∈ (Finset.range 2).image UInt64.ofNat
    decide
  · change (1 : UInt64) ∈ (Finset.range 2).image UInt64.ofNat
    decide

/-- The honest validator votes, both votes are committed, and it certifies. -/
theorem ballots_certified :
    ∃ network, Network.Reachable pairConfig honestOne network ∧
      ∃ certificate ∈ (network.nodes (1 : UInt64)).driver.state.certifier.held,
        Canonical pairConfig.engine network.stream certificate.checkpoint := by
  have faulty : ∑ member ∈ pairConfig.committee.members \ honestOne,
      (pairConfig.committee.stake member).toNat < pairConfig.quorum.toNat := by decide
  obtain ⟨⟨_, last⟩, ran⟩ : ∃ result, run (Node.step pairConfig) (.fresh pairConfig)
      (hearing aborted ++ hearing balloting) = .ok result := ⟨_, rfl⟩
  obtain ⟨_, node, _, _, ranFirst, ranSecond, same⟩ := run_append_ok.mp ran
  cases same
  have first : (fun result : List Unit × Node => (result.2.wal, result.2.submitted)) <$>
      run (Node.step pairConfig) (.fresh pairConfig) (hearing aborted) =
        .ok ([aborted], [⟨plainReference 0 1, .default⟩]) := rfl
  rw [ranFirst] at first
  obtain ⟨recorded, submitted⟩ := Prod.mk.inj (Except.ok.inj first)
  have second : (fun result : List Unit × Node => result.2.driver.state.certifier.held) <$>
      run (Node.step pairConfig) (.fresh pairConfig) (hearing aborted ++ hearing balloting) =
        .ok [⟨⟨plainReference 0 1, .default⟩, [plainReference 0 2, plainReference 0 2]⟩] := rfl
  rw [ran] at second
  have held : last.driver.state.certifier.held = _ := Except.ok.inj second
  let start : Network := .initial pairConfig
  have reached : Network.Reachable pairConfig honestOne (start.grow aborted) := by
    apply Relation.ReflTransGen.single
    exact .grow ⟨by decide, by decide⟩ (pair_signed _ _ _) fun vote carried => nomatch carried
  have voted := reached.runs (Finset.mem_singleton_self _) List.prefix_rfl ranFirst
  let network := ((start.grow aborted).update (1 : UInt64) node).grow balloting
  have counting : Network.Reachable pairConfig honestOne network := by
    apply voted.tail
    refine .grow ?_ (pair_signed _ _ _) ?_
    · change Admissible [plainReference 0 1, plainReference 0 2]
      exact ⟨by decide, by decide⟩
    · intro vote carried honestly
      have cast : vote = ((1 : UInt64), ⟨plainReference 0 1, .default⟩) := by
        rcases List.mem_pair.mp carried with rfl | rfl
        · exact absurd honestly (by decide)
        · rfl
      rw [cast, Network.update_nodes_self, submitted]
      exact List.mem_singleton_self _
  have current : network.nodes (1 : UInt64) = node :=
    Network.update_nodes_self (start.grow aborted) (1 : UInt64) node
  have front : (network.nodes (1 : UInt64)).wal ++
      (hearing balloting).filterMap NodeEvent.committed <+: network.stream := by
    rw [current, recorded]
    exact List.prefix_rfl
  rw [← current] at ranSecond
  have certified := counting.runs (Finset.mem_singleton_self _) front ranSecond
  have listed : ⟨⟨plainReference 0 1, .default⟩, [plainReference 0 2, plainReference 0 2]⟩ ∈
      ((network.update (1 : UInt64) last).nodes (1 : UInt64)).driver.state.certifier.held := by
    rw [Network.update_nodes_self, held]
    exact List.mem_singleton_self _
  exact ⟨_, certified, _, listed, Network.certified_canonical faulty certified listed⟩

end

end BlockchainValidator
