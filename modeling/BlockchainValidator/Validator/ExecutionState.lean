import BlockchainValidator.Checkpoint.Independence
import BlockchainValidator.Checkpoint.Reference
import BlockchainValidator.Execution.Scheduler
import BlockchainValidator.Validator.Envelope

/-! # The execution half of a validator -/

namespace BlockchainValidator

open Execution Run

section

variable [Dag]

/-! ## What a sub-dag carries -/

def Payload.transaction : Payload → Option Transaction
  | .execute transaction => some transaction
  | .attest _ => none

def Payload.vote : Payload → Option Checkpoint
  | .execute _ => none
  | .attest vote => some vote

/-- The payloads that decode, each with the author of its block. -/
def decode (items : List (Authority × List UInt8)) : List (Authority × Envelope) :=
  items.filterMap fun item =>
    match Envelope.fromBytes item.2 with
    | .error _ => none
    | .ok envelope => some (item.1, envelope)

def transactionsIn (decoded : List (Authority × Envelope)) : List Transaction :=
  decoded.filterMap fun item => item.2.payload.transaction

def votesIn (decoded : List (Authority × Envelope)) : List (Authority × Checkpoint) :=
  decoded.filterMap fun item => item.2.payload.vote.map (item.1, ·)

def stampsIn (decoded : List (Authority × Envelope)) : List UInt64 :=
  decoded.filterMap fun item => item.2.payload.transaction.map fun _ => item.2.timestampMs

namespace CommittedSubDag

/-- The payloads in canonical order. -/
def payloads (subdag : CommittedSubDag) : List (Authority × List UInt8) :=
  (Dag.sort subdag.blocks).flatMap fun block =>
    (Dag.transactions block).map fun payload => (Dag.author block, payload)

def transactions (subdag : CommittedSubDag) : List Transaction :=
  transactionsIn (decode subdag.payloads)

def votes (subdag : CommittedSubDag) : List (Authority × Checkpoint) :=
  votesIn (decode subdag.payloads)

def stamps (subdag : CommittedSubDag) : List UInt64 := stampsIn (decode subdag.payloads)

end CommittedSubDag

namespace CommittedSubDag

variable {committee : Committee} {subdag : CommittedSubDag}

def SignedBy (committee : Committee) (subdag : CommittedSubDag) : Prop :=
  ∀ block ∈ subdag.blocks, Dag.author block ∈ committee.members

theorem votes_author {vote : Authority × Checkpoint} (listed : vote ∈ subdag.votes) :
    ∃ block ∈ subdag.blocks, Dag.author block = vote.1 := by
  obtain ⟨⟨author, envelope⟩, decoded, voted⟩ := List.mem_filterMap.mp listed
  obtain ⟨checkpoint, -, rfl⟩ := Option.map_eq_some_iff.mp voted
  obtain ⟨⟨signer, payload⟩, carried, read⟩ := List.mem_filterMap.mp decoded
  have same : signer = author := by
    cases parsed : Envelope.fromBytes payload with
    | error reason => simp [parsed] at read
    | ok envelope => simp only [parsed, Option.some.injEq, Prod.mk.injEq] at read; exact read.1
  obtain ⟨block, inside, transaction⟩ := List.mem_flatMap.mp carried
  obtain ⟨_, -, equal⟩ := List.mem_map.mp transaction
  refine ⟨block, (Dag.sort_perm subdag.blocks).mem_iff.mp inside, ?_⟩
  rw [← same]
  exact congrArg Prod.fst equal

theorem SignedBy.votes (signed : subdag.SignedBy committee) :
    ∀ vote ∈ subdag.votes, vote.1 ∈ committee.members := by
  intro vote listed
  obtain ⟨block, inside, same⟩ := votes_author listed
  exact same ▸ signed block inside

end CommittedSubDag

/-! ## One sub-dag -/

structure ExecutionState where
  scheduler : SequentialScheduler
  certifier : CheckpointCertifier

/-- The variables that the closure over the payloads captures. -/
structure Captured where
  votes : List (Authority × Checkpoint)
  stampSumMs : UInt64

/-- What `execute_subdag` returns, with the statuses that it counts and the
certificate that each recorded vote formed. -/
structure SubdagOutcome where
  statuses : List ExecutionStatus
  minted : Option Checkpoint
  formed : List (Option Formed)

def SubdagOutcome.executed (outcome : SubdagOutcome) : Nat := outcome.statuses.length

structure CertificationLatencies where
  certification : Duration
  endToEnd : Duration
deriving DecidableEq, Repr

def CheckpointTimings.observe (timings : CheckpointTimings) (now : Duration) :
    CertificationLatencies where
  certification := now.saturatingSub timings.mintedAt
  endToEnd := now.saturatingSub (Duration.fromMillis timings.meanTimestampMs)

def SubdagOutcome.observed (outcome : SubdagOutcome) (now : Duration) :
    List CertificationLatencies :=
  outcome.formed.filterMap (Option.map fun formed => formed.2.observe now)

namespace ExecutionState

def new (engine : ExecutionEngine) (committee : Committee) (quorum : UInt64) : ExecutionState :=
  ⟨.new engine, .new committee quorum⟩

/-- The closure of the `filter_map` over the payloads. -/
def pull [BuildProfile] (captured : Captured) (item : Authority × List UInt8) :
    Except Panic (Option Transaction × Captured) :=
  match Envelope.fromBytes item.2 with
  | .error _ => .ok (none, captured)
  | .ok envelope =>
      match envelope.payload with
      | .execute transaction => do
          let stampSumMs ← addU64 captured.stampSumMs envelope.timestampMs
          .ok (some transaction, { captured with stampSumMs })
      | .attest vote => .ok (none, { captured with votes := captured.votes ++ [(item.1, vote)] })

def recordVotes [BuildProfile] (certifier : CheckpointCertifier) (anchor : BlockReference)
    (votes : List (Authority × Checkpoint)) :
    Except Panic (List (Option Formed) × CheckpointCertifier) :=
  run (fun certifier vote => certifier.tally anchor vote.1 vote.2) certifier votes

def executeSubdag [Hasher] [BuildProfile] (state : ExecutionState) (now : Duration)
    (subdag : CommittedSubDag) : Except Panic (SubdagOutcome × ExecutionState) := do
  let (statuses, captured, scheduler) ←
    SequentialScheduler.executeLazy pull ⟨[], 0⟩ state.scheduler subdag.payloads
  let (minted, certifier) :=
    if 0 < statuses.length then
      let timings : CheckpointTimings :=
        ⟨now, captured.stampSumMs / UInt64.ofNat statuses.length⟩
      let (minted, certifier) :=
        state.certifier.push subdag.anchor scheduler.store.commitment timings
      (some minted, certifier)
    else (none, state.certifier)
  let (formed, certifier) ← recordVotes certifier subdag.anchor captured.votes
  .ok (⟨statuses, minted, formed⟩, ⟨scheduler, certifier⟩)

def certificationStatus (state : ExecutionState) : Option Digest × Digest :=
  (state.certifier.highestCertified.map (·.checkpoint.commitment), state.scheduler.store.commitment)

end ExecutionState

structure Delivery where
  now : Duration
  subdag : CommittedSubDag

def ExecutionState.deliver [Hasher] [BuildProfile] (state : ExecutionState) (delivery : Delivery) :
    Except Panic (SubdagOutcome × ExecutionState) :=
  state.executeSubdag delivery.now delivery.subdag

/-! ## Decoding apart from executing -/

namespace ExecutionState

section

variable {item : Authority × List UInt8} {items : List (Authority × List UInt8)} {timestampMs : UInt64}

theorem decode_cons_error {reason : Codec.ErrorKind}
    (read : Envelope.fromBytes item.2 = .error reason) : decode (item :: items) = decode items :=
  List.filterMap_cons_none (by simp only [read])

theorem decode_cons_ok {envelope : Envelope} (read : Envelope.fromBytes item.2 = .ok envelope) :
    decode (item :: items) = (item.1, envelope) :: decode items :=
  List.filterMap_cons_some (by simp only [read])

variable [BuildProfile] {captured captured' : Captured}

theorem pull_error {reason : Codec.ErrorKind} (read : Envelope.fromBytes item.2 = .error reason) :
    pull captured item = .ok (none, captured) := by
  simp only [pull, read]

theorem pull_attest {vote : Checkpoint}
    (read : Envelope.fromBytes item.2 = .ok ⟨timestampMs, .attest vote⟩) :
    pull captured item = .ok (none, { captured with votes := captured.votes ++ [(item.1, vote)] }) := by
  simp only [pull, read]

variable [Hasher] {scheduler next : SequentialScheduler} {statuses : List ExecutionStatus}

theorem executeLazy_pull_execute {transaction : Transaction}
    (read : Envelope.fromBytes item.2 = .ok ⟨timestampMs, .execute transaction⟩) :
    SequentialScheduler.executeLazy pull captured scheduler (item :: items) =
        .ok (statuses, captured', next) ↔
      ∃ total status middle rest, addU64 captured.stampSumMs timestampMs = .ok total ∧
        scheduler.executeOne transaction = .ok (status, middle) ∧
        SequentialScheduler.executeLazy pull { captured with stampSumMs := total } middle items =
          .ok (rest, captured', next) ∧ statuses = status :: rest := by
  have pulls : pull captured item = addU64 captured.stampSumMs timestampMs >>= fun stampSumMs =>
      .ok (some transaction, { captured with stampSumMs }) := by
    simp only [pull, read]
  rw [SequentialScheduler.executeLazy_cons_ok, pulls]
  cases added : addU64 captured.stampSumMs timestampMs with
  | error panic => simp
  | ok total =>
      simp only [bind_ok, Except.ok.injEq, Prod.mk.injEq, reduceCtorEq, false_and, exists_false,
        false_or]
      apply Iff.intro
      · intro ran
        obtain ⟨_, _, status, middle, rest, ⟨same, rfl⟩, executed, tail, grown⟩ := ran
        cases same
        exact ⟨total, status, middle, rest, rfl, executed, tail, grown⟩
      · intro ran
        obtain ⟨_, status, middle, rest, rfl, executed, tail, grown⟩ := ran
        exact ⟨transaction, _, status, middle, rest, ⟨rfl, rfl⟩, executed, tail, grown⟩

/-- The fused pass finishes as decoding everything first does. -/
theorem executeLazy_pull_ok :
    SequentialScheduler.executeLazy pull captured scheduler items = .ok (statuses, captured', next) ↔
      ∃ sum, sumU64 captured.stampSumMs (stampsIn (decode items)) = .ok sum ∧
        scheduler.execute (transactionsIn (decode items)) = .ok (statuses, next) ∧
        captured' = ⟨captured.votes ++ votesIn (decode items), sum⟩ := by
  induction items generalizing captured scheduler statuses with
  | nil =>
      obtain ⟨votes, sum⟩ := captured
      simp only [SequentialScheduler.executeLazy, decode, stampsIn, votesIn, transactionsIn, sumU64,
        SequentialScheduler.execute, List.filterMap_nil, List.append_nil, map_ok, Except.ok.injEq,
        Prod.mk.injEq]
      apply Iff.intro
      · intro finished
        obtain ⟨rfl, rfl, rfl⟩ := finished
        exact ⟨sum, rfl, ⟨rfl, rfl⟩, rfl⟩
      · intro finished
        obtain ⟨_, rfl, ⟨rfl, rfl⟩, rfl⟩ := finished
        exact ⟨rfl, rfl, rfl⟩
  | cons item items ih =>
      cases read : Envelope.fromBytes item.2 with
      | error reason =>
          rw [decode_cons_error read, SequentialScheduler.executeLazy_skip (pull_error read)]
          exact ih
      | ok envelope =>
          rw [decode_cons_ok read]
          obtain ⟨timestampMs, content⟩ := envelope
          cases content with
          | attest vote =>
              have votes : votesIn ((item.1, ⟨timestampMs, .attest vote⟩) :: decode items) =
                  (item.1, vote) :: votesIn (decode items) := rfl
              rw [votes, List.append_cons, SequentialScheduler.executeLazy_skip (pull_attest read)]
              exact ih
          | execute transaction =>
              have stamps : stampsIn ((item.1, ⟨timestampMs, .execute transaction⟩) :: decode items) =
                  timestampMs :: stampsIn (decode items) := rfl
              have transactions : transactionsIn ((item.1, ⟨timestampMs, .execute transaction⟩) ::
                  decode items) = transaction :: transactionsIn (decode items) := rfl
              have votes : votesIn ((item.1, ⟨timestampMs, .execute transaction⟩) :: decode items) =
                  votesIn (decode items) := rfl
              rw [stamps, transactions, votes, executeLazy_pull_execute read, sumU64]
              simp only [bind_eq_ok, SequentialScheduler.execute_cons_ok]
              apply Iff.intro
              · intro ran
                obtain ⟨total, status, middle, rest, added, executed, tail, rfl⟩ := ran
                obtain ⟨sum, summed, batch, rfl⟩ := ih.mp tail
                exact ⟨sum, ⟨total, added, summed⟩, ⟨status, middle, rest, executed, batch, rfl⟩, rfl⟩
              · intro ran
                obtain ⟨sum, ⟨total, added, summed⟩, ⟨status, middle, rest, executed, batch, rfl⟩, rfl⟩ :=
                  ran
                exact ⟨total, status, middle, rest, added, executed, ih.mpr ⟨sum, summed, batch, rfl⟩, rfl⟩

end

end ExecutionState

/-- The checkpoint that a sub-dag mints, if it executes anything. -/
def CommittedSubDag.minted (subdag : CommittedSubDag) (commitment : Digest) : Option Checkpoint :=
  if subdag.transactions = [] then none else some ⟨subdag.anchor, commitment⟩

def CheckpointCertifier.mint (certifier : CheckpointCertifier) (subdag : CommittedSubDag)
    (commitment : Digest) (now : Duration) (stampSumMs : UInt64) : CheckpointCertifier :=
  if subdag.transactions = [] then certifier
  else (certifier.push subdag.anchor commitment
    ⟨now, stampSumMs / UInt64.ofNat subdag.transactions.length⟩).2

/-! ## Alike certifiers -/

section

variable {label : Checkpoint → Checkpoint} {certifier certifier' : CheckpointCertifier}

theorem CheckpointCertifier.mint_relabel (alike : certifier.relabel label = certifier'.relabel label)
    (subdag : CommittedSubDag) (commitment commitment' : Digest)
    (same : label ⟨subdag.anchor, commitment⟩ = label ⟨subdag.anchor, commitment'⟩)
    (now now' : Duration) (sum sum' : UInt64) :
    (certifier.mint subdag commitment now sum).relabel label =
      (certifier'.mint subdag commitment' now' sum').relabel label := by
  unfold mint
  split
  · exact alike
  · rw [push_relabel, push_relabel, alike, same]

variable [BuildProfile]

theorem ExecutionState.recordVotes_relabel (keeps : KeepsAnchor label)
    (certifier : CheckpointCertifier) (anchor : BlockReference)
    (votes : List (Authority × Checkpoint)) :
    recordVotes (certifier.relabel label) anchor votes =
      (fun result => (result.1.map (Option.map Formed.untimed), result.2.relabel label)) <$>
        recordVotes certifier anchor votes :=
  run_commute _ _ fun certifier vote => certifier.tally_relabel keeps anchor vote.1 vote.2

theorem ExecutionState.recordVotes_alike (keeps : KeepsAnchor label)
    (alike : certifier.relabel label = certifier'.relabel label) {anchor : BlockReference}
    {votes : List (Authority × Checkpoint)} {formed : List (Option Formed)}
    {next : CheckpointCertifier} (recorded : recordVotes certifier anchor votes = .ok (formed, next)) :
    ∃ formed' next', recordVotes certifier' anchor votes = .ok (formed', next') ∧
      certificates formed' = certificates formed ∧ next'.relabel label = next.relabel label := by
  have same := recordVotes_relabel keeps certifier anchor votes
  rw [alike, recordVotes_relabel keeps, recorded, map_ok] at same
  obtain ⟨⟨formed', next'⟩, recorded', equal⟩ := map_eq_ok.mp same
  obtain ⟨untimed, relabelled⟩ := Prod.mk.inj equal
  refine ⟨formed', next', recorded', ?_, relabelled⟩
  rw [← certificates_untimed formed', ← certificates_untimed formed, untimed]

end

/-! ## Execution by sub-dag -/

section

variable [Hasher] [BuildProfile] {state next last : ExecutionState} {now : Duration}
  {subdag : CommittedSubDag} {outcome : SubdagOutcome} {outcomes : List SubdagOutcome}
  {delivery : Delivery} {deliveries : List Delivery}

theorem ExecutionState.executeSubdag_of_pass {statuses : List ExecutionStatus} {sum : UInt64}
    {scheduler : SequentialScheduler}
    (passed : SequentialScheduler.executeLazy pull ⟨[], 0⟩ state.scheduler subdag.payloads =
      .ok (statuses, ⟨subdag.votes, sum⟩, scheduler))
    (length : statuses.length = subdag.transactions.length) :
    state.executeSubdag now subdag =
      (fun result => (⟨statuses, subdag.minted scheduler.store.commitment, result.1⟩,
        ⟨scheduler, result.2⟩)) <$>
          recordVotes (state.certifier.mint subdag scheduler.store.commitment now sum) subdag.anchor
            subdag.votes := by
  unfold executeSubdag
  rw [passed, bind_ok]
  simp only [length, CommittedSubDag.minted, CheckpointCertifier.mint]
  cases subdag.transactions with
  | nil =>
      simp only [List.length_nil, Nat.lt_irrefl, if_false, if_true]
      cases recordVotes state.certifier subdag.anchor subdag.votes <;> rfl
  | cons transaction transactions =>
      simp only [List.length_cons, Nat.zero_lt_succ, if_true, reduceCtorEq, if_false]
      cases recordVotes (state.certifier.push subdag.anchor scheduler.store.commitment _).2
        subdag.anchor subdag.votes <;> rfl

theorem ExecutionState.executeSubdag_ok :
    state.executeSubdag now subdag = .ok (outcome, next) ↔
      ∃ statuses scheduler sum formed certifier,
        sumU64 0 subdag.stamps = .ok sum ∧
        state.scheduler.execute subdag.transactions = .ok (statuses, scheduler) ∧
        recordVotes (state.certifier.mint subdag scheduler.store.commitment now sum) subdag.anchor
          subdag.votes = .ok (formed, certifier) ∧
        outcome = ⟨statuses, subdag.minted scheduler.store.commitment, formed⟩ ∧
        next = ⟨scheduler, certifier⟩ := by
  apply Iff.intro
  · intro ran
    obtain ⟨⟨statuses, captured, scheduler⟩, passed, -⟩ := bind_eq_ok.mp ran
    obtain ⟨sum, summed, executed, rfl⟩ := executeLazy_pull_ok.mp passed
    rw [executeSubdag_of_pass passed (SequentialScheduler.execute_length executed)] at ran
    obtain ⟨⟨formed, certifier⟩, recorded, same⟩ := map_eq_ok.mp ran
    cases same
    exact ⟨statuses, scheduler, sum, formed, certifier, summed, executed, recorded, rfl, rfl⟩
  · intro ran
    obtain ⟨statuses, scheduler, sum, formed, certifier, summed, executed, recorded, rfl, rfl⟩ := ran
    have passed : SequentialScheduler.executeLazy pull ⟨[], 0⟩ state.scheduler subdag.payloads =
        .ok (statuses, ⟨subdag.votes, sum⟩, scheduler) :=
      executeLazy_pull_ok.mpr ⟨sum, summed, executed, rfl⟩
    rw [executeSubdag_of_pass passed (SequentialScheduler.execute_length executed), recorded]
    rfl

end

end

end BlockchainValidator
