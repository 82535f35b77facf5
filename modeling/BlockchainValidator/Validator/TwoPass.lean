import BlockchainValidator.Validator.NoPanic

/-! # The fused pass over a sub-dag against two separate passes -/

namespace BlockchainValidator

open Execution Run

section

variable [Dag]

/-- The decodable envelopes, in block order and then payload order, each with
the author of its block. -/
def CommittedSubDag.decodable (subdag : CommittedSubDag) : List (Authority × Envelope) :=
  (Dag.sort subdag.blocks).flatMap fun block =>
    (Dag.transactions block).filterMap fun payload =>
      (Envelope.fromBytes payload).toOption.map (Dag.author block, ·)

namespace ExecutionState

/-- Decode everything, execute the transactions, mint, then record the votes.
The mean stamp is the one of a wrapping sum. -/
def twoPass [Hasher] [BuildProfile] (state : ExecutionState) (now : Duration)
    (subdag : CommittedSubDag) : Except Panic ((Nat × Option Checkpoint) × ExecutionState) := do
  let transactions := transactionsIn subdag.decodable
  let stampSumMs := (stampsIn subdag.decodable).foldl (· + ·) 0
  let (_, scheduler) ← state.scheduler.execute transactions
  let (minted, certifier) :=
    if 0 < transactions.length then
      let (minted, certifier) := state.certifier.push subdag.anchor scheduler.store.commitment
        ⟨now, stampSumMs / UInt64.ofNat transactions.length⟩
      (some minted, certifier)
    else (none, state.certifier)
  let (_, certifier) ← recordVotes certifier subdag.anchor (votesIn subdag.decodable)
  .ok ((transactions.length, minted), ⟨scheduler, certifier⟩)

/-- What `execute_subdag` returns and leaves. -/
def fused [Hasher] [BuildProfile] (state : ExecutionState) (now : Duration)
    (subdag : CommittedSubDag) : Except Panic ((Nat × Option Checkpoint) × ExecutionState) :=
  (fun result => ((result.1.executed, result.1.minted), result.2)) <$> state.executeSubdag now subdag

/-- Both passes return on the same inputs, with the same results. -/
def FusedAsTwoPass [Hasher] [BuildProfile] (state : ExecutionState) (now : Duration)
    (subdag : CommittedSubDag) : Prop :=
  ∀ result, state.fused now subdag = .ok result ↔ state.twoPass now subdag = .ok result

end ExecutionState

variable {subdag other : CommittedSubDag}

theorem CommittedSubDag.decodable_eq : subdag.decodable = decode subdag.payloads := by
  rw [decodable, payloads, decode, List.filterMap_flatMap]
  congr 1
  funext block
  rw [List.filterMap_map]
  congr 1
  funext payload
  simp only [Function.comp]
  cases Envelope.fromBytes payload <;> rfl

namespace ExecutionState

variable [BuildProfile]

/-- The closure over the payloads, on an envelope that decoded. -/
def pullDecoded (captured : Captured) (item : Authority × Envelope) :
    Except Panic (Option Transaction × Captured) :=
  match item.2.payload with
  | .execute transaction => do
      let stampSumMs ← addU64 captured.stampSumMs item.2.timestampMs
      .ok (some transaction, { captured with stampSumMs })
  | .attest vote => .ok (none, { captured with votes := captured.votes ++ [(item.1, vote)] })

variable [Hasher] {state : ExecutionState} {now : Duration}

theorem executeLazy_decode (captured : Captured) (scheduler : SequentialScheduler)
    (items : List (Authority × List UInt8)) :
    SequentialScheduler.executeLazy pull captured scheduler items =
      SequentialScheduler.executeLazy pullDecoded captured scheduler (decode items) := by
  induction items generalizing captured scheduler with
  | nil => rfl
  | cons item items ih =>
      cases read : Envelope.fromBytes item.2 with
      | error reason =>
          rw [decode_cons_error read, SequentialScheduler.executeLazy_skip (pull_error read), ih]
      | ok envelope =>
          have pulls : pull captured item = pullDecoded captured (item.1, envelope) := by
            obtain ⟨timestampMs, content⟩ := envelope
            cases content with
            | execute transaction | attest vote => simp only [pull, read, pullDecoded]
          rw [decode_cons_ok read, SequentialScheduler.executeLazy, SequentialScheduler.executeLazy,
            pulls]
          simp only [ih]

theorem executeSubdag_decodable (anchor : other.anchor = subdag.anchor)
    (same : other.decodable = subdag.decodable) :
    state.executeSubdag now other = state.executeSubdag now subdag := by
  rw [CommittedSubDag.decodable_eq, CommittedSubDag.decodable_eq] at same
  unfold executeSubdag
  rw [executeLazy_decode, executeLazy_decode, same, anchor]

theorem twoPass_eq :
    state.twoPass now subdag = (do
      let (_, scheduler) ← state.scheduler.execute subdag.transactions
      let (_, certifier) ← recordVotes (state.certifier.mint subdag scheduler.store.commitment now
        (subdag.stamps.foldl (· + ·) 0)) subdag.anchor subdag.votes
      .ok ((subdag.transactions.length, subdag.minted scheduler.store.commitment),
        ⟨scheduler, certifier⟩)) := by
  have transactions : transactionsIn (decode subdag.payloads) = subdag.transactions := rfl
  unfold twoPass
  simp only [CommittedSubDag.decodable_eq, CommittedSubDag.minted, CheckpointCertifier.mint,
    transactions]
  cases subdag.transactions with
  | nil => rfl
  | cons transaction transactions =>
      simp only [List.length_cons, Nat.zero_lt_succ, if_true, reduceCtorEq, if_false]
      rfl

theorem fused_ok {result : (Nat × Option Checkpoint) × ExecutionState} :
    state.fused now subdag = .ok result ↔
      (BuildProfile.overflowChecks = true → subdag.StampsFit) ∧
        state.twoPass now subdag = .ok result := by
  rw [fused, twoPass_eq]
  simp only [map_eq_ok, bind_eq_ok, Prod.exists]
  apply Iff.intro
  · intro ran
    obtain ⟨outcome, next, executed, same⟩ := ran
    obtain ⟨statuses, scheduler, sum, formed, certifier, summed, batch, recorded, rfl, rfl⟩ :=
      executeSubdag_ok.mp executed
    obtain ⟨rfl, fits⟩ := sumU64_eq_ok.mp summed
    rw [SubdagOutcome.executed, SequentialScheduler.execute_length batch] at same
    exact ⟨fun checked => (Nat.zero_add _).symm.trans_lt (fits checked), statuses, scheduler, batch, formed,
      certifier, recorded, congrArg _ same⟩
  · intro ran
    obtain ⟨fits, statuses, scheduler, batch, formed, certifier, recorded, same⟩ := ran
    have summed : sumU64 0 subdag.stamps = .ok (subdag.stamps.foldl (· + ·) 0) :=
      sumU64_eq_ok.mpr ⟨rfl, fun checked => (Nat.zero_add _).trans_lt (fits checked)⟩
    refine ⟨_, _, executeSubdag_ok.mpr ⟨statuses, scheduler, _, formed, certifier, summed, batch,
      recorded, rfl, rfl⟩, ?_⟩
    rw [SubdagOutcome.executed, SequentialScheduler.execute_length batch]
    exact Except.ok.inj same

/-- The fused pass is the two passes up to the overflow of the stamps' sum in a
checked build, and undecodable payloads have no part in it. -/
theorem fused_iff :
    (FusedAsTwoPass state now subdag ↔
      (BuildProfile.overflowChecks = true → subdag.StampsFit) ∨
        ∃ panic, state.twoPass now subdag = .error panic) ∧
    ∀ other : CommittedSubDag, other.anchor = subdag.anchor → other.decodable = subdag.decodable →
      state.fused now other = state.fused now subdag := by
  refine ⟨?_, fun other anchor same => by rw [fused, fused, executeSubdag_decodable anchor same]⟩
  simp only [FusedAsTwoPass, fused_ok]
  cases state.twoPass now subdag with
  | error panic => simp
  | ok result => simp

end ExecutionState

end

section

attribute [local instance] plainDag checkedBuild blake2b

/-- Two transactions of one block, stamped at 2 ^ 63. -/
private def lateStamps : CommittedSubDag :=
  ⟨plainReference 0 1, [((0 : UInt64), [plainAbort 0x8000000000000000, plainAbort 0x8000000000000000])]⟩

theorem late_stamps_panic :
    (ExecutionState.new fakeExecutor (plainCommittee 1 (by decide)) 1).fused .zero lateStamps =
        .error .addOverflow ∧
      (∃ next, (ExecutionState.new fakeExecutor (plainCommittee 1 (by decide)) 1).twoPass .zero
        lateStamps = .ok ((2, some ⟨plainReference 0 1, .default⟩), next)) ∧
      ¬ ExecutionState.FusedAsTwoPass (.new fakeExecutor (plainCommittee 1 (by decide)) 1) .zero
        lateStamps := by
  have panics : (ExecutionState.new fakeExecutor (plainCommittee 1 (by decide)) 1).fused .zero
      lateStamps = .error .addOverflow := rfl
  obtain ⟨next, returns⟩ : ∃ next, (ExecutionState.new fakeExecutor
      (plainCommittee 1 (by decide)) 1).twoPass .zero lateStamps =
        .ok ((2, some ⟨plainReference 0 1, .default⟩), next) := ⟨_, rfl⟩
  refine ⟨panics, ⟨next, returns⟩, fun same => ?_⟩
  have agreed := (same _).mpr returns
  rw [panics] at agreed
  cases agreed

end

end BlockchainValidator
