import BlockchainValidator.Checkpoint.Timings
import BlockchainValidator.Validator.NoPanic

/-! # The mean submission stamp of a checkpoint -/

namespace BlockchainValidator

open Execution Run

section

variable [Dag]

theorem stampsIn_length (decoded : List (Authority × Envelope)) :
    (stampsIn decoded).length = (transactionsIn decoded).length := by
  induction decoded with
  | nil => rfl
  | cons item items ih =>
      obtain ⟨author, timestampMs, content⟩ := item
      cases content with
      | execute transaction => exact congrArg (· + 1) ih
      | attest vote => exact ih

section

variable {item : Authority × List UInt8} {before after items : List (Authority × List UInt8)}
  {timestampMs : UInt64} {transaction : Transaction}

/-- What decodes around a payload that carries a transaction. -/
theorem decode_around (read : Envelope.fromBytes item.2 = .ok ⟨timestampMs, .execute transaction⟩) :
    decode (before ++ item :: after) =
      decode before ++ (item.1, ⟨timestampMs, .execute transaction⟩) :: decode after := by
  rw [← ExecutionState.decode_cons_ok read]
  exact List.filterMap_append

/-- Every decoded transaction is that of a payload. -/
theorem exists_payload {count : Nat} (inside : count < (transactionsIn (decode items)).length) :
    ∃ before item after timestampMs transaction, items = before ++ item :: after ∧
      Envelope.fromBytes item.2 = .ok ⟨timestampMs, .execute transaction⟩ ∧
      (transactionsIn (decode before)).length = count := by
  induction items generalizing count with
  | nil => cases inside
  | cons first items ih =>
      cases read : Envelope.fromBytes first.2 with
      | error reason =>
          rw [ExecutionState.decode_cons_error read] at inside
          obtain ⟨before, item, after, stamp, transaction, rfl, carried, same⟩ := ih inside
          refine ⟨first :: before, item, after, stamp, transaction, rfl, carried, ?_⟩
          rw [ExecutionState.decode_cons_error read]
          exact same
      | ok envelope =>
          obtain ⟨timestampMs, content⟩ := envelope
          rw [ExecutionState.decode_cons_ok read] at inside
          cases content with
          | attest vote =>
              obtain ⟨before, item, after, stamp, transaction, rfl, carried, same⟩ := ih inside
              refine ⟨first :: before, item, after, stamp, transaction, rfl, carried, ?_⟩
              rw [ExecutionState.decode_cons_ok read]
              exact same
          | execute transaction =>
              cases count with
              | zero => exact ⟨[], first, items, timestampMs, transaction, rfl, read, rfl⟩
              | succ count =>
                  obtain ⟨before, item, after, stamp, transaction, rfl, carried, same⟩ :=
                    ih (Nat.lt_of_succ_lt_succ inside)
                  refine ⟨first :: before, item, after, stamp, transaction, rfl, carried, ?_⟩
                  rw [ExecutionState.decode_cons_ok read]
                  exact congrArg (· + 1) same

end

namespace CommittedSubDag

/-- The floor of the mean of the Execute payloads' stamps. -/
def meanStamp (subdag : CommittedSubDag) : Nat :=
  (subdag.stamps.map UInt64.toNat).sum / subdag.stamps.length

/-- At each transaction that is reached, none before it having panicked, the
stamps up to its own fit. -/
def ReachedStampsFit [Hasher] (subdag : CommittedSubDag) (scheduler : SequentialScheduler) : Prop :=
  ∀ count < subdag.transactions.length,
    (∃ result, scheduler.execute (subdag.transactions.take count) = .ok result) →
      ((subdag.stamps.take (count + 1)).map UInt64.toNat).sum < 2 ^ 64

theorem stamps_length (subdag : CommittedSubDag) :
    subdag.stamps.length = subdag.transactions.length :=
  stampsIn_length _

section

variable [Hasher] {subdag : CommittedSubDag} {scheduler : SequentialScheduler}

theorem StampsFit.reached (fit : subdag.StampsFit) : subdag.ReachedStampsFit scheduler := by
  intro count _ _
  have part := ((List.take_sublist (count + 1) subdag.stamps).map UInt64.toNat).sum_le_sum
    fun _ _ => Nat.zero_le _
  exact Nat.lt_of_le_of_lt part fit

/-- Where nothing panics, all stamps are reached. -/
theorem ReachedStampsFit.whole (fit : subdag.ReachedStampsFit scheduler)
    (executes : subdag.transactions ≠ [])
    {result : List ExecutionStatus × SequentialScheduler}
    (executed : scheduler.execute subdag.transactions = .ok result) : subdag.StampsFit := by
  have positive := List.length_pos_of_ne_nil executes
  let count := subdag.transactions.length - 1
  rw [← List.take_append_drop count subdag.transactions] at executed
  obtain ⟨_, _, _, front, -⟩ := SequentialScheduler.execute_append_ok.mp executed
  have last := fit count (by omega) ⟨_, front⟩
  rw [List.take_of_length_le (by rw [stamps_length]; omega)] at last
  exact last

end

variable {subdag : CommittedSubDag} {bound : UInt64}

/-- Bounds of the stamps are bounds of their mean. -/
theorem meanStamp_le (above : ∀ stamp ∈ subdag.stamps, stamp ≤ bound) :
    subdag.meanStamp ≤ bound.toNat := by
  have most := List.sum_le_card_nsmul (subdag.stamps.map UInt64.toNat) bound.toNat (by
    intro value listed
    obtain ⟨stamp, inside, rfl⟩ := List.mem_map.mp listed
    exact UInt64.le_iff_toNat_le.mp (above stamp inside))
  rw [List.length_map, nsmul_eq_mul, Nat.cast_id] at most
  exact Nat.div_le_of_le_mul most

theorem le_meanStamp (executes : subdag.stamps ≠ []) (below : ∀ stamp ∈ subdag.stamps, bound ≤ stamp) :
    bound.toNat ≤ subdag.meanStamp := by
  have positive : 0 < subdag.stamps.length := List.length_pos_of_ne_nil executes
  have least := List.card_nsmul_le_sum (subdag.stamps.map UInt64.toNat) bound.toNat (by
    intro value listed
    obtain ⟨stamp, inside, rfl⟩ := List.mem_map.mp listed
    exact UInt64.le_iff_toNat_le.mp (below stamp inside))
  rw [List.length_map, nsmul_eq_mul, Nat.cast_id, Nat.mul_comm] at least
  exact (Nat.le_div_iff_mul_le positive).mpr least

end CommittedSubDag

section

variable [BuildProfile]

theorem ExecutionState.recordVotes_timings {certifier next : CheckpointCertifier}
    {anchor delivered : BlockReference} {timings : CheckpointTimings}
    {votes : List (Authority × Checkpoint)} {formed : List (Option Formed)}
    (kept : certifier.TimingsKept [] anchor timings)
    (recorded : recordVotes certifier delivered votes = .ok (formed, next)) :
    next.TimingsKept formed anchor timings :=
  run_history (fun _ formed certifier => certifier.TimingsKept formed anchor timings)
    (fun _ _ _ _ _ _ _ held tallied => held.tally tallied) kept recorded

end

/-- What is decoded before a transaction. -/
theorem CommittedSubDag.reached_before {subdag : CommittedSubDag}
    {before after : List (Authority × List UInt8)} {item : Authority × List UInt8}
    {timestampMs : UInt64} {transaction : Transaction}
    (split : subdag.payloads = before ++ item :: after)
    (read : Envelope.fromBytes item.2 = .ok ⟨timestampMs, .execute transaction⟩) :
    (transactionsIn (decode before)).length < subdag.transactions.length ∧
    subdag.transactions.take (transactionsIn (decode before)).length = transactionsIn (decode before) ∧
    subdag.stamps.take (transactionsIn (decode before)).length = stampsIn (decode before) ∧
    subdag.stamps.take ((transactionsIn (decode before)).length + 1) =
      stampsIn (decode before) ++ [timestampMs] := by
  have transactions : subdag.transactions =
      transactionsIn (decode before) ++ transaction :: transactionsIn (decode after) := by
    rw [CommittedSubDag.transactions, split, decode_around read, transactionsIn, List.filterMap_append]
    rfl
  have stamps : subdag.stamps = stampsIn (decode before) ++ timestampMs :: stampsIn (decode after) := by
    rw [CommittedSubDag.stamps, split, decode_around read, stampsIn, List.filterMap_append]
    rfl
  rw [transactions, stamps, ← stampsIn_length]
  refine ⟨?_, ?_, List.take_left, ?_⟩
  · rw [stampsIn_length, List.length_append, List.length_cons]
    omega
  · rw [stampsIn_length, List.take_left]
  · rw [List.append_cons, List.take_left' (by simp)]

/-- No addition of the stamps that is made overflows, the sum is the true one,
and the checkpoint is stored with the floor of the mean, which lies between the
least and the greatest stamp. -/
structure StampsAveraged [Hasher] [BuildProfile] (state : ExecutionState) (now : Duration)
    (subdag : CommittedSubDag) : Prop where
  additions : ∀ before item after timestampMs transaction statuses captured scheduler,
    subdag.payloads = before ++ item :: after →
    Envelope.fromBytes item.2 = .ok ⟨timestampMs, .execute transaction⟩ →
    SequentialScheduler.executeLazy ExecutionState.pull ⟨[], 0⟩ state.scheduler before =
      .ok (statuses, captured, scheduler) →
    captured.stampSumMs.toNat + timestampMs.toNat < 2 ^ 64
  sum : ∀ statuses scheduler,
    state.scheduler.execute subdag.transactions = .ok (statuses, scheduler) →
    ∃ captured, SequentialScheduler.executeLazy ExecutionState.pull ⟨[], 0⟩ state.scheduler
        subdag.payloads = .ok (statuses, captured, scheduler) ∧
      captured.stampSumMs.toNat = (subdag.stamps.map UInt64.toNat).sum
  mean : ∀ outcome next, state.executeSubdag now subdag = .ok (outcome, next) →
    ∃ checkpoint mean, outcome.minted = some checkpoint ∧
      next.certifier.TimingsKept outcome.formed checkpoint.anchor ⟨now, mean⟩ ∧
      mean.toNat = subdag.meanStamp ∧
      ∀ least greatest, (∀ stamp ∈ subdag.stamps, least ≤ stamp ∧ stamp ≤ greatest) →
        least ≤ mean ∧ mean ≤ greatest

variable [Hasher] [BuildProfile] {state next : ExecutionState} {now : Duration} {subdag : CommittedSubDag}
  {outcome : SubdagOutcome}

/-- Where the true sum fits, a checkpoint is stored with its mean. -/
theorem ExecutionState.mean_stored (executes : subdag.transactions ≠ [])
    (few : subdag.transactions.length < 2 ^ 64) (fit : subdag.StampsFit)
    (ran : state.executeSubdag now subdag = .ok (outcome, next)) :
    ∃ checkpoint mean, outcome.minted = some checkpoint ∧
      next.certifier.TimingsKept outcome.formed checkpoint.anchor ⟨now, mean⟩ ∧
      mean.toNat = subdag.meanStamp ∧
      ∀ least greatest, (∀ stamp ∈ subdag.stamps, least ≤ stamp ∧ stamp ≤ greatest) →
        least ≤ mean ∧ mean ≤ greatest := by
  have stamped : subdag.stamps ≠ [] := by
    intro none
    apply executes
    rw [← List.length_eq_zero_iff, ← subdag.stamps_length, none]
    rfl
  obtain ⟨statuses, scheduler, sum, formed, certifier, summed, -, recorded, rfl, rfl⟩ :=
    executeSubdag_ok.mp ran
  let mean := sum / .ofNat subdag.transactions.length
  have value : mean.toNat = subdag.meanStamp := by
    rw [UInt64.toNat_div, UInt64.toNat_ofNat_of_lt' few, sumU64_exact fit summed, ← subdag.stamps_length]
    rfl
  rw [CheckpointCertifier.mint, if_neg executes] at recorded
  have pushed : (state.certifier.push subdag.anchor scheduler.store.commitment
      ⟨now, mean⟩).2.TimingsKept [] subdag.anchor ⟨now, mean⟩ :=
    .inl ⟨_, List.mem_append_right _ (List.mem_singleton_self _), rfl, rfl, rfl⟩
  refine ⟨⟨subdag.anchor, scheduler.store.commitment⟩, mean, if_neg executes,
    recordVotes_timings pushed recorded, value, fun least greatest bounds => ?_⟩
  rw [UInt64.le_iff_toNat_le, UInt64.le_iff_toNat_le, value]
  exact ⟨subdag.le_meanStamp stamped fun stamp listed => (bounds stamp listed).1,
    subdag.meanStamp_le fun stamp listed => (bounds stamp listed).2⟩

/-- The addition at a transaction that is reached does not overflow. -/
theorem StampsAveraged.next_fits (averaged : StampsAveraged state now subdag) {count : Nat}
    (inside : count < subdag.transactions.length)
    (executes : ∃ result, state.scheduler.execute (subdag.transactions.take count) = .ok result)
    (earlier : ((subdag.stamps.take count).map UInt64.toNat).sum < 2 ^ 64) :
    ((subdag.stamps.take (count + 1)).map UInt64.toNat).sum < 2 ^ 64 := by
  obtain ⟨⟨statuses, scheduler⟩, executed⟩ := executes
  obtain ⟨before, item, after, timestampMs, transaction, split, read, rfl⟩ := exists_payload inside
  obtain ⟨-, front, stamps, more⟩ := CommittedSubDag.reached_before split read
  rw [front] at executed
  rw [stamps] at earlier
  obtain ⟨sum, summed⟩ := sumU64_of_lt earlier
  have added := averaged.additions _ _ _ _ _ _ _ _ split read
    (ExecutionState.executeLazy_pull_ok.mpr ⟨sum, summed, executed, rfl⟩)
  rw [sumU64_exact earlier summed] at added
  rw [more, List.map_append, List.sum_append, List.map_singleton, List.sum_singleton]
  exact added

theorem StampsAveraged.of_reached (executes : subdag.transactions ≠ [])
    (few : subdag.transactions.length < 2 ^ 64) (fit : subdag.ReachedStampsFit state.scheduler) :
    StampsAveraged state now subdag where
  additions := by
    intro before item after timestampMs transaction statuses captured scheduler split read passed
    obtain ⟨sum, summed, executed, rfl⟩ := ExecutionState.executeLazy_pull_ok.mp passed
    obtain ⟨inside, front, -, stamps⟩ := CommittedSubDag.reached_before split read
    have reached := fit _ inside ⟨_, by rw [front]; exact executed⟩
    rw [stamps, List.map_append, List.sum_append, List.map_singleton, List.sum_singleton] at reached
    rw [sumU64_exact (by omega) summed]
    exact reached
  sum := by
    intro statuses scheduler executed
    have whole := fit.whole executes executed
    obtain ⟨sum, summed⟩ := sumU64_of_lt whole
    exact ⟨_, ExecutionState.executeLazy_pull_ok.mpr ⟨sum, summed, executed, rfl⟩,
      sumU64_exact whole summed⟩
  mean := by
    intro outcome next ran
    obtain ⟨_, _, _, _, _, -, executed, -⟩ := ExecutionState.executeSubdag_ok.mp ran
    exact ExecutionState.mean_stored executes few (fit.whole executes executed) ran

/-- Without an overflow on the way the stamps fit as far as they are reached. -/
theorem StampsAveraged.reached (averaged : StampsAveraged state now subdag) :
    subdag.ReachedStampsFit state.scheduler := by
  intro count inside executes
  induction count with
  | zero => exact averaged.next_fits inside executes (Nat.two_pow_pos 64)
  | succ count ih =>
      apply averaged.next_fits inside executes
      -- What is reached before this transaction fits.
      apply ih (Nat.lt_of_succ_lt inside)
      obtain ⟨_, executed⟩ := executes
      rw [← List.take_append_drop count (subdag.transactions.take (count + 1)), List.take_take,
        Nat.min_eq_left (Nat.le_succ count)] at executed
      obtain ⟨_, _, _, front, -⟩ := SequentialScheduler.execute_append_ok.mp executed
      exact ⟨_, front⟩

/-- The mean is exact where the true sum fits as far as it is reached.  Whatever
the state, it is exact where the true sum fits. -/
theorem stampsAveraged_iff (executes : subdag.transactions ≠ [])
    (few : subdag.transactions.length < 2 ^ 64) :
    (StampsAveraged state now subdag ↔ subdag.ReachedStampsFit state.scheduler) ∧
    ((∀ state now, StampsAveraged state now subdag) ↔ subdag.StampsFit) := by
  refine ⟨⟨fun averaged => averaged.reached, fun fit => .of_reached executes few fit⟩,
    fun averaged => ?_, fun fit state now => .of_reached executes few fit.reached⟩
  obtain ⟨statuses, executed⟩ :=
    SequentialScheduler.aborting_executes state.scheduler.store subdag.transactions
  exact (averaged ⟨⟨_, abortingEngine⟩, state.certifier⟩ now).reached.whole executes executed

end

section

attribute [local instance] plainDag blake2b

/-- Two transactions of one block, and an undecodable payload. -/
private def twoStamps (first second : UInt64) : CommittedSubDag :=
  ⟨plainReference 0 1, [((0 : UInt64), [plainAbort first, [255], plainAbort second])]⟩

private def freshState : ExecutionState := .new fakeExecutor (plainCommittee 1 (by decide)) 1

private theorem late_not_averaged [BuildProfile] :
    ¬ StampsAveraged freshState .zero (twoStamps 0x8000000000000000 0x8000000000000000) := by
  intro averaged
  obtain ⟨captured, -, total⟩ := averaged.sum [.aborted .explicitAbort, .aborted .explicitAbort]
    freshState.scheduler rfl
  have sum : ((twoStamps 0x8000000000000000 0x8000000000000000).stamps.map UInt64.toNat).sum =
      2 ^ 64 := by decide +kernel
  have bound := captured.stampSumMs.toNat_lt
  omega

/-- Stamps of 2 ^ 63 stop a checked build and average to zero in the release build. -/
theorem late_mean_wraps :
    (twoStamps 0x8000000000000000 0x8000000000000000).meanStamp = 2 ^ 63 ∧
    (@ExecutionState.executeSubdag _ blake2b checkedBuild freshState .zero
        (twoStamps 0x8000000000000000 0x8000000000000000) = .error .addOverflow ∧
      ¬ @StampsAveraged _ blake2b checkedBuild freshState .zero
        (twoStamps 0x8000000000000000 0x8000000000000000)) ∧
    ∃ outcome next, @ExecutionState.executeSubdag _ blake2b releaseBuild freshState .zero
        (twoStamps 0x8000000000000000 0x8000000000000000) = .ok (outcome, next) ∧
      next.certifier.pendingTimings = [(⟨plainReference 0 1, .default⟩, ⟨.zero, 0⟩)] ∧
      ¬ @StampsAveraged _ blake2b releaseBuild freshState .zero
        (twoStamps 0x8000000000000000 0x8000000000000000) :=
  ⟨by decide +kernel, ⟨rfl, @late_not_averaged checkedBuild⟩, _, _, rfl, rfl,
    @late_not_averaged releaseBuild⟩

theorem mean_of_two :
    @StampsAveraged _ blake2b checkedBuild freshState .zero (twoStamps 1000 3000) := by
  refine (@stampsAveraged_iff _ blake2b checkedBuild freshState .zero (twoStamps 1000 3000)
    (by decide +kernel) (by decide +kernel)).1.mpr (CommittedSubDag.StampsFit.reached ?_)
  rw [CommittedSubDag.StampsFit]
  decide +kernel

end

end BlockchainValidator
