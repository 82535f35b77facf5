import BlockchainValidator.Validator.EmittedIds
import BlockchainValidator.Validator.Shipping

/-! # The loop of the load generator

Each tick fills a batch and ships it, until the client rejects a block.  The
loop then returns without counting the batch that was cut short.
-/

namespace BlockchainValidator

open Execution Run

namespace TransactionGenerator

/-- The variables of the loop, with what it has submitted. -/
structure LoadLoop where
  stream : IdStream
  submitted : List (List (List UInt8))
  /-- The metric, which the loop raises after each batch. -/
  submittedTransactions : UInt64
  returned : Bool

/-! ## Accepted submissions -/

section

variable {α : Type} {client : Nat → Bool} {items more submitted : List α}

theorem accepted_append : accepted client (items ++ more) =
    accepted client items ++ accepted (fun index => client (items.length + index)) more := by
  induction items generalizing client with
  | nil => simp only [List.nil_append, accepted, List.length_nil, Nat.zero_add]
  | cons item items ih =>
      have shift : (fun index => client (items.length + index + 1)) =
          fun index => client ((item :: items).length + index) := by
        funext index
        rw [List.length_cons, Nat.add_right_comm]
      rw [List.cons_append, accepted, accepted, ih, shift]
      split <;> rfl

theorem accepted_all (all : ∀ index < items.length, client index = true) :
    accepted client items = items := by
  induction items generalizing client with
  | nil => rfl
  | cons item items ih =>
      rw [accepted, if_pos (all 0 (Nat.zero_lt_succ _)), ih]
      exact fun index within => all (index + 1) (Nat.succ_lt_succ within)

/-- A shipment that was cut short ends in its one rejected submission. -/
theorem Sent.cut_short (sent : Sent client items submitted false) :
    ∃ front last, submitted = front ++ [last] ∧ (∀ index < front.length, client index = true) ∧
      client front.length = false := by
  have rejects : ¬ ∀ index < submitted.length, client index = true := fun all =>
    Bool.false_ne_true (sent.shipped_iff.mpr all)
  rcases List.eq_nil_or_concat submitted with rfl | ⟨front, last, rfl⟩
  · exact absurd (fun index within => absurd within (Nat.not_lt_zero index)) rejects
  · rw [List.concat_eq_append] at sent rejects ⊢
    have answers : ∀ index < front.length, client index = true := by
      intro index within
      apply sent.untilRejected
      rw [List.length_append, List.length_singleton]
      exact Nat.succ_lt_succ within
    refine ⟨front, last, rfl, answers, Bool.eq_false_iff.mpr fun answer => rejects ?_⟩
    intro index within
    rw [List.length_append, List.length_singleton] at within
    rcases Nat.lt_succ_iff_lt_or_eq.mp within with before | rfl
    · exact answers index before
    · exact answer

end

/-! ## The loop -/

section

variable [Dag]

def LoadLoop.start (generator : TransactionGenerator) : LoadLoop := ⟨generator.stream, [], 0, false⟩

/-- The body of the loop in `run`, at a reading of the clock.  `client` answers whether a
submission is accepted, by its index since the start. -/
def tick [BuildProfile] (client : Nat → Bool) (maxBlockSize : UInt64) (config : LoadGeneratorConfig)
    (generator : TransactionGenerator) (loop : LoadLoop) (now : Duration) :
    Except Panic (Unit × LoadLoop) :=
  if loop.returned then .ok ((), loop)
  else do
    let (batch, stream) ← fillBatch now.asMillis generator.transactionsPerInterval generator.argsLen
      generator.nameSpace loop.stream
    let (blocks, shipped) ← shipBlocks (fun index => client (loop.submitted.length + index))
      maxBlockSize config.transactionSize batch
    let submittedTransactions :=
      if shipped then loop.submittedTransactions + .ofNat generator.transactionsPerInterval
      else loop.submittedTransactions
    .ok ((), ⟨stream, loop.submitted ++ blocks, submittedTransactions, !shipped⟩)

/-- The batches that the readings of the clock call for. -/
def batches (generator : TransactionGenerator) (readings : List Duration) : List Batch :=
  readings.map fun now => ⟨now.asMillis, generator.transactionsPerInterval⟩

omit [Dag] in
theorem total_batches (generator : TransactionGenerator) (readings : List Duration) :
    total (generator.batches readings) = readings.length * generator.transactionsPerInterval := by
  rw [total, batches, List.map_map, ← List.sum_replicate_nat, ← List.map_const']
  rfl

/-- The payloads that the client has accepted. -/
def LoadLoop.acceptedBy (loop : LoadLoop) (client : Nat → Bool) : List (List UInt8) :=
  (accepted client loop.submitted).flatten

/-! ## While it runs, and after -/

section

variable [BuildProfile] {client : Nat → Bool} {maxBlockSize : UInt64} {config : LoadGeneratorConfig}
  {generator : TransactionGenerator} {readings : List Duration} {loop next : LoadLoop} {now : Duration}

/-- Every batch so far was accepted whole. -/
structure Running (client : Nat → Bool) (generator : TransactionGenerator) (readings : List Duration)
    (loop : LoadLoop) : Prop where
  live : loop.returned = false
  emitted : ∃ outputs, emit generator.argsLen generator.nameSpace generator.stream
    (generator.batches readings) = .ok (outputs, loop.stream) ∧
      loop.submitted.flatten = outputs.flatten
  accepts : ∀ index < loop.submitted.length, client index = true
  counted : loop.submittedTransactions = .ofNat (readings.length * generator.transactionsPerInterval)

/-- Every batch was accepted whole until one was cut short. -/
structure Returned (client : Nat → Bool) (generator : TransactionGenerator) (readings : List Duration)
    (loop : LoadLoop) : Prop where
  ended : loop.returned = true
  emitted : ∃ front now rest outputs stream, readings = front ++ now :: rest ∧
    emit generator.argsLen generator.nameSpace generator.stream (generator.batches (front ++ [now])) =
      .ok (outputs, stream) ∧ loop.acceptedBy client <+: outputs.flatten ∧
    front.length * generator.transactionsPerInterval ≤ (loop.acceptedBy client).length ∧
    (loop.acceptedBy client).length < (front ++ [now]).length * generator.transactionsPerInterval ∧
    loop.submittedTransactions = .ofNat (front.length * generator.transactionsPerInterval)
  rejected : ∃ front last, loop.submitted = front ++ [last] ∧
    (∀ index < front.length, client index = true) ∧ client front.length = false

theorem emit_length {argsLen nameSpace : UInt64} {stream last : IdStream} {batches : List Batch}
    {outputs : List (List (List UInt8))}
    (emitted : emit argsLen nameSpace stream batches = .ok (outputs, last)) :
    outputs.flatten.length = total batches := by
  rw [(emit_carries emitted).length_eq, idsFrom_length]

theorem Running.acceptedBy (running : Running client generator readings loop) :
    loop.acceptedBy client = loop.submitted.flatten := by
  rw [LoadLoop.acceptedBy, accepted_all running.accepts]

theorem start_running (client : Nat → Bool) (generator : TransactionGenerator) :
    Running client generator [] (.start generator) where
  live := rfl
  emitted := ⟨[], rfl, rfl⟩
  accepts _ within := absurd within (Nat.not_lt_zero _)
  counted := by
    rw [List.length_nil, Nat.zero_mul]
    rfl

theorem Returned.tick (returned : Returned client generator readings loop) (now : Duration) :
    tick client maxBlockSize config generator loop now = .ok ((), loop) ∧
      Returned client generator (readings ++ [now]) loop := by
  refine ⟨if_pos returned.ended, returned.ended, ?_, returned.rejected⟩
  obtain ⟨front, last, rest, outputs, stream, rfl, emitted⟩ := returned.emitted
  exact ⟨front, last, rest ++ [now], outputs, stream, by simp, emitted⟩

theorem tick_of_shipped {batch : List (List UInt8)} {blocks : List (List (List UInt8))}
    {stream : IdStream} {shipped : Bool} (live : loop.returned = false)
    (filled : fillBatch now.asMillis generator.transactionsPerInterval generator.argsLen
      generator.nameSpace loop.stream = .ok (batch, stream))
    (returned : shipBlocks (fun index => client (loop.submitted.length + index)) maxBlockSize
      config.transactionSize batch = .ok (blocks, shipped)) :
    tick client maxBlockSize config generator loop now = .ok ((), ⟨stream, loop.submitted ++ blocks,
      if shipped then loop.submittedTransactions + .ofNat generator.transactionsPerInterval
      else loop.submittedTransactions, !shipped⟩) := by
  rw [tick, if_neg (by simp [live])]
  simp only [filled, bind_ok, returned]

theorem Running.counted_next (running : Running client generator readings loop) (now : Duration) :
    loop.submittedTransactions + .ofNat generator.transactionsPerInterval =
      .ofNat ((readings ++ [now]).length * generator.transactionsPerInterval) := by
  rw [running.counted, List.length_append, List.length_singleton, Nat.add_mul, Nat.one_mul,
    UInt64.ofNat_add]

/-- A batch that is accepted whole. -/
theorem Running.shipped (running : Running client generator readings loop)
    {batch : List (List UInt8)} {blocks : List (List (List UInt8))} {stream : IdStream}
    (filled : fillBatch now.asMillis generator.transactionsPerInterval generator.argsLen
      generator.nameSpace loop.stream = .ok (batch, stream))
    (whole : blocks.flatten = batch)
    (accepts : ∀ index < blocks.length, client (loop.submitted.length + index) = true) :
    Running client generator (readings ++ [now]) ⟨stream, loop.submitted ++ blocks,
      loop.submittedTransactions + .ofNat generator.transactionsPerInterval, false⟩ where
  live := rfl
  emitted := by
    obtain ⟨outputs, emitted, same⟩ := running.emitted
    refine ⟨outputs ++ [batch], ?_, ?_⟩
    · rw [batches, List.map_append]
      exact run_concat_ok.mpr ⟨_, _, _, _, emitted, filled, rfl⟩
    · rw [List.flatten_append, List.flatten_append, same, whole, List.flatten_singleton]
  accepts := by
    intro index within
    rw [List.length_append] at within
    rcases Nat.lt_or_ge index loop.submitted.length with earlier | later
    · exact running.accepts index earlier
    · rw [← Nat.add_sub_of_le later]
      exact accepts (index - loop.submitted.length) (by omega)
  counted := running.counted_next now

/-- A batch that is cut short. -/
theorem Running.cut_short (running : Running client generator readings loop)
    {batch : List (List UInt8)} {front rest : List (List (List UInt8))} {last : List (List UInt8)}
    {stream : IdStream}
    (filled : fillBatch now.asMillis generator.transactionsPerInterval generator.argsLen
      generator.nameSpace loop.stream = .ok (batch, stream))
    (pieces : (front ++ [last] ++ rest).flatten = batch) (nonempty : last ≠ [])
    (accepts : ∀ index < front.length, client (loop.submitted.length + index) = true)
    (rejects : client (loop.submitted.length + front.length) = false) :
    Returned client generator (readings ++ [now])
      ⟨stream, loop.submitted ++ (front ++ [last]), loop.submittedTransactions, true⟩ := by
  obtain ⟨outputs, emitted, same⟩ := running.emitted
  have taken : LoadLoop.acceptedBy
      ⟨stream, loop.submitted ++ (front ++ [last]), loop.submittedTransactions, true⟩ client =
        outputs.flatten ++ front.flatten := by
    rw [LoadLoop.acceptedBy, accepted_append, accepted_all running.accepts, accepted_append,
      accepted_all accepts, accepted, if_neg (by simp [rejects]), accepted, List.append_nil,
      List.flatten_append, same]
  have whole : emit generator.argsLen generator.nameSpace generator.stream
      (generator.batches (readings ++ [now])) = .ok (outputs ++ [batch], stream) := by
    rw [batches, List.map_append]
    exact run_concat_ok.mpr ⟨_, _, _, _, emitted, filled, rfl⟩
  have longer : outputs.flatten ++ front.flatten ++ (last ++ rest.flatten) =
      (outputs ++ [batch]).flatten := by
    rw [List.flatten_append, List.flatten_singleton, ← pieces]
    simp only [List.flatten_append, List.flatten_singleton, List.append_assoc]
  constructor
  · rfl
  · have before := emit_length emitted
    have after := emit_length whole
    rw [total_batches] at before after
    rw [← longer] at after
    have some := List.length_pos_of_ne_nil nonempty
    refine ⟨readings, now, [], outputs ++ [batch], stream, rfl, whole, ?_, ?_, ?_, running.counted⟩
    · rw [taken, ← longer]
      exact List.prefix_append _ _
    · rw [taken, List.length_append]
      omega
    · rw [taken, ← after]
      simp only [List.length_append]
      omega
  · refine ⟨loop.submitted ++ front, last, (List.append_assoc ..).symm, fun index within => ?_, ?_⟩
    · rw [List.length_append] at within
      rcases Nat.lt_or_ge index loop.submitted.length with earlier | later
      · exact running.accepts index earlier
      · rw [← Nat.add_sub_of_le later]
        exact accepts (index - loop.submitted.length) (by omega)
    · rw [List.length_append]
      exact rejects

theorem Running.tick (running : Running client generator readings loop)
    (room : loop.stream.counter.toNat + generator.transactionsPerInterval < 2 ^ 64)
    (fits : Fits maxBlockSize.toNat config.transactionSize.toNat generator.transactionsPerInterval)
    (now : Duration) :
    ∃ next, tick client maxBlockSize config generator loop now = .ok ((), next) ∧
      (Running client generator (readings ++ [now]) next ∨
        Returned client generator (readings ++ [now]) next) := by
  have filled := (@fillBatch_ok _ _ now.asMillis generator.argsLen generator.nameSpace loop.stream
    generator.transactionsPerInterval _).mpr ⟨fun _ => room, rfl⟩
  generalize size : (idsFrom generator.nameSpace loop.stream generator.transactionsPerInterval).map
    (fun id => (transaction now.asMillis id (zeros generator.argsLen)).toBytes) = batch at filled
  have length : batch.length = generator.transactionsPerInterval := by
    rw [← size, List.length_map, idsFrom_length]
  rw [← length] at fits
  obtain ⟨blocks, shipped, returned, sent⟩ :=
    shipBlocks_sent (fun index => client (loop.submitted.length + index)) fits
  have pieces := (@cut_chunked _ maxBlockSize.toNat config.transactionSize.toNat batch).toPieces
  refine ⟨_, tick_of_shipped running.live filled returned, ?_⟩
  cases shipped with
  | true =>
      left
      obtain rfl := sent.all rfl
      exact running.shipped filled pieces.whole (sent.shipped_iff.mp rfl)
  | false =>
      right
      obtain ⟨front, last, rfl, accepts, rejects⟩ := sent.cut_short
      obtain ⟨rest, split⟩ := sent.inOrder
      have whole := pieces.whole
      rw [← split] at whole
      refine running.cut_short filled whole (pieces.nonempty last ?_) accepts rejects
      rw [← split]
      simp

theorem emit_stream {argsLen nameSpace : UInt64} {stream last : IdStream} {batches : List Batch}
    {outputs : List (List (List UInt8))}
    (emitted : emit argsLen nameSpace stream batches = .ok (outputs, last)) :
    last = IdStream.advance^[total batches] stream := by
  induction batches generalizing stream outputs with
  | nil =>
      cases emitted
      rfl
  | cons batch batches ih =>
      obtain ⟨payloads, next, rest, _, filled, tail, same⟩ := run_cons_ok.mp emitted
      cases same
      have split : total (batch :: batches) = batch.count + total batches := List.sum_cons
      rw [ih tail, (Prod.mk.inj (fillBatch_ok.mp filled).2).2, split, Nat.add_comm,
        Function.iterate_add_apply]

theorem Running.counter (running : Running client generator readings loop)
    (few : generator.stream.counter.toNat + readings.length * generator.transactionsPerInterval < 2 ^ 64) :
    loop.stream.counter.toNat =
      generator.stream.counter.toNat + readings.length * generator.transactionsPerInterval := by
  obtain ⟨outputs, emitted, -⟩ := running.emitted
  rw [← total_batches] at few ⊢
  rw [emit_stream emitted]
  exact advance_counter few

theorem run_tick
    (few : generator.stream.counter.toNat + readings.length * generator.transactionsPerInterval < 2 ^ 64)
    (fits : Fits maxBlockSize.toNat config.transactionSize.toNat generator.transactionsPerInterval) :
    ∃ outputs loop, run (TransactionGenerator.tick client maxBlockSize config generator) (.start generator)
        readings = .ok (outputs, loop) ∧
      (Running client generator readings loop ∨ Returned client generator readings loop) := by
  induction readings using List.reverseRecOn with
  | nil => exact ⟨[], _, rfl, .inl (start_running client generator)⟩
  | append_singleton readings now ih =>
      rw [List.length_append, List.length_singleton, Nat.add_mul, Nat.one_mul] at few
      obtain ⟨outputs, loop, ran, state⟩ := ih (by omega)
      rcases state with running | returned
      · have counter := running.counter (by omega)
        obtain ⟨next, ticked, after⟩ := running.tick (by omega) fits now
        exact ⟨_, next, run_concat_ok.mpr ⟨_, _, _, _, ran, ticked, rfl⟩, after⟩
      · obtain ⟨ticked, after⟩ := returned.tick now
        exact ⟨_, loop, run_concat_ok.mpr ⟨_, _, _, _, ran, ticked, rfl⟩, .inr after⟩

/-- What the client has accepted, against what the loop emits and counts. -/
structure Accounted (client : Nat → Bool) (config : LoadGeneratorConfig)
    (generator : TransactionGenerator) (emission : List (List UInt8)) (loop : LoadLoop) : Prop where
  inOrder : loop.acceptedBy client <+: emission
  running : loop.returned = false → loop.acceptedBy client = emission ∧
    loop.submittedTransactions.toNat = emission.length
  /-- The metric leaves out what was accepted of the batch that was cut short. -/
  cutShort : loop.returned = true →
    loop.submittedTransactions.toNat ≤ (loop.acceptedBy client).length ∧
      (loop.acceptedBy client).length <
        loop.submittedTransactions.toNat + generator.transactionsPerInterval
  returned_iff : loop.returned = true ↔ ∃ index < loop.submitted.length, client index = false
  untilRejected : ∀ index, index + 1 < loop.submitted.length → client index = true
  carries : List.Forall₂ (fun payload id => Carries payload id ∧
      payload.length = config.transactionSize.toNat) (loop.acceptedBy client)
    (idsFrom generator.nameSpace generator.stream (loop.acceptedBy client).length)

/-- The part of an emission that was accepted carries the first ids. -/
theorem carries_front {argsLen nameSpace : UInt64} {stream last : IdStream} {batches : List Batch}
    {outputs : List (List (List UInt8))} {payloads : List (List UInt8)} {size : Nat}
    (emitted : emit argsLen nameSpace stream batches = .ok (outputs, last))
    (padded : 96 + argsLen.toNat = size) (front : payloads <+: outputs.flatten) :
    List.Forall₂ (fun payload id => Carries payload id ∧ payload.length = size) payloads
      (idsFrom nameSpace stream payloads.length) := by
  have carried := emit_carries emitted
  rw [padded, ← emit_length emitted] at carried
  obtain ⟨rest, whole⟩ := front
  rw [← whole, List.length_append, idsFrom_add] at carried
  have cut := List.forall₂_take payloads.length carried
  rw [List.take_left, List.take_left' idsFrom_length] at cut
  exact cut

theorem Running.accounted (running : Running client generator readings loop)
    {outputs : List (List (List UInt8))} {last : IdStream}
    (emitted : emit generator.argsLen generator.nameSpace generator.stream
      (generator.batches readings) = .ok (outputs, last))
    (few : readings.length * generator.transactionsPerInterval < 2 ^ 64)
    (padded : 96 + generator.argsLen.toNat = config.transactionSize.toNat) :
    Accounted client config generator outputs.flatten loop := by
  have all : loop.acceptedBy client = outputs.flatten := by
    obtain ⟨outputs', emitted', same⟩ := running.emitted
    rw [emitted] at emitted'
    cases emitted'
    rw [running.acceptedBy, same]
  have live := running.live
  constructor
  · rw [all]
  · intro _
    refine ⟨all, ?_⟩
    rw [running.counted, emit_length emitted, total_batches, UInt64.toNat_ofNat']
    exact Nat.mod_eq_of_lt few
  · rw [live]
    exact nofun
  · rw [live]
    apply iff_of_false Bool.false_ne_true
    rintro ⟨index, within, rejects⟩
    exact Bool.false_ne_true (rejects.symm.trans (running.accepts index within))
  · exact fun index within => running.accepts index (Nat.lt_of_succ_lt within)
  · exact carries_front emitted padded (all ▸ List.prefix_rfl)

theorem Returned.accounted (returned : Returned client generator readings loop)
    {outputs : List (List (List UInt8))} {last : IdStream}
    (emitted : emit generator.argsLen generator.nameSpace generator.stream
      (generator.batches readings) = .ok (outputs, last))
    (few : readings.length * generator.transactionsPerInterval < 2 ^ 64)
    (padded : 96 + generator.argsLen.toNat = config.transactionSize.toNat) :
    Accounted client config generator outputs.flatten loop := by
  obtain ⟨front, now, rest, done, stream, rfl, ran, part, whole, short, counted⟩ := returned.emitted
  obtain ⟨first, final, same, accepts, rejects⟩ := returned.rejected
  have ended := returned.ended
  have inside : loop.acceptedBy client <+: outputs.flatten := by
    rw [List.append_cons, batches, List.map_append] at emitted
    obtain ⟨_, _, _, _, ran', -, split⟩ := run_append_ok.mp emitted
    cases ran.symm.trans ran'
    cases split
    rw [List.flatten_append]
    exact part.trans (List.prefix_append _ _)
  have fewer : front.length * generator.transactionsPerInterval < 2 ^ 64 := by
    refine Nat.lt_of_le_of_lt (Nat.mul_le_mul_right _ ?_) few
    rw [List.length_append]
    exact Nat.le_add_right _ _
  have metric : loop.submittedTransactions.toNat =
      front.length * generator.transactionsPerInterval := by
    rw [counted, UInt64.toNat_ofNat']
    exact Nat.mod_eq_of_lt fewer
  have length : loop.submitted.length = first.length + 1 := by
    rw [same, List.length_append, List.length_singleton]
  constructor
  · exact inside
  · rw [ended]
    exact nofun
  · intro _
    rw [List.length_append, List.length_singleton, Nat.add_mul, Nat.one_mul] at short
    rw [metric]
    exact ⟨whole, short⟩
  · exact iff_of_true ended ⟨first.length, by omega, rejects⟩
  · exact fun index within => accepts index (by omega)
  · exact carries_front emitted padded inside

/-- Up to the first rejection the client has accepted what the metric counts.
The loop then returns, and the metric falls short of what was accepted by less
than one batch. -/
theorem load_accounted {seeding : Seeding} {seed : Authority}
    (started : start seeding seed config = .ok generator)
    (few : readings.length * generator.transactionsPerInterval < 2 ^ 64)
    (fits : Fits maxBlockSize.toNat config.transactionSize.toNat generator.transactionsPerInterval) :
    ∃ outputs loop emission last,
      run (TransactionGenerator.tick client maxBlockSize config generator) (.start generator) readings =
        .ok (outputs, loop) ∧
      emit generator.argsLen generator.nameSpace generator.stream (generator.batches readings) =
        .ok (emission, last) ∧
      Accounted client config generator emission.flatten loop := by
  obtain ⟨-, seeded, padded, -⟩ := start_ok started
  have zero : generator.stream.counter.toNat = 0 := by
    rw [seeded, streamAt_zero]
    rfl
  have total := total_batches generator readings
  obtain ⟨emission, last, emitted⟩ := @emit_returns _ _ generator.argsLen generator.nameSpace
    generator.stream (generator.batches readings) (by omega)
  obtain ⟨outputs, loop, ran, state⟩ :=
    @run_tick _ _ client maxBlockSize config generator readings (by omega) fits
  refine ⟨outputs, loop, emission, last, ran, emitted, ?_⟩
  rcases state with running | returned
  · exact running.accounted emitted few padded
  · exact returned.accounted emitted few padded

end

end

section

attribute [local instance] plainDag checkedBuild

private def constantSeed : Seeding := ⟨id, fun _ => 5⟩

private def twentyPerSecond : LoadGeneratorConfig := ⟨20, 128⟩

private def fourthRejected (index : Nat) : Bool := index ≠ 3

private def pairs : TransactionGenerator := ⟨2, 32, 0, ⟨0, 5⟩⟩

/-- Every payload fills a block, and the second batch is cut short after one. -/
theorem second_batch_cut_short :
    ∃ outputs loop, start constantSeed (0 : UInt64) twentyPerSecond = .ok pairs ∧
      run (tick fourthRejected 128 twentyPerSecond pairs) (.start pairs) [⟨0⟩, ⟨100000000⟩, ⟨200000000⟩] =
        .ok (outputs, loop) ∧
      loop.returned = true ∧ loop.submittedTransactions = 2 ∧
      (loop.acceptedBy fourthRejected).length = 3 ∧ loop.submittedTransactions.toNat ≤ 3 := by
  have started : start constantSeed (0 : UInt64) twentyPerSecond = .ok pairs := rfl
  have few : 3 * 2 < 2 ^ 64 := by decide
  have fits : Fits (128 : UInt64).toNat twentyPerSecond.transactionSize.toNat 2 :=
    fits_of_total (by decide)
  obtain ⟨outputs, loop, _, _, ran, -, accounted⟩ :=
    @load_accounted _ _ fourthRejected 128 twentyPerSecond pairs [⟨0⟩, ⟨100000000⟩, ⟨200000000⟩]
      constantSeed (0 : UInt64) started few fits
  have facts : (fun result : List Unit × LoadLoop => (result.2.returned,
      result.2.submittedTransactions, (result.2.acceptedBy fourthRejected).length)) <$>
        run (tick fourthRejected 128 twentyPerSecond pairs) (.start pairs)
          [⟨0⟩, ⟨100000000⟩, ⟨200000000⟩] = .ok (true, 2, 3) := rfl
  rw [ran] at facts
  obtain ⟨returned, rest⟩ := Prod.mk.inj (Except.ok.inj facts)
  obtain ⟨metric, count⟩ := Prod.mk.inj rest
  dsimp only at returned metric count
  have short := (accounted.cutShort returned).1
  rw [count] at short
  exact ⟨outputs, loop, started, ran, returned, metric, count, short⟩

end

end TransactionGenerator

end BlockchainValidator
