import BlockchainValidator.Checkpoint.Watermark
import BlockchainValidator.Execution.VersionHistory
import BlockchainValidator.Validator.Handle

/-! # What a client was shown outlives a crash

The count and the certification status that a handle shows, and the state of its
driver, are each those after some number of the recorded commits.  No step takes
one of these numbers back, and a restart raises all of them to the whole log.
Between the driver's two sends the status is one commit behind the count.
-/

namespace BlockchainValidator

open Execution Run WatchChannel

/-- The recorded commits that the status shown, the count shown and the driver
have caught up with. -/
structure Cuts where
  stated : Nat
  counted : Nat
  received : Nat

/-- No part of a validator falls behind. -/
structure Cuts.Ahead (cuts later : Cuts) : Prop where
  stated : cuts.stated ≤ later.stated
  counted : cuts.counted ≤ later.counted
  received : cuts.received ≤ later.received

theorem Cuts.Ahead.refl (cuts : Cuts) : cuts.Ahead cuts := ⟨le_rfl, le_rfl, le_rfl⟩

theorem Cuts.Ahead.trans {cuts middle later : Cuts} (first : cuts.Ahead middle)
    (second : middle.Ahead later) : cuts.Ahead later :=
  ⟨first.stated.trans second.stated, first.counted.trans second.counted,
    first.received.trans second.received⟩

section

variable [Dag]

theorem AtOrBefore.append {order : List BlockReference} {earlier later : BlockReference}
    (placed : AtOrBefore order earlier later) (more : List BlockReference) :
    AtOrBefore (order ++ more) earlier later := by
  obtain ⟨i, j, ordered, first, second⟩ := placed
  refine ⟨i, j, ordered, ?_, ?_⟩
  · rw [List.getElem?_append_left (List.getElem?_eq_some_iff.mp first).1]
    exact first
  · rw [List.getElem?_append_left (List.getElem?_eq_some_iff.mp second).1]
    exact second

/-- The status lags behind the count, which lags behind the driver. -/
theorem Phase.lag_le {received stated counted : Nat} (phase : Phase)
    (lag : received = stated + if phase.stated then 0 else 1)
    (lag' : received = counted + if phase.counted then 0 else 1) :
    stated ≤ counted ∧ counted ≤ received := by
  cases shows : phase.stated with
  | true =>
      rw [shows, if_pos rfl] at lag
      rw [Phase.stated_counted shows, if_pos rfl] at lag'
      omega
  | false =>
      rw [shows, if_neg Bool.false_ne_true] at lag
      split at lag' <;> omega

section

variable [Hasher] [BuildProfile]

/-! ## Drivers of one log -/

/-- Nothing that the earlier driver has is lost to the later one. -/
structure Driver.Forward (order : List BlockReference) (driver later : Driver) : Prop where
  count : driver.count ≤ later.count
  objects : ∀ key object, driver.state.scheduler.store.objects key = some object →
    later.state.scheduler.store.objects key = some object
  certified : ∀ certificate, driver.state.certifier.highestCertified = some certificate →
    ∃ certificate', later.state.certifier.highestCertified = some certificate' ∧
      AtOrBefore order certificate.checkpoint.anchor certificate'.checkpoint.anchor

/-- The driver as it is after the first `cut` commits, at some clocks. -/
def Driver.After (config : ValidatorConfig) (wal : List CommittedSubDag) (cut : Nat)
    (driver : Driver) : Prop :=
  ∃ deliveries minted, deliveries.map Delivery.subdag = wal.take cut ∧
    run deliver (.new config) deliveries = .ok (minted, driver)

section

variable {config : ValidatorConfig} {wal more : List CommittedSubDag} {cut cut' : Nat}
  {driver later : Driver} {deliveries rest : List Delivery}
  {outcomes moreOutcomes : List SubdagOutcome} {middle last : ExecutionState}

theorem ExecutionState.run_objects {engine : ExecutionEngine} {committee : Committee} {quorum : UInt64}
    (front : run deliver (.new engine committee quorum) deliveries = .ok (outcomes, middle))
    (back : run deliver middle rest = .ok (moreOutcomes, last)) {key : ObjectId × Version}
    {object : Object} (held : middle.scheduler.store.objects key = some object) :
    last.scheduler.store.objects key = some object := by
  have written := SequentialScheduler.execute_writes (run_scheduler front)
  have represents := InMemoryStore.default_represents.applyWrites written
  exact represents.kept (SequentialScheduler.execute_writes (run_scheduler back)) held

theorem ExecutionState.run_watermark {engine : ExecutionEngine} {committee : Committee}
    {quorum : UInt64} {certificate : CertifiedCheckpoint}
    (admissible : AdmissibleStream committee ((deliveries ++ rest).map Delivery.subdag))
    (front : run deliver (.new engine committee quorum) deliveries = .ok (outcomes, middle))
    (back : run deliver middle rest = .ok (moreOutcomes, last))
    (highest : middle.certifier.highestCertified = some certificate) :
    ∃ later, last.certifier.highestCertified = some later ∧
      AtOrBefore ((executingOf ((deliveries ++ rest).map Delivery.subdag)).map CommittedSubDag.anchor)
        certificate.checkpoint.anchor later.checkpoint.anchor := by
  obtain ⟨calls, outputs, called, callsOf⟩ := run_calls front
  obtain ⟨moreCalls, moreOutputs, moreCalled, moreCallsOf⟩ := run_calls back
  have whole := run_append_ok.mpr ⟨_, _, _, _, front, back, rfl⟩
  have allCalls := callsOf.append moreCallsOf
  rw [← run_mints_executing whole, ← allCalls.pushed]
  exact CheckpointCertifier.watermark_forward (run_admissible admissible whole allCalls) called
    moreCalled highest

theorem Driver.After.grown (after : After config wal cut driver) (inside : cut ≤ wal.length) :
    After config (wal ++ more) cut driver := by
  obtain ⟨deliveries, minted, front, ran⟩ := after
  exact ⟨deliveries, minted, front.trans (List.take_append_of_le_length inside).symm, ran⟩

theorem Driver.After.count (after : After config wal cut driver)
    (few : (ledger wal).length < 2 ^ 64) :
    driver.count.toNat = (ledger (wal.take cut)).length := by
  obtain ⟨deliveries, minted, front, ran⟩ := after
  rw [← front]
  apply run_position ran
  rw [front]
  exact Nat.lt_of_le_of_lt ((List.take_prefix cut wal).flatMap CommittedSubDag.transactions).length_le few

/-- A driver that is further on the log has lost nothing. -/
theorem Driver.After.forward (admissible : AdmissibleStream config.committee wal)
    (few : (ledger wal).length < 2 ^ 64) (before : After config wal cut driver)
    (after : After config wal cut' later) (ordered : cut ≤ cut') :
    driver.Forward ((executingOf wal).map CommittedSubDag.anchor) later := by
  have counts := before.count few
  have counts' := after.count few
  have shorter : wal.take cut <+: wal.take cut' := List.take_prefix_take_left ordered
  obtain ⟨deliveries, minted, front, ran⟩ := before
  obtain ⟨deliveries', minted', front', ran'⟩ := after
  -- The later driver was once where the earlier one is, at other clocks.
  rw [← front, ← front'] at shorter
  obtain ⟨tail, whole⟩ := shorter
  obtain ⟨first, second, rfl, same, rfl⟩ := List.map_eq_append_iff.mp whole.symm
  obtain ⟨_, middle, _, _, ranFront, ranBack, split⟩ := run_append_ok.mp ran'
  cases split
  obtain ⟨driver', again, alike⟩ := run_retimed rfl same.symm ran
  obtain rfl : middle = driver' := (Prod.mk.inj (Except.ok.inj (ranFront.symm.trans again))).2
  obtain ⟨states, -⟩ := Driver.mk.inj alike
  obtain ⟨schedulers, certifiers⟩ := ExecutionState.mk.inj states
  obtain ⟨_, executed, -⟩ := run_state ranFront
  obtain ⟨_, continued, -⟩ := run_state ranBack
  constructor
  · rw [UInt64.le_iff_toNat_le, counts, counts']
    exact ((List.take_prefix_take_left ordered).flatMap CommittedSubDag.transactions).length_le
  · intro key object held
    rw [← schedulers] at held
    exact ExecutionState.run_objects executed continued held
  · intro certificate highest
    rw [← CheckpointCertifier.relabel_highestCertified certifiers] at highest
    have inside : wal.take cut' <+: wal := List.take_prefix cut' wal
    obtain ⟨later, highest', placed⟩ := ExecutionState.run_watermark
      (by rw [front']; exact admissible.front inside) executed continued highest
    refine ⟨later, highest', ?_⟩
    obtain ⟨unreached, joined⟩ := inside
    rw [front'] at placed
    rw [← joined, executingOf, List.filter_append, List.map_append]
    exact placed.append _

end

/-! ## What is shown -/

variable [WatchChannel]

namespace Tasks

/-- What the handle shows and where the driver is, as cuts of the log. -/
structure ShownAt (config : ValidatorConfig) (tasks : Tasks) (cuts : Cuts) : Prop where
  stated : cuts.received = cuts.stated + if tasks.phase.stated then 0 else 1
  counted : cuts.received = cuts.counted + if tasks.phase.counted then 0 else 1
  recorded : cuts.received ≤ tasks.wal.length
  waiting : tasks.wal.drop cuts.received = tasks.phase.taken ++ tasks.channel ++ tasks.unsent
  driver : Driver.After config tasks.wal cuts.received tasks.driver
  executed : ∃ driver, Driver.After config tasks.wal cuts.counted driver ∧
    value tasks.executed = driver.count
  certified : ∃ driver, Driver.After config tasks.wal cuts.stated driver ∧
    value tasks.certified = driver.state.certificationStatus

section

variable {config : ValidatorConfig} {tasks next last : Tasks} {event : TaskEvent} {cuts : Cuts}
  {events : List TaskEvent} {outputs : List Unit}

theorem fresh_shownAt (config : ValidatorConfig) : (fresh config).ShownAt config ⟨0, 0, 0⟩ where
  stated := rfl
  counted := rfl
  recorded := le_rfl
  waiting := rfl
  driver := ⟨[], [], rfl, rfl⟩
  executed := ⟨.new config, ⟨[], [], rfl, rfl⟩, value_channel _⟩
  certified := ⟨.new config, ⟨[], [], rfl, rfl⟩, value_channel _⟩

theorem ShownAt.order (shown : tasks.ShownAt config cuts) :
    cuts.stated ≤ cuts.counted ∧ cuts.counted ≤ cuts.received :=
  tasks.phase.lag_le shown.stated shown.counted

theorem ShownAt.record (shown : tasks.ShownAt config cuts) (subdag : CommittedSubDag) :
    ShownAt config
      { tasks with wal := tasks.wal ++ [subdag], unsent := tasks.unsent ++ [subdag] } cuts := by
  have counted := shown.order.2.trans shown.recorded
  obtain ⟨driver, after, executed⟩ := shown.executed
  obtain ⟨driver', after', certified⟩ := shown.certified
  refine { shown with
    recorded := ?_
    waiting := ?_
    driver := shown.driver.grown shown.recorded
    executed := ⟨driver, after.grown counted, executed⟩
    certified := ⟨driver', after'.grown (shown.order.1.trans counted), certified⟩ }
  · rw [List.length_append]
    exact shown.recorded.trans (Nat.le_add_right _ _)
  · rw [List.drop_append_of_le_length shown.recorded, shown.waiting, List.append_assoc]

theorem ShownAt.receive (shown : tasks.ShownAt config cuts) {now : Duration}
    {subdag : CommittedSubDag} {channel : List CommittedSubDag} {minted : Option Checkpoint}
    {driver : Driver} (idle : tasks.phase = .receiving) (sent : tasks.channel = subdag :: channel)
    (delivered : tasks.driver.deliver ⟨now, subdag⟩ = .ok (minted, driver)) :
    ShownAt config { tasks with channel, driver, phase := .counting minted }
      { cuts with received := cuts.received + 1 } := by
  have stated := shown.stated
  have counted := shown.counted
  have waiting := shown.waiting
  rw [idle] at stated counted
  rw [idle, sent] at waiting
  have next : tasks.wal[cuts.received]? = some subdag := by
    rw [← List.head?_drop, waiting]
    rfl
  obtain ⟨inside, here⟩ := List.getElem?_eq_some_iff.mp next
  obtain ⟨deliveries, before, front, ran⟩ := shown.driver
  refine { shown with
    stated := congrArg Nat.succ stated
    counted := congrArg Nat.succ counted
    recorded := inside
    waiting := ?_
    driver := ⟨deliveries ++ [⟨now, subdag⟩], before ++ [minted], ?_, ?_⟩ }
  · rw [← List.drop_drop, waiting]
    rfl
  · rw [List.map_append, front, List.take_succ_eq_append_getElem inside, here]
    rfl
  · exact run_concat_ok.mpr ⟨_, _, _, _, ran, delivered, rfl⟩

theorem ShownAt.sendExecuted (shown : tasks.ShownAt config cuts) {minted : Option Checkpoint}
    (executed : tasks.phase = .counting minted) :
    ShownAt config { tasks with
      executed := WatchChannel.send tasks.executed tasks.driver.count
      phase := .certifying minted } { cuts with counted := cuts.received } where
  stated := by
    rw [shown.stated, executed]
    rfl
  counted := rfl
  recorded := shown.recorded
  waiting := by
    rw [shown.waiting, executed]
    rfl
  driver := shown.driver
  executed := ⟨_, shown.driver, value_send _ _⟩
  certified := shown.certified

theorem ShownAt.sendCertified (shown : tasks.ShownAt config cuts) {minted : Option Checkpoint}
    (counted : tasks.phase = .certifying minted) :
    ShownAt config { tasks with
      certified := WatchChannel.send tasks.certified tasks.driver.state.certificationStatus
      phase := .afterStatus minted } { cuts with stated := cuts.received } where
  stated := by cases minted <;> rfl
  counted := by
    rw [shown.counted, counted]
    cases minted <;> rfl
  recorded := shown.recorded
  waiting := by
    rw [shown.waiting, counted, Phase.afterStatus_taken]
    rfl
  driver := shown.driver
  executed := shown.executed
  certified := ⟨_, shown.driver, value_send _ _⟩

/-- Where the driver goes between commits, nothing that is shown changes. -/
theorem ShownAt.turn (shown : tasks.ShownAt config cuts) {channel : List CommittedSubDag}
    {phase : Phase} (idle : tasks.phase.stated = true) (idle' : phase.stated = true)
    (kept : phase.taken ++ channel = tasks.phase.taken ++ tasks.channel) :
    ShownAt config { tasks with channel, phase } cuts :=
  { shown with
    stated := by rw [shown.stated, idle, idle']
    counted := by rw [shown.counted, Phase.stated_counted idle, Phase.stated_counted idle']
    waiting := by rw [shown.waiting, kept] }

theorem ShownAt.dropSenders (shown : tasks.ShownAt config cuts) :
    tasks.dropSenders.ShownAt config cuts := by
  obtain ⟨driver, after, executed⟩ := shown.executed
  obtain ⟨driver', after', certified⟩ := shown.certified
  exact { shown with
    executed := ⟨driver, after, (value_close _).trans executed⟩
    certified := ⟨driver', after', (value_close _).trans certified⟩ }

/-- Replay catches up with the whole log. -/
theorem ShownAt.restart {submitted : List Checkpoint} {wal : List CommittedSubDag}
    (started : start config wal submitted = .ok next) :
    next.ShownAt config ⟨wal.length, wal.length, wal.length⟩ := by
  obtain ⟨driver, replays, rfl⟩ := start_ok.mp started
  obtain ⟨⟨minted, _⟩, ran, rfl⟩ := map_eq_ok.mp replays
  have after : Driver.After config wal wal.length _ :=
    ⟨Node.replayed wal, minted, by rw [Node.replayed_subdags, List.take_length], ran⟩
  refine ⟨?_, ?_, le_rfl, ?_, after, ⟨_, after, value_channel _⟩, ⟨_, after, value_channel _⟩⟩
  · rw [Phase.afterStart_stated]
    rfl
  · rw [Phase.stated_counted (Phase.afterStart_stated _)]
    rfl
  · rw [Phase.afterStart_taken, List.drop_length]
    rfl

theorem ShownAt.move (shown : tasks.ShownAt config cuts) (move : Move config tasks event next) :
    ∃ later, next.ShownAt config later ∧ cuts.Ahead later := by
  cases move with
  | @record subdag => exact ⟨cuts, shown.record subdag, .refl cuts⟩
  | send recorded =>
      refine ⟨cuts, { shown with waiting := ?_ }, .refl cuts⟩
      rw [shown.waiting, recorded, List.append_cons, List.append_assoc tasks.phase.taken]
  | receive idle sent delivered =>
      exact ⟨_, shown.receive idle sent delivered, ⟨le_rfl, le_rfl, Nat.le_succ _⟩⟩
  | panic idle sent =>
      refine ⟨cuts, (shown.turn (by rw [idle]; rfl) rfl ?_).dropSenders, .refl cuts⟩
      rw [idle, sent]
      rfl
  | sendExecuted executed =>
      exact ⟨_, shown.sendExecuted executed, ⟨le_rfl, shown.order.2, le_rfl⟩⟩
  | sendCertified counted =>
      exact ⟨_, shown.sendCertified counted,
        ⟨shown.order.1.trans shown.order.2, le_rfl, le_rfl⟩⟩
  | submit voting =>
      have idle : tasks.phase.stated = true ∧ tasks.phase.taken = [] := by
        rcases voting with ⟨_, phase⟩ | ⟨_, phase⟩ <;> rw [phase] <;> exact ⟨rfl, rfl⟩
      refine ⟨cuts, { shown.turn idle.1 rfl ?_ with }, .refl cuts⟩
      rw [idle.2]
      rfl
  | stop => exact ⟨cuts, { shown with }, .refl cuts⟩
  | finish idle =>
      refine ⟨cuts, (shown.turn (by rw [idle]; rfl) rfl ?_).dropSenders, .refl cuts⟩
      rw [idle]
      rfl
  | waitForTransactions => exact ⟨cuts, { shown with }, .refl cuts⟩
  | waitForCertified => exact ⟨cuts, { shown with }, .refl cuts⟩
  | poll polled =>
      obtain ⟨driver, after, executed⟩ := shown.executed
      obtain ⟨driver', after', certified⟩ := shown.certified
      rcases pollWaiting_cases polled with ⟨_, _, _, _, -, once, rfl⟩ | ⟨_, _, _, -, once, rfl⟩
      · exact ⟨cuts, { shown with
          executed := ⟨driver, after, (Waiter.poll_keeps once).1.trans executed⟩ }, .refl cuts⟩
      · exact ⟨cuts, { shown with
          certified := ⟨driver', after', (Waiter.poll_keeps once).1.trans certified⟩ }, .refl cuts⟩
  | restart started =>
      have counted := shown.order.2.trans shown.recorded
      exact ⟨_, .restart started, ⟨shown.order.1.trans counted, counted, shown.recorded⟩⟩

theorem run_shownAt (shown : tasks.ShownAt config cuts)
    (ran : run (step config) tasks events = .ok (outputs, last)) :
    ∃ later, last.ShownAt config later ∧ cuts.Ahead later :=
  run_invariant (fun last => ∃ later, last.ShownAt config later ∧ cuts.Ahead later)
    (fun _ _ _ _ held stepped =>
      let ⟨_, shown, before⟩ := held
      let ⟨later, shown', after⟩ := shown.move (step_move stepped)
      ⟨later, shown', before.trans after⟩)
    ⟨cuts, shown, .refl cuts⟩ ran

theorem run_wal (ran : run (step config) tasks events = .ok (outputs, last)) :
    tasks.wal <+: last.wal := by
  refine run_invariant (fun last => tasks.wal <+: last.wal) ?_ List.prefix_rfl ran
  intro _ _ _ _ before stepped
  rw [(step_move stepped).wal]
  exact before.trans (List.prefix_append _ _)

/-- However often the process dies in between, what is shown later is what is after
as many commits of the log or more, and has lost nothing that was shown before. -/
theorem progress_durable {more : List TaskEvent} {moreOutputs : List Unit}
    (front : run (step config) (fresh config) events = .ok (outputs, tasks))
    (back : run (step config) tasks more = .ok (moreOutputs, last))
    (admissible : AdmissibleStream config.committee last.wal)
    (few : (ledger last.wal).length < 2 ^ 64) :
    ∃ cuts later, tasks.ShownAt config cuts ∧ last.ShownAt config later ∧ cuts.Ahead later ∧
      value tasks.executed ≤ value last.executed ∧
      tasks.driver.Forward ((executingOf last.wal).map CommittedSubDag.anchor) last.driver ∧
      ∀ driver driver' : Driver, driver.After config last.wal cuts.stated →
        driver'.After config last.wal later.stated →
          driver.Forward ((executingOf last.wal).map CommittedSubDag.anchor) driver' := by
  obtain ⟨cuts, shown, -⟩ := run_shownAt (fresh_shownAt config) front
  obtain ⟨later, shown', ahead⟩ := run_shownAt shown back
  obtain ⟨rest, grown⟩ := run_wal back
  have counted := shown.order.2.trans shown.recorded
  refine ⟨cuts, later, shown, shown', ahead, ?_, ?_, ?_⟩
  · obtain ⟨driver, after, executed⟩ := shown.executed
    obtain ⟨driver', after', executed'⟩ := shown'.executed
    have placed : driver.After config last.wal cuts.counted := grown ▸ after.grown counted
    rw [executed, executed']
    exact (placed.forward admissible few after' ahead.counted).count
  · have placed : tasks.driver.After config last.wal cuts.received :=
      grown ▸ shown.driver.grown shown.recorded
    exact placed.forward admissible few shown'.driver ahead.received
  · intro driver driver' before after
    exact before.forward admissible few after ahead.stated

/-! ## How far a wait for a certificate is behind -/

omit [Hasher] [BuildProfile] in
theorem pollWaiting_certified (polled : tasks.pollWaiting = some next)
    (returned : next.waiting = .certified .returned) :
    (value tasks.certified).1 = some (value tasks.certified).2 := by
  rcases pollWaiting_cases polled with
    ⟨_, _, _, _, -, -, rfl⟩ | ⟨waiter, waiter', certified, -, once, rfl⟩
  · cases returned
  · cases returned
    rcases Waiter.poll_cases once with ⟨-, read, -⟩ | ⟨-, -, read, -⟩ | ⟨-, -, -, read, -⟩
    · split at read
      · rename_i ready
        exact of_decide_eq_true ready
      · cases read
    · cases read
    · cases read

/-- A wait for a certificate returns on a cut of the log at which everything is
certified.  It is the cut of the count shown, but for one commit if the driver is
between sending the count and sending the status. -/
theorem certified_wait_cut
    (ran : run (step config) (fresh config) events = .ok (outputs, tasks))
    (polled : tasks.step config .poll = .ok ((), next)) (returned : next.waiting = .certified .returned) :
    ∃ cuts, ∃ driver : Driver, ∃ certificate : CertifiedCheckpoint, tasks.ShownAt config cuts ∧
      driver.After config tasks.wal cuts.stated ∧
      driver.state.certifier.highestCertified = some certificate ∧
      certificate.checkpoint.commitment = driver.state.scheduler.store.commitment ∧
      cuts.counted ≤ cuts.stated + 1 ∧
      (cuts.counted ≠ cuts.stated ↔ ∃ minted, tasks.phase = .certifying minted) := by
  obtain ⟨cuts, shown, -⟩ := run_shownAt (fresh_shownAt config) ran
  obtain ⟨driver, after, status⟩ := shown.certified
  have met : (value tasks.certified).1 = some (value tasks.certified).2 := by
    cases step_move polled with
    | poll polled => exact pollWaiting_certified polled returned
  rw [status, ExecutionState.certificationStatus] at met
  obtain ⟨certificate, highest, same⟩ := Option.map_eq_some_iff.mp met
  have stated := shown.stated
  have counted := shown.counted
  refine ⟨cuts, driver, certificate, shown, after, highest, same, ?_, ?_⟩
  · split at stated <;> omega
  · -- Between the sends, and only there, the count is sent and the status is not.
    cases phase : tasks.phase with
    | counting =>
        rw [phase] at stated counted
        have level : cuts.counted = cuts.stated := Nat.succ_injective (counted.symm.trans stated)
        simp [level]
    | certifying minted =>
        rw [phase] at stated counted
        have behind : cuts.counted = cuts.stated + 1 := counted.symm.trans stated
        simp [behind]
    | _ =>
        rw [phase] at stated counted
        have level : cuts.counted = cuts.stated := counted.symm.trans stated
        simp [level]

end

end Tasks

end

end

section

attribute [local instance] plainDag checkedBuild blake2b plainWatch

/-- The process dies with a certificate that it has not shown. -/
private def dying : List TaskEvent :=
  (plainStream FakeFunctionId.successId).flatMap (fun subdag => [.record subdag, .send]) ++
    [.receive ⟨5⟩, .sendExecuted, .sendCertified, .submit true, .receive ⟨6⟩]

theorem dying_durable : ∃ outputs tasks outputs' last,
    run (Tasks.step plainConfig) (.fresh plainConfig) dying = .ok (outputs, tasks) ∧
    run (Tasks.step plainConfig) tasks [.restart] = .ok (outputs', last) ∧
    value tasks.certified = (none, tasks.driver.state.scheduler.store.commitment) ∧
    value last.certified = (some .default, tasks.driver.state.scheduler.store.commitment) ∧
    ∃ cuts later, tasks.ShownAt plainConfig cuts ∧ last.ShownAt plainConfig later ∧
      cuts.Ahead later ∧ value tasks.executed ≤ value last.executed ∧
      tasks.driver.Forward ((executingOf last.wal).map CommittedSubDag.anchor) last.driver ∧
      ∀ driver driver' : Driver, driver.After plainConfig last.wal cuts.stated →
        driver'.After plainConfig last.wal later.stated →
          driver.Forward ((executingOf last.wal).map CommittedSubDag.anchor) driver' := by
  obtain ⟨outputs, tasks, outputs', last, front, back, shown, shown', wal⟩ :
      ∃ outputs tasks outputs' last,
        run (Tasks.step plainConfig) (.fresh plainConfig) dying = .ok (outputs, tasks) ∧
        run (Tasks.step plainConfig) tasks [.restart] = .ok (outputs', last) ∧
        value tasks.certified = (none, tasks.driver.state.scheduler.store.commitment) ∧
        value last.certified = (some .default, tasks.driver.state.scheduler.store.commitment) ∧
        last.wal = plainStream FakeFunctionId.successId :=
    ⟨_, _, _, _, rfl, rfl, rfl, rfl, rfl⟩
  refine ⟨outputs, tasks, outputs', last, front, back, shown, shown', ?_⟩
  have admissible : AdmissibleStream plainConfig.committee last.wal := by
    rw [wal]
    exact plainStream_admissible _
  apply Tasks.progress_durable front back admissible
  rw [wal]
  decide +kernel

private def late : CommittedSubDag :=
  ⟨plainReference 0 3, [((0 : UInt64), [Envelope.toBytes ⟨9, .execute
    ⟨FakeFunctionId.successId, .singleton (.new 1, .writeOnly), .nil⟩⟩])]⟩

/-- The client has seen that two transactions are executed, and asks whether they
are certified before the driver says that the second is not. -/
private def hasty : List TaskEvent :=
  (plainStream FakeFunctionId.abortId ++ [late]).flatMap
    (fun subdag => [.record subdag, .send]) ++
    [.receive ⟨5⟩, .sendExecuted, .sendCertified, .submit true, .receive ⟨6⟩, .sendExecuted,
      .sendCertified, .receive ⟨7⟩, .sendExecuted, .waitForTransactions 2, .poll, .waitForCertified]

set_option maxRecDepth 2000 in
theorem hasty_cut : ∃ outputs tasks next,
    run (Tasks.step plainConfig) (.fresh plainConfig) hasty = .ok (outputs, tasks) ∧
    tasks.step plainConfig .poll = .ok ((), next) ∧ next.waiting = .certified .returned ∧
    value tasks.executed = 2 ∧ tasks.driver.state.certifier.pending ≠ [] ∧
    ∃ cuts, ∃ driver : Driver, ∃ certificate : CertifiedCheckpoint, tasks.ShownAt plainConfig cuts ∧
      driver.After plainConfig tasks.wal cuts.stated ∧
      driver.state.certifier.highestCertified = some certificate ∧
      certificate.checkpoint.commitment = driver.state.scheduler.store.commitment ∧
      cuts.counted ≤ cuts.stated + 1 ∧
      (cuts.counted ≠ cuts.stated ↔ ∃ minted, tasks.phase = .certifying minted) := by
  obtain ⟨outputs, tasks, next, ran, polled, returned, count, waiting⟩ : ∃ outputs tasks next,
      run (Tasks.step plainConfig) (.fresh plainConfig) hasty = .ok (outputs, tasks) ∧
      tasks.step plainConfig .poll = .ok ((), next) ∧ next.waiting = .certified .returned ∧
      value tasks.executed = 2 ∧ tasks.driver.state.certifier.pending.length = 1 :=
    ⟨_, _, _, rfl, rfl, rfl, rfl, rfl⟩
  refine ⟨outputs, tasks, next, ran, polled, returned, count, ?_,
    Tasks.certified_wait_cut ran polled returned⟩
  exact List.ne_nil_of_length_eq_add_one waiting

end

end BlockchainValidator
