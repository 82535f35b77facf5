import BlockchainValidator.Validator.Handle

/-! # What is recorded gets executed

The channel holds the replica back when the driver is slow, and a stopped replica
leaves a driver that has commits to take.  Neither waits for ever: each step of
the two leaves them less to do, until all is done.
-/

namespace BlockchainValidator

open Execution Run WatchChannel

section

variable [Dag] [WatchChannel]

/-- The steps from here to the end of an iteration, and the last one. -/
def Phase.remaining : Phase → Nat
  | attesting _ | submitting _ => 2
  | receiving => 1
  | counting _ => 4
  | certifying _ => 3
  | finished | panicked .. => 0

namespace Tasks

section

variable [Hasher] [BuildProfile] {config : ValidatorConfig} {tasks next last : Tasks}
  {event : TaskEvent} {events : List TaskEvent} {outputs : List Unit}

/-- Every recorded commit has been taken from the channel and dealt with. -/
structure Idle (tasks : Tasks) : Prop where
  unsent : tasks.unsent = []
  channel : tasks.channel = []
  phase : tasks.phase = .receiving ∨ tasks.phase = .finished

/-- The steps that the driver may still take for what it was sent. -/
def remaining (tasks : Tasks) : Nat := 4 * tasks.channel.length + tasks.phase.remaining

/-- The steps that it and the sending replica may still take for what is recorded. -/
def backlog (tasks : Tasks) : Nat := 5 * tasks.unsent.length + tasks.remaining

/-- A step of the two leaves them less to do, and others leave them the same. -/
theorem Move.backlog (move : Move config tasks event next) (quiet : event.recorded = none)
    (lives : event ≠ .restart) :
    next.backlog + (if event.progresses then 1 else 0) ≤ tasks.backlog := by
  cases move with
  | record => cases quiet
  | send recorded =>
      simp only [Tasks.backlog, Tasks.remaining, recorded, List.length_cons, List.length_append,
        List.length_nil, TaskEvent.progresses, if_true]
      omega
  | receive idle sent delivered =>
      simp only [Tasks.backlog, Tasks.remaining, idle, sent, List.length_cons, Phase.remaining,
        TaskEvent.progresses, TaskEvent.drives, if_true]
      omega
  | panic idle sent failed =>
      simp only [Tasks.backlog, Tasks.remaining, dropSenders, idle, sent, List.length_cons,
        Phase.remaining, TaskEvent.progresses, TaskEvent.drives, if_true]
      omega
  | sendExecuted executed =>
      simp only [Tasks.backlog, Tasks.remaining, executed, Phase.remaining, TaskEvent.progresses,
        TaskEvent.drives, if_true]
      omega
  | @sendCertified minted counted =>
      have after : (Phase.afterStatus minted).remaining + 1 ≤ tasks.phase.remaining := by
        rw [counted]
        cases minted <;> simp [Phase.afterStatus, Phase.remaining]
      simp only [Tasks.backlog, Tasks.remaining, TaskEvent.progresses, TaskEvent.drives, if_true]
      omega
  | submit voting =>
      have before : tasks.phase.remaining = 2 := by
        rcases voting with ⟨_, phase⟩ | ⟨_, phase⟩ <;> rw [phase] <;> rfl
      rw [Tasks.backlog, Tasks.backlog, Tasks.remaining, Tasks.remaining, before]
      exact Nat.le_refl _
  | finish idle drained =>
      simp only [Tasks.backlog, Tasks.remaining, dropSenders, idle, Phase.remaining,
        TaskEvent.progresses, TaskEvent.drives, if_true]
      omega
  | poll polled =>
      rcases pollWaiting_cases polled with ⟨_, _, _, _, -, -, rfl⟩ | ⟨_, _, _, -, -, rfl⟩
      · exact le_rfl
      · exact le_rfl
  | restart => exact absurd rfl lives
  | _ => exact le_rfl

/-- A replica that has stopped neither records nor sends. -/
theorem Move.stopped (move : Move config tasks event next) (stopped : tasks.running = false)
    (lives : event ≠ .restart) :
    next.running = false ∧ next.unsent = tasks.unsent ∧ event.recorded = none := by
  cases move with
  | record running => rw [stopped] at running; cases running
  | send _ running => rw [stopped] at running; cases running
  | stop running => rw [stopped] at running; cases running
  | poll polled =>
      rcases pollWaiting_cases polled with ⟨_, _, _, _, -, -, rfl⟩ | ⟨_, _, _, -, -, rfl⟩
      · exact ⟨stopped, rfl, rfl⟩
      · exact ⟨stopped, rfl, rfl⟩
  | restart => exact absurd rfl lives
  | _ => exact ⟨stopped, rfl, rfl⟩

theorem run_backlog (lives : .restart ∉ events) (quiet : ∀ event ∈ events, event.recorded = none)
    (ran : run (step config) tasks events = .ok (outputs, last)) :
    events.countP TaskEvent.progresses + last.backlog ≤ tasks.backlog := by
  refine run_history (fun events _ last => .restart ∉ events →
    (∀ event ∈ events, event.recorded = none) →
      events.countP TaskEvent.progresses + last.backlog ≤ tasks.backlog) ?_ ?_ ran lives quiet
  · intro events _ middle event _ next _ held stepped lives quiet
    have less := held (fun listed => lives (List.mem_append_left _ listed))
      fun event listed => quiet event (by simp [listed])
    have least := (step_move stepped).backlog (quiet event (by simp)) (by
      rintro rfl
      exact lives (by simp))
    rw [List.countP_append, List.countP_singleton]
    omega
  · intro _ _
    rw [List.countP_nil, Nat.zero_add]

/-- The driver of a running validator can go on unless it waits for a commit. -/
theorem driver_goes_on (alive : tasks.phase.ended = false)
    (work : tasks.phase = .receiving → tasks.channel = [] → tasks.running = false) :
    ∃ event next, event.drives = true ∧ tasks.step config event = .ok ((), next) := by
  cases phase : tasks.phase with
  | attesting pending =>
      exact ⟨.submit true, _, rfl, by simp only [step, phase]; rfl⟩
  | receiving =>
      cases sent : tasks.channel with
      | nil =>
          have stopped := work phase sent
          exact ⟨.finish, _, rfl, by simp only [step, phase, sent, stopped]; rfl⟩
      | cons subdag channel =>
          cases delivered : tasks.driver.deliver ⟨.zero, subdag⟩ with
          | ok result =>
              exact ⟨.receive .zero, _, rfl, by simp only [step, phase, sent, delivered]; rfl⟩
          | error panic =>
              exact ⟨.receive .zero, _, rfl, by simp only [step, phase, sent, delivered]; rfl⟩
  | counting minted => exact ⟨.sendExecuted, _, rfl, by simp only [step, phase]; rfl⟩
  | certifying minted => exact ⟨.sendCertified, _, rfl, by simp only [step, phase]; rfl⟩
  | submitting minted => exact ⟨.submit true, _, rfl, by simp only [step, phase]; rfl⟩
  | finished => rw [phase] at alive; cases alive
  | panicked => rw [phase] at alive; cases alive

/-- The replica or the driver can go on as long as a recorded commit waits. -/
theorem goes_on (running : tasks.running = true) (alive : tasks.phase.ended = false)
    (work : ¬ tasks.Idle) :
    ∃ event next, event.progresses = true ∧ tasks.step config event = .ok ((), next) := by
  by_cases waits : tasks.phase = .receiving ∧ tasks.channel = []
  · obtain ⟨phase, channel⟩ := waits
    cases recorded : tasks.unsent with
    | nil => exact absurd ⟨recorded, channel, .inl phase⟩ work
    | cons subdag unsent =>
        have ready : tasks.running ∧ ¬ tasks.phase.ended ∧
            tasks.channel.length < commitChannelCapacity := by
          rw [running, alive, channel]
          exact ⟨rfl, Bool.false_ne_true, Nat.zero_lt_succ _⟩
        exact ⟨.send, _, rfl, by simp only [step, recorded]; exact if_pos ready⟩
  · obtain ⟨event, next, drives, stepped⟩ :=
      driver_goes_on alive fun phase channel => absurd ⟨phase, channel⟩ waits
    refine ⟨event, next, ?_, stepped⟩
    cases event with
    | send => rfl
    | _ => exact drives

theorem run_drains (stopped : tasks.running = false) (lives : .restart ∉ events)
    (ran : run (step config) tasks events = .ok (outputs, last)) :
    last.running = false ∧ events.countP TaskEvent.drives + last.remaining ≤ tasks.remaining := by
  have still : last.running = false ∧ last.unsent = tasks.unsent ∧
      ∀ event ∈ events, event.recorded = none := by
    refine run_history (fun events _ last => .restart ∉ events → last.running = false ∧
      last.unsent = tasks.unsent ∧ ∀ event ∈ events, event.recorded = none) ?_
      (fun _ => ⟨stopped, rfl, nofun⟩) ran lives
    intro events _ middle event _ next _ held stepped lives
    obtain ⟨stopped, unsent, quiet⟩ := held fun listed => lives (List.mem_append_left _ listed)
    obtain ⟨stopped', unsent', quiet'⟩ := (step_move stepped).stopped stopped (by
      rintro rfl
      exact lives (by simp))
    refine ⟨stopped', unsent'.trans unsent, fun other listed => ?_⟩
    rcases List.mem_append.mp listed with earlier | now
    · exact quiet other earlier
    · exact List.mem_singleton.mp now ▸ quiet'
  obtain ⟨stopped', unsent, quiet⟩ := still
  have less := run_backlog lives quiet ran
  have fewer : events.countP TaskEvent.drives ≤ events.countP TaskEvent.progresses :=
    List.countP_mono_left fun event _ drives => by
      cases event with
      | send => rfl
      | _ => exact drives
  rw [backlog, backlog, unsent] at less
  exact ⟨stopped', by omega⟩

omit [Hasher] [BuildProfile] in
theorem remaining_le (published : tasks.Published) :
    tasks.remaining ≤ 4 * commitChannelCapacity + 4 := by
  have room := published.room
  have phase : tasks.phase.remaining ≤ 4 := by cases tasks.phase <;> simp [Phase.remaining]
  rw [remaining]
  omega

theorem Move.drained (move : Move config tasks event next)
    (drained : tasks.phase = .finished → tasks.channel = []) (ends : next.phase = .finished) :
    next.channel = [] := by
  cases move with
  | send _ _ alive =>
      rw [show tasks.phase = .finished from ends] at alive
      cases alive
  | receive => cases ends
  | panic => cases ends
  | sendExecuted => cases ends
  | @sendCertified minted => cases minted <;> cases ends
  | submit => cases ends
  | finish _ nothing => exact nothing
  | poll polled =>
      rcases pollWaiting_cases polled with ⟨_, _, _, _, -, -, rfl⟩ | ⟨_, _, _, -, -, rfl⟩
      · exact drained ends
      · exact drained ends
  | restart started =>
      obtain ⟨_, -, rfl⟩ := start_ok.mp started
      rfl
  | _ => exact drained ends

/-- What a driver that ended in good order has executed, and what the next start
makes of it. -/
theorem run_finished (ran : run (step config) (fresh config) events = .ok (outputs, tasks))
    (ends : tasks.phase = .finished) :
    ∃ deliveries minted, deliveries.map Delivery.subdag ++ tasks.unsent = tasks.wal ∧
      run Driver.deliver (.new config) deliveries = .ok (minted, tasks.driver) ∧
      ∃ driver, Node.replay config (deliveries.map Delivery.subdag) = .ok driver ∧
        driver.untimed = tasks.driver.untimed := by
  have drained : tasks.phase = .finished → tasks.channel = [] :=
    run_invariant (fun tasks => tasks.phase = .finished → tasks.channel = [])
      (fun _ _ _ _ held stepped => (step_move stepped).drained held) (fun _ => rfl) ran
  obtain ⟨deliveries, minted, split, received⟩ := run_received ran
  rw [drained ends, ends] at split
  obtain ⟨driver, retimed, alike⟩ := Driver.run_retimed rfl
    (Node.replayed_subdags (deliveries.map Delivery.subdag)).symm received
  refine ⟨deliveries, minted, split, received, driver, ?_, alike⟩
  rw [Node.replay, retimed]
  rfl

/-- Once the replica has stopped, the driver can go on until it ends, and ends
after a bounded number of its steps: having executed every commit sent, which
is what the next start rebuilds, unless it panicked. -/
theorem shutdown_drains {more : List TaskEvent} {moreOutputs : List Unit}
    (front : run (step config) (fresh config) events = .ok (outputs, tasks))
    (stopped : tasks.running = false)
    (back : run (step config) tasks more = .ok (moreOutputs, last)) (lives : .restart ∉ more) :
    more.countP TaskEvent.drives ≤ 4 * commitChannelCapacity + 4 ∧
    (last.phase.ended = false →
      ∃ event next, event.drives = true ∧ last.step config event = .ok ((), next)) ∧
    (last.phase = .finished →
      ∃ deliveries minted, deliveries.map Delivery.subdag ++ last.unsent = last.wal ∧
        run Driver.deliver (.new config) deliveries = .ok (minted, last.driver) ∧
        ∃ driver, Node.replay config (deliveries.map Delivery.subdag) = .ok driver ∧
          driver.untimed = last.driver.untimed) := by
  obtain ⟨stopped', few⟩ := run_drains stopped lives back
  have bound := remaining_le (run_published front)
  refine ⟨by omega, fun alive => driver_goes_on alive fun _ _ => stopped', ?_⟩
  exact run_finished (run_append_ok.mpr ⟨_, _, _, _, front, back, rfl⟩)

/-- A full channel delays commits and no more: after a bounded number of steps of
the replica and the driver, one of which is possible until then, a driver that
still runs has executed all that was recorded, and shows it. -/
theorem backpressure_drains {more : List TaskEvent} {moreOutputs : List Unit}
    (front : run (step config) (fresh config) events = .ok (outputs, tasks))
    (back : run (step config) tasks more = .ok (moreOutputs, last)) (lives : .restart ∉ more)
    (quiet : ∀ event ∈ more, event.recorded = none) :
    more.countP TaskEvent.progresses ≤ 5 * tasks.unsent.length + 4 * commitChannelCapacity + 4 ∧
    (last.running = true → last.phase.ended = false →
      (∃ event next, event.progresses = true ∧ last.step config event = .ok ((), next)) ∨
      ∃ deliveries minted, deliveries.map Delivery.subdag = last.wal ∧
        run Driver.deliver (.new config) deliveries = .ok (minted, last.driver) ∧
        value last.executed = last.driver.count ∧
        value last.certified = last.driver.state.certificationStatus) := by
  have less := run_backlog lives quiet back
  have bound := remaining_le (run_published front)
  rw [backlog, backlog] at less
  refine ⟨by omega, fun running alive => ?_⟩
  by_cases idle : last.Idle
  · right
    have whole := run_append_ok.mpr ⟨_, _, _, _, front, back, rfl⟩
    obtain ⟨deliveries, minted, split, received⟩ := run_received whole
    have published := run_published whole
    have phase : last.phase = .receiving := by
      rcases idle.phase with receives | finished
      · exact receives
      · rw [finished] at alive
        cases alive
    rw [phase, idle.channel, idle.unsent] at split
    exact ⟨deliveries, minted, (List.append_nil _).symm.trans split, received,
      published.executed (by rw [phase]; rfl), published.certified (by rw [phase]; rfl)⟩
  · exact .inl (goes_on running alive idle)

end

end Tasks

end

section

attribute [local instance] plainDag checkedBuild blake2b plainWatch

/-- Two commits are recorded before the first is sent. -/
private def crowding : List TaskEvent :=
  (plainStream FakeFunctionId.successId).map .record ++ [.waitForTransactions 1, .poll]

private def uncrowding : List TaskEvent :=
  [.send, .receive ⟨5⟩, .send, .sendExecuted, .poll, .sendCertified, .submit true, .receive ⟨6⟩,
    .sendExecuted, .sendCertified]

private theorem crowded : ∃ outputs tasks outputs' last,
    run (Tasks.step plainConfig) (.fresh plainConfig) crowding = .ok (outputs, tasks) ∧
    run (Tasks.step plainConfig) tasks uncrowding = .ok (outputs', last) ∧
    ∃ outputs'' stopped, run (Tasks.step plainConfig) last [.stop] = .ok (outputs'', stopped) ∧
      stopped.running = false ∧
      ∃ result, run (Tasks.step plainConfig) stopped [.finish] = .ok result := by
  refine ⟨_, _, _, _, rfl, rfl, _, _, rfl, rfl, _, rfl⟩

theorem uncrowding_drains : ∃ outputs tasks outputs' last,
    run (Tasks.step plainConfig) (.fresh plainConfig) crowding = .ok (outputs, tasks) ∧
    run (Tasks.step plainConfig) tasks uncrowding = .ok (outputs', last) ∧
    uncrowding.countP TaskEvent.progresses ≤
      5 * tasks.unsent.length + 4 * commitChannelCapacity + 4 ∧
    (last.running = true → last.phase.ended = false →
      (∃ event next, event.progresses = true ∧ last.step plainConfig event = .ok ((), next)) ∨
      ∃ deliveries minted, deliveries.map Delivery.subdag = last.wal ∧
        run Driver.deliver (.new plainConfig) deliveries = .ok (minted, last.driver) ∧
        value last.executed = last.driver.count ∧
        value last.certified = last.driver.state.certificationStatus) := by
  obtain ⟨outputs, tasks, outputs', last, front, back, -⟩ := crowded
  refine ⟨outputs, tasks, outputs', last, front, back, ?_⟩
  apply Tasks.backpressure_drains front back
  · simp [uncrowding]
  · simp [uncrowding, TaskEvent.recorded]

theorem stopping_drains : ∃ outputs tasks outputs' last,
    run (Tasks.step plainConfig) (.fresh plainConfig) (crowding ++ uncrowding ++ [.stop]) =
      .ok (outputs, tasks) ∧
    run (Tasks.step plainConfig) tasks [.finish] = .ok (outputs', last) ∧
    [TaskEvent.finish].countP TaskEvent.drives ≤ 4 * commitChannelCapacity + 4 ∧
    (last.phase.ended = false →
      ∃ event next, event.drives = true ∧ last.step plainConfig event = .ok ((), next)) ∧
    (last.phase = .finished →
      ∃ deliveries minted, deliveries.map Delivery.subdag ++ last.unsent = last.wal ∧
        run Driver.deliver (.new plainConfig) deliveries = .ok (minted, last.driver) ∧
        ∃ driver, Node.replay plainConfig (deliveries.map Delivery.subdag) = .ok driver ∧
          driver.untimed = last.driver.untimed) := by
  obtain ⟨_, _, _, last, front, back, _, tasks, stops, stopped, ⟨outputs'', final⟩, ended⟩ := crowded
  have whole := run_append_ok.mpr ⟨_, _, _, _,
    run_append_ok.mpr ⟨_, _, _, _, front, back, rfl⟩, stops, rfl⟩
  exact ⟨_, _, outputs'', final, whole, ended, Tasks.shutdown_drains whole stopped ended (by simp)⟩

end

end BlockchainValidator
