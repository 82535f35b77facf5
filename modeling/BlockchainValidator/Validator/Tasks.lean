import BlockchainValidator.Library.Watch
import BlockchainValidator.Validator.Recovery

/-! # The tasks of a running validator

The replica feeds a bounded channel, the driver task takes one commit after the
other and publishes what it reached, and the caller of the handle waits for
that.  Every await is a step of its own, so the tasks interleave at each of them.
-/

namespace BlockchainValidator

open Execution Run WatchChannel

section

variable [Dag]

def commitChannelCapacity : Nat := 1024

/-- Where the driver task is. -/
inductive Phase where
  /-- It submits what was pending after the replay. -/
  | attesting (pending : List Checkpoint)
  | receiving
  /-- It has executed a sub-dag and sends the count next. -/
  | counting (minted : Option Checkpoint)
  /-- It sends the certification status next. -/
  | certifying (minted : Option Checkpoint)
  | submitting (minted : Checkpoint)
  | finished
  | panicked (subdag : CommittedSubDag) (panic : Panic)

namespace Phase

def ended : Phase → Bool
  | finished | panicked .. => true
  | attesting _ | receiving | counting _ | certifying _ | submitting _ => false

/-- Whether the count that it has sent is the present one. -/
def counted : Phase → Bool
  | counting _ => false
  | attesting _ | receiving | certifying _ | submitting _ | finished | panicked .. => true

/-- Whether the status that it has sent is the present one. -/
def stated : Phase → Bool
  | counting _ | certifying _ => false
  | attesting _ | receiving | submitting _ | finished | panicked .. => true

/-- The votes that the driver has in hand. -/
def inHand : Phase → List Checkpoint
  | attesting pending => pending
  | counting minted | certifying minted => minted.toList
  | submitting minted => [minted]
  | receiving | finished | panicked .. => []

/-- The commit that a panicking driver has taken. -/
def taken : Phase → List CommittedSubDag
  | panicked subdag _ => [subdag]
  | attesting _ | receiving | counting _ | certifying _ | submitting _ | finished => []

/-- It attests again only if something is pending. -/
def afterStart (pending : List Checkpoint) : Phase :=
  if pending = [] then receiving else attesting pending

def afterStatus : Option Checkpoint → Phase
  | none => receiving
  | some minted => submitting minted

theorem afterStart_taken (pending : List Checkpoint) : (afterStart pending).taken = [] := by
  unfold afterStart
  split <;> rfl

theorem afterStart_inHand (pending : List Checkpoint) : (afterStart pending).inHand = pending := by
  unfold afterStart
  split
  · rename_i nothing
    exact nothing.symm
  · rfl

theorem afterStart_stated (pending : List Checkpoint) : (afterStart pending).stated = true := by
  unfold afterStart
  split <;> rfl

theorem afterStatus_taken (minted : Option Checkpoint) : (afterStatus minted).taken = [] := by
  cases minted <;> rfl

theorem afterStatus_inHand (minted : Option Checkpoint) :
    (afterStatus minted).inHand = minted.toList := by
  cases minted <;> rfl

end Phase

/-- The call that the handle is busy with. -/
inductive Waiting where
  | idle
  | transactions (count : UInt64) (waiter : Waiter)
  | certified (waiter : Waiter)

def Waiting.active : Waiting → Bool
  | idle => false
  | transactions _ waiter | certified waiter => waiter.active

structure Tasks [WatchChannel] where
  wal : List CommittedSubDag
  /-- The recorded commits for which the channel had no room yet. -/
  unsent : List CommittedSubDag
  channel : List CommittedSubDag
  /-- Whether the replica runs: it holds the sender of the channel. -/
  running : Bool
  driver : Driver
  phase : Phase
  executed : Watch UInt64
  certified : Watch (Option Digest × Digest)
  waiting : Waiting
  /-- Every checkpoint submitted as a vote, by any incarnation. -/
  submitted : List Checkpoint

inductive TaskEvent where
  /-- The replica records a commit. -/
  | record (subdag : CommittedSubDag)
  /-- It sends the next recorded commit. -/
  | send
  | receive (now : Duration)
  | sendExecuted
  | sendCertified
  /-- The driver's submission returns. -/
  | submit (accepted : Bool)
  /-- The replica stops and drops its sender. -/
  | stop
  /-- The driver finds its channel closed. -/
  | finish
  | waitForTransactions (count : UInt64)
  | waitForCertified
  | poll
  /-- The process dies and starts again. -/
  | restart

inductive Halt where
  | blocked
  | panic (panic : Panic)

namespace TaskEvent

def recorded : TaskEvent → Option CommittedSubDag
  | record subdag => some subdag
  | _ => none

def polls : TaskEvent → Bool
  | poll => true
  | _ => false

/-- The events after which the handle is busy with another call, or is new. -/
def interrupts : TaskEvent → Bool
  | waitForTransactions _ | waitForCertified | restart => true
  | _ => false

/-- The steps that the driver task takes. -/
def drives : TaskEvent → Bool
  | receive _ | sendExecuted | sendCertified | submit _ | finish => true
  | _ => false

/-- The steps that take recorded commits through the channel and the driver. -/
def progresses : TaskEvent → Bool
  | send => true
  | event => event.drives

end TaskEvent

variable [WatchChannel]

namespace Tasks

/-- Nobody sends on the watch channels once the driver has ended. -/
def dropSenders (tasks : Tasks) : Tasks :=
  { tasks with executed := close tasks.executed, certified := close tasks.certified }

def pollWaiting (tasks : Tasks) : Option Tasks :=
  match tasks.waiting with
  | .idle => none
  | .transactions count waiter =>
      (waiter.poll (count ≤ ·) tasks.executed).map fun polled =>
        { tasks with waiting := .transactions count polled.1, executed := polled.2 }
  | .certified waiter =>
      (waiter.poll (fun status => status.1 = some status.2) tasks.certified).map fun polled =>
        { tasks with waiting := .certified polled.1, certified := polled.2 }

theorem pollWaiting_cases {tasks next : Tasks} (polled : tasks.pollWaiting = some next) :
    (∃ count waiter waiter' executed, tasks.waiting = .transactions count waiter ∧
      waiter.poll (count ≤ ·) tasks.executed = some (waiter', executed) ∧
      next = { tasks with waiting := .transactions count waiter', executed }) ∨
    ∃ waiter waiter' certified, tasks.waiting = .certified waiter ∧
      waiter.poll (fun status => status.1 = some status.2) tasks.certified =
        some (waiter', certified) ∧
      next = { tasks with waiting := .certified waiter', certified } := by
  rw [pollWaiting] at polled
  split at polled
  · cases polled
  · rename_i count waiter waits
    obtain ⟨⟨waiter', executed⟩, once, rfl⟩ := Option.map_eq_some_iff.mp polled
    exact .inl ⟨count, waiter, waiter', executed, waits, once, rfl⟩
  · rename_i waiter waits
    obtain ⟨⟨waiter', certified⟩, once, rfl⟩ := Option.map_eq_some_iff.mp polled
    exact .inr ⟨waiter, waiter', certified, waits, once, rfl⟩

def fresh (config : ValidatorConfig) : Tasks where
  wal := []
  unsent := []
  channel := []
  running := true
  driver := .new config
  phase := .receiving
  executed := WatchChannel.channel 0
  certified := WatchChannel.channel (Driver.new config).state.certificationStatus
  waiting := .idle
  submitted := []

section

variable [Hasher] [BuildProfile]

/-- Replays the WAL, then runs the replica and the driver. -/
def start (config : ValidatorConfig) (wal : List CommittedSubDag) (submitted : List Checkpoint) :
    Except Panic Tasks := do
  let driver ← Node.replay config wal
  .ok {
    wal, unsent := [], channel := [], running := true, driver
    phase := .afterStart driver.state.certifier.pending
    executed := WatchChannel.channel driver.count
    certified := WatchChannel.channel driver.state.certificationStatus
    waiting := .idle, submitted }

def step (config : ValidatorConfig) (tasks : Tasks) : TaskEvent → Except Halt (Unit × Tasks)
  | .record subdag =>
      if tasks.running then
        .ok ((), { tasks with wal := tasks.wal ++ [subdag], unsent := tasks.unsent ++ [subdag] })
      else .error .blocked
  | .send =>
      match tasks.unsent with
      | [] => .error .blocked
      | subdag :: unsent =>
          if tasks.running ∧ ¬ tasks.phase.ended ∧ tasks.channel.length < commitChannelCapacity then
            .ok ((), { tasks with unsent, channel := tasks.channel ++ [subdag] })
          else .error .blocked
  | .receive now =>
      match tasks.phase, tasks.channel with
      | .receiving, subdag :: channel =>
          match tasks.driver.deliver ⟨now, subdag⟩ with
          | .ok (minted, driver) => .ok ((), { tasks with channel, driver, phase := .counting minted })
          | .error panic =>
              .ok ((), { tasks with channel, phase := .panicked subdag panic }.dropSenders)
      | _, _ => .error .blocked
  | .sendExecuted =>
      match tasks.phase with
      | .counting minted =>
          .ok ((), { tasks with
            executed := WatchChannel.send tasks.executed tasks.driver.count
            phase := .certifying minted })
      | _ => .error .blocked
  | .sendCertified =>
      match tasks.phase with
      | .certifying minted =>
          .ok ((), { tasks with
            certified := WatchChannel.send tasks.certified tasks.driver.state.certificationStatus
            phase := .afterStatus minted })
      | _ => .error .blocked
  | .submit accepted =>
      match tasks.phase with
      | .attesting _ | .submitting _ =>
          .ok ((), { tasks with
            submitted := if accepted then tasks.submitted ++ tasks.phase.inHand else tasks.submitted
            phase := .receiving })
      | _ => .error .blocked
  | .stop => if tasks.running then .ok ((), { tasks with running := false }) else .error .blocked
  | .finish =>
      match tasks.phase, tasks.channel, tasks.running with
      | .receiving, [], false => .ok ((), { tasks with phase := .finished }.dropSenders)
      | _, _, _ => .error .blocked
  | .waitForTransactions count =>
      if tasks.waiting.active then .error .blocked
      else .ok ((), { tasks with waiting := .transactions count .reading })
  | .waitForCertified =>
      if tasks.waiting.active then .error .blocked
      else .ok ((), { tasks with waiting := .certified .reading })
  | .poll =>
      match tasks.pollWaiting with
      | some tasks => .ok ((), tasks)
      | none => .error .blocked
  | .restart =>
      match start config tasks.wal tasks.submitted with
      | .ok tasks => .ok ((), tasks)
      | .error panic => .error (.panic panic)

theorem start_fresh (config : ValidatorConfig) : start config [] [] = .ok (fresh config) := rfl

/-! ## What a step can do -/

inductive Move (config : ValidatorConfig) (tasks : Tasks) : TaskEvent → Tasks → Prop where
  | record {subdag : CommittedSubDag} (running : tasks.running = true) :
      Move config tasks (.record subdag)
        { tasks with wal := tasks.wal ++ [subdag], unsent := tasks.unsent ++ [subdag] }
  | send {subdag : CommittedSubDag} {unsent : List CommittedSubDag}
      (recorded : tasks.unsent = subdag :: unsent) (running : tasks.running = true)
      (alive : tasks.phase.ended = false) (room : tasks.channel.length < commitChannelCapacity) :
      Move config tasks .send { tasks with unsent, channel := tasks.channel ++ [subdag] }
  | receive {now : Duration} {subdag : CommittedSubDag} {channel : List CommittedSubDag}
      {minted : Option Checkpoint} {driver : Driver} (idle : tasks.phase = .receiving)
      (sent : tasks.channel = subdag :: channel)
      (delivered : tasks.driver.deliver ⟨now, subdag⟩ = .ok (minted, driver)) :
      Move config tasks (.receive now) { tasks with channel, driver, phase := .counting minted }
  | panic {now : Duration} {subdag : CommittedSubDag} {channel : List CommittedSubDag} {panic : Panic}
      (idle : tasks.phase = .receiving) (sent : tasks.channel = subdag :: channel)
      (failed : tasks.driver.deliver ⟨now, subdag⟩ = .error panic) :
      Move config tasks (.receive now)
        { tasks with channel, phase := .panicked subdag panic }.dropSenders
  | sendExecuted {minted : Option Checkpoint} (executed : tasks.phase = .counting minted) :
      Move config tasks .sendExecuted { tasks with
        executed := WatchChannel.send tasks.executed tasks.driver.count
        phase := .certifying minted }
  | sendCertified {minted : Option Checkpoint} (counted : tasks.phase = .certifying minted) :
      Move config tasks .sendCertified { tasks with
        certified := WatchChannel.send tasks.certified tasks.driver.state.certificationStatus
        phase := .afterStatus minted }
  | submit {accepted : Bool} (voting : (∃ pending, tasks.phase = .attesting pending) ∨
      ∃ minted, tasks.phase = .submitting minted) :
      Move config tasks (.submit accepted) { tasks with
        submitted := if accepted then tasks.submitted ++ tasks.phase.inHand else tasks.submitted
        phase := .receiving }
  | stop (running : tasks.running = true) : Move config tasks .stop { tasks with running := false }
  | finish (idle : tasks.phase = .receiving) (drained : tasks.channel = [])
      (stopped : tasks.running = false) :
      Move config tasks .finish { tasks with phase := .finished }.dropSenders
  | waitForTransactions {count : UInt64} (free : tasks.waiting.active = false) :
      Move config tasks (.waitForTransactions count)
        { tasks with waiting := .transactions count .reading }
  | waitForCertified (free : tasks.waiting.active = false) :
      Move config tasks .waitForCertified { tasks with waiting := .certified .reading }
  | poll {next : Tasks} (polled : tasks.pollWaiting = some next) : Move config tasks .poll next
  | restart {next : Tasks} (started : start config tasks.wal tasks.submitted = .ok next) :
      Move config tasks .restart next

variable {config : ValidatorConfig} {tasks next last : Tasks} {event : TaskEvent}

theorem step_move (stepped : tasks.step config event = .ok ((), next)) :
    Move config tasks event next := by
  cases event with
  | record subdag =>
      rw [step] at stepped
      split at stepped
      · rename_i running
        cases stepped
        exact .record running
      · cases stepped
  | send =>
      rw [step] at stepped
      split at stepped
      · cases stepped
      · rename_i recorded
        split at stepped
        · rename_i ready
          obtain ⟨running, alive, room⟩ := ready
          cases stepped
          exact .send recorded running (by simpa using alive) room
        · cases stepped
  | receive now =>
      rw [step] at stepped
      split at stepped
      · rename_i idle sent
        split at stepped
        · rename_i delivered
          cases stepped
          exact .receive idle sent delivered
        · rename_i failed
          cases stepped
          exact .panic idle sent failed
      · cases stepped
  | sendExecuted =>
      rw [step] at stepped
      split at stepped
      · rename_i executed
        cases stepped
        exact .sendExecuted executed
      · cases stepped
  | sendCertified =>
      rw [step] at stepped
      split at stepped
      · rename_i counted
        cases stepped
        exact .sendCertified counted
      · cases stepped
  | submit accepted =>
      rw [step] at stepped
      split at stepped
      · rename_i attests
        cases stepped
        exact .submit (.inl ⟨_, attests⟩)
      · rename_i votes
        cases stepped
        exact .submit (.inr ⟨_, votes⟩)
      · cases stepped
  | stop =>
      rw [step] at stepped
      split at stepped
      · rename_i running
        cases stepped
        exact .stop running
      · cases stepped
  | finish =>
      rw [step] at stepped
      split at stepped
      · rename_i idle drained stopped
        cases stepped
        exact .finish idle drained stopped
      · cases stepped
  | waitForTransactions count =>
      rw [step] at stepped
      split at stepped
      · cases stepped
      · rename_i free
        cases stepped
        exact .waitForTransactions (by simpa using free)
  | waitForCertified =>
      rw [step] at stepped
      split at stepped
      · cases stepped
      · rename_i free
        cases stepped
        exact .waitForCertified (by simpa using free)
  | poll =>
      rw [step] at stepped
      split at stepped
      · rename_i polled
        cases stepped
        exact .poll polled
      · cases stepped
  | restart =>
      rw [step] at stepped
      split at stepped
      · rename_i started
        cases stepped
        exact .restart started
      · cases stepped

end

/-! ## Against the coarse validator

There a commit is recorded and queued at once, and one step executes, publishes
and submits.
-/

structure Refines (tasks : Tasks) (node : Node) : Prop where
  wal : node.wal = tasks.wal
  queue : node.queue = tasks.phase.taken ++ tasks.channel ++ tasks.unsent
  driver : node.driver = tasks.driver
  submitted : (tasks.submitted ++ tasks.phase.inHand).Sublist node.submitted

theorem fresh_refines (config : ValidatorConfig) : (fresh config).Refines (Node.fresh config) :=
  ⟨rfl, rfl, rfl, .slnil⟩

section

variable [Hasher] [BuildProfile] {config : ValidatorConfig} {tasks next last : Tasks}
  {event : TaskEvent} {node : Node}

theorem start_ok {wal : List CommittedSubDag} {submitted : List Checkpoint} :
    start config wal submitted = .ok next ↔
      ∃ driver, Node.replay config wal = .ok driver ∧
        next = {
          wal, unsent := [], channel := [], running := true, driver
          phase := .afterStart driver.state.certifier.pending
          executed := WatchChannel.channel driver.count
          certified := WatchChannel.channel driver.state.certificationStatus
          waiting := .idle, submitted } := by
  rw [start, bind_eq_ok]
  simp only [Except.ok.injEq, eq_comm]

theorem Refines.restart (refines : tasks.Refines node)
    (started : start config tasks.wal tasks.submitted = .ok next) :
    ∃ node', node.step config .restart = .ok ((), node') ∧ next.Refines node' := by
  obtain ⟨driver, replays, rfl⟩ := start_ok.mp started
  refine ⟨⟨tasks.wal, [], driver, node.submitted ++ driver.state.certifier.pending⟩, ?_, ?_⟩
  · rw [Node.step, Node.start, refines.wal, replays]
    rfl
  · constructor
    · rfl
    · rw [Phase.afterStart_taken]
      rfl
    · rfl
    · rw [Phase.afterStart_inHand]
      exact ((List.sublist_append_left _ _).trans refines.submitted).append (.refl _)

theorem Refines.move (refines : tasks.Refines node) (move : Move config tasks event next) :
    ∃ events outputs node', events.filterMap NodeEvent.committed = event.recorded.toList ∧
      run (Node.step config) node events = .ok (outputs, node') ∧ next.Refines node' := by
  obtain ⟨wal, queue, driver, submitted⟩ := refines
  cases move with
  | @record subdag running =>
      refine ⟨[.commit subdag], [()], _, rfl, rfl, ?_⟩
      refine ⟨congrArg (· ++ [subdag]) wal, ?_, driver, submitted⟩
      rw [queue, List.append_assoc]
  | send recorded running alive room =>
      refine ⟨[], [], node, rfl, rfl, wal, ?_, driver, submitted⟩
      rw [queue, recorded, List.append_cons, List.append_assoc tasks.phase.taken]
  | @receive now subdag channel minted after idle sent delivered =>
      rw [idle, sent] at queue
      rw [idle, Phase.inHand, List.append_nil] at submitted
      refine ⟨[.receive now], [()], { node with
        queue := channel ++ tasks.unsent, driver := after
        submitted := node.submitted ++ minted.toList }, rfl, ?_, wal, rfl, rfl, ?_⟩
      · have stepped : node.step config (.receive now) = .ok ((), { node with
            queue := channel ++ tasks.unsent, driver := after
            submitted := node.submitted ++ minted.toList }) := by
          rw [← driver] at delivered
          simp only [Node.step, queue, Phase.taken, List.nil_append, List.cons_append, delivered,
            bind_ok]
        exact run_cons_ok.mpr ⟨_, _, [], _, stepped, rfl, rfl⟩
      · exact submitted.append (.refl _)
  | panic idle sent failed =>
      rw [idle, sent] at queue
      rw [idle] at submitted
      exact ⟨[], [], node, rfl, rfl, wal, queue, driver, submitted⟩
  | sendExecuted executed =>
      rw [executed] at queue submitted
      exact ⟨[], [], node, rfl, rfl, wal, queue, driver, submitted⟩
  | sendCertified counted =>
      rw [counted] at queue submitted
      refine ⟨[], [], node, rfl, rfl, wal, ?_, driver, ?_⟩
      · rw [queue, Phase.afterStatus_taken]
        rfl
      · rw [Phase.afterStatus_inHand]
        exact submitted
  | @submit accepted voting =>
      refine ⟨[], [], node, rfl, rfl, wal, ?_, driver, ?_⟩
      · rcases voting with ⟨_, phase⟩ | ⟨_, phase⟩
        · rw [queue, phase]
          rfl
        · rw [queue, phase]
          rfl
      · rw [Phase.inHand, List.append_nil]
        split
        · exact submitted
        · exact (List.sublist_append_left _ _).trans submitted
  | stop running => exact ⟨[], [], node, rfl, rfl, wal, queue, driver, submitted⟩
  | finish idle drained stopped =>
      rw [idle] at queue submitted
      exact ⟨[], [], node, rfl, rfl, wal, queue, driver, submitted⟩
  | waitForTransactions free => exact ⟨[], [], node, rfl, rfl, wal, queue, driver, submitted⟩
  | waitForCertified free => exact ⟨[], [], node, rfl, rfl, wal, queue, driver, submitted⟩
  | poll polled =>
      rcases pollWaiting_cases polled with ⟨_, _, _, _, -, -, rfl⟩ | ⟨_, _, _, -, -, rfl⟩
      · exact ⟨[], [], node, rfl, rfl, wal, queue, driver, submitted⟩
      · exact ⟨[], [], node, rfl, rfl, wal, queue, driver, submitted⟩
  | restart started =>
      obtain ⟨node', stepped, refines'⟩ :=
        Refines.restart ⟨wal, queue, driver, submitted⟩ started
      exact ⟨[.restart], [()], node', rfl, run_cons_ok.mpr ⟨_, _, [], _, stepped, rfl, rfl⟩, refines'⟩

/-- Each step is matched by a stretch of coarse steps that records the same commits. -/
theorem run_coarse {events : List TaskEvent} {outputs : List Unit}
    (ran : run (step config) (fresh config) events = .ok (outputs, tasks)) :
    ∃ pieces outputs' node,
      List.Forall₂ (fun event piece =>
        piece.filterMap NodeEvent.committed = event.recorded.toList) events pieces ∧
      run (Node.step config) (.fresh config) pieces.flatten = .ok (outputs', node) ∧
      tasks.Refines node :=
  run_stuttering Refines
    (fun event piece => piece.filterMap NodeEvent.committed = event.recorded.toList)
    (fun _ _ _ _ _ refines stepped => refines.move (step_move stepped))
    (fresh_refines config) ran

/-- Whatever the interleaving, some coarse run is at the same point. -/
theorem interleavings_refine {events : List TaskEvent} {outputs : List Unit}
    (ran : run (step config) (fresh config) events = .ok (outputs, tasks)) :
    ∃ coarse outputs' node, run (Node.step config) (.fresh config) coarse = .ok (outputs', node) ∧
      coarse.filterMap NodeEvent.committed = events.filterMap TaskEvent.recorded ∧
      tasks.Refines node := by
  obtain ⟨pieces, outputs', node, same, ran', refines⟩ := run_coarse ran
  refine ⟨pieces.flatten, outputs', node, ran', ?_, refines⟩
  clear ran ran' refines
  induction same with
  | nil => rfl
  | @cons event piece events pieces head _ ih =>
      rw [List.flatten_cons, List.filterMap_append, head, ih]
      cases recorded : event.recorded <;> simp [recorded]

end

end Tasks

end

section

attribute [local instance] plainDag checkedBuild blake2b plainWatch

/-- The process dies between executing a commit and voting for it. -/
private def unlucky : List TaskEvent :=
  (plainStream FakeFunctionId.successId).flatMap (fun subdag => [.record subdag, .send]) ++
    [.receive ⟨5⟩, .sendExecuted, .restart, .stop]

theorem unlucky_refines : ∃ outputs tasks,
    run (Tasks.step plainConfig) (.fresh plainConfig) unlucky = .ok (outputs, tasks) ∧
    ∃ coarse outputs' node, run (Node.step plainConfig) (.fresh plainConfig) coarse =
        .ok (outputs', node) ∧
      coarse.filterMap NodeEvent.committed = unlucky.filterMap TaskEvent.recorded ∧
      tasks.Refines node := by
  obtain ⟨⟨outputs, tasks⟩, ran⟩ : ∃ result,
      run (Tasks.step plainConfig) (.fresh plainConfig) unlucky = .ok result := ⟨_, rfl⟩
  exact ⟨outputs, tasks, ran, Tasks.interleavings_refine ran⟩

end

end BlockchainValidator
