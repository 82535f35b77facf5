import BlockchainValidator.Validator.Ledger
import BlockchainValidator.Validator.Tasks

/-! # What the caller of a handle can rely on

Whatever the interleaving with the driver, a wait misses nothing that stays true
and gives up only on a driver that has ended short of it.
-/

namespace BlockchainValidator

open Execution Run WatchChannel

section

variable [Dag]

def Waiting.waiter : Waiting → Option Waiter
  | idle => none
  | transactions _ waiter | certified waiter => some waiter

/-- The same call with its waiter elsewhere. -/
def Waiting.resume (waiter : Waiter) : Waiting → Waiting
  | idle => idle
  | transactions count _ => transactions count waiter
  | certified _ => certified waiter

omit [Dag] in
theorem Waiting.resume_resume (waiting : Waiting) (waiter waiter' : Waiter) :
    (waiting.resume waiter).resume waiter' = waiting.resume waiter' := by
  cases waiting <;> rfl

omit [Dag] in
theorem Waiting.resume_self {waiting : Waiting} {waiter : Waiter}
    (waits : waiting.waiter = some waiter) : waiting.resume waiter = waiting := by
  cases waiting with
  | idle => rfl
  | transactions => cases waits; rfl
  | certified => cases waits; rfl

omit [Dag] in
theorem Waiting.waiter_resume {waiting : Waiting} {waiter waiter' : Waiter}
    (waits : waiting.waiter = some waiter) : (waiting.resume waiter').waiter = some waiter' := by
  cases waiting with
  | idle => cases waits
  | transactions => rfl
  | certified => rfl

/-- What the call waits for. -/
def Waiting.met (driver : Driver) : Waiting → Bool
  | idle => true
  | transactions count _ => count ≤ driver.count
  | certified _ => driver.state.certificationStatus.1 = some driver.state.certificationStatus.2

theorem Phase.stated_counted {phase : Phase} (stated : phase.stated = true) :
    phase.counted = true := by
  cases phase with
  | counting => cases stated
  | _ => rfl

theorem Phase.ended_stated {phase : Phase} (ended : phase.ended = true) : phase.stated = true := by
  cases phase with
  | counting => cases ended
  | certifying => cases ended
  | _ => rfl

section

variable [Hasher] [BuildProfile] {config : ValidatorConfig} {driver last : Driver}
  {deliveries : List Delivery} {minted : List (Option Checkpoint)} {delivery : Delivery}

theorem Driver.deliver_count (ran : run deliver (.new config) deliveries = .ok (minted, driver))
    {checkpoint : Option Checkpoint} (delivered : driver.deliver delivery = .ok (checkpoint, last))
    (few : ((deliveries ++ [delivery]).flatMap (·.subdag.transactions)).length < 2 ^ 64) :
    driver.count ≤ last.count := by
  have whole := run_count (run_concat_ok.mpr ⟨_, _, _, _, ran, delivered, rfl⟩) few
  rw [List.flatMap_append, List.length_append] at few whole
  have front := run_count ran (by omega)
  rw [UInt64.le_iff_toNat_le]
  omega

end

variable [WatchChannel]

namespace Tasks

/-! ## What is published -/

def Attended (tasks : Tasks) : Prop :=
  match tasks.waiting with
  | .idle => True
  | .transactions count waiter => waiter.Guarded (count ≤ ·) tasks.executed
  | .certified waiter => waiter.Guarded (fun status => status.1 = some status.2) tasks.certified

/-- The watch channels show the driver's state except where it is about to send. -/
structure Published (tasks : Tasks) : Prop where
  executed : tasks.phase.counted = true → value tasks.executed = tasks.driver.count
  certified : tasks.phase.stated = true →
    value tasks.certified = tasks.driver.state.certificationStatus
  executedClosed : closed tasks.executed = tasks.phase.ended
  certifiedClosed : closed tasks.certified = tasks.phase.ended
  room : tasks.channel.length ≤ commitChannelCapacity
  attended : tasks.Attended

theorem fresh_published (config : ValidatorConfig) : (fresh config).Published where
  executed _ := value_channel _
  certified _ := value_channel _
  executedClosed := closed_channel _
  certifiedClosed := closed_channel _
  room := Nat.zero_le _
  attended := trivial

section

variable {tasks next : Tasks}

theorem Attended.dropSenders (attended : tasks.Attended) : tasks.dropSenders.Attended := by
  change (match tasks.waiting with
    | .idle => True
    | .transactions count waiter => waiter.Guarded (count ≤ ·) (close tasks.executed)
    | .certified waiter =>
        waiter.Guarded (fun status => status.1 = some status.2) (close tasks.certified))
  rw [Attended] at attended
  cases waits : tasks.waiting with
  | idle => trivial
  | transactions count waiter =>
      rw [waits] at attended
      exact attended.close
  | certified waiter =>
      rw [waits] at attended
      exact attended.close

theorem Published.poll (published : tasks.Published) (polled : tasks.pollWaiting = some next) :
    next.Published := by
  have attended := published.attended
  rw [Attended] at attended
  rcases pollWaiting_cases polled with
    ⟨count, waiter, waiter', executed, waits, once, rfl⟩ | ⟨waiter, waiter', certified, waits, once, rfl⟩
  · obtain ⟨kept, shut⟩ := Waiter.poll_keeps once
    rw [waits] at attended
    exact { published with
      executed := fun counted => kept.trans (published.executed counted)
      executedClosed := shut.trans published.executedClosed
      attended := attended.poll once }
  · obtain ⟨kept, shut⟩ := Waiter.poll_keeps once
    rw [waits] at attended
    exact { published with
      certified := fun stated => kept.trans (published.certified stated)
      certifiedClosed := shut.trans published.certifiedClosed
      attended := attended.poll once }

theorem Published.sendExecuted (published : tasks.Published) {minted : Option Checkpoint}
    (executed : tasks.phase = .counting minted) :
    Published { tasks with
      executed := WatchChannel.send tasks.executed tasks.driver.count
      phase := .certifying minted } := by
  have opened : closed tasks.executed = false := by rw [published.executedClosed, executed]; rfl
  have attended := published.attended
  rw [Attended] at attended
  constructor
  · exact fun _ => value_send _ _
  · intro impossible
    cases impossible
  · exact (closed_send _ _).trans opened
  · rw [published.certifiedClosed, executed]
    rfl
  · exact published.room
  · rw [Attended]
    cases waits : tasks.waiting with
    | idle => trivial
    | transactions count waiter =>
        rw [waits] at attended
        exact attended.send opened _
    | certified waiter =>
        rw [waits] at attended
        exact attended

theorem Published.sendCertified (published : tasks.Published) {minted : Option Checkpoint}
    (counted : tasks.phase = .certifying minted) :
    Published { tasks with
      certified := WatchChannel.send tasks.certified tasks.driver.state.certificationStatus
      phase := .afterStatus minted } := by
  have opened : closed tasks.certified = false := by rw [published.certifiedClosed, counted]; rfl
  have alive : (Phase.afterStatus minted).ended = false := by cases minted <;> rfl
  have attended := published.attended
  rw [Attended] at attended
  constructor
  · exact fun _ => published.executed (by rw [counted]; rfl)
  · exact fun _ => value_send _ _
  · exact published.executedClosed.trans (by rw [counted, alive]; rfl)
  · rw [closed_send, opened, alive]
  · exact published.room
  · rw [Attended]
    cases waits : tasks.waiting with
    | idle => trivial
    | transactions count waiter =>
        rw [waits] at attended
        exact attended
    | certified waiter =>
        rw [waits] at attended
        exact attended.send opened _

end

section

variable [Hasher] [BuildProfile] {config : ValidatorConfig} {tasks next last : Tasks}
  {event : TaskEvent} {events : List TaskEvent} {outputs : List Unit}

theorem start_published {wal : List CommittedSubDag} {submitted : List Checkpoint}
    (started : start config wal submitted = .ok next) : next.Published := by
  obtain ⟨driver, -, rfl⟩ := start_ok.mp started
  have alive : (Phase.afterStart driver.state.certifier.pending).ended = false := by
    unfold Phase.afterStart
    split <;> rfl
  constructor
  · exact fun _ => value_channel _
  · exact fun _ => value_channel _
  · exact (closed_channel _).trans alive.symm
  · exact (closed_channel _).trans alive.symm
  · exact Nat.zero_le _
  · trivial

theorem Published.move (published : tasks.Published) (move : Move config tasks event next) :
    next.Published := by
  cases move with
  | record running => exact { published with }
  | send recorded running alive room =>
      refine { published with room := ?_ }
      rw [List.length_append, List.length_singleton]
      exact room
  | receive idle sent delivered =>
      have room := published.room
      rw [sent, List.length_cons] at room
      constructor
      · intro impossible
        cases impossible
      · intro impossible
        cases impossible
      · exact published.executedClosed.trans (by rw [idle]; rfl)
      · exact published.certifiedClosed.trans (by rw [idle]; rfl)
      · exact Nat.le_of_succ_le room
      · exact published.attended
  | panic idle sent failed =>
      have room := published.room
      rw [sent, List.length_cons] at room
      constructor
      · exact fun _ => (value_close _).trans (published.executed (by rw [idle]; rfl))
      · exact fun _ => (value_close _).trans (published.certified (by rw [idle]; rfl))
      · exact closed_close _
      · exact closed_close _
      · exact Nat.le_of_succ_le room
      · exact Attended.dropSenders published.attended
  | sendExecuted executed => exact published.sendExecuted executed
  | sendCertified counted => exact published.sendCertified counted
  | submit voting =>
      have executed : tasks.phase.counted = true ∧ tasks.phase.stated = true ∧
          tasks.phase.ended = false := by
        rcases voting with ⟨_, phase⟩ | ⟨_, phase⟩ <;> rw [phase] <;> exact ⟨rfl, rfl, rfl⟩
      obtain ⟨counted, stated, alive⟩ := executed
      constructor
      · exact fun _ => published.executed counted
      · exact fun _ => published.certified stated
      · exact published.executedClosed.trans alive
      · exact published.certifiedClosed.trans alive
      · exact published.room
      · exact published.attended
  | stop running => exact { published with }
  | finish idle drained stopped =>
      constructor
      · exact fun _ => (value_close _).trans (published.executed (by rw [idle]; rfl))
      · exact fun _ => (value_close _).trans (published.certified (by rw [idle]; rfl))
      · exact closed_close _
      · exact closed_close _
      · exact published.room
      · exact Attended.dropSenders published.attended
  | waitForTransactions free => exact { published with attended := .reading _ _ }
  | waitForCertified free => exact { published with attended := .reading _ _ }
  | poll polled => exact published.poll polled
  | restart started => exact start_published started

theorem run_published (ran : run (step config) (fresh config) events = .ok (outputs, tasks)) :
    tasks.Published :=
  run_invariant Published (fun _ _ _ _ published stepped => published.move (step_move stepped))
    (fresh_published config) ran

/-! ## Waiting -/

omit [Hasher] [BuildProfile] in
/-- A wait gives up on a driver that has ended short of it. -/
theorem Published.gave_up (published : tasks.Published)
    (gone : tasks.waiting.waiter = some .stopped) :
    tasks.phase.ended = true ∧ tasks.waiting.met tasks.driver = false := by
  have attended := published.attended
  rw [Attended] at attended
  cases waits : tasks.waiting with
  | idle =>
      rw [waits] at gone
      cases gone
  | transactions count waiter =>
      rw [waits] at attended gone
      obtain ⟨shut, unready⟩ := attended.gone (Option.some.inj gone)
      have ended := published.executedClosed.symm.trans shut
      rw [published.executed (Phase.stated_counted (Phase.ended_stated ended))] at unready
      exact ⟨ended, unready⟩
  | certified waiter =>
      rw [waits] at attended gone
      obtain ⟨shut, unready⟩ := attended.gone (Option.some.inj gone)
      have ended := published.certifiedClosed.symm.trans shut
      rw [published.certified (Phase.ended_stated ended)] at unready
      exact ⟨ended, unready⟩

omit [Hasher] [BuildProfile] in
/-- A wait that cannot go on waits for something that is not there. -/
theorem Published.asleep (published : tasks.Published) (active : tasks.waiting.active = true)
    (stated : tasks.phase.stated = true) (blocked : tasks.pollWaiting = none) :
    tasks.phase.ended = false ∧ tasks.waiting.met tasks.driver = false := by
  have attended := published.attended
  rw [Attended] at attended
  rw [pollWaiting] at blocked
  cases waits : tasks.waiting with
  | idle =>
      rw [waits] at active
      cases active
  | transactions count waiter =>
      rw [waits] at attended active blocked
      obtain ⟨unready, opened, -⟩ := attended.blocked active (Option.map_eq_none_iff.mp blocked)
      rw [published.executed (Phase.stated_counted stated)] at unready
      exact ⟨published.executedClosed.symm.trans opened, unready⟩
  | certified waiter =>
      rw [waits] at attended active blocked
      obtain ⟨unready, opened, -⟩ := attended.blocked active (Option.map_eq_none_iff.mp blocked)
      rw [published.certified stated] at unready
      exact ⟨published.certifiedClosed.symm.trans opened, unready⟩

theorem run_polls {α : Type} {ready : α → Bool} {embed : Waiter × Watch α → Tasks}
    (embeds : ∀ waiter watch, (embed (waiter, watch)).pollWaiting = (waiter.poll ready watch).map embed)
    {polls : Nat} {state state' : Waiter × Watch α} (polled : Waiter.Polls ready polls state state') :
    run (step config) (embed state) (List.replicate polls .poll) =
      .ok (List.replicate polls (), embed state') := by
  induction polled with
  | none _ => rfl
  | @one polls waiter watch middle _ once _ ih =>
      have stepped : step config (embed (waiter, watch)) .poll = .ok ((), embed middle) := by
        rw [step, embeds, once]
        rfl
      exact run_cons_ok.mpr ⟨(), _, _, _, stepped, ih, rfl⟩

/-- Where a waiting caller ends up if it alone goes on. -/
def waited (tasks : Tasks) : Waiter :=
  if tasks.waiting.met tasks.driver then .returned
  else if tasks.phase.ended then .stopped else .sleeping

/-- Three polls take a wait to where the driver's state leaves it. -/
theorem Published.settles (published : tasks.Published) (active : tasks.waiting.active = true)
    (stated : tasks.phase.stated = true) :
    ∃ polls ≤ 3, ∃ last, run (step config) tasks (List.replicate polls .poll) =
        .ok (List.replicate polls (), last) ∧
      last.driver = tasks.driver ∧ last.phase = tasks.phase ∧
      last.waiting.waiter = some tasks.waited := by
  have attended := published.attended
  rw [Attended] at attended
  cases waits : tasks.waiting with
  | idle =>
      rw [waits] at active
      cases active
  | transactions count waiter =>
      rw [waits] at attended active
      obtain ⟨polls, few, executed, polled, -⟩ := attended.settles active
      let embed (state : Waiter × Watch UInt64) : Tasks :=
        { tasks with waiting := .transactions count state.1, executed := state.2 }
      have here : embed (waiter, tasks.executed) = tasks := by
        change { tasks with waiting := .transactions count waiter } = tasks
        rw [← waits]
      have ran : run (step config) (embed (waiter, tasks.executed)) (List.replicate polls .poll) =
          .ok (List.replicate polls (), embed _) := run_polls (fun _ _ => rfl) polled
      rw [here] at ran
      refine ⟨polls, few, _, ran, rfl, rfl, ?_⟩
      rw [waited, waits, Waiting.met, ← published.executed (Phase.stated_counted stated),
        ← published.executedClosed]
      rfl
  | certified waiter =>
      rw [waits] at attended active
      obtain ⟨polls, few, certified, polled, -⟩ := attended.settles active
      let embed (state : Waiter × Watch (Option Digest × Digest)) : Tasks :=
        { tasks with waiting := .certified state.1, certified := state.2 }
      have here : embed (waiter, tasks.certified) = tasks := by
        change { tasks with waiting := .certified waiter } = tasks
        rw [← waits]
      have ran : run (step config) (embed (waiter, tasks.certified)) (List.replicate polls .poll) =
          .ok (List.replicate polls (), embed _) := run_polls (fun _ _ => rfl) polled
      rw [here] at ran
      refine ⟨polls, few, _, ran, rfl, rfl, ?_⟩
      rw [waited, waits, Waiting.met, ← published.certified stated, ← published.certifiedClosed]
      rfl

/-! ## The count only grows -/

/-- The transactions that the recorded commits carry. -/
def recordedTransactions (tasks : Tasks) : List Transaction :=
  tasks.wal.flatMap CommittedSubDag.transactions

/-- The driver has executed what the channel does not hold, in the recorded order. -/
theorem run_received (ran : run (step config) (fresh config) events = .ok (outputs, tasks)) :
    ∃ deliveries minted, deliveries.map Delivery.subdag ++
        (tasks.phase.taken ++ tasks.channel ++ tasks.unsent) = tasks.wal ∧
      run Driver.deliver (.new config) deliveries = .ok (minted, tasks.driver) := by
  obtain ⟨_, outputs', node, -, ran', refines⟩ := run_coarse ran
  have consistent : node.Consistent config := run_invariant (Node.Consistent config)
    (fun _ _ _ _ consistent stepped => (Node.step_consistent consistent stepped).1)
    (Node.fresh_consistent config) ran'
  obtain ⟨deliveries, minted, split, received⟩ := consistent.received
  rw [refines.queue, refines.wal] at split
  rw [refines.driver] at received
  exact ⟨deliveries, minted, split, received⟩

theorem Move.wal (move : Move config tasks event next) :
    next.wal = tasks.wal ++ event.recorded.toList := by
  cases move with
  | record => rfl
  | poll polled =>
      rcases pollWaiting_cases polled with ⟨_, _, _, _, -, -, rfl⟩ | ⟨_, _, _, -, -, rfl⟩
      · exact (List.append_nil _).symm
      · exact (List.append_nil _).symm
  | restart started =>
      obtain ⟨_, -, rfl⟩ := start_ok.mp started
      exact (List.append_nil _).symm
  | _ => exact (List.append_nil _).symm

theorem Move.fewer (move : Move config tasks event next)
    (few : next.recordedTransactions.length < 2 ^ 64) :
    tasks.recordedTransactions.length < 2 ^ 64 := by
  rw [recordedTransactions, move.wal, List.flatMap_append, List.length_append] at few
  exact Nat.lt_of_le_of_lt (Nat.le_add_right _ _) few

theorem run_fewer (ran : run (step config) tasks events = .ok (outputs, last))
    (few : last.recordedTransactions.length < 2 ^ 64) :
    tasks.recordedTransactions.length < 2 ^ 64 :=
  run_history (fun _ _ last => last.recordedTransactions.length < 2 ^ 64 →
      tasks.recordedTransactions.length < 2 ^ 64)
    (fun _ _ _ _ _ _ _ held stepped few => held ((step_move stepped).fewer few)) id ran few

/-- A commit received next never lowers the count. -/
theorem run_grows (ran : run (step config) (fresh config) events = .ok (outputs, tasks))
    (few : tasks.recordedTransactions.length < 2 ^ 64) {now : Duration} {subdag : CommittedSubDag}
    {channel : List CommittedSubDag} {minted : Option Checkpoint} {driver : Driver}
    (idle : tasks.phase = .receiving) (sent : tasks.channel = subdag :: channel)
    (delivered : tasks.driver.deliver ⟨now, subdag⟩ = .ok (minted, driver)) :
    tasks.driver.count ≤ driver.count := by
  obtain ⟨deliveries, _, split, received⟩ := run_received ran
  refine Driver.deliver_count received delivered (Nat.lt_of_le_of_lt ?_ few)
  rw [idle, sent] at split
  have front : (deliveries ++ [(⟨now, subdag⟩ : Delivery)]).map Delivery.subdag <+: tasks.wal := by
    refine ⟨channel ++ tasks.unsent, ?_⟩
    rw [← split, List.map_append, List.append_assoc]
    rfl
  have inside := (front.flatMap CommittedSubDag.transactions).length_le
  rw [List.flatMap_map] at inside
  exact inside

/-- The count shown lags behind, and a wait that returned was met. -/
structure Counting (tasks : Tasks) : Prop where
  shown : value tasks.executed ≤ tasks.driver.count
  returned : ∀ count, tasks.waiting = .transactions count .returned → count ≤ value tasks.executed

omit [Hasher] [BuildProfile] in
theorem Counting.poll (counting : tasks.Counting) (polled : tasks.pollWaiting = some next) :
    next.Counting := by
  rcases pollWaiting_cases polled with
    ⟨count, waiter, waiter', executed, waits, once, rfl⟩ | ⟨waiter, waiter', certified, waits, once, rfl⟩
  · have kept := (Waiter.poll_keeps once).1
    refine ⟨le_of_eq_of_le kept counting.shown, ?_⟩
    intro count' returned
    cases returned
    rw [kept]
    rcases Waiter.poll_cases once with ⟨-, read, -⟩ | ⟨-, -, read, -⟩ | ⟨-, -, -, read, -⟩
    · split at read
      · rename_i ready
        exact of_decide_eq_true ready
      · cases read
    · cases read
    · cases read
  · refine ⟨counting.shown, ?_⟩
    intro count' returned
    cases returned

theorem Counting.move (counting : tasks.Counting) (move : Move config tasks event next)
    (grows : ∀ now subdag channel minted driver, tasks.phase = .receiving →
      tasks.channel = subdag :: channel → tasks.driver.deliver ⟨now, subdag⟩ = .ok (minted, driver) →
        tasks.driver.count ≤ driver.count) : next.Counting := by
  obtain ⟨shown, returned⟩ := counting
  cases move with
  | receive idle sent delivered =>
      exact ⟨UInt64.le_trans shown (grows _ _ _ _ _ idle sent delivered), returned⟩
  | panic =>
      refine ⟨le_of_eq_of_le (value_close _) shown, fun count waits => ?_⟩
      rw [dropSenders, value_close]
      exact returned count waits
  | finish =>
      refine ⟨le_of_eq_of_le (value_close _) shown, fun count waits => ?_⟩
      rw [dropSenders, value_close]
      exact returned count waits
  | sendExecuted =>
      refine ⟨UInt64.le_of_eq (value_send _ _), fun count waits => ?_⟩
      rw [value_send]
      exact UInt64.le_trans (returned count waits) shown
  | waitForTransactions =>
      refine ⟨shown, fun count waits => ?_⟩
      cases waits
  | waitForCertified =>
      refine ⟨shown, fun count waits => ?_⟩
      cases waits
  | poll polled => exact Counting.poll ⟨shown, returned⟩ polled
  | restart started =>
      obtain ⟨_, -, rfl⟩ := start_ok.mp started
      refine ⟨UInt64.le_of_eq (value_channel _), fun count waits => ?_⟩
      cases waits
  | _ => exact ⟨shown, returned⟩

theorem run_counting (ran : run (step config) (fresh config) events = .ok (outputs, tasks))
    (few : tasks.recordedTransactions.length < 2 ^ 64) : tasks.Counting := by
  refine run_history (fun _ _ tasks => tasks.recordedTransactions.length < 2 ^ 64 → tasks.Counting)
    ?_ ?_ ran few
  · intro _ _ tasks event _ next front held stepped few
    have move := step_move stepped
    have fewer := move.fewer few
    exact (held fewer).move move fun _ _ _ _ _ => run_grows front fewer
  · intro _
    refine ⟨UInt64.le_of_eq (value_channel _), fun count waits => ?_⟩
    cases waits

/-- In every run a wait for transactions that returned was met, a wait gives up only
on a driver that has ended short of it, and unless the driver is about to publish, a
sleeping one is not met and three polls end one that is. -/
theorem waits_exact (ran : run (step config) (fresh config) events = .ok (outputs, tasks)) :
    (∀ count, tasks.recordedTransactions.length < 2 ^ 64 →
      tasks.waiting = .transactions count .returned → count ≤ value tasks.executed) ∧
    (tasks.waiting.waiter = some .stopped →
      tasks.phase.ended = true ∧ tasks.waiting.met tasks.driver = false) ∧
    (tasks.phase.stated = true → tasks.waiting.active = true →
      (tasks.pollWaiting = none → tasks.phase.ended = false ∧ tasks.waiting.met tasks.driver = false) ∧
      ∃ polls ≤ 3, ∃ last, run (step config) tasks (List.replicate polls .poll) =
          .ok (List.replicate polls (), last) ∧
        last.driver = tasks.driver ∧ last.phase = tasks.phase ∧
        last.waiting.waiter = some tasks.waited) := by
  have published := run_published ran
  exact ⟨fun count few => (run_counting ran few).returned count, published.gave_up,
    fun stated active => ⟨published.asleep active stated, published.settles active stated⟩⟩

/-- The count shown goes up as long as the process lives. -/
theorem Move.shown (move : Move config tasks event next) (counting : tasks.Counting)
    (same : event.interrupts = false) : value tasks.executed ≤ value next.executed := by
  cases move with
  | panic => exact UInt64.le_of_eq (value_close _).symm
  | finish => exact UInt64.le_of_eq (value_close _).symm
  | sendExecuted =>
      rw [value_send]
      exact counting.shown
  | poll polled =>
      rcases pollWaiting_cases polled with ⟨_, _, _, _, -, once, rfl⟩ | ⟨_, _, _, -, -, rfl⟩
      · exact UInt64.le_of_eq (Waiter.poll_keeps once).1.symm
      · exact UInt64.le_refl _
  | restart => cases same
  | _ => exact UInt64.le_refl _

/-! ## Waits that return -/

/-- Whether what is shown answers the call. -/
def shows (tasks : Tasks) : Waiting → Bool
  | .idle => true
  | .transactions count _ => count ≤ value tasks.executed
  | .certified _ => (value tasks.certified).1 = some (value tasks.certified).2

omit [Hasher] [BuildProfile] in
theorem shows_resume (waiting : Waiting) (waiter : Waiter) :
    tasks.shows (waiting.resume waiter) = tasks.shows waiting := by
  cases waiting <;> rfl

theorem Move.waiting (move : Move config tasks event next) (quiet : event.polls = false)
    (same : event.interrupts = false) : next.waiting = tasks.waiting := by
  cases move with
  | waitForTransactions => cases same
  | waitForCertified => cases same
  | poll => cases quiet
  | restart => cases same
  | _ => rfl

omit [Hasher] [BuildProfile] in
/-- A poll brings an answered call closer to its return. -/
theorem Published.rank_poll (published : tasks.Published) {waiter : Waiter}
    (waits : tasks.waiting.waiter = some waiter) (shows : tasks.shows tasks.waiting = true)
    (polled : tasks.pollWaiting = some next) :
    ∃ waiter', next.waiting = tasks.waiting.resume waiter' ∧ waiter'.rank + 1 = waiter.rank ∧
      waiter' ≠ .stopped := by
  have attended := published.attended
  rw [Attended] at attended
  rcases pollWaiting_cases polled with
    ⟨count, _, waiter', _, calls, once, rfl⟩ | ⟨_, waiter', _, calls, once, rfl⟩
  · rw [calls] at attended waits shows
    cases waits
    exact ⟨waiter', congrArg (Waiting.resume waiter') calls.symm, attended.rank_poll shows once⟩
  · rw [calls] at attended waits shows
    cases waits
    exact ⟨waiter', congrArg (Waiting.resume waiter') calls.symm, attended.rank_poll shows once⟩

omit [Hasher] [BuildProfile] in
theorem Published.awake (published : tasks.Published) {waiter : Waiter}
    (waits : tasks.waiting.waiter = some waiter) (active : waiter.active = true)
    (shows : tasks.shows tasks.waiting = true) : tasks.pollWaiting ≠ none := by
  intro blocked
  have attended := published.attended
  rw [Attended] at attended
  rw [pollWaiting] at blocked
  cases calls : tasks.waiting with
  | idle =>
      rw [calls] at waits
      cases waits
  | transactions count waiter =>
      rw [calls] at attended waits shows blocked
      cases waits
      have unready := (attended.blocked active (Option.map_eq_none_iff.mp blocked)).1
      rw [show decide (count ≤ value tasks.executed) = true from shows] at unready
      cases unready
  | certified waiter =>
      rw [calls] at attended waits shows blocked
      cases waits
      have unready := (attended.blocked active (Option.map_eq_none_iff.mp blocked)).1
      rw [show decide ((value tasks.certified).1 = some (value tasks.certified).2) = true from shows]
        at unready
      cases unready

/-- A call whose answer stays shown returns after at most two polls, whatever
else happens, and is never put back to sleep. -/
theorem run_returns {waiter : Waiter} {more : List TaskEvent} {moreOutputs : List Unit}
    (front : run (step config) (fresh config) events = .ok (outputs, tasks))
    (back : run (step config) tasks more = .ok (moreOutputs, last))
    (waits : tasks.waiting.waiter = some waiter) (active : waiter.active = true)
    (undisturbed : ∀ event ∈ more, event.interrupts = false)
    (shows : ∀ early outputs middle, early <+: more →
      run (step config) tasks early = .ok (outputs, middle) → middle.shows tasks.waiting = true) :
    ∃ waiter', last.waiting = tasks.waiting.resume waiter' ∧
      (waiter' = .returned ∨
        waiter'.active = true ∧ last.pollWaiting ≠ none ∧ more.countP TaskEvent.polls < 2) := by
  have lasting : ∃ waiter', last.waiting = tasks.waiting.resume waiter' ∧ waiter' ≠ .stopped ∧
      waiter'.rank + more.countP TaskEvent.polls = waiter.rank := by
    refine run_history (fun early _ middle => early <+: more →
      ∃ waiter', middle.waiting = tasks.waiting.resume waiter' ∧ waiter' ≠ .stopped ∧
        waiter'.rank + early.countP TaskEvent.polls = waiter.rank) ?_ ?_ back List.prefix_rfl
    · intro early outputs' middle event _ next ran held stepped inside
      have move := step_move stepped
      have before : early <+: more := (List.prefix_append early [event]).trans inside
      obtain ⟨waiter', calls, going, rank⟩ := held before
      have same := undisturbed event (inside.subset (by simp))
      rw [List.countP_append, List.countP_singleton]
      cases polls : event.polls with
      | false =>
          refine ⟨waiter', (move.waiting polls same).trans calls, going, ?_⟩
          simpa using rank
      | true =>
          cases move with
          | poll polled =>
              have published := run_published (run_append_ok.mpr ⟨_, _, _, _, front, ran, rfl⟩)
              have answered : middle.shows middle.waiting = true := by
                rw [calls, shows_resume]
                exact shows early outputs' middle before ran
              obtain ⟨again, resumed, less, alive⟩ :=
                published.rank_poll (by rw [calls, Waiting.waiter_resume waits]) answered polled
              rw [calls, Waiting.resume_resume] at resumed
              refine ⟨again, resumed, alive, ?_⟩
              rw [if_pos rfl]
              omega
          | _ => cases polls
    · refine fun _ => ⟨waiter, (Waiting.resume_self waits).symm, ?_, rfl⟩
      rintro rfl
      cases active
  obtain ⟨waiter', calls, going, rank⟩ := lasting
  refine ⟨waiter', calls, ?_⟩
  have published := run_published (run_append_ok.mpr ⟨_, _, _, _, front, back, rfl⟩)
  have bound : waiter.rank ≤ 2 := by cases waiter <;> decide
  have awake (goes : waiter'.active = true) : last.pollWaiting ≠ none := by
    apply published.awake (by rw [calls, Waiting.waiter_resume waits]) goes
    rw [calls, shows_resume]
    exact shows more moreOutputs last List.prefix_rfl back
  cases waiter' with
  | returned => exact .inl rfl
  | stopped => exact absurd rfl going
  | reading =>
      refine .inr ⟨rfl, awake rfl, ?_⟩
      rw [Waiter.rank] at rank
      omega
  | sleeping =>
      refine .inr ⟨rfl, awake rfl, ?_⟩
      rw [Waiter.rank] at rank
      omega

/-- Once the count shown has reached it, a wait for transactions returns after
at most two polls, whatever else happens, and is never put back to sleep. -/
theorem transactions_return {count : UInt64} {waiter : Waiter} {more : List TaskEvent}
    {moreOutputs : List Unit}
    (front : run (step config) (fresh config) events = .ok (outputs, tasks))
    (back : run (step config) tasks more = .ok (moreOutputs, last))
    (few : last.recordedTransactions.length < 2 ^ 64)
    (waits : tasks.waiting = .transactions count waiter) (active : waiter.active = true)
    (shown : count ≤ value tasks.executed)
    (undisturbed : ∀ event ∈ more, event.interrupts = false) :
    ∃ waiter', last.waiting = .transactions count waiter' ∧
      (waiter' = .returned ∨
        waiter'.active = true ∧ last.pollWaiting ≠ none ∧ more.countP TaskEvent.polls < 2) := by
  have reached {early : List TaskEvent} {outputs' : List Unit} {middle : Tasks}
      (ran : run (step config) tasks early = .ok (outputs', middle)) (inside : early <+: more)
      (few : middle.recordedTransactions.length < 2 ^ 64) : count ≤ value middle.executed := by
    refine run_history (fun early _ middle => early <+: more →
      middle.recordedTransactions.length < 2 ^ 64 → count ≤ value middle.executed) ?_
      (fun _ _ => shown) ran inside few
    intro early _ middle event _ next ran held stepped inside few
    have move := step_move stepped
    have fewer := move.fewer few
    have counting := run_counting (run_append_ok.mpr ⟨_, _, _, _, front, ran, rfl⟩) fewer
    have before := held ((List.prefix_append early [event]).trans inside) fewer
    exact UInt64.le_trans before
      (move.shown counting (undisturbed event (inside.subset (by simp))))
  have answered (early : List TaskEvent) (outputs' : List Unit) (middle : Tasks)
      (inside : early <+: more) (ran : run (step config) tasks early = .ok (outputs', middle)) :
      middle.shows tasks.waiting = true := by
    rw [waits]
    apply decide_eq_true (reached ran inside _)
    obtain ⟨late, rfl⟩ := inside
    obtain ⟨_, middle', _, _, ran', rest, same⟩ := run_append_ok.mp back
    cases same
    rw [ran] at ran'
    cases ran'
    exact run_fewer rest few
  have returns := run_returns front back (by rw [waits]; rfl) active undisturbed answered
  rw [waits] at returns
  exact returns

end

end Tasks

end

section

attribute [local instance] plainDag checkedBuild blake2b plainWatch

private def served : CommittedSubDag :=
  ⟨plainReference 0 1, [((0 : UInt64), [Envelope.toBytes ⟨7, .execute
    ⟨FakeFunctionId.successId, .singleton (.new 1, .writeOnly), .nil⟩⟩])]⟩

/-- The caller falls asleep before the commit it waits for. -/
private def asking : List TaskEvent :=
  [.waitForTransactions 1, .poll, .record served, .send, .receive ⟨5⟩, .sendExecuted]

private def answering : List TaskEvent :=
  [.poll, .sendCertified, .submit true, .record ⟨plainReference 0 2, []⟩, .poll, .stop]

private theorem asked : ∃ outputs tasks,
    run (Tasks.step plainConfig) (.fresh plainConfig) asking = .ok (outputs, tasks) ∧
      tasks.waiting = .transactions 1 .sleeping ∧ value tasks.executed = 1 ∧
      ∃ outputs' last, run (Tasks.step plainConfig) tasks answering = .ok (outputs', last) ∧
        last.wal = [served, ⟨plainReference 0 2, []⟩] := by
  refine ⟨_, _, rfl, rfl, rfl, _, _, rfl, rfl⟩

/-- One wait returns, another one is settled where it sleeps, and a third one gives up. -/
theorem asking_exact :
    (∃ outputs tasks, run (Tasks.step plainConfig) (.fresh plainConfig) (asking ++ [.poll, .poll]) =
        .ok (outputs, tasks) ∧ tasks.waiting = .transactions 1 .returned ∧ 1 ≤ value tasks.executed) ∧
    (∃ outputs tasks, run (Tasks.step plainConfig) (.fresh plainConfig) (asking ++ [.sendCertified]) =
        .ok (outputs, tasks) ∧ tasks.waiting = .transactions 1 .sleeping ∧
      ∃ polls ≤ 3, ∃ last, run (Tasks.step plainConfig) tasks (List.replicate polls .poll) =
          .ok (List.replicate polls (), last) ∧
        last.driver = tasks.driver ∧ last.phase = tasks.phase ∧
        last.waiting.waiter = some .returned) ∧
    ∃ outputs tasks, run (Tasks.step plainConfig) (.fresh plainConfig)
        [.waitForTransactions 1, .poll, .stop, .finish, .poll] = .ok (outputs, tasks) ∧
      tasks.waiting = .transactions 1 .stopped ∧ tasks.phase.ended = true ∧
      tasks.waiting.met tasks.driver = false := by
  refine ⟨?_, ?_, ?_⟩
  · obtain ⟨outputs, tasks, ran, waits, wal⟩ : ∃ outputs tasks,
        run (Tasks.step plainConfig) (.fresh plainConfig) (asking ++ [.poll, .poll]) =
          .ok (outputs, tasks) ∧ tasks.waiting = .transactions 1 .returned ∧ tasks.wal = [served] :=
      ⟨_, _, rfl, rfl, rfl⟩
    have few : tasks.recordedTransactions.length < 2 ^ 64 := by
      rw [Tasks.recordedTransactions, wal]
      decide
    exact ⟨outputs, tasks, ran, waits, (Tasks.waits_exact ran).1 1 few waits⟩
  · obtain ⟨outputs, tasks, ran, waits, stated, place⟩ : ∃ outputs tasks,
        run (Tasks.step plainConfig) (.fresh plainConfig) (asking ++ [.sendCertified]) =
          .ok (outputs, tasks) ∧ tasks.waiting = .transactions 1 .sleeping ∧
        tasks.phase.stated = true ∧ tasks.waited = .returned := ⟨_, _, rfl, rfl, rfl, rfl⟩
    obtain ⟨-, settles⟩ := (Tasks.waits_exact ran).2.2 stated (by rw [waits]; rfl)
    rw [place] at settles
    exact ⟨outputs, tasks, ran, waits, settles⟩
  · obtain ⟨outputs, tasks, ran, waits⟩ : ∃ outputs tasks,
        run (Tasks.step plainConfig) (.fresh plainConfig)
          [.waitForTransactions 1, .poll, .stop, .finish, .poll] = .ok (outputs, tasks) ∧
        tasks.waiting = .transactions 1 .stopped := ⟨_, _, rfl, rfl⟩
    exact ⟨outputs, tasks, ran, waits, (Tasks.waits_exact ran).2.1 (by rw [waits]; rfl)⟩

theorem answering_returns : ∃ outputs tasks outputs' last,
    run (Tasks.step plainConfig) (.fresh plainConfig) asking = .ok (outputs, tasks) ∧
    run (Tasks.step plainConfig) tasks answering = .ok (outputs', last) ∧
    ∃ waiter, last.waiting = .transactions 1 waiter ∧ (waiter = .returned ∨ waiter.active = true ∧
      last.pollWaiting ≠ none ∧ answering.countP TaskEvent.polls < 2) := by
  obtain ⟨outputs, tasks, front, waits, shown, outputs', last, back, wal⟩ := asked
  have few : last.recordedTransactions.length < 2 ^ 64 := by
    rw [Tasks.recordedTransactions, wal]
    decide
  refine ⟨outputs, tasks, outputs', last, front, back, ?_⟩
  exact Tasks.transactions_return front back few waits rfl (UInt64.le_of_eq shown.symm) (by
    intro event listed
    simp only [answering, List.mem_cons, List.not_mem_nil, or_false] at listed
    rcases listed with rfl | rfl | rfl | rfl | rfl | rfl <;> rfl)

end

end BlockchainValidator
