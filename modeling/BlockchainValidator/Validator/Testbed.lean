import BlockchainValidator.Validator.Draining
import BlockchainValidator.Validator.Durability
import BlockchainValidator.Validator.Quiescence

/-! # A testbed of running validators

The tasks of all the honest validators interleave, whatever the others put into
the stream.  Whoever waits for a certificate sees a state of the stream, and in
a quiet testbed every wait returns.
-/

namespace BlockchainValidator

open Execution Run WatchChannel

section

variable [Dag] [WatchChannel]

namespace Tasks

section

variable [Hasher] [BuildProfile] {config : ValidatorConfig} {tasks next last : Tasks}
  {event : TaskEvent} {events : List TaskEvent} {outputs : List Unit}

/-! ## What the running process has attested to -/

/-- Every checkpoint that is pending has its vote among those that this process
submitted or has in hand. -/
def Attested (earlier : List Checkpoint) (tasks : Tasks) : Prop :=
  ∃ accepted, tasks.submitted = earlier ++ accepted ∧
    ∀ checkpoint ∈ tasks.driver.state.certifier.pending,
      checkpoint ∈ accepted ++ tasks.phase.inHand

theorem start_attested {wal : List CommittedSubDag} {submitted : List Checkpoint}
    (started : start config wal submitted = .ok next) : next.Attested submitted := by
  obtain ⟨driver, -, rfl⟩ := start_ok.mp started
  refine ⟨[], (List.append_nil _).symm, fun checkpoint waiting => ?_⟩
  rw [Phase.afterStart_inHand]
  exact waiting

theorem Attested.move {earlier : List Checkpoint} (attested : tasks.Attested earlier)
    (accepts : event ≠ .submit false) (lives : event ≠ .restart)
    (move : Move config tasks event next) : next.Attested earlier := by
  obtain ⟨accepted, submitted, voted⟩ := attested
  cases move with
  | @receive now subdag channel minted driver idle sent delivered =>
      refine ⟨accepted, submitted, fun checkpoint waiting => ?_⟩
      obtain ⟨outcome, executed, -, rfl⟩ := Driver.deliver_ok.mp delivered
      have single : run ExecutionState.deliver tasks.driver.state [⟨now, subdag⟩] =
          .ok ([outcome], driver.state) := run_cons_ok.mpr ⟨_, _, [], _, executed, rfl, rfl⟩
      have inside := (ExecutionState.run_pending single).subset waiting
      rw [idle] at voted
      rcases List.mem_append.mp inside with before | now
      · have already := voted checkpoint before
        rw [Phase.inHand, List.append_nil] at already
        exact List.mem_append_left _ already
      · apply List.mem_append_right
        rw [mintedBy, List.mem_filterMap] at now
        obtain ⟨_, listed, minted⟩ := now
        rw [List.mem_singleton.mp listed] at minted
        exact Option.mem_toList.mpr minted
  | panic idle =>
      rw [idle] at voted
      exact ⟨accepted, submitted, voted⟩
  | sendExecuted executed =>
      rw [executed] at voted
      exact ⟨accepted, submitted, voted⟩
  | sendCertified counted =>
      rw [counted] at voted
      refine ⟨accepted, submitted, ?_⟩
      rw [Phase.afterStatus_inHand]
      exact voted
  | @submit accepting voting =>
      cases accepting with
      | false => exact absurd rfl accepts
      | true =>
          refine ⟨accepted ++ tasks.phase.inHand, ?_, ?_⟩
          · rw [if_pos rfl, submitted, List.append_assoc]
          · intro checkpoint waiting
            rw [Phase.inHand, List.append_nil]
            exact voted checkpoint waiting
  | finish idle =>
      rw [idle] at voted
      exact ⟨accepted, submitted, voted⟩
  | poll polled =>
      rcases pollWaiting_cases polled with ⟨_, _, _, _, -, -, rfl⟩ | ⟨_, _, _, -, -, rfl⟩
      · exact ⟨accepted, submitted, voted⟩
      · exact ⟨accepted, submitted, voted⟩
  | restart => exact absurd rfl lives
  | _ => exact ⟨accepted, submitted, voted⟩

theorem run_attested {wal : List CommittedSubDag} {submitted : List Checkpoint} {started : Tasks}
    (starts : start config wal submitted = .ok started)
    (ran : run (step config) started events = .ok (outputs, tasks))
    (accepts : .submit false ∉ events) (lives : .restart ∉ events) : tasks.Attested submitted := by
  refine run_history (fun events _ tasks => .submit false ∉ events → .restart ∉ events →
    tasks.Attested submitted) ?_ (fun _ _ => start_attested starts) ran accepts lives
  intro events _ middle event _ next _ held stepped accepts lives
  have attested := held (fun listed => accepts (List.mem_append_left _ listed))
    fun listed => lives (List.mem_append_left _ listed)
  apply attested.move ?_ ?_ (step_move stepped)
  · rintro rfl
    exact accepts (by simp)
  · rintro rfl
    exact lives (by simp)

/-! ## A validator with nothing to receive -/

theorem Idle.move (idle : tasks.Idle) (quiet : event.recorded = none) (lives : event ≠ .restart)
    (move : Move config tasks event next) :
    next.Idle ∧ next.driver = tasks.driver ∧ value next.certified = value tasks.certified := by
  obtain ⟨unsent, channel, phase⟩ := idle
  have resting (minted : Option Checkpoint) :
      tasks.phase ≠ .counting minted ∧ tasks.phase ≠ .certifying minted := by
    rcases phase with phase | phase <;> rw [phase] <;> exact ⟨nofun, nofun⟩
  cases move with
  | record => cases quiet
  | send recorded =>
      rw [unsent] at recorded
      cases recorded
  | receive _ sent =>
      rw [channel] at sent
      cases sent
  | panic _ sent =>
      rw [channel] at sent
      cases sent
  | sendExecuted executed => exact absurd executed (resting _).1
  | sendCertified counted => exact absurd counted (resting _).2
  | submit voting =>
      rcases voting with ⟨_, attests⟩ | ⟨_, votes⟩
      · rcases phase with phase | phase
        · rw [phase] at attests
          cases attests
        · rw [phase] at attests
          cases attests
      · rcases phase with phase | phase
        · rw [phase] at votes
          cases votes
        · rw [phase] at votes
          cases votes
  | finish => exact ⟨⟨unsent, channel, .inr rfl⟩, rfl, value_close _⟩
  | poll polled =>
      rcases pollWaiting_cases polled with ⟨_, _, _, _, -, -, rfl⟩ | ⟨_, _, _, -, once, rfl⟩
      · exact ⟨⟨unsent, channel, phase⟩, rfl, rfl⟩
      · exact ⟨⟨unsent, channel, phase⟩, rfl, (Waiter.poll_keeps once).1⟩
  | restart => exact absurd rfl lives
  | _ => exact ⟨⟨unsent, channel, phase⟩, rfl, rfl⟩

theorem Idle.run (idle : tasks.Idle) (quiet : ∀ event ∈ events, event.recorded = none)
    (lives : .restart ∉ events) (ran : Run.run (step config) tasks events = .ok (outputs, last)) :
    last.Idle ∧ last.driver = tasks.driver ∧ value last.certified = value tasks.certified := by
  refine run_history (fun events _ last => (∀ event ∈ events, event.recorded = none) →
    .restart ∉ events → last.Idle ∧ last.driver = tasks.driver ∧
      value last.certified = value tasks.certified) ?_ (fun _ _ => ⟨idle, rfl, rfl⟩) ran quiet lives
  intro events _ middle event _ next _ held stepped quiet lives
  obtain ⟨idle, driver, shown⟩ := held (fun event listed => quiet event (by simp [listed]))
    fun listed => lives (List.mem_append_left _ listed)
  obtain ⟨idle', driver', shown'⟩ := idle.move (quiet event (by simp)) (by
    rintro rfl
    exact lives (by simp)) (step_move stepped)
  exact ⟨idle', driver'.trans driver, shown'.trans shown⟩

/-- Nothing sent on an idle validator keeps a certified wait from returning. -/
theorem Idle.certified_return {waiter : Waiter} {more : List TaskEvent} {moreOutputs : List Unit}
    (front : Run.run (step config) (fresh config) events = .ok (outputs, tasks)) (idle : tasks.Idle)
    (back : Run.run (step config) tasks more = .ok (moreOutputs, last))
    (waits : tasks.waiting = .certified waiter) (active : waiter.active = true)
    (met : (value tasks.certified).1 = some (value tasks.certified).2)
    (undisturbed : ∀ event ∈ more, event.interrupts = false)
    (quiet : ∀ event ∈ more, event.recorded = none) :
    ∃ waiter', last.waiting = .certified waiter' ∧
      (waiter' = .returned ∨
        waiter'.active = true ∧ last.pollWaiting ≠ none ∧ more.countP TaskEvent.polls < 2) := by
  have answered (early : List TaskEvent) (outputs' : List Unit) (middle : Tasks)
      (inside : early <+: more) (ran : Run.run (step config) tasks early = .ok (outputs', middle)) :
      middle.shows tasks.waiting = true := by
    have lives : .restart ∉ early := fun listed => by
      have interrupts := undisturbed _ (inside.subset listed)
      cases interrupts
    obtain ⟨-, -, shown⟩ :=
      idle.run (fun event listed => quiet event (inside.subset listed)) lives ran
    rw [waits]
    apply decide_eq_true
    rw [shown]
    exact met
  have returns := run_returns front back (by rw [waits]; rfl) active undisturbed answered
  rw [waits] at returns
  exact returns

end

end Tasks

/-! ## The testbed -/

/-- The stream and the tasks of every validator.  Only honest ones take steps. -/
structure Testbed where
  stream : List CommittedSubDag
  validators : Authority → Tasks

namespace Testbed

def initial (config : ValidatorConfig) : Testbed := ⟨[], fun _ => .fresh config⟩

def grow (testbed : Testbed) (subdag : CommittedSubDag) : Testbed :=
  { testbed with stream := testbed.stream ++ [subdag] }

def update (testbed : Testbed) (validator : Authority) (tasks : Tasks) : Testbed :=
  { testbed with validators := Function.update testbed.validators validator tasks }

section

variable (testbed : Testbed) (validator : Authority) (tasks next : Tasks)

theorem update_self : (testbed.update validator tasks).validators validator = tasks :=
  Function.update_self ..

theorem update_other {other : Authority} (apart : other ≠ validator) :
    (testbed.update validator tasks).validators other = testbed.validators other :=
  Function.update_of_ne apart ..

theorem update_update :
    (testbed.update validator tasks).update validator next = testbed.update validator next := by
  simp only [update, Function.update_idem]

theorem update_present : testbed.update validator (testbed.validators validator) = testbed := by
  rw [update, Function.update_eq_self]

end

variable [Hasher] [BuildProfile]

inductive Step (config : ValidatorConfig) (honest : Finset Authority) (testbed : Testbed) :
    Testbed → Prop where
  /-- Honest authors put in only votes that their own driver submitted. -/
  | grow {subdag : CommittedSubDag}
      (anchors : Admissible ((testbed.grow subdag).stream.map CommittedSubDag.anchor))
      (signed : subdag.SignedBy config.committee)
      (authentic : ∀ vote ∈ subdag.votes, vote.1 ∈ honest →
        vote.2 ∈ (testbed.validators vote.1).submitted) :
      Step config honest testbed (testbed.grow subdag)
  | run {validator : Authority} {event : TaskEvent} {next : Tasks} (member : validator ∈ honest)
      (recorded : (testbed.validators validator).wal ++ event.recorded.toList <+: testbed.stream)
      (stepped : (testbed.validators validator).step config event = .ok ((), next)) :
      Step config honest testbed (testbed.update validator next)

def Reachable (config : ValidatorConfig) (honest : Finset Authority) (testbed : Testbed) : Prop :=
  Relation.ReflTransGen (Step config honest) (initial config) testbed

variable {config : ValidatorConfig} {honest : Finset Authority} {testbed : Testbed}
  {validator : Authority}

/-- Each validator is at the end of a run of its own. -/
theorem Reachable.ran (reachable : Reachable config honest testbed) (validator : Authority) :
    ∃ events outputs, run (Tasks.step config) (.fresh config) events =
      .ok (outputs, testbed.validators validator) := by
  induction reachable with
  | refl => exact ⟨[], [], rfl⟩
  | tail _ stepped ih =>
      cases stepped with
      | grow => exact ih
      | @run other event next member recorded stepped =>
          by_cases same : validator = other
          · subst same
            obtain ⟨events, outputs, ran⟩ := ih
            refine ⟨events ++ [event], outputs ++ [()], ?_⟩
            rw [update_self]
            exact run_concat_ok.mpr ⟨_, _, _, _, ran, stepped, rfl⟩
          · rw [update_other _ _ _ same]
            exact ih

/-- The network that a testbed implements. -/
structure Refines (testbed : Testbed) (network : Network) : Prop where
  stream : network.stream = testbed.stream
  validators : ∀ validator, (testbed.validators validator).Refines (network.nodes validator)

/-- Every interleaving of the tasks is one of the coarse network. -/
theorem Reachable.refines (reachable : Reachable config honest testbed) :
    ∃ network, Network.Reachable config honest network ∧ testbed.Refines network := by
  induction reachable with
  | refl => exact ⟨.initial config, .refl, rfl, fun _ => Tasks.fresh_refines config⟩
  | @tail testbed _ _ stepped ih =>
      obtain ⟨network, reached, stream, validators⟩ := ih
      cases stepped with
      | @grow subdag anchors signed authentic =>
          refine ⟨network.grow subdag, reached.tail (.grow ?_ signed ?_), ?_, validators⟩
          · rw [Network.grow, stream]
            exact anchors
          · intro vote carried honestly
            have listed := authentic vote carried honestly
            exact (validators vote.1).submitted.subset (List.mem_append_left _ listed)
          · exact congrArg (· ++ [subdag]) stream
      | @run validator event next member recorded stepped =>
          obtain ⟨events, outputs, node, committed, ran, refines⟩ :=
            (validators validator).move (Tasks.step_move stepped)
          refine ⟨network.update validator node, reached.runs member ?_ ran, stream, ?_⟩
          · rw [committed, (validators validator).wal, stream]
            exact recorded
          · intro other
            by_cases same : other = validator
            · subst same
              rw [update_self, Network.update_nodes_self]
              exact refines
            · rw [update_other _ _ _ same, Network.update_nodes_other same]
              exact validators other

theorem Reachable.runs (reachable : Reachable config honest testbed) (member : validator ∈ honest)
    {events : List TaskEvent} {outputs : List Unit} {tasks : Tasks}
    (recorded : (testbed.validators validator).wal ++ events.filterMap TaskEvent.recorded <+:
      testbed.stream)
    (ran : run (Tasks.step config) (testbed.validators validator) events = .ok (outputs, tasks)) :
    Reachable config honest (testbed.update validator tasks) := by
  induction events generalizing testbed outputs with
  | nil =>
      cases ran
      rw [update_present]
      exact reachable
  | cons event events ih =>
      obtain ⟨_, middle, rest, _, stepped, tail, same⟩ := run_cons_ok.mp ran
      cases same
      have whole : event.recorded.toList ++ events.filterMap TaskEvent.recorded =
          (event :: events).filterMap TaskEvent.recorded := by
        cases recorded : event.recorded <;> simp [recorded]
      rw [← whole, ← List.append_assoc] at recorded
      have moved : Reachable config honest (testbed.update validator middle) :=
        reachable.tail (.run member ((List.prefix_append _ _).trans recorded) stepped)
      rw [← update_update testbed validator middle tasks]
      apply ih moved
      · rw [update_self, (Tasks.step_move stepped).wal]
        exact recorded
      · rw [update_self]
        exact tail

theorem Reachable.behind (reachable : Reachable config honest testbed) (validator : Authority) :
    (testbed.validators validator).wal <+: testbed.stream := by
  obtain ⟨network, reached, refines⟩ := reachable.refines
  rw [← (refines.validators validator).wal, ← refines.stream]
  exact reached.sound.behind validator

end Testbed

/-! ## What a returning wait has seen -/

section

variable [Hasher] [BuildProfile] {config : ValidatorConfig} {honest : Finset Authority}

omit [WatchChannel] in
/-- Whatever is certified after some part of the stream is the stream's own. -/
theorem Network.Sound.certified {network : Network} (sound : network.Sound config honest)
    (faulty : ∑ member ∈ config.committee.members \ honest, (config.committee.stake member).toNat <
      config.quorum.toNat)
    {deliveries : List Delivery} {minted : List (Option Checkpoint)} {driver : Driver}
    (front : deliveries.map Delivery.subdag <+: network.stream)
    (ran : Run.run Driver.deliver (.new config) deliveries = .ok (minted, driver))
    {certificate : CertifiedCheckpoint} (held : certificate ∈ driver.state.certifier.held) :
    Canonical config.engine network.stream certificate.checkpoint := by
  let node : Node := ⟨deliveries.map Delivery.subdag, [], driver, []⟩
  have consistent : node.Consistent config :=
    ⟨⟨deliveries, minted, List.append_nil _, ran⟩, fun _ listed => nomatch listed⟩
  obtain ⟨subdag, listed, vote, carried, honestly, same⟩ :=
    consistent.held_honest (sound.admissible.front front) faulty held
  rw [← same]
  exact sound.canonical subdag (front.subset listed) vote carried honestly

theorem Testbed.Reachable.shown {testbed : Testbed}
    (faulty : ∑ member ∈ config.committee.members \ honest, (config.committee.stake member).toNat <
      config.quorum.toNat)
    (reachable : Reachable config honest testbed) {validator : Authority} {commitment : Digest}
    (certified : (value (testbed.validators validator).certified).1 = some commitment) :
    ∃ checkpoint, Canonical config.engine testbed.stream checkpoint ∧
      checkpoint.commitment = commitment := by
  obtain ⟨events, outputs, ran⟩ := reachable.ran validator
  obtain ⟨network, reached, refines⟩ := reachable.refines
  obtain ⟨cuts, shown, -⟩ := Tasks.run_shownAt (Tasks.fresh_shownAt config) ran
  obtain ⟨driver, ⟨deliveries, minted, front, received⟩, status⟩ := shown.certified
  have inside := (List.take_prefix cuts.stated _).trans (reachable.behind validator)
  rw [← front] at inside
  rw [status, ExecutionState.certificationStatus] at certified
  obtain ⟨certificate, highest, same⟩ := Option.map_eq_some_iff.mp certified
  have held : certificate ∈ driver.state.certifier.held :=
    List.mem_append_left _ (Option.mem_toList.mpr highest)
  rw [← refines.stream] at inside ⊢
  exact ⟨_, reached.sound.certified faulty inside received held, same⟩

/-- A wait for a certificate returns on a state of the stream, the same one that
the validators certified. -/
theorem Testbed.certified_wait_canonical {testbed : Testbed}
    (faulty : ∑ member ∈ config.committee.members \ honest, (config.committee.stake member).toNat <
      config.quorum.toNat)
    (reachable : Reachable config honest testbed) {validator : Authority} {next : Tasks}
    (polled : (testbed.validators validator).step config .poll = .ok ((), next))
    (returned : next.waiting = .certified .returned) :
    ∃ checkpoint, Canonical config.engine testbed.stream checkpoint ∧
      value (testbed.validators validator).certified =
        (some checkpoint.commitment, checkpoint.commitment) := by
  have met : (value (testbed.validators validator).certified).1 =
      some (value (testbed.validators validator).certified).2 := by
    cases Tasks.step_move polled with
    | poll polled => exact Tasks.pollWaiting_certified polled returned
  obtain ⟨checkpoint, canonical, same⟩ := reachable.shown faulty met
  refine ⟨checkpoint, canonical, ?_⟩
  rw [same]
  exact Prod.ext met rfl

end

/-! ## A quiet testbed -/

section

variable [Hasher] [BuildProfile] {config : ValidatorConfig} {honest : Finset Authority}
  {testbed : Testbed} {validator : Authority}

/-- A wait for a certificate returns after at most two polls, whatever the tasks
do meanwhile without a new commit. -/
def Tasks.Answers (config : ValidatorConfig) (tasks : Tasks) : Prop :=
  ∀ waiter more outputs last, tasks.waiting = .certified waiter → waiter.active = true →
    run (Tasks.step config) tasks more = .ok (outputs, last) →
    (∀ event ∈ more, event.interrupts = false ∧ event.recorded = none) →
    ∃ waiter', last.waiting = .certified waiter' ∧
      (waiter' = .returned ∨
        waiter'.active = true ∧ last.pollWaiting ≠ none ∧ more.countP TaskEvent.polls < 2)

namespace Testbed

/-- Since its start the process at `validator` had all its votes accepted, and
all of them are committed. -/
def Committed (config : ValidatorConfig) (testbed : Testbed) (validator : Authority) : Prop :=
  ∃ wal earlier started events outputs, Tasks.start config wal earlier = .ok started ∧
    run (Tasks.step config) started events = .ok (outputs, testbed.validators validator) ∧
    TaskEvent.submit false ∉ events ∧ TaskEvent.restart ∉ events ∧
    ∀ checkpoint ∈ (testbed.validators validator).submitted.drop earlier.length,
      ∃ subdag ∈ testbed.stream, (validator, checkpoint) ∈ subdag.votes

/-- The drivers of the honest have taken the whole stream and their votes. -/
structure Quiescent (config : ValidatorConfig) (honest : Finset Authority) (testbed : Testbed) :
    Prop where
  received : ∀ validator ∈ honest, (testbed.validators validator).wal = testbed.stream ∧
    (testbed.validators validator).Idle
  committed : ∀ validator ∈ honest, testbed.Committed config validator

theorem Committed.voted (committed : testbed.Committed config validator)
    (idle : (testbed.validators validator).Idle) {checkpoint : Checkpoint}
    (waiting : checkpoint ∈ (testbed.validators validator).driver.state.certifier.pending) :
    ∃ subdag ∈ testbed.stream, (validator, checkpoint) ∈ subdag.votes := by
  obtain ⟨wal, earlier, started, events, outputs, starts, ran, accepts, lives, carried⟩ := committed
  obtain ⟨accepted, submitted, voted⟩ := Tasks.run_attested starts ran accepts lives
  have nothing : (testbed.validators validator).phase.inHand = [] := by
    rcases idle.phase with phase | phase <;> rw [phase] <;> rfl
  have listed := voted checkpoint waiting
  rw [nothing, List.append_nil] at listed
  apply carried
  rw [submitted, List.drop_left]
  exact listed

theorem Quiescent.heard (quiescent : testbed.Quiescent config honest) {network : Network}
    (refines : testbed.Refines network) : network.Heard honest where
  received validator member := by
    obtain ⟨recorded, idle⟩ := quiescent.received validator member
    have nothing : (testbed.validators validator).phase.taken = [] := by
      rcases idle.phase with phase | phase <;> rw [phase] <;> rfl
    refine ⟨?_, ?_⟩
    · rw [(refines.validators validator).wal, recorded, refines.stream]
    · rw [(refines.validators validator).queue, nothing, idle.channel, idle.unsent]
      rfl
  voted validator member checkpoint waiting := by
    rw [(refines.validators validator).driver] at waiting
    rw [refines.stream]
    exact (quiescent.committed validator member).voted (quiescent.received validator member).2 waiting

/-- The honest end up in one state with nothing left to certify, and answer
every wait for a certificate. -/
theorem quiescent_converges
    (faulty : ∑ member ∈ config.committee.members \ honest, (config.committee.stake member).toNat <
      config.quorum.toNat)
    (correct : config.quorum.toNat ≤ ∑ member ∈ honest, (config.committee.stake member).toNat)
    (reachable : Reachable config honest testbed) (quiescent : testbed.Quiescent config honest)
    (member : validator ∈ honest) :
    (∀ other ∈ honest,
      (testbed.validators other).driver.untimed = (testbed.validators validator).driver.untimed) ∧
    (testbed.validators validator).driver.state.certifier.pending = [] ∧
    ((∃ subdag ∈ testbed.stream, subdag.transactions ≠ []) →
      (testbed.validators validator).driver.state.certificationStatus.1 =
        some (testbed.validators validator).driver.state.certificationStatus.2 ∧
      (testbed.validators validator).Answers config) := by
  obtain ⟨network, reached, refines⟩ := reachable.refines
  have heard := quiescent.heard refines
  obtain ⟨nothing, certified⟩ := heard.certified faulty correct reached member
  obtain ⟨deliveries, minted, same, ran⟩ := heard.ran reached member
  rw [(refines.validators validator).driver] at nothing certified ran
  refine ⟨fun other member' => ?_, nothing, fun executes => ?_⟩
  · obtain ⟨deliveries', minted', same', ran'⟩ := heard.ran reached member'
    rw [(refines.validators other).driver] at ran'
    obtain ⟨driver, retimed, alike⟩ := Driver.run_retimed rfl (same.trans same'.symm) ran
    rw [ran'] at retimed
    cases retimed
    exact alike
  · rw [← refines.stream] at executes
    have met := certified executes
    refine ⟨met, fun waiter more outputs last waits active back undisturbed => ?_⟩
    obtain ⟨events, outputs', front⟩ := reachable.ran validator
    have idle := (quiescent.received validator member).2
    have stated : (testbed.validators validator).phase.stated = true := by
      rcases idle.phase with phase | phase <;> rw [phase] <;> rfl
    have status := (Tasks.run_published front).certified stated
    exact idle.certified_return front back waits active (by rw [status]; exact met)
      (fun event listed => (undisturbed event listed).1)
      fun event listed => (undisturbed event listed).2

end Testbed

end

end

section

attribute [local instance] plainDag checkedBuild blake2b plainWatch

private def mintingTasks : List TaskEvent :=
  [.record trioExecuting, .send, .receive ⟨5⟩, .sendExecuted, .sendCertified, .submit true]

/-- The caller falls asleep before the votes arrive and is woken by the status. -/
private def countingTasks : List TaskEvent :=
  [.waitForCertified, .poll, .record trioVoting, .send, .receive ⟨5⟩, .sendExecuted,
    .sendCertified, .poll]

/-- Two honest validators mint, vote and hear each other's votes. -/
private theorem trio_tested : ∃ testbed, Testbed.Reachable trioConfig honestTwo testbed ∧
    testbed.Quiescent trioConfig honestTwo ∧ testbed.stream = [trioExecuting, trioVoting] ∧
    ∃ next, (testbed.validators (1 : UInt64)).step trioConfig .poll = .ok ((), next) ∧
      next.waiting = .certified .returned := by
  obtain ⟨⟨_, last⟩, ran⟩ : ∃ result, run (Tasks.step trioConfig) (.fresh trioConfig)
      (mintingTasks ++ countingTasks) = .ok result := ⟨_, rfl⟩
  obtain ⟨_, tasks, _, _, ranFirst, ranSecond, same⟩ := run_append_ok.mp ran
  cases same
  have first : (fun result : List Unit × Tasks => (result.2.wal, result.2.submitted)) <$>
      run (Tasks.step trioConfig) (.fresh trioConfig) mintingTasks =
        .ok ([trioExecuting], [⟨plainReference 0 1, .default⟩]) := rfl
  rw [ranFirst] at first
  obtain ⟨recorded, submitted⟩ := Prod.mk.inj (Except.ok.inj first)
  have second : (fun result : List Unit × Tasks =>
        (result.2.wal, result.2.submitted, result.2.unsent, result.2.channel, result.2.phase)) <$>
      run (Tasks.step trioConfig) (.fresh trioConfig) (mintingTasks ++ countingTasks) =
        .ok ([trioExecuting, trioVoting], [⟨plainReference 0 1, .default⟩], [], [], .receiving) := rfl
  rw [ran] at second
  simp only [map_ok, Except.ok.injEq, Prod.mk.injEq] at second
  obtain ⟨whole, cast, unsent, channel, phase⟩ := second
  have polls : (fun result : List Unit × Tasks => result.2.waiting) <$>
      run (Tasks.step trioConfig) (.fresh trioConfig) (mintingTasks ++ countingTasks ++ [.poll]) =
        .ok (.certified .returned) := rfl
  obtain ⟨⟨_, next⟩, returning, waits⟩ := map_eq_ok.mp polls
  obtain ⟨_, middle, _, _, ran', polled, same⟩ := run_concat_ok.mp returning
  cases same
  rw [ran] at ran'
  cases ran'
  have one : (1 : UInt64) ∈ honestTwo := by decide
  have two : (2 : UInt64) ∈ honestTwo := by decide
  have apart : (2 : UInt64) ≠ 1 := by decide
  let start : Testbed := (Testbed.initial trioConfig).grow trioExecuting
  have reached : Testbed.Reachable trioConfig honestTwo start := by
    apply Relation.ReflTransGen.single
    exact .grow ⟨by decide, by decide⟩ (trio_signed _ (by simp)) fun vote carried => nomatch carried
  let partly := start.update (1 : UInt64) tasks
  have partlyTwo : partly.validators (2 : UInt64) = .fresh trioConfig := start.update_other _ _ apart
  have mintsOne : Testbed.Reachable trioConfig honestTwo partly :=
    reached.runs one List.prefix_rfl ranFirst
  have mintsTwo : Testbed.Reachable trioConfig honestTwo (partly.update (2 : UInt64) tasks) := by
    rw [← partlyTwo] at ranFirst
    refine mintsOne.runs two ?_ ranFirst
    rw [partlyTwo]
    exact List.prefix_rfl
  let voted := (partly.update (2 : UInt64) tasks).grow trioVoting
  have votedOne : voted.validators (1 : UInt64) = tasks := by
    have first : partly.validators (1 : UInt64) = tasks := start.update_self ..
    change (partly.update (2 : UInt64) tasks).validators (1 : UInt64) = tasks
    rw [Testbed.update_other _ _ _ apart.symm, first]
  have votedTwo : voted.validators (2 : UInt64) = tasks := by
    change (partly.update (2 : UInt64) tasks).validators (2 : UInt64) = tasks
    rw [Testbed.update_self]
  have counting : Testbed.Reachable trioConfig honestTwo voted := by
    apply mintsTwo.tail
    apply Testbed.Step.grow
    · change Admissible [plainReference 0 1, plainReference 0 2]
      exact ⟨by decide, by decide⟩
    · exact trio_signed _ (by simp)
    · intro vote carried honestly
      rw [trioVoting_votes] at carried
      simp only [List.mem_cons, List.not_mem_nil, or_false] at carried
      rcases carried with rfl | rfl | rfl
      · exact absurd honestly (by decide)
      · change _ ∈ (voted.validators (1 : UInt64)).submitted
        rw [votedOne, submitted]
        exact List.mem_singleton_self _
      · change _ ∈ (voted.validators (2 : UInt64)).submitted
        rw [votedTwo, submitted]
        exact List.mem_singleton_self _
  let heard := voted.update (1 : UInt64) last
  have hearsOne : Testbed.Reachable trioConfig honestTwo heard := by
    rw [← votedOne] at ranSecond
    refine counting.runs one ?_ ranSecond
    rw [votedOne, recorded]
    exact List.prefix_rfl
  have heardTwo : heard.validators (2 : UInt64) = tasks :=
    (voted.update_other _ _ apart).trans votedTwo
  let final := heard.update (2 : UInt64) last
  have hearsTwo : Testbed.Reachable trioConfig honestTwo final := by
    rw [← heardTwo] at ranSecond
    refine hearsOne.runs two ?_ ranSecond
    rw [heardTwo, recorded]
    exact List.prefix_rfl
  have finished (validator : UInt64) (member : validator ∈ honestTwo) :
      final.validators validator = last := by
    rcases Finset.mem_insert.mp member with rfl | single
    · rw [Testbed.update_other _ _ _ apart.symm]
      exact voted.update_self ..
    · rw [Finset.mem_singleton.mp single]
      exact heard.update_self ..
  refine ⟨final, hearsTwo, ⟨fun validator member => ?_, fun validator member => ?_⟩, rfl, next, ?_,
    waits⟩
  · rw [finished validator member]
    exact ⟨whole, unsent, channel, .inl phase⟩
  · rw [Testbed.Committed, finished validator member]
    refine ⟨[], [], _, _, _, Tasks.start_fresh trioConfig, ran, ?_, ?_, fun checkpoint listed => ?_⟩
    · simp [mintingTasks, countingTasks]
    · simp [mintingTasks, countingTasks]
    · have carried : trioVoting ∈ final.stream :=
        List.mem_append_right _ (List.mem_singleton_self trioVoting)
      rw [List.length_nil, List.drop_zero, cast, List.mem_singleton] at listed
      refine ⟨trioVoting, carried, ?_⟩
      rw [listed, trioVoting_votes]
      rcases Finset.mem_insert.mp member with rfl | single
      · simp
      · rw [Finset.mem_singleton.mp single]
        simp
  · rw [finished (1 : UInt64) one]
    exact polled

theorem trio_wait_canonical : ∃ testbed, Testbed.Reachable trioConfig honestTwo testbed ∧
    ∃ next, (testbed.validators (1 : UInt64)).step trioConfig .poll = .ok ((), next) ∧
      next.waiting = .certified .returned ∧
      ∃ checkpoint, Canonical trioConfig.engine testbed.stream checkpoint ∧
        value (testbed.validators (1 : UInt64)).certified =
          (some checkpoint.commitment, checkpoint.commitment) := by
  obtain ⟨testbed, reachable, -, -, next, polled, returned⟩ := trio_tested
  exact ⟨testbed, reachable, next, polled, returned,
    Testbed.certified_wait_canonical (by decide) reachable polled returned⟩

theorem trio_converges : ∃ testbed, Testbed.Reachable trioConfig honestTwo testbed ∧
    testbed.Quiescent trioConfig honestTwo ∧ testbed.stream = [trioExecuting, trioVoting] ∧
    ∀ validator ∈ honestTwo,
      (∀ other ∈ honestTwo,
        (testbed.validators other).driver.untimed =
          (testbed.validators validator).driver.untimed) ∧
      (testbed.validators validator).driver.state.certifier.pending = [] ∧
      ((∃ subdag ∈ testbed.stream, subdag.transactions ≠ []) →
        (testbed.validators validator).driver.state.certificationStatus.1 =
          some (testbed.validators validator).driver.state.certificationStatus.2 ∧
        (testbed.validators validator).Answers trioConfig) := by
  obtain ⟨testbed, reachable, quiescent, stream, -⟩ := trio_tested
  refine ⟨testbed, reachable, quiescent, stream, fun validator member => ?_⟩
  exact Testbed.quiescent_converges (by decide) (by decide) reachable quiescent member

end

end BlockchainValidator
