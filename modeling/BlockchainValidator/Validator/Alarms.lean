import BlockchainValidator.Checkpoint.Alarms
import BlockchainValidator.Validator.Ledger

/-! # What a validator's log says about the others

A validator logs the votes that do not fit what it has executed.  In a network
whose honest members execute one stream, no warning is about an honest author,
and the error about a diverged checkpoint tells a validator that its own
execution is not that of the others.
-/

namespace BlockchainValidator

open Execution Run

section

variable [Dag]

namespace ExecutionState

/-- `recordVotes` with what each vote logs. -/
def recordVotesLogged [BuildProfile] (certifier : CheckpointCertifier) (anchor : BlockReference)
    (votes : List (Authority × Checkpoint)) :
    Except Panic (List (Option Formed × Option Alarm) × CheckpointCertifier) :=
  run (fun certifier vote => certifier.stepLogged (.record anchor vote.1 vote.2)) certifier votes

/-- `executeSubdag` with what each vote logs. -/
def executeSubdagLogged [Hasher] [BuildProfile] (state : ExecutionState) (now : Duration)
    (subdag : CommittedSubDag) :
    Except Panic ((SubdagOutcome × List (Option Alarm)) × ExecutionState) := do
  let (statuses, captured, scheduler) ←
    SequentialScheduler.executeLazy pull ⟨[], 0⟩ state.scheduler subdag.payloads
  let (minted, certifier) :=
    if 0 < statuses.length then
      let timings : CheckpointTimings :=
        ⟨now, captured.stampSumMs / UInt64.ofNat statuses.length⟩
      let (minted, certifier) :=
        state.certifier.push subdag.anchor scheduler.store.commitment timings
      (some minted, certifier)
    else (none, state.certifier)
  let (recorded, certifier) ← recordVotesLogged certifier subdag.anchor captured.votes
  .ok ((⟨statuses, minted, recorded.map Prod.fst⟩, recorded.map Prod.snd), ⟨scheduler, certifier⟩)

def deliverLogged [Hasher] [BuildProfile] (state : ExecutionState) (delivery : Delivery) :
    Except Panic ((SubdagOutcome × List (Option Alarm)) × ExecutionState) :=
  state.executeSubdagLogged delivery.now delivery.subdag

/-! ## Logging changes nothing -/

variable [BuildProfile]

theorem recordVotes_logged (certifier : CheckpointCertifier) (anchor : BlockReference)
    (votes : List (Authority × Checkpoint)) :
    recordVotes certifier anchor votes =
      (fun result => (result.1.map Prod.fst, result.2)) <$> recordVotesLogged certifier anchor votes := by
  rw [recordVotesLogged, ← run_mapOutput]
  have same : (fun (certifier : CheckpointCertifier) (vote : Authority × Checkpoint) =>
      certifier.tally anchor vote.1 vote.2) = fun certifier vote =>
        (fun result => (result.1.1, result.2)) <$>
          certifier.stepLogged (.record anchor vote.1 vote.2) := by
    funext certifier vote
    exact congrFun (congrFun CheckpointCertifier.stepLogged_step certifier) (.record anchor vote.1 vote.2)
  rw [← same]
  rfl

variable [Hasher] {state next last : ExecutionState} {delivery : Delivery}
  {deliveries : List Delivery} {report : SubdagOutcome × List (Option Alarm)}
  {reports : List (SubdagOutcome × List (Option Alarm))}

theorem executeSubdag_logged (state : ExecutionState) (now : Duration) (subdag : CommittedSubDag) :
    state.executeSubdag now subdag =
      (fun result => (result.1.1, result.2)) <$> state.executeSubdagLogged now subdag := by
  unfold executeSubdag executeSubdagLogged
  cases SequentialScheduler.executeLazy pull ⟨[], 0⟩ state.scheduler subdag.payloads with
  | error panic => rfl
  | ok passed =>
      simp only [bind_ok, recordVotes_logged]
      cases recordVotesLogged _ subdag.anchor passed.2.1.votes <;> rfl

theorem run_deliverLogged (state : ExecutionState) (deliveries : List Delivery) :
    run deliver state deliveries =
      (fun result => (result.1.map Prod.fst, result.2)) <$> run deliverLogged state deliveries :=
  run_commute Prod.fst id fun state delivery => executeSubdag_logged state delivery.now delivery.subdag

theorem delivered_of_logged (ran : run deliverLogged state deliveries = .ok (reports, last)) :
    run deliver state deliveries = .ok (reports.map Prod.fst, last) := by
  rw [run_deliverLogged, ran, map_ok]

theorem executeSubdagLogged_of_pass {now : Duration} {subdag : CommittedSubDag}
    {statuses : List ExecutionStatus} {sum : UInt64} {scheduler : SequentialScheduler}
    (passed : SequentialScheduler.executeLazy pull ⟨[], 0⟩ state.scheduler subdag.payloads =
      .ok (statuses, ⟨subdag.votes, sum⟩, scheduler))
    (length : statuses.length = subdag.transactions.length) :
    state.executeSubdagLogged now subdag =
      (fun result => ((⟨statuses, subdag.minted scheduler.store.commitment, result.1.map Prod.fst⟩,
          result.1.map Prod.snd), ⟨scheduler, result.2⟩)) <$>
        recordVotesLogged (state.certifier.mint subdag scheduler.store.commitment now sum)
          subdag.anchor subdag.votes := by
  unfold executeSubdagLogged
  rw [passed, bind_ok]
  simp only [length, CommittedSubDag.minted, CheckpointCertifier.mint]
  cases subdag.transactions with
  | nil =>
      simp only [List.length_nil, Nat.lt_irrefl, if_false, if_true]
      cases recordVotesLogged state.certifier subdag.anchor subdag.votes <;> rfl
  | cons transaction transactions =>
      simp only [List.length_cons, Nat.zero_lt_succ, if_true, reduceCtorEq, if_false]
      cases recordVotesLogged (state.certifier.push subdag.anchor scheduler.store.commitment _).2
        subdag.anchor subdag.votes <;> rfl

/-- A logged delivery mints and then records its votes. -/
theorem deliverLogged_ok (delivered : state.deliverLogged delivery = .ok (report, next)) :
    ∃ now sum recorded,
      recordVotesLogged (state.certifier.mint delivery.subdag next.scheduler.store.commitment now sum)
        delivery.subdag.anchor delivery.subdag.votes = .ok (recorded, next.certifier) ∧
      report.1.minted = delivery.subdag.minted next.scheduler.store.commitment ∧
      report.1.formed = recorded.map Prod.fst ∧ report.2 = recorded.map Prod.snd := by
  rw [deliverLogged] at delivered
  obtain ⟨⟨statuses, captured, scheduler⟩, passed, -⟩ := bind_eq_ok.mp delivered
  obtain ⟨sum, -, executed, rfl⟩ := executeLazy_pull_ok.mp passed
  rw [executeSubdagLogged_of_pass passed (SequentialScheduler.execute_length executed)] at delivered
  obtain ⟨⟨recorded, certifier⟩, votes, done⟩ := map_eq_ok.mp delivered
  cases done
  exact ⟨delivery.now, sum, recorded, votes, rfl, rfl, rfl⟩

end ExecutionState

/-! ## The calls behind a vote -/

namespace CommittedSubDag

/-- The push of a sub-dag, if it executes anything. -/
def mintCalls (subdag : CommittedSubDag) (commitment : Digest) (timings : CheckpointTimings) :
    List CertifierCall :=
  if subdag.transactions = [] then [] else [.push subdag.anchor commitment timings]

def recordCalls (subdag : CommittedSubDag) (votes : List (Authority × Checkpoint)) :
    List CertifierCall :=
  votes.map fun vote => .record subdag.anchor vote.1 vote.2

variable (subdag : CommittedSubDag) (commitment : Digest) (timings : CheckpointTimings)
  (votes : List (Authority × Checkpoint))

theorem mintCalls_minted : (subdag.mintCalls commitment timings).filterMap CertifierCall.minted =
    (subdag.minted commitment).toList := by
  rw [mintCalls, CommittedSubDag.minted]
  split <;> rfl

theorem mintCalls_recorded :
    (subdag.mintCalls commitment timings).filterMap CertifierCall.recorded = [] := by
  rw [mintCalls]
  split <;> rfl

theorem recordCalls_minted : (subdag.recordCalls votes).filterMap CertifierCall.minted = [] := by
  simp [recordCalls, List.filterMap_map, Function.comp_def, CertifierCall.minted]

theorem recordCalls_recorded : (subdag.recordCalls votes).filterMap CertifierCall.recorded =
    votes.map (subdag.anchor, ·) := by
  simp [recordCalls, List.filterMap_map, Function.comp_def, CertifierCall.recorded]

end CommittedSubDag

theorem CheckpointCertifier.mint_calls [BuildProfile] (certifier : CheckpointCertifier)
    (subdag : CommittedSubDag) (commitment : Digest) (now : Duration) (sum : UInt64) :
    ∃ timings outputs, run step certifier (subdag.mintCalls commitment timings) =
      .ok (outputs, certifier.mint subdag commitment now sum) := by
  refine ⟨⟨now, sum / UInt64.ofNat subdag.transactions.length⟩, ?_⟩
  rw [CommittedSubDag.mintCalls, mint]
  split
  · exact ⟨[], rfl⟩
  · exact ⟨[none], rfl⟩

/-- What the calls made before a vote of `subdag` mint and record. -/
structure Precedes [Hasher] (engine : ExecutionEngine) (before : List CommittedSubDag)
    (subdag : CommittedSubDag) (earlier : List (Authority × Checkpoint)) (calls : List CertifierCall) :
    Prop where
  minted : ∀ checkpoint, checkpoint ∈ calls.filterMap CertifierCall.minted ↔
    ∃ cut, CheckpointAt engine (before ++ [subdag]) cut checkpoint
  pushed : ∀ anchor, anchor ∈ calls.filterMap CertifierCall.pushed ↔
    ∃ other ∈ before ++ [subdag], other.Mints anchor
  recorded : calls.filterMap CertifierCall.recorded =
    (before.flatMap fun subdag => subdag.votes.map (subdag.anchor, ·)) ++
      earlier.map (subdag.anchor, ·)

/-- What the calls have recorded is in the sub-dags. -/
theorem Precedes.recast [Hasher] {engine : ExecutionEngine} {before : List CommittedSubDag}
    {subdag : CommittedSubDag} {earlier : List (Authority × Checkpoint)} {calls : List CertifierCall}
    (precedes : Precedes engine before subdag earlier calls)
    {entry : BlockReference × Authority × Checkpoint}
    (recorded : entry ∈ calls.filterMap CertifierCall.recorded) {rest : List (Authority × Checkpoint)}
    (votes : subdag.votes = earlier ++ rest) :
    ∃ other ∈ before ++ [subdag], entry.2 ∈ other.votes := by
  rw [precedes.recorded] at recorded
  rcases List.mem_append.mp recorded with old | now
  · obtain ⟨other, listed, cast⟩ := List.mem_flatMap.mp old
    obtain ⟨_, carried, rfl⟩ := List.mem_map.mp cast
    exact ⟨other, List.mem_append_left _ listed, carried⟩
  · obtain ⟨_, carried, rfl⟩ := List.mem_map.mp now
    refine ⟨subdag, by simp, ?_⟩
    rw [votes]
    exact List.mem_append_left _ carried

section

variable [Hasher] [BuildProfile] {engine : ExecutionEngine} {committee : Committee} {quorum : UInt64}
  {state next last : ExecutionState} {delivery : Delivery} {deliveries before after : List Delivery}
  {outcome : SubdagOutcome} {outcomes : List SubdagOutcome}
  {reports : List (SubdagOutcome × List (Option Alarm))}

theorem ExecutionState.run_mintCalls
    (ran : run deliver (.new engine committee quorum) deliveries = .ok (outcomes, last)) :
    ∃ calls outputs, run CheckpointCertifier.step (.new committee quorum) calls =
        .ok (outputs, last.certifier) ∧
      calls.filterMap CertifierCall.minted = mintedBy outcomes ∧
      calls.filterMap CertifierCall.recorded = deliveries.flatMap fun delivery =>
        delivery.subdag.votes.map (delivery.subdag.anchor, ·) := by
  refine run_history (fun deliveries outcomes last =>
    ∃ calls outputs, run CheckpointCertifier.step (.new committee quorum) calls =
        .ok (outputs, last.certifier) ∧
      calls.filterMap CertifierCall.minted = mintedBy outcomes ∧
      calls.filterMap CertifierCall.recorded = deliveries.flatMap fun delivery =>
        delivery.subdag.votes.map (delivery.subdag.anchor, ·)) ?_ ⟨[], [], rfl, rfl, rfl⟩ ran
  intro deliveries outcomes state delivery outcome next _ held delivered
  obtain ⟨calls, outputs, front, minted, recorded⟩ := held
  obtain ⟨_, scheduler, sum, formed, certifier, -, -, votes, rfl, rfl⟩ := executeSubdag_ok.mp delivered
  obtain ⟨timings, _, mints⟩ := state.certifier.mint_calls delivery.subdag scheduler.store.commitment
    delivery.now sum
  have records : run CheckpointCertifier.step
      (state.certifier.mint delivery.subdag scheduler.store.commitment delivery.now sum)
      (delivery.subdag.recordCalls delivery.subdag.votes) = .ok (formed, certifier) := by
    rw [CommittedSubDag.recordCalls, run_map]
    exact votes
  refine ⟨calls ++ (delivery.subdag.mintCalls scheduler.store.commitment timings ++
    delivery.subdag.recordCalls delivery.subdag.votes), _, run_append_ok.mpr
      ⟨_, _, _, _, front, run_append_ok.mpr ⟨_, _, _, _, mints, records, rfl⟩, rfl⟩, ?_, ?_⟩
  · rw [List.filterMap_append, List.filterMap_append, minted, CommittedSubDag.mintCalls_minted,
      CommittedSubDag.recordCalls_minted, List.append_nil, mintedBy_concat]
  · rw [List.filterMap_append, List.filterMap_append, recorded, CommittedSubDag.mintCalls_recorded,
      CommittedSubDag.recordCalls_recorded, List.nil_append, List.flatMap_append,
      List.flatMap_singleton]

theorem ExecutionState.admissible_calls {calls : List CertifierCall}
    (admissible : AdmissibleStream committee (deliveries.map Delivery.subdag))
    (ran : run deliver (.new engine committee quorum) deliveries = .ok (outcomes, last))
    (minted : calls.filterMap CertifierCall.minted = mintedBy outcomes)
    (recorded : ∀ entry ∈ calls.filterMap CertifierCall.recorded,
      ∃ delivery ∈ deliveries, entry.2 ∈ delivery.subdag.votes) : AdmissibleCalls committee [] calls where
  anchors := by
    rw [List.nil_append, ← minted_pushed, minted, ← mintOrder_eq]
    apply admissible.anchors.sublist
    rw [List.map_map]
    exact run_mintOrder ran
  authors := by
    intro author listed
    obtain ⟨call, called, voter⟩ := List.mem_filterMap.mp listed
    rw [CertifierCall.voter_eq] at voter
    obtain ⟨entry, same, rfl⟩ := Option.map_eq_some_iff.mp voter
    obtain ⟨delivery, delivered, carried⟩ := recorded entry (List.mem_filterMap.mpr ⟨call, called, same⟩)
    exact (admissible.signed _ (List.mem_map_of_mem delivered)).votes _ carried

section

variable {earlier later : List (Authority × Checkpoint)} {vote : Authority × Checkpoint}

/-- The certifier at a vote of a delivered sub-dag, with the calls that led there. -/
theorem ExecutionState.run_to_vote
    (ran : run deliverLogged (.new engine committee quorum) (before ++ delivery :: after) =
      .ok (reports, last)) (votes : delivery.subdag.votes = earlier ++ vote :: later) :
    ∃ outcomes outcome alarms next calls outputs certifier formed tallied,
      reports[before.length]? = some (outcome, alarms) ∧
      run deliver (.new engine committee quorum) (before ++ [delivery]) =
        .ok (outcomes ++ [outcome], next) ∧
      run CheckpointCertifier.step (.new committee quorum) calls = .ok (outputs, certifier) ∧
      calls.filterMap CertifierCall.minted = mintedBy (outcomes ++ [outcome]) ∧
      calls.filterMap CertifierCall.recorded = (before.flatMap fun delivery =>
        delivery.subdag.votes.map (delivery.subdag.anchor, ·)) ++ earlier.map (delivery.subdag.anchor, ·) ∧
      certifier.tally delivery.subdag.anchor vote.1 vote.2 = .ok (formed, tallied) ∧
      outcome.formed[earlier.length]? = some formed ∧
      alarms[earlier.length]? = some (certifier.alarm formed vote.1 vote.2) := by
  obtain ⟨first, middle, _, _, front, back, same⟩ := run_append_ok.mp ran
  obtain ⟨report, next, rest, _, delivered, -, tail⟩ := run_cons_ok.mp back
  cases tail
  cases same
  have heard : run deliver (.new engine committee quorum) (before ++ [delivery]) =
      .ok (first.map Prod.fst ++ [report.1], next) := by
    refine run_concat_ok.mpr ⟨_, _, _, _, delivered_of_logged front, ?_, rfl⟩
    rw [deliver, executeSubdag_logged]
    exact map_eq_ok.mpr ⟨_, delivered, rfl⟩
  obtain ⟨calls, outputs, called, minted, recorded⟩ := run_mintCalls (delivered_of_logged front)
  obtain ⟨now, sum, logged, records, mints, formed, alarms⟩ := deliverLogged_ok delivered
  obtain ⟨timings, _, minting⟩ := middle.certifier.mint_calls delivery.subdag
    next.scheduler.store.commitment now sum
  rw [votes] at records
  obtain ⟨sofar, certifier, _, _, recordsFront, recordsBack, same⟩ := run_append_ok.mp records
  obtain ⟨output, _, _, _, stepped, -, tail⟩ := run_cons_ok.mp recordsBack
  cases tail
  cases same
  obtain ⟨⟨completed, _⟩, tallied, done⟩ := bind_eq_ok.mp stepped
  cases done
  have plain : run CheckpointCertifier.step (middle.certifier.mint delivery.subdag
      next.scheduler.store.commitment now sum) (delivery.subdag.recordCalls earlier) =
        .ok (sofar.map Prod.fst, certifier) := by
    rw [CommittedSubDag.recordCalls, run_map]
    refine (recordVotes_logged _ delivery.subdag.anchor earlier).trans ?_
    rw [recordVotesLogged, recordsFront, map_ok]
  have here : ∀ {α β : Type} (f : α → β) (front : List α) (value : α) (back : List α),
      front.length = earlier.length →
        ((front ++ value :: back).map f)[earlier.length]? = some (f value) := by
    intro α β f front value back length
    simp [← length]
  have length := run_length recordsFront
  refine ⟨first.map Prod.fst, report.1, report.2, next,
    calls ++ (delivery.subdag.mintCalls next.scheduler.store.commitment timings ++
      delivery.subdag.recordCalls earlier), _, certifier, completed, _, ?_, heard,
    run_append_ok.mpr ⟨_, _, _, _, called, run_append_ok.mpr ⟨_, _, _, _, minting, plain, rfl⟩, rfl⟩,
    ?_, ?_, tallied, ?_, ?_⟩
  · rw [← run_length front, List.getElem?_append_right (Nat.le_refl _), Nat.sub_self,
      List.getElem?_cons_zero]
  · rw [List.filterMap_append, List.filterMap_append, minted, CommittedSubDag.mintCalls_minted,
      CommittedSubDag.recordCalls_minted, List.append_nil, mintedBy_concat, mints]
  · rw [List.filterMap_append, List.filterMap_append, recorded, CommittedSubDag.mintCalls_recorded,
      CommittedSubDag.recordCalls_recorded, List.nil_append]
  · rw [formed, here _ _ _ _ length]
  · rw [alarms, here _ _ _ _ length]
    rfl

theorem ExecutionState.run_precedes {calls : List CertifierCall}
    (ran : run deliver (.new engine committee quorum) (before ++ [delivery]) = .ok (outcomes, next))
    (minted : calls.filterMap CertifierCall.minted = mintedBy outcomes)
    (recorded : calls.filterMap CertifierCall.recorded = (before.flatMap fun delivery =>
      delivery.subdag.votes.map (delivery.subdag.anchor, ·)) ++ earlier.map (delivery.subdag.anchor, ·)) :
    Precedes engine (before.map Delivery.subdag) delivery.subdag earlier calls where
  minted checkpoint := by rw [minted, run_mints ran, List.map_append, List.map_singleton]
  pushed anchor := by
    rw [← minted_pushed, minted, ← mintOrder_eq, mem_mintOrder ran]
    simp [or_and_right, exists_or]
  recorded := by rw [recorded, List.flatMap_map]

/-- Each vote forms what it completes and logs what the calls before it warrant. -/
theorem ExecutionState.vote_logged (positive : 0 < quorum)
    (admissible : AdmissibleStream committee (deliveries.map Delivery.subdag))
    (ran : run deliverLogged (.new engine committee quorum) deliveries = .ok (reports, last))
    (split : deliveries = before ++ delivery :: after)
    (votes : delivery.subdag.votes = earlier ++ vote :: later) :
    ∃ outcome alarms formed logged calls, reports[before.length]? = some (outcome, alarms) ∧
      outcome.formed[earlier.length]? = some formed ∧ alarms[earlier.length]? = some logged ∧
      Precedes engine (before.map Delivery.subdag) delivery.subdag earlier calls ∧
      AdmissibleCalls committee [] (calls ++ [.record delivery.subdag.anchor vote.1 vote.2]) ∧
      (∀ certificate, formed.map Prod.fst = some certificate ↔
        Completes committee quorum calls (.record delivery.subdag.anchor vote.1 vote.2) certificate) ∧
      ∀ alarm, logged = some alarm ↔
        Warranted committee quorum calls delivery.subdag.anchor vote.1 vote.2 alarm := by
  subst split
  obtain ⟨outcomes, outcome, alarms, next, calls, outputs, certifier, formed, _, report, heard, called,
    minted, recorded, tallied, forms, logs⟩ := run_to_vote ran votes
  have precedes := run_precedes heard minted recorded
  have admitted : AdmissibleCalls committee []
      (calls ++ [.record delivery.subdag.anchor vote.1 vote.2]) := by
    refine admissible_calls (admissible.front ?_) heard ?_ ?_
    · exact ⟨after.map Delivery.subdag, by simp⟩
    · rw [List.filterMap_append, minted]
      exact List.append_nil _
    · intro entry listed
      rw [List.filterMap_append] at listed
      rcases List.mem_append.mp listed with old | new
      · obtain ⟨other, taken, carried⟩ := precedes.recast old votes
        rw [← List.map_singleton, ← List.map_append] at taken
        obtain ⟨heard, listed, rfl⟩ := List.mem_map.mp taken
        exact ⟨heard, listed, carried⟩
      · rw [List.mem_singleton.mp new]
        exact ⟨delivery, by simp, by simp [votes]⟩
  have member : vote.1 ∈ committee.members := admitted.authors _ (by simp [CertifierCall.voter])
  obtain ⟨completes, warranted⟩ := CheckpointCertifier.tally_alarm positive admitted.left member called
    tallied
  exact ⟨outcome, alarms, formed, _, calls, report, forms, logs, precedes, admitted, completes, warranted⟩

end

end

/-- A delivery among those received is at its own place in the stream. -/
theorem Delivery.received_split {stream : List CommittedSubDag} {deliveries before after : List Delivery}
    {delivery : Delivery} (received : deliveries.map Delivery.subdag <+: stream)
    (split : deliveries = before ++ delivery :: after) :
    ∃ rest, stream = before.map Delivery.subdag ++ delivery.subdag :: rest ∧
      before.map Delivery.subdag ++ [delivery.subdag] <+: stream := by
  obtain ⟨rest, rfl⟩ := received
  subst split
  exact ⟨after.map Delivery.subdag ++ rest, by simp, ⟨after.map Delivery.subdag ++ rest, by simp⟩⟩

/-! ## Votes of the honest -/

section

variable [Hasher] [BuildProfile] {config : ValidatorConfig} {honest : Finset Authority}
  {network next : Network} {node : Node}

theorem Driver.run_checkpoints {deliveries : List Delivery} {minted : List (Option Checkpoint)}
    {last : Driver} (ran : run deliver (.new config) deliveries = .ok (minted, last)) :
    (∀ checkpoint, some checkpoint ∈ minted →
      ∃ cut, CheckpointAt config.engine (deliveries.map Delivery.subdag) cut checkpoint) ∧
    ∀ checkpoint ∈ last.state.certifier.pending,
      ∃ cut, CheckpointAt config.engine (deliveries.map Delivery.subdag) cut checkpoint := by
  obtain ⟨outcomes, executed, rfl⟩ := run_state ran
  refine ⟨fun checkpoint listed => ?_, fun checkpoint waiting => ?_⟩
  · exact (ExecutionState.run_mints executed).mp (Node.mem_mintedBy.mp listed)
  · exact (ExecutionState.run_mints executed).mp
      ((ExecutionState.run_pending executed).subset waiting)

/-- Every submitted checkpoint is that of a recorded sub-dag. -/
def Node.Attests (config : ValidatorConfig) (node : Node) : Prop :=
  ∀ checkpoint ∈ node.submitted, ∃ cut, CheckpointAt config.engine node.wal cut checkpoint

omit [BuildProfile] in
theorem CheckpointAt.later {engine : ExecutionEngine} {received stream : List CommittedSubDag}
    {checkpoint : Checkpoint} (front : received <+: stream)
    (found : ∃ cut, CheckpointAt engine received cut checkpoint) :
    ∃ cut, CheckpointAt engine stream cut checkpoint := by
  obtain ⟨cut, -, found⟩ := (checkpointAt_front front).mp found
  exact ⟨cut, found⟩

theorem Node.step_attests {event : NodeEvent} {last : Node} (consistent : node.Consistent config)
    (attests : node.Attests config) (stepped : node.step config event = .ok ((), last)) :
    last.Attests config := by
  obtain ⟨deliveries, minted, split, ran⟩ := consistent.received
  cases event with
  | commit subdag =>
      cases stepped
      exact fun checkpoint listed =>
        CheckpointAt.later (List.prefix_append _ _) (attests checkpoint listed)
  | receive now =>
      rw [step] at stepped
      cases waiting : node.queue with
      | nil =>
          simp only [waiting, Except.ok.injEq, Prod.mk.injEq, true_and] at stepped
          exact stepped ▸ attests
      | cons subdag queue =>
          simp only [waiting] at stepped
          obtain ⟨⟨checkpoint, driver⟩, delivered, done⟩ := bind_eq_ok.mp stepped
          cases done
          intro attested listed
          rcases List.mem_append.mp listed with earlier | new
          · exact attests attested earlier
          · have continued : run Driver.deliver (.new config) (deliveries ++ [⟨now, subdag⟩]) =
                .ok (minted ++ [checkpoint], driver) := run_concat_ok.mpr ⟨_, _, _, _, ran, delivered, rfl⟩
            have front : (deliveries ++ [(⟨now, subdag⟩ : Delivery)]).map Delivery.subdag <+: node.wal := by
              refine ⟨queue, ?_⟩
              rw [List.map_append, List.append_assoc, ← split, waiting]
              rfl
            apply CheckpointAt.later front
            apply (Driver.run_checkpoints continued).1
            obtain rfl : checkpoint = some attested := Option.mem_toList.mp new
            exact List.mem_append_right _ (List.mem_singleton_self _)
  | restart =>
      obtain ⟨_, started, done⟩ := map_eq_ok.mp stepped
      cases done
      obtain ⟨driver, replays, built⟩ := bind_eq_ok.mp started
      obtain ⟨⟨minted', _⟩, replay_ran, rfl⟩ := map_eq_ok.mp replays
      cases built
      intro checkpoint listed
      rcases List.mem_append.mp listed with earlier | attested
      · exact attests checkpoint earlier
      · have found := (Driver.run_checkpoints replay_ran).2 checkpoint attested
        rw [replayed_subdags] at found
        exact found

namespace Network

theorem Reachable.attests (reachable : Reachable config honest network) :
    ∀ validator, (network.nodes validator).Attests config := by
  induction reachable with
  | refl => exact fun _ _ listed => by cases listed
  | @tail middle _ earlier stepped attests =>
      cases stepped with
      | grow => exact attests
      | @run actor _ node _ _ moved =>
          have consistent := (Reachable.sound earlier).consistent actor
          exact forall_update middle actor node attests
            (Node.step_attests consistent (attests actor) moved)

/-- The votes of honest authors are for checkpoints of earlier sub-dags. -/
theorem Reachable.dated (reachable : Reachable config honest network) :
    ∀ before subdag after, network.stream = before ++ subdag :: after → ∀ vote ∈ subdag.votes,
      vote.1 ∈ honest → ∃ cut, CheckpointAt config.engine before cut vote.2 := by
  induction reachable with
  | refl =>
      intro before subdag after split
      cases before <;> cases split
  | @tail middle _ earlier stepped dated =>
      cases stepped with
      | run => exact dated
      | @grow subdag _ _ authentic =>
          intro before other after split vote carried honestly
          rcases List.eq_nil_or_concat after with rfl | ⟨rest, last, rfl⟩
          · obtain ⟨rfl, same⟩ := List.append_inj' split rfl
            cases same
            have submitted := authentic vote carried honestly
            exact CheckpointAt.later ((Reachable.sound earlier).behind vote.1)
              (Reachable.attests earlier vote.1 vote.2 submitted)
          · rw [List.concat_eq_append, ← List.cons_append, ← List.append_assoc] at split
            exact dated before other rest (List.append_inj' split rfl).1 vote carried honestly

end Network

end

/-! ## The log of a validator -/

namespace Network

variable [Hasher] [BuildProfile] {config : ValidatorConfig} {honest : Finset Authority}
  {network : Network} {engine : ExecutionEngine} {before after : List CommittedSubDag}
  {subdag : CommittedSubDag} {earlier later : List (Authority × Checkpoint)}
  {vote : Authority × Checkpoint} {calls : List CertifierCall}

/-- Honest votes are for what the calls have minted, and agree with each other. -/
theorem Reachable.not_warned (reachable : Reachable config honest network)
    (split : network.stream = before ++ subdag :: after)
    (votes : subdag.votes = earlier ++ vote :: later) (precedes : Precedes engine before subdag earlier calls)
    (honestly : vote.1 ∈ honest) :
    ¬ Warranted config.committee config.quorum calls subdag.anchor vote.1 vote.2 .unknownAnchor ∧
      ¬ Warranted config.committee config.quorum calls subdag.anchor vote.1 vote.2 .conflictingVote := by
  have sound := reachable.sound
  have carried : vote ∈ subdag.votes := by simp [votes]
  have here : subdag ∈ network.stream := by simp [split]
  refine ⟨fun warranted => warranted.1 ?_, fun warranted => ?_⟩
  · obtain ⟨_, _, mint, _, _, _, rfl, mints, -⟩ :=
      reachable.dated before subdag after split vote carried honestly
    exact (precedes.pushed _).mpr ⟨mint, by simp, mints⟩
  · obtain ⟨-, first, counted, author, differs⟩ := warranted
    have cast := precedes.recast (List.mem_filterMap.mpr ⟨_, counted_recorded counted, rfl⟩) votes
    obtain ⟨other, listed, carried'⟩ := cast
    have inside : other ∈ network.stream := by
      rw [split, List.append_cons]
      exact List.mem_append_left after listed
    have canonical := sound.canonical other inside _ carried' (by rw [author]; exact honestly)
    exact differs (Canonical.unique sound.admissible.anchors.distinct canonical
      (sound.canonical subdag here vote carried honestly) rfl)

/-- A certificate that votes of the stream complete is for one of its cuts. -/
theorem Reachable.completed_cut (reachable : Reachable config honest network)
    (faulty : ∑ member ∈ config.committee.members \ honest, (config.committee.stake member).toNat <
      config.quorum.toNat)
    (split : network.stream = before ++ subdag :: after)
    (votes : subdag.votes = earlier ++ vote :: later) (precedes : Precedes engine before subdag earlier calls)
    (admissible : AdmissibleCalls config.committee []
      (calls ++ [.record subdag.anchor vote.1 vote.2])) {certificate : CertifiedCheckpoint}
    (completes : Completes config.committee config.quorum calls
      (.record subdag.anchor vote.1 vote.2) certificate) :
    ∃ cut, CheckpointAt config.engine network.stream cut certificate.checkpoint := by
  obtain ⟨anchor, author, honestly, recorded⟩ := completes.honest admissible.authors faulty
  have cast : ∃ other ∈ before ++ [subdag], (author, certificate.checkpoint) ∈ other.votes := by
    rcases List.mem_append.mp recorded with old | now
    · exact precedes.recast (List.mem_filterMap.mpr ⟨_, old, rfl⟩) votes
    · obtain ⟨-, rfl, same⟩ := CertifierCall.record.inj (List.mem_singleton.mp now)
      exact ⟨subdag, by simp, by simp [votes, same]⟩
  obtain ⟨other, listed, carried⟩ := cast
  have inside : other ∈ network.stream := by
    rw [split, List.append_cons]
    exact List.mem_append_left after listed
  obtain ⟨front, back, whole⟩ := List.append_of_mem inside
  rw [whole]
  exact CheckpointAt.later (List.prefix_append front (other :: back))
    (reachable.dated front other back whole _ carried honestly)

/-- Warnings are about faulty authors, and where these have no quorum a validator
that executes as the network does never finds its own checkpoint diverged. -/
theorem warnings_justified (positive : 0 < config.quorum)
    (reachable : Reachable config honest network) {deliveries : List Delivery}
    {reports : List (SubdagOutcome × List (Option Alarm))} {last : ExecutionState}
    (received : deliveries.map Delivery.subdag <+: network.stream)
    (ran : Run.run ExecutionState.deliverLogged (.new engine config.committee config.quorum) deliveries =
      .ok (reports, last)) :
    ∀ before delivery after earlier vote later, deliveries = before ++ delivery :: after →
      delivery.subdag.votes = earlier ++ vote :: later →
      ∃ outcome alarms logged, reports[before.length]? = some (outcome, alarms) ∧
        alarms[earlier.length]? = some logged ∧
        (vote.1 ∈ honest → logged ≠ some .unknownAnchor ∧ logged ≠ some .conflictingVote) ∧
        (∑ member ∈ config.committee.members \ honest, (config.committee.stake member).toNat <
            config.quorum.toNat →
          engine = config.engine → logged ≠ some .divergence) := by
  intro before delivery after earlier vote later split votes
  have sound := reachable.sound
  obtain ⟨outcome, alarms, formed, logged, calls, reported, -, alarmed, precedes, admissible, -, logs⟩ :=
    ExecutionState.vote_logged positive (sound.admissible.front received) ran split votes
  obtain ⟨rest, split', front⟩ := Delivery.received_split received split
  refine ⟨outcome, alarms, logged, reported, alarmed, fun honestly => ?_, fun faulty same diverges => ?_⟩
  · obtain ⟨known, agreed⟩ := reachable.not_warned split' votes precedes honestly
    exact ⟨fun warns => known ((logs _).mp warns), fun warns => agreed ((logs _).mp warns)⟩
  · subst same
    obtain ⟨⟨certificate, completes⟩, own, minted, anchor, differs⟩ := (logs _).mp diverges
    obtain ⟨_, found⟩ := reachable.completed_cut faulty split' votes precedes admissible completes
    obtain ⟨_, _, recorded⟩ := completes.recorded
    obtain ⟨-, -, same⟩ := CertifierCall.record.inj recorded
    obtain ⟨_, local_found⟩ := CheckpointAt.later front ((precedes.minted own).mp minted)
    rw [← same] at found
    exact differs (Canonical.unique sound.admissible.anchors.distinct local_found.canonical
      found.canonical anchor)

end Network

end

section

attribute [local instance] plainDag checkedBuild blake2b

/-- The faulty validator votes for an anchor that is not in the stream. -/
def straying : CommittedSubDag :=
  ⟨plainReference 0 3, [((0 : UInt64), [Envelope.toBytes ⟨9, .attest ⟨plainReference 0 9, .default⟩⟩])]⟩

/-- An engine that writes where the network's aborts. -/
def rogueExecutor : ExecutionEngine := ⟨fun _ _ => .ok (.success [⟨.new 1, ⟨1⟩, []⟩])⟩

def strayed : List Delivery :=
  [⟨⟨5⟩, trioExecuting⟩, ⟨⟨6⟩, trioVoting⟩, ⟨⟨7⟩, straying⟩]

/-- The stream of the three validators goes on with the stray vote. -/
theorem trio_strayed : ∃ network, Network.Reachable trioConfig honestTwo network ∧
    network.stream = [trioExecuting, trioVoting, straying] := by
  obtain ⟨network, reachable, -, stream, -⟩ := trio_quiescent
  have grown : (network.grow straying).stream = [trioExecuting, trioVoting, straying] := by
    rw [Network.grow, stream]
    rfl
  refine ⟨network.grow straying, reachable.tail (.grow ?_ ?_ ?_), grown⟩
  · rw [grown]
    change Admissible [plainReference 0 1, plainReference 0 2, plainReference 0 3]
    exact ⟨by decide, by decide⟩
  · intro block inside
    rw [List.mem_singleton.mp inside]
    change (0 : UInt64) ∈ (Finset.range 3).image UInt64.ofNat
    decide
  · intro vote carried honestly
    rw [List.mem_singleton.mp (show vote ∈ [((0 : UInt64), _)] from carried)] at honestly
    exact absurd honestly (by decide)

theorem strayed_logged : ∃ reports last,
    run ExecutionState.deliverLogged (.new rogueExecutor trioConfig.committee trioConfig.quorum) strayed =
      .ok (reports, last) ∧
    reports.map Prod.snd = [[], [none, none, some .divergence], [some .unknownAnchor]] := by
  have logged : (fun result => result.1.map Prod.snd) <$>
      run ExecutionState.deliverLogged (.new rogueExecutor trioConfig.committee trioConfig.quorum) strayed =
        .ok [[], [none, none, some .divergence], [some .unknownAnchor]] := by decide +kernel
  obtain ⟨⟨reports, last⟩, ran, same⟩ := map_eq_ok.mp logged
  exact ⟨reports, last, ran, same⟩

/-- The network's own engine does not diverge on the same sub-dags. -/
private theorem strayed_alike : ∃ reports last,
    run ExecutionState.deliverLogged (.new trioConfig.engine trioConfig.committee trioConfig.quorum) strayed =
      .ok (reports, last) ∧
    reports.map Prod.snd = [[], [none, none, none], [some .unknownAnchor]] := by
  have logged : (fun result => result.1.map Prod.snd) <$>
      run ExecutionState.deliverLogged (.new trioConfig.engine trioConfig.committee trioConfig.quorum)
        strayed = .ok [[], [none, none, none], [some .unknownAnchor]] := by decide +kernel
  obtain ⟨⟨reports, last⟩, ran, same⟩ := map_eq_ok.mp logged
  exact ⟨reports, last, ran, same⟩

theorem strayed_justified : ∃ network, Network.Reachable trioConfig honestTwo network ∧
    strayed.map Delivery.subdag <+: network.stream ∧
    (∃ reports last, run ExecutionState.deliverLogged
        (.new rogueExecutor trioConfig.committee trioConfig.quorum) strayed = .ok (reports, last) ∧
      reports.map Prod.snd = [[], [none, none, some .divergence], [some .unknownAnchor]] ∧
      ∀ before delivery after earlier vote later, strayed = before ++ delivery :: after →
        delivery.subdag.votes = earlier ++ vote :: later → vote.1 ∈ honestTwo →
        ∃ outcome alarms logged, reports[before.length]? = some (outcome, alarms) ∧
          alarms[earlier.length]? = some logged ∧
          logged ≠ some .unknownAnchor ∧ logged ≠ some .conflictingVote) ∧
    ∃ reports last, run ExecutionState.deliverLogged
        (.new trioConfig.engine trioConfig.committee trioConfig.quorum) strayed = .ok (reports, last) ∧
      reports.map Prod.snd = [[], [none, none, none], [some .unknownAnchor]] ∧
      ∀ before delivery after earlier vote later, strayed = before ++ delivery :: after →
        delivery.subdag.votes = earlier ++ vote :: later →
        ∃ outcome alarms logged, reports[before.length]? = some (outcome, alarms) ∧
          alarms[earlier.length]? = some logged ∧ logged ≠ some .divergence := by
  obtain ⟨network, reachable, stream⟩ := trio_strayed
  have received : strayed.map Delivery.subdag <+: network.stream := by
    rw [stream]
    exact List.prefix_rfl
  obtain ⟨reports, last, ran, logged⟩ := strayed_logged
  obtain ⟨reports', last', ran', logged'⟩ := strayed_alike
  refine ⟨network, reachable, received, ⟨reports, last, ran, logged, ?_⟩, reports', last', ran', logged', ?_⟩
  · intro before delivery after earlier vote later split votes honestly
    obtain ⟨outcome, alarms, logs, report, alarmed, quiet, -⟩ := Network.warnings_justified
      (by decide) reachable received ran before delivery after earlier vote later split votes
    exact ⟨outcome, alarms, logs, report, alarmed, quiet honestly⟩
  · intro before delivery after earlier vote later split votes
    obtain ⟨outcome, alarms, logs, report, alarmed, -, agrees⟩ := Network.warnings_justified
      (by decide) reachable received ran' before delivery after earlier vote later split votes
    exact ⟨outcome, alarms, logs, report, alarmed, agrees (by decide) rfl⟩

end

end BlockchainValidator
