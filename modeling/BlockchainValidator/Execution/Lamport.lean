import BlockchainValidator.Execution.Step
import BlockchainValidator.Execution.VersionBound
import BlockchainValidator.Library.LongestChain

/-! # Versions as Lamport clocks

A success reads the last writes of its inputs.  The version it gives to its
writes is the length of the longest chain of successes in which each one reads
a write of the one before.
-/

namespace BlockchainValidator.Execution

open Run FakeExecutor LongestChain

namespace SequentialScheduler

/-- A transaction that succeeded and declared the id for writing. -/
def Writes (entry : Transaction × ExecutionStatus) (id : ObjectId) : Prop :=
  entry.2 = .success ∧ ∃ input ∈ entry.1.inputs.val, input.1 = id ∧ input.2.writes = true

/-- The position in a history of the last success that writes the id. -/
structure LastWriter (history : List (Transaction × ExecutionStatus)) (id : ObjectId)
    (index : Nat) : Prop where
  wrote : ∃ entry, history[index]? = some entry ∧ Writes entry id
  last : ∀ later entry, history[later]? = some entry → Writes entry id → later ≤ index

/-- The success at `later` reads an object last written by the one at `earlier`. -/
def ReadsFrom (history : List (Transaction × ExecutionStatus)) (earlier later : Nat) : Prop :=
  ∃ transaction, history[later]? = some (transaction, .success) ∧
    ∃ input ∈ transaction.inputs.val, input.2.reads = true ∧
      LastWriter (history.take later) input.1 earlier

def SucceededAt (history : List (Transaction × ExecutionStatus)) (index : Nat) : Prop :=
  ∃ transaction, history[index]? = some (transaction, .success)

/-- The store's versions are the levels of the successes that wrote them. -/
structure Levelled (history : List (Transaction × ExecutionStatus)) (store : InMemoryStore)
    (level : Nat → Nat) : Prop where
  latest : ∀ id version, store.latest id = some version ↔
    ∃ index, LastWriter history id index ∧ level index = version.toNat
  objects : ∀ id version, (∃ object, store.objects (id, version) = some object) ↔
    ∃ index entry, history[index]? = some entry ∧ Writes entry id ∧ level index = version.toNat
  levels : Levels (ReadsFrom history) (SucceededAt history) level

section

variable {history : List (Transaction × ExecutionStatus)}
  {entry : Transaction × ExecutionStatus} {id : ObjectId} {index earlier later : Nat}

theorem LastWriter.lt (writer : LastWriter history id index) : index < history.length := by
  obtain ⟨entry, found, -⟩ := writer.wrote
  exact (List.getElem?_eq_some_iff.mp found).1

theorem LastWriter.unique (writer : LastWriter history id index)
    (other : LastWriter history id later) : index = later := by
  obtain ⟨entry, found, writes⟩ := writer.wrote
  obtain ⟨another, present, wrote⟩ := other.wrote
  exact Nat.le_antisymm (other.last index entry found writes) (writer.last later another present wrote)

theorem LastWriter.succeeded (writer : LastWriter history id index) : SucceededAt history index := by
  obtain ⟨⟨transaction, status⟩, found, success, -⟩ := writer.wrote
  cases success
  exact ⟨transaction, found⟩

theorem getElem?_concat_cases {found : Transaction × ExecutionStatus} :
    (history ++ [entry])[index]? = some found ↔
      history[index]? = some found ∨ index = history.length ∧ found = entry := by
  rcases Nat.lt_trichotomy index history.length with before | here | after
  · rw [List.getElem?_append_left before]
    simp only [before.ne, false_and, or_false]
  · subst here
    simp only [List.getElem?_concat_length, Option.some.injEq, eq_comm, List.getElem?_eq_none le_rfl,
      reduceCtorEq, true_and, false_or]
  · rw [List.getElem?_eq_none (by simp; omega), List.getElem?_eq_none after.le]
    simp only [after.ne', false_and, or_false]

theorem lastWriter_concat :
    LastWriter (history ++ [entry]) id index ↔
      Writes entry id ∧ index = history.length ∨ ¬ Writes entry id ∧ LastWriter history id index := by
  apply Iff.intro
  · intro writer
    obtain ⟨found, present, wrote⟩ := writer.wrote
    by_cases writes : Writes entry id
    · left
      have reached := writer.last history.length entry (by simp) writes
      have inside := writer.lt
      rw [List.length_append, List.length_singleton] at inside
      exact ⟨writes, by omega⟩
    · right
      refine ⟨writes, ?_, fun later other listed => ?_⟩
      · rcases getElem?_concat_cases.mp present with old | ⟨-, rfl⟩
        · exact ⟨found, old, wrote⟩
        · exact absurd wrote writes
      · exact writer.last later other (getElem?_concat_cases.mpr (.inl listed))
  · rintro (⟨writes, rfl⟩ | ⟨silent, writer⟩)
    · refine ⟨⟨entry, by simp, writes⟩, fun later found present _ => ?_⟩
      have inside := (List.getElem?_eq_some_iff.mp present).1
      rw [List.length_append, List.length_singleton] at inside
      exact Nat.lt_succ_iff.mp inside
    · obtain ⟨found, present, wrote⟩ := writer.wrote
      refine ⟨⟨found, getElem?_concat_cases.mpr (.inl present), wrote⟩, fun later other listed writes => ?_⟩
      rcases getElem?_concat_cases.mp listed with old | ⟨-, rfl⟩
      · exact writer.last later other old writes
      · exact absurd writes silent

theorem succeededAt_concat :
    SucceededAt (history ++ [entry]) index ↔
      SucceededAt history index ∨ index = history.length ∧ entry.2 = .success := by
  apply Iff.intro
  · intro succeeded
    obtain ⟨transaction, present⟩ := succeeded
    rcases getElem?_concat_cases.mp present with old | ⟨here, rfl⟩
    · exact .inl ⟨transaction, old⟩
    · exact .inr ⟨here, rfl⟩
  · rintro (⟨transaction, present⟩ | ⟨rfl, success⟩)
    · exact ⟨transaction, getElem?_concat_cases.mpr (.inl present)⟩
    · exact ⟨entry.1, by simp [← success]⟩

theorem readsFrom_concat :
    ReadsFrom (history ++ [entry]) earlier later ↔
      ReadsFrom history earlier later ∨ later = history.length ∧ entry.2 = .success ∧
        ∃ input ∈ entry.1.inputs.val, input.2.reads = true ∧ LastWriter history input.1 earlier := by
  apply Iff.intro
  · intro reading
    obtain ⟨transaction, present, input, declared, reads, writer⟩ := reading
    rcases getElem?_concat_cases.mp present with old | ⟨rfl, rfl⟩
    · have inside := (List.getElem?_eq_some_iff.mp old).1
      rw [List.take_append_of_le_length inside.le] at writer
      exact .inl ⟨transaction, old, input, declared, reads, writer⟩
    · rw [List.take_left] at writer
      exact .inr ⟨rfl, rfl, input, declared, reads, writer⟩
  · rintro (⟨transaction, present, input, declared, reads, writer⟩ |
      ⟨rfl, success, input, declared, reads, writer⟩)
    · have inside := (List.getElem?_eq_some_iff.mp present).1
      refine ⟨transaction, getElem?_concat_cases.mpr (.inl present), input, declared, reads, ?_⟩
      rw [List.take_append_of_le_length inside.le]
      exact writer
    · refine ⟨entry.1, by simp [← success], input, declared, reads, ?_⟩
      rw [List.take_left]
      exact writer

end

section

variable {history : List (Transaction × ExecutionStatus)} {store : InMemoryStore}
  {level : Nat → Nat} {transaction : Transaction} {status : ExecutionStatus} {version : Version}

theorem levelled_empty : Levelled [] .default level where
  latest id version := by
    simp only [InMemoryStore.default, reduceCtorEq, false_iff, not_exists, not_and]
    intro index writer
    exact absurd writer.lt (Nat.not_lt_zero index)
  objects id version := by simp [InMemoryStore.default]
  levels := {
    closed := fun earlier later reading => by simp [ReadsFrom] at reading
    positive := fun index succeeded => by simp [SucceededAt] at succeeded
    above := fun earlier later reading => by simp [ReadsFrom] at reading
    attained := fun index succeeded => by simp [SucceededAt] at succeeded }

/-- An abort is in the history, but it neither writes nor reads for anyone. -/
theorem Levelled.abort (levelled : Levelled history store level) (aborted : status ≠ .success) :
    Levelled (history ++ [(transaction, status)]) store level := by
  have silent (id : ObjectId) : ¬ Writes (transaction, status) id := fun writes => aborted writes.1
  have sameWriter (id : ObjectId) (index : Nat) :
      LastWriter (history ++ [(transaction, status)]) id index ↔ LastWriter history id index := by
    simp only [lastWriter_concat, silent, false_and, not_false_iff, true_and, false_or]
  have sameReads : ReadsFrom (history ++ [(transaction, status)]) = ReadsFrom history := by
    funext earlier later
    simp only [readsFrom_concat, aborted, false_and, and_false, or_false]
  have sameSuccesses : SucceededAt (history ++ [(transaction, status)]) = SucceededAt history := by
    funext index
    simp only [succeededAt_concat, aborted, and_false, or_false]
  constructor
  · intro id version
    simp only [sameWriter]
    exact levelled.latest id version
  · intro id version
    refine (levelled.objects id version).trans ?_
    apply exists_congr
    intro index
    apply Iff.intro
    · rintro ⟨entry, found, writes, same⟩
      exact ⟨entry, getElem?_concat_cases.mpr (.inl found), writes, same⟩
    · rintro ⟨entry, found, writes, same⟩
      rcases getElem?_concat_cases.mp found with old | ⟨-, rfl⟩
      · exact ⟨entry, old, writes, same⟩
      · exact absurd writes (silent id)
  · rw [sameReads, sameSuccesses]
    exact levelled.levels

theorem writes_iff (reaches : ReachesWrites store transaction version) (id : ObjectId) :
    Writes (transaction, .success) id ↔
      id ∈ (writtenObjects store transaction version).map Object.id := by
  rw [writtenObjects_ids reaches]
  exact and_iff_right rfl

/-- The object that a read finds was written by the last writer of its id, at
that writer's level. -/
theorem Levelled.read (levelled : Levelled history store level) (wellFormed : store.WellFormed)
    {id : ObjectId} {object : Object} (present : store.view.latest id = some object) :
    ∃ writer, LastWriter history id writer ∧ level writer = object.version.toNat :=
  (levelled.latest id object.version).mp (wellFormed.latest_of_view present)

theorem Levelled.success_levels (levelled : Levelled history store level) (wellFormed : store.WellFormed)
    (reaches : ReachesWrites store transaction version) :
    Levels (ReadsFrom (history ++ [(transaction, .success)]))
      (SucceededAt (history ++ [(transaction, .success)]))
      (Function.update level history.length version.toNat) := by
  obtain ⟨highest, found, successor⟩ := Transaction.nextVersion_eq_some.mp reaches.next
  obtain ⟨-, bounded, reached⟩ := Transaction.highestInput_bounds found
  let source (earlier : Nat) : Prop := ∃ input ∈ transaction.inputs.val, input.2.reads = true ∧
    LastWriter history input.1 earlier
  have reads : ReadsFrom (history ++ [(transaction, .success)]) =
      fun earlier later => ReadsFrom history earlier later ∨ later = history.length ∧ source earlier := by
    funext earlier later
    simp only [readsFrom_concat, true_and, source]
  have successes : SucceededAt (history ++ [(transaction, .success)]) =
      fun index => SucceededAt history index ∨ index = history.length := by
    funext index
    simp only [succeededAt_concat, and_true]
  rw [reads, successes]
  apply levelled.levels.extend
  · rintro earlier later ⟨reader, present, -⟩
    exact ⟨reader, present⟩
  · rintro ⟨other, present⟩
    simp at present
  · rintro earlier ⟨input, -, -, writer⟩
    exact writer.succeeded
  · rw [successor]
    exact Nat.succ_pos _
  · rintro earlier ⟨input, declared, reads, writer⟩
    obtain ⟨object, present, below⟩ := bounded input declared reads
    obtain ⟨wrote, isLast, same⟩ := levelled.read wellFormed present
    rw [successor, writer.unique isLast, same]
    exact Nat.lt_succ_of_le below
  · intro deeper
    rcases reached with rfl | ⟨input, declared, reads, object, present, rfl⟩
    · rw [successor] at deeper
      exact absurd deeper (by decide)
    · obtain ⟨earlier, writer, same⟩ := levelled.read wellFormed present
      exact ⟨earlier, ⟨input, declared, reads, writer⟩, by rw [same, successor]⟩

variable [Hasher] {after : InMemoryStore}

/-- A success writes its own entries and leaves every other one alone. -/
theorem success_objects (reaches : ReachesWrites store transaction version)
    (applied : store.applyWrites (writtenObjects store transaction version) = .ok after)
    (id : ObjectId) (number : Version) :
    (∃ object, after.objects (id, number) = some object) ↔
      (∃ object, store.objects (id, number) = some object) ∨
        Writes (transaction, .success) id ∧ version = number := by
  by_cases written : ∃ object ∈ writtenObjects store transaction version,
      (object.id, object.version) = (id, number)
  · obtain ⟨object, listed, same⟩ := written
    cases same
    have stored := InMemoryStore.applyWrites_entry (writtenObjects_nodup reaches.verified) applied listed
    have writes := (writes_iff reaches object.id).mpr (List.mem_map_of_mem listed)
    exact iff_of_true ⟨object, stored⟩ (.inr ⟨writes, (writtenObjects_mem listed).1.symm⟩)
  · have others : ∀ object ∈ writtenObjects store transaction version,
        (object.id, object.version) ≠ (id, number) := by
      push Not at written
      exact written
    rw [InMemoryStore.applyWrites_other applied others]
    apply Iff.intro
    · exact Or.inl
    · rintro (stored | ⟨writes, same⟩)
      · exact stored
      · obtain ⟨object, listed, rfl⟩ := List.mem_map.mp ((writes_iff reaches id).mp writes)
        have stands : (object.id, object.version) = (object.id, number) :=
          Prod.ext rfl ((writtenObjects_mem listed).1.trans same)
        exact absurd stands (others object listed)

theorem Levelled.success (levelled : Levelled history store level) (wellFormed : store.WellFormed)
    (reaches : ReachesWrites store transaction version)
    (applied : store.applyWrites (writtenObjects store transaction version) = .ok after) :
    Levelled (history ++ [(transaction, .success)]) after
      (Function.update level history.length version.toNat) := by
  have before {index : Nat} (inside : index < history.length) :
      Function.update level history.length version.toNat index = level index :=
    Function.update_of_ne inside.ne ..
  have here : Function.update level history.length version.toNat history.length = version.toNat :=
    Function.update_self ..
  have sameVersion : ∀ object ∈ writtenObjects store transaction version, object.version = version :=
    fun _ listed => (writtenObjects_mem listed).1
  refine ⟨fun id number => ?_, fun id number => ?_, levelled.success_levels wellFormed reaches⟩
  · rw [InMemoryStore.applyWrites_latest id sameVersion applied]
    by_cases writes : Writes (transaction, .success) id
    · rw [if_pos ((writes_iff reaches id).mp writes)]
      simp only [lastWriter_concat, writes, true_and, not_true_eq_false, false_and, or_false,
        exists_eq_left, here, Option.some.injEq, Version.toNat_inj]
    · rw [if_neg (fun listed => writes ((writes_iff reaches id).mpr listed))]
      simp only [lastWriter_concat, writes, false_and, not_false_iff, true_and, false_or]
      refine (levelled.latest id number).trans (exists_congr fun index => ?_)
      exact and_congr_right fun writer => by rw [before writer.lt]
  · rw [success_objects reaches applied, levelled.objects id number]
    apply Iff.intro
    · rintro (⟨index, entry, present, writes, same⟩ | ⟨writes, rfl⟩)
      · refine ⟨index, entry, getElem?_concat_cases.mpr (.inl present), writes, ?_⟩
        rw [before (List.getElem?_eq_some_iff.mp present).1]
        exact same
      · exact ⟨history.length, _, by simp, writes, here⟩
    · rintro ⟨index, entry, present, writes, same⟩
      rcases getElem?_concat_cases.mp present with old | ⟨rfl, rfl⟩
      · rw [before (List.getElem?_eq_some_iff.mp old).1] at same
        exact .inl ⟨index, entry, old, writes, same⟩
      · rw [here, Version.toNat_inj] at same
        exact .inr ⟨writes, same⟩

variable {next : SequentialScheduler} {transactions : List Transaction}
  {statuses : List ExecutionStatus}

theorem Levelled.executeOne (levelled : Levelled history store level) (wellFormed : store.WellFormed)
    (executed : executeOne ⟨store, fakeExecutor⟩ transaction = .ok (status, next)) :
    ∃ after level, next = ⟨after, fakeExecutor⟩ ∧ after.WellFormed ∧
      Levelled (history ++ [(transaction, status)]) after level := by
  rcases executeOne_fake_cases executed with
    ⟨rfl, version, after, reaches, applied, rfl⟩ | ⟨aborted, rfl, -⟩
  · exact ⟨after, _, rfl, InMemoryStore.applyWrites_wellFormed wellFormed applied,
      levelled.success wellFormed reaches applied⟩
  · exact ⟨store, level, rfl, wellFormed, levelled.abort aborted⟩

theorem execute_levelled (executed : (new fakeExecutor).execute transactions = .ok (statuses, next)) :
    ∃ level, Levelled (transactions.zip statuses) next.store level := by
  rw [execute_eq_run] at executed
  have invariant : transactions.length = statuses.length ∧
      ∃ store level, next = ⟨store, fakeExecutor⟩ ∧ store.WellFormed ∧
        Levelled (transactions.zip statuses) store level := by
    apply run_history (fun transactions statuses scheduler => transactions.length = statuses.length ∧
      ∃ store level, scheduler = ⟨store, fakeExecutor⟩ ∧ store.WellFormed ∧
        Levelled (transactions.zip statuses) store level) _ _ executed
    · rintro items outputs _ item output after - ⟨length, store, level, rfl, wellFormed, levelled⟩ stepped
      obtain ⟨last, level, rfl, wellFormed, levelled⟩ := levelled.executeOne wellFormed stepped
      refine ⟨by simp [length], last, level, rfl, wellFormed, ?_⟩
      rw [List.zip_append length]
      exact levelled
    · exact ⟨rfl, .default, fun _ => 0, rfl, InMemoryStore.default_wellFormed, levelled_empty⟩
  obtain ⟨-, store, level, rfl, -, levelled⟩ := invariant
  exact ⟨level, levelled⟩

/-- An object's versions are the lengths of the longest chains of reads that
end in the successes that wrote it. -/
theorem versions_longest_chains
    (executed : (new fakeExecutor).execute transactions = .ok (statuses, next)) :
    (∀ id version, next.store.latest id = some version ↔
      ∃ index, LastWriter (transactions.zip statuses) id index ∧
        IsGreatest (chainLengths (ReadsFrom (transactions.zip statuses)) index) version.toNat) ∧
    ∀ id version, (∃ object, next.store.objects (id, version) = some object) ↔
      ∃ index entry, (transactions.zip statuses)[index]? = some entry ∧ Writes entry id ∧
        IsGreatest (chainLengths (ReadsFrom (transactions.zip statuses)) index) version.toNat := by
  obtain ⟨level, levelled⟩ := execute_levelled executed
  have longest {index : Nat} {version : Version} (succeeded : SucceededAt (transactions.zip statuses) index) :
      level index = version.toNat ↔
        IsGreatest (chainLengths (ReadsFrom (transactions.zip statuses)) index) version.toNat := by
    have greatest := levelled.levels.longest succeeded
    apply Iff.intro
    · intro same
      rw [← same]
      exact greatest
    · exact greatest.unique
  apply And.intro
  · intro id version
    refine (levelled.latest id version).trans (exists_congr fun index => ?_)
    exact and_congr_right fun writer => longest writer.succeeded
  · intro id version
    refine (levelled.objects id version).trans (exists_congr fun index => exists_congr fun entry => ?_)
    refine and_congr_right fun present => and_congr_right fun writes => longest ⟨entry.1, ?_⟩
    rw [present, ← writes.1]

end

section

attribute [local instance] blake2b

/-- Two chains of reads that meet, an abort, and a creation that reads nothing. -/
private def meeting : List Transaction :=
  [⟨FakeFunctionId.successId, .singleton (.new 1, .writeOnly), .nil⟩,
    ⟨FakeFunctionId.successId, .pair (.new 1, .readOnly) (.new 2, .writeOnly), .nil⟩,
    ⟨FakeFunctionId.successId, .pair (.new 9, .readOnly) (.new 1, .readWrite), .nil⟩,
    ⟨FakeFunctionId.successId, .pair (.new 2, .readOnly) (.new 1, .readWrite), .nil⟩,
    ⟨FakeFunctionId.successId, .singleton (.new 3, .writeOnly), .nil⟩]

private def met : List ExecutionStatus :=
  [.success, .success, .aborted .missingRead, .success, .success]

theorem meeting_longest_chains :
    ∃ next index, (new fakeExecutor).execute meeting = .ok (met, next) ∧
      next.store.latest (.new 1) = some ⟨3⟩ ∧ LastWriter (meeting.zip met) (.new 1) index ∧
      IsGreatest (chainLengths (ReadsFrom (meeting.zip met)) index) 3 := by
  obtain ⟨next, executed, latest⟩ : ∃ next, (new fakeExecutor).execute meeting = .ok (met, next) ∧
    next.store.latest (.new 1) = some ⟨3⟩ := ⟨_, rfl, rfl⟩
  obtain ⟨index, writer, longest⟩ := ((versions_longest_chains executed).1 (.new 1) ⟨3⟩).mp latest
  exact ⟨next, index, executed, latest, writer, longest⟩

end

end SequentialScheduler

end BlockchainValidator.Execution
