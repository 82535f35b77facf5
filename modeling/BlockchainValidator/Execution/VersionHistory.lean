import BlockchainValidator.Execution.Commitment
import BlockchainValidator.Library.VersionLog

/-! # The store as a log of its writes

Both maps of the store are functions of the list of objects written so far.
-/

namespace BlockchainValidator.Execution

open Run VersionLog

namespace InMemoryStore

def number (object : Object) : Nat := object.version.toNat

/-- The writes of `id`, in the order they were applied. -/
def writesTo (log : List Object) (id : ObjectId) : List Object := versionsOf Object.id log id

/-- The store holds exactly the objects of the log. -/
structure Represents (store : InMemoryStore) (log : List Object) : Prop where
  ordered : Ordered Object.id number log
  latest : ∀ id, store.latest id = (last Object.id log id).map Object.version
  objects : ∀ id version, store.objects (id, version) = entry Object.id number log id version.toNat

theorem default_represents : default.Represents [] where
  ordered := .nil
  latest _ := rfl
  objects _ _ := rfl

section

variable {store next : InMemoryStore} {log : List Object} {object : Object} {id : ObjectId}

theorem Represents.view_latest (represents : store.Represents log) :
    store.view.latest id = last Object.id log id := by
  simp only [view, represents.latest]
  cases last_eq : last Object.id log id with
  | none => rfl
  | some object =>
      obtain ⟨listed, same⟩ := last_mem last_eq
      exact (represents.objects id object.version).trans
        ((entry_eq_some represents.ordered).mpr ⟨listed, same, rfl⟩)

/-- The assertion of `apply` is the acceptance of the log. -/
theorem Represents.accepts_iff (represents : store.Represents log) :
    Accepts Object.id number log object ↔
      ∀ version, store.latest object.id = some version → version < object.version := by
  simp only [accepts_iff_last represents.ordered, represents.latest, Option.map_eq_some_iff,
    Version.lt_iff]
  apply Iff.intro
  · intro above version found
    obtain ⟨previous, last_eq, rfl⟩ := found
    exact above previous last_eq
  · intro above previous last_eq
    exact above previous.version ⟨previous, last_eq, rfl⟩

variable [Hasher] {objects : List Object}

theorem Represents.applyWrite (represents : store.Represents log)
    (applied : store.applyWrite object = .ok next) : next.Represents (log ++ [object]) := by
  obtain ⟨forward, rfl⟩ := applyWrite_eq_ok.mp applied
  have accepts := represents.accepts_iff.mpr forward
  refine ⟨ordered_concat.mpr ⟨represents.ordered, accepts⟩, fun id => ?_, fun id version => ?_⟩
  · rw [last_concat]
    by_cases same : object.id = id
    · subst same
      rw [if_pos rfl]
      exact Function.update_self ..
    · rw [if_neg same]
      exact (Function.update_of_ne (Ne.symm same) ..).trans (represents.latest id)
  · rw [entry_concat accepts]
    by_cases same : object.id = id ∧ number object = version.toNat
    · obtain ⟨rfl, level⟩ := same
      obtain rfl : object.version = version := Version.toNat_inj.mp level
      rw [if_pos ⟨rfl, rfl⟩]
      exact Function.update_self ..
    · rw [if_neg same]
      refine (Function.update_of_ne ?_ ..).trans (represents.objects id version)
      intro equal
      obtain ⟨rfl, rfl⟩ := Prod.mk.inj equal
      exact same ⟨rfl, rfl⟩

theorem Represents.applyWrites (represents : store.Represents log)
    (applied : store.applyWrites objects = .ok next) : next.Represents (log ++ objects) := by
  induction objects generalizing store log with
  | nil =>
      cases applied
      rw [List.append_nil]
      exact represents
  | cons object objects ih =>
      obtain ⟨middle, head, tail⟩ := applyWrites_cons_ok.mp applied
      rw [List.append_cons]
      exact ih (represents.applyWrite head) tail

theorem Represents.kept (represents : store.Represents log)
    (applied : store.applyWrites objects = .ok next) {key : ObjectId × Version}
    (held : store.objects key = some object) : next.objects key = some object := by
  have later := represents.applyWrites applied
  rw [represents.objects] at held
  obtain ⟨listed, same, level⟩ := entry_mem held
  rw [later.objects, entry_eq_some later.ordered]
  exact ⟨List.mem_append_left _ listed, same, level⟩

/-- Whatever an engine outputs, every write stays where it was put, versions
only grow, and the latest object of an id is the last one written. -/
theorem history_kept {outputs : List ExecutionOutput}
    (applied : default.applyAll outputs = .ok store) :
    (∀ id version object, store.objects (id, version) = some object ↔
      object ∈ history outputs ∧ object.id = id ∧ object.version = version) ∧
    ((history outputs).map fun object => (object.id, object.version)).Nodup ∧
    (∀ id, (writesTo (history outputs) id).Pairwise fun earlier later =>
      earlier.version < later.version) ∧
    (∀ id, store.latest id = ((writesTo (history outputs) id).getLast?).map Object.version) ∧
    (∀ id, store.view.latest id = (writesTo (history outputs) id).getLast?) ∧
    (∀ id object, store.view.latest id = some object → ∀ other ∈ history outputs,
      other.id = id → ¬ object.version < other.version) ∧
    (∀ id, store.latest id ≠ none ↔ ∃ object ∈ history outputs, object.id = id) ∧
    ∀ id, store.view.latest id = none ↔ ∀ object ∈ history outputs, object.id ≠ id := by
  rw [applyAll_eq] at applied
  have represents := default_represents.applyWrites applied
  rw [List.nil_append] at represents
  have ordered := represents.ordered
  refine ⟨fun id version object => ?_, ?_, fun id => ?_, represents.latest,
    fun id => represents.view_latest, fun id object found other listed same above => ?_,
    fun id => ?_, fun id => ?_⟩
  · rw [represents.objects, entry_eq_some ordered, number, Version.toNat_inj]
  · have distinct := distinct_entries ordered
    have keys : (history outputs).map (fun object => (object.id, number object)) =
        ((history outputs).map fun object => (object.id, object.version)).map
          (Prod.map id Version.toNat) := by
      rw [List.map_map]
      rfl
    rw [keys] at distinct
    exact distinct.of_map _
  · exact (versionsOf_ordered ordered).imp Version.lt_iff.mpr
  · rw [represents.view_latest] at found
    have highest := last_highest ordered found other listed same
    exact absurd (Version.lt_iff.mp above) (Nat.not_lt.mpr highest)
  · rw [represents.latest, ne_eq, Option.map_eq_none_iff, last_eq_none]
    push Not
    rfl
  · rw [represents.view_latest, last_eq_none]

end

/-- One output that writes an id twice, after a write of the same id. -/
private def rewritten : List ExecutionOutput :=
  [.success [⟨.new 1, ⟨1⟩, [1]⟩, ⟨.new 2, ⟨9⟩, []⟩],
    .success [⟨.new 1, ⟨2⟩, [2]⟩, ⟨.new 1, ⟨5⟩, [3]⟩]]

theorem rewritten_kept :
    ∃ store, @applyAll blake2b default rewritten = .ok store ∧
      store.objects (.new 1, ⟨1⟩) = some ⟨.new 1, ⟨1⟩, [1]⟩ ∧
      store.view.latest (.new 1) = some ⟨.new 1, ⟨5⟩, [3]⟩ ∧
      store.view.latest (.new 3) = none := by
  obtain ⟨store, applied⟩ : ∃ store, @applyAll blake2b default rewritten = .ok store := ⟨_, rfl⟩
  obtain ⟨objects, -, -, -, latest, -, -, absent⟩ := @history_kept store blake2b rewritten applied
  refine ⟨store, applied, (objects _ _ _).mpr (by decide), (latest _).trans (by decide),
    (absent _).mpr (by decide)⟩

end InMemoryStore

end BlockchainValidator.Execution
