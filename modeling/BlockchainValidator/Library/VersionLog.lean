import Mathlib.Data.List.Basic
import Mathlib.Data.List.Nodup
import Mathlib.Order.Basic
import Mathlib.Order.Lattice

/-! # Logs of versioned items

An append-only log whose items carry a key and a version.  An item is accepted
if its version lies above every earlier one of its key; a log of accepted items
determines one item for each key and version, and the last item of a key is its
highest.
-/

namespace BlockchainValidator.VersionLog

variable {κ ν α : Type} [LinearOrder ν] {key : α → κ} {version : α → ν} {log : List α} {item : α}
  {k : κ} {v : ν}

def Accepts (key : α → κ) (version : α → ν) (log : List α) (item : α) : Prop :=
  ∀ earlier ∈ log, key earlier = key item → version earlier < version item

def Ordered (key : α → κ) (version : α → ν) (log : List α) : Prop :=
  log.Pairwise fun earlier later => key earlier = key later → version earlier < version later

theorem ordered_concat :
    Ordered key version (log ++ [item]) ↔ Ordered key version log ∧ Accepts key version log item := by
  simp [Ordered, Accepts, List.pairwise_append]

theorem distinct_entries (ordered : Ordered key version log) :
    (log.map fun item => (key item, version item)).Nodup := by
  rw [List.Nodup, List.pairwise_map]
  refine ordered.imp fun forward same => ?_
  obtain ⟨keys, versions⟩ := Prod.mk.inj same
  exact ne_of_lt (forward keys) versions

variable [DecidableEq κ]

/-- The items of a key, in the order of the log. -/
def versionsOf (key : α → κ) (log : List α) (k : κ) : List α := log.filter fun item => key item = k

def last (key : α → κ) (log : List α) (k : κ) : Option α := (versionsOf key log k).getLast?

def entry (key : α → κ) (version : α → ν) (log : List α) (k : κ) (v : ν) : Option α :=
  log.find? fun item => key item = k ∧ version item = v

/-! ## The last item of a key -/

theorem mem_versionsOf : item ∈ versionsOf key log k ↔ item ∈ log ∧ key item = k := by
  simp [versionsOf]

theorem last_concat :
    last key (log ++ [item]) k = if key item = k then some item else last key log k := by
  rw [last, versionsOf, List.filter_append]
  split
  · rename_i same
    rw [List.filter_cons_of_pos (by simpa using same), List.filter_nil, List.getLast?_concat]
  · rename_i different
    rw [List.filter_cons_of_neg (by simpa using different), List.filter_nil, List.append_nil]
    rfl

theorem last_eq_none : last key log k = none ↔ ∀ item ∈ log, key item ≠ k := by
  rw [last, List.getLast?_eq_none_iff, versionsOf, List.filter_eq_nil_iff]
  simp

theorem last_mem (last_eq : last key log k = some item) : item ∈ log ∧ key item = k :=
  mem_versionsOf.mp (List.mem_of_getLast? last_eq)

theorem versionsOf_ordered (ordered : Ordered key version log) :
    (versionsOf key log k).Pairwise fun earlier later => version earlier < version later := by
  refine List.Pairwise.imp_of_mem ?_ (ordered.sublist List.filter_sublist)
  intro earlier later listed listed' forward
  exact forward ((mem_versionsOf.mp listed).2.trans (mem_versionsOf.mp listed').2.symm)

theorem last_highest (ordered : Ordered key version log) (last_eq : last key log k = some item) :
    ∀ other ∈ log, key other = k → version other ≤ version item := by
  intro other listed same
  obtain ⟨earlier, split⟩ := List.getLast?_eq_some_iff.mp last_eq
  have increasing := versionsOf_ordered (k := k) ordered
  rw [split, List.pairwise_append] at increasing
  have inside := mem_versionsOf.mpr ⟨listed, same⟩
  rw [split] at inside
  rcases List.mem_append.mp inside with before | here
  · exact le_of_lt (increasing.2.2 other before item (by simp))
  · rw [List.mem_singleton.mp here]

theorem accepts_iff_last (ordered : Ordered key version log) :
    Accepts key version log item ↔
      ∀ previous, last key log (key item) = some previous → version previous < version item := by
  apply Iff.intro
  · intro accepts previous last_eq
    obtain ⟨listed, same⟩ := last_mem last_eq
    exact accepts previous listed same
  · intro above earlier listed same
    cases last_eq : last key log (key item) with
    | none => exact absurd same (last_eq_none.mp last_eq earlier listed)
    | some previous =>
        exact lt_of_le_of_lt (last_highest ordered last_eq earlier listed same) (above previous last_eq)

/-! ## The item of a key and a version -/

theorem entry_mem (found : entry key version log k v = some item) :
    item ∈ log ∧ key item = k ∧ version item = v := by
  refine ⟨List.mem_of_find?_eq_some found, ?_⟩
  have matched := List.find?_some found
  simpa using matched

theorem entry_eq_some (ordered : Ordered key version log) :
    entry key version log k v = some item ↔ item ∈ log ∧ key item = k ∧ version item = v := by
  apply Iff.intro
  · exact entry_mem
  · intro listed
    obtain ⟨listed, rfl, rfl⟩ := listed
    cases found : entry key version log (key item) (version item) with
    | none =>
        have absent := List.find?_eq_none.mp found item listed
        simp at absent
    | some other =>
        obtain ⟨listed', keys, versions⟩ := entry_mem found
        rw [List.inj_on_of_nodup_map (distinct_entries ordered) listed' listed
          (Prod.ext keys versions)]

theorem entry_concat (accepts : Accepts key version log item) :
    entry key version (log ++ [item]) k v =
      if key item = k ∧ version item = v then some item else entry key version log k v := by
  rw [entry, List.find?_append]
  split
  · rename_i here
    obtain ⟨rfl, rfl⟩ := here
    have absent : entry key version log (key item) (version item) = none := by
      rw [entry, List.find?_eq_none]
      intro earlier listed
      have forward := accepts earlier listed
      simp only [decide_eq_true_eq, not_and]
      exact fun same => ne_of_lt (forward same)
    rw [entry] at absent
    rw [absent, Option.none_or, List.find?_cons_of_pos (by simp)]
  · rename_i elsewhere
    rw [List.find?_cons_of_neg (by simpa using elsewhere), List.find?_nil, Option.or_none]
    rfl

end BlockchainValidator.VersionLog
