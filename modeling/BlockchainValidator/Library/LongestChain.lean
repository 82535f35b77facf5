import Mathlib.Data.List.Chain
import Mathlib.Data.List.Induction
import Mathlib.Logic.Function.Basic
import Mathlib.Order.Bounds.Basic

/-! # Levels and longest chains

Where each element's level is one more than the highest level among those
directly before it, the level counts the elements of a longest chain.
-/

namespace BlockchainValidator.LongestChain

variable {α : Type} {before : α → α → Prop} {valid : α → Prop} {level : α → Nat} {last : α}

/-- How many elements the chains that end in `last` have. -/
def chainLengths (before : α → α → Prop) (last : α) : Set Nat :=
  {length | ∃ chain : List α, (chain ++ [last]).IsChain before ∧ chain.length + 1 = length}

structure Levels (before : α → α → Prop) (valid : α → Prop) (level : α → Nat) : Prop where
  closed : ∀ earlier later, before earlier later → valid earlier
  positive : ∀ element, valid element → 1 ≤ level element
  above : ∀ earlier later, before earlier later → level earlier < level later
  attained : ∀ later, valid later → 1 < level later →
    ∃ earlier, before earlier later ∧ level earlier + 1 = level later

theorem Levels.chain_le (levels : Levels before valid level) {chain : List α} (ends : valid last)
    (linked : (chain ++ [last]).IsChain before) : chain.length + 1 ≤ level last := by
  induction chain using List.reverseRecOn generalizing last with
  | nil => exact levels.positive last ends
  | append_singleton chain previous ih =>
      obtain ⟨front, -, step⟩ := List.isChain_append.mp linked
      have direct : before previous last := step previous (by simp) last (by simp)
      have shorter := ih (levels.closed previous last direct) front
      have higher := levels.above previous last direct
      rw [List.length_append, List.length_singleton]
      omega

theorem Levels.exists_chain (levels : Levels before valid level) (ends : valid last) :
    ∃ chain : List α, (chain ++ [last]).IsChain before ∧ chain.length + 1 = level last := by
  induction height : level last generalizing last with
  | zero =>
      have positive := levels.positive last ends
      omega
  | succ lower ih =>
      rcases Nat.eq_zero_or_pos lower with rfl | deeper
      · exact ⟨[], List.isChain_singleton last, rfl⟩
      · obtain ⟨earlier, direct, next⟩ := levels.attained last ends (by omega)
        obtain ⟨chain, linked, length⟩ := ih (levels.closed earlier last direct) (by omega)
        refine ⟨chain ++ [earlier], List.isChain_append.mpr ⟨linked, List.isChain_singleton last, ?_⟩, ?_⟩
        · intro final isFinal first isFirst
          rw [List.getLast?_concat] at isFinal
          cases isFinal
          cases isFirst
          exact direct
        · rw [List.length_append, List.length_singleton, length]

theorem Levels.longest (levels : Levels before valid level) (ends : valid last) :
    IsGreatest (chainLengths before last) (level last) := by
  apply And.intro
  · exact levels.exists_chain ends
  · intro length counted
    obtain ⟨chain, linked, rfl⟩ := counted
    exact levels.chain_le ends linked

/-- A new last element, directly after the `sources`, at the next level above
the highest of them. -/
theorem Levels.extend [DecidableEq α] {fresh : α} {sources : α → Prop} {height : Nat}
    (levels : Levels before valid level) (targets : ∀ earlier later, before earlier later → valid later)
    (new : ¬ valid fresh) (known : ∀ source, sources source → valid source) (positive : 1 ≤ height)
    (above : ∀ source, sources source → level source < height)
    (attained : 1 < height → ∃ source, sources source ∧ level source + 1 = height) :
    Levels (fun earlier later => before earlier later ∨ later = fresh ∧ sources earlier)
      (fun element => valid element ∨ element = fresh) (Function.update level fresh height) := by
  have old {element : α} (present : valid element) :
      Function.update level fresh height element = level element :=
    Function.update_of_ne (by rintro rfl; exact new present) ..
  constructor
  · rintro earlier later (direct | ⟨-, source⟩)
    · exact .inl (levels.closed earlier later direct)
    · exact .inl (known earlier source)
  · rintro element (present | rfl)
    · rw [old present]
      exact levels.positive element present
    · rw [Function.update_self]
      exact positive
  · rintro earlier later (direct | ⟨rfl, source⟩)
    · rw [old (levels.closed earlier later direct), old (targets earlier later direct)]
      exact levels.above earlier later direct
    · rw [old (known earlier source), Function.update_self]
      exact above earlier source
  · rintro later (present | rfl) deeper
    · rw [old present] at deeper ⊢
      obtain ⟨earlier, direct, next⟩ := levels.attained later present deeper
      refine ⟨earlier, .inl direct, ?_⟩
      rw [old (levels.closed earlier later direct)]
      exact next
    · rw [Function.update_self] at deeper ⊢
      obtain ⟨source, direct, next⟩ := attained deeper
      refine ⟨source, .inr ⟨rfl, direct⟩, ?_⟩
      rw [old (known source direct)]
      exact next

end BlockchainValidator.LongestChain
