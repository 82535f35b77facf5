import Mathlib.Data.Set.Function
import Mathlib.Data.List.Induction

/-! # Rolling hashes

A rolling hash folds items into a digest, hashing at each step the frame of the
previous digest and the item.  Two histories with one digest are equal as soon
as the hash has no collision among the frames actually hashed and never yields
the digest both start from.
-/

namespace BlockchainValidator.HashChain

variable {α β δ : Type} {hash : β → δ} {frame : δ → α → β} {start : δ}

def rolling (hash : β → δ) (frame : δ → α → β) : δ → List α → δ
  | previous, [] => previous
  | previous, item :: items => rolling hash frame (hash (frame previous item)) items

def hashed (hash : β → δ) (frame : δ → α → β) : δ → List α → List β
  | _, [] => []
  | previous, item :: items =>
      frame previous item :: hashed hash frame (hash (frame previous item)) items

theorem rolling_append (items more : List α) :
    rolling hash frame start (items ++ more) =
      rolling hash frame (rolling hash frame start items) more := by
  induction items generalizing start with
  | nil => rfl
  | cons item items ih => exact ih

theorem hashed_append (items more : List α) :
    hashed hash frame start (items ++ more) =
      hashed hash frame start items ++ hashed hash frame (rolling hash frame start items) more := by
  induction items generalizing start with
  | nil => rfl
  | cons first items ih =>
      rw [List.cons_append, hashed, ih]
      rfl

theorem hashed_concat (items : List α) (item : α) :
    hashed hash frame start (items ++ [item]) =
      hashed hash frame start items ++ [frame (rolling hash frame start items) item] :=
  hashed_append items [item]

/-- The two histories are peeled from the end, down to the start. -/
theorem rolling_injective
    (framed : ∀ {previous previous' item item'}, frame previous item = frame previous' item' →
      previous = previous' ∧ item = item')
    {left right : List α}
    (collisionFree : Set.InjOn hash
      {bytes | bytes ∈ hashed hash frame start left ∨ bytes ∈ hashed hash frame start right})
    (fresh : ∀ bytes, bytes ∈ hashed hash frame start left ∨ bytes ∈ hashed hash frame start right →
      hash bytes ≠ start)
    (same : rolling hash frame start left = rolling hash frame start right) : left = right := by
  induction left using List.reverseRecOn generalizing right with
  | nil =>
      cases right using List.reverseRecOn with
      | nil => rfl
      | append_singleton right last =>
          rw [rolling_append] at same
          have hashedLast : frame (rolling hash frame start right) last ∈
              hashed hash frame start (right ++ [last]) := by simp [hashed_concat]
          exact absurd same.symm (fresh _ (.inr hashedLast))
  | append_singleton left last ih =>
      have hashedLeft : frame (rolling hash frame start left) last ∈
          hashed hash frame start (left ++ [last]) := by simp [hashed_concat]
      cases right using List.reverseRecOn with
      | nil =>
          rw [rolling_append] at same
          exact absurd same (fresh _ (.inl hashedLeft))
      | append_singleton right last' =>
          have hashedRight : frame (rolling hash frame start right) last' ∈
              hashed hash frame start (right ++ [last']) := by simp [hashed_concat]
          rw [rolling_append, rolling_append] at same
          obtain ⟨earlier, rfl⟩ := framed
            (collisionFree (.inl hashedLeft) (.inr hashedRight) same)
          have front : ∀ bytes, bytes ∈ hashed hash frame start left ∨
              bytes ∈ hashed hash frame start right →
              bytes ∈ hashed hash frame start (left ++ [last]) ∨
              bytes ∈ hashed hash frame start (right ++ [last]) := by
            intro bytes member
            rw [hashed_concat, hashed_concat]
            exact member.imp (List.mem_append_left _) (List.mem_append_left _)
          rw [ih (collisionFree.mono front) (fun bytes member => fresh bytes (front bytes member))
            earlier]

/-- A digest is that of an earlier one exactly if nothing came between. -/
theorem rolling_extended
    (framed : ∀ {previous previous' item item'}, frame previous item = frame previous' item' →
      previous = previous' ∧ item = item')
    {items more : List α}
    (collisionFree : Set.InjOn hash {bytes | bytes ∈ hashed hash frame start (items ++ more)})
    (fresh : ∀ bytes ∈ hashed hash frame start (items ++ more), hash bytes ≠ start) :
    rolling hash frame start items = rolling hash frame start (items ++ more) ↔ more = [] := by
  have inside : ∀ bytes, bytes ∈ hashed hash frame start items ∨
      bytes ∈ hashed hash frame start (items ++ more) →
      bytes ∈ hashed hash frame start (items ++ more) := by
    intro bytes member
    rw [hashed_append] at member ⊢
    exact member.elim (List.mem_append_left _) id
  apply Iff.intro
  · intro same
    have equal := rolling_injective framed (collisionFree.mono inside)
      (fun bytes member => fresh bytes (inside bytes member)) same
    exact List.append_right_eq_self.mp equal.symm
  · intro nothing
    rw [nothing, List.append_nil]

end BlockchainValidator.HashChain
