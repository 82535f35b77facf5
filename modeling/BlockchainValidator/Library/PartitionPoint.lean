import Mathlib.Data.List.Basic

/-! # Binary search for a partition point -/

namespace BlockchainValidator.PartitionPoint

variable {α : Type} {p : α → Bool} {front back items : List α}

def bisect (p : α → Bool) (items : List α) : (fuel low high : Nat) → Nat
  | 0, low, _ => low
  | fuel + 1, low, high =>
      if low < high then
        let middle := low + (high - low) / 2
        match items[middle]? with
        | none => low
        | some item =>
            if p item then bisect p items fuel (middle + 1) high
            else bisect p items fuel low middle
      else low

/-- `partition_point`: the index of the first item that fails `p`, for items
of which none that fails `p` stands before one that satisfies it. -/
def partitionPoint (p : α → Bool) (items : List α) : Nat :=
  bisect p items items.length 0 items.length

theorem bisect_map {β : Type} (f : α → β) (p : β → Bool) (items : List α) (fuel low high : Nat) :
    bisect p (items.map f) fuel low high = bisect (p ∘ f) items fuel low high := by
  induction fuel generalizing low high with
  | zero => rfl
  | succ fuel ih =>
      simp only [bisect, List.getElem?_map]
      cases items[low + (high - low) / 2]? with
      | none => rfl
      | some item => simp only [Option.map_some, ih, Function.comp_apply]

theorem partitionPoint_map {β : Type} (f : α → β) (p : β → Bool) (items : List α) :
    partitionPoint p (items.map f) = partitionPoint (p ∘ f) items := by
  rw [partitionPoint, List.length_map, bisect_map]
  rfl

theorem bisect_eq (holds : ∀ item ∈ front, p item = true) (fails : ∀ item ∈ back, p item = false)
    {fuel low high : Nat} (lower : low ≤ front.length) (upper : front.length ≤ high)
    (bound : high ≤ (front ++ back).length) (enough : high - low ≤ fuel) :
    bisect p (front ++ back) fuel low high = front.length := by
  induction fuel generalizing low high with
  | zero =>
      rw [bisect]
      omega
  | succ fuel ih =>
      rw [bisect]
      split
      · rename_i unfinished
        have inside : low + (high - low) / 2 < (front ++ back).length := by omega
        simp only [List.getElem?_eq_getElem inside]
        by_cases before : low + (high - low) / 2 < front.length
        · rw [List.getElem_append_left before, holds _ (List.getElem_mem _), if_pos rfl]
          exact ih (by omega) upper bound (by omega)
        · rw [List.getElem_append_right (by omega), fails _ (List.getElem_mem _),
            if_neg Bool.false_ne_true]
          exact ih lower (by omega) (by omega) (by omega)
      · omega

theorem partitionPoint_eq (holds : ∀ item ∈ front, p item = true)
    (fails : ∀ item ∈ back, p item = false) :
    partitionPoint p (front ++ back) = front.length :=
  bisect_eq holds fails (Nat.zero_le _) (by simp) (Nat.le_refl _) (by omega)

end BlockchainValidator.PartitionPoint
