import BlockchainValidator.Library.Run
import Mathlib.Data.List.Perm.Basic

/-! # Reordering independent items

A run may take its items in another order as long as it swaps only items that
commute.  States are compared up to a relation that every step respects, so what
an observer ignores may depend on the order.
-/

namespace BlockchainValidator.Reorder

open Run

variable {ε σ ι ο ρ : Type}

/-- `right` takes the items of `left` in another order, and each item overtakes
only items independent of it. -/
inductive Reorders (Independent : ι → ι → Prop) : List ι → List ι → Prop where
  | nil : Reorders Independent [] []
  | cons {item : ι} {rest front back : List ι}
      (overtaken : ∀ other ∈ front, Independent other item)
      (remaining : Reorders Independent rest (front ++ back)) :
      Reorders Independent (item :: rest) (front ++ item :: back)

/-- Two results agree: both fail, or both finish with the same outputs in some
order and related states. -/
inductive Agree (Same : σ → σ → Prop) :
    Except ε (List ο × σ) → Except ε (List ο × σ) → Prop where
  | error (left right : ε) : Agree Same (.error left) (.error right)
  | ok {left right : List ο} {state other : σ} (outputs : left.Perm right)
      (states : Same state other) : Agree Same (.ok (left, state)) (.ok (right, other))

structure Reorderable (step : σ → ι → Except ε (ο × σ)) (Same : σ → σ → Prop)
    (Independent : ι → ι → Prop) : Prop where
  equivalence : Equivalence Same
  respects : ∀ {state other}, Same state other → ∀ item,
    Agree Same (run step state [item]) (run step other [item])
  commutes : ∀ {item other}, Independent item other → ∀ state,
    Agree Same (run step state [other, item]) (run step state [item, other])

namespace Agree

variable {Same : σ → σ → Prop} {left middle right : Except ε (List ο × σ)}

theorem trans (equivalence : Equivalence Same) (first : Agree Same left middle)
    (second : Agree Same middle right) : Agree Same left right := by
  cases first with
  | error => cases second; exact .error _ _
  | ok outputs states =>
      cases second with
      | ok outputs' states' =>
          exact .ok (outputs.trans outputs') (equivalence.trans states states')

theorem of_ok {outputs outputs' : List ο} {state state' : σ} (agree : Agree Same left right)
    (leftOk : left = .ok (outputs, state)) (rightOk : right = .ok (outputs', state')) :
    outputs.Perm outputs' ∧ Same state state' := by
  subst leftOk rightOk
  cases agree with
  | ok outputs states => exact ⟨outputs, states⟩

end Agree

namespace Agree

variable {Same : σ → σ → Prop}

theorem andThen {first second : Except ε (List ο × σ)} {next next' : σ → Except ε (List ο × σ)}
    (agree : Agree Same first second)
    (continued : ∀ state other, Same state other → Agree Same (next state) (next' other)) :
    Agree Same (Run.andThen first next) (Run.andThen second next') := by
  cases agree with
  | error => exact .error _ _
  | @ok left right state other outputs states =>
      have rest := continued state other states
      simp only [Run.andThen, bind_ok]
      generalize next state = first, next' other = second at rest
      cases rest with
      | error => exact .error _ _
      | ok more states => exact .ok (outputs.append more) states

end Agree

namespace Reorderable

variable {step : σ → ι → Except ε (ο × σ)} {Same : σ → σ → Prop} {Independent : ι → ι → Prop}
  {state other : σ} {left right front back items : List ι} {item : ι}

theorem run_same (reorderable : Reorderable step Same Independent) (same : Same state other) :
    Agree Same (run step state items) (run step other items) := by
  induction items generalizing state other with
  | nil => exact .ok .nil same
  | cons item items ih =>
      have split : item :: items = [item] ++ items := rfl
      rw [split, run_append, run_append]
      exact (reorderable.respects same item).andThen (fun _ _ related => ih related)

theorem run_refl (reorderable : Reorderable step Same Independent) :
    Agree Same (run step state items) (run step state items) :=
  reorderable.run_same (reorderable.equivalence.refl state)

theorem run_move_front (reorderable : Reorderable step Same Independent)
    (overtaken : ∀ other ∈ front, Independent other item) :
    Agree Same (run step state (item :: (front ++ back)))
      (run step state (front ++ item :: back)) := by
  induction front generalizing state with
  | nil => exact reorderable.run_refl
  | cons first front ih =>
      have swapped : Agree Same (run step state ([item, first] ++ (front ++ back)))
          (run step state ([first, item] ++ (front ++ back))) := by
        rw [run_append, run_append]
        exact (reorderable.commutes (overtaken first (by simp)) state).andThen
          (fun _ _ related => reorderable.run_same related)
      have moved : Agree Same (run step state ([first] ++ item :: (front ++ back)))
          (run step state ([first] ++ (front ++ item :: back))) := by
        rw [run_append, run_append]
        refine reorderable.run_refl.andThen (fun middle middle' related => ?_)
        exact (reorderable.run_same related).trans reorderable.equivalence
          (ih (fun later member => overtaken later (by simp [member])))
      exact swapped.trans reorderable.equivalence moved

/-- Runs over reordered items agree. -/
theorem run_reorders (reorderable : Reorderable step Same Independent)
    (reorders : Reorders Independent left right) :
    Agree Same (run step state left) (run step state right) := by
  induction reorders generalizing state with
  | nil => exact reorderable.run_refl
  | @cons item rest front back overtaken remaining ih =>
      have tail : Agree Same (run step state ([item] ++ rest))
          (run step state ([item] ++ (front ++ back))) := by
        rw [run_append, run_append]
        refine reorderable.run_refl.andThen (fun middle middle' related => ?_)
        exact ih.trans reorderable.equivalence (reorderable.run_same related)
      exact tail.trans reorderable.equivalence (reorderable.run_move_front overtaken)

end Reorderable

/-! ## Orders that respect the dependent pairs -/

section

variable {Independent : ι → ι → Prop} {left right : List ι}

theorem reorders_refl (items : List ι) : Reorders Independent items items := by
  induction items with
  | nil => exact .nil
  | cons item items ih =>
      have nothing : ∀ other ∈ ([] : List ι), Independent other item := by simp
      exact .cons nothing ih

theorem reorders_swap (independent : ∀ item ∈ left, ∀ other ∈ right, Independent other item) :
    Reorders Independent (left ++ right) (right ++ left) := by
  induction left with
  | nil =>
      rw [List.nil_append, List.append_nil]
      exact reorders_refl right
  | cons item left ih =>
      exact .cons (independent item (by simp))
        (ih (fun later member => independent later (by simp [member])))

/-- Sorting by a rank: an item may come late only past items independent of it. -/
theorem reorders_of_rank (Before : ι → ι → Prop) (sorted : left.Pairwise Before) (perm : left.Perm right)
    (respects : right.Pairwise fun item other => Before other item → Independent item other) :
    Reorders Independent left right := by
  induction left generalizing right with
  | nil =>
      cases perm.nil_eq
      exact .nil
  | cons item rest ih =>
      obtain ⟨front, back, rfl⟩ := List.append_of_mem (perm.subset List.mem_cons_self)
      obtain ⟨first, sorted⟩ := List.pairwise_cons.mp sorted
      have perm : rest.Perm (front ++ back) := (List.perm_cons item).mp (perm.trans List.perm_middle)
      refine .cons (fun other member => ?_) (ih sorted perm (respects.sublist (by simp)))
      have before := first other (perm.mem_iff.mpr (List.mem_append_left back member))
      exact (List.pairwise_append.mp respects).2.2 other member item (by simp) before

end

/-! ## Interleavings -/

/-- `all` takes the items of `left` and of `right` in turns, each in its order. -/
inductive Interleaved {α : Type} : List α → List α → List α → Prop where
  | nil : Interleaved [] [] []
  | left {item : α} {left right all : List α} (rest : Interleaved left right all) :
      Interleaved (item :: left) right (item :: all)
  | right {item : α} {left right all : List α} (rest : Interleaved left right all) :
      Interleaved left (item :: right) (item :: all)

namespace Interleaved

variable {α β : Type} {left right all : List α}

theorem filterMap (interleaved : Interleaved left right all) (select : α → Option β) :
    Interleaved (left.filterMap select) (right.filterMap select) (all.filterMap select) := by
  induction interleaved with
  | nil => exact .nil
  | @left item left right all rest ih =>
      cases selected : select item with
      | none =>
          rw [List.filterMap_cons_none selected, List.filterMap_cons_none selected]
          exact ih
      | some chosen =>
          rw [List.filterMap_cons_some selected, List.filterMap_cons_some selected]
          exact .left ih
  | @right item left right all rest ih =>
      cases selected : select item with
      | none =>
          rw [List.filterMap_cons_none selected, List.filterMap_cons_none selected]
          exact ih
      | some chosen =>
          rw [List.filterMap_cons_some selected, List.filterMap_cons_some selected]
          exact .right ih

theorem length (interleaved : Interleaved left right all) :
    all.length = left.length + right.length := by
  induction interleaved with
  | nil => rfl
  | left rest ih | right rest ih =>
      simp only [List.length_cons]
      omega

theorem right_nil (interleaved : Interleaved left [] all) : all = left := by
  generalize nothing : ([] : List α) = right at interleaved
  induction interleaved with
  | nil => rfl
  | left rest ih => rw [ih nothing]
  | right rest ih => cases nothing

end Interleaved

end BlockchainValidator.Reorder
