import Mathlib.Data.List.Basic

/-! # Waiting for what another task publishes

A watch channel keeps the last value sent and whether its one receiver has seen
it.  A waiter tests the value and sleeps until there is an unseen one or the
sender is gone.
-/

namespace BlockchainValidator

/-- The channel as its documentation has it. -/
class WatchChannel where
  Watch : Type → Type
  channel {α : Type} (value : α) : Watch α
  value {α : Type} (watch : Watch α) : α
  unseen {α : Type} (watch : Watch α) : Bool
  closed {α : Type} (watch : Watch α) : Bool
  send {α : Type} (watch : Watch α) (value : α) : Watch α
  /-- The sender is dropped. -/
  close {α : Type} (watch : Watch α) : Watch α
  /-- The receiver marks the value as seen. -/
  see {α : Type} (watch : Watch α) : Watch α
  value_channel {α : Type} (start : α) : value (channel start) = start
  unseen_channel {α : Type} (start : α) : unseen (channel start) = false
  closed_channel {α : Type} (start : α) : closed (channel start) = false
  value_send {α : Type} (watch : Watch α) (next : α) : value (send watch next) = next
  unseen_send {α : Type} (watch : Watch α) (next : α) : unseen (send watch next) = true
  closed_send {α : Type} (watch : Watch α) (next : α) : closed (send watch next) = closed watch
  value_close {α : Type} (watch : Watch α) : value (close watch) = value watch
  unseen_close {α : Type} (watch : Watch α) : unseen (close watch) = unseen watch
  closed_close {α : Type} (watch : Watch α) : closed (close watch) = true
  value_see {α : Type} (watch : Watch α) : value (see watch) = value watch
  unseen_see {α : Type} (watch : Watch α) : unseen (see watch) = false
  closed_see {α : Type} (watch : Watch α) : closed (see watch) = closed watch

attribute [simp] WatchChannel.value_channel WatchChannel.unseen_channel WatchChannel.closed_channel
  WatchChannel.value_send WatchChannel.unseen_send WatchChannel.closed_send
  WatchChannel.value_close WatchChannel.unseen_close WatchChannel.closed_close
  WatchChannel.value_see WatchChannel.unseen_see WatchChannel.closed_see

structure PlainWatch (α : Type) where
  value : α
  unseen : Bool
  closed : Bool

@[reducible] def plainWatch : WatchChannel where
  Watch := PlainWatch
  channel value := ⟨value, false, false⟩
  value watch := watch.value
  unseen watch := watch.unseen
  closed watch := watch.closed
  send watch value := { watch with value, unseen := true }
  close watch := { watch with closed := true }
  see watch := { watch with unseen := false }
  value_channel _ := rfl
  unseen_channel _ := rfl
  closed_channel _ := rfl
  value_send _ _ := rfl
  unseen_send _ _ := rfl
  closed_send _ _ := rfl
  value_close _ := rfl
  unseen_close _ := rfl
  closed_close _ := rfl
  value_see _ := rfl
  unseen_see _ := rfl
  closed_see _ := rfl

export WatchChannel (Watch)

open WatchChannel

/-- A loop that reads the value, returns if it is ready, and awaits the next
one; it stops when there is none to come. -/
inductive Waiter where
  | reading
  | sleeping
  | returned
  | stopped
deriving DecidableEq, Repr

namespace Waiter

def active : Waiter → Bool
  | reading | sleeping => true
  | returned | stopped => false

section

variable [WatchChannel] {α : Type} {ready : α → Bool} {waiter next : Waiter} {watch after : Watch α}

/-- One poll of the loop, or nothing where its task is not woken. -/
def poll (ready : α → Bool) (waiter : Waiter) (watch : Watch α) : Option (Waiter × Watch α) :=
  match waiter with
  | reading => some (if ready (value watch) then returned else sleeping, see watch)
  | sleeping =>
      if unseen watch then some (reading, see watch)
      else if closed watch then some (stopped, watch)
      else none
  | returned | stopped => none

/-- What the waiter is owed: it sleeps on a seen value only if that is not ready,
and gives up only on the last one. -/
structure Guarded (ready : α → Bool) (waiter : Waiter) (watch : Watch α) : Prop where
  asleep : waiter = sleeping → unseen watch = false → ready (value watch) = false
  gone : waiter = stopped → closed watch = true ∧ ready (value watch) = false

theorem Guarded.reading (ready : α → Bool) (watch : Watch α) : Guarded ready .reading watch where
  asleep impossible := by cases impossible
  gone impossible := by cases impossible

theorem Guarded.send (guarded : Guarded ready waiter watch) (opened : closed watch = false)
    (value : α) : Guarded ready waiter (send watch value) where
  asleep _ seen := by
    rw [unseen_send] at seen
    cases seen
  gone stops := by
    obtain ⟨shut, -⟩ := guarded.gone stops
    rw [opened] at shut
    cases shut

theorem Guarded.close (guarded : Guarded ready waiter watch) : Guarded ready waiter (close watch) where
  asleep sleeps seen := by
    rw [unseen_close] at seen
    rw [value_close]
    exact guarded.asleep sleeps seen
  gone stops := by
    rw [value_close]
    exact ⟨closed_close watch, (guarded.gone stops).2⟩

/-- All that one poll can do. -/
theorem poll_cases (polled : poll ready waiter watch = some (next, after)) :
    (waiter = .reading ∧ next = (if ready (value watch) then .returned else .sleeping) ∧
      after = see watch) ∨
    (waiter = .sleeping ∧ unseen watch = true ∧ next = .reading ∧ after = see watch) ∨
    (waiter = .sleeping ∧ unseen watch = false ∧ closed watch = true ∧ next = .stopped ∧
      after = watch) := by
  cases waiter with
  | reading =>
      cases polled
      exact .inl ⟨rfl, rfl, rfl⟩
  | sleeping =>
      rw [poll] at polled
      split at polled
      · rename_i fresh
        cases polled
        exact .inr (.inl ⟨rfl, fresh, rfl, rfl⟩)
      · rename_i seen
        split at polled
        · rename_i shut
          cases polled
          exact .inr (.inr ⟨rfl, by simpa using seen, shut, rfl, rfl⟩)
        · cases polled
  | returned => cases polled
  | stopped => cases polled

theorem Guarded.poll (guarded : Guarded ready waiter watch)
    (polled : Waiter.poll ready waiter watch = some (next, after)) : Guarded ready next after := by
  rcases poll_cases polled with ⟨-, rfl, rfl⟩ | ⟨-, -, rfl, rfl⟩ | ⟨rfl, seen, shut, rfl, rfl⟩
  · constructor
    · intro sleeps _
      rw [value_see]
      split at sleeps
      · cases sleeps
      · rename_i waits
        simpa using waits
    · intro stops
      split at stops <;> cases stops
  · exact .reading ready _
  · constructor
    · intro impossible
      cases impossible
    · exact fun _ => ⟨shut, guarded.asleep rfl seen⟩

theorem poll_keeps (polled : poll ready waiter watch = some (next, after)) :
    value after = value watch ∧ closed after = closed watch := by
  rcases poll_cases polled with ⟨-, -, rfl⟩ | ⟨-, -, -, rfl⟩ | ⟨-, -, -, -, rfl⟩ <;> simp

/-- No wake-up is lost. -/
theorem Guarded.blocked (guarded : Guarded ready waiter watch) (waits : waiter.active = true)
    (blocked : Waiter.poll ready waiter watch = none) :
    ready (value watch) = false ∧ closed watch = false ∧ unseen watch = false := by
  cases waiter with
  | reading => cases blocked
  | sleeping =>
      rw [Waiter.poll] at blocked
      split at blocked
      · cases blocked
      · rename_i seen
        split at blocked
        · cases blocked
        · rename_i opened
          have nothing : unseen watch = false := by simpa using seen
          exact ⟨guarded.asleep rfl nothing, by simpa using opened, nothing⟩
  | returned => cases waits
  | stopped => cases waits

/-! ## How long it takes -/

/-- The polls that a waiter needs once the value is ready. -/
def rank : Waiter → Nat
  | reading => 1
  | sleeping => 2
  | returned | stopped => 0

theorem Guarded.rank_poll (guarded : Guarded ready waiter watch) (holds : ready (value watch) = true)
    (polled : Waiter.poll ready waiter watch = some (next, after)) :
    next.rank + 1 = waiter.rank ∧ next ≠ .stopped := by
  rcases poll_cases polled with ⟨rfl, rfl, -⟩ | ⟨rfl, -, rfl, -⟩ | ⟨rfl, seen, -, rfl, -⟩
  · rw [if_pos holds]
    exact ⟨rfl, by simp⟩
  · exact ⟨rfl, by simp⟩
  · rw [guarded.asleep rfl seen] at holds
    cases holds

/-- Where a waiter ends up if nothing else happens. -/
def settled (ready : α → Bool) (watch : Watch α) : Waiter :=
  if ready (value watch) then .returned else if closed watch then .stopped else .sleeping

inductive Polls (ready : α → Bool) : Nat → Waiter × Watch α → Waiter × Watch α → Prop where
  | none (state : Waiter × Watch α) : Polls ready 0 state state
  | one {count : Nat} {waiter : Waiter} {watch : Watch α} {middle last : Waiter × Watch α}
      (polled : poll ready waiter watch = some middle) (rest : Polls ready count middle last) :
      Polls ready (count + 1) (waiter, watch) last

theorem settles_reading (ready : α → Bool) (watch : Watch α) :
    ∃ count ≤ 2, ∃ after, Polls ready count (.reading, watch) (settled ready watch, after) ∧
      value after = value watch ∧ closed after = closed watch ∧ unseen after = false := by
  have read : Waiter.poll ready .reading watch =
      some (if ready (value watch) then .returned else .sleeping, see watch) := rfl
  rw [settled]
  split
  · rename_i holds
    rw [if_pos holds] at read
    exact ⟨1, by decide, see watch, .one read (.none _), by simp, by simp, by simp⟩
  · rename_i waits
    rw [if_neg waits] at read
    split
    · rename_i shut
      have stops : Waiter.poll ready .sleeping (see watch) = some (.stopped, see watch) := by
        rw [Waiter.poll, unseen_see, closed_see, shut]
        rfl
      exact ⟨2, by decide, see watch, .one read (.one stops (.none _)), by simp, by simp, by simp⟩
    · exact ⟨1, by decide, see watch, .one read (.none _), by simp, by simp, by simp⟩

theorem Guarded.settles (guarded : Guarded ready waiter watch) (waits : waiter.active = true) :
    ∃ count ≤ 3, ∃ after, Polls ready count (waiter, watch) (settled ready watch, after) ∧
      value after = value watch ∧ closed after = closed watch ∧ unseen after = false := by
  cases waiter with
  | reading =>
      obtain ⟨count, few, rest⟩ := settles_reading ready watch
      exact ⟨count, by omega, rest⟩
  | sleeping =>
      cases fresh : unseen watch with
      | true =>
          have wakes : Waiter.poll ready .sleeping watch = some (.reading, see watch) := by
            rw [Waiter.poll, if_pos fresh]
          obtain ⟨count, few, after, polls, kept, shut, seen⟩ := settles_reading ready (see watch)
          rw [value_see] at kept
          rw [closed_see] at shut
          have same : settled ready (see watch) = settled ready watch := by simp [settled]
          exact ⟨count + 1, by omega, after, .one wakes (same ▸ polls), kept, shut, seen⟩
      | false =>
          have waits := guarded.asleep rfl fresh
          rw [settled, if_neg (by simp [waits])]
          split
          · rename_i shut
            have stops : Waiter.poll ready .sleeping watch = some (.stopped, watch) := by
              rw [Waiter.poll, if_neg (by simp [fresh]), if_pos shut]
            exact ⟨1, by omega, watch, .one stops (.none _), rfl, rfl, fresh⟩
          · exact ⟨0, by omega, watch, .none _, rfl, rfl, fresh⟩
  | returned => cases waits
  | stopped => cases waits

end

end Waiter

end BlockchainValidator
