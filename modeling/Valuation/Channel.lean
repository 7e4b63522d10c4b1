/-!
# Broadcast channels

A channel keeps the latest messages for any number of receivers, each of which reads at its own pace.
A receiver is the position of the message that it reads next. One that has fallen behind what the
channel keeps is told once how many messages it has lost, and goes on with the oldest one kept.
-/
namespace Valuation

structure Channel (α : Type) where
  /-- How many messages are kept. -/
  capacity : Nat
  /-- How many messages have been dropped. -/
  dropped : Nat := 0
  /-- The messages kept, the oldest first. -/
  buffer : List α := []
deriving Inhabited

/-- What a receiver gets: a message, or the number of those that it has lost. -/
inductive Received (α : Type) where
  | message (x : α)
  | lagged (lost : Nat)
deriving DecidableEq

namespace Channel

variable {α : Type}

/-- A channel that keeps at least so many messages, and one in any case. The number that it keeps is a
power of two. -/
def ofCapacity (n : Nat) : Channel α := { capacity := (max n 1).nextPowerOfTwo }

/-- The position behind the latest message, where a new receiver starts. -/
def position (c : Channel α) : Nat := c.dropped + c.buffer.length

/-- Appends a message; the oldest one gives way if there are too many. -/
def send (c : Channel α) (x : α) : Channel α :=
  if c.capacity < c.buffer.length + 1 then
    { c with dropped := c.dropped + 1, buffer := (c.buffer ++ [x]).drop 1 }
  else { c with buffer := c.buffer ++ [x] }

def sendAll (c : Channel α) (xs : List α) : Channel α := xs.foldl send c

/-- What a receiver gets next, and its new position; none if it is up to date. -/
def receive? (c : Channel α) (position : Nat) : Option (Received α × Nat) :=
  if position < c.dropped then some (.lagged (c.dropped - position), c.dropped)
  else c.buffer[position - c.dropped]?.map fun x => (.message x, position + 1)

/-- All that a receiver gets until it is up to date. -/
def drain (c : Channel α) (position : Nat) : List (Received α) :=
  let kept := c.buffer.drop (position - c.dropped)
  (if position < c.dropped then [.lagged (c.dropped - position)] else []) ++ kept.map .message

/-! ## Laws -/

@[simp] theorem position_send (c : Channel α) (x : α) : (c.send x).position = c.position + 1 := by
  unfold send position
  split <;> simp <;> omega

@[simp] theorem capacity_send (c : Channel α) (x : α) : (c.send x).capacity = c.capacity := by
  unfold send
  split <;> rfl

theorem length_buffer_send (c : Channel α) (x : α) (h : c.buffer.length ≤ c.capacity) :
    (c.send x).buffer.length ≤ c.capacity := by
  unfold send
  split <;> simp_all

/-- A receiver gets nothing exactly if it has reached the end. -/
theorem receive?_eq_none_iff (c : Channel α) (position : Nat) :
    c.receive? position = none ↔ c.position ≤ position := by
  unfold receive? Channel.position
  split
  · simp; omega
  · simp; omega

/-- What a receiver gets takes it on, and not beyond the end. -/
theorem lt_of_receive?_eq_some {c : Channel α} {position : Nat} {next : Received α × Nat}
    (h : c.receive? position = some next) : position < next.2 ∧ next.2 ≤ c.position := by
  unfold receive? at h
  split at h
  · next hlagged =>
    cases h
    exact ⟨hlagged, Nat.le_add_right ..⟩
  · obtain ⟨x, hx, rfl⟩ := Option.map_eq_some_iff.1 h
    have hlt : position - c.dropped < c.buffer.length := (List.getElem?_eq_some_iff.1 hx).1
    exact ⟨Nat.lt_succ_self _, by unfold Channel.position; dsimp only; omega⟩

end Channel
end Valuation
