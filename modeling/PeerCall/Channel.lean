/-! # Completion channels

Bounded queues on which completed calls are handed back. Room is counted in permits. Whoever wants
to send takes a permit; if none is free it waits in line, and room that is freed goes to the one
that has waited longest. The end of a channel is reached when nobody can send any more. -/

namespace PeerCall

/-- A channel for values of type `α`. Senders that wait are known by their number. -/
structure Channel (α : Type) where
  queue : List α := []
  /-- Permits that anybody may take. -/
  free : Nat
  /-- Those that wait for a permit, first come first. -/
  waiting : List Nat := []
  /-- Those that were given a permit while they waited. -/
  granted : List Nat := []
  /-- How many hold the sending side. -/
  senders : Nat := 0
  receiving : Bool := true

/-- What receiving brings. -/
inductive Receipt (α : Type)
  | received (a : α)
  /-- Nothing yet. -/
  | empty
  /-- Nothing ever again. -/
  | ended

namespace Channel

/-- The most permits that a channel can have. -/
def maxCapacity : Nat := 2305843009213693951

/-- What is said to whoever wants a channel with so many permits, if there is no such channel. -/
def refusal? (capacity : Nat) : Option String :=
  if capacity = 0 then some "mpsc bounded channel requires buffer > 0"
  else if maxCapacity < capacity then
    some ("a semaphore may not have more than MAX_PERMITS permits (" ++ toString maxCapacity ++ ")")
  else none

/-- A channel with so many permits and senders. -/
def ofCapacity (capacity senders : Nat) : Channel α := { free := capacity, senders }

def addSender (c : Channel α) : Channel α := { c with senders := c.senders + 1 }

/-- Takes a holder of the sending side away. -/
def dropSender (c : Channel α) : Channel α := { c with senders := c.senders - 1 }

/-- Gives a permit back. -/
def release (c : Channel α) : Channel α :=
  match c.waiting with
  | i :: rest => { c with waiting := rest, granted := c.granted ++ [i] }
  | [] => { c with free := c.free + 1 }

/-- Takes a permit, if one is free and somebody receives. -/
def reserve? (c : Channel α) : Option (Channel α) :=
  if c.free = 0 || !c.receiving then none else some { c with free := c.free - 1 }

/-- One step of sending, as the sender of this number. Tells whether that is done; else the sender
stands in line from now on. If nobody receives, the value is lost, and its sender with it; a permit
that the sender was given is free again. -/
def send? (i : Nat) (a : α) (c : Channel α) : Option (Bool × Channel α) :=
  if !c.receiving then
    some (true, { c with
      free := if c.granted.contains i then c.free + 1 else c.free
      granted := c.granted.erase i }.dropSender)
  else if c.granted.contains i then
    some (true, { c with queue := c.queue ++ [a], granted := c.granted.erase i })
  else if c.waiting.contains i then none
  else
    match c.reserve? with
    | some c => some (true, { c with queue := c.queue ++ [a] })
    | none => some (false, { c with waiting := c.waiting ++ [i] })

/-- Receives. A value that is received still counts as a sender. -/
def receive (c : Channel α) : Receipt α × Channel α :=
  match c.queue with
  | a :: rest => (.received a, { c with queue := rest }.release)
  | [] => (if c.senders = 0 then .ended else .empty, c)

/-- Gives the receiving side up. What is in the queue is lost, and nobody waits in line any more. -/
def close (c : Channel α) : Channel α :=
  { c with
    queue := []
    free := c.free + c.queue.length
    waiting := []
    senders := c.senders - c.queue.length
    receiving := false }

end Channel

end PeerCall
