import PeerCall.Pipe

/-! # Links

A stream between two ends: a pipe in each direction, and for each end whether it was reset. Dropping
an end closes both pipes. A reset is told to the other end where it would otherwise read the end of
the stream, and at once where it writes.

Each operation here is one poll of one end, and a poll of one end is atomic to the other: between
its look at the reset of the other end and its use of the pipe nothing of the other end happens.
This is so for ends whose tasks take turns. Two threads that poll the two ends at once may fall in
between: a writer that has looked, and then loses the other end to a reset and a drop, is told of a
broken pipe in place of the reset. -/

namespace PeerCall

/-- The two ends of a link. The left one is the dialer's where a link was dialed. -/
inductive Side
  | left | right
  deriving Repr, DecidableEq, Inhabited

def Side.other : Side → Side
  | left => right
  | right => left

@[simp] theorem Side.other_other (s : Side) : s.other.other = s := by cases s <;> rfl

@[simp] theorem Side.other_ne (s : Side) : s.other ≠ s := by cases s <;> decide

@[simp] theorem Side.ne_other (s : Side) : s ≠ s.other := by cases s <;> decide

/-- One thing for each end. -/
structure Sides (α : Type) where
  left : α
  right : α
  deriving Repr, DecidableEq, Inhabited

namespace Sides

def get (p : Sides α) : Side → α
  | .left => p.left
  | .right => p.right

def set (p : Sides α) : Side → α → Sides α
  | .left, a => { p with left := a }
  | .right, a => { p with right := a }

@[simp] theorem get_set_self (p : Sides α) (s : Side) (a : α) : (p.set s a).get s = a := by
  cases s <;> rfl

@[simp] theorem get_set_other (p : Sides α) (s : Side) (a : α) :
    (p.set s a).get s.other = p.get s.other := by
  cases s <;> rfl

@[simp] theorem get_other_set (p : Sides α) (s : Side) (a : α) :
    (p.set s.other a).get s = p.get s := by
  cases s <;> rfl

end Sides

/-- A stream between two ends. `pipes` holds for each end the pipe that it writes. -/
structure Link where
  pipes : Sides Pipe
  wasReset : Sides Bool := ⟨false, false⟩
  deriving Repr, DecidableEq, Inhabited

namespace Link

/-- A fresh link that holds up to `capacity` bytes in each direction. -/
def ofCapacity (capacity : Nat) : Link := { pipes := ⟨{ capacity }, { capacity }⟩ }

/-- What is said to whoever wants a link that holds nothing. -/
def noCapacity : String := "`max_buf_size` must be greater than 0"

/-- The pipe that an end writes. -/
def outgoing (l : Link) (s : Side) : Pipe := l.pipes.get s

/-- The pipe that an end reads. -/
def incoming (l : Link) (s : Side) : Pipe := l.pipes.get s.other

/-- Reads at most `n` bytes. Where none come, the reset of the other end is told. -/
def read? (s : Side) (n : Nat) (l : Link) : Option (Except IoError Bytes × Link) :=
  match (l.incoming s).read? n with
  | none => none
  | some (bs, p) =>
    if bs.isEmpty && l.wasReset.get s.other then some (.error .reset, l)
    else some (.ok bs, { l with pipes := l.pipes.set s.other p })

/-- Writes what fits of `bs` and tells how many bytes that is. The reset of the other end is told
before anything is tried, and in the same poll. -/
def write? (s : Side) (bs : Bytes) (l : Link) : Option (Except IoError Nat × Link) :=
  if l.wasReset.get s.other then some (.error .reset, l)
  else
    match (l.outgoing s).write? bs with
    | none => none
    | some (.error e) => some (.error e, l)
    | some (.ok (n, p)) => some (.ok n, { l with pipes := l.pipes.set s p })

/-- Ends the direction that an end writes. -/
def shutdown (s : Side) (l : Link) : Link :=
  { l with pipes := l.pipes.set s (l.outgoing s).close }

/-- Marks an end as reset. This alone neither ends nor wakes anything. -/
def reset (s : Side) (l : Link) : Link := { l with wasReset := l.wasReset.set s true }

/-- Gives an end up: nothing more is written by it, and nothing more to it. -/
def drop (s : Side) (l : Link) : Link :=
  let l := l.shutdown s
  { l with pipes := l.pipes.set s.other (l.incoming s).close }

/-- Gives an end up so that the other end learns of a failure. -/
def abort (s : Side) (l : Link) : Link := (l.reset s).drop s

/-- Gives an end up after all has been said. -/
def finish (s : Side) (l : Link) : Link := (l.shutdown s).drop s

end Link

end PeerCall
