import PeerCall.Error
import PeerCall.Bytes

/-! # Pipes

One direction of a link: a bounded queue of bytes. An operation that has to wait answers `none`
and changes nothing. What a pipe holds is its view: reading takes a front off it (`held_of_read?`),
writing puts a front of what is written behind it (`held_of_write?`), and it never outgrows the
capacity. -/

namespace PeerCall

/-- Bytes on their way, at most `capacity` at a time. A closed pipe takes no more bytes; those it
holds can still be read. -/
structure Pipe where
  capacity : Nat
  held : Bytes := []
  closed : Bool := false
  deriving Repr, DecidableEq, Inhabited

namespace Pipe

/-- How many more bytes fit. -/
def room (p : Pipe) : Nat := p.capacity - p.held.length

/-- Reads what is there, at most `n` bytes. No bytes are read if none are asked for, and at the end,
that is if the pipe is closed and empty; while it is open and empty, reading waits. -/
def read? (n : Nat) (p : Pipe) : Option (Bytes × Pipe) :=
  if n = 0 then some ([], p)
  else if p.held.isEmpty then if p.closed then some ([], p) else none
  else some (p.held.take n, { p with held := p.held.drop n })

/-- Writes what fits and tells how many bytes that is. A closed pipe refuses, also if there is
nothing to write; a full one makes the writer wait if there is something. -/
def write? (bs : Bytes) (p : Pipe) : Option (Except IoError (Nat × Pipe)) :=
  if p.closed then some (.error .brokenPipe)
  else if bs.isEmpty then some (.ok (0, p))
  else if p.room = 0 then none
  else
    let piece := bs.take p.room
    some (.ok (piece.length, { p with held := p.held ++ piece }))

theorem held_of_read? {p q : Pipe} (h : p.read? n = some (bs, q)) : p.held = bs ++ q.held := by
  unfold read? at h
  split at h
  · cases h; rfl
  · split at h
    · split at h
      · cases h; rfl
      · cases h
    · cases h
      exact (List.take_append_drop n p.held).symm

theorem held_of_write? {p q : Pipe} (h : p.write? bs = some (.ok (n, q))) :
    n ≤ bs.length ∧ q.held = p.held ++ bs.take n := by
  unfold write? at h
  split at h
  · cases h
  · split at h
    · cases h
      simp
    · split at h
      · cases h
      · cases h
        exact ⟨List.length_take ▸ Nat.min_le_right _ _, by simp [List.take_eq_take_iff]⟩

theorem length_held_of_write? {p q : Pipe} (h : p.write? bs = some (.ok (n, q)))
    (hp : p.held.length ≤ p.capacity) : q.held.length ≤ q.capacity := by
  unfold write? at h
  split at h
  · cases h
  · split at h
    · cases h
      exact hp
    · split at h
      · cases h
      · cases h
        simp only [List.length_append, List.length_take, room]
        omega

def close (p : Pipe) : Pipe := { p with closed := true }

/-- Whether a reader that waits is to look again: there are bytes, or the end. -/
def stirsReader (p : Pipe) : Bool := !p.held.isEmpty || p.closed

/-- Whether a writer that waits is to look again: there is room, or no use in waiting. -/
def stirsWriter (p : Pipe) : Bool := p.room ≠ 0 || p.closed

end Pipe

end PeerCall
