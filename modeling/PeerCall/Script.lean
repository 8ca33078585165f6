import PeerCall.Context
import PeerCall.Transfer

/-! # Scripts

A peer that does a fixed list of things on its end of a link, one after the other, and keeps a log
of what it saw. A failure does not stop it. At the end of the list it gives its end up. -/

namespace PeerCall

inductive Script.Action
  | transfer (t : Transfer)
  | shutdown
  | sleep (ms : Nat)
  /-- Gives the stream up as failed. -/
  | reset
  /-- Keeps the stream, forever. -/
  | hang
  deriving Repr, DecidableEq, Inhabited

/-- What was seen. -/
inductive Script.Entry
  | ok
  | read (bs : Bytes)
  | frame (bs : Bytes)
  | drained (bs : Bytes) (ending : Option IoError)
  | failed (e : IoError)
  | reset
  | hang
  | dropped
  deriving Repr, DecidableEq, Inhabited

structure Script where
  side : Side
  actions : List Script.Action
  /-- The transfer that has begun, and whether it reads a frame. -/
  current : Option (Transfer × Bool) := none
  wake : Option Nat := none
  /-- What was seen, last one first. -/
  log : List Script.Entry := []
  /-- Whether there is nothing more to do. -/
  ended : Bool := false
  deriving Repr, DecidableEq, Inhabited

namespace Script

/-- What a transfer lets one see. -/
def entry (framed : Bool) : Except IoError Transfer.Result → Entry
  | .error e => .failed e
  | .ok .written => .ok
  | .ok (.wrote _) => .ok
  | .ok (.read bs) => if framed then .frame bs else .read bs
  | .ok (.drained bs ending) => .drained bs ending

/-- Whether a transfer reads a frame. -/
def readsFrame : Transfer → Bool
  | .readFrame _ => true
  | _ => false

def stepTransfer? (s : Script) (t : Transfer) (framed : Bool) (l : Link) : Option (Script × Link) :=
  match t.step? s.side l with
  | none => none
  | some (.more t, l) => some ({ s with current := some (t, framed) }, l)
  | some (.done r, l) => some ({ s with current := none, log := entry framed r :: s.log }, l)

def step? (m : Moment) (s : Script) (l : Link) : Option (Script × Link) :=
  if s.ended then none
  else
    match s.current, s.actions with
    | some (t, framed), _ => s.stepTransfer? t framed l
    | none, [] => some ({ s with log := .dropped :: s.log, ended := true }, l.drop s.side)
    | none, .transfer t :: rest =>
      some ({ s with current := some (t, readsFrame t), actions := rest }, l)
    | none, .shutdown :: rest =>
      some ({ s with actions := rest, log := .ok :: s.log }, l.shutdown s.side)
    | none, .reset :: _ => some ({ s with log := .reset :: s.log, ended := true }, l.abort s.side)
    | none, .hang :: _ => some ({ s with log := .hang :: s.log, ended := true }, l)
    | none, .sleep ms :: rest =>
      match s.wake with
      | none => some ({ s with wake := some (m.now + ms) }, l)
      | some t => if t ≤ m.now then some ({ s with wake := none, actions := rest }, l) else none

/-- The times at which a script that waits is to look again. -/
def alarms (s : Script) : List Nat := s.wake.toList

end Script

end PeerCall
