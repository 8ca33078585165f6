import PeerCall.Bytes
import PeerCall.Context
import PeerCall.Progress

/-! # Servers

What answers invocations. Arguments and reply are in encoded form, so one server answers local and
remote callers alike. A server is given by what it does for each invocation, including the time that
takes. -/

namespace PeerCall

/-- A request as a server sees it. -/
structure Invocation where
  context : Context
  /-- Who calls. -/
  peer : PeerId
  service : ServiceId
  args : Bytes
  deriving Repr, DecidableEq, Inhabited

/-- What a server does for an invocation. -/
inductive Work
  /-- Returns, with an error or not, and with a reply or not. -/
  | finish (error : Option CallError) (reply : Option Bytes)
  /-- Waits, and then goes on. A wait that heeds the context ends early with the context's error,
  without a reply. -/
  | pause (ms : Nat) (heeding : Bool) (next : Work)
  | crash
  | never
  deriving Repr, DecidableEq, Inhabited

/-- How many waits lie ahead. -/
def Work.pauses : Work → Nat
  | pause _ _ next => next.pauses + 1
  | _ => 0

/-- A server: what it does for each invocation. -/
abbrev Server := Invocation → Work

/-- How an invocation ended. -/
inductive Outcome
  | returned (error : Option CallError) (reply : Option Bytes)
  | crashed
  deriving Repr, DecidableEq, Inhabited

/-- An invocation under way: what is left to be done, and the end of the wait that has begun. -/
structure Serving where
  context : Context
  work : Work
  wake : Option Nat := none
  deriving Repr, DecidableEq, Inhabited

namespace Serving

def ofInvocation (server : Server) (i : Invocation) : Serving := ⟨i.context, server i, none⟩

def step? (m : Moment) (v : Serving) : Option (Progress Serving Outcome) :=
  match v.work with
  | .finish error reply => some (.done (.returned error reply))
  | .crash => some (.done .crashed)
  | .never => none
  | .pause ms heeding next =>
    match if heeding then v.context.verdict m else none with
    | some e => some (.done (.returned (some e) none))
    | none =>
      match v.wake with
      | none => some (.more { v with wake := some (m.now + ms) })
      | some t => if t ≤ m.now then some (.more { v with work := next, wake := none }) else none

/-- The times at which an invocation that waits is to look again. -/
def alarms (v : Serving) : List Nat :=
  match v.work with
  | .pause _ heeding _ => v.wake.toList ++ if heeding then v.context.deadline.toList else []
  | _ => []

end Serving

end PeerCall
