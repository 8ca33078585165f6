import PeerCall.Address
import PeerCall.Exchange
import PeerCall.Handshake
import PeerCall.Script

/-! # Openings

How a stream to an address is opened. First a connection is made, which can fail, take its time or
never come about (`Endpoint`), and for which there may be a timeout (`Attempt`). Then the handshake
is written on it (`Greeting`), and with the last of it the exchange begins. At each step the call's
context is asked first. If an opening ends early, its connection is closed, and nobody is told of a
failure. A connection is a link like any other. -/

namespace PeerCall

/-! ## Connecting -/

/-- What a call gets that waits for a connection. -/
inductive Attempt.Outcome
  | failed (e : StreamError)
  /-- A connection that holds so many bytes in each direction. At its far end a script plays under a
  number. -/
  | connected (capacity owner : Nat) (actions : List Script.Action)
  deriving Repr, DecidableEq, Inhabited

/-- What there is at an address for somebody who connects to it. -/
inductive Endpoint
  /-- After so many milliseconds connecting fails. -/
  | fails (ms : Nat) (e : IoError)
  /-- After so many milliseconds there is a connection. -/
  | answers (ms capacity owner : Nat) (actions : List Script.Action)
  /-- Connecting never ends. -/
  | hangs
  deriving Repr, DecidableEq, Inhabited

namespace Endpoint

/-- How many milliseconds connecting takes. -/
def takes? : Endpoint → Option Nat
  | fails ms _ => some ms
  | answers ms _ _ _ => some ms
  | hangs => none

/-- What comes of connecting within so many milliseconds. -/
def outcome? (elapsed : Nat) : Endpoint → Option Attempt.Outcome
  | fails ms e => if ms ≤ elapsed then some (.failed (.io e)) else none
  | answers ms capacity owner actions =>
    if ms ≤ elapsed then some (.connected capacity owner actions) else none
  | hangs => none

end Endpoint

/-- A call that waits for a connection to an address. -/
structure Attempt where
  call : Call
  codec : Codec
  protocol : ProtocolId
  dialer : PeerId
  address : Address
  /-- When it began. -/
  since : Nat
  /-- How many milliseconds it may last. -/
  timeout : Option Nat

namespace Attempt

/-- What an attempt comes to by now. A connection that is there counts, however late it is. -/
def outcome? (a : Attempt) (m : Moment) (e : Endpoint) : Option Outcome :=
  match e.outcome? (m.now - a.since) with
  | some o => some o
  | none =>
    if a.timeout.any (· ≤ m.now - a.since) then some (.failed Handshake.lateConnection) else none

/-- The times at which an attempt is to be looked at again. -/
def alarms (a : Attempt) (e : Endpoint) : List Nat :=
  a.call.context.deadline.toList ++ (a.timeout.toList ++ e.takes?.toList).map (a.since + ·)

end Attempt

/-! ## Writing the handshake -/

/-- A call that writes the handshake on its connection, with the pieces that are still to go out. -/
structure Greeting where
  call : Call
  codec : Codec
  unsent : List Bytes

namespace Greeting

def ofAttempt (a : Attempt) : Greeting where
  call := a.call
  codec := a.codec
  unsent := Handshake.pieces a.protocol a.dialer

/-- Ends with an error, and closes the connection. -/
def abandon (g : Greeting) (e : CallError) (l : Link) :
    Progress Greeting (Except Call Exchange) × Link :=
  (.done (.error (g.call.fail e)), l.drop .left)

/-- One step of writing a handshake. What fails here is the opening of the stream, not yet the
request. -/
def step? (m : Moment) (g : Greeting) (l : Link) :
    Option (Progress Greeting (Except Call Exchange) × Link) :=
  match g.call.context.verdict m with
  | some e => some (g.abandon e l)
  | none =>
    match g.unsent with
    | [] => some (.done (.ok (.ofCall g.codec g.call)), l)
    | [] :: rest => some (.more { g with unsent := rest }, l)
    | bs :: rest =>
      match l.write? .left bs with
      | none => none
      | some (.error e, l) => some (g.abandon (.connection g.call.dest (.io e)) l)
      | some (.ok n, l) => some (.more { g with unsent := bs.drop n :: rest }, l)

end Greeting

end PeerCall
