import PeerCall.Address
import PeerCall.Call
import PeerCall.Directory
import PeerCall.Server

/-! # Clients

Who calls: with which identity, under which protocol, and with which server for calls to itself. A
call to the empty identity or to the client's own is local, every other is remote. Misuse is found
before anything is started. -/

namespace PeerCall

/-- The addresses at which peers can be dialed. -/
abbrev AddressBook := Directory PeerId Address

/-- How a host reaches others. -/
inductive Reach
  /-- Through the network inside this process. -/
  | network
  /-- By dialing addresses. Connecting may take so many milliseconds, or any time. -/
  | dialing (book : AddressBook) (timeout : Option Nat)
  deriving Repr, DecidableEq, Inhabited

/-- A host: its identity, and how it reaches others. -/
structure Host where
  id : PeerId
  reach : Reach
  deriving Repr, DecidableEq, Inhabited

/-- A server, and the number under which its invocations are noted. -/
structure Site where
  number : Nat
  server : Server

/-- What performs calls. -/
structure Client where
  host : Option Host
  protocol : ProtocolId := .standard
  server : Option Site := none
  codec : Codec := .standard

inductive Misuse
  | noHost
  | noProtocol
  | noCapacity
  /-- The lists of several calls differ in length. -/
  | callLengths
  /-- The lists of several calls and their channels differ in length. -/
  | startLengths
  deriving Repr, DecidableEq, Inhabited

def Misuse.message : Misuse → String
  | noHost => "no host set: cannot perform remote call"
  | noProtocol => "no protocol set: cannot perform remote call"
  | noCapacity => "done channel has no capacity"
  | callLengths => "ctxs, dests and replies must match in length"
  | startLengths => "ctxs, dests, replies and dones must match in length"

inductive Route
  | onSelf
  | toPeer (host : Host)
  deriving Repr, DecidableEq, Inhabited

namespace Client

/-- The identity that a client calls from, empty without a host. -/
def id (c : Client) : PeerId :=
  match c.host with
  | some h => h.id
  | none => .here

/-- Whether a destination is the client itself. -/
def isSelf (c : Client) (dest : PeerId) : Bool :=
  dest.isHere || c.host.any (·.id == dest)

/-- Decides where a call to a destination runs. -/
def route (c : Client) (dest : PeerId) : Except Misuse Route :=
  if c.isSelf dest then .ok .onSelf
  else
    match c.host with
    | none => .error .noHost
    | some h => if c.protocol.isEmpty then .error .noProtocol else .ok (.toPeer h)

end Client

end PeerCall
