import PeerCall.Directory
import PeerCall.Error

/-! # The network

Peers that reach each other inside one process. Joining under an identity opens an inbox and makes
it the one that streams to this identity go to; leaving makes the identity unknown. Inboxes are
told apart by when they were opened, so one that was replaced still yields what it holds. -/

namespace PeerCall

/-- A stream that arrived: its protocol, who dialed, and the link whose right end it is. -/
structure Arrival where
  protocol : ProtocolId
  dialer : PeerId
  link : Nat
  deriving Repr, DecidableEq, Inhabited

/-- Streams that wait to be accepted, first come first. -/
structure Inbox where
  queue : List Arrival := []
  /-- Whether somebody may still accept from it. -/
  listening : Bool := true
  deriving Repr, DecidableEq, Inhabited

/-- All inboxes in the order of their opening, and the current one of each identity. -/
structure Network where
  inboxes : List Inbox := []
  members : Directory PeerId Nat := {}
  deriving Repr, DecidableEq, Inhabited

/-- What asking an inbox for the next stream brings. -/
inductive Reception
  | arrived (a : Arrival)
  /-- Nothing yet. -/
  | empty
  /-- Nothing ever again. -/
  | ended
  /-- The inbox was given up. -/
  | gone
  deriving Repr, DecidableEq, Inhabited

namespace Network

def inbox? (n : Network) (p : PeerId) : Option Nat := n.members.get? p

/-- Opens an inbox under an identity. Another that was there is replaced. -/
def join (p : PeerId) (n : Network) : Nat × Network :=
  (n.inboxes.length,
    { inboxes := n.inboxes ++ [{}]
      members := n.members.insert p n.inboxes.length })

/-- Makes an identity unknown. -/
def leave (p : PeerId) (n : Network) : Network :=
  { n with members := n.members.erase p }

theorem inbox?_join (n : Network) (p q : PeerId) :
    (n.join p).2.inbox? q = if q = p then some (n.join p).1 else n.inbox? q :=
  Directory.get?_insert ..

theorem inbox?_leave (n : Network) (p q : PeerId) :
    (n.leave p).inbox? q = if q = p then none else n.inbox? q :=
  Directory.get?_erase ..

/-- Hands the right end of a link to a peer. -/
def dial (dialer peer : PeerId) (protocol : ProtocolId) (link : Nat) (n : Network) :
    Except StreamError Network :=
  match n.inbox? peer with
  | none => .error (.unknownPeer peer)
  | some i =>
    match n.inboxes[i]? with
    | none => .error (.notAccepting peer)
    | some inbox =>
      if inbox.listening then
        let inbox := { inbox with queue := inbox.queue ++ [⟨protocol, dialer, link⟩] }
        .ok { n with inboxes := n.inboxes.set i inbox }
      else .error (.notAccepting peer)

/-- Whether streams may still come into an inbox. -/
def isCurrent (n : Network) (i : Nat) : Bool := n.members.entries.any (·.2 == i)

/-- Accepts the next stream of an inbox. -/
def receive (i : Nat) (n : Network) : Reception × Network :=
  match n.inboxes[i]? with
  | none => (.gone, n)
  | some inbox =>
    if !inbox.listening then (.gone, n)
    else
      match inbox.queue with
      | a :: rest =>
        (.arrived a, { n with inboxes := n.inboxes.set i { inbox with queue := rest } })
      | [] => (if n.isCurrent i then .empty else .ended, n)

/-- Gives an inbox up. Hands back the streams that nobody will accept any more, and whether there
was an inbox to give up. -/
def close (i : Nat) (n : Network) : Bool × List Arrival × Network :=
  match n.inboxes[i]? with
  | none => (false, [], n)
  | some inbox =>
    (inbox.listening, inbox.queue, { n with inboxes := n.inboxes.set i ⟨[], false⟩ })

end Network

end PeerCall
