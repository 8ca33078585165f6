import PeerCall.Client
import PeerCall.Frame
import PeerCall.Handshake
import PeerCall.Transfer

/-! # Sessions with addresses

A connection that is accepted and its handshake read, a connection that is dialed, and the address
book of a host. -/

namespace PeerCall.Session.Sockets

open PeerCall

/-- Whether addresses can be reached. -/
inductive Connectivity
  | online
  | offline
  deriving Repr, DecidableEq, Inhabited

/-- More steps than any connection takes. -/
def patience : Nat := 1000000000000

/-! ## Accepting -/

/-- A dialer who sends some bytes and then closes its side or keeps it open, and what the accepting
side does. -/
structure Offer where
  protocol : ProtocolId
  sent : Bytes
  closes : Bool
  timeout : Nat := Handshake.standardTimeout
  /-- How many bytes are read after the handshake where the dialer keeps its side open. -/
  reads : Nat := 0
  /-- Whether the stream is given up as failed in the end. -/
  resets : Bool := false

/-- What comes of an offer. -/
structure Meeting where
  result : Except StreamError (PeerId × Bytes)
  /-- Whether the dialer finds the connection reset, and not ended. -/
  dialerReset : Bool

/-- Runs a plain operation to its end. -/
def transfer (s : Side) : (fuel : Nat) → Transfer → Link → Bytes × Link
  | 0, _, l => ([], l)
  | fuel + 1, t, l =>
    match t.step? s l with
    | none => ([], l)
    | some (.more t, l) => transfer s fuel t l
    | some (.done (.ok (.read bs)), l) => (bs, l)
    | some (.done (.ok (.drained bs _)), l) => (bs, l)
    | some (.done _, l) => ([], l)

/-- Reads a handshake to its end. Where nothing more comes, its time runs out. -/
def handshake : (fuel : Nat) → Handshake → Link → Except StreamError PeerId × Link
  | 0, _, l => (.error Handshake.lateDialer, l)
  | fuel + 1, h, l =>
    match h.step? { now := 0 } .right l <|> h.step? { now := h.deadline } .right l with
    | none => (.error Handshake.lateDialer, l)
    | some (.more h, l) => handshake fuel h l
    | some (.done r, l) => (r, l)

/-- Whether the dialer finds the connection reset. -/
def findsReset (l : Link) : Bool :=
  match l.read? .left 1 with
  | some (.error _, _) => true
  | _ => false

/-- Lets a dialer and an accepting side meet. -/
def meet (c : Connectivity) (o : Offer) : Except IoError Meeting :=
  match c with
  | .offline => .error .unreachable
  | .online =>
    let (_, l) := transfer .left patience (.write o.sent) (.ofCapacity (o.sent.length + 1))
    let l := if o.closes then l.shutdown .left else l
    match handshake patience { expected := o.protocol, deadline := o.timeout } l with
    | (.error e, l) => .ok ⟨.error e, findsReset l⟩
    | (.ok peer, l) =>
      let (rest, l) :=
        transfer .right patience (if o.closes then .readToEnd [] else .readExact o.reads []) l
      .ok ⟨.ok (peer, rest), findsReset (if o.resets then l.abort .right else l.drop .right)⟩

/-! ## Dialing -/

/-- Does all chores on the left end of a link that has room for them. -/
def send : (fuel : Nat) → SendBuffer → List Chore → Link → Link
  | 0, _, _, l => l
  | fuel + 1, b, cs, l =>
    match b.step? .left cs l with
    | some (.more cs, b, l) => send fuel b cs l
    | some (.done _, _, l) => l
    | none => l

/-- All bytes that a peer receives from a dialer who writes some frames, and then closes the stream
or lets it go with what has not gone out. -/
def dial (c : Connectivity) (protocol : ProtocolId) (id : PeerId) (frames : List Bytes)
    (closes : Bool) : Except StreamError Bytes :=
  match c with
  | .offline => .error (.io .unreachable)
  | .online =>
    let greeting := Handshake.greeting protocol id
    let chores := frames.flatMap Chore.frame ++ if closes then [.flush] else []
    let size := greeting.length + (frames.flatMap Frame.bytes).length + 1
    let (_, l) := transfer .left patience (.write greeting) (.ofCapacity size)
    .ok ((send patience {} chores l).outgoing .left).held

/-! ## Address books -/

/-- Something to be done with a host that dials addresses. -/
inductive Command
  | id
  | add (peer : PeerId) (address : Address)
  | remove (peer : PeerId)
  | get (peer : PeerId)
  /-- Asks whether a stream to the peer could be tried. -/
  | dial (peer : PeerId)
  deriving Repr, DecidableEq, Inhabited

inductive Answer
  | ok
  | id (p : PeerId)
  | address (a : Option Address)
  | known
  | refused (e : StreamError)
  deriving Repr, DecidableEq, Inhabited

/-- A command on the address book of a host. -/
def execute (id : PeerId) (b : AddressBook) : Command → AddressBook × Answer
  | .id => (b, .id id)
  | .add p a => (b.insert p a, .ok)
  | .remove p => (b.erase p, .address (b.get? p))
  | .get p => (b, .address (b.get? p))
  | .dial p =>
    match b.get? p with
    | some _ => (b, .known)
    | none => (b, .refused (.unknownAddress p))

/-- The answers to a list of commands. -/
def answers (id : PeerId) (b : AddressBook) : List Command → List Answer
  | [] => []
  | c :: cs =>
    let (b, a) := execute id b c
    a :: answers id b cs

end PeerCall.Session.Sockets
