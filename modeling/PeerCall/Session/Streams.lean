import PeerCall.Codec
import PeerCall.Frame
import PeerCall.Network
import PeerCall.Transfer

/-! # Sessions with streams

A list of commands on named hosts and named ends of links, answered one by one. An operation that
cannot be finished goes on waiting, and is answered later, together with the command that let it
finish. After each command everything runs until nothing can. -/

namespace PeerCall.Session.Streams

open PeerCall

/-- Bytes to be sent: spelled out, or this many zeros. -/
inductive Payload
  | bytes (bs : Bytes)
  | zeros (n : Nat)

namespace Payload

def size : Payload → Nat
  | bytes bs => bs.length
  | zeros n => n

def toBytes : Payload → Bytes
  | bytes bs => bs
  | zeros n => List.replicate n 0

/-- Writes the payload as a frame. One that is too large is refused without being spelled out. -/
def frame (p : Payload) : List Chore :=
  if p.size > Frame.maxSize then [.fail (.tooLarge p.size)] else Chore.frame p.toBytes

end Payload

/-- Something to be done with sessions of streams. -/
inductive Command
  | pair (a b : String) (capacity : Nat)
  | host (id : PeerId) (name : String)
  | dial (source : String) (target : PeerId) (protocol : ProtocolId) (name : String)
  | accept (host name : String)
  | dropInbox (host : String)
  | dropHost (host : String)
  | disconnect (id : PeerId)
  | frame (name : String)
  | transfer (name : String) (t : Transfer)
  | encode (name : String) (d : Datum)
  | decode (name : String) (t : Schema)
  | writeFrame (name : String) (p : Payload)
  | readFrame (name : String)
  | flush (name : String)
  | shutdown (name : String)
  | close (name : String)
  | reset (name : String)
  | drop (name : String)

/-- The end on which a command starts an operation. -/
def Command.endpoint? : Command → Option String
  | transfer name _ => some name
  | encode name _ => some name
  | decode name _ => some name
  | writeFrame name _ => some name
  | readFrame name => some name
  | flush name => some name
  | close name => some name
  | _ => none

inductive Answer
  | ok
  | host (id : PeerId)
  | incoming (protocol : ProtocolId) (dialer : PeerId)
  | empty
  | closed
  | gone
  | busy
  | pending
  | found (there : Bool)
  | moved (r : Transfer.Result)
  | bytes (bs : Bytes)
  | value (d : Datum)
  | ioError (e : IoError)
  | streamError (e : StreamError)
  | misuse (text : String)
  /-- The command does not fit the end it names. -/
  | unfit

/-- What a frame that is being read is for. -/
inductive Purpose
  | payload
  | value (t : Schema)

/-- An operation under way on a framed end. -/
inductive FrameWork
  | read (r : FrameReader) (purpose : Purpose)
  | write (chores : List Chore) (closing : Bool)

/-- An end of a link as its user has it. -/
inductive Grip
  | raw (work : Option Transfer)
  | framed (unread : Bytes) (buffer : SendBuffer) (work : Option FrameWork)
  | gone

def Grip.isBusy : Grip → Bool
  | raw work => work.isSome
  | framed _ _ work => work.isSome
  | gone => false

/-- A named end of a link. -/
structure Endpoint where
  name : String
  link : Nat
  side : Side
  grip : Grip := .raw none

/-- Everything that exists between two commands. -/
structure State where
  links : List Link := []
  endpoints : List Endpoint := []
  network : Network := {}
  hosts : Directory String PeerId := {}
  inboxes : Directory String Nat := {}

/-! ## Running -/

/-- The answer to a frame that was read, with a codec for the value in it. -/
def Purpose.answer (codec : Codec) : Purpose → Except StreamError Bytes → Answer
  | _, .error e => .streamError e
  | payload, .ok bs => .bytes bs
  | value t, .ok bs =>
    match codec.decode t bs with
    | .ok v => .value ⟨t, v⟩
    | .error e => .streamError e

/-- The answer to a plain operation. -/
def transferAnswer : Except IoError Transfer.Result → Answer
  | .ok .written => .ok
  | .ok r => .moved r
  | .error e => .ioError e

/-- One step of what an end has under way, with the answer if it is done then. -/
def Endpoint.step? (e : Endpoint) (l : Link) : Option (Endpoint × Link × Option Answer) :=
  match e.grip with
  | .raw (some t) =>
    match t.step? e.side l with
    | none => none
    | some (.more t, l) => some ({ e with grip := .raw (some t) }, l, none)
    | some (.done r, l) => some ({ e with grip := .raw none }, l, some (transferAnswer r))
  | .framed unread buffer (some (.read r purpose)) =>
    match r.step? e.side unread l with
    | none => none
    | some (.more r, unread, l) =>
      some ({ e with grip := .framed unread buffer (some (.read r purpose)) }, l, none)
    | some (.done result, unread, l) =>
      some ({ e with grip := .framed unread buffer none }, l, some (purpose.answer .standard result))
  | .framed unread buffer (some (.write chores closing)) =>
    match buffer.step? e.side chores l with
    | none => none
    | some (.more chores, buffer, l) =>
      some ({ e with grip := .framed unread buffer (some (.write chores closing)) }, l, none)
    | some (.done result, buffer, l) =>
      let answer := match result with
        | .ok _ => .ok
        | .error e => .streamError e
      if closing then some ({ e with grip := .gone }, l.finish e.side, some answer)
      else some ({ e with grip := .framed unread buffer none }, l, some answer)
  | _ => none

/-- Whether an end that waits is to look again. -/
def Endpoint.stirs (e : Endpoint) (l : Link) : Bool :=
  match e.grip with
  | .raw (some t) =>
    if t.reads then (l.incoming e.side).stirsReader else (l.outgoing e.side).stirsWriter
  | .framed _ _ (some (.read _ _)) => (l.incoming e.side).stirsReader
  | .framed _ _ (some (.write _ _)) => (l.outgoing e.side).stirsWriter
  | _ => false

/-- Steps of one end until it is done or has to wait, at most `fuel` of them. -/
def Endpoint.run : (fuel : Nat) → Endpoint → Link → Endpoint × Link × Option Answer
  | 0, e, l => (e, l, none)
  | fuel + 1, e, l =>
    match e.step? l with
    | none => (e, l, none)
    | some (e, l, some a) => (e, l, some a)
    | some (e, l, none) => run fuel e l

/-- More steps than any session takes. -/
def patience : Nat := 1000000000000

namespace State

def linkOf (st : State) (e : Endpoint) : Link := st.links[e.link]?.getD (.ofCapacity 0)

/-- Puts an end and its link in place. -/
def update (st : State) (e : Endpoint) (l : Link) : State :=
  { st with
    links := st.links.set e.link l
    endpoints := st.endpoints.map fun o => if o.name = e.name then e else o }

def runEndpoint (st : State) (e : Endpoint) : State × Option Answer :=
  let (e, l, a) := e.run patience (st.linkOf e)
  (st.update e l, a)

/-- Runs the ends that were stirred until none is, with the answers of those that get done. -/
def settle : (fuel : Nat) → State → List (String × Answer) → State × List (String × Answer)
  | 0, st, late => (st, late)
  | fuel + 1, st, late =>
    match st.endpoints.find? fun e => e.stirs (st.linkOf e) with
    | none => (st, late)
    | some e =>
      match st.runEndpoint e with
      | (st, some a) => settle fuel st (late ++ [(e.name, a)])
      | (st, none) => settle fuel st late

/-- The end of this name. -/
def endpoint? (st : State) (name : String) : Option Endpoint :=
  st.endpoints.find? (·.name == name)

/-- Gives the end of a link up. -/
def dropEnd (st : State) (link : Nat) (s : Side) : State :=
  { st with links := st.links.modify link (Link.drop s) }

/-- Adds an end. Another of its name is given up. -/
def place (st : State) (e : Endpoint) : State :=
  match st.endpoint? e.name with
  | none => { st with endpoints := st.endpoints ++ [e] }
  | some old =>
    let st := match old.grip with
      | .gone => st
      | _ => st.dropEnd old.link old.side
    { st with endpoints := st.endpoints.filter (·.name ≠ e.name) ++ [e] }

/-- Gives an inbox and the streams in it up. -/
def closeInbox (st : State) (i : Nat) : State :=
  let (_, left, network) := st.network.close i
  left.foldl (fun st a => st.dropEnd a.link .right) { st with network }

/-- Starts an operation on an end and runs it. -/
def start (st : State) (e : Endpoint) (grip : Grip) : State × Answer :=
  match st.runEndpoint { e with grip } with
  | (st, some a) => (st, a)
  | (st, none) => (st, .pending)

/-- A command on an end that is neither gone nor busy. -/
def act (st : State) (e : Endpoint) (c : Command) : State × Answer :=
  let l := st.linkOf e
  let put (grip : Grip) (l : Link) : State × Answer := (st.update { e with grip } l, .ok)
  match c, e.grip with
  | .frame _, .raw _ => put (.framed [] {} none) l
  | .transfer _ t, .raw _ => st.start e (.raw (some t))
  | .flush _, .raw _ => (st, .ok)
  | .shutdown _, .raw work => put (.raw work) (l.shutdown e.side)
  | .reset _, .raw work => put (.raw work) (l.reset e.side)
  | .drop _, _ => put .gone (l.drop e.side)
  | .encode _ d, .framed unread buffer _ =>
    st.start e (.framed unread buffer
      (some (.write (Chore.encoded (Codec.standard.encode d.schema d.value)) false)))
  | .decode _ t, .framed unread buffer _ =>
    st.start e (.framed unread buffer (some (.read .start (.value t))))
  | .writeFrame _ p, .framed unread buffer _ =>
    st.start e (.framed unread buffer (some (.write p.frame false)))
  | .readFrame _, .framed unread buffer _ =>
    st.start e (.framed unread buffer (some (.read .start .payload)))
  | .flush _, .framed unread buffer _ =>
    st.start e (.framed unread buffer (some (.write [.flush] false)))
  | .close _, .framed unread buffer _ =>
    st.start e (.framed unread buffer (some (.write [.flush] true)))
  | .reset _, .framed _ _ _ => put .gone (l.abort e.side)
  | _, _ => (st, .unfit)

/-- A command on the end of this name. An end that is gone can be dropped, and nothing else. -/
def actOn (st : State) (name : String) (c : Command) : State × Answer :=
  match st.endpoint? name, c with
  | none, .drop _ => (st, .ok)
  | none, _ => (st, .gone)
  | some { grip := .gone, .. }, .drop _ => (st, .ok)
  | some { grip := .gone, .. }, _ => (st, .gone)
  | some e, _ => if e.grip.isBusy then (st, .busy) else st.act e c

def dial (st : State) (source target : PeerId) (protocol : ProtocolId) (name : String) :
    State × Answer :=
  match st.network.dial source target protocol st.links.length with
  | .error e => (st, .streamError e)
  | .ok network =>
    let link := st.links.length
    let st := { st with network, links := st.links ++ [Link.ofCapacity 65536] }
    (st.place { name, link, side := .left }, .ok)

/-- A command, as far as it goes before others run. -/
def execute (st : State) (c : Command) : State × Answer :=
  match c with
  | .pair a b capacity =>
    if capacity = 0 then (st, .misuse Link.noCapacity)
    else
      let link := st.links.length
      let st := { st with links := st.links ++ [Link.ofCapacity capacity] }
      ((st.place { name := a, link, side := .left }).place { name := b, link, side := .right }, .ok)
  | .host id name =>
    let (i, network) := st.network.join id
    let st := match st.inboxes.get? name with
      | some old => { st with network }.closeInbox old
      | none => { st with network }
    ({ st with hosts := st.hosts.insert name id, inboxes := st.inboxes.insert name i }, .host id)
  | .dial source target protocol name =>
    match st.hosts.get? source with
    | none => (st, .gone)
    | some id => st.dial id target protocol name
  | .accept host name =>
    match st.inboxes.get? host with
    | none => (st, .gone)
    | some i =>
      let (reception, network) := st.network.receive i
      let st := { st with network }
      match reception with
      | .arrived a =>
        (st.place { name, link := a.link, side := .right }, .incoming a.protocol a.dialer)
      | .empty => (st, .empty)
      | .ended => (st, .closed)
      | .gone => (st, .gone)
  | .dropInbox host =>
    match st.inboxes.get? host with
    | none => (st, .found false)
    | some i =>
      ({ st.closeInbox i with inboxes := st.inboxes.erase host }, .found true)
  | .dropHost host =>
    ({ st with hosts := st.hosts.erase host }, .found (st.hosts.get? host).isSome)
  | .disconnect id => ({ st with network := st.network.leave id }, .ok)
  | .frame s => st.actOn s c
  | .transfer s _ => st.actOn s c
  | .encode s _ => st.actOn s c
  | .decode s _ => st.actOn s c
  | .writeFrame s _ => st.actOn s c
  | .readFrame s => st.actOn s c
  | .flush s => st.actOn s c
  | .shutdown s => st.actOn s c
  | .close s => st.actOn s c
  | .reset s => st.actOn s c
  | .drop s => st.actOn s c

/-- A command with all that follows from it. What it started itself may get done in the course of
that. -/
def command (st : State) (c : Command) : State × Answer × List (String × Answer) :=
  let (st, a) := st.execute c
  let (st, late) := settle patience st []
  match a, c.endpoint? with
  | .pending, some name =>
    (st, (late.lookup name).getD .pending, late.filter (·.1 ≠ name))
  | _, _ => (st, a, late)

end State

/-- The answers to a list of commands, each with the late answers that came with it. Misuse ends the
session and is all that is left of it. -/
def answers (cs : List Command) : Except String (List (Answer × List (String × Answer))) :=
  go {} cs []
where
  /-- The answers from a state on, behind those already given, which come last one first. -/
  go (st : State) (cs : List Command) (before : List (Answer × List (String × Answer))) :
      Except String (List (Answer × List (String × Answer))) :=
    match cs with
    | [] => .ok before.reverse
    | c :: cs =>
      match st.command c with
      | (_, .misuse text, _) => .error text
      | (st, a, late) => go st cs ((a, late) :: before)

end PeerCall.Session.Streams
