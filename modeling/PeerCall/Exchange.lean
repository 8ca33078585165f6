import PeerCall.Call
import PeerCall.Frame

/-! # Exchanges

The calling half of an exchange over a stream that was opened for it: send the frames of the
service and the arguments, read the frame of the response and then that of the reply. At each step
the call's context is asked first. -/

namespace PeerCall

inductive Exchange.Phase
  | sending (chores : List Chore)
  | header (r : FrameReader)
  | reply (r : FrameReader)
  deriving Repr, DecidableEq, Inhabited

/-- Which of the three a phase is. -/
def Exchange.Phase.stage : Exchange.Phase → Nat
  | sending _ => 0
  | header _ => 1
  | reply _ => 2

/-- A call on the left end of a link. -/
structure Exchange where
  call : Call
  codec : Codec
  unread : Bytes := []
  buffer : SendBuffer := {}
  phase : Exchange.Phase

namespace Exchange

/-- Writes service and arguments, and makes them go out. -/
def request (codec : Codec) (c : Call) : List Chore :=
  Chore.encoded (codec.encode .serviceId c.service) ++ Chore.encoded (c.encodeArgs codec) ++
    [.flush]

def ofCall (codec : Codec) (call : Call) : Exchange :=
  { call, codec, phase := .sending (request codec call) }

/-- Ends with an error; the peer learns of a failure. -/
def abort (x : Exchange) (e : CallError) (l : Link) : Progress Exchange Call × Link :=
  (.done (x.call.fail e), l.abort .left)

/-- Takes the response. An error in it is recorded; the reply frame follows all the same. -/
def takeResponse (x : Exchange) (r : Response) : Exchange :=
  { x with
    call := if r.error.isEmpty then x.call else x.call.fail (.remote r.error)
    phase := .reply .start }

/-- Takes the reply frame. An empty one means that there is no reply. After a reply that cannot be
decoded the stream is not fit to be closed. -/
def takeReply (x : Exchange) (bs : Bytes) (l : Link) : Progress Exchange Call × Link :=
  if bs.isEmpty then (.done x.call, l.finish .left)
  else
    match x.call.takeReply x.codec bs with
    | (call, true) => (.done call, l.finish .left)
    | (call, false) => (.done call, l.abort .left)

/-- One step of an exchange. Everything was flushed before the response is read, so closing the
stream never waits. A stream that ends where the reply would begin has no reply. -/
def step? (m : Moment) (x : Exchange) (l : Link) : Option (Progress Exchange Call × Link) :=
  match x.call.context.verdict m with
  | some e => some (x.abort e l)
  | none =>
    match x.phase with
    | .sending chores =>
      match x.buffer.step? .left chores l with
      | none => none
      | some (.more chores, buffer, l) =>
        some (.more { x with buffer, phase := .sending chores }, l)
      | some (.done (.error e), _, l) => some (x.abort (.encode e) l)
      | some (.done (.ok _), buffer, l) =>
        some (.more { x with buffer, phase := .header .start }, l)
    | .header r =>
      match r.step? .left x.unread l with
      | none => none
      | some (.more r, unread, l) => some (.more { x with unread, phase := .header r }, l)
      | some (.done (.error e), _, l) => some (x.abort (.decode e) l)
      | some (.done (.ok bs), unread, l) =>
        match x.codec.decode .response bs with
        | .error e => some (x.abort (.decode e) l)
        | .ok response => some (.more ({ x with unread }.takeResponse response), l)
    | .reply r =>
      match r.step? .left x.unread l with
      | none => none
      | some (.more r, unread, l) => some (.more { x with unread, phase := .reply r }, l)
      | some (.done (.error e), _, l) =>
        some (if e.isClosed then (.done x.call, l.finish .left) else x.abort (.decode e) l)
      | some (.done (.ok bs), _, l) => some (x.takeReply bs l)

end Exchange

end PeerCall
