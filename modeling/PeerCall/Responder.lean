import PeerCall.Codec
import PeerCall.Frame
import PeerCall.Server

/-! # Responders

The answering half of an exchange: read the frames of the service and the arguments, invoke the
server, write the frames of the response and the reply. The reply frame is always written; it is
empty where the server gave no reply. -/

namespace PeerCall

inductive Responder.Phase
  | service (r : FrameReader)
  | args (service : ServiceId) (r : FrameReader)
  | serving (v : Serving)
  | responding (chores : List Chore)
  | ended (result : Except CallError Unit)
  | crashed

/-- The task that answers on the right end of a link. -/
structure Responder where
  server : Server
  codec : Codec
  /-- Who dialed. -/
  peer : PeerId
  context : Context
  unread : Bytes := []
  buffer : SendBuffer := {}
  phase : Responder.Phase := .service .start

/-- What a responder's step leaves behind: the responder, the link, and the invocation that began in
it. -/
structure Responder.Turn where
  responder : Responder
  link : Link
  invoked : Option Invocation := none

namespace Responder

/-- The text of the response. It is empty for success. -/
def responseText : Option CallError → String
  | none => ""
  | some e => e.message

/-- Writes response and reply, and makes them go out. -/
def response (codec : Codec) (error : Option CallError) (reply : Option Bytes) : List Chore :=
  Chore.encoded (codec.encode .response ⟨responseText error⟩) ++ Chore.frame (reply.getD []) ++
    [.flush]

/-- Ends with a failure that the dialer learns of. -/
def fail (r : Responder) (e : CallError) (l : Link) : Turn :=
  { responder := { r with phase := .ended (.error e) }, link := l.abort .right }

/-- Goes on in another phase. -/
def become (r : Responder) (phase : Phase) (l : Link) : Turn :=
  { responder := { r with phase }, link := l }

/-- One step of a responder. All that was flushed is out when the response is written, so closing
the stream never waits. -/
def step? (m : Moment) (r : Responder) (l : Link) : Option Turn :=
  match r.phase with
  | .service reader =>
    match reader.step? .right r.unread l with
    | none => none
    | some (.more reader, unread, l) => some ({ r with unread }.become (.service reader) l)
    | some (.done (.error e), _, l) => some (r.fail (.decode e) l)
    | some (.done (.ok bs), unread, l) =>
      match r.codec.decode .serviceId bs with
      | .error e => some (r.fail (.decode e) l)
      | .ok service => some ({ r with unread }.become (.args service .start) l)
  | .args service reader =>
    match reader.step? .right r.unread l with
    | none => none
    | some (.more reader, unread, l) => some ({ r with unread }.become (.args service reader) l)
    | some (.done (.error e), _, l) => some (r.fail (.decode e) l)
    | some (.done (.ok args), unread, l) =>
      let i : Invocation := { context := r.context, peer := r.peer, service, args }
      let turn := { r with unread }.become (.serving (.ofInvocation r.server i)) l
      some { turn with invoked := some i }
  | .serving v =>
    match v.step? m with
    | none => none
    | some (.more v) => some (r.become (.serving v) l)
    | some (.done .crashed) => some (r.become .crashed (l.drop .right))
    | some (.done (.returned error reply)) =>
      some (r.become (.responding (response r.codec error reply)) l)
  | .responding chores =>
    match r.buffer.step? .right chores l with
    | none => none
    | some (.more chores, buffer, l) => some ({ r with buffer }.become (.responding chores) l)
    | some (.done (.error e), _, l) => some (r.fail (.encode e) l)
    | some (.done (.ok _), buffer, l) =>
      some ({ r with buffer }.become (.ended (.ok ())) (l.finish .right))
  | .ended _ => none
  | .crashed => none

/-- Which of its waits a responder has come to. -/
def stage (r : Responder) : Nat :=
  match r.phase with
  | .service _ => 0
  | .args _ _ => 1
  | .responding _ => 2
  | .ended _ => 3
  | .crashed => 3
  | .serving v => 4 + v.work.pauses

/-- The times at which a responder that waits is to look again. -/
def alarms (r : Responder) : List Nat :=
  match r.phase with
  | .serving v => v.alarms
  | _ => []

end Responder

end PeerCall
