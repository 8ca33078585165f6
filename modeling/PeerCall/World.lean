import PeerCall.Channel
import PeerCall.Client
import PeerCall.Exchange
import PeerCall.Network
import PeerCall.Opening
import PeerCall.Responder

/-! # The world of tasks

Everything that tasks share, and the tasks themselves: calls, responders, acceptors, scripted
peers and timed cancellations. A task acts in steps; a step touches the task, at most one link, and
the network or a channel where the task's turn for that has come. Any task that can step may be the
next. -/

namespace PeerCall

/-! ## Tasks -/

/-- A task that drives one call to its completion. -/
inductive CallTask
  /-- Is about to open a stream. -/
  | dialing (call : Call) (codec : Codec) (host : Host) (protocol : ProtocolId)
  /-- Waits for a connection. -/
  | connecting (a : Attempt)
  /-- Has a connection, and writes the handshake on it. -/
  | greeting (link : Nat) (g : Greeting)
  | exchanging (link : Nat) (x : Exchange)
  /-- Is about to invoke the local server. -/
  | entering (call : Call) (codec : Codec) (peer : PeerId) (site : Option Site)
  | serving (call : Call) (codec : Codec) (v : Serving)
  | delivering (call : Call)

/-- Which of its waits a call's task has come to. To open a stream is one wait. -/
def CallTask.stage : CallTask → Nat
  | dialing .. => 0
  | connecting _ => 0
  | greeting .. => 0
  | entering .. => 1
  | delivering _ => 2
  | exchanging _ x => 3 + x.phase.stage
  | serving _ _ v => 3 + v.work.pauses

/-- What becomes of the streams that arrive in an inbox. -/
inductive Intake
  /-- Those of the protocol are answered by the server; others are given up as failed. -/
  | serve (site : Site) (codec : Codec) (protocol : ProtocolId)
  /-- A script runs on each. -/
  | play (owner : Nat) (actions : List Script.Action)

inductive Task
  | call (channel : Nat) (c : CallTask)
  | respond (owner : Nat) (link : Nat) (r : Responder)
  | accept (inbox : Nat) (intake : Intake)
  | script (owner : Nat) (arrival : Arrival) (s : Script)
  /-- Fires a token after a time. -/
  | cancel (token : Token) (ms : Nat) (wake : Option Nat)
  | ended

/-- A note of an invocation. -/
structure Note where
  /-- The number of the server. -/
  owner : Nat
  invocation : Invocation
  /-- Whether the context was done already. -/
  verdict : Option CallError
  deriving Repr, DecidableEq, Inhabited

/-- All that tasks share. Links, channels and tasks are known by their place. -/
structure World where
  moment : Moment := {}
  links : List Link := []
  network : Network := {}
  /-- What there is at an address for an attempt that begins at a time. Unless other is said, no
  address can be reached. Nothing that happens changes it. -/
  endpoints : Address → Nat → Endpoint := fun _ _ => .fails 0 .unreachable
  channels : List (Channel Call) := []
  tasks : List Task := []
  notes : List Note := []
  /-- How many tokens were made. -/
  tokens : Nat := 0

namespace World

/-! ## Parts -/

/-- Makes a token that nobody else has. -/
def freshToken (w : World) : Token × World := (.root w.tokens, { w with tokens := w.tokens + 1 })

/-- The bytes that a link of the network holds in each direction. -/
def linkCapacity : Nat := 65536

def addLink (w : World) (l : Link) : Nat × World :=
  (w.links.length, { w with links := w.links ++ [l] })

def spawn (w : World) (t : Task) : World := { w with tasks := w.tasks ++ [t] }

def setTask (w : World) (i : Nat) (t : Task) : World := { w with tasks := w.tasks.set i t }

def setLink (w : World) (i : Nat) (l : Link) : World := { w with links := w.links.set i l }

def modifyChannel (w : World) (i : Nat) (f : Channel Call → Channel Call) : World :=
  { w with channels := w.channels.modify i f }

def addChannel (w : World) (capacity senders : Nat) : Nat × World :=
  (w.channels.length, { w with channels := w.channels ++ [Channel.ofCapacity capacity senders] })

def note (w : World) (owner : Nat) (i : Invocation) : World :=
  { w with notes := w.notes ++ [⟨owner, i, i.context.verdict w.moment⟩] }

def fire (w : World) (t : Token) : World := { w with moment := w.moment.fire t }

/-- Gives an inbox and the streams in it up. -/
def closeInbox (w : World) (i : Nat) : World :=
  let (_, left, network) := w.network.close i
  { w with network, links := left.foldl (fun ls a => ls.modify a.link (Link.drop .right)) w.links }

/-! ## Steps -/

/-- Opens a stream for a call, unless the context is done. To an address it only begins to. -/
def stepDialing (w : World) (call : Call) (codec : Codec) (host : Host) (protocol : ProtocolId) :
    CallTask × World :=
  let refused (e : StreamError) : CallTask := .delivering (call.fail (.connection call.dest e))
  match call.context.verdict w.moment with
  | some e => (.delivering (call.fail e), w)
  | none =>
    match host.reach with
    | .dialing book timeout =>
      match book.get? call.dest with
      | none => (refused (.unknownAddress call.dest), w)
      | some address =>
        (.connecting { call, codec, protocol, dialer := host.id, address, since := w.moment.now,
                       timeout }, w)
    | .network =>
      match w.network.dial host.id call.dest protocol w.links.length with
      | .error e => (refused e, w)
      | .ok network =>
        let (link, w) := { w with network }.addLink (.ofCapacity linkCapacity)
        (.exchanging link (.ofCall codec call), w)

/-- Makes a connection for an attempt, at whose far end a script plays. -/
def connect (w : World) (a : Attempt) (capacity owner : Nat) (actions : List Script.Action) :
    Nat × World :=
  let (link, w) := w.addLink (.ofCapacity capacity)
  (link, w.spawn (.script owner ⟨a.protocol, a.dialer, link⟩ { side := .right, actions }))

/-- Looks whether there is a connection, unless the context is done. -/
def stepConnecting? (w : World) (a : Attempt) : Option (CallTask × World) :=
  match a.call.context.verdict w.moment with
  | some e => some (.delivering (a.call.fail e), w)
  | none =>
    match a.outcome? w.moment (w.endpoints a.address a.since) with
    | none => none
    | some (.failed e) => some (.delivering (a.call.fail (.connection a.call.dest e)), w)
    | some (.connected capacity owner actions) =>
      let (link, w) := w.connect a capacity owner actions
      some (.greeting link (.ofAttempt a), w)

/-- Invokes the local server. The call's context is not asked; the server may ask it. -/
def stepEntering (w : World) (call : Call) (codec : Codec) (peer : PeerId)
    (site : Option Site) : CallTask × World :=
  match site with
  | none => (.delivering (call.fail .noServer), w)
  | some site =>
    match call.encodeArgs codec with
    | .error e => (.delivering (call.fail (.encode e)), w)
    | .ok args =>
      let i : Invocation := { context := call.context, peer, service := call.service, args }
      (.serving call codec (.ofInvocation site.server i), w.note site.number i)

/-- The call after the local server returned. A reply that cannot be decoded replaces the server's
error. -/
def settleLocal (call : Call) (codec : Codec) (error : Option CallError) (reply : Option Bytes) :
    Call :=
  let call := error.elim call call.fail
  match reply with
  | some bs => (call.takeReply codec bs).1
  | none => call

/-- One step of a call. Without a task to come after it the call is over. -/
def stepCall? (w : World) (i channel : Nat) : CallTask → Option (Option CallTask × World)
  | .dialing call codec host protocol =>
    let (c, w) := w.stepDialing call codec host protocol
    some (some c, w)
  | .connecting a => (w.stepConnecting? a).map fun (c, w) => (some c, w)
  | .greeting link g =>
    match w.links[link]? with
    | none => none
    | some l =>
      match g.step? w.moment l with
      | none => none
      | some (.more g, l) => some (some (.greeting link g), w.setLink link l)
      | some (.done (.error call), l) => some (some (.delivering call), w.setLink link l)
      | some (.done (.ok x), l) => some (some (.exchanging link x), w.setLink link l)
  | .exchanging link x =>
    match w.links[link]? with
    | none => none
    | some l =>
      match x.step? w.moment l with
      | none => none
      | some (.more x, l) => some (some (.exchanging link x), w.setLink link l)
      | some (.done call, l) => some (some (.delivering call), w.setLink link l)
  | .entering call codec peer site =>
    let (c, w) := w.stepEntering call codec peer site
    some (some c, w)
  | .serving call codec v =>
    match v.step? w.moment with
    | none => none
    | some (.more v) => some (some (.serving call codec v), w)
    | some (.done .crashed) => some (none, w.modifyChannel channel Channel.dropSender)
    | some (.done (.returned error reply)) =>
      some (some (.delivering (settleLocal call codec error reply)), w)
  | .delivering call =>
    match w.channels[channel]? with
    | none => none
    | some ch =>
      match ch.send? i call with
      | none => none
      | some (sent, ch) =>
        some (if sent then none else some (.delivering call),
          { w with channels := w.channels.set channel ch })

def takeIn (w : World) (intake : Intake) (a : Arrival) : World :=
  match intake with
  | .serve site codec protocol =>
    if a.protocol = protocol then
      let (token, w) := w.freshToken
      w.spawn (.respond site.number a.link
        { server := site.server, codec, peer := a.dialer, context := ⟨token, none⟩ })
    else { w with links := w.links.modify a.link (Link.abort .right) }
  | .play owner actions => w.spawn (.script owner a { side := .right, actions })

/-- One step of the task at a place, or `none` if it has to wait or is over. -/
def step? (w : World) (i : Nat) : Option World :=
  match w.tasks[i]? with
  | none => none
  | some .ended => none
  | some (.call channel c) =>
    match w.stepCall? i channel c with
    | none => none
    | some (some c, w) => some (w.setTask i (.call channel c))
    | some (none, w) => some (w.setTask i .ended)
  | some (.respond owner link r) =>
    match w.links[link]? with
    | none => none
    | some l =>
      match r.step? w.moment l with
      | none => none
      | some turn =>
        let w := (w.setLink link turn.link).setTask i (.respond owner link turn.responder)
        some (turn.invoked.elim w (w.note owner))
  | some (.accept inbox intake) =>
    match w.network.receive inbox with
    | (.arrived a, network) => some ({ w with network }.takeIn intake a)
    | (.empty, _) => none
    | (.ended, _) => some (w.setTask i .ended)
    | (.gone, _) => some (w.setTask i .ended)
  | some (.script owner a s) =>
    match w.links[a.link]? with
    | none => none
    | some l =>
      match s.step? w.moment l with
      | none => none
      | some (s, l) => some ((w.setLink a.link l).setTask i (.script owner a s))
  | some (.cancel token ms wake) =>
    match wake with
    | none => some (w.setTask i (.cancel token ms (some (w.moment.now + ms))))
    | some t => if t ≤ w.moment.now then some ((w.fire token).setTask i .ended) else none

/-- The times at which a task that waits is to look again. -/
def alarms (w : World) (i : Nat) : List Nat :=
  match w.tasks[i]? with
  | some (.call _ (.connecting a)) => a.alarms (w.endpoints a.address a.since)
  | some (.call _ (.greeting _ g)) => g.call.context.deadline.toList
  | some (.call _ (.exchanging _ x)) => x.call.context.deadline.toList
  | some (.call _ (.serving _ _ v)) => v.alarms
  | some (.respond _ _ r) => r.alarms
  | some (.script _ _ s) => s.alarms
  | some (.cancel _ _ wake) => wake.toList
  | _ => []

/-- Which of its waits a task has come to. As long as this stays the same, the task waits under the
same alarms and the same token. -/
def stage (w : World) (i : Nat) : Nat :=
  match w.tasks[i]? with
  | some (.call _ c) => c.stage
  | some (.respond _ _ r) => r.stage
  | some (.script _ _ s) => s.actions.length
  | _ => 0

/-! ## Starting calls -/

/-- The task that is to drive a call. -/
def taskOf (client : Client) (call : Call) : Except Misuse CallTask :=
  match client.route call.dest with
  | .error e => .error e
  | .ok .onSelf => .ok (.entering call client.codec client.id client.server)
  | .ok (.toPeer host) => .ok (.dialing call client.codec host client.protocol)

/-- Starts a call that is handed back on a channel. -/
def start (w : World) (client : Client) (call : Call) (channel : Nat) : Except Misuse World :=
  match taskOf client call with
  | .error e => .error e
  | .ok c => .ok ((w.modifyChannel channel Channel.addSender).spawn (.call channel c))

/-- Whether a channel has a permit that nobody holds. -/
def hasCapacity (w : World) (channel : Nat) : Bool := w.channels[channel]?.any (·.free ≠ 0)

/-- Starts a call that is handed back on the caller's channel. -/
def goWith (w : World) (client : Client) (call : Call) (channel : Nat) : Except Misuse World :=
  if w.hasCapacity channel then w.start client call channel else .error .noCapacity

/-- Starts a call that is handed back on a channel of its own, from which nobody else can send. -/
def go (w : World) (client : Client) (call : Call) : Except Misuse (Nat × World) :=
  let (channel, w) := w.addChannel 1 0
  match w.goWith client call channel with
  | .error e => .error e
  | .ok w => .ok (channel, w)

/-- Checks that all destinations have a route. -/
def checkRoutes (client : Client) (dests : List PeerId) : Except Misuse Unit :=
  match dests with
  | [] => .ok ()
  | d :: ds =>
    match client.route d with
    | .error e => .error e
    | .ok _ => checkRoutes client ds

/-- Starts calls one after the other, each on its channel. -/
def startAll (w : World) (client : Client) : List (Call × Nat) → Except Misuse World
  | [] => .ok w
  | (call, channel) :: rest =>
    match w.start client call channel with
    | .error e => .error e
    | .ok w => startAll w client rest

/-- What calls of one method with one list of arguments on several peers have in common. -/
structure Fan where
  service : ServiceId
  args : Datum
  replyType : Schema

/-- The call of a fan with a context, a destination and an initial reply. -/
def Fan.call (f : Fan) (context : Context) (dest : PeerId) (reply : f.replyType.Carrier) : Call :=
  { context, dest, service := f.service, args := f.args, replyType := f.replyType, reply }

/-- Starts the same call on several peers, each handed back on its own of the caller's channels.
Everything is checked before anything is started. -/
def multiGo (w : World) (client : Client) (f : Fan) (contexts : List Context) (dests : List PeerId)
    (replies : List f.replyType.Carrier) (channels : List Nat) : Except Misuse World :=
  if contexts.length ≠ dests.length ∨ dests.length ≠ replies.length ∨
      replies.length ≠ channels.length then .error .startLengths
  else if channels.any (!w.hasCapacity ·) then .error .noCapacity
  else
    match checkRoutes client dests with
    | .error e => .error e
    | .ok _ =>
      let calls := ((contexts.zip dests).zip replies).map fun ((c, d), r) => f.call c d r
      w.startAll client (calls.zip channels)

/-- Starts the same call on several peers, each on a channel of its own. Everything is checked
before anything is started. The replies start blank; those of the caller are kept until the calls
are done. -/
def multiCall (w : World) (client : Client) (f : Fan) (contexts : List Context)
    (dests : List PeerId) (replies : List f.replyType.Carrier) : Except Misuse (List Nat × World) :=
  if contexts.length ≠ dests.length ∨ dests.length ≠ replies.length then .error .callLengths
  else
    match checkRoutes client dests with
    | .error e => .error e
    | .ok _ =>
      let first := w.channels.length
      let channels := (List.range dests.length).map (first + ·)
      let w := { w with
        channels := w.channels ++ List.replicate dests.length (Channel.ofCapacity 1 0) }
      match w.startAll client (((contexts.zip dests).map fun (c, d) =>
          f.call c d f.replyType.blank).zip channels) with
      | .error e => .error e
      | .ok w => .ok (channels, w)

/-- What a call that was waited for comes to: its error, and what the caller's reply is afterwards.
If the channel ended without the call, its task was lost. -/
def concluded (t : Schema) (untouched : t.Carrier) : Receipt Call → Option CallError × Datum
  | .received c => (c.error, if c.replied then c.replySlot else ⟨t, untouched⟩)
  | _ => (some .aborted, ⟨t, untouched⟩)

end World

end PeerCall
