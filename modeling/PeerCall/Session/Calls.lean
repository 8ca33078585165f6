import PeerCall.Rules
import PeerCall.Schedule

/-! # Sessions with calls

A list of commands on peers, clients, tokens and channels, answered one by one. Commands that wait
let the tasks run; all others come between two of their turns. -/

namespace PeerCall.Session.Calls

open PeerCall

/-- What a peer does with the streams it is dialed for. -/
inductive PeerKind
  /-- Answers them by rules. -/
  | serve (rules : List Rule) (codec : Codec) (protocol : ProtocolId)
  /-- Plays a script on each. -/
  | raw (actions : List Script.Action)
  /-- Takes none. -/
  | deaf
  /-- Is known by an address at which nobody answers. -/
  | absent

/-- How the context of a call is made: on a named token or on one of its own, with timeouts from now
and deadlines from the beginning. -/
structure Scope where
  token : Option String := none
  timeouts : List Nat := []
  deadlines : List Nat := []
  deriving Repr, DecidableEq, Inhabited

/-- A call by a named client. -/
structure Request where
  client : String
  dest : PeerId
  service : ServiceId
  scope : Scope
  args : Datum
  /-- The reply slot as the caller has it. -/
  reply : Datum

/-- The same call on several peers by a named client. -/
structure FanRequest where
  client : String
  dests : List PeerId
  scopes : List Scope
  fan : World.Fan
  /-- The reply slots as the caller has them. -/
  replies : List fan.replyType.Carrier

inductive Command
  | peer (id : PeerId) (kind : PeerKind)
  | client (name : String) (host : Option PeerId) (protocol : Option ProtocolId)
      (rules : Option (List Rule)) (codec : Codec)
  | cancel (token : String)
  | cancelIn (token : String) (ms : Nat)
  | sleep (ms : Nat)
  | disconnect (id : PeerId)
  | call (r : Request)
  | multiCall (r : FanRequest)
  /-- Starts a call on a channel of its own, whose receiving side gets a name. -/
  | go (r : Request) (channel : String)
  | channel (name : String) (capacity : Nat)
  | goWith (r : Request) (channel : String)
  | multiGo (r : FanRequest) (channels : List String)
  /-- Takes a permit of a channel and keeps it. -/
  | reserve (channel : String)
  /-- Gives all permits that were kept back. -/
  | release (channel : String)
  | dropSender (channel : String)
  | dropReceiver (channel : String)
  | receive (channel : String) (wait : Nat)
  /-- Waits, and then receives until nothing comes for a millisecond. -/
  | drain (channel : String) (wait : Nat)
  /-- The invocations of a server. -/
  | log (name : String)
  /-- What the scripts of a peer have seen. -/
  | rawLog (id : PeerId)

/-- A call as it was received, and whether its context was done then. -/
structure Completion where
  call : Call
  verdict : Option CallError

/-- What a script has seen on one stream. -/
structure StreamLog where
  arrival : Arrival
  entries : List Script.Entry

inductive Answer
  | ok
  | client (id : PeerId) (protocol : ProtocolId)
  | called (error : Option CallError) (reply : Datum) (elapsed : Nat)
  | calledAll (results : List (Option CallError × Datum)) (elapsed : Nat)
  | misuse (m : Misuse)
  /-- Misuse of a call on several peers, and the reply slots after it. -/
  | fanMisuse (m : Misuse) (replies : List Datum)
  /-- Misuse that ends the session. -/
  | breach (text : String)
  | full
  | pending
  | closed
  | completed (c : Completion)
  | drained (cs : List Completion) (ended : Bool)
  | log (notes : List Note)
  | rawLog (logs : List StreamLog)
  /-- The command names something that is not there. -/
  | unfit

/-- A channel as its user has it. -/
structure Handle where
  channel : Nat
  sends : Bool
  receives : Bool := true
  /-- How many permits the user keeps. -/
  kept : Nat := 0
  deriving Repr, DecidableEq, Inhabited

/-- Everything that exists between two commands. -/
structure State where
  schedule : Schedule := {}
  /-- Whether hosts dial addresses and do not meet in one network. -/
  dialing : Bool := false
  /-- The peers that have an address. -/
  book : AddressBook := {}
  clients : Directory String Client := {}
  tokens : Directory String Token := {}
  channels : Directory String Handle := {}
  /-- The numbers of servers, of peers and of clients. -/
  servers : Directory String Nat := {}
  /-- The numbers of scripted peers. -/
  players : Directory PeerId Nat := {}
  /-- How many numbers were given out. -/
  sites : Nat := 0

/-- How long a call is waited for. -/
def patience : Nat := 36000000

namespace State

def world (st : State) : World := st.schedule.world

def update (st : State) (w : World) : State := { st with schedule := st.schedule.update w }

def addServer (st : State) (name : String) : Nat × State :=
  (st.sites, { st with sites := st.sites + 1, servers := st.servers.insert name st.sites })

/-- Makes a number for a scripted peer. A server of the same name keeps its own. -/
def addPlayer (st : State) (id : PeerId) : Nat × State :=
  (st.sites, { st with sites := st.sites + 1, players := st.players.insert id st.sites })

/-- The token of a name. It is made when it is first named. -/
def token (st : State) (name : String) : Token × State :=
  match st.tokens.get? name with
  | some t => (t, st)
  | none =>
    let (t, w) := st.world.freshToken
    (t, { st.update w with tokens := st.tokens.insert name t })

def context (st : State) (s : Scope) : Context × State :=
  let (t, st) := match s.token with
    | some name => st.token name
    | none =>
      let (t, w) := st.world.freshToken
      (t, st.update w)
  let c := s.timeouts.foldl (fun c ms => c.withTimeout st.world.moment ms) (Context.ofToken t)
  (s.deadlines.foldl Context.withDeadline c, st)

def contexts (st : State) : List Scope → List Context × State
  | [] => ([], st)
  | s :: rest =>
    let (c, st) := st.context s
    let (cs, st) := st.contexts rest
    (c :: cs, st)

/-! ## Peers and clients -/

def addPeer (st : State) (id : PeerId) (kind : PeerKind) : State :=
  if st.dialing then
    let st := match kind with
      | .serve .. => (st.addServer id.text).2
      | .raw _ => (st.addPlayer id).2
      | .deaf => st
      | .absent => st
    { st with book := st.book.insert id .loopback }
  else
    let (inbox, network) := st.world.network.join id
    let w := { st.world with network }
    match kind with
    | .serve rules codec protocol =>
      let (number, st) := st.addServer id.text
      st.update (w.spawn (.accept inbox (.serve ⟨number, Rule.server rules codec⟩ codec protocol)))
    | .raw actions =>
      let (number, st) := st.addPlayer id
      st.update (w.spawn (.accept inbox (.play number actions)))
    | .deaf => st.update (w.closeInbox inbox)
    | .absent => st.update (w.closeInbox inbox)

/-- Adds a client. Its host joins the network, but takes no streams. -/
def addClient (st : State) (name : String) (host : Option PeerId) (protocol : Option ProtocolId)
    (rules : Option (List Rule)) (codec : Codec) : State × Answer :=
  let (server, st) : Option Site × State := match rules with
    | none => (none, st)
    | some rules =>
      let (number, st) := st.addServer name
      (some ⟨number, Rule.server rules codec⟩, st)
  let (host, st) : Option Host × State := match host with
    | none => (none, st)
    | some id =>
      if st.dialing then (some ⟨id, .dialing st.book none⟩, st)
      else
        let (inbox, network) := st.world.network.join id
        (some ⟨id, .network⟩, st.update ({ st.world with network }.closeInbox inbox))
  let client : Client := { host, protocol := protocol.getD .standard, server, codec }
  ({ st with clients := st.clients.insert name client },
    .client client.id client.protocol)

/-! ## Channels -/

/-- Gives what the user holds of a channel up. -/
def forget (st : State) (h : Handle) : State :=
  let w := if h.receives then st.world.modifyChannel h.channel Channel.close else st.world
  let w := if h.sends then w.modifyChannel h.channel Channel.dropSender else w
  st.update w

def bind (st : State) (name : String) (h : Handle) : State :=
  let st := match st.channels.get? name with
    | some old => st.forget old
    | none => st
  { st with channels := st.channels.insert name h }

/-- Changes what the user holds of a channel. -/
def setHandle (st : State) (name : String) (h : Handle) : State :=
  { st with channels := st.channels.insert name h }

/-- Takes what is there on a channel: a call, or that there will be none. -/
def pollChannel (channel : Nat) (w : World) : Option (Receipt Call × World) :=
  match w.channels[channel]? with
  | none => some (.ended, w)
  | some ch =>
    match ch.receive with
    | (.received c, ch) => some (.received c, { w with channels := w.channels.set channel ch })
    | (.ended, _) => some (.ended, w)
    | (.empty, _) => none

/-- Takes what is there on several channels, if there is something on each. -/
def pollChannels (channels : List Nat) (w : World) : Option (List (Receipt Call) × World) :=
  match channels with
  | [] => some ([], w)
  | c :: cs =>
    match pollChannel c w with
    | none => none
    | some (r, w) =>
      match pollChannels cs w with
      | none => none
      | some (rs, w) => some (r :: rs, w)

/-- Receives, waiting for some milliseconds. The call is looked at and let go. -/
def receive (st : State) (channel wait : Nat) : Option (Option Completion) × State :=
  let (r, schedule) := st.schedule.await wait (pollChannel channel) []
  let st := { st with schedule }
  match r with
  | none => (none, st)
  | some (.received c) =>
    (some (some ⟨c, c.context.verdict st.world.moment⟩),
      st.update (st.world.modifyChannel channel Channel.dropSender))
  | some _ => (some none, st)

/-- Receives until nothing comes for a millisecond, at most `fuel` times. -/
def receiveAll (channel : Nat) : (fuel : Nat) → State → List Completion → Answer × State
  | 0, st, cs => (.drained cs.reverse false, st)
  | fuel + 1, st, cs =>
    match st.receive channel 1 with
    | (none, st) => (.drained cs.reverse false, st)
    | (some none, st) => (.drained cs.reverse true, st)
    | (some (some c), st) => receiveAll channel fuel st (c :: cs)

/-! ## Calls -/

/-- Makes the call of a request, with the given reply slot. -/
def request (st : State) (r : Request) (reply : Datum) : Call × State :=
  let (context, st) := st.context r.scope
  ({ context, dest := r.dest, service := r.service, args := r.args, replyType := reply.schema
     reply := reply.value }, st)

def call (st : State) (client : Client) (r : Request) : State × Answer :=
  let (call, st) := st.request r ⟨r.reply.schema, r.reply.schema.blank⟩
  let begun := st.world.moment.now
  match st.world.go client call with
  | .error m => (st, .misuse m)
  | .ok (channel, w) =>
    let (receipt, schedule) := (st.schedule.update w).await patience (pollChannel channel) []
    let st := { st with schedule }
    let st := st.update (st.world.modifyChannel channel Channel.close)
    match receipt with
    | none => (st, .pending)
    | some receipt =>
      let (error, reply) := World.concluded r.reply.schema r.reply.value receipt
      (st, .called error reply (st.world.moment.now - begun))

/-- Calls on several peers and waits for all. -/
def multiCall (st : State) (client : Client) (r : FanRequest) : State × Answer :=
  let (contexts, st) := st.contexts r.scopes
  let begun := st.world.moment.now
  match st.world.multiCall client r.fan contexts r.dests r.replies with
  | .error m => (st, .fanMisuse m (r.replies.map (⟨r.fan.replyType, ·⟩)))
  | .ok (channels, w) =>
    let (receipts, schedule) := (st.schedule.update w).await patience (pollChannels channels) []
    let st := { st with schedule }
    let st := st.update (channels.foldl (·.modifyChannel · Channel.close) st.world)
    match receipts with
    | none => (st, .pending)
    | some receipts =>
      (st, .calledAll ((r.replies.zip receipts).map fun (v, receipt) =>
        World.concluded r.fan.replyType v receipt) (st.world.moment.now - begun))

/-- Starts a call on a channel of its own. -/
def go (st : State) (client : Client) (r : Request) (name : String) : State × Answer :=
  let (call, st) := st.request r r.reply
  match st.world.go client call with
  | .error m => (st, .misuse m)
  | .ok (channel, w) => ((st.update w).bind name { channel, sends := false }, .ok)

/-- Starts a call on the user's channel. -/
def goWith (st : State) (client : Client) (r : Request) (h : Handle) : State × Answer :=
  let (call, st) := st.request r r.reply
  match st.world.goWith client call h.channel with
  | .error m => (st, .misuse m)
  | .ok w => (st.update w, .ok)

/-- Starts a call on several peers, each on one of the user's channels. -/
def multiGo (st : State) (client : Client) (r : FanRequest) (hs : List Handle) : State × Answer :=
  let (contexts, st) := st.contexts r.scopes
  match st.world.multiGo client r.fan contexts r.dests r.replies (hs.map (·.channel)) with
  | .error m => (st, .misuse m)
  | .ok w => (st.update w, .ok)

/-- What the scripts of a peer have seen, in the order in which the streams came. -/
def streamLogs (w : World) (number : Nat) : List StreamLog :=
  w.tasks.filterMap fun
    | .script owner arrival s => if owner = number then some ⟨arrival, s.log.reverse⟩ else none
    | _ => none

def withClient (st : State) (name : String) (f : Client → State × Answer) : State × Answer :=
  match st.clients.get? name with
  | some c => f c
  | none => (st, .unfit)

def withChannel (st : State) (name : String) (f : Handle → State × Answer) : State × Answer :=
  match st.channels.get? name with
  | some h => f h
  | none => (st, .unfit)

/-- Does something with a named channel on which the user can send. -/
def withSender (st : State) (name : String) (f : Handle → State × Answer) : State × Answer :=
  st.withChannel name fun h => if h.sends then f h else (st, .unfit)

/-- Does something with a named channel from which the user can receive. -/
def withReceiver (st : State) (name : String) (f : Handle → State × Answer) : State × Answer :=
  st.withChannel name fun h => if h.receives then f h else (st, .unfit)

def execute (st : State) : Command → State × Answer
  | .peer id kind => (st.addPeer id kind, .ok)
  | .client name host protocol rules codec => st.addClient name host protocol rules codec
  | .cancel name =>
    let (t, st) := st.token name
    (st.update (st.world.fire t), .ok)
  | .cancelIn name ms =>
    let (t, st) := st.token name
    (st.update (st.world.spawn (.cancel t ms none)), .ok)
  | .sleep ms => ({ st with schedule := st.schedule.sleep ms }, .ok)
  | .disconnect id =>
    (st.update { st.world with network := st.world.network.leave id }, .ok)
  | .call r => st.withClient r.client (st.call · r)
  | .multiCall r => st.withClient r.client (st.multiCall · r)
  | .go r name => st.withClient r.client (st.go · r name)
  | .channel name capacity =>
    match Channel.refusal? capacity with
    | some text => (st, .breach text)
    | none =>
      let (channel, w) := st.world.addChannel capacity 1
      ((st.update w).bind name { channel, sends := true }, .ok)
  | .goWith r name => st.withSender name fun h => st.withClient r.client (st.goWith · r h)
  | .multiGo r names =>
    st.withClient r.client fun c =>
      match names.mapM fun n => (st.channels.get? n).filter (·.sends) with
      | some hs => st.multiGo c r hs
      | none => (st, .unfit)
  | .reserve name => st.withSender name fun h =>
    match st.world.channels[h.channel]?.bind Channel.reserve? with
    | none => (st, .full)
    | some ch =>
      let w := { st.world with channels := st.world.channels.set h.channel ch.addSender }
      ((st.update w).setHandle name { h with kept := h.kept + 1 }, .ok)
  | .release name => st.withChannel name fun h =>
    let w := (List.range h.kept).foldl
      (fun w _ => w.modifyChannel h.channel fun ch => ch.release.dropSender) st.world
    ((st.update w).setHandle name { h with kept := 0 }, .ok)
  | .dropSender name => st.withChannel name fun h =>
    if h.sends then
      ((st.update (st.world.modifyChannel h.channel Channel.dropSender)).setHandle name
        { h with sends := false }, .ok)
    else (st, .ok)
  | .dropReceiver name => st.withChannel name fun h =>
    if h.receives then
      ((st.update (st.world.modifyChannel h.channel Channel.close)).setHandle name
        { h with receives := false }, .ok)
    else (st, .ok)
  | .receive name wait => st.withReceiver name fun h =>
    match st.receive h.channel wait with
    | (none, st) => (st, .pending)
    | (some none, st) => (st, .closed)
    | (some (some c), st) => (st, .completed c)
  | .drain name wait => st.withReceiver name fun h =>
    let (a, st) := receiveAll h.channel Schedule.patience
      { st with schedule := st.schedule.sleep wait } []
    (st, a)
  | .log name =>
    (st, .log (st.world.notes.filter fun n => st.servers.get? name == some n.owner))
  | .rawLog id => (st, .rawLog ((st.players.get? id).elim [] (streamLogs st.world)))

end State

/-- The answers to a list of commands. A breach ends the session and is all that is left of it. -/
def answers (dialing : Bool) (cs : List Command) : Except String (List Answer) :=
  go { dialing } cs []
where
  /-- The answers from a state on, behind those already given, which come last one first. -/
  go (st : State) (cs : List Command) (before : List Answer) : Except String (List Answer) :=
    match cs with
    | [] => .ok before.reverse
    | c :: cs =>
      match st.execute c with
      | (_, .breach text) => .error text
      | (st, a) => go st cs (a :: before)

end PeerCall.Session.Calls
