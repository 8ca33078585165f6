import PeerCall.Schedule

/-! # Sessions with one responder

A scripted dialer on the left end of a link and a responder on the right one. -/

namespace PeerCall.Session.Serving

open PeerCall

/-- What happens at the responder's end. -/
inductive Result
  | ok
  | failed (e : CallError)
  | crashed
  | pending
  deriving Repr, DecidableEq, Inhabited

/-- The two parties and the link between them. -/
structure Setup where
  server : Server
  codec : Codec
  peer : PeerId
  capacity : Nat
  actions : List Script.Action

/-- What came of it: the responder's end, the dialer's log, and the invocations. -/
structure Report where
  result : Result
  log : List Script.Entry
  notes : List Note

/-- How long each party is given. -/
def patience : Nat := 36000000

/-- How the responder at a place stands. -/
def resultOf (w : World) (i : Nat) : Option Result :=
  match w.tasks[i]? with
  | some (.respond _ _ { phase := .ended (.ok _), .. }) => some .ok
  | some (.respond _ _ { phase := .ended (.error e), .. }) => some (.failed e)
  | some (.respond _ _ { phase := .crashed, .. }) => some .crashed
  | _ => none

/-- Whether the script at a place is over. -/
def isOver (w : World) (i : Nat) : Bool :=
  match w.tasks[i]? with
  | some (.script _ _ s) => s.ended
  | _ => true

/-- What the script at a place has seen. -/
def logOf (w : World) (i : Nat) : List Script.Entry :=
  match w.tasks[i]? with
  | some (.script _ _ s) => s.log.reverse
  | _ => []

/-- Lets the parties run, the dialer first, until both have ended or have had their time. -/
def report (s : Setup) : Report :=
  let (link, w) := World.addLink {} (.ofCapacity s.capacity)
  let (token, w) := w.freshToken
  let w := w.spawn (.script 1 { protocol := .standard, dialer := s.peer, link }
    { side := .left, actions := s.actions })
  let w := w.spawn (.respond 0 link
    { server := s.server, codec := s.codec, peer := s.peer, context := ⟨token, none⟩ })
  let (result, schedule) := Schedule.await { world := w } patience
    (fun w => (resultOf w 1).map (·, w)) []
  let (_, schedule) := schedule.await patience
    (fun w => if isOver w 0 then some ((), w) else none) []
  let w := schedule.world
  { result := result.getD .pending, log := logOf w 0, notes := w.notes }

/-- Makes the link and lets the parties run. A link that would hold nothing is misuse. -/
def run (s : Setup) : Except String Report :=
  if s.capacity = 0 then .error Link.noCapacity else .ok (report s)

end PeerCall.Session.Serving
