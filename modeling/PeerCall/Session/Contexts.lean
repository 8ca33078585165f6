import PeerCall.Schedule

/-! # Sessions with contexts

A list of commands on one context that changes on the way, answered one by one with the time after
each. -/

namespace PeerCall.Session.Contexts

open PeerCall

/-- Something to be done with the context. -/
inductive Command
  | withTimeout (ms : Nat)
  /-- A deadline counted from the beginning. -/
  | withDeadline (ms : Nat)
  | clone
  /-- Goes over to a new context on a token derived from the current one, and gives it the deadline
  that there was. -/
  | child
  | deadline
  | verdict
  | isCancelled
  /-- Fires the current token. -/
  | cancel
  /-- Fires the first token. -/
  | cancelRoot
  | cancelRootIn (ms : Nat)
  | sleep (ms : Nat)
  /-- Waits until the context is done. -/
  | done
  /-- Runs work that takes so many milliseconds, or never ends. -/
  | run (work : Option Nat)
  deriving Repr, DecidableEq, Inhabited

inductive Answer
  | ok
  | deadline (ms : Option Nat)
  | verdict (e : Option CallError)
  | cancelled (b : Bool)
  | finished
  | failed (e : CallError)
  | pending
  deriving Repr, DecidableEq, Inhabited

/-- The first token, the current context, and how many tokens were derived. -/
structure State where
  schedule : Schedule := {}
  root : Token := .root 0
  context : Context := .ofToken (.root 0)
  children : Nat := 0

/-- How long `done` and `run` wait. -/
def patience : Nat := 3600000

namespace State

def moment (st : State) : Moment := st.schedule.world.moment

def fire (st : State) (t : Token) : State :=
  { st with schedule := st.schedule.update (st.schedule.world.fire t) }

/-- Waits until a look brings something. -/
def await (st : State) (look : Moment → Option (Except CallError Unit)) (alarms : List Nat) :
    State × Answer :=
  let poll (w : World) : Option (Except CallError Unit × World) := (look w.moment).map (·, w)
  let (r, schedule) := st.schedule.await patience poll (alarms ++ st.context.deadline.toList)
  ({ st with schedule },
    match r with
    | none => .pending
    | some (.ok _) => .finished
    | some (.error e) => .failed e)

/-- Work that is ready at a time, or never. -/
def work (at? : Option Nat) (m : Moment) : Option Unit :=
  at?.bind fun t => if t ≤ m.now then some () else none

def execute (st : State) : Command → State × Answer
  | .withTimeout ms => ({ st with context := st.context.withTimeout st.moment ms }, .ok)
  | .withDeadline ms => ({ st with context := st.context.withDeadline ms }, .ok)
  | .clone => (st, .ok)
  | .child =>
    let fresh := Context.ofToken (st.context.token.child st.children)
    let context := st.context.deadline.elim fresh fresh.withDeadline
    ({ st with context, children := st.children + 1 }, .ok)
  | .deadline => (st, .deadline st.context.deadline)
  | .verdict => (st, .verdict (st.context.verdict st.moment))
  | .isCancelled => (st, .cancelled (st.moment.isCancelled st.context.token))
  | .cancel => (st.fire st.context.token, .ok)
  | .cancelRoot => (st.fire st.root, .ok)
  | .cancelRootIn ms =>
    let w := st.schedule.world.spawn (.cancel st.root ms none)
    ({ st with schedule := st.schedule.update w }, .ok)
  | .sleep ms => ({ st with schedule := st.schedule.sleep ms }, .ok)
  | .done => st.await (fun m => (st.context.done? m).map .error) []
  | .run ms =>
    let at? := ms.map (st.moment.now + ·)
    st.await (fun m => st.context.poll m (work at? m)) at?.toList

end State

/-- The answers to a list of commands, each with the time after it. -/
def answers (cs : List Command) : List (Nat × Answer) :=
  go {} cs []
where
  /-- The answers from a state on, behind those already given, which come last one first. -/
  go (st : State) : List Command → List (Nat × Answer) → List (Nat × Answer)
    | [], before => before.reverse
    | c :: cs, before =>
      let (st, a) := st.execute c
      go st cs ((st.moment.now, a) :: before)

end PeerCall.Session.Contexts
