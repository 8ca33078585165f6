import PeerCall.Error

/-! # Contexts

What may end a call early: a cancellation token and a deadline. A context only watches; firing the
token is up to whoever made it. One can ask it for its `verdict`, wait until it is done (`done?`), or
let work race against its end (`race`). -/

namespace PeerCall

/-- A cancellation token. Its path leads from itself up to the token it was first derived from, so
its ancestors are the suffixes of the path. -/
structure Token where
  path : List Nat
  deriving Repr, DecidableEq, Inhabited

namespace Token

/-- A token of its own, by its number. -/
def root (n : Nat) : Token := ⟨[n]⟩

/-- The `i`-th token derived from a token. -/
def child (t : Token) (i : Nat) : Token := ⟨i :: t.path⟩

/-- Whether a token is another or was derived from it. -/
def isUnder (t ancestor : Token) : Bool := ancestor.path.isSuffixOf t.path

end Token

/-- What contexts watch: the time in milliseconds, and the tokens that were fired. -/
structure Moment where
  now : Nat := 0
  fired : List Token := []
  deriving Repr, DecidableEq, Inhabited

namespace Moment

/-- Fires a token, and with it all that were or will be derived from it. -/
def fire (t : Token) (m : Moment) : Moment := { m with fired := t :: m.fired }

/-- Whether a token or one of its ancestors was fired. -/
def isCancelled (m : Moment) (t : Token) : Bool := m.fired.any t.isUnder

end Moment

/-- The scope of a call. -/
structure Context where
  token : Token
  deadline : Option Nat := none
  deriving Repr, DecidableEq, Inhabited

namespace Context

/-- A new context on a token. It has no deadline, whatever other contexts there are on the token or
on one that it was derived from. -/
def ofToken (t : Token) : Context := { token := t }

/-- Adds a deadline. The earlier one stays. -/
def withDeadline (c : Context) (deadline : Nat) : Context :=
  { c with deadline := some (c.deadline.elim deadline (min · deadline)) }

/-- Adds a deadline so many milliseconds from now. -/
def withTimeout (c : Context) (m : Moment) (ms : Nat) : Context := c.withDeadline (m.now + ms)

/-- Why the context is done, if it is. Cancellation comes before the deadline, which is over as soon
as it is reached. -/
def verdict (c : Context) (m : Moment) : Option CallError :=
  if m.isCancelled c.token then some .cancelled
  else
    match c.deadline with
    | some d => if d ≤ m.now then some .deadlineExceeded else none
    | none => none

/-- One look at the wait until the context is done: at the token, and then at the alarm that is set
to the deadline, if there is one. -/
def done? (c : Context) (m : Moment) : Option CallError :=
  match c.deadline with
  | some d =>
    if m.isCancelled c.token then some .cancelled
    else if d ≤ m.now then some .deadlineExceeded
    else none
  | none => if m.isCancelled c.token then some .cancelled else none

/-- One look at work that races against the end of the context. The work is looked at last, and only
if the context is not done. -/
def race (c : Context) (m : Moment) (work : σ → Option α × σ) (f : σ) :
    Option (Except CallError α) × σ :=
  match c.done? m with
  | some e => (some (.error e), f)
  | none => ((work f).1.map .ok, (work f).2)

/-- One look at work of which is known whether it is ready. -/
def poll (c : Context) (m : Moment) (work : Option α) : Option (Except CallError α) :=
  (c.race m (fun _ => (work, ())) ()).1

end Context

end PeerCall
