import PeerCall.Ident

/-! # Errors

Causes of failure in three layers: a pipe or the operating system (`IoError`), a framed stream or
the opening of one (`StreamError`), and a call (`CallError`). Each layer keeps the cause below it,
and `message` gives the wording. -/

namespace PeerCall

/-! ## Input and output -/

inductive IoKind
  | notFound | permissionDenied | connectionRefused | connectionReset | connectionAborted
  | notConnected | addrInUse | addrNotAvailable | brokenPipe | alreadyExists | wouldBlock
  | invalidInput | invalidData | timedOut | writeZero | interrupted | unexpectedEof
  | networkUnreachable | other
  deriving Repr, DecidableEq, Inhabited

namespace IoKind

def all : List IoKind :=
  [notFound, permissionDenied, connectionRefused, connectionReset, connectionAborted, notConnected,
    addrInUse, addrNotAvailable, brokenPipe, alreadyExists, wouldBlock, invalidInput, invalidData,
    timedOut, writeZero, interrupted, unexpectedEof, networkUnreachable, other]

/-- The one-word name of a kind. -/
def name : IoKind → String
  | notFound => "NotFound"
  | permissionDenied => "PermissionDenied"
  | connectionRefused => "ConnectionRefused"
  | connectionReset => "ConnectionReset"
  | connectionAborted => "ConnectionAborted"
  | notConnected => "NotConnected"
  | addrInUse => "AddrInUse"
  | addrNotAvailable => "AddrNotAvailable"
  | brokenPipe => "BrokenPipe"
  | alreadyExists => "AlreadyExists"
  | wouldBlock => "WouldBlock"
  | invalidInput => "InvalidInput"
  | invalidData => "InvalidData"
  | timedOut => "TimedOut"
  | writeZero => "WriteZero"
  | interrupted => "Interrupted"
  | unexpectedEof => "UnexpectedEof"
  | networkUnreachable => "NetworkUnreachable"
  | other => "Other"

/-- The wording of a failure of which only the kind is known. -/
def text : IoKind → String
  | notFound => "entity not found"
  | permissionDenied => "permission denied"
  | connectionRefused => "connection refused"
  | connectionReset => "connection reset"
  | connectionAborted => "connection aborted"
  | notConnected => "not connected"
  | addrInUse => "address in use"
  | addrNotAvailable => "address not available"
  | brokenPipe => "broken pipe"
  | alreadyExists => "entity already exists"
  | wouldBlock => "operation would block"
  | invalidInput => "invalid input parameter"
  | invalidData => "invalid data"
  | timedOut => "timed out"
  | writeZero => "write zero"
  | interrupted => "operation interrupted"
  | unexpectedEof => "unexpected end of file"
  | networkUnreachable => "network unreachable"
  | other => "other error"

def ofName? (s : String) : Option IoKind := all.find? (·.name == s)

end IoKind

/-- A failure of input or output. `ofSystem` marks one that the operating system reports, whose
wording is its own. -/
structure IoError where
  kind : IoKind
  text : String
  ofSystem : Bool := false
  deriving Repr, DecidableEq, Inhabited

namespace IoError

def ofKind (k : IoKind) : IoError := ⟨k, k.text, false⟩

/-- Writing where nobody reads any more. -/
def brokenPipe : IoError := ofKind .brokenPipe

/-- The other end was reset. -/
def reset : IoError := ⟨.connectionReset, "memory stream reset by peer", false⟩

/-- The stream ended within a number. -/
def endInNumber : IoError := ofKind .unexpectedEof

/-- The stream ended before all bytes asked for. -/
def endInBytes : IoError := ⟨.unexpectedEof, "early eof", false⟩

/-- No way leads to the address dialed. -/
def unreachable : IoError :=
  ⟨.networkUnreachable, "Network is unreachable (os error 101)", true⟩

end IoError

/-! ## Streams -/

/-- A failure of a framed stream, of the codec on it, or of opening it. -/
inductive StreamError
  | io (e : IoError)
  | codec (text : String)
  | closed
  | refused (text : String)
  | protocolMismatch (expected actual : String)
  | invalidFrame (text : String)
  | custom (text : String)
  deriving Repr, DecidableEq, Inhabited

namespace StreamError

def message : StreamError → String
  | io e => "IO error: " ++ e.text
  | codec m => "Codec error: " ++ m
  | closed => "Connection closed"
  | refused m => "Connection refused: " ++ m
  | protocolMismatch expected actual =>
    "Protocol mismatch: expected " ++ expected ++ ", got " ++ actual
  | invalidFrame m => "Invalid frame: " ++ m
  | custom m => m

/-- Whether the stream ended cleanly between frames. -/
def isClosed : StreamError → Bool
  | closed => true
  | _ => false

@[simp] theorem isClosed_iff {e : StreamError} : e.isClosed = true ↔ e = .closed := by
  cases e <;> simp [isClosed]

/-- Whether the operating system is the cause. -/
def ofSystem : StreamError → Bool
  | io e => e.ofSystem
  | _ => false

/-- The wordings of the causes below, outermost first. -/
def causes : StreamError → List String
  | io e => [e.text]
  | _ => []

/-- A frame longer than any may be. -/
def tooLarge (size : Nat) : StreamError := .invalidFrame s!"Message too large: {size} bytes"

/-- A handshake field longer than any may be. -/
def fieldTooLarge (size : Nat) : StreamError :=
  .invalidFrame s!"Handshake field too large: {size} bytes"

/-- Nobody joined the network under this identity. -/
def unknownPeer (p : PeerId) : StreamError := .refused ("unknown peer " ++ p.text)

/-- The peer takes no streams any more. -/
def notAccepting (p : PeerId) : StreamError := .refused (p.text ++ " is not accepting streams")

/-- The address book has no entry for this identity. -/
def unknownAddress (p : PeerId) : StreamError := .refused ("no address known for " ++ p.text)

end StreamError

/-! ## Calls -/

inductive CallError
  | noServer
  | connection (peer : PeerId) (source : StreamError)
  | encode (source : StreamError)
  | decode (source : StreamError)
  /-- What the remote server reported. -/
  | remote (text : String)
  | cancelled
  | deadlineExceeded
  /-- The task that drove the call ended without completing it. -/
  | aborted
  /-- What a service itself reports. -/
  | service (text : String)
  deriving Repr, DecidableEq, Inhabited

namespace CallError

def message : CallError → String
  | noServer => "cannot make local calls: server not set"
  | connection peer source => "connection to " ++ peer.text ++ " failed: " ++ source.message
  | encode source => "encoding failed: " ++ source.message
  | decode source => "decoding failed: " ++ source.message
  | remote m => m
  | cancelled => "call cancelled"
  | deadlineExceeded => "deadline exceeded"
  | aborted => "call aborted before completion"
  | service m => m

/-- The stream failure below, if there is one. -/
def source? : CallError → Option StreamError
  | connection _ e => some e
  | encode e => some e
  | decode e => some e
  | _ => none

/-- Whether the call's context ended it. -/
def isCancellation : CallError → Bool
  | cancelled => true
  | deadlineExceeded => true
  | _ => false

/-- The wordings of the causes below, outermost first. -/
def causes (e : CallError) : List String :=
  match e.source? with
  | some s => s.message :: s.causes
  | none => []

end CallError

end PeerCall
