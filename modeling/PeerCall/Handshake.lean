import PeerCall.Context
import PeerCall.Link
import PeerCall.Progress
import PeerCall.Utf8

/-! # Handshakes

What a dialed connection begins with: the protocol and the identity of the dialer, each as four
bytes of length, most significant first, and UTF-8. The reader asks the connection only for bytes
that belong to the handshake, so all that follows is left to the stream. -/

namespace PeerCall

namespace Handshake

/-- The longest field that is accepted. -/
def maxField : Nat := 1024

/-- How many milliseconds the dialer has for a handshake, unless other is said. -/
def standardTimeout : Nat := 10000

/-- A field as it is sent, whatever its length. -/
def field (s : String) : Bytes :=
  Bytes.ofNatBE 4 (Bytes.ofString s).length ++ Bytes.ofString s

/-- The handshake of a dialer. -/
def greeting (protocol : ProtocolId) (dialer : PeerId) : Bytes :=
  field protocol.text ++ field dialer.text

/-- The pieces in which a dialer writes the handshake: of each field the length and then the text. -/
def pieces (protocol : ProtocolId) (dialer : PeerId) : List Bytes :=
  [protocol.text, dialer.text].flatMap fun s =>
    [Bytes.ofNatBE 4 (Bytes.ofString s).length, Bytes.ofString s]

theorem flatten_pieces (protocol : ProtocolId) (dialer : PeerId) :
    (pieces protocol dialer).flatten = greeting protocol dialer := by
  simp [pieces, greeting, field]

/-- The dialer did not get done in time. -/
def lateDialer : StreamError := .custom "Handshake timeout exceeded"

/-- The connection was not made in time. -/
def lateConnection : StreamError := .custom "Connect timeout exceeded"

/-- A field that is being read. -/
inductive FieldReader
  /-- Of the length, these bytes are there. -/
  | length (got : Bytes)
  /-- Of the text, `missing` bytes are to come; those that are there stand last one first. -/
  | body (missing : Nat) (newestFirst : Bytes)
  deriving Repr, DecidableEq, Inhabited

namespace FieldReader

/-- Nothing of the field is read. -/
def start : FieldReader := .length []

/-- How many bytes to ask for. -/
def wanted : FieldReader → Nat
  | .length got => 4 - got.length
  | .body missing _ => missing

/-- What the end of the connection means. -/
def atEnd : FieldReader → StreamError
  | .length _ => .closed
  | .body _ _ => .io .endInBytes

/-- The text of a field that is complete. -/
def complete (bs : Bytes) : Except StreamError String :=
  match Utf8.decode bs with
  | .ok s => .ok s
  | .error f => .error (.invalidFrame f.message)

/-- Goes on with bytes that were asked for. A length that is too large is refused before any of the
text is asked for. -/
def feed : FieldReader → Bytes → Progress FieldReader (Except StreamError String)
  | .length got, bs =>
    if (got ++ bs).length < 4 then .more (.length (got ++ bs))
    else if (got ++ bs).toNatBE > maxField then .done (.error (.fieldTooLarge (got ++ bs).toNatBE))
    else if (got ++ bs).toNatBE = 0 then .done (complete [])
    else .more (.body (got ++ bs).toNatBE [])
  | .body missing newestFirst, bs =>
    let newestFirst := bs.reverseAux newestFirst
    if bs.length < missing then .more (.body (missing - bs.length) newestFirst)
    else .done (complete newestFirst.reverse)

/-- One step of reading a field at an end of a connection. -/
def step? (s : Side) (r : FieldReader) (l : Link) :
    Option (Progress FieldReader (Except StreamError String) × Link) :=
  match l.read? s r.wanted with
  | none => none
  | some (.error e, l) => some (.done (.error (.io e)), l)
  | some (.ok bs, l) => some (if bs.isEmpty then .done (.error r.atEnd) else r.feed bs, l)

end FieldReader

inductive Phase
  | protocol (r : FieldReader)
  | dialer (protocol : String) (r : FieldReader)
  deriving Repr, DecidableEq, Inhabited

end Handshake

/-- A handshake that is being read, for one protocol and until a certain time. -/
structure Handshake where
  expected : ProtocolId
  deadline : Nat
  phase : Handshake.Phase := .protocol .start
  deriving Repr, DecidableEq, Inhabited

namespace Handshake

/-- Ends with a failure. The dialer learns of it where the handshake was late or the protocol is
another. -/
def refuse (s : Side) (e : StreamError) (told : Bool) (l : Link) :
    Progress Handshake (Except StreamError PeerId) × Link :=
  (.done (.error e), if told then l.abort s else l.drop s)

/-- The end of a handshake whose fields are there. -/
def conclude (h : Handshake) (s : Side) (protocol dialer : String) (l : Link) :
    Progress Handshake (Except StreamError PeerId) × Link :=
  if protocol = h.expected.text then (.done (.ok ⟨dialer⟩), l)
  else refuse s (.protocolMismatch h.expected.text protocol) true l

/-- One step of a handshake at an end of a connection. Both fields are read and checked before the
protocols are compared. -/
def step? (m : Moment) (s : Side) (h : Handshake) (l : Link) :
    Option (Progress Handshake (Except StreamError PeerId) × Link) :=
  let late := if h.deadline ≤ m.now then some (refuse s lateDialer true l) else none
  match h.phase with
  | .protocol r =>
    match r.step? s l with
    | none => late
    | some (.more r, l) => some (.more { h with phase := .protocol r }, l)
    | some (.done (.error e), l) => some (refuse s e false l)
    | some (.done (.ok protocol), l) => some (.more { h with phase := .dialer protocol .start }, l)
  | .dialer protocol r =>
    match r.step? s l with
    | none => late
    | some (.more r, l) => some (.more { h with phase := .dialer protocol r }, l)
    | some (.done (.error e), l) => some (refuse s e false l)
    | some (.done (.ok dialer), l) => some (h.conclude s protocol dialer l)

end Handshake

end PeerCall
