import PeerCall.Progress
import PeerCall.Link

/-! # Frames

Messages on a stream: four bytes of length, most significant first, and then the payload. Reading
goes through a buffer of what came in but is not used yet, writing through a buffer of what has not
gone out yet. Both are split into steps that touch the link at most once, so that another task may
act between any two of them. -/

namespace PeerCall

namespace Frame

/-- The longest payload. -/
def maxSize : Nat := 104857600

/-- The most that either buffer holds, and the size from which on it is passed by. -/
def bufferSize : Nat := 8192

/-- The length in front of a payload. -/
def header (size : Nat) : Bytes := Bytes.ofNatBE 4 size

/-- A payload with its length in front. -/
def bytes (payload : Bytes) : Bytes := header payload.length ++ payload

end Frame

/-! ## Reading -/

/-- A frame that is being read. -/
inductive FrameReader
  /-- Of the length, these bytes are there. -/
  | length (got : Bytes)
  /-- Of the payload, `missing` bytes are to come; those that are there stand last one first. -/
  | payload (missing : Nat) (newestFirst : Bytes)
  deriving Repr, DecidableEq, Inhabited

namespace FrameReader

/-- Nothing of the frame is read. -/
def start : FrameReader := .length []

/-- Takes payload bytes from a buffer. Hands back the buffer's rest. -/
def feedPayload (missing : Nat) (newestFirst buffer : Bytes) :
    Progress FrameReader (Except StreamError Bytes) × Bytes :=
  let piece := buffer.take missing
  let newestFirst := piece.reverseAux newestFirst
  if piece.length < missing then (.more (.payload (missing - piece.length) newestFirst), [])
  else (.done (.ok newestFirst.reverse), buffer.drop missing)

/-- Goes on with a frame as far as a buffer reaches. Hands back the buffer's rest, which is empty
unless the frame is done. A length that is too large is refused as soon as it is there. -/
def feed : FrameReader → Bytes → Progress FrameReader (Except StreamError Bytes) × Bytes
  | .payload missing newestFirst, buffer => feedPayload missing newestFirst buffer
  | .length got, buffer =>
    let got' := got ++ buffer.take (4 - got.length)
    let rest := buffer.drop (4 - got.length)
    if got'.length < 4 then (.more (.length got'), [])
    else if got'.toNatBE > Frame.maxSize then (.done (.error (.tooLarge got'.toNatBE)), rest)
    else feedPayload got'.toNatBE [] rest

/-- How many bytes to ask the link for when the buffer is used up. -/
def wanted : FrameReader → Nat
  | .length _ => Frame.bufferSize
  | .payload missing _ => max Frame.bufferSize missing

/-- What the end of the stream means: between frames it is a clean end. -/
def atEnd : FrameReader → StreamError
  | .length [] => .closed
  | .length _ => .io .endInNumber
  | .payload _ _ => .io .endInBytes

/-- One step of reading at an end of a link, with the bytes that came in but are not used yet. The
link is touched only when these do not suffice; if it has nothing, the reader waits. -/
def step? (s : Side) (r : FrameReader) (unread : Bytes) (l : Link) :
    Option (Progress FrameReader (Except StreamError Bytes) × Bytes × Link) :=
  match r.feed unread with
  | (.more r, _) =>
    match l.read? s r.wanted with
    | none => none
    | some (.error e, l) => some (.done (.error (.io e)), [], l)
    | some (.ok bs, l) =>
      if bs.isEmpty then some (.done (.error r.atEnd), [], l)
      else
        let (progress, unread) := r.feed bs
        some (progress, unread, l)
  | (progress, unread) => some (progress, unread, l)

end FrameReader

/-! ## Writing -/

/-- What has been written but has not gone out. Of a buffer that is being sent, the first `moved`
bytes are gone; they count as buffered until the rest is gone as well. -/
structure SendBuffer where
  unsent : Bytes := []
  moved : Nat := 0
  deriving Repr, DecidableEq, Inhabited

/-- A thing to be done on the writing side of a stream. -/
inductive Chore
  | put (bs : Bytes)
  | flush
  | fail (e : StreamError)
  deriving Repr, DecidableEq, Inhabited

namespace Chore

/-- Writes a payload as a frame, the length and the payload apart. One that is too large is refused
before anything is written. -/
def frame (payload : Bytes) : List Chore :=
  if payload.length > Frame.maxSize then [.fail (.tooLarge payload.length)]
  else [.put (Frame.header payload.length), .put payload]

/-- Writes what a codec made of a value as a frame, or fails as the codec did. -/
def encoded : Except StreamError Bytes → List Chore
  | .ok payload => frame payload
  | .error e => [.fail e]

end Chore

namespace SendBuffer

/-- Whether more bytes would overfill the buffer. -/
def overfills (b : SendBuffer) (bs : Bytes) : Bool :=
  bs.reaches (Frame.bufferSize + 1 - (b.moved + b.unsent.length))

theorem overfills_iff {b : SendBuffer} {bs : Bytes} :
    b.overfills bs = true ↔ Frame.bufferSize < b.moved + b.unsent.length + bs.length := by
  simp [overfills]
  omega

/-- Does what needs no link: puts into the buffer what fits there, and flushes an empty buffer. -/
def settle (b : SendBuffer) :
    List Chore → Progress (List Chore) (Except StreamError Unit) × SendBuffer
  | [] => (.done (.ok ()), b)
  | .fail e :: _ => (.done (.error e), b)
  | .flush :: cs => if b.unsent.isEmpty then settle b cs else (.more (.flush :: cs), b)
  | .put bs :: cs =>
    if bs.isEmpty then settle b cs
    else if b.overfills bs || bs.reaches Frame.bufferSize then (.more (.put bs :: cs), b)
    else settle { b with unsent := b.unsent ++ bs } cs

/-- Sends a piece of the buffer. A failure keeps what has not gone out. -/
def push? (s : Side) (b : SendBuffer) (l : Link) :
    Option (Except IoError Unit × SendBuffer × Link) :=
  match l.write? s b.unsent with
  | none => none
  | some (.error e, l) => some (.error e, { b with moved := 0 }, l)
  | some (.ok n, l) =>
    let unsent := b.unsent.drop n
    some (.ok (), if unsent.isEmpty then {} else ⟨unsent, b.moved + n⟩, l)

/-- Sends a piece of the buffer and then does what needs no link. -/
def pushThen? (s : Side) (b : SendBuffer) (cs : List Chore) (l : Link) :
    Option (Progress (List Chore) (Except StreamError Unit) × SendBuffer × Link) :=
  match b.push? s l with
  | none => none
  | some (.error e, b, l) => some (.done (.error (.io e)), b, l)
  | some (.ok _, b, l) =>
    let (progress, b) := b.settle cs
    some (progress, b, l)

/-- One step of writing at an end of a link: does what needs no link, then writes to the link once,
then again does what needs no link. Bytes that would overfill the buffer wait until it is sent; many
at once go to the link directly. If the link takes nothing, the writer waits. -/
def step? (s : Side) (b : SendBuffer) (cs : List Chore) (l : Link) :
    Option (Progress (List Chore) (Except StreamError Unit) × SendBuffer × Link) :=
  match b.settle cs with
  | (.more (.put bs :: cs), b) =>
    if !b.unsent.isEmpty && b.overfills bs then b.pushThen? s (.put bs :: cs) l
    else
      match l.write? s bs with
      | none => none
      | some (.error e, l) => some (.done (.error (.io e)), b, l)
      | some (.ok n, l) =>
        let (progress, b) := b.settle (.put (bs.drop n) :: cs)
        some (progress, b, l)
  | (.more cs, b) => b.pushThen? s cs l
  | (progress, b) => some (progress, b, l)

end SendBuffer

end PeerCall
