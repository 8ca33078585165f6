import PeerCall.Progress
import PeerCall.Link

/-! # Transfers

Plain operations at one end of a link, without buffers: writing all of some bytes, reading a given
count, reading to the end. Each is split into steps that touch the link at most once. -/

namespace PeerCall

/-- A plain operation, as far as it has come. Bytes that were read stand last one first. -/
inductive Transfer
  /-- Writes all bytes. -/
  | write (bs : Bytes)
  /-- Writes once. -/
  | writeSome (bs : Bytes)
  /-- Reads once. -/
  | read (n : Nat)
  /-- Reads this many more bytes. -/
  | readExact (missing : Nat) (newestFirst : Bytes)
  /-- Reads until the stream ends. -/
  | readToEnd (newestFirst : Bytes)
  /-- Reads a length of four bytes and then that many bytes. -/
  | readFrame (length : Bytes)
  deriving Repr, DecidableEq, Inhabited

/-- What an operation brought. -/
inductive Transfer.Result
  | written
  | wrote (n : Nat)
  | read (bs : Bytes)
  /-- All bytes up to the end, and the failure that was the end if it was not a clean one. -/
  | drained (bs : Bytes) (ending : Option IoError)
  deriving Repr, DecidableEq, Inhabited

namespace Transfer

/-- Whether the operation waits for bytes, not for room. -/
def reads : Transfer → Bool
  | write _ => false
  | writeSome _ => false
  | _ => true

/-- How many bytes are asked for at a time where all are wanted. -/
def chunk : Nat := 8192

/-- Reads at most `n` bytes and goes on with them. -/
def readThen (s : Side) (n : Nat) (l : Link)
    (failed : IoError → Progress Transfer (Except IoError Result))
    (next : Bytes → Progress Transfer (Except IoError Result)) :
    Option (Progress Transfer (Except IoError Result) × Link) :=
  match l.read? s n with
  | none => none
  | some (.error e, l) => some (failed e, l)
  | some (.ok bs, l) => some (next bs, l)

/-- One step of an operation at an end of a link. -/
def step? (s : Side) (l : Link) :
    Transfer → Option (Progress Transfer (Except IoError Result) × Link)
  | write bs =>
    if bs.isEmpty then some (.done (.ok .written), l)
    else
      match l.write? s bs with
      | none => none
      | some (.error e, l) => some (.done (.error e), l)
      | some (.ok n, l) => some (.more (.write (bs.drop n)), l)
  | writeSome bs =>
    match l.write? s bs with
    | none => none
    | some (.error e, l) => some (.done (.error e), l)
    | some (.ok n, l) => some (.done (.ok (.wrote n)), l)
  | read n => readThen s n l (fun e => .done (.error e)) fun bs => .done (.ok (.read bs))
  | readExact missing newestFirst =>
    if missing = 0 then some (.done (.ok (.read newestFirst.reverse)), l)
    else
      readThen s missing l (fun e => .done (.error e)) fun bs =>
        if bs.isEmpty then .done (.error .endInBytes)
        else .more (.readExact (missing - bs.length) (bs.reverseAux newestFirst))
  | readToEnd newestFirst =>
    readThen s chunk l (fun e => .done (.ok (.drained newestFirst.reverse (some e)))) fun bs =>
      if bs.isEmpty then .done (.ok (.drained newestFirst.reverse none))
      else .more (.readToEnd (bs.reverseAux newestFirst))
  | readFrame length =>
    readThen s (4 - length.length) l (fun e => .done (.error e)) fun bs =>
      if bs.isEmpty then .done (.error .endInNumber)
      else if (length ++ bs).length < 4 then .more (.readFrame (length ++ bs))
      else .more (.readExact (length ++ bs).toNatBE [])

end Transfer

end PeerCall
