import PeerCall.Bytes

/-! # UTF-8

Reading text from bytes. Ill-formed bytes are refused with the place of the first fault: the length
of the valid part before it, and the length of the longest piece there that begins a character, or
that the bytes ended too early. -/

namespace PeerCall.Utf8

open PeerCall

/-- What is wrong with bytes that are no UTF-8. -/
inductive Fault
  /-- The `length` bytes at `start` begin no character. -/
  | invalid (start length : Nat)
  /-- The bytes end within the character that begins at `start`. -/
  | incomplete (start : Nat)
  deriving Repr, DecidableEq, Inhabited

def Fault.message : Fault → String
  | .invalid start length => s!"invalid utf-8 sequence of {length} bytes from index {start}"
  | .incomplete start => s!"incomplete utf-8 byte sequence from index {start}"

/-- A range of bytes that may stand at one place of a character. -/
structure Range where
  low : UInt8
  high : UInt8

/-- Whether a byte lies in the range. -/
def Range.holds (r : Range) (b : UInt8) : Bool := r.low ≤ b && b ≤ r.high

/-- A continuation byte without further limits. -/
def tail : Range := ⟨0x80, 0xBF⟩

/-- The ranges of the bytes that have to follow a first byte, or `none` if no character begins with
it. The second byte is limited so that overlong forms, surrogates and numbers above `10FFFF` are
excluded. -/
def followers (b : UInt8) : Option (List Range) :=
  if b < 0x80 then some []
  else if b < 0xC2 then none
  else if b < 0xE0 then some [tail]
  else if b = 0xE0 then some [⟨0xA0, 0xBF⟩, tail]
  else if b = 0xED then some [⟨0x80, 0x9F⟩, tail]
  else if b < 0xF0 then some [tail, tail]
  else if b = 0xF0 then some [⟨0x90, 0xBF⟩, tail, tail]
  else if b < 0xF4 then some [tail, tail, tail]
  else if b = 0xF4 then some [⟨0x80, 0x8F⟩, tail, tail]
  else none

/-- The first fault of `bs`, where the current character began at `start`, has `seen` bytes so far
and still lacks bytes in the ranges `due`. -/
def faultFrom (start seen : Nat) (due : List Range) : Bytes → Option Fault
  | [] => if due.isEmpty then none else some (.incomplete start)
  | b :: bs =>
    match due with
    | [] =>
      match followers b with
      | none => some (.invalid start 1)
      | some [] => faultFrom (start + 1) 0 [] bs
      | some (r :: rs) => faultFrom start 1 (r :: rs) bs
    | r :: rs =>
      if r.holds b then
        if rs.isEmpty then faultFrom (start + seen + 1) 0 [] bs
        else faultFrom start (seen + 1) rs bs
      else some (.invalid start seen)

/-- The first fault of a byte string. -/
def fault? (bs : Bytes) : Option Fault := faultFrom 0 0 [] bs

/-- The text whose encoding the bytes are. -/
def decode (bs : Bytes) : Except Fault String :=
  match String.fromUTF8? bs.toByteArray with
  | some s => .ok s
  | none => .error ((fault? bs).getD (.incomplete 0))

/-- The character that the bytes begin with, and the bytes after it. -/
def decodeChar? (bs : Bytes) : Option (Char × Bytes) :=
  match (bs.take 4).toByteArray.utf8DecodeChar? 0 with
  | some c => some (c, bs.drop (String.utf8EncodeChar c).length)
  | none => none

example : fault? [0x61, 0xE2, 0x82] = some (.incomplete 1) := by decide
example : fault? [0xED, 0xA0, 0x80] = some (.invalid 0 1) := by decide
example : fault? [0xF0, 0x9F, 0x98, 0x41] = some (.invalid 0 3) := by decide

end PeerCall.Utf8
