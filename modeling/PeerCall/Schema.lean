import PeerCall.Bytes
import PeerCall.Ident

/-! # Schemas

The types that arguments and replies may have, and the values of each. A tuple is built from
`consTuple` and `endTuple`; both are laid out as their parts in order. -/

namespace PeerCall

/-- Sizes of fixed-width words. -/
inductive Width
  | w8 | w16 | w32 | w64 | w128
  deriving Repr, DecidableEq, Inhabited

def Width.bytes : Width → Nat
  | w8 => 1
  | w16 => 2
  | w32 => 4
  | w64 => 8
  | w128 => 16

abbrev Width.bits (w : Width) : Nat := 8 * w.bytes

/-- How the bits of a word are read as a number. -/
inductive Numeral
  | unsigned | signed | floating
  deriving Repr, DecidableEq, Inhabited

/-- The header of a response: the text of the error, empty for success. -/
structure Response where
  error : String
  deriving Repr, DecidableEq, Inhabited

/-- A value of one of four shapes. -/
inductive Shape
  | empty
  | count (n : BitVec 32)
  | pair (first : BitVec 8) (second : String)
  | named (x : BitVec 16) (label : Option String)
  deriving Repr, DecidableEq, Inhabited

/-- Values measured by a sensor, as bit patterns of double precision. -/
structure Reading where
  sensor : String
  values : List (BitVec 64)
  note : Option String
  deriving Repr, DecidableEq, Inhabited

/-- A type of values that a codec knows. -/
inductive Schema
  | unit
  | bool
  | word (w : Width) (reading : Numeral)
  | char
  | string
  | bytes
  | peerId
  | protocolId
  | serviceId
  | response
  | shape
  | reading
  /-- A value that refuses to be encoded, with the reason. -/
  | refusal
  | option (t : Schema)
  | seq (t : Schema)
  /-- A sequence whose length is not known before its elements. -/
  | unsized (t : Schema)
  | endTuple
  | consTuple (first rest : Schema)
  | map (key value : Schema)
  deriving Repr, DecidableEq, Inhabited

namespace Schema

/-- The tuple of the given types. -/
def tuple : List Schema → Schema
  | [] => endTuple
  | t :: ts => consTuple t (tuple ts)

/-- The values of a type. A map is its list of entries, in order and with repetitions. -/
@[reducible] def Carrier : Schema → Type
  | unit => Unit
  | bool => Bool
  | word w _ => BitVec w.bits
  | char => Char
  | string => String
  | bytes => Bytes
  | peerId => PeerId
  | protocolId => ProtocolId
  | serviceId => ServiceId
  | response => Response
  | shape => Shape
  | reading => Reading
  | refusal => String
  | option t => Option t.Carrier
  | seq t => List t.Carrier
  | unsized t => List t.Carrier
  | endTuple => Unit
  | consTuple a b => a.Carrier × b.Carrier
  | map k v => List (k.Carrier × v.Carrier)

/-- The value that a reply slot starts from where the caller gives none. -/
def blank : (t : Schema) → t.Carrier
  | unit => ()
  | bool => false
  | word _ _ => 0
  | char => '\x00'
  | string => ""
  | bytes => []
  | peerId => ⟨""⟩
  | protocolId => ⟨""⟩
  | serviceId => ⟨"", ""⟩
  | response => ⟨""⟩
  | shape => .empty
  | reading => ⟨"", [], none⟩
  | refusal => ""
  | option _ => none
  | seq _ => []
  | unsized _ => []
  | endTuple => ()
  | consTuple a b => (a.blank, b.blank)
  | map _ _ => []

end Schema

/-- A value together with its type. -/
structure Datum where
  schema : Schema
  value : schema.Carrier

end PeerCall
