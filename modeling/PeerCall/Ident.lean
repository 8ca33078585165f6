/-! # Identities

The names that travel with a call: peers, protocols, and the remote method. -/

namespace PeerCall

/-- Identity of a peer. The empty text is kept for "this process". -/
structure PeerId where
  text : String
  deriving Repr, DecidableEq, Inhabited, Hashable

namespace PeerId

/-- The identity that routes a call to the local server. -/
def here : PeerId := ⟨""⟩

def isHere (p : PeerId) : Bool := p.text.isEmpty

theorem isHere_iff {p : PeerId} : p.isHere = true ↔ p = .here := by
  obtain ⟨text⟩ := p
  simp [isHere, here]

/-- Peers are ordered by the bytes of their text. For UTF-8 that is the order of its characters. -/
def order (p q : PeerId) : Ordering := compareOfLessAndEq p.text q.text

end PeerId

/-- Tag that selects a protocol and its version. -/
structure ProtocolId where
  text : String
  deriving Repr, DecidableEq, Inhabited, Hashable

namespace ProtocolId

def isEmpty (p : ProtocolId) : Bool := p.text.isEmpty

/-- The protocol used where none is chosen. -/
def standard : ProtocolId := ⟨"/tether/rpc/1.0.0"⟩

end ProtocolId

/-- The method that a call asks for. -/
structure ServiceId where
  name : String
  method : String
  deriving Repr, DecidableEq, Inhabited

/-- A method is shown as its service and its name with a dot between. -/
def ServiceId.display (s : ServiceId) : String := s.name ++ "." ++ s.method

end PeerCall
