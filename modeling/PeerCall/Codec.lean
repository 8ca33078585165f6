import PeerCall.Error
import PeerCall.Wire

/-! # Codecs

A codec turns one value of a schema into one payload and back. All calls over a stream use one codec
for the service, the arguments, the response and the reply. -/

namespace PeerCall

/-- A way to write values of every schema. -/
structure Codec where
  encode : (t : Schema) → t.Carrier → Except StreamError Bytes
  decode : (t : Schema) → Bytes → Except StreamError t.Carrier

namespace Codec

/-- The wire format. Bytes after the value are ignored. -/
def standard : Codec where
  encode t v := (Wire.encode t v).mapError fun f => .codec f.message
  decode t bs :=
    match Wire.decode t bs with
    | .ok (v, _) => .ok v
    | .error f => .error (.codec f.message)

/-- The wire format with all bytes in the opposite order. -/
def reversed : Codec where
  encode t v := (standard.encode t v).map List.reverse
  decode t bs := standard.decode t bs.reverse

def refuseEncode : Codec where
  encode _ _ := .error (.custom "encode refused")
  decode := standard.decode

def refuseDecode : Codec where
  encode := standard.encode
  decode _ _ := .error (.custom "decode refused")

end Codec

end PeerCall
