import PeerCall.Codec
import PeerCall.Context

/-! # Calls

One invocation from the caller's side: the request, the slot for the reply, and the error. -/

namespace PeerCall

/-- A call. Until a reply is stored, the slot holds what it started with. -/
structure Call where
  context : Context
  dest : PeerId
  service : ServiceId
  args : Datum
  replyType : Schema
  reply : replyType.Carrier
  error : Option CallError := none
  replied : Bool := false

namespace Call

/-- Records an error. The last one recorded stays. -/
def fail (c : Call) (e : CallError) : Call := { c with error := some e }

def setReply (c : Call) (v : c.replyType.Carrier) : Call := { c with reply := v, replied := true }

/-- Takes reply bytes: stores what they decode to, or records that they do not. Also tells which. -/
def takeReply (c : Call) (codec : Codec) (bs : Bytes) : Call × Bool :=
  match codec.decode c.replyType bs with
  | .ok v => (c.setReply v, true)
  | .error e => (c.fail (.decode e), false)

def encodeArgs (c : Call) (codec : Codec) : Except StreamError Bytes :=
  codec.encode c.args.schema c.args.value

def replySlot (c : Call) : Datum := ⟨c.replyType, c.reply⟩

/-- What a completed call comes to. -/
def result (c : Call) : Except CallError Datum :=
  match c.error with
  | some e => .error e
  | none => .ok c.replySlot

end Call

end PeerCall
