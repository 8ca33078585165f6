import PeerCall.Address
import PeerCall.Bytes
import PeerCall.Bytes.Number
import PeerCall.Call
import PeerCall.Channel
import PeerCall.Client
import PeerCall.Codec
import PeerCall.Context
import PeerCall.Directory
import PeerCall.Error
import PeerCall.Exchange
import PeerCall.Frame
import PeerCall.Handshake
import PeerCall.Ident
import PeerCall.Link
import PeerCall.Network
import PeerCall.Opening
import PeerCall.Pipe
import PeerCall.Progress
import PeerCall.Proofs.Codec
import PeerCall.Proofs.Frame.Reading
import PeerCall.Proofs.Frame.Writing
import PeerCall.Proofs.Halves
import PeerCall.Proofs.LocalCall
import PeerCall.Proofs.Receiving
import PeerCall.Proofs.RemoteCall
import PeerCall.Proofs.Serving
import PeerCall.Proofs.Talk
import PeerCall.Proofs.Talk.Agreement
import PeerCall.Proofs.Talk.Honesty
import PeerCall.Proofs.Traffic
import PeerCall.Proofs.World.Runs
import PeerCall.Proofs.World.Scene
import PeerCall.Responder
import PeerCall.Rules
import PeerCall.Schedule
import PeerCall.Schema
import PeerCall.Script
import PeerCall.Server
import PeerCall.Session.Calls
import PeerCall.Session.Contexts
import PeerCall.Session.Serving
import PeerCall.Session.Sockets
import PeerCall.Session.Streams
import PeerCall.Transfer
import PeerCall.Utf8
import PeerCall.Wire
import PeerCall.World
import PeerCall.Proofs.Talk.Request
import PeerCall.Proofs.Talk.Ending
import PeerCall.Proofs.Completion
import PeerCall.Proofs.Arrivals
import PeerCall.Proofs.World.Steps
import PeerCall.Proofs.World.Calls
import PeerCall.Proofs.Cancellation
import PeerCall.Proofs.World.FarEnd
import PeerCall.Proofs.Execution
import PeerCall.Proofs.World.OwnCalls
import PeerCall.Proofs.Heeding
import PeerCall.Proofs.Speech.Delivery
import PeerCall.Proofs.Wire
import PeerCall.Proofs.World.Callers
import PeerCall.Proofs.Channel
import PeerCall.Proofs.Desk
import PeerCall.Proofs.HandingBack
import PeerCall.Proofs.Replies
import PeerCall.Proofs.World.Seen
import PeerCall.Proofs.World.Shadow
import PeerCall.Proofs.World.Following
import PeerCall.Proofs.FanOut
import PeerCall.Proofs.World.Beginning
import PeerCall.Proofs.World.Streams
import PeerCall.Proofs.Speech.Withholding
import PeerCall.Proofs.Greeting
import PeerCall.Proofs.Answering.Exactness
import PeerCall.Proofs.Passage
import PeerCall.Proofs.Observing
import PeerCall.Proofs.Misuse
import PeerCall.Proofs.World.Comings
import PeerCall.Proofs.World.Porter
import PeerCall.Proofs.World.Fates
import PeerCall.Proofs.Talk.Rebuff
import PeerCall.Proofs.TurningAway
import PeerCall.Proofs.Passage.Resets
import PeerCall.Proofs.Switchboard.Delivery
import PeerCall.Proofs.Admission
import PeerCall.Proofs.Introduction
import PeerCall.Proofs.Opening
import PeerCall.Proofs.World.Openings
