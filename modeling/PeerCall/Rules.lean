import PeerCall.Codec
import PeerCall.Server

/-! # Servers by rules

A server that is given by a list of rules. The first rule for the service and the method that are
called decides. -/

namespace PeerCall

inductive Rule.Reply
  | nothing
  /-- The arguments as they came. -/
  | verbatim
  /-- The arguments read as a text and written again. -/
  | say
  | bytes (bs : Bytes)
  | value (d : Datum)

/-- What is done for one method of one service. -/
structure Rule where
  service : String
  method : String
  delay : Option Nat := none
  /-- Whether the context may end that early. -/
  heeding : Bool := false
  crashes : Bool := false
  reply : Rule.Reply := .nothing
  error : Option CallError := none

namespace Rule

/-- The end of an invocation: the reply, or the error that kept it from being made. -/
def finish (r : Rule) (codec : Codec) (args : Bytes) : Work :=
  match r.reply with
  | .nothing => .finish r.error none
  | .verbatim => .finish r.error (some args)
  | .bytes bs => .finish r.error (some bs)
  | .say =>
    match codec.decode .string args with
    | .error e => .finish (some (.service e.message)) none
    | .ok s =>
      match codec.encode .string s with
      | .error e => .finish (some (.encode e)) none
      | .ok bs => .finish r.error (some bs)
  | .value d =>
    match codec.encode d.schema d.value with
    | .error e => .finish (some (.encode e)) none
    | .ok bs => .finish r.error (some bs)

/-- All that a rule does. -/
def work (r : Rule) (codec : Codec) (args : Bytes) : Work :=
  let last := if r.crashes then .crash else r.finish codec args
  match r.delay with
  | some ms => .pause ms r.heeding last
  | none => last

def server (rules : List Rule) (codec : Codec) : Server := fun i =>
  match rules.find? fun r => r.service == i.service.name && r.method == i.service.method with
  | some r => r.work codec i.args
  | none =>
    if rules.any (·.service == i.service.name) then
      .finish (some (.service ("unknown method " ++ i.service.method))) none
    else .finish (some (.service ("unknown service " ++ i.service.name))) none

/-- The rules of a server that sends back what it is told, with some methods that do otherwise. -/
def echo : List Rule :=
  [{ service := "Echo", method := "Say", reply := .say },
    { service := "Echo", method := "Mirror", reply := .verbatim },
    { service := "Echo", method := "Nap", delay := some 300, reply := .verbatim },
    { service := "Echo", method := "Fail", reply := .value ⟨.string, "partial"⟩
      error := some (.service "echo failed") },
    { service := "Echo", method := "NoReply", error := some (.service "nothing to say") },
    { service := "Echo", method := "Garbage", reply := .bytes [1, 2, 3]
      error := some (.service "garbage follows") },
    { service := "Echo", method := "Stall", delay := some 30000 }]

end Rule

end PeerCall
