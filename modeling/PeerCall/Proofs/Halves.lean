import PeerCall.Exchange
import PeerCall.Proofs.Frame.Reading
import PeerCall.Proofs.Frame.Writing
import PeerCall.Responder

/-! # The two halves of an exchange

All that a step of the calling half (`Exchange.Moves`) and one of the answering half
(`Responder.Moves`) can do, in terms of what is read and written, and what each waits for. -/

namespace PeerCall

/-! ## The calling half -/

namespace Exchange

theorem Phase.stage_lt (p : Phase) : p.stage < 3 := by
  cases p <;> simp [stage]

/-- An exchange whose reader is one that a frame can leave half read. -/
def Sound (x : Exchange) : Prop :=
  match x.phase with
  | .sending _ => True
  | .header r => r.Sound
  | .reply r => r.Sound

/-- What a step of an exchange can do. -/
inductive Moves (m : Moment) (x : Exchange) (l : Link) : Progress Exchange Call → Link → Prop
  | stopped {e} (hv : x.call.context.verdict m = some e) :
    Moves m x l (.done (x.call.fail e)) (l.abort .left)
  | sending {cs cs' b l'} (hv : x.call.context.verdict m = none) (hp : x.phase = .sending cs)
    (ht : x.buffer.Turn .left cs l (.more cs') b l') :
    Moves m x l (.more { x with buffer := b, phase := .sending cs' }) l'
  | sent {cs b l'} (hv : x.call.context.verdict m = none) (hp : x.phase = .sending cs)
    (ht : x.buffer.Turn .left cs l (.done (.ok ())) b l') :
    Moves m x l (.more { x with buffer := b, phase := .header .start }) l'
  | unsent {cs e b l'} (hv : x.call.context.verdict m = none) (hp : x.phase = .sending cs)
    (ht : x.buffer.Turn .left cs l (.done (.error e)) b l') :
    Moves m x l (.done (x.call.fail (.encode e))) (l'.abort .left)
  | header {r r' unread l'} (hv : x.call.context.verdict m = none) (hp : x.phase = .header r)
    (ht : r.Turn .left x.unread l (.more r') unread l') :
    Moves m x l (.more { x with unread, phase := .header r' }) l'
  | headerLost {r e unread l'} (hv : x.call.context.verdict m = none) (hp : x.phase = .header r)
    (ht : r.Turn .left x.unread l (.done (.error e)) unread l') :
    Moves m x l (.done (x.call.fail (.decode e))) (l'.abort .left)
  | headerBad {r bs e unread l'} (hv : x.call.context.verdict m = none) (hp : x.phase = .header r)
    (ht : r.Turn .left x.unread l (.done (.ok bs)) unread l')
    (hd : x.codec.decode .response bs = .error e) :
    Moves m x l (.done (x.call.fail (.decode e))) (l'.abort .left)
  | response {r bs response unread l'} (hv : x.call.context.verdict m = none)
    (hp : x.phase = .header r) (ht : r.Turn .left x.unread l (.done (.ok bs)) unread l')
    (hd : x.codec.decode .response bs = .ok response) :
    Moves m x l (.more ({ x with unread }.takeResponse response)) l'
  | reply {r r' unread l'} (hv : x.call.context.verdict m = none) (hp : x.phase = .reply r)
    (ht : r.Turn .left x.unread l (.more r') unread l') :
    Moves m x l (.more { x with unread, phase := .reply r' }) l'
  | replyMissing {r unread l'} (hv : x.call.context.verdict m = none) (hp : x.phase = .reply r)
    (ht : r.Turn .left x.unread l (.done (.error .closed)) unread l') :
    Moves m x l (.done x.call) (l'.finish .left)
  | replyLost {r e unread l'} (hv : x.call.context.verdict m = none) (hp : x.phase = .reply r)
    (ht : r.Turn .left x.unread l (.done (.error e)) unread l') (hne : e ≠ .closed) :
    Moves m x l (.done (x.call.fail (.decode e))) (l'.abort .left)
  | replyEmpty {r unread l'} (hv : x.call.context.verdict m = none) (hp : x.phase = .reply r)
    (ht : r.Turn .left x.unread l (.done (.ok [])) unread l') :
    Moves m x l (.done x.call) (l'.finish .left)
  | replyBad {r bs e unread l'} (hv : x.call.context.verdict m = none) (hp : x.phase = .reply r)
    (ht : r.Turn .left x.unread l (.done (.ok bs)) unread l') (hb : bs ≠ [])
    (hd : x.codec.decode x.call.replyType bs = .error e) :
    Moves m x l (.done (x.call.fail (.decode e))) (l'.abort .left)
  | replied {r bs v unread l'} (hv : x.call.context.verdict m = none) (hp : x.phase = .reply r)
    (ht : r.Turn .left x.unread l (.done (.ok bs)) unread l') (hb : bs ≠ [])
    (hd : x.codec.decode x.call.replyType bs = .ok v) :
    Moves m x l (.done (x.call.setReply v)) (l'.finish .left)

theorem moves_of_step? {x : Exchange} (hx : x.Sound) (h : x.step? m l = some (p, l')) :
    x.Moves m l p l' := by
  unfold step? at h
  unfold Sound at hx
  cases hv : x.call.context.verdict m with
  | some e =>
    rw [hv] at h
    cases h
    exact .stopped hv
  | none =>
    rw [hv] at h
    cases hp : x.phase with
    | sending cs =>
      simp only [hp] at h
      split at h
      · cases h
      · rename_i hs
        cases h
        exact .sending hv hp (SendBuffer.turn_of_step? hs)
      · rename_i hs
        cases h
        exact .unsent hv hp (SendBuffer.turn_of_step? hs)
      · rename_i hs
        cases h
        exact .sent hv hp (SendBuffer.turn_of_step? hs)
    | header r =>
      rw [hp] at hx
      simp only [hp] at h
      split at h
      · cases h
      · rename_i hs
        cases h
        exact .header hv hp (FrameReader.turn_of_step? hx hs)
      · rename_i hs
        cases h
        exact .headerLost hv hp (FrameReader.turn_of_step? hx hs)
      · rename_i hs
        split at h
        · rename_i hd
          cases h
          exact .headerBad hv hp (FrameReader.turn_of_step? hx hs) hd
        · rename_i hd
          cases h
          exact .response hv hp (FrameReader.turn_of_step? hx hs) hd
    | reply r =>
      rw [hp] at hx
      simp only [hp] at h
      split at h
      · cases h
      · rename_i hs
        cases h
        exact .reply hv hp (FrameReader.turn_of_step? hx hs)
      · rename_i hs
        have ht := FrameReader.turn_of_step? hx hs
        split at h
        · rename_i hc
          cases h
          exact .replyMissing hv hp (StreamError.isClosed_iff.mp hc ▸ ht)
        · rename_i hc
          cases h
          exact .replyLost hv hp ht fun he => hc (StreamError.isClosed_iff.mpr he)
      · rename_i bs unread l₁ hs
        have ht := FrameReader.turn_of_step? hx hs
        simp only [takeReply, Call.takeReply] at h
        by_cases hb : bs = []
        · subst hb
          cases h
          exact .replyEmpty hv hp ht
        · rw [if_neg fun he => hb (List.isEmpty_iff.mp he)] at h
          cases hd : x.codec.decode x.call.replyType bs with
          | ok v =>
            simp only [hd] at h
            cases h
            exact .replied hv hp ht hb hd
          | error e =>
            simp only [hd] at h
            cases h
            exact .replyBad hv hp ht hb hd

/-- What an exchange waits for: room while it sends, and else bytes that can still come. -/
def Waits (x : Exchange) (l : Link) : Prop :=
  match x.phase with
  | .sending _ => SendBuffer.Waits .left l
  | .header r => r.Waits .left x.unread l
  | .reply r => r.Waits .left x.unread l

theorem waits_of_step? {x : Exchange} (hx : x.Sound) (h : x.step? m l = none) : x.Waits l := by
  unfold step? at h
  unfold Sound at hx
  unfold Waits
  cases hv : x.call.context.verdict m with
  | some e => simp [hv] at h
  | none =>
    rw [hv] at h
    cases hp : x.phase with
    | sending cs =>
      simp only [hp] at h
      split at h
      · exact SendBuffer.step?_eq_none ‹_›
      all_goals cases h
    | header r =>
      rw [hp] at hx
      simp only [hp] at h
      split at h
      · exact FrameReader.step?_eq_none hx ‹_›
      · cases h
      · cases h
      · split at h <;> cases h
    | reply r =>
      rw [hp] at hx
      simp only [hp] at h
      split at h
      · exact FrameReader.step?_eq_none hx ‹_›
      all_goals cases h

/-- An exchange that waits with its request sent waits for bytes. -/
theorem Waits.dry {x : Exchange} (h : x.Waits l) (hs : 0 < x.phase.stage) :
    l.flow .right = [] ∧ l.shut .right = false := by
  unfold Waits at h
  cases hp : x.phase with
  | sending =>
    rw [hp] at hs
    cases hs
  | header | reply =>
    rw [hp] at h
    exact ⟨FrameReader.Waits.dry h, FrameReader.Waits.unshut h⟩

end Exchange

/-! ## The answering half -/

namespace Responder

/-- A responder whose reader is one that a frame can leave half read. -/
def Sound (r : Responder) : Prop :=
  match r.phase with
  | .service reader => reader.Sound
  | .args _ reader => reader.Sound
  | _ => True

def invocation (r : Responder) (service : ServiceId) (args : Bytes) : Invocation :=
  { context := r.context, peer := r.peer, service, args }

/-- What a step of a responder can do. -/
inductive Moves (m : Moment) (r : Responder) (l : Link) : Responder.Turn → Prop
  | service {rd rd' unread l'} (hp : r.phase = .service rd)
    (ht : rd.Turn .right r.unread l (.more rd') unread l') :
    Moves m r l ({ r with unread }.become (.service rd') l')
  | serviceLost {rd e unread l'} (hp : r.phase = .service rd)
    (ht : rd.Turn .right r.unread l (.done (.error e)) unread l') :
    Moves m r l (r.fail (.decode e) l')
  | serviceBad {rd bs e unread l'} (hp : r.phase = .service rd)
    (ht : rd.Turn .right r.unread l (.done (.ok bs)) unread l')
    (hd : r.codec.decode .serviceId bs = .error e) : Moves m r l (r.fail (.decode e) l')
  | named {rd bs service unread l'} (hp : r.phase = .service rd)
    (ht : rd.Turn .right r.unread l (.done (.ok bs)) unread l')
    (hd : r.codec.decode .serviceId bs = .ok service) :
    Moves m r l ({ r with unread }.become (.args service .start) l')
  | args {service rd rd' unread l'} (hp : r.phase = .args service rd)
    (ht : rd.Turn .right r.unread l (.more rd') unread l') :
    Moves m r l ({ r with unread }.become (.args service rd') l')
  | argsLost {service rd e unread l'} (hp : r.phase = .args service rd)
    (ht : rd.Turn .right r.unread l (.done (.error e)) unread l') :
    Moves m r l (r.fail (.decode e) l')
  | invoked {service rd args unread l'} (hp : r.phase = .args service rd)
    (ht : rd.Turn .right r.unread l (.done (.ok args)) unread l') :
    Moves m r l { { r with unread }.become
      (.serving (.ofInvocation r.server (r.invocation service args))) l' with
        invoked := some (r.invocation service args) }
  | serving {v v'} (hp : r.phase = .serving v) (hs : v.step? m = some (.more v')) :
    Moves m r l (r.become (.serving v') l)
  | crashed {v} (hp : r.phase = .serving v) (hs : v.step? m = some (.done .crashed)) :
    Moves m r l (r.become .crashed (l.drop .right))
  | returned {v error reply} (hp : r.phase = .serving v)
    (hs : v.step? m = some (.done (.returned error reply))) :
    Moves m r l (r.become (.responding (response r.codec error reply)) l)
  | responding {cs cs' b l'} (hp : r.phase = .responding cs)
    (ht : r.buffer.Turn .right cs l (.more cs') b l') :
    Moves m r l ({ r with buffer := b }.become (.responding cs') l')
  | unresponded {cs e b l'} (hp : r.phase = .responding cs)
    (ht : r.buffer.Turn .right cs l (.done (.error e)) b l') : Moves m r l (r.fail (.encode e) l')
  | responded {cs b l'} (hp : r.phase = .responding cs)
    (ht : r.buffer.Turn .right cs l (.done (.ok ())) b l') :
    Moves m r l ({ r with buffer := b }.become (.ended (.ok ())) (l'.finish .right))

theorem moves_of_step? {r : Responder} (hr : r.Sound) (h : r.step? m l = some turn) :
    r.Moves m l turn := by
  unfold step? at h
  unfold Sound at hr
  cases hp : r.phase with
  | service reader =>
    rw [hp] at hr
    simp only [hp] at h
    split at h
    · cases h
    · rename_i hs
      cases h
      exact .service hp (FrameReader.turn_of_step? hr hs)
    · rename_i hs
      cases h
      exact .serviceLost hp (FrameReader.turn_of_step? hr hs)
    · rename_i hs
      split at h
      · rename_i hd
        cases h
        exact .serviceBad hp (FrameReader.turn_of_step? hr hs) hd
      · rename_i hd
        cases h
        exact .named hp (FrameReader.turn_of_step? hr hs) hd
  | args service reader =>
    rw [hp] at hr
    simp only [hp] at h
    split at h
    · cases h
    · rename_i hs
      cases h
      exact .args hp (FrameReader.turn_of_step? hr hs)
    · rename_i hs
      cases h
      exact .argsLost hp (FrameReader.turn_of_step? hr hs)
    · rename_i hs
      cases h
      exact .invoked hp (FrameReader.turn_of_step? hr hs)
  | serving v =>
    simp only [hp] at h
    split at h
    · cases h
    · rename_i hs
      cases h
      exact .serving hp hs
    · rename_i hs
      cases h
      exact .crashed hp hs
    · rename_i hs
      cases h
      exact .returned hp hs
  | responding cs =>
    simp only [hp] at h
    split at h
    · cases h
    · rename_i hs
      cases h
      exact .responding hp (SendBuffer.turn_of_step? hs)
    · rename_i hs
      cases h
      exact .unresponded hp (SendBuffer.turn_of_step? hs)
    · rename_i hs
      cases h
      exact .responded hp (SendBuffer.turn_of_step? hs)
  | ended | crashed =>
    simp only [hp] at h
    cases h

/-- A responder that differs only in how far it has come. -/
structure Same (r r' : Responder) : Prop where
  server : r'.server = r.server
  codec : r'.codec = r.codec
  peer : r'.peer = r.peer
  context : r'.context = r.context

theorem Moves.same {r : Responder} (h : r.Moves m l turn) : r.Same turn.responder := by
  cases h <;> exact ⟨rfl, rfl, rfl, rfl⟩

/-- Whom a responder invokes the server for. -/
theorem Moves.peer_of_invoked {r : Responder} {i : Invocation} (h : r.Moves m l turn)
    (hi : turn.invoked = some i) : i.peer = r.peer := by
  cases h with
  | invoked =>
    cases hi
    rfl
  | _ => cases hi

theorem Moves.sound {r : Responder} (h : r.Moves m l turn) : turn.responder.Sound := by
  cases h with
  | service _ ht | args _ ht => exact ht.sound_of_more
  | named => exact FrameReader.sound_start
  | _ => trivial

/-- A responder whose server is at work waits just for that. -/
theorem step?_of_serving {r : Responder} (hp : r.phase = .serving v) :
    r.step? m l = none ↔ v.step? m = none := by
  unfold step?
  simp only [hp]
  split <;> simp_all

/-- What a responder waits for: bytes that can still come, the server, or room. -/
def Waits (r : Responder) (m : Moment) (l : Link) : Prop :=
  match r.phase with
  | .service rd => rd.Waits .right r.unread l
  | .args _ rd => rd.Waits .right r.unread l
  | .serving v => v.step? m = none
  | .responding _ => SendBuffer.Waits .right l
  | .ended _ => True
  | .crashed => True

theorem waits_of_step? {r : Responder} (hr : r.Sound) (h : r.step? m l = none) : r.Waits m l := by
  unfold step? at h
  unfold Sound at hr
  unfold Waits
  cases hp : r.phase with
  | service reader =>
    rw [hp] at hr
    simp only [hp] at h
    split at h
    · exact FrameReader.step?_eq_none hr ‹_›
    · cases h
    · cases h
    · split at h <;> cases h
  | args service reader =>
    rw [hp] at hr
    simp only [hp] at h
    split at h
    · exact FrameReader.step?_eq_none hr ‹_›
    all_goals cases h
  | serving v =>
    simp only [hp] at h
    split at h
    · assumption
    all_goals cases h
  | responding cs =>
    simp only [hp] at h
    split at h
    · exact SendBuffer.step?_eq_none ‹_›
    all_goals cases h
  | ended | crashed => trivial

end Responder

end PeerCall
