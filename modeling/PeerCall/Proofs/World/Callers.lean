import PeerCall.Proofs.Channel
import PeerCall.Proofs.World.Steps

/-! # The tasks behind a channel

What the tasks do whose calls are handed back on a channel, and what this makes of the channel
(`World.Drives`). Nobody else touches it (`World.Steps.aside`). A call stays the request that it
was, whoever has it (`Call.SameRequest`). -/

namespace PeerCall

/-- A call that asks the same of the same peer, in the same context. -/
structure Call.SameRequest (call c : Call) : Prop where
  context : c.context = call.context
  dest : c.dest = call.dest
  service : c.service = call.service
  args : c.args = call.args
  replyType : c.replyType = call.replyType

theorem Call.SameRequest.refl (call : Call) : call.SameRequest call := ⟨rfl, rfl, rfl, rfl, rfl⟩

theorem Call.SameRequest.trans {c₁ c₂ c₃ : Call} (h : c₁.SameRequest c₂) (h' : c₂.SameRequest c₃) :
    c₁.SameRequest c₃ :=
  ⟨h'.context.trans h.context, h'.dest.trans h.dest, h'.service.trans h.service,
    h'.args.trans h.args, h'.replyType.trans h.replyType⟩

theorem Call.sameRequest_takeReply (call : Call) (codec : Codec) (bs : Bytes) :
    call.SameRequest (call.takeReply codec bs).1 := by
  unfold takeReply
  split <;> exact ⟨rfl, rfl, rfl, rfl, rfl⟩

theorem World.sameRequest_settleLocal (call : Call) (codec : Codec) (error : Option CallError)
    (reply : Option Bytes) : call.SameRequest (settleLocal call codec error reply) := by
  have hfail : call.SameRequest (error.elim call call.fail) := by
    cases error <;> exact ⟨rfl, rfl, rfl, rfl, rfl⟩
  cases reply with
  | none => exact hfail
  | some bs => exact hfail.trans (Call.sameRequest_takeReply ..)

namespace CallTask

/-- The call that a task drives, as it stands. -/
def call : CallTask → Call
  | dialing call .. => call
  | connecting a => a.call
  | greeting _ g => g.call
  | exchanging _ x => x.call
  | entering call .. => call
  | serving call .. => call
  | delivering call => call

/-- The call, if it is done and only to be handed back. -/
def done? : CallTask → Option Call
  | delivering c => some c
  | _ => none

/-- A task whose reader, if it reads, is one that a frame can leave half read. -/
def Sound : CallTask → Prop
  | exchanging _ x => x.Sound
  | _ => True

end CallTask

theorem CallTask.call_of_opening? {t : CallTask} {c : Call} (h : t.opening? = some c) :
    t.call = c ∧ t.done? = none := by
  cases t with
  | dialing | connecting =>
    cases h
    exact ⟨rfl, rfl⟩
  | _ => cases h

theorem Greeting.Moves.sameRequest {g : Greeting} (h : g.Moves m l p l') :
    g.call.SameRequest (CallTask.ofGreeting link p).call := by
  cases h <;> exact ⟨rfl, rfl, rfl, rfl, rfl⟩

theorem Greeting.Moves.sound_ofGreeting {g : Greeting} (h : g.Moves m l p l') :
    (CallTask.ofGreeting link p).Sound := by
  cases h <;> trivial

theorem Exchange.Moves.sameRequest {x : Exchange} (h : x.Moves m l p l') :
    x.call.SameRequest (CallTask.ofExchange link p).call := by
  cases h with
  | @response _ _ response =>
    simp only [CallTask.ofExchange, CallTask.call, takeResponse]
    split <;> exact ⟨rfl, rfl, rfl, rfl, rfl⟩
  | _ => exact ⟨rfl, rfl, rfl, rfl, rfl⟩

theorem Exchange.Moves.sound_ofExchange {x : Exchange} (h : x.Moves m l p l') :
    (CallTask.ofExchange link p).Sound := by
  cases p with
  | done => trivial
  | more => exact h.sound_of_more

namespace World

theorem taskOf_eq_ok {client : Client} {call : Call} {c : CallTask}
    (h : taskOf client call = .ok c) : c.call = call ∧ c.done? = none ∧ c.Sound := by
  unfold taskOf at h
  split at h <;> cases h <;> exact ⟨rfl, rfl, trivial⟩

/-- What a step of a task makes of it whose call is to be handed back on a channel, and what of the
channels. -/
inductive Drives (w : World) (i channel : Nat) (w' : World) : CallTask → Prop
  | worked {c c'} (ho : c.done? = none) (ht : w'.tasks[i]? = some (.call channel c'))
    (hs : c'.Sound) (hr : c.call.SameRequest c'.call) (hc : w'.channels = w.channels) :
    Drives w i channel w' c
  | lost {call codec v} (hv : v.step? w.moment = some (.done .crashed))
    (ht : w'.tasks[i]? = some .ended)
    (hw : w' = (w.modifyChannel channel Channel.dropSender).setTask i .ended) :
    Drives w i channel w' (.serving call codec v)
  | handed {call ch ch'} (ht : w'.tasks[i]? = some .ended)
    (hch : w.channels[channel]? = some ch) (hs : ch.Sent i call true ch')
    (hc : w'.channels = w.channels.set channel ch') : Drives w i channel w' (.delivering call)
  | lined {call ch ch'} (ht : w'.tasks[i]? = some (.call channel (.delivering call)))
    (hch : w.channels[channel]? = some ch) (hs : ch.Sent i call false ch')
    (hc : w'.channels = w.channels.set channel ch') : Drives w i channel w' (.delivering call)

variable {w w' : World} {i j channel : Nat} {c : CallTask}

theorem Steps.drives (h : Steps w i w') (ht : w.tasks[i]? = some (.call channel c))
    (hc : c.Sound) : w.Drives i channel w' c := by
  have hi : i < w.tasks.length := (List.getElem?_eq_some_iff.mp ht).1
  cases h with
  | stopped ht' ho | refused ht' ho =>
    cases ht.symm.trans ht'
    obtain ⟨hcall, hdone⟩ := CallTask.call_of_opening? ho
    exact .worked hdone (List.getElem?_set_self hi) trivial (hcall ▸ ⟨rfl, rfl, rfl, rfl, rfl⟩) rfl
  | connecting ht' _ _ _ ha =>
    cases ht.symm.trans ht'
    subst ha
    exact .worked rfl (List.getElem?_set_self hi) trivial (.refl _) rfl
  | connected ht' =>
    cases ht.symm.trans ht'
    exact .worked rfl (getElem?_setTask_connect hi) trivial (.refl _) rfl
  | greeted ht' _ hg =>
    cases ht.symm.trans ht'
    have hm := Greeting.moves_of_step? hg
    exact .worked rfl (List.getElem?_set_self hi) hm.sound_ofGreeting hm.sameRequest rfl
  | dialed ht' | unentered ht' | entered ht' | serving ht' =>
    cases ht.symm.trans ht'
    exact .worked rfl (List.getElem?_set_self hi) trivial ⟨rfl, rfl, rfl, rfl, rfl⟩ rfl
  | returned ht' =>
    cases ht.symm.trans ht'
    exact .worked rfl (List.getElem?_set_self hi) trivial (sameRequest_settleLocal ..) rfl
  | exchanged ht' hl hx =>
    cases ht.symm.trans ht'
    have hm := Exchange.moves_of_step? hc hx
    exact .worked rfl (List.getElem?_set_self hi) hm.sound_ofExchange hm.sameRequest rfl
  | crashed ht' hv =>
    cases ht.symm.trans ht'
    exact .lost hv (List.getElem?_set_self hi) rfl
  | @sending _ _ _ _ sent ht' hch hs =>
    cases ht.symm.trans ht'
    have hsent := Channel.sent_of_send? hs
    cases sent with
    | true => exact .handed (List.getElem?_set_self hi) hch hsent rfl
    | false => exact .lined (List.getElem?_set_self hi) hch hsent rfl
  | _ => cases ht.symm.trans ‹w.tasks[i]? = some _›

theorem Steps.length_tasks (h : Steps w i w') : w.tasks.length ≤ w'.tasks.length := by
  cases h with
  | accepted | played =>
    rw [spawn, List.length_append]
    exact Nat.le_add_right ..
  | connected =>
    simp only [connect, addLink, spawn, setTask, List.length_set, List.length_append]
    omega
  | turnedAway => exact Nat.le_refl _
  | _ => exact Nat.le_of_eq (List.length_set ..).symm

/-- Who does not drive a call of a channel leaves the channel alone. -/
theorem Steps.aside {channel : Nat} (h : Steps w i w')
    (hi : ∀ c, w.tasks[i]? ≠ some (.call channel c)) :
    w'.channels[channel]? = w.channels[channel]? := by
  cases h with
  | @crashed channel' _ _ _ ht =>
    have hne : channel' ≠ channel := by
      rintro rfl
      exact hi _ ht
    exact List.getElem?_modify_ne _ _ hne
  | @sending channel' _ _ _ _ ht =>
    have hne : channel' ≠ channel := by
      rintro rfl
      exact hi _ ht
    exact List.getElem?_set_ne hne
  | _ => rfl

end World

end PeerCall
