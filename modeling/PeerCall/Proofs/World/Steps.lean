import PeerCall.Proofs.Acting
import PeerCall.Proofs.Arrivals
import PeerCall.Proofs.Opening
import PeerCall.Proofs.Talk
import PeerCall.Proofs.World.Runs

/-! # Steps in any world

All that a step of a task can do, whatever else there is (`World.Steps`). From this one sees what it
leaves alone: the other tasks (`World.Steps.task`), the links of which it holds no end
(`World.Steps.link`), and the order among the numbers of links (`World.Steps.inOrder`). -/

namespace PeerCall

/-- The end of a link that a task holds. -/
def Task.end? : Task → Option (Nat × Side)
  | .call _ (.greeting link _) => some (link, .left)
  | .call _ (.exchanging link _) => some (link, .left)
  | .respond _ link _ => some (link, .right)
  | .script _ a s => some (a.link, s.side)
  | _ => none

/-- Whether a task is about to invoke the local server. -/
def Task.isEntering : Task → Bool
  | .call _ (.entering ..) => true
  | _ => false

/-- What may become of a task with a step. -/
inductive Task.Becomes : Task → Task → Prop
  | same {t} : Becomes t t
  | call {channel c c'} : Becomes (.call channel c) (.call channel c')
  | respond {owner link r r'} : Becomes (.respond owner link r) (.respond owner link r')
  | script {owner a s s'} : Becomes (.script owner a s) (.script owner a s')
  | cancel {token ms wake wake'} : Becomes (.cancel token ms wake) (.cancel token ms wake')
  | ended {t} : Becomes t .ended

/-- Why a call does not get to the local server. -/
inductive Call.Unserved (call : Call) (codec : Codec) : Option Site → CallError → Prop
  | serverless : Unserved call codec none .noServer
  | unencodable {site e} (h : call.encodeArgs codec = .error e) :
    Unserved call codec (some site) (.encode e)

/-- The call of a task that is to open a link and has none yet. -/
def CallTask.opening? : CallTask → Option Call
  | .dialing call .. => some call
  | .connecting a => some a.call
  | _ => none

/-- What becomes of the task of a greeting. -/
def CallTask.ofGreeting (link : Nat) : Progress Greeting (Except Call Exchange) → CallTask
  | .more g => .greeting link g
  | .done (.ok x) => .exchanging link x
  | .done (.error c) => .delivering c

/-- What becomes of the task of an exchange. -/
def CallTask.ofExchange (link : Nat) : Progress Exchange Call → CallTask
  | .more x => .exchanging link x
  | .done c => .delivering c

/-- The task that answers an arrival. -/
def Site.responder (site : Site) (codec : Codec) (a : Arrival) (token : Token) : Responder where
  server := site.server
  codec := codec
  peer := a.dialer
  context := ⟨token, none⟩

namespace World

/-- Why a call gets no link. -/
inductive Refuses (w : World) : CallTask → StreamError → Prop
  | unknown {call codec host protocol book timeout} (hr : host.reach = .dialing book timeout)
    (hb : book.get? call.dest = none) :
    Refuses w (.dialing call codec host protocol) (.unknownAddress call.dest)
  | undialed {call codec host protocol e} (hr : host.reach = .network)
    (hd : w.network.dial host.id call.dest protocol w.links.length = .error e) :
    Refuses w (.dialing call codec host protocol) e
  | unconnected {a e}
    (ho : a.outcome? w.moment (w.endpoints a.address a.since) = some (.failed e)) :
    Refuses w (.connecting a) e

/-- What a step of the task at a place can do. -/
inductive Steps (w : World) (i : Nat) : World → Prop
  | stopped {channel c call e} (ht : w.tasks[i]? = some (.call channel c))
    (ho : c.opening? = some call) (hv : call.context.verdict w.moment = some e) :
    Steps w i (w.setTask i (.call channel (.delivering (call.fail e))))
  | refused {channel c call e} (ht : w.tasks[i]? = some (.call channel c))
    (ho : c.opening? = some call) (hv : call.context.verdict w.moment = none)
    (hr : w.Refuses c e) :
    Steps w i (w.setTask i (.call channel (.delivering (call.fail (.connection call.dest e)))))
  | dialed {channel call codec host protocol network}
    (ht : w.tasks[i]? = some (.call channel (.dialing call codec host protocol)))
    (hv : call.context.verdict w.moment = none)
    (hd : w.network.dial host.id call.dest protocol w.links.length = .ok network)
    (hr : host.reach = .network) :
    Steps w i ({ w with network, links := w.links ++ [Link.ofCapacity linkCapacity] }.setTask i
      (.call channel (.exchanging w.links.length (.ofCall codec call))))
  | connecting {channel call codec host protocol book timeout address} {a : Attempt}
    (ht : w.tasks[i]? = some (.call channel (.dialing call codec host protocol)))
    (hv : call.context.verdict w.moment = none) (hr : host.reach = .dialing book timeout)
    (hb : book.get? call.dest = some address)
    (ha : a = ⟨call, codec, protocol, host.id, address, w.moment.now, timeout⟩) :
    Steps w i (w.setTask i (.call channel (.connecting a)))
  | connected {channel a capacity owner actions}
    (ht : w.tasks[i]? = some (.call channel (.connecting a)))
    (hv : a.call.context.verdict w.moment = none)
    (ho : a.outcome? w.moment (w.endpoints a.address a.since) =
      some (.connected capacity owner actions)) :
    Steps w i ((w.connect a capacity owner actions).2.setTask i
      (.call channel (.greeting w.links.length (.ofAttempt a))))
  | greeted {channel link g l p l'}
    (ht : w.tasks[i]? = some (.call channel (.greeting link g)))
    (hl : w.links[link]? = some l) (hg : g.step? w.moment l = some (p, l')) :
    Steps w i ((w.setLink link l').setTask i (.call channel (.ofGreeting link p)))
  | exchanged {channel link x l p l'}
    (ht : w.tasks[i]? = some (.call channel (.exchanging link x)))
    (hl : w.links[link]? = some l) (hx : x.step? w.moment l = some (p, l')) :
    Steps w i ((w.setLink link l').setTask i (.call channel (.ofExchange link p)))
  | unentered {channel call codec peer site e}
    (ht : w.tasks[i]? = some (.call channel (.entering call codec peer site)))
    (hu : call.Unserved codec site e) :
    Steps w i (w.setTask i (.call channel (.delivering (call.fail e))))
  | entered {channel call codec peer args} {site : Site} {inv : Invocation}
    (ht : w.tasks[i]? = some (.call channel (.entering call codec peer (some site))))
    (ha : call.encodeArgs codec = .ok args)
    (hi : inv = { context := call.context, peer, service := call.service, args }) :
    Steps w i ((w.note site.number inv).setTask i
      (.call channel (.serving call codec (.ofInvocation site.server inv))))
  | serving {channel call codec v v'}
    (ht : w.tasks[i]? = some (.call channel (.serving call codec v)))
    (hv : v.step? w.moment = some (.more v')) :
    Steps w i (w.setTask i (.call channel (.serving call codec v')))
  | crashed {channel call codec v}
    (ht : w.tasks[i]? = some (.call channel (.serving call codec v)))
    (hv : v.step? w.moment = some (.done .crashed)) :
    Steps w i ((w.modifyChannel channel Channel.dropSender).setTask i .ended)
  | returned {channel call codec v error reply}
    (ht : w.tasks[i]? = some (.call channel (.serving call codec v)))
    (hv : v.step? w.moment = some (.done (.returned error reply))) :
    Steps w i (w.setTask i (.call channel (.delivering (settleLocal call codec error reply))))
  | sending {channel call ch ch' sent}
    (ht : w.tasks[i]? = some (.call channel (.delivering call)))
    (hc : w.channels[channel]? = some ch) (hs : ch.send? i call = some (sent, ch')) :
    Steps w i ({ w with channels := w.channels.set channel ch' }.setTask i
      (if sent then .ended else .call channel (.delivering call)))
  | responded {owner link r l turn}
    (ht : w.tasks[i]? = some (.respond owner link r))
    (hl : w.links[link]? = some l) (hr : r.step? w.moment l = some turn) :
    Steps w i { (w.setLink link turn.link).setTask i (.respond owner link turn.responder) with
      notes := w.notes ++ turn.noted owner w.moment }
  | accepted {inbox codec protocol a network} {site : Site}
    (ht : w.tasks[i]? = some (.accept inbox (.serve site codec protocol)))
    (hn : w.network.receive inbox = (.arrived a, network)) (hp : a.protocol = protocol) :
    Steps w i ({ w with network, tokens := w.tokens + 1 }.spawn
      (.respond site.number a.link (site.responder codec a (.root w.tokens))))
  | turnedAway {inbox site codec protocol a network}
    (ht : w.tasks[i]? = some (.accept inbox (.serve site codec protocol)))
    (hn : w.network.receive inbox = (.arrived a, network)) (hp : a.protocol ≠ protocol) :
    Steps w i { w with network, links := w.links.modify a.link (Link.abort .right) }
  | played {inbox owner actions a network}
    (ht : w.tasks[i]? = some (.accept inbox (.play owner actions)))
    (hn : w.network.receive inbox = (.arrived a, network)) :
    Steps w i ({ w with network }.spawn (.script owner a { side := .right, actions }))
  | closed {inbox intake} (ht : w.tasks[i]? = some (.accept inbox intake))
    (hn : ∀ a network, w.network.receive inbox ≠ (.arrived a, network)) :
    Steps w i (w.setTask i .ended)
  | scripted {owner a s l s' l'} (ht : w.tasks[i]? = some (.script owner a s))
    (hl : w.links[a.link]? = some l) (hs : s.step? w.moment l = some (s', l')) :
    Steps w i ((w.setLink a.link l').setTask i (.script owner a s'))
  | timed {token ms} (ht : w.tasks[i]? = some (.cancel token ms none)) :
    Steps w i (w.setTask i (.cancel token ms (some (w.moment.now + ms))))
  | fired {token ms wake} (ht : w.tasks[i]? = some (.cancel token ms (some wake))) :
    Steps w i ((w.fire token).setTask i .ended)

variable {w w' : World}

private theorem steps_of_stepCall? (ht : w.tasks[i]? = some (.call channel c)) :
    (∀ c' w₁, w.stepCall? i channel c = some (some c', w₁) →
      Steps w i (w₁.setTask i (.call channel c'))) ∧
    ∀ w₁, w.stepCall? i channel c = some (none, w₁) → Steps w i (w₁.setTask i .ended) := by
  cases c with
  | dialing call codec host protocol =>
    refine ⟨fun c' w₁ h => ?_, fun w₁ h => ?_⟩
    · simp only [stepCall?, Option.some.injEq, Prod.mk.injEq] at h
      unfold stepDialing at h
      split at h
      · obtain ⟨⟨⟩, rfl⟩ := h
        exact .stopped ht rfl ‹_›
      · rename_i hv
        split at h
        · rename_i hr
          split at h <;> obtain ⟨⟨⟩, rfl⟩ := h
          · exact .refused ht rfl hv (.unknown hr ‹_›)
          · exact .connecting ht hv hr ‹_› rfl
        · rename_i hr
          split at h <;> obtain ⟨⟨⟩, rfl⟩ := h
          · exact .refused ht rfl hv (.undialed hr ‹_›)
          · exact .dialed ht hv ‹_› hr
    · simp [stepCall?] at h
  | connecting a =>
    refine ⟨fun c' w₁ h => ?_, fun w₁ h => ?_⟩
    · obtain ⟨⟨c, w₂⟩, hc, he⟩ := Option.map_eq_some_iff.mp h
      cases he
      unfold stepConnecting? at hc
      split at hc
      · cases hc
        exact .stopped ht rfl ‹_›
      · rename_i hv
        split at hc <;> cases hc
        · exact .refused ht rfl hv (.unconnected ‹_›)
        · exact .connected ht hv ‹_›
    · simp [stepCall?] at h
  | greeting link g =>
    refine ⟨fun c' w₁ h => ?_, fun w₁ h => ?_⟩
    · simp only [stepCall?] at h
      split at h
      · cases h
      · rename_i hl
        split at h <;> cases h <;> rename_i hg <;> exact .greeted ht hl hg
    · simp only [stepCall?] at h
      split at h
      · cases h
      · split at h <;> cases h
  | exchanging link x =>
    refine ⟨fun c' w₁ h => ?_, fun w₁ h => ?_⟩
    · simp only [stepCall?] at h
      split at h
      · cases h
      · rename_i hl
        split at h <;> cases h
        · rename_i hx
          exact .exchanged ht hl hx
        · rename_i hx
          exact .exchanged ht hl hx
    · simp only [stepCall?] at h
      split at h
      · cases h
      · split at h <;> cases h
  | entering call codec peer site =>
    refine ⟨fun c' w₁ h => ?_, fun w₁ h => ?_⟩
    · simp only [stepCall?, Option.some.injEq, Prod.mk.injEq] at h
      unfold stepEntering at h
      split at h
      · obtain ⟨⟨⟩, rfl⟩ := h
        exact .unentered ht .serverless
      · split at h <;> obtain ⟨⟨⟩, rfl⟩ := h
        · exact .unentered ht (.unencodable ‹_›)
        · exact .entered ht ‹_› rfl
    · simp [stepCall?] at h
  | serving call codec v =>
    refine ⟨fun c' w₁ h => ?_, fun w₁ h => ?_⟩
    · simp only [stepCall?] at h
      split at h <;> cases h
      · exact .serving ht ‹_›
      · exact .returned ht ‹_›
    · simp only [stepCall?] at h
      split at h <;> cases h
      exact .crashed ht ‹_›
  | delivering call =>
    have hsent {w₁ : World} {c? : Option CallTask}
        (h : w.stepCall? i channel (.delivering call) = some (c?, w₁)) :
        ∃ ch sent ch', w.channels[channel]? = some ch ∧ ch.send? i call = some (sent, ch') ∧
          c? = (if sent then none else some (.delivering call)) ∧
          w₁ = { w with channels := w.channels.set channel ch' } := by
      simp only [stepCall?] at h
      split at h
      · cases h
      · rename_i hc
        split at h <;> cases h
        exact ⟨_, _, _, hc, ‹_›, rfl, rfl⟩
    refine ⟨fun c' w₁ h => ?_, fun w₁ h => ?_⟩
    · obtain ⟨ch, sent, ch', hc, hs, hc', rfl⟩ := hsent h
      cases sent with
      | true => cases hc'
      | false =>
        cases hc'
        exact .sending ht hc hs
    · obtain ⟨ch, sent, ch', hc, hs, hc', rfl⟩ := hsent h
      cases sent with
      | true => exact .sending ht hc hs
      | false => cases hc'

theorem steps_of_step? (h : w.step? i = some w') : Steps w i w' := by
  unfold step? at h
  split at h
  · cases h
  · cases h
  · rename_i ht
    split at h <;> cases h
    · exact (steps_of_stepCall? ht).1 _ _ ‹_›
    · exact (steps_of_stepCall? ht).2 _ ‹_›
  · rename_i ht
    split at h
    · cases h
    · rename_i hl
      split at h
      · cases h
      · rename_i turn hr
        have hsteps := Steps.responded ht hl hr
        cases h
        cases hi : turn.invoked with
        | none =>
          rw [Responder.Turn.noted, hi] at hsteps
          simp only [Option.toList_none, List.map_nil, List.append_nil] at hsteps
          exact hsteps
        | some inv =>
          rw [Responder.Turn.noted, hi] at hsteps
          exact hsteps
  · rename_i ht
    split at h
    · rename_i a network hn
      cases h
      unfold takeIn
      split
      · split
        · exact .accepted ht hn ‹_›
        · exact .turnedAway ht hn ‹_›
      · exact .played ht hn
    · cases h
    · rename_i hn
      cases h
      exact .closed ht fun a network ha => by cases hn.symm.trans ha
    · rename_i hn
      cases h
      exact .closed ht fun a network ha => by cases hn.symm.trans ha
  · rename_i ht
    split at h
    · cases h
    · rename_i hl
      split at h
      · cases h
      · rename_i hs
        cases h
        exact .scripted ht hl hs
  · rename_i ht
    split at h
    · cases h
      exact .timed ht
    · split at h <;> cases h
      exact .fired ht

theorem getElem?_setTask_connect {a : Attempt} {capacity owner : Nat} {actions : List Script.Action}
    {t : Task} (hi : i < w.tasks.length) :
    ((w.connect a capacity owner actions).2.setTask i t).tasks[i]? = some t := by
  refine List.getElem?_set_self ?_
  simp only [connect, addLink, spawn, List.length_append]
  omega

/-! ## Ends of links -/

/-- The task at a place holds an end of a link. -/
def Holds (w : World) (i link : Nat) (s : Side) : Prop :=
  ∃ t, w.tasks[i]? = some t ∧ t.end? = some (link, s)

/-- The task at a place takes the next stream of an inbox. -/
def Receives (w : World) (i inbox : Nat) (a : Arrival) : Prop :=
  (∃ intake, w.tasks[i]? = some (.accept inbox intake)) ∧
    ∃ network, w.network.receive inbox = (.arrived a, network)

theorem holds_setTask {t : Task} (h : (w.setTask i t).Holds j link s) :
    j ≠ i ∧ w.Holds j link s ∨ j = i ∧ t.end? = some (link, s) := by
  obtain ⟨t', ht, he⟩ := h
  simp only [setTask, List.getElem?_set] at ht
  split at ht
  · rename_i hij
    split at ht <;> cases ht
    exact .inr ⟨hij.symm, he⟩
  · rename_i hij
    exact .inl ⟨Ne.symm hij, t', ht, he⟩

theorem holds_spawn {t : Task} (h : (w.spawn t).Holds j link s) :
    w.Holds j link s ∨ j = w.tasks.length ∧ t.end? = some (link, s) := by
  obtain ⟨t', ht, he⟩ := h
  simp only [spawn, List.getElem?_append] at ht
  split at ht
  · exact .inl ⟨t', ht, he⟩
  · obtain ⟨hj, rfl⟩ := List.getElem?_eq_some_iff.mp ht
    rw [List.length_singleton] at hj
    refine .inr ⟨by omega, ?_⟩
    simpa using he

/-- Who holds an end after a step held it before, or the link was just opened, by this task or to
this one, or has accepted it. -/
theorem Steps.holds (h : Steps w i w') (hh : w'.Holds j link s) :
    w.Holds j link s ∨
      (link = w.links.length ∧ link < w'.links.length ∧
        (s = .left ∧ j = i ∨ s = .right ∧ j = w.tasks.length)) ∨
      s = .right ∧ j = w.tasks.length ∧ ∃ inbox a, w.Receives i inbox a ∧ a.link = link := by
  have hset {w₁ : World} {t : Task} (hw : w₁.tasks = w.tasks)
      (hh : (w₁.setTask i t).Holds j link s) (ht : t.end? = none ∨ ∃ t₀,
        w.tasks[i]? = some t₀ ∧ t.end? = t₀.end?) : w.Holds j link s := by
    rcases holds_setTask hh with ⟨-, t', ht', he⟩ | ⟨rfl, he⟩
    · exact ⟨t', hw ▸ ht', he⟩
    · rcases ht with hn | ⟨t₀, ht₀, he₀⟩
      · cases hn.symm.trans he
      · exact ⟨t₀, ht₀, he₀.symm.trans he⟩
  cases h with
  | stopped | refused | connecting | unentered | entered | serving | crashed | returned | closed
  | timed | fired =>
    exact .inl (hset rfl hh (.inl rfl))
  | @greeted _ _ _ _ p _ ht =>
    refine .inl (hset rfl hh ?_)
    rcases p with g | (_ | _)
    · exact .inr ⟨_, ht, rfl⟩
    · exact .inl rfl
    · exact .inr ⟨_, ht, rfl⟩
  | sending => exact .inl (hset rfl hh (.inl (by split <;> rfl)))
  | @exchanged _ _ _ _ p _ ht =>
    refine .inl (hset rfl hh ?_)
    cases p with
    | more => exact .inr ⟨_, ht, rfl⟩
    | done => exact .inl rfl
  | responded ht => exact .inl (hset rfl hh (.inr ⟨_, ht, rfl⟩))
  | scripted ht _ hs =>
    refine .inl (hset rfl hh (.inr ⟨_, ht, ?_⟩))
    simp only [Task.end?, (Script.acted_of_step? hs).2]
  | dialed ht =>
    rcases holds_setTask hh with ⟨-, hh⟩ | ⟨rfl, he⟩
    · exact .inl hh
    · cases he
      exact .inr (.inl ⟨rfl, by simp [setTask], .inl ⟨rfl, rfl⟩⟩)
  | @connected _ _ capacity _ _ ht =>
    have hlt : w.links.length < (w.links ++ [Link.ofCapacity capacity]).length := by simp
    rcases holds_setTask hh with ⟨-, hh⟩ | ⟨rfl, he⟩
    · rcases holds_spawn hh with hh | ⟨rfl, he⟩
      · exact .inl hh
      · cases he
        exact .inr (.inl ⟨rfl, hlt, .inr ⟨rfl, rfl⟩⟩)
    · cases he
      exact .inr (.inl ⟨rfl, hlt, .inl ⟨rfl, rfl⟩⟩)
  | turnedAway => exact .inl hh
  | accepted ht hn | played ht hn =>
    rcases holds_spawn hh with hh | ⟨rfl, he⟩
    · exact .inl hh
    · cases he
      exact .inr (.inr ⟨rfl, rfl, _, _, ⟨⟨_, ht⟩, _, hn⟩, rfl⟩)

/-- Other tasks stay as they are. -/
theorem Steps.task (h : Steps w i w') (ht : w.tasks[j]? = some t) (hj : j ≠ i) :
    w'.tasks[j]? = some t := by
  have hset {w₁ : World} {t' : Task} (hw : w₁.tasks = w.tasks) :
      (w₁.setTask i t').tasks[j]? = some t := by
    rw [setTask, List.getElem?_set_ne (Ne.symm hj), hw, ht]
  have hspawn {w₁ : World} {t' : Task} (hw : w₁.tasks = w.tasks) :
      (w₁.spawn t').tasks[j]? = some t := by
    rw [spawn, hw, List.getElem?_append_left (List.getElem?_eq_some_iff.mp ht).1, ht]
  cases h with
  | accepted | played => exact hspawn rfl
  | connected =>
    rw [setTask, List.getElem?_set_ne (Ne.symm hj)]
    exact hspawn rfl
  | turnedAway => exact ht
  | _ => exact hset rfl

/-- A link is changed by who holds one of its ends, in the way of this end, or by who turns it
away. -/
theorem Steps.link {link : Nat} {l : Link} (h : Steps w i w')
    (hl : w.links[link]? = some l) :
    ∃ l', w'.links[link]? = some l' ∧ (l' = l ∨ (∃ s, w.Holds i link s ∧ l.Acted s l') ∨
      l' = l.abort .right ∧ ∃ inbox a, w.Receives i inbox a ∧ a.link = link) := by
  have hset {s : Side} {link₀ : Nat} {l₀ l₁ : Link} (hl₀ : w.links[link₀]? = some l₀)
      (hh : w.Holds i link₀ s) (ha : l₀.Acted s l₁) :
      ∃ l', (w.setLink link₀ l₁).links[link]? = some l' ∧
        (l' = l ∨ (∃ s, w.Holds i link s ∧ l.Acted s l') ∨
          l' = l.abort .right ∧ ∃ inbox a, w.Receives i inbox a ∧ a.link = link) := by
    by_cases hlink : link₀ = link
    · subst hlink
      cases hl₀.symm.trans hl
      have hset := List.getElem?_set_self (a := l₁) (List.getElem?_eq_some_iff.mp hl).1
      exact ⟨l₁, hset, .inr (.inl ⟨s, hh, ha⟩)⟩
    · exact ⟨l, (List.getElem?_set_ne hlink).trans hl, .inl rfl⟩
  cases h with
  | greeted ht hl₀ hg => exact hset hl₀ ⟨_, ht, rfl⟩ (Greeting.acted_of_step? hg)
  | exchanged ht hl₀ hx => exact hset hl₀ ⟨_, ht, rfl⟩ (Exchange.acted_of_step? hx)
  | responded ht hl₀ hr => exact hset hl₀ ⟨_, ht, rfl⟩ (Responder.acted_of_step? hr)
  | scripted ht hl₀ hs => exact hset hl₀ ⟨_, ht, rfl⟩ (Script.acted_of_step? hs).1
  | dialed | connected =>
    refine ⟨l, ?_, .inl rfl⟩
    exact (List.getElem?_append_left (List.getElem?_eq_some_iff.mp hl).1).trans hl
  | @turnedAway _ _ _ _ a _ ht hn =>
    by_cases ha : a.link = link
    · subst ha
      refine ⟨l.abort .right, ?_, .inr (.inr ⟨rfl, _, a, ⟨⟨_, ht⟩, _, hn⟩, rfl⟩)⟩
      simp [hl]
    · refine ⟨l, ?_, .inl rfl⟩
      simp [hl, ha]
  | _ => exact ⟨l, hl, .inl rfl⟩

theorem Steps.length_links (h : Steps w i w') : w.links.length ≤ w'.links.length := by
  cases h with
  | greeted | exchanged | responded | scripted => simp [setTask, setLink]
  | dialed | connected => exact List.length_append ▸ Nat.le_add_right ..
  | turnedAway => simp
  | _ => exact Nat.le_refl _

theorem Steps.length_channels (h : Steps w i w') : w'.channels.length = w.channels.length := by
  cases h with
  | crashed => exact List.length_modify ..
  | sending => exact List.length_set ..
  | _ => rfl

/-- Only a task that answers and one that is about to invoke the local server note an
invocation. -/
theorem Steps.notes (h : Steps w i w') : w'.notes = w.notes ∨
    (∃ owner link r, w.tasks[i]? = some (.respond owner link r)) ∨
    ∃ t, w.tasks[i]? = some t ∧ t.isEntering = true := by
  cases h with
  | responded ht => exact .inr (.inl ⟨_, _, _, ht⟩)
  | entered ht => exact .inr (.inr ⟨_, ht, rfl⟩)
  | _ => exact .inl rfl

/-- A task that answers takes a step of its responder. -/
theorem Steps.of_responding {owner link : Nat} {r : Responder} (h : Steps w i w')
    (ht : w.tasks[i]? = some (.respond owner link r)) :
    ∃ l turn, w.links[link]? = some l ∧ r.step? w.moment l = some turn ∧
      w' = { (w.setLink link turn.link).setTask i (.respond owner link turn.responder) with
        notes := w.notes ++ turn.noted owner w.moment } := by
  cases h with
  | responded ht' hl hr =>
    cases ht.symm.trans ht'
    exact ⟨_, _, hl, hr, rfl⟩
  | _ => cases ht.symm.trans ‹w.tasks[i]? = some _›

private theorem task_of_setTask {w₁ : World} {i j : Nat} {t t₁ : Task} (hw : w₁.tasks = w.tasks)
    (ht : (w₁.setTask i t₁).tasks[j]? = some t) : w.tasks[j]? = some t ∨ j = i ∧ t = t₁ := by
  simp only [setTask, List.getElem?_set] at ht
  split at ht
  · rename_i hij
    split at ht <;> cases ht
    exact .inr ⟨hij.symm, rfl⟩
  · exact .inl (hw ▸ ht)

private theorem task_of_spawn {w₁ : World} {j : Nat} {t t₁ : Task} (hw : w₁.tasks = w.tasks)
    (ht : (w₁.spawn t₁).tasks[j]? = some t) : w.tasks[j]? = some t ∨ t = t₁ := by
  simp only [spawn, List.getElem?_append] at ht
  split at ht
  · exact .inl (hw ▸ ht)
  · exact .inr (List.mem_singleton.mp (List.mem_of_getElem? ht))

private theorem task_of_connect {a : Attempt} {capacity owner i j : Nat}
    {actions : List Script.Action} {t t₁ : Task}
    (ht : ((w.connect a capacity owner actions).2.setTask i t₁).tasks[j]? = some t) :
    w.tasks[j]? = some t ∨ j = i ∧ t = t₁ ∨ ∃ owner a s, t = .script owner a s := by
  rcases task_of_setTask rfl ht with ht | ht
  · rcases task_of_spawn rfl ht with ht | rfl
    · exact .inl ht
    · exact .inr (.inr ⟨_, _, _, rfl⟩)
  · exact .inr (.inl ht)

/-- Every task has become what it is, or it answers on a stream or plays a script there. -/
theorem Steps.became {j : Nat} {t : Task} (h : Steps w i w') (ht : w'.tasks[j]? = some t) :
    (∃ t₀ : Task, w.tasks[j]? = some t₀ ∧ t₀.Becomes t) ∨
      (∃ owner link r, t = .respond owner link r) ∨ ∃ owner a s, t = .script owner a s := by
  have hset {w₁ : World} {t₀ t₁ : Task} (hw : w₁.tasks = w.tasks) (ht₀ : w.tasks[i]? = some t₀)
      (ht : (w₁.setTask i t₁).tasks[j]? = some t) (hb : t₀.Becomes t₁) :
      ∃ t₀ : Task, w.tasks[j]? = some t₀ ∧ t₀.Becomes t := by
    rcases task_of_setTask hw ht with ht | ⟨rfl, rfl⟩
    · exact ⟨t, ht, .same⟩
    · exact ⟨t₀, ht₀, hb⟩
  cases h with
  | turnedAway => exact .inl ⟨t, ht, .same⟩
  | accepted =>
    rcases task_of_spawn rfl ht with ht | rfl
    · exact .inl ⟨t, ht, .same⟩
    · exact .inr (.inl ⟨_, _, _, rfl⟩)
  | played =>
    rcases task_of_spawn rfl ht with ht | rfl
    · exact .inl ⟨t, ht, .same⟩
    · exact .inr (.inr ⟨_, _, _, rfl⟩)
  | @sending _ _ _ _ sent ht₀ =>
    cases sent with
    | true => exact .inl (hset rfl ht₀ ht .ended)
    | false => exact .inl (hset rfl ht₀ ht .call)
  | stopped ht₀ | refused ht₀ | dialed ht₀ | connecting ht₀ | greeted ht₀ | exchanged ht₀
  | unentered ht₀ | entered ht₀ | serving ht₀ | returned ht₀ =>
    exact .inl (hset rfl ht₀ ht .call)
  | connected ht₀ =>
    rcases task_of_connect ht with ht | ⟨rfl, rfl⟩ | hs
    · exact .inl ⟨t, ht, .same⟩
    · exact .inl ⟨_, ht₀, .call⟩
    · exact .inr (.inr hs)
  | responded ht₀ => exact .inl (hset rfl ht₀ ht .respond)
  | scripted ht₀ => exact .inl (hset rfl ht₀ ht .script)
  | timed ht₀ => exact .inl (hset rfl ht₀ ht .cancel)
  | crashed ht₀ | closed ht₀ | fired ht₀ => exact .inl (hset rfl ht₀ ht .ended)

/-- A responder was there, or has taken a step, or answers a stream that was just accepted. -/
theorem Steps.responder {j owner link : Nat} {r : Responder} (h : Steps w i w')
    (ht : w'.tasks[j]? = some (.respond owner link r)) :
    w.tasks[j]? = some (.respond owner link r) ∨
    (∃ r₀ l turn, w.tasks[j]? = some (.respond owner link r₀) ∧
      r₀.step? w.moment l = some turn ∧ r = turn.responder) ∨
    ∃ inbox a codec token, ∃ site : Site, w.Receives i inbox a ∧ a.link = link ∧
      r = site.responder codec a token := by
  cases h with
  | turnedAway => exact .inl ht
  | accepted ht₀ hn =>
    rcases task_of_spawn rfl ht with ht | he
    · exact .inl ht
    · cases he
      exact .inr (.inr ⟨_, _, _, _, _, ⟨⟨_, ht₀⟩, _, hn⟩, rfl, rfl⟩)
  | played =>
    rcases task_of_spawn rfl ht with ht | he
    · exact .inl ht
    · cases he
  | responded ht₀ _ hr =>
    rcases task_of_setTask rfl ht with ht | ⟨rfl, he⟩
    · exact .inl ht
    · cases he
      exact .inr (.inl ⟨_, _, _, ht₀, hr, rfl⟩)
  | @sending _ _ _ _ sent =>
    rcases task_of_setTask rfl ht with ht | ⟨-, he⟩
    · exact .inl ht
    · cases sent <;> cases he
  | connected =>
    rcases task_of_connect ht with ht | ⟨-, he⟩ | ⟨_, _, _, he⟩
    · exact .inl ht
    · cases he
    · cases he
  | _ =>
    rcases task_of_setTask rfl ht with ht | ⟨-, he⟩
    · exact .inl ht
    · cases he

/-- A call that is exchanged was so before, or has dialed, or has written its handshake. -/
theorem Steps.exchanger {j channel link : Nat} {x : Exchange} (h : Steps w i w')
    (ht : w'.tasks[j]? = some (.call channel (.exchanging link x))) :
    (∃ x₀, w.tasks[j]? = some (.call channel (.exchanging link x₀))) ∨
    (∃ call codec host protocol,
      w.tasks[j]? = some (.call channel (.dialing call codec host protocol)) ∧ j = i ∧
        link = w.links.length ∧ link < w'.links.length) ∨
    ∃ g, w.tasks[j]? = some (.call channel (.greeting link g)) ∧ j = i := by
  cases h with
  | turnedAway => exact .inl ⟨x, ht⟩
  | accepted | played =>
    rcases task_of_spawn rfl ht with ht | he
    · exact .inl ⟨x, ht⟩
    · cases he
  | connected =>
    rcases task_of_connect ht with ht | ⟨-, he⟩ | ⟨_, _, _, he⟩
    · exact .inl ⟨x, ht⟩
    · cases he
    · cases he
  | dialed ht₀ =>
    rcases task_of_setTask rfl ht with ht | ⟨rfl, he⟩
    · exact .inl ⟨x, ht⟩
    · cases he
      exact .inr (.inl ⟨_, _, _, _, ht₀, rfl, rfl, by simp [setTask]⟩)
  | @greeted _ _ _ _ p _ ht₀ =>
    rcases task_of_setTask rfl ht with ht | ⟨rfl, he⟩
    · exact .inl ⟨x, ht⟩
    · rcases p with _ | (_ | _) <;> cases he
      exact .inr (.inr ⟨_, ht₀, rfl⟩)
  | @exchanged _ _ _ _ p _ ht₀ =>
    rcases task_of_setTask rfl ht with ht | ⟨rfl, he⟩
    · exact .inl ⟨x, ht⟩
    · cases p <;> cases he
      exact .inl ⟨_, ht₀⟩
  | @sending _ _ _ _ sent =>
    rcases task_of_setTask rfl ht with ht | ⟨-, he⟩
    · exact .inl ⟨x, ht⟩
    · cases sent <;> cases he
  | _ =>
    rcases task_of_setTask rfl ht with ht | ⟨-, he⟩
    · exact .inl ⟨x, ht⟩
    · cases he

/-- No task begins to enter the local server. -/
theorem Steps.enterer {j : Nat} {t : Task} (h : Steps w i w') (ht : w'.tasks[j]? = some t)
    (he : t.isEntering = true) : w.tasks[j]? = some t := by
  have hset {w₁ : World} {t₁ : Task} (hw : w₁.tasks = w.tasks)
      (ht : (w₁.setTask i t₁).tasks[j]? = some t) (hn : t₁.isEntering = false) :
      w.tasks[j]? = some t := by
    rcases task_of_setTask hw ht with ht | ⟨-, rfl⟩
    · exact ht
    · cases he.symm.trans hn
  cases h with
  | turnedAway => exact ht
  | accepted | played =>
    rcases task_of_spawn rfl ht with ht | rfl
    · exact ht
    · cases he
  | connected =>
    rcases task_of_connect ht with ht | ⟨-, rfl⟩ | ⟨_, _, _, rfl⟩
    · exact ht
    · cases he
    · cases he
  | @greeted _ _ _ _ p => exact hset rfl ht (by rcases p with _ | (_ | _) <;> rfl)
  | @exchanged _ _ _ _ p => exact hset rfl ht (by cases p <;> rfl)
  | sending => exact hset rfl ht (by split <;> rfl)
  | _ => exact hset rfl ht rfl

/-- No task begins to accept. -/
theorem Steps.acceptor {j inbox : Nat} {intake : Intake} (h : Steps w i w')
    (ht : w'.tasks[j]? = some (.accept inbox intake)) :
    w.tasks[j]? = some (.accept inbox intake) := by
  obtain ⟨t, ht₀, hb⟩ | ⟨_, _, _, hr⟩ | ⟨_, _, _, hs⟩ := h.became ht
  · cases hb
    exact ht₀
  · cases hr
  · cases hs

/-- No task begins to drive a call. -/
theorem Steps.caller {j channel : Nat} {c : CallTask} (h : Steps w i w')
    (ht : w'.tasks[j]? = some (.call channel c)) : ∃ c', w.tasks[j]? = some (.call channel c') := by
  obtain ⟨t, ht₀, hb⟩ | ⟨_, _, _, hr⟩ | ⟨_, _, _, hs⟩ := h.became ht
  · cases hb with
    | same | call => exact ⟨_, ht₀⟩
  · cases hr
  · cases hs

/-- No task begins to fire a token. -/
theorem Steps.canceller {k : Nat} {t : Token} {ms : Nat} {wake : Option Nat} (h : Steps w i w')
    (ht : w'.tasks[k]? = some (.cancel t ms wake)) :
    ∃ wake', w.tasks[k]? = some (.cancel t ms wake') := by
  obtain ⟨t₀, ht₀, hb⟩ | ⟨_, _, _, hr⟩ | ⟨_, _, _, hs⟩ := h.became ht
  · cases hb with
    | same | cancel => exact ⟨_, ht₀⟩
  · cases hr
  · cases hs

/-! ## Order -/

/-- All numbers of links that are in use are those of links that there are. -/
structure InOrder (w : World) : Prop where
  held : ∀ i link s, w.Holds i link s → link < w.links.length
  queued : ∀ link, w.network.arrivals link ≠ [] → link < w.links.length

theorem InOrder.later (hw : w.InOrder) (m : Moment) : InOrder { w with moment := m } :=
  ⟨hw.held, hw.queued⟩

theorem InOrder.arrivals {link : Nat} (hw : w.InOrder) (hlink : w.links.length ≤ link) :
    w.network.arrivals link = [] := by
  cases ha : w.network.arrivals link with
  | nil => rfl
  | cons => exact absurd (hw.queued link (ha ▸ List.cons_ne_nil _ _)) (Nat.not_lt_of_le hlink)

theorem Receives.arrivals (h : w.Receives i inbox a) : w.network.arrivals a.link ≠ [] := by
  obtain ⟨-, network, hn⟩ := h
  exact List.ne_nil_of_mem (Network.mem_arrivals_of_receive hn)

/-- What a step makes of the network. -/
theorem Steps.network (h : Steps w i w') : w'.network = w.network ∨
    (∃ dialer dest protocol, w.network.dial dialer dest protocol w.links.length = .ok w'.network ∧
      w.links.length < w'.links.length) ∨
    ∃ inbox a, w.Receives i inbox a ∧ w.network.receive inbox = (.arrived a, w'.network) := by
  cases h with
  | dialed _ _ hd => exact .inr (.inl ⟨_, _, _, hd, by simp [setTask]⟩)
  | accepted ht hn | turnedAway ht hn | played ht hn =>
    exact .inr (.inr ⟨_, _, ⟨⟨_, ht⟩, _, hn⟩, hn⟩)
  | _ => exact .inl rfl

theorem Steps.inbox? (h : Steps w i w') (p : PeerId) :
    w'.network.inbox? p = w.network.inbox? p := by
  rcases h.network with hn | ⟨_, _, _, hd, -⟩ | ⟨_, _, -, hn⟩
  · rw [hn]
  · obtain ⟨_, _, -, -, he⟩ := Network.dial_eq_ok hd
    rw [he]
    rfl
  · obtain ⟨_, -, he⟩ := Network.receive_arrived hn
    rw [he]
    rfl

theorem Steps.inOrder (h : Steps w i w') (hw : w.InOrder) : w'.InOrder where
  held j link s hh := by
    rcases h.holds hh with hh | ⟨-, hlt, -⟩ | ⟨-, -, inbox, a, ha, rfl⟩
    · exact Nat.lt_of_lt_of_le (hw.held _ _ _ hh) h.length_links
    · exact hlt
    · exact Nat.lt_of_lt_of_le (hw.queued _ ha.arrivals) h.length_links
  queued link hq := by
    rcases h.network with hn | ⟨dialer, dest, protocol, hd, hlt⟩ | ⟨inbox, a, -, hn⟩
    · exact Nat.lt_of_lt_of_le (hw.queued _ (hn ▸ hq)) h.length_links
    · by_cases hlink : w.links.length = link
      · exact hlink ▸ hlt
      · rw [Network.arrivals_dial_of_ne hd hlink] at hq
        exact Nat.lt_of_lt_of_le (hw.queued _ hq) h.length_links
    · obtain ⟨before, after, ha, hb⟩ := Network.arrivals_receive hn link
      refine Nat.lt_of_lt_of_le (hw.queued link fun hnil => hq ?_) h.length_links
      rw [hb] at hnil
      simp only [List.append_eq_nil_iff] at hnil
      rw [ha, hnil.1.1, hnil.2]
      rfl

end World

end PeerCall
