import PeerCall.Proofs.Arrivals
import PeerCall.Proofs.Talk
import PeerCall.Proofs.World.Runs

/-! # One remote call in the world

A host serves one protocol, and a client of another host calls it. All that the tasks of this world
can do (`Scene.next_of_step?`) are the steps of a talk, and before and after them dialing, accepting
and handing back. -/

namespace PeerCall

/-- A client and its call, and the world before the call is started. -/
structure Scene where
  base : World
  client : Client
  host : Host
  call : Call
  site : Site
  inbox : Nat

namespace Scene

/-- The call goes to a peer of the network. Its inbox is empty, and the one task that there is
answers what arrives there under the client's protocol. -/
structure Ready (s : Scene) : Prop where
  tasks : s.base.tasks = [.accept s.inbox (.serve s.site s.client.codec s.client.protocol)]
  joined : s.base.network.inbox? s.call.dest = some s.inbox
  listening : s.base.network.inboxes[s.inbox]? = some ⟨[], true⟩
  route : s.client.route s.call.dest = .ok (.toPeer s.host)
  reach : s.host.reach = .network

/-- The channel that the call is handed back on. -/
def channel (s : Scene) : Nat := s.base.channels.length

/-- The link between the call and its responder. -/
def link (s : Scene) : Nat := s.base.links.length

def responder (s : Scene) : Responder where
  server := s.site.server
  codec := s.client.codec
  peer := s.host.id
  context := ⟨.root s.base.tokens, none⟩

def opening (s : Scene) : Talk :=
  .ofCall s.client.codec s.call World.linkCapacity s.responder

/-- How the world may stand after the call was started. -/
inductive Stand
  | dialing
  | refused (c : Call) (delivered : Bool)
  | talking (accepted : Bool) (t : Talk) (delivered : Bool)

def Stand.delivered? : Stand → Option Call
  | .refused c true => some c
  | .talking _ ⟨.done c, _, _, _⟩ true => some c
  | _ => none

theorem Stand.eq_of_delivered? {st : Stand} (h : st.delivered? = some c) :
    st = .refused c true ∨
      ∃ accepted l r notes, st = .talking accepted ⟨.done c, l, r, notes⟩ true := by
  unfold delivered? at h
  split at h
  · cases h
    exact .inl rfl
  · cases h
    exact .inr ⟨_, _, _, _, rfl⟩
  · cases h

def Stand.notes : Stand → List Note
  | .talking _ t _ => t.notes
  | _ => []

/-- The network while a stream waits to be accepted. -/
def called (s : Scene) : Network :=
  let arrival : Arrival := ⟨s.client.protocol, s.host.id, s.link⟩
  { s.base.network with inboxes := s.base.network.inboxes.set s.inbox ⟨[arrival], true⟩ }

/-- The task of a call that is done. -/
def handing (s : Scene) (c : Call) (delivered : Bool) : Task :=
  if delivered then .ended else .call s.channel (.delivering c)

def caller (s : Scene) : Stand → Task
  | .dialing => .call s.channel (.dialing s.call s.client.codec s.host s.client.protocol)
  | .refused c delivered => s.handing c delivered
  | .talking _ ⟨.more x, _, _, _⟩ _ => .call s.channel (.exchanging s.link x)
  | .talking _ ⟨.done c, _, _, _⟩ delivered => s.handing c delivered

/-- The world in which a call stands so. -/
def world (s : Scene) (m : Moment) (st : Stand) : World where
  moment := m
  links := s.base.links ++
    match st with
    | .talking _ t _ => [t.link]
    | _ => []
  network :=
    match st with
    | .talking false _ _ => s.called
    | _ => s.base.network
  endpoints := s.base.endpoints
  channels := s.base.channels ++ [World.handedOn st.delivered?]
  tasks := .accept s.inbox (.serve s.site s.client.codec s.client.protocol) :: s.caller st ::
    match st with
    | .talking true t _ => [.respond s.site.number s.link t.responder]
    | _ => []
  notes := s.base.notes ++ st.notes
  tokens :=
    match st with
    | .talking true _ _ => s.base.tokens + 1
    | _ => s.base.tokens

/-- What a step of a task may make of a stand. -/
inductive Next (s : Scene) (m : Moment) : Stand → Stand → Prop
  | refuse (h : s.call.context.verdict m = some e) :
    Next s m .dialing (.refused (s.call.fail e) false)
  | dial (h : s.call.context.verdict m = none) : Next s m .dialing (.talking false s.opening false)
  | accept {t delivered} : Next s m (.talking false t delivered) (.talking true t delivered)
  | call {x p l l' r notes accepted} (h : x.step? m l = some (p, l')) :
    Next s m (.talking accepted ⟨.more x, l, r, notes⟩ false)
      (.talking accepted ⟨p, l', r, notes⟩ false)
  | respond {p l r turn notes delivered} (h : r.step? m l = some turn) :
    Next s m (.talking true ⟨p, l, r, notes⟩ delivered)
      (.talking true ⟨p, turn.link, turn.responder, notes ++ turn.noted s.site.number m⟩ delivered)
  | deliver {c l r notes accepted} : Next s m (.talking accepted ⟨.done c, l, r, notes⟩ false)
      (.talking accepted ⟨.done c, l, r, notes⟩ true)
  | giveBack {c} : Next s m (.refused c false) (.refused c true)

/-- A stand that a call can come to: the responder begins when the stream is accepted, and only a
call that is done is handed back. -/
def Coherent (s : Scene) : Stand → Prop
  | .dialing => True
  | .refused _ _ => True
  | .talking accepted t delivered => (accepted = false → t.responder = s.responder) ∧
      (delivered = true → ∃ c, t.caller = .done c)

theorem Next.coherent {s : Scene} {st st' : Stand} (h : s.Next m st st') (hc : s.Coherent st) :
    s.Coherent st' := by
  cases h with
  | refuse | giveBack => trivial
  | dial => exact ⟨fun _ => rfl, nofun⟩
  | accept => exact ⟨nofun, hc.2⟩
  | call => exact ⟨hc.1, nofun⟩
  | respond => exact ⟨nofun, hc.2⟩
  | deliver => exact ⟨hc.1, fun _ => ⟨_, rfl⟩⟩

/-! ## The network -/

variable {s : Scene} {m : Moment} {st : Stand} {w : World}

theorem Ready.receive_base (hs : s.Ready) :
    s.base.network.receive s.inbox = (.empty, s.base.network) := by
  rw [Network.receive, hs.listening]
  simp [Network.isCurrent_of_inbox? hs.joined]

theorem Ready.dial (hs : s.Ready) : s.base.network.dial s.host.id s.call.dest s.client.protocol
    s.base.links.length = .ok s.called := by
  rw [Network.dial, hs.joined]
  simp only [hs.listening]
  rfl

theorem Ready.receive_called (hs : s.Ready) : s.called.receive s.inbox =
    (.arrived ⟨s.client.protocol, s.host.id, s.link⟩, s.base.network) := by
  obtain ⟨hi, he⟩ := List.getElem?_eq_some_iff.mp hs.listening
  have hget : s.called.inboxes[s.inbox]? =
      some ⟨[⟨s.client.protocol, s.host.id, s.link⟩], true⟩ := by
    simp [called, hi]
  rw [Network.receive, hget]
  simp only [Bool.not_true, Bool.false_eq_true, if_false]
  have hset : s.called.inboxes.set s.inbox ⟨[], true⟩ = s.base.network.inboxes := by
    rw [called, List.set_set, ← he, List.set_getElem_self]
  rw [hset]
  rfl

/-! ## Steps -/

private theorem step_accept (hs : s.Ready) (hc : s.Coherent st)
    (h : (s.world m st).step? 0 = some w) : ∃ st', w = s.world m st' ∧ s.Next m st st' := by
  have htask : (s.world m st).tasks[0]? =
      some (.accept s.inbox (.serve s.site s.client.codec s.client.protocol)) := rfl
  rw [World.step?, htask] at h
  simp only at h
  have hbase (hn : (s.world m st).network = s.base.network) : False := by
    rw [hn, hs.receive_base] at h
    cases h
  cases st with
  | dialing => exact (hbase rfl).elim
  | refused => exact (hbase rfl).elim
  | talking accepted t delivered =>
    cases accepted with
    | true => exact (hbase rfl).elim
    | false =>
      have hn : (s.world m (.talking false t delivered)).network = s.called := rfl
      rw [hn, hs.receive_called] at h
      simp only [World.takeIn, if_true, Option.some.injEq] at h
      refine ⟨.talking true t delivered, ?_, .accept⟩
      obtain ⟨caller, link, responder, notes⟩ := t
      obtain rfl : responder = s.responder := hc.1 rfl
      rw [← h]
      cases caller <;> cases delivered <;> rfl

private theorem step_dialing (hs : s.Ready) (h : (s.world m .dialing).step? 1 = some w) :
    ∃ st', w = s.world m st' ∧ s.Next m .dialing st' := by
  have htask : (s.world m .dialing).tasks[1]? =
      some (.call s.channel (.dialing s.call s.client.codec s.host s.client.protocol)) := rfl
  rw [World.step?, htask] at h
  simp only [World.stepCall?, World.stepDialing] at h
  have hm : (s.world m .dialing).moment = m := rfl
  rw [hm] at h
  cases hv : s.call.context.verdict m with
  | some e =>
    simp only [hv, Option.some.injEq] at h
    exact ⟨.refused (s.call.fail e) false, h.symm, .refuse hv⟩
  | none =>
    have hn : (s.world m .dialing).network = s.base.network := rfl
    have hl : (s.world m .dialing).links = s.base.links := List.append_nil _
    simp only [hv, hs.reach, hn, hl, hs.dial, World.addLink, Option.some.injEq] at h
    exact ⟨.talking false s.opening false, h.symm, .dial hv⟩

private theorem links_talking (accepted : Bool) (t : Talk) (delivered : Bool) :
    (s.world m (.talking accepted t delivered)).links[s.link]? = some t.link := by
  simp [world, link]

private theorem step_delivering {c : Call}
    (ht : (s.world m st).tasks[1]? = some (s.handing c false)) (hd : st.delivered? = none) :
    (s.world m st).step? 1 = some { s.world m st with
      channels := s.base.channels ++ [World.handedOn (some c)]
      tasks := (s.world m st).tasks.set 1 .ended } := by
  have hch : (s.world m st).channels[s.channel]? = some (World.handedOn none) := by
    simp [world, channel, hd]
  have hset : (s.world m st).channels.set s.channel (World.handedOn (some c)) =
      s.base.channels ++ [World.handedOn (some c)] := by
    simp [world, channel]
  rw [World.step?_delivering ht hch, hset]

private theorem step_handing {c : Call} (ht : (s.world m st).tasks[1]? = some (s.handing c d))
    (hd : d = false → st.delivered? = none) (h : (s.world m st).step? 1 = some w) :
    d = false ∧ w = { s.world m st with
      channels := s.base.channels ++ [World.handedOn (some c)]
      tasks := (s.world m st).tasks.set 1 .ended } := by
  cases d with
  | true =>
    rw [World.step?, ht] at h
    cases h
  | false =>
    rw [step_delivering ht (hd rfl)] at h
    cases h
    exact ⟨rfl, rfl⟩

private theorem step_caller (hs : s.Ready) (hc : s.Coherent st)
    (h : (s.world m st).step? 1 = some w) : ∃ st', w = s.world m st' ∧ s.Next m st st' := by
  cases st with
  | dialing => exact step_dialing hs h
  | refused c delivered =>
    obtain ⟨rfl, rfl⟩ := step_handing (c := c) rfl (fun hd => by rw [hd]; rfl) h
    exact ⟨_, rfl, .giveBack⟩
  | talking accepted t delivered =>
    obtain ⟨caller, l, r, notes⟩ := t
    cases caller with
    | done c =>
      obtain ⟨rfl, rfl⟩ := step_handing (c := c) rfl (fun hd => by rw [hd]; rfl) h
      refine ⟨_, ?_, .deliver⟩
      cases accepted <;> rfl
    | more x =>
      have hd : delivered = false := by
        cases delivered with
        | false => rfl
        | true => obtain ⟨c, hc⟩ := hc.2 rfl; cases hc
      subst hd
      have htask : (s.world m (.talking accepted ⟨.more x, l, r, notes⟩ false)).tasks[1]? =
          some (.call s.channel (.exchanging s.link x)) := rfl
      have hm : (s.world m (.talking accepted ⟨.more x, l, r, notes⟩ false)).moment = m := rfl
      rw [World.step?, htask] at h
      simp only [World.stepCall?, links_talking, hm] at h
      cases hx : x.step? m l with
      | none => simp [hx] at h
      | some res =>
        obtain ⟨p, l'⟩ := res
        refine ⟨_, ?_, .call hx⟩
        cases p with
        | more x' =>
          simp only [hx, Option.some.injEq] at h
          rw [← h]
          cases accepted <;> simp [World.setTask, World.setLink, world, link, Scene.caller,
            Stand.delivered?, Stand.notes]
        | done c =>
          simp only [hx, Option.some.injEq] at h
          rw [← h]
          cases accepted <;> simp [World.setTask, World.setLink, world, link, Scene.caller,
            Stand.delivered?, Stand.notes, handing]

private theorem step_responder (h : (s.world m st).step? 2 = some w) :
    ∃ st', w = s.world m st' ∧ s.Next m st st' := by
  rw [World.step?] at h
  cases st with
  | dialing => cases h
  | refused => cases h
  | talking accepted t delivered =>
    cases accepted with
    | false => cases h
    | true =>
      obtain ⟨p, l, r, notes⟩ := t
      have htask : (s.world m (.talking true ⟨p, l, r, notes⟩ delivered)).tasks[2]? =
          some (.respond s.site.number s.link r) := rfl
      have hm : (s.world m (.talking true ⟨p, l, r, notes⟩ delivered)).moment = m := rfl
      simp only [htask, links_talking, hm] at h
      cases hr : r.step? m l with
      | none => simp [hr] at h
      | some turn =>
        refine ⟨_, ?_, .respond hr⟩
        simp only [hr, Option.some.injEq] at h
        rw [← h]
        cases hi : turn.invoked <;> cases p <;> cases delivered <;>
          simp [World.setTask, World.setLink, World.note, world, link, Scene.caller,
            Stand.delivered?, Stand.notes, handing, Responder.Turn.noted, hi]

/-- Whatever task takes a step, it is one of those that a stand allows. -/
theorem next_of_step? (hs : s.Ready) (hc : s.Coherent st)
    (h : (s.world m st).step? i = some w) : ∃ st', w = s.world m st' ∧ s.Next m st st' := by
  match i with
  | 0 => exact step_accept hs hc h
  | 1 => exact step_caller hs hc h
  | 2 => exact step_responder h
  | i + 3 =>
    have htask : (s.world m st).tasks[i + 3]? = none := by
      simp only [world, List.getElem?_cons_succ]
      split <;> rfl
    rw [World.step?, htask] at h
    cases h

/-- What a stand allows, some task can do. -/
theorem Next.step? {st' : Stand} (hs : s.Ready) (h : s.Next m st st') :
    ∃ i, (s.world m st).step? i ≠ none := by
  cases h with
  | refuse | dial =>
    refine ⟨1, ?_⟩
    have htask : (s.world m .dialing).tasks[1]? =
        some (.call s.channel (.dialing s.call s.client.codec s.host s.client.protocol)) := rfl
    rw [World.step?, htask]
    exact Option.some_ne_none _
  | @accept t delivered =>
    refine ⟨0, ?_⟩
    have htask : (s.world m (.talking false t delivered)).tasks[0]? =
        some (.accept s.inbox (.serve s.site s.client.codec s.client.protocol)) := rfl
    have hn : (s.world m (.talking false t delivered)).network = s.called := rfl
    rw [World.step?, htask]
    simp only [hn, hs.receive_called]
    exact Option.some_ne_none _
  | @call x p l l' r notes accepted hx =>
    refine ⟨1, ?_⟩
    have htask : (s.world m (.talking accepted ⟨.more x, l, r, notes⟩ false)).tasks[1]? =
        some (.call s.channel (.exchanging s.link x)) := rfl
    have hm : (s.world m (.talking accepted ⟨.more x, l, r, notes⟩ false)).moment = m := rfl
    rw [World.step?, htask]
    simp only [World.stepCall?, links_talking, hm, hx]
    cases p <;> exact Option.some_ne_none _
  | @respond p l r turn notes delivered hr =>
    refine ⟨2, ?_⟩
    have htask : (s.world m (.talking true ⟨p, l, r, notes⟩ delivered)).tasks[2]? =
        some (.respond s.site.number s.link r) := rfl
    have hm : (s.world m (.talking true ⟨p, l, r, notes⟩ delivered)).moment = m := rfl
    rw [World.step?, htask]
    simp only [links_talking, hm, hr]
    exact Option.some_ne_none _
  | @deliver c l r notes accepted =>
    exact ⟨1, by rw [step_delivering (c := c) rfl rfl]; exact Option.some_ne_none _⟩
  | @giveBack c => exact ⟨1, by rw [step_delivering (c := c) rfl rfl]; exact Option.some_ne_none _⟩

/-- A world at rest has come to a stand that allows no step, now and at any later time. -/
theorem not_next_of_atRest {st' : Stand} (hs : s.Ready) (h : (s.world m st).AtRest)
    (hnow : m.now ≤ now) : ¬ s.Next { m with now } st st' := by
  intro hn
  obtain ⟨i, hi⟩ := hn.step? hs
  exact hi (h now i hnow)

/-! ## Starting -/

/-- Starting the call puts its task beside the one that accepts. -/
theorem Ready.go (hs : s.Ready) :
    s.base.go s.client s.call = .ok (s.channel, s.world s.base.moment .dialing) := by
  have htask : World.taskOf s.client s.call =
      .ok (.dialing s.call s.client.codec s.host s.client.protocol) := by
    rw [World.taskOf, hs.route]
  rw [World.go_eq htask, hs.tasks]
  simp [world, channel, Scene.caller, Stand.delivered?, Stand.notes]

theorem delivered_world : (s.world m st).delivered s.channel = st.delivered?.toList :=
  World.delivered_handedOn s.base.channels rfl rfl

/-! ## Runs -/

/-- A property of the stands of a scene, and of how many steps were taken, that every step keeps and
that time does not undo holds after every run. -/
theorem stands_of_run? {P : Nat → Moment → Stand → Prop} (hs : s.Ready)
    (hstep : ∀ n m st st', P n m st → s.Coherent st → s.Next m st st' → P (n + 1) m st')
    (hlater : ∀ n m m' st, P n m st → m.Before m' → P n m' st)
    (hP : P 0 m st) (hc : s.Coherent st) (h : World.run? moves (s.world m st) = some w) :
    ∃ st', w = s.world w.moment st' ∧ s.Coherent st' ∧
      P (moves.countP World.Move.isStep) w.moment st' := by
  let Q (n : Nat) (w : World) : Prop := ∃ m st, w = s.world m st ∧ s.Coherent st ∧ P n m st
  have hQ : Q (moves.countP World.Move.isStep) w := by
    refine World.run?_induct ?_ ?_ ?_ ⟨m, st, rfl, hc, hP⟩ h
    · rintro n _ i w' ⟨m, st, rfl, hc, hP⟩ hw
      obtain ⟨st', rfl, hnext⟩ := next_of_step? hs hc hw
      exact ⟨m, st', rfl, hnext.coherent hc, hstep n m st st' hP hc hnext⟩
    · rintro n _ now ⟨m, st, rfl, hc, hP⟩ hle
      exact ⟨_, st, rfl, hc, hlater n m _ st hP ⟨hle, fun _ h => h⟩⟩
    · rintro n _ t ⟨m, st, rfl, hc, hP⟩ _
      exact ⟨_, st, rfl, hc, hlater n m _ st hP ⟨Nat.le_refl _, fun _ => List.mem_cons_of_mem t⟩⟩
  obtain ⟨m', st', rfl, hc', hP'⟩ := hQ
  exact ⟨st', rfl, hc', hP'⟩

/-- Only what is fired in a run is fired after it. -/
theorem fired_of_run? (hs : s.Ready) (hc : s.Coherent st)
    (h : World.run? moves (s.world m st) = some w) (ht : t ∈ w.moment.fired) :
    t ∈ m.fired ∨ World.Move.fire t ∈ moves := by
  let Q (_ : Nat) (w : World) : Prop := ∃ m' st, w = s.world m' st ∧ s.Coherent st ∧
    ∀ t ∈ m'.fired, t ∈ m.fired ∨ World.Move.fire t ∈ moves
  have hQ : Q (moves.countP World.Move.isStep) w := by
    refine World.run?_induct ?_ ?_ ?_ ⟨m, st, rfl, hc, fun _ => .inl⟩ h
    · rintro _ _ i w' ⟨m', st, rfl, hc, hf⟩ hw
      obtain ⟨st', rfl, hnext⟩ := next_of_step? hs hc hw
      exact ⟨m', st', rfl, hnext.coherent hc, hf⟩
    · rintro _ _ now ⟨m', st, rfl, hc, hf⟩ _
      exact ⟨_, st, rfl, hc, hf⟩
    · rintro _ _ t' ⟨m', st, rfl, hc, hf⟩ hmem
      refine ⟨_, st, rfl, hc, fun t ht => ?_⟩
      rcases List.mem_cons.mp ht with rfl | ht
      · exact .inr hmem
      · exact hf t ht
  obtain ⟨m', st', rfl, _, hf⟩ := hQ
  exact hf t ht

end Scene

end PeerCall
