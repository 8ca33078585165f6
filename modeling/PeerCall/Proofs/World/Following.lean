import PeerCall.Proofs.World.Shadow

/-! # The lone world follows

Whatever a task does in a crowded world, the world in which one of the calls was started alone can
follow: with a step of the same task, or, where another call has brought the task about or the
stream that it accepts, by doing nothing (`World.Shadow.follows`). -/

namespace PeerCall.World

variable {f : Focus} {ts ls : List Nat} {V W V' W' : World} {j k : Nat}

/-- A world in which one call was started, and one in which others were started as well. -/
structure Shadow (f : Focus) (ts ls : List Nat) (V W : World) : Prop where
  moment : V.moment = W.moment
  endpoints : V.endpoints = W.endpoints
  made : ∀ t ∈ W.moment.fired, t.isMade f.tokens = true
  tokens : f.tokens ≤ V.tokens ∧ f.tokens ≤ W.tokens
  network : V.network = W.network.seen ls
  links : LinksSeen ls V.links W.links
  channels : ChannelsSeen f V.channels W.channels
  tasks : TasksSeen f ts ls V.tasks W.tasks

namespace Shadow

/-! ## What other calls do -/

/-- What a task does that another call has brought about makes no difference. -/
theorem step_other (h : Shadow f ts ls V W) (hk : k ∉ ts) (hs : W.Steps k W') :
    Shadow f ts ls V W' := by
  have hforeign {t : Task} (ht : W.tasks[k]? = some t) : t.Foreign f ls := h.tasks.foreign hk ht
  -- A call that goes on without a link, or with the one that it has.
  have hgoes {ch : Nat} {c c' : CallTask} (ht : W.tasks[k]? = some (.call ch c))
      (hc : c'.link? = none) :
      TasksSeen f ts ls V.tasks (W.tasks.set k (.call ch c')) := by
    refine h.tasks.set_other hk ((hforeign ht).goesOn fun link s he => ?_)
    cases c' with
    | greeting | exchanging => cases hc
    | _ => cases he
  cases hs with
  | stopped ht | refused ht | connecting ht | unentered ht | entered ht | serving ht | returned ht =>
    exact { h with tasks := hgoes ht rfl }
  | dialed ht _ hd =>
    have hnew := h.links.length_not_mem
    exact {
      h with
      network := h.network.trans (Network.seen_dial hd hnew).symm
      links := h.links.push_other
      tasks := h.tasks.set_other hk ((hforeign ht).goesOn fun _ _ he => by
        cases he
        exact hnew) }
  | connected ht =>
    have hnew := h.links.length_not_mem
    exact {
      h with
      links := h.links.push_other
      tasks := (h.tasks.spawn_other (Task.foreign_script hnew)).set_other hk
        ((hforeign ht).goesOn fun _ _ he => by
          cases he
          exact hnew) }
  | @greeted _ link _ _ p _ ht =>
    have hlink : link ∉ ls := (hforeign ht).apart link .left rfl
    refine {
      h with
      links := h.links.set_other hlink
      tasks := h.tasks.set_other hk ((hforeign ht).goesOn fun _ _ he => ?_) }
    rcases p with _ | (_ | _) <;> cases he <;> exact hlink
  | @exchanged _ link _ _ p _ ht =>
    have hlink : link ∉ ls := (hforeign ht).apart link .left rfl
    cases p with
    | more x =>
      exact {
        h with
        links := h.links.set_other hlink
        tasks := h.tasks.set_other hk ((hforeign ht).goesOn fun _ _ he => by
          cases he
          exact hlink) }
    | done c =>
      exact {
        h with
        links := h.links.set_other hlink
        tasks := hgoes ht rfl }
  | crashed ht =>
    exact {
      h with
      channels := h.channels.modify_other ((hforeign ht).channel _ _ rfl)
      tasks := h.tasks.set_other hk Task.foreign_ended }
  | @sending _ _ _ ch' sent ht =>
    have hchannels := h.channels.set_other (x := ch') ((hforeign ht).channel _ _ rfl)
    cases sent with
    | true =>
      exact {
        h with
        channels := hchannels
        tasks := h.tasks.set_other hk Task.foreign_ended }
    | false =>
      exact {
        h with
        channels := hchannels
        tasks := hgoes ht rfl }
  | responded ht =>
    have hlink := (hforeign ht).apart _ _ rfl
    exact {
      h with
      links := h.links.set_other hlink
      tasks := h.tasks.set_other hk (Task.foreign_respond hlink) }
  | scripted ht =>
    have hlink := (hforeign ht).apart _ _ rfl
    exact {
      h with
      links := h.links.set_other hlink
      tasks := h.tasks.set_other hk (Task.foreign_script hlink) }
  | closed ht | accepted ht | turnedAway ht | played ht =>
    exact absurd rfl ((hforeign ht).unaccepting _ _)
  | timed ht | fired ht => exact absurd rfl ((hforeign ht).uncancelling _ _ _)

/-! ## What the same task does in both worlds -/

variable {ch ch' : Nat}

/-- A call opens a stream in both worlds, or is refused in both. -/
theorem stepDialing (h : Shadow f ts ls V W) (hw : W.InOrder) (call : Call) (codec : Codec)
    (host : Host) (protocol : ProtocolId) :
    ∃ ls', (V.stepDialing call codec host protocol).1.Like ls'
        (W.stepDialing call codec host protocol).1 ∧
      Shadow f ts ls' (V.stepDialing call codec host protocol).2
        (W.stepDialing call codec host protocol).2 := by
  have hsame (c : Call) : (CallTask.delivering c).Like ls (.delivering c) := .same rfl
  unfold World.stepDialing
  rw [h.moment]
  cases call.context.verdict W.moment with
  | some e => exact ⟨ls, hsame _, h⟩
  | none =>
    cases host.reach with
    | dialing book timeout =>
      cases hb : book.get? call.dest with
      | none =>
        simp only [hb]
        exact ⟨ls, hsame _, h⟩
      | some address =>
        simp only [hb]
        exact ⟨ls, .same rfl, h⟩
    | network =>
      cases hd : W.network.dial host.id call.dest protocol W.links.length with
      | error e =>
        have hd' := Network.dial_seen_error ls V.links.length hd
        rw [← h.network] at hd'
        simp only [hd']
        exact ⟨ls, hsame _, h⟩
      | ok network =>
        have hd' := Network.dial_seen hd h.links.length_not_mem (hw.arrivals (Nat.le_refl _))
        rw [← h.network, h.links.length] at hd'
        simp only [hd']
        refine ⟨ls ++ [W.links.length], .exchanging ?_, ?_⟩
        · change (ls ++ [W.links.length])[V.links.length]? = some W.links.length
          rw [← h.links.length]
          exact List.getElem?_concat_length ..
        · exact {
            h with
            moment := rfl
            network := rfl
            links := h.links.push
            tasks := h.tasks.push fun i t s ht he =>
              Nat.lt_irrefl _ (hw.held i _ s ⟨t, ht, he⟩) }

/-- An attempt comes to the same in both worlds, with a connection in each if there is one. -/
theorem stepConnecting? {a : Attempt} {c' : CallTask} (h : Shadow f ts ls V W) (hw : W.InOrder)
    (hk : ts[j]? = some k) (hs : W.stepConnecting? a = some (c', W')) :
    ∃ ts' ls' c V', V.stepConnecting? a = some (c, V') ∧ ts'[j]? = some k ∧ c.Like ls' c' ∧
      Shadow f ts' ls' V' W' := by
  unfold World.stepConnecting? at hs ⊢
  rw [h.moment, h.endpoints]
  cases hv : a.call.context.verdict W.moment with
  | some e =>
    rw [hv] at hs
    cases hs
    exact ⟨ts, ls, _, V, rfl, hk, .same rfl, h⟩
  | none =>
    simp only [hv] at hs ⊢
    cases ho : a.outcome? W.moment (W.endpoints a.address a.since) with
    | none =>
      simp only [ho] at hs
      cases hs
    | some o =>
      simp only [ho] at hs
      cases o with
      | failed e =>
        cases hs
        exact ⟨ts, ls, _, V, rfl, hk, .same rfl, h⟩
      | connected capacity owner actions =>
        cases hs
        have hl : (ls ++ [W.links.length])[V.links.length]? = some W.links.length := by
          rw [← h.links.length]
          exact List.getElem?_concat_length ..
        have htasks : TasksSeen f ts (ls ++ [W.links.length]) V.tasks W.tasks :=
          h.tasks.push fun i t s ht he => Nat.lt_irrefl _ (hw.held i _ s ⟨t, ht, he⟩)
        refine ⟨ts ++ [W.tasks.length], ls ++ [W.links.length], _, _, rfl, getElem?_push hk,
          .greeting hl, ?_⟩
        exact {
          h with
          moment := h.moment
          endpoints := h.endpoints
          network := h.network.trans (Network.seen_push (hw.arrivals (Nat.le_refl _))).symm
          links := h.links.push
          tasks := htasks.spawn (.script hl) }

/-- A call enters the local server in both worlds, or in neither. -/
theorem stepEntering (h : Shadow f ts ls V W) (call : Call) (codec : Codec) (peer : PeerId)
    (site : Option Site) :
    (V.stepEntering call codec peer site).1.Like ls (W.stepEntering call codec peer site).1 ∧
      Shadow f ts ls (V.stepEntering call codec peer site).2
        (W.stepEntering call codec peer site).2 := by
  unfold World.stepEntering
  cases site with
  | none => exact ⟨.same rfl, h⟩
  | some site =>
    cases call.encodeArgs codec with
    | error e => exact ⟨.same rfl, h⟩
    | ok args => exact ⟨.same rfl, { h with }⟩

/-- One task goes on as this in the lone world and as that in the crowded one. -/
theorem setTask {t t' : Task} (h : Shadow f ts ls V W) (hk : ts[j]? = some k)
    (ht : t.Like f ls j k t') : Shadow f ts ls (V.setTask j t) (W.setTask k t') :=
  { h with tasks := h.tasks.set hk ht }

theorem setLink {link link' : Nat} {l : Link} (h : Shadow f ts ls V W)
    (hl : ls[link]? = some link') : Shadow f ts ls (V.setLink link l) (W.setLink link' l) :=
  { h with links := h.links.set hl }

/-- How the channel of the call that is looked at stands, as long as the call is not handed back. -/
def Ready (f : Focus) (V : World) : Prop :=
  ∀ c, V.tasks[f.task]? = some (.call f.channel c) → V.channels[f.channel]? = some (handedOn none)

theorem step_serving {call : Call} {codec : Codec} {v : Serving} (h : Shadow f ts ls V W)
    (hk : ts[j]? = some k) (ht : V.tasks[j]? = some (.call ch (.serving call codec v)))
    (ht' : W.tasks[k]? = some (.call ch' (.serving call codec v))) (hr : f.Routes j k ch ch')
    (hs : W.step? k = some W') : ∃ V', V.step? j = some V' ∧ Shadow f ts ls V' W' := by
  have hsame (c : CallTask) (hc : c.link? = none) :
      (Task.call ch c).Like f ls j k (.call ch' c) := .call hr (.same hc)
  rw [step?, ht'] at hs
  rw [step?, ht]
  simp only [stepCall?, h.moment] at hs ⊢
  cases hv : v.step? W.moment with
  | none =>
    simp only [hv] at hs
    cases hs
  | some p =>
    cases p with
    | more v' =>
      simp only [hv] at hs
      cases hs
      exact ⟨_, rfl, h.setTask hk (hsame _ rfl)⟩
    | done o =>
      cases o with
      | crashed =>
        simp only [hv] at hs
        cases hs
        have hdropped : Shadow f ts ls (V.modifyChannel ch Channel.dropSender)
            (W.modifyChannel ch' Channel.dropSender) :=
          { h with channels := h.channels.modify hr }
        exact ⟨_, rfl, hdropped.setTask hk .ended⟩
      | returned error reply =>
        simp only [hv] at hs
        cases hs
        exact ⟨_, rfl, h.setTask hk (hsame _ rfl)⟩

theorem step_delivering {c : Call} (h : Shadow f ts ls V W) (hready : Ready f V)
    (hk : ts[j]? = some k) (ht : V.tasks[j]? = some (.call ch (.delivering c)))
    (ht' : W.tasks[k]? = some (.call ch' (.delivering c))) (hr : f.Routes j k ch ch')
    (hs : W.step? k = some W') : ∃ V', V.step? j = some V' ∧ Shadow f ts ls V' W' := by
  have hsame := h.channels.getElem? hr
  have hset (x : Channel Call) : Shadow f ts ls
      { V with channels := V.channels.set ch x } { W with channels := W.channels.set ch' x } :=
    { h with channels := h.channels.set hr }
  rcases hr with ⟨rfl, rfl, hlt⟩ | ⟨rfl, rfl, rfl⟩
  · cases hch : W.channels[ch']? with
    | none =>
      rw [step?, ht'] at hs
      simp only [stepCall?, hch] at hs
      cases hs
    | some x =>
      rw [step?_handing ht' hch] at hs
      obtain ⟨⟨sent, x'⟩, hx, rfl⟩ := Option.map_eq_some_iff.mp hs
      rw [step?_handing ht (hsame.trans hch), hx]
      refine ⟨_, rfl, (hset x').setTask hk ?_⟩
      cases sent with
      | true => exact .ended
      | false => exact .call (.inl ⟨rfl, rfl, hlt⟩) (.same rfl)
  · have hch := hready _ ht
    rw [step?_delivering ht' (hsame.symm.trans hch)] at hs
    cases hs
    exact ⟨_, step?_delivering ht hch, (hset _).setTask hk .ended⟩

theorem step_call {c c' : CallTask} (h : Shadow f ts ls V W) (hw : W.InOrder) (hready : Ready f V)
    (hk : ts[j]? = some k) (ht : V.tasks[j]? = some (.call ch c))
    (ht' : W.tasks[k]? = some (.call ch' c')) (hr : f.Routes j k ch ch') (hc : c.Like ls c')
    (hs : W.step? k = some W') : ∃ ts' ls' V', V.step? j = some V' ∧ Shadow f ts' ls' V' W' := by
  cases hc with
  | @greeting link link' g hl =>
    have hsame := h.links.same hl
    cases hlink : W.links[link']? with
    | none =>
      rw [step?, ht'] at hs
      simp only [stepCall?, hlink] at hs
      cases hs
    | some l =>
      rw [step?_greeting ht' hlink] at hs
      obtain ⟨⟨p, l'⟩, hg, rfl⟩ := Option.map_eq_some_iff.mp hs
      rw [step?_greeting ht (hsame.trans hlink), h.moment, hg]
      refine ⟨ts, ls, _, rfl, (h.setLink hl).setTask hk (.call hr ?_)⟩
      rcases p with g' | (_ | x)
      · exact .greeting hl
      · exact .same rfl
      · exact .exchanging hl
  | @exchanging link link' x hl =>
    have hsame := h.links.same hl
    cases hlink : W.links[link']? with
    | none =>
      rw [step?, ht'] at hs
      simp only [stepCall?, hlink] at hs
      cases hs
    | some l =>
      rw [step?_exchanging ht' hlink] at hs
      obtain ⟨⟨p, l'⟩, hx, rfl⟩ := Option.map_eq_some_iff.mp hs
      rw [step?_exchanging ht (hsame.trans hlink), h.moment, hx]
      refine ⟨ts, ls, _, rfl, (h.setLink hl).setTask hk (.call hr ?_)⟩
      cases p with
      | more x' => exact .exchanging hl
      | done c => exact .same rfl
  | same hne =>
    cases c with
    | greeting | exchanging => cases hne
    | dialing call codec host protocol =>
      rw [step?, ht'] at hs
      cases hs
      obtain ⟨ls', hlike, hshadow⟩ := h.stepDialing hw call codec host protocol
      refine ⟨ts, ls', _, ?_, hshadow.setTask hk (.call hr hlike)⟩
      rw [step?, ht]
      rfl
    | connecting a =>
      rw [step?_connecting ht'] at hs
      obtain ⟨⟨c', W₁⟩, hc, rfl⟩ := Option.map_eq_some_iff.mp hs
      obtain ⟨ts', ls', c, V', hV, hk', hlike, hshadow⟩ := h.stepConnecting? hw hk hc
      refine ⟨ts', ls', _, ?_, hshadow.setTask hk' (.call hr hlike)⟩
      rw [step?_connecting ht, hV]
      rfl
    | entering call codec peer site =>
      rw [step?, ht'] at hs
      cases hs
      obtain ⟨hlike, hshadow⟩ := h.stepEntering call codec peer site
      refine ⟨ts, ls, _, ?_, hshadow.setTask hk (.call hr hlike)⟩
      rw [step?, ht]
      rfl
    | serving call codec v => exact ⟨ts, ls, h.step_serving hk ht ht' hr hs⟩
    | delivering c => exact ⟨ts, ls, h.step_delivering hready hk ht ht' hr hs⟩

theorem step_respond {owner link link' : Nat} {r r' : Responder} (h : Shadow f ts ls V W)
    (hk : ts[j]? = some k) (ht : V.tasks[j]? = some (.respond owner link r))
    (ht' : W.tasks[k]? = some (.respond owner link' r')) (hl : ls[link]? = some link')
    (hr : r.Like f.tokens r') (hs : W.step? k = some W') :
    ∃ V', V.step? j = some V' ∧ Shadow f ts ls V' W' := by
  obtain ⟨l, turn', hlink, hturn, rfl⟩ := (steps_of_step? hs).of_responding ht'
  obtain ⟨turn, hturn', hsame, hlike⟩ := hr.step h.made hturn
  have hsame' : (Task.respond owner link turn.responder).Like f ls j k
      (.respond owner link' turn'.responder) := .respond hl hlike
  have hnext := (h.setLink (l := turn.link) hl).setTask hk hsame'
  rw [step?, ht]
  simp only [h.links.same hl, hlink, h.moment, hturn']
  refine ⟨_, rfl, ?_⟩
  rw [← hsame]
  cases turn.invoked <;> exact { hnext with }

theorem step_script {owner : Nat} {a a' : Arrival} {s : Script} (h : Shadow f ts ls V W)
    (hk : ts[j]? = some k) (ht : V.tasks[j]? = some (.script owner a s))
    (ht' : W.tasks[k]? = some (.script owner a' s)) (hl : ls[a.link]? = some a'.link)
    (hs : W.step? k = some W') : ∃ V', V.step? j = some V' ∧ Shadow f ts ls V' W' := by
  rw [step?, ht'] at hs
  rw [step?, ht]
  simp only [h.links.same hl, h.moment] at hs ⊢
  cases hlink : W.links[a'.link]? with
  | none =>
    simp only [hlink] at hs
    cases hs
  | some l =>
    simp only [hlink] at hs ⊢
    cases hstep : s.step? W.moment l with
    | none =>
      simp only [hstep] at hs
      cases hs
    | some res =>
      simp only [hstep] at hs
      cases hs
      exact ⟨_, rfl, (h.setLink hl).setTask hk (.script hl)⟩

theorem fire {t : Token} (h : Shadow f ts ls V W) (ht : t.isMade f.tokens = true) :
    Shadow f ts ls (V.fire t) (W.fire t) :=
  { h with
    moment := congrArg (Moment.fire t) h.moment
    made := fun t' ht' => by
      rcases List.mem_cons.mp ht' with rfl | ht'
      · exact ht
      · exact h.made t' ht' }

theorem step_cancel {token : Token} {ms : Nat} {wake : Option Nat} (h : Shadow f ts ls V W)
    (hk : ts[j]? = some k) (ht : V.tasks[j]? = some (.cancel token ms wake))
    (ht' : W.tasks[k]? = some (.cancel token ms wake)) (hm : token.isMade f.tokens = true)
    (hs : W.step? k = some W') : ∃ V', V.step? j = some V' ∧ Shadow f ts ls V' W' := by
  rw [step?, ht'] at hs
  rw [step?, ht]
  simp only [h.moment] at hs ⊢
  cases wake with
  | none =>
    cases hs
    exact ⟨_, rfl, h.setTask hk (.cancel hm)⟩
  | some t =>
    by_cases hle : t ≤ W.moment.now
    · simp only [hle, if_true] at hs ⊢
      cases hs
      exact ⟨_, rfl, (h.fire hm).setTask hk .ended⟩
    · simp only [hle, if_false] at hs
      cases hs

/-- A stream that the lone world does not know is accepted. -/
theorem takeIn_other {a : Arrival} (intake : Intake) (h : Shadow f ts ls V W) (ha : a.link ∉ ls) :
    Shadow f ts ls V (W.takeIn intake a) := by
  unfold takeIn
  cases intake with
  | serve site codec protocol =>
    by_cases hp : a.protocol = protocol
    · simp only [hp, if_true]
      exact {
        h with
        tokens := ⟨h.tokens.1, Nat.le_succ_of_le h.tokens.2⟩
        tasks := h.tasks.spawn_other (Task.foreign_respond ha) }
    · simp only [hp, if_false]
      exact { h with links := h.links.modify_other ha }
  | play owner actions =>
    exact { h with tasks := h.tasks.spawn_other (Task.foreign_script ha) }

/-- A stream is accepted in both worlds. -/
theorem takeIn {intake : Intake} {a b : Arrival} (h : Shadow f ts ls V W) (hi : intake.Blind)
    (hb : a.seen ls = some b) :
    ∃ ts', Shadow f ts' ls (V.takeIn intake b) (W.takeIn intake a) := by
  obtain ⟨hl, hprotocol, hdialer⟩ := Arrival.getElem?_of_seen hb
  unfold World.takeIn
  cases intake with
  | serve site codec protocol =>
    simp only [hprotocol]
    by_cases hp : a.protocol = protocol
    · simp only [hp, if_true, hdialer]
      refine ⟨ts ++ [W.tasks.length], ?_⟩
      have hlike := Responder.Like.fresh (r := site.responder codec a (.root 0)) h.tokens.1
        h.tokens.2 hi
      exact {
        h with
        tokens := ⟨Nat.le_succ_of_le h.tokens.1, Nat.le_succ_of_le h.tokens.2⟩
        tasks := h.tasks.spawn (.respond hl hlike) }
    · simp only [hp, if_false]
      exact ⟨ts, { h with links := h.links.modify hl }⟩
  | play owner actions =>
    exact ⟨ts ++ [W.tasks.length], { h with tasks := h.tasks.spawn (.script hl) }⟩

/-- A stream is accepted in both worlds, or the lone world does not know it. -/
theorem step_accept {inbox : Nat} {intake : Intake} (h : Shadow f ts ls V W)
    (hk : ts[j]? = some k) (ht : V.tasks[j]? = some (.accept inbox intake))
    (ht' : W.tasks[k]? = some (.accept inbox intake)) (hb : intake.Blind)
    (hs : W.step? k = some W') :
    ∃ ts' V', (V' = V ∨ V.step? j = some V') ∧ Shadow f ts' ls V' W' := by
  rw [step?, ht'] at hs
  cases hn : W.network.receive inbox with
  | mk reception network =>
    have hover (hr : ∀ a, reception ≠ .arrived a) :
        V.network.receive inbox = (reception, V.network) := by
      have hover := Network.receive_seen_over (n := W.network) (i := inbox) ls
        fun a n' ha => hr a (congrArg Prod.fst (hn.symm.trans ha))
      rw [h.network, hover, hn]
    simp only [hn] at hs
    cases reception with
    | arrived a =>
      cases hs
      cases hseen : a.seen ls with
      | none =>
        have hsame : Shadow f ts ls V { W with network } :=
          { h with network := h.network.trans (Network.seen_receive hn hseen).symm }
        exact ⟨ts, V, .inl rfl, hsame.takeIn_other intake (Arrival.seen_eq_none_iff.mp hseen)⟩
      | some b =>
        have hreceive := Network.receive_seen hn hseen
        rw [← h.network] at hreceive
        have hsame : Shadow f ts ls { V with network := network.seen ls } { W with network } :=
          { h with network := rfl }
        obtain ⟨ts', hshadow⟩ := hsame.takeIn hb hseen
        refine ⟨ts', _, .inr ?_, hshadow⟩
        rw [step?, ht]
        simp only [hreceive]
    | empty => cases hs
    | ended | gone =>
      cases hs
      refine ⟨ts, _, .inr ?_, h.setTask hk .ended⟩
      rw [step?, ht]
      simp only [hover fun _ ha => by cases ha]

/-! ## Any task -/

/-- The lone world follows a step of the crowded one, or need not. -/
theorem follows {i : Nat} (h : Shadow f ts ls V W) (hw : W.InOrder) (hready : Ready f V)
    (hs : W.step? i = some W') :
    ∃ ts' ls' V', (V' = V ∨ ∃ j, V.step? j = some V') ∧ Shadow f ts' ls' V' W' := by
  by_cases hi : i ∈ ts
  case neg => exact ⟨ts, ls, V, .inl rfl, h.step_other hi (steps_of_step? hs)⟩
  obtain ⟨j, hj, hk⟩ := List.getElem_of_mem hi
  have hk : ts[j]? = some i := List.getElem?_eq_some_iff.mpr ⟨hj, hk⟩
  obtain ⟨t, t', ht, ht', hlike⟩ := h.tasks.like hk
  cases hlike with
  | call hr hc =>
    obtain ⟨ts', ls', V', hV, h'⟩ := h.step_call hw hready hk ht ht' hr hc hs
    exact ⟨ts', ls', V', .inr ⟨j, hV⟩, h'⟩
  | respond hl hr =>
    obtain ⟨V', hV, h'⟩ := h.step_respond hk ht ht' hl hr hs
    exact ⟨ts, ls, V', .inr ⟨j, hV⟩, h'⟩
  | accept hb =>
    obtain ⟨ts', V', hV, h'⟩ := h.step_accept hk ht ht' hb hs
    exact ⟨ts', ls, V', hV.imp_right fun hV => ⟨j, hV⟩, h'⟩
  | script hl =>
    obtain ⟨V', hV, h'⟩ := h.step_script hk ht ht' hl hs
    exact ⟨ts, ls, V', .inr ⟨j, hV⟩, h'⟩
  | cancel hm =>
    obtain ⟨V', hV, h'⟩ := h.step_cancel hk ht ht' hm hs
    exact ⟨ts, ls, V', .inr ⟨j, hV⟩, h'⟩
  | ended =>
    rw [step?, ht'] at hs
    cases hs

/-! ## Rest -/

theorem rests_call {c c' : CallTask} (h : Shadow f ts ls V W) (hready : Ready f V)
    (ht : V.tasks[j]? = some (.call ch c)) (ht' : W.tasks[k]? = some (.call ch' c'))
    (hr : f.Routes j k ch ch') (hc : c.Like ls c') (hs : W.step? k = none) :
    V.step? j = none := by
  cases hc with
  | @greeting link link' g hl =>
    have hsame := h.links.same hl
    cases hlink : W.links[link']? with
    | none =>
      rw [step?, ht]
      simp only [stepCall?, hsame, hlink]
    | some l =>
      rw [step?_greeting ht' hlink, Option.map_eq_none_iff] at hs
      rw [step?_greeting ht (hsame.trans hlink), h.moment, hs]
      rfl
  | @exchanging link link' x hl =>
    have hsame := h.links.same hl
    cases hlink : W.links[link']? with
    | none =>
      rw [step?, ht]
      simp only [stepCall?, hsame, hlink]
    | some l =>
      rw [step?_exchanging ht' hlink, Option.map_eq_none_iff] at hs
      rw [step?_exchanging ht (hsame.trans hlink), h.moment, hs]
      rfl
  | same hne =>
    cases c with
    | greeting | exchanging => cases hne
    | dialing | entering =>
      rw [step?, ht'] at hs
      cases hs
    | connecting a =>
      rw [step?_connecting ht', Option.map_eq_none_iff, stepConnecting?_eq_none_iff, ← h.moment,
        ← h.endpoints] at hs
      rw [step?_connecting ht, stepConnecting?_eq_none_iff.mpr hs]
      rfl
    | serving call codec v =>
      have hv : v.step? W.moment = none := by
        cases hv : v.step? W.moment with
        | none => rfl
        | some p =>
          rw [step?, ht'] at hs
          simp only [stepCall?, hv] at hs
          cases p with
          | more => cases hs
          | done o => cases o <;> cases hs
      rw [step?, ht]
      simp only [stepCall?, h.moment, hv]
    | delivering c =>
      have hsame := h.channels.getElem? hr
      rcases hr with ⟨rfl, rfl, -⟩ | ⟨rfl, rfl, rfl⟩
      · cases hch : W.channels[ch']? with
        | none =>
          rw [step?, ht]
          simp only [stepCall?, hsame, hch]
        | some x =>
          rw [step?_handing ht' hch, Option.map_eq_none_iff] at hs
          rw [step?_handing ht (hsame.trans hch), hs]
          rfl
      · rw [step?_delivering ht' (hsame.symm.trans (hready _ ht))] at hs
        cases hs

/-- If nobody can go on in the crowded world, nobody can in the lone one. -/
theorem rests (h : Shadow f ts ls V W) (hready : Ready f V) (hs : ∀ k, W.step? k = none) :
    V.step? j = none := by
  by_cases hj : j < ts.length
  case neg =>
    rw [step?, List.getElem?_eq_none (h.tasks.length ▸ Nat.le_of_not_lt hj)]
  obtain ⟨t, t', ht, ht', hlike⟩ := h.tasks.like (List.getElem?_eq_getElem hj)
  have hs := hs ts[j]
  cases hlike with
  | call hr hc => exact h.rests_call hready ht ht' hr hc hs
  | @respond owner link link' r r' hl hr =>
    rw [step?, ht'] at hs
    rw [step?, ht]
    simp only [h.links.same hl, h.moment] at hs ⊢
    cases hlink : W.links[link']? with
    | none => rfl
    | some l =>
      simp only [hlink] at hs ⊢
      cases hturn : r.step? W.moment l with
      | none => rfl
      | some turn =>
        obtain ⟨turn', hturn', -⟩ := hr.symm.step h.made hturn
        simp only [hturn'] at hs
        cases hs
  | @accept inbox intake hb =>
    rw [step?, ht'] at hs
    have hempty : (W.network.receive inbox).1 = .empty := by
      cases hn : W.network.receive inbox with
      | mk reception network =>
        simp only [hn] at hs
        cases reception with
        | empty => rfl
        | arrived | ended | gone => cases hs
    have hreceive : V.network.receive inbox = (.empty, V.network) := by
      have hover := Network.receive_seen_over (n := W.network) (i := inbox) ls
        fun a n' ha => by
          rw [ha] at hempty
          cases hempty
      rw [h.network, hover, hempty]
    rw [step?, ht]
    simp only [hreceive]
  | @script owner a a' s hl =>
    rw [step?, ht'] at hs
    rw [step?, ht]
    simp only [h.links.same hl, h.moment] at hs ⊢
    cases hlink : W.links[a'.link]? with
    | none => rfl
    | some l =>
      simp only [hlink] at hs ⊢
      cases hstep : s.step? W.moment l with
      | none => rfl
      | some res =>
        simp only [hstep] at hs
        cases hs
  | @cancel token ms wake hm =>
    rw [step?, ht'] at hs
    rw [step?, ht]
    simp only [h.moment] at hs ⊢
    cases wake with
    | none => cases hs
    | some t =>
      by_cases hle : t ≤ W.moment.now
      · simp only [hle, if_true] at hs
        cases hs
      · simp only [hle, if_false]
  | ended => rw [step?, ht]

/-- The lone world in a later moment. -/
theorem later (h : Shadow f ts ls V W) (now : Nat) :
    Shadow f ts ls (V.atTime now) (W.atTime now) :=
  { h with moment := congrArg (fun m : Moment => { m with now }) h.moment }

theorem atRest (h : Shadow f ts ls V W) (hready : Ready f V) (hrest : W.AtRest) : V.AtRest :=
  fun now _ hnow => (h.later now).rests hready fun k => hrest now k (h.moment ▸ hnow)

end Shadow

end PeerCall.World
