import PeerCall.Proofs.HandingBack
import PeerCall.Session.Calls

/-! # What becomes of the caller's reply

A caller who waits for a call keeps the reply that it has, unless reply bytes came from the server
and were decoded. The bytes that came are told by looking at the task of the call before each of its
steps (`World.repliesTaken`); main statement: `World.returns_of_run?`. -/

namespace PeerCall

/-! ## The reply at the end of an exchange -/

namespace Exchange

/-- The bytes of the reply that an exchange takes with its next step. -/
def replyTaken? (m : Moment) (x : Exchange) (l : Link) : Option Bytes :=
  match x.call.context.verdict m, x.phase with
  | none, .reply r =>
    match r.step? .left x.unread l with
    | some (.done (.ok bs), _) => if bs.isEmpty then none else some bs
    | _ => none
  | _, _ => none

/-- What becomes of a call at the end of its exchange, with the reply that is taken. -/
inductive Ends (x : Exchange) : Option Bytes → Call → Prop
  | hushed : Ends x none x.call
  | failed {e} (he : ∀ text, e ≠ .remote text) : Ends x none (x.call.fail e)
  | garbled {bs e} (hd : x.codec.decode x.call.replyType bs = .error e) :
    Ends x (some bs) (x.call.fail (.decode e))
  | replied {bs v} (hd : x.codec.decode x.call.replyType bs = .ok v) :
    Ends x (some bs) (x.call.setReply v)

variable {x : Exchange} {m : Moment} {l l' : Link} {p : Progress Exchange Call}

theorem replyTaken?_of_verdict (hv : x.call.context.verdict m = some e) :
    x.replyTaken? m l = none := by
  simp only [replyTaken?, hv]

theorem replyTaken?_of_reply (hv : x.call.context.verdict m = none) (hp : x.phase = .reply r) :
    x.replyTaken? m l =
      match r.step? .left x.unread l with
      | some (.done (.ok bs), _) => if bs.isEmpty then none else some bs
      | _ => none := by
  simp only [replyTaken?, hv, hp]

theorem replyTaken?_of_stage (hp : x.phase.stage < 2) : x.replyTaken? m l = none := by
  unfold replyTaken?
  split
  · rename_i hr
    rw [hr] at hp
    exact absurd hp (Nat.lt_irrefl _)
  · rfl

/-- What a step of an exchange has to do with the reply. -/
def Tells (m : Moment) (x : Exchange) (l : Link) : Progress Exchange Call → Prop
  | .more x' => x.replyTaken? m l = none ∧ x'.codec = x.codec
  | .done c => x.Ends (x.replyTaken? m l) c

theorem Ends.tells {reply? : Option Bytes} {c : Call} (h : x.Ends reply? c)
    (hn : x.replyTaken? m l = reply?) : x.Tells m l (.done c) := by
  rw [Tells, hn]
  exact h

theorem tells_of_step? (h : x.step? m l = some (p, l')) : x.Tells m l p := by
  unfold step? at h
  cases hv : x.call.context.verdict m with
  | some e =>
    rw [hv] at h
    cases h
    refine Ends.tells (.failed fun text => ?_) (replyTaken?_of_verdict hv)
    rintro rfl
    cases Context.isCancellation_of_verdict hv
  | none =>
    rw [hv] at h
    cases hp : x.phase with
    | sending cs =>
      have hn : x.replyTaken? m l = none := replyTaken?_of_stage (by rw [hp]; exact Nat.two_pos)
      simp only [hp] at h
      split at h <;> cases h
      · exact ⟨hn, rfl⟩
      · exact Ends.tells (.failed nofun) hn
      · exact ⟨hn, rfl⟩
    | header r =>
      have hn : x.replyTaken? m l = none := replyTaken?_of_stage (by rw [hp]; exact Nat.one_lt_two)
      simp only [hp] at h
      split at h
      · cases h
      · cases h
        exact ⟨hn, rfl⟩
      · cases h
        exact Ends.tells (.failed nofun) hn
      · split at h <;> cases h
        · exact Ends.tells (.failed nofun) hn
        · exact ⟨hn, rfl⟩
    | reply r =>
      have hn := replyTaken?_of_reply (l := l) hv hp
      simp only [hp] at h
      split at h
      · cases h
      · rename_i hr
        rw [hr] at hn
        cases h
        exact ⟨hn, rfl⟩
      · rename_i hr
        rw [hr] at hn
        split at h <;> cases h
        · exact Ends.tells .hushed hn
        · exact Ends.tells (.failed nofun) hn
      · rename_i bs _ _ hr
        rw [hr] at hn
        simp only [takeReply, Call.takeReply] at h
        by_cases hb : bs.isEmpty
        · simp only [hb, if_true] at hn h
          cases h
          exact Ends.tells .hushed hn
        · simp only [hb, Bool.false_eq_true, if_false] at hn h
          cases hd : x.codec.decode x.call.replyType bs with
          | ok v =>
            simp only [hd] at h
            cases h
            exact Ends.tells (.replied hd) hn
          | error e =>
            simp only [hd] at h
            cases h
            exact Ends.tells (.garbled hd) hn

end Exchange

/-! ## Calls and their replies -/

/-- How the task of a call may stand before the call is done. -/
inductive Client.Pursues (client : Client) (call : Call) : CallTask → Prop
  | dialing {host} (hr : client.route call.dest = .ok (.toPeer host)) :
    Pursues client call (.dialing call client.codec host client.protocol)
  | connecting {a host} (hr : client.route call.dest = .ok (.toPeer host)) (ha : a.call = call)
    (hc : a.codec = client.codec) : Pursues client call (.connecting a)
  | greeting {link g host} (hr : client.route call.dest = .ok (.toPeer host)) (hg : g.call = call)
    (hc : g.codec = client.codec) : Pursues client call (.greeting link g)
  | exchanging {link x host} (hr : client.route call.dest = .ok (.toPeer host)) (hx : x.Sound)
    (hu : call.Underway x.call) (hc : x.codec = client.codec) :
    Pursues client call (.exchanging link x)
  | entering (hr : client.route call.dest = .ok .onSelf) :
    Pursues client call (.entering call client.codec client.id client.server)
  | serving {site args v} (hr : client.route call.dest = .ok .onSelf)
    (hs : client.server = some site) (he : call.encodeArgs client.codec = .ok args) :
    Pursues client call (.serving call client.codec v)

theorem Client.Pursues.of_opening {client : Client} {call request : Call} {c : CallTask}
    (h : client.Pursues call c) (ho : c.opening? = some request) :
    request = call ∧ ∃ host, client.route call.dest = .ok (.toPeer host) := by
  cases h with
  | dialing hr =>
    cases ho
    exact ⟨rfl, _, hr⟩
  | connecting hr ha =>
    cases ho
    exact ⟨ha, _, hr⟩
  | _ => cases ho

/-- What becomes of a call, with the replies that came for it. -/
inductive Client.Concludes (client : Client) (call : Call) : List Bytes → Call → Prop
  | unserved {e} (hr : client.route call.dest = .ok .onSelf)
    (hu : call.Unserved client.codec client.server e) : Concludes client call [] (call.fail e)
  | served {site args error reply} (hr : client.route call.dest = .ok .onSelf)
    (hs : client.server = some site) (he : call.encodeArgs client.codec = .ok args) :
    Concludes client call (Option.toList reply)
      (World.settleLocal call client.codec error reply)
  | unopened {host e} (hr : client.route call.dest = .ok (.toPeer host))
    (he : ∀ text, e ≠ .remote text) : Concludes client call [] (call.fail e)
  | exchanged {host c} {x : Exchange} {reply? : Option Bytes}
    (hr : client.route call.dest = .ok (.toPeer host)) (hu : call.Underway x.call)
    (hc : x.codec = client.codec) (he : x.Ends reply? c) :
    Concludes client call reply?.toList c

/-- What becomes of a value that is overwritten by whatever these bytes decode to. -/
def Codec.overwrite (codec : Codec) (t : Schema) (v : t.Carrier) (replies : List Bytes) :
    t.Carrier :=
  replies.foldl (fun v bs =>
    match codec.decode t bs with
    | .ok v => v
    | .error _ => v) v

/-- What a caller gets who has waited for a call, when these replies came for it. -/
structure Client.Returns (client : Client) (call : Call) (untouched : call.replyType.Carrier)
    (replies : List Bytes) (result : Option CallError × Datum) : Prop where
  once : replies.length ≤ 1
  reply : result.2 = ⟨call.replyType, client.codec.overwrite call.replyType untouched replies⟩
  serverless : client.route call.dest = .ok .onSelf → client.server = none →
    result = (some .noServer, ⟨call.replyType, untouched⟩)
  unencodable : ∀ site e, client.route call.dest = .ok .onSelf → client.server = some site →
    call.encodeArgs client.codec = .error e →
    result = (some (.encode e), ⟨call.replyType, untouched⟩)
  /-- All that can go wrong with a stream, and that the call is given up. -/
  failed : ∀ host e, client.route call.dest = .ok (.toPeer host) → result.1 = some e →
    (∀ text, e ≠ .remote text) → result.2 = ⟨call.replyType, untouched⟩

theorem World.concluded_received (t : Schema) (untouched : t.Carrier) (c : Call) :
    concluded t untouched (.received c) =
      (c.error, if c.replied then c.replySlot else ⟨t, untouched⟩) := rfl

section

variable {client : Client} {call c : Call} {untouched : call.replyType.Carrier}
  {replies : List Bytes} {result : Option CallError × Datum}

/-- What comes of a call to oneself that has got to the server. -/
theorem Client.Returns.ofServed {site : Site} {args : Bytes} (reply? : Option Bytes)
    (hr : client.route call.dest = .ok .onSelf) (hs : client.server = some site)
    (he : call.encodeArgs client.codec = .ok args)
    (hreply : result.2 =
      ⟨call.replyType, client.codec.overwrite call.replyType untouched reply?.toList⟩) :
    client.Returns call untouched reply?.toList result where
  once := Option.length_toList_le
  reply := hreply
  serverless _ hs' := by cases hs.symm.trans hs'
  unencodable _ _ _ _ he' := by cases he.symm.trans he'
  failed _ _ hr' := by cases hr.symm.trans hr'

/-- What comes of a call to a peer. -/
theorem Client.Returns.ofPeer {host : Host} (reply? : Option Bytes)
    (hr : client.route call.dest = .ok (.toPeer host))
    (hreply : result.2 =
      ⟨call.replyType, client.codec.overwrite call.replyType untouched reply?.toList⟩)
    (hfailed : ∀ e, result.1 = some e → (∀ text, e ≠ .remote text) →
      result.2 = ⟨call.replyType, untouched⟩) :
    client.Returns call untouched reply?.toList result where
  once := Option.length_toList_le
  reply := hreply
  serverless hr' := by cases hr.symm.trans hr'
  unencodable _ _ hr' := by cases hr.symm.trans hr'
  failed _ e _ := hfailed e

/-- What a call is after the replies that came while it was exchanged. -/
theorem Exchange.Ends.concluded {x : Exchange} {reply? : Option Bytes} (h : x.Ends reply? c)
    (hx : x.call.replied = false) (untouched : x.call.replyType.Carrier) :
    (World.concluded x.call.replyType untouched (.received c)).2 =
        ⟨x.call.replyType, x.codec.overwrite x.call.replyType untouched reply?.toList⟩ ∧
      (c.error = x.call.error ∨
        (World.concluded x.call.replyType untouched (.received c)).2 =
          ⟨x.call.replyType, untouched⟩) := by
  rw [World.concluded_received]
  cases h with
  | hushed => simp [hx, Codec.overwrite]
  | failed => simp [hx, Call.fail, Codec.overwrite]
  | garbled hd => simp [hx, Call.fail, Codec.overwrite, hd]
  | replied hd => simp [Call.setReply, Call.replySlot, Codec.overwrite, hd]

theorem Client.Concludes.returns (h : client.Concludes call replies c)
    (hfresh : call.error = none ∧ call.replied = false) (untouched : call.replyType.Carrier) :
    client.Returns call untouched replies
      (World.concluded call.replyType untouched (.received c)) := by
  obtain ⟨herror, hreplied⟩ := hfresh
  cases h with
  | @unserved e hr hu =>
    have hresult : World.concluded call.replyType untouched (.received (call.fail e)) =
        (some e, ⟨call.replyType, untouched⟩) := by
      simp [World.concluded_received, Call.fail, hreplied]
    rw [hresult]
    exact {
      once := Nat.zero_le _
      reply := rfl
      serverless := fun _ hs => by
        rw [hs] at hu
        cases hu
        rfl
      unencodable := fun site e' _ hs he => by
        rw [hs] at hu
        cases hu with
        | unencodable he' =>
          cases he.symm.trans he'
          rfl
      failed := fun _ _ hr' => by cases hr.symm.trans hr' }
  | @served site args error reply? hr hs he =>
    refine .ofServed _ hr hs he ?_
    cases reply? with
    | none =>
      cases error <;> simp [World.concluded_received, World.settleLocal, Call.fail, hreplied,
        Codec.overwrite]
    | some bs =>
      cases hd : client.codec.decode call.replyType bs with
      | ok v =>
        cases error <;> simp [World.concluded_received, World.settleLocal, Call.takeReply,
          Call.fail, Call.setReply, Call.replySlot, Codec.overwrite, hd]
      | error e =>
        cases error <;> simp [World.concluded_received, World.settleLocal, Call.takeReply,
          Call.fail, hreplied, Codec.overwrite, hd]
  | @unopened host e hr he =>
    refine Client.Returns.ofPeer none hr ?_ fun _ _ _ => ?_ <;>
      simp [World.concluded_received, Call.fail, hreplied, Codec.overwrite]
  | @exchanged host c x reply? hr hu hc he =>
    obtain ⟨current, codec, unread, buffer, phase⟩ := x
    cases hc
    rcases (show call.Underway current from hu) with rfl | ⟨text, rfl⟩
    · obtain ⟨hreply, hkept⟩ := he.concluded hreplied untouched
      refine .ofPeer _ hr hreply fun e hce _ => hkept.resolve_left fun hn => ?_
      rw [World.concluded_received, hn] at hce
      cases herror.symm.trans hce
    · obtain ⟨hreply, hkept⟩ := he.concluded (show (call.fail _).replied = false from hreplied)
        untouched
      refine .ofPeer _ hr hreply fun e hce hremote => hkept.resolve_left fun hn => ?_
      rw [World.concluded_received, hn] at hce
      cases hce
      exact hremote text rfl

end

namespace World

/-! ## Replies that come in a run -/

/-- The bytes of the reply that the task at a place takes with its next step: from the local server,
or from the stream of an exchange. -/
def replyTaken? (w : World) (k : Nat) : Option Bytes :=
  match w.tasks[k]? with
  | some (.call _ (.serving _ _ v)) =>
    match v.step? w.moment with
    | some (.done (.returned _ reply)) => reply
    | _ => none
  | some (.call _ (.exchanging link x)) => (w.links[link]?).bind (x.replyTaken? w.moment)
  | _ => none

theorem replyTaken?_of_opening {w : World} {k channel : Nat} {c : CallTask}
    (ht : w.tasks[k]? = some (.call channel c)) (ho : c.opening? = some call) :
    w.replyTaken? k = none := by
  cases c with
  | dialing | connecting => simp only [replyTaken?, ht]
  | _ => cases ho

/-- The replies that the task at a place takes in a run. -/
def repliesTaken (k : Nat) : List Move → World → List Bytes
  | [], _ => []
  | mv :: moves, w =>
    match w.move? mv with
    | none => []
    | some w' => (if mv = .step k then w.replyTaken? k else none).toList ++ repliesTaken k moves w'

variable {client : Client} {call : Call} {w w' : World} {k i channel : Nat} {replies : List Bytes}
  {moves : List Move}

/-- How it stands with a call that has a channel of its own, with the replies that came for it. -/
inductive Pursuit (client : Client) (call : Call) (w : World) (k channel : Nat)
    (replies : List Bytes) : Prop
  | pending {c} (ht : w.tasks[k]? = some (.call channel c)) (hc : client.Pursues call c)
    (hch : w.channels[channel]? = some (handedOn none)) (hn : replies = [])
  | done {c} (ht : w.tasks[k]? = some (.call channel (.delivering c)))
    (hc : client.Concludes call replies c) (hch : w.channels[channel]? = some (handedOn none))
  | handed {c} (ht : w.tasks[k]? = some .ended) (hc : client.Concludes call replies c)
    (hch : w.channels[channel]? = some (handedOn (some c)))
  | lost {site args} (ht : w.tasks[k]? = some .ended)
    (hr : client.route call.dest = .ok .onSelf) (hs : client.server = some site)
    (he : call.encodeArgs client.codec = .ok args) (hn : replies = [])
    (hch : w.channels[channel]? = some { free := 1 })

/-- Nobody but the task at a place drives a call of a channel. -/
def OwnChannel (w : World) (k channel : Nat) : Prop :=
  ∀ j c, w.tasks[j]? = some (.call channel c) → j = k

theorem OwnChannel.step (h : w.OwnChannel k channel) (hs : w.Steps i w') :
    w'.OwnChannel k channel := fun j _ hj =>
  have ⟨c, hc⟩ := hs.caller hj
  h j c hc

theorem OwnChannel.of_run? (h : w.OwnChannel k channel) (hrun : run? moves w = some w') :
    w'.OwnChannel k channel :=
  ledger_induct (P := fun _ w => w.OwnChannel k channel)
    (fun _ _ _ _ _ hP hs => hP.step (steps_of_step? hs)) (fun _ _ _ hP _ => hP) h hrun

namespace Pursuit

theorem later (h : w.Pursuit client call k channel replies) (m : Moment) :
    Pursuit client call { w with moment := m } k channel replies := by
  cases h with
  | pending ht hc hch hn => exact .pending ht hc hch hn
  | done ht hc hch => exact .done ht hc hch
  | handed ht hc hch => exact .handed ht hc hch
  | lost ht hr hs he hn hch => exact .lost ht hr hs he hn hch

/-- What others do leaves a call with a channel of its own as it stands. -/
theorem spared (h : w.Pursuit client call k channel replies) (ho : w.OwnChannel k channel)
    (hs : w.Steps i w') (hi : i ≠ k) : w'.Pursuit client call k channel replies := by
  have hch : w'.channels[channel]? = w.channels[channel]? := hs.aside fun c hc => hi (ho i c hc)
  cases h with
  | pending ht hc hch' hn => exact .pending (hs.task ht hi.symm) hc (hch.trans hch') hn
  | done ht hc hch' => exact .done (hs.task ht hi.symm) hc (hch.trans hch')
  | handed ht hc hch' => exact .handed (hs.task ht hi.symm) hc (hch.trans hch')
  | lost ht hr hs' he hn hch' => exact .lost (hs.task ht hi.symm) hr hs' he hn (hch.trans hch')

/-- A step of a call that writes its handshake takes no reply. -/
private theorem greet {link : Nat} {g : Greeting} {l l' : Link}
    {p : Progress Greeting (Except Call Exchange)}
    (ht : w'.tasks[k]? = some (.call channel (.ofGreeting link p)))
    (hc : client.Pursues call (.greeting link g)) (hch : w'.channels[channel]? = some (handedOn none))
    (hm : g.Moves m l p l') : w'.Pursuit client call k channel [] := by
  cases hc with
  | greeting hr hcall hc =>
    subst hcall
    cases hm with
    | stopped hv =>
      refine .done ht (.unopened hr fun text => ?_) hch
      rintro rfl
      cases Context.isCancellation_of_verdict hv
    | failed => exact .done ht (.unopened hr nofun) hch
    | written => exact .pending ht (.greeting hr rfl hc) hch rfl
    | opened => exact .pending ht (.exchanging hr trivial (.inl rfl) hc) hch rfl

/-- A step of a call that is not done. -/
theorem pursue {c : CallTask} (ht : w.tasks[k]? = some (.call channel c))
    (hc : client.Pursues call c) (hch : w.channels[channel]? = some (handedOn none))
    (hs : w.Steps k w') : w'.Pursuit client call k channel (w.replyTaken? k).toList := by
  have hk : k < w.tasks.length := (List.getElem?_eq_some_iff.mp ht).1
  have hset (t : Task) : (w.tasks.set k t)[k]? = some t := List.getElem?_set_self hk
  cases hs with
  | stopped ht' ho hv =>
    cases ht.symm.trans ht'
    obtain ⟨rfl, host, hr⟩ := hc.of_opening ho
    rw [replyTaken?_of_opening ht ho]
    refine .done (hset _) (.unopened hr fun text => ?_) hch
    rintro rfl
    cases Context.isCancellation_of_verdict hv
  | refused ht' ho =>
    cases ht.symm.trans ht'
    obtain ⟨rfl, host, hr⟩ := hc.of_opening ho
    rw [replyTaken?_of_opening ht ho]
    exact .done (hset _) (.unopened hr nofun) hch
  | connecting ht' _ _ _ ha =>
    cases ht.symm.trans ht'
    subst ha
    cases hc with
    | dialing hr =>
      simp only [replyTaken?, ht]
      exact .pending (hset _) (.connecting hr rfl rfl) hch rfl
  | connected ht' =>
    cases ht.symm.trans ht'
    cases hc with
    | connecting hr ha hc =>
      simp only [replyTaken?, ht]
      exact .pending (getElem?_setTask_connect hk) (.greeting hr ha hc) hch rfl
  | greeted ht' _ hg =>
    cases ht.symm.trans ht'
    simp only [replyTaken?, ht]
    exact greet (hset _) hc hch (Greeting.moves_of_step? hg)
  | dialed ht' =>
    cases ht.symm.trans ht'
    cases hc with
    | dialing hr =>
      simp only [replyTaken?, ht]
      exact .pending (hset _) (.exchanging hr trivial (.inl rfl) rfl) hch rfl
  | @exchanged _ _ _ _ p _ ht' hl hx =>
    cases ht.symm.trans ht'
    cases hc with
    | exchanging hr hsound hu hc =>
      have htells := Exchange.tells_of_step? hx
      have hmoves := Exchange.moves_of_step? hsound hx
      simp only [replyTaken?, ht, hl, Option.bind_some]
      cases p with
      | more x' =>
        rw [htells.1]
        exact .pending (hset _) (.exchanging hr hmoves.sound_of_more (hmoves.underway hu)
          (htells.2.trans hc)) hch rfl
      | done c => exact .done (hset _) (.exchanged hr hu hc htells) hch
  | unentered ht' hu =>
    cases ht.symm.trans ht'
    cases hc with
    | entering hr =>
      simp only [replyTaken?, ht]
      exact .done (hset _) (.unserved hr hu) hch
  | @entered _ _ _ _ _ site _ ht' ha =>
    cases ht.symm.trans ht'
    generalize hsite : some site = site? at hc
    cases hc with
    | entering hr =>
      simp only [replyTaken?, ht]
      exact .pending (hset _) (.serving hr hsite.symm ha) hch rfl
  | serving ht' hv =>
    cases ht.symm.trans ht'
    cases hc with
    | serving hr hs he =>
      simp only [replyTaken?, ht, hv]
      exact .pending (hset _) (.serving hr hs he) hch rfl
  | crashed ht' hv =>
    cases ht.symm.trans ht'
    cases hc with
    | serving hr hs he =>
      simp only [replyTaken?, ht, hv]
      exact .lost (hset _) hr hs he rfl ((List.getElem?_modify_eq ..).trans (congrArg _ hch))
  | returned ht' hv =>
    cases ht.symm.trans ht'
    cases hc with
    | serving hr hs he =>
      simp only [replyTaken?, ht, hv]
      exact .done (hset _) (.served hr hs he) hch
  | sending ht' =>
    cases ht.symm.trans ht'
    cases hc
  | _ => cases ht.symm.trans ‹w.tasks[k]? = some _›

theorem step (h : w.Pursuit client call k channel replies) (ho : w.OwnChannel k channel)
    (hs : w.step? i = some w') : w'.Pursuit client call k channel
      (replies ++ (if i = k then w.replyTaken? k else none).toList) := by
  by_cases hi : i = k
  case neg =>
    rw [if_neg hi, Option.toList_none, List.append_nil]
    exact h.spared ho (steps_of_step? hs) hi
  subst hi
  rw [if_pos rfl]
  cases h with
  | pending ht hc hch hn =>
    rw [hn, List.nil_append]
    exact pursue ht hc hch (steps_of_step? hs)
  | done ht hc hch =>
    have hn : w.replyTaken? i = none := by simp only [replyTaken?, ht]
    rw [step?_delivering ht hch] at hs
    cases hs
    rw [hn, Option.toList_none, List.append_nil]
    exact .handed (List.getElem?_set_self (List.getElem?_eq_some_iff.mp ht).1) hc
      (List.getElem?_set_self (List.getElem?_eq_some_iff.mp hch).1)
  | handed ht | lost ht =>
    rw [step?, ht] at hs
    cases hs

theorem of_run? (h : w.Pursuit client call k channel replies) (ho : w.OwnChannel k channel)
    (hrun : run? moves w = some w') :
    w'.Pursuit client call k channel (replies ++ repliesTaken k moves w) := by
  induction moves generalizing w replies with
  | nil =>
    cases hrun
    rw [repliesTaken, List.append_nil]
    exact h
  | cons mv moves ih =>
    obtain ⟨w₁, hw, hrest⟩ := run?_cons hrun
    rw [repliesTaken, hw]
    simp only [← List.append_assoc]
    cases mv with
    | step i =>
      simp only [Move.step.injEq]
      exact ih (h.step ho hw) (ho.step (steps_of_step? hw)) hrest
    | clock now =>
      simp only [move?] at hw
      split at hw <;> cases hw
      simp only [reduceCtorEq, if_false, Option.toList_none, List.append_nil]
      exact ih (h.later _) ho hrest
    | fire t =>
      cases hw
      simp only [reduceCtorEq, if_false, Option.toList_none, List.append_nil]
      exact ih (h.later _) ho hrest

end Pursuit

/-- The channel of a task that is over stays as it is. -/
theorem OwnChannel.channel_of_run? (ho : w.OwnChannel k channel)
    (ht : w.tasks[k]? = some .ended) (hrun : run? moves w = some w') :
    w'.channels[channel]? = w.channels[channel]? := by
  let P (_ : List Deed) (w₁ : World) : Prop :=
    w₁.OwnChannel k channel ∧ w₁.tasks[k]? = some .ended ∧
      w₁.channels[channel]? = w.channels[channel]?
  have hP : P (ledger moves w) w' := by
    refine ledger_induct (P := P) ?_ (fun _ _ _ hP _ => hP) ⟨ho, ht, rfl⟩ hrun
    intro _ w₁ i w₂ _ ⟨ho₁, ht₁, hch₁⟩ hs
    have hsteps := steps_of_step? hs
    have hi : i ≠ k := by
      rintro rfl
      rw [step?, ht₁] at hs
      cases hs
    refine ⟨ho₁.step hsteps, hsteps.task ht₁ hi.symm, ?_⟩
    rw [hsteps.aside fun c hc => hi (ho₁ i c hc), hch₁]
  exact hP.2.2

theorem step?_crashed {c : Call} {codec : Codec} {v : Serving}
    (ht : w.tasks[k]? = some (.call channel (.serving c codec v)))
    (hv : v.step? w.moment = some (.done .crashed)) :
    w.step? k = some ((w.modifyChannel channel Channel.dropSender).setTask k .ended) := by
  rw [step?, ht]
  simp only [stepCall?, hv]

/-- The caller of a call that was lost is told so. -/
theorem Pursuit.poll_of_crashed {c : Call} {codec : Codec} {v : Serving}
    (h : w.Pursuit client call k channel replies) (ho : w.OwnChannel k channel)
    (ht : w.tasks[k]? = some (.call channel (.serving c codec v)))
    (hv : v.step? w.moment = some (.done .crashed))
    (hrun : run? (.step k :: moves) w = some w') :
    Session.Calls.State.pollChannel channel w' = some (.ended, w') := by
  have hch : w.channels[channel]? = some (handedOn none) := by
    cases h with
    | pending _ _ hch | done _ _ hch => exact hch
    | handed ht' | lost ht' => cases ht.symm.trans ht'
  obtain ⟨w₁, hw, hrest⟩ := run?_cons hrun
  have ho₁ := ho.step (steps_of_step? hw)
  cases (step?_crashed ht hv).symm.trans hw
  have hlast := ho₁.channel_of_run?
    (List.getElem?_set_self (List.getElem?_eq_some_iff.mp ht).1) hrest
  have hdropped : w'.channels[channel]? = some (handedOn none).dropSender :=
    hlast.trans ((List.getElem?_modify_eq ..).trans (congrArg _ hch))
  rw [Session.Calls.State.pollChannel, hdropped]
  rfl

theorem pursues_of_taskOf {c : CallTask} (h : taskOf client call = .ok c) :
    client.Pursues call c := by
  unfold taskOf at h
  split at h <;> cases h
  · exact .entering ‹_›
  · exact .dialing ‹_›

theorem taskOf_of_go {w₀ w₁ : World} (hgo : w₀.go client call = .ok (channel, w₁)) :
    ∃ c, taskOf client call = .ok c := by
  cases hc : taskOf client call with
  | ok c => exact ⟨c, rfl⟩
  | error e =>
    simp only [go, goWith, start, hc] at hgo
    split at hgo
    · cases hgo
    · rename_i hw
      split at hw <;> cases hw

theorem pursuit_of_go {w₀ w₁ : World}
    (hfree : ∀ (k : Nat) (c : CallTask), w₀.tasks[k]? ≠ some (.call w₀.channels.length c))
    (hgo : w₀.go client call = .ok (channel, w₁)) :
    w₁.Pursuit client call w₀.tasks.length channel [] ∧
      w₁.OwnChannel w₀.tasks.length channel := by
  obtain ⟨c, hc⟩ := taskOf_of_go hgo
  rw [go_eq hc] at hgo
  cases hgo
  refine ⟨.pending (List.getElem?_concat_length ..) (pursues_of_taskOf hc)
    (List.getElem?_concat_length ..) rfl, fun j c' hj => ?_⟩
  rcases Nat.lt_trichotomy j w₀.tasks.length with hlt | heq | hgt
  · rw [List.getElem?_append_left hlt] at hj
    exact absurd hj (hfree j c')
  · exact heq
  · rw [List.getElem?_eq_none (by rw [List.length_append]; exact hgt)] at hj
    cases hj

/-- What becomes of a caller who waits for a call, whatever route it takes, whatever becomes of it
and whatever others do meanwhile. -/
theorem returns_of_run? {w₀ w₁ : World} (untouched : call.replyType.Carrier)
    (hfree : ∀ (k : Nat) (c : CallTask), w₀.tasks[k]? ≠ some (.call w₀.channels.length c))
    (hfresh : call.error = none ∧ call.replied = false)
    (hgo : w₀.go client call = .ok (channel, w₁)) (hrun : run? moves w₁ = some w) :
    (∀ receipt w', Session.Calls.State.pollChannel channel w = some (receipt, w') →
      client.Returns call untouched (repliesTaken w₀.tasks.length moves w₁)
        (concluded call.replyType untouched receipt)) ∧
    ∀ before after w₂ c codec v, moves = before ++ .step w₀.tasks.length :: after →
      run? before w₁ = some w₂ →
      w₂.tasks[w₀.tasks.length]? = some (.call channel (.serving c codec v)) →
      v.step? w₂.moment = some (.done .crashed) →
      ∃ receipt w', Session.Calls.State.pollChannel channel w = some (receipt, w') ∧
        concluded call.replyType untouched receipt =
          (some .aborted, ⟨call.replyType, untouched⟩) := by
  obtain ⟨hpursuit, hown⟩ := pursuit_of_go hfree hgo
  constructor
  · intro receipt w' hpoll
    have hlast := hpursuit.of_run? hown hrun
    rw [List.nil_append] at hlast
    unfold Session.Calls.State.pollChannel at hpoll
    cases hlast with
    | pending _ _ hch | done _ _ hch =>
      rw [hch] at hpoll
      cases hpoll
    | handed _ hc hch =>
      rw [hch] at hpoll
      cases hpoll
      exact hc.returns hfresh untouched
    | lost _ hr hs he hn hch =>
      rw [hch] at hpoll
      cases hpoll
      rw [hn]
      exact Client.Returns.ofServed none hr hs he rfl
  · rintro before after w₂ c codec v rfl hbefore ht hv
    rw [run?_append hbefore] at hrun
    have hown₂ := hown.of_run? hbefore
    exact ⟨_, _, (hpursuit.of_run? hown hbefore).poll_of_crashed hown₂ ht hv hrun, rfl⟩

/-- A question that is answered, and one to oneself that is lost. -/
theorem returns_answered_and_lost :
    (∃ w₁ w receipt w', (evening fun _ => .finish none (some [1])).go alice Receiving.question =
        .ok (1, w₁) ∧
      run? ([1, 1, 0, 2, 2, 2, 2, 1, 1, 1].map .step) w₁ = some w ∧
      Session.Calls.State.pollChannel 1 w = some (receipt, w') ∧
      (concluded .bool false receipt).2 = ⟨.bool, true⟩) ∧
    ∃ w₁ w receipt w', (evening fun _ => .never).go (hermit fun _ => .crash) musing = .ok (1, w₁) ∧
      run? ([1, 1].map .step) w₁ = some w ∧
      Session.Calls.State.pollChannel 1 w = some (receipt, w') ∧
      concluded .bool false receipt = (some .aborted, ⟨.bool, false⟩) := by
  have hfree (server : Server) (k : Nat) (c : CallTask) :
      (evening server).tasks[k]? ≠ some (.call (evening server).channels.length c) := by
    match k with
    | 0 => exact nofun
    | k + 1 => exact nofun
  refine ⟨?_, ?_⟩
  · obtain ⟨w₁, w, receipt, w', hgo, hrun, hpoll, htaken⟩ : ∃ w₁ w receipt w',
        (evening fun _ => .finish none (some [1])).go alice Receiving.question = .ok (1, w₁) ∧
        run? ([1, 1, 0, 2, 2, 2, 2, 1, 1, 1].map .step) w₁ = some w ∧
        Session.Calls.State.pollChannel 1 w = some (receipt, w') ∧
        repliesTaken 1 ([1, 1, 0, 2, 2, 2, 2, 1, 1, 1].map .step) w₁ = [[1]] :=
      ⟨_, _, _, _, rfl, rfl, rfl, rfl⟩
    have h := (returns_of_run? (show Receiving.question.replyType.Carrier from false) (hfree _)
      ⟨rfl, rfl⟩ hgo hrun).1 receipt w' hpoll
    refine ⟨w₁, w, receipt, w', hgo, hrun, hpoll, h.reply.trans ?_⟩
    rw [show repliesTaken (evening fun _ => .finish none (some [1])).tasks.length _ w₁ = [[1]]
      from htaken]
    rfl
  · obtain ⟨w₁, w, hgo, hrun, w₂, hbefore, ht⟩ : ∃ w₁ w,
        (evening fun _ => .never).go (hermit fun _ => .crash) musing = .ok (1, w₁) ∧
        run? ([1, 1].map .step) w₁ = some w ∧ ∃ w₂, run? [.step 1] w₁ = some w₂ ∧
          w₂.tasks[1]? =
            some (.call 1 (.serving musing .standard ⟨musing.context, .crash, none⟩)) :=
      ⟨_, _, rfl, rfl, _, rfl, rfl⟩
    obtain ⟨receipt, w', hpoll, hresult⟩ := (returns_of_run?
      (show musing.replyType.Carrier from false) (hfree _) ⟨rfl, rfl⟩ hgo hrun).2
        [.step 1] [] w₂ _ _ _ rfl hbefore ht rfl
    exact ⟨w₁, w, receipt, w', hgo, hrun, hpoll, hresult⟩

end World

end PeerCall
