import PeerCall.Proofs.Talk.Agreement
import PeerCall.Proofs.Talk.Honesty
import PeerCall.Proofs.World.Scene

/-! # A remote call from end to end

What a call to another host of the network comes to, in every order of the steps of its task, of the
task that accepts and of the task that answers. Main statements: `Scene.answered_of_run?`, for calls
that fit into frames and are not given up, and `Scene.hushed_of_run?`, for all others as well. -/

namespace PeerCall

/-! ## What a server's answer comes to -/

namespace Call

/-- The error that a call reports where the server returned this one. -/
def reported (error : Option CallError) : Option CallError :=
  if (Responder.responseText error).isEmpty then none
  else some (.remote (Responder.responseText error))

/-- A call came to what a server returned. It was replied to if there were reply bytes and they
could be decoded; if they could not, that is its error. -/
structure Answered (call : Call) (codec : Codec) (error : Option CallError) (reply : Option Bytes)
    (c : Call) : Prop where
  replied_iff : c.replied = true ↔
    ∃ bs v, reply = some bs ∧ bs ≠ [] ∧ codec.decode call.replyType bs = .ok v
  decoded : ∀ bs v, reply = some bs → bs ≠ [] → codec.decode call.replyType bs = .ok v →
    c.replySlot = ⟨call.replyType, v⟩
  unreplied : c.replied = false → c.replySlot = call.replySlot
  undecoded : ∀ bs e, reply = some bs → bs ≠ [] → codec.decode call.replyType bs = .error e →
    c.error = some (.decode e)
  otherwise : (∀ bs e, reply = some bs → bs ≠ [] → codec.decode call.replyType bs ≠ .error e) →
    c.error = reported error

variable {c call : Call} {codec : Codec} {error : Option CallError} {reply : Option Bytes}

private theorem answered_without (hr : c.replied = false) (he : c.error = reported error)
    (hreply : ∀ bs, reply = some bs → bs = []) : c.Answered codec error reply c where
  replied_iff := by
    rw [hr]
    refine ⟨nofun, fun ⟨bs, v, hs, hb, _⟩ => absurd (hreply bs hs) hb⟩
  decoded bs _ hs hb _ := absurd (hreply bs hs) hb
  unreplied _ := rfl
  undecoded bs _ hs hb _ := absurd (hreply bs hs) hb
  otherwise _ := he

private theorem answered_of_receivedReply (hr : c.replied = false) (he : c.error = reported error) :
    c.Answered codec error reply (c.receivedReply codec (.ok (reply.getD []))).1 := by
  cases reply with
  | none => exact answered_without hr he nofun
  | some bs =>
    by_cases hb : bs = []
    · subst hb
      exact answered_without hr he fun bs hs => by cases hs; rfl
    · rw [Option.getD_some]
      cases hd : codec.decode c.replyType bs with
      | ok v =>
        rw [receivedReply_of_ok hb hd]
        refine ⟨⟨fun _ => ⟨bs, v, rfl, hb, hd⟩, fun _ => rfl⟩, ?_, nofun, ?_, fun _ => he⟩
        · intro bs' v' hs _ hd'
          cases hs
          cases hd.symm.trans hd'
          rfl
        · intro bs' e hs _ hd'
          cases hs
          cases hd.symm.trans hd'
      | error e =>
        rw [receivedReply_of_bad hb hd]
        refine ⟨⟨fun h => absurd (hr.symm.trans h) (by decide), ?_⟩, ?_, fun _ => rfl, ?_, ?_⟩
        · rintro ⟨bs', v, hs, _, hd'⟩
          cases hs
          cases hd.symm.trans hd'
        · intro bs' v hs _ hd'
          cases hs
          cases hd.symm.trans hd'
        · intro bs' e' hs _ hd'
          cases hs
          cases hd.symm.trans hd'
          rfl
        · exact fun h => absurd hd (h bs e rfl hb)

theorem Answered.error_eq_none_iff (h : call.Answered codec error reply c) : c.error = none ↔
    Responder.responseText error = "" ∧
      ∀ bs, reply = some bs → bs ≠ [] → ∃ v, codec.decode call.replyType bs = .ok v := by
  constructor
  · intro he
    have hdec (bs) (hs : reply = some bs) (hb : bs ≠ []) :
        ∃ v, codec.decode call.replyType bs = .ok v := by
      cases hd : codec.decode call.replyType bs with
      | ok v => exact ⟨v, rfl⟩
      | error e => cases he.symm.trans (h.undecoded bs e hs hb hd)
    have hrep := h.otherwise fun bs e hs hb hd => by
      obtain ⟨v, hv⟩ := hdec bs hs hb
      cases hv.symm.trans hd
    refine ⟨?_, hdec⟩
    rw [he, reported] at hrep
    split at hrep
    · exact String.isEmpty_iff.mp ‹_›
    · cases hrep
  · rintro ⟨ht, hdec⟩
    rw [h.otherwise fun bs e hs hb hd => by
      obtain ⟨v, hv⟩ := hdec bs hs hb
      cases hv.symm.trans hd]
    exact if_pos (String.isEmpty_iff.mpr ht)

/-- What two whole frames make of a call is what the server returned. -/
theorem answered_of_received {response : Bytes} (he : call.error = none)
    (hr : call.replied = false)
    (hd : codec.decode .response response = .ok ⟨Responder.responseText error⟩)
    (hp : response.length ≤ Frame.maxSize) (hq : (reply.getD []).length ≤ Frame.maxSize) :
    call.Answered codec error reply (call.received codec .clean
      (Frame.bytes response ++ Frame.bytes (reply.getD []))).1 := by
  have hread : Frame.read .clean (Frame.bytes (reply.getD [])) = (.ok (reply.getD []), []) := by
    simpa using Frame.read_bytes hq .clean []
  rw [received_of_ok (Frame.read_bytes hp ..) hd, hread]
  by_cases ht : (Responder.responseText error).isEmpty = true
  · rw [heard, if_pos ht]
    exact answered_of_receivedReply hr (he.trans (if_pos ht).symm)
  · rw [heard, if_neg ht]
    have h : (call.fail (.remote (Responder.responseText error))).Answered codec error reply _ :=
      answered_of_receivedReply hr (if_neg ht).symm
    obtain ⟨h1, h2, h3, h4, h5⟩ := h
    exact ⟨h1, h2, h3, h4, h5⟩

end Call

/-! ## Runs -/

namespace Scene

/-- The invocation of the server with these arguments. -/
def invocation (s : Scene) (args : Bytes) : Invocation :=
  { context := ⟨.root s.base.tokens, none⟩, peer := s.host.id, service := s.call.service, args }

/-- All that is said in a call whose arguments are these bytes, and where the server returns this,
can be encoded and fits into frames. -/
structure Fits (s : Scene) (args : Bytes) (error : Option CallError) (reply : Option Bytes) :
    Prop where
  serviceFits : ∃ bs, s.client.codec.encode .serviceId s.call.service = .ok bs ∧
    bs.length ≤ Frame.maxSize
  argsFit : s.call.encodeArgs s.client.codec = .ok args ∧ args.length ≤ Frame.maxSize
  responseFits : ∃ bs, s.client.codec.encode .response ⟨Responder.responseText error⟩ = .ok bs ∧
    bs.length ≤ Frame.maxSize
  replyFits : (reply.getD []).length ≤ Frame.maxSize
  returns : (s.site.server (s.invocation args)).result? = some (error, reply)

/-- What is said in a call. -/
def terms (s : Scene) (args : Bytes) (error : Option CallError) (reply : Option Bytes) : Terms where
  call := s.call
  codec := s.client.codec
  site := s.site
  invocation := s.invocation args
  error := error
  reply := reply
  service := (s.client.codec.encode .serviceId s.call.service).toOption.getD []
  response :=
    (s.client.codec.encode .response ⟨Responder.responseText error⟩).toOption.getD []

variable {s : Scene} {args : Bytes} {error : Option CallError} {reply : Option Bytes} {m : Moment}
  {st st' : Stand} {w : World}

/-- The codec of a client reads back what it writes in front of arguments and replies. -/
structure Understood (s : Scene) : Prop where
  service : s.client.codec.Undoes .serviceId
  response : s.client.codec.Undoes .response

/-- A run of a fresh call that is not given up. Only tokens that there were are fired. -/
structure Steady (s : Scene) (moves : List World.Move) (w : World) : Prop where
  fresh : s.call.error = none ∧ s.call.replied = false
  made : ∀ t ∈ s.base.moment.fired, t.isMade s.base.tokens = true
  fired : ∀ t, World.Move.fire t ∈ moves → t.isMade s.base.tokens = true
  verdict : s.call.context.verdict w.moment = none

theorem Fits.kept (h : s.Fits args error reply) (hc : s.Understood) :
    (s.terms args error reply).Kept := by
  obtain ⟨⟨service, hservice, hsl⟩, ⟨hargs, hal⟩, ⟨response, hresponse, hrl⟩, hreply, hret⟩ := h
  have hs : (s.terms args error reply).service = service := by
    simp only [terms, hservice]
    rfl
  have hr : (s.terms args error reply).response = response := by
    simp only [terms, hresponse]
    rfl
  exact {
    service := hs ▸ hservice
    named := hs ▸ hc.service _ _ hservice hsl
    serviceFits := hs ▸ hsl
    args := hargs
    argsFit := hal
    response := hr ▸ hresponse
    responseFits := hr ▸ hrl
    replyFits := hreply
    returns := hret }

/-- A stand of a call that goes well. -/
def Stand.Well (T : Terms) : Stand → Prop
  | .dialing => True
  | .refused _ _ => False
  | .talking _ t _ => Agreed T t ∧ t.Roomy

/-- How many steps there can still be. -/
def left (s : Scene) (T : Terms) : Stand → Nat
  | .dialing => s.opening.work T + 3
  | .refused _ _ => 0
  | .talking accepted t delivered =>
    t.work T + (if accepted then 0 else 1) + (if delivered then 0 else 1)

/-- Neither the call nor its invocation is given up. -/
def Undisturbed (s : Scene) (m : Moment) : Prop :=
  s.call.context.verdict m = none ∧ Context.verdict ⟨.root s.base.tokens, none⟩ m = none

theorem Fits.well_of_next (h : s.Fits args error reply) (hc : s.Understood)
    (hu : s.Undisturbed m) (hw : st.Well (s.terms args error reply)) (hn : s.Next m st st') :
    st'.Well (s.terms args error reply) ∧
      s.left (s.terms args error reply) st' < s.left (s.terms args error reply) st := by
  have hT := h.kept hc
  cases hn with
  | refuse hv =>
    rw [hu.1] at hv
    cases hv
  | dial =>
    refine ⟨⟨agreed_ofCall hT World.linkCapacity, fun s => ?_⟩, ?_⟩
    · exact (Link.bound_ofCapacity ..).symm ▸ Nat.zero_lt_succ 65535
    · exact Nat.lt_succ_self _
  | @accept t delivered =>
    refine ⟨hw, ?_⟩
    simp only [left, if_true, Bool.false_eq_true, if_false]
    omega
  | @call x p l l' r notes accepted hx =>
    obtain ⟨ha, hroom⟩ := hw
    have hs : Talk.Step s.site.number m ⟨.more x, l, r, notes⟩ ⟨p, l', r, notes⟩ := .call hx
    obtain ⟨ha', hlt⟩ := ha.step hT hs hu.1 hu.2
    exact ⟨⟨ha', hs.roomy hroom⟩, Nat.add_lt_add_right (Nat.add_lt_add_right hlt _) _⟩
  | @respond p l r turn notes delivered hr =>
    obtain ⟨ha, hroom⟩ := hw
    have hs : Talk.Step s.site.number m ⟨p, l, r, notes⟩
        ⟨p, turn.link, turn.responder, notes ++ turn.noted s.site.number m⟩ := .respond hr
    obtain ⟨ha', hlt⟩ := ha.step hT hs hu.1 hu.2
    exact ⟨⟨ha', hs.roomy hroom⟩, Nat.add_lt_add_right (Nat.add_lt_add_right hlt _) _⟩
  | deliver =>
    refine ⟨hw, ?_⟩
    simp only [left, Talk.work, if_true, Bool.false_eq_true, if_false]
    omega
  | giveBack => exact hw.elim

/-- A call that fits and is not given up goes well, and there is an end to its steps. -/
theorem Fits.well_of_run? (h : s.Fits args error reply) (hc : s.Understood)
    (hs : s.Ready) (hrun : World.run? moves (s.world s.base.moment .dialing) = some w)
    (hsteady : s.Steady moves w) : ∃ st, w = s.world w.moment st ∧ s.Coherent st ∧
      st.Well (s.terms args error reply) ∧
      moves.countP World.Move.isStep + s.left (s.terms args error reply) st ≤
        s.opening.work (s.terms args error reply) + 3 := by
  have hdialing : s.Coherent .dialing := trivial
  have hu : s.Undisturbed w.moment := by
    refine ⟨hsteady.verdict, Moment.verdict_root fun t ht => ?_⟩
    rcases fired_of_run? hs hdialing hrun ht with hf | hf
    · exact hsteady.made t hf
    · exact hsteady.fired t hf
  let P (n : Nat) (m : Moment) (st : Stand) : Prop := s.Undisturbed m →
    st.Well (s.terms args error reply) ∧
      n + s.left (s.terms args error reply) st ≤ s.opening.work (s.terms args error reply) + 3
  have hstep (n m st st') (hP : P n m st) (_ : s.Coherent st) (hn : s.Next m st st') :
      P (n + 1) m st' := by
    intro hu
    obtain ⟨hw, hle⟩ := hP hu
    obtain ⟨hw', hlt⟩ := h.well_of_next hc hu hw hn
    exact ⟨hw', by omega⟩
  have hlater (n m m' st) (hP : P n m st) (hb : m.Before m') : P n m' st := fun hu =>
    hP ⟨Context.verdict_of_before hb hu.1, Context.verdict_of_before hb hu.2⟩
  have hP : P 0 s.base.moment .dialing := fun _ => ⟨trivial, Nat.le_of_eq (Nat.zero_add _)⟩
  obtain ⟨st, hw, hcoh, hP⟩ := stands_of_run? hs hstep hlater hP hdialing hrun
  obtain ⟨hwell, hle⟩ := hP hu
  exact ⟨st, hw, hcoh, hwell, hle⟩

/-- A call that goes well does not come to rest before it is handed back. -/
theorem delivered_of_atRest {T : Terms} (hT : T.Kept) (hs : s.Ready)
    (hcoh : s.Coherent st) (hw : st.Well T) (h : (s.world m st).AtRest) :
    ∃ c, st.delivered? = some c := by
  have hnot {now st'} (hnow : m.now ≤ now) : ¬ s.Next { m with now } st st' :=
    not_next_of_atRest hs h hnow
  cases st with
  | dialing =>
    cases hv : s.call.context.verdict m with
    | none => exact (hnot (Nat.le_refl _) (.dial hv)).elim
    | some e => exact (hnot (Nat.le_refl _) (.refuse hv)).elim
  | refused => exact hw.elim
  | talking accepted t delivered =>
    cases accepted with
    | false => exact (hnot (Nat.le_refl _) .accept).elim
    | true =>
      obtain ⟨ha, hroom⟩ := hw
      obtain ⟨caller, l, r, notes⟩ := t
      cases caller with
      | done c =>
        cases delivered with
        | true => exact ⟨c, rfl⟩
        | false => exact (hnot (Nat.le_refl _) .deliver).elim
      | more x =>
        have hd : delivered = false := by
          cases delivered with
          | false => rfl
          | true => obtain ⟨c, hc⟩ := hcoh.2 rfl; cases hc
        subst hd
        have hwait {now : Nat} (hnow : m.now ≤ now) :
            ∃ v wake, r.phase = .serving v ∧ v.wake = some wake ∧ now < wake := by
          rcases ha.progress hT hroom { m with now } with
            ⟨c, hc⟩ | ⟨x', hx', hstep⟩ | hstep | hserving
          · cases hc
          · cases hx'
            obtain ⟨⟨p, l'⟩, hx⟩ := Option.ne_none_iff_exists'.mp hstep
            exact (hnot hnow (.call hx)).elim
          · obtain ⟨turn, hr⟩ := Option.ne_none_iff_exists'.mp hstep
            exact (hnot hnow (.respond hr)).elim
          · exact hserving
        -- when the wait of the server is over, it can go on
        obtain ⟨v, _, hp, _⟩ := hwait (Nat.le_refl _)
        have hlong now (hnow : m.now ≤ now) : ∃ t, v.wake = some t ∧ now < t := by
          obtain ⟨v', t, hp', ht, hlt⟩ := hwait hnow
          cases hp.symm.trans hp'
          exact ⟨t, ht, hlt⟩
        exact (v.not_waiting_always hlong).elim

/-- A call that went well has come to what the server returned. -/
theorem Stand.Well.answered (hw : st.Well (s.terms args error reply))
    (hT : (s.terms args error reply).Kept) (hc : s.client.codec.Undoes .response)
    (hfresh : s.call.error = none ∧ s.call.replied = false) (h : st.delivered? = some c) :
    st.notes = [⟨s.site.number, s.invocation args, none⟩] ∧
      s.call.Answered s.client.codec error reply c := by
  rcases Stand.eq_of_delivered? h with rfl | ⟨accepted, l, r, notes, rfl⟩
  · exact hw.elim
  · obtain ⟨hn, rfl⟩ := hw.1.done
    exact ⟨hn, Call.answered_of_received hfresh.1 hfresh.2 (hc _ _ hT.response hT.responseFits)
      hT.responseFits hT.replyFits⟩

/-! ## A small call -/

/-- A call for a truth value, and a host that has an answer. -/
def moon (error : Option CallError) (reply : Option Bytes) : Scene where
  base := {
    network := (({} : Network).join ⟨"bob"⟩).2
    tasks := [.accept 0 (.serve ⟨7, fun _ => .finish error reply⟩ .standard .standard)]
    tokens := 1 }
  client := { host := some ⟨⟨"alice"⟩, .network⟩ }
  host := ⟨⟨"alice"⟩, .network⟩
  call := Receiving.question
  site := ⟨7, fun _ => .finish error reply⟩
  inbox := 0

/-- Dialing and sending, accepting, answering, and taking the answer. -/
def moonrise : List World.Move := [1, 1, 0, 2, 2, 2, 2, 1, 1, 1].map .step

theorem moon_ready (error : Option CallError) (reply : Option Bytes) : (moon error reply).Ready :=
  ⟨rfl, rfl, rfl, rfl, rfl⟩

theorem moon_understood (error : Option CallError) (reply : Option Bytes) :
    (moon error reply).Understood :=
  ⟨Codec.standard_undoes_serviceId, Codec.standard_undoes_response⟩

theorem moon_steady (error : Option CallError) (reply : Option Bytes) (hw : w.moment = {}) :
    (moon error reply).Steady moonrise w where
  fresh := ⟨rfl, rfl⟩
  made := nofun
  fired t ht := by simp [moonrise] at ht
  verdict := by rw [hw]; rfl

/-! ## Calls that go well -/

/-- In every run of a remote call that fits into frames and is not given up, the server is invoked
once at most, with just what was asked. When the call is handed back the server was invoked, and the
call has come to what it returned. The run takes a bounded number of steps, and does not come to
rest before the call is handed back. -/
theorem answered_of_run? (s : Scene) (hs : s.Ready) (hc : s.Understood)
    (h : s.Fits args error reply) (hgo : s.base.go s.client s.call = .ok (done, w₁))
    (hrun : World.run? moves w₁ = some w) (hsteady : s.Steady moves w) :
    (w.notes = s.base.notes ∨
      w.notes = s.base.notes ++ [⟨s.site.number, s.invocation args, none⟩]) ∧
    (∀ c ∈ w.delivered done,
      w.notes = s.base.notes ++ [⟨s.site.number, s.invocation args, none⟩] ∧
      s.call.Answered s.client.codec error reply c) ∧
    moves.countP World.Move.isStep ≤ s.opening.work (s.terms args error reply) + 3 ∧
    (w.AtRest → ∃ c, w.delivered done = [c]) := by
  cases hs.go.symm.trans hgo
  obtain ⟨st, hw, hcoh, hwell, hle⟩ := h.well_of_run? hc hs hrun hsteady
  have hT := h.kept hc
  generalize w.moment = m at hw
  subst hw
  refine ⟨?_, fun c hcd => ?_, by omega, fun hrest => ?_⟩
  · cases st with
    | dialing => exact .inl (List.append_nil _)
    | refused => exact .inl (List.append_nil _)
    | talking accepted t delivered =>
      rcases hwell.1.notes_eq with hn | hn
      · exact .inl ((congrArg _ hn).trans (List.append_nil _))
      · exact .inr (congrArg _ hn)
  · rw [delivered_world, Option.mem_toList] at hcd
    obtain ⟨hn, ha⟩ := hwell.answered hT hc.response hsteady.fresh hcd
    exact ⟨congrArg _ hn, ha⟩
  · obtain ⟨c, hc⟩ := delivered_of_atRest hT hs hcoh hwell hrest
    exact ⟨c, by rw [delivered_world, hc]; rfl⟩

theorem answered_replying_server : ∃ w c,
    World.run? moonrise ((moon none (some [1])).world {} .dialing) = some w ∧
      w.delivered 0 = [c] ∧ w.notes = [⟨7, (moon none (some [1])).invocation [], none⟩] ∧
      Receiving.question.Answered .standard none (some [1]) c := by
  have hfits : (moon none (some [1])).Fits [] none (some [1]) :=
    ⟨⟨_, rfl, by decide⟩, ⟨rfl, by decide⟩, ⟨_, rfl, by decide⟩, by decide, rfl⟩
  have hrun : World.run? moonrise ((moon none (some [1])).world {} .dialing) = some _ := rfl
  have h := answered_of_run? _ (moon_ready _ _) (moon_understood _ _) hfits
    (moon_ready _ _).go hrun (moon_steady _ _ rfl)
  exact ⟨_, _, hrun, rfl, h.2.1 _ (.head _)⟩

/-! ## What a call can hide -/

/-- A stand in which a call without an error was answered without a text. -/
def Stand.Honest (s : Scene) : Stand → Prop
  | .dialing => True
  | .refused c _ => c.error ≠ none
  | .talking _ t _ => t.Honest s.site.server s.client.codec

theorem Next.honest (h : s.Next m st st') (hc : s.client.codec.Undoes .response)
    (hh : st.Honest s) : st'.Honest s := by
  cases h with
  | refuse => exact nofun
  | dial => exact Talk.honest_ofCall (r := s.responder) s.call World.linkCapacity rfl rfl
  | accept | deliver | giveBack => exact hh
  | @call x p l l' r notes accepted hx =>
    have hs : Talk.Step s.site.number m ⟨.more x, l, r, notes⟩ ⟨p, l', r, notes⟩ := .call hx
    exact Talk.Honest.step hc hh hs
  | respond hr => exact Talk.Honest.step hc hh (.respond hr)

/-- In every run of a remote call, given up or not, a call that is handed back without an error was
answered by an invocation that returns no error, or one without a text. If the call fits into
frames and is not given up, an error without a text is hidden indeed, unless the reply cannot be
decoded. -/
theorem hushed_of_run? (s : Scene) (hs : s.Ready) (hc : s.client.codec.Undoes .response)
    (hgo : s.base.go s.client s.call = .ok (done, w₁)) (hrun : World.run? moves w₁ = some w)
    (hcd : c ∈ w.delivered done) :
    (c.error = none → ∃ n error reply, w.notes = s.base.notes ++ [n] ∧
      (s.site.server n.invocation).result? = some (error, reply) ∧
      Responder.responseText error = "") ∧
    (∀ args e reply, s.client.codec.Undoes .serviceId → s.Fits args (some e) reply →
      s.Steady moves w → (c.error = none ↔ e.message = "" ∧ ∀ bs, reply = some bs → bs ≠ [] →
        ∃ v, s.client.codec.decode s.call.replyType bs = .ok v)) := by
  cases hs.go.symm.trans hgo
  refine ⟨fun he => ?_, fun args e reply hn h hsteady => ?_⟩
  · have hdialing : Stand.Honest s .dialing := trivial
    obtain ⟨st, hw, -, hh⟩ := stands_of_run? (P := fun _ _ st => st.Honest s) hs
      (fun _ _ _ _ hh _ hn => hn.honest hc hh) (fun _ _ _ _ hh _ => hh) hdialing trivial hrun
    rw [hw, delivered_world, Option.mem_toList] at hcd
    rw [hw]
    rcases Stand.eq_of_delivered? hcd with rfl | ⟨accepted, l, r, notes, rfl⟩
    · exact (hh he).elim
    · obtain ⟨error, reply, ⟨n, hn, hret⟩, ht⟩ := hh.caller he
      exact ⟨n, error, reply, congrArg _ (hh.notes_eq hn), hret.result?_eq ht, ht⟩
  · have hu : s.Understood := ⟨hn, hc⟩
    obtain ⟨st, hw, -, hwell, -⟩ := h.well_of_run? hu hs hrun hsteady
    rw [hw, delivered_world, Option.mem_toList] at hcd
    exact (hwell.answered (h.kept hu) hc hsteady.fresh hcd).2.error_eq_none_iff

theorem hushed_error_with_text : ∃ w c,
    World.run? moonrise ((moon (some (.service "gone")) none).world {} .dialing) = some w ∧
      w.delivered 0 = [c] ∧ c.error ≠ none := by
  have hfits : (moon (some (.service "gone")) none).Fits [] (some (.service "gone")) none :=
    ⟨⟨_, rfl, by decide⟩, ⟨rfl, by decide⟩, ⟨_, rfl, by decide⟩, by decide, rfl⟩
  obtain ⟨w, c, hrun, hd, hm⟩ : ∃ w c,
      World.run? moonrise ((moon (some (.service "gone")) none).world {} .dialing) = some w ∧
        w.delivered 0 = [c] ∧ w.moment = {} := ⟨_, _, rfl, rfl, rfl⟩
  have hcd : c ∈ w.delivered 0 := hd ▸ .head _
  have h := hushed_of_run? _ (moon_ready _ _) Codec.standard_undoes_response (moon_ready _ _).go
    hrun hcd
  refine ⟨w, c, hrun, hd, fun he => ?_⟩
  have hiff := h.2 _ _ _ Codec.standard_undoes_serviceId hfits (moon_steady _ _ hm)
  exact absurd (hiff.mp he).1 (by decide)

/-- An error without a text is taken for success. -/
theorem unheard_empty_error : ∃ w₁ w c n,
    (moon (some (.service "")) none).base.go { host := some ⟨⟨"alice"⟩, .network⟩ }
      Receiving.question = .ok (0, w₁) ∧
      World.run? moonrise w₁ = some w ∧ w.notes = [n] ∧
      ((moon (some (.service "")) none).site.server n.invocation).result? =
        some (some (.service ""), none) ∧
      w.delivered 0 = [c] ∧ c.error = none :=
  ⟨_, _, _, _, (moon_ready _ _).go, rfl, rfl, rfl, rfl, rfl⟩

end Scene

end PeerCall
