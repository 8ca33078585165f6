import PeerCall.Proofs.RemoteCall

/-! # A local call beside a remote one

The same call, made by the client to itself. It enters the server there, waits for it and is handed
back. Main statement: `Scene.concurs_of_run?`, it comes to the same reply as the remote call unless
the reply has no bytes. -/

namespace PeerCall

/-! ## Concurring -/

namespace Call

/-- The reply bytes that a server gave cannot be decoded, and that is what the call reports. -/
def Misread (call : Call) (codec : Codec) (reply : Option Bytes) (c : Call) : Prop :=
  ∃ bs e, reply = some bs ∧ codec.decode call.replyType bs = .error e ∧ c.error = some (.decode e)

/-- Two runs of a call have come to the same reply, or to none in the same way. -/
structure Concurs (call : Call) (codec : Codec) (reply : Option Bytes) (c c' : Call) : Prop where
  replied : c.replied = c'.replied
  replySlot : c.replySlot = c'.replySlot
  misread : call.Misread codec reply c ↔ call.Misread codec reply c'

variable {c call : Call} {codec : Codec} {error : Option CallError} {reply : Option Bytes}

theorem reported_ne_decode (error : Option CallError) (e : StreamError) :
    reported error ≠ some (.decode e) := by
  unfold reported
  split <;> nofun

theorem settleLocal_of_none (call : Call) (codec : Codec) (error : Option CallError) :
    (World.settleLocal call codec error none).replied = call.replied ∧
      (World.settleLocal call codec error none).replySlot = call.replySlot := by
  cases error <;> exact ⟨rfl, rfl⟩

theorem settleLocal_of_ok (call : Call) (error : Option CallError) {v : call.replyType.Carrier}
    (h : codec.decode call.replyType bs = .ok v) :
    (World.settleLocal call codec error (some bs)).replied = true ∧
      (World.settleLocal call codec error (some bs)).replySlot = ⟨call.replyType, v⟩ := by
  cases error with
  | none =>
    simp only [World.settleLocal, Option.elim, takeReply, h]
    exact ⟨rfl, rfl⟩
  | some e =>
    have h' : codec.decode (call.fail e).replyType bs = .ok v := h
    simp only [World.settleLocal, Option.elim, takeReply, h']
    exact ⟨rfl, rfl⟩

theorem settleLocal_of_error (call : Call) (error : Option CallError)
    (h : codec.decode call.replyType bs = .error e) :
    (World.settleLocal call codec error (some bs)).replied = call.replied ∧
      (World.settleLocal call codec error (some bs)).replySlot = call.replySlot ∧
      (World.settleLocal call codec error (some bs)).error = some (.decode e) := by
  cases error with
  | none =>
    simp only [World.settleLocal, Option.elim, takeReply, h]
    exact ⟨rfl, rfl, rfl⟩
  | some e' =>
    have h' : codec.decode (call.fail e').replyType bs = .error e := h
    simp only [World.settleLocal, Option.elim, takeReply, h']
    exact ⟨rfl, rfl, rfl⟩

/-- The same call elsewhere and in another context. -/
def sent (call : Call) (dest : PeerId) (context : Context) : Call := { call with dest, context }

/-- A reply with bytes is taken alike from both sides, and so is none at all. -/
theorem Answered.concurs (h : call.Answered codec error reply c) (hr : call.replied = false)
    (dest : PeerId) (context : Context) (hreply : reply ≠ some []) :
    call.Concurs codec reply c (World.settleLocal (call.sent dest context) codec error reply) := by
  cases reply with
  | none =>
    have hc : c.replied = false := by
      rw [← Bool.not_eq_true, h.replied_iff]
      rintro ⟨bs, v, hs, -⟩
      cases hs
    obtain ⟨hl, hslot⟩ := settleLocal_of_none (call.sent dest context) codec error
    refine ⟨hc.trans (hl.trans hr).symm, (h.unreplied hc).trans hslot.symm, ?_⟩
    constructor <;> rintro ⟨bs, e, hs, -⟩ <;> cases hs
  | some bs =>
    have hb : bs ≠ [] := fun hn => hreply (congrArg some hn)
    cases hd : codec.decode call.replyType bs with
    | ok v =>
      have hc : c.replied = true := h.replied_iff.mpr ⟨bs, v, rfl, hb, hd⟩
      obtain ⟨hl, hslot⟩ := settleLocal_of_ok (call.sent dest context) error hd
      refine ⟨hc.trans hl.symm, (h.decoded bs v rfl hb hd).trans hslot.symm, ?_⟩
      constructor <;> rintro ⟨_, e, hs, hd', -⟩ <;> cases hs <;> cases hd.symm.trans hd'
    | error e =>
      have hc : c.replied = false := by
        rw [← Bool.not_eq_true, h.replied_iff]
        rintro ⟨_, v, hs, -, hd'⟩
        cases hs
        cases hd.symm.trans hd'
      obtain ⟨hl, hslot, he⟩ := settleLocal_of_error (call.sent dest context) error hd
      refine ⟨hc.trans (hl.trans hr).symm, (h.unreplied hc).trans hslot.symm, ?_⟩
      exact ⟨fun _ => ⟨bs, e, rfl, hd, he⟩, fun _ => ⟨bs, e, rfl, hd, h.undecoded bs e rfl hb hd⟩⟩

/-- A reply without bytes is one to a local call, and none to a remote call. -/
theorem Answered.not_concurs (h : call.Answered codec error (some []) c)
    (dest : PeerId) (context : Context) : ¬ call.Concurs codec (some []) c
      (World.settleLocal (call.sent dest context) codec error (some [])) := by
  rintro ⟨hreplied, -, hmis⟩
  cases hd : codec.decode call.replyType [] with
  | ok v =>
    obtain ⟨hl, -⟩ := settleLocal_of_ok (call.sent dest context) error hd
    obtain ⟨bs, _, hs, hb, -⟩ := h.replied_iff.mp (hreplied.trans hl)
    cases hs
    exact hb rfl
  | error e =>
    obtain ⟨-, -, hl⟩ := settleLocal_of_error (call.sent dest context) error hd
    obtain ⟨_, e', -, -, he⟩ := hmis.mpr ⟨[], e, rfl, hd, hl⟩
    have herr := h.otherwise fun bs e hs hb _ => by
      cases hs
      exact hb rfl
    exact reported_ne_decode error e' (herr.symm.trans he)

end Call

/-! ## A call to oneself -/

/-- A server that answers all callers alike, in every context. -/
def Server.Impartial (server : Server) : Prop :=
  ∀ i j, i.service = j.service → i.args = j.args → (server i).result? = (server j).result?

/-- What a client asks its own server. -/
def Client.invocation (client : Client) (call : Call) (args : Bytes) : Invocation :=
  { context := call.context, peer := client.id, service := call.service, args }

namespace Scene

inductive Home
  | entering
  | serving (v : Serving)
  | ended (c : Call) (delivered : Bool)

namespace Home

def delivered? : Home → Option Call
  | ended c true => some c
  | _ => none

def task (s : Scene) (call : Call) : Home → Task
  | entering => .call s.channel (.entering call s.client.codec s.client.id s.client.server)
  | serving v => .call s.channel (.serving call s.client.codec v)
  | ended c delivered => s.handing c delivered

/-- What the call has come to so far, if the server returns this. -/
def Well (call : Call) (codec : Codec) (error : Option CallError) (reply : Option Bytes) :
    Home → Prop
  | entering => True
  | serving v => v.context = call.context ∧ v.work.result? = some (error, reply)
  | ended c _ => c = World.settleLocal call codec error reply

/-- How many steps there can still be, if the server works so. -/
def left (work : Work) : Home → Nat
  | entering => 2 * work.pauses + 4
  | serving v => v.waits + 2
  | ended _ delivered => if delivered then 0 else 1

end Home

/-- The world in which a local call stands so. -/
def home (s : Scene) (call : Call) (m : Moment) (notes : List Note) (st : Home) : World :=
  { s.base with
    moment := m
    channels := s.base.channels ++ [World.handedOn st.delivered?]
    tasks := [.accept s.inbox (.serve s.site s.client.codec s.client.protocol), st.task s call]
    notes }

/-- The client of a scene has a server of its own, which returns this for the call. -/
structure Served (s : Scene) (call : Call) (site : Site) (args : Bytes)
    (error : Option CallError) (reply : Option Bytes) : Prop where
  route : s.client.route call.dest = .ok .onSelf
  server : s.client.server = some site
  encoded : call.encodeArgs s.client.codec = .ok args
  returns : (site.server (s.client.invocation call args)).result? = some (error, reply)

variable {s : Scene} {call : Call} {site : Site} {args : Bytes} {error : Option CallError}
  {reply : Option Bytes} {m : Moment} {st : Home} {notes : List Note} {w : World}

private theorem step_entering (h : s.Served call site args error reply) (m : Moment)
    (notes : List Note) : ∃ notes', (s.home call m notes .entering).step? 1 =
      some (s.home call m notes'
        (.serving (.ofInvocation site.server (s.client.invocation call args)))) := by
  have htask : (s.home call m notes .entering).tasks[1]? =
    some (.call s.channel (.entering call s.client.codec s.client.id s.client.server)) := rfl
  rw [World.step?, htask]
  simp only [World.stepCall?, World.stepEntering, h.server, h.encoded]
  exact ⟨_, rfl⟩

private theorem step_serving (v : Serving) : (s.home call m notes (.serving v)).step? 1 =
    match v.step? m with
    | none => none
    | some (.more v) => some (s.home call m notes (.serving v))
    | some (.done .crashed) => some { s.home call m notes (.serving v) with
        channels := (s.home call m notes (.serving v)).channels.modify s.channel Channel.dropSender
        tasks := (s.home call m notes (.serving v)).tasks.set 1 .ended }
    | some (.done (.returned error reply)) => some (s.home call m notes
        (.ended (World.settleLocal call s.client.codec error reply) false)) := by
  have htask : (s.home call m notes (.serving v)).tasks[1]? =
    some (.call s.channel (.serving call s.client.codec v)) := rfl
  have hm : (s.home call m notes (.serving v)).moment = m := rfl
  rw [World.step?, htask]
  simp only [World.stepCall?, hm]
  cases v.step? m with
  | none => rfl
  | some p =>
    cases p with
    | more v' => rfl
    | done outcome => cases outcome <;> rfl

private theorem step_ended (c : Call) : (s.home call m notes (.ended c false)).step? 1 =
    some (s.home call m notes (.ended c true)) := by
  have hch : (s.home call m notes (.ended c false)).channels[s.channel]? =
      some (World.handedOn none) := by
    simp [home, channel, Home.delivered?]
  rw [World.step?_delivering (c := c) rfl hch]
  simp [home, channel, Home.delivered?, Home.task, handing]

/-- Nobody else does anything, and the call goes its way. -/
theorem Served.step? (h : s.Served call site args error reply) (hs : s.Ready)
    (hw : st.Well call s.client.codec error reply) (hu : call.context.verdict m = none)
    (hstep : (s.home call m notes st).step? i = some w) :
    ∃ notes' st', w = s.home call m notes' st' ∧ st'.Well call s.client.codec error reply ∧
      st'.left (site.server (s.client.invocation call args)) <
        st.left (site.server (s.client.invocation call args)) := by
  match i with
  | 0 =>
    have htask : (s.home call m notes st).tasks[0]? =
      some (.accept s.inbox (.serve s.site s.client.codec s.client.protocol)) := rfl
    have hn : (s.home call m notes st).network = s.base.network := rfl
    rw [World.step?, htask] at hstep
    simp only [hn, hs.receive_base] at hstep
    cases hstep
  | 1 =>
    cases st with
    | entering =>
      obtain ⟨notes', hn⟩ := step_entering h m notes
      cases hn.symm.trans hstep
      refine ⟨notes', _, rfl, ⟨rfl, h.returns⟩, ?_⟩
      simp [Home.left, Serving.waits, Serving.ofInvocation]
    | serving v =>
      obtain ⟨hctx, hres⟩ := hw
      rw [step_serving] at hstep
      cases hv : v.step? m with
      | none =>
        rw [hv] at hstep
        cases hstep
      | some p =>
        rw [hv] at hstep
        cases p with
        | more v' =>
          cases hstep
          refine ⟨notes, .serving v', rfl, ⟨?_, ?_⟩, ?_⟩
          · exact (Serving.more_of_step? hv).1.trans hctx
          · exact (Serving.result?_of_more hv).trans hres
          · exact Nat.add_lt_add_right (Serving.waits_of_more hv) 2
        | done outcome =>
          cases outcome with
          | crashed =>
            rw [Serving.crashed_of_step? hv] at hres
            cases hres
          | returned error' reply' =>
            cases hstep
            refine ⟨notes, _, rfl, ?_, ?_⟩
            · rcases Serving.returned_of_step? hv with hf | ⟨ms, next, e, -, he, -⟩
              · rw [hf] at hres
                cases hres
                rfl
              · rw [hctx, hu] at he
                cases he
            · exact Nat.lt_add_left _ Nat.one_lt_two
    | ended c delivered =>
      cases delivered with
      | true => cases hstep
      | false =>
        cases (step_ended c).symm.trans hstep
        exact ⟨notes, _, rfl, hw, Nat.zero_lt_one⟩
  | i + 2 =>
    have htask : (s.home call m notes st).tasks[i + 2]? = none := rfl
    rw [World.step?, htask] at hstep
    cases hstep

/-- A local call does not come to rest before it is handed back. -/
theorem Served.delivered_of_atRest (h : s.Served call site args error reply)
    (hw : st.Well call s.client.codec error reply) (hrest : (s.home call m notes st).AtRest) :
    ∃ c, st.delivered? = some c := by
  have hnone {now} (hnow : m.now ≤ now) : (s.home call { m with now } notes st).step? 1 = none :=
    hrest now 1 hnow
  cases st with
  | entering =>
    obtain ⟨notes', hn⟩ := step_entering h m notes
    cases hn.symm.trans (hnone (Nat.le_refl _))
  | serving v =>
    have hwait now (hnow : m.now ≤ now) : ∃ t, v.wake = some t ∧ now < t := by
      have hv := hnone hnow
      rw [step_serving] at hv
      have hstep : v.step? { m with now } = none := by
        cases hp : v.step? { m with now } with
        | none => rfl
        | some p =>
          rw [hp] at hv
          cases p with
          | more v' => cases hv
          | done outcome => cases outcome <;> cases hv
      rcases Serving.step?_eq_none hstep with hnever | hwait
      · rw [Home.Well, hnever] at hw
        cases hw.2
      · exact hwait
    exact (v.not_waiting_always hwait).elim
  | ended c delivered =>
    cases delivered with
    | true => exact ⟨c, rfl⟩
    | false => cases (step_ended c).symm.trans (hnone (Nat.le_refl _))

/-- Starting the call puts its task beside the one that accepts. -/
theorem Served.go (h : s.Served call site args error reply) (hs : s.Ready) :
    s.base.go s.client call =
      .ok (s.channel, s.home call s.base.moment s.base.notes .entering) := by
  have htask : World.taskOf s.client call =
      .ok (.entering call s.client.codec s.client.id s.client.server) := by
    rw [World.taskOf, h.route]
  rw [World.go_eq htask, hs.tasks]
  rfl

/-- A local call whose context is not done goes well, and there is an end to its steps. -/
theorem Served.well_of_run? (h : s.Served call site args error reply) (hs : s.Ready)
    (hrun : World.run? moves (s.home call s.base.moment s.base.notes .entering) = some w)
    (hv : call.context.verdict w.moment = none) :
    ∃ notes st, w = s.home call w.moment notes st ∧ st.Well call s.client.codec error reply ∧
      moves.countP World.Move.isStep + st.left (site.server (s.client.invocation call args)) ≤
        2 * (site.server (s.client.invocation call args)).pauses + 4 := by
  generalize hwork : site.server (s.client.invocation call args) = work
  let P (n : Nat) (w : World) : Prop := call.context.verdict w.moment = none → ∃ notes st,
    w = s.home call w.moment notes st ∧ st.Well call s.client.codec error reply ∧
      n + st.left work ≤ 2 * work.pauses + 4
  refine World.run?_induct (P := P) ?_ ?_ ?_ ?_ hrun hv
  · intro n w i w' hP hstep hu
    have hu' := Context.verdict_of_before (World.before_of_step? hstep) hu
    obtain ⟨notes, st, hw, hwell, hle⟩ := hP hu'
    rw [hw] at hstep
    obtain ⟨notes', st', rfl, hwell', hlt⟩ := h.step? hs hwell hu' hstep
    rw [hwork] at hlt
    exact ⟨notes', st', rfl, hwell', by omega⟩
  · intro n w now hP hle hu
    have hb : w.moment.Before { w.moment with now } := ⟨hle, fun _ h => h⟩
    obtain ⟨notes, st, hw, hrest⟩ := hP (Context.verdict_of_before hb hu)
    exact ⟨notes, st, by rw [hw]; rfl, hrest⟩
  · intro n w t hP _ hu
    have hb : w.moment.Before (w.moment.fire t) :=
      ⟨Nat.le_refl _, fun _ => List.mem_cons_of_mem t⟩
    obtain ⟨notes, st, hw, hrest⟩ := hP (Context.verdict_of_before hb hu)
    exact ⟨notes, st, by rw [hw]; rfl, hrest⟩
  · exact fun _ => ⟨s.base.notes, .entering, rfl, trivial, Nat.le_of_eq (Nat.zero_add _)⟩

/-- A call for nothing but an answer, to a server that the client has as well. -/
def lantern (reply : Option Bytes) : Scene :=
  { moon none reply with
    client := {
      host := some ⟨⟨"alice"⟩, .network⟩
      server := some ⟨8, fun _ => .finish none reply⟩ }
    call := { Receiving.question with replyType := .unit, reply := () } }

theorem lantern_ready (reply : Option Bytes) : (lantern reply).Ready := ⟨rfl, rfl, rfl, rfl, rfl⟩

/-- The same server, asked by its own client and over the network, and not given up by either: both
calls come to the same reply, unless the reply is one without bytes. Then they never do. Neither run
comes to rest before its call is handed back. -/
theorem concurs_of_run? (s : Scene) (hs : s.Ready) (hc : s.Understood)
    (h : s.Fits args error reply) (hi : s.site.server.Impartial)
    (hserver : s.client.server = some ⟨number, s.site.server⟩)
    (hself : s.client.isSelf dest = true)
    (hgo : s.base.go s.client s.call = .ok (done, w₁)) (hrun : World.run? moves w₁ = some w)
    (hsteady : s.Steady moves w)
    (hgo' : s.base.go s.client (s.call.sent dest context) = .ok (done', w₁'))
    (hrun' : World.run? moves' w₁' = some w') (hv' : context.verdict w'.moment = none) :
    (∀ c ∈ w.delivered done, ∀ c' ∈ w'.delivered done',
      (s.call.Concurs s.client.codec reply c c' ↔ reply ≠ some [])) ∧
    (w.AtRest → ∃ c, w.delivered done = [c]) ∧ (w'.AtRest → ∃ c', w'.delivered done' = [c']) := by
  have hserved : s.Served (s.call.sent dest context) ⟨number, s.site.server⟩ args error reply := {
    route := by simp only [Client.route, Call.sent, hself, if_true]
    server := hserver
    encoded := h.argsFit.1
    returns := (hi (s.client.invocation (s.call.sent dest context) args)
      (s.invocation args) rfl rfl).trans h.returns }
  cases hs.go.symm.trans hgo
  cases (hserved.go hs).symm.trans hgo'
  have hT := h.kept hc
  obtain ⟨st, hw, hcoh, hwell, -⟩ := h.well_of_run? hc hs hrun hsteady
  obtain ⟨notes, st', hw', hwell', -⟩ := hserved.well_of_run? hs hrun' hv'
  have hd : w.delivered s.channel = st.delivered?.toList := by rw [hw, delivered_world]
  have hd' : w'.delivered s.channel = st'.delivered?.toList := by
    rw [hw']
    exact World.delivered_handedOn s.base.channels rfl rfl
  refine ⟨fun c hcd c' hcd' => ?_, fun hrest => ?_, fun hrest => ?_⟩
  · rw [hd, Option.mem_toList] at hcd
    rw [hd', Option.mem_toList] at hcd'
    have hanswered := (hwell.answered hT hc.response hsteady.fresh hcd).2
    have hc' : c' = World.settleLocal (s.call.sent dest context) s.client.codec error reply := by
      cases st' with
      | entering => cases hcd'
      | serving v => cases hcd'
      | ended c'' delivered =>
        cases delivered with
        | false => cases hcd'
        | true =>
          cases hcd'
          exact hwell'
    subst hc'
    constructor
    · rintro hconcurs rfl
      exact hanswered.not_concurs dest context hconcurs
    · exact hanswered.concurs hsteady.fresh.2 dest context
  · rw [hw] at hrest
    obtain ⟨c, hc⟩ := delivered_of_atRest hT hs hcoh hwell hrest
    exact ⟨c, by rw [hd, hc]; rfl⟩
  · rw [hw'] at hrest
    obtain ⟨c', hc'⟩ := hserved.delivered_of_atRest hwell' hrest
    exact ⟨c', by rw [hd', hc']; rfl⟩

theorem concurs_nonempty_reply : ∃ w₁ w₁' w w' c c',
    (lantern (some [1])).base.go (lantern (some [1])).client (lantern (some [1])).call =
      .ok (0, w₁) ∧
      (lantern (some [1])).base.go (lantern (some [1])).client
        ((lantern (some [1])).call.sent .here ⟨.root 0, none⟩) = .ok (0, w₁') ∧
      World.run? moonrise w₁ = some w ∧ World.run? ([1, 1, 1].map .step) w₁' = some w' ∧
      c ∈ w.delivered 0 ∧ c' ∈ w'.delivered 0 ∧
      (lantern (some [1])).call.Concurs .standard (some [1]) c c' := by
  have hfits : (lantern (some [1])).Fits [] none (some [1]) :=
    ⟨⟨_, rfl, by decide⟩, ⟨rfl, by decide⟩, ⟨_, rfl, by decide⟩, by decide, rfl⟩
  have hu : (lantern (some [1])).Understood :=
    ⟨Codec.standard_undoes_serviceId, Codec.standard_undoes_response⟩
  have hgo := (lantern_ready (some [1])).go
  obtain ⟨w, c, hrun, hd, hm⟩ : ∃ w c, World.run? moonrise
      ((lantern (some [1])).world (lantern (some [1])).base.moment .dialing) = some w ∧
        w.delivered 0 = [c] ∧ w.moment = {} := ⟨_, _, rfl, rfl, rfl⟩
  obtain ⟨w₁', w', c', hgo', hrun', hd', hm'⟩ : ∃ w₁' w' c',
      (lantern (some [1])).base.go (lantern (some [1])).client
        ((lantern (some [1])).call.sent .here ⟨.root 0, none⟩) = .ok (0, w₁') ∧
        World.run? ([1, 1, 1].map .step) w₁' = some w' ∧ w'.delivered 0 = [c'] ∧
        w'.moment = {} := ⟨_, _, _, rfl, rfl, rfl, rfl⟩
  have hcd : c ∈ w.delivered 0 := hd ▸ .head _
  have hcd' : c' ∈ w'.delivered 0 := hd' ▸ .head _
  have hsteady : (lantern (some [1])).Steady moonrise w :=
    ⟨⟨rfl, rfl⟩, fun _ ht => absurd ht List.not_mem_nil,
      fun t ht => by simp [moonrise] at ht, by rw [hm]; rfl⟩
  have h := concurs_of_run? (lantern (some [1])) (lantern_ready _) hu hfits (fun _ _ _ _ => rfl)
    rfl rfl hgo hrun hsteady hgo' hrun' (by rw [hm']; rfl)
  exact ⟨_, w₁', w, w', c, c', hgo, hgo', hrun, hrun', hcd, hcd',
    (h.1 c hcd c' hcd').mpr (by decide)⟩

/-- The reply without bytes is told apart. -/
theorem not_concurs_empty_reply : ∃ w₁ w₁' w w' c c',
    (lantern (some [])).base.go (lantern (some [])).client (lantern (some [])).call = .ok (0, w₁) ∧
      (lantern (some [])).base.go (lantern (some [])).client
        ((lantern (some [])).call.sent .here ⟨.root 0, none⟩) = .ok (0, w₁') ∧
      World.run? moonrise w₁ = some w ∧ World.run? ([1, 1, 1].map .step) w₁' = some w' ∧
      w.delivered 0 = [c] ∧ w'.delivered 0 = [c'] ∧ c.replied = false ∧ c'.replied = true :=
  ⟨_, _, _, _, _, _, (lantern_ready _).go, rfl, rfl, rfl, rfl, rfl, rfl, rfl⟩

end Scene

end PeerCall
