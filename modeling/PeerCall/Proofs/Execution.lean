import PeerCall.Proofs.World.OwnCalls
import PeerCall.Proofs.World.FarEnd

/-! # Execution at most once

A remote call among any other tasks, to a peer that serves. The bytes that the far end has taken,
those under way and those that the call has not sent are together the request, and the last of them
goes out in the step with which sending succeeds. So the server is invoked once at most, for the
whole request, and not at all if the request was not sent. Main statement:
`World.executed_of_run?`. -/

namespace PeerCall

open World

/-- Whether a call has its request still to send. -/
def CallTask.isSending : CallTask → Bool
  | .dialing .. => true
  | .connecting _ => true
  | .greeting .. => true
  | .exchanging _ x => x.phase.stage = 0
  | _ => false

/-! ## Both ends -/

namespace Errand

/-- How the task of a call stands that has opened a stream. -/
def Engaged (e : Errand) (w : World) (k channel link : Nat) (ds : List Deed) :
    Progress Exchange Call → Prop
  | .more x => w.tasks[k]? = some (.call channel (.exchanging link x)) ∧ callsOf k ds = [] ∧
      x.call.context = e.call.context
  | .done c => w.Handing k channel c ds

/-- How an errand stands whose call has opened a stream. If it is barred, the rest of its request
is not sent any more. -/
structure Linked (e : Errand) (k channel link : Nat) (barred : Prop) (ds : List Deed) (w : World)
    (p : Progress Exchange Call) (l : Link) (todo : Bytes) : Prop where
  task : e.Engaged w k channel link ds p
  there : w.links[link]? = some l
  sole : w.Sole k link
  opened : linksOf k ds = [link]
  sends : Exchange.Sends e.codec e.call p todo
  far : e.FarEnd w link (l.flow .left ++ todo) (invokedAt link ds)
  quiet : invokedAt link ds = [] → Exchange.Quiet p l
  unsent : barred → Exchange.Unsent e.codec e.call todo

/-- How an errand stands after these deeds. -/
inductive Stand (e : Errand) (k channel : Nat) (barred : Prop) (ds : List Deed) (w : World) : Prop
  | dialing {host protocol}
    (ht : w.tasks[k]? = some (.call channel (.dialing e.call e.codec host protocol)))
    (hd : host.id = e.dialer) (hr : host.reach = e.reach) (ho : linksOf k ds = [])
    (hn : callsOf k ds = []) (hi : ∀ link, w.links.length ≤ link → invokedAt link ds = [])
  | refused {c} (h : w.Handing k channel c ds) (ho : linksOf k ds = []) (hr : ¬ c.Responded)
  | engaged {link p l todo} (h : e.Linked k channel link barred ds w p l todo)

variable {e : Errand} {w w' : World} {i k channel link : Nat} {ds : List Deed} {barred : Prop}
  {p : Progress Exchange Call} {l : Link} {todo : Bytes}

/-! ## Steps -/

theorem Engaged.spared (h : e.Engaged w k channel link ds p) (hs : w.step? i = some w')
    (hleft : ¬ w.Holds i link .left) :
    e.Engaged w' k channel link (ds ++ w.deeds w' i) p ∧ linksOf k (w.deeds w' i) = [] := by
  cases p with
  | done c => exact Handing.step h hs
  | more x =>
    obtain ⟨ht, hn, hc⟩ := h
    have hi : i ≠ k := by
      rintro rfl
      exact hleft ⟨_, ht, rfl⟩
    obtain ⟨ht', hlinks, hcalls⟩ := (steps_of_step? hs).spares hi ht
    exact ⟨⟨ht', by simp [hn, hcalls], hc⟩, hlinks⟩

/-- Whoever does not hold the near end leaves it to the call what is sent. -/
theorem Linked.spared (h : e.Linked k channel link barred ds w p l todo) (hserved : e.Served w)
    (hs : w.step? i = some w') (hleft : ¬ w.Holds i link .left) :
    e.Stand k channel barred (ds ++ w.deeds w' i) w' := by
  have hsteps := steps_of_step? hs
  obtain ⟨htask, hlinks⟩ := h.task.spared hs hleft
  obtain ⟨l', hl', hfar, hflow⟩ := h.far.step hserved h.there hsteps hleft
  rw [← invokedAt_append] at hfar hflow
  have hsole := hsteps.sole h.sole (List.getElem?_eq_some_iff.mp h.there).1
  refine .engaged ⟨htask, hl', hsole, ?_, h.sends, hfar, fun hn => ?_, h.unsent⟩
  · rw [linksOf_append, h.opened, hlinks]
    rfl
  · obtain ⟨hq, hp⟩ := h.quiet (List.append_eq_nil_iff.mp (invokedAt_append .. ▸ hn)).1
    exact ⟨(hflow hn).trans hq, hp⟩

/-- The call itself sends a front of what is left, and none of it if it is barred. -/
theorem Linked.sent {x : Exchange} (h : e.Linked k channel link barred ds w (.more x) l todo)
    (hbarred : barred → e.call.context.verdict w.moment ≠ none) (hs : w.Steps k w') :
    e.Stand k channel barred (ds ++ w.deeds w' k) w' := by
  obtain ⟨ht, hn, hc⟩ := h.task
  have hlt : link < w.links.length := (List.getElem?_eq_some_iff.mp h.there).1
  have hcalls := callsOf_of_open ht (fun _ h => by cases h) w'
  have hright : ¬ w.Holds k link .right := by
    rintro ⟨t, ht', he⟩
    cases ht.symm.trans ht'
    cases he
  have hrec (inbox : Nat) (a : Arrival) (ha : w.Receives k inbox a) : a.link ≠ link := by
    obtain ⟨⟨intake, ht'⟩, -⟩ := ha
    cases ht.symm.trans ht'
  have hfar := h.far.spared hs hlt hright hrec
  obtain ⟨p, l', hp, ht', hl', -⟩ := hs.of_exchanging ht h.there
  have hm := Exchange.moves_of_step? h.sends.sound hp
  obtain ⟨piece, todo', rfl, hflow, hsends, hstop⟩ := h.sends.step hm
  rw [← List.append_assoc, ← hflow] at hfar
  have htask : e.Engaged w' k channel link (ds ++ w.deeds w' k) p := by
    cases p with
    | more x' => exact ⟨ht', by simp [hn, hcalls], hm.context_of_more.trans hc⟩
    | done c => exact .waiting ht' (by simp [hn, hcalls])
  refine .engaged ⟨htask, hl', hs.sole h.sole hlt, ?_, hsends, ?_, fun hq => ?_, fun hb => ?_⟩
  · rw [linksOf_append, h.opened, linksOf_of_exchanging ht]
    rfl
  · rw [invokedAt_append, invokedAt_of_not_holds hright, List.append_nil]
    exact hfar
  · exact (h.quiet (List.append_eq_nil_iff.mp (invokedAt_append .. ▸ hq)).1).step hm
  · rw [hstop (hc ▸ hbarred hb)]
    exact h.unsent hb

/-- A call that is about to dial opens its stream, or ends without one. -/
theorem Stand.dial {host : Host} {protocol : ProtocolId}
    (ht : w.tasks[k]? = some (.call channel (.dialing e.call e.codec host protocol)))
    (hd : host.id = e.dialer) (hr : host.reach = .network) (ho : linksOf k ds = [])
    (hn : callsOf k ds = []) (hi : ∀ link, w.links.length ≤ link → invokedAt link ds = [])
    (hw : w.InOrder)
    (hfresh : e.call.error = none) (hbarred : barred → e.call.context.verdict w.moment ≠ none)
    (hs : w.Steps k w') : e.Stand k channel barred (ds ++ w.deeds w' k) w' := by
  have hcalls := callsOf_of_open ht (fun _ h => by cases h) w'
  have hnew : invokedAt w.links.length (ds ++ w.deeds w' k) = [] := by
    rw [invokedAt_append, hi _ (Nat.le_refl _), hw.invokedAt (Nat.le_refl _)]
    rfl
  cases hs.opens ht rfl with
  | failed ht' he =>
    refine .refused (.waiting ht' (by simp [hn, hcalls])) ?_ ?_
    · rw [linksOf_append, ho, linksOf_of_unopened ht' rfl]
      rfl
    · rcases he with ⟨_, rfl, -⟩ | hv
      · exact Call.not_responded_fail nofun
      · exact Call.not_responded_of_verdict hv
  | connecting hr' => cases hr.symm.trans hr'
  | dialed _ hv hdial ht' hl' hlen =>
    have hthere : w'.links[w.links.length]? = some (.ofCapacity linkCapacity) := by
      rw [hl']
      exact List.getElem?_concat_length ..
    obtain ⟨inbox, hinbox, hawaits⟩ := Network.awaits_dial hdial (hw.arrivals (Nat.le_refl _))
    have hfar : e.FarEnd w' w.links.length ((Link.ofCapacity linkCapacity).flow .left ++ e.request)
        (invokedAt w.links.length (ds ++ w.deeds w' k)) := by
      rw [hnew, Link.flow_ofCapacity]
      exact .waiting ((hs.inbox? _).trans hinbox) hawaits rfl hd (hs.unheld_opened hw hlen) rfl
    have htask : e.Engaged w' k channel w.links.length (ds ++ w.deeds w' k)
        (.more (.ofCall e.codec e.call)) := ⟨ht', by simp [hn, hcalls], rfl⟩
    refine .engaged ⟨htask, hthere, hs.sole_opened hw, ?_, Exchange.sends_ofCall _ hfresh, hfar,
      fun _ => Exchange.quiet_ofCall .., fun hb => ?_⟩
    · rw [linksOf_append, ho, linksOf_of_opened ht rfl ht']
      rfl
    · exact absurd hv (hbarred hb)

theorem Stand.step (h : e.Stand k channel barred ds w) (hw : w.InOrder) (hserved : e.Served w)
    (hfresh : e.call.error = none) (hbarred : barred → e.call.context.verdict w.moment ≠ none)
    (hs : w.step? i = some w') : e.Stand k channel barred (ds ++ w.deeds w' i) w' := by
  have hsteps := steps_of_step? hs
  cases h with
  | refused h ho hr =>
    obtain ⟨h', hlinks⟩ := h.step hs
    exact .refused h' (by simp [ho, hlinks]) hr
  | dialing ht hd hr ho hn hi =>
    by_cases hk : i = k
    · subst hk
      exact .dial ht hd (hr.trans hserved.onNetwork) ho hn hi hw hfresh hbarred hsteps
    · obtain ⟨ht', hlinks, hcalls⟩ := hsteps.spares hk ht
      refine .dialing ht' hd hr (by simp [ho, hlinks]) (by simp [hn, hcalls]) fun link hlink => ?_
      have hlink := Nat.le_trans hsteps.length_links hlink
      rw [invokedAt_append, hi link hlink, hw.invokedAt hlink]
      rfl
  | @engaged link p l todo h =>
    by_cases hleft : w.Holds i link .left
    · obtain rfl := h.sole i hleft
      cases p with
      | more x => exact h.sent hbarred hsteps
      | done c =>
        obtain ⟨t, ht, he⟩ := hleft
        cases h.task with
        | waiting ht' | handed ht' =>
          cases ht.symm.trans ht'
          cases he
    · exact h.spared hserved hs hleft

theorem Stand.later (h : e.Stand k channel barred ds w) (m : Moment) :
    e.Stand k channel barred ds { w with moment := m } := by
  cases h with
  | dialing ht hd hr ho hn hi => exact .dialing ht hd hr ho hn hi
  | refused h ho hr => exact .refused (h.later m) ho hr
  | @engaged link p l todo h =>
    refine .engaged { h with task := ?_, far := h.far.later m }
    cases p with
    | more x => exact h.task
    | done c => exact Handing.later h.task m

/-! ## Runs -/

/-- All that a run keeps of an errand. -/
structure Kept (e : Errand) (k channel : Nat) (barred : Prop) (ds : List Deed) (w : World) :
    Prop where
  inOrder : w.InOrder
  served : e.Served w
  stand : e.Stand k channel barred ds w
  expired : barred → e.call.context.verdict w.moment ≠ none

theorem Kept.step (h : e.Kept k channel barred ds w) (hfresh : e.call.error = none)
    (hs : w.step? i = some w') : e.Kept k channel barred (ds ++ w.deeds w' i) w' where
  inOrder := (steps_of_step? hs).inOrder h.inOrder
  served := h.served.step (steps_of_step? hs)
  stand := h.stand.step h.inOrder h.served hfresh h.expired hs
  expired hb hn := h.expired hb (Context.verdict_of_before (before_of_step? hs) hn)

theorem Kept.later (h : e.Kept k channel barred ds w) (hm : w.moment.Before m) :
    e.Kept k channel barred ds { w with moment := m } where
  inOrder := h.inOrder.later m
  served := ⟨h.served.onNetwork, h.served.accepted⟩
  stand := h.stand.later m
  expired hb hn := h.expired hb (Context.verdict_of_before hm hn)

theorem Kept.of_run? (h : e.Kept k channel barred ds w) (hfresh : e.call.error = none)
    (hrun : run? moves w = some w') : e.Kept k channel barred (ds ++ ledger moves w) w' := by
  refine ledger_induct (P := fun ds' w => e.Kept k channel barred (ds ++ ds') w) ?_ ?_ ?_ hrun
  · intro ds' w i w' _ hP hs
    exact List.append_assoc .. ▸ hP.step hfresh hs
  · intro ds' w m hP hm
    exact hP.later hm
  · exact (List.append_nil ds).symm ▸ h

/-! ## What was done for a call -/

theorem Stand.opened (h : e.Stand k channel barred ds w) : (linksOf k ds).length ≤ 1 := by
  cases h with
  | dialing _ _ _ ho | refused _ ho => rw [ho]; exact Nat.zero_le _
  | engaged h => rw [h.opened]; exact Nat.le_refl _

theorem Linked.invokedFor_eq (h : e.Linked k channel link barred ds w p l todo)
    (hown : invokedBy k ds = []) : invokedFor k ds = invokedAt link ds := by
  rw [invokedFor, hown, h.opened, List.nil_append, List.flatMap_singleton]

/-- The server is invoked once at most, for what the call asks for. -/
theorem Stand.noted (h : e.Stand k channel barred ds w) (hown : invokedBy k ds = []) :
    invokedFor k ds = [] ∨ ∃ n, invokedFor k ds = [n] ∧ e.Noted n := by
  cases h with
  | dialing _ _ _ ho | refused _ ho => exact .inl ((invokedFor_of_unopened ho).trans hown)
  | engaged h =>
    rw [h.invokedFor_eq hown]
    exact h.far.noted

/-- As long as something is missing of a request, nobody is invoked. -/
theorem Linked.uninvoked (h : e.Linked k channel link barred ds w p l todo)
    (hown : invokedBy k ds = []) (hu : Exchange.Unsent e.codec e.call todo) :
    invokedFor k ds = [] := by
  rw [h.invokedFor_eq hown]
  rcases h.far.noted with hn | ⟨n, hn, -⟩
  · exact hn
  · obtain ⟨hf, hahead⟩ := h.far.whole (hn ▸ List.cons_ne_nil n [])
    exact absurd (List.append_eq_nil_iff.mp hahead).2 (hu hf)

theorem Stand.uninvoked (h : e.Stand k channel barred ds w) (hown : invokedBy k ds = [])
    (hb : barred) : invokedFor k ds = [] := by
  cases h with
  | dialing _ _ _ ho | refused _ ho => exact (invokedFor_of_unopened ho).trans hown
  | engaged h => exact h.uninvoked hown (h.unsent hb)

/-- Nobody was invoked for a call whose request could not be sent. -/
theorem Stand.uninvoked_of_failed {c : Call} (h : e.Stand k channel barred ds w)
    (hown : invokedBy k ds = []) (hc : c ∈ callsOf k ds) (hf : c.SendFailed) :
    invokedFor k ds = [] := by
  cases h with
  | dialing _ _ _ ho | refused _ ho => exact (invokedFor_of_unopened ho).trans hown
  | @engaged _ p _ _ h =>
    cases p with
    | more x =>
      rw [h.task.2.1] at hc
      cases hc
    | done c' =>
      obtain rfl := Handing.eq_of_mem h.task hc
      cases h.sends with
      | done he => exact h.uninvoked hown (he hf)

/-- Somebody was invoked for a call that had an answer. -/
theorem Stand.invoked_of_responded {c : Call} (h : e.Stand k channel barred ds w)
    (hown : invokedBy k ds = []) (hc : c ∈ callsOf k ds) (hr : c.Responded) :
    ∃ n, invokedFor k ds = [n] := by
  cases h with
  | dialing _ _ _ _ hn =>
    rw [hn] at hc
    cases hc
  | refused h _ hr' =>
    obtain rfl := h.eq_of_mem hc
    exact absurd hr hr'
  | @engaged _ p _ _ h =>
    cases p with
    | more x =>
      rw [h.task.2.1] at hc
      cases hc
    | done c' =>
      obtain rfl := Handing.eq_of_mem h.task hc
      rw [h.invokedFor_eq hown]
      rcases h.far.noted with hn | ⟨n, hn, -⟩
      · exact absurd hr (h.quiet hn).2
      · exact ⟨n, hn⟩

/-- A call that has its request still to send may be barred from sending more. -/
theorem Stand.bar (h : e.Stand k channel False ds w) {c : CallTask}
    (ht : w.tasks[k]? = some (.call channel' c)) (hc : c.isSending = true) :
    e.Stand k channel True ds w := by
  cases h with
  | dialing ht hd hr ho hn hi => exact .dialing ht hd hr ho hn hi
  | refused h ho hr => exact .refused h ho hr
  | @engaged _ p _ _ h =>
    cases p with
    | more x =>
      cases ht.symm.trans h.task.1
      have hstage : x.phase.stage = 0 := of_decide_eq_true hc
      exact .engaged { h with unsent := fun _ => h.sends.unsent hstage }
    | done c' =>
      cases h.task with
      | waiting ht' | handed ht' => cases ht.symm.trans ht' <;> cases hc

theorem Served.start {client : Client} {call : Call} {host : Host}
    (h : e.Served w) (hroute : client.route call.dest = .ok (.toPeer host))
    (hstart : w.start client call channel = .ok w') : e.Served w' := by
  rw [tasks_of_start hroute hstart]
  refine ⟨h.onNetwork, fun inbox i intake hi ht => ?_⟩
  rw [spawn, List.getElem?_append] at ht
  split at ht
  · exact h.accepted inbox i intake hi ht
  · cases List.mem_singleton.mp (List.mem_of_getElem? ht)

/-! ## What comes of an errand -/

/-- The errand of a call to a peer that has this server. -/
def ofCall (client : Client) (call : Call) (site : Site) (codec : Codec) (protocol : ProtocolId) :
    Errand where
  call := call
  codec := client.codec
  dialer := client.id
  reach := client.host.elim .network Host.reach
  site := site
  farCodec := codec
  protocol := protocol

/-- Neither was a server invoked for the call of a task, nor will one be. -/
def Uninvoked (w : World) (k : Nat) (ds : List Deed) : Prop :=
  ∀ moves w', run? moves w = some w' → invokedFor k (ds ++ ledger moves w) = []

/-- What was done for a call, in a run that did these deeds. -/
structure Executed (e : Errand) (k : Nat) (ds : List Deed) (w : World) : Prop where
  opened : (linksOf k ds).length ≤ 1
  once : (invokedFor k ds).length ≤ 1
  noted : ∀ n ∈ invokedFor k ds, e.Noted n
  failed : ∀ c ∈ callsOf k ds, c.SendFailed → Uninvoked w k ds
  cutShort : ∀ channel c, w.tasks[k]? = some (.call channel c) → c.isSending = true →
    e.call.context.verdict w.moment ≠ none → Uninvoked w k ds
  responded : ∀ c ∈ callsOf k ds, c.Responded → ∃ n, invokedFor k ds = [n]

theorem Kept.executed (h : e.Kept k channel False ds w) (hfresh : e.call.error = none)
    (hown : ∀ after w', run? after w = some w' → invokedBy k (ds ++ ledger after w) = []) :
    e.Executed k ds w := by
  have hnow : invokedBy k ds = [] := List.append_nil ds ▸ hown [] w rfl
  refine ⟨h.stand.opened, ?_, ?_, ?_, ?_, ?_⟩
  · rcases h.stand.noted hnow with hn | ⟨n, hn, -⟩ <;> simp [hn]
  · intro n hmem
    rcases h.stand.noted hnow with hn | ⟨n', hn, hnoted⟩
    · rw [hn] at hmem
      cases hmem
    · rw [hn] at hmem
      exact List.mem_singleton.mp hmem ▸ hnoted
  · intro c hc hf after w' hafter
    have hc' : c ∈ callsOf k (ds ++ ledger after w) :=
      callsOf_append .. ▸ List.mem_append_left _ hc
    exact (h.of_run? hfresh hafter).stand.uninvoked_of_failed (hown after w' hafter) hc' hf
  · intro channel' c ht hc hv after w' hafter
    have hbarred : e.Kept k channel True ds w :=
      ⟨h.inOrder, h.served, h.stand.bar ht hc, fun _ => hv⟩
    exact (hbarred.of_run? hfresh hafter).stand.uninvoked (hown after w' hafter) trivial
  · intro c hc hr
    exact h.stand.invoked_of_responded hnow hc hr

end Errand

namespace World

variable {w : World} {moves : List Move} {k channel : Nat} {call : Call}

/-- In every run a call to oneself opens no stream. A call to a peer that serves opens one stream at
most, and the server is invoked for it once at most, by the caller, and for just what the call asks
for. If the call is completed with an error of its link or of its request, or if it is given up
before its request is sent, the server was not invoked and never will be. If it is completed without
an error, or with one that was received, the server was invoked once. -/
theorem executed_of_run? {client : Client} {w₀ w₁ : World} (hw : w₀.InOrder)
    (hfresh : call.error = none) (hstart : w₀.start client call channel = .ok w₁)
    (hk : w₀.tasks.length = k) (hrun : run? moves w₁ = some w) :
    (client.isSelf call.dest = true → linksOf k (ledger moves w₁) = []) ∧
    (client.isSelf call.dest = false → ∀ site codec protocol,
      (Errand.ofCall client call site codec protocol).Served w₀ →
        (Errand.ofCall client call site codec protocol).Executed k (ledger moves w₁) w) := by
  subst hk
  refine ⟨fun hself => (own_of_run? hself hstart hrun).2, ?_⟩
  intro hself site codec protocol hserved
  obtain ⟨host, hroute, hhost⟩ := route_of_start hself hstart
  have hkept₁ : (Errand.ofCall client call site codec protocol).Kept w₀.tasks.length channel False
      [] w₁ := by
    refine ⟨hw.start hstart, ?_, ?_, False.elim⟩
    · exact hserved.start hroute hstart
    · rw [tasks_of_start hroute hstart]
      have hid : host.id = client.id := by rw [Client.id, hhost]
      have hreach : host.reach = client.host.elim .network Host.reach := by rw [hhost]; rfl
      exact .dialing (List.getElem?_concat_length ..) hid hreach rfl rfl fun _ _ => rfl
  refine (hkept₁.of_run? hfresh hrun).executed hfresh fun after w' hafter => ?_
  rw [List.nil_append, ← ledger_append hrun]
  exact (remote_of_run? hw hroute hstart ((run?_append hrun).trans hafter)).2.2

private theorem served_evening (server : Server) :
    (Errand.ofCall alice call ⟨7, server⟩ .standard .standard).Served (evening server) := by
  refine ⟨rfl, fun inbox i intake _ ht => ?_⟩
  match i with
  | 0 =>
    cases ht
    rfl
  | i + 1 => cases ht

/-- A question that is answered. -/
theorem executed_answered_question : ∃ w₁ w c n,
    (evening fun _ => .finish none (some [1])).start alice Receiving.question 0 = .ok w₁ ∧
      run? ([1, 1, 0, 2, 2, 2, 2, 1, 1, 1].map .step) w₁ = some w ∧
      callsOf 1 (ledger ([1, 1, 0, 2, 2, 2, 2, 1, 1, 1].map .step) w₁) = [c] ∧ c.error = none ∧
      invokedFor 1 (ledger ([1, 1, 0, 2, 2, 2, 2, 1, 1, 1].map .step) w₁) = [n] ∧
      n.owner = 7 := by
  obtain ⟨w₁, w, c, hstart, hrun, hc, he⟩ : ∃ w₁ w c,
      (evening fun _ => .finish none (some [1])).start alice Receiving.question 0 = .ok w₁ ∧
        run? ([1, 1, 0, 2, 2, 2, 2, 1, 1, 1].map .step) w₁ = some w ∧
        callsOf 1 (ledger ([1, 1, 0, 2, 2, 2, 2, 1, 1, 1].map .step) w₁) = [c] ∧
        c.error = none := ⟨_, _, _, rfl, rfl, rfl, rfl⟩
  have h := (executed_of_run? (inOrder_evening _) rfl hstart rfl hrun).2 rfl ⟨7, _⟩ .standard
    .standard (served_evening _)
  obtain ⟨n, hn⟩ := h.responded c (hc ▸ List.mem_cons_self) (.inl he)
  have hnoted := h.noted n (hn ▸ List.mem_cons_self)
  exact ⟨w₁, w, c, n, hstart, hrun, hc, he, hn, hnoted.owner⟩

end World

end PeerCall
