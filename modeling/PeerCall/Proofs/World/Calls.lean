import PeerCall.Proofs.Talk.Request
import PeerCall.Proofs.World.Ledger
import PeerCall.Proofs.World.Steps

/-! # One call in any world

What the task of a call does among any other tasks. The end of the link that it opens is its own
(`World.Remote`), so what others do to the link they do at the other end (`World.acted_of_run?`).
Once the call is done, all that is left is to hand it back (`World.Handing.step`). -/

namespace PeerCall

/-! ## A call under way -/

/-- A call as it was started, but for an error text that was received for it. -/
def Call.Underway (call c : Call) : Prop := c = call ∨ ∃ text, c = call.fail (.remote text)

theorem Call.Underway.context {call c : Call} (h : call.Underway c) : c.context = call.context := by
  rcases h with rfl | ⟨_, rfl⟩ <;> rfl

theorem Exchange.Moves.underway {x x' : Exchange} {call : Call} (h : x.Moves m l (.more x') l')
    (hc : call.Underway x.call) : call.Underway x'.call := by
  cases h with
  | sending | sent | header | reply => exact hc
  | @response _ _ response =>
    simp only [takeResponse]
    split
    · exact hc
    · rcases hc with hc | ⟨_, hc⟩ <;> rw [hc] <;> exact .inr ⟨_, rfl⟩

namespace World

variable {w w' : World} {moves : List Move} {k i channel link : Nat} {call c : Call} {l : Link}
  {ds : List Deed}

/-! ## Steps of a call -/

/-- A call without a link whose context is done ends with the next step. -/
theorem step?_of_verdict {c : CallTask} (ht : w.tasks[k]? = some (.call channel c))
    (ho : c.opening? = some call) (hv : call.context.verdict w.moment = some e) :
    w.step? k = some (w.setTask k (.call channel (.delivering (call.fail e)))) := by
  rw [step?, ht]
  cases c with
  | dialing =>
    cases ho
    simp only [stepCall?, stepDialing, hv]
  | connecting =>
    cases ho
    simp only [stepCall?, stepConnecting?, hv, Option.map_some]
  | _ => cases ho

theorem step?_connecting (ht : w.tasks[k]? = some (.call channel (.connecting a))) :
    w.step? k = (w.stepConnecting? a).map fun (c, w') => w'.setTask k (.call channel c) := by
  rw [step?, ht]
  simp only [stepCall?]
  cases w.stepConnecting? a <;> rfl

/-- An attempt waits until its context is done or it comes to something. -/
theorem stepConnecting?_eq_none_iff {a : Attempt} :
    w.stepConnecting? a = none ↔ a.call.context.verdict w.moment = none ∧
      a.outcome? w.moment (w.endpoints a.address a.since) = none := by
  unfold stepConnecting?
  cases a.call.context.verdict w.moment with
  | some e => simp
  | none =>
    cases a.outcome? w.moment (w.endpoints a.address a.since) with
    | none => simp
    | some o => cases o <;> simp

theorem step?_greeting (ht : w.tasks[k]? = some (.call channel (.greeting link g)))
    (hl : w.links[link]? = some l) :
    w.step? k = (g.step? w.moment l).map fun (p, l') =>
      (w.setLink link l').setTask k (.call channel (.ofGreeting link p)) := by
  rw [step?, ht]
  simp only [stepCall?, hl]
  cases g.step? w.moment l with
  | none => rfl
  | some res =>
    obtain ⟨p, l'⟩ := res
    rcases p with _ | (_ | _) <;> rfl

theorem step?_exchanging (ht : w.tasks[k]? = some (.call channel (.exchanging link x)))
    (hl : w.links[link]? = some l) :
    w.step? k = (x.step? w.moment l).map fun (p, l') =>
      (w.setLink link l').setTask k (.call channel (.ofExchange link p)) := by
  rw [step?, ht]
  simp only [stepCall?, hl]
  cases x.step? w.moment l with
  | none => rfl
  | some res =>
    obtain ⟨p, l'⟩ := res
    cases p <;> rfl

theorem step?_handing (ht : w.tasks[k]? = some (.call channel (.delivering c)))
    (hc : w.channels[channel]? = some ch) :
    w.step? k = (ch.send? k c).map fun (sent, ch') =>
      { w with channels := w.channels.set channel ch' }.setTask k
        (if sent then .ended else .call channel (.delivering c)) := by
  rw [step?, ht]
  simp only [stepCall?, hc]
  cases ch.send? k c with
  | none => rfl
  | some res =>
    obtain ⟨sent, ch'⟩ := res
    cases sent <;> rfl

/-- What a call that has no link yet comes to with a step. -/
inductive Opens (w : World) (k channel : Nat) (call : Call) (w' : World) : CallTask → Prop
  | failed {c e} (ht : w'.tasks[k]? = some (.call channel (.delivering (call.fail e))))
    (he : (∃ e', e = .connection call.dest e' ∧ w.Refuses c e') ∨
      call.context.verdict w.moment = some e) :
    Opens w k channel call w' c
  | dialed {codec host protocol} (hr : host.reach = .network)
    (hv : call.context.verdict w.moment = none)
    (hd : w.network.dial host.id call.dest protocol w.links.length = .ok w'.network)
    (ht : w'.tasks[k]? = some (.call channel (.exchanging w.links.length (.ofCall codec call))))
    (hl : w'.links = w.links ++ [.ofCapacity linkCapacity])
    (hn : w'.tasks.length = w.tasks.length) :
    Opens w k channel call w' (.dialing call codec host protocol)
  | connecting {codec host protocol book timeout address} {a : Attempt}
    (hr : host.reach = .dialing book timeout) (hb : book.get? call.dest = some address)
    (hv : call.context.verdict w.moment = none)
    (ha : a = ⟨call, codec, protocol, host.id, address, w.moment.now, timeout⟩)
    (ht : w'.tasks[k]? = some (.call channel (.connecting a))) :
    Opens w k channel call w' (.dialing call codec host protocol)
  | connected {a capacity owner actions}
    (ho : a.outcome? w.moment (w.endpoints a.address a.since) =
      some (.connected capacity owner actions))
    (ha : a.call = call) (hv : call.context.verdict w.moment = none)
    (ht : w'.tasks[k]? = some (.call channel (.greeting w.links.length (.ofAttempt a))))
    (hl : w'.links = w.links ++ [.ofCapacity capacity]) :
    Opens w k channel call w' (.connecting a)

theorem Steps.opens {c : CallTask} (h : Steps w k w') (ht : w.tasks[k]? = some (.call channel c))
    (ho : c.opening? = some call) : w.Opens k channel call w' c := by
  have hk : k < w.tasks.length := (List.getElem?_eq_some_iff.mp ht).1
  cases h with
  | stopped ht' ho' hv =>
    cases ht.symm.trans ht'
    cases ho.symm.trans ho'
    exact .failed (List.getElem?_set_self hk) (.inr hv)
  | refused ht' ho' _ hr =>
    cases ht.symm.trans ht'
    cases ho.symm.trans ho'
    exact .failed (List.getElem?_set_self hk) (.inl ⟨_, rfl, hr⟩)
  | dialed ht' hv hd hr =>
    cases ht.symm.trans ht'
    cases ho
    exact .dialed hr hv hd (List.getElem?_set_self hk) rfl (List.length_set ..)
  | connecting ht' hv hr hb ha =>
    cases ht.symm.trans ht'
    cases ho
    exact .connecting hr hb hv ha (List.getElem?_set_self hk)
  | connected ht' hv ho' =>
    cases ht.symm.trans ht'
    cases ho
    exact .connected ho' rfl hv (getElem?_setTask_connect hk) rfl
  | greeted ht' | exchanged ht' | unentered ht' | entered ht' | serving ht' | crashed ht'
  | returned ht' | sending ht' =>
    cases ht.symm.trans ht'
    cases ho
  | _ => cases ht.symm.trans ‹w.tasks[k]? = some _›

/-- A call that has a connection takes a step of its greeting. -/
theorem Steps.of_greeting (h : Steps w k w')
    (ht : w.tasks[k]? = some (.call channel (.greeting link g))) (hl : w.links[link]? = some l) :
    ∃ p l', g.step? w.moment l = some (p, l') ∧
      w'.tasks[k]? = some (.call channel (.ofGreeting link p)) ∧ w'.links[link]? = some l' ∧
      w'.links.length = w.links.length := by
  cases h with
  | greeted ht' hl' hg =>
    cases ht.symm.trans ht'
    cases hl.symm.trans hl'
    refine ⟨_, _, hg, List.getElem?_set_self (List.getElem?_eq_some_iff.mp ht).1,
      List.getElem?_set_self (List.getElem?_eq_some_iff.mp hl).1, List.length_set ..⟩
  | stopped ht' ho | refused ht' ho =>
    cases ht.symm.trans ht'
    cases ho
  | _ => cases ht.symm.trans ‹w.tasks[k]? = some _›

/-- A call on a link takes a step of its exchange. -/
theorem Steps.of_exchanging (h : Steps w k w')
    (ht : w.tasks[k]? = some (.call channel (.exchanging link x))) (hl : w.links[link]? = some l) :
    ∃ p l', x.step? w.moment l = some (p, l') ∧
      w'.tasks[k]? = some (.call channel (.ofExchange link p)) ∧ w'.links[link]? = some l' ∧
      w'.links.length = w.links.length := by
  cases h with
  | exchanged ht' hl' hx =>
    cases ht.symm.trans ht'
    cases hl.symm.trans hl'
    refine ⟨_, _, hx, List.getElem?_set_self (List.getElem?_eq_some_iff.mp ht).1,
      List.getElem?_set_self (List.getElem?_eq_some_iff.mp hl).1, List.length_set ..⟩
  | stopped ht' ho | refused ht' ho =>
    cases ht.symm.trans ht'
    cases ho
  | _ => cases ht.symm.trans ‹w.tasks[k]? = some _›

/-- A call that is not done is not completed. -/
theorem callsOf_of_open {c : CallTask} (ht : w.tasks[k]? = some (.call channel c))
    (ho : ∀ call, c ≠ .delivering call) (w' : World) : callsOf k (w.deeds w' k) = [] := by
  rw [callsOf_deeds, if_pos rfl, completed?, ht]
  cases c with
  | delivering call => exact absurd rfl (ho call)
  | _ => rfl

/-- Who exchanges no call after a step has not opened a stream with it. -/
theorem linksOf_of_unopened {t : Task} (ht : w'.tasks[k]? = some t) (hs : t.stream? = none) :
    linksOf k (w.deeds w' k) = [] := by
  rw [linksOf_deeds, if_pos rfl, opened?, ht]
  cases w.tasks[k]?.bind Task.stream? with
  | none => simp [hs]
  | some => rfl

/-- Who exchanges a call opens no other stream. -/
theorem linksOf_of_exchanging (ht : w.tasks[k]? = some (.call channel (.exchanging link x))) :
    linksOf k (w.deeds w' k) = [] := by
  rw [linksOf_deeds, if_pos rfl, opened?, ht]
  rfl

/-- Who comes to exchange a call has opened the stream for it. -/
theorem linksOf_of_opened {t : Task} (ht : w.tasks[k]? = some t) (hs : t.stream? = none)
    (ht' : w'.tasks[k]? = some (.call channel (.exchanging link x))) :
    linksOf k (w.deeds w' k) = [link] := by
  rw [linksOf_deeds, if_pos rfl, opened?, ht, ht', Option.bind_some, hs]
  rfl

/-! ## What others leave alone -/

/-- Nobody but the task at a place holds the left end of a link. -/
def Sole (w : World) (k link : Nat) : Prop := ∀ i, w.Holds i link .left → i = k

/-- Nobody comes to hold the left end of a link that there is. -/
theorem Steps.held (h : Steps w i w') (hl : link < w.links.length) (hh : w'.Holds k link .left) :
    w.Holds k link .left := by
  rcases h.holds hh with hh | ⟨rfl, -⟩ | ⟨hs, -⟩
  · exact hh
  · exact absurd hl (Nat.lt_irrefl _)
  · cases hs

theorem Steps.sole (h : Steps w i w') (hs : w.Sole k link) (hl : link < w.links.length) :
    w'.Sole k link :=
  fun j hj => hs j (h.held hl hj)

/-- What is not done by who holds the left end of a link is, to the link, done at the right. -/
theorem Steps.acted_right (h : Steps w i w') (hl : w.links[link]? = some l)
    (hi : ¬ w.Holds i link .left) : ∃ l', w'.links[link]? = some l' ∧ l.Acted .right l' := by
  obtain ⟨l', hl', rfl | ⟨s, hh, ha⟩ | ⟨rfl, -⟩⟩ := h.link hl
  · exact ⟨l', hl', .refl ..⟩
  · cases s with
    | left => exact absurd hh hi
    | right => exact ⟨l', hl', ha⟩
  · exact ⟨_, hl', Link.acted_abort ..⟩

/-- Who holds an end of a link that was just opened has opened it, or has begun with that. -/
theorem Steps.holds_opened {s : Side} (h : Steps w i w') (hw : w.InOrder)
    (hh : w'.Holds k w.links.length s) :
    s = .left ∧ k = i ∨ s = .right ∧ k = w.tasks.length := by
  rcases h.holds hh with hh | ⟨-, -, hs⟩ | ⟨-, -, inbox, a, ha, hl⟩
  · exact absurd (hw.held _ _ _ hh) (Nat.lt_irrefl _)
  · exact hs
  · exact absurd (hw.queued _ ha.arrivals) (hl ▸ Nat.lt_irrefl _)

/-- Who opens a link alone has its left end. -/
theorem Steps.sole_opened (h : Steps w i w') (hw : w.InOrder) : w'.Sole i w.links.length := by
  intro j hj
  rcases h.holds_opened hw hj with ⟨-, hi⟩ | ⟨hs, -⟩
  · exact hi
  · cases hs

/-- Where no task has begun, nobody has the right end of a link that was just opened. -/
theorem Steps.unheld_opened (h : Steps w i w') (hw : w.InOrder)
    (hn : w'.tasks.length = w.tasks.length) (j : Nat) : ¬w'.Holds j w.links.length .right := by
  intro hj
  rcases h.holds_opened hw hj with ⟨hs, -⟩ | ⟨-, rfl⟩
  · cases hs
  · obtain ⟨t, ht, -⟩ := hj
    exact Nat.lt_irrefl _ (hn ▸ (List.getElem?_eq_some_iff.mp ht).1)

theorem Steps.spares (h : Steps w i w') (hi : i ≠ k) (ht : w.tasks[k]? = some t) :
    w'.tasks[k]? = some t ∧ linksOf k (w.deeds w' i) = [] ∧ callsOf k (w.deeds w' i) = [] :=
  ⟨h.task ht (Ne.symm hi), by rw [linksOf_deeds, if_neg hi], by rw [callsOf_deeds, if_neg hi]⟩

/-- A task that is not about to invoke the local server does not invoke it. -/
theorem Steps.invokedBy {t : Task} (h : Steps w i w') (ht : w.tasks[k]? = some t)
    (hne : t.isEntering = false) : invokedBy k (w.deeds w' i) = [] := by
  rw [invokedBy_deeds]
  split
  · rename_i hi
    obtain ⟨rfl, hanswers⟩ := hi
    rcases h.notes with hn | ⟨_, _, _, ht'⟩ | ⟨_, ht', he⟩
    · rw [hn, List.drop_length]
    · rw [answers?, ht'] at hanswers
      cases hanswers
    · cases ht.symm.trans ht'
      cases hne.symm.trans he
  · rfl

theorem holds_of_answers? (h : w.answers? i = some link) : w.Holds i link .right := by
  unfold answers? at h
  split at h
  · rename_i ht
    cases h
    exact ⟨_, ht, rfl⟩
  · cases h

/-- Only who holds the right end of a link invokes a server there. -/
theorem invokedAt_of_not_holds (h : ¬ w.Holds i link .right) :
    invokedAt link (w.deeds w' i) = [] := by
  rw [invokedAt_deeds, if_neg]
  intro ha
  exact h (holds_of_answers? ha)

theorem InOrder.invokedAt (hw : w.InOrder) (hlink : w.links.length ≤ link) :
    invokedAt link (w.deeds w' i) = [] := by
  apply invokedAt_of_not_holds
  intro hh
  exact Nat.not_lt_of_le hlink (hw.held _ _ _ hh)

theorem spares_of_run? (ht : w.tasks[k]? = some t) (hk : Move.step k ∉ moves)
    (h : run? moves w = some w') :
    w'.tasks[k]? = some t ∧ linksOf k (ledger moves w) = [] ∧ callsOf k (ledger moves w) = [] := by
  let P (ds : List Deed) (w : World) : Prop :=
    w.tasks[k]? = some t ∧ linksOf k ds = [] ∧ callsOf k ds = []
  have hP : P (ledger moves w) w' := by
    refine ledger_induct (P := P) ?_ (fun _ _ _ hP _ => hP) ⟨ht, rfl, rfl⟩ h
    intro ds w i w' hi hP hs
    have hne : i ≠ k := by
      rintro rfl
      exact hk hi
    obtain ⟨ht', hlinks, hcalls⟩ := (steps_of_step? hs).spares hne hP.1
    exact ⟨ht', by simp [hP.2.1, hlinks], by simp [hP.2.2, hcalls]⟩
  exact hP

/-- As long as nobody who holds the left end of a link takes a step, the link is only acted on from
the right. -/
theorem acted_of_run? (hl : w.links[link]? = some l)
    (hs : ∀ i, w.Holds i link .left → Move.step i ∉ moves) (h : run? moves w = some w') :
    (∀ i, w'.Holds i link .left → w.Holds i link .left) ∧
      ∃ l', w'.links[link]? = some l' ∧ l.Acted .right l' := by
  let P (_ : List Deed) (w₁ : World) : Prop :=
    (∀ i, w₁.Holds i link .left → w.Holds i link .left) ∧
      ∃ l', w₁.links[link]? = some l' ∧ l.Acted .right l'
  have hP : P (ledger moves w) w' := by
    refine ledger_induct (P := P) ?_ (fun _ _ _ hP _ => hP) ⟨fun _ => id, l, hl, .refl ..⟩ h
    intro ds w₁ i w₂ hi hP hstep
    obtain ⟨hheld, l₁, hl₁, hacted⟩ := hP
    have hsteps := steps_of_step? hstep
    constructor
    · intro j hj
      exact hheld j (hsteps.held (List.getElem?_eq_some_iff.mp hl₁).1 hj)
    · obtain ⟨l₂, hl₂, ha⟩ := hsteps.acted_right hl₁ fun hh => hs i (hheld i hh) hi
      exact ⟨l₂, hl₂, hacted.trans ha⟩
  exact hP

/-! ## Handing a call back -/

/-- A call is done, and its task hands it back or has done so. -/
inductive Handing (w : World) (k channel : Nat) (c : Call) (ds : List Deed) : Prop
  | waiting (ht : w.tasks[k]? = some (.call channel (.delivering c))) (hn : callsOf k ds = [])
  | handed (ht : w.tasks[k]? = some .ended) (hn : callsOf k ds = [c])

theorem Handing.later (h : w.Handing k channel c ds) (m : Moment) :
    Handing { w with moment := m } k channel c ds := by
  cases h with
  | waiting ht hn => exact .waiting ht hn
  | handed ht hn => exact .handed ht hn

/-- A call that is completed is one that was done. -/
theorem Handing.eq_of_mem {c c' : Call} (h : w.Handing k channel c ds) (hc : c' ∈ callsOf k ds) :
    c' = c := by
  cases h with
  | waiting _ hn => rw [hn] at hc; cases hc
  | handed _ hn => rw [hn] at hc; exact List.mem_singleton.mp hc

theorem Handing.task (h : w.Handing k channel c ds) :
    ∃ t, w.tasks[k]? = some t ∧ t.isEntering = false := by
  cases h with
  | waiting ht | handed ht => exact ⟨_, ht, rfl⟩

theorem Handing.step (h : w.Handing k channel c ds) (hs : w.step? i = some w') :
    w'.Handing k channel c (ds ++ w.deeds w' i) ∧ linksOf k (w.deeds w' i) = [] := by
  by_cases hi : i = k
  case neg =>
    cases h with
    | waiting ht hn =>
      obtain ⟨ht', hlinks, hcalls⟩ := (steps_of_step? hs).spares hi ht
      exact ⟨.waiting ht' (by rw [callsOf_append, hn, hcalls]; rfl), hlinks⟩
    | handed ht hn =>
      obtain ⟨ht', hlinks, hcalls⟩ := (steps_of_step? hs).spares hi ht
      exact ⟨.handed ht' (by rw [callsOf_append, hn, hcalls]; rfl), hlinks⟩
  subst hi
  cases h with
  | handed ht hn =>
    rw [step?, ht] at hs
    cases hs
  | waiting ht hn =>
    have hk : i < w.tasks.length := (List.getElem?_eq_some_iff.mp ht).1
    cases steps_of_step? hs with
    | @sending _ _ ch ch' sent ht' hc hs' =>
      cases ht.symm.trans ht'
      cases sent with
      | true =>
        refine ⟨.handed (List.getElem?_set_self hk) ?_,
          linksOf_of_unopened (List.getElem?_set_self hk) rfl⟩
        rw [callsOf_append, hn, callsOf_deeds, if_pos rfl, completed?, ht]
        simp [setTask, hk]
      | false =>
        refine ⟨.waiting (List.getElem?_set_self hk) ?_,
          linksOf_of_unopened (List.getElem?_set_self hk) rfl⟩
        rw [callsOf_append, hn, callsOf_deeds, if_pos rfl, completed?, ht]
        simp [setTask, hk]
    | stopped ht' ho | refused ht' ho =>
      cases ht.symm.trans ht'
      cases ho
    | _ => cases ht.symm.trans ‹w.tasks[i]? = some _›

theorem Handing.of_run? (h : w.Handing k channel c ds) (hrun : run? moves w = some w') :
    w'.Handing k channel c (ds ++ ledger moves w) ∧ linksOf k (ledger moves w) = [] := by
  let P (ds' : List Deed) (w : World) : Prop :=
    w.Handing k channel c (ds ++ ds') ∧ linksOf k ds' = []
  have hP : P (ledger moves w) w' := by
    refine ledger_induct (P := P) ?_ ?_ ⟨(List.append_nil ds).symm ▸ h, rfl⟩ hrun
    · intro ds' w i w' _ hP hs
      obtain ⟨h', hlinks⟩ := hP.1.step hs
      refine ⟨List.append_assoc .. ▸ h', ?_⟩
      rw [linksOf_append, hP.2, hlinks]
      rfl
    · intro ds' w m hP _
      exact ⟨hP.1.later m, hP.2⟩
  exact hP

/-! ## A remote call -/

/-- How the task of a remote call may stand, after these deeds. -/
inductive Remote (w : World) (k channel : Nat) (call : Call) (host : Host) (ds : List Deed) : Prop
  | dialing {codec protocol}
    (ht : w.tasks[k]? = some (.call channel (.dialing call codec host protocol)))
    (ho : linksOf k ds = []) (hn : callsOf k ds = [])
  | connecting {a : Attempt} (ht : w.tasks[k]? = some (.call channel (.connecting a)))
    (hr : host.reach ≠ .network) (hc : a.call = call)
    (ho : linksOf k ds = []) (hn : callsOf k ds = [])
  | greeting {link : Nat} {g : Greeting}
    (ht : w.tasks[k]? = some (.call channel (.greeting link g))) (hr : host.reach ≠ .network)
    (hl : link < w.links.length) (hs : w.Sole k link) (hc : g.call = call)
    (ho : linksOf k ds = []) (hn : callsOf k ds = [])
  | exchanging {link : Nat} {x : Exchange}
    (ht : w.tasks[k]? = some (.call channel (.exchanging link x)))
    (hl : link < w.links.length) (hs : w.Sole k link) (hx : x.Sound) (hc : call.Underway x.call)
    (ho : linksOf k ds = [link]) (hn : callsOf k ds = [])
  | done {c : Call} (h : w.Handing k channel c ds)

variable {host : Host}

theorem Remote.later (h : w.Remote k channel call host ds) (m : Moment) :
    Remote { w with moment := m } k channel call host ds := by
  cases h with
  | dialing ht ho hn => exact .dialing ht ho hn
  | connecting ht hr hc ho hn => exact .connecting ht hr hc ho hn
  | greeting ht hr hl hs hc ho hn => exact .greeting ht hr hl hs hc ho hn
  | exchanging ht hl hs hx hc ho hn => exact .exchanging ht hl hs hx hc ho hn
  | done h => exact .done (h.later m)

theorem Remote.task (h : w.Remote k channel call host ds) :
    ∃ t, w.tasks[k]? = some t ∧ t.isEntering = false := by
  cases h with
  | dialing ht | connecting ht | greeting ht | exchanging ht => exact ⟨_, ht, rfl⟩
  | done h => exact h.task

theorem Remote.spared (h : w.Remote k channel call host ds) (hstep : w.step? i = some w')
    (hi : i ≠ k) : w'.Remote k channel call host (ds ++ w.deeds w' i) := by
  have hsteps := steps_of_step? hstep
  cases h with
  | dialing ht ho hn =>
    obtain ⟨ht', hlinks, hcalls⟩ := hsteps.spares hi ht
    exact .dialing ht' (by simp [ho, hlinks]) (by simp [hn, hcalls])
  | connecting ht hr hc ho hn =>
    obtain ⟨ht', hlinks, hcalls⟩ := hsteps.spares hi ht
    exact .connecting ht' hr hc (by simp [ho, hlinks]) (by simp [hn, hcalls])
  | greeting ht hr hl hs hc ho hn =>
    obtain ⟨ht', hlinks, hcalls⟩ := hsteps.spares hi ht
    exact .greeting ht' hr (Nat.lt_of_lt_of_le hl hsteps.length_links) (hsteps.sole hs hl) hc
      (by simp [ho, hlinks]) (by simp [hn, hcalls])
  | exchanging ht hl hs hx hc ho hn =>
    obtain ⟨ht', hlinks, hcalls⟩ := hsteps.spares hi ht
    exact .exchanging ht' (Nat.lt_of_lt_of_le hl hsteps.length_links) (hsteps.sole hs hl) hx hc
      (by simp [ho, hlinks]) (by simp [hn, hcalls])
  | done h => exact .done (h.step hstep).1

theorem Remote.step (h : w.Remote k channel call host ds) (hw : w.InOrder)
    (hstep : w.step? i = some w') : w'.Remote k channel call host (ds ++ w.deeds w' i) := by
  by_cases hi : i = k
  case neg => exact h.spared hstep hi
  subst hi
  have hsteps := steps_of_step? hstep
  cases h with
  | done h => exact .done (h.step hstep).1
  | dialing ht ho hn =>
    have hcalls := callsOf_of_open ht (fun _ h => by cases h) w'
    cases hsteps.opens ht rfl with
    | failed ht' => exact .done (.waiting ht' (by simp [hn, hcalls]))
    | dialed _ _ _ ht' hl =>
      exact .exchanging ht' (by simp [hl]) (hsteps.sole_opened hw) trivial (.inl rfl)
        (by simp [ho, linksOf_of_opened ht rfl ht']) (by simp [hn, hcalls])
    | connecting hr _ _ ha ht' =>
      exact .connecting ht' (hr ▸ nofun) (ha ▸ rfl) (by simp [ho, linksOf_of_unopened ht' rfl])
        (by simp [hn, hcalls])
  | connecting ht hr hc ho hn =>
    have hcalls := callsOf_of_open ht (fun _ h => by cases h) w'
    cases hsteps.opens ht (congrArg some hc) with
    | failed ht' => exact .done (.waiting ht' (by simp [hn, hcalls]))
    | connected _ _ _ ht' hl =>
      exact .greeting ht' hr (by simp [hl]) (hsteps.sole_opened hw) hc
        (by simp [ho, linksOf_of_unopened ht' rfl]) (by simp [hn, hcalls])
  | @greeting link g ht hr hl hs hc ho hn =>
    have hcalls := callsOf_of_open ht (fun _ h => by cases h) w'
    obtain ⟨p, l', hp, ht', -, hlen⟩ := hsteps.of_greeting ht (List.getElem?_eq_getElem hl)
    have hm := Greeting.moves_of_step? hp
    cases hm with
    | stopped | failed => exact .done (.waiting ht' (by simp [hn, hcalls]))
    | written =>
      exact .greeting ht' hr (hlen ▸ hl) (hsteps.sole hs hl) hc
        (by simp [ho, linksOf_of_unopened ht' rfl]) (by simp [hn, hcalls])
    | opened =>
      exact .exchanging ht' (hlen ▸ hl) (hsteps.sole hs hl) trivial (.inl hc)
        (by simp [ho, linksOf_of_opened ht rfl ht']) (by simp [hn, hcalls])
  | @exchanging link x ht hl hs hx hc ho hn =>
    have hcalls := callsOf_of_open ht (fun _ h => by cases h) w'
    have hlinks : linksOf i (w.deeds w' i) = [] := linksOf_of_exchanging ht
    obtain ⟨p, l', hp, ht', -, hlen⟩ := hsteps.of_exchanging ht (List.getElem?_eq_getElem hl)
    have hm := Exchange.moves_of_step? hx hp
    cases p with
    | more x' =>
      exact .exchanging ht' (hlen ▸ hl) (hsteps.sole hs hl) hm.sound_of_more (hm.underway hc)
        (by simp [ho, hlinks]) (by simp [hn, hcalls])
    | done c => exact .done (.waiting ht' (by simp [hn, hcalls]))

/-- Starting a call to a peer adds the task that is to dial. -/
theorem tasks_of_start {client : Client} (hroute : client.route call.dest = .ok (.toPeer host))
    (h : w.start client call channel = .ok w') :
    w' = (w.modifyChannel channel Channel.addSender).spawn
      (.call channel (.dialing call client.codec host client.protocol)) := by
  rw [start, taskOf, hroute] at h
  cases h
  rfl

/-- A call that was started and is not one to oneself is one to a peer. -/
theorem route_of_start {client : Client} (hself : client.isSelf call.dest = false)
    (h : w.start client call channel = .ok w') :
    ∃ host, client.route call.dest = .ok (.toPeer host) ∧ client.host = some host := by
  cases hroute : client.route call.dest with
  | error e =>
    rw [start, taskOf, hroute] at h
    cases h
  | ok route =>
    rw [Client.route, hself, if_neg (by decide)] at hroute
    split at hroute
    · cases hroute
    · rename_i host hhost
      split at hroute <;> cases hroute
      exact ⟨host, rfl, hhost⟩

theorem holds_of_spawn_call {c : CallTask} (hc : (Task.call channel c).end? = none)
    (h : (w.spawn (.call channel c)).Holds i link s) : w.Holds i link s := by
  rcases holds_spawn h with hh | ⟨-, he⟩
  · exact hh
  · cases hc.symm.trans he

/-- A call that begins holds no link. -/
theorem end?_of_taskOf {client : Client} {c : CallTask} (channel : Nat)
    (h : taskOf client call = .ok c) :
    (Task.call channel c).end? = none := by
  unfold taskOf at h
  split at h <;> cases h <;> rfl

theorem InOrder.start {client : Client} (hw : w.InOrder)
    (h : w.start client call channel = .ok w') : w'.InOrder := by
  unfold World.start at h
  split at h <;> cases h
  rename_i c hc
  exact ⟨fun i link s hh => hw.held i link s (holds_of_spawn_call (end?_of_taskOf _ hc) hh),
    hw.queued⟩

theorem remote_of_run? {client : Client} {w₀ w₁ : World} (hw : w₀.InOrder)
    (hroute : client.route call.dest = .ok (.toPeer host))
    (hstart : w₀.start client call channel = .ok w₁) (hrun : run? moves w₁ = some w) :
    w.InOrder ∧ w.Remote w₀.tasks.length channel call host (ledger moves w₁) ∧
      invokedBy w₀.tasks.length (ledger moves w₁) = [] := by
  let P (ds : List Deed) (w : World) : Prop := w.InOrder ∧
    w.Remote w₀.tasks.length channel call host ds ∧ invokedBy w₀.tasks.length ds = []
  have hP : P (ledger moves w₁) w := by
    refine ledger_induct (P := P) (fun ds w i w' _ hP hs => ?_) (fun ds w m hP _ => ?_) ?_ hrun
    · obtain ⟨hw, hremote, hn⟩ := hP
      obtain ⟨t, ht, hne⟩ := hremote.task
      have hsteps := steps_of_step? hs
      refine ⟨hsteps.inOrder hw, hremote.step hw hs, ?_⟩
      rw [invokedBy_append, hn, hsteps.invokedBy ht hne]
      rfl
    · obtain ⟨hw, hremote, hn⟩ := hP
      exact ⟨hw.later m, hremote.later m, hn⟩
    · refine ⟨hw.start hstart, ?_, rfl⟩
      rw [tasks_of_start hroute hstart]
      exact .dialing (List.getElem?_concat_length ..) rfl rfl
  exact hP

/-! ## A small world -/

/-- A peer whose server is this one, and a channel with room for one call. -/
def evening (server : Server) : World where
  network := (({} : Network).join ⟨"bob"⟩).2
  channels := [.ofCapacity 1 0]
  tasks := [.accept 0 (.serve ⟨7, server⟩ .standard .standard)]
  tokens := 1

def alice : Client := { host := some ⟨⟨"alice"⟩, .network⟩ }

theorem inOrder_evening (server : Server) : (evening server).InOrder where
  held i link s hh := by
    obtain ⟨t, ht, he⟩ := hh
    match i with
    | 0 =>
      cases ht
      cases he
    | i + 1 => cases ht
  queued link hq := absurd rfl hq

end World

end PeerCall
