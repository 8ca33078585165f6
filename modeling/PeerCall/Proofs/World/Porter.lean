import PeerCall.Proofs.World.Comings

/-! # Who takes streams in

A porter is the one task that accepts from an inbox, on behalf of a server that speaks one protocol.
Streams leave the inbox by its hand only, in the order in which they came (`Porter.Duty.passing`),
and as long as one waits the porter can take it (`Porter.Duty.ready`), whatever has become of those
before. It stays until the network has dropped the inbox and no stream is left
(`Porter.Duty.occurs`). -/

namespace PeerCall

/-- Who takes in the streams of an inbox, and for which server. -/
structure Porter where
  place : Nat
  inbox : Nat
  site : Site
  codec : Codec
  protocol : ProtocolId

namespace World

variable {w w' : World} {i inbox : Nat} {intake : Intake} {a : Arrival}

/-- Who accepts takes the stream that has waited longest. It ends where none can come any more. -/
theorem step?_accepting (ht : w.tasks[i]? = some (.accept inbox intake))
    (hl : w.network.listens inbox = true) : w.step? i =
      match w.network.queue inbox with
      | a :: rest => some ({ w with network :=
          { w.network with inboxes := w.network.inboxes.set inbox ⟨rest, true⟩ } }.takeIn intake a)
      | [] => if w.network.isCurrent inbox then none else some (w.setTask i .ended) := by
  rw [step?, ht]
  simp only [Network.receive_of_listens hl]
  cases w.network.queue inbox with
  | cons a rest => rfl
  | nil => cases w.network.isCurrent inbox <;> rfl

/-- Whatever becomes of a stream that is taken, the tasks that there are stay. -/
theorem task_takeIn {j : Nat} {t : Task} (ht : w.tasks[j]? = some t) :
    (w.takeIn intake a).tasks[j]? = some t := by
  have hspawn (w₁ : World) (t' : Task) (hw : w₁.tasks = w.tasks) :
      (w₁.spawn t').tasks[j]? = some t := by
    rw [spawn, hw, List.getElem?_append_left (List.getElem?_eq_some_iff.mp ht).1, ht]
  cases intake with
  | play owner actions => exact hspawn _ _ rfl
  | serve site codec protocol =>
    rw [takeIn]
    split
    · exact hspawn _ _ rfl
    · exact ht

theorem network_takeIn (w : World) (intake : Intake) (a : Arrival) :
    (w.takeIn intake a).network = w.network := by
  cases intake with
  | play => rfl
  | serve =>
    rw [takeIn]
    split <;> rfl

/-- A stream that is accepted in a step leaves the network and is taken in. -/
theorem takeIn_of_step? (hs : w.step? i = some w') (hr : w.Receives i inbox a) :
    ∃ intake, w.tasks[i]? = some (.accept inbox intake) ∧
      w.network.receive inbox = (.arrived a, w'.network) ∧
      w' = { w with network := w'.network }.takeIn intake a := by
  obtain ⟨⟨intake, ht⟩, network, hn⟩ := hr
  simp only [step?, ht, hn, Option.some.injEq] at hs
  obtain rfl : w'.network = network := hs ▸ network_takeIn ..
  exact ⟨intake, ht, hn, hs.symm⟩

end World

namespace Porter

open World

variable (d : Porter)

/-- What a porter does with the streams that it takes. -/
def intake : Intake := .serve d.site d.codec d.protocol

/-- A stream that waits in the inbox, and of which nobody has the far end. -/
structure Untaken (w : World) (a : Arrival) : Prop where
  awaits : w.network.Awaits d.inbox a
  unheld : ∀ i, ¬ w.Holds i a.link .right

/-- A porter is at its place, and nobody else accepts from its inbox. It has gone if the inbox is
empty and stays so. -/
structure Duty (w : World) : Prop where
  inOrder : w.InOrder
  alone : ∀ (i : Nat) (intake : Intake), w.tasks[i]? = some (.accept d.inbox intake) →
    i = d.place ∧ intake = d.intake
  listens : w.network.listens d.inbox = true
  untaken : ∀ a ∈ w.network.queue d.inbox, d.Untaken w a
  there : w.tasks[d.place]? = some (.accept d.inbox d.intake) ∨
    w.tasks[d.place]? = some .ended ∧ w.network.queue d.inbox = [] ∧
      ∀ p, w.network.inbox? p ≠ some d.inbox

/-- What an event does to the inbox: which stream has come, and which was taken. -/
inductive Passing (w w' : World) (ev : Event) : List Arrival → List Arrival → Prop
  | nothing (hq : w'.network.queue d.inbox = w.network.queue d.inbox) : Passing w w' ev [] []
  | arrival {a} (hq : w'.network.queue d.inbox = w.network.queue d.inbox ++ [a])
    (ha : a.link = w.links.length) (hl : w'.links[a.link]? = some (.ofCapacity linkCapacity))
    (hu : d.Untaken w' a) (hp : ∃ p, w.network.inbox? p = some d.inbox) : Passing w w' ev [a] []
  | taking {a} (hev : ev = .move (.step d.place))
    (hq : w.network.queue d.inbox = a :: w'.network.queue d.inbox)
    (hr : w.Receives d.place d.inbox a) : Passing w w' ev [] [a]

variable {d} {w w' : World} {ev : Event} {a : Arrival} {came took : List Arrival}

theorem Untaken.lt (h : d.Untaken w a) (hw : w.InOrder) : a.link < w.links.length := by
  apply hw.queued
  rw [h.awaits.arrivals]
  exact List.cons_ne_nil a []

/-- As long as a stream waits, nobody accepts on its link. -/
theorem Untaken.not_receives {i : Nat} (h : d.Untaken w a) (hs : w.step? i = some w')
    (hq : a ∈ w'.network.queue d.inbox) (inbox : Nat) (b : Arrival)
    (hr : w.Receives i inbox b) : b.link ≠ a.link := by
  intro hl
  -- who accepts there leaves no stream of the link
  obtain ⟨_, -, hn, -⟩ := takeIn_of_step? hs hr
  have hgone := (h.awaits.received hn hl).2.2
  have hmem := Network.mem_arrivals hq
  rw [hgone] at hmem
  cases hmem

theorem Untaken.overlooks (h : d.Untaken w a) (hw : w.InOrder) (ho : w.Occurs ev w')
    (hq : a ∈ w'.network.queue d.inbox) : w.Overlooks w' a.link := by
  rcases ho.step_or_stays with ⟨i, -, hs⟩ | ⟨-, hstays, -⟩
  · exact (steps_of_step? hs).overlooks (h.lt hw) (h.not_receives hs hq)
  · exact hstays.overlooks _ (h.lt hw)

theorem Untaken.occurs (h : d.Untaken w a) (hw : w.InOrder) (ho : w.Occurs ev w')
    (hq : a ∈ w'.network.queue d.inbox) : d.Untaken w' a := by
  have hover := h.overlooks hw ho hq
  exact ⟨hover.awaits _ _ rfl h.awaits, fun i hi => h.unheld i (hover.holds i hi)⟩

/-- A stream that was just dialed waits, and nobody has its far end. -/
private theorem untaken_of_dial {dialer dest : PeerId} {protocol : ProtocolId} (hw : w.InOrder)
    (hd : w.network.dial dialer dest protocol w.links.length = .ok w'.network)
    (hp : w.network.inbox? dest = some d.inbox)
    (hr : ∀ i, ¬ w'.Holds i w.links.length .right) :
    d.Untaken w' ⟨protocol, dialer, w.links.length⟩ := by
  obtain ⟨i, hi, hawaits⟩ := Network.awaits_dial hd (hw.arrivals (Nat.le_refl _))
  obtain rfl := Option.some.inj (hp.symm.trans hi)
  exact ⟨hawaits, hr⟩

/-- A stream that is dialed comes last, if it is for this inbox. -/
private theorem passing_of_dial {dialer dest : PeerId} {protocol : ProtocolId} (hw : w.InOrder)
    (hd : w.network.dial dialer dest protocol w.links.length = .ok w'.network)
    (hl : w'.links = w.links ++ [.ofCapacity linkCapacity])
    (hr : ∀ i, ¬ w'.Holds i w.links.length .right) : ∃ came took, d.Passing w w' ev came took := by
  have hq := (Network.queue_dial hd d.inbox).2
  by_cases hp : w.network.inbox? dest = some d.inbox
  · rw [if_pos hp] at hq
    refine ⟨_, _, .arrival hq rfl ?_ (untaken_of_dial hw hd hp hr) ⟨dest, hp⟩⟩
    rw [hl, List.getElem?_concat_length]
  · rw [if_neg hp, List.append_nil] at hq
    exact ⟨_, _, .nothing hq⟩

namespace Duty

theorem passing_step {i : Nat} (h : d.Duty w) (hs : w.Steps i w') :
    ∃ came took, d.Passing w w' (.move (.step i)) came took := by
  have hreceive {inbox : Nat} {intake : Intake} {a : Arrival}
      (ht : w.tasks[i]? = some (.accept inbox intake))
      (hn : w.network.receive inbox = (.arrived a, w'.network)) :
      ∃ came took, d.Passing w w' (.move (.step i)) came took := by
    have hq := (Network.queue_receive hn d.inbox).2
    by_cases hi : inbox = d.inbox
    · subst hi
      obtain ⟨rfl, -⟩ := h.alone i intake ht
      rw [if_pos rfl] at hq
      exact ⟨_, _, .taking rfl hq ⟨⟨intake, ht⟩, _, hn⟩⟩
    · rw [if_neg hi] at hq
      exact ⟨_, _, .nothing hq.symm⟩
  have hwhole := hs
  cases hs with
  | dialed ht _ hd =>
    exact passing_of_dial h.inOrder hd rfl (hwhole.unheld_opened h.inOrder (List.length_set ..))
  | accepted ht hn | turnedAway ht hn | played ht hn => exact hreceive ht hn
  | _ => exact ⟨_, _, .nothing rfl⟩

/-- Streams come last into the inbox, and the porter takes the first. -/
theorem passing (h : d.Duty w) (ho : w.Occurs ev w') :
    ∃ came took, d.Passing w w' ev came took := by
  cases ho with
  | step hs => exact h.passing_step (steps_of_step? hs)
  | passed => exact ⟨_, _, .nothing rfl⟩
  | came _ hc =>
    rcases hc.network with hn | ⟨_, _, _, hd, hl⟩ | ⟨p, hn⟩ | ⟨p, hn⟩
    · exact ⟨_, _, .nothing (hn ▸ rfl)⟩
    · refine passing_of_dial h.inOrder hd hl fun j hj => ?_
      rcases hc.holds hj with hj | ⟨-, -, hs⟩
      · exact absurd (h.inOrder.held _ _ _ hj) (Nat.lt_irrefl _)
      · cases hs
    · exact ⟨_, _, .nothing (hn ▸ Network.queue_join ..)⟩
    · exact ⟨_, _, .nothing (hn ▸ rfl)⟩

/-- As long as a stream waits, the porter can take the next. -/
theorem ready {rest : List Arrival} (h : d.Duty w) (hq : w.network.queue d.inbox = a :: rest) :
    ∃ w', w.step? d.place = some w' ∧ w'.network.queue d.inbox = rest := by
  rcases h.there with ht | ⟨-, hn, -⟩
  · have hlt := (List.getElem?_eq_some_iff.mp (Network.inbox_of_listens h.listens)).1
    rw [step?_accepting ht h.listens, hq]
    refine ⟨_, rfl, ?_⟩
    rw [network_takeIn, Network.queue, List.getElem?_set_self hlt]
    rfl
  · cases hn.symm.trans hq

/-- What the porter accepts it takes in for its server. -/
theorem takes (h : d.Duty w) (hs : w.step? d.place = some w')
    (hr : w.Receives d.place d.inbox a) : w.network.receive d.inbox = (.arrived a, w'.network) ∧
      w' = { w with network := w'.network }.takeIn d.intake a := by
  obtain ⟨intake, ht, hn, hw'⟩ := takeIn_of_step? hs hr
  obtain ⟨-, rfl⟩ := h.alone _ _ ht
  exact ⟨hn, hw'⟩

private theorem there_of_stays (h : d.Duty w) (ho : w.Occurs ev w')
    (hpass : d.Passing w w' ev came took)
    (hstay : ∀ t, w.tasks[d.place]? = some t → w'.tasks[d.place]? = some t) :
    w'.tasks[d.place]? = some (.accept d.inbox d.intake) ∨
      w'.tasks[d.place]? = some .ended ∧ w'.network.queue d.inbox = [] ∧
        ∀ p, w'.network.inbox? p ≠ some d.inbox := by
  refine h.there.imp (hstay _) ?_
  rintro ⟨ht, hn, hp⟩
  refine ⟨hstay _ ht, ?_, ho.network.dropped h.listens hp⟩
  cases hpass with
  | nothing hq => rw [hq, hn]
  | arrival _ _ _ _ hp' =>
    obtain ⟨p, hp'⟩ := hp'
    exact absurd hp' (hp p)
  | taking _ hq => cases hn.symm.trans hq

/-- A porter ends where no stream waits and none can come. -/
private theorem there_of_step (h : d.Duty w) (hs : w.step? d.place = some w') :
    w'.tasks[d.place]? = some (.accept d.inbox d.intake) ∨
      w'.tasks[d.place]? = some .ended ∧ w'.network.queue d.inbox = [] ∧
        ∀ p, w'.network.inbox? p ≠ some d.inbox := by
  rcases h.there with ht | ⟨ht, -⟩
  case inr =>
    rw [step?, ht] at hs
    cases hs
  rw [step?_accepting ht h.listens] at hs
  cases hq : w.network.queue d.inbox with
  | cons a rest =>
    rw [hq] at hs
    cases hs
    exact .inl (task_takeIn ht)
  | nil =>
    simp only [hq] at hs
    split at hs
    · cases hs
    · rename_i hcurrent
      cases hs
      refine .inr ⟨List.getElem?_set_self (List.getElem?_eq_some_iff.mp ht).1, hq, ?_⟩
      intro p hp
      exact hcurrent (Network.isCurrent_of_inbox? hp)

theorem occurs (h : d.Duty w) (ho : w.Occurs ev w') : d.Duty w' := by
  obtain ⟨came, took, hpass⟩ := h.passing ho
  refine ⟨ho.inOrder h.inOrder, ?_, ho.network.listens h.listens, fun a ha => ?_, ?_⟩
  · intro i intake ht
    rcases ho.step_or_stays with ⟨j, -, hs⟩ | ⟨-, hstays, -⟩
    · exact h.alone i intake ((steps_of_step? hs).acceptor ht)
    · exact h.alone i intake (hstays.acceptor _ _ _ ht)
  · have hold (hmem : a ∈ w.network.queue d.inbox) : d.Untaken w' a :=
      (h.untaken a hmem).occurs h.inOrder ho ha
    cases hpass with
    | nothing hq => exact hold (hq ▸ ha)
    | taking _ hq => exact hold (hq ▸ List.mem_cons_of_mem _ ha)
    | arrival hq _ _ hu =>
      rw [hq] at ha
      rcases List.mem_append.mp ha with ha | ha
      · exact hold ha
      · exact List.mem_singleton.mp ha ▸ hu
  · rcases ho.step_or_stays with ⟨i, -, hs⟩ | ⟨-, hstays, -⟩
    · by_cases hi : d.place = i
      · subst hi
        exact h.there_of_step hs
      · exact h.there_of_stays ho hpass fun t ht => (steps_of_step? hs).task ht hi
    · exact h.there_of_stays ho hpass fun t ht => hstays.task _ _ ht

end Duty

end Porter

end PeerCall
