import PeerCall.Proofs.World.Calls

/-! # The far end of a call's link

Who is called accepts the link once at most, and answers on it or gives it up. So either nobody has
taken anything yet of the request on a link, or one task answers on it, or nobody ever will
(`Errand.FarEnd`). Whatever any task does that does not hold the near end, the far end stays so
(`Errand.FarEnd.step`). -/

namespace PeerCall

/-- A call by a peer to one that serves: what is asked with, and who answers it. -/
structure Errand where
  call : Call
  /-- What the caller encodes with. -/
  codec : Codec
  dialer : PeerId
  /-- How the caller reaches others. -/
  reach : Reach
  site : Site
  /-- What the server's side decodes with. -/
  farCodec : Codec
  protocol : ProtocolId

namespace Errand

open World

variable (e : Errand)

/-- The bytes of the request, as far as it can be sent. -/
def request : Bytes := Chore.bytes (Exchange.request e.codec e.call)

/-- The call goes over the network, and whoever accepts the streams to the destination answers
them. -/
structure Served (w : World) : Prop where
  onNetwork : e.reach = .network
  accepted : ∀ (inbox i : Nat) (intake : Intake), w.network.inbox? e.call.dest = some inbox →
    w.tasks[i]? = some (.accept inbox intake) → intake = .serve e.site e.farCodec e.protocol

/-- How the far end of a link stands on which these bytes are still to come, and these invocations
were made. -/
inductive FarEnd (w : World) (link : Nat) (ahead : Bytes) : List Note → Prop
  | waiting {inbox a} (hi : w.network.inbox? e.call.dest = some inbox)
    (ha : w.network.Awaits inbox a) (hl : a.link = link) (hd : a.dialer = e.dialer)
    (hs : ∀ i, ¬ w.Holds i link .right) (hb : ahead = e.request) : FarEnd w link ahead []
  | answering {i r notes} (ht : w.tasks[i]? = some (.respond e.site.number link r))
    (hs : ∀ j, w.Holds j link .right → j = i) (hq : w.network.arrivals link = [])
    (hr : r.Heard e.codec e.call ahead notes) (hc : r.codec = e.farCodec) (hp : r.peer = e.dialer)
    (ho : ∀ n ∈ notes, n.owner = e.site.number) : FarEnd w link ahead notes
  | away (hs : ∀ i, ¬ w.Holds i link .right) (hq : w.network.arrivals link = []) :
    FarEnd w link ahead []

/-- An invocation by the server that was called, for the caller, of what the call asks for. -/
structure Noted (n : Note) : Prop where
  owner : n.owner = e.site.number
  peer : n.invocation.peer = e.dialer
  request : ∃ service, e.call.Asks e.codec service n.invocation.args ∧
    e.farCodec.decode .serviceId service = .ok n.invocation.service

variable {e} {w w' : World} {i link : Nat} {l : Link} {ahead : Bytes} {notes : List Note}

theorem FarEnd.noted (h : e.FarEnd w link ahead notes) :
    notes = [] ∨ ∃ n, notes = [n] ∧ e.Noted n := by
  cases h with
  | waiting | away => exact .inl rfl
  | answering _ _ _ hr hc hp ho =>
    rcases hr.asked with hn | ⟨n, rfl, ha⟩
    · exact .inl hn
    · refine .inr ⟨n, rfl, ho n List.mem_cons_self, ha.peer.trans hp, ?_⟩
      exact hc ▸ ha.request

/-- Who was invoked has the whole request. -/
theorem FarEnd.whole (h : e.FarEnd w link ahead notes) (hn : notes ≠ []) :
    Chore.fault? (Exchange.request e.codec e.call) = none ∧ ahead = [] := by
  cases h with
  | waiting | away => exact absurd rfl hn
  | answering _ _ _ hr => exact hr.whole hn

theorem FarEnd.later (h : e.FarEnd w link ahead notes) (m : Moment) :
    e.FarEnd { w with moment := m } link ahead notes := by
  cases h with
  | waiting hi ha hl hd hs hb => exact .waiting hi ha hl hd hs hb
  | answering ht hs hq hr hc hp ho => exact .answering ht hs hq hr hc hp ho
  | away hs hq => exact .away hs hq

theorem Served.step (h : e.Served w) (hs : w.Steps i w') : e.Served w' where
  onNetwork := h.onNetwork
  accepted inbox j intake hi ht := h.accepted inbox j intake (hs.inbox? _ ▸ hi) (hs.acceptor ht)

/-! ## Steps -/

/-- Who neither holds the far end nor accepts the link leaves the far end as it is. -/
theorem FarEnd.spared (h : e.FarEnd w link ahead notes) (hs : w.Steps i w')
    (hlt : link < w.links.length) (hright : ¬ w.Holds i link .right)
    (hrec : ∀ inbox a, w.Receives i inbox a → a.link ≠ link) : e.FarEnd w' link ahead notes := by
  have hheld (j : Nat) (hj : w'.Holds j link .right) : w.Holds j link .right := by
    rcases hs.holds hj with hh | ⟨rfl, -⟩ | ⟨-, -, inbox, a, ha, hl⟩
    · exact hh
    · exact absurd hlt (Nat.lt_irrefl _)
    · exact absurd hl (hrec inbox a ha)
  have harrivals (hq : w.network.arrivals link = []) : w'.network.arrivals link = [] := by
    rcases hs.network with hn | ⟨_, _, _, hd, -⟩ | ⟨inbox, a, ha, hn⟩
    · rw [hn, hq]
    · rw [Network.arrivals_dial_of_ne hd (Nat.ne_of_gt hlt), hq]
    · rw [Network.arrivals_receive_of_ne hn (hrec inbox a ha), hq]
  cases h with
  | @waiting inbox a hi ha hl hd hnone hb =>
    refine .waiting ((hs.inbox? _).trans hi) ?_ hl hd (fun j hj => hnone j (hheld j hj)) hb
    rcases hs.network with hn | ⟨_, _, _, hdial, -⟩ | ⟨inbox', a', ha', hn⟩
    · exact hn ▸ ha
    · exact ha.dial hdial (hl ▸ Nat.ne_of_gt hlt)
    · exact ha.receive hn (hl ▸ hrec inbox' a' ha')
  | @answering j r _ ht hsole hq hr hc hp ho =>
    have hji : j ≠ i := by
      rintro rfl
      exact hright ⟨_, ht, rfl⟩
    have hsole' (j' : Nat) (hj : w'.Holds j' link .right) : j' = j := hsole j' (hheld j' hj)
    exact .answering (hs.task ht hji) hsole' (harrivals hq) hr hc hp ho
  | away hnone hq => exact .away (fun j hj => hnone j (hheld j hj)) (harrivals hq)

/-- Who accepts the link answers on it, or gives it up. -/
theorem FarEnd.accepted (h : e.FarEnd w link ahead notes) (hserved : e.Served w)
    (hs : w.Steps i w') {inbox : Nat} {a : Arrival} (hrec : w.Receives i inbox a)
    (hl : a.link = link) : e.FarEnd w' link ahead notes := by
  subst hl
  cases h with
  | answering _ _ hq | away _ hq => exact absurd hq hrec.arrivals
  | @waiting inbox' a' hi ha hl hd hnone hb =>
    obtain ⟨⟨intake, ht⟩, network, hn⟩ := hrec
    obtain ⟨rfl, rfl, hq⟩ := ha.received hn hl.symm
    obtain rfl := hserved.accepted _ _ _ hi ht
    cases hs with
    | @accepted _ _ _ a _ _ ht' hn' =>
      cases ht.symm.trans ht'
      cases hn.symm.trans hn'
      refine .answering (List.getElem?_concat_length ..) (fun j hj => ?_) hq
        (Responder.Fresh.heard ⟨rfl, rfl, rfl⟩ hb) rfl hd (fun _ hn => by cases hn)
      rcases holds_spawn hj with hh | ⟨hj, -⟩
      · exact absurd hh (hnone j)
      · exact hj
    | turnedAway ht' hn' =>
      cases ht.symm.trans ht'
      cases hn.symm.trans hn'
      exact .away hnone hq
    | played ht' => cases ht.symm.trans ht'
    | closed ht' hn' =>
      cases ht.symm.trans ht'
      exact absurd hn (hn' _ _)
    | _ => cases ht.symm.trans ‹w.tasks[i]? = some _›

private theorem owner_of_noted {turn : Responder.Turn} (h : n ∈ turn.noted owner m) :
    n.owner = owner := by
  obtain ⟨_, -, rfl⟩ := List.mem_map.mp h
  rfl

/-- Who holds the far end is the one task that answers. -/
theorem FarEnd.answered {todo : Bytes} (h : e.FarEnd w link (l.flow .left ++ todo) notes)
    (hl : w.links[link]? = some l) (hs : w.Steps i w') (hright : w.Holds i link .right) :
    ∃ l', w'.links[link]? = some l' ∧
      e.FarEnd w' link (l'.flow .left ++ todo) (notes ++ invokedAt link (w.deeds w' i)) ∧
      (notes ++ invokedAt link (w.deeds w' i) = [] → l'.flow .right = l.flow .right) := by
  cases h with
  | waiting _ _ _ _ hnone | away hnone => exact absurd hright (hnone i)
  | @answering j r _ ht hsole hq hr hc hp ho =>
    obtain rfl := hsole i hright
    obtain ⟨l₀, turn, hl₀, hturn, hw'⟩ := hs.of_responding ht
    cases hl.symm.trans hl₀
    have hm := Responder.moves_of_step? hr.sound hturn
    have hlen : link < w.links.length := (List.getElem?_eq_some_iff.mp hl).1
    have hnew : invokedAt link (w.deeds w' i) = turn.noted e.site.number w.moment := by
      rw [invokedAt_deeds, answers?, ht, if_pos rfl, hw']
      exact List.drop_left
    rw [hnew]
    subst hw'
    refine ⟨turn.link, List.getElem?_set_self hlen, ?_, fun hn => ?_⟩
    · have ht' := List.getElem?_set_self (a := Task.respond e.site.number link turn.responder)
        (List.getElem?_eq_some_iff.mp ht).1
      refine .answering ht' ?_ hq (hr.step hm e.site.number) (hm.same.codec.trans hc)
        (hm.same.peer.trans hp) ?_
      · intro j hj
        rcases holds_setTask hj with ⟨-, hh⟩ | ⟨rfl, -⟩
        · exact hsole j hh
        · rfl
      · intro n hn
        rcases List.mem_append.mp hn with hn | hn
        · exact ho n hn
        · exact owner_of_noted hn
    · obtain rfl := (List.append_eq_nil_iff.mp hn).1
      exact hr.quiet hm

/-- Whatever a task does that does not hold the near end, the far end takes off the link what it
reads, is invoked once at most, and writes nothing before. -/
theorem FarEnd.step {todo : Bytes} (h : e.FarEnd w link (l.flow .left ++ todo) notes)
    (hserved : e.Served w) (hl : w.links[link]? = some l) (hs : w.Steps i w')
    (hleft : ¬ w.Holds i link .left) :
    ∃ l', w'.links[link]? = some l' ∧
      e.FarEnd w' link (l'.flow .left ++ todo) (notes ++ invokedAt link (w.deeds w' i)) ∧
      (notes ++ invokedAt link (w.deeds w' i) = [] → l'.flow .right = l.flow .right) := by
  by_cases hright : w.Holds i link .right
  · exact h.answered hl hs hright
  rw [invokedAt_of_not_holds hright, List.append_nil]
  obtain ⟨l', hl', hcase⟩ := hs.link hl
  have hflow (s : Side) : l'.flow s = l.flow s := by
    rcases hcase with rfl | ⟨s', hh, -⟩ | ⟨rfl, -⟩
    · rfl
    · cases s' with
      | left => exact absurd hh hleft
      | right => exact absurd hh hright
    · exact Link.flow_abort ..
  refine ⟨l', hl', ?_, fun _ => hflow .right⟩
  rw [hflow]
  by_cases hrec : ∃ inbox a, w.Receives i inbox a ∧ a.link = link
  · obtain ⟨inbox, a, hrec, ha⟩ := hrec
    exact h.accepted hserved hs hrec ha
  · refine h.spared hs (List.getElem?_eq_some_iff.mp hl).1 hright fun inbox a ha hlink => ?_
    exact hrec ⟨inbox, a, ha, hlink⟩

end Errand

end PeerCall
