import PeerCall.Proofs.World.Calls

/-! # Comings and goings

A world that is not left to itself: while its tasks take steps and time passes, clients start calls,
strangers dial and then do as they like, and peers join the network and leave it (`World.Event`).
What comes from outside brings one task at most, with one end of a link that nobody has had before
(`World.Comes`), and leaves alone what is there. What every event keeps holds after any number of
them (`World.play?_induct`). -/

namespace PeerCall

namespace World

/-! ## Events -/

/-- Opens a stream for somebody who then does as a script says. -/
def dial (w : World) (dialer dest : PeerId) (protocol : ProtocolId) (owner : Nat)
    (actions : List Script.Action) : Except StreamError World :=
  match w.network.dial dialer dest protocol w.links.length with
  | .error e => .error e
  | .ok network =>
    let (link, w) := { w with network }.addLink (.ofCapacity linkCapacity)
    .ok (w.spawn (.script owner ⟨protocol, dialer, link⟩ { side := .left, actions }))

/-- What may happen next. -/
inductive Event
  | move (mv : Move)
  | call (client : Client) (call : Call) (channel : Nat)
  | dial (dialer dest : PeerId) (protocol : ProtocolId) (owner : Nat)
    (actions : List Script.Action)
  | join (p : PeerId)
  | leave (p : PeerId)

/-- Whether an event is a step of the task at a place. -/
def Event.isStep (k : Nat) : Event → Bool
  | move (.step i) => i == k
  | _ => false

/-- The world after an event, or `none` if there is no such event. -/
def event? (w : World) : Event → Option World
  | .move mv => w.move? mv
  | .call client call channel => (w.start client call channel).toOption
  | .dial dialer dest protocol owner actions =>
    (w.dial dialer dest protocol owner actions).toOption
  | .join p => some { w with network := (w.network.join p).2 }
  | .leave p => some { w with network := w.network.leave p }

def play? : List Event → World → Option World
  | [], w => some w
  | ev :: events, w =>
    match w.event? ev with
    | none => none
    | some w => play? events w

/-- All that somebody sees who looks at the world before and after each event. -/
def seen (look : World → Event → World → List α) : List Event → World → List α
  | [], _ => []
  | ev :: events, w =>
    match w.event? ev with
    | none => []
    | some w' => look w ev w' ++ seen look events w'

/-- What the tasks do in an event. -/
def Event.deeds (w w' : World) : Event → List Deed
  | move mv => w.movesDeeds w' mv
  | _ => []

/-- All that the tasks do. -/
def history : List Event → World → List Deed := seen fun w ev w' => ev.deeds w w'

/-- The streams that come into an inbox. -/
def comers (inbox : Nat) : List Event → World → List Arrival :=
  seen fun w _ w' => (w'.network.queue inbox).drop (w.network.queue inbox).length

/-- The streams that are taken out of an inbox. -/
def taken (inbox : Nat) : List Event → World → List Arrival :=
  seen fun w _ w' => (w.network.queue inbox).take
    ((w.network.queue inbox).length - (w'.network.queue inbox).length)

/-! ## What an event is -/

/-- What may come from outside. -/
inductive Comes (w : World) : World → Prop
  | caller {channel c} (hc : (Task.call channel c).end? = none) :
    Comes w ((w.modifyChannel channel Channel.addSender).spawn (.call channel c))
  | stranger {dialer dest protocol network owner actions}
    (hd : w.network.dial dialer dest protocol w.links.length = .ok network) :
    Comes w ({ w with network, links := w.links ++ [Link.ofCapacity linkCapacity] }.spawn
      (.script owner ⟨protocol, dialer, w.links.length⟩ { side := .left, actions }))
  | joined {p} : Comes w { w with network := (w.network.join p).2 }
  | parted {p} : Comes w { w with network := w.network.leave p }

/-- What may happen in an event. -/
inductive Occurs (w : World) : Event → World → Prop
  | step {i w'} (h : w.step? i = some w') : Occurs w (.move (.step i)) w'
  | passed {mv m} (hmv : mv.isStep = false) (hm : w.moment.Before m) :
    Occurs w (.move mv) { w with moment := m }
  | came {ev w'} (hev : ∀ mv, ev ≠ .move mv) (h : w.Comes w') : Occurs w ev w'

variable {w w' : World} {ev : Event} {events : List Event} {i j k link inbox : Nat} {s : Side}
  {l : Link} {a : Arrival}

theorem comes_of_dial {dialer dest : PeerId} {protocol : ProtocolId} {owner : Nat}
    {actions : List Script.Action}
    (h : w.dial dialer dest protocol owner actions = .ok w') : w.Comes w' := by
  unfold dial at h
  split at h
  · cases h
  · cases h
    exact .stranger ‹_›

theorem comes_of_start {client : Client} {call : Call} {channel : Nat}
    (h : w.start client call channel = .ok w') : w.Comes w' := by
  unfold start at h
  split at h
  · cases h
  · cases h
    exact .caller (end?_of_taskOf _ ‹_›)

theorem ok_of_toOption {r : Except ε World} (h : r.toOption = some w') : r = .ok w' := by
  cases r with
  | error => cases h
  | ok => exact congrArg _ (Option.some.inj h)

theorem occurs_of_event? (h : w.event? ev = some w') : w.Occurs ev w' := by
  cases ev with
  | call => exact .came nofun (comes_of_start (ok_of_toOption h))
  | dial => exact .came nofun (comes_of_dial (ok_of_toOption h))
  | join =>
    cases h
    exact .came nofun .joined
  | leave =>
    cases h
    exact .came nofun .parted
  | move mv =>
    cases mv with
    | step i => exact .step h
    | clock now =>
      simp only [event?, move?] at h
      split at h
      · rename_i hle
        cases h
        exact .passed rfl ⟨hle, fun _ => id⟩
      · cases h
    | fire t =>
      cases h
      exact .passed rfl ⟨Nat.le_refl _, fun _ => List.mem_cons_of_mem t⟩

/-! ## Any number of events -/

theorem play?_cons (h : play? (ev :: events) w = some w') :
    ∃ w₁, w.event? ev = some w₁ ∧ play? events w₁ = some w' := by
  rw [play?] at h
  split at h
  · cases h
  · exact ⟨_, ‹_›, h⟩

theorem play?_concat (h : play? events w = some w') :
    play? (events ++ [ev]) w = w'.event? ev := by
  induction events generalizing w with
  | nil =>
    cases h
    rw [List.nil_append, play?]
    cases w'.event? ev <;> rfl
  | cons ev' events ih =>
    obtain ⟨w₁, hw, h⟩ := play?_cons h
    rw [List.cons_append, play?, hw]
    exact ih h

theorem seen_concat {look : World → Event → World → List α} {w'' : World}
    (h : play? events w = some w') (hev : w'.event? ev = some w'') :
    seen look (events ++ [ev]) w = seen look events w ++ look w' ev w'' := by
  induction events generalizing w with
  | nil =>
    cases h
    simp only [List.nil_append, seen, hev, List.append_nil]
  | cons ev' events ih =>
    obtain ⟨w₁, hw, h⟩ := play?_cons h
    rw [List.cons_append, seen, seen, hw]
    simp only [ih h, List.append_assoc]

/-- What holds at first, and what every event keeps, holds after any number of them. -/
theorem play?_induct {P : List Event → World → Prop} (hnil : P [] w)
    (hconcat : ∀ past w' ev w'', play? past w = some w' → P past w' → w'.event? ev = some w'' →
      P (past ++ [ev]) w'')
    (h : play? events w = some w') : P events w' := by
  -- from what has happened and holds so far, on through what is still to happen
  suffices hrest : ∀ past w₁, play? past w = some w₁ → P past w₁ → play? events w₁ = some w' →
      P (past ++ events) w' from hrest [] w rfl hnil h
  clear h
  induction events with
  | nil =>
    intro past w₁ _ hP h
    cases h
    rwa [List.append_nil]
  | cons ev events ih =>
    intro past w₁ hpast hP h
    obtain ⟨w₂, hev, h⟩ := play?_cons h
    rw [List.append_cons]
    exact ih _ w₂ ((play?_concat hpast).trans hev) (hconcat past w₁ ev w₂ hpast hP hev) h

/-! ## What is left alone -/

/-- Nobody comes to hold the right end of a link, and no stream comes or goes on it. -/
structure Overlooks (w w' : World) (link : Nat) : Prop where
  holds : ∀ i, w'.Holds i link .right → w.Holds i link .right
  arrivals : w'.network.arrivals link = w.network.arrivals link
  awaits : ∀ inbox a, a.link = link → w.network.Awaits inbox a → w'.network.Awaits inbox a

/-- Who does not accept on a link overlooks it. -/
theorem Steps.overlooks (h : Steps w i w') (hlt : link < w.links.length)
    (hrec : ∀ inbox a, w.Receives i inbox a → a.link ≠ link) : w.Overlooks w' link where
  holds j hj := by
    rcases h.holds hj with hh | ⟨rfl, -⟩ | ⟨-, -, inbox, a, ha, hl⟩
    · exact hh
    · exact absurd hlt (Nat.lt_irrefl _)
    · exact absurd hl (hrec inbox a ha)
  arrivals := by
    rcases h.network with hn | ⟨_, _, _, hd, -⟩ | ⟨inbox, a, ha, hn⟩
    · rw [hn]
    · exact Network.arrivals_dial_of_ne hd (Nat.ne_of_gt hlt)
    · exact Network.arrivals_receive_of_ne hn (hrec inbox a ha)
  awaits inbox a hl ha := by
    rcases h.network with hn | ⟨_, _, _, hd, -⟩ | ⟨inbox', a', ha', hn⟩
    · exact hn ▸ ha
    · exact ha.dial hd (hl ▸ Nat.ne_of_gt hlt)
    · exact ha.receive hn (hl ▸ hrec inbox' a' ha')

/-- Tasks, links and arrivals that are there are left as they are. -/
structure Stays (w w' : World) : Prop where
  task : ∀ (i : Nat) (t : Task), w.tasks[i]? = some t → w'.tasks[i]? = some t
  link : ∀ (n : Nat) (l : Link), w.links[n]? = some l → w'.links[n]? = some l
  holds : ∀ i n s, n < w.links.length → w'.Holds i n s → w.Holds i n s
  overlooks : ∀ n, n < w.links.length → w.Overlooks w' n
  /-- Nobody comes to accept. -/
  acceptor : ∀ (i inbox : Nat) (intake : Intake), w'.tasks[i]? = some (.accept inbox intake) →
    w.tasks[i]? = some (.accept inbox intake)
  inOrder : w.InOrder → w'.InOrder
  channels : w'.channels.length = w.channels.length
  before : w.moment.Before w'.moment

theorem Stays.length_links (h : w.Stays w') : w.links.length ≤ w'.links.length := by
  apply Nat.le_of_not_lt
  intro hlt
  have hthere := h.link _ _ (List.getElem?_eq_getElem hlt)
  exact Nat.lt_irrefl _ (List.getElem?_eq_some_iff.mp hthere).1

theorem stays_later {m : Moment} (hm : w.moment.Before m) : w.Stays { w with moment := m } where
  task _ _ := id
  link _ _ := id
  holds _ _ _ _ := id
  overlooks _ _ := ⟨fun _ => id, rfl, fun _ _ _ => id⟩
  acceptor _ _ _ := id
  inOrder hw := hw.later m
  channels := rfl
  before := hm

namespace Comes

/-- What becomes of the network. -/
theorem network (h : w.Comes w') : w'.network = w.network ∨
    (∃ dialer dest protocol, w.network.dial dialer dest protocol w.links.length = .ok w'.network ∧
      w'.links = w.links ++ [.ofCapacity linkCapacity]) ∨
    (∃ p, w'.network = (w.network.join p).2) ∨ ∃ p, w'.network = w.network.leave p := by
  cases h with
  | caller => exact .inl rfl
  | stranger hd => exact .inr (.inl ⟨_, _, _, hd, rfl⟩)
  | joined => exact .inr (.inr (.inl ⟨_, rfl⟩))
  | parted => exact .inr (.inr (.inr ⟨_, rfl⟩))

/-- Who holds an end held it before, or has come with the near end of a new link. -/
theorem holds (h : w.Comes w') (hh : w'.Holds j link s) : w.Holds j link s ∨
    link = w.links.length ∧ link < w'.links.length ∧ s = .left := by
  cases h with
  | joined | parted => exact .inl hh
  | caller hc => exact .inl (holds_of_spawn_call hc hh)
  | stranger =>
    rcases holds_spawn hh with hh | ⟨-, he⟩
    · exact .inl hh
    · cases he
      exact .inr ⟨rfl, by simp [spawn], rfl⟩

theorem length_links (h : w.Comes w') : w.links.length ≤ w'.links.length := by
  cases h with
  | joined | parted | caller => exact Nat.le_refl _
  | stranger => exact List.length_append ▸ Nat.le_add_right ..

theorem arrivals (h : w.Comes w') (hlink : link ≠ w.links.length) :
    w'.network.arrivals link = w.network.arrivals link := by
  rcases h.network with hn | ⟨_, _, _, hd, -⟩ | ⟨p, hn⟩ | ⟨p, hn⟩
  · rw [hn]
  · exact Network.arrivals_dial_of_ne hd (Ne.symm hlink)
  · rw [hn, Network.arrivals_join]
  · rw [hn]
    rfl

theorem inOrder (h : w.Comes w') (hw : w.InOrder) : w'.InOrder where
  held j link s hh := by
    rcases h.holds hh with hh | ⟨-, hlt, -⟩
    · exact Nat.lt_of_lt_of_le (hw.held _ _ _ hh) h.length_links
    · exact hlt
  queued link hq := by
    by_cases hlink : link = w.links.length
    · rcases h.network with hn | ⟨_, _, _, -, hl⟩ | ⟨p, hn⟩ | ⟨p, hn⟩
      · exact absurd (hw.arrivals (Nat.le_of_eq hlink.symm)) (hn ▸ hq)
      · rw [hlink, hl, List.length_append]
        exact Nat.lt_succ_self _
      · rw [hn, Network.arrivals_join] at hq
        exact absurd (hw.arrivals (Nat.le_of_eq hlink.symm)) hq
      · rw [hn] at hq
        exact absurd (hw.arrivals (Nat.le_of_eq hlink.symm)) hq
    · exact Nat.lt_of_lt_of_le (hw.queued _ (h.arrivals hlink ▸ hq)) h.length_links

theorem stays (h : w.Comes w') : w.Stays w' where
  task i t ht := by
    cases h with
    | joined | parted => exact ht
    | caller | stranger =>
      exact (List.getElem?_append_left (List.getElem?_eq_some_iff.mp ht).1).trans ht
  link n l hl := by
    cases h with
    | joined | parted | caller => exact hl
    | stranger => exact (List.getElem?_append_left (List.getElem?_eq_some_iff.mp hl).1).trans hl
  holds i n s hn hh := by
    rcases h.holds hh with hh | ⟨rfl, -⟩
    · exact hh
    · exact absurd hn (Nat.lt_irrefl _)
  overlooks n hn := by
    refine ⟨fun i hi => ?_, h.arrivals (Nat.ne_of_lt hn), fun inbox a ha haw => ?_⟩
    · rcases h.holds hi with hi | ⟨-, -, hs⟩
      · exact hi
      · cases hs
    · rcases h.network with hw | ⟨_, _, _, hd, -⟩ | ⟨p, hw⟩ | ⟨p, hw⟩
      · exact hw ▸ haw
      · exact haw.dial hd (ha ▸ Nat.ne_of_gt hn)
      · exact hw ▸ haw.join p
      · exact hw ▸ ⟨haw.arrivals, haw.place⟩
  acceptor i inbox intake ht := by
    cases h with
    | joined | parted => exact ht
    | caller | stranger =>
      simp only [spawn, List.getElem?_append] at ht
      split at ht
      · exact ht
      · cases List.mem_singleton.mp (List.mem_of_getElem? ht)
  inOrder := h.inOrder
  channels := by
    cases h with
    | caller => exact List.length_modify ..
    | joined | parted | stranger => rfl
  before := by
    cases h <;> exact .refl _

end Comes

/-- An event is the step of a task, or leaves alone what is there and is nobody's deed. -/
theorem Occurs.step_or_stays (h : w.Occurs ev w') :
    (∃ i, ev = .move (.step i) ∧ w.step? i = some w') ∨
      (∀ k, ev.isStep k = false) ∧ w.Stays w' ∧ ev.deeds w w' = [] := by
  cases h with
  | step hs => exact .inl ⟨_, rfl, hs⟩
  | @passed mv m hmv hm =>
    refine .inr ⟨fun k => ?_, stays_later hm, ?_⟩ <;> cases mv with
    | step => cases hmv
    | clock | fire => rfl
  | came hev h =>
    refine .inr ⟨fun k => ?_, h.stays, ?_⟩ <;> cases ev with
    | move mv => exact absurd rfl (hev mv)
    | call | dial | join | leave => rfl

theorem Occurs.length_links (h : w.Occurs ev w') : w.links.length ≤ w'.links.length := by
  rcases h.step_or_stays with ⟨i, -, hs⟩ | ⟨-, hstays, -⟩
  · exact (steps_of_step? hs).length_links
  · exact hstays.length_links

theorem Occurs.inOrder (h : w.Occurs ev w') (hw : w.InOrder) : w'.InOrder := by
  rcases h.step_or_stays with ⟨i, -, hs⟩ | ⟨-, hstays, -⟩
  · exact (steps_of_step? hs).inOrder hw
  · exact hstays.inOrder hw

/-- Nobody is invoked on a link that there was not. -/
theorem Occurs.invokedAt (h : w.Occurs ev w') (hw : w.InOrder) (hlink : w.links.length ≤ link) :
    invokedAt link (ev.deeds w w') = [] := by
  rcases h.step_or_stays with ⟨i, rfl, -⟩ | ⟨-, -, hnil⟩
  · exact hw.invokedAt hlink
  · rw [hnil]
    rfl

theorem Occurs.network (h : w.Occurs ev w') : w.network.Becomes w'.network := by
  cases h with
  | passed => exact .same
  | step hs =>
    rcases (steps_of_step? hs).network with hn | ⟨_, _, _, hd, -⟩ | ⟨_, _, -, hn⟩
    · exact hn ▸ .same
    · exact .dialed hd
    · exact .received hn
  | came _ hc =>
    rcases hc.network with hn | ⟨_, _, _, hd, -⟩ | ⟨_, hn⟩ | ⟨_, hn⟩
    · exact hn ▸ .same
    · exact .dialed hd
    · exact hn ▸ .joined
    · exact hn ▸ .parted

theorem Occurs.before (h : w.Occurs ev w') : w.moment.Before w'.moment := by
  rcases h.step_or_stays with ⟨i, -, hs⟩ | ⟨-, hstays, -⟩
  · exact before_of_step? hs
  · exact hstays.before

/-- What an attempt finds at an address is not changed by anything that happens. -/
theorem Occurs.endpoints (h : w.Occurs ev w') : w'.endpoints = w.endpoints := by
  cases h with
  | step hs => cases steps_of_step? hs <;> rfl
  | passed => rfl
  | came _ hc => cases hc <;> rfl

theorem Event.isStep_step (i : Nat) : Event.isStep i (.move (.step i)) = true :=
  beq_self_eq_true i

theorem isStep_eq_false (h : Event.isStep k (.move (.step i)) = false) : i ≠ k := by
  rintro rfl
  cases (Event.isStep_step i).symm.trans h

/-- What is not its own step leaves a task alone, and is not its deed. -/
theorem Occurs.spares {t : Task} (h : w.Occurs ev w') (hk : ev.isStep k = false)
    (ht : w.tasks[k]? = some t) : w'.tasks[k]? = some t ∧ linksOf k (ev.deeds w w') = [] ∧
      callsOf k (ev.deeds w w') = [] := by
  rcases h.step_or_stays with ⟨i, rfl, hs⟩ | ⟨-, hstays, hnil⟩
  · exact (steps_of_step? hs).spares (isStep_eq_false hk) ht
  · rw [hnil]
    exact ⟨hstays.task _ _ ht, rfl, rfl⟩

/-- What is not done by who holds the left end of a link is, to the link, done at the right. -/
theorem Occurs.acted (h : w.Occurs ev w') (hleft : ∀ i, w.Holds i link .left → ev.isStep i = false)
    (hl : w.links[link]? = some l) : ∃ l', w'.links[link]? = some l' ∧ l.Acted .right l' := by
  rcases h.step_or_stays with ⟨i, rfl, hs⟩ | ⟨-, hstays, -⟩
  · exact (steps_of_step? hs).acted_right hl fun hh => isStep_eq_false (hleft i hh) rfl
  · exact ⟨l, hstays.link _ _ hl, .refl ..⟩

/-- Nobody comes to hold the left end of a link that there is. -/
theorem Occurs.held (h : w.Occurs ev w') (hlink : link < w.links.length)
    (hh : w'.Holds i link .left) : w.Holds i link .left := by
  rcases h.step_or_stays with ⟨_, rfl, hs⟩ | ⟨-, hstays, -⟩
  · exact (steps_of_step? hs).held hlink hh
  · exact hstays.holds _ _ _ hlink hh

/-- A call that is done is handed back, and opens no stream. -/
theorem Handing.occurs {channel : Nat} {c : Call} {ds : List Deed}
    (h : w.Handing k channel c ds) (ho : w.Occurs ev w') :
    w'.Handing k channel c (ds ++ ev.deeds w w') ∧ linksOf k (ev.deeds w w') = [] := by
  rcases ho.step_or_stays with ⟨i, rfl, hs⟩ | ⟨-, hstays, hnil⟩
  · exact h.step hs
  · rw [hnil, List.append_nil]
    refine ⟨?_, rfl⟩
    cases h with
    | waiting ht hn => exact .waiting (hstays.task _ _ ht) hn
    | handed ht hn => exact .handed (hstays.task _ _ ht) hn

end World

end PeerCall
