import PeerCall.Proofs.World.Porter

/-! # What becomes of a stream

A stream that waits to be taken in is known to its dialer alone (`Porter.Waiting`). Once it is taken
there is one task that answers on it, for the dialer (`Porter.Served`), or its far end was given up
as failed, and nobody ever reads there (`Porter.TurnedAway`). Which of the two it is depends on the
protocol alone, and nothing changes it (`Porter.Kept.occurs`). -/

namespace PeerCall

namespace World

variable {w w' : World} {i link : Nat} {l : Link}

/-- A link of which nobody has the right end, and that nobody accepts, is only acted on from the
left. -/
theorem Steps.acted_left (h : Steps w i w') (hl : w.links[link]? = some l)
    (hr : ∀ j, ¬ w.Holds j link .right)
    (hrec : ∀ inbox a, w.Receives i inbox a → a.link ≠ link) :
    ∃ l', w'.links[link]? = some l' ∧ l.Acted .left l' := by
  obtain ⟨l', hl', rfl | ⟨s, hh, ha⟩ | ⟨-, inbox, a, ha, he⟩⟩ := h.link hl
  · exact ⟨_, hl', .refl ..⟩
  · cases s with
    | left => exact ⟨l', hl', ha⟩
    | right => exact absurd hh (hr i)
  · exact absurd he (hrec inbox a ha)

/-- How a link was at first: as it stands, or as it is going to be made. -/
def origin (w : World) (link : Nat) : Link := w.links[link]?.getD (.ofCapacity linkCapacity)

end World

namespace Porter

open World

variable (d : Porter)

/-- A stream that waits. On its link, which began like this, only the dialer has done anything. -/
structure Waiting (l₀ : Link) (ds : List Deed) (w : World) (a : Arrival) : Prop where
  untaken : d.Untaken w a
  link : ∃ l, w.links[a.link]? = some l ∧ l₀.Acted .left l
  uninvoked : invokedAt a.link ds = []

/-- A stream that was handed to a task, to answer its dialer. No other task has its far end. -/
structure Served (ds : List Deed) (w : World) (a : Arrival) : Prop where
  gone : w.network.arrivals a.link = []
  task : ∃ i r, w.tasks[i]? = some (.respond d.site.number a.link r) ∧
    (∀ j, w.Holds j a.link .right → j = i) ∧
    r.server = d.site.server ∧ r.codec = d.codec ∧ r.peer = a.dialer ∧ r.Sound
  noted : ∀ n ∈ invokedAt a.link ds,
    n.owner = d.site.number ∧ n.invocation.peer = a.dialer

/-- A stream that was given up as failed. Before that and since then only the dialer has done
anything on its link: not a byte was taken off it at the far end. -/
structure TurnedAway (a : Arrival) (l₀ : Link) (ds : List Deed) (w : World) : Prop where
  gone : w.network.arrivals a.link = []
  unheld : ∀ i, ¬ w.Holds i a.link .right
  link : ∃ l₁ l, w.links[a.link]? = some l ∧ l₀.Acted .left l₁ ∧ (l₁.abort .right).Acted .left l
  uninvoked : invokedAt a.link ds = []

variable {d} {l₀ : Link} {w w' : World} {ev : Event} {a : Arrival} {ds : List Deed} {i : Nat}

/-- Nobody accepts on a link on which no stream waits. -/
private theorem not_receives {link : Nat} (hq : w.network.arrivals link = []) (inbox : Nat)
    (b : Arrival) (hr : w.Receives i inbox b) : b.link ≠ link := by
  rintro rfl
  exact hr.arrivals hq

/-! ## Streams that wait -/

theorem Waiting.occurs (h : d.Waiting l₀ ds w a) (hw : w.InOrder) (ho : w.Occurs ev w')
    (hq : a ∈ w'.network.queue d.inbox) : d.Waiting l₀ (ds ++ ev.deeds w w') w' a := by
  obtain ⟨l, hl, hacted⟩ := h.link
  refine ⟨h.untaken.occurs hw ho hq, ?_, ?_⟩
  · rcases ho.step_or_stays with ⟨i, -, hs⟩ | ⟨-, hstays, -⟩
    · obtain ⟨l', hl', ha⟩ := (steps_of_step? hs).acted_left hl h.untaken.unheld
        (h.untaken.not_receives hs hq)
      exact ⟨l', hl', hacted.trans ha⟩
    · exact ⟨l, hstays.link _ _ hl, hacted⟩
  · rw [invokedAt_append, h.uninvoked, List.nil_append]
    rcases ho.step_or_stays with ⟨i, rfl, -⟩ | ⟨-, -, hnil⟩
    · exact invokedAt_of_not_holds (h.untaken.unheld i)
    · rw [hnil]
      rfl

/-! ## Streams that are served -/

/-- Nobody is invoked when a stream is taken. -/
private theorem Waiting.uninvoked_taken (h : d.Waiting l₀ ds w a) :
    invokedAt a.link (ds ++ w.deeds w' d.place) = [] := by
  rw [invokedAt_append, h.uninvoked, invokedAt_of_not_holds (h.untaken.unheld _)]
  rfl

/-- A stream of the protocol that is taken is handed to a task. -/
theorem Waiting.served (h : d.Waiting l₀ ds w a) (hp : a.protocol = d.protocol) (hd : d.Duty w)
    (hr : w.Receives d.place d.inbox a) (hs : w.step? d.place = some w') :
    d.Served (ds ++ w.deeds w' d.place) w' a := by
  obtain ⟨hn, hw'⟩ := hd.takes hs hr
  have hspawn : w' = { w with network := w'.network, tokens := w.tokens + 1 }.spawn
      (.respond d.site.number a.link (d.site.responder d.codec a (.root w.tokens))) :=
    hw'.trans (if_pos hp)
  refine ⟨(h.untaken.awaits.received hn rfl).2.2, ?_, fun n hmem => ?_⟩
  · rw [hspawn]
    refine ⟨_, _, List.getElem?_concat_length .., fun j hj => ?_, rfl, rfl, rfl,
      FrameReader.sound_start⟩
    rcases holds_spawn hj with hj | ⟨hj, -⟩
    · exact absurd hj (h.untaken.unheld j)
    · exact hj
  · rw [h.uninvoked_taken] at hmem
    cases hmem

theorem Served.step (h : d.Served ds w a) (hw : w.InOrder) (hs : w.Steps i w') :
    d.Served (ds ++ w.deeds w' i) w' a := by
  obtain ⟨k, r, ht, hsole, hserver, hcodec, hpeer, hsound⟩ := h.task
  have hlt : a.link < w.links.length := hw.held k a.link .right ⟨_, ht, rfl⟩
  have hover := hs.overlooks hlt (not_receives h.gone)
  have hgone : w'.network.arrivals a.link = [] := hover.arrivals.trans h.gone
  by_cases hi : i = k
  · subst hi
    obtain ⟨l, turn, hl, hturn, rfl⟩ := hs.of_responding ht
    have hm := Responder.moves_of_step? hsound hturn
    have ht' := List.getElem?_set_self (a := Task.respond d.site.number a.link turn.responder)
      (List.getElem?_eq_some_iff.mp ht).1
    refine ⟨hgone, ⟨i, turn.responder, ht', fun j hj => hsole j (hover.holds j hj),
      hm.same.server.trans hserver, hm.same.codec.trans hcodec, hm.same.peer.trans hpeer,
      hm.sound⟩, fun n hn => ?_⟩
    rw [invokedAt_append, invokedAt_deeds, answers?, ht, if_pos rfl] at hn
    rcases List.mem_append.mp hn with hn | hn
    · exact h.noted n hn
    · rw [List.drop_left] at hn
      exact ⟨(hm.of_noted hn).1, (hm.of_noted hn).2.trans hpeer⟩
  · refine ⟨hgone, ⟨k, r, hs.task ht (Ne.symm hi), fun j hj => hsole j (hover.holds j hj),
      hserver, hcodec, hpeer, hsound⟩, fun n hn => ?_⟩
    rw [invokedAt_append, invokedAt_of_not_holds fun hh => hi (hsole i hh), List.append_nil] at hn
    exact h.noted n hn

theorem Served.occurs (h : d.Served ds w a) (hw : w.InOrder) (ho : w.Occurs ev w') :
    d.Served (ds ++ ev.deeds w w') w' a := by
  rcases ho.step_or_stays with ⟨i, rfl, hs⟩ | ⟨-, hstays, hnil⟩
  · exact h.step hw (steps_of_step? hs)
  · obtain ⟨k, r, ht, hsole, hrest⟩ := h.task
    have hover := hstays.overlooks _ (hw.held k a.link .right ⟨_, ht, rfl⟩)
    rw [hnil, List.append_nil]
    exact ⟨hover.arrivals.trans h.gone,
      ⟨k, r, hstays.task _ _ ht, fun j hj => hsole j (hover.holds j hj), hrest⟩, h.noted⟩

/-! ## Streams that are turned away -/

/-- A stream of another protocol that is taken is given up as failed. -/
theorem Waiting.turnedAway (h : d.Waiting l₀ ds w a) (hp : a.protocol ≠ d.protocol)
    (hd : d.Duty w) (hr : w.Receives d.place d.inbox a) (hs : w.step? d.place = some w') :
    TurnedAway a l₀ (ds ++ w.deeds w' d.place) w' := by
  obtain ⟨hn, hw'⟩ := hd.takes hs hr
  have hreset : w' = { w with network := w'.network,
                              links := w.links.modify a.link (Link.abort .right) } :=
    hw'.trans (if_neg hp)
  obtain ⟨l, hl, hacted⟩ := h.link
  refine ⟨(h.untaken.awaits.received hn rfl).2.2, ?_, ⟨l, l.abort .right, ?_, hacted, .refl ..⟩,
    h.uninvoked_taken⟩
  · rw [hreset]
    exact h.untaken.unheld
  · rw [hreset]
    simp [hl]

theorem TurnedAway.occurs (h : TurnedAway a l₀ ds w) (ho : w.Occurs ev w') :
    TurnedAway a l₀ (ds ++ ev.deeds w w') w' := by
  obtain ⟨l₁, l, hl, hbefore, hafter⟩ := h.link
  have hlt : a.link < w.links.length := (List.getElem?_eq_some_iff.mp hl).1
  rcases ho.step_or_stays with ⟨i, rfl, hs⟩ | ⟨-, hstays, hnil⟩
  · have hsteps := steps_of_step? hs
    have hover := hsteps.overlooks hlt (not_receives h.gone)
    obtain ⟨l', hl', ha⟩ := hsteps.acted_left hl h.unheld (not_receives h.gone)
    refine ⟨hover.arrivals.trans h.gone, fun j hj => h.unheld j (hover.holds j hj),
      ⟨l₁, l', hl', hbefore, hafter.trans ha⟩, ?_⟩
    rw [invokedAt_append, h.uninvoked]
    exact invokedAt_of_not_holds (h.unheld i)
  · have hover := hstays.overlooks _ hlt
    rw [hnil, List.append_nil]
    exact ⟨hover.arrivals.trans h.gone, fun j hj => h.unheld j (hover.holds j hj),
      ⟨l₁, l, hstays.link _ _ hl, hbefore, hafter⟩, h.uninvoked⟩

/-! ## All streams -/

/-- The streams that waited at first, and then those that have come. -/
def arrived (d : Porter) (events : List Event) (w₀ : World) : List Arrival :=
  w₀.network.queue d.inbox ++ comers d.inbox events w₀

/-- What has become of all streams after some events. -/
structure Kept (d : Porter) (w₀ : World) (events : List Event) (w : World) : Prop where
  duty : d.Duty w
  grown : w₀.links.length ≤ w.links.length
  unused : ∀ link, w.links.length ≤ link → invokedAt link (history events w₀) = []
  conserved : d.arrived events w₀ = taken d.inbox events w₀ ++ w.network.queue d.inbox
  waiting : ∀ a ∈ w.network.queue d.inbox,
    d.Waiting (w₀.origin a.link) (history events w₀) w a
  served : ∀ a ∈ taken d.inbox events w₀, a.protocol = d.protocol →
    d.Served (history events w₀) w a
  turnedAway : ∀ a ∈ taken d.inbox events w₀, a.protocol ≠ d.protocol →
    TurnedAway a (w₀.origin a.link) (history events w₀) w

variable {w₀ : World} {events : List Event} {came took : List Arrival}

theorem kept_nil (h : d.Duty w₀) : d.Kept w₀ [] w₀ where
  duty := h
  grown := Nat.le_refl _
  unused _ _ := rfl
  conserved := List.append_nil _
  waiting a ha := by
    have hl := List.getElem?_eq_getElem ((h.untaken a ha).lt h.inOrder)
    exact ⟨h.untaken a ha, ⟨_, hl, by rw [origin, hl]; exact .refl ..⟩, rfl⟩
  served a ha := by cases ha
  turnedAway a ha := by cases ha

theorem Passing.comers_eq (h : d.Passing w w' ev came took) :
    (w'.network.queue d.inbox).drop (w.network.queue d.inbox).length = came := by
  cases h with
  | nothing hq => rw [hq, List.drop_length]
  | arrival hq => rw [hq, List.drop_left]
  | taking _ hq =>
    rw [hq]
    exact List.drop_eq_nil_of_le (Nat.le_succ _)

theorem Passing.taken_eq (h : d.Passing w w' ev came took) :
    (w.network.queue d.inbox).take
      ((w.network.queue d.inbox).length - (w'.network.queue d.inbox).length) = took := by
  cases h with
  | nothing hq => rw [hq, Nat.sub_self, List.take_zero]
  | arrival hq => rw [hq, List.length_append, Nat.sub_add_eq, Nat.sub_self, Nat.zero_sub,
      List.take_zero]
  | taking _ hq =>
    rw [hq, List.length_cons, Nat.add_sub_cancel_left, List.take_one]
    rfl

theorem arrived_concat (hplay : play? events w₀ = some w) (hev : w.event? ev = some w')
    (hpass : d.Passing w w' ev came took) :
    d.arrived (events ++ [ev]) w₀ = d.arrived events w₀ ++ came := by
  rw [arrived, comers, seen_concat hplay hev, hpass.comers_eq, ← List.append_assoc]
  rfl

/-- What leaves the inbox is what was in front of it. -/
theorem Passing.queue_eq (h : d.Passing w w' ev came took) :
    w.network.queue d.inbox ++ came = took ++ w'.network.queue d.inbox := by
  cases h with
  | nothing hq => rw [hq, List.append_nil, List.nil_append]
  | arrival hq => rw [hq, List.nil_append]
  | taking _ hq => rw [hq, List.append_nil, List.singleton_append]

/-- What is taken is the porter's to take. -/
theorem Passing.mem_took (h : d.Passing w w' ev came took) (ha : a ∈ took) :
    ev = .move (.step d.place) ∧ w.Receives d.place d.inbox a ∧ a ∈ w.network.queue d.inbox := by
  cases h with
  | nothing | arrival => cases ha
  | taking hev hq hr =>
    obtain rfl := List.mem_singleton.mp ha
    exact ⟨hev, hr, hq ▸ List.mem_cons_self⟩

/-- A stream that waits has waited before, or has just come. -/
private theorem Kept.waits (h : d.Kept w₀ events w) (ho : w.Occurs ev w')
    (hpass : d.Passing w w' ev came took) (ha : a ∈ w'.network.queue d.inbox) :
    d.Waiting (w₀.origin a.link) (history events w₀ ++ ev.deeds w w') w' a := by
  have hw := h.duty.inOrder
  have hold (hmem : a ∈ w.network.queue d.inbox) := (h.waiting a hmem).occurs hw ho ha
  cases hpass with
  | nothing hq => exact hold (hq ▸ ha)
  | taking _ hq => exact hold (hq ▸ List.mem_cons_of_mem _ ha)
  | @arrival b hq hlink hl hu =>
    rw [hq] at ha
    rcases List.mem_append.mp ha with ha | ha
    · exact hold ha
    obtain rfl := List.mem_singleton.mp ha
    have hlink := Nat.le_of_eq hlink.symm
    have horigin : w₀.origin a.link = .ofCapacity linkCapacity := by
      rw [origin, List.getElem?_eq_none (Nat.le_trans h.grown hlink)]
      rfl
    rw [horigin]
    refine ⟨hu, ⟨_, hl, .refl ..⟩, ?_⟩
    rw [invokedAt_append, h.unused _ hlink, ho.invokedAt hw hlink]
    rfl

theorem Kept.occurs (h : d.Kept w₀ events w) (hplay : play? events w₀ = some w)
    (hev : w.event? ev = some w') : d.Kept w₀ (events ++ [ev]) w' := by
  have ho := occurs_of_event? hev
  have hw := h.duty.inOrder
  obtain ⟨came, took, hpass⟩ := h.duty.passing ho
  have hhistory : history (events ++ [ev]) w₀ = history events w₀ ++ ev.deeds w w' :=
    seen_concat hplay hev
  have htaken : taken d.inbox (events ++ [ev]) w₀ = taken d.inbox events w₀ ++ took := by
    rw [taken, seen_concat hplay hev, hpass.taken_eq]
  refine ⟨h.duty.occurs ho, Nat.le_trans h.grown ho.length_links, fun link hlink => ?_, ?_,
    fun a ha => hhistory ▸ h.waits ho hpass ha, fun a ha hp => ?_, fun a ha hp => ?_⟩
  · have hlink := Nat.le_trans ho.length_links hlink
    rw [hhistory, invokedAt_append, h.unused link hlink, ho.invokedAt hw hlink]
    rfl
  · rw [arrived_concat hplay hev hpass, htaken, h.conserved, List.append_assoc, List.append_assoc,
      hpass.queue_eq]
  · rw [hhistory]
    rw [htaken] at ha
    rcases List.mem_append.mp ha with ha | ha
    · exact (h.served a ha hp).occurs hw ho
    · obtain ⟨rfl, hr, hmem⟩ := hpass.mem_took ha
      exact (h.waiting a hmem).served hp h.duty hr hev
  · rw [hhistory]
    rw [htaken] at ha
    rcases List.mem_append.mp ha with ha | ha
    · exact (h.turnedAway a ha hp).occurs ho
    · obtain ⟨rfl, hr, hmem⟩ := hpass.mem_took ha
      exact (h.waiting a hmem).turnedAway hp h.duty hr hev

theorem kept_of_play? (h : d.Duty w₀) (hplay : play? events w₀ = some w) : d.Kept w₀ events w :=
  play?_induct (P := d.Kept w₀) (kept_nil h) (fun _ _ _ _ hpast hP hev => hP.occurs hpast hev)
    hplay

end Porter

end PeerCall
