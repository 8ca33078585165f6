import PeerCall.Proofs.Cancellation
import PeerCall.Proofs.Talk.Rebuff
import PeerCall.Proofs.World.Fates
import PeerCall.Proofs.World.Streams

/-! # Turning streams away

A porter takes in what arrives, whoever dials and whatever for, while calls, strangers, and the
tasks that answer on the streams taken so far do as they like. A call over a stream of another
protocol stands as it was started until it finds out (`Porter.Calling`); the porter may turn the
stream away before, while or after it sends. However that falls, it ends as one that was turned away
(`Porter.Stand.occurs`). Main statement: `Porter.kept_out_of_play?`. -/

namespace PeerCall

/-- The most steps that a call can take before it is done, if nobody answers. -/
def Call.toil (call : Call) (codec : Codec) : Nat :=
  2 * (Chore.bytes (Exchange.request codec call)).length + 4

/-- Whether a task is about to dial. -/
def Task.isDialing : Task → Bool
  | .call _ (.dialing ..) => true
  | _ => false

namespace World

variable {w w' : World} {i j k channel : Nat} {call c : Call} {ds : List Deed}

/-- No task begins to dial. -/
theorem Steps.not_dialing {t : Task} (h : Steps w i w') (ht : w.tasks[j]? = some t)
    (hd : t.isDialing = false) : ∃ t', w'.tasks[j]? = some t' ∧ t'.isDialing = false := by
  by_cases hj : j = i
  case neg => exact ⟨t, h.task ht hj, hd⟩
  subst hj
  have hset {t' : Task} (hd' : t'.isDialing = false) :
      ∃ t₁, (w.tasks.set j t')[j]? = some t₁ ∧ t₁.isDialing = false :=
    ⟨t', List.getElem?_set_self (List.getElem?_eq_some_iff.mp ht).1, hd'⟩
  cases h with
  | dialed ht₀ =>
    cases ht.symm.trans ht₀
    cases hd
  | connected =>
    exact ⟨_, getElem?_setTask_connect (List.getElem?_eq_some_iff.mp ht).1, rfl⟩
  | @greeted _ _ _ _ p => exact hset (by rcases p with _ | (_ | _) <;> rfl)
  | @exchanged _ _ _ _ p => exact hset (by cases p <;> rfl)
  | sending => exact hset (by split <;> rfl)
  | turnedAway => exact ⟨t, ht, hd⟩
  | accepted | played =>
    have hlt := (List.getElem?_eq_some_iff.mp ht).1
    exact ⟨t, (List.getElem?_append_left hlt).trans ht, hd⟩
  | _ => exact hset rfl

private theorem linksOf_kept {ds' : List Deed} {links : List Nat} (h : linksOf k ds = links)
    (hn : linksOf k ds' = []) : linksOf k (ds ++ ds') = links := by
  rw [linksOf_append, h, hn, List.append_nil]

/-- Who does not dial adds nothing to the network. -/
theorem Steps.length_queue {t : Task} (h : Steps w i w') (ht : w.tasks[i]? = some t)
    (hd : t.isDialing = false) (inbox : Nat) :
    (w'.network.queue inbox).length ≤ (w.network.queue inbox).length := by
  cases h with
  | dialed ht₀ =>
    cases ht.symm.trans ht₀
    cases hd
  | accepted _ hn | turnedAway _ hn | played _ hn =>
    rw [(Network.queue_receive hn inbox).2]
    split
    · exact Nat.le_succ _
    · exact Nat.le_refl _
  | _ => exact Nat.le_refl _

/-- Who does not dial opens a stream on a link that it holds. -/
theorem Occurs.held_of_opened {ev : Event} {t : Task} {link : Nat} (h : w.Occurs ev w')
    (ht : w.tasks[k]? = some t) (hd : t.isDialing = false)
    (hm : link ∈ linksOf k (ev.deeds w w')) : w.Holds k link .left := by
  rcases h.step_or_stays with ⟨i, rfl, hs⟩ | ⟨-, -, hnil⟩
  · rw [Event.deeds, movesDeeds, linksOf_deeds] at hm
    split at hm
    · rename_i hi
      subst hi
      cases (steps_of_step? hs).opener (Option.mem_toList.mp hm) with
      | dialing ht' =>
        cases ht.symm.trans ht'
        cases hd
      | greeting ht' => exact ⟨_, ht', rfl⟩
    · cases hm
  · rw [hnil] at hm
    cases hm

end World

namespace Porter

open World

/-! ## How calls stand -/

/-- How a call stands over a link of which nobody has the far end, after so many of its steps. -/
structure Calling (k channel : Nat) (call : Call) (codec : Codec) (link : Nat) (ds : List Deed)
    (steps : Nat) (w : World) (x : Exchange) (l : Link) (todo : Bytes) : Prop where
  task : w.tasks[k]? = some (.call channel (.exchanging link x))
  there : w.links[link]? = some l
  sole : w.Sole k link
  pending : callsOf k ds = []
  sends : Exchange.Sends codec call (.more x) todo
  quiet : Exchange.Quiet (.more x) l
  marked : l.Marked
  same : x.call = call
  spent : steps + x.work + (l.flow .left).length ≤ call.toil codec

/-- How a call stands, after these streams have arrived and after so many of its steps. If it goes
over one of them that is of another protocol, it is being turned away or was turned away. -/
inductive Stand (d : Porter) (k channel : Nat) (call : Call) (codec : Codec)
    (arrivals : List Arrival) (ds : List Deed) (steps : Nat) (w : World) : Prop
  | dialing {host protocol}
    (ht : w.tasks[k]? = some (.call channel (.dialing call codec host protocol)))
    (ho : linksOf k ds = []) (hn : callsOf k ds = []) (hs : steps = 0)
  | aside {t : Task} (ht : w.tasks[k]? = some t) (hd : t.isDialing = false)
    (hl : ∀ link ∈ linksOf k ds, link < w.links.length)
    (hp : ∀ a ∈ arrivals, a.link ∈ linksOf k ds ∨ w.Holds k a.link .left →
      a.protocol = d.protocol)
  | calling {a : Arrival} {x : Exchange} {l : Link} {todo : Bytes} (ha : a ∈ arrivals)
    (hp : a.protocol ≠ d.protocol) (ho : linksOf k ds = [a.link])
    (h : Calling k channel call codec a.link ds steps w x l todo)
  | rebuffed {link : Nat} {c : Call} (ho : linksOf k ds = [link]) (h : w.Handing k channel c ds)
    (hc : call.Rebuffed codec w.moment c)

/-- All streams that have arrived are on links that there are, and of those of another protocol
nobody has the far end. -/
structure Barred (d : Porter) (arrivals : List Arrival) (w : World) : Prop where
  lt : ∀ a ∈ arrivals, a.link < w.links.length
  unheld : ∀ a ∈ arrivals, a.protocol ≠ d.protocol → ∀ i, ¬ w.Holds i a.link .right

variable {w w' : World} {k channel link steps : Nat} {call : Call} {codec : Codec}
  {ds : List Deed} {ev : Event} {x : Exchange} {l : Link} {todo : Bytes}

/-! ## A call that nobody answers -/

/-- What others do to the link of a call is, at most, to turn it away. -/
theorem Calling.spared (h : Calling k channel call codec link ds steps w x l todo)
    (hr : ∀ i, ¬ w.Holds i link .right) (ho : w.Occurs ev w') (hk : ev.isStep k = false) :
    (∃ l', Calling k channel call codec link (ds ++ ev.deeds w w') steps w' x l' todo) ∧
      linksOf k (ev.deeds w w') = [] := by
  have hlt : link < w.links.length := (List.getElem?_eq_some_iff.mp h.there).1
  rcases ho.step_or_stays with ⟨i, rfl, hs⟩ | ⟨-, hstays, hnil⟩
  · have hsteps := steps_of_step? hs
    have hi := isStep_eq_false hk
    obtain ⟨ht', hlinks, hcalls⟩ := hsteps.spares hi h.task
    have hpending : callsOf k (ds ++ w.deeds w' i) = [] := by
      rw [callsOf_append, h.pending, hcalls]
      rfl
    have hsole := hsteps.sole h.sole hlt
    -- the near end is the call's and the far end nobody's, which leaves the porter
    obtain ⟨l', hl', rfl | ⟨s, hh, -⟩ | ⟨rfl, -⟩⟩ := hsteps.link h.there
    · exact ⟨⟨l', { h with task := ht', there := hl', sole := hsole, pending := hpending }⟩, hlinks⟩
    · cases s with
      | left => exact absurd (h.sole i hh) hi
      | right => exact absurd hh (hr i)
    · refine ⟨⟨l.abort .right, ht', hl', hsole, hpending, h.sends, ?_, l.marked_abort, h.same, ?_⟩,
        hlinks⟩
      · exact ⟨(Link.flow_abort ..).trans h.quiet.1, h.quiet.2⟩
      · rw [Link.flow_abort]
        exact h.spent
  · rw [hnil, List.append_nil]
    refine ⟨⟨l, { h with task := hstays.task _ _ h.task, there := hstays.link _ _ h.there,
                         sole := fun i hi => h.sole i (hstays.holds _ _ _ hlt hi) }⟩, rfl⟩

/-- A call goes on as it was, or is done as one that was turned away. -/
theorem Calling.step (h : Calling k channel call codec link ds steps w x l todo)
    (hs : w.step? k = some w') :
    ((∃ x' l' todo', Calling k channel call codec link (ds ++ w.deeds w' k) (steps + 1) w' x' l'
        todo') ∨
      ∃ c, w'.Handing k channel c (ds ++ w.deeds w' k) ∧ call.Rebuffed codec w'.moment c) ∧
    linksOf k (w.deeds w' k) = [] := by
  have hsteps := steps_of_step? hs
  have hlt : link < w.links.length := (List.getElem?_eq_some_iff.mp h.there).1
  have hpending : callsOf k (ds ++ w.deeds w' k) = [] := by
    rw [callsOf_append, h.pending, callsOf_of_open h.task (fun _ h => by cases h)]
    rfl
  obtain ⟨p, l', hx, ht', hl', -⟩ := hsteps.of_exchanging h.task h.there
  have hm := Exchange.moves_of_step? h.sends.sound hx
  refine ⟨?_, linksOf_of_exchanging h.task⟩
  cases p with
  | more x' =>
    obtain ⟨_, todo', -, -, hsends, -⟩ := h.sends.step hm
    have hquiet := h.quiet.step hm
    have hlink : l'.Marked := by
      rcases hm.link_of_more with ⟨n, rfl⟩ | ⟨piece, rfl⟩
      · exact h.marked.take .left n
      · exact h.marked.put .left piece
    refine .inl ⟨x', l', todo', ht', hl', hsteps.sole h.sole hlt, hpending, hsends, hquiet, hlink,
      (hm.call_of_quiet hquiet).trans h.same, ?_⟩
    have hwork := hm.work_lt
    rw [Exchange.left, h.quiet.1, hquiet.1] at hwork
    have hspent := h.spent
    omega
  | done c =>
    have hsends := h.sends
    rw [← h.same] at hsends
    have hrebuffed := Exchange.rebuffed_of_step? hsends h.quiet h.marked hx
    rw [h.same] at hrebuffed
    exact .inr ⟨c, .waiting ht' hpending, hrebuffed.later (before_of_step? hs)⟩

/-! ## Any call -/

variable {d : Porter} {arrivals came took : List Arrival} {a : Arrival}

/-- A stream that has come is on a link that there was not. -/
theorem Passing.link_came (h : d.Passing w w' ev came took) (ha : a ∈ came) :
    a.link = w.links.length := by
  cases h with
  | nothing | taking => cases ha
  | arrival _ hl => exact List.mem_singleton.mp ha ▸ hl

/-- A call that dials goes over a stream of another protocol, or stands aside. -/
theorem Stand.dial {host : Host} {protocol : ProtocolId}
    (ht : w.tasks[k]? = some (.call channel (.dialing call codec host protocol)))
    (ho : linksOf k ds = []) (hn : callsOf k ds = []) (hw : w.InOrder)
    (hb : d.Barred arrivals w) (hfresh : call.error = none)
    (hpass : d.Passing w w' (.move (.step k)) came took) (hs : w.Steps k w') :
    d.Stand k channel call codec (arrivals ++ came) (ds ++ w.deeds w' k) 1 w' := by
  have hcalls : callsOf k (ds ++ w.deeds w' k) = [] := by
    rw [callsOf_append, hn, callsOf_of_open ht (fun _ h => by cases h)]
    rfl
  -- without a stream it has nothing to do with those that have arrived
  have hwithout {c : CallTask} (ht' : w'.tasks[k]? = some (.call channel c))
      (hd : (Task.call channel c).isDialing = false) (he : (Task.call channel c).end? = none) :
      d.Stand k channel call codec (arrivals ++ came) (ds ++ w.deeds w' k) 1 w' := by
    have hlinks : linksOf k (ds ++ w.deeds w' k) = [] := by
      rw [linksOf_append, ho, linksOf_of_unopened ht' (stream?_of_end? he)]
      rfl
    refine .aside ht' hd (fun _ hm => ?_) fun _ _ hm => ?_
    · rw [hlinks] at hm
      cases hm
    · rcases hm with hm | ⟨t, ht, he'⟩
      · rw [hlinks] at hm
        cases hm
      · cases ht'.symm.trans ht
        cases he.symm.trans he'
  cases hs.opens ht rfl with
  | failed ht' => exact hwithout ht' rfl rfl
  | connecting _ _ _ _ ht' => exact hwithout ht' rfl rfl
  | dialed _ _ _ ht' hl' =>
    have hlinks : linksOf k (ds ++ w.deeds w' k) = [w.links.length] := by
      rw [linksOf_append, ho, linksOf_of_opened ht rfl ht']
      rfl
    have haside (hp : ∀ a ∈ came, a.protocol = d.protocol) :
        d.Stand k channel call codec (arrivals ++ came) (ds ++ w.deeds w' k) 1 w' := by
      refine .aside ht' rfl (fun link hm => ?_) fun a ha hm => ?_
      · rw [hlinks] at hm
        rw [List.mem_singleton.mp hm, hl', List.length_append]
        exact Nat.lt_succ_self _
      · have hlink : a.link = w.links.length := by
          rcases hm with hm | ⟨t, ht, he⟩
          · exact List.mem_singleton.mp (hlinks ▸ hm)
          · cases ht'.symm.trans ht
            exact (Prod.mk.inj (Option.some.inj he)).1.symm
        rcases List.mem_append.mp ha with ha | ha
        · exact absurd hlink (Nat.ne_of_lt (hb.lt a ha))
        · exact hp a ha
    -- the stream has gone to this inbox or to another
    cases hpass with
    | nothing | taking => exact haside fun a ha => by cases ha
    | @arrival a hq hlink hl hu =>
      by_cases hp : a.protocol = d.protocol
      · exact haside fun b hb => List.mem_singleton.mp hb ▸ hp
      rw [← hlink] at ht' hlinks
      refine .calling (List.mem_append_right _ List.mem_cons_self) hp hlinks
        ⟨ht', hl, hlink ▸ hs.sole_opened hw, hcalls, Exchange.sends_ofCall codec hfresh,
          Exchange.quiet_ofCall .., Link.marked_ofCapacity _, rfl, ?_⟩
      rw [Link.flow_ofCapacity, Call.toil]
      simp only [Exchange.work, Exchange.pending, Exchange.ofCall, Exchange.Phase.stage,
        List.nil_append, List.length_nil]
      omega

/-- A step that is not one of dialing brings no stream into the inbox. -/
theorem Passing.came_of_step {t : Task} (h : d.Passing w w' (.move (.step k)) came took)
    (hs : w.Steps k w') (ht : w.tasks[k]? = some t) (hd : t.isDialing = false) : came = [] := by
  cases h with
  | nothing | taking => rfl
  | arrival hq =>
    have hle := hs.length_queue ht hd d.inbox
    rw [hq, List.length_append] at hle
    exact absurd hle (Nat.not_succ_le_self _)

/-- Who does not dial comes to hold no end of a stream that has arrived. -/
theorem Passing.held {t : Task} (h : d.Passing w w' ev came took) (hb : d.Barred arrivals w)
    (ho : w.Occurs ev w') (ht : w.tasks[k]? = some t) (hd : t.isDialing = false)
    (ha : a ∈ arrivals ++ came) (hh : w'.Holds k a.link .left) : w.Holds k a.link .left := by
  have hsame (ht' : w'.tasks[k]? = some t) : w.Holds k a.link .left := by
    obtain ⟨t', ht₁, he⟩ := hh
    cases ht'.symm.trans ht₁
    exact ⟨t, ht, he⟩
  rcases ho.step_or_stays with ⟨i, rfl, hs⟩ | ⟨-, hstays, -⟩
  case inr => exact hsame (hstays.task _ _ ht)
  have hsteps := steps_of_step? hs
  by_cases hi : k = i
  case neg => exact hsame (hsteps.task ht hi)
  subst hi
  obtain rfl := h.came_of_step hsteps ht hd
  rw [List.append_nil] at ha
  exact hsteps.held (hb.lt a ha) hh

/-- A call that stands aside does so for good. -/
private theorem Stand.aside_occurs {t : Task} (ht : w.tasks[k]? = some t)
    (hd : t.isDialing = false) (hl : ∀ link ∈ linksOf k ds, link < w.links.length)
    (hp : ∀ a ∈ arrivals, a.link ∈ linksOf k ds ∨ w.Holds k a.link .left →
      a.protocol = d.protocol)
    (hw : w.InOrder) (hb : d.Barred arrivals w) (ho : w.Occurs ev w')
    (hpass : d.Passing w w' ev came took) :
    d.Stand k channel call codec (arrivals ++ came) (ds ++ ev.deeds w w') steps w' := by
  obtain ⟨t', ht', hd'⟩ : ∃ t', w'.tasks[k]? = some t' ∧ t'.isDialing = false := by
    rcases ho.step_or_stays with ⟨i, -, hs⟩ | ⟨-, hstays, -⟩
    · exact (steps_of_step? hs).not_dialing ht hd
    · exact ⟨t, hstays.task _ _ ht, hd⟩
  -- what it has opened or holds now, it had opened or held
  have hold {link : Nat} (hm : link ∈ linksOf k (ds ++ ev.deeds w w')) :
      link ∈ linksOf k ds ∨ w.Holds k link .left := by
    rw [linksOf_append] at hm
    exact (List.mem_append.mp hm).imp_right (ho.held_of_opened ht hd)
  have hlt {link : Nat} (h : link ∈ linksOf k ds ∨ w.Holds k link .left) :
      link < w.links.length := h.elim (hl link) (hw.held _ _ _)
  refine .aside ht' hd' (fun link hm => ?_) fun a ha hm => ?_
  · exact Nat.lt_of_lt_of_le (hlt (hold hm)) ho.length_links
  · have hheld := hm.elim hold fun hh => .inr (hpass.held hb ho ht hd ha hh)
    rcases List.mem_append.mp ha with ha | ha
    · exact hp a ha hheld
    · exact absurd (hpass.link_came ha) (Nat.ne_of_lt (hlt hheld))

/-- What others do leaves a call where it stands. -/
private theorem Stand.spared (h : d.Stand k channel call codec arrivals ds steps w)
    (hw : w.InOrder) (hb : d.Barred arrivals w) (ho : w.Occurs ev w')
    (hpass : d.Passing w w' ev came took) (hk : ev.isStep k = false) :
    d.Stand k channel call codec (arrivals ++ came) (ds ++ ev.deeds w w') steps w' := by
  cases h with
  | aside ht hd hl hp => exact .aside_occurs ht hd hl hp hw hb ho hpass
  | calling ha hp hlinks h =>
    obtain ⟨⟨l', h'⟩, hnone⟩ := h.spared (hb.unheld _ ha hp) ho hk
    exact .calling (List.mem_append_left _ ha) hp (linksOf_kept hlinks hnone) h'
  | dialing ht hlinks hcalls hs =>
    obtain ⟨ht', hl, hc⟩ := ho.spares hk ht
    refine .dialing ht' (linksOf_kept hlinks hl) ?_ hs
    rw [callsOf_append, hcalls, hc]
    rfl
  | rebuffed hlinks h hc =>
    obtain ⟨h', hl⟩ := h.occurs ho
    exact .rebuffed (linksOf_kept hlinks hl) h' (hc.later ho.before)

/-- Whatever happens, a call over a stream of another protocol is turned away. -/
theorem Stand.occurs (h : d.Stand k channel call codec arrivals ds steps w) (hw : w.InOrder)
    (hb : d.Barred arrivals w) (hfresh : call.error = none) (ho : w.Occurs ev w')
    (hpass : d.Passing w w' ev came took) :
    d.Stand k channel call codec (arrivals ++ came) (ds ++ ev.deeds w w')
      (steps + if ev.isStep k then 1 else 0) w' := by
  cases hk : ev.isStep k with
  | false => exact h.spared hw hb ho hpass hk
  | true =>
    rcases ho.step_or_stays with ⟨i, rfl, hs⟩ | ⟨hn, -⟩
    case inr => cases (hn k).symm.trans hk
    obtain rfl : i = k := eq_of_beq hk
    cases h with
    | dialing ht hlinks hcalls hsteps =>
      rw [hsteps]
      exact .dial ht hlinks hcalls hw hb hfresh hpass (steps_of_step? hs)
    | aside ht hd hl hp => exact .aside_occurs ht hd hl hp hw hb ho hpass
    | calling ha hp hlinks h =>
      obtain ⟨hnext, hnone⟩ := h.step hs
      have hlinks' := linksOf_kept hlinks hnone
      rcases hnext with ⟨x', l', todo', h'⟩ | ⟨c, h', hc⟩
      · exact .calling (List.mem_append_left _ ha) hp hlinks' h'
      · exact .rebuffed hlinks' h' hc
    | rebuffed hlinks h hc =>
      obtain ⟨h', hl⟩ := h.step hs
      exact .rebuffed (linksOf_kept hlinks hl) h' (hc.later ho.before)

/-! ## What comes of it -/

/-- What comes of a call over a stream of another protocol, after so many of its steps. -/
structure Rebuff (d : Porter) (k channel : Nat) (call : Call) (codec : Codec) (a : Arrival)
    (ds : List Deed) (steps : Nat) (w : World) : Prop where
  /-- Given up or not, it has no answer, nor an error that was sent for one. -/
  unanswered : ∀ c ∈ callsOf k ds, ¬ c.Responded
  /-- If its context is not done, its request was not sent or its answer not read. A request that
  can be sent meets with the reset. -/
  told : call.context.verdict w.moment = none → ∀ c ∈ callsOf k ds, ∃ e,
    (c = call.fail (.encode e) ∨ c = call.fail (.decode e)) ∧
      ∀ service args, call.Asks codec service args → e = .io .reset
  /-- It does not wait any more once the stream was turned away. -/
  goesOn : a ∉ w.network.queue d.inbox → w.InProgress k → w.step? k ≠ none
  ends : call.toil codec ≤ steps → ¬ w.InProgress k
  /-- When it is done it is handed back, as soon as there is room. -/
  handed : ¬ w.InProgress k → channel < w.channels.length → w.step? k = none →
    (∃ c, callsOf k ds = [c]) ∨ ∃ ch, w.channels[channel]? = some ch ∧ ch.receiving = true ∧
      k ∈ ch.waiting ∧ k ∉ ch.granted

theorem Stand.rebuff (h : d.Stand k channel call codec arrivals ds steps w)
    (ha : a ∈ arrivals) (hp : a.protocol ≠ d.protocol) (hlink : a.link ∈ linksOf k ds)
    (hshut : a ∉ w.network.queue d.inbox → ∃ l, w.links[a.link]? = some l ∧
      ∀ s, l.shut s = true) :
    d.Rebuff k channel call codec a ds steps w := by
  cases h with
  | dialing _ ho =>
    rw [ho] at hlink
    cases hlink
  | aside _ _ _ hp' => exact absurd (hp' a ha (.inl hlink)) hp
  | @calling a' x l _ _ _ ho h =>
    -- nothing was handed back yet, and the link is shut once the stream was taken
    rw [ho] at hlink
    have hprogress : w.InProgress k := ⟨_, _, h.task, fun _ hc => by cases hc⟩
    have hnone (c : Call) : c ∉ callsOf k ds := by
      rw [h.pending]
      exact List.not_mem_nil
    refine ⟨fun c hc => absurd hc (hnone c), fun _ c hc => absurd hc (hnone c), fun hq _ => ?_,
      fun hsteps => ?_, fun hn => absurd hprogress hn⟩
    · obtain ⟨l', hl', hs⟩ := hshut hq
      rw [List.mem_singleton.mp hlink] at hl'
      cases h.there.symm.trans hl'
      rw [step?_exchanging h.task h.there, Ne, Option.map_eq_none_iff]
      exact Exchange.goes_on h.sends.sound hs
    · have hspent := h.spent
      have hstage := x.phase.stage_lt
      rw [Exchange.work] at hspent
      omega
  | rebuffed _ h hc =>
    refine ⟨fun c' hc' => ?_, fun hv c' hc' => ?_, fun _ hn => absurd hn h.not_inProgress,
      fun _ => h.not_inProgress, fun _ hroom hn => ?_⟩
    · exact h.eq_of_mem hc' ▸ hc.not_responded
    · exact h.eq_of_mem hc' ▸ hc.told hv
    · have hwaits := h.waitsForRoom hroom hn
      cases h with
      | handed _ hn' => exact .inl ⟨_, hn'⟩
      | waiting ht =>
        rcases hwaits with hended | hline
        · cases ht.symm.trans hended
        · exact .inr hline

/-- What a porter sees to. The streams that it has taken and those that wait are, in this order,
those that have arrived, and it can take the next if there is one. -/
structure KeepsOut (d : Porter) (w₀ : World) (events : List Event) (w : World) : Prop where
  duty : d.Duty w
  inTurn : d.arrived events w₀ = taken d.inbox events w₀ ++ w.network.queue d.inbox
  ready : ∀ a rest, w.network.queue d.inbox = a :: rest →
    ∃ w', w.step? d.place = some w' ∧ w'.network.queue d.inbox = rest
  waiting : ∀ a ∈ w.network.queue d.inbox,
    d.Waiting (w₀.origin a.link) (history events w₀) w a
  served : ∀ a ∈ taken d.inbox events w₀, a.protocol = d.protocol →
    d.Served (history events w₀) w a
  turnedAway : ∀ a ∈ taken d.inbox events w₀, a.protocol ≠ d.protocol →
    TurnedAway a (w₀.origin a.link) (history events w₀) w
  /-- A server is invoked for a stream of its protocol only. -/
  invoked : ∀ a ∈ d.arrived events w₀, invokedAt a.link (history events w₀) ≠ [] →
    a.protocol = d.protocol
  /-- A call that was about to dial, and has opened a stream of another protocol. -/
  rebuffed : ∀ (k channel : Nat) (call : Call) (codec : Codec) (host : Host)
    (protocol : ProtocolId),
    w₀.tasks[k]? = some (.call channel (.dialing call codec host protocol)) →
    call.error = none → ∀ a ∈ d.arrived events w₀, a.protocol ≠ d.protocol →
    a.link ∈ linksOf k (history events w₀) →
    d.Rebuff k channel call codec a (history events w₀) (events.countP (Event.isStep k)) w

variable {w₀ : World} {events : List Event}

theorem Kept.barred (h : d.Kept w₀ events w) : d.Barred (d.arrived events w₀) w where
  lt a ha := by
    rw [h.conserved] at ha
    rcases List.mem_append.mp ha with ha | ha
    · by_cases hp : a.protocol = d.protocol
      · obtain ⟨i, r, ht, -⟩ := (h.served a ha hp).task
        exact h.duty.inOrder.held i a.link .right ⟨_, ht, rfl⟩
      · obtain ⟨_, _, hl, -⟩ := (h.turnedAway a ha hp).link
        exact (List.getElem?_eq_some_iff.mp hl).1
    · exact (h.waiting a ha).untaken.lt h.duty.inOrder
  unheld a ha hp := by
    rw [h.conserved] at ha
    rcases List.mem_append.mp ha with ha | ha
    · exact (h.turnedAway a ha hp).unheld
    · exact (h.waiting a ha).untaken.unheld

theorem Kept.uninvoked (h : d.Kept w₀ events w) (ha : a ∈ d.arrived events w₀)
    (hp : a.protocol ≠ d.protocol) : invokedAt a.link (history events w₀) = [] := by
  rw [h.conserved] at ha
  rcases List.mem_append.mp ha with ha | ha
  · exact (h.turnedAway a ha hp).uninvoked
  · exact (h.waiting a ha).uninvoked

/-- A stream of another protocol that waits no more is shut. -/
theorem Kept.shut (h : d.Kept w₀ events w) (ha : a ∈ d.arrived events w₀)
    (hp : a.protocol ≠ d.protocol) (hq : a ∉ w.network.queue d.inbox) :
    ∃ l, w.links[a.link]? = some l ∧ ∀ s, l.shut s = true := by
  rw [h.conserved] at ha
  rcases List.mem_append.mp ha with ha | ha
  · obtain ⟨l₁, l, hl, -, hacted⟩ := (h.turnedAway a ha hp).link
    exact ⟨l, hl, fun s => hacted.shut s (Link.shut_abort ..)⟩
  · exact absurd ha hq

theorem stand_of_play? {host : Host} {protocol : ProtocolId} (h : d.Duty w₀)
    (ht : w₀.tasks[k]? = some (.call channel (.dialing call codec host protocol)))
    (hfresh : call.error = none) (hplay : play? events w₀ = some w) :
    d.Stand k channel call codec (d.arrived events w₀) (history events w₀)
      (events.countP (Event.isStep k)) w := by
  refine play?_induct (P := fun events w => d.Stand k channel call codec (d.arrived events w₀)
    (history events w₀) (events.countP (Event.isStep k)) w) ?_ ?_ hplay
  · exact .dialing ht rfl rfl rfl
  · intro past w ev w' hpast hP hev
    have ho := occurs_of_event? hev
    have hkept := kept_of_play? h hpast
    obtain ⟨came, took, hpass⟩ := hkept.duty.passing ho
    have hnext := hP.occurs hkept.duty.inOrder hkept.barred hfresh ho hpass
    have hhistory : history (past ++ [ev]) w₀ = history past w₀ ++ ev.deeds w w' :=
      seen_concat hpast hev
    rw [arrived_concat hpast hev hpass, hhistory, List.countP_append, List.countP_singleton]
    exact hnext

/-- Whatever arrives in an inbox, under whatever protocols and from whomever, and whatever the
dialers and all others do at any time: the porter takes every stream in its turn. One of the
server's protocol is handed to one task, which answers its dialer. One of another protocol is given
up as failed, unread, and no server is ever invoked for it. A call over such a stream has no answer.
If it is not given up it fails, with the reset unless its request could not be sent anyway, and it
takes so many steps at most to do so. -/
theorem kept_out_of_play? (h : d.Duty w₀) (hplay : play? events w₀ = some w) :
    d.KeepsOut w₀ events w := by
  have hkept := kept_of_play? h hplay
  refine ⟨hkept.duty, hkept.conserved, fun a rest hq => hkept.duty.ready hq, hkept.waiting,
    hkept.served, hkept.turnedAway, fun a ha hn => ?_, ?_⟩
  · apply Classical.byContradiction
    intro hp
    exact hn (hkept.uninvoked ha hp)
  · intro k channel call codec host protocol ht hfresh a ha hp hlink
    exact (stand_of_play? h ht hfresh hplay).rebuff ha hp hlink (hkept.shut ha hp)

/-! ## A busy evening -/

/-- Who takes in what is dialed for bob. -/
def bob (server : Server) : Porter where
  place := 0
  inbox := 0
  site := ⟨7, server⟩
  codec := .standard
  protocol := .standard

theorem duty_evening (server : Server) : (bob server).Duty (evening server) where
  inOrder := inOrder_evening server
  alone i intake ht := by
    match i with
    | 0 =>
      cases ht
      exact ⟨rfl, rfl⟩
    | i + 1 => cases ht
  listens := rfl
  untaken a ha := by cases ha
  there := .inl rfl

/-- Somebody who speaks of something else. -/
def carol : Client where
  host := some ⟨⟨"carol"⟩, .network⟩
  protocol := ⟨"/chess/1"⟩

/-- Carol dials, and then alice. Both streams are taken in, and carol goes on. -/
def bustle : List Event :=
  .call alice Receiving.question 0 :: [1, 2, 0, 0, 1, 1].map fun i => .move (.step i)

/-- What carol asks for can be sent. -/
theorem asks_question : ∃ service args, Receiving.question.Asks .standard service args :=
  ⟨_, _, rfl, by decide, rfl, by decide⟩

/-- Carol finds herself turned away, and alice has somebody to answer her. -/
theorem kept_out_other_protocol : ∃ (w₀ w : World) (c : Call),
    (evening fun _ => .finish none (some [1])).event? (.call carol Receiving.question 0) =
        some w₀ ∧
      play? bustle w₀ = some w ∧ callsOf 1 (history bustle w₀) = [c] ∧
      (c.error = some (.encode (.io .reset)) ∨ c.error = some (.decode (.io .reset))) ∧
      ∃ (i : Nat) (r : Responder), w.tasks[i]? = some (Task.respond 7 1 r) ∧
        r.peer = ⟨"alice"⟩ := by
  obtain ⟨w₀, w, c, hstart, hplay, hv, hlinks, hcalls, harrived, htaken, ht⟩ : ∃ w₀ w c,
      (evening fun _ => .finish none (some [1])).event? (.call carol Receiving.question 0) =
          some w₀ ∧
        play? bustle w₀ = some w ∧ Receiving.question.context.verdict w.moment = none ∧
        linksOf 1 (history bustle w₀) = [0] ∧ callsOf 1 (history bustle w₀) = [c] ∧
        ⟨⟨"/chess/1"⟩, ⟨"carol"⟩, 0⟩ ∈ (bob fun _ => .finish none (some [1])).arrived bustle w₀ ∧
        ⟨.standard, ⟨"alice"⟩, 1⟩ ∈ taken 0 bustle w₀ ∧
        w₀.tasks[1]? = some (.call 0 (.dialing Receiving.question .standard
          ⟨⟨"carol"⟩, .network⟩ ⟨"/chess/1"⟩)) :=
    ⟨_, _, _, rfl, rfl, rfl, rfl, rfl, .head _, .tail _ (.head _), rfl⟩
  have hduty := (duty_evening _).occurs (occurs_of_event? hstart)
  have h := kept_out_of_play? hduty hplay
  have hchess : (⟨"/chess/1"⟩ : ProtocolId) ≠ .standard := by decide
  have hover : 0 ∈ linksOf 1 (history bustle w₀) := hlinks ▸ List.mem_cons_self
  have hc : c ∈ callsOf 1 (history bustle w₀) := hcalls ▸ List.mem_cons_self
  have hrebuff := h.rebuffed 1 0 _ _ _ _ ht rfl _ harrived hchess hover
  obtain ⟨e, he, hasked⟩ := hrebuff.told hv c hc
  obtain ⟨service, args, hasks⟩ := asks_question
  obtain rfl := hasked service args hasks
  obtain ⟨i, r, hr, -, -, -, hpeer, -⟩ := (h.served _ htaken rfl).task
  refine ⟨w₀, w, c, hstart, hplay, hcalls, ?_, i, r, hr, hpeer⟩
  rcases he with rfl | rfl
  · exact .inl rfl
  · exact .inr rfl

end Porter

end PeerCall
