import PeerCall.Proofs.Cancellation
import PeerCall.Proofs.Observing
import PeerCall.Proofs.World.Comings
import PeerCall.Proofs.World.Streams

/-! # Opening a stream to an address

A call to an address among any other tasks, whatever happens (`Departure.Stand`). Until it has a
stream, what it has written and what it has still to write are the handshake. An opening that fails
says why (`Departure.Fails`), and its connection is closed. One that waits is woken in time
(`Departure.Waits`). Main statement: `Departure.opening_of_play?`. -/

namespace PeerCall

/-! ## A connection that is closed -/

namespace Link

variable {l l' : Link}

/-- The left end was given up, and not as failed. -/
structure Parted (l : Link) : Prop where
  unmarked : l.wasReset.get .left = false
  shut : ∀ s, l.shut s = true

/-- Who reads at the right end finds the bytes that are left, and after these the end. -/
def TellsEnd (l : Link) : Prop :=
  ∀ n, 0 < n → ∃ l', l.read? .right n = some (.ok ((l.flow .left).take n), l')

theorem parted_drop (h : l.wasReset.get .left = false) : (l.drop .left).Parted :=
  ⟨h, fun _ => shut_drop ..⟩

theorem Parted.acted (h : l.Parted) (ha : l.Acted .right l') : l'.Parted where
  unmarked := ha.spares.trans h.unmarked
  shut s := ha.shut s (h.shut s)

theorem Parted.tellsEnd (h : l.Parted) : l.TellsEnd := by
  intro n hn
  obtain ⟨l', hr⟩ := read?_of_shut (s := .right) (h.shut .left) hn
  have hunmarked : l.wasReset.get Side.right.other = false := h.unmarked
  rw [hunmarked, if_neg fun hr => Bool.false_ne_true hr.2] at hr
  exact ⟨l', hr⟩

end Link

namespace World

variable {w w' : World} {ev : Event} {k link : Nat}

/-! ## What a task writes -/

/-- The bytes that the task at a place puts on its link from one world to the next. -/
def written (w w' : World) (k : Nat) : Bytes :=
  match w.tasks[k]?.bind Task.end? with
  | none => []
  | some (link, s) =>
    match w.links[link]?, w'.links[link]? with
    | some l, some l' => (l'.flow s).drop (l.flow s).length
    | _, _ => []

/-- All bytes that the task at a place puts on links. -/
def sent (k : Nat) : List Event → World → Bytes :=
  seen fun w ev w' => if ev.isStep k then w.written w' k else []

/-- The link of which the task at a place holds an end. -/
def holding (w : World) (k : Nat) : List Nat := ((w.tasks[k]?.bind Task.end?).map Prod.fst).toList

/-- All links of which the task at a place comes to hold an end. -/
def held (k : Nat) : List Event → World → List Nat :=
  seen fun _ ev w' => if ev.isStep k then w'.holding k else []

theorem written_of_end? {t : Task} (ht : w.tasks[k]? = some t) (he : t.end? = none) :
    w.written w' k = [] := by
  rw [written, ht, Option.bind_some, he]

theorem holding_eq {t : Task} (ht : w.tasks[k]? = some t) :
    w.holding k = (t.end?.map Prod.fst).toList := by
  rw [holding, ht, Option.bind_some]

theorem written_eq {t : Task} {l l' : Link} (ht : w.tasks[k]? = some t)
    (he : t.end? = some (link, .left)) (hl : w.links[link]? = some l)
    (hl' : w'.links[link]? = some l') :
    w.written w' k = (l'.flow .left).drop (l.flow .left).length := by
  rw [written, ht, Option.bind_some, he]
  simp only [hl, hl']

/-- A link that was closed at the left end, of which nobody has that end any more. -/
def Closed (w : World) (link : Nat) : Prop :=
  (∀ i, ¬ w.Holds i link .left) ∧ ∃ l, w.links[link]? = some l ∧ l.Parted

/-- Who hands a call back holds no link. -/
theorem Handing.end? {channel : Nat} {c : Call} {ds : List Deed} (h : w.Handing k channel c ds) :
    ∃ t, w.tasks[k]? = some t ∧ t.end? = none := by
  cases h with
  | waiting ht | handed ht => exact ⟨_, ht, rfl⟩

/-- An attempt that waits is woken in time, however long nobody looks at it. -/
theorem alarm_of_connecting {a : Attempt} {channel : Nat} {m : Moment}
    (ht : w.tasks[k]? = some (.call channel (.connecting a))) (hsince : a.since ≤ w.moment.now)
    (hn : w.step? k = none) (hm : m.isCancelled a.call.context.token = false)
    (hs : World.step? { w with moment := m } k ≠ none) :
    ∃ t ∈ w.alarms k, w.moment.now < t ∧ t ≤ m.now := by
  have halarms : w.alarms k = a.alarms (w.endpoints a.address a.since) := by
    rw [alarms, ht]
  rw [step?_connecting ht, Option.map_eq_none_iff, stepConnecting?_eq_none_iff] at hn
  rw [Ne, step?_connecting (w := { w with moment := m }) ht, Option.map_eq_none_iff,
    stepConnecting?_eq_none_iff, Classical.not_and_iff_not_or_not] at hs
  rw [halarms]
  rcases hs with hs | hs
  · -- the context is done, and was not cancelled
    rw [Context.verdict_eq_none_iff, Classical.not_and_iff_not_or_not] at hs
    obtain ⟨t, ht, hle⟩ := Classical.not_not.mp (hs.resolve_left (by simp [hm]))
    have hlt : w.moment.now < t := by
      apply Nat.lt_of_not_le
      intro hle
      exact (Context.verdict_eq_none_iff.mp hn.1).2 ⟨t, ht, hle⟩
    exact ⟨t, List.mem_append_left _ (Option.mem_toList.mpr ht), hlt, hle⟩
  · exact Attempt.alarm_of_outcome? hsince hn.2 hs

theorem Closed.occurs (h : w.Closed link) (ho : w.Occurs ev w') : w'.Closed link := by
  obtain ⟨hloose, l, hl, hparted⟩ := h
  obtain ⟨l', hl', hacted⟩ := ho.acted (fun i hi => absurd hi (hloose i)) hl
  have hlt := (List.getElem?_eq_some_iff.mp hl).1
  exact ⟨fun i hi => hloose i (ho.held hlt hi), l', hl', hparted.acted hacted⟩

end World

/-! ## A call to an address -/

/-- A call that is to go out to an address, and the task that drives it. -/
structure Departure where
  place : Nat
  channel : Nat
  call : Call
  codec : Codec
  protocol : ProtocolId
  dialer : PeerId
  book : AddressBook
  /-- How many milliseconds a connection may take. -/
  timeout : Option Nat

namespace Departure

open World

/-- The task, before anything has become of it. -/
def task (d : Departure) : Task :=
  .call d.channel (.dialing d.call d.codec ⟨d.dialer, .dialing d.book d.timeout⟩ d.protocol)

def handshake (d : Departure) : Bytes := Handshake.greeting d.protocol d.dialer

variable (d : Departure) (endpoints : Address → Nat → Endpoint)

/-- An attempt of the call, that has begun by now. -/
structure Attempts (m : Moment) (a : Attempt) : Prop where
  call : a.call = d.call
  protocol : a.protocol = d.protocol
  dialer : a.dialer = d.dialer
  known : d.book.get? d.call.dest = some a.address
  timeout : a.timeout = d.timeout
  begun : a.since ≤ m.now

/-- At the address of the peer there is something that answers. -/
def Answered : Prop :=
  ∃ address since ms capacity owner actions, d.book.get? d.call.dest = some address ∧
    endpoints address since = .answers ms capacity owner actions

/-- Why a call to an address has no stream. -/
inductive Fails (m : Moment) : CallError → Prop
  /-- Its context was done. -/
  | stopped {m' e} (hm : m'.Before m) (hv : d.call.context.verdict m' = some e) : Fails m e
  | unknown (hb : d.book.get? d.call.dest = none) :
    Fails m (.connection d.call.dest (.unknownAddress d.call.dest))
  /-- Connecting has failed. -/
  | unreached {address since ms e} (hb : d.book.get? d.call.dest = some address)
    (he : endpoints address since = .fails ms e) : Fails m (.connection d.call.dest (.io e))
  /-- Connecting takes longer than it may. -/
  | late {address since t} (hb : d.book.get? d.call.dest = some address)
    (ht : d.timeout = some t) (hl : ∀ ms, (endpoints address since).takes? = some ms → t < ms) :
    Fails m (.connection d.call.dest Handshake.lateConnection)
  /-- There was a connection, and its other end was given up. -/
  | broken {e} (ha : d.Answered endpoints) (he : e = .reset ∨ e = .brokenPipe) :
    Fails m (.connection d.call.dest (.io e))

/-- What an opening waits for, whose context is not done. -/
inductive Waits (w : World) : Prop
  /-- Neither is there an answer nor is the time up. As soon as one is, the task is woken. -/
  | connection {a : Attempt} (ht : w.tasks[d.place]? = some (.call d.channel (.connecting a)))
    (hv : d.call.context.verdict w.moment = none) (ha : d.Attempts w.moment a)
    (he : ∀ ms, (w.endpoints a.address a.since).takes? = some ms →
      w.moment.now < a.since + ms)
    (htime : ∀ t, d.timeout = some t → w.moment.now < a.since + t)
    (halarm : ∀ m : Moment, m.isCancelled d.call.context.token = false →
      World.step? { w with moment := m } d.place ≠ none →
      ∃ t ∈ w.alarms d.place, w.moment.now < t ∧ t ≤ m.now)
  /-- The connection is full, and its other end is there. -/
  | room {link : Nat} {g : Greeting} {l : Link}
    (ht : w.tasks[d.place]? = some (.call d.channel (.greeting link g)))
    (hv : d.call.context.verdict w.moment = none) (hl : w.links[link]? = some l)
    (hfull : l.bound .left ≤ (l.flow .left).length) (hopen : l.shut .left = false)

/-- The call has no stream yet, and is not done. -/
structure Pending (ds : List Deed) : Prop where
  unopened : linksOf d.place ds = []
  undone : callsOf d.place ds = []

/-- The task writes the handshake on a connection that nobody else has this end of. -/
structure Greets (ds : List Deed) (sent : Bytes) (held : List Nat) (w : World) (link : Nat)
    (g : Greeting) (l : Link) : Prop where
  task : w.tasks[d.place]? = some (.call d.channel (.greeting link g))
  pending : d.Pending ds
  answered : d.Answered endpoints
  there : w.links[link]? = some l
  unmarked : l.wasReset.get .left = false
  sole : w.Sole d.place link
  call : g.call = d.call
  whole : sent ++ g.unsent.flatten = d.handshake
  only : ∀ n ∈ held, n = link

/-- How the task may stand, after these deeds, when these bytes were written and these links were
held. -/
inductive Stand (ds : List Deed) (sent : Bytes) (held : List Nat) (w : World) : Prop
  | dialing (ht : w.tasks[d.place]? = some d.task) (hp : d.Pending ds) (hs : sent = [])
    (hh : held = [])
  | connecting {a : Attempt} (ht : w.tasks[d.place]? = some (.call d.channel (.connecting a)))
    (hp : d.Pending ds) (ha : d.Attempts w.moment a) (hs : sent = []) (hh : held = [])
  | greeting {link : Nat} {g : Greeting} {l : Link}
    (h : d.Greets endpoints ds sent held w link g l)
  | exchanging {link : Nat} {x : Exchange}
    (ht : w.tasks[d.place]? = some (.call d.channel (.exchanging link x)))
    (hn : callsOf d.place ds = []) (ho : linksOf d.place ds ≠ []) (hs : d.handshake <+: sent)
  | opened {c : Call} (h : w.Handing d.place d.channel c ds) (ho : linksOf d.place ds ≠ [])
    (hs : d.handshake <+: sent)
  | failed {e : CallError} (h : w.Handing d.place d.channel (d.call.fail e) ds)
    (ho : linksOf d.place ds = []) (he : d.Fails endpoints w.moment e)
    (hs : sent <+: d.handshake) (hh : ∀ n ∈ held, w.Closed n)

variable {d endpoints} {w w' w₀ : World} {ev : Event} {events : List Event} {a : Attempt}
  {m m' : Moment} {ds ds' : List Deed} {sent : Bytes} {held : List Nat}

theorem Attempts.later (h : d.Attempts m a) (hm : m.Before m') : d.Attempts m' a :=
  { h with begun := Nat.le_trans h.begun hm.now }

theorem Attempts.fails {e : StreamError} (h : d.Attempts m a)
    (hy : a.Yields (endpoints a.address a.since) (.failed e)) :
    d.Fails endpoints m (.connection d.call.dest e) := by
  generalize he : endpoints a.address a.since = endpoint at hy
  cases hy with
  | failed => exact .unreached h.known he
  | late ht hl => exact .late h.known (h.timeout ▸ ht) (he ▸ hl)

theorem Fails.later {e : CallError} (h : d.Fails endpoints m e) (hm : m.Before m') :
    d.Fails endpoints m' e := by
  cases h with
  | stopped hm' hv => exact .stopped (hm'.trans hm) hv
  | unknown hb => exact .unknown hb
  | unreached hb he => exact .unreached hb he
  | late hb ht hl => exact .late hb ht hl
  | broken ha he => exact .broken ha he

theorem Pending.more (h : d.Pending ds) (ho : linksOf d.place ds' = [])
    (hn : callsOf d.place ds' = []) : d.Pending (ds ++ ds') :=
  ⟨by rw [linksOf_append, h.unopened, ho]; rfl, by rw [callsOf_append, h.undone, hn]; rfl⟩

/-! ## What others do -/

/-- What is not its own step leaves an opening where it is. -/
theorem Stand.spared (h : d.Stand endpoints ds sent held w) (ho : w.Occurs ev w')
    (hk : ev.isStep d.place = false) :
    d.Stand endpoints (ds ++ ev.deeds w w') sent held w' := by
  cases h with
  | dialing ht hp hs hh =>
    obtain ⟨ht', hlinks, hcalls⟩ := ho.spares hk ht
    exact .dialing ht' (hp.more hlinks hcalls) hs hh
  | connecting ht hp ha hs hh =>
    obtain ⟨ht', hlinks, hcalls⟩ := ho.spares hk ht
    exact .connecting ht' (hp.more hlinks hcalls) (ha.later ho.before) hs hh
  | greeting h =>
    obtain ⟨ht', hlinks, hcalls⟩ := ho.spares hk h.task
    obtain ⟨l', hl', hacted⟩ := ho.acted (fun i hi => h.sole i hi ▸ hk) h.there
    have hlt := (List.getElem?_eq_some_iff.mp h.there).1
    exact .greeting { h with
      task := ht'
      pending := h.pending.more hlinks hcalls
      there := hl'
      unmarked := hacted.spares.trans h.unmarked
      sole := fun i hi => h.sole i (ho.held hlt hi) }
  | exchanging ht hn hopened hs =>
    obtain ⟨ht', hlinks, hcalls⟩ := ho.spares hk ht
    exact .exchanging ht' (by simp [hn, hcalls]) (by simp [hopened]) hs
  | opened h hopened hs => exact .opened (h.occurs ho).1 (by simp [hopened]) hs
  | failed h hunopened he hs hh =>
    obtain ⟨h', hlinks⟩ := h.occurs ho
    exact .failed h' (by simp [hunopened, hlinks]) (he.later ho.before) hs
      fun n hn => (hh n hn).occurs ho

/-! ## What the task does -/

/-- An opening ends with a step that fails. -/
private theorem Stand.fail {c : CallTask} {e : CallError}
    (ht : w.tasks[d.place]? = some (.call d.channel c)) (hc : ∀ call, c ≠ .delivering call)
    (ht' : w'.tasks[d.place]? = some (.call d.channel (.delivering (d.call.fail e))))
    (hp : d.Pending ds) (he : d.Fails endpoints w'.moment e) (hs : sent <+: d.handshake)
    (hh : ∀ n ∈ held, w'.Closed n) :
    d.Stand endpoints (ds ++ w.deeds w' d.place) sent held w' := by
  have hpending := hp.more (linksOf_of_unopened ht' rfl) (callsOf_of_open ht hc w')
  exact .failed (.waiting ht' hpending.undone) hpending.unopened he hs hh

private theorem Stand.step_dialing (ht : w.tasks[d.place]? = some d.task) (hp : d.Pending ds)
    (hs : w.step? d.place = some w') :
    d.Stand w.endpoints (ds ++ w.deeds w' d.place) (w.written w' d.place) (w'.holding d.place)
      w' := by
  have hlater := before_of_step? hs
  rw [written_of_end? ht rfl]
  cases (steps_of_step? hs).opens ht rfl with
  | failed ht' he =>
    rw [holding_eq ht']
    refine .fail ht (fun _ h => by cases h) ht' hp ?_ List.nil_prefix fun _ h => by cases h
    rcases he with ⟨_, rfl, hr⟩ | hv
    · cases hr with
      | unknown hr hb =>
        cases hr
        exact .unknown hb
      | undialed hr => cases hr
    · exact .stopped hlater hv
  | dialed hr => cases hr
  | connecting hr hb _ ha ht' =>
    cases hr
    subst ha
    have hcalls := callsOf_of_open ht (fun _ h => by cases h) w'
    rw [holding_eq ht']
    exact .connecting ht' (hp.more (linksOf_of_unopened ht' rfl) hcalls)
      ⟨rfl, rfl, rfl, hb, rfl, hlater.now⟩ rfl rfl

private theorem Stand.step_connecting
    (ht : w.tasks[d.place]? = some (.call d.channel (.connecting a))) (hp : d.Pending ds)
    (ha : d.Attempts w.moment a) (hw : w.InOrder) (hs : w.step? d.place = some w') :
    d.Stand w.endpoints (ds ++ w.deeds w' d.place) (w.written w' d.place) (w'.holding d.place)
      w' := by
  have hsteps := steps_of_step? hs
  have hlater := before_of_step? hs
  rw [written_of_end? ht rfl]
  cases hsteps.opens ht (congrArg some ha.call) with
  | failed ht' he =>
    rw [holding_eq ht']
    refine .fail ht (fun _ h => by cases h) ht' hp ?_ List.nil_prefix fun _ h => by cases h
    rcases he with ⟨_, rfl, hr⟩ | hv
    · cases hr with
      | unconnected ho => exact (ha.fails (Attempt.yields_of_outcome? ho)).later hlater
    · exact .stopped hlater hv
  | @connected _ capacity _ _ ho _ _ ht' hl' =>
    have hcalls := callsOf_of_open ht (fun _ h => by cases h) w'
    have hanswered : d.Answered w.endpoints := by
      have hy := Attempt.yields_of_outcome? ho
      generalize he : w.endpoints a.address a.since = endpoint at hy
      cases hy with
      | connected => exact ⟨_, _, _, _, _, _, ha.known, he⟩
    have hthere : w'.links[w.links.length]? = some (.ofCapacity capacity) := by
      rw [hl', List.getElem?_concat_length]
    have hwhole : [] ++ (Greeting.ofAttempt a).unsent.flatten = d.handshake := by
      rw [List.nil_append, Greeting.ofAttempt, Handshake.flatten_pieces, ha.protocol, ha.dialer]
      rfl
    rw [holding_eq ht']
    exact .greeting ⟨ht', hp.more (linksOf_of_unopened ht' rfl) hcalls, hanswered, hthere,
      Link.wasReset_ofCapacity _, hsteps.sole_opened hw, ha.call, hwhole,
      fun _ => List.mem_singleton.mp⟩

private theorem Greets.step {link : Nat} {g : Greeting} {l : Link}
    (h : d.Greets w.endpoints ds sent held w link g l) (hs : w.step? d.place = some w') :
    d.Stand w.endpoints (ds ++ w.deeds w' d.place) (sent ++ w.written w' d.place)
      (held ++ w'.holding d.place) w' := by
  have hsteps := steps_of_step? hs
  have hlater := before_of_step? hs
  have hsole' := hsteps.sole h.sole (List.getElem?_eq_some_iff.mp h.there).1
  have hcalls := callsOf_of_open h.task (fun _ h => by cases h) w'
  obtain ⟨p, l', hg, ht', hl', -⟩ := hsteps.of_greeting h.task h.there
  rw [written_eq h.task rfl h.there hl', holding_eq ht']
  -- who fails here leaves the connection to nobody
  have hfail {e : CallError} (hend : l' = l.drop .left)
      (ht' : w'.tasks[d.place]? = some (.call d.channel (.delivering (g.call.fail e))))
      (he : d.Fails w.endpoints w'.moment e) :
      d.Stand w.endpoints (ds ++ w.deeds w' d.place)
        (sent ++ (l'.flow .left).drop (l.flow .left).length) (held ++ []) w' := by
    subst hend
    rw [Link.flow_drop, List.drop_length, List.append_nil, List.append_nil]
    refine .fail h.task (fun _ h => by cases h) (h.call ▸ ht') h.pending he ⟨_, h.whole⟩
      fun n hn => ?_
    refine h.only n hn ▸ ⟨fun i hi => ?_, _, hl', Link.parted_drop h.unmarked⟩
    obtain rfl := hsole' i hi
    obtain ⟨t, ht₁, he⟩ := hi
    cases ht'.symm.trans ht₁
    cases he
  have hheld (n : Nat) (hn : n ∈ held ++ [link]) : n = link :=
    (List.mem_append.mp hn).elim (h.only n) List.mem_singleton.mp
  cases Greeting.moves_of_step? hg with
  | stopped hv => exact hfail rfl ht' (.stopped hlater (h.call ▸ hv))
  | failed _ he => exact hfail rfl ht' (h.call ▸ .broken h.answered he)
  | @written piece unsent _ hunsent =>
    have hpending := h.pending.more (linksOf_of_unopened ht' rfl) hcalls
    refine .greeting ⟨ht', hpending, h.answered, hl', h.unmarked, hsole', h.call, ?_, hheld⟩
    rw [Link.flow_put, if_pos rfl, List.drop_left, List.append_assoc, ← hunsent, h.whole]
  | opened _ hunsent =>
    have hsent := h.whole
    rw [hunsent, List.flatten_nil, List.append_nil] at hsent
    rw [List.drop_length, List.append_nil]
    exact .exchanging ht' (by simp [h.pending.undone, hcalls])
      (by simp [linksOf_of_opened h.task rfl ht']) (hsent ▸ List.prefix_refl _)

/-- A step of the task, with what it writes and what it holds then. -/
theorem Stand.step (h : d.Stand w.endpoints ds sent held w) (hw : w.InOrder)
    (hs : w.step? d.place = some w') :
    d.Stand w.endpoints (ds ++ w.deeds w' d.place) (sent ++ w.written w' d.place)
      (held ++ w'.holding d.place) w' := by
  have hoccurs : w.Occurs (.move (.step d.place)) w' := .step hs
  cases h with
  | dialing ht hp hsent hh =>
    rw [hsent, hh]
    exact step_dialing ht hp hs
  | connecting ht hp ha hsent hh =>
    rw [hsent, hh]
    exact step_connecting ht hp ha hw hs
  | greeting h => exact h.step hs
  | @exchanging link x ht hn ho hsent =>
    have hl := List.getElem?_eq_getElem (hw.held _ _ _ ⟨_, ht, rfl⟩)
    have hcalls := callsOf_of_open ht (fun _ h => by cases h) w'
    obtain ⟨p, l', -, ht', -, -⟩ := (steps_of_step? hs).of_exchanging ht hl
    have hundone : callsOf d.place (ds ++ w.deeds w' d.place) = [] := by simp [hn, hcalls]
    have hopened : linksOf d.place (ds ++ w.deeds w' d.place) ≠ [] := by simp [ho]
    have hsent' := hsent.trans (List.prefix_append sent (w.written w' d.place))
    cases p with
    | more => exact .exchanging ht' hundone hopened hsent'
    | done => exact .opened (.waiting ht' hundone) hopened hsent'
  | opened h ho hsent =>
    exact .opened (h.occurs hoccurs).1 (by simp [ho]) (hsent.trans (List.prefix_append ..))
  | failed h ho he hsent hh =>
    obtain ⟨h', hlinks⟩ := h.occurs hoccurs
    obtain ⟨t, ht, hend⟩ := h.end?
    obtain ⟨t', ht', hend'⟩ := h'.end?
    rw [written_of_end? ht hend, holding_eq ht', hend', List.append_nil]
    have hunopened : linksOf d.place (ds ++ w.deeds w' d.place) = [] :=
      (linksOf_append ..).trans (by rw [ho]; exact hlinks)
    refine .failed h' hunopened (he.later hoccurs.before) hsent fun n hn => ?_
    exact (hh n (List.append_nil held ▸ hn)).occurs hoccurs

/-! ## What that says -/

theorem Stand.whole (h : d.Stand endpoints ds sent held w) (ho : linksOf d.place ds ≠ []) :
    d.handshake <+: sent := by
  cases h with
  | dialing _ hp | connecting _ hp => exact absurd hp.unopened ho
  | greeting h => exact absurd h.pending.unopened ho
  | exchanging _ _ _ hs | opened _ _ hs => exact hs
  | failed _ hn => exact absurd hn ho

theorem Stand.front (h : d.Stand endpoints ds sent held w) (ho : linksOf d.place ds = []) :
    sent <+: d.handshake := by
  cases h with
  | dialing _ _ hs | connecting _ _ _ hs => exact hs ▸ List.nil_prefix
  | greeting h => exact ⟨_, h.whole⟩
  | exchanging _ _ hopened | opened _ hopened => exact absurd ho hopened
  | failed _ _ _ hs => exact hs

theorem Stand.excused {c : Call} (h : d.Stand endpoints ds sent held w)
    (ho : linksOf d.place ds = []) (hc : c ∈ callsOf d.place ds) :
    (∃ e, c = d.call.fail e ∧ d.Fails endpoints w.moment e) ∧ ∀ link ∈ held, w.Closed link := by
  have hover (hp : d.Pending ds) : False := List.not_mem_nil (hp.undone ▸ hc)
  cases h with
  | dialing _ hp | connecting _ hp => exact (hover hp).elim
  | greeting h => exact (hover h.pending).elim
  | exchanging _ _ hopened | opened _ hopened => exact absurd ho hopened
  | failed h _ he _ hh => exact ⟨⟨_, h.eq_of_mem hc, he⟩, hh⟩

/-- An opening that waits has a reason to. -/
theorem Stand.waits (h : d.Stand endpoints ds sent held w) (hopen : w.InProgress d.place)
    (ho : linksOf d.place ds = []) (hn : w.step? d.place = none) : d.Waits w := by
  cases h with
  | dialing ht =>
    rw [step?, ht] at hn
    cases hn
  | @connecting a ht hp ha =>
    have hwaits := hn
    rw [step?_connecting ht, Option.map_eq_none_iff, stepConnecting?_eq_none_iff,
      Attempt.outcome?_eq_none_iff] at hwaits
    obtain ⟨hv, he, htime⟩ := hwaits
    have hsince := ha.begun
    refine .connection ht (ha.call ▸ hv) ha (fun ms hms => ?_) (fun t ht => ?_) fun m hm hs => ?_
    · have := he ms hms
      omega
    · have := htime t (ha.timeout ▸ ht)
      omega
    · exact alarm_of_connecting ht hsince hn (ha.call ▸ hm) hs
  | greeting h =>
    rw [step?_greeting h.task h.there, Option.map_eq_none_iff] at hn
    obtain ⟨hv, hfull, hopen⟩ := Greeting.waits_of_step? hn
    exact .room h.task (h.call ▸ hv) h.there hfull hopen
  | exchanging _ _ hopened => exact absurd ho hopened
  | opened h | failed h => exact absurd hopen h.not_inProgress

/-! ## All that happens -/

theorem stand_of_play? (hw : w₀.InOrder) (ht : w₀.tasks[d.place]? = some d.task)
    (hplay : play? events w₀ = some w) :
    d.Stand w₀.endpoints (history events w₀) (World.sent d.place events w₀)
      (World.held d.place events w₀) w := by
  let P (past : List Event) (w : World) : Prop :=
    (w.endpoints = w₀.endpoints ∧ w.InOrder) ∧ d.Stand w₀.endpoints (history past w₀)
      (World.sent d.place past w₀) (World.held d.place past w₀) w
  suffices hP : P events w from hP.2
  refine play?_induct (P := P) ⟨⟨rfl, hw⟩, .dialing ht ⟨rfl, rfl⟩ rfl rfl⟩ ?_ hplay
  intro past w ev w' hpast ⟨⟨he, hw⟩, hstand⟩ hev
  have ho := occurs_of_event? hev
  refine ⟨⟨ho.endpoints.trans he, ho.inOrder hw⟩, ?_⟩
  simp only [history, World.sent, World.held, seen_concat hpast hev]
  cases hk : ev.isStep d.place with
  | false =>
    simp only [Bool.false_eq_true, if_false, List.append_nil]
    exact hstand.spared ho hk
  | true =>
    rcases ho.step_or_stays with ⟨i, rfl, hs⟩ | ⟨hother, -⟩
    · obtain rfl : i = d.place := eq_of_beq hk
      exact he ▸ (he ▸ hstand).step hw hs
    · cases hk.symm.trans (hother d.place)

/-- Whatever happens besides, a call to an address has a stream only when it has written the whole
handshake on it, and what it writes from then on comes behind the handshake. Without a stream it has
written no more than a front of the handshake. If it is over then, it ended with an error for which
there was a cause, and its connection is closed: who reads at the other end finds what was written,
and then the end. If it is not over and waits, it has a reason to. -/
theorem opening_of_play? (hw : w₀.InOrder) (ht : w₀.tasks[d.place]? = some d.task)
    (hplay : play? events w₀ = some w) :
    (linksOf d.place (history events w₀) ≠ [] →
      d.handshake <+: World.sent d.place events w₀) ∧
    (linksOf d.place (history events w₀) = [] →
      World.sent d.place events w₀ <+: d.handshake ∧
      (∀ c ∈ callsOf d.place (history events w₀),
        (∃ e, c = d.call.fail e ∧ d.Fails w₀.endpoints w.moment e) ∧
        ∀ link ∈ World.held d.place events w₀,
          w.Closed link ∧ ∃ l, w.links[link]? = some l ∧ l.TellsEnd) ∧
      (w.InProgress d.place → w.step? d.place = none → d.Waits w)) := by
  have hstand := stand_of_play? hw ht hplay
  refine ⟨hstand.whole, fun ho => ⟨hstand.front ho, fun c hc => ?_, fun hopen => ?_⟩⟩
  · obtain ⟨hfails, hclosed⟩ := hstand.excused ho hc
    refine ⟨hfails, fun link hlink => ⟨hclosed link hlink, ?_⟩⟩
    obtain ⟨-, l, hl, hparted⟩ := hclosed link hlink
    exact ⟨l, hl, hparted.tellsEnd⟩
  · exact hstand.waits hopen ho

/-- A call to the one address there is, which answers at once. -/
example :
    let w : World := {
      endpoints := fun _ _ => .answers 0 64 0 []
      tasks := [.call 0 (.dialing { Receiving.question with dest := ⟨"bob"⟩ } .standard
        ⟨⟨"alice"⟩, .dialing ⟨[(⟨"bob"⟩, .loopback)]⟩ none⟩ .standard)] }
    linksOf 0 (history (List.replicate 11 (.move (.step 0))) w) = [0] ∧
      World.sent 0 (List.replicate 11 (.move (.step 0))) w =
        Handshake.greeting .standard ⟨"alice"⟩ := by
  decide

end Departure

end PeerCall
