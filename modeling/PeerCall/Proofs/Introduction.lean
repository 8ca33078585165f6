import PeerCall.Proofs.Admission
import PeerCall.Proofs.Heeding
import PeerCall.Proofs.World.Callers
import PeerCall.Proofs.World.Comings

/-! # Introductions

Whom a server is invoked for is whomever the caller says he is. On the network that is the identity
of the host that opened the stream (`World.dialers`), and for a call to oneself the identity of the
client (`World.callers`), which is empty without a host. Nothing that happens later changes it
(`World.Speaks.occurs`, `World.Enters.occurs`). So a server can tell a caller that came over a stream
from a client without a host exactly if the caller gave an identity that is not empty.
Main statement: `World.introduced_of_play?`. -/

namespace PeerCall

namespace World

/-! ## Who dials and who calls -/

/-- Who opens a stream in an event, if one is opened. -/
def Event.dialer? (w : World) : Event → Option PeerId
  | .dial dialer _ _ _ _ => some dialer
  | .move (.step i) =>
    match w.tasks[i]? with
    | some (.call _ (.dialing _ _ host _)) => some host.id
    | some (.call _ (.connecting a)) => some a.dialer
    | _ => none
  | _ => none

/-- The stream that an event opens, with the identity of who opens it. -/
def Event.dialed (w w' : World) (ev : Event) : List (Nat × PeerId) :=
  if w.links.length < w'.links.length then (ev.dialer? w).toList.map (w.links.length, ·) else []

/-- The call that an event starts, with its client. -/
def Event.called (w : World) : Event → List (Nat × Client)
  | .call client _ _ => [(w.tasks.length, client)]
  | _ => []

/-- All streams that are opened, each with the identity of who opens it. -/
def dialers : List Event → World → List (Nat × PeerId) := seen fun w ev w' => ev.dialed w w'

/-- All calls that are started, each with its client. -/
def callers : List Event → World → List (Nat × Client) := seen fun w ev _ => ev.called w

variable {w w' : World} {ev : Event} {events : List Event} {i j k link : Nat} {p : PeerId}
  {ds : List Deed}

/-- A stream that is dialed arrives from who has dialed it. -/
private theorem dialer_of_dial {dialer dest : PeerId} {protocol : ProtocolId} {network : Network}
    (hw : w.InOrder) (hd : w.network.dial dialer dest protocol w.links.length = .ok network) :
    ∀ a ∈ network.arrivals w.links.length, a.dialer = dialer := by
  intro a ha
  rw [Network.arrivals_dial hd _ (hw.arrivals (Nat.le_refl _)), if_pos rfl] at ha
  rw [List.mem_singleton.mp ha]

/-- An event opens no stream, or one, from somebody. -/
theorem opens_of_event? (hw : w.InOrder) (h : w.event? ev = some w') :
    w'.links.length = w.links.length ∨ ∃ dialer, ev.dialer? w = some dialer ∧
      (∀ a ∈ w'.network.arrivals w.links.length, a.dialer = dialer) ∧
      w'.links.length = w.links.length + 1 := by
  cases ev with
  | move mv =>
    cases mv with
    | step i =>
      cases steps_of_step? h with
      | dialed ht _ hd =>
        exact .inr ⟨_, by rw [Event.dialer?, ht], dialer_of_dial hw hd, List.length_append⟩
      | connected ht =>
        refine .inr ⟨_, by rw [Event.dialer?, ht], fun a ha => ?_, List.length_append⟩
        have hnone : a ∈ w.network.arrivals w.links.length := ha
        rw [hw.arrivals (Nat.le_refl _)] at hnone
        cases hnone
      | greeted | exchanged | responded | scripted => exact .inl (List.length_set ..)
      | turnedAway => exact .inl (List.length_modify ..)
      | _ => exact .inl rfl
    | clock now =>
      simp only [event?, move?] at h
      split at h <;> cases h
      exact .inl rfl
    | fire t =>
      cases h
      exact .inl rfl
  | call client call channel =>
    have h := ok_of_toOption h
    unfold start at h
    split at h <;> cases h
    exact .inl rfl
  | dial dialer dest protocol owner actions =>
    have h := ok_of_toOption h
    unfold World.dial at h
    split at h <;> cases h
    exact .inr ⟨_, rfl, dialer_of_dial hw ‹_›, List.length_append⟩
  | join | leave =>
    cases h
    exact .inl rfl

/-! ## Who is on a stream -/

/-- Whoever opened a stream is known there, wherever it is: while it waits, to the task that answers
on it, and to the server. -/
structure Speaks (w : World) (link : Nat) (p : PeerId) (ds : List Deed) : Prop where
  lt : link < w.links.length
  arrival : ∀ a ∈ w.network.arrivals link, a.dialer = p
  task : ∀ (i owner : Nat) (r : Responder), w.tasks[i]? = some (.respond owner link r) →
    r.peer = p ∧ r.Sound
  note : ∀ n ∈ invokedAt link ds, n.invocation.peer = p

theorem Speaks.step (h : w.Speaks link p ds) (hs : w.Steps i w') :
    w'.Speaks link p (ds ++ w.deeds w' i) where
  lt := Nat.lt_of_lt_of_le h.lt hs.length_links
  arrival a ha := by
    rcases hs.network with hn | ⟨_, _, _, hd, -⟩ | ⟨_, _, -, hn⟩
    · exact h.arrival a (hn ▸ ha)
    · rw [Network.arrivals_dial_of_ne hd (Nat.ne_of_gt h.lt)] at ha
      exact h.arrival a ha
    · obtain ⟨before, after, hafter, hbefore⟩ := Network.arrivals_receive hn link
      rw [hafter] at ha
      refine h.arrival a (hbefore ▸ ?_)
      exact List.mem_append.mpr ((List.mem_append.mp ha).imp_left (List.mem_append_left _))
  task j owner r ht := by
    rcases hs.responder ht with ht | ⟨r₀, l, turn, ht₀, hr, rfl⟩ |
      ⟨inbox, a, codec, token, site, ⟨-, network, hn⟩, rfl, rfl⟩
    · exact h.task j owner r ht
    · obtain ⟨hpeer, hsound⟩ := h.task j owner r₀ ht₀
      have hm := Responder.moves_of_step? hsound hr
      exact ⟨hm.same.peer.trans hpeer, hm.sound⟩
    · exact ⟨h.arrival a (Network.mem_arrivals_of_receive hn), FrameReader.sound_start⟩
  note n hn := by
    rw [invokedAt_append, List.mem_append] at hn
    rcases hn with hn | hn
    · exact h.note n hn
    · rw [invokedAt_deeds] at hn
      split at hn
      case isFalse => cases hn
      rename_i ha
      unfold answers? at ha
      split at ha
      case h_2 => cases ha
      rename_i ht
      cases ha
      obtain ⟨l, turn, -, hr, rfl⟩ := hs.of_responding ht
      obtain ⟨hpeer, hsound⟩ := h.task i _ _ ht
      rw [List.drop_left] at hn
      exact ((Responder.moves_of_step? hsound hr).of_noted hn).2.trans hpeer

theorem Speaks.occurs (h : w.Speaks link p ds) (ho : w.Occurs ev w') :
    w'.Speaks link p (ds ++ ev.deeds w w') := by
  rcases ho.step_or_stays with ⟨i, rfl, hs⟩ | ⟨-, hstays, hnil⟩
  · exact h.step (steps_of_step? hs)
  · rw [hnil, List.append_nil]
    refine ⟨Nat.lt_of_lt_of_le h.lt hstays.length_links, fun a ha => ?_, fun i owner r ht => ?_,
      h.note⟩
    · exact h.arrival a ((hstays.overlooks link h.lt).arrivals ▸ ha)
    · obtain ⟨t, ht₀, -⟩ := hstays.holds i link .right h.lt ⟨_, ht, rfl⟩
      rw [hstays.task i t ht₀] at ht
      cases ht
      exact h.task i owner r ht₀

/-- Nobody answers at once on a stream that is opened. -/
theorem InOrder.unanswered_new (hw : w.InOrder) (ho : w.Occurs ev w') {owner : Nat}
    {r : Responder} : w'.tasks[i]? ≠ some (.respond owner w.links.length r) := by
  intro ht
  have hold {r₀ : Responder} (ht₀ : w.tasks[i]? = some (.respond owner w.links.length r₀)) : False :=
    Nat.lt_irrefl _ (hw.held i _ .right ⟨_, ht₀, rfl⟩)
  cases ho with
  | step hs =>
    rcases (steps_of_step? hs).responder ht with ht₀ | ⟨r₀, _, _, ht₀, -⟩ | ⟨_, a, _, _, _, ha, hl, -⟩
    · exact hold ht₀
    · exact hold ht₀
    · exact Nat.lt_irrefl _ (hl ▸ hw.queued _ ha.arrivals)
  | passed => exact hold ht
  | came _ hc =>
    rcases hc.holds ⟨_, ht, rfl⟩ with hh | ⟨-, -, hs⟩
    · exact Nat.lt_irrefl _ (hw.held _ _ _ hh)
    · cases hs

theorem speaks_of_opened (hw : w.InOrder) (ho : w.Occurs ev w')
    (ha : ∀ a ∈ w'.network.arrivals w.links.length, a.dialer = p)
    (hlt : w.links.length < w'.links.length) (hn : invokedAt w.links.length ds = []) :
    w'.Speaks w.links.length p (ds ++ ev.deeds w w') where
  lt := hlt
  arrival := ha
  task _ _ _ ht := absurd ht (hw.unanswered_new ho)
  note n hmem := by
    rw [invokedAt_append, hn, ho.invokedAt hw (Nat.le_refl _)] at hmem
    cases hmem

/-! ## Who calls himself -/

/-- Whoever has started a call is known to the local server, if he calls it. -/
structure Enters (w : World) (k : Nat) (p : PeerId) (ds : List Deed) : Prop where
  lt : k < w.tasks.length
  task : ∀ (channel : Nat) (call : Call) (codec : Codec) (peer : PeerId) (site : Option Site),
    w.tasks[k]? = some (.call channel (.entering call codec peer site)) → peer = p
  note : ∀ n ∈ invokedBy k ds, n.invocation.peer = p

/-- Who invokes the local server has just entered it. -/
theorem Steps.entered_of_mem {n : Note} (hs : w.Steps i w')
    (hn : n ∈ World.invokedBy k (w.deeds w' i)) : ∃ channel call codec site,
      w.tasks[k]? = some (.call channel (.entering call codec n.invocation.peer site)) := by
  rw [invokedBy_deeds] at hn
  split at hn
  case isFalse => cases hn
  rename_i hi
  obtain ⟨rfl, ha⟩ := hi
  cases hs with
  | @entered _ _ _ _ _ site inv ht _ hinv =>
    have hn : n ∈ (w.notes ++ [(⟨site.number, inv, _⟩ : Note)]).drop w.notes.length := hn
    rw [List.drop_left, List.mem_singleton] at hn
    rw [hn, hinv]
    exact ⟨_, _, _, _, ht⟩
  | responded ht =>
    rw [answers?, ht] at ha
    cases ha
  | _ =>
    have hn : n ∈ w.notes.drop w.notes.length := hn
    rw [List.drop_length] at hn
    cases hn

theorem Enters.occurs (h : w.Enters k p ds) (ho : w.Occurs ev w') :
    w'.Enters k p (ds ++ ev.deeds w w') := by
  rcases ho.step_or_stays with ⟨i, rfl, hs⟩ | ⟨-, hstays, hnil⟩
  · have hs := steps_of_step? hs
    refine ⟨Nat.lt_of_lt_of_le h.lt hs.length_tasks, fun channel call codec peer site ht => ?_,
      fun n hn => ?_⟩
    · exact h.task channel call codec peer site (hs.enterer ht rfl)
    · rw [invokedBy_append, List.mem_append] at hn
      rcases hn with hn | hn
      · exact h.note n hn
      · obtain ⟨channel, call, codec, site, ht⟩ := hs.entered_of_mem hn
        exact h.task channel call codec _ site ht
  · obtain ⟨t, ht⟩ : ∃ t, w.tasks[k]? = some t := ⟨_, List.getElem?_eq_getElem h.lt⟩
    have ht' := hstays.task k t ht
    rw [hnil, List.append_nil]
    refine ⟨(List.getElem?_eq_some_iff.mp ht').1, fun channel call codec peer site hc => ?_, h.note⟩
    rw [ht', ← ht] at hc
    exact h.task channel call codec peer site hc

/-- A task that was not there has not invoked the local server. -/
theorem Occurs.uninvoked (ho : w.Occurs ev w') (hk : w.tasks.length ≤ k) :
    invokedBy k (ev.deeds w w') = [] := by
  rcases ho.step_or_stays with ⟨i, rfl, hs⟩ | ⟨-, -, hnil⟩
  · refine List.eq_nil_iff_forall_not_mem.mpr fun n hn => ?_
    obtain ⟨_, _, _, _, ht⟩ := (steps_of_step? hs).entered_of_mem hn
    exact Nat.not_lt_of_le hk (List.getElem?_eq_some_iff.mp ht).1
  · rw [hnil]
    rfl

theorem enters_of_start {client : Client} {call : Call} {channel : Nat}
    (h : w.start client call channel = .ok w') (hn : invokedBy w.tasks.length ds = []) :
    w'.Enters w.tasks.length client.id ds := by
  unfold start at h
  split at h <;> cases h
  rename_i c hc
  have ht : ((w.modifyChannel channel Channel.addSender).spawn
      (.call channel c)).tasks[w.tasks.length]? = some (.call channel c) :=
    List.getElem?_concat_length ..
  refine ⟨(List.getElem?_eq_some_iff.mp ht).1, fun _ _ _ _ _ he => ?_, fun n hmem => ?_⟩
  · cases ht.symm.trans he
    unfold taskOf at hc
    split at hc <;> cases hc
    rfl
  · rw [hn] at hmem
    cases hmem

/-! ## All that happens -/

/-- Everybody is known by what he said he is. -/
structure Voices (first : Nat) (ds : List (Nat × PeerId)) (cs : List (Nat × Client))
    (past : List Deed) (w : World) : Prop where
  inOrder : w.InOrder
  grown : first ≤ w.links.length
  links : ds.map Prod.fst = List.range' first (w.links.length - first)
  speaks : ∀ d ∈ ds, w.Speaks d.1 d.2 past
  enters : ∀ c ∈ cs, w.Enters c.1 c.2.id past
  unopened : ∀ link, w.links.length ≤ link → invokedAt link past = []
  unstarted : ∀ k, w.tasks.length ≤ k → invokedBy k past = []

section

variable {first : Nat} {opened : List (Nat × PeerId)} {started : List (Nat × Client)}

/-- Streams are numbered as they are opened. -/
theorem Voices.links_of_opened (h : w.Voices first opened started ds)
    (hl : w'.links.length = w.links.length + 1) :
    (opened ++ [(w.links.length, p)]).map Prod.fst =
      List.range' first (w'.links.length - first) := by
  have hsub : w'.links.length - first = w.links.length - first + 1 := by
    have := h.grown
    omega
  rw [List.map_append, h.links, hsub, List.range'_concat, Nat.one_mul,
    Nat.add_sub_cancel' h.grown]
  rfl

theorem Voices.dialed (h : w.Voices first opened started ds) (hev : w.event? ev = some w') :
    (opened ++ ev.dialed w w').map Prod.fst = List.range' first (w'.links.length - first) ∧
      ∀ d ∈ opened ++ ev.dialed w w', w'.Speaks d.1 d.2 (ds ++ ev.deeds w w') := by
  have ho := occurs_of_event? hev
  rcases opens_of_event? h.inOrder hev with hl | ⟨dialer, hp, ha, hl⟩
  · rw [Event.dialed, if_neg (hl ▸ Nat.lt_irrefl _), List.append_nil, hl]
    exact ⟨h.links, fun d hd => (h.speaks d hd).occurs ho⟩
  · have hlt : w.links.length < w'.links.length := hl ▸ Nat.lt_succ_self _
    rw [Event.dialed, if_pos hlt, hp]
    refine ⟨h.links_of_opened hl, fun d hmem => ?_⟩
    rcases List.mem_append.mp hmem with hmem | hmem
    · exact (h.speaks d hmem).occurs ho
    · rw [List.mem_singleton.mp hmem]
      exact speaks_of_opened h.inOrder ho ha hlt (h.unopened _ (Nat.le_refl _))

theorem Voices.called (h : w.Voices first opened started ds) (hev : w.event? ev = some w') :
    ∀ c ∈ started ++ ev.called w, w'.Enters c.1 c.2.id (ds ++ ev.deeds w w') := by
  intro c hmem
  rcases List.mem_append.mp hmem with hmem | hmem
  · exact (h.enters c hmem).occurs (occurs_of_event? hev)
  · cases ev with
    | call client call channel =>
      rw [List.mem_singleton.mp hmem]
      refine enters_of_start (ok_of_toOption hev) ?_
      exact (invokedBy_append ..).trans (by rw [h.unstarted _ (Nat.le_refl _)]; rfl)
    | move | dial | join | leave => cases hmem

/-- No place of a task is lost. -/
theorem Occurs.length_tasks (ho : w.Occurs ev w') : w.tasks.length ≤ w'.tasks.length := by
  rcases ho.step_or_stays with ⟨i, -, hs⟩ | ⟨-, hstays, -⟩
  · exact (steps_of_step? hs).length_tasks
  · apply Nat.le_of_not_lt
    intro hlt
    have ht := hstays.task _ _ (List.getElem?_eq_getElem hlt)
    exact Nat.lt_irrefl _ (List.getElem?_eq_some_iff.mp ht).1

theorem Voices.event (h : w.Voices first opened started ds) (hev : w.event? ev = some w') :
    w'.Voices first (opened ++ ev.dialed w w') (started ++ ev.called w) (ds ++ ev.deeds w w') := by
  have ho := occurs_of_event? hev
  obtain ⟨hlinks, hspeaks⟩ := h.dialed hev
  refine ⟨ho.inOrder h.inOrder, Nat.le_trans h.grown ho.length_links, hlinks, hspeaks,
    h.called hev, fun link hl => ?_, fun k hk => ?_⟩
  · have hl := Nat.le_trans ho.length_links hl
    rw [invokedAt_append, h.unopened link hl, ho.invokedAt h.inOrder hl]
    rfl
  · have hk := Nat.le_trans ho.length_tasks hk
    rw [invokedBy_append, h.unstarted k hk, ho.uninvoked hk]
    rfl

theorem voices_of_play? {w₀ : World} (hw : w₀.InOrder) (hplay : play? events w₀ = some w) :
    w.Voices w₀.links.length (dialers events w₀) (callers events w₀) (history events w₀) := by
  refine play?_induct (P := fun events w => w.Voices w₀.links.length (dialers events w₀)
    (callers events w₀) (history events w₀)) ?_ (fun past w ev w' hpast h hev => ?_) hplay
  · refine ⟨hw, Nat.le_refl _, ?_, nofun, nofun, fun _ _ => rfl, fun _ _ => rfl⟩
    rw [Nat.sub_self]
    rfl
  · have h' := h.event hev
    rwa [dialers, callers, history, ← seen_concat hpast hev, ← seen_concat hpast hev,
      ← seen_concat hpast hev] at h'

end

/-- Whom a server is invoked for is whomever the caller said he was. -/
structure Introduced (events : List Event) (w₀ w : World) : Prop where
  /-- Every stream is opened by somebody, and once. -/
  opened : (dialers events w₀).map Prod.fst =
    List.range' w₀.links.length (w.links.length - w₀.links.length)
  answering : ∀ d ∈ dialers events w₀, ∀ (i owner : Nat) (r : Responder),
    w.tasks[i]? = some (.respond owner d.1 r) → r.peer = d.2
  invoked : ∀ d ∈ dialers events w₀, ∀ n ∈ invokedAt d.1 (history events w₀),
    n.invocation.peer = d.2
  entered : ∀ c ∈ callers events w₀, ∀ n ∈ invokedBy c.1 (history events w₀),
    n.invocation.peer = c.2.id
  /-- Who has come over a stream is taken for a client without a host if he gave no name, and only
  then. -/
  here : ∀ d ∈ dialers events w₀, ∀ n ∈ invokedAt d.1 (history events w₀),
    ∀ c ∈ callers events w₀, c.2.host = none → ∀ n' ∈ invokedBy c.1 (history events w₀),
      n.invocation.peer = n'.invocation.peer ↔ d.2.isHere = true

/-- Over a stream of the network as over a dialed connection, a server is invoked for whomever the
caller said he was. -/
theorem introduced_of_play? {w₀ : World} (hw : w₀.InOrder) (hplay : play? events w₀ = some w)
    (site : Site) (codec : Codec) (token : Token) (expected : ProtocolId)
    (deadline capacity : Nat) (acts : List Admission.Act) : Introduced events w₀ w ∧
      ((Admission.accept site codec token expected deadline capacity).run acts).Introduced
        expected := by
  have h := voices_of_play? hw hplay
  refine ⟨⟨h.links, fun d hd i owner r ht => ?_, fun d hd => (h.speaks d hd).note,
    fun c hc => (h.enters c hc).note, fun d hd n hn c hc hhost n' hn' => ?_⟩,
    Admission.introduced_of_run acts⟩
  · exact ((h.speaks d hd).task i owner r ht).1
  · have hid : c.2.id = .here := by rw [Client.id, hhost]
    rw [(h.speaks d hd).note n hn, (h.enters c hc).note n' hn', hid, PeerId.isHere_iff]

/-! ## An evening with strangers -/

/-- A client without a host, with a server of its own. -/
def loner : Client where
  host := none
  server := some ⟨9, fun _ => .finish none (some [1])⟩

/-- A client asks bob, and the loner asks himself. -/
def gathering (client : Client) : List Event :=
  .call client Receiving.question 0 :: .call loner musing 0 ::
    [1, 0, 1, 2, 3, 3].map fun i => .move (.step i)

/-- A dialer introduces himself and asks, and his connection is seen to. -/
def knock (p : PeerId) : List Admission.Act :=
  .dialer (.write (Handshake.greeting .standard p ++
    Chore.bytes (Exchange.request .standard Receiving.question))) ::
      List.replicate 6 (.turn {})

/-- A connection to bob. -/
def door : Admission :=
  .accept ⟨7, fun _ => .finish none (some [1])⟩ .standard (.root 0) .standard 100 1000

/-- Alice is known as alice, wherever she comes from. -/
theorem introduced_named_caller : ∃ w n n' i,
    play? (gathering alice) (evening fun _ => .finish none (some [1])) = some w ∧
      invokedAt 0 (history (gathering alice) (evening fun _ => .finish none (some [1]))) = [n] ∧
      invokedBy 2 (history (gathering alice) (evening fun _ => .finish none (some [1]))) = [n'] ∧
      n.invocation.peer = ⟨"alice"⟩ ∧ n'.invocation.peer = .here ∧
      (door.run (knock ⟨"alice"⟩)).invoked = [i] ∧ i.peer.isHere = false := by
  obtain ⟨w, n, n', hplay, hn, hn', hd, hc⟩ : ∃ w n n',
      play? (gathering alice) (evening fun _ => .finish none (some [1])) = some w ∧
      invokedAt 0 (history (gathering alice) (evening fun _ => .finish none (some [1]))) = [n] ∧
      invokedBy 2 (history (gathering alice) (evening fun _ => .finish none (some [1]))) = [n'] ∧
      (0, ⟨"alice"⟩) ∈ dialers (gathering alice) (evening fun _ => .finish none (some [1])) ∧
      (2, loner) ∈ callers (gathering alice) (evening fun _ => .finish none (some [1])) :=
    ⟨_, _, _, rfl, rfl, rfl, .head _, .tail _ (.head _)⟩
  obtain ⟨i, hi⟩ : ∃ i, (door.run (knock ⟨"alice"⟩)).invoked = [i] := ⟨_, rfl⟩
  obtain ⟨h, hdoor⟩ := introduced_of_play? (inOrder_evening _) hplay
    ⟨7, fun _ => .finish none (some [1])⟩ .standard (.root 0) .standard 100 1000 (knock ⟨"alice"⟩)
  refine ⟨w, n, n', i, hplay, hn, hn', h.invoked _ hd n (hn ▸ List.mem_cons_self),
    h.entered _ hc n' (hn' ▸ List.mem_cons_self), hi, ?_⟩
  have hpeer : i.peer = ⟨"alice"⟩ :=
    (hdoor.invoked i (hi ▸ List.mem_cons_self) _).mpr ⟨⟨_, rfl⟩, by decide⟩
  rw [hpeer]
  rfl

/-- Somebody who gives no name. -/
def nobody : Client where
  host := some ⟨.here, .network⟩

/-- Who gives no name is invoked for as the loner is, wherever he comes from. -/
theorem mistaken_nameless_caller : (∃ w n n',
    play? (gathering nobody) (evening fun _ => .finish none (some [1])) = some w ∧
      invokedAt 0 (history (gathering nobody) (evening fun _ => .finish none (some [1]))) = [n] ∧
      invokedBy 2 (history (gathering nobody) (evening fun _ => .finish none (some [1]))) = [n'] ∧
      n.invocation.peer.isHere = true ∧ n.invocation.peer = n'.invocation.peer) ∧
    ∃ i, (door.run (knock .here)).invoked = [i] ∧ i.peer.isHere = true :=
  ⟨⟨_, _, _, rfl, rfl, rfl, rfl, rfl⟩, _, rfl, rfl⟩

end World

end PeerCall
