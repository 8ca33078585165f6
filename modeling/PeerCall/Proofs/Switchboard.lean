import PeerCall.Proofs.Arrivals
import PeerCall.World

/-! # The switchboard

Peers join the network and leave it, hosts open streams, and streams are taken out of inboxes and
inboxes given up, in any order. From what was done and what came of it alone one can tell which inbox
is dialed under an identity (`Switchboard.holder`), which streams were put into an inbox
(`Switchboard.sent`) and which came out of it (`Switchboard.received`). The network agrees with that
at every moment (`Switchboard.Kept.run`). -/

namespace PeerCall

/-! ## What is done and what comes of it -/

/-- Opens a stream from a host: a fresh link, whose right end is handed to the peer. -/
def World.openStream (w : World) (host : Host) (peer : PeerId) (protocol : ProtocolId) :
    Except StreamError (Nat × World) :=
  match w.network.dial host.id peer protocol w.links.length with
  | .error e => .error e
  | .ok network => .ok ({ w with network }.addLink (.ofCapacity World.linkCapacity))

/-- A call that is not given up opens its stream so. -/
theorem World.stepDialing_eq {w : World} {call : Call} {codec : Codec} {host : Host}
    {protocol : ProtocolId} (hv : call.context.verdict w.moment = none)
    (hr : host.reach = .network) : w.stepDialing call codec host protocol =
      match w.openStream host call.dest protocol with
      | .error e => (.delivering (call.fail (.connection call.dest e)), w)
      | .ok (link, w) => (.exchanging link (.ofCall codec call), w) := by
  unfold stepDialing openStream
  rw [hv, hr]
  cases w.network.dial host.id call.dest protocol w.links.length <;> rfl

namespace Switchboard

inductive Act
  /-- A peer joins, which opens an inbox. -/
  | join (p : PeerId)
  | leave (p : PeerId)
  | dial (host : Host) (peer : PeerId) (protocol : ProtocolId)
  /-- The next stream is taken out of an inbox. -/
  | receive (inbox : Nat)
  /-- An inbox is given up by who has taken from it. -/
  | close (inbox : Nat)
  deriving DecidableEq

inductive Notice
  | joined (inbox : Nat)
  | left
  | opened (link : Nat)
  | refused (e : StreamError)
  | received (r : Reception)
  /-- Tells whether there was an inbox to give up. -/
  | closed (there : Bool)
  deriving DecidableEq

def Act.on (w : World) : Act → Notice × World
  | join p => (.joined (w.network.join p).1, { w with network := (w.network.join p).2 })
  | leave p => (.left, { w with network := w.network.leave p })
  | dial host peer protocol =>
    match w.openStream host peer protocol with
    | .error e => (.refused e, w)
    | .ok (link, w) => (.opened link, w)
  | receive i => (.received (w.network.receive i).1, { w with network := (w.network.receive i).2 })
  | close i => (.closed (w.network.close i).1, w.closeInbox i)

/-- Something that was done. -/
structure Entry where
  act : Act
  notice : Notice
  deriving DecidableEq

namespace Entry

/-- What an entry changes in who is dialed under an identity: nothing, or it is this inbox from now
on, or none. -/
def naming? (p : PeerId) : Entry → Option (Option Nat)
  | ⟨.join q, .joined i⟩ => if p = q then some (some i) else none
  | ⟨.leave q, _⟩ => if p = q then some none else none
  | _ => none

/-- The stream that was opened, and for whom. -/
def opened? : Entry → Option (PeerId × Arrival)
  | ⟨.dial host peer protocol, .opened link⟩ => some (peer, ⟨protocol, host.id, link⟩)
  | _ => none

/-- The stream that came out of an inbox. -/
def taken? (i : Nat) : Entry → Option Arrival
  | ⟨.receive j, .received (.arrived a)⟩ => if j = i then some a else none
  | _ => none

end Entry

/-- The inbox that is dialed under an identity. The last entry comes first. -/
def holder (p : PeerId) (past : List Entry) : Option Nat :=
  (past.findSome? (Entry.naming? p)).join

/-- The streams that were opened for whoever took from this inbox. -/
def sent (i : Nat) : List Entry → List Arrival
  | [] => []
  | e :: past =>
    match e.opened? with
    | none => sent i past
    | some (peer, a) => sent i past ++ if holder peer past = some i then [a] else []

/-- The streams that came out of an inbox. -/
def received (i : Nat) (past : List Entry) : List Arrival :=
  (past.filterMap (Entry.taken? i)).reverse

end Switchboard

/-- A world in which nobody acts of himself, and all that was done to it, the last first. -/
structure Switchboard where
  world : World := {}
  past : List Switchboard.Entry := []

namespace Switchboard

/-- What would come of it now. -/
def answer (w : Switchboard) (a : Act) : Notice := (a.on w.world).1

def act (w : Switchboard) (a : Act) : Switchboard where
  world := (a.on w.world).2
  past := ⟨a, w.answer a⟩ :: w.past

def run (w : Switchboard) : List Act → Switchboard
  | [] => w
  | a :: acts => (w.act a).run acts

/-- The streams that wait in an inbox. -/
def queue (w : Switchboard) (i : Nat) : List Arrival := w.world.network.queue i

/-- Somebody has joined, and this is his inbox. -/
def Joined (w : Switchboard) (i : Nat) : Prop := ∃ p, ⟨.join p, .joined i⟩ ∈ w.past

/-- Somebody is dialed there. -/
def Held (w : Switchboard) (i : Nat) : Prop := ∃ p, holder p w.past = some i

/-- An inbox was given up. -/
def Closed (w : Switchboard) (i : Nat) : Prop := ⟨.close i, .closed true⟩ ∈ w.past

/-! ## What can come of it -/

/-- What can be done to a world. -/
inductive Acts (w : World) : Act → Notice → World → Prop
  | joined {p} : Acts w (.join p) (.joined w.network.inboxes.length)
    { w with network := (w.network.join p).2 }
  | left {p} : Acts w (.leave p) .left { w with network := w.network.leave p }
  | opened {host peer protocol network}
    (hd : w.network.dial host.id peer protocol w.links.length = .ok network) :
    Acts w (.dial host peer protocol) (.opened w.links.length)
      { w with network, links := w.links ++ [.ofCapacity World.linkCapacity] }
  | refused {host peer protocol e}
    (hd : w.network.dial host.id peer protocol w.links.length = .error e) :
    Acts w (.dial host peer protocol) (.refused e) w
  | arrived {i a network} (hn : w.network.receive i = (.arrived a, network)) :
    Acts w (.receive i) (.received (.arrived a)) { w with network }
  | nothing {i r} (hr : ∀ a, r ≠ .arrived a) : Acts w (.receive i) (.received r) w
  | closed {i} : Acts w (.close i) (.closed (w.network.listens i)) (w.closeInbox i)

variable {w : Switchboard} {world : World} {a : Act} {notice : Notice} {i j : Nat}

theorem acts_on (world : World) (a : Act) : Acts world a (a.on world).1 (a.on world).2 := by
  cases a with
  | join p => exact .joined
  | leave p => exact .left
  | dial host peer protocol =>
    rw [Act.on, World.openStream]
    cases hd : world.network.dial host.id peer protocol world.links.length with
    | error e => exact .refused hd
    | ok network => exact .opened hd
  | receive i =>
    rw [Act.on]
    rcases hn : world.network.receive i with ⟨r, network⟩
    by_cases hr : ∃ a, r = .arrived a
    · obtain ⟨a, rfl⟩ := hr
      exact .arrived hn
    · have hr (a : Arrival) (ha : r = .arrived a) : False := hr ⟨a, ha⟩
      obtain rfl := Network.receive_of_not_arrived hn hr
      exact .nothing hr
  | close i =>
    rw [Act.on, Network.close_fst]
    exact .closed

theorem holder_cons (p : PeerId) (e : Entry) (past : List Entry) :
    holder p (e :: past) = (e.naming? p).getD (holder p past) := by
  rw [holder, List.findSome?_cons]
  cases e.naming? p <;> rfl

theorem holder_join (p q : PeerId) (i : Nat) (past : List Entry) :
    holder q (⟨.join p, .joined i⟩ :: past) = if q = p then some i else holder q past := by
  rw [holder_cons, Entry.naming?]
  split <;> rfl

theorem holder_leave (p q : PeerId) (past : List Entry) :
    holder q (⟨.leave p, .left⟩ :: past) = if q = p then none else holder q past := by
  rw [holder_cons, Entry.naming?]
  split <;> rfl

theorem received_cons (i : Nat) (e : Entry) (past : List Entry) :
    received i (e :: past) = received i past ++ (e.taken? i).toList := by
  rw [received, received, List.filterMap_cons]
  cases e.taken? i with
  | none => exact (List.append_nil _).symm
  | some a => exact List.reverse_cons

theorem sent_cons_of_none {e : Entry} (h : e.opened? = none) (i : Nat) (past : List Entry) :
    sent i (e :: past) = sent i past := by
  rw [sent, h]

/-! ## The network agrees with the past -/

/-- Who is dialed where. -/
structure Enrolled (w : Switchboard) : Prop where
  inbox? : ∀ p, w.world.network.inbox? p = holder p w.past
  tidy : w.world.network.members.Tidy
  joined : ∀ i, w.Joined i ↔ i < w.world.network.inboxes.length
  held : ∀ p i, holder p w.past = some i → w.Joined i

/-- Which inboxes are there to take streams from. -/
structure Attended (w : Switchboard) : Prop where
  closed : ∀ i, w.Closed i → w.Joined i
  listens : ∀ i, w.world.network.listens i = true ↔ w.Joined i ∧ ¬w.Closed i

/-- What became of the streams that were opened. -/
structure Handed (w : Switchboard) : Prop where
  conserved : ∀ i, ¬w.Closed i → sent i w.past = received i w.past ++ w.queue i
  inTurn : ∀ i, received i w.past <+: sent i w.past

/-- Which links the streams are on. -/
structure Linked (w : Switchboard) : Prop where
  lt : ∀ i, ∀ a ∈ sent i w.past, a.link < w.world.links.length
  ascending : ∀ i, (sent i w.past).Pairwise (·.link < ·.link)
  apart : ∀ i j a b, a ∈ sent i w.past → b ∈ sent j w.past → a.link = b.link → i = j

structure Kept (w : Switchboard) : Prop where
  enrolled : w.Enrolled
  attended : w.Attended
  handed : w.Handed
  linked : w.Linked

/-- The switchboard after something of which all is known. -/
def after (w : Switchboard) (a : Act) (notice : Notice) (world : World) : Switchboard where
  world := world
  past := ⟨a, notice⟩ :: w.past

theorem joined_after : (w.after a notice world).Joined i ↔
    (∃ p, a = .join p ∧ notice = .joined i) ∨ w.Joined i := by
  simp [Joined, after, exists_or, eq_comm]

theorem closed_after : (w.after a notice world).Closed i ↔
    a = .close i ∧ notice = .closed true ∨ w.Closed i := by
  simp [Closed, after, eq_comm]

/-- Only who joins opens an inbox. -/
theorem joined_same (h : ∀ p, a ≠ .join p) : (w.after a notice world).Joined i ↔ w.Joined i := by
  rw [joined_after]
  refine or_iff_right ?_
  rintro ⟨p, hp, -⟩
  exact h p hp

theorem closed_same (h : ∀ i, a ≠ .close i) : (w.after a notice world).Closed i ↔ w.Closed i := by
  rw [closed_after]
  exact or_iff_right fun hi => h i hi.1

theorem length_closeInbox (world : World) (i : Nat) :
    (world.closeInbox i).links.length = world.links.length := by
  have hdropped (left : List Arrival) (ls : List Link) :
      (left.foldl (fun ls a => ls.modify a.link (Link.drop .right)) ls).length = ls.length := by
    induction left generalizing ls with
    | nil => rfl
    | cons a left ih => exact (ih _).trans (List.length_modify ..)
  exact hdropped ..

/-! ### Who is dialed -/

/-- What names nobody leaves everybody where he is. -/
private theorem Enrolled.same (h : w.Enrolled)
    (hm : world.network.members = w.world.network.members)
    (hl : world.network.inboxes.length = w.world.network.inboxes.length)
    (hp : ∀ p, (⟨a, notice⟩ : Entry).naming? p = none) (hj : ∀ p, a ≠ .join p) :
    (w.after a notice world).Enrolled := by
  have hholder (p : PeerId) : holder p (w.after a notice world).past = holder p w.past := by
    rw [after, holder_cons, hp]
    rfl
  refine ⟨fun p => ?_, ?_, fun i => ?_, fun p i hi => ?_⟩
  · rw [hholder, ← h.inbox? p]
    exact congrArg (·.get? p) hm
  · exact hm ▸ h.tidy
  · rw [joined_same hj, h.joined]
    exact hl ▸ Iff.rfl
  · rw [hholder] at hi
    exact (joined_same hj).mpr (h.held p i hi)

theorem Enrolled.step (h : w.Enrolled) (ha : Acts w.world a notice world) :
    (w.after a notice world).Enrolled := by
  cases ha with
  | @joined p =>
    have hjoined (world' : World) (i : Nat) :
        (w.after (.join p) (.joined w.world.network.inboxes.length) world').Joined i ↔
          i < w.world.network.inboxes.length + 1 := by
      rw [joined_after, h.joined, Nat.lt_succ_iff_lt_or_eq, or_comm]
      simp [eq_comm]
    refine ⟨fun q => ?_, h.tidy.insert _ _, fun i => ?_, fun q i hi => ?_⟩
    · calc (w.world.network.join p).2.inbox? q
          = if q = p then some w.world.network.inboxes.length else w.world.network.inbox? q :=
            Network.inbox?_join ..
        _ = holder q (⟨.join p, .joined w.world.network.inboxes.length⟩ :: w.past) := by
            rw [holder_join, h.inbox? q]
    · refine (hjoined _ i).trans ?_
      simp [after, Network.join]
    · apply (hjoined _ i).mpr
      have hi := (holder_join ..).symm.trans hi
      split at hi
      · cases hi
        exact Nat.lt_succ_self _
      · exact Nat.lt_succ_of_lt ((h.joined i).mp (h.held q i hi))
  | @left p =>
    have hj (q : PeerId) : Act.leave p ≠ .join q := by rintro ⟨⟩
    refine ⟨fun q => ?_, h.tidy.erase _, fun i => (joined_same hj).trans (h.joined i),
      fun q i hi => ?_⟩
    · calc (w.world.network.leave p).inbox? q
          = if q = p then none else w.world.network.inbox? q := Network.inbox?_leave ..
        _ = holder q (⟨.leave p, .left⟩ :: w.past) := by rw [holder_leave, h.inbox? q]
    · apply (joined_same hj).mpr
      have hi := (holder_leave ..).symm.trans hi
      split at hi
      · cases hi
      · exact h.held q i hi
  | opened hd =>
    obtain ⟨_, _, -, -, rfl⟩ := Network.dial_eq_ok hd
    exact h.same rfl (List.length_set ..) (fun _ => rfl) (by rintro _ ⟨⟩)
  | arrived hn =>
    obtain ⟨_, -, rfl⟩ := Network.receive_arrived hn
    exact h.same rfl (List.length_set ..) (fun _ => rfl) (by rintro _ ⟨⟩)
  | closed =>
    exact h.same (Network.members_close ..) (Network.length_close ..) (fun _ => rfl)
      (by rintro _ ⟨⟩)
  | refused | nothing => exact h.same rfl rfl (fun _ => rfl) (by rintro _ ⟨⟩)

/-! ### Who takes from an inbox -/

theorem Attended.step (h : w.Attended) (hw : w.Enrolled) (ha : Acts w.world a notice world) :
    (w.after a notice world).Attended := by
  have hsame {a : Act} {notice : Notice} {world : World}
      (hl : ∀ i, world.network.listens i = w.world.network.listens i)
      (hj : ∀ p, a ≠ .join p) (hc : ∀ i, a ≠ .close i) : (w.after a notice world).Attended := by
    refine ⟨fun i hi => (joined_same hj).mpr (h.closed i ((closed_same hc).mp hi)), fun i => ?_⟩
    rw [joined_same hj, closed_same hc, ← h.listens i, ← hl i]
    rfl
  cases ha with
  | left => exact hsame (fun _ => rfl) (by rintro _ ⟨⟩) (by rintro _ ⟨⟩)
  | opened hd =>
    exact hsame (fun i => (Network.queue_dial hd i).1) (by rintro _ ⟨⟩) (by rintro _ ⟨⟩)
  | arrived hn =>
    exact hsame (fun i => (Network.queue_receive hn i).1) (by rintro _ ⟨⟩) (by rintro _ ⟨⟩)
  | refused | nothing => exact hsame (fun _ => rfl) (by rintro _ ⟨⟩) (by rintro _ ⟨⟩)
  | @joined p =>
    have hc (i : Nat) : Act.join p ≠ .close i := by rintro ⟨⟩
    have hjoined (world' : World) (i : Nat) :
        (w.after (.join p) (.joined w.world.network.inboxes.length) world').Joined i ↔
          i = w.world.network.inboxes.length ∨ w.Joined i := by
      rw [joined_after]
      simp [eq_comm]
    refine ⟨fun i hi => ?_, fun i => ?_⟩
    · rw [hjoined]
      exact .inr (h.closed i ((closed_same hc).mp hi))
    · rw [hjoined, closed_same hc]
      apply (Network.listens_join_iff ..).trans
      rw [h.listens i]
      constructor
      · rintro (⟨hi, hn⟩ | rfl)
        · exact ⟨.inr hi, hn⟩
        · exact ⟨.inl rfl, fun hc => Nat.lt_irrefl _ ((hw.joined _).mp (h.closed _ hc))⟩
      · rintro ⟨rfl | hi, hn⟩
        · exact .inr rfl
        · exact .inl ⟨hi, hn⟩
  | @closed j =>
    have hj (p : PeerId) : Act.close j ≠ .join p := by rintro ⟨⟩
    have hclosed (world' : World) (i : Nat) :
        (w.after (.close j) (.closed (w.world.network.listens j)) world').Closed i ↔
          j = i ∧ w.world.network.listens j = true ∨ w.Closed i := by
      rw [closed_after]
      simp
    refine ⟨fun i hi => ?_, fun i => ?_⟩
    · rw [joined_same hj]
      rcases (hclosed _ i).mp hi with ⟨rfl, hl⟩ | hi
      · exact ((h.listens j).mp hl).1
      · exact h.closed i hi
    · rw [joined_same hj, hclosed]
      have hlistens : (w.world.closeInbox j).network.listens i =
          if j = i then false else w.world.network.listens i := Network.listens_close ..
      show (w.world.closeInbox j).network.listens i = true ↔ _
      rw [hlistens]
      by_cases hij : j = i
      · subst hij
        rw [if_pos rfl]
        refine iff_of_false Bool.false_ne_true ?_
        rintro ⟨hi, hn⟩
        have hl := (h.listens j).mpr ⟨hi, fun hc => hn (.inr hc)⟩
        exact hn (.inl ⟨rfl, hl⟩)
      · rw [if_neg hij, h.listens i, or_iff_right fun hi => hij hi.1]

/-! ### What becomes of a stream -/

theorem sent_opened (host : Host) (peer : PeerId) (protocol : ProtocolId) (link i : Nat)
    (past : List Entry) : sent i (⟨.dial host peer protocol, .opened link⟩ :: past) =
      sent i past ++ if holder peer past = some i then [⟨protocol, host.id, link⟩] else [] := rfl

theorem received_arrived (i j : Nat) (a : Arrival) (past : List Entry) :
    received i (⟨.receive j, .received (.arrived a)⟩ :: past) =
      received i past ++ if j = i then [a] else [] := by
  rw [received_cons, Entry.taken?]
  split <;> rfl

theorem received_cons_of_none {e : Entry} (h : e.taken? i = none) (past : List Entry) :
    received i (e :: past) = received i past := by
  rw [received_cons, h, Option.toList_none, List.append_nil]

theorem Handed.step (h : w.Handed) (hw : w.Enrolled) (ht : w.Attended)
    (ha : Acts w.world a notice world) : (w.after a notice world).Handed := by
  have hopen {i : Nat} (hc : ¬(w.after a notice world).Closed i) : ¬w.Closed i :=
    fun hi => hc (closed_after.mpr (.inr hi))
  have hsame {a : Act} {notice : Notice} {world : World}
      (ho : (⟨a, notice⟩ : Entry).opened? = none) (ht : ∀ i, (⟨a, notice⟩ : Entry).taken? i = none)
      (hq : ∀ i, ¬(w.after a notice world).Closed i → world.network.queue i = w.queue i) :
      (w.after a notice world).Handed := by
    refine ⟨fun i hi => ?_, fun i => ?_⟩
    · have hi' : ¬w.Closed i := fun hc => hi (closed_after.mpr (.inr hc))
      calc sent i (⟨a, notice⟩ :: w.past)
          = received i w.past ++ w.queue i := by rw [sent_cons_of_none ho, h.conserved i hi']
        _ = received i (⟨a, notice⟩ :: w.past) ++ world.network.queue i := by
          rw [received_cons_of_none (ht i), hq i hi]
    · rw [after, received_cons_of_none (ht i), sent_cons_of_none ho]
      exact h.inTurn i
  cases ha with
  | joined => exact hsame rfl (fun _ => rfl) fun i _ => Network.queue_join ..
  | left | refused => exact hsame rfl (fun _ => rfl) fun _ _ => rfl
  | @nothing j r hr =>
    refine hsame rfl (fun i => ?_) fun _ _ => rfl
    cases r with
    | arrived a => exact absurd rfl (hr a)
    | empty | ended | gone => rfl
  | @opened host peer protocol network hd =>
    refine ⟨fun i hi => ?_, fun i => ?_⟩
    · have hq := (Network.queue_dial hd i).2
      rw [hw.inbox? peer] at hq
      calc sent i w.past ++ (if holder peer w.past = some i then [_] else [])
          = received i w.past ++ network.queue i := by
            rw [h.conserved i (hopen hi), hq, List.append_assoc]
            rfl
        _ = _ := by rw [after, received_cons_of_none rfl]; rfl
    · rw [after, received_cons_of_none rfl, sent_opened]
      exact (h.inTurn i).trans (List.prefix_append ..)
  | @arrived j a network hn =>
    have hq (i : Nat) : w.queue i = (if j = i then [a] else []) ++ network.queue i := by
      rw [queue, (Network.queue_receive hn i).2]
      split <;> rfl
    have hl : w.world.network.listens j = true := by
      obtain ⟨_, hb, -⟩ := Network.receive_arrived hn
      rw [Network.listens, hb]
      rfl
    refine ⟨fun i hi => ?_, fun i => ?_⟩
    · calc sent i w.past
          = received i w.past ++ w.queue i := h.conserved i (hopen hi)
        _ = _ := by
          rw [hq i, after, received_arrived, List.append_assoc]
          rfl
    · rw [after, received_arrived, sent_cons_of_none rfl]
      by_cases hij : j = i
      · subst hij
        rw [h.conserved j ((ht.listens j).mp hl).2, hq j, ← List.append_assoc]
        exact List.prefix_append ..
      · rw [if_neg hij, List.append_nil]
        exact h.inTurn i
  | @closed j =>
    refine hsame rfl (fun _ => rfl) fun i hi => ?_
    refine (Network.queue_close ..).trans ?_
    split
    · rename_i hij
      subst hij
      -- Nobody was there to give it up, so nobody ever joined there.
      have hl : ¬w.world.network.listens j = true := fun hl =>
        hi (closed_after.mpr (.inl ⟨rfl, congrArg Notice.closed hl⟩))
      have hj : ¬w.Joined j := fun hj => hl ((ht.listens j).mpr ⟨hj, hopen hi⟩)
      rw [hw.joined, Nat.not_lt] at hj
      rw [queue, Network.queue, List.getElem?_eq_none hj]
      rfl
    · rfl

/-! ### Which links are used -/

private theorem Linked.same (h : w.Linked) (ho : (⟨a, notice⟩ : Entry).opened? = none)
    (hl : world.links.length = w.world.links.length) : (w.after a notice world).Linked := by
  have hsent (i : Nat) : sent i (w.after a notice world).past = sent i w.past :=
    sent_cons_of_none ho i w.past
  refine ⟨fun i b hb => ?_, fun i => ?_, fun i j b c hb hc => ?_⟩
  · rw [hsent] at hb
    exact hl ▸ h.lt i b hb
  · exact hsent i ▸ h.ascending i
  · rw [hsent] at hb hc
    exact h.apart i j b c hb hc

theorem Linked.step (h : w.Linked) (ha : Acts w.world a notice world) :
    (w.after a notice world).Linked := by
  cases ha with
  | @opened host peer protocol network hd =>
    have hmem {i : Nat} {b : Arrival}
        (hb : b ∈ sent i (⟨.dial host peer protocol, .opened w.world.links.length⟩ :: w.past)) :
        b ∈ sent i w.past ∨ holder peer w.past = some i ∧ b.link = w.world.links.length := by
      rw [sent_opened, List.mem_append] at hb
      refine hb.imp_right fun hb => ?_
      split at hb
      · exact ⟨‹_›, congrArg Arrival.link (List.mem_singleton.mp hb)⟩
      · cases hb
    have hne {i : Nat} {b : Arrival} (hb : b ∈ sent i w.past) :
        b.link ≠ w.world.links.length := Nat.ne_of_lt (h.lt i b hb)
    refine ⟨fun i b hb => ?_, fun i => ?_, fun i j b c hb hc hbc => ?_⟩
    · refine Nat.lt_of_lt_of_eq ?_ List.length_append.symm
      rcases hmem hb with hb | ⟨-, hb⟩
      · exact Nat.lt_succ_of_lt (h.lt i b hb)
      · exact hb ▸ Nat.lt_succ_self _
    · refine List.pairwise_append.mpr ⟨h.ascending i, ?_, fun b hb c hc => ?_⟩
      · split
        · exact List.pairwise_singleton ..
        · exact .nil
      · split at hc
        · rw [List.mem_singleton.mp hc]
          exact h.lt i b hb
        · cases hc
    · rcases hmem hb with hb | ⟨hi, hb⟩ <;> rcases hmem hc with hc | ⟨hj, hc⟩
      · exact h.apart i j b c hb hc hbc
      · exact absurd (hbc.trans hc) (hne hb)
      · exact absurd (hbc.symm.trans hb) (hne hc)
      · exact Option.some.inj (hi.symm.trans hj)
  | closed => exact h.same rfl (length_closeInbox ..)
  | joined | left | refused | arrived | nothing => exact h.same rfl rfl

/-! ### Whatever is done -/

theorem kept : ({} : Switchboard).Kept where
  enrolled := ⟨fun _ => rfl, Directory.tidy_empty, by simp [Joined], nofun⟩
  attended := ⟨nofun, by simp [Network.listens, Joined]⟩
  handed := ⟨fun _ _ => rfl, fun _ => List.nil_prefix⟩
  linked := ⟨nofun, fun _ => .nil, nofun⟩

theorem Kept.step (h : w.Kept) (a : Act) : (w.act a).Kept := by
  have ha := acts_on w.world a
  exact ⟨h.enrolled.step ha, h.attended.step h.enrolled ha,
    h.handed.step h.enrolled h.attended ha, h.linked.step ha⟩

theorem Kept.run (h : w.Kept) (acts : List Act) : (w.run acts).Kept := by
  induction acts generalizing w with
  | nil => exact h
  | cons a acts ih => exact ih (h.step a)

end Switchboard

end PeerCall
