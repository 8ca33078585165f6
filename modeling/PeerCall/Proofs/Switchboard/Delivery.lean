import PeerCall.Proofs.Switchboard

/-! # Delivery on the network

A stream opens exactly if somebody is dialed under the identity and has not given his inbox up, and
then it waits in his inbox and in no other. What comes out of an inbox came into it, in the same
order and once. An inbox in which nobody is dialed any more holds what it held, and then ends.
Main statement: `Switchboard.connects_of_run`. -/

namespace PeerCall

namespace Switchboard

variable {w : Switchboard} {a : Arrival} {rest : List Arrival} {peer : PeerId} {i : Nat}

/-! ## Opening a stream -/

/-- Why no stream opens to a peer. -/
def refusal (w : Switchboard) (peer : PeerId) : StreamError :=
  match holder peer w.past with
  | none => .unknownPeer peer
  | some _ => .notAccepting peer

theorem Kept.answer_dial (h : w.Kept) (hi : holder peer w.past = some i) (hc : ¬w.Closed i)
    (host : Host) (protocol : ProtocolId) :
    w.answer (.dial host peer protocol) = .opened w.world.links.length := by
  have hb := Network.inbox_of_listens
    ((h.attended.listens i).mpr ⟨h.enrolled.held peer i hi, hc⟩)
  rw [answer, Act.on, World.openStream,
    Network.dial_of_listening ((h.enrolled.inbox? peer).trans hi) hb]
  rfl

theorem Kept.on_dial_refused (h : w.Kept) (hn : ¬∃ i, holder peer w.past = some i ∧ ¬w.Closed i)
    (host : Host) (protocol : ProtocolId) : (Act.dial host peer protocol).on w.world =
      (.refused (w.refusal peer), w.world) := by
  have hd : w.world.network.dial host.id peer protocol w.world.links.length =
      .error (w.refusal peer) := by
    have hp := h.enrolled.inbox? peer
    unfold refusal
    cases hi : holder peer w.past with
    | none => exact Network.dial_of_unknown (hp.trans hi)
    | some i =>
      refine Network.dial_of_not_listening (hp.trans hi) fun hl => ?_
      exact hn ⟨i, hi, ((h.attended.listens i).mp hl).2⟩
  rw [Act.on, World.openStream, hd]

/-- A stream that opens waits where its peer is dialed, and nowhere else. -/
theorem Kept.delivers (h : w.Kept) {host : Host} {protocol : ProtocolId} {link : Nat}
    (ho : w.answer (.dial host peer protocol) = .opened link) : link = w.world.links.length ∧
      (w.act (.dial host peer protocol)).world.links =
        w.world.links ++ [.ofCapacity World.linkCapacity] ∧
      ∀ i, (w.act (.dial host peer protocol)).queue i =
        w.queue i ++ if holder peer w.past = some i then [⟨protocol, host.id, link⟩] else [] := by
  have ha := acts_on w.world (.dial host peer protocol)
  rw [answer] at ho
  unfold act queue
  generalize (Act.dial host peer protocol).on w.world = out at ha ho
  obtain ⟨notice, world⟩ := out
  obtain rfl : notice = .opened link := ho
  cases ha with
  | opened hd =>
    refine ⟨rfl, rfl, fun i => ?_⟩
    rw [← h.enrolled.inbox? peer]
    exact (Network.queue_dial hd i).2

/-! ## Taking a stream -/

theorem Kept.on_receive (h : w.Kept) (hi : w.Joined i) (hc : ¬w.Closed i) :
    (Act.receive i).on w.world = match w.queue i with
      | a :: rest => (.received (.arrived a), { w.world with
          network.inboxes := w.world.network.inboxes.set i ⟨rest, true⟩ })
      | [] => (.received (if w.world.network.isCurrent i then .empty else .ended), w.world) := by
  rw [Act.on, Network.receive_of_listens ((h.attended.listens i).mpr ⟨hi, hc⟩), queue]
  cases w.world.network.queue i <;> rfl

theorem Kept.isCurrent_iff (h : w.Kept) : w.world.network.isCurrent i = true ↔ w.Held i := by
  rw [Network.isCurrent_iff h.enrolled.tidy]
  exact exists_congr fun p => by rw [h.enrolled.inbox? p]

theorem Kept.queue_eq_nil (h : w.Kept) (hc : ¬w.Closed i)
    (hs : sent i w.past = received i w.past) : w.queue i = [] := by
  rw [h.handed.conserved i hc] at hs
  exact List.append_cancel_left (hs.trans (List.append_nil _).symm)

theorem Kept.waits (h : w.Kept) (hh : w.Held i) (hc : ¬w.Closed i) (hq : w.queue i = []) :
    w.answer (.receive i) = .received .empty := by
  obtain ⟨p, hp⟩ := hh
  rw [answer, h.on_receive (h.enrolled.held p i hp) hc, hq]
  exact congrArg Notice.received (if_pos (h.isCurrent_iff.mpr ⟨p, hp⟩))

theorem Kept.ends (h : w.Kept) (hi : w.Joined i) (hn : ¬w.Held i) (hc : ¬w.Closed i)
    (hq : w.queue i = []) : w.answer (.receive i) = .received .ended := by
  rw [answer, h.on_receive hi hc, hq]
  exact congrArg Notice.received (if_neg fun hh => hn (h.isCurrent_iff.mp hh))

/-- The stream that has waited longest is taken, and nothing else changes there. -/
theorem Kept.act_receive (h : w.Kept) (hi : w.Joined i) (hc : ¬w.Closed i)
    (hq : w.queue i = a :: rest) : (w.act (.receive i)).Joined i ∧
      ¬(w.act (.receive i)).Closed i ∧ (w.act (.receive i)).queue i = rest := by
  have hon := h.on_receive hi hc
  rw [hq] at hon
  have hlt := (h.enrolled.joined i).mp hi
  refine ⟨joined_after.mpr (.inr hi), fun hc' => hc ((closed_same ?_).mp hc'), ?_⟩
  · rintro _ ⟨⟩
  · rw [queue, act, hon, Network.queue, List.getElem?_set_self hlt]
    rfl

/-! ## Nobody is dialed there any more -/

/-- Nobody is dialed again where nobody was. -/
theorem Kept.not_held_act (h : w.Kept) (hi : w.Joined i) (hn : ¬w.Held i) (a : Act) :
    ¬(w.act a).Held i ∧ sent i (w.act a).past = sent i w.past := by
  have hsame {notice : Notice} (hp : ∀ p, (⟨a, notice⟩ : Entry).naming? p = none) :
      ¬∃ p, holder p (⟨a, notice⟩ :: w.past) = some i := by
    intro ⟨p, hh⟩
    rw [holder_cons, hp] at hh
    exact hn ⟨p, hh⟩
  have ha := acts_on w.world a
  unfold Held
  rw [act, answer]
  generalize a.on w.world = out at ha
  obtain ⟨notice, world⟩ := out
  cases ha with
  | @joined p =>
    refine ⟨?_, rfl⟩
    rintro ⟨q, hh⟩
    rw [holder_join] at hh
    split at hh
    · exact Nat.ne_of_lt ((h.enrolled.joined i).mp hi) (Option.some.inj hh).symm
    · exact hn ⟨q, hh⟩
  | @left p =>
    refine ⟨?_, rfl⟩
    rintro ⟨q, hh⟩
    rw [holder_leave] at hh
    split at hh
    · cases hh
    · exact hn ⟨q, hh⟩
  | @opened host peer protocol network hd =>
    refine ⟨hsame fun _ => rfl, ?_⟩
    rw [sent_opened, if_neg fun hh => hn ⟨peer, hh⟩, List.append_nil]
  | refused | arrived | nothing | closed => exact ⟨hsame fun _ => rfl, rfl⟩

theorem Kept.not_held_run (h : w.Kept) (hi : w.Joined i) (hn : ¬w.Held i) (acts : List Act) :
    ¬(w.run acts).Held i ∧ sent i (w.run acts).past = sent i w.past := by
  induction acts generalizing w with
  | nil => exact ⟨hn, rfl⟩
  | cons a acts ih =>
    obtain ⟨hn', hs⟩ := h.not_held_act hi hn a
    obtain ⟨hn', hs'⟩ := ih (h.step a) (joined_after.mpr (.inr hi)) hn'
    exact ⟨hn', hs'.trans hs⟩

/-- Who takes as often as streams wait has taken all. -/
theorem Kept.run_receive (h : w.Kept) (hi : w.Joined i) (hc : ¬w.Closed i) :
    let w' := w.run (List.replicate (w.queue i).length (.receive i))
    w'.Joined i ∧ ¬w'.Closed i ∧ w'.queue i = [] := by
  generalize hq : w.queue i = waiting
  induction waiting generalizing w with
  | nil => exact ⟨hi, hc, hq⟩
  | cons a waiting ih =>
    obtain ⟨hi', hc', hq'⟩ := h.act_receive hi hc hq
    exact ih (h.step _) hi' hc' hq'

/-! ## Main statement -/

/-- Everybody who dials is connected to the one who is dialed, once. -/
structure Connects (w : Switchboard) : Prop where
  /-- Who joins gets an inbox that nobody has had. -/
  joins : ∀ p, ∃ i, w.answer (.join p) = .joined i ∧ ¬w.Joined i
  closes : ∀ i, w.answer (.close i) = .closed true ↔ w.Joined i ∧ ¬w.Closed i
  opens : ∀ host peer protocol, (∃ link, w.answer (.dial host peer protocol) = .opened link) ↔
    ∃ i, holder peer w.past = some i ∧ ¬w.Closed i
  /-- A stream that opens is on a fresh link, and waits where its peer is dialed. -/
  delivers : ∀ host peer protocol link, w.answer (.dial host peer protocol) = .opened link →
    link = w.world.links.length ∧
    (w.act (.dial host peer protocol)).world.links =
      w.world.links ++ [.ofCapacity World.linkCapacity] ∧
    ∀ i, (w.act (.dial host peer protocol)).queue i =
      w.queue i ++ if holder peer w.past = some i then [⟨protocol, host.id, link⟩] else []
  /-- One that does not open leaves all as it is. -/
  refuses : ∀ host peer protocol, ¬(∃ i, holder peer w.past = some i ∧ ¬w.Closed i) →
    w.answer (.dial host peer protocol) = .refused (w.refusal peer) ∧
    (w.act (.dial host peer protocol)).world = w.world
  handed : w.Handed
  linked : w.Linked
  yields : ∀ i a rest, w.Joined i → ¬w.Closed i →
    sent i w.past = received i w.past ++ a :: rest →
    w.answer (.receive i) = .received (.arrived a)
  /-- An inbox in which somebody is dialed does not end. -/
  waits : ∀ i, w.Held i → ¬w.Closed i → sent i w.past = received i w.past →
    w.answer (.receive i) = .received .empty
  ends : ∀ i, w.Joined i → ¬w.Held i → ¬w.Closed i → sent i w.past = received i w.past →
    w.answer (.receive i) = .received .ended
  /-- Who takes all streams out of an inbox where nobody is dialed comes to its end. -/
  drains : ∀ i, w.Joined i → ¬w.Held i → ¬w.Closed i →
    let w' := w.run (List.replicate (w.queue i).length (.receive i))
    received i w'.past = sent i w.past ∧ w'.answer (.receive i) = .received .ended
  final : ∀ i, w.Joined i → ¬w.Held i → ∀ acts,
    ¬(w.run acts).Held i ∧ sent i (w.run acts).past = sent i w.past

theorem Kept.connects (h : w.Kept) : w.Connects where
  joins p := ⟨_, rfl, fun hi => Nat.lt_irrefl _ ((h.enrolled.joined _).mp hi)⟩
  closes i := by
    rw [answer, Act.on, Network.close_fst, Notice.closed.injEq]
    exact h.attended.listens i
  opens host peer protocol := by
    constructor
    · rintro ⟨link, ho⟩
      apply Classical.byContradiction
      intro hn
      rw [answer, h.on_dial_refused hn] at ho
      cases ho
    · rintro ⟨i, hi, hc⟩
      exact ⟨_, h.answer_dial hi hc host protocol⟩
  delivers host peer protocol link ho := h.delivers ho
  refuses host peer protocol hn := by
    have hon := h.on_dial_refused hn host protocol
    exact ⟨congrArg Prod.fst hon, congrArg Prod.snd hon⟩
  handed := h.handed
  linked := h.linked
  yields i a rest hi hc hs := by
    have hq : w.queue i = a :: rest :=
      List.append_cancel_left ((h.handed.conserved i hc).symm.trans hs)
    rw [answer, h.on_receive hi hc, hq]
  waits i hh hc hs := h.waits hh hc (h.queue_eq_nil hc hs)
  ends i hi hn hc hs := h.ends hi hn hc (h.queue_eq_nil hc hs)
  drains i hi hn hc := by
    obtain ⟨hi', hc', hq⟩ := h.run_receive hi hc
    obtain ⟨hn', hs⟩ := h.not_held_run hi hn (List.replicate (w.queue i).length (.receive i))
    have hk := h.run (List.replicate (w.queue i).length (.receive i))
    refine ⟨?_, hk.ends hi' hn' hc' hq⟩
    rw [← hs, hk.handed.conserved i hc', hq, List.append_nil]
  final i hi hn acts := h.not_held_run hi hn acts

/-- Streams are delivered once each, in turn, to whoever holds the identity, whatever was done. -/
theorem connects_of_run (acts : List Act) : (({} : Switchboard).run acts).Connects :=
  (kept.run acts).connects

/-- A stream that was dialed before its peer joined again is still there, and then no other. -/
example : (({} : Switchboard).run [.join ⟨"bob"⟩, .dial ⟨⟨"alice"⟩, .network⟩ ⟨"bob"⟩ .standard,
    .join ⟨"bob"⟩, .receive 0, .receive 0, .receive 1]).past.map Entry.notice =
      [.received .empty, .received .ended, .received (.arrived ⟨.standard, ⟨"alice"⟩, 0⟩),
        .joined 1, .opened 0, .joined 0] := rfl

end Switchboard

end PeerCall
