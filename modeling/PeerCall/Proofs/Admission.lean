import PeerCall.Proofs.Handshake
import PeerCall.Proofs.Passage
import PeerCall.Proofs.World.Steps

/-! # Dialed connections

A connection that is accepted has a task of its own, which reads the handshake and then answers on
the stream behind it (`Admission.turn`). The dialer may do anything with his end meanwhile. Whoever
the server is invoked for is the one whom the bytes that the dialer has sent name, and nobody checks
who that is. Main statement: `Admission.introduced_of_run`. -/

namespace PeerCall

namespace Handshake

/-- The bytes begin with the handshake of this dialer, whose name is not too long. -/
def Names (expected : ProtocolId) (bs : Bytes) (p : PeerId) : Prop :=
  greeting expected p <+: bs ∧ (Bytes.ofString p.text).length ≤ maxField

variable {expected : ProtocolId} {bs rest : Bytes} {p q : PeerId}

/-- A handshake that succeeds names one dialer. -/
theorem Greeted.names_iff (h : Greeted expected bs (.ok p) rest) : Names expected bs q ↔ p = q := by
  obtain ⟨hb, hx, hp⟩ := greeted_ok_iff.mp h
  constructor
  · rintro ⟨⟨rest', hb'⟩, hq⟩
    have h' : Greeted expected bs (.ok q) rest' := greeted_ok_iff.mpr ⟨hb'.symm, hx, hq⟩
    exact Except.ok.inj (h.unique h').1
  · rintro rfl
    exact ⟨⟨rest, hb.symm⟩, hp⟩

/-- What comes after a handshake leaves it as it was. -/
theorem Greeted.append (h : Greeted expected bs (.ok p) rest) (later : Bytes) :
    Greeted expected (bs ++ later) (.ok p) (rest ++ later) := by
  obtain ⟨hb, hx, hp⟩ := greeted_ok_iff.mp h
  exact greeted_ok_iff.mpr ⟨by rw [hb, List.append_assoc], hx, hp⟩

end Handshake

inductive Admission.Phase
  | greeting (h : Handshake)
  | answering (r : Responder)
  | refused (e : StreamError)

/-- A connection that was accepted, and the task that sees to it. -/
structure Admission where
  site : Site
  codec : Codec
  token : Token
  phase : Admission.Phase
  link : Link
  /-- All bytes of the dialer that the link took. -/
  sent : Bytes := []
  /-- All invocations of the server. -/
  invoked : List Invocation := []

namespace Admission

inductive Act
  /-- The task takes a step. -/
  | turn (m : Moment)
  /-- The dialer makes a call on his end. -/
  | dialer (a : Passage.Act)

/-- The task that answers a peer. -/
def responder (w : Admission) (peer : PeerId) : Responder where
  server := w.site.server
  codec := w.codec
  peer := peer
  context := ⟨w.token, none⟩

/-- One step of the task. The stream is served for whomever the handshake names. -/
def turn (w : Admission) (m : Moment) : Admission :=
  match w.phase with
  | .greeting h =>
    match h.step? m .right w.link with
    | none => w
    | some (.more h, link) => { w with phase := .greeting h, link }
    | some (.done (.error e), link) => { w with phase := .refused e, link }
    | some (.done (.ok peer), link) => { w with phase := .answering (w.responder peer), link }
  | .answering r =>
    match r.step? m w.link with
    | none => w
    | some t =>
      { w with
        phase := .answering t.responder
        link := t.link
        invoked := w.invoked ++ t.invoked.toList }
  | .refused _ => w

/-- The dialer makes a call on his end of the link. -/
def dial (w : Admission) (a : Passage.Act) : Admission :=
  { w with
    link := (a.on .left w.link).2
    sent := w.sent ++ Passage.Entry.accepted .left ⟨.left, a, (a.on .left w.link).1⟩ }

def act (w : Admission) : Act → Admission
  | .turn m => w.turn m
  | .dialer a => w.dial a

def run (w : Admission) : List Act → Admission
  | [] => w
  | a :: acts => (w.act a).run acts

/-- A connection that was just accepted. -/
def accept (site : Site) (codec : Codec) (token : Token) (expected : ProtocolId)
    (deadline capacity : Nat) : Admission where
  site := site
  codec := codec
  token := token
  phase := .greeting { expected, deadline }
  link := .ofCapacity capacity

variable {w : Admission} {expected : ProtocolId} {m : Moment} {site : Site} {codec : Codec}
  {token : Token} {deadline capacity : Nat}

/-- How a connection stands to the bytes that its dialer has sent. -/
inductive Kept (expected : ProtocolId) (w : Admission) : Prop
  | greeting {h} (hp : w.phase = .greeting h) (hx : h.expected = expected) (hs : h.Sound)
    (hb : h.taken ++ w.link.flow .left = w.sent) (hn : w.invoked = [])
  | answering {r rest} (hp : w.phase = .answering r) (hs : r.Sound)
    (hg : Handshake.Greeted expected w.sent (.ok r.peer) rest)
    (hn : ∀ i ∈ w.invoked, i.peer = r.peer)
  | refused {e} (hp : w.phase = .refused e) (hn : w.invoked = [])

theorem kept_accept :
    (accept site codec token expected deadline capacity).Kept expected := by
  refine .greeting rfl rfl Handshake.FieldReader.sound_start ?_ rfl
  rw [accept, Link.flow_ofCapacity]
  rfl

/-- What the dialer sends goes behind what he has sent. -/
theorem Kept.dial (h : w.Kept expected) (a : Passage.Act) : (w.dial a).Kept expected := by
  cases h with
  | greeting hp hx hs hb hn =>
    have hflow := (Passage.acts_of_act { link := w.link } .left a).flow_self
    refine .greeting hp hx hs ?_ hn
    rw [Admission.dial, ← hb, List.append_assoc]
    exact congrArg _ hflow
  | answering hp hs hg hn => exact .answering hp hs (hg.append _) hn
  | refused hp hn => exact .refused hp hn

theorem Kept.greet {h : Handshake} {p : Progress Handshake (Except StreamError PeerId)}
    {link : Link} (hx : h.expected = expected) (hs : h.Sound)
    (hb : h.taken ++ w.link.flow .left = w.sent) (hn : w.invoked = [])
    (hstep : h.step? m .right w.link = some (p, link)) :
    match p with
    | .more h => { w with phase := .greeting h, link }.Kept expected
    | .done (.error e) => { w with phase := .refused e, link }.Kept expected
    | .done (.ok peer) => { w with phase := .answering (w.responder peer), link }.Kept expected := by
  rcases Handshake.moves_or_hindered hs hstep with hm | ⟨⟨e, rfl⟩, -⟩
  · cases hm with
    | more hs' _ hb' => exact .greeting rfl hx hs' (hb'.trans hb) hn
    | welcomes hg =>
      have hg := hg []
      rw [List.append_nil, show Side.right.other = .left from rfl, hb, hx] at hg
      exact .answering rfl FrameReader.sound_start hg fun i hi => nomatch hn ▸ hi
    | refuses => exact .refused rfl hn
  · exact .refused rfl hn

theorem Kept.turn (h : w.Kept expected) (m : Moment) : (w.turn m).Kept expected := by
  unfold Admission.turn
  cases h with
  | greeting hp hx hs hb hn =>
    simp only [hp]
    split
    · exact .greeting hp hx hs hb hn
    all_goals exact Kept.greet hx hs hb hn ‹_›
  | @answering r rest hp hs hg hn =>
    simp only [hp]
    split
    · exact .answering hp hs hg hn
    · rename_i t ht
      have hm := Responder.moves_of_step? hs ht
      have hpeer : t.responder.peer = r.peer := hm.same.peer
      refine .answering rfl hm.sound (hpeer ▸ hg) fun i hi => ?_
      rw [hpeer]
      rcases List.mem_append.mp hi with hi | hi
      · exact hn i hi
      · exact hm.peer_of_invoked (Option.mem_toList.mp hi)
  | refused hp hn =>
    simp only [hp]
    exact .refused hp hn

theorem Kept.run (h : w.Kept expected) (acts : List Act) : (w.run acts).Kept expected := by
  induction acts generalizing w with
  | nil => exact h
  | cons a acts ih =>
    cases a with
    | turn m => exact ih (h.turn m)
    | dialer a => exact ih (h.dial a)

/-- The server knows a dialer by the name that he has sent, whatever it is. -/
structure Introduced (expected : ProtocolId) (w : Admission) : Prop where
  answering : ∀ r, w.phase = .answering r →
    ∀ p, r.peer = p ↔ Handshake.Names expected w.sent p
  invoked : ∀ i ∈ w.invoked, ∀ p, i.peer = p ↔ Handshake.Names expected w.sent p
  /-- A dialer that has sent an empty name is taken for this process. -/
  here : ∀ i ∈ w.invoked,
    i.peer.isHere = true ↔ Handshake.greeting expected .here <+: w.sent

theorem Kept.invoked (h : w.Kept expected) {i : Invocation} (hi : i ∈ w.invoked) (p : PeerId) :
    i.peer = p ↔ Handshake.Names expected w.sent p := by
  cases h with
  | greeting _ _ _ _ hn | refused _ hn => cases hn ▸ hi
  | answering _ _ hg hn =>
    rw [hn i hi]
    exact hg.names_iff.symm

theorem Kept.introduced (h : w.Kept expected) : w.Introduced expected where
  answering r hr p := by
    cases h with
    | greeting hp | refused hp => cases hp.symm.trans hr
    | answering hp _ hg =>
      cases hp.symm.trans hr
      exact hg.names_iff.symm
  invoked i hi := h.invoked hi
  here i hi := by
    rw [PeerId.isHere_iff, h.invoked hi]
    exact and_iff_left (Nat.zero_le _)

/-- Whatever the dialer does with his end, the server knows him by the name that he has sent. -/
theorem introduced_of_run (acts : List Act) :
    ((accept site codec token expected deadline capacity).run acts).Introduced expected :=
  (kept_accept.run acts).introduced

end Admission

end PeerCall
