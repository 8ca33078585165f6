import PeerCall.Proofs.Talk.Ending

/-! # Answering a stream

A responder whose dialer may send any bytes in any pieces, end in either way, and read or not. Which
request there is in the bytes, if any, is `Responder.requested`, and which bytes answer it, if they
can be sent, is `Responder.answer`. What a move of the dialer does is `Answering.Dials`. -/

namespace PeerCall

/-! ## What is asked and what is answered -/

namespace Responder

/-- The request that a byte string which ends in this way begins with, or why there is none. -/
def requested (codec : Codec) (ending : Ending) (bs : Bytes) :
    Except StreamError (ServiceId × Bytes) :=
  match Frame.read ending bs with
  | (.error e, _) => .error e
  | (.ok p, rest) =>
    match codec.decode .serviceId p with
    | .error e => .error e
    | .ok service => (Frame.read ending rest).1.map (service, ·)

/-- The bytes that answer a request, or why they cannot be sent. -/
def answer (codec : Codec) (error : Option CallError) (reply : Option Bytes) :
    Except StreamError Bytes :=
  match codec.encode .response ⟨responseText error⟩ with
  | .error e => .error e
  | .ok p =>
    if p.length > Frame.maxSize then .error (.tooLarge p.length)
    else if (reply.getD []).length > Frame.maxSize then
      .error (.tooLarge (reply.getD []).length)
    else .ok (Frame.bytes p ++ Frame.bytes (reply.getD []))

variable {codec : Codec} {ending : Ending} {bs rest : Bytes}

theorem requested_of_lost (h : (Frame.read ending bs).1 = .error e) :
    requested codec ending bs = .error e := by
  rcases hr : Frame.read ending bs with ⟨r, rest⟩
  rw [hr] at h
  cases h
  simp only [requested, hr]

theorem requested_of_bad (h : Frame.read ending bs = (.ok p, rest))
    (hd : codec.decode .serviceId p = .error e) : requested codec ending bs = .error e := by
  simp only [requested, h, hd]

theorem requested_of_named (h : Frame.read ending bs = (.ok p, rest))
    (hd : codec.decode .serviceId p = .ok service) :
    requested codec ending bs = (Frame.read ending rest).1.map (service, ·) := by
  simp only [requested, h, hd]

/-- There is a request exactly if there are two frames of which the first names a service, whatever
stands behind them and however the bytes end. -/
theorem requested_eq_ok_iff {service : ServiceId} {args : Bytes} :
    requested codec ending bs = .ok (service, args) ↔ ∃ p rest,
      p.length ≤ Frame.maxSize ∧ args.length ≤ Frame.maxSize ∧
      codec.decode .serviceId p = .ok service ∧
      bs = Frame.bytes p ++ (Frame.bytes args ++ rest) := by
  constructor
  · intro h
    rcases hr : Frame.read ending bs with ⟨_ | p, rest⟩
    · rw [requested_of_lost (by rw [hr])] at h
      cases h
    · cases hd : codec.decode .serviceId p with
      | error e =>
        rw [requested_of_bad hr hd] at h
        cases h
      | ok service' =>
        rw [requested_of_named hr hd] at h
        obtain ⟨hp, rfl⟩ := Frame.read_eq_ok_iff.mp hr
        rcases hr' : Frame.read ending rest with ⟨_ | args', rest'⟩
        · rw [hr'] at h
          cases h
        · rw [hr'] at h
          cases h
          obtain ⟨ha, rfl⟩ := Frame.read_eq_ok_iff.mp hr'
          exact ⟨p, rest', hp, ha, hd, rfl⟩
  · rintro ⟨p, rest, hp, ha, hd, rfl⟩
    rw [requested_of_named (Frame.read_bytes hp ..) hd, Frame.read_bytes ha]
    rfl

/-- What is written for a response and a reply is the answer, unless one of them is refused. -/
theorem answer_eq (codec : Codec) (error : Option CallError) (reply : Option Bytes) :
    answer codec error reply = (Chore.fault? (response codec error reply)).elim
      (.ok (Chore.bytes (response codec error reply))) .error := by
  rw [answer, response]
  cases codec.encode .response ⟨responseText error⟩ with
  | error e => rfl
  | ok p =>
    simp only [Chore.encoded]
    split
    · rename_i hp
      rw [Chore.frame, if_pos hp]
      rfl
    · rename_i hp
      obtain ⟨hb, hf⟩ := Chore.frame_of_le (Nat.le_of_not_lt hp)
      rw [List.append_assoc, Chore.fault?_append hf, Chore.bytes_append hf, hb]
      split
      · rename_i hq
        rw [Chore.frame, if_pos hq]
        rfl
      · rename_i hq
        obtain ⟨hb', hf'⟩ := Chore.frame_of_le (Nat.le_of_not_lt hq)
        rw [Chore.fault?_append hf', Chore.bytes_append hf', hb']
        simp [Chore.fault?, Chore.bytes]

theorem bytes_of_answer {error : Option CallError} {reply : Option Bytes} {answered : Bytes}
    (h : answer codec error reply = .ok answered) :
    Chore.bytes (response codec error reply) = answered := by
  rw [answer_eq] at h
  cases hf : Chore.fault? (response codec error reply) with
  | none =>
    rw [hf] at h
    exact Except.ok.inj h
  | some e =>
    rw [hf] at h
    cases h

/-- What it takes to answer a stream. -/
def price (r : Responder) (ending : Ending) (bs : Bytes) : Nat :=
  match requested r.codec ending bs with
  | .ok (service, args) => r.cost (r.invocation service args)
  | .error _ => 0

end Responder

/-! ## A responder and its dialer -/

/-- A responder over a link, and what its dialer has still to send and has found so far. -/
structure Answering where
  responder : Responder
  link : Link
  todo : Bytes
  heard : Bytes := []
  /-- The end that the dialer found. -/
  found : Option Ending := none
  /-- Whether the dialer has given its stream up. -/
  gone : Bool := false
  invoked : List Invocation := []

namespace Answering

inductive Move
  | respond (m : Moment)
  /-- The dialer sends of its next bytes what fits. -/
  | send (n : Nat)
  /-- The dialer reads at most one byte more than `n`. -/
  | read (n : Nat)
  | reset
  | shutdown
  | drop
  deriving Repr, DecidableEq

/-- Whether a move is one of the responder. -/
def Move.isRespond : Move → Bool
  | respond _ => true
  | _ => false

/-- Whether the dialer has said all, and has been reset if its bytes are to end so. -/
def mayEnd (ending : Ending) (w : Answering) : Bool :=
  w.todo.isEmpty && w.link.wasReset.get .left == ending.isReset

/-- One move. The dialer ends its bytes after all has been said. -/
def move? (ending : Ending) (w : Answering) : Move → Option Answering
  | .respond m =>
    match w.responder.step? m w.link with
    | none => none
    | some turn => some
      { w with
        responder := turn.responder, link := turn.link
        invoked := w.invoked ++ turn.invoked.toList }
  | .send n =>
    match w.link.write? .left (w.todo.take n) with
    | some (.ok n, link) => some { w with link, todo := w.todo.drop n }
    | _ => none
  | .read n =>
    if w.gone then none
    else
      match w.link.read? .left (n + 1) with
      | none => none
      | some (.error _, link) => some { w with link, found := some .reset }
      | some (.ok bs, link) => some
        { w with
          link
          heard := w.heard ++ bs
          found := if bs.isEmpty then some .clean else w.found }
  | .reset => if ending.isReset then some { w with link := w.link.reset .left } else none
  | .shutdown => if w.mayEnd ending then some { w with link := w.link.shutdown .left } else none
  | .drop =>
    if w.mayEnd ending then some { w with link := w.link.drop .left, gone := true } else none

def run? (ending : Ending) : List Move → Answering → Option Answering
  | [], w => some w
  | mv :: moves, w =>
    match w.move? ending mv with
    | none => none
    | some w => run? ending moves w

/-- A responder whose dialer has yet to send all of its bytes. -/
def ofBytes (r : Responder) (capacity : Nat) (bs : Bytes) : Answering where
  responder := r
  link := .ofCapacity capacity
  todo := bs

/-- The dialer has neither given its stream up nor reset it. -/
def Listening (w : Answering) : Prop := w.gone = false ∧ w.link.wasReset.get .left = false

/-! ## How a responder stands -/

/-- What the dialer has received and what is on the way to it. -/
def told (w : Answering) : Bytes := w.heard ++ w.link.flow .right

/-- The bytes that the responder has not taken. -/
def ahead (w : Answering) : Bytes := w.link.flow .left ++ w.todo

/-- A dialer that ends its bytes only after all has been said, and in this way. -/
structure Fair (ending : Ending) (l : Link) (todo : Bytes) : Prop where
  todo : l.shut .left = true → todo = []
  wasReset : l.shut .left = true → l.wasReset.get .left = ending.isReset

/-- The responder has not ended its stream. -/
structure Open (l : Link) (found : Option Ending) (gone : Bool) : Prop where
  unfound : found = none
  unreset : l.wasReset.get .right = false
  unshut : l.shut .right = true → gone = true

/-- The responder has ended its stream in this way. -/
structure Closed (f : Ending) (l : Link) (found : Option Ending) : Prop where
  shut : l.shut .right = true
  wasReset : l.wasReset.get .right = f.isReset
  found : found = none ∨ found = some f ∧ l.flow .right = []

/-- The responder has written nothing. -/
structure Silent (heard : Bytes) (l : Link) (b : SendBuffer) : Prop where
  unheard : heard = []
  dry : l.flow .right = []
  unsent : b.unsent = []

variable {r : Responder} {ending f : Ending} {bs : Bytes} {w w' : Answering} {mv : Move}
  {m : Moment} {l : Link} {todo : Bytes} {found : Option Ending} {gone : Bool}

theorem Open.take (h : Open l found gone) (n : Nat) : Open (l.take s n) found gone :=
  ⟨h.unfound, h.unreset, fun hs => h.unshut (by simpa using hs)⟩

theorem Silent.take {heard : Bytes} {b : SendBuffer} (h : Silent heard l b) (n : Nat) :
    Silent heard (l.take .right n) b :=
  ⟨h.unheard, by simpa using h.dry, h.unsent⟩

theorem Silent.told (h : Silent w.heard w.link w.responder.buffer) : w.told = [] := by
  rw [Answering.told, h.unheard, h.dry]
  rfl

theorem Open.put (h : Open l found gone) (bs : Bytes) : Open (l.put s bs) found gone :=
  ⟨h.unfound, h.unreset, fun hs => h.unshut (by simpa using hs)⟩

theorem Fair.take (h : Fair ending l todo) (n : Nat) : Fair ending (l.take s n) todo :=
  ⟨fun hs => h.todo (by simpa using hs), fun hs => h.wasReset (by simpa using hs)⟩

theorem Fair.read (h : Fair ending l todo) (hs : l.shut .left = true) :
    todo = [] ∧ l.wasReset.get .left = ending.isReset := ⟨h.todo hs, h.wasReset hs⟩

theorem Open.aborted (h : Open l found gone) : Closed .reset (l.abort .right) found :=
  ⟨Link.shut_abort .., by simp [Ending.isReset], .inl h.unfound⟩

theorem Open.finished (h : Open l found gone) : Closed .clean (l.finish .right) found :=
  ⟨Link.shut_finish .., h.unreset, .inl h.unfound⟩

theorem Closed.found_eq (h : Closed f l found) (he : found = some e) : f = e := by
  rcases h.found with hn | ⟨hn, -⟩
  · cases hn.symm.trans he
  · exact Option.some.inj (hn.symm.trans he)

theorem Closed.flow_of_found (h : Closed f l found) (he : found = some e) : l.flow .right = [] := by
  rcases h.found with hn | ⟨-, hf⟩
  · cases hn.symm.trans he
  · exact hf

/-! ## The dialer -/

/-- What a move of the dialer does. -/
structure Dials (ending : Ending) (w w' : Answering) : Prop where
  responder : w'.responder = w.responder
  invoked : w'.invoked = w.invoked
  ahead : w'.ahead = w.ahead
  told : w'.told = w.told
  flow : (w'.link.flow .right).length ≤ (w.link.flow .right).length
  bound : w'.link.bound .right = w.link.bound .right
  fair : Fair ending w.link w.todo → Fair ending w'.link w'.todo
  opens : Open w.link w.found w.gone → Open w'.link w'.found w'.gone
  closed : ∀ f, Closed f w.link w.found → Closed f w'.link w'.found
  listening : w'.Listening → w.Listening

theorem mayEnd_iff : w.mayEnd ending = true ↔
    w.todo = [] ∧ w.link.wasReset.get .left = ending.isReset := by
  simp [mayEnd]

private theorem dials_of_send (h : w.move? ending (.send n) = some w') : Dials ending w w' := by
  simp only [move?] at h
  split at h
  · rename_i k l' hw
    cases h
    obtain rfl := Link.write?_take_eq_ok hw
    refine ⟨rfl, rfl, by simp [Answering.ahead], by simp [Answering.told], by simp, by simp,
      fun hf => ⟨fun hs => ?_, fun hs => hf.wasReset (by simpa using hs)⟩, fun ho => ho.put _,
      fun f hc => ⟨by simpa using hc.shut, hc.wasReset, by simpa using hc.found⟩, id⟩
    rw [hf.todo (by simpa using hs), List.drop_nil]
  · cases h

/-- Finding the end changes nothing else. -/
private theorem dials_of_found {e : Ending} (hg : ¬ w.gone = true) (hf : w.link.flow .right = [])
    (hs : w.link.shut .right = true) (hr : w.link.wasReset.get .right = e.isReset) :
    Dials ending w { w with found := some e } := by
  refine ⟨rfl, rfl, rfl, rfl, Nat.le_refl _, rfl, id, fun ho => absurd (ho.unshut hs) hg,
    fun f hc => ⟨hs, hc.wasReset, .inr ⟨?_, hf⟩⟩, id⟩
  have := hr.symm.trans hc.wasReset
  cases e <;> cases f <;> first | rfl | cases this

private theorem dials_of_read (h : w.move? ending (.read n) = some w') : Dials ending w w' := by
  simp only [move?] at h
  split at h
  · cases h
  · rename_i hg
    split at h
    · cases h
    · rename_i e l' hr
      rcases Link.read?_cases hr (Nat.succ_pos n) with ⟨_, he, _⟩ | ⟨hf, hs, rfl, he⟩
      · cases he
      · cases h
        refine dials_of_found hg hf hs ?_
        cases hw : w.link.wasReset.get .right with
        | true => rfl
        | false =>
          rw [if_neg (by simp [Side.other, hw])] at he
          cases he
    · rename_i piece l' hr
      rcases Link.read?_cases hr (Nat.succ_pos n) with ⟨hne, he, rfl⟩ | ⟨hf, hs, rfl, he⟩
      · cases he
        rw [if_neg fun hb => hne (List.isEmpty_iff.mp hb)] at h
        cases h
        refine ⟨rfl, rfl, by simp [Answering.ahead], by simp [Answering.told, Side.other], by simp,
          by simp, fun hf => hf.take _, fun ho => ho.take _,
          fun f hc => ⟨by simp [hc.shut], hc.wasReset, ?_⟩, id⟩
        exact hc.found.imp id fun hfound => ⟨hfound.1, by simp [hfound.2]⟩
      · cases hw : w.link.wasReset.get .right with
        | true =>
          rw [if_pos (by simp [Side.other, hw])] at he
          cases he
        | false =>
          rw [if_neg (by simp [Side.other, hw])] at he
          cases he
          cases h
          rw [List.append_nil]
          exact dials_of_found hg hf hs hw

theorem dials_of_move? (h : w.move? ending mv = some w') (hm : mv.isRespond = false) :
    Dials ending w w' := by
  cases mv with
  | respond m => cases hm
  | send n => exact dials_of_send h
  | read n => exact dials_of_read h
  | reset =>
    simp only [move?] at h
    split at h
    · rename_i he
      cases h
      refine ⟨rfl, rfl, rfl, rfl, Nat.le_refl _, rfl,
        fun hf => ⟨hf.todo, fun _ => by simp [he]⟩, fun ho => ⟨ho.unfound, ?_, ho.unshut⟩,
        fun f hc => ⟨hc.shut, ?_, hc.found⟩, ?_⟩
      · simpa using ho.unreset
      · simpa using hc.wasReset
      · exact fun hl => by simp [Listening] at hl
    · cases h
  | shutdown =>
    simp only [move?] at h
    split at h
    · rename_i he
      obtain ⟨ht, hr⟩ := mayEnd_iff.mp he
      cases h
      refine ⟨rfl, rfl, by simp [Answering.ahead], by simp [Answering.told], by simp, by simp,
        fun _ => ⟨fun _ => ht, fun _ => hr⟩,
        fun ho => ⟨ho.unfound, ho.unreset, fun hs => ho.unshut (by simpa using hs)⟩,
        fun f hc => ⟨by simpa using hc.shut, hc.wasReset, by simpa using hc.found⟩, id⟩
    · cases h
  | drop =>
    simp only [move?] at h
    split at h
    · rename_i he
      obtain ⟨ht, hr⟩ := mayEnd_iff.mp he
      cases h
      exact ⟨rfl, rfl, by simp [Answering.ahead], by simp [Answering.told], by simp, by simp,
        fun _ => ⟨fun _ => ht, fun _ => hr⟩, fun ho => ⟨ho.unfound, ho.unreset, fun _ => rfl⟩,
        fun f hc => ⟨by simp, hc.wasReset, by simpa using hc.found⟩,
        fun hl => by cases hl.1⟩
    · cases h

end Answering

end PeerCall
