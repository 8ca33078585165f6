import PeerCall.Proofs.Codec
import PeerCall.Proofs.Talk

/-! # What a talk can hide

Any talk at all: calls that are given up, servers that break down, frames that are too large. A call
that comes to no error was answered with a response without a text (`Honest.step`). -/

namespace PeerCall

namespace Responder

/-- An invocation that was noted may return this. -/
def MayReturn (server : Server) (notes : List Note) (error : Option CallError)
    (reply : Option Bytes) : Prop :=
  ∃ n ∈ notes, (server n.invocation).Returns error reply

/-- All that was ever written by a responder are these bytes. -/
def Said (r : Responder) (notes : List Note) (bs : Bytes) : Prop :=
  match r.phase with
  | .service _ => bs = [] ∧ r.buffer.unsent = []
  | .args _ _ => bs = [] ∧ r.buffer.unsent = []
  | .serving v => bs = [] ∧ r.buffer.unsent = [] ∧
      ∃ n ∈ notes, ∀ error reply, v.work.Returns error reply →
        (r.server n.invocation).Returns error reply
  | .responding _ => ∃ error reply, MayReturn r.server notes error reply ∧
      bs ++ r.owed = Chore.bytes (response r.codec error reply)
  | .ended _ => bs = [] ∨ ∃ error reply, MayReturn r.server notes error reply ∧
      bs <+: Chore.bytes (response r.codec error reply)
  | .crashed => bs = []

/-- Nothing is noted before the request was read, and one invocation at most after that. -/
def Noted (r : Responder) (notes : List Note) : Prop :=
  match r.phase with
  | .service _ => notes = []
  | .args _ _ => notes = []
  | _ => notes.length ≤ 1

/-- The first frame that a responder writes is the response to an invocation. -/
theorem response_of_bytes {codec : Codec} (hc : codec.Undoes .response)
    (h : Frame.bytes p ++ rest <+: Chore.bytes (response codec error reply))
    (hp : p.length ≤ Frame.maxSize) :
    codec.decode .response p = .ok ⟨responseText error⟩ := by
  obtain ⟨more, hmore⟩ := h
  rw [response, List.append_assoc (Chore.encoded _), List.append_assoc] at hmore
  rcases Chore.bytes_encoded (codec.encode .response ⟨responseText error⟩) with
    ⟨q, hq, hlen, hbytes, hfault⟩ | ⟨e, he⟩
  · rw [Chore.bytes_append hfault, hbytes] at hmore
    rw [(Frame.bytes_append_inj hp hlen hmore).1]
    exact hc _ _ hq hlen
  · -- nothing is written where the response cannot be
    rw [he] at hmore
    have := congrArg List.length hmore
    simp [Chore.bytes, Frame.bytes] at this

variable {r : Responder} {l : Link} {turn : Turn} {notes : List Note}

theorem MayReturn.append {server : Server} (h : MayReturn server notes error reply)
    (more : List Note) : MayReturn server (notes ++ more) error reply := by
  obtain ⟨n, hn, h⟩ := h
  exact ⟨n, List.mem_append_left _ hn, h⟩

theorem Moves.noted (h : r.Moves m l turn) (hn : r.Noted notes) (owner : Nat) :
    turn.responder.Noted (notes ++ turn.noted owner m) := by
  unfold Noted at hn
  cases h with
  | service hp | named hp | args hp =>
    rw [hp] at hn
    exact (List.append_nil _).trans hn
  | serviceLost hp | serviceBad hp | argsLost hp =>
    rw [hp] at hn
    subst hn
    exact Nat.zero_le 1
  | invoked hp =>
    rw [hp] at hn
    subst hn
    exact Nat.le_refl 1
  | serving hp | crashed hp | returned hp | responding hp | unresponded hp | responded hp =>
    rw [hp] at hn
    rwa [← List.append_nil notes] at hn

/-- A step of a responder adds to what was said just what it puts on its way. -/
theorem Moves.said (h : r.Moves m l turn) (hs : r.Said notes bs) (owner : Nat) :
    ∃ piece, turn.link.flow .right = l.flow .right ++ piece ∧
      turn.responder.Said (notes ++ turn.noted owner m) (bs ++ piece) := by
  have hread {rd : FrameReader} {q unread l'} (ht : rd.Turn .right r.unread l q unread l') :
      l'.flow .right = l.flow .right ++ [] := by
    obtain ⟨n, rfl⟩ := ht.link
    simp
  unfold Said at hs
  cases h with
  | service hp ht | named hp ht | args hp ht =>
    rw [hp] at hs
    exact ⟨[], hread ht, (List.append_nil _).trans hs.1, hs.2⟩
  | serviceLost hp ht | serviceBad hp ht | argsLost hp ht =>
    rw [hp] at hs
    exact ⟨[], (Link.flow_abort ..).trans (hread ht), .inl ((List.append_nil _).trans hs.1)⟩
  | @invoked service _ args _ _ hp ht =>
    rw [hp] at hs
    let i := r.invocation service args
    refine ⟨[], hread ht, (List.append_nil _).trans hs.1, hs.2, ⟨owner, i, i.context.verdict m⟩,
      List.mem_append_right _ (List.mem_singleton.mpr rfl), fun _ _ h => h⟩
  | serving hp hv =>
    rw [hp] at hs
    obtain ⟨hbs, hu, n, hn, hret⟩ := hs
    refine ⟨[], (List.append_nil _).symm, (List.append_nil _).trans hbs, hu, n,
      List.mem_append_left _ hn, fun _ _ h => ?_⟩
    exact hret _ _ (Serving.returns_of_more hv h)
  | crashed hp =>
    rw [hp] at hs
    exact ⟨[], (Link.flow_drop ..).trans (List.append_nil _).symm, (List.append_nil _).trans hs.1⟩
  | @returned _ error reply hp hv =>
    rw [hp] at hs
    obtain ⟨hbs, hu, n, hn, hret⟩ := hs
    refine ⟨[], (List.append_nil _).symm, error, reply, MayReturn.append ⟨n, hn, ?_⟩ _, ?_⟩
    · exact hret _ _ (Serving.returns_of_step? hv)
    · simp [Responder.become, owed, hbs, hu]
  | responding hp ht =>
    rw [hp] at hs
    obtain ⟨error, reply, hret, hbs⟩ := hs
    rw [owed, hp] at hbs
    cases ht with
    | @more _ _ piece _ hb =>
      refine ⟨piece, by simp [Responder.become], error, reply, hret.append _, ?_⟩
      simpa [Responder.become, owed, hb] using hbs
  | @unresponded cs _ _ _ hp ht =>
    rw [hp] at hs
    obtain ⟨error, reply, hret, hbs⟩ := hs
    rw [owed, hp] at hbs
    cases ht with
    | @failed _ _ piece rest hb =>
      refine ⟨piece, by simp [Responder.fail], .inr ⟨error, reply, hret.append _, rest, ?_⟩⟩
      simpa [Responder.fail, hb] using hbs
    | refused =>
      refine ⟨[], by simp [Responder.fail], .inr ⟨error, reply, hret.append _,
        r.buffer.unsent ++ Chore.bytes cs, ?_⟩⟩
      simpa [Responder.fail] using hbs
  | @responded cs b _ hp ht =>
    rw [hp] at hs
    obtain ⟨error, reply, hret, hbs⟩ := hs
    rw [owed, hp] at hbs
    cases ht with
    | @done _ piece hb =>
      refine ⟨piece, by simp [Responder.become], .inr ⟨error, reply, hret.append _, b.unsent, ?_⟩⟩
      simpa [Responder.become, hb] using hbs

end Responder

namespace Talk

/-- An invocation that was noted may return without a text for the response. -/
def Hushed (server : Server) (notes : List Note) : Prop :=
  ∃ error reply, Responder.MayReturn server notes error reply ∧
    Responder.responseText error = ""

theorem Hushed.append {server : Server} {notes : List Note} (h : Hushed server notes)
    (more : List Note) : Hushed server (notes ++ more) := by
  obtain ⟨error, reply, h, ht⟩ := h
  exact ⟨error, reply, h.append more, ht⟩

/-- A call under way. It has read a front of what was said; after the response it is without an
error only if the response had no text. -/
structure Open (server : Server) (codec : Codec) (x : Exchange) (l : Link) (r : Responder)
    (notes : List Note) : Prop where
  sound : x.Sound
  codec_eq : x.codec = codec
  early : x.phase.stage < 2 → r.Said notes (x.seen ++ l.flow .right)
  late : x.phase.stage = 2 → x.call.error = none → Hushed server notes

/-- A talk in which a call without an error was answered without a text. -/
structure Honest (server : Server) (codec : Codec) (t : Talk) : Prop where
  sound : t.responder.Sound
  server_eq : t.responder.server = server
  codec_eq : t.responder.codec = codec
  noted : t.responder.Noted t.notes
  caller : match t.caller with
    | .more x => Open server codec x t.link t.responder t.notes
    | .done c => c.error = none → Hushed server t.notes

variable {server : Server} {codec : Codec} {x x' : Exchange} {l l' : Link} {r : Responder}
  {notes : List Note}

theorem honest_ofCall (call : Call) (capacity : Nat) {r : Responder}
    (hp : r.phase = .service .start) (hb : r.buffer.unsent = []) :
    Honest r.server r.codec (.ofCall r.codec call capacity r) where
  sound := by
    rw [Responder.Sound]
    simp only [ofCall, hp]
    exact FrameReader.sound_start
  server_eq := rfl
  codec_eq := rfl
  noted := by
    simp only [ofCall, Responder.Noted, hp]
  caller := by
    refine ⟨trivial, rfl, fun _ => ?_, fun h => by cases h⟩
    simp only [ofCall, Responder.Said, hp]
    exact ⟨Link.flow_ofCapacity .., hb⟩

/-- The response that a call takes is one that an invocation returned. -/
private theorem hushed_of_response (hc : codec.Undoes .response) (hr : r.codec = codec)
    (hserver : r.server = server) (hs : r.Said notes bs) (hb : bs = Frame.bytes p ++ rest)
    (hp : p.length ≤ Frame.maxSize) (hd : codec.decode .response p = .ok response)
    (ht : response.error = "") : Hushed server notes := by
  have hne : bs ≠ [] := by
    rw [hb]
    exact fun hn => Frame.bytes_ne_nil _ (List.append_eq_nil_iff.mp hn).1
  have hmust {error reply} (h : Responder.MayReturn r.server notes error reply)
      (hpre : bs <+: Chore.bytes (Responder.response r.codec error reply)) :
      Hushed server notes := by
    rw [hb, hr] at hpre
    have := hd.symm.trans (Responder.response_of_bytes hc hpre hp)
    cases this
    exact ⟨error, reply, hserver ▸ h, ht⟩
  unfold Responder.Said at hs
  cases hph : r.phase with
  | service | args | serving =>
    rw [hph] at hs
    exact absurd hs.1 hne
  | responding =>
    rw [hph] at hs
    obtain ⟨error, reply, h, hbs⟩ := hs
    exact hmust h ⟨_, hbs⟩
  | ended =>
    rw [hph] at hs
    rcases hs with hs | ⟨error, reply, h, hpre⟩
    · exact absurd hs hne
    · exact hmust h hpre
  | crashed =>
    rw [hph] at hs
    exact absurd hs hne

private theorem Open.more (hc : codec.Undoes .response) (hr : r.codec = codec)
    (hserver : r.server = server) (h : Open server codec x l r notes)
    (hm : x.Moves m l (.more x') l') : Open server codec x' l' r notes := by
  refine ⟨hm.sound_of_more, hm.codec_of_more.trans h.codec_eq, fun hs => ?_, fun hs he => ?_⟩
  · cases hm with
    | sending _ hp ht | sent _ hp ht =>
      have hsaid := h.early (by rw [hp]; exact Nat.zero_lt_two)
      obtain ⟨piece, rfl⟩ := ht.link
      rw [Exchange.seen, hp] at hsaid
      simpa [Exchange.seen] using hsaid
    | header _ hp ht =>
      have hsaid := h.early (by rw [hp]; exact Nat.one_lt_two)
      have hb := ht.bytes_of_more []
      simp only [List.append_nil] at hb
      rw [Exchange.seen, hp] at hsaid
      exact hb ▸ hsaid
    | response => exact absurd hs (Nat.lt_irrefl 2)
    | reply => exact absurd hs (Nat.lt_irrefl 2)
  · cases hm with
    | sending | sent | header => cases hs
    | response _ hp ht hd =>
      have hsaid := h.early (by rw [hp]; exact Nat.one_lt_two)
      rw [Exchange.seen, hp] at hsaid
      simp only [Exchange.takeResponse] at he
      split at he
      · rename_i hempty
        cases ht with
        | whole hlen hb =>
          exact hushed_of_response hc hr hserver hsaid hb hlen (h.codec_eq ▸ hd)
            (String.isEmpty_iff.mp hempty)
      · cases he
    | reply _ hp => exact h.late (by rw [hp]; rfl) he

private theorem Open.done (h : Open server codec x l r notes) (hm : x.Moves m l (.done c) l')
    (he : c.error = none) : Hushed server notes := by
  cases hm with
  | stopped | unsent | headerLost | headerBad | replyLost | replyBad => cases he
  | replyMissing _ hp | replyEmpty _ hp | replied _ hp => exact h.late (by rw [hp]; rfl) he

/-- There is no second invocation. -/
theorem Honest.notes_eq {t : Talk} (h : Honest server codec t) (hn : n ∈ t.notes) :
    t.notes = [n] := by
  have hle : t.notes.length ≤ 1 := by
    have hnoted := h.noted
    unfold Responder.Noted at hnoted
    split at hnoted
    · exact hnoted ▸ Nat.zero_le 1
    · exact hnoted ▸ Nat.zero_le 1
    · exact hnoted
  obtain ⟨n', hn'⟩ := List.length_eq_one_iff.mp (Nat.le_antisymm hle (List.length_pos_of_mem hn))
  rw [hn', List.mem_singleton] at hn
  rw [hn', hn]

theorem Honest.step {t t' : Talk} (hc : codec.Undoes .response) (h : Honest server codec t)
    (hs : t.Step owner m t') : Honest server codec t' := by
  cases hs with
  | @call x p l l' r notes hx =>
    obtain ⟨hsound, hserver, hcodec, hnoted, hopen⟩ := h
    have hm := Exchange.moves_of_step? hopen.sound hx
    refine ⟨hsound, hserver, hcodec, hnoted, ?_⟩
    cases p with
    | more x' => exact hopen.more hc hcodec hserver hm
    | done c => exact hopen.done hm
  | @respond p l r turn notes hx =>
    obtain ⟨hsound, hserver, hcodec, hnoted, hopen⟩ := h
    have hm := Responder.moves_of_step? hsound hx
    refine ⟨hm.sound, hm.same.server.trans hserver, hm.same.codec.trans hcodec,
      hm.noted hnoted owner, ?_⟩
    cases p with
    | done c => exact fun he => (hopen he).append _
    | more x =>
      refine ⟨hopen.sound, hopen.codec_eq, fun hs => ?_, fun hs he => (hopen.late hs he).append _⟩
      obtain ⟨piece, hflow, hsaid⟩ := hm.said (hopen.early hs) owner
      simp only
      rw [hflow, ← List.append_assoc]
      exact hsaid

end Talk

end PeerCall
