import PeerCall.Proofs.Talk

/-! # What becomes of a request

Any talk at all: a request that cannot be encoded, a call that is given up, a codec at the other end
that understands nothing. The bytes that the responder has taken, those under way and those that the
call has not sent are, in this order, the bytes of the request. So a server is asked for nothing but
the whole request, and once at most; and as long as it was not asked, the call hears nothing. Main
statement: `Talk.Traced.step`. -/

namespace PeerCall

/-! ## The bytes of a request -/

/-- A call asks for this service with these arguments, both in bytes that fit into frames. -/
structure Call.Asks (call : Call) (codec : Codec) (service args : Bytes) : Prop where
  encodes : codec.encode .serviceId call.service = .ok service
  serviceFits : service.length ≤ Frame.maxSize
  encodesArgs : call.encodeArgs codec = .ok args
  argsFit : args.length ≤ Frame.maxSize

/-- A responder was asked for just what a call asks for. -/
structure Call.Asked (call : Call) (codec : Codec) (r : Responder) (i : Invocation) : Prop where
  request : ∃ service, call.Asks codec service i.args ∧
    r.codec.decode .serviceId service = .ok i.service
  peer : i.peer = r.peer
  context : i.context = r.context

theorem Call.Asked.same {call : Call} {codec : Codec} {r r' : Responder} {i : Invocation}
    (h : call.Asked codec r i) (hs : r.Same r') : call.Asked codec r' i where
  request := hs.codec ▸ h.request
  peer := h.peer.trans hs.peer.symm
  context := h.context.trans hs.context.symm

/-- A call has failed before its request was sent. -/
def Call.SendFailed (c : Call) : Prop :=
  (∃ dest e, c.error = some (.connection dest e)) ∨ ∃ e, c.error = some (.encode e)

theorem Call.not_sendFailed_fail {c : Call} (hc : ∀ dest e', e ≠ .connection dest e')
    (he : ∀ e', e ≠ .encode e') : ¬ (c.fail e).SendFailed := by
  rintro (⟨dest, e', h⟩ | ⟨e', h⟩)
  · exact hc dest e' (Option.some.inj h)
  · exact he e' (Option.some.inj h)

theorem Call.not_sendFailed_of_verdict {c : Call} {context : Context}
    (h : context.verdict m = some e) : ¬ (c.fail e).SendFailed := by
  refine Call.not_sendFailed_fail (fun _ _ => ?_) fun _ => ?_ <;>
    · rintro rfl
      cases Context.isCancellation_of_verdict h

/-- A call has no error, or one that was received for it. -/
def Call.Responded (c : Call) : Prop := c.error = none ∨ ∃ text, c.error = some (.remote text)

theorem Call.not_responded_fail {c : Call} (h : ∀ text, e ≠ .remote text) :
    ¬ (c.fail e).Responded := by
  rintro (hn | ⟨text, ht⟩)
  · cases hn
  · exact h text (Option.some.inj ht)

theorem Call.not_responded_of_verdict {c : Call} {context : Context}
    (h : context.verdict m = some e) : ¬ (c.fail e).Responded := by
  refine Call.not_responded_fail fun _ => ?_
  rintro rfl
  cases Context.isCancellation_of_verdict h

namespace Exchange

variable {codec : Codec} {call : Call}

/-- A request goes out in two frames, or fails in one of them. -/
theorem request_cases (codec : Codec) (call : Call) :
    (∃ service args, call.Asks codec service args ∧ Chore.fault? (request codec call) = none ∧
      Chore.bytes (request codec call) = Frame.bytes service ++ Frame.bytes args) ∨
    (Chore.fault? (request codec call) ≠ none ∧ (Chore.bytes (request codec call) = [] ∨
      ∃ service, service.length ≤ Frame.maxSize ∧
        Chore.bytes (request codec call) = Frame.bytes service)) := by
  rw [request, List.append_assoc]
  rcases Chore.bytes_encoded (codec.encode .serviceId call.service) with
    ⟨p, hp, hpl, hpb, hpf⟩ | ⟨e, he⟩
  · rw [Chore.bytes_append hpf, Chore.fault?_append hpf, hpb]
    rcases Chore.bytes_encoded (call.encodeArgs codec) with ⟨q, hq, hql, hqb, hqf⟩ | ⟨e, he⟩
    · rw [Chore.bytes_append hqf, Chore.fault?_append hqf, hqb]
      refine .inl ⟨p, q, ⟨hp, hpl, hq, hql⟩, rfl, ?_⟩
      rw [Chore.bytes, Chore.bytes, List.append_nil]
    · rw [he]
      exact .inr ⟨(fun h => by cases h), .inr ⟨p, hpl, List.append_nil _⟩⟩
  · rw [he]
    exact .inr ⟨(fun h => by cases h), .inl rfl⟩

/-- Two frames are all of a request, and all that is in it. -/
theorem asks_of_bytes {p q rest : Bytes} (hp : p.length ≤ Frame.maxSize)
    (hq : q.length ≤ Frame.maxSize)
    (h : Frame.bytes p ++ (Frame.bytes q ++ rest) = Chore.bytes (request codec call)) :
    call.Asks codec p q ∧ Chore.fault? (request codec call) = none ∧ rest = [] := by
  rcases request_cases codec call with ⟨service, args, ha, hf, hb⟩ | ⟨-, hb | ⟨service, hl, hb⟩⟩
  · rw [hb] at h
    obtain ⟨rfl, hargs⟩ := Frame.bytes_append_inj hp ha.serviceFits h
    obtain ⟨rfl, hrest⟩ :=
      Frame.bytes_append_inj hq ha.argsFit (hargs.trans (List.append_nil _).symm)
    exact ⟨ha, hf, hrest⟩
  · exact absurd (List.append_eq_nil_iff.mp (h.trans hb)).1 (Frame.bytes_ne_nil _)
  · obtain ⟨-, h⟩ :=
      Frame.bytes_append_inj hp hl ((h.trans hb).trans (List.append_nil _).symm)
    exact absurd (List.append_eq_nil_iff.mp h).1 (Frame.bytes_ne_nil _)

/-- A request of which these bytes have not gone out is not complete. -/
def Unsent (codec : Codec) (call : Call) (todo : Bytes) : Prop :=
  Chore.fault? (request codec call) = none → todo ≠ []

/-! ## The call -/

/-- How a call stands, with the bytes of its request that have not gone out. -/
inductive Sends (codec : Codec) (call : Call) : Progress Exchange Call → Bytes → Prop
  | sending {x cs} (hp : x.phase = .sending cs) (hl : Chore.Flushed cs)
    (hf : Chore.fault? cs = Chore.fault? (request codec call))
    (hm : Unsent codec call x.pending) (he : ¬ x.call.SendFailed) :
    Sends codec call (.more x) x.pending
  | sent {x} (hs : 0 < x.phase.stage) (hx : x.Sound)
    (hf : Chore.fault? (request codec call) = none) (he : ¬ x.call.SendFailed) :
    Sends codec call (.more x) []
  | done {c todo} (he : c.SendFailed → Unsent codec call todo) :
    Sends codec call (.done c) todo

variable {x x' : Exchange} {l l' : Link} {todo : Bytes}

theorem sends_ofCall (codec : Codec) (hfresh : call.error = none) :
    Sends codec call (.more (.ofCall codec call)) (Chore.bytes (request codec call)) := by
  have hp : (ofCall codec call).pending = Chore.bytes (request codec call) := rfl
  rw [← hp]
  refine .sending rfl (Chore.flushed_append _) rfl (fun hf hn => ?_) ?_
  · rw [hp] at hn
    rcases request_cases codec call with ⟨service, args, -, -, hb⟩ | ⟨hf', -⟩
    · exact Frame.bytes_ne_nil _ (List.append_eq_nil_iff.mp (hb.symm.trans hn)).1
    · exact hf' hf
  · rintro (⟨_, _, he⟩ | ⟨_, he⟩) <;> cases hfresh.symm.trans he

theorem Sends.sound (h : Sends codec call (.more x) todo) : x.Sound := by
  cases h with
  | sending hp =>
    rw [Sound, hp]
    trivial
  | sent _ hx => exact hx

/-- As long as a call sends, its request is not complete. -/
theorem Sends.unsent (h : Sends codec call (.more x) todo) (hs : x.phase.stage = 0) :
    Unsent codec call todo := by
  cases h with
  | sending _ _ _ hm => exact hm
  | sent hs' => exact absurd hs (Nat.ne_of_gt hs')

/-- Whatever a call does, it puts a front of what is left on its way, and none of it once its
context is done. -/
theorem Sends.step (h : Sends codec call (.more x) todo) (hm : x.Moves m l p l') :
    ∃ piece todo', todo = piece ++ todo' ∧ l'.flow .left = l.flow .left ++ piece ∧
      Sends codec call p todo' ∧ (x.call.context.verdict m ≠ none → todo' = todo) := by
  have hread {r : FrameReader} {q unread l₁} (ht : r.Turn .left x.unread l q unread l₁) :
      l₁.flow .left = l.flow .left ++ [] := by
    obtain ⟨n, rfl⟩ := ht.link
    simp
  have hkeep {c : Call} (hc : c.SendFailed → Unsent codec call todo)
      (hl : l'.flow .left = l.flow .left ++ []) : ∃ piece todo', todo = piece ++ todo' ∧
        l'.flow .left = l.flow .left ++ piece ∧ Sends codec call (.done c) todo' ∧
        (x.call.context.verdict m ≠ none → todo' = todo) :=
    ⟨[], todo, rfl, hl, .done hc, fun _ => rfl⟩
  cases h with
  | sending hp hl hf hmiss he =>
    cases hm with
    | stopped hv =>
      exact hkeep (fun hc => absurd hc (Call.not_sendFailed_of_verdict hv))
        ((Link.flow_abort ..).trans (List.append_nil _).symm)
    | sending hv hp' ht =>
      cases hp.symm.trans hp'
      cases ht with
      | @more _ _ piece _ hb hne hf' hl' =>
        refine ⟨piece, _, ?_, by simp, .sending rfl (hl' hl) (hf'.trans hf) (fun _ => hne) he,
          absurd hv⟩
        rw [pending, hp]
        exact hb
    | sent hv hp' ht =>
      cases hp.symm.trans hp'
      cases ht with
      | @done _ piece hb hf' hl' =>
        refine ⟨piece, [], ?_, by simp,
          .sent Nat.zero_lt_one FrameReader.sound_start (hf.symm.trans hf') he, absurd hv⟩
        rw [pending, hp, ← hl' hl]
        exact hb
    | unsent hv hp' ht =>
      cases hp.symm.trans hp'
      cases ht with
      | @failed _ _ piece rest hb hf' =>
        refine ⟨piece, rest, ?_, by simp, .done fun _ hn => ?_, absurd hv⟩
        · rw [pending, hp]
          exact hb
        · cases (hf'.symm.trans hf).trans hn
      | refused hne =>
        refine hkeep (fun _ _ => ?_) ((Link.flow_abort ..).trans (List.append_nil _).symm)
        rw [pending, hp]
        exact hne
    | _ => simp only [hp, reduceCtorEq] at *
  | sent hs hx hf he =>
    cases hm with
    | stopped hv =>
      exact hkeep (fun hc => absurd hc (Call.not_sendFailed_of_verdict hv))
        ((Link.flow_abort ..).trans (List.append_nil _).symm)
    | sending _ hp | sent _ hp | unsent _ hp =>
      rw [hp] at hs
      cases hs
    | header _ hp ht =>
      exact ⟨[], [], rfl, hread ht, .sent Nat.zero_lt_one ht.sound_of_more hf he, fun _ => rfl⟩
    | response _ hp ht =>
      refine ⟨[], [], rfl, hread ht, .sent Nat.zero_lt_two FrameReader.sound_start hf ?_,
        fun _ => rfl⟩
      simp only [takeResponse]
      split
      · exact he
      · exact Call.not_sendFailed_fail (fun _ _ h => by cases h) fun _ h => by cases h
    | reply _ hp ht =>
      exact ⟨[], [], rfl, hread ht, .sent Nat.zero_lt_two ht.sound_of_more hf he, fun _ => rfl⟩
    | headerLost _ _ ht | headerBad _ _ ht | replyLost _ _ ht | replyBad _ _ ht =>
      refine hkeep (fun hc => absurd hc ?_) ((Link.flow_abort ..).trans (hread ht))
      exact Call.not_sendFailed_fail (fun _ _ h => by cases h) fun _ h => by cases h
    | replyMissing _ _ ht | replyEmpty _ _ ht | replied _ _ ht =>
      exact hkeep (fun hc => absurd hc he) ((Link.flow_finish ..).trans (hread ht))

/-- Nothing was heard of an answer, and nothing is under way. -/
def Quiet (p : Progress Exchange Call) (l : Link) : Prop :=
  l.flow .right = [] ∧
    match p with
    | .more x => x.phase.stage < 2 ∧ x.seen = []
    | .done c => ¬ c.Responded

theorem quiet_ofCall (codec : Codec) (call : Call) (capacity : Nat) :
    Quiet (.more (.ofCall codec call)) (.ofCapacity capacity) :=
  ⟨Link.flow_ofCapacity .., Nat.zero_lt_two, rfl⟩

theorem Quiet.step (h : Quiet (.more x) l) (hm : x.Moves m l p l') : Quiet p l' := by
  obtain ⟨hflow, hstage, hseen⟩ := h
  -- to a reader nothing is under way, so all it can find is the end
  have hcut {r : FrameReader} {q unread l₁} (hs : r.taken ++ x.unread = [])
      (ht : r.Turn .left x.unread l q unread l₁) : (∃ e, q = .done (.error e)) ∧ l₁ = l := by
    have hn : r.taken ++ x.unread ++ l.flow .right = [] := by rw [hs, hflow]; rfl
    exact ⟨(ht.cut_of_silent hn).1, (ht.cut_of_silent hn).2.1⟩
  have hput {b : SendBuffer} {cs q b' l₁} (ht : b.Turn .left cs l q b' l₁) :
      l₁.flow .right = [] := by
    obtain ⟨piece, rfl⟩ := ht.link
    simpa using hflow
  cases hm with
  | stopped hv =>
    exact ⟨(Link.flow_abort ..).trans hflow, Call.not_responded_of_verdict hv⟩
  | sending _ hp ht =>
    rw [seen, hp] at hseen
    exact ⟨hput ht, Nat.zero_lt_two, hseen⟩
  | sent _ hp ht =>
    rw [seen, hp] at hseen
    exact ⟨hput ht, Nat.one_lt_two, hseen⟩
  | unsent _ _ ht => exact ⟨(Link.flow_abort ..).trans (hput ht), Call.not_responded_fail nofun⟩
  | headerLost _ hp ht =>
    rw [seen, hp] at hseen
    obtain ⟨-, rfl⟩ := hcut hseen ht
    exact ⟨(Link.flow_abort ..).trans hflow, Call.not_responded_fail nofun⟩
  | header _ hp ht | headerBad _ hp ht | response _ hp ht =>
    rw [seen, hp] at hseen
    obtain ⟨⟨e, he⟩, -⟩ := hcut hseen ht
    cases he
  | reply _ hp | replyMissing _ hp | replyLost _ hp | replyEmpty _ hp | replyBad _ hp
  | replied _ hp =>
    rw [hp] at hstage
    exact absurd hstage (Nat.lt_irrefl 2)

end Exchange

/-! ## The answer -/

namespace Responder

/-- A responder that has not taken a step. -/
structure Fresh (r : Responder) : Prop where
  phase : r.phase = .service .start
  unread : r.unread = []
  unsent : r.buffer.unsent = []

/-- How a responder stands to a request, with the bytes that it has still to take and what was noted
of it. -/
inductive Heard (codec : Codec) (call : Call) (r : Responder) (ahead : Bytes) : List Note → Prop
  | naming {rd} (hp : r.phase = .service rd) (hs : rd.Sound) (hu : r.buffer.unsent = [])
    (hb : rd.taken ++ r.unread ++ ahead = Chore.bytes (Exchange.request codec call)) :
    Heard codec call r ahead []
  | passing {service rd p} (hp : r.phase = .args service rd) (hs : rd.Sound)
    (hu : r.buffer.unsent = []) (hl : p.length ≤ Frame.maxSize)
    (hd : r.codec.decode .serviceId p = .ok service)
    (hb : Frame.bytes p ++ (rd.taken ++ r.unread ++ ahead) =
      Chore.bytes (Exchange.request codec call)) :
    Heard codec call r ahead []
  | refused {e} (hp : r.phase = .ended (.error e)) : Heard codec call r ahead []
  | invoked {n} (hp : ∀ rd, r.phase ≠ .service rd ∧ ∀ service, r.phase ≠ .args service rd)
    (hn : call.Asked codec r n.invocation)
    (hf : Chore.fault? (Exchange.request codec call) = none) (ha : ahead = []) :
    Heard codec call r ahead [n]

variable {codec : Codec} {call : Call} {r : Responder} {l : Link} {turn : Turn} {ahead : Bytes}
  {notes : List Note}

theorem Fresh.heard (h : r.Fresh) (hb : ahead = Chore.bytes (Exchange.request codec call)) :
    Heard codec call r ahead [] := by
  refine .naming h.phase FrameReader.sound_start h.unsent ?_
  rw [h.unread]
  exact hb

theorem Heard.sound (h : Heard codec call r ahead notes) : r.Sound := by
  unfold Sound
  cases h with
  | naming hp hs =>
    rw [hp]
    exact hs
  | passing hp hs =>
    rw [hp]
    exact hs
  | refused hp =>
    rw [hp]
    trivial
  | invoked hp =>
    split
    · exact absurd ‹_› (hp _).1
    · exact absurd ‹_› ((hp _).2 _)
    · trivial

/-- A server is asked once at most, and for what the call asks for. -/
theorem Heard.asked (h : Heard codec call r ahead notes) :
    notes = [] ∨ ∃ n, notes = [n] ∧ call.Asked codec r n.invocation := by
  cases h with
  | naming | passing | refused => exact .inl rfl
  | invoked _ hn => exact .inr ⟨_, rfl, hn⟩

theorem Heard.asked_of_mem (h : Heard codec call r ahead notes) (hn : n ∈ notes) :
    call.Asked codec r n.invocation := by
  rcases h.asked with rfl | ⟨n', rfl, ha⟩
  · cases hn
  · exact List.mem_singleton.mp hn ▸ ha

/-- A server that was asked has taken the whole request. -/
theorem Heard.whole (h : Heard codec call r ahead notes) (hn : notes ≠ []) :
    Chore.fault? (Exchange.request codec call) = none ∧ ahead = [] := by
  cases h with
  | naming | passing | refused => exact absurd rfl hn
  | invoked _ _ hf ha => exact ⟨hf, ha⟩

/-- What is left and what was taken of a request stay together the same, whatever a responder
does. -/
theorem Heard.step {todo : Bytes} (h : Heard codec call r (l.flow .left ++ todo) notes)
    (hm : r.Moves m l turn) (owner : Nat) :
    Heard codec call turn.responder (turn.link.flow .left ++ todo)
      (notes ++ turn.noted owner m) := by
  cases h with
  | naming hp hs hu hb =>
    cases hm with
    | service hp' ht =>
      cases hp.symm.trans hp'
      exact .naming rfl ht.sound_of_more hu ((ht.bytes_of_more todo).trans hb)
    | serviceLost | serviceBad => exact .refused rfl
    | named hp' ht hd =>
      cases hp.symm.trans hp'
      obtain ⟨hl, hw⟩ := ht.bytes_of_whole todo
      exact .passing rfl FrameReader.sound_start hu hl hd (hw.symm.trans hb)
    | _ => simp only [hp, reduceCtorEq] at *
  | passing hp hs hu hl hd hb =>
    cases hm with
    | args hp' ht =>
      cases hp.symm.trans hp'
      exact .passing rfl ht.sound_of_more hu hl hd (ht.bytes_of_more todo ▸ hb)
    | argsLost => exact .refused rfl
    | @invoked service _ args _ _ hp' ht =>
      cases hp.symm.trans hp'
      obtain ⟨hl', hw⟩ := ht.bytes_of_whole todo
      obtain ⟨hask, hf, hrest⟩ := Exchange.asks_of_bytes hl hl' (hw ▸ hb)
      refine .invoked (fun _ => ⟨nofun, fun _ => nofun⟩) ⟨⟨_, hask, hd⟩, rfl, rfl⟩ hf ?_
      exact (List.append_eq_nil_iff.mp hrest).2
    | _ => simp only [hp, reduceCtorEq] at *
  | refused hp => cases hm <;> simp only [hp, reduceCtorEq] at *
  | @invoked n hp hn hf ha =>
    -- what was asked for stays so, and nothing more is read
    suffices turn.invoked = none ∧ turn.link.flow .left = l.flow .left ∧ ∀ rd,
        turn.responder.phase ≠ .service rd ∧ ∀ service, turn.responder.phase ≠ .args service rd by
      obtain ⟨hi, hl, hp'⟩ := this
      rw [Turn.noted, hi, hl]
      exact .invoked hp' (hn.same hm.same) hf ha
    have hput {cs q b' l₁} (ht : r.buffer.Turn .right cs l q b' l₁) :
        l₁.flow .left = l.flow .left := by
      obtain ⟨piece, rfl⟩ := ht.link
      simp
    cases hm with
    | service hp' | serviceLost hp' | serviceBad hp' | named hp' => exact absurd hp' (hp _).1
    | args hp' | argsLost hp' | invoked hp' => exact absurd hp' ((hp _).2 _)
    | serving | returned => exact ⟨rfl, rfl, fun _ => ⟨nofun, fun _ => nofun⟩⟩
    | crashed => exact ⟨rfl, Link.flow_drop .., fun _ => ⟨nofun, fun _ => nofun⟩⟩
    | responding _ ht => exact ⟨rfl, hput ht, fun _ => ⟨nofun, fun _ => nofun⟩⟩
    | unresponded _ ht =>
      exact ⟨rfl, (Link.flow_abort ..).trans (hput ht), fun _ => ⟨nofun, fun _ => nofun⟩⟩
    | responded _ ht =>
      exact ⟨rfl, (Link.flow_finish ..).trans (hput ht), fun _ => ⟨nofun, fun _ => nofun⟩⟩

/-- As long as nobody was asked, a responder does not write. -/
theorem Heard.quiet (h : Heard codec call r ahead []) (hm : r.Moves m l turn) :
    turn.link.flow .right = l.flow .right := by
  have hread {rd : FrameReader} {q unread l₁} (ht : rd.Turn .right r.unread l q unread l₁) :
      l₁.flow .right = l.flow .right := by
    obtain ⟨n, rfl⟩ := ht.link
    simp
  cases hm with
  | service _ ht | named _ ht | args _ ht | invoked _ ht => exact hread ht
  | serviceLost _ ht | serviceBad _ ht | argsLost _ ht =>
    exact (Link.flow_abort ..).trans (hread ht)
  | serving hp | crashed hp | returned hp | responding hp | unresponded hp | responded hp =>
    cases h <;> simp only [hp, reduceCtorEq] at *

end Responder

/-! ## Both ends -/

namespace Talk

/-- A talk in which a request becomes of what was left of it. -/
structure Traced (codec : Codec) (call : Call) (todo : Bytes) (t : Talk) : Prop where
  sends : Exchange.Sends codec call t.caller todo
  heard : Responder.Heard codec call t.responder (t.link.flow .left ++ todo) t.notes
  quiet : t.notes = [] → Exchange.Quiet t.caller t.link

variable {codec : Codec} {call : Call}

theorem traced_ofCall (codec : Codec) (capacity : Nat) {r : Responder}
    (hfresh : call.error = none) (hr : r.Fresh) :
    Traced codec call (Chore.bytes (Exchange.request codec call))
      (.ofCall codec call capacity r) where
  sends := Exchange.sends_ofCall codec hfresh
  heard := hr.heard (by simp [ofCall])
  quiet _ := Exchange.quiet_ofCall ..

theorem Traced.step {t t' : Talk} (h : Traced codec call todo t) (hs : t.Step owner m t') :
    ∃ todo', Traced codec call todo' t' := by
  cases hs with
  | @call x p l l' r notes hx =>
    have hm := Exchange.moves_of_step? h.sends.sound hx
    obtain ⟨piece, todo', rfl, hflow, hsends, -⟩ := h.sends.step hm
    refine ⟨todo', hsends, ?_, fun hn => (h.quiet hn).step hm⟩
    have hheard := h.heard
    rw [← List.append_assoc, ← hflow] at hheard
    exact hheard
  | @respond p l r turn notes hr =>
    have hm := Responder.moves_of_step? h.heard.sound hr
    refine ⟨todo, h.sends, h.heard.step hm owner, fun hn => ?_⟩
    obtain rfl := (List.append_eq_nil_iff.mp hn).1
    obtain ⟨hflow, hq⟩ := h.quiet rfl
    exact ⟨(h.heard.quiet hm).trans hflow, hq⟩

end Talk

end PeerCall
