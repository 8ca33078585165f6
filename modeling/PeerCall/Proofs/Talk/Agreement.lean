import PeerCall.Proofs.Talk.Work

/-! # Talks that go well

A call whose request can be encoded, to a server that returns, over a link that only the two ends
touch. Whatever the order of their steps, the server is invoked with just what was asked, and the
call comes to what the server returned (`Agreed.step`); the steps come to an end
(`Talk.work`), and until then one of the ends can go on or waits for the server
(`Agreed.progress`). -/

namespace PeerCall

/-! ## What is said -/

/-- What passes in an exchange: the payloads of its frames, and what happens between them. -/
structure Terms where
  call : Call
  codec : Codec
  site : Site
  invocation : Invocation
  error : Option CallError
  reply : Option Bytes
  service : Bytes
  response : Bytes

namespace Terms

def request (T : Terms) : Bytes := Frame.bytes T.service ++ Frame.bytes T.invocation.args

def answer (T : Terms) : Bytes := Frame.bytes T.response ++ Frame.bytes (T.reply.getD [])

def note (T : Terms) : Note := ⟨T.site.number, T.invocation, none⟩

/-- Nothing is too large, what matters is understood, and the server returns. -/
structure Kept (T : Terms) : Prop where
  service : T.codec.encode .serviceId T.call.service = .ok T.service
  named : T.codec.decode .serviceId T.service = .ok T.invocation.service
  serviceFits : T.service.length ≤ Frame.maxSize
  args : T.call.encodeArgs T.codec = .ok T.invocation.args
  argsFit : T.invocation.args.length ≤ Frame.maxSize
  response : T.codec.encode .response ⟨Responder.responseText T.error⟩ = .ok T.response
  responseFits : T.response.length ≤ Frame.maxSize
  replyFits : (T.reply.getD []).length ≤ Frame.maxSize
  returns : (T.site.server T.invocation).result? = some (T.error, T.reply)

variable {T : Terms}

private theorem frames {p q : Bytes} (hp : p.length ≤ Frame.maxSize)
    (hq : q.length ≤ Frame.maxSize) :
    Chore.bytes (Chore.frame p ++ Chore.frame q ++ [.flush]) = Frame.bytes p ++ Frame.bytes q ∧
      Chore.fault? (Chore.frame p ++ Chore.frame q ++ [.flush]) = none := by
  obtain ⟨hbp, hfp⟩ := Chore.frame_of_le hp
  obtain ⟨hbq, hfq⟩ := Chore.frame_of_le hq
  have hf : Chore.fault? (Chore.frame p ++ Chore.frame q) = none := by
    rw [Chore.fault?_append hfp, hfq]
  constructor
  · rw [Chore.bytes_append hf, Chore.bytes_append hfp, hbp, hbq, Chore.bytes, Chore.bytes,
      List.append_nil]
  · rw [Chore.fault?_append hf]
    rfl

theorem Kept.chores_of_request (h : T.Kept) :
    Chore.bytes (Exchange.request T.codec T.call) = T.request ∧
      Chore.fault? (Exchange.request T.codec T.call) = none := by
  rw [Exchange.request, h.service, h.args]
  exact frames h.serviceFits h.argsFit

theorem Kept.chores_of_answer (h : T.Kept) :
    Chore.bytes (Responder.response T.codec T.error T.reply) = T.answer ∧
      Chore.fault? (Responder.response T.codec T.error T.reply) = none := by
  rw [Responder.response, h.response]
  exact frames h.responseFits h.replyFits

theorem answer_ne_nil (T : Terms) : T.answer ≠ [] := fun h =>
  Frame.bytes_ne_nil _ (List.append_eq_nil_iff.mp h).1

theorem request_ne_nil (T : Terms) : T.request ≠ [] := fun h =>
  Frame.bytes_ne_nil _ (List.append_eq_nil_iff.mp h).1

end Terms

variable {T : Terms} {x x' : Exchange} {l l' : Link} {r : Responder}

/-! ## The call before it is answered -/

/-- A call that has not been answered at all. -/
structure Asking (T : Terms) (x : Exchange) (l : Link) : Prop where
  sound : x.Sound
  context : x.call.context = T.call.context
  early : x.phase.stage < 2
  unheard : x.seen ++ l.flow .right = []
  unshut : ∀ s, l.shut s = false
  unreset : ∀ s, l.wasReset.get s = false
  foreseen : x.foreseen .clean T.answer = T.call.received T.codec .clean T.answer
  chores : ∀ cs, x.phase = .sending cs →
    Chore.fault? cs = none ∧ Chore.Flushed cs ∧ x.pending ≠ []

/-- As long as a call is not answered, it only puts the next bytes of its request on their way. -/
theorem Asking.step (ha : Asking T x l) (h : x.Moves m l p l')
    (hv : T.call.context.verdict m = none) :
    ∃ x' piece, p = .more x' ∧ l' = l.put .left piece ∧ piece ≠ [] ∧
      x.pending = piece ++ x'.pending ∧ x.phase.stage ≤ x'.phase.stage ∧ Asking T x' l' := by
  have hnil : l.flow .right = [] := (List.append_eq_nil_iff.mp ha.unheard).2
  have hforeseen {x' : Exchange} {piece : Bytes}
      (h : x.Moves m l (.more x') (l.put .left piece)) :
      x'.foreseen .clean T.answer = T.call.received T.codec .clean T.answer := by
    have := h.foreseen_more .clean T.answer
    simp only [Link.flow_put, hnil] at this
    exact this.trans ha.foreseen
  have hdeaf {r : FrameReader} {p unread l₁} (hp : x.seen = r.taken ++ x.unread)
      (ht : r.Turn .left x.unread l p unread l₁) : False :=
    ht.not_deaf (hp ▸ ha.unheard) (ha.unshut .right)
  have hh := h
  cases h with
  | stopped hv' => rw [ha.context, hv] at hv'; cases hv'
  | @sending cs cs' b l' _ hp ht =>
    obtain ⟨hf, hl, hm⟩ := ha.chores cs hp
    have hpend : x.pending = x.buffer.unsent ++ Chore.bytes cs := by rw [Exchange.pending, hp]
    have hunread : x.unread = [] := by
      have := (List.append_eq_nil_iff.mp ha.unheard).1
      rwa [Exchange.seen, hp] at this
    cases ht with
    | @more _ _ piece hpiece hb hm' hf' hl' =>
      refine ⟨_, piece, rfl, rfl, hpiece, hpend.trans hb, hp ▸ Nat.le_refl 0, ?_⟩
      refine ⟨trivial, ha.context, Nat.zero_lt_two, ?_, fun s => ?_, fun s => ?_, hforeseen hh, ?_⟩
      · simp [Exchange.seen, hunread, hnil]
      · exact (Link.shut_put ..).trans (ha.unshut s)
      · exact ha.unreset s
      · intro cs₁ hcs
        cases hcs
        exact ⟨hf'.trans hf, hl' hl, hm'⟩
  | @sent cs b l' _ hp ht =>
    obtain ⟨hf, hl, hm⟩ := ha.chores cs hp
    have hpend : x.pending = x.buffer.unsent ++ Chore.bytes cs := by rw [Exchange.pending, hp]
    have hunread : x.unread = [] := by
      have := (List.append_eq_nil_iff.mp ha.unheard).1
      rwa [Exchange.seen, hp] at this
    cases ht with
    | @done _ piece hb hf' hl' =>
      rw [hl' hl] at hb
      have hpiece : piece ≠ [] := fun hn => hm (by rw [hpend, hb, hn]; rfl)
      refine ⟨_, piece, rfl, rfl, hpiece, hpend.trans hb, hp ▸ Nat.zero_le 1, ?_⟩
      refine ⟨FrameReader.sound_start, ha.context, Nat.one_lt_two, ?_, fun s => ?_, fun s => ?_,
        hforeseen hh, fun cs' hcs => by cases hcs⟩
      · simp [Exchange.seen, hunread, hnil]
      · exact (Link.shut_put ..).trans (ha.unshut s)
      · exact ha.unreset s
  | @unsent cs e b l' _ hp ht =>
    obtain ⟨hf, hl, hm⟩ := ha.chores cs hp
    cases ht with
    | failed _ hf' => rw [hf] at hf'; cases hf'
    | refused _ he =>
      rcases he with ⟨hr, _⟩ | ⟨hs, _⟩
      · exact absurd (hr.symm.trans (ha.unreset _)) (by decide)
      · exact absurd (hs.symm.trans (ha.unshut _)) (by decide)
  | header _ hp ht | headerLost _ hp ht | headerBad _ hp ht | response _ hp ht =>
    exact (hdeaf (by rw [Exchange.seen, hp]) ht).elim
  | reply _ hp ht | replyMissing _ hp ht | replyLost _ hp ht | replyEmpty _ hp ht
  | replyBad _ hp ht | replied _ hp ht => exact absurd ha.early (by rw [hp]; exact Nat.lt_irrefl 2)

/-- Bytes that are read at the other end make no difference to a call that is not answered. -/
theorem Asking.take (ha : Asking T x l) (n : Nat) : Asking T x (l.take .right n) where
  sound := ha.sound
  context := ha.context
  early := ha.early
  unheard := by simpa using ha.unheard
  unshut s := (Link.shut_take ..).trans (ha.unshut s)
  unreset := ha.unreset
  foreseen := ha.foreseen
  chores := ha.chores

/-! ## The call while it is answered -/

/-- A call that has sent its request, and whose responder has these bytes of the answer to send. -/
structure Hearing (T : Terms) (x : Exchange) (l : Link) (owed : Bytes) : Prop where
  sound : x.Sound
  context : x.call.context = T.call.context
  asked : 0 < x.phase.stage
  unreset : ∀ s, l.wasReset.get s = false
  fair : l.shut .right = true → owed = []
  foreseen : x.foreseen .clean (l.flow .right ++ owed) = T.call.received T.codec .clean T.answer

variable {owed : Bytes}

theorem Hearing.more (hh : Hearing T x l owed) (h : x.Moves m l (.more x') l') :
    Hearing T x' l' owed := by
  obtain ⟨hs, ⟨n, rfl⟩, _⟩ := h.reads hh.asked
  exact {
    sound := h.sound_of_more
    context := h.context_of_more.trans hh.context
    asked := hs
    unreset := hh.unreset
    fair := fun hr => hh.fair ((Link.shut_take ..).symm.trans hr)
    foreseen := (h.foreseen_more .clean owed).trans hh.foreseen }

theorem Hearing.done (hh : Hearing T x l owed) (h : x.Moves m l (.done c) l')
    (hv : T.call.context.verdict m = none) :
    (c, !l'.wasReset.get .left) = T.call.received T.codec .clean T.answer :=
  (h.foreseen_done (hh.context ▸ hv) hh.asked (hh.unreset _)
    fun hs => ⟨hh.fair hs, hh.unreset _⟩).trans hh.foreseen

/-- An answered call that has nothing to send waits for the answer. -/
theorem Asking.hearing (ha : Asking T x l) (hp : x.pending = []) : Hearing T x l T.answer where
  sound := ha.sound
  context := ha.context
  asked := by
    refine Nat.pos_of_ne_zero fun h0 => ?_
    cases hx : x.phase with
    | sending cs => exact (ha.chores cs hx).2.2 hp
    | header | reply => rw [hx] at h0; cases h0
  unreset := ha.unreset
  fair hs := absurd (hs.symm.trans (ha.unshut .right)) (by decide)
  foreseen := by
    rw [(List.append_eq_nil_iff.mp ha.unheard).2]
    exact ha.foreseen

/-! ## The responder -/

/-- A responder that answers in these terms, and has not written anything. -/
structure Answers (T : Terms) (r : Responder) : Prop where
  server : r.server = T.site.server
  codec : r.codec = T.codec
  context : r.context = T.invocation.context
  peer : r.peer = T.invocation.peer
  unsent : r.buffer.unsent = []

theorem Answers.become (h : Answers T r) (unread : Bytes) (phase : Responder.Phase) :
    Answers T ({ r with unread }.become phase l).responder :=
  ⟨h.server, h.codec, h.context, h.peer, h.unsent⟩

theorem Answers.invocation (h : Answers T r) :
    r.invocation T.invocation.service T.invocation.args = T.invocation := by
  rw [Responder.invocation, h.context, h.peer]

/-! ## Both -/

/-- How a talk that goes well may stand. -/
inductive Agreed (T : Terms) : Talk → Prop
  | naming {x : Exchange} {l : Link} {r : Responder} {rd : FrameReader} (ha : Asking T x l)
    (hr : Answers T r) (hp : r.phase = .service rd) (hs : rd.Sound)
    (hb : rd.taken ++ r.unread ++ (l.flow .left ++ x.pending) = T.request) :
    Agreed T ⟨.more x, l, r, []⟩
  | passing {x : Exchange} {l : Link} {r : Responder} {rd : FrameReader} (ha : Asking T x l)
    (hr : Answers T r) (hp : r.phase = .args T.invocation.service rd) (hs : rd.Sound)
    (hb : rd.taken ++ r.unread ++ (l.flow .left ++ x.pending) = Frame.bytes T.invocation.args) :
    Agreed T ⟨.more x, l, r, []⟩
  | serving {x : Exchange} {l : Link} {r : Responder} {v : Serving} (ha : Asking T x l)
    (hn : x.pending = []) (hr : Answers T r) (hp : r.phase = .serving v)
    (hc : v.context = T.invocation.context)
    (hw : v.work.result? = some (T.error, T.reply)) : Agreed T ⟨.more x, l, r, [T.note]⟩
  | answering {x : Exchange} {l : Link} {r : Responder} {cs : List Chore}
    (hh : Hearing T x l r.owed) (hp : r.phase = .responding cs) (hm : r.owed ≠ [])
    (hf : Chore.fault? cs = none) (hl : Chore.Flushed cs) (hu : l.shut .right = false) :
    Agreed T ⟨.more x, l, r, [T.note]⟩
  | answered {x : Exchange} {l : Link} {r : Responder} (hh : Hearing T x l [])
    (hp : r.phase = .ended (.ok ())) (hu : l.shut .right = true) :
    Agreed T ⟨.more x, l, r, [T.note]⟩
  | told {c : Call} {l : Link} {r : Responder}
    (hc : c = (T.call.received T.codec .clean T.answer).1)
    (hp : (∃ cs, r.phase = .responding cs) ∨ ∃ result, r.phase = .ended result) :
    Agreed T ⟨.done c, l, r, [T.note]⟩

/-- The server is invoked once at most, and with just what was asked. -/
theorem Agreed.notes_eq {t : Talk} (h : Agreed T t) : t.notes = [] ∨ t.notes = [T.note] := by
  cases h with
  | naming | passing => exact .inl rfl
  | serving | answering | answered | told => exact .inr rfl

/-- A call that is done was invoked, and came to what the server returned. -/
theorem Agreed.done (h : Agreed T ⟨.done c, l, r, notes⟩) :
    notes = [T.note] ∧ c = (T.call.received T.codec .clean T.answer).1 := by
  cases h with
  | told hc => exact ⟨rfl, hc⟩

theorem Agreed.sound (h : Agreed T ⟨.more x, l, r, notes⟩) : x.Sound := by
  cases h with
  | naming ha | passing ha | serving ha => exact ha.sound
  | answering hh | answered hh => exact hh.sound

theorem Agreed.responder_sound {t : Talk} (h : Agreed T t) : t.responder.Sound := by
  cases h with
  | naming _ _ hp hs | passing _ _ hp hs => rwa [Responder.Sound, hp]
  | serving _ _ _ hp | answering _ hp | answered _ hp =>
    rw [Responder.Sound, hp]
    trivial
  | told _ hp =>
    rw [Responder.Sound]
    rcases hp with ⟨cs, hp⟩ | ⟨result, hp⟩
    · simp only [hp]
    · simp only [hp]

/-- A talk goes well from the beginning. -/
theorem agreed_ofCall (hT : T.Kept) (capacity : Nat) :
    Agreed T (.ofCall T.codec T.call capacity {
      server := T.site.server, codec := T.codec, peer := T.invocation.peer,
      context := T.invocation.context }) := by
  obtain ⟨hb, hf⟩ := hT.chores_of_request
  have hpend : (Exchange.ofCall T.codec T.call).pending = T.request := hb
  refine .naming ⟨trivial, rfl, Nat.zero_lt_two, ?_, fun s => ?_, fun s => ?_, rfl, ?_⟩
    ⟨rfl, rfl, rfl, rfl, rfl⟩ rfl FrameReader.sound_start ?_
  · exact Link.flow_ofCapacity ..
  · exact Link.shut_ofCapacity ..
  · exact Link.wasReset_ofCapacity ..
  · intro cs hcs
    cases hcs
    exact ⟨hf, Chore.flushed_append _, hpend ▸ T.request_ne_nil⟩
  · simp [hpend]

/-! ## How much is left -/

def Responder.work (T : Terms) (r : Responder) : Nat :=
  match r.phase with
  | .service _ => 2 * T.answer.length + 2 * (T.site.server T.invocation).pauses + 5
  | .args _ _ => 2 * T.answer.length + 2 * (T.site.server T.invocation).pauses + 4
  | .serving v => 2 * T.answer.length + v.waits + 2
  | .responding _ => 2 * r.owed.length + 1
  | .ended _ => 0
  | .crashed => 0

/-- How many steps of a talk there can still be. -/
def Talk.work (T : Terms) (t : Talk) : Nat :=
  (match t.caller with
    | .more x => x.work
    | .done _ => 0) +
    (t.link.flow .left).length + (t.link.flow .right).length + t.responder.work T

/-! ## Steps of the call -/

private theorem Asking.goes_on (ha : Asking T x l) (h : x.Moves m l p l')
    (hv : T.call.context.verdict m = none) :
    ∃ x', p = .more x' ∧ Asking T x' l' ∧ x.pending ≠ [] ∧
      l'.flow .left ++ x'.pending = l.flow .left ++ x.pending := by
  obtain ⟨x', piece, rfl, rfl, hpiece, hpend, -, ha'⟩ := ha.step h hv
  refine ⟨x', rfl, ha', ?_, ?_⟩
  · rw [hpend]
    exact fun hn => hpiece (List.append_eq_nil_iff.mp hn).1
  · simp [hpend]

private theorem Hearing.goes_on (hh : Hearing T x l owed) (h : x.Moves m l (.more x') l') :
    Hearing T x' l' owed ∧ ∀ s, l'.shut s = l.shut s := by
  obtain ⟨_, ⟨n, rfl⟩, _⟩ := h.reads hh.asked
  exact ⟨hh.more h, fun s => Link.shut_take ..⟩

private theorem Agreed.called (h : Agreed T ⟨.more x, l, r, notes⟩) (hx : x.Moves m l p l')
    (hv : T.call.context.verdict m = none) : Agreed T ⟨p, l', r, notes⟩ := by
  cases h with
  | naming ha hr hp hs hb =>
    obtain ⟨x', rfl, ha', _, hpend⟩ := ha.goes_on hx hv
    exact .naming ha' hr hp hs (hpend ▸ hb)
  | passing ha hr hp hs hb =>
    obtain ⟨x', rfl, ha', _, hpend⟩ := ha.goes_on hx hv
    exact .passing ha' hr hp hs (hpend ▸ hb)
  | serving ha hn =>
    obtain ⟨x', _, _, hne, _⟩ := ha.goes_on hx hv
    exact absurd hn hne
  | answering hh hp hm hf hl hu =>
    cases p with
    | more x' =>
      obtain ⟨hh', hshut⟩ := hh.goes_on hx
      exact .answering hh' hp hm hf hl ((hshut _).trans hu)
    | done c => exact .told (congrArg Prod.fst (hh.done hx hv)) (.inl ⟨_, hp⟩)
  | answered hh hp hu =>
    cases p with
    | more x' =>
      obtain ⟨hh', hshut⟩ := hh.goes_on hx
      exact .answered hh' hp ((hshut _).trans hu)
    | done c => exact .told (congrArg Prod.fst (hh.done hx hv)) (.inr ⟨_, hp⟩)

theorem Agreed.call (h : Agreed T ⟨.more x, l, r, notes⟩) (hx : x.step? m l = some (p, l'))
    (hv : T.call.context.verdict m = none) : Agreed T ⟨p, l', r, notes⟩ ∧
      Talk.work T ⟨p, l', r, notes⟩ < Talk.work T ⟨.more x, l, r, notes⟩ := by
  have hm := Exchange.moves_of_step? h.sound hx
  refine ⟨h.called hm hv, ?_⟩
  have hlt := Nat.add_lt_add_right hm.work_lt (r.work T)
  cases p <;> exact hlt

/-! ## Steps of the responder -/

variable {p : Progress Exchange Call} {notes : List Note} {turn : Responder.Turn}

/-- What a step of the responder makes of a talk. -/
def Talk.responded (T : Terms) (m : Moment) (p : Progress Exchange Call) (notes : List Note)
    (turn : Responder.Turn) : Talk :=
  ⟨p, turn.link, turn.responder, notes ++ turn.noted T.site.number m⟩

private theorem work_responded (h : (turn.link.flow .left).length +
    (turn.link.flow .right).length + turn.responder.work T <
      (l.flow .left).length + (l.flow .right).length + r.work T) :
    (Talk.responded T m p notes turn).work T < Talk.work T ⟨p, l, r, notes⟩ := by
  simp only [Talk.work, Talk.responded]
  omega

/-- A step of a responder that reads leaves a call that is not answered as it is. -/
private theorem reads {rd : FrameReader} {rest : Bytes} (ha : Asking T x l)
    (ht : rd.Turn .right r.unread l q unread l')
    (hb : rd.taken ++ r.unread ++ (l.flow .left ++ x.pending) = Frame.bytes payload ++ rest)
    (hp : payload.length ≤ Frame.maxSize) :
    Asking T x l' ∧ l'.flow .right = l.flow .right ∧
      (l'.flow .left).length ≤ (l.flow .left).length ∧
      match q with
      | .more _ => True
      | .done r => r = .ok payload ∧ unread ++ (l'.flow .left ++ x.pending) = rest := by
  have hread : Frame.read .clean (rd.taken ++ r.unread ++ (l.flow .left ++ x.pending)) =
      (.ok payload, rest) := hb ▸ Frame.read_bytes hp ..
  obtain ⟨n, rfl⟩ := ht.link
  refine ⟨ha.take n, by simp, by simp, ?_⟩
  cases q with
  | more => trivial
  | done res =>
    cases res with
    | error e =>
      have he : (Frame.read .clean (rd.taken ++ r.unread ++ (l.flow .left ++ x.pending))).1 = _ :=
        ht.read_of_failed fun hs => absurd (hs.symm.trans (ha.unshut .left)) (by decide)
      rw [hread] at he
      cases he
    | ok bs =>
      have hr := (ht.read_of_whole .clean x.pending).symm.trans hread
      simp only [Prod.mk.injEq, Except.ok.injEq] at hr
      exact ⟨congrArg _ hr.1, hr.2⟩

private theorem Agreed.respond_naming {rd : FrameReader} (hT : T.Kept) (ha : Asking T x l)
    (hr : Answers T r) (hp : r.phase = .service rd)
    (hb : rd.taken ++ r.unread ++ (l.flow .left ++ x.pending) = T.request)
    (h : r.Moves m l turn) : Agreed T (.responded T m (.more x) [] turn) ∧
      (Talk.responded T m (.more x) [] turn).work T < Talk.work T ⟨.more x, l, r, []⟩ := by
  have hread {q unread l'} (ht : rd.Turn .right r.unread l q unread l') :=
    reads ha ht hb hT.serviceFits
  cases h with
  | @service _ rd' _ _ hp' ht =>
    cases hp.symm.trans hp'
    obtain ⟨ha', hright, _, _⟩ := hread ht
    refine ⟨.naming ha' (hr.become ..) rfl ht.sound_of_more
      ((ht.bytes_of_more x.pending).trans hb), ?_⟩
    refine work_responded (Nat.add_lt_add_of_lt_of_le ?_ ?_)
    · exact Nat.add_lt_add_of_lt_of_le ht.flow_lt_of_more (Nat.le_of_eq (congrArg _ hright))
    · simp [Responder.work, Responder.become, hp]
  | serviceLost hp' ht =>
    cases hp.symm.trans hp'
    cases (hread ht).2.2.2.1
  | serviceBad hp' ht hd =>
    cases hp.symm.trans hp'
    cases (hread ht).2.2.2.1
    rw [hr.codec, hT.named] at hd
    cases hd
  | named hp' ht hd =>
    cases hp.symm.trans hp'
    obtain ⟨ha', hright, hle, hbs, hrest⟩ := hread ht
    cases hbs
    rw [hr.codec, hT.named] at hd
    cases hd
    refine ⟨.passing ha' (hr.become ..) rfl FrameReader.sound_start hrest, ?_⟩
    refine work_responded (Nat.add_lt_add_of_le_of_lt ?_ ?_)
    · exact Nat.add_le_add hle (Nat.le_of_eq (congrArg _ hright))
    · simp [Responder.work, Responder.become, hp]
  | _ => simp only [hp, reduceCtorEq] at *

private theorem Agreed.respond_passing {rd : FrameReader} (hT : T.Kept) (ha : Asking T x l)
    (hr : Answers T r) (hp : r.phase = .args T.invocation.service rd)
    (hb : rd.taken ++ r.unread ++ (l.flow .left ++ x.pending) = Frame.bytes T.invocation.args)
    (hi : T.invocation.context.verdict m = none)
    (h : r.Moves m l turn) : Agreed T (.responded T m (.more x) [] turn) ∧
      (Talk.responded T m (.more x) [] turn).work T < Talk.work T ⟨.more x, l, r, []⟩ := by
  have hread {q unread l'} (ht : rd.Turn .right r.unread l q unread l') :=
    reads ha ht (hb.trans (List.append_nil _).symm) hT.argsFit
  cases h with
  | args hp' ht =>
    cases hp.symm.trans hp'
    obtain ⟨ha', hright, _, _⟩ := hread ht
    refine ⟨.passing ha' (hr.become ..) rfl ht.sound_of_more
      ((ht.bytes_of_more x.pending).trans hb), ?_⟩
    refine work_responded (Nat.add_lt_add_of_lt_of_le ?_ ?_)
    · exact Nat.add_lt_add_of_lt_of_le ht.flow_lt_of_more (Nat.le_of_eq (congrArg _ hright))
    · simp [Responder.work, Responder.become, hp]
  | argsLost hp' ht =>
    cases hp.symm.trans hp'
    cases (hread ht).2.2.2.1
  | invoked hp' ht =>
    cases hp.symm.trans hp'
    obtain ⟨ha', hright, hle, hbs, hrest⟩ := hread ht
    cases hbs
    have hpend : x.pending = [] := (List.append_eq_nil_iff.mp (List.append_eq_nil_iff.mp hrest).2).2
    rw [hr.invocation]
    refine ⟨?_, work_responded (Nat.add_lt_add_of_le_of_lt ?_ ?_)⟩
    · simp only [Talk.responded, Responder.Turn.noted, Option.toList_some, List.map_cons,
        List.map_nil, List.nil_append, hi]
      exact .serving ha' hpend (hr.become ..) rfl rfl (hr.server ▸ hT.returns)
    · exact Nat.add_le_add hle (Nat.le_of_eq (congrArg _ hright))
    · simp only [Responder.work, Responder.become, hp, Serving.waits, Serving.ofInvocation,
        hr.server, Option.isSome_none, Bool.false_eq_true, if_false]
      omega
  | _ => simp only [hp, reduceCtorEq] at *

private theorem Agreed.respond_serving {v : Serving} (hT : T.Kept) (ha : Asking T x l)
    (hn : x.pending = []) (hr : Answers T r) (hp : r.phase = .serving v)
    (hc : v.context = T.invocation.context) (hw : v.work.result? = some (T.error, T.reply))
    (hi : T.invocation.context.verdict m = none) (h : r.Moves m l turn) :
    Agreed T (.responded T m (.more x) [T.note] turn) ∧
      (Talk.responded T m (.more x) [T.note] turn).work T <
        Talk.work T ⟨.more x, l, r, [T.note]⟩ := by
  cases h with
  | serving hp' hs =>
    cases hp.symm.trans hp'
    refine ⟨.serving ha hn (hr.become r.unread _) rfl ((Serving.more_of_step? hs).1.trans hc)
      ((Serving.result?_of_more hs).trans hw), work_responded ?_⟩
    have := Serving.waits_of_more hs
    simp [Responder.work, Responder.become, hp, this]
  | crashed hp' hs =>
    cases hp.symm.trans hp'
    rw [Serving.crashed_of_step? hs] at hw
    cases hw
  | returned hp' hs =>
    cases hp.symm.trans hp'
    rcases Serving.returned_of_step? hs with hf | ⟨_, _, e, _, hv, _⟩
    · rw [hf] at hw
      cases hw
      obtain ⟨hb, hf⟩ := hT.chores_of_answer
      have howed : (r.become (.responding (Responder.response r.codec T.error T.reply))
          l).responder.owed = T.answer := by
        rw [hr.codec]
        exact (congrArg (· ++ _) hr.unsent).trans hb
      refine ⟨?_, work_responded ?_⟩
      · simp only [Talk.responded, Responder.Turn.noted, Responder.become, Option.toList_none,
          List.map_nil, List.append_nil]
        refine .answering (howed ▸ ha.hearing hn) rfl (howed ▸ T.answer_ne_nil) (hr.codec ▸ hf)
          (Chore.flushed_append _) (ha.unshut .right)
      · have : (r.become (.responding (Responder.response r.codec T.error T.reply))
            l).responder.work T = 2 * T.answer.length + 1 := congrArg (2 * List.length · + 1) howed
        rw [this, Responder.work, hp]
        simp only [Responder.become]
        omega
    · rw [hc, hi] at hv
      cases hv
  | _ => simp only [hp, reduceCtorEq] at *

/-- A step of a responder that writes uses up what it owes. -/
private theorem work_of_responding {cs : List Chore} (hp : r.phase = .responding cs)
    (h : r.Moves m l turn) : turn.invoked = none ∧ (turn.link.flow .left).length +
      (turn.link.flow .right).length + turn.responder.work T <
        (l.flow .left).length + (l.flow .right).length + r.work T := by
  have howed : r.owed = r.buffer.unsent ++ Chore.bytes cs := by rw [Responder.owed, hp]
  have hwork : r.work T = 2 * r.owed.length + 1 := by rw [Responder.work, hp]
  cases h with
  | @responding _ cs' b l' hp' ht =>
    cases hp.symm.trans hp'
    cases ht with
    | @more _ _ piece hpiece hb =>
      have hlen := List.length_pos_iff.mpr hpiece
      have howed' : ({ r with buffer := b }.become (.responding cs') l).responder.work T =
          2 * (b.unsent ++ Chore.bytes cs').length + 1 := rfl
      refine ⟨rfl, ?_⟩
      simp only [Responder.become] at howed' ⊢
      rw [hwork, howed, hb, howed']
      simp only [Link.flow_put, reduceCtorEq, if_true, if_false, List.length_append]
      omega
  | unresponded hp' ht =>
    cases hp.symm.trans hp'
    refine ⟨rfl, ?_⟩
    cases ht with
    | failed hb =>
      rw [hwork, howed, hb]
      simp only [Responder.fail, Responder.work, Link.flow_abort, Link.flow_put, reduceCtorEq,
        if_true, if_false, List.length_append]
      omega
    | refused =>
      rw [hwork]
      simp [Responder.fail, Responder.work]
  | responded hp' ht =>
    cases hp.symm.trans hp'
    refine ⟨rfl, ?_⟩
    cases ht with
    | done hb =>
      rw [hwork, howed, hb]
      simp only [Responder.become, Responder.work, Link.flow_finish, Link.flow_put, reduceCtorEq,
        if_true, if_false, List.length_append]
      omega
  | _ => simp only [hp, reduceCtorEq] at *

private theorem Agreed.respond_answering {cs : List Chore} (hh : Hearing T x l r.owed)
    (hp : r.phase = .responding cs) (hf : Chore.fault? cs = none) (hl : Chore.Flushed cs)
    (hu : l.shut .right = false) (h : r.Moves m l turn) :
    Agreed T ⟨.more x, turn.link, turn.responder, [T.note]⟩ := by
  have howed : r.owed = r.buffer.unsent ++ Chore.bytes cs := by rw [Responder.owed, hp]
  have hforeseen := hh.foreseen
  cases h with
  | @responding _ cs' b l' hp' ht =>
    cases hp.symm.trans hp'
    cases ht with
    | @more _ _ piece hpiece hb hm hf' hl' =>
      have hh' : Hearing T x (l.put .right piece) (b.unsent ++ Chore.bytes cs') := by
        refine ⟨hh.sound, hh.context, hh.asked, hh.unreset, fun hs => ?_, ?_⟩
        · exact absurd (((Link.shut_put ..).symm.trans hs).symm.trans hu) (by decide)
        · rw [howed, hb] at hforeseen
          simpa using hforeseen
      exact .answering hh' rfl hm (hf'.trans hf) (hl' hl) ((Link.shut_put ..).trans hu)
  | unresponded hp' ht =>
    cases hp.symm.trans hp'
    cases ht with
    | failed _ hf' => rw [hf] at hf'; cases hf'
    | refused _ he =>
      rcases he with ⟨hr, _⟩ | ⟨hs, _⟩
      · exact absurd (hr.symm.trans (hh.unreset _)) (by decide)
      · exact absurd (hs.symm.trans hu) (by decide)
  | responded hp' ht =>
    cases hp.symm.trans hp'
    cases ht with
    | @done b piece hb _ hl' =>
      have hh' : Hearing T x ((l.put .right piece).finish .right) [] := by
        refine ⟨hh.sound, hh.context, hh.asked, hh.unreset, fun _ => rfl, ?_⟩
        rw [howed, hb, hl' hl] at hforeseen
        simpa using hforeseen
      exact .answered hh' rfl (Link.shut_finish ..)
  | _ => simp only [hp, reduceCtorEq] at *

private theorem Agreed.respond_told {c : Call}
    (hc : c = (T.call.received T.codec .clean T.answer).1) {cs : List Chore}
    (hp : r.phase = .responding cs) (h : r.Moves m l turn) :
    Agreed T ⟨.done c, turn.link, turn.responder, [T.note]⟩ := by
  cases h with
  | responding => exact .told hc (.inl ⟨_, rfl⟩)
  | unresponded | responded => exact .told hc (.inr ⟨_, rfl⟩)
  | _ => simp only [hp, reduceCtorEq] at *

theorem Agreed.respond (hT : T.Kept) (h : Agreed T ⟨p, l, r, notes⟩)
    (hr : r.step? m l = some turn) (hi : T.invocation.context.verdict m = none) :
    Agreed T (.responded T m p notes turn) ∧
      (Talk.responded T m p notes turn).work T < Talk.work T ⟨p, l, r, notes⟩ := by
  have hmv : r.Moves m l turn := Responder.moves_of_step? h.responder_sound hr
  cases h with
  | naming ha hans hp _ hb => exact respond_naming hT ha hans hp hb hmv
  | passing ha hans hp _ hb => exact respond_passing hT ha hans hp hb hi hmv
  | serving ha hn hans hp hc hw => exact respond_serving hT ha hn hans hp hc hw hi hmv
  | answering hh hp _ hf hl hu =>
    obtain ⟨hi, hlt⟩ := work_of_responding hp hmv
    refine ⟨?_, work_responded hlt⟩
    simpa [Talk.responded, Responder.Turn.noted, hi] using respond_answering hh hp hf hl hu hmv
  | answered _ hp =>
    rw [Responder.step?, hp] at hr
    cases hr
  | told hc hp =>
    rcases hp with ⟨cs, hp⟩ | ⟨result, hp⟩
    · obtain ⟨hi, hlt⟩ := work_of_responding hp hmv
      refine ⟨?_, work_responded hlt⟩
      simpa [Talk.responded, Responder.Turn.noted, hi] using respond_told hc hp hmv
    · rw [Responder.step?, hp] at hr
      cases hr

/-! ## Every step -/

/-- A talk that goes well keeps doing so, and has less to do with each step. -/
theorem Agreed.step {t t' : Talk} (hT : T.Kept) (h : Agreed T t) (hs : t.Step T.site.number m t')
    (hv : T.call.context.verdict m = none) (hi : T.invocation.context.verdict m = none) :
    Agreed T t' ∧ t'.work T < t.work T := by
  cases hs with
  | call hx => exact h.call hx hv
  | respond hr => exact h.respond hT hr hi

/-- A call and a responder that reads its request cannot both wait. -/
private theorem not_both_wait {rd : FrameReader} {payload rest : Bytes} (hroom : 0 < l.bound .left)
    (hx : x.Waits l) (hr : rd.Waits .right r.unread l)
    (hb : rd.taken ++ r.unread ++ (l.flow .left ++ x.pending) = Frame.bytes payload ++ rest)
    (hp : payload.length ≤ Frame.maxSize) : False := by
  refine hx.clash hr _ rest hroom hp fun hs => ?_
  rwa [show l.flow .left = [] from hr.dry, Exchange.pending_of_asked hs, List.append_nil,
    List.append_nil] at hb

/-- Until the call is done, one of the ends can take a step, or the server has to wait for a
time. -/
theorem Agreed.progress {t : Talk} (hT : T.Kept) (h : Agreed T t) (hroom : t.Roomy) (m : Moment) :
    (∃ c, t.caller = .done c) ∨ (∃ x, t.caller = .more x ∧ x.step? m t.link ≠ none) ∨
      t.responder.step? m t.link ≠ none ∨
        ∃ v wake, t.responder.phase = .serving v ∧ v.wake = some wake ∧ m.now < wake := by
  by_cases hr : t.responder.step? m t.link = none
  case neg => exact .inr (.inr (.inl hr))
  have hw := Responder.waits_of_step? h.responder_sound hr
  unfold Responder.Waits at hw
  cases h with
  | told => exact .inl ⟨_, rfl⟩
  | naming ha hans hp hs hb =>
    refine .inr (.inl ⟨_, rfl, fun hx => ?_⟩)
    simp only [hp] at hw
    exact not_both_wait (hroom .left) (Exchange.waits_of_step? ha.sound hx) hw hb hT.serviceFits
  | passing ha hans hp hs hb =>
    refine .inr (.inl ⟨_, rfl, fun hx => ?_⟩)
    simp only [hp] at hw
    exact not_both_wait (hroom .left) (Exchange.waits_of_step? ha.sound hx) hw
      (hb.trans (List.append_nil _).symm) hT.argsFit
  | serving ha hn hans hp hc hres =>
    simp only [hp] at hw
    rcases Serving.step?_eq_none hw with hnever | ⟨t, ht, hlt⟩
    · rw [hnever] at hres
      cases hres
    · exact .inr (.inr (.inr ⟨_, t, hp, ht, hlt⟩))
  | answering hh hp =>
    refine .inr (.inl ⟨_, rfl, fun hx => ?_⟩)
    have hdry := (Exchange.waits_of_step? hh.sound hx).dry hh.asked
    simp only [hp] at hw
    have hfull := hw.full
    rw [hdry.1] at hfull
    exact absurd (hroom .right) (Nat.not_lt_of_le hfull)
  | answered hh hp hu =>
    refine .inr (.inl ⟨_, rfl, fun hx => ?_⟩)
    have hdry := (Exchange.waits_of_step? hh.sound hx).dry hh.asked
    exact absurd (hu.symm.trans hdry.2) (by decide)

end PeerCall
