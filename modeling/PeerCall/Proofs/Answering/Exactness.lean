import PeerCall.Proofs.Answering

/-! # What becomes of a stream

How far a responder has come with the bytes of its dialer (`Answering.Stage`), what each step of
either side keeps of that, and what it comes to at the end of any run: which request the server
was invoked for, and what the dialer has of the answer (`Answering.Exact`). -/

namespace PeerCall.Answering

/-- A dialer that goes on reading finds this end. -/
def Finds (ending : Ending) (w : Answering) (f : Ending) : Prop :=
  ∃ n w', run? ending (List.replicate n (.read 0)) w = some w' ∧ w'.found = some f

/-- What a responder has come to whose dialer sends `bs` and ends in this way. -/
structure Exact (r : Responder) (ending : Ending) (bs : Bytes) (w : Answering) : Prop where
  /-- Where there is no request the server is never invoked, and the stream is reset. -/
  refused : ∀ e, Responder.requested r.codec ending bs = .error e →
    w.invoked = [] ∧ w.heard = [] ∧ w.found ≠ some .clean ∧
    ∀ result, w.responder.phase = .ended result →
      result = .error (.decode e) ∧ (w.gone = false → w.Finds ending .reset)
  /-- Where there is one the server is invoked once, and for nothing else. -/
  invoked : ∀ service args, Responder.requested r.codec ending bs = .ok (service, args) →
    w.invoked <+: [r.invocation service args] ∧
    ∀ result, w.responder.phase = .ended result → w.invoked = [r.invocation service args]
  /-- The answer is received as a whole if it can be sent. -/
  answered : ∀ service args error reply answer,
    Responder.requested r.codec ending bs = .ok (service, args) →
    (r.server (r.invocation service args)).result? = some (error, reply) →
    Responder.answer r.codec error reply = .ok answer →
    (w.found = some .clean → w.heard = answer) ∧
    (w.Listening → w.heard <+: answer ∧ w.found ≠ some .reset ∧
      ∀ result, w.responder.phase = .ended result → result = .ok () ∧ w.Finds ending .clean)
  /-- Else the dialer finds the stream reset, whatever was sent before, and never ended. -/
  withheld : ∀ service args error reply e,
    Responder.requested r.codec ending bs = .ok (service, args) →
    (r.server (r.invocation service args)).result? = some (error, reply) →
    Responder.answer r.codec error reply = .error e →
    w.found ≠ some .clean ∧
    (w.Listening → ∀ result, w.responder.phase = .ended result →
      result = .error (.encode e) ∧ w.Finds ending .reset)

/-! ## How far a responder has come -/

/-- How far a responder has come with the bytes of its dialer. -/
inductive Stage (r : Responder) (ending : Ending) (bs : Bytes) (w : Answering) : Prop
  | naming {rd} (hp : w.responder.phase = .service rd) (hs : rd.Sound)
    (hq : Silent w.heard w.link w.responder.buffer) (ho : Open w.link w.found w.gone)
    (hf : Fair ending w.link w.todo) (hi : w.invoked = [])
    (hb : rd.taken ++ w.responder.unread ++ w.ahead = bs) : Stage r ending bs w
  | passing {service rd p} (hp : w.responder.phase = .args service rd) (hs : rd.Sound)
    (hq : Silent w.heard w.link w.responder.buffer) (ho : Open w.link w.found w.gone)
    (hf : Fair ending w.link w.todo) (hi : w.invoked = []) (hl : p.length ≤ Frame.maxSize)
    (hd : r.codec.decode .serviceId p = .ok service)
    (hb : Frame.bytes p ++ (rd.taken ++ w.responder.unread ++ w.ahead) = bs) :
    Stage r ending bs w
  | refused {e} (hp : w.responder.phase = .ended (.error (.decode e))) (hq : w.told = [])
    (hc : Closed .reset w.link w.found) (hi : w.invoked = [])
    (hr : Responder.requested r.codec ending bs = .error e) : Stage r ending bs w
  | serving {v service args} (hp : w.responder.phase = .serving v)
    (hq : Silent w.heard w.link w.responder.buffer) (ho : Open w.link w.found w.gone)
    (hr : Responder.requested r.codec ending bs = .ok (service, args))
    (hi : w.invoked = [r.invocation service args]) (hc : v.context = r.context)
    (hw : v.work.result? = (r.server (r.invocation service args)).result?) : Stage r ending bs w
  | answering {cs service args error reply} (hp : w.responder.phase = .responding cs)
    (ho : Open w.link w.found w.gone)
    (hr : Responder.requested r.codec ending bs = .ok (service, args))
    (hi : w.invoked = [r.invocation service args])
    (hw : (r.server (r.invocation service args)).result? = some (error, reply))
    (hf : Chore.fault? cs = Chore.fault? (Responder.response r.codec error reply))
    (hl : Chore.Flushed cs)
    (hb : w.told ++ (w.responder.buffer.unsent ++ Chore.bytes cs) =
      Chore.bytes (Responder.response r.codec error reply)) : Stage r ending bs w
  | answered {service args error reply} (hp : w.responder.phase = .ended (.ok ()))
    (hc : Closed .clean w.link w.found)
    (hr : Responder.requested r.codec ending bs = .ok (service, args))
    (hi : w.invoked = [r.invocation service args])
    (hw : (r.server (r.invocation service args)).result? = some (error, reply))
    (ha : Responder.answer r.codec error reply = .ok w.told) : Stage r ending bs w
  | broken {e service args error reply} (hp : w.responder.phase = .ended (.error (.encode e)))
    (hc : Closed .reset w.link w.found)
    (hr : Responder.requested r.codec ending bs = .ok (service, args))
    (hi : w.invoked = [r.invocation service args])
    (hw : (r.server (r.invocation service args)).result? = some (error, reply))
    (ha : w.Listening → Responder.answer r.codec error reply = .error e) : Stage r ending bs w

/-- All that a run keeps. -/
structure Kept (r : Responder) (ending : Ending) (bs : Bytes) (w : Answering) : Prop where
  same : r.Same w.responder
  roomy : 0 < w.link.bound .right
  stage : w.Stage r ending bs

variable {r : Responder} {ending f : Ending} {bs : Bytes} {w w' : Answering} {mv : Move}
  {m : Moment} {l : Link} {todo : Bytes} {found : Option Ending} {gone : Bool}

theorem Dials.kept (h : Dials ending w w') (hw : w.Kept r ending bs) : w'.Kept r ending bs := by
  have hsilent (hq : Silent w.heard w.link w.responder.buffer) :
      Silent w'.heard w'.link w'.responder.buffer := by
    obtain ⟨hheard, hdry⟩ := List.append_eq_nil_iff.mp (h.told.trans hq.told)
    exact ⟨hheard, hdry, h.responder ▸ hq.unsent⟩
  refine ⟨h.responder ▸ hw.same, h.bound ▸ hw.roomy, ?_⟩
  cases hw.stage with
  | naming hp hs hq ho hf hi hb =>
    refine .naming (h.responder ▸ hp) hs (hsilent hq) (h.opens ho) (h.fair hf)
      (h.invoked.trans hi) ?_
    rw [h.responder, h.ahead, hb]
  | passing hp hs hq ho hf hi hl hd hb =>
    refine .passing (h.responder ▸ hp) hs (hsilent hq) (h.opens ho) (h.fair hf)
      (h.invoked.trans hi) hl hd ?_
    rw [h.responder, h.ahead, hb]
  | refused hp hq hc hi hr =>
    exact .refused (h.responder ▸ hp) (h.told.trans hq) (h.closed _ hc) (h.invoked.trans hi) hr
  | serving hp hq ho hr hi hc hw =>
    exact .serving (h.responder ▸ hp) (hsilent hq) (h.opens ho) hr (h.invoked.trans hi) hc hw
  | answering hp ho hr hi hw hf hl hb =>
    refine .answering (h.responder ▸ hp) (h.opens ho) hr (h.invoked.trans hi) hw hf hl ?_
    rw [h.told, h.responder, hb]
  | answered hp hc hr hi hw ha =>
    exact .answered (h.responder ▸ hp) (h.closed _ hc) hr (h.invoked.trans hi) hw (h.told ▸ ha)
  | broken hp hc hr hi hw ha =>
    exact .broken (h.responder ▸ hp) (h.closed _ hc) hr (h.invoked.trans hi) hw
      fun hl => ha (h.listening hl)

/-! ## The responder -/

/-- What a step of the responder leaves behind. -/
def responded (w : Answering) (turn : Responder.Turn) : Answering :=
  { w with
    responder := turn.responder, link := turn.link
    invoked := w.invoked ++ turn.invoked.toList }

variable {turn : Responder.Turn} {rd : FrameReader} {service : ServiceId} {args p : Bytes}
  {error : Option CallError} {reply : Option Bytes}

theorem Kept.sound (hw : w.Kept r ending bs) : w.responder.Sound := by
  unfold Responder.Sound
  cases hw.stage with
  | naming hp hs | passing hp hs =>
    rw [hp]
    exact hs
  | refused hp | serving hp | answering hp | answered hp | broken hp =>
    rw [hp]
    trivial

/-- A responder that fails before it has written anything resets a stream that brought nothing. -/
private theorem Stage.refuse (hq : Silent w.heard w.link w.responder.buffer)
    (ho : Open w.link w.found w.gone) (hi : w.invoked = [])
    (hr : Responder.requested r.codec ending bs = .error e) (n : Nat) :
    (w.responded (w.responder.fail (.decode e) (w.link.take .right n))).Stage r ending bs := by
  refine .refused rfl ?_ (ho.take n).aborted (by simp [responded, hi, Responder.fail]) hr
  change w.heard ++ ((w.link.take .right n).abort .right).flow .right = []
  rw [Link.flow_abort, hq.unheard, (hq.take n).dry]
  rfl

private theorem Stage.respond_naming (hsame : r.Same w.responder)
    (hp : w.responder.phase = .service rd) (hq : Silent w.heard w.link w.responder.buffer)
    (ho : Open w.link w.found w.gone) (hf : Fair ending w.link w.todo) (hi : w.invoked = [])
    (hb : rd.taken ++ w.responder.unread ++ w.ahead = bs)
    (hm : w.responder.Moves m w.link turn) : (w.responded turn).Stage r ending bs := by
  subst hb
  cases hm with
  | service hp' ht =>
    cases hp.symm.trans hp'
    obtain ⟨n, rfl⟩ := ht.link
    exact .naming rfl ht.sound_of_more (hq.take n) (ho.take n) (hf.take n)
      (by simp [responded, hi, Responder.become]) (ht.bytes_of_more w.todo)
  | serviceLost hp' ht =>
    cases hp.symm.trans hp'
    obtain ⟨n, rfl⟩ := ht.link
    exact .refuse hq ho hi (Responder.requested_of_lost (ht.read_of_failed hf.read)) n
  | serviceBad hp' ht hd =>
    cases hp.symm.trans hp'
    obtain ⟨n, rfl⟩ := ht.link
    rw [hsame.codec] at hd
    exact .refuse hq ho hi (Responder.requested_of_bad (ht.read_of_whole ending w.todo) hd) n
  | named hp' ht hd =>
    cases hp.symm.trans hp'
    obtain ⟨n, rfl⟩ := ht.link
    obtain ⟨hl, hw⟩ := ht.bytes_of_whole w.todo
    rw [hsame.codec] at hd
    exact .passing rfl FrameReader.sound_start (hq.take n) (ho.take n) (hf.take n)
      (by simp [responded, hi, Responder.become]) hl hd hw.symm
  | _ => simp only [hp, reduceCtorEq] at *

private theorem Stage.respond_passing (hsame : r.Same w.responder)
    (hp : w.responder.phase = .args service rd)
    (hq : Silent w.heard w.link w.responder.buffer) (ho : Open w.link w.found w.gone)
    (hf : Fair ending w.link w.todo) (hi : w.invoked = []) (hl : p.length ≤ Frame.maxSize)
    (hd : r.codec.decode .serviceId p = .ok service)
    (hb : Frame.bytes p ++ (rd.taken ++ w.responder.unread ++ w.ahead) = bs)
    (hm : w.responder.Moves m w.link turn) : (w.responded turn).Stage r ending bs := by
  have hnamed : Responder.requested r.codec ending bs = _ :=
    Responder.requested_of_named (Frame.read_eq_ok_iff.mpr ⟨hl, hb.symm⟩) hd
  cases hm with
  | args hp' ht =>
    cases hp.symm.trans hp'
    obtain ⟨n, rfl⟩ := ht.link
    refine .passing rfl ht.sound_of_more (hq.take n) (ho.take n) (hf.take n)
      (by simp [responded, hi, Responder.become]) hl hd ?_
    exact (congrArg (Frame.bytes p ++ ·) (ht.bytes_of_more w.todo)).trans hb
  | argsLost hp' ht =>
    cases hp.symm.trans hp'
    obtain ⟨n, rfl⟩ := ht.link
    have hlost : (Frame.read ending (rd.taken ++ w.responder.unread ++ w.ahead)).1 = .error _ :=
      ht.read_of_failed hf.read
    rw [hlost] at hnamed
    exact .refuse hq ho hi hnamed n
  | @invoked _ _ args _ _ hp' ht =>
    cases hp.symm.trans hp'
    obtain ⟨n, rfl⟩ := ht.link
    have hwhole : Frame.read ending (rd.taken ++ w.responder.unread ++ w.ahead) = (.ok args, _) :=
      ht.read_of_whole ending w.todo
    rw [hwhole] at hnamed
    have hinvocation : w.responder.invocation service args = r.invocation service args := by
      rw [Responder.invocation, Responder.invocation, hsame.context, hsame.peer]
    refine .serving rfl (hq.take n) (ho.take n) hnamed ?_ hsame.context ?_
    · simp [responded, hi, Responder.become, hinvocation]
    · rw [Serving.ofInvocation, hsame.server, hinvocation]
  | _ => simp only [hp, reduceCtorEq] at *

private theorem Stage.respond_serving {v : Serving} (hsame : r.Same w.responder)
    (hp : w.responder.phase = .serving v) (hq : Silent w.heard w.link w.responder.buffer)
    (ho : Open w.link w.found w.gone)
    (hr : Responder.requested r.codec ending bs = .ok (service, args))
    (hi : w.invoked = [r.invocation service args]) (hc : v.context = r.context)
    (hw : v.work.result? = (r.server (r.invocation service args)).result?)
    (hserver : (r.server (r.invocation service args)).result? ≠ none)
    (hv : r.context.verdict m = none) (hm : w.responder.Moves m w.link turn) :
    (w.responded turn).Stage r ending bs := by
  cases hm with
  | serving hp' hs =>
    cases hp.symm.trans hp'
    exact .serving rfl hq ho hr (by simp [responded, hi, Responder.become])
      ((Serving.more_of_step? hs).1.trans hc) ((Serving.result?_of_more hs).trans hw)
  | crashed hp' hs =>
    cases hp.symm.trans hp'
    rw [Serving.crashed_of_step? hs] at hw
    exact absurd hw.symm hserver
  | @returned _ error reply hp' hs =>
    cases hp.symm.trans hp'
    have hwork : v.work = .finish error reply := by
      rcases Serving.returned_of_step? hs with hwork | ⟨_, _, e, _, he, _⟩
      · exact hwork
      · cases (hc ▸ he).symm.trans hv
    rw [hwork] at hw
    rw [hsame.codec]
    refine .answering rfl ho hr (by simp [responded, hi, Responder.become]) hw.symm rfl
      (Chore.flushed_append _) ?_
    change w.told ++ (w.responder.buffer.unsent ++ _) = _
    rw [hq.told, hq.unsent]
    rfl
  | _ => simp only [hp, reduceCtorEq] at *

private theorem Stage.respond_answering {cs : List Chore}
    (hp : w.responder.phase = .responding cs) (ho : Open w.link w.found w.gone)
    (hr : Responder.requested r.codec ending bs = .ok (service, args))
    (hi : w.invoked = [r.invocation service args])
    (hw : (r.server (r.invocation service args)).result? = some (error, reply))
    (hf : Chore.fault? cs = Chore.fault? (Responder.response r.codec error reply))
    (hl : Chore.Flushed cs)
    (hb : w.told ++ (w.responder.buffer.unsent ++ Chore.bytes cs) =
      Chore.bytes (Responder.response r.codec error reply))
    (hm : w.responder.Moves m w.link turn) : (w.responded turn).Stage r ending bs := by
  cases hm with
  | @responding _ cs' b _ hp' ht =>
    cases hp.symm.trans hp'
    cases ht with
    | @more _ _ piece _ hb' _ hf' hl' =>
      refine .answering rfl (ho.put _) hr (by simp [responded, hi, Responder.become]) hw
        (hf'.trans hf) (hl' hl) ?_
      rw [← hb, hb']
      simp [responded, Responder.become, told]
  | @responded _ b _ hp' ht =>
    cases hp.symm.trans hp'
    cases ht with
    | @done _ piece hb' hf' hl' =>
      refine .answered rfl (ho.put _).finished hr (by simp [responded, hi, Responder.become]) hw ?_
      rw [Responder.answer_eq, ← hf, hf', ← hb, hb', hl' hl]
      simp [responded, Responder.become, told]
  | unresponded hp' ht =>
    cases hp.symm.trans hp'
    cases ht with
    | failed _ hf' =>
      refine .broken rfl (ho.put _).aborted hr (by simp [responded, hi, Responder.fail]) hw
        fun _ => ?_
      rw [Responder.answer_eq, ← hf, hf']
      rfl
    | refused _ he =>
      refine .broken rfl ho.aborted hr (by simp [responded, hi, Responder.fail]) hw
        fun hlisten => ?_
      -- the dialer has to be gone or reset
      rcases he with ⟨hreset, -⟩ | ⟨hshut, -⟩
      · have hreset' : (w.link.abort .right).wasReset.get .left = true := by
          simpa [Side.other] using hreset
        cases hlisten.2.symm.trans hreset'
      · cases hlisten.1.symm.trans (ho.unshut hshut)
  | _ => simp only [hp, reduceCtorEq] at *

/-- A responder whose server returns keeps a stream in order, as long as its context is not done. -/
theorem Kept.respond (hw : w.Kept r ending bs) (hserver : ∀ i, (r.server i).result? ≠ none)
    (hv : r.context.verdict m = none) (hstep : w.responder.step? m w.link = some turn) :
    (w.responded turn).Kept r ending bs := by
  have hm := Responder.moves_of_step? hw.sound hstep
  refine ⟨?_, (Responder.acted_of_step? hstep).bound .right ▸ hw.roomy, ?_⟩
  · obtain ⟨hserver, hcodec, hpeer, hcontext⟩ := hm.same
    exact ⟨hserver.trans hw.same.server, hcodec.trans hw.same.codec, hpeer.trans hw.same.peer,
      hcontext.trans hw.same.context⟩
  · cases hw.stage with
    | naming hp hs hq ho hf hi hb => exact .respond_naming hw.same hp hq ho hf hi hb hm
    | passing hp hs hq ho hf hi hl hd hb =>
      exact .respond_passing hw.same hp hq ho hf hi hl hd hb hm
    | serving hp hq ho hr hi hc hres =>
      exact .respond_serving hw.same hp hq ho hr hi hc hres (hserver _) hv hm
    | answering hp ho hr hi hres hf hl hb => exact .respond_answering hp ho hr hi hres hf hl hb hm
    | refused hp | answered hp | broken hp => cases hm <;> simp only [hp, reduceCtorEq] at *

/-! ## Runs -/

/-- How many steps of the responder there can still be. -/
def left (price : Nat) (w : Answering) : Nat :=
  w.ahead.length + (w.link.flow .right).length + w.responder.effort price

theorem Kept.cost_of_mem (hw : w.Kept r ending bs) (hi : i ∈ w.invoked) :
    r.cost i = r.price ending bs := by
  cases hw.stage with
  | naming _ _ _ _ _ hn | passing _ _ _ _ _ hn | refused _ _ _ hn =>
    rw [hn] at hi
    cases hi
  | serving _ _ _ hr hn | answering _ _ hr hn | answered _ _ hr hn | broken _ _ hr hn =>
    rw [hn] at hi
    rw [Responder.price, hr, List.mem_singleton.mp hi]

theorem Kept.step (hw : w.Kept r ending bs) (hserver : ∀ i, (r.server i).result? ≠ none)
    (hv : ∀ m, mv = .respond m → r.context.verdict m = none) (h : w.move? ending mv = some w') :
    w'.Kept r ending bs ∧ (if mv.isRespond then 1 else 0) + w'.left (r.price ending bs) ≤
      w.left (r.price ending bs) := by
  cases hr : mv.isRespond with
  | false =>
    have hd := dials_of_move? h hr
    refine ⟨hd.kept hw, ?_⟩
    have := hd.flow
    simp only [left, hd.ahead, hd.responder, Bool.false_eq_true, if_false]
    omega
  | true =>
    cases mv with
    | respond m =>
      simp only [move?] at h
      split at h
      · cases h
      · rename_i turn hstep
        cases h
        have hm := Responder.moves_of_step? hw.sound hstep
        have hkept : (w.responded turn).Kept r ending bs := hw.respond hserver (hv m rfl) hstep
        refine ⟨hkept, ?_⟩
        have hcost (i : Invocation) (hi : turn.invoked = some i) :
            w.responder.cost i ≤ r.price ending bs := by
          have hmem : i ∈ (w.responded turn).invoked := by simp [responded, hi]
          rw [← hkept.cost_of_mem hmem, Responder.cost, hw.same.server, hw.same.codec]
          exact Nat.le_refl _
        have := hm.effort_lt hcost
        simp only [left, ahead, List.length_append, if_true]
        omega
    | _ => cases hr

theorem Kept.of_run? {moves : List Move} (hw : w.Kept r ending bs)
    (hserver : ∀ i, (r.server i).result? ≠ none)
    (hv : ∀ m, .respond m ∈ moves → r.context.verdict m = none)
    (h : run? ending moves w = some w') :
    w'.Kept r ending bs ∧ moves.countP Move.isRespond + w'.left (r.price ending bs) ≤
      w.left (r.price ending bs) := by
  induction moves generalizing w with
  | nil =>
    cases h
    exact ⟨hw, by simp⟩
  | cons mv moves ih =>
    rw [run?] at h
    split at h
    · cases h
    · rename_i w₁ hmv
      obtain ⟨hw₁, hle⟩ := hw.step hserver (fun m hm => hv m (hm ▸ List.mem_cons_self)) hmv
      obtain ⟨hw', hle'⟩ := ih hw₁ (fun m hm => hv m (List.mem_cons_of_mem _ hm)) h
      refine ⟨hw', ?_⟩
      rw [List.countP_cons]
      omega

theorem kept_ofBytes {capacity : Nat} (hr : r.Fresh) (hcap : 0 < capacity) :
    (ofBytes r capacity bs).Kept r ending bs where
  same := ⟨rfl, rfl, rfl, rfl⟩
  roomy := by simpa [ofBytes] using hcap
  stage := by
    refine .naming hr.phase FrameReader.sound_start ⟨rfl, Link.flow_ofCapacity .., hr.unsent⟩
      ⟨rfl, Link.wasReset_ofCapacity .., ?_⟩ ⟨?_, ?_⟩ rfl ?_
    · simp [ofBytes]
    · simp [ofBytes]
    · simp [ofBytes]
    · simp [ofBytes, ahead, hr.unread]

/-! ## What the dialer finds -/

theorem Finds.cons (h : w.move? ending (.read 0) = some w') (hf : w'.Finds ending f) :
    w.Finds ending f := by
  obtain ⟨n, w'', hrun, hfound⟩ := hf
  refine ⟨n + 1, w'', ?_, hfound⟩
  rw [List.replicate_succ, run?, h]
  exact hrun

private theorem move?_read_of_ok {piece : Bytes} {l' : Link} (hg : w.gone = false)
    (hr : w.link.read? .left (n + 1) = some (.ok piece, l')) :
    w.move? ending (.read n) = some { w with
      link := l', heard := w.heard ++ piece
      found := if piece.isEmpty then some .clean else w.found } := by
  simp only [move?, hg, Bool.false_eq_true, if_false, hr]

private theorem move?_read_of_error {l' : Link} (hg : w.gone = false)
    (hr : w.link.read? .left (n + 1) = some (.error e, l')) :
    w.move? ending (.read n) = some { w with link := l', found := some .reset } := by
  simp only [move?, hg, Bool.false_eq_true, if_false, hr]

/-- Where the stream has an end, a read brings bytes or finds it. -/
theorem Closed.read (ending : Ending) (hc : Closed f w.link w.found) (hg : w.gone = false) :
    ∃ w', w.move? ending (.read 0) = some w' ∧ (w'.found = some f ∨ w'.gone = false ∧
      (w'.link.flow .right).length < (w.link.flow .right).length) := by
  have hshut : w.link.shut .right = true := hc.shut
  have hreset : w.link.wasReset.get .right = f.isReset := hc.wasReset
  cases hr : w.link.read? .left (0 + 1) with
  | none => cases hshut.symm.trans (Link.read?_eq_none hr).2
  | some piece =>
    obtain ⟨result, l'⟩ := piece
    rcases Link.read?_cases hr Nat.zero_lt_one with ⟨hne, rfl, rfl⟩ | ⟨hf, hs, rfl, he⟩
    · exact ⟨_, move?_read_of_ok hg hr, .inr ⟨hg, Link.length_flow_take_lt hne⟩⟩
    · cases f with
      | clean =>
        rw [if_neg (by simp [Side.other, hreset, Ending.isReset])] at he
        subst he
        exact ⟨_, move?_read_of_ok hg hr, .inl rfl⟩
      | reset =>
        rw [if_pos (by simp [Side.other, hreset, Ending.isReset])] at he
        subst he
        exact ⟨_, move?_read_of_error hg hr, .inl rfl⟩

/-- A dialer that goes on reading finds the end of a stream that has one. -/
theorem Closed.finds (hc : Closed f w.link w.found) (hg : w.gone = false) :
    w.Finds ending f := by
  induction hn : (w.link.flow .right).length using Nat.strongRecOn generalizing w with
  | ind n ih =>
    obtain ⟨w', hmove, hfound | ⟨hg', hlt⟩⟩ := hc.read ending hg
    · exact .cons hmove ⟨0, w', rfl, hfound⟩
    · exact .cons hmove (ih _ (hn ▸ hlt) ((dials_of_move? hmove rfl).closed f hc) hg' rfl)

/-! ## What becomes of a stream -/

theorem Kept.exact (hw : w.Kept r ending bs) : w.Exact r ending bs where
  refused e he := by
    cases hw.stage with
    | naming hp _ hq ho _ hi | passing hp _ hq ho _ hi =>
      rw [hp, ho.unfound]
      exact ⟨hi, hq.unheard, nofun, fun _ he => by cases he⟩
    | refused hp hq hc hi hr =>
      cases hr.symm.trans he
      refine ⟨hi, (List.append_eq_nil_iff.mp hq).1, fun hfound => ?_, fun result hresult => ?_⟩
      · cases hc.found_eq hfound
      · cases hp.symm.trans hresult
        exact ⟨rfl, hc.finds⟩
    | serving _ _ _ hr | answering _ _ hr | answered _ _ hr | broken _ _ hr =>
      cases hr.symm.trans he
  invoked service args hreq := by
    cases hw.stage with
    | naming hp _ _ _ _ hi | passing hp _ _ _ _ hi =>
      rw [hp, hi]
      exact ⟨List.nil_prefix, fun _ he => by cases he⟩
    | refused _ _ _ _ hr => cases hr.symm.trans hreq
    | serving _ _ _ hr hi | answering _ _ hr hi | answered _ _ hr hi | broken _ _ hr hi =>
      cases hr.symm.trans hreq
      rw [hi]
      exact ⟨List.prefix_rfl, fun _ _ => rfl⟩
  answered service args error reply answer hreq hres ha := by
    cases hw.stage with
    | naming hp _ hq ho | passing hp _ hq ho | serving hp hq ho =>
      rw [hp, ho.unfound, hq.unheard]
      exact ⟨nofun, fun _ => ⟨List.nil_prefix, nofun, fun _ he => by cases he⟩⟩
    | refused _ _ _ _ hr => cases hr.symm.trans hreq
    | answering hp ho hr _ hres' hf hl hb =>
      cases hr.symm.trans hreq
      cases hres'.symm.trans hres
      rw [hp, ho.unfound]
      refine ⟨nofun, fun _ => ⟨?_, nofun, fun _ he => by cases he⟩⟩
      rw [← Responder.bytes_of_answer ha, ← hb, told, List.append_assoc]
      exact List.prefix_append ..
    | answered hp hc hr _ hres' ha' =>
      cases hr.symm.trans hreq
      cases hres'.symm.trans hres
      cases ha'.symm.trans ha
      refine ⟨fun hfound => ?_, fun hl => ⟨List.prefix_append .., fun hfound => ?_,
        fun result hresult => ?_⟩⟩
      · rw [told, hc.flow_of_found hfound, List.append_nil]
      · cases hc.found_eq hfound
      · cases hp.symm.trans hresult
        exact ⟨rfl, hc.finds hl.1⟩
    | broken hp hc hr _ hres' ha' =>
      cases hr.symm.trans hreq
      cases hres'.symm.trans hres
      refine ⟨fun hfound => ?_, fun hl => ?_⟩
      · cases hc.found_eq hfound
      · cases (ha' hl).symm.trans ha
  withheld service args error reply e hreq hres ha := by
    cases hw.stage with
    | naming hp _ hq ho | passing hp _ hq ho | serving hp hq ho =>
      rw [hp, ho.unfound]
      exact ⟨nofun, fun _ _ he => by cases he⟩
    | refused _ _ _ _ hr => cases hr.symm.trans hreq
    | answering hp ho =>
      rw [hp, ho.unfound]
      exact ⟨nofun, fun _ _ he => by cases he⟩
    | answered _ _ hr _ hres' ha' =>
      cases hr.symm.trans hreq
      cases hres'.symm.trans hres
      cases ha'.symm.trans ha
    | broken hp hc hr _ hres' ha' =>
      cases hr.symm.trans hreq
      cases hres'.symm.trans hres
      refine ⟨fun hfound => ?_, fun hl result hresult => ?_⟩
      · cases hc.found_eq hfound
      · cases hp.symm.trans hresult
        cases (ha' hl).symm.trans ha
        exact ⟨rfl, hc.finds hl.1⟩

/-- A responder that waits has ended, or is owed bytes by its dialer, which may still write, or
waits for it to read, or its server has to wait for a time. -/
theorem Kept.waits (hw : w.Kept r ending bs) (hserver : ∀ i, (r.server i).result? ≠ none)
    (hstep : w.responder.step? m w.link = none) :
    (∃ result, w.responder.phase = .ended result) ∨
      w.link.flow .left = [] ∧ w.link.shut .left = false ∨ w.link.flow .right ≠ [] ∨
      ∃ v wake, w.responder.phase = .serving v ∧ v.wake = some wake ∧ m.now < wake := by
  have hwaits := Responder.waits_of_step? hw.sound hstep
  unfold Responder.Waits at hwaits
  cases hw.stage with
  | naming hp | passing hp =>
    simp only [hp] at hwaits
    exact .inr (.inl ⟨hwaits.dry, hwaits.unshut⟩)
  | refused hp | answered hp | broken hp => exact .inl ⟨_, hp⟩
  | answering hp =>
    simp only [hp] at hwaits
    refine .inr (.inr (.inl fun hf => ?_))
    have hfull := hwaits.full
    rw [hf] at hfull
    exact Nat.not_lt_of_le hfull hw.roomy
  | serving hp _ _ _ _ _ hres =>
    simp only [hp] at hwaits
    rcases Serving.step?_eq_none hwaits with hnever | ⟨wake, hwake, hlt⟩
    · rw [hnever] at hres
      exact absurd hres.symm (hserver _)
    · exact .inr (.inr (.inr ⟨_, wake, hp, hwake, hlt⟩))

/-- What becomes of a stream to a responder whose server returns depends on nothing but the bytes of
its dialer, the way these end and what the server returns, in whatever pieces the bytes come, as
long as the context of the responder is not done. There is a request exactly if the bytes begin with
two frames of which the first names a service. The steps of the responder come to an end, and until
then it waits for its dialer only while that may still write, or has bytes to read. -/
theorem exact_of_run? {moves : List Move} (r : Responder) (capacity : Nat) (ending : Ending)
    (bs : Bytes) (hfresh : r.Fresh) (hcap : 0 < capacity)
    (hserver : ∀ i, (r.server i).result? ≠ none)
    (hv : ∀ m, .respond m ∈ moves → r.context.verdict m = none)
    (hrun : run? ending moves (ofBytes r capacity bs) = some w) :
    w.Exact r ending bs ∧
    (∀ service args, Responder.requested r.codec ending bs = .ok (service, args) ↔ ∃ p rest,
      p.length ≤ Frame.maxSize ∧ args.length ≤ Frame.maxSize ∧
      r.codec.decode .serviceId p = .ok service ∧
      bs = Frame.bytes p ++ (Frame.bytes args ++ rest)) ∧
    moves.countP Move.isRespond ≤ bs.length + r.price ending bs + 2 ∧
    ∀ m, w.responder.step? m w.link = none →
      (∃ result, w.responder.phase = .ended result) ∨
        w.link.flow .left = [] ∧ w.link.shut .left = false ∨ w.link.flow .right ≠ [] ∨
        ∃ v wake, w.responder.phase = .serving v ∧ v.wake = some wake ∧ m.now < wake := by
  obtain ⟨hw, hcount⟩ := (kept_ofBytes hfresh hcap).of_run? hserver hv hrun
  refine ⟨hw.exact, fun _ _ => Responder.requested_eq_ok_iff, ?_, fun m => hw.waits hserver⟩
  have hleft : (ofBytes r capacity bs).left (r.price ending bs) =
      bs.length + r.price ending bs + 2 := by
    simp only [left, ahead, ofBytes, Link.flow_ofCapacity, List.nil_append, List.length_nil,
      Nat.add_zero, Responder.effort, hfresh.phase, hfresh.unsent]
    omega
  exact hleft ▸ Nat.le_trans (Nat.le_add_right ..) hcount

/-- A responder that takes its time and replies with the arguments. -/
def parrot : Responder where
  server i := .pause 5 true (.finish none (some i.args))
  codec := .standard
  peer := ⟨"alice"⟩
  context := ⟨.root 0, none⟩

/-- A request for `a.b`, and a byte that nobody reads. -/
def squawk : Bytes :=
  Frame.bytes (Bytes.ofNatLE 8 1 ++ 97 :: (Bytes.ofNatLE 8 1 ++ [98])) ++
    (Frame.bytes [7, 8] ++ [9])

/-- The request comes in three pieces and the answer in two. -/
def conversation : List Move :=
  [.send 3, .respond {}, .send 12, .respond {}, .send 12, .respond {}, .send 12, .respond {},
    .shutdown, .respond {}, .respond ⟨5, []⟩, .respond {}, .respond {}, .read 8, .respond {},
    .read 12, .read 0]

theorem exact_request_in_pieces : ∃ w, run? .clean conversation (ofBytes parrot 12 squawk) = some w ∧
    w.invoked = [⟨⟨.root 0, none⟩, ⟨"alice"⟩, ⟨"a", "b"⟩, [7, 8]⟩] ∧
    w.heard = Frame.bytes (Bytes.ofNatLE 8 0) ++ Frame.bytes [7, 8] := by
  have hrun : run? .clean conversation (ofBytes parrot 12 squawk) = some _ := rfl
  have hv (m : Moment) (hm : .respond m ∈ conversation) : parrot.context.verdict m = none := by
    simp only [conversation, List.mem_cons, Move.respond.injEq, reduceCtorEq, List.not_mem_nil,
      or_false, false_or] at hm
    rcases hm with rfl | rfl | rfl | rfl | rfl | rfl | rfl | rfl | rfl <;> rfl
  obtain ⟨hexact, hrequest, -⟩ := exact_of_run? parrot 12 .clean squawk ⟨rfl, rfl, rfl⟩ (by decide)
    (fun _ => nofun) hv hrun
  have hreq := (hrequest ⟨"a", "b"⟩ [7, 8]).mpr
    ⟨_, [9], by decide, by decide, rfl, rfl⟩
  exact ⟨_, hrun, (hexact.invoked _ _ hreq).2 _ rfl,
    (hexact.answered _ _ none (some [7, 8]) _ hreq rfl rfl).1 rfl⟩

end PeerCall.Answering
