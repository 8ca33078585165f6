import PeerCall.Proofs.Talk.Ending
import PeerCall.Proofs.World.Runs

/-! # Calls that are turned away

A call on a link whose far end nobody takes, and that may be given up as failed at any time: before
the call has written, in the middle of a large request, or when it has all been sent. Whatever the
call finds of this first, a write that is refused or the end of the stream, it finds the reset
(`Exchange.rebuffed_of_step?`), and nothing that it could take for an answer. Once the far end was
given up the call need not wait any more (`Exchange.goes_on`). -/

namespace PeerCall

namespace Link

/-- The right end, if anything, was given up as failed. -/
def Marked (l : Link) : Prop := ∀ s, l.shut s = true → l.wasReset.get .right = true

variable {l : Link} {s : Side}

theorem marked_ofCapacity (capacity : Nat) : (ofCapacity capacity).Marked := by
  intro s hs
  rw [shut_ofCapacity] at hs
  cases hs

theorem marked_abort (l : Link) : (l.abort .right).Marked := by
  intro s _
  simp

theorem Marked.take (h : l.Marked) (s : Side) (n : Nat) : (l.take s n).Marked := by
  intro s' hs
  rw [shut_take] at hs
  exact h s' hs

theorem Marked.put (h : l.Marked) (s : Side) (bs : Bytes) : (l.put s bs).Marked := by
  intro s' hs
  rw [shut_put] at hs
  exact h s' hs

end Link

/-! ## Writing -/

namespace SendBuffer

variable {s : Side} {l l' : Link} {b b' : SendBuffer} {cs : List Chore}

private theorem pushThen?_of_reset (hr : l.wasReset.get s.other = true) (b : SendBuffer)
    (cs : List Chore) :
    b.pushThen? s cs l = some (.done (.error (.io .reset)), { b with moved := 0 }, l) := by
  rw [pushThen?, push?, Link.write?, if_pos hr]

/-- A writer that fails after the other end was reset is told the reset, or fails with what it was
to write. -/
theorem error_of_reset (hr : l.wasReset.get s.other = true)
    (h : b.step? s cs l = some (.done (.error e), b', l')) :
    e = .io .reset ∨ Chore.fault? cs = some e := by
  have hset := settled b cs
  unfold step? at h
  split at h
  · split at h
    · rw [pushThen?_of_reset hr] at h
      cases h
      exact .inl rfl
    · rw [Link.write?, if_pos hr] at h
      cases h
      exact .inl rfl
  · rw [pushThen?_of_reset hr] at h
    cases h
    exact .inl rfl
  · rename_i hx
    cases h
    rw [hx] at hset
    cases hset with
    | failed hf => exact .inr hf

/-- A writer that fails while the other end can only have been reset is told the reset, or fails
with what it was to write. -/
theorem error_of_marked {l : Link} (hm : l.Marked)
    (h : b.step? .left cs l = some (.done (.error e), b', l')) :
    e = .io .reset ∨ Chore.fault? cs = some e := by
  cases turn_of_step? h with
  | failed _ hf => exact .inr hf
  | refused _ he =>
    rcases he with ⟨-, rfl⟩ | ⟨hs, -⟩
    · exact .inl rfl
    · exact error_of_reset (hm .left hs) h

end SendBuffer

/-! ## Reading -/

/-- To a reader that has no byte of a frame, and to which none is under way, the end is a reset if
the other end was reset. -/
theorem FrameReader.Turn.reset_of_silent {r : FrameReader} (h : r.Turn s unread l p unread' l')
    (hn : r.taken ++ unread ++ l.flow s.other = [])
    (hr : l.shut s.other = true → l.wasReset.get s.other = true) :
    p = .done (.error (.io .reset)) ∧ l' = l := by
  obtain ⟨⟨e, he⟩, hl, hs⟩ := h.cut_of_silent hn
  cases h with
  | more | whole => cases he
  | oversized _ _ h =>
    have hlen := congrArg List.length (hn.symm.trans h)
    simp at hlen
    omega
  | cut =>
    rw [if_pos (hr hs)]
    exact ⟨rfl, rfl⟩

/-! ## Calls -/

/-- A call was ended by its context, or with a failure of its request or of its link. -/
inductive Call.Rebuffed (call : Call) (codec : Codec) (m : Moment) : Call → Prop
  | stopped {e} (hv : call.context.verdict m ≠ none) (he : e.isCancellation = true) :
    Rebuffed call codec m (call.fail e)
  | unsent {e} (he : e = .io .reset ∨ Chore.fault? (Exchange.request codec call) = some e) :
    Rebuffed call codec m (call.fail (.encode e))
  | unheard : Rebuffed call codec m (call.fail (.decode (.io .reset)))

namespace Call.Rebuffed

variable {call c : Call} {codec : Codec} {m m' : Moment}

theorem later (h : call.Rebuffed codec m c) (hm : m.Before m') : call.Rebuffed codec m' c := by
  cases h with
  | stopped hv he => exact .stopped (fun hn => hv (Context.verdict_of_before hm hn)) he
  | unsent he => exact .unsent he
  | unheard => exact .unheard

theorem not_responded (h : call.Rebuffed codec m c) : ¬ c.Responded := by
  cases h with
  | unsent | unheard => exact not_responded_fail nofun
  | stopped _ he =>
    refine not_responded_fail fun text => ?_
    rintro rfl
    cases he

/-- A request that can be encoded, in bytes that fit into frames, has no fault. -/
theorem fault?_of_asks {service args : Bytes} (h : call.Asks codec service args) :
    Chore.fault? (Exchange.request codec call) = none := by
  rw [Exchange.request, h.encodes, h.encodesArgs]
  have hservice := (Chore.frame_of_le h.serviceFits).2
  have hargs := (Chore.frame_of_le h.argsFit).2
  simp only [Chore.encoded]
  rw [List.append_assoc, Chore.fault?_append hservice, Chore.fault?_append hargs]
  rfl

/-- If the context is not done, the request could not be sent or the answer not be read, and what
is told is the reset where the request had no fault of its own. -/
theorem told (h : call.Rebuffed codec m c) (hv : call.context.verdict m = none) :
    ∃ e, (c = call.fail (.encode e) ∨ c = call.fail (.decode e)) ∧
      ∀ service args, call.Asks codec service args → e = .io .reset := by
  cases h with
  | stopped hv' => exact absurd hv hv'
  | unheard => exact ⟨_, .inr rfl, fun _ _ _ => rfl⟩
  | @unsent e he =>
    refine ⟨e, .inl rfl, fun service args ha => ?_⟩
    rcases he with rfl | hf
    · rfl
    · cases (fault?_of_asks ha).symm.trans hf

end Call.Rebuffed

namespace Exchange

variable {x x' : Exchange} {call : Call} {codec : Codec} {m : Moment} {l l' : Link} {todo : Bytes}

theorem step?_sending (hv : x.call.context.verdict m = none) (hp : x.phase = .sending cs)
    (h : x.step? m l = some (.done c, l')) :
    ∃ e b l₁, x.buffer.step? .left cs l = some (.done (.error e), b, l₁) ∧
      c = x.call.fail (.encode e) := by
  simp only [step?, hv, hp] at h
  split at h
  · cases h
  · cases h
  · rename_i hb
    cases h
    exact ⟨_, _, _, hb, rfl⟩
  · cases h

/-- A call that hears nothing ends by its context, or finds out that it was turned away. -/
theorem rebuffed_of_step? (hsends : Sends codec x.call (.more x) todo) (hq : Quiet (.more x) l)
    (hmark : l.Marked) (h : x.step? m l = some (.done c, l')) : x.call.Rebuffed codec m c := by
  obtain ⟨hflow, hstage, hseen⟩ := hq
  -- to a reader nothing is under way
  have hsilent {r : FrameReader} (hs : r.taken ++ x.unread = []) :
      r.taken ++ x.unread ++ l.flow .right = [] := by
    rw [hs, hflow]
    rfl
  cases moves_of_step? hsends.sound h with
  | stopped hv =>
    exact .stopped (hv ▸ Option.some_ne_none _) (Context.isCancellation_of_verdict hv)
  | unsent hv hp =>
    obtain ⟨e, b, l₁, hb, hc⟩ := step?_sending hv hp h
    rw [hc]
    refine .unsent ((SendBuffer.error_of_marked hmark hb).imp_right fun hf => ?_)
    cases hsends with
    | sending hp' _ hf' =>
      cases hp.symm.trans hp'
      exact hf'.symm.trans hf
    | sent hs =>
      rw [hp] at hs
      cases hs
  | headerLost _ hp ht =>
    rw [seen, hp] at hseen
    obtain ⟨he, -⟩ := ht.reset_of_silent (hsilent hseen) (hmark .right)
    cases he
    exact .unheard
  | headerBad _ hp ht =>
    rw [seen, hp] at hseen
    obtain ⟨he, -⟩ := ht.reset_of_silent (hsilent hseen) (hmark .right)
    cases he
  | replyMissing _ hp | replyLost _ hp | replyEmpty _ hp | replyBad _ hp | replied _ hp =>
    rw [hp] at hstage
    exact absurd hstage (Nat.lt_irrefl 2)

/-- As long as it hears nothing, a call stays as it was started. -/
theorem Moves.call_of_quiet (h : x.Moves m l (.more x') l') (hq : Quiet (.more x') l') :
    x'.call = x.call := by
  cases h with
  | sending | sent | header => rfl
  | response | reply => exact absurd hq.2.1 (Nat.lt_irrefl 2)

/-- Once a link is shut a call on it need not wait. -/
theorem goes_on (hx : x.Sound) (hl : ∀ s, l.shut s = true) : x.step? m l ≠ none := by
  intro hn
  obtain ⟨s, hs⟩ := (waits_of_step? hx hn).unshut
  cases (hl s).symm.trans hs

end Exchange

end PeerCall
