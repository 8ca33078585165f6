import PeerCall.Proofs.Talk.Request
import PeerCall.Proofs.Talk.Work

/-! # Talks end

Any talk whose server returns, whatever the sizes, and whether the call is given up or not. Each
step leaves less to do (`Talk.Bounded.step`), and until both tasks have finished one of them can go
on, or the server waits for a time (`Talk.Bounded.progress`). What releases a task is that the other
one shuts both directions when it ends. -/

namespace PeerCall

/-! ## What is asked -/

namespace Responder

/-- What a responder is to ask its server for a call, if it comes to that. -/
def asked? (codec : Codec) (call : Call) (r : Responder) : Option Invocation :=
  match codec.encode .serviceId call.service, call.encodeArgs codec with
  | .ok service, .ok args =>
    match r.codec.decode .serviceId service with
    | .ok service => some (r.invocation service args)
    | .error _ => none
  | _, _ => none

/-- What it takes to answer a call. -/
def limit (codec : Codec) (call : Call) (r : Responder) : Nat := (r.asked? codec call).elim 0 r.cost

variable {codec : Codec} {call : Call} {r r' : Responder} {l : Link} {turn : Turn}

theorem asked?_of_asked (h : call.Asked codec r i) : r.asked? codec call = some i := by
  obtain ⟨⟨service, ha, hd⟩, hpeer, hcontext⟩ := h
  simp only [asked?, ha.encodes, ha.encodesArgs, hd, invocation, ← hpeer, ← hcontext]

theorem cost_of_asked (h : call.Asked codec r i) : r.cost i = r.limit codec call := by
  rw [limit, asked?_of_asked h]
  rfl

theorem Same.limit_eq (h : r.Same r') : r'.limit codec call = r.limit codec call := by
  simp only [limit, asked?, invocation, h.codec, h.peer, h.context]
  congr 1
  funext i
  simp only [cost, h.server, h.codec]

/-! ## Servers that return -/

/-- A responder whose server always returns. -/
structure Returning (r : Responder) : Prop where
  server : ∀ i, (r.server i).result? ≠ none
  serving : ∀ v, r.phase = .serving v → v.work.result? ≠ none
  sane : r.phase ≠ .crashed

theorem Moves.returning (h : r.Moves m l turn) (hr : r.Returning) : turn.responder.Returning where
  server := h.same.server ▸ hr.server
  serving v hv := by
    cases h with
    | invoked =>
      cases hv
      exact hr.server _
    | serving hp hs =>
      cases hv
      rw [Serving.result?_of_more hs]
      exact hr.serving _ hp
    | _ => cases hv
  sane := by
    cases h with
    | crashed hp hs =>
      have hne := hr.serving _ hp
      rw [Serving.crashed_of_step? hs] at hne
      exact absurd rfl hne
    | _ => exact fun hc => by cases hc

theorem Moves.shut_of_ended (h : r.Moves m l turn) (he : turn.responder.phase = .ended result)
    (s : Side) : turn.link.shut s = true := by
  cases h with
  | serviceLost | serviceBad | argsLost | unresponded => exact Link.shut_abort ..
  | responded => exact Link.shut_finish ..
  | _ => cases he

end Responder

/-! ## Waiting -/

/-- A call that waits has an end that is not shut. -/
theorem Exchange.Waits.unshut {x : Exchange} (h : x.Waits l) : ∃ s, l.shut s = false := by
  unfold Waits at h
  split at h
  · exact ⟨_, h.unshut⟩
  · exact ⟨_, h.unshut⟩
  · exact ⟨_, h.unshut⟩

/-- A responder that waits, but neither for its server nor for good, has an end that is not
shut. -/
theorem Responder.Waits.unshut {r : Responder} (h : r.Waits m l) (hr : r.Returning)
    (hs : ∀ v, r.phase ≠ .serving v) (he : ∀ result, r.phase ≠ .ended result) :
    ∃ s, l.shut s = false := by
  unfold Waits at h
  split at h
  · exact ⟨_, h.unshut⟩
  · exact ⟨_, h.unshut⟩
  · exact absurd ‹_› (hs _)
  · exact ⟨_, h.unshut⟩
  · exact absurd ‹_› (he _)
  · exact absurd ‹_› hr.sane

/-! ## Both -/

namespace Talk

/-- How many steps of a talk there can still be. -/
def effort (limit : Nat) (t : Talk) : Nat :=
  Exchange.left t.caller + (t.link.flow .left).length + (t.link.flow .right).length +
    t.responder.effort limit

def Finished (t : Talk) : Prop :=
  (∃ c, t.caller = .done c) ∧ ∃ result, t.responder.phase = .ended result

/-- A talk over a link with room, to a server that returns. Whoever has finished has shut the
link. -/
structure Bounded (codec : Codec) (call : Call) (limit : Nat) (t : Talk) : Prop where
  traced : ∃ todo, Traced codec call todo t
  roomy : t.Roomy
  returning : t.responder.Returning
  limit_eq : t.responder.limit codec call = limit
  hungUp : ∀ c, t.caller = .done c → ∀ s, t.link.shut s = true
  ended : ∀ result, t.responder.phase = .ended result → ∀ s, t.link.shut s = true

variable {codec : Codec} {call : Call} {t t' : Talk}

theorem bounded_ofCall (codec : Codec) {r : Responder} (hfresh : call.error = none) (hr : r.Fresh)
    (hroom : 0 < capacity) (hserver : ∀ i, (r.server i).result? ≠ none) :
    Bounded codec call (r.limit codec call) (.ofCall codec call capacity r) where
  traced := ⟨_, traced_ofCall codec capacity hfresh hr⟩
  roomy s := by
    rw [ofCall, Link.bound_ofCapacity]
    exact hroom
  returning := by
    refine ⟨hserver, fun v hv => ?_, fun hc => ?_⟩
    · cases hr.phase.symm.trans hv
    · cases hr.phase.symm.trans hc
  limit_eq := rfl
  hungUp c hc := by cases hc
  ended result he := by cases hr.phase.symm.trans he

theorem Bounded.step (h : Bounded codec call limit t) (hs : t.Step owner m t') :
    Bounded codec call limit t' ∧ t'.effort limit < t.effort limit := by
  obtain ⟨todo, htraced⟩ := h.traced
  obtain ⟨todo', htraced'⟩ := htraced.step hs
  have hroomy := hs.roomy h.roomy
  cases hs with
  | @call x p l l' r notes hx =>
    have hm := Exchange.moves_of_step? htraced.sends.sound hx
    refine ⟨⟨⟨todo', htraced'⟩, hroomy, h.returning, h.limit_eq, ?_, fun result he s => ?_⟩, ?_⟩
    · rintro c rfl s
      exact hm.shut_of_done
    · exact (Exchange.acted_of_step? hx).shut s (h.ended result he s)
    · exact Nat.add_lt_add_right hm.work_lt _
  | @respond p l r turn notes hr =>
    have hm := Responder.moves_of_step? htraced.heard.sound hr
    refine ⟨⟨⟨todo', htraced'⟩, hroomy, hm.returning h.returning, ?_, fun c hc s => ?_, ?_⟩, ?_⟩
    · exact hm.same.limit_eq.trans h.limit_eq
    · exact (Responder.acted_of_step? hr).shut s (h.hungUp c hc s)
    · exact fun result he s => hm.shut_of_ended he s
    · have hcost (i : Invocation) (hi : turn.invoked = some i) : r.cost i ≤ limit := by
        have hmem : ⟨owner, i, i.context.verdict m⟩ ∈ notes ++ turn.noted owner m := by
          simp [Responder.Turn.noted, hi]
        have hasked := Responder.cost_of_asked (htraced'.heard.asked_of_mem hmem)
        have hsame : turn.responder.cost i = r.cost i := by
          rw [Responder.cost, Responder.cost, hm.same.server, hm.same.codec]
        rw [← hsame, hasked, hm.same.limit_eq]
        exact Nat.le_of_eq h.limit_eq
      have hlt := hm.effort_lt hcost
      simp only [effort] at hlt ⊢
      omega

/-- A call and a responder that reads or writes cannot both wait. -/
private theorem Bounded.not_both_wait {x : Exchange} {l : Link} {r : Responder} {notes : List Note}
    (h : Bounded codec call limit ⟨.more x, l, r, notes⟩) (hx : x.Waits l) (hr : r.Waits m l)
    (hs : ∀ v, r.phase ≠ .serving v) (he : ∀ result, r.phase ≠ .ended result) : False := by
  obtain ⟨todo, hsends, hheard, -⟩ := h.traced
  have hroom : 0 < l.bound .left := h.roomy .left
  dsimp only at hsends hheard
  -- what a call has sent is a whole request
  have hwhole (hstage : 0 < x.phase.stage) : todo = [] ∧ ∃ service args,
      service.length ≤ Frame.maxSize ∧ args.length ≤ Frame.maxSize ∧
        Chore.bytes (Exchange.request codec call) = Frame.bytes service ++ Frame.bytes args := by
    cases hsends with
    | sending hp =>
      rw [hp] at hstage
      cases hstage
    | sent _ _ hf =>
      rcases Exchange.request_cases codec call with ⟨service, args, ha, -, hb⟩ | ⟨hf', -⟩
      · exact ⟨rfl, service, args, ha.serviceFits, ha.argsFit, hb⟩
      · exact absurd hf hf'
  unfold Responder.Waits at hr
  cases hheard with
  | @naming rd hp _ _ hb =>
    simp only [hp] at hr
    have hdry : l.flow .left = [] := hr.dry
    by_cases hstage : 0 < x.phase.stage
    · obtain ⟨rfl, service, args, hl, -, hreq⟩ := hwhole hstage
      rw [hdry, hreq, List.append_nil, List.append_nil] at hb
      exact hx.clash hr _ _ hroom hl fun _ => hb
    · exact hx.clash hr [] [] hroom (Nat.zero_le _) fun hs => absurd hs hstage
  | @passing service rd p hp _ _ hl _ hb =>
    simp only [hp] at hr
    have hdry : l.flow .left = [] := hr.dry
    by_cases hstage : 0 < x.phase.stage
    · obtain ⟨rfl, service, args, hl', hla, hreq⟩ := hwhole hstage
      rw [hdry, hreq, List.append_nil, List.append_nil] at hb
      obtain ⟨-, hb⟩ := Frame.bytes_append_inj hl hl' hb
      exact hx.clash hr _ _ hroom hla fun _ => hb.trans (List.append_nil _).symm
    · exact hx.clash hr [] [] hroom (Nat.zero_le _) fun hs => absurd hs hstage
  | refused hp => exact he _ hp
  | invoked hp _ _ ha =>
    split at hr
    · exact (hp _).1 ‹_›
    · exact (hp _).2 _ ‹_›
    · exact hs _ ‹_›
    · -- the request is taken, so the call reads, and what it could read is there
      have hleft : l.flow .left = [] := (List.append_eq_nil_iff.mp ha).1
      by_cases hstage : 0 < x.phase.stage
      · have hfull := hr.full
        rw [(hx.dry hstage).1] at hfull
        exact Nat.not_le_of_lt (h.roomy .right) hfull
      · unfold Exchange.Waits at hx
        split at hx
        · have hfull := hx.full
          rw [hleft] at hfull
          exact Nat.not_le_of_lt hroom hfull
        · exact hstage (by rw [‹x.phase = _›]; exact Nat.zero_lt_one)
        · exact hstage (by rw [‹x.phase = _›]; exact Nat.zero_lt_two)
    · exact he _ ‹_›
    · exact h.returning.sane ‹_›

/-- Until both tasks have finished one of them can take a step, or the server has to wait for a
time. -/
theorem Bounded.progress (h : Bounded codec call limit t) (m : Moment) :
    t.Finished ∨ (∃ x, t.caller = .more x ∧ x.step? m t.link ≠ none) ∨
      t.responder.step? m t.link ≠ none ∨
        ∃ v wake, t.responder.phase = .serving v ∧ v.wake = some wake ∧ m.now < wake := by
  obtain ⟨caller, l, r, notes⟩ := t
  obtain ⟨todo, htraced⟩ := h.traced
  by_cases hr : r.step? m l = none
  case neg => exact .inr (.inr (.inl hr))
  have hw := Responder.waits_of_step? htraced.heard.sound hr
  by_cases hs : ∃ v, r.phase = .serving v
  case pos =>
    obtain ⟨v, hv⟩ := hs
    rw [Responder.Waits, hv] at hw
    rcases Serving.step?_eq_none hw with hnever | ⟨wake, ht, hlt⟩
    · exact absurd (by rw [hnever]; rfl) (h.returning.serving v hv)
    · exact .inr (.inr (.inr ⟨v, wake, hv, ht, hlt⟩))
  have hs (v : Serving) : r.phase ≠ .serving v := fun hv => hs ⟨v, hv⟩
  have hshut (hd : ∀ s, l.shut s = true) (hn : ∃ s, l.shut s = false) : False := by
    obtain ⟨s, hn⟩ := hn
    exact absurd ((hd s).symm.trans hn) (by decide)
  cases caller with
  | done c =>
    by_cases he : ∃ result, r.phase = .ended result
    · exact .inl ⟨⟨c, rfl⟩, he⟩
    · have hopen := hw.unshut h.returning hs fun result hr => he ⟨result, hr⟩
      exact (hshut (h.hungUp c rfl) hopen).elim
  | more x =>
    refine .inr (.inl ⟨x, rfl, fun hx => ?_⟩)
    have hwx := Exchange.waits_of_step? htraced.sends.sound hx
    by_cases he : ∃ result, r.phase = .ended result
    · obtain ⟨result, he⟩ := he
      exact hshut (h.ended result he) hwx.unshut
    · exact h.not_both_wait hwx hw hs fun result hr => he ⟨result, hr⟩

end Talk

end PeerCall
