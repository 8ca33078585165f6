import PeerCall.Proofs.Acting
import PeerCall.Proofs.Receiving
import PeerCall.Proofs.Serving
import PeerCall.World

/-! # Talks

A call and the task that answers it, over one link. Either may take the next step. -/

namespace PeerCall

/-! ## What is written and what is read -/

/-- The bytes that an exchange has still to put on their way. -/
def Exchange.pending (x : Exchange) : Bytes :=
  match x.phase with
  | .sending cs => x.buffer.unsent ++ Chore.bytes cs
  | _ => []

theorem Exchange.pending_of_asked {x : Exchange} (h : 0 < x.phase.stage) : x.pending = [] := by
  unfold Exchange.pending
  cases hp : x.phase with
  | sending => rw [hp] at h; cases h
  | header | reply => rfl

/-- The bytes that an exchange has taken off its link for the frame that it reads next. -/
def Exchange.seen (x : Exchange) : Bytes :=
  match x.phase with
  | .sending _ => x.unread
  | .header r => r.taken ++ x.unread
  | .reply r => r.taken ++ x.unread

/-- The bytes that a responder has still to put on their way. -/
def Responder.owed (r : Responder) : Bytes :=
  match r.phase with
  | .responding cs => r.buffer.unsent ++ Chore.bytes cs
  | _ => []

/-- A reader that has no byte of a frame, and to which none is under way, can only find the end. -/
theorem FrameReader.Turn.cut_of_silent {r : FrameReader} (h : r.Turn s unread l p unread' l')
    (hn : r.taken ++ unread ++ l.flow s.other = []) :
    (∃ e, p = .done (.error e)) ∧ l' = l ∧ l.shut s.other = true := by
  have hf : l.flow s.other = [] := (List.append_eq_nil_iff.mp hn).2
  cases h with
  | more _ hd => exact absurd (by rw [hf, List.drop_nil]) hd
  | whole hp h =>
    exact absurd (List.append_eq_nil_iff.mp (h.symm.trans hn)).1 (Frame.bytes_ne_nil _)
  | oversized _ _ h =>
    have := congrArg List.length (hn.symm.trans h)
    simp at this
    omega
  | cut _ hs => exact ⟨⟨_, rfl⟩, rfl, hs⟩

/-- If the other end can still write, it waits. -/
theorem FrameReader.Turn.not_deaf {r : FrameReader} (h : r.Turn s unread l p unread' l')
    (hn : r.taken ++ unread ++ l.flow s.other = []) (ho : l.shut s.other = false) : False := by
  obtain ⟨-, -, hs⟩ := h.cut_of_silent hn
  exact absurd (hs.symm.trans ho) (by decide)

/-- A call and a reader of its request cannot both wait, if what was sent has a whole frame. -/
theorem Exchange.Waits.clash {x : Exchange} {rd : FrameReader} {unread : Bytes}
    (hx : x.Waits l) (hr : rd.Waits .right unread l) (payload rest : Bytes)
    (hroom : 0 < l.bound .left)
    (hp : payload.length ≤ Frame.maxSize)
    (hb : 0 < x.phase.stage → rd.taken ++ unread = Frame.bytes payload ++ rest) : False := by
  have hshort := hr.short
  unfold Exchange.Waits at hx
  cases hphase : x.phase with
  | sending cs =>
    rw [hphase] at hx
    have hfull := hx.full
    rw [show l.flow .left = [] from hr.dry] at hfull
    exact Nat.not_le_of_lt hroom hfull
  | header | reply =>
    rw [hb (by rw [hphase]; exact Nat.succ_pos _), Frame.scan_bytes hp] at hshort
    cases hshort

/-! ## Both ends together -/

/-- What is noted of a responder's step, under the number of its server. -/
def Responder.Turn.noted (turn : Responder.Turn) (owner : Nat) (m : Moment) : List Note :=
  turn.invoked.toList.map fun i => ⟨owner, i, i.context.verdict m⟩

/-- What a responder notes is an invocation for its peer. -/
theorem Responder.Moves.of_noted {r : Responder} {n : Note} (h : r.Moves m l turn)
    (hn : n ∈ turn.noted owner m) : n.owner = owner ∧ n.invocation.peer = r.peer := by
  obtain ⟨i, hi, rfl⟩ := List.mem_map.mp hn
  exact ⟨rfl, h.peer_of_invoked (Option.mem_toList.mp hi)⟩

/-- A call and the task that answers it. -/
structure Talk where
  caller : Progress Exchange Call
  link : Link
  responder : Responder
  notes : List Note := []

namespace Talk

/-- One step of either end. Invocations are noted under the number of the server. -/
inductive Step (owner : Nat) (m : Moment) : Talk → Talk → Prop
  | call {x p l l' r notes} (h : x.step? m l = some (p, l')) :
    Step owner m ⟨.more x, l, r, notes⟩ ⟨p, l', r, notes⟩
  | respond {p l r turn notes} (h : r.step? m l = some turn) :
    Step owner m ⟨p, l, r, notes⟩
      ⟨p, turn.link, turn.responder, notes ++ turn.noted owner m⟩

def ofCall (codec : Codec) (call : Call) (capacity : Nat) (responder : Responder) : Talk where
  caller := .more (.ofCall codec call)
  link := .ofCapacity capacity
  responder := responder

/-- Both directions of the link can hold something. -/
def Roomy (t : Talk) : Prop := ∀ s, 0 < t.link.bound s

end Talk

/-- A talk leaves room on its link. -/
theorem Talk.Step.roomy {t t' : Talk} (h : t.Step owner m t') (hroom : t.Roomy) : t'.Roomy := by
  intro s
  cases h with
  | call hx => exact (Exchange.acted_of_step? hx).bound s ▸ hroom s
  | respond hr => exact (Responder.acted_of_step? hr).bound s ▸ hroom s

end PeerCall
