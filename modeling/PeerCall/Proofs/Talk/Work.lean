import PeerCall.Proofs.Talk

/-! # How much is left of a talk

Each byte that has to be sent costs two steps at most, one to put it on its way and one to take it
off, and each phase one more. So there is a number that every step of either end lowers, given up or
not (`Exchange.Moves.work_lt`, `Responder.Moves.effort_lt`). Of a server that was not asked yet, all
that may come to be written has to be counted (`Work.longest`). -/

namespace PeerCall

/-! ## The call -/

namespace Exchange

def work (x : Exchange) : Nat := 2 * x.pending.length + (3 - x.phase.stage)

/-- How many steps there can still be of a call. -/
def left : Progress Exchange Call → Nat
  | .more x => x.work
  | .done _ => 0

theorem Moves.work_lt {x : Exchange} (h : x.Moves m l p l') :
    left p + (l'.flow .left).length + (l'.flow .right).length <
      x.work + (l.flow .left).length + (l.flow .right).length := by
  have hpos := x.phase.stage_lt
  have hread {r : FrameReader} {q unread l₁} (ht : r.Turn .left x.unread l q unread l₁) :
      l₁.flow .left = l.flow .left ∧ (l₁.flow .right).length ≤ (l.flow .right).length := by
    obtain ⟨n, rfl⟩ := ht.link
    simp
  cases h with
  | stopped =>
    simp only [left, work, Link.flow_abort]
    omega
  | sending _ hp ht =>
    cases ht with
    | @more _ _ piece hne hb =>
      have hlen := List.length_pos_iff.mpr hne
      simp only [left, work, hb, hp, Phase.stage, pending, Link.flow_put, reduceCtorEq,
        if_true, if_false, List.length_append]
      omega
  | sent _ hp ht =>
    cases ht with
    | @done _ piece hb =>
      simp only [left, work, hb, hp, Phase.stage, pending, Link.flow_put, reduceCtorEq,
        if_true, if_false, List.length_append, List.length_nil]
      omega
  | @unsent cs e b l' _ hp ht =>
    have hpend : x.pending = x.buffer.unsent ++ Chore.bytes cs := by rw [pending, hp]
    cases ht with
    | @failed _ _ piece rest hb =>
      simp only [left, work, hpend, hb, Link.flow_abort, Link.flow_put, reduceCtorEq, if_true,
        if_false, List.length_append]
      omega
    | refused =>
      simp only [left, work, Link.flow_abort]
      omega
  | header _ hp ht | reply _ hp ht =>
    have hlt := ht.flow_lt_of_more
    simp only [Side.other] at hlt
    simp only [left, work, pending, hp, (hread ht).1, Phase.stage]
    omega
  | @response _ _ response _ _ _ hp ht =>
    have hle := hread ht
    simp only [left, work, pending, hp, takeResponse, Phase.stage, hle.1]
    omega
  | headerLost _ _ ht | headerBad _ _ ht | replyLost _ _ ht | replyBad _ _ ht =>
    have hle := hread ht
    simp only [left, work, Link.flow_abort, hle.1]
    omega
  | replyMissing _ _ ht | replyEmpty _ _ ht | replied _ _ ht =>
    have hle := hread ht
    simp only [left, work, Link.flow_finish, hle.1]
    omega

end Exchange

/-! ## The server -/

/-- The most bytes that an answer to work can have. -/
def Work.longest (codec : Codec) : Work → Nat
  | finish error reply => (Chore.bytes (Responder.response codec error reply)).length
  | pause _ _ next =>
    max (next.longest codec) (max
      (Chore.bytes (Responder.response codec (some .cancelled) none)).length
      (Chore.bytes (Responder.response codec (some .deadlineExceeded) none)).length)
  | crash => 0
  | never => 0

theorem Work.Returns.length_le {w : Work} (h : w.Returns error reply) (codec : Codec) :
    (Chore.bytes (Responder.response codec error reply)).length ≤ w.longest codec := by
  induction h with
  | finish => exact Nat.le_refl _
  | wait _ ih => exact Nat.le_trans ih (Nat.le_max_left ..)
  | @cut _ _ e he =>
    refine Nat.le_trans ?_ (Nat.le_max_right ..)
    cases e with
    | cancelled => exact Nat.le_max_left ..
    | deadlineExceeded => exact Nat.le_max_right ..
    | _ => cases he

theorem Serving.longest_of_more {v v' : Serving} (h : v.step? m = some (.more v'))
    (codec : Codec) : v'.work.longest codec ≤ v.work.longest codec := by
  rcases (more_of_step? h).2 with ⟨hw, _⟩ | ⟨_, ms, heeding, hw⟩
  · exact Nat.le_of_eq (congrArg _ hw)
  · rw [hw]
    exact Nat.le_max_left ..

/-! ## The responder -/

namespace Responder

/-- What it takes to answer an invocation. -/
def cost (r : Responder) (i : Invocation) : Nat :=
  2 * (r.server i).longest r.codec + 2 * (r.server i).pauses + 3

/-- How many steps there can still be of a responder, if an invocation costs so much. -/
def effort (limit : Nat) (r : Responder) : Nat :=
  match r.phase with
  | .service _ => 2 * r.buffer.unsent.length + limit + 2
  | .args _ _ => 2 * r.buffer.unsent.length + limit + 1
  | .serving v => 2 * (r.buffer.unsent.length + v.work.longest r.codec) + v.waits + 2
  | .responding _ => 2 * r.owed.length + 1
  | .ended _ => 0
  | .crashed => 0

theorem Moves.effort_lt {r : Responder} (h : r.Moves m l turn)
    (hi : ∀ i, turn.invoked = some i → r.cost i ≤ limit) :
    (turn.link.flow .left).length + (turn.link.flow .right).length + turn.responder.effort limit <
      (l.flow .left).length + (l.flow .right).length + r.effort limit := by
  have hread {rd : FrameReader} {q unread l₁} (ht : rd.Turn .right r.unread l q unread l₁) :
      (l₁.flow .left).length ≤ (l.flow .left).length ∧ l₁.flow .right = l.flow .right := by
    obtain ⟨n, rfl⟩ := ht.link
    simp
  cases h with
  | service hp ht | args hp ht =>
    have hlt := ht.flow_lt_of_more
    simp only [Side.other] at hlt
    simp only [effort, become, hp, (hread ht).2]
    omega
  | serviceLost hp ht | serviceBad hp ht | argsLost hp ht =>
    have hle := hread ht
    simp only [effort, fail, hp, Link.flow_abort, hle.2]
    omega
  | named hp ht =>
    have hle := hread ht
    simp only [effort, become, hp, hle.2]
    omega
  | invoked hp ht =>
    have hle := hread ht
    have hcost := hi _ rfl
    simp only [cost] at hcost
    simp only [effort, become, hp, hle.2, Serving.waits, Serving.ofInvocation, Option.isSome_none,
      Bool.false_eq_true, if_false]
    omega
  | serving hp hs =>
    have hwaits := Serving.waits_of_more hs
    have hlongest := Serving.longest_of_more hs r.codec
    simp only [effort, become, hp]
    omega
  | crashed hp =>
    simp only [effort, become, hp, Link.flow_drop]
    omega
  | returned hp hs =>
    have hlen := (Serving.returns_of_step? hs).length_le r.codec
    simp only [effort, become, hp, owed, List.length_append]
    omega
  | @responding cs cs' b l' hp ht =>
    cases ht with
    | @more _ _ piece hne hb =>
      have hlen := List.length_pos_iff.mpr hne
      simp only [effort, become, hp, owed, hb, Link.flow_put, reduceCtorEq, if_true, if_false,
        List.length_append]
      omega
  | unresponded hp ht =>
    cases ht with
    | failed hb =>
      simp only [effort, fail, hp, owed, hb, Link.flow_abort, Link.flow_put, reduceCtorEq, if_true,
        if_false, List.length_append]
      omega
    | refused =>
      simp only [effort, fail, hp, Link.flow_abort]
      omega
  | responded hp ht =>
    cases ht with
    | done hb =>
      simp only [effort, become, hp, owed, hb, Link.flow_finish, Link.flow_put, reduceCtorEq,
        if_true, if_false, List.length_append]
      omega

end Responder

end PeerCall
