import PeerCall.Proofs.Talk.Ending
import PeerCall.Proofs.World.Runs

/-! # A call and its responder always finish

The task of a remote call and the task that answers it, alone in a world with a link that holds one
byte or more. Main statement: `Duo.completes_of_run?`. Whatever the sizes, whoever refuses what, and
whenever the call is given up, the two take a bounded number of steps, neither is ever stuck, and in
the end the call is handed back and the responder has ended. -/

namespace PeerCall

/-- A slot of a channel that is free for a sender who has not asked for one. -/
structure Channel.HasSlot (ch : Channel α) (i : Nat) : Prop where
  free : 0 < ch.free
  receiving : ch.receiving = true
  ungranted : i ∉ ch.granted
  unasked : i ∉ ch.waiting

/-- The channel after a value took a free slot. -/
def Channel.put (ch : Channel α) (a : α) : Channel α :=
  { ch with queue := ch.queue ++ [a], free := ch.free - 1 }

theorem Channel.HasSlot.send? {ch : Channel α} (h : ch.HasSlot i) (a : α) :
    ch.send? i a = some (true, ch.put a) := by
  have hfree : ch.free ≠ 0 := Nat.ne_of_gt h.free
  simp [Channel.send?, reserve?, h.receiving, h.ungranted, h.unasked, hfree, put]

/-- What a world of two tasks has besides them: the channel that the call is handed back on, and the
number of the server. -/
structure Duo where
  channel : Channel Call
  owner : Nat

namespace Duo

/-- The channel of the call, which was handed back or not. -/
def after (d : Duo) : Progress Exchange Call → Bool → Channel Call
  | .done c, true => d.channel.put c
  | _, _ => d.channel

def caller : Progress Exchange Call → Bool → Task
  | .more x, _ => .call 0 (.exchanging 0 x)
  | .done c, false => .call 0 (.delivering c)
  | .done _, true => .ended

/-- The world of two tasks that stand so. -/
def world (d : Duo) (m : Moment) (t : Talk) (delivered : Bool) : World where
  moment := m
  links := [t.link]
  channels := [d.after t.caller delivered]
  tasks := [caller t.caller delivered, .respond d.owner 0 t.responder]
  notes := t.notes

/-- The call was handed back, and the responder has ended. -/
def Completed (d : Duo) (w : World) : Prop :=
  (∃ c, w.tasks[0]? = some .ended ∧ w.channels[0]? = some (d.channel.put c)) ∧
    ∃ r result, w.tasks[1]? = some (.respond d.owner 0 r) ∧ r.phase = .ended result

/-- The server is in a wait. When its time has come the responder can take a step. -/
def Sleeping (d : Duo) (w : World) : Prop :=
  ∃ r v wake, w.tasks[1]? = some (.respond d.owner 0 r) ∧ r.phase = .serving v ∧
    v.wake = some wake ∧ w.moment.now < wake ∧ ∀ now, wake ≤ now → (w.atTime now).step? 1 ≠ none

/-- What a step of either task may make of how the two stand. -/
inductive Next (d : Duo) (m : Moment) : Talk → Bool → Talk → Bool → Prop
  | talk {t t' delivered} (h : t.Step d.owner m t') : Next d m t delivered t' delivered
  | deliver {c l r notes} :
    Next d m ⟨.done c, l, r, notes⟩ false ⟨.done c, l, r, notes⟩ true

variable {d : Duo} {m : Moment} {t : Talk} {delivered : Bool} {w : World}

private theorem caller_of_delivered (h : delivered = true → ∃ c, t.caller = .done c)
    (hx : t.caller = .more x) : delivered = false := by
  cases delivered with
  | false => rfl
  | true =>
    obtain ⟨c, hc⟩ := h rfl
    cases hx.symm.trans hc

/-- Only a call that is done is handed back. -/
theorem Next.coherent (h : d.Next m t delivered t' delivered')
    (hc : delivered = true → ∃ c, t.caller = .done c) :
    delivered' = true → ∃ c, t'.caller = .done c := by
  intro hd
  cases h with
  | deliver => exact ⟨_, rfl⟩
  | talk hs =>
    obtain ⟨c, hc⟩ := hc hd
    cases hs with
    | call => cases hc
    | respond => exact ⟨c, hc⟩

/-! ## Steps -/

private theorem step_exchanging (x : Exchange) (l : Link) (r : Responder) (notes : List Note) :
    (d.world m ⟨.more x, l, r, notes⟩ false).step? 0 =
      (x.step? m l).map fun (p, l') => d.world m ⟨p, l', r, notes⟩ false := by
  have htask : (d.world m ⟨.more x, l, r, notes⟩ false).tasks[0]? =
      some (.call 0 (.exchanging 0 x)) := rfl
  have hlink : (d.world m ⟨.more x, l, r, notes⟩ false).links[0]? = some l := rfl
  have hm : (d.world m ⟨.more x, l, r, notes⟩ false).moment = m := rfl
  rw [World.step?, htask]
  simp only [World.stepCall?, hlink, hm]
  cases x.step? m l with
  | none => rfl
  | some res =>
    obtain ⟨p, l'⟩ := res
    cases p <;> rfl

private theorem step_delivering (h : d.channel.HasSlot 0) (c : Call) (l : Link) (r : Responder)
    (notes : List Note) : (d.world m ⟨.done c, l, r, notes⟩ false).step? 0 =
      some (d.world m ⟨.done c, l, r, notes⟩ true) := by
  have htask : (d.world m ⟨.done c, l, r, notes⟩ false).tasks[0]? =
      some (.call 0 (.delivering c)) := rfl
  have hch : (d.world m ⟨.done c, l, r, notes⟩ false).channels[0]? = some d.channel := rfl
  rw [World.step?, htask]
  simp only [World.stepCall?, hch, h.send?]
  rfl

private theorem step_responder (t : Talk) (delivered : Bool) :
    (d.world m t delivered).step? 1 = (t.responder.step? m t.link).map fun turn =>
      d.world m ⟨t.caller, turn.link, turn.responder, t.notes ++ turn.noted d.owner m⟩
        delivered := by
  have htask : (d.world m t delivered).tasks[1]? = some (.respond d.owner 0 t.responder) := rfl
  have hlink : (d.world m t delivered).links[0]? = some t.link := rfl
  have hm : (d.world m t delivered).moment = m := rfl
  rw [World.step?, htask]
  simp only [hlink, hm]
  cases t.responder.step? m t.link with
  | none => rfl
  | some turn =>
    cases hi : turn.invoked <;>
      simp [World.setTask, World.setLink, World.note, world, Responder.Turn.noted, hi]

/-- Whichever of the two takes a step, it is one that the way they stand allows. -/
theorem next_of_step? (hslot : d.channel.HasSlot 0)
    (hc : delivered = true → ∃ c, t.caller = .done c)
    (h : (d.world m t delivered).step? i = some w) :
    ∃ t' delivered', w = d.world m t' delivered' ∧ d.Next m t delivered t' delivered' := by
  match i with
  | 0 =>
    obtain ⟨caller, l, r, notes⟩ := t
    cases caller with
    | more x =>
      obtain rfl := caller_of_delivered hc rfl
      rw [step_exchanging] at h
      obtain ⟨⟨p, l'⟩, hx, rfl⟩ := Option.map_eq_some_iff.mp h
      exact ⟨_, _, rfl, .talk (.call hx)⟩
    | done c =>
      cases delivered with
      | true => cases h
      | false =>
        rw [step_delivering hslot] at h
        cases h
        exact ⟨_, _, rfl, .deliver⟩
  | 1 =>
    rw [step_responder] at h
    obtain ⟨turn, hr, rfl⟩ := Option.map_eq_some_iff.mp h
    exact ⟨_, _, rfl, .talk (.respond hr)⟩
  | i + 2 =>
    have htask : (d.world m t delivered).tasks[i + 2]? = none := rfl
    rw [World.step?, htask] at h
    cases h

/-! ## Runs -/

/-- How many steps there can still be of both. -/
def left (limit : Nat) (t : Talk) (delivered : Bool) : Nat :=
  t.effort limit + if delivered then 0 else 1

theorem Next.left_lt (h : d.Next m t delivered t' delivered') (hb : t.Bounded codec call limit) :
    t'.Bounded codec call limit ∧ left limit t' delivered' < left limit t delivered := by
  cases h with
  | talk hs =>
    obtain ⟨hb', hlt⟩ := hb.step hs
    exact ⟨hb', Nat.add_lt_add_right hlt _⟩
  | deliver => exact ⟨hb, Nat.lt_succ_self _⟩

/-- All that can be said of a run: how the two stand after it, and how many steps it took. -/
theorem stands_of_run? (hslot : d.channel.HasSlot 0) (hb : t.Bounded codec call limit)
    (hc : delivered = true → ∃ c, t.caller = .done c)
    (h : World.run? moves (d.world m t delivered) = some w) :
    ∃ t' delivered', w = d.world w.moment t' delivered' ∧ t'.Bounded codec call limit ∧
      (delivered' = true → ∃ c, t'.caller = .done c) ∧
      moves.countP World.Move.isStep + left limit t' delivered' ≤ left limit t delivered := by
  let P (n : Nat) (w : World) : Prop := ∃ m t' delivered', w = d.world m t' delivered' ∧
    t'.Bounded codec call limit ∧ (delivered' = true → ∃ c, t'.caller = .done c) ∧
      n + left limit t' delivered' ≤ left limit t delivered
  have hP : P (moves.countP World.Move.isStep) w := by
    refine World.run?_induct ?_ ?_ ?_ ⟨m, t, delivered, rfl, hb, hc, ?_⟩ h
    · rintro n _ i w' ⟨m, t', delivered', rfl, hb', hc', hle⟩ hstep
      obtain ⟨t'', delivered'', rfl, hn⟩ := next_of_step? hslot hc' hstep
      obtain ⟨hb'', hlt⟩ := hn.left_lt hb'
      exact ⟨m, t'', delivered'', rfl, hb'', hn.coherent hc', by omega⟩
    · rintro n _ now ⟨m, t', delivered', rfl, h⟩ _
      exact ⟨_, t', delivered', rfl, h⟩
    · rintro n _ token ⟨m, t', delivered', rfl, h⟩ _
      exact ⟨_, t', delivered', rfl, h⟩
    · exact Nat.le_of_eq (Nat.zero_add _)
  obtain ⟨m', t', delivered', rfl, hstands⟩ := hP
  exact ⟨t', delivered', rfl, hstands⟩

/-- The two are never stuck. -/
theorem progress (hslot : d.channel.HasSlot 0) (hb : t.Bounded codec call limit)
    (hc : delivered = true → ∃ c, t.caller = .done c) :
    d.Completed (d.world m t delivered) ∨ (∃ i, (d.world m t delivered).step? i ≠ none) ∨
      d.Sleeping (d.world m t delivered) := by
  obtain ⟨caller, l, r, notes⟩ := t
  rcases hb.progress m with ⟨⟨c, rfl⟩, result, he⟩ | ⟨x, rfl, hstep⟩ | hstep |
    ⟨v, wake, hv, hwake, hlt⟩
  · cases delivered with
    | true => exact .inl ⟨⟨c, rfl, rfl⟩, r, result, rfl, he⟩
    | false =>
      refine .inr (.inl ⟨0, ?_⟩)
      rw [step_delivering hslot]
      exact Option.some_ne_none _
  · obtain rfl := caller_of_delivered hc rfl
    refine .inr (.inl ⟨0, ?_⟩)
    rw [step_exchanging]
    simpa using hstep
  · refine .inr (.inl ⟨1, ?_⟩)
    rw [step_responder]
    simpa using hstep
  · refine .inr (.inr ⟨r, v, wake, rfl, hv, hwake, hlt, fun now hle => ?_⟩)
    have hstep : v.step? { m with now } ≠ none := by
      intro hn
      rcases Serving.step?_eq_none hn with hnever | ⟨wake', hwake', hlt'⟩
      · exact hb.returning.serving v hv (by rw [hnever]; rfl)
      · cases hwake.symm.trans hwake'
        exact absurd hlt' (Nat.not_lt_of_le hle)
    have hw : (d.world m ⟨caller, l, r, notes⟩ delivered).atTime now =
        d.world { m with now } ⟨caller, l, r, notes⟩ delivered := rfl
    rw [hw, step_responder]
    simpa [Responder.step?_of_serving hv] using hstep

theorem completed_of_atRest (hslot : d.channel.HasSlot 0) (hb : t.Bounded codec call limit)
    (hc : delivered = true → ∃ c, t.caller = .done c) (h : (d.world m t delivered).AtRest) :
    d.Completed (d.world m t delivered) := by
  rcases progress (m := m) hslot hb hc with hdone | ⟨i, hi⟩ | ⟨_, _, wake, _, _, _, hlt, hwake⟩
  · exact hdone
  · exact absurd (h m.now i (Nat.le_refl _)) hi
  · exact absurd (h wake 1 (Nat.le_of_lt hlt)) (hwake wake (Nat.le_refl _))

/-- However the two stand, they can go on until both have finished. -/
theorem exists_completed (hslot : d.channel.HasSlot 0) (hb : t.Bounded codec call limit)
    (hc : delivered = true → ∃ c, t.caller = .done c) :
    ∃ moves w, World.run? moves (d.world m t delivered) = some w ∧ d.Completed w := by
  induction hn : left limit t delivered using Nat.strongRecOn generalizing m t delivered with
  | _ n ih =>
    have hstep (m' : Moment) {i : Nat} (hi : (d.world m' t delivered).step? i ≠ none) :
        ∃ moves w, World.run? moves (d.world m' t delivered) = some w ∧ d.Completed w := by
      obtain ⟨w₁, hw₁⟩ := Option.ne_none_iff_exists'.mp hi
      obtain ⟨t', delivered', rfl, hnext⟩ := next_of_step? hslot hc hw₁
      obtain ⟨hb', hlt⟩ := hnext.left_lt hb
      obtain ⟨moves, w, hrun, hdone⟩ := ih _ (hn ▸ hlt) hb' (hnext.coherent hc) rfl
      refine ⟨.step i :: moves, w, ?_, hdone⟩
      rw [World.run?, World.move?, hw₁]
      exact hrun
    rcases progress (m := m) hslot hb hc with hdone | ⟨i, hi⟩ | ⟨_, _, wake, _, _, _, hlt, hwake⟩
    · exact ⟨[], _, rfl, hdone⟩
    · exact hstep m hi
    · -- time passes, and then the server goes on
      obtain ⟨moves, w, hrun, hdone⟩ := hstep { m with now := wake }
        (hwake wake (Nat.le_refl _))
      refine ⟨.clock wake :: moves, w, ?_, hdone⟩
      have hle : (d.world m t delivered).moment.now ≤ wake := Nat.le_of_lt hlt
      rw [World.run?, World.move?, if_pos hle]
      exact hrun

/-! ## Every run -/

/-- In every run of a call and its responder over a link of any capacity, to a server that always
returns, the two take a bounded number of steps. As long as they have not both finished, one of them
can take a step, or the server is in a wait that ends; and they can go on until the call is handed
back and the responder has ended. They do not come to rest before. -/
theorem completes_of_run? (d : Duo) (codec : Codec) (call : Call) (r : Responder) (m : Moment)
    (hslot : d.channel.HasSlot 0) (hroom : 0 < capacity) (hfresh : call.error = none)
    (hr : r.Fresh) (hserver : ∀ i, (r.server i).result? ≠ none)
    (hrun : World.run? moves (d.world m (.ofCall codec call capacity r) false) = some w) :
    moves.countP World.Move.isStep ≤
      left (r.limit codec call) (.ofCall codec call capacity r) false ∧
    (d.Completed w ∨ (∃ i, w.step? i ≠ none) ∨ d.Sleeping w) ∧
    (∃ moves' w', World.run? moves' w = some w' ∧ d.Completed w') ∧
    (w.AtRest → d.Completed w) := by
  have hb := Talk.bounded_ofCall codec hfresh hr hroom hserver
  have hc : false = true → ∃ c, (Talk.ofCall codec call capacity r).caller = .done c := nofun
  obtain ⟨t, delivered, hw, hb', hc, hle⟩ := stands_of_run? hslot hb hc hrun
  rw [hw]
  refine ⟨by omega, progress hslot hb' hc, exists_completed hslot hb' hc, ?_⟩
  exact completed_of_atRest hslot hb' hc

def moonServer : Responder where
  server := fun _ => .finish none (some [1])
  codec := .standard
  peer := ⟨"alice"⟩
  context := ⟨.root 1, none⟩

/-- Over a link that holds one byte, a call is given up while it waits for room. The responder finds
out, and both finish. -/
theorem completes_given_up_midway : ∃ w, World.run?
    [.step 0, .fire (.root 0), .step 0, .step 1, .step 1, .step 0]
    (world ⟨.ofCapacity 1 1, 7⟩ {} (.ofCall .standard Receiving.question 1 moonServer) false) =
      some w ∧ Completed ⟨.ofCapacity 1 1, 7⟩ w := by
  obtain ⟨w, hrun, hrest⟩ : ∃ w, World.run?
      [.step 0, .fire (.root 0), .step 0, .step 1, .step 1, .step 0]
      (world ⟨.ofCapacity 1 1, 7⟩ {} (.ofCall .standard Receiving.question 1 moonServer) false) =
        some w ∧ w.AtRest := by
    refine ⟨_, rfl, fun now i _ => ?_⟩
    match i with
    | 0 => rfl
    | 1 => rfl
    | i + 2 => rfl
  refine ⟨w, hrun, ?_⟩
  exact (completes_of_run? ⟨.ofCapacity 1 1, 7⟩ .standard Receiving.question moonServer {}
    ⟨Nat.zero_lt_one, rfl, nofun, nofun⟩ Nat.zero_lt_one rfl ⟨rfl, rfl, rfl⟩ (fun _ => nofun)
    hrun).2.2.2 hrest

end Duo

end PeerCall
