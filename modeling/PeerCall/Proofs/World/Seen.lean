import Mathlib.Data.List.Nodup
import PeerCall.Proofs.Arrivals
import PeerCall.Proofs.Serving
import PeerCall.Rules
import PeerCall.Proofs.World.Steps

/-! # What a task sees of a world

Of a world with many links, somebody may see only some. These have other places for who sees no
others, in the order in which they were opened. An inbox then holds those arrivals whose links are
seen (`Inbox.seen`), and dialing and accepting go on as if there were no others
(`Network.dial_seen`, `Network.receive_seen`). The token of a responder is its own, so it does not
matter which one it is (`Responder.Like.step`). -/

namespace PeerCall

/-! ## Arrivals -/

/-- An arrival, by the place that its link has among those that are seen. -/
def Arrival.seen (ls : List Nat) (a : Arrival) : Option Arrival :=
  (ls.idxOf? a.link).map fun link => { a with link }

/-- The inbox, with the arrivals whose links are seen. -/
def Inbox.seen (ls : List Nat) (b : Inbox) : Inbox :=
  { b with queue := b.queue.filterMap (Arrival.seen ls) }

/-- The network, with the arrivals whose links are seen. -/
def Network.seen (ls : List Nat) (n : Network) : Network :=
  { n with inboxes := n.inboxes.map (Inbox.seen ls) }

variable {ls : List Nat} {a b : Arrival} {n n' : Network} {link i : Nat}

namespace Arrival

theorem seen_eq_none_iff : a.seen ls = none ↔ a.link ∉ ls := by
  rw [seen, Option.map_eq_none_iff, List.idxOf?_eq_none_iff]

theorem getElem?_of_seen (h : a.seen ls = some b) :
    ls[b.link]? = some a.link ∧ b.protocol = a.protocol ∧ b.dialer = a.dialer := by
  obtain ⟨j, hj, rfl⟩ := Option.map_eq_some_iff.mp h
  obtain ⟨hlt, hlink, -⟩ := List.idxOf?_eq_some_iff.mp hj
  exact ⟨List.getElem?_eq_some_iff.mpr ⟨hlt, hlink⟩, rfl, rfl⟩

/-- A link that is seen besides does not matter to the arrivals of others. -/
theorem seen_push (h : a.link ≠ link) : a.seen (ls ++ [link]) = a.seen ls := by
  simp [seen, List.idxOf?, List.findIdx?_append, h.symm]

theorem seen_new (h : a.link ∉ ls) :
    a.seen (ls ++ [a.link]) = some { a with link := ls.length } := by
  have hnone := List.idxOf?_eq_none_iff.mpr h
  simp only [List.idxOf?] at hnone
  simp [seen, List.idxOf?, List.findIdx?_append, hnone]

end Arrival

namespace Inbox

variable {box : Inbox}

theorem seen_push (h : ∀ a ∈ box.queue, a.link ≠ link) :
    box.seen (ls ++ [link]) = box.seen ls := by
  rw [seen, List.filterMap_congr fun a ha => Arrival.seen_push (h a ha), seen]

theorem seen_add (box : Inbox) (h : a.seen ls = some b) :
    (box.add a).seen ls = (box.seen ls).add b := by
  simp only [seen, add, List.filterMap_append, List.filterMap_cons, h, List.filterMap_nil]

theorem seen_add_none (h : a.seen ls = none) : (box.add a).seen ls = box.seen ls := by
  simp only [seen, add, List.filterMap_append, List.filterMap_cons, h, List.filterMap_nil,
    List.append_nil]

end Inbox

namespace Network

theorem inbox_seen : (n.seen ls).inboxes[i]? = n.inboxes[i]?.map (Inbox.seen ls) :=
  List.getElem?_map ..

private theorem seen_set {x : Inbox} : ({ n with inboxes := n.inboxes.set i x } : Network).seen ls =
    { n.seen ls with inboxes := (n.seen ls).inboxes.set i (x.seen ls) } := by
  simp only [seen, List.map_set]

/-- An inbox that looks as before does not make a difference. -/
private theorem seen_set_self {x box : Inbox} (hb : n.inboxes[i]? = some box)
    (hx : x.seen ls = box.seen ls) :
    ({ n with inboxes := n.inboxes.set i x } : Network).seen ls = n.seen ls := by
  obtain ⟨hi, rfl⟩ := List.getElem?_eq_some_iff.mp hb
  have hsame : (n.inboxes.set i x).map (Inbox.seen ls) = n.inboxes.map (Inbox.seen ls) := by
    rw [List.map_set, hx, ← List.map_set, List.set_getElem_self]
  rw [seen, hsame, seen]

theorem ne_of_arrivals {box : Inbox} (h : n.arrivals link = []) (hb : box ∈ n.inboxes)
    (ha : a ∈ box.queue) : a.link ≠ link := by
  rintro rfl
  have hmem : a ∈ n.arrivals a.link :=
    List.mem_flatMap.mpr ⟨box, hb, List.mem_filter.mpr ⟨ha, decide_eq_true rfl⟩⟩
  rw [h] at hmem
  cases hmem

/-- A link that nobody waits for is seen besides. -/
theorem seen_push (h : n.arrivals link = []) : n.seen (ls ++ [link]) = n.seen ls := by
  rw [seen, seen, List.map_congr_left fun box hb => Inbox.seen_push fun a ha =>
    ne_of_arrivals h hb ha]

theorem dial_seen_error (ls : List Nat) (link' : Nat)
    (h : n.dial dialer peer protocol link = .error e) :
    (n.seen ls).dial dialer peer protocol link' = .error e := by
  unfold dial at h ⊢
  have hmembers : (n.seen ls).inbox? peer = n.inbox? peer := rfl
  rw [hmembers]
  cases hi : n.inbox? peer with
  | none =>
    simp only [hi] at h ⊢
    exact h
  | some i =>
    simp only [hi, inbox_seen] at h ⊢
    cases hb : n.inboxes[i]? with
    | none =>
      simp only [hb, Option.map_none] at h ⊢
      exact h
    | some b =>
      simp only [hb, Option.map_some, Inbox.seen] at h ⊢
      split at h
      · cases h
      · rename_i hl
        rw [if_neg hl]
        exact h

/-- Dialing on a link that is seen from now on. -/
theorem dial_seen (h : n.dial dialer peer protocol link = .ok n') (hnew : link ∉ ls)
    (hnone : n.arrivals link = []) : (n.seen ls).dial dialer peer protocol ls.length =
      .ok (n'.seen (ls ++ [link])) := by
  obtain ⟨i, queue, hi, hb, rfl⟩ := listening_of_dial h
  have hseen : (n.seen ls).inboxes[i]? = some ⟨queue.filterMap (Arrival.seen ls), true⟩ := by
    rw [inbox_seen, hb, Option.map_some, Inbox.seen]
  have hold : (⟨queue, true⟩ : Inbox).seen (ls ++ [link]) = (⟨queue, true⟩ : Inbox).seen ls :=
    Inbox.seen_push fun a ha => ne_of_arrivals hnone (List.mem_of_getElem? hb) ha
  have hadd := Inbox.seen_add ⟨queue, true⟩
    (Arrival.seen_new (a := ⟨protocol, dialer, link⟩) hnew)
  rw [dial_of_listening (n := n.seen ls) hi hseen, seen_set, seen_push hnone]
  rw [hold] at hadd
  exact congrArg (fun x => Except.ok { n.seen ls with inboxes := (n.seen ls).inboxes.set i x })
    hadd.symm

/-- Dialing on a link that is not seen. -/
theorem seen_dial (h : n.dial dialer peer protocol link = .ok n') (hnew : link ∉ ls) :
    n'.seen ls = n.seen ls := by
  obtain ⟨i, box, -, hb, rfl⟩ := dial_eq_ok h
  exact seen_set_self hb (Inbox.seen_add_none (Arrival.seen_eq_none_iff.mpr hnew))

theorem receive_seen (h : n.receive i = (.arrived a, n')) (hb : a.seen ls = some b) :
    (n.seen ls).receive i = (.arrived b, n'.seen ls) := by
  obtain ⟨rest, hbox, rfl⟩ := receive_arrived h
  have hseen : (n.seen ls).inboxes[i]? =
      some ⟨b :: rest.filterMap (Arrival.seen ls), true⟩ := by
    rw [inbox_seen, hbox, Option.map_some, Inbox.seen, List.filterMap_cons_some hb]
  rw [receive, hseen, seen_set]
  rfl

theorem seen_receive (h : n.receive i = (.arrived a, n')) (hnone : a.seen ls = none) :
    n'.seen ls = n.seen ls := by
  obtain ⟨rest, hbox, rfl⟩ := receive_arrived h
  refine seen_set_self hbox ?_
  rw [Inbox.seen, Inbox.seen, List.filterMap_cons_none hnone]

theorem receive_seen_over (ls : List Nat) (h : ∀ a n', n.receive i ≠ (.arrived a, n')) :
    (n.seen ls).receive i = ((n.receive i).1, n.seen ls) := by
  unfold receive at h ⊢
  rw [inbox_seen]
  cases hb : n.inboxes[i]? with
  | none => rfl
  | some box =>
    obtain ⟨queue, listening⟩ := box
    cases listening with
    | false => rfl
    | true =>
      cases queue with
      | nil => rfl
      | cons a rest =>
        rw [hb] at h
        exact absurd rfl (h a _)

end Network

/-! ## Responders with tokens of their own -/

/-- A server that cannot tell the contexts of responders apart. -/
def Server.Blind (server : Server) : Prop := ∀ n m peer service args,
  server ⟨⟨.root n, none⟩, peer, service, args⟩ = server ⟨⟨.root m, none⟩, peer, service, args⟩

theorem Rule.blind_server (rules : List Rule) (codec : Codec) : Server.Blind (server rules codec) :=
  fun _ _ _ _ _ => rfl

/-- An invocation under way under another context. -/
def Serving.under (v : Serving) (c : Context) : Serving := { v with context := c }

/-- A responder on another context. -/
def Responder.under (r : Responder) (c : Context) : Responder :=
  { r with
    context := c
    phase := match r.phase with
      | .serving v => .serving (v.under c)
      | p => p }

/-- A turn of a responder on another context. -/
def Responder.Turn.under (turn : Turn) (c : Context) : Turn :=
  { turn with
    responder := turn.responder.under c
    invoked := turn.invoked.map fun i => { i with context := c } }

/-- How an invocation goes on under another context. -/
def Serving.onward (c : Context) : Progress Serving Outcome → Progress Serving Outcome
  | .more v => .more (v.under c)
  | .done o => .done o

section

variable {v : Serving} {r r' : Responder} {c c' : Context} {m : Moment} {l : Link} {tokens : Nat}

/-- Under contexts that are not done an invocation goes on alike. -/
theorem Serving.step?_under (h : c.verdict m = none) (h' : c'.verdict m = none) :
    (v.under c').step? m = ((v.under c).step? m).map (onward c') := by
  obtain ⟨context, work, wake⟩ := v
  cases work with
  | finish | crash | never => rfl
  | pause ms heeding next =>
    simp only [step?, under, h, h', ite_self]
    cases wake with
    | none => rfl
    | some t => by_cases ht : t ≤ m.now <;> simp only [ht, if_true, if_false] <;> rfl

/-- Under contexts that are not done, and that its server cannot tell apart, a responder goes on
alike. -/
theorem Responder.step?_under (h : c.verdict m = none) (h' : c'.verdict m = none)
    (hb : ∀ peer service args,
      r.server ⟨c', peer, service, args⟩ = r.server ⟨c, peer, service, args⟩) :
    (r.under c').step? m l = ((r.under c).step? m l).map (Turn.under · c') := by
  obtain ⟨server, codec, peer, context, unread, buffer, phase⟩ := r
  cases phase with
  | service reader =>
    simp only [under, step?]
    obtain _ | ⟨_ | (_ | bs), unread', l'⟩ := reader.step? .right unread l
    · rfl
    · rfl
    · rfl
    · simp only
      cases codec.decode .serviceId bs <;> rfl
  | args service reader =>
    simp only [under, step?]
    obtain _ | ⟨_ | (_ | args), unread', l'⟩ := reader.step? .right unread l
    · rfl
    · rfl
    · rfl
    · have hwork : server ⟨c', peer, service, args⟩ = server ⟨c, peer, service, args⟩ :=
        hb peer service args
      simp only [become, Serving.ofInvocation, hwork]
      rfl
  | serving v =>
    simp only [under, step?]
    rw [Serving.step?_under h h']
    obtain _ | _ | (_ | _) := (v.under c).step? m <;> rfl
  | responding chores =>
    simp only [under, step?]
    obtain _ | ⟨_ | (_ | _), buffer', l'⟩ := buffer.step? .right chores l <;> rfl
  | ended | crashed => rfl

theorem Responder.server_of_step? {turn : Turn} (h : r.step? m l = some turn) :
    turn.responder.server = r.server := by
  unfold step? at h
  split at h
  · split at h
    · cases h
    · cases h
      rfl
    · cases h
      rfl
    · split at h <;> cases h <;> rfl
  · split at h <;> cases h <;> rfl
  · split at h <;> cases h <;> rfl
  · split at h <;> cases h <;> rfl
  · cases h
  · cases h

end

/-- A responder in another world. Its token may be another one, as long as nobody else has it. -/
inductive Responder.Like (tokens : Nat) : Responder → Responder → Prop
  | same (r : Responder) : Like tokens r r
  | fresh {r : Responder} {n m : Nat} (hn : tokens ≤ n) (hm : tokens ≤ m) (hb : r.server.Blind) :
    Like tokens (r.under ⟨.root n, none⟩) (r.under ⟨.root m, none⟩)

theorem Responder.Like.symm {tokens : Nat} {r r' : Responder} (h : r.Like tokens r') :
    r'.Like tokens r := by
  cases h with
  | same => exact .same r
  | fresh hn hm hb => exact .fresh hm hn hb

theorem Token.isMade_mono {n m : Nat} {t : Token} (h : t.isMade n = true) (hn : n ≤ m) :
    t.isMade m = true := by
  unfold isMade at h ⊢
  cases hlast : t.path.getLast? with
  | none =>
    rw [hlast] at h
    cases h
  | some i =>
    rw [hlast, Option.any_some, decide_eq_true_iff] at h
    rw [Option.any_some, decide_eq_true_iff]
    exact Nat.lt_of_lt_of_le h hn

theorem Responder.Like.step {tokens : Nat} {r r' : Responder} {turn' : Turn}
    (h : r.Like tokens r') (hm : ∀ t ∈ m.fired, t.isMade tokens = true)
    (hs : r'.step? m l = some turn') : ∃ turn, r.step? m l = some turn ∧
      turn.link = turn'.link ∧ turn.responder.Like tokens turn'.responder := by
  cases h with
  | same => exact ⟨turn', hs, rfl, .same _⟩
  | @fresh r n n' hn hn' hb =>
    have hverdict {n : Nat} (hn : tokens ≤ n) : Context.verdict ⟨.root n, none⟩ m = none :=
      Moment.verdict_root fun t ht => Token.isMade_mono (hm t ht) hn
    have hunder {i j : Nat} (hi : tokens ≤ i) (hj : tokens ≤ j) :
        (r.under ⟨.root j, none⟩).step? m l =
          ((r.under ⟨.root i, none⟩).step? m l).map (Turn.under · ⟨.root j, none⟩) :=
      step?_under (hverdict hi) (hverdict hj) fun _ _ _ => hb ..
    have hserver : turn'.responder.server = (r.under _).server := server_of_step? hs
    -- A turn under a context leaves a responder under this context.
    have hself : turn'.responder.under ⟨.root n', none⟩ = turn'.responder := by
      have hself := hunder hn' hn'
      rw [hs] at hself
      exact congrArg Turn.responder (Option.some.inj hself).symm
    have hs' := hunder hn' hn
    rw [hs] at hs'
    have hlike : Like tokens (turn'.responder.under ⟨.root n, none⟩)
        (turn'.responder.under ⟨.root n', none⟩) := .fresh hn hn' (hserver ▸ hb)
    rw [hself] at hlike
    exact ⟨_, hs', rfl, hlike⟩

end PeerCall
