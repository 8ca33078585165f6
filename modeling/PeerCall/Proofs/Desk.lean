import PeerCall.Proofs.World.Callers
import PeerCall.Proofs.World.Ledger

/-! # A channel and its user

The user of a channel starts calls on it, any number of them and by any clients, and receives the
calls that are handed back, in any order with what the tasks of the world do (`Desk.run?`). The user
may keep the calls that were received, copies of the sending side and permits, and may stop
receiving. What is kept by every move (`Desk.Kept`) says where each call is that was started. -/

namespace PeerCall

/-- A channel, what its user has done with it, and what was done on it. -/
structure Desk where
  world : World
  channel : Nat
  /-- The calls that were started on the channel, each with the task that drives it. -/
  started : List (Nat × Call) := []
  /-- Those that are done, as they are then. -/
  done : List (Nat × Call) := []
  /-- Those that were handed to the channel. -/
  handed : List (Nat × Call) := []
  /-- The tasks that ended without their calls being done. -/
  lost : List Nat := []
  received : List Call := []
  /-- How many of the calls that were received the user still has. -/
  kept : Nat := 0
  /-- How often the user has the sending side. -/
  senders : Nat := 0
  /-- How many permits the user keeps. -/
  slots : Nat := 0

namespace Desk

/-! ## Moves -/

inductive Move
  | world (mv : World.Move)
  | goWith (client : Client) (call : Call)
  | multiGo (client : Client) (f : World.Fan) (contexts : List Context) (dests : List PeerId)
      (replies : List f.replyType.Carrier) (channels : List Nat)
  | receive
  /-- Lets go of a call that was received. -/
  | letGo
  | addSender
  | dropSender
  | reserve
  | release
  /-- Stops receiving. -/
  | close

/-- A new channel in a world. -/
def ofWorld (w : World) (capacity senders : Nat) : Desk where
  world := (w.addChannel capacity senders).2
  channel := w.channels.length
  senders := senders

/-- The task at a place, if it drives a call of the channel. -/
def task? (d : Desk) (k : Nat) : Option CallTask :=
  match d.world.tasks[k]? with
  | some (.call channel c) => if channel = d.channel then some c else none
  | _ => none

/-- Whether the task at a place drives a call of the channel that is done, or one that is not. -/
def driven? (d : Desk) (k : Nat) : Option (Option Call) := (d.task? k).map CallTask.done?

/-- After a step of the task at a place has led to this world. -/
def stepped (d : Desk) (k : Nat) (w : World) : Desk :=
  let d' := { d with world := w }
  match d.driven? k, d'.driven? k with
  | some none, some (some c) => { d' with done := d.done ++ [(k, c)] }
  | some (some c), none => { d' with handed := d.handed ++ [(k, c)] }
  | some none, none => { d' with lost := d.lost ++ [k] }
  | _, _ => d'

def modify (d : Desk) (f : Channel Call → Channel Call) : Desk :=
  { d with world := d.world.modifyChannel d.channel f }

/-- After these calls were started, each on its channel, by tasks from a place on. -/
def begun (d : Desk) (w : World) (calls : List (Call × Nat)) : Desk :=
  { d with
    world := w
    started := d.started ++ (calls.zipIdx d.world.tasks.length).filterMap fun ((call, ch), k) =>
      if ch = d.channel then some (k, call) else none }

def move? (d : Desk) : Move → Option Desk
  | .world (.step k) => (d.world.step? k).map (d.stepped k)
  | .world mv => (d.world.move? mv).map fun w => { d with world := w }
  | .goWith client call =>
    match d.world.goWith client call d.channel with
    | .ok w => some (d.begun w [(call, d.channel)])
    | .error _ => none
  | .multiGo client f contexts dests replies channels =>
    match d.world.multiGo client f contexts dests replies channels with
    | .ok w => some (d.begun w ((((contexts.zip dests).zip replies).map fun ((c, p), r) =>
        f.call c p r).zip channels))
    | .error _ => none
  | .receive =>
    match (d.world.channels[d.channel]?).map Channel.receive with
    | some (.received c, ch) => some { d with
        world := { d.world with channels := d.world.channels.set d.channel ch }
        received := d.received ++ [c]
        kept := d.kept + 1 }
    | _ => none
  | .letGo =>
    if d.kept = 0 then none else some { d.modify Channel.dropSender with kept := d.kept - 1 }
  | .addSender =>
    if d.senders = 0 then none
    else some { d.modify Channel.addSender with senders := d.senders + 1 }
  | .dropSender =>
    if d.senders = 0 then none
    else some { d.modify Channel.dropSender with senders := d.senders - 1 }
  | .reserve =>
    if d.senders = 0 then none
    else
      match (d.world.channels[d.channel]?).bind Channel.reserve? with
      | some ch => some { d with
          world := { d.world with channels := d.world.channels.set d.channel ch.addSender }
          slots := d.slots + 1 }
      | none => none
  | .release =>
    if d.slots = 0 then none
    else some { d.modify fun ch => ch.release.dropSender with slots := d.slots - 1 }
  | .close => some (d.modify Channel.close)

def run? : List Move → Desk → Option Desk
  | [], d => some d
  | mv :: moves, d =>
    match d.move? mv with
    | none => none
    | some d => run? moves d

/-- The calls that are done and wait for room, each with its task. -/
def waiting (d : Desk) : List (Nat × Call) :=
  d.started.filterMap fun e => (d.driven? e.1).join.map (e.1, ·)

/-- What the tasks are at that are not over. -/
def busy (d : Desk) : List (Option Call) := d.started.filterMap fun e => d.driven? e.1

/-! ## The books -/

/-- Where the calls are that were started. -/
structure Booked (d : Desk) : Prop where
  keys : (d.started.map Prod.fst).Nodup
  below : ∀ e ∈ d.started, e.1 < d.world.tasks.length
  driving : ∀ k c, d.task? k = some c →
    c.Sound ∧ ∃ call, (k, call) ∈ d.started ∧ call.SameRequest c.call
  gone : ∀ e ∈ d.started, d.driven? e.1 = none → e.1 ∈ d.done.map Prod.fst ∨ e.1 ∈ d.lost
  undone : ∀ k, d.driven? k = some none → k ∉ d.done.map Prod.fst
  done : ∀ e ∈ d.done, ∃ call, (e.1, call) ∈ d.started ∧ call.SameRequest e.2
  doneKeys : (d.done.map Prod.fst).Nodup
  lost : ∀ k ∈ d.lost, k ∈ d.started.map Prod.fst ∧ d.driven? k = none ∧ k ∉ d.done.map Prod.fst
  settled : d.done.Perm (d.handed ++ d.waiting)

/-- Another world in which one task of the channel has become another, and all else is as before. -/
structure Turns (d : Desk) (k : Nat) (t : Option CallTask) (w : World) : Prop where
  task : ∀ j, { d with world := w }.task? j = if j = k then t else d.task? j
  length : d.world.tasks.length ≤ w.tasks.length

variable {d d' : Desk} {ch ch' : Channel Call} {capacity k : Nat} {w : World} {t : Option CallTask}
  {c : Call} {c₀ c₁ : CallTask}

theorem task?_eq_some_iff :
    d.task? k = some c₀ ↔ d.world.tasks[k]? = some (.call d.channel c₀) := by
  unfold task?
  split
  · rename_i ch c hc
    rw [hc]
    by_cases he : ch = d.channel <;> simp [he]
  · rename_i hne
    refine ⟨nofun, fun hc => absurd hc (hne _ _)⟩

theorem task?_of_ended (h : w.tasks[k]? = some .ended) : { d with world := w }.task? k = none := by
  simp only [task?, h]

theorem Turns.driven (h : d.Turns k t w) (j : Nat) :
    { d with world := w }.driven? j = if j = k then t.map CallTask.done? else d.driven? j := by
  rw [driven?, h.task]
  split <;> rfl

theorem driven?_eq_some (h : d.task? k = some c₀) : d.driven? k = some c₀.done? := by
  rw [driven?, h]
  rfl

theorem lt_of_driven? {x : Option Call} (h : d.driven? k = some x) : k < d.world.tasks.length := by
  obtain ⟨c, hc, -⟩ := Option.map_eq_some_iff.mp h
  exact (List.getElem?_eq_some_iff.mp (task?_eq_some_iff.mp hc)).1

/-- Tasks that are added leave those alone that there are. -/
theorem driven?_append {ts : List Task} (ht : w.tasks = d.world.tasks ++ ts)
    (hk : k < d.world.tasks.length) : { d with world := w }.driven? k = d.driven? k := by
  simp only [driven?, task?, ht, List.getElem?_append_left hk]

theorem driven?_congr (h : ∀ j, { d with world := w }.task? j = d.task? j) (j : Nat) :
    { d with world := w }.driven? j = d.driven? j := by
  rw [driven?, h, ← driven?]

/-- A task that is added and drives a call of another channel. -/
theorem task?_append_other {channel : Nat} (ht : w.tasks = d.world.tasks ++ [.call channel c₀])
    (hc : channel ≠ d.channel) (j : Nat) : { d with world := w }.task? j = d.task? j := by
  rcases Nat.lt_trichotomy j d.world.tasks.length with hj | rfl | hj
  · simp only [task?, ht, List.getElem?_append_left hj]
  · simp only [task?, ht, List.getElem?_concat_length, if_neg hc,
      List.getElem?_eq_none (Nat.le_refl _)]
  · have hlen : (d.world.tasks ++ [Task.call channel c₀]).length ≤ j := by
      rw [List.length_append]
      exact hj
    simp only [task?, ht, List.getElem?_eq_none hlen, List.getElem?_eq_none (Nat.le_of_lt hj)]

/-- A task is only lost in the step with which it ends. -/
theorem driven?_of_lost (h : (d.stepped k w).lost ≠ d.lost) :
    d.driven? k = some none ∧ { d with world := w }.driven? k = none := by
  unfold stepped at h
  dsimp only at h
  split at h
  · exact absurd rfl h
  · exact absurd rfl h
  · rename_i hbefore hafter
    exact ⟨hbefore, hafter⟩
  · exact absurd rfl h

/-! ## Starts -/

theorem begun_self (call : Call) : d.begun w [(call, d.channel)] =
    { d with world := w, started := d.started ++ [(d.world.tasks.length, call)] } := by
  simp [begun]

theorem begun_other {call : Call} {channel : Nat} (h : channel ≠ d.channel) :
    d.begun w [(call, channel)] = { d with world := w } := by
  simp [begun, h]

theorem begun_nil : d.begun d.world [] = d := by
  simp [begun]

theorem begun_cons {w₁ : World} {calls : List (Call × Nat)} (e : Call × Nat)
    (h : w₁.tasks.length = d.world.tasks.length + 1) :
    d.begun w (e :: calls) = (d.begun w₁ [e]).begun w calls := by
  obtain ⟨call, channel⟩ := e
  by_cases hc : channel = d.channel <;> simp [begun, h, hc, List.zipIdx_cons]

private theorem exists_perm_cons {l : List (Nat × Call)} (hl : (l.map Prod.fst).Nodup)
    (he : (k, c) ∈ l) : ∃ rest, l.Perm ((k, c) :: rest) ∧ ∀ e ∈ rest, e.1 ≠ k := by
  obtain ⟨front, back, rfl⟩ := List.append_of_mem he
  refine ⟨front ++ back, List.perm_middle, fun e he hk => ?_⟩
  have hperm : ((front ++ (k, c) :: back).map Prod.fst).Perm
      (k :: (front ++ back).map Prod.fst) := List.perm_middle.map Prod.fst
  refine (List.nodup_cons.mp (hperm.nodup_iff.mp hl)).1 ?_
  exact hk ▸ List.mem_map_of_mem he

namespace Booked

/-- Who waits with a call that is done. -/
theorem mem_waiting (h : d.Booked) (hk : d.driven? k = some (some c)) :
    k ∈ d.waiting.map Prod.fst := by
  obtain ⟨c₀, hc₀, -⟩ := Option.map_eq_some_iff.mp hk
  obtain ⟨-, call, hstarted, -⟩ := h.driving k c₀ hc₀
  refine List.mem_map.mpr ⟨(k, c), List.mem_filterMap.mpr ⟨_, hstarted, ?_⟩, rfl⟩
  simp [hk]

/-- What the tasks are at, all taken together, changes in one place. -/
theorem turned (h : d.Booked) (hk : d.task? k = some c₀) (ht : d.Turns k t w) :
    ∃ waiting busy,
      d.waiting.Perm ((c₀.done?.map (k, ·)).toList ++ waiting) ∧
      { d with world := w }.waiting.Perm
        (((t.bind CallTask.done?).map (k, ·)).toList ++ waiting) ∧
      d.busy.length = busy + 1 ∧ { d with world := w }.busy.length = busy + t.toList.length := by
  obtain ⟨-, call, hstarted, -⟩ := h.driving k c₀ hk
  obtain ⟨rest, hperm, hrest⟩ := exists_perm_cons h.keys hstarted
  have hsame (e : Nat × Call) (he : e ∈ rest) :
      { d with world := w }.driven? e.1 = d.driven? e.1 := by
    rw [ht.driven, if_neg (hrest e he)]
  have hself : { d with world := w }.driven? k = t.map CallTask.done? := by
    rw [ht.driven, if_pos rfl]
  refine ⟨rest.filterMap fun e => (d.driven? e.1).join.map (e.1, ·),
    (rest.filterMap fun e => d.driven? e.1).length, ?_, ?_, ?_, ?_⟩
  · refine (hperm.filterMap _).trans (.of_eq ?_)
    rw [List.filterMap_cons, driven?_eq_some hk]
    cases c₀.done? <;> rfl
  · refine (hperm.filterMap _).trans (.of_eq ?_)
    rw [List.filterMap_cons, hself, List.filterMap_congr fun e he => by rw [hsame e he]]
    cases t with
    | none => rfl
    | some c₁ => cases hc : c₁.done? <;> simp [hc]
  · rw [busy, (hperm.filterMap _).length_eq, List.filterMap_cons, driven?_eq_some hk]
    rfl
  · rw [busy, (hperm.filterMap _).length_eq, List.filterMap_cons, hself, List.filterMap_congr hsame]
    cases t <;> rfl

/-- A task that goes on with its call. -/
theorem driving_of_turns (h : d.Booked) (hk : d.task? k = some c₀) (ht : d.Turns k t w)
    (hsound : ∀ c₁, t = some c₁ → c₁.Sound ∧ c₀.call.SameRequest c₁.call) :
    ∀ j c, { d with world := w }.task? j = some c →
      c.Sound ∧ ∃ call, (j, call) ∈ d.started ∧ call.SameRequest c.call := by
  intro j c hj
  rw [ht.task] at hj
  split at hj
  · rename_i hjk
    subst hjk
    obtain ⟨-, call, hstarted, hsame⟩ := h.driving j c₀ hk
    obtain ⟨hc, hsame'⟩ := hsound c hj
    exact ⟨hc, call, hstarted, hsame.trans hsame'⟩
  · exact h.driving j c hj

theorem aside {calls : List Call} {kept senders slots : Nat} (h : d.Booked)
    (ht : ∀ j, { d with world := w }.task? j = d.task? j)
    (hlen : d.world.tasks.length ≤ w.tasks.length) :
    { d with world := w, received := calls, kept, senders, slots }.Booked := by
  have hdriven := funext (driven?_congr ht)
  have hwaiting : { d with world := w }.waiting = d.waiting := by rw [waiting, hdriven, waiting]
  exact {
    keys := h.keys
    below := fun e he => Nat.lt_of_lt_of_le (h.below e he) hlen
    driving := fun j c hj => h.driving j c (ht j ▸ hj)
    gone := hdriven ▸ h.gone
    undone := hdriven ▸ h.undone
    done := h.done
    doneKeys := h.doneKeys
    lost := hdriven ▸ h.lost
    settled := hwaiting ▸ h.settled }

/-- A call is worked on, and may be done with that. -/
theorem worked (h : d.Booked) (hk : d.task? k = some c₀) (ho : c₀.done? = none)
    (ht : d.Turns k (some c₁) w) (hs : c₁.Sound) (hr : c₀.call.SameRequest c₁.call) :
    ∃ l, d.stepped k w = { d with world := w, done := l } ∧
      { d with world := w, done := l }.Booked := by
  have hdriving := h.driving_of_turns hk ht fun c₂ h₂ => by
    cases h₂
    exact ⟨hs, hr⟩
  have hnew : k ∉ d.done.map Prod.fst := h.undone k (by rw [driven?_eq_some hk, ho])
  have hunlost : k ∉ d.lost := fun hl => by
    have hover := (h.lost k hl).2.1
    rw [driven?_eq_some hk] at hover
    cases hover
  have hself : { d with world := w }.driven? k = some c₁.done? := by
    rw [ht.driven, if_pos rfl]
    rfl
  have hother (j : Nat) (hj : j ≠ k) : { d with world := w }.driven? j = d.driven? j := by
    rw [ht.driven, if_neg hj]
  obtain ⟨waiting, busy, hw, hw', -, -⟩ := h.turned hk ht
  rw [ho] at hw
  have hover (e : Nat × Call) (he : e ∈ d.started) (hn : { d with world := w }.driven? e.1 = none) :
      e.1 ∈ d.done.map Prod.fst ∨ e.1 ∈ d.lost := by
    have hek : e.1 ≠ k := by
      rintro rfl
      cases hself.symm.trans hn
    exact h.gone e he (hother _ hek ▸ hn)
  have hlost (j : Nat) (hj : j ∈ d.lost) : j ≠ k := by
    rintro rfl
    exact hunlost hj
  unfold stepped
  rw [driven?_eq_some hk, ho]
  cases hd : c₁.done? with
  | none =>
    rw [hd] at hself
    rw [Option.bind_some, hd] at hw'
    refine ⟨d.done, by simp only [hself], ?_⟩
    exact {
      keys := h.keys
      below := fun e he => Nat.lt_of_lt_of_le (h.below e he) ht.length
      driving := hdriving
      gone := hover
      undone := fun j hj => by
        by_cases hjk : j = k
        · exact hjk ▸ hnew
        · exact h.undone j (hother j hjk ▸ hj)
      done := h.done
      doneKeys := h.doneKeys
      lost := fun j hj => hother j (hlost j hj) ▸ h.lost j hj
      settled := h.settled.trans ((hw.trans hw'.symm).append_left _) }
  | some c =>
    rw [hd] at hself
    rw [Option.bind_some, hd] at hw'
    refine ⟨d.done ++ [(k, c)], by simp only [hself], ?_⟩
    have hcall : c₁.call = c := by
      cases c₁ <;> cases hd
      rfl
    obtain ⟨-, call, hstarted, hsame⟩ := h.driving k c₀ hk
    exact {
      keys := h.keys
      below := fun e he => Nat.lt_of_lt_of_le (h.below e he) ht.length
      driving := hdriving
      gone := fun e he hn => by
        rw [List.map_append, List.mem_append, or_right_comm]
        exact .inl (hover e he hn)
      undone := fun j hj => by
        have hjk : j ≠ k := by
          rintro rfl
          cases hself.symm.trans hj
        rw [List.map_append, List.mem_append, not_or]
        exact ⟨h.undone j (hother j hjk ▸ hj), by simpa using hjk⟩
      done := fun e he => by
        rcases List.mem_append.mp he with he | he
        · exact h.done e he
        · cases List.mem_singleton.mp he
          exact ⟨call, hstarted, hcall ▸ hsame.trans hr⟩
      doneKeys := by
        rw [List.map_append]
        refine List.nodup_append.mpr ⟨h.doneKeys, List.nodup_singleton k, ?_⟩
        rintro j hj _ (_ | ⟨_, ⟨⟩⟩) rfl
        exact hnew hj
      lost := fun j hj => by
        obtain ⟨hs, hd, hn⟩ := h.lost j hj
        rw [List.map_append, List.mem_append, not_or]
        exact ⟨hs, (hother j (hlost j hj)).trans hd, hn, by simpa using hlost j hj⟩
      settled := by
        have hbefore : (d.done ++ [(k, c)]).Perm ((k, c) :: (d.handed ++ waiting)) :=
          (List.perm_append_singleton ..).trans (.cons _ (h.settled.trans (hw.append_left _)))
        have hafter : ((k, c) :: (d.handed ++ waiting)).Perm
            (d.handed ++ { d with world := w }.waiting) :=
          List.perm_middle.symm.trans (hw'.symm.append_left _)
        exact hbefore.trans hafter }

/-- A task is over. -/
private theorem over_of_turns {gone : List Nat} (h : d.Booked) (ht : d.Turns k none w)
    (hk : k ∈ d.done.map Prod.fst ∨ k ∈ gone) (hgone : d.lost ⊆ gone) :
    ∀ e ∈ d.started, { d with world := w }.driven? e.1 = none →
      e.1 ∈ d.done.map Prod.fst ∨ e.1 ∈ gone := by
  intro e he hn
  by_cases hek : e.1 = k
  · exact hek ▸ hk
  · rw [ht.driven, if_neg hek] at hn
    exact (h.gone e he hn).imp_right (hgone ·)

private theorem undone_of_turns (h : d.Booked) (ht : d.Turns k none w) :
    ∀ j, { d with world := w }.driven? j = some none → j ∉ d.done.map Prod.fst := by
  intro j hj
  rw [ht.driven] at hj
  split at hj
  · cases hj
  · exact h.undone j hj

/-- A call that is done is handed to the channel. -/
theorem handed (h : d.Booked) (hk : d.task? k = some (.delivering c)) (ht : d.Turns k none w) :
    d.stepped k w = { d with world := w, handed := d.handed ++ [(k, c)] } ∧
      { d with world := w, handed := d.handed ++ [(k, c)] }.Booked := by
  have hself : { d with world := w }.driven? k = none := by rw [ht.driven, if_pos rfl]; rfl
  have heq : d.stepped k w = { d with world := w, handed := d.handed ++ [(k, c)] } := by
    unfold stepped
    rw [driven?_eq_some hk]
    simp only [hself, CallTask.done?]
  have hdriving := h.driving_of_turns hk ht fun _ hn => by cases hn
  obtain ⟨waiting, busy, hw, hw', -, -⟩ := h.turned hk ht
  have hsettled : d.done.Perm (d.handed ++ (k, c) :: waiting) :=
    h.settled.trans (hw.append_left _)
  have hdone : k ∈ d.done.map Prod.fst :=
    List.mem_map_of_mem (hsettled.mem_iff.mpr (List.mem_append_right _ (List.mem_cons_self ..)))
  refine ⟨heq, ?_⟩
  exact {
    keys := h.keys
    below := fun e he => Nat.lt_of_lt_of_le (h.below e he) ht.length
    driving := hdriving
    gone := h.over_of_turns ht (.inl hdone) (List.Subset.refl _)
    undone := h.undone_of_turns ht
    done := h.done
    doneKeys := h.doneKeys
    lost := fun j hj => by
      obtain ⟨hs, hd, hn⟩ := h.lost j hj
      refine ⟨hs, (ht.driven j).trans ?_, hn⟩
      split
      · rfl
      · exact hd
    settled := by
      have hmoved : (d.handed ++ (k, c) :: waiting).Perm ((d.handed ++ [(k, c)]) ++ waiting) :=
        .of_eq (by simp)
      exact hsettled.trans (hmoved.trans (hw'.symm.append_left _)) }

/-- A task ends without its call being done. -/
theorem lost_of_turns (h : d.Booked) (hk : d.task? k = some c₀) (ho : c₀.done? = none)
    (ht : d.Turns k none w) : d.stepped k w = { d with world := w, lost := d.lost ++ [k] } ∧
      { d with world := w, lost := d.lost ++ [k] }.Booked := by
  have hself : { d with world := w }.driven? k = none := by rw [ht.driven, if_pos rfl]; rfl
  have heq : d.stepped k w = { d with world := w, lost := d.lost ++ [k] } := by
    unfold stepped
    rw [driven?_eq_some hk, ho]
    simp only [hself]
  have hdriving := h.driving_of_turns hk ht fun _ hn => by cases hn
  obtain ⟨waiting, busy, hw, hw', -, -⟩ := h.turned hk ht
  rw [ho] at hw
  obtain ⟨-, call, hstarted, -⟩ := h.driving k c₀ hk
  refine ⟨heq, ?_⟩
  exact {
    keys := h.keys
    below := fun e he => Nat.lt_of_lt_of_le (h.below e he) ht.length
    driving := hdriving
    gone := h.over_of_turns ht (.inr (List.mem_append_right _ (List.mem_singleton_self k)))
      (List.subset_append_left ..)
    undone := h.undone_of_turns ht
    done := h.done
    doneKeys := h.doneKeys
    lost := fun j hj => by
      rcases List.mem_append.mp hj with hj | hj
      · obtain ⟨hs, hd, hn⟩ := h.lost j hj
        refine ⟨hs, (ht.driven j).trans ?_, hn⟩
        split
        · rfl
        · exact hd
      · cases List.mem_singleton.mp hj
        refine ⟨List.mem_map_of_mem hstarted, hself, ?_⟩
        exact h.undone k (by rw [driven?_eq_some hk, ho])
    settled := h.settled.trans ((hw.trans hw'.symm).append_left _) }

/-- A call that is handed to the channel is not driven any more. -/
theorem driven?_of_handed (h : d.Booked) (hk : k ∈ d.handed.map Prod.fst) : d.driven? k = none := by
  have hdone : (d.done.map Prod.fst).Perm (d.handed.map Prod.fst ++ d.waiting.map Prod.fst) :=
    List.map_append ▸ h.settled.map Prod.fst
  cases hd : d.driven? k with
  | none => rfl
  | some x =>
    cases x with
    | none => exact absurd (hdone.mem_iff.mpr (List.mem_append_left _ hk)) (h.undone k hd)
    | some c =>
      have hnodup := List.nodup_append.mp (hdone.nodup_iff.mp h.doneKeys)
      exact absurd rfl (hnodup.2.2 k hk k (h.mem_waiting hd))

/-- A call is started. -/
theorem begin (h : d.Booked) (hc : c₁.call = c ∧ c₁.done? = none ∧ c₁.Sound)
    (ht : w.tasks = d.world.tasks ++ [.call d.channel c₁]) :
    { d with world := w, started := d.started ++ [(d.world.tasks.length, c)] }.Booked ∧
      { d with world := w, started := d.started ++ [(d.world.tasks.length, c)] }.busy =
        d.busy ++ [none] := by
  obtain ⟨hcall, hopen, hsound⟩ := hc
  have hfresh : ∀ e ∈ d.started, e.1 ≠ d.world.tasks.length := fun e he =>
    Nat.ne_of_lt (h.below e he)
  have hold (j : Nat) (hj : j ≠ d.world.tasks.length) :
      { d with world := w }.task? j = d.task? j := by
    simp only [task?, ht]
    rcases Nat.lt_or_gt_of_ne hj with hj | hj
    · rw [List.getElem?_append_left hj]
    · rw [List.getElem?_eq_none (by simp; omega), List.getElem?_eq_none (by omega)]
  have hself : { d with world := w }.task? d.world.tasks.length = some c₁ := by
    simp only [task?, ht, List.getElem?_concat_length, if_true]
  have hnew : d.task? d.world.tasks.length = none := by
    simp only [task?, List.getElem?_eq_none (Nat.le_refl _)]
  have hdriven (j : Nat) (hj : j ≠ d.world.tasks.length) :
      { d with world := w }.driven? j = d.driven? j := by
    rw [driven?, hold j hj, ← driven?]
  have hundriven : d.driven? d.world.tasks.length = none := by
    rw [driven?, hnew]
    rfl
  have hbegun : { d with world := w }.driven? d.world.tasks.length = some none := by
    rw [driven?_eq_some hself, hopen]
  have hundone : d.world.tasks.length ∉ d.done.map Prod.fst := fun hm => by
    obtain ⟨e, he, hk⟩ := List.mem_map.mp hm
    obtain ⟨call, hstarted, -⟩ := h.done e he
    exact hfresh _ hstarted hk
  have hwaiting :
      { d with world := w, started := d.started ++ [(d.world.tasks.length, c)] }.waiting =
        d.waiting := by
    change (d.started ++ [(d.world.tasks.length, c)]).filterMap
      (fun e => ({ d with world := w }.driven? e.1).join.map (e.1, ·)) = _
    rw [List.filterMap_append,
      List.filterMap_congr fun e he => by rw [hdriven e.1 (hfresh e he)]]
    simp [hbegun, waiting]
  refine ⟨?_, ?_⟩
  · exact {
      keys := by
        rw [List.map_append]
        refine List.nodup_append.mpr ⟨h.keys, List.nodup_singleton _, ?_⟩
        rintro k hk _ (_ | ⟨_, ⟨⟩⟩) rfl
        obtain ⟨e, he, hk⟩ := List.mem_map.mp hk
        exact hfresh e he hk
      below := fun e he => by
        rw [ht, List.length_append, List.length_singleton]
        rcases List.mem_append.mp he with he | he
        · exact Nat.lt_succ_of_lt (h.below e he)
        · cases List.mem_singleton.mp he
          exact Nat.lt_succ_self _
      driving := fun j c' hj => by
        by_cases hjk : j = d.world.tasks.length
        · subst hjk
          cases hself.symm.trans hj
          exact ⟨hsound, c, List.mem_append_right _ (List.mem_singleton_self _), hcall ▸ .refl _⟩
        · obtain ⟨hs, call, hstarted, hsame⟩ := h.driving j c' ((hold j hjk).symm.trans hj)
          exact ⟨hs, call, List.mem_append_left _ hstarted, hsame⟩
      gone := fun e he hn => by
        rcases List.mem_append.mp he with he | he
        · exact h.gone e he ((hdriven e.1 (hfresh e he)).symm.trans hn)
        · cases List.mem_singleton.mp he
          cases hbegun.symm.trans hn
      undone := fun j hj => by
        by_cases hjk : j = d.world.tasks.length
        · exact hjk ▸ hundone
        · exact h.undone j ((hdriven j hjk).symm.trans hj)
      done := fun e he => by
        obtain ⟨call, hstarted, hsame⟩ := h.done e he
        exact ⟨call, List.mem_append_left _ hstarted, hsame⟩
      doneKeys := h.doneKeys
      lost := fun j hj => by
        obtain ⟨hs, hd, hn⟩ := h.lost j hj
        obtain ⟨e, he, rfl⟩ := List.mem_map.mp hs
        refine ⟨?_, (hdriven e.1 (hfresh e he)).trans hd, hn⟩
        rw [List.map_append]
        exact List.mem_append_left _ hs
      settled := hwaiting ▸ h.settled }
  · change (d.started ++ [(d.world.tasks.length, c)]).filterMap
      (fun e => { d with world := w }.driven? e.1) = _
    rw [List.filterMap_append, List.filterMap_congr fun e he => hdriven e.1 (hfresh e he)]
    simp [hbegun, busy]

end Booked

end Desk

end PeerCall
