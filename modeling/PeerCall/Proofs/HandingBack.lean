import PeerCall.Proofs.Desk
import PeerCall.Proofs.Heeding

/-! # Calls that are handed back

Each call that is done on a channel is handed back once, as long as somebody receives
(`Desk.handed_back_once`). The end of the channel is told when nobody holds its sending side:
neither a task nor the user, and no call that was received either (`Desk.ended_iff`). -/

namespace PeerCall

namespace World

/-- A step of a task turns at most the call that the task itself drives. -/
theorem Steps.turns {d : Desk} {w : World} {k : Nat} (h : Steps d.world k w) :
    d.Turns k ({ d with world := w }.task? k) w where
  task j := by
    split
    · rename_i hj
      rw [hj]
    · rename_i hj
      refine Option.ext fun c => ?_
      rw [Desk.task?_eq_some_iff, Desk.task?_eq_some_iff]
      refine ⟨fun ht => ?_, fun ht => h.task ht hj⟩
      obtain ⟨c', ht'⟩ := h.caller ht
      exact (h.task ht' hj).symm.trans ht ▸ ht'
  length := h.length_tasks

/-- Starting a call adds a task, and a sender to its channel. -/
theorem start_eq_ok {w w' : World} {client : Client} {call : Call} {channel : Nat}
    (h : w.start client call channel = .ok w') :
    ∃ c, (c.call = call ∧ c.done? = none ∧ c.Sound) ∧
      w' = (w.modifyChannel channel Channel.addSender).spawn (.call channel c) := by
  unfold start at h
  split at h <;> cases h
  exact ⟨_, taskOf_eq_ok ‹_›, rfl⟩

end World

namespace Desk

variable {d d' : Desk} {ch ch' : Channel Call} {capacity k : Nat} {w : World} {c : Call}
  {c₀ c₁ : CallTask} {t : Option CallTask}

/-- How it stands with a channel, whatever its user and the tasks have done. -/
structure Kept (capacity : Nat) (d : Desk) (ch : Channel Call) : Prop where
  there : d.world.channels[d.channel]? = some ch
  booked : d.Booked
  orderly : ch.Orderly
  permits : ch.permits + d.slots = capacity
  asking : ∀ k ∈ ch.asking, ∃ c, d.driven? k = some (some c)
  queued : ch.receiving = true → d.handed.map Prod.snd = d.received ++ ch.queue
  received : d.received <+: d.handed.map Prod.snd
  /-- All who hold the sending side. -/
  senders : ch.senders = d.senders + d.slots + d.busy.length + ch.queue.length + d.kept

namespace Kept

/-! ## Steps of tasks -/

theorem aside (h : d.Kept capacity ch) (hs : World.Steps d.world k w) (hk : d.task? k = none) :
    (d.stepped k w).Kept capacity ch := by
  have hnone : ∀ c, d.world.tasks[k]? ≠ some (.call d.channel c) := fun c hc => by
    rw [task?_eq_some_iff.mpr hc] at hk
    cases hk
  have hsame (j : Nat) : { d with world := w }.task? j = d.task? j := by
    rw [hs.turns.task]
    split
    · rename_i hj
      rw [hj, hk, Option.eq_none_iff_forall_ne_some]
      intro c hc
      obtain ⟨c', hc'⟩ := hs.caller (task?_eq_some_iff.mp hc)
      exact hnone c' hc'
    · rfl
  have hdriven := funext (driven?_congr hsame)
  have hstepped : d.stepped k w = { d with world := w } := by
    unfold stepped
    rw [driven?, hk]
    rfl
  rw [hstepped]
  exact {
    there := (hs.aside hnone).trans h.there
    booked := h.booked.aside hsame hs.length_tasks
    orderly := h.orderly
    permits := h.permits
    asking := hdriven ▸ h.asking
    queued := h.queued
    received := h.received
    senders := by
      have hbusy : { d with world := w }.busy = d.busy := by rw [busy, hdriven, busy]
      rw [hbusy]
      exact h.senders }

/-- Who does not wait with a call that is done does not ask for a permit, and the others ask as
before. -/
theorem asking_of_turns (h : d.Kept capacity ch) (ch' : Channel Call) (ht : d.Turns k t w)
    (hk : ∀ j ∈ ch'.asking, j = k → ∃ c, t = some (.delivering c))
    (hsub : ∀ j ∈ ch'.asking, j ≠ k → j ∈ ch.asking) :
    ∀ j ∈ ch'.asking, ∃ c, { d with world := w }.driven? j = some (some c) := by
  intro j hj
  by_cases hjk : j = k
  · obtain ⟨c, rfl⟩ := hk j hj hjk
    exact ⟨c, (ht.driven j).trans (if_pos hjk)⟩
  · obtain ⟨c, hc⟩ := h.asking j (hsub j hj hjk)
    exact ⟨c, (ht.driven j).trans ((if_neg hjk).trans hc)⟩

/-- A task whose call is not done asks for no permit. -/
theorem not_asking (h : d.Kept capacity ch) (hk : d.task? k = some c₀) (ho : c₀.done? = none) :
    k ∉ ch.asking := fun ha => by
  obtain ⟨c, hc⟩ := h.asking k ha
  rw [driven?_eq_some hk, ho] at hc
  cases hc

/-- How many hold the sending side after a task has gone on, or is over. -/
theorem senders_of_turns (h : d.Kept capacity ch) (hk : d.task? k = some c₀) (ht : d.Turns k t w) :
    ch.senders + t.toList.length =
      d.senders + d.slots + { d with world := w }.busy.length + ch.queue.length + d.kept + 1 := by
  obtain ⟨-, busy, -, -, hb, hb'⟩ := h.booked.turned hk ht
  have := h.senders
  omega

theorem worked (h : d.Kept capacity ch) (hk : d.task? k = some c₀) (ho : c₀.done? = none)
    (ht : d.Turns k (some c₁) w) (hs : c₁.Sound) (hr : c₀.call.SameRequest c₁.call)
    (hc : w.channels = d.world.channels) : (d.stepped k w).Kept capacity ch := by
  obtain ⟨dones, hstepped, hbooked⟩ := h.booked.worked hk ho ht hs hr
  have hnot := h.not_asking hk ho
  have hasking := h.asking_of_turns ch ht (fun j hj hjk => absurd (hjk ▸ hj) hnot)
    fun j hj _ => hj
  have hsenders := h.senders_of_turns hk ht
  rw [hstepped]
  exact {
    there := hc ▸ h.there
    booked := hbooked
    orderly := h.orderly
    permits := h.permits
    asking := hasking
    queued := h.queued
    received := h.received
    senders := Nat.succ.inj hsenders }

/-- A task that ends without its call being done only lets its sender go. -/
theorem lost_of_turns (h : d.Kept capacity ch) (hk : d.task? k = some c₀) (ho : c₀.done? = none)
    (ht : d.Turns k none w)
    (hc : w.channels = d.world.channels.modify d.channel Channel.dropSender) :
    (d.stepped k w).Kept capacity ch.dropSender := by
  obtain ⟨hstepped, hbooked⟩ := h.booked.lost_of_turns hk ho ht
  have hnot := h.not_asking hk ho
  have hasking := h.asking_of_turns ch.dropSender ht
    (fun j hj hjk => absurd (hjk ▸ hj) hnot) fun j hj _ => hj
  have hsenders := h.senders_of_turns hk ht
  rw [hstepped]
  exact {
    there := by rw [hc, List.getElem?_modify_eq, h.there]; rfl
    booked := hbooked
    orderly := ⟨h.orderly.idle, h.orderly.nodup, h.orderly.closed⟩
    permits := h.permits
    asking := hasking
    queued := h.queued
    received := h.received
    senders := Nat.sub_eq_of_eq_add hsenders }

theorem handed_of_sent (h : d.Kept capacity ch) (hk : d.task? k = some (.delivering c))
    (ht : d.Turns k none w) (hs : ch.Sent k c true ch')
    (hc : w.channels = d.world.channels.set d.channel ch') : (d.stepped k w).Kept capacity ch' := by
  obtain ⟨hstepped, hbooked⟩ := h.booked.handed hk ht
  have hmem (j : Nat) : j ∈ ch'.asking ↔ j ∈ ch.asking ∧ j ≠ k := hs.mem_asking h.orderly
  have hasking := h.asking_of_turns ch' ht
    (fun j hj hjk => absurd hjk ((hmem j).mp hj).2) fun j hj _ => ((hmem j).mp hj).1
  have hsenders := h.senders_of_turns hk ht
  rw [hstepped]
  exact {
    there := by
      rw [hc, List.getElem?_set_self (List.getElem?_eq_some_iff.mp h.there).1]
    booked := hbooked
    orderly := hs.orderly h.orderly
    permits := hs.permits ▸ h.permits
    asking := hasking
    queued := fun hr => by
      rw [hs.receiving] at hr
      rw [List.map_append, h.queued hr, hs.queue, if_pos ⟨hr, rfl⟩, List.append_assoc]
      rfl
    received := by
      rw [List.map_append]
      exact h.received.trans (List.prefix_append ..)
    senders := by
      change ch'.senders =
        d.senders + d.slots + { d with world := w }.busy.length + ch'.queue.length + d.kept
      rw [hs.senders, hs.queue]
      simp only [Option.toList_none, List.length_nil] at hsenders
      cases ch.receiving with
      | true =>
        simp only [and_self, if_true, List.length_append, List.length_singleton]
        omega
      | false =>
        simp only [Bool.false_eq_true, false_and, if_false]
        omega }

theorem lined_of_sent (h : d.Kept capacity ch) (hk : d.task? k = some (.delivering c))
    (ht : d.Turns k (some (.delivering c)) w) (hs : ch.Sent k c false ch')
    (hc : w.channels = d.world.channels.set d.channel ch') :
    (d.stepped k w).Kept capacity ch' := by
  have hmem (j : Nat) : j ∈ ch'.asking ↔ j ∈ ch.asking ∨ j = k := hs.mem_asking h.orderly
  have hasking := h.asking_of_turns ch' ht (fun j _ _ => ⟨c, rfl⟩)
    fun j hj hjk => ((hmem j).mp hj).resolve_right hjk
  have hsame (j : Nat) : { d with world := w }.task? j = d.task? j := by
    rw [ht.task]
    split
    · rename_i hj
      rw [hj, hk]
    · rfl
  have hsenders := h.senders_of_turns hk ht
  have hself : { d with world := w }.driven? k = some (some c) :=
    driven?_eq_some ((hsame k).trans hk)
  have hstepped : d.stepped k w = { d with world := w } := by
    unfold stepped
    rw [driven?_eq_some hk]
    simp only [hself, CallTask.done?]
  rw [hstepped]
  exact {
    there := by
      rw [hc, List.getElem?_set_self (List.getElem?_eq_some_iff.mp h.there).1]
    booked := h.booked.aside hsame ht.length
    orderly := hs.orderly h.orderly
    permits := hs.permits ▸ h.permits
    asking := hasking
    queued := fun hr => by
      rw [h.queued (hs.receiving ▸ hr), hs.queue]
      simp
    received := h.received
    senders := by
      change ch'.senders =
        d.senders + d.slots + { d with world := w }.busy.length + ch'.queue.length + d.kept
      cases hs
      exact Nat.succ.inj hsenders }

/-- What a step of a task does to a channel. -/
theorem step (h : d.Kept capacity ch) (hs : World.Steps d.world k w) :
    ∃ ch', (d.stepped k w).Kept capacity ch' := by
  cases hk : d.task? k with
  | none => exact ⟨ch, h.aside hs hk⟩
  | some c₀ =>
    have hi := task?_eq_some_iff.mp hk
    have ht := hs.turns
    cases hs.drives hi (h.booked.driving k c₀ hk).1 with
    | worked ho ht' hsound hr hc =>
      rw [task?_eq_some_iff.mpr ht'] at ht
      exact ⟨ch, h.worked hk ho ht hsound hr hc⟩
    | lost _ ht' hw =>
      rw [task?_of_ended ht'] at ht
      exact ⟨_, h.lost_of_turns hk rfl ht (hw ▸ rfl)⟩
    | handed ht' hch hsent hc =>
      rw [task?_of_ended ht'] at ht
      cases h.there.symm.trans hch
      exact ⟨_, h.handed_of_sent hk ht hsent hc⟩
    | lined ht' hch hsent hc =>
      rw [task?_eq_some_iff.mpr ht'] at ht
      cases h.there.symm.trans hch
      exact ⟨_, h.lined_of_sent hk ht hsent hc⟩

/-! ## Starts -/

theorem start {client : Client} {call : Call} {channel : Nat} (h : d.Kept capacity ch)
    (hs : d.world.start client call channel = .ok w) :
    ∃ ch', (d.begun w [(call, channel)]).Kept capacity ch' := by
  obtain ⟨c, hc, rfl⟩ := World.start_eq_ok hs
  by_cases hch : channel = d.channel
  · subst hch
    obtain ⟨hbooked, hbusy⟩ := h.booked.begin
      (w := (d.world.modifyChannel d.channel Channel.addSender).spawn (.call d.channel c)) hc rfl
    have hasking (j : Nat) (hj : j ∈ ch.asking) : ∃ c', { d with
        world := (d.world.modifyChannel d.channel Channel.addSender).spawn (.call d.channel c)
        }.driven? j = some (some c') := by
      obtain ⟨c', hc'⟩ := h.asking j hj
      refine ⟨c', ?_⟩
      rw [← hc']
      exact driven?_append rfl (lt_of_driven? hc')
    refine ⟨ch.addSender, ?_⟩
    rw [begun_self]
    exact {
      there := (List.getElem?_modify_eq ..).trans (congrArg _ h.there)
      booked := hbooked
      orderly := ⟨h.orderly.idle, h.orderly.nodup, h.orderly.closed⟩
      permits := h.permits
      asking := hasking
      queued := h.queued
      received := h.received
      senders := by
        rw [hbusy, List.length_append, List.length_singleton]
        change ch.senders + 1 =
          d.senders + d.slots + (d.busy.length + 1) + ch.queue.length + d.kept
        have := h.senders
        omega }
  · have htasks : ((d.world.modifyChannel channel Channel.addSender).spawn
        (.call channel c)).tasks = d.world.tasks ++ [.call channel c] := rfl
    have hsame := task?_append_other htasks hch
    have hlength : d.world.tasks.length ≤ (d.world.tasks ++ [Task.call channel c]).length := by
      rw [List.length_append]
      exact Nat.le_add_right ..
    have hdriven := funext (driven?_congr hsame)
    refine ⟨ch, ?_⟩
    rw [begun_other hch]
    exact {
      there := (List.getElem?_modify_ne _ _ hch).trans h.there
      booked := h.booked.aside hsame hlength
      orderly := h.orderly
      permits := h.permits
      asking := hdriven ▸ h.asking
      queued := h.queued
      received := h.received
      senders := by
        rw [busy, hdriven]
        exact h.senders }

theorem startAll {client : Client} {calls : List (Call × Nat)} (h : d.Kept capacity ch)
    (hs : d.world.startAll client calls = .ok w) : ∃ ch', (d.begun w calls).Kept capacity ch' := by
  induction calls generalizing d ch with
  | nil =>
    cases hs
    refine ⟨ch, ?_⟩
    rwa [begun_nil]
  | cons e calls ih =>
    rw [World.startAll] at hs
    split at hs
    · cases hs
    · rename_i w₁ hw₁
      obtain ⟨ch₁, h₁⟩ := h.start hw₁
      obtain ⟨c, -, rfl⟩ := World.start_eq_ok hw₁
      have hlength : ((d.world.modifyChannel e.2 Channel.addSender).spawn
          (.call e.2 c)).tasks.length = d.world.tasks.length + 1 := List.length_append ..
      rw [begun_cons e hlength]
      exact ih h₁ hs

/-! ## What the user does -/

/-- The user does something with the channel; the tasks stay as they are. -/
theorem used {calls : List Call} {kept senders slots : Nat} (h : d.Kept capacity ch)
    (htasks : w.tasks = d.world.tasks) (hthere : w.channels[d.channel]? = some ch')
    (ho : ch'.Orderly) (hp : ch'.permits + slots = capacity) (ha : ch'.asking ⊆ ch.asking)
    (hq : ch'.receiving = true →
      ch.receiving = true ∧ d.received ++ ch.queue = calls ++ ch'.queue)
    (hr : calls <+: d.handed.map Prod.snd)
    (hs : ch'.senders = senders + slots + d.busy.length + ch'.queue.length + kept) :
    Kept capacity { d with world := w, received := calls, kept, senders, slots } ch' := by
  have hsame (j : Nat) : { d with world := w }.task? j = d.task? j := by
    simp only [task?, htasks]
  have hdriven := funext (driven?_congr hsame)
  have hasking : ∀ k ∈ ch'.asking, ∃ c, { d with world := w }.driven? k = some (some c) :=
    hdriven ▸ fun k hk => h.asking k (ha hk)
  have hbusy : { d with world := w }.busy = d.busy := by rw [busy, hdriven, busy]
  exact {
    there := hthere
    booked := h.booked.aside hsame (Nat.le_of_eq (congrArg _ htasks.symm))
    orderly := ho
    permits := hp
    asking := hasking
    queued := fun hr' => (h.queued (hq hr').1).trans (hq hr').2
    received := hr
    senders := hbusy ▸ hs }

/-- What was done with a channel, and what the user did or did not do of it, does not depend on the
time. -/
theorem later (h : d.Kept capacity ch) (m : Moment) :
    Kept capacity { d with world := { d.world with moment := m } } ch :=
  h.used rfl h.there h.orderly h.permits (List.Subset.refl _) (fun hr => ⟨hr, rfl⟩) h.received
    h.senders

theorem move (h : d.Kept capacity ch) (hm : d.move? mv = some d') :
    ∃ ch', d'.Kept capacity ch' := by
  have hset (ch' : Channel Call) : (d.world.channels.set d.channel ch')[d.channel]? = some ch' :=
    List.getElem?_set_self (List.getElem?_eq_some_iff.mp h.there).1
  have hmodify (f : Channel Call → Channel Call) :
      (d.world.channels.modify d.channel f)[d.channel]? = some (f ch) :=
    (List.getElem?_modify_eq ..).trans (congrArg _ h.there)
  have hsenders := h.senders
  have hpermits := h.permits
  have horderly (n : Nat) : Channel.Orderly { ch with senders := n } :=
    ⟨h.orderly.idle, h.orderly.nodup, h.orderly.closed⟩
  cases mv with
  | world mv =>
    cases mv with
    | step k =>
      obtain ⟨w, hw, rfl⟩ := Option.map_eq_some_iff.mp hm
      exact h.step (World.steps_of_step? hw)
    | clock now =>
      obtain ⟨w, hw, rfl⟩ := Option.map_eq_some_iff.mp hm
      simp only [World.move?] at hw
      split at hw <;> cases hw
      exact ⟨ch, h.later _⟩
    | fire t =>
      cases hm
      exact ⟨ch, h.later _⟩
  | goWith client call =>
    simp only [move?] at hm
    split at hm <;> cases hm
    rename_i hw
    unfold World.goWith at hw
    split at hw
    · exact h.start hw
    · cases hw
  | multiGo client f contexts dests replies channels =>
    simp only [move?] at hm
    split at hm <;> cases hm
    rename_i hw
    unfold World.multiGo at hw
    split at hw
    · cases hw
    · split at hw
      · cases hw
      · split at hw
        · cases hw
        · exact h.startAll hw
  | receive =>
    simp only [move?, h.there, Option.map_some] at hm
    split at hm <;> cases hm
    rename_i c ch' hr
    obtain ⟨rest, hq, rfl⟩ := Channel.receive_eq_received (Option.some.inj hr)
    have hreceiving : ch.receiving = true := by
      by_contra hn
      have hnil := (h.orderly.closed (by simpa using hn)).1
      rw [hq] at hnil
      cases hnil
    have hqueued := h.queued hreceiving
    rw [hq] at hqueued hsenders
    refine ⟨_, h.used rfl (hset _) (h.orderly.dequeue hq) ?_ ?_ (fun _ => ⟨hreceiving, ?_⟩) ?_ ?_⟩
    · rw [Channel.permits_release, ← hpermits]
      simp only [Channel.permits, hq, List.length_cons]
      omega
    · exact (Channel.asking_release _).subset
    · simp [hq]
    · exact ⟨rest, by simp [hqueued]⟩
    · simp only [Channel.senders_release, Channel.queue_release, List.length_cons] at hsenders ⊢
      omega
  | letGo =>
    simp only [move?] at hm
    split at hm <;> cases hm
    refine ⟨_, h.used rfl (hmodify _) (horderly _) hpermits (List.Subset.refl _)
      (fun hr => ⟨hr, rfl⟩) h.received ?_⟩
    simp only [modify, Channel.dropSender]
    omega
  | addSender =>
    simp only [move?] at hm
    split at hm <;> cases hm
    refine ⟨_, h.used rfl (hmodify _) (horderly _) hpermits (List.Subset.refl _)
      (fun hr => ⟨hr, rfl⟩) h.received ?_⟩
    simp only [modify, Channel.addSender]
    omega
  | dropSender =>
    simp only [move?] at hm
    split at hm <;> cases hm
    refine ⟨_, h.used rfl (hmodify _) (horderly _) hpermits (List.Subset.refl _)
      (fun hr => ⟨hr, rfl⟩) h.received ?_⟩
    simp only [modify, Channel.dropSender]
    omega
  | reserve =>
    simp only [move?, h.there, Option.bind_some] at hm
    split at hm
    · cases hm
    · split at hm <;> cases hm
      rename_i ch' hr
      obtain ⟨hfree, rfl⟩ := Channel.reserve?_eq_some hr
      refine ⟨_, h.used rfl (hset _) ⟨?_, h.orderly.nodup, h.orderly.closed⟩ ?_
        (List.Subset.refl _) (fun hr => ⟨hr, rfl⟩) h.received ?_⟩
      · exact fun hw => absurd (h.orderly.idle hw) hfree
      · simp only [Channel.permits, Channel.addSender] at hpermits ⊢
        omega
      · simp only [Channel.addSender]
        omega
  | release =>
    simp only [move?] at hm
    split at hm <;> cases hm
    have hreleased := h.orderly.release
    refine ⟨_, h.used rfl (hmodify _) ⟨hreleased.idle, hreleased.nodup, hreleased.closed⟩ ?_
      (Channel.asking_release ch).subset (fun hr => ⟨?_, ?_⟩) h.received ?_⟩
    · have hone := Channel.permits_release ch
      simp only [Channel.permits, Channel.dropSender] at hone hpermits ⊢
      omega
    · simpa [Channel.dropSender] using hr
    · simp [modify, Channel.dropSender]
    · simp only [modify, Channel.dropSender, Channel.senders_release, Channel.queue_release]
      omega
  | close =>
    cases hm
    refine ⟨_, h.used rfl (hmodify _) ⟨fun hw => absurd rfl hw, ?_, fun _ => ⟨rfl, rfl⟩⟩ ?_ ?_
      (fun hr => by cases hr) h.received ?_⟩
    · exact (List.nodup_append.mp h.orderly.nodup).2.1
    · simp only [Channel.permits, Channel.close, List.length_nil] at hpermits ⊢
      omega
    · exact List.subset_append_right ..
    · simp only [Channel.close, List.length_nil]
      omega

end Kept

theorem kept_ofWorld {senders : Nat} (w : World)
    (hw : ∀ (k : Nat) (c : CallTask), w.tasks[k]? ≠ some (Task.call w.channels.length c)) :
    (ofWorld w capacity senders).Kept capacity (Channel.ofCapacity capacity senders) := by
  have hnone (k : Nat) : (ofWorld w capacity senders).task? k = none :=
    Option.eq_none_iff_forall_ne_some.mpr fun c hc => hw k c (task?_eq_some_iff.mp hc)
  exact {
    there := List.getElem?_concat_length ..
    booked := {
      keys := List.nodup_nil
      below := fun _ he => by cases he
      driving := fun k c hc => by
        rw [hnone] at hc
        cases hc
      gone := fun _ he => by cases he
      undone := fun _ _ => List.not_mem_nil
      done := fun _ he => by cases he
      doneKeys := List.nodup_nil
      lost := fun _ he => by cases he
      settled := .refl _ }
    orderly := Channel.orderly_ofCapacity ..
    permits := rfl
    asking := fun _ hj => by cases hj
    queued := fun _ => rfl
    received := List.prefix_refl _
    senders := rfl }

theorem kept_of_run? {moves : List Move} (h : d.Kept capacity ch) (hrun : run? moves d = some d') :
    ∃ ch', d'.Kept capacity ch' := by
  induction moves generalizing d ch with
  | nil =>
    cases hrun
    exact ⟨ch, h⟩
  | cons mv moves ih =>
    rw [run?] at hrun
    split at hrun
    · cases hrun
    · obtain ⟨ch₁, h₁⟩ := h.move ‹_›
      exact ih h₁ hrun

/-! ## Handed back once -/

/-- What is so of the calls of a channel at any time. -/
structure HandedBack (capacity : Nat) (d : Desk) (ch : Channel Call) : Prop where
  bounded : ch.queue.length ≤ capacity
  /-- No task hands anything to the channel twice. -/
  once : (d.handed.map Prod.fst).Nodup
  /-- What is done, and so what is handed to the channel, is what was started. -/
  unaltered : ∀ e ∈ d.done, ∃ call, (e.1, call) ∈ d.started ∧ call.SameRequest e.2
  done : ∀ e ∈ d.handed, e ∈ d.done
  received : d.received <+: d.handed.map Prod.snd
  accounted : ∀ e ∈ d.started,
    d.driven? e.1 = some none ∨ e.1 ∈ d.done.map Prod.fst ∨ e.1 ∈ d.lost
  complete : ch.receiving = true →
    (d.done.map Prod.snd).Perm (d.received ++ ch.queue ++ d.waiting.map Prod.snd)
  /-- Where there is room, somebody who waits for it can go on. -/
  flowing : ch.receiving = true → d.slots = 0 → ch.queue = [] → d.waiting ≠ [] →
    ∃ e ∈ d.waiting, (d.world.step? e.1).isSome = true
  lost : ∀ k ∈ d.lost, k ∉ d.done.map Prod.fst
  /-- A task that is lost takes nothing with it but its hold of the sending side. -/
  alone : ∀ k d', d.move? (.world (.step k)) = some d' → d'.lost ≠ d.lost →
    (∃ call codec v, d.world.tasks[k]? = some (.call d.channel (.serving call codec v)) ∧
      v.step? d.world.moment = some (.done .crashed)) ∧
    d' = { d with
      world := (d.world.modifyChannel d.channel Channel.dropSender).setTask k .ended
      lost := d.lost ++ [k] }
  /-- Where nobody receives any more, nobody waits. -/
  unhindered : ch.receiving = false → ∀ e ∈ d.waiting,
    ∃ w, d.world.step? e.1 = some w ∧ w.tasks[e.1]? = some .ended

theorem task?_of_mem_waiting {e : Nat × Call} (he : e ∈ d.waiting) :
    d.world.tasks[e.1]? = some (.call d.channel (.delivering e.2)) := by
  obtain ⟨e', -, he'⟩ := List.mem_filterMap.mp he
  obtain ⟨c, hc, rfl⟩ := Option.map_eq_some_iff.mp he'
  obtain ⟨c₀, hc₀, hdone⟩ := Option.map_eq_some_iff.mp (Option.join_eq_some_iff.mp hc)
  cases c₀ <;> cases hdone
  exact task?_eq_some_iff.mp hc₀

/-- A call that is done and cannot go on stands in line for a permit. -/
theorem Kept.asking_of_stuck (h : d.Kept capacity ch) {e : Nat × Call} (he : e ∈ d.waiting)
    (hs : (d.world.step? e.1).isSome = false) :
    ch.send? e.1 e.2 = none ∧ e.1 ∈ ch.asking := by
  rw [World.step?_handing (task?_of_mem_waiting he) h.there, Option.isSome_map,
    Option.isSome_eq_false_iff, Option.isNone_iff_eq_none] at hs
  exact ⟨hs, List.mem_append_left _ (Channel.send?_eq_none hs).2.1⟩

theorem Kept.flowing (h : d.Kept capacity ch) (hc : 0 < capacity) (hs : d.slots = 0)
    (hq : ch.queue = []) (hw : d.waiting ≠ []) :
    ∃ e ∈ d.waiting, (d.world.step? e.1).isSome = true := by
  by_contra hn
  have hstuck (e : Nat × Call) (he : e ∈ d.waiting) : (d.world.step? e.1).isSome = false :=
    Bool.eq_false_iff.mpr fun hsome => hn ⟨e, he, hsome⟩
  have hpermits : ch.permits ≠ 0 := by
    have := h.permits
    omega
  have hnil : ch.asking = [] := by
    refine h.orderly.asking_eq_nil hq hpermits fun k hk => ?_
    obtain ⟨c, hdriven⟩ := h.asking k hk
    obtain ⟨e, he, rfl⟩ := List.mem_map.mp (h.booked.mem_waiting hdriven)
    exact ⟨e.2, (h.asking_of_stuck he (hstuck e he)).1⟩
  obtain ⟨e, he⟩ := List.exists_mem_of_ne_nil _ hw
  have hmem := (h.asking_of_stuck he (hstuck e he)).2
  rw [hnil] at hmem
  cases hmem

theorem Kept.alone (h : d.Kept capacity ch) (hm : d.move? (.world (.step k)) = some d')
    (hl : d'.lost ≠ d.lost) :
    (∃ call codec v, d.world.tasks[k]? = some (.call d.channel (.serving call codec v)) ∧
      v.step? d.world.moment = some (.done .crashed)) ∧
    d' = { d with
      world := (d.world.modifyChannel d.channel Channel.dropSender).setTask k .ended
      lost := d.lost ++ [k] } := by
  obtain ⟨w, hw, rfl⟩ := Option.map_eq_some_iff.mp hm
  have hs := World.steps_of_step? hw
  obtain ⟨hbefore, hafter⟩ := driven?_of_lost hl
  obtain ⟨c₀, hk, ho⟩ := Option.map_eq_some_iff.mp hbefore
  have hi := task?_eq_some_iff.mp hk
  cases hs.drives hi (h.booked.driving k c₀ hk).1 with
  | worked _ ht =>
    rw [driven?_eq_some (task?_eq_some_iff.mpr ht)] at hafter
    cases hafter
  | handed | lined => cases ho
  | lost hv ht hw' =>
    have hturns := hs.turns
    rw [task?_of_ended ht] at hturns
    exact ⟨⟨_, _, _, hi, hv⟩, hw' ▸ (h.booked.lost_of_turns hk rfl hturns).1⟩

theorem Kept.unhindered (h : d.Kept capacity ch) (hr : ch.receiving = false) {e : Nat × Call}
    (he : e ∈ d.waiting) : ∃ w, d.world.step? e.1 = some w ∧ w.tasks[e.1]? = some .ended := by
  have ht := task?_of_mem_waiting he
  rw [World.step?_handing ht h.there, Channel.send?, hr]
  exact ⟨_, rfl, List.getElem?_set_self (List.getElem?_eq_some_iff.mp ht).1⟩

theorem Kept.handedBack (h : d.Kept capacity ch) (hc : 0 < capacity) :
    d.HandedBack capacity ch := by
  have hkeys : (d.done.map Prod.fst).Perm (d.handed.map Prod.fst ++ d.waiting.map Prod.fst) :=
    List.map_append ▸ h.booked.settled.map Prod.fst
  exact {
    bounded := by
      have hpermits := h.permits
      unfold Channel.permits at hpermits
      omega
    once := (List.nodup_append.mp (hkeys.nodup_iff.mp h.booked.doneKeys)).1
    unaltered := h.booked.done
    done := fun e he => h.booked.settled.mem_iff.mpr (List.mem_append_left _ he)
    received := h.received
    accounted := fun e he => by
      cases hd : d.driven? e.1 with
      | none => exact .inr (h.booked.gone e he hd)
      | some x =>
        cases x with
        | none => exact .inl rfl
        | some c =>
          have hw := h.booked.mem_waiting hd
          exact .inr (.inl (hkeys.mem_iff.mpr (List.mem_append_right _ hw)))
    complete := fun hr => by
      rw [← h.queued hr, ← List.map_append]
      exact h.booked.settled.map Prod.snd
    flowing := fun _ => h.flowing hc
    lost := fun k hk => (h.booked.lost k hk).2.2
    alone := fun _ _ => h.alone
    unhindered := fun hr _ => h.unhindered hr }

/-- Whatever calls are started on a channel, wherever they go and whatever becomes of them, each
that is done is handed back once, as long as somebody receives. -/
theorem handed_back_once {w : World} {capacity senders : Nat} {moves : List Move} {d : Desk}
    (hw : ∀ (k : Nat) (c : CallTask), w.tasks[k]? ≠ some (.call w.channels.length c))
    (hc : 0 < capacity) (hrun : run? moves (ofWorld w capacity senders) = some d) :
    ∃ ch, d.world.channels[d.channel]? = some ch ∧ d.HandedBack capacity ch := by
  obtain ⟨ch, h⟩ := kept_of_run? (kept_ofWorld w hw) hrun
  exact ⟨ch, h.there, h.handedBack hc⟩

/-- More calls than there is room for, one of which is lost. -/
def crowd : List Move :=
  [.goWith (World.hermit fun _ => .finish none (some [1])) World.musing,
    .goWith (World.hermit fun _ => .finish none (some [1])) World.musing,
    .goWith (World.hermit fun _ => .crash) World.musing] ++
  [0, 0, 0, 1, 1, 1, 2, 2].map (.world <| .step ·) ++ [.receive, .world (.step 1), .receive]

theorem handed_back_with_one_lost : ∃ d ch, run? crowd (ofWorld {} 1 0) = some d ∧
    d.handed.map Prod.fst = [0, 1] ∧ d.lost = [2] ∧ d.received.length = 2 ∧
    d.HandedBack 1 ch := by
  obtain ⟨d, hrun, hhanded, hlost, hreceived⟩ : ∃ d, run? crowd (ofWorld {} 1 0) = some d ∧
      d.handed.map Prod.fst = [0, 1] ∧ d.lost = [2] ∧ d.received.length = 2 :=
    ⟨_, rfl, rfl, rfl, rfl⟩
  obtain ⟨ch, -, h⟩ := handed_back_once (fun _ _ => by simp) Nat.one_pos hrun
  exact ⟨d, ch, hrun, hhanded, hlost, hreceived, h⟩

/-! ## The end of a channel -/

/-- All calls that were started are over once nobody drives any of them. -/
theorem Kept.over_iff (h : d.Kept capacity ch) : d.busy = [] ↔
    ∀ e ∈ d.started, e.1 ∈ d.handed.map Prod.fst ∨ e.1 ∈ d.lost := by
  have hbusy : d.busy = [] ↔ ∀ e ∈ d.started, d.driven? e.1 = none := List.filterMap_eq_nil_iff
  rw [hbusy]
  constructor
  · intro hover e he
    refine (h.booked.gone e he (hover e he)).imp_left fun hdone => ?_
    have hwaiting : d.waiting = [] :=
      List.filterMap_eq_nil_iff.mpr fun e he => by rw [hover e he]; rfl
    have hsettled := h.booked.settled
    rw [hwaiting, List.append_nil] at hsettled
    exact (hsettled.map Prod.fst).mem_iff.mp hdone
  · intro hall e he
    rcases hall e he with hhanded | hlost
    · exact h.booked.driven?_of_handed hhanded
    · exact (h.booked.lost _ hlost).2.1

/-- The end of a channel is told when all calls that were started on it were handed back or lost,
all that were handed back were received, and its user has let go of the sending side: of each copy
and each permit, and of each call that was received. -/
theorem ended_iff {w : World} {capacity senders : Nat} {moves : List Move} {d : Desk}
    (hw : ∀ (k : Nat) (c : CallTask), w.tasks[k]? ≠ some (.call w.channels.length c))
    (hrun : run? moves (ofWorld w capacity senders) = some d) :
    ∃ ch, d.world.channels[d.channel]? = some ch ∧ (ch.receiving = true →
      (ch.receive.1 = .ended ↔
        (∀ e ∈ d.started, e.1 ∈ d.handed.map Prod.fst ∨ e.1 ∈ d.lost) ∧
          d.received = d.handed.map Prod.snd ∧ d.senders = 0 ∧ d.slots = 0 ∧ d.kept = 0)) := by
  obtain ⟨ch, h⟩ := kept_of_run? (kept_ofWorld w hw) hrun
  refine ⟨ch, h.there, fun hr => ?_⟩
  have hqueue : d.received = d.handed.map Prod.snd ↔ ch.queue = [] := by
    rw [h.queued hr]
    exact List.self_eq_append_right
  rw [Channel.receive_eq_ended_iff, h.senders, ← h.over_iff, hqueue, ← List.length_eq_zero_iff,
    ← List.length_eq_zero_iff (l := d.busy)]
  omega

/-- A call that is started, handed back and received. -/
def visit : List Move :=
  [.goWith (World.hermit fun _ => .finish none (some [1])) World.musing, .dropSender] ++
  [0, 0, 0].map (.world <| .step ·) ++ [.receive]

theorem ended_after_letting_go : ∃ d ch, run? (visit ++ [.letGo]) (ofWorld {} 1 1) = some d ∧
    d.world.channels[d.channel]? = some ch ∧ ch.receive.1 = .ended := by
  obtain ⟨d, ch, hrun, hch, hr, hstarted, hhanded, hreceived, hs, hslots, hkept⟩ : ∃ d ch,
      run? (visit ++ [.letGo]) (ofWorld {} 1 1) = some d ∧
        d.world.channels[d.channel]? = some ch ∧ ch.receiving = true ∧
        d.started.map Prod.fst = [0] ∧ d.handed.map Prod.fst = [0] ∧
        d.received = d.handed.map Prod.snd ∧ d.senders = 0 ∧ d.slots = 0 ∧ d.kept = 0 :=
    ⟨_, _, rfl, rfl, rfl, rfl, rfl, rfl, rfl, rfl, rfl⟩
  obtain ⟨ch', hch', h⟩ := ended_iff (fun _ _ => by simp) hrun
  cases hch.symm.trans hch'
  refine ⟨d, ch, hrun, hch, (h hr).mpr ⟨fun e he => ?_, hreceived, hs, hslots, hkept⟩⟩
  rw [hhanded, ← hstarted]
  exact .inl (List.mem_map_of_mem he)

/-- A call that was received and is kept holds the sending side, so the end is not told. -/
theorem unended_while_kept : ∃ d ch, run? visit (ofWorld {} 1 1) = some d ∧
    d.world.channels[d.channel]? = some ch ∧ ch.receiving = true ∧
    d.started.map Prod.fst = [0] ∧ d.handed.map Prod.fst = [0] ∧
    d.received = d.handed.map Prod.snd ∧ d.senders = 0 ∧ d.slots = 0 ∧
    d.world.AtRest ∧ ch.receive.1 = .empty := by
  refine ⟨_, _, rfl, rfl, rfl, rfl, rfl, rfl, rfl, rfl, fun now i _ => ?_, rfl⟩
  match i with
  | 0 => rfl
  | i + 1 => rfl

end Desk

end PeerCall
