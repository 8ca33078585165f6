import PeerCall.Proofs.World.Calls
import PeerCall.Proofs.World.Following

/-! # Where calls begin

A world that came about by commands and steps is tidy (`World.Tidy`), and stays so whatever is done
(`World.Tidy.of_run?`). Where several calls were started in such a world, the world in which one of
them was started alone is ready to follow (`World.Begun.shadow`). -/

namespace PeerCall.World

variable {w w' V W : World} {client : Client} {f : Focus} {ts ls : List Nat} {moves : List Move}
  {i k n channel : Nat} {call : Call} {calls : List (Call × Nat)}

/-! ## Tidy worlds -/

/-- Whatever is named in a world is there: the links that tasks hold and that wait in inboxes, the
channels that calls are handed back on, and the tokens that were fired or will be. A token has no
name that a server could read, so a server cannot tell the contexts of two streams apart. -/
structure Tidy (w : World) : Prop where
  inOrder : w.InOrder
  routed : ∀ (k channel : Nat) (c : CallTask), w.tasks[k]? = some (.call channel c) →
    channel < w.channels.length
  fired : ∀ t ∈ w.moment.fired, t.isMade w.tokens = true
  timed : ∀ (k : Nat) (t : Token) (ms : Nat) (wake : Option Nat),
    w.tasks[k]? = some (.cancel t ms wake) → t.isMade w.tokens = true
  blind : ∀ (k inbox : Nat) (intake : Intake), w.tasks[k]? = some (.accept inbox intake) →
    intake.Blind

theorem Steps.tokens (h : Steps w i w') : w.tokens ≤ w'.tokens := by
  cases h with
  | accepted => exact Nat.le_succ _
  | _ => exact Nat.le_refl _

/-- What is fired in a step is the token of a task that is there for that. -/
theorem Steps.mem_fired {t : Token} (h : Steps w i w') (ht : t ∈ w'.moment.fired) :
    t ∈ w.moment.fired ∨ ∃ ms wake, w.tasks[i]? = some (.cancel t ms wake) := by
  cases h with
  | fired ht₀ =>
    rcases List.mem_cons.mp ht with rfl | ht
    · exact .inr ⟨_, _, ht₀⟩
    · exact .inl ht
  | _ => exact .inl ht

namespace Tidy

theorem step (h : w.Tidy) (hs : w.Steps i w') : w'.Tidy where
  inOrder := hs.inOrder h.inOrder
  routed k channel c hc := by
    obtain ⟨c', hc'⟩ := hs.caller hc
    rw [hs.length_channels]
    exact h.routed k channel c' hc'
  fired t ht := by
    rcases hs.mem_fired ht with ht | ⟨ms, wake, ht⟩
    · exact Token.isMade_mono (h.fired t ht) hs.tokens
    · exact Token.isMade_mono (h.timed i t ms wake ht) hs.tokens
  timed k t ms wake ht := by
    obtain ⟨wake', ht'⟩ := hs.canceller ht
    exact Token.isMade_mono (h.timed k t ms wake' ht') hs.tokens
  blind k inbox intake ht := h.blind k inbox intake (hs.acceptor ht)

theorem of_run? (h : w.Tidy) (hfire : ∀ t, Move.fire t ∈ moves → t.isMade w.tokens = true)
    (hrun : run? moves w = some w') : w'.Tidy := by
  have hP : w'.Tidy ∧ w.tokens ≤ w'.tokens := by
    refine run?_induct (P := fun _ w' => w'.Tidy ∧ w.tokens ≤ w'.tokens) ?_ ?_ ?_
      ⟨h, Nat.le_refl _⟩ hrun
    · rintro _ w₁ i w₂ ⟨h₁, hle⟩ hs
      have hsteps := steps_of_step? hs
      exact ⟨h₁.step hsteps, Nat.le_trans hle hsteps.tokens⟩
    · rintro _ w₁ now ⟨h₁, hle⟩ -
      exact ⟨{ h₁ with inOrder := h₁.inOrder.later _ }, hle⟩
    · rintro _ w₁ t ⟨h₁, hle⟩ ht
      refine ⟨{ h₁ with inOrder := h₁.inOrder.later _, fired := fun t' ht' => ?_ }, hle⟩
      rcases List.mem_cons.mp ht' with rfl | ht'
      · exact Token.isMade_mono (hfire _ ht) hle
      · exact h₁.fired t' ht'
  exact hP.1

/-- A task of a tidy world is the same where no others were started. -/
theorem like (h : w.Tidy) {t : Task} (ht : w.tasks[k]? = some t) {task channel' : Nat} :
    t.Like ⟨w.tokens, task, w.channels.length, channel'⟩ (List.range w.links.length) k k t := by
  have hlink {link : Nat} {s : Side} (he : t.end? = some (link, s)) :
      (List.range w.links.length)[link]? = some link :=
    List.getElem?_range (h.inOrder.held k link s ⟨t, ht, he⟩)
  cases t with
  | call channel c =>
    refine .call (.inl ⟨rfl, rfl, h.routed k channel c ht⟩) ?_
    cases c with
    | greeting => exact .greeting (hlink rfl)
    | exchanging => exact .exchanging (hlink rfl)
    | _ => exact .same rfl
  | respond owner link r => exact .respond (hlink rfl) (.same r)
  | accept inbox intake => exact .accept (h.blind k inbox intake ht)
  | script owner a s => exact .script (hlink rfl)
  | cancel t ms wake => exact .cancel (h.timed k t ms wake ht)
  | ended => exact .ended

end Tidy

theorem tidy_evening {server : Server} (hb : server.Blind) : (evening server).Tidy where
  inOrder := inOrder_evening server
  routed k channel c ht := by
    match k with
    | 0 => cases ht
    | k + 1 => cases ht
  fired _ ht := by cases ht
  timed k _ _ _ ht := by
    match k with
    | 0 => cases ht
    | k + 1 => cases ht
  blind k inbox intake ht := by
    match k with
    | 0 =>
      cases ht
      exact hb
    | k + 1 => cases ht

theorem getElem?_range_eq_some {j : Nat} (h : (List.range n)[j]? = some k) : j < n ∧ k = j := by
  obtain ⟨hlt, rfl⟩ := List.getElem?_eq_some_iff.mp h
  exact ⟨by simpa using hlt, List.getElem_range _⟩

/-- Who sees all links sees all arrivals. -/
theorem InOrder.seen (hw : w.InOrder) :
    w.network.seen (List.range w.links.length) = w.network := by
  have harrival {box : Inbox} (hb : box ∈ w.network.inboxes) {a : Arrival} (ha : a ∈ box.queue) :
      a.seen (List.range w.links.length) = some a := by
    have hlt : a.link < w.links.length := hw.queued a.link fun hnil =>
      Network.ne_of_arrivals hnil hb ha rfl
    cases hseen : a.seen (List.range w.links.length) with
    | none => exact absurd (List.mem_range.mpr hlt) (Arrival.seen_eq_none_iff.mp hseen)
    | some b =>
      obtain ⟨hl, hprotocol, hdialer⟩ := Arrival.getElem?_of_seen hseen
      have hlink := (getElem?_range_eq_some hl).2
      cases a
      cases b
      cases hlink
      cases hprotocol
      cases hdialer
      rfl
  have hinbox {box : Inbox} (hb : box ∈ w.network.inboxes) :
      box.seen (List.range w.links.length) = box := by
    rw [Inbox.seen, List.filterMap_congr fun a ha => harrival hb ha, List.filterMap_some]
  rw [Network.seen, List.map_congr_left fun box hb => hinbox hb, List.map_id'']
  exact fun _ => rfl

/-! ## Starting several calls -/

theorem getElem?_map_zip {as : List α} {bs : List β} {g : α × β → γ} {i : Nat}
    (ha : as[i]? = some a) (hb : bs[i]? = some b) :
    ((as.zip bs).map g)[i]? = some (g (a, b)) := by
  have hzip : (as.zip bs)[i]? = some (a, b) := List.getElem?_zip_eq_some.mpr ⟨ha, hb⟩
  rw [List.getElem?_map, hzip, Option.map_some]

theorem nodup_channels (n count : Nat) : ((List.range count).map (n + ·)).Nodup :=
  List.nodup_range.map fun _ _ => Nat.add_left_cancel

theorem getElem?_channels {i count : Nat} (hi : i < count) (n : Nat) :
    ((List.range count).map (n + ·))[i]? = some (n + i) := by
  rw [List.getElem?_map, List.getElem?_range hi, Option.map_some]

/-- The channels after a sender was added for each of these calls. -/
def withSenders (channels : List (Channel Call)) (calls : List (Call × Nat)) :
    List (Channel Call) :=
  calls.foldl (fun channels e => channels.modify e.2 Channel.addSender) channels

theorem startAll_eq_ok (h : w.startAll client calls = .ok w') :
    ∃ cs, calls.map (taskOf client ·.1) = cs.map Except.ok ∧ w' = { w with
      channels := withSenders w.channels calls
      tasks := w.tasks ++ (calls.zip cs).map fun (e, c) => .call e.2 c } := by
  induction calls generalizing w with
  | nil =>
    cases h
    exact ⟨[], rfl, by simp [withSenders]⟩
  | cons e calls ih =>
    rw [startAll] at h
    split at h
    · cases h
    · rename_i w₁ hstart
      unfold start at hstart
      split at hstart
      · cases hstart
      · rename_i c hc
        cases hstart
        obtain ⟨cs, hcs, rfl⟩ := ih h
        refine ⟨c :: cs, by rw [List.map_cons, List.map_cons, hc, hcs], ?_⟩
        simp [withSenders, modifyChannel, spawn]

theorem getElem?_withSenders (channels : List (Channel Call)) (hn : (calls.map Prod.snd).Nodup)
    (ch : Nat) : (withSenders channels calls)[ch]? =
      if ch ∈ calls.map Prod.snd then channels[ch]?.map Channel.addSender else channels[ch]? := by
  induction calls generalizing channels with
  | nil => simp [withSenders]
  | cons e calls ih =>
    obtain ⟨hnot, hn⟩ := List.nodup_cons.mp hn
    have hrest := ih (channels.modify e.2 Channel.addSender) hn
    rw [withSenders, List.foldl_cons, ← withSenders, hrest, List.map_cons]
    by_cases hch : e.2 = ch
    · subst hch
      rw [if_neg hnot, if_pos (List.mem_cons_self ..), List.getElem?_modify_eq]
      rfl
    · have hiff : ch ∈ e.2 :: calls.map Prod.snd ↔ ch ∈ calls.map Prod.snd := by
        simp [Ne.symm hch]
      rw [List.getElem?_modify_ne _ _ hch]
      simp only [hiff]

/-- Several calls were started, each on a channel of its own. -/
structure Begun (w : World) (client : Client) (calls : List Call) (w' : World) : Prop where
  rest : w' = { w with channels := w'.channels, tasks := w'.tasks }
  tasks : ∀ k < w.tasks.length, w'.tasks[k]? = w.tasks[k]?
  channels : ∀ ch < w.channels.length, w'.channels[ch]? = w.channels[ch]?
  length : w'.tasks.length = w.tasks.length + calls.length
  begun : ∀ i call, calls[i]? = some call → ∃ c, taskOf client call = .ok c ∧
    w'.tasks[w.tasks.length + i]? = some (.call (w.channels.length + i) c) ∧
    w'.channels[w.channels.length + i]? = some (handedOn none)

theorem begun_of_startAll {calls : List Call}
    (h : startAll { w with
        channels := w.channels ++ List.replicate calls.length (Channel.ofCapacity 1 0) } client
      (calls.zip ((List.range calls.length).map (w.channels.length + ·))) = .ok w') :
    w.Begun client calls w' := by
  obtain ⟨cs, hcs, rfl⟩ := startAll_eq_ok h
  have hsnd : (calls.zip ((List.range calls.length).map (w.channels.length + ·))).map Prod.snd =
      (List.range calls.length).map (w.channels.length + ·) :=
    List.map_snd_zip (by simp)
  have hlength : cs.length = calls.length := by
    have hlength := congrArg List.length hcs
    simpa using hlength.symm
  have hchannel (ch : Nat) := getElem?_withSenders (w.channels ++
    List.replicate calls.length (Channel.ofCapacity 1 0)) (hsnd ▸ nodup_channels ..) ch
  simp only [hsnd] at hchannel
  exact {
    rest := rfl
    tasks := fun k hk => List.getElem?_append_left hk
    channels := fun ch hch => by
      rw [hchannel, if_neg (by simp; omega), List.getElem?_append_left hch]
    length := by simp [hlength]
    begun := fun i call hi => by
      obtain ⟨hlt, rfl⟩ := List.getElem?_eq_some_iff.mp hi
      have hi' : i < cs.length := hlength ▸ hlt
      have hc : some (taskOf client calls[i]) = some (.ok cs[i]) := by
        have hc := congrArg (·[i]?) hcs
        simpa [hlt, hi'] using hc
      refine ⟨cs[i], Option.some.inj hc, ?_, ?_⟩
      · rw [List.getElem?_append_right (Nat.le_add_right ..), Nat.add_sub_cancel_left]
        have he : (calls.zip ((List.range calls.length).map (w.channels.length + ·)))[i]? =
            some (calls[i], w.channels.length + i) :=
          List.getElem?_zip_eq_some.mpr
            ⟨List.getElem?_eq_getElem hlt, getElem?_channels hlt _⟩
        exact getElem?_map_zip he (List.getElem?_eq_getElem hi')
      · rw [hchannel, if_pos (by simp [hlt]), List.getElem?_append_right (Nat.le_add_right ..),
          Nat.add_sub_cancel_left, List.getElem?_replicate, if_pos hlt]
        rfl }

namespace Begun

variable {calls : List Call}

theorem links (h : w.Begun client calls w') : w'.links = w.links := by rw [h.rest]

/-- A task that was not there before is that of one of the calls. -/
theorem task_cases (h : w.Begun client calls w') {t : Task} (ht : w'.tasks[k]? = some t) :
    w.tasks[k]? = some t ∨ ∃ i call c, calls[i]? = some call ∧ k = w.tasks.length + i ∧
      taskOf client call = .ok c ∧ t = .call (w.channels.length + i) c := by
  rcases Nat.lt_or_ge k w.tasks.length with hlt | hge
  · exact .inl (h.tasks k hlt ▸ ht)
  · obtain ⟨i, rfl⟩ := Nat.exists_eq_add_of_le hge
    have hi : i < calls.length := by
      have hlt := (List.getElem?_eq_some_iff.mp ht).1
      rw [h.length] at hlt
      omega
    obtain ⟨c, hc, htask, -⟩ := h.begun i calls[i] (List.getElem?_eq_getElem hi)
    cases htask.symm.trans ht
    exact .inr ⟨i, calls[i], c, List.getElem?_eq_getElem hi, rfl, hc, rfl⟩

theorem inOrder (h : w.Begun client calls w') (hw : w.InOrder) : w'.InOrder where
  held k link s hh := by
    obtain ⟨t, ht, he⟩ := hh
    rw [h.links]
    rcases h.task_cases ht with ht | ⟨i, call, c, -, -, hc, rfl⟩
    · exact hw.held k link s ⟨t, ht, he⟩
    · rw [end?_of_taskOf _ hc] at he
      cases he
  queued link hq := by
    rw [h.rest] at hq
    rw [h.links]
    exact hw.queued link hq

theorem tidy (h : w.Begun client calls w') (hw : w.Tidy) : w'.Tidy where
  inOrder := h.inOrder hw.inOrder
  routed k channel c hc := by
    rcases h.task_cases hc with hc | ⟨i, call, c', hi, -, -, hc'⟩
    · have hlt := hw.routed k channel c hc
      have hkept := (h.channels channel hlt).trans (List.getElem?_eq_getElem hlt)
      exact (List.getElem?_eq_some_iff.mp hkept).1
    · cases hc'
      obtain ⟨-, -, -, hchannel⟩ := h.begun i call hi
      exact (List.getElem?_eq_some_iff.mp hchannel).1
  fired := by
    rw [h.rest]
    exact hw.fired
  timed k t ms wake ht := by
    rcases h.task_cases ht with ht | ⟨_, _, _, -, -, -, hc⟩
    · rw [h.rest]
      exact hw.timed k t ms wake ht
    · cases hc
  blind k inbox intake ht := by
    rcases h.task_cases ht with ht | ⟨_, _, _, -, -, -, hc⟩
    · exact hw.blind k inbox intake ht
    · cases hc

/-- The world in which one of the calls was started alone. -/
theorem shadow (h : w.Begun client calls w') (hw : w.Tidy) {c : CallTask}
    (hi : calls[i]? = some call) (hc : taskOf client call = .ok c) :
    Shadow ⟨w.tokens, w.tasks.length, w.channels.length, w.channels.length + i⟩
      (List.range w.tasks.length ++ [w.tasks.length + i]) (List.range w.links.length)
      { w with
        channels := w.channels ++ [handedOn none]
        tasks := w.tasks ++ [.call w.channels.length c] } w' := by
  obtain ⟨c', hc', htask, hchannel⟩ := h.begun i call hi
  cases hc.symm.trans hc'
  have hplain := link?_of_taskOf hc
  have hnew {k : Nat} (hk : k ∉ List.range w.tasks.length ++ [w.tasks.length + i]) :
      w.tasks.length ≤ k ∧ k ≠ w.tasks.length + i := by
    simpa using hk
  rw [h.rest]
  exact {
    moment := rfl
    endpoints := rfl
    made := hw.fired
    tokens := ⟨Nat.le_refl _, Nat.le_refl _⟩
    network := hw.inOrder.seen.symm
    links := {
      length := List.length_range
      nodup := List.nodup_range
      same := fun hk => by rw [(getElem?_range_eq_some hk).2] }
    channels := {
      below := fun ch hch => by
        rw [List.getElem?_append_left hch]
        exact (h.channels ch hch).symm
      own := (List.getElem?_concat_length ..).trans hchannel.symm
      beyond := Nat.le_add_right .. }
    tasks := {
      length := by simp
      nodup := by
        refine List.nodup_append.mpr ⟨List.nodup_range, List.nodup_singleton _, ?_⟩
        rintro j hj _ (_ | ⟨_, ⟨⟩⟩) rfl
        exact Nat.not_lt_of_le (Nat.le_add_right ..) (List.mem_range.mp hj)
      like := fun {j k} hk => by
        rcases getElem?_concat_cases hk with hk | ⟨hj, rfl⟩
        · obtain ⟨hlt, rfl⟩ := getElem?_range_eq_some hk
          have ht := List.getElem?_eq_getElem hlt
          exact ⟨_, _, (List.getElem?_append_left hlt).trans ht, (h.tasks k hlt).trans ht,
            hw.like ht⟩
        · rw [List.length_range] at hj
          subst hj
          exact ⟨_, _, List.getElem?_concat_length .., htask,
            .call (.inr ⟨rfl, rfl, rfl⟩) (.same hplain)⟩
      foreign := fun {k t} hk ht => by
        obtain ⟨hge, hne⟩ := hnew hk
        rcases h.task_cases ht with ht | ⟨i', call', c', -, rfl, hc', rfl⟩
        · exact absurd (List.getElem?_eq_some_iff.mp ht).1 (Nat.not_lt_of_le hge)
        · exact {
            apart := fun link s he => by
              rw [end?_of_taskOf _ hc'] at he
              cases he
            channel := fun ch c he => by
              cases he
              exact ⟨Nat.le_add_right .., fun he => hne (by rw [Nat.add_left_cancel he])⟩
            unaccepting := fun _ _ he => by cases he
            uncancelling := fun _ _ _ he => by cases he } } }

end Begun

end PeerCall.World
